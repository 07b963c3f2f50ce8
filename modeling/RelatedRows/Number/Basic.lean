import RelatedRows.Number.Binary64

/-!
# Numbers

A number is an integer of any size or a `Binary64`.  The two kinds are compared by value: `Number.place` is the place of
a number on the line, the same for `1` and `1.0`, and `Place.compare` is the order of the places.

* `Dyadic`: a fraction with a power of two below it, in lowest terms.
* `Place`: a dyadic, one of the two ends of the line, or nowhere; an undefined number is at a place that no other number
  object shares.
-/

namespace RelatedRows

inductive Number where
  | int (value : Int)
  | real (value : Binary64)
deriving DecidableEq, Repr

/-- The fraction `numerator / 2 ^ scale`; in lowest terms, the numerator is odd or the scale is zero. -/
structure DyadicFraction where
  numerator : Int
  scale : Nat
deriving DecidableEq, Repr

namespace DyadicFraction

/-- The fraction `m / 2 ^ scale` in lowest terms. -/
def reduce (m : Int) : (scale : Nat) → DyadicFraction
  | 0 => ⟨m, 0⟩
  | scale + 1 => if m % 2 = 0 then reduce (m / 2) scale else ⟨m, scale + 1⟩

/-- The number `m · 2 ^ q`. -/
def ofScaled (m q : Int) : DyadicFraction :=
  if 0 ≤ q then ⟨m * Int.pow 2 q.toNat, 0⟩ else reduce m (-q).toNat

def compare (a b : DyadicFraction) : Ordering :=
  Ord.compare (a.numerator * Int.pow 2 b.scale) (b.numerator * Int.pow 2 a.scale)

theorem compare_self (a : DyadicFraction) : a.compare a = .eq := by
  simp [compare]

end DyadicFraction

inductive Place where
  | lowEnd
  | at (value : DyadicFraction)
  | highEnd
  | nowhere (object : Nat)
deriving DecidableEq, Repr

namespace Place

def rank : Place → Nat
  | .lowEnd => 0
  | .at _ => 1
  | .highEnd => 2
  | .nowhere _ => 3

/-- Places in their order.  What is nowhere comes last, object by object. -/
def compare (a b : Place) : Ordering :=
  match a, b with
  | .at x, .at y => x.compare y
  | .nowhere a, .nowhere b => Ord.compare a b
  | a, b => Ord.compare a.rank b.rank

end Place

namespace Number

def place : Number → Place
  | .int n => .at ⟨n, 0⟩
  | .real (.finite negative m q) => .at (DyadicFraction.ofScaled (if negative then -(m : Int) else m) q)
  | .real (.infinite negative) => if negative then .lowEnd else .highEnd
  | .real (.undefined object) => .nowhere object

/-- The integer with the same value, if there is one. -/
def toInt? (n : Number) : Option Int :=
  match n.place with
  | .at ⟨m, 0⟩ => some m
  | _ => none

/-- Only an undefined number is nowhere, each object by itself. -/
theorem place_eq_nowhere_iff {n : Number} {object : Nat} :
    n.place = .nowhere object ↔ n = .real (.undefined object) := by
  constructor
  · intro h
    unfold place at h
    split at h
    · cases h
    · cases h
    · split at h <;> cases h
    · rw [Place.nowhere.inj h]
  · rintro rfl
    rfl

end Number

end RelatedRows

import RelatedRows.Value.Basic

/-!
# Equality and order of stored values

How a database compares the values of two columns, and a stable sort by such a comparison.

* `Value.equals`: nothing equals nothing, not even itself; a truth value equals the same truth value only; numbers are
  equal by value, undefined ones as objects.
* `Value.compare`: truth values, numbers, texts by code point, lists and objects (all alike), and nothing last.
* `stableSort le xs`: `xs` in the order `le`, with ties in their old order.
-/

namespace RelatedRows

namespace Value

def equals : Value → Value → Bool
  | .bool a, .bool b => a = b
  | .number a, .number b => a.place = b.place
  | .text a, .text b => a = b
  | _, _ => false

theorem equals_null_left (v : Value) : Value.null.equals v = false := by
  cases v <;> rfl

theorem equals_null_right (v : Value) : v.equals .null = false := by
  cases v <;> rfl

def rank : Value → Nat
  | .bool _ => 0
  | .number _ => 1
  | .text _ => 2
  | .list _ => 3
  | .object _ => 3
  | .null => 4

def compare : Value → Value → Ordering
  | .bool a, .bool b => Ord.compare a.toNat b.toNat
  | .number a, .number b => a.place.compare b.place
  | .text a, .text b => Ord.compare a b
  | a, b => Ord.compare a.rank b.rank

end Value

section StableSort

variable {α : Type} (le : α → α → Bool)

/-- Puts an element in front of the first one that it may precede. -/
def insertSorted (a : α) : List α → List α
  | [] => [a]
  | b :: bs => if le a b then a :: b :: bs else b :: insertSorted a bs

def stableSort : List α → List α
  | [] => []
  | a :: as => insertSorted le a (stableSort as)

variable {le}

theorem mem_insertSorted {a x : α} {bs : List α} : x ∈ insertSorted le a bs ↔ x = a ∨ x ∈ bs := by
  induction bs with
  | nil => simp [insertSorted]
  | cons b bs ih =>
    by_cases h : le a b = true
    · simp [insertSorted, h]
    · simp only [insertSorted, h, Bool.false_eq_true, if_false, List.mem_cons, ih]
      grind

theorem mem_stableSort {x : α} {as : List α} : x ∈ stableSort le as ↔ x ∈ as := by
  induction as with
  | nil => simp [stableSort]
  | cons a as ih => simp [stableSort, mem_insertSorted, ih]

end StableSort

end RelatedRows

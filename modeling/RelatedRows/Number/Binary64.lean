/-!
# Binary floating-point numbers

`Binary64` holds the numbers with a significand of 53 bits and an exponent of 11: `m · 2 ^ q` with `m < 2 ^ 53` and
`-1074 ≤ q ≤ 971`, two infinities and the undefined values.  A number that is not zero is kept with the largest
significand that it can have.  Undefined values are written alike, and are told apart only as objects.

* `roundHalfEven num den`: the whole number nearest to `num / den`, the even one of two.
* `ofRatio`, `ofDecimal`: the nearest `Binary64` of a positive ratio and of a decimal numeral.
-/

namespace RelatedRows

inductive Binary64 where
  | finite (negative : Bool) (significand : Nat) (exponent : Int)
  | infinite (negative : Bool)
  | undefined (object : Nat)
deriving DecidableEq, Repr

/-- The whole number nearest to `num / den`; halfway between two, the even one. -/
def roundHalfEven (num den : Nat) : Nat :=
  let q := num / den
  let r := num % den
  if 2 * r < den then q else if den < 2 * r then q + 1 else q + q % 2

namespace Binary64

def leastExponent : Int := -1074

def greatestExponent : Int := 971

def zero (negative : Bool) : Binary64 :=
  .finite negative 0 leastExponent

/-- The fraction `num / den` divided by `2 ^ q`. -/
def scaleDown (num den : Nat) (q : Int) : Nat × Nat :=
  if 0 ≤ q then (num, den * Nat.pow 2 q.toNat) else (num * Nat.pow 2 (-q).toNat, den)

/-- The exponent at which `num / den` has a significand of 53 bits, or the least one. -/
def exponentOf (num den : Nat) : Int :=
  let q := (num.log2 : Int) - den.log2 - 52
  let (n, d) := scaleDown num den q
  max (if n < d * Nat.pow 2 52 then q - 1 else q) leastExponent

/-- The number nearest to a positive ratio. -/
def ofRatio (negative : Bool) (num den : Nat) : Binary64 :=
  let q := exponentOf num den
  let (n, d) := scaleDown num den q
  let m := roundHalfEven n d
  let (m, q) := if m = Nat.pow 2 53 then (Nat.pow 2 52, q + 1) else (m, q)
  if greatestExponent < q then .infinite negative else .finite negative m q

/-- The number nearest to `digits · 10 ^ exponent`.  A magnitude outside `10 ^ -400 … 10 ^ 400` is settled by the count
of its digits alone. -/
def ofDecimal (negative : Bool) (digits : Nat) (exponent : Int) : Binary64 :=
  let size := exponent + (Nat.toDigits 10 digits).length
  if digits = 0 || size < -400 then zero negative
  else if 400 < size then .infinite negative
  else if 0 ≤ exponent then ofRatio negative (digits * Nat.pow 10 exponent.toNat) 1
  else ofRatio negative digits (Nat.pow 10 (-exponent).toNat)

end Binary64

end RelatedRows

import RelatedRows.Number.Binary64

/-!
# Shortest decimals

`Binary64.shortest m q` is the decimal with the fewest digits among those nearer to `m · 2 ^ q` than to any other
`Binary64`, and of these the nearest to it.  `Binary64.text` writes it out: positional for magnitudes from `10 ^ -4` up
to `10 ^ 16`, always with a point; with an exponent of at least two digits outside.
-/

namespace RelatedRows.Binary64

/-- Four times the number and the ends of the interval of reals that round to it, in units of a quarter of `2 ^ q`.
Below a power of two the neighbour is half as far away. -/
structure Basin where
  low : Nat
  centre : Nat
  high : Nat
  closed : Bool

def basin (m : Nat) (q : Int) : Basin where
  low := if m = Nat.pow 2 52 ∧ leastExponent < q then 4 * m - 1 else 4 * m - 2
  centre := 4 * m
  high := 4 * m + 2
  closed := m % 2 = 0

/-- The positive number `digits · 10 ^ exponent`. -/
structure Decimal where
  digits : Nat
  exponent : Int
deriving DecidableEq, Repr

/-- A number `n · 2 ^ q`, in tenths `10 ^ k`, as a fraction. -/
def inTenths (n : Nat) (q k : Int) : Nat × Nat :=
  let num := if 0 ≤ q then n * Nat.pow 2 q.toNat else n
  let den := if 0 ≤ q then 1 else Nat.pow 2 (-q).toNat
  if 0 ≤ k then (num, den * Nat.pow 10 k.toNat) else (num * Nat.pow 10 (-k).toNat, den)

/-- Whether `d · 10 ^ k` rounds to the number whose basin is given, in units of `2 ^ q`. -/
def Basin.holds (b : Basin) (q k : Int) (d : Nat) : Bool :=
  let (low, den) := inTenths b.low q k
  let (high, _) := inTenths b.high q k
  if b.closed then low ≤ d * den && d * den ≤ high else low < d * den && d * den < high

/-- The decimal of the grid `10 ^ k` that rounds to the number and lies nearest to it. -/
def Basin.onGrid? (b : Basin) (q k : Int) : Option Nat :=
  let (num, den) := inTenths b.centre q k
  let below := num / den
  let near := roundHalfEven num den
  let far := if near = below then below + 1 else below
  if b.holds q k near then some near else if b.holds q k far then some far else none

/-- The exponent of the leading decimal digit of `n · 2 ^ q`: the guess from the binary length is at most one off. -/
def leadingExponent (n : Nat) (q : Int) : Int :=
  let guess := ((n.log2 : Int) + q) * 30103 / 100000
  let reaches (e : Int) : Bool := let (num, den) := inTenths n q e; den ≤ num
  if reaches (guess + 1) then guess + 1 else if reaches guess then guess else guess - 1

/-- The first grid, from the coarsest of `count` on, that has a decimal of the basin. -/
def firstGrid (b : Basin) (q : Int) : (count : Nat) → (k : Int) → Option Decimal
  | 0, _ => none
  | count + 1, k =>
    match b.onGrid? q k with
    | some d => some ⟨d, k⟩
    | none => firstGrid b q count (k - 1)

def shortest (m : Nat) (q : Int) : Decimal :=
  let e := leadingExponent (4 * m) (q - 2)
  (firstGrid (basin m q) (q - 2) 18 (e + 1)).getD ⟨m, q⟩

/-- The decimal without trailing zeros. -/
def Decimal.digitList (d : Decimal) : List Char :=
  (Nat.toDigits 10 d.digits).reverse.dropWhile (· = '0') |>.reverse

/-- The exponent of the leading digit. -/
def Decimal.leading (d : Decimal) : Int :=
  d.exponent + (Nat.toDigits 10 d.digits).length - 1

def pad (width : Nat) (cs : List Char) : List Char :=
  List.replicate (width - cs.length) '0' ++ cs

/-- The digits with a point after the leading one, and the exponent. -/
def Decimal.scientific (d : Decimal) : List Char :=
  let e := d.leading
  let mantissa := match d.digitList with
    | [] => []
    | [c] => [c]
    | c :: cs => c :: '.' :: cs
  let sign := if e < 0 then '-' else '+'
  mantissa ++ 'e' :: sign :: pad 2 (Nat.toDigits 10 e.natAbs)

def Decimal.positional (d : Decimal) : List Char :=
  let ds := d.digitList
  let e := d.leading
  if e < 0 then '0' :: '.' :: List.replicate (e.natAbs - 1) '0' ++ ds
  else
    let whole := e.toNat + 1
    let front := ds.take whole ++ List.replicate (whole - ds.length) '0'
    let back := ds.drop whole
    front ++ '.' :: (if back.isEmpty then ['0'] else back)

def Decimal.text (d : Decimal) : List Char :=
  if -4 ≤ d.leading ∧ d.leading < 16 then d.positional else d.scientific

def text : Binary64 → String
  | .undefined _ => "nan"
  | .infinite negative => if negative then "-inf" else "inf"
  | .finite negative m q =>
    let body := if m = 0 then "0.0" else String.ofList (shortest m q).text
    if negative then "-" ++ body else body

end RelatedRows.Binary64

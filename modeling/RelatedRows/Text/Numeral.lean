import RelatedRows.Text.Blank

/-!
# Integer numerals

`readInteger` reads an optional sign and decimal digits of any script, with single underscores allowed between digits.
A numeral of more than `maxDigits` digits is refused.

`readWhole` is the form numbers in a request may take. A numeral is either plain as it stands (`readPlain`: a minus sign
or none, then plain digits without leading zeros), or it is first brought into that form (`plainForm?`).

* `digitValue?`, `plainDigit?`, `hexDigit?`: the value of a decimal digit of any script, of a plain one, and of a
  hexadecimal one.
* `groupedDigits?`: the digits of a run in which underscores only stand between two digits.
* `dropLeadingZeros?`: a numeral from its first digit other than zero on.
-/

namespace RelatedRows.Text

/-- The zeros of the decimal digit blocks; the digits of a block follow its zero. -/
def digitZeros : List Nat :=
  [0x30, 0x660, 0x6f0, 0x7c0, 0x966, 0x9e6, 0xa66, 0xae6, 0xb66, 0xbe6, 0xc66, 0xce6, 0xd66, 0xde6, 0xe50,
  0xed0, 0xf20, 0x1040, 0x1090, 0x17e0, 0x1810, 0x1946, 0x19d0, 0x1a80, 0x1a90, 0x1b50, 0x1bb0, 0x1c40, 0x1c50,
  0xa620, 0xa8d0, 0xa900, 0xa9d0, 0xa9f0, 0xaa50, 0xabf0, 0xff10, 0x104a0, 0x10d30, 0x11066, 0x110f0, 0x11136,
  0x111d0, 0x112f0, 0x11450, 0x114d0, 0x11650, 0x116c0, 0x11730, 0x118e0, 0x11950, 0x11c50, 0x11d50, 0x11da0,
  0x16a60, 0x16ac0, 0x16b50, 0x1d7ce, 0x1d7d8, 0x1d7e2, 0x1d7ec, 0x1d7f6, 0x1e140, 0x1e2f0, 0x1e950, 0x1fbf0]

def digitValue? (c : Char) : Option Nat :=
  (digitZeros.find? fun z => z ≤ c.toNat && c.toNat ≤ z + 9).map (c.toNat - ·)

def plainDigit? (c : Char) : Option Nat :=
  if '0' ≤ c ∧ c ≤ '9' then some (c.toNat - '0'.toNat) else none

def hexDigit? (c : Char) : Option Nat :=
  if '0' ≤ c ∧ c ≤ '9' then some (c.toNat - '0'.toNat)
  else if 'a' ≤ c ∧ c ≤ 'f' then some (c.toNat - 'a'.toNat + 10)
  else if 'A' ≤ c ∧ c ≤ 'F' then some (c.toNat - 'A'.toNat + 10)
  else none

/-- The longest numeral that is read, in digits. -/
def maxDigits : Nat := 4300

/-- The digits of a text in which every underscore stands between two digits; `afterDigit` says whether the character
before the text was a digit. -/
def digitRun? : (afterDigit : Bool) → List Char → Option (List Nat)
  | afterDigit, [] => if afterDigit then some [] else none
  | afterDigit, c :: cs =>
    if c = '_' then
      if afterDigit then digitRun? false cs else none
    else
      match digitValue? c with
      | some d => (digitRun? true cs).map (d :: ·)
      | none => none

def groupedDigits? (cs : List Char) : Option (List Nat) :=
  digitRun? false cs

def ofDigits (ds : List Nat) : Nat :=
  ds.foldl (fun n d => 10 * n + d) 0

/-- The sign in front of a numeral and the rest of it. -/
def splitSign : List Char → Bool × List Char
  | '-' :: cs => (true, cs)
  | '+' :: cs => (false, cs)
  | cs => (false, cs)

def signed (negative : Bool) (n : Nat) : Int :=
  if negative then -(n : Int) else n

/-- Reads a whole number, with nothing around it but blanks. -/
def readInteger (s : String) : Option Int :=
  let (negative, body) := splitSign (trim s).toList
  match groupedDigits? body with
  | some ds => if ds.length ≤ maxDigits then some (signed negative (ofDigits ds)) else none
  | none => none

/-! ## Whole numbers in a request -/

inductive NumeralFault where
  | malformed
  | tooLong
deriving DecidableEq, Repr

/-- Reads a numeral that is written plainly: a minus sign or none, then `0` alone or digits of which the first is not
zero. A numeral too long is refused whatever follows it. -/
def readPlain (cs : List Char) : Except NumeralFault Int :=
  let (sign, body) := cs.span (· = '-')
  let ds := (body.takeWhile fun c => (plainDigit? c).isSome).filterMap plainDigit?
  if 1 < sign.length || ds = [] || ds.head? = some 0 && body.length ≠ 1 then .error .malformed
  else if maxDigits < ds.length then .error .tooLong
  else if ds.length < body.length then .error .malformed
  else .ok (signed (!sign.isEmpty) (ofDigits ds))

/-- The rest of a numeral after one or more leading zeros; the last zero stays in front of a point or of nothing. -/
def afterZero? : (last : Char) → List Char → Option (List Char)
  | last, [] => some [last]
  | last, c :: cs =>
    if c = '0' || c = '_' then afterZero? c cs
    else if c = '.' then some (last :: c :: cs)
    else if c = '-' || '1' ≤ c && c ≤ '9' then some (c :: cs)
    else none

/-- A numeral without a sign from its first digit other than zero on.  Behind zeros a minus sign stands for such a
digit. -/
def dropLeadingZeros? : List Char → Option (List Char)
  | [] => none
  | c :: cs =>
    if c = '0' then afterZero? c cs
    else if '1' ≤ c && c ≤ '9' then some (c :: cs)
    else none

def dropPlus? : List Char → Option (List Char)
  | '+' :: '-' :: _ => none
  | '+' :: cs => some cs
  | cs => some cs

/-- The part in front of the point, if only zeros follow it; the whole text if there is no point. -/
def dropZeroFraction? (cs : List Char) : Option (List Char) :=
  match cs.dropWhile (· ≠ '.') with
  | [] => some cs
  | _ :: fraction =>
    if fraction ≠ [] && fraction.all (· = '0') then some (cs.takeWhile (· ≠ '.')) else none

/-- The text without its underscores, if each of them stands alone between two other characters; `mayJoin` says whether
a character other than an underscore stands before the text. -/
def dropUnderscores? : (mayJoin : Bool) → List Char → Option (List Char)
  | mayJoin, [] => if mayJoin then some [] else none
  | mayJoin, c :: cs =>
    if c = '_' then
      if mayJoin then dropUnderscores? false cs else none
    else
      (dropUnderscores? true cs).map (c :: ·)

/-- The plain form of a numeral without a sign, which may be written with leading zeros, a fraction of zeros and
underscores. -/
def plainBody? (cs : List Char) : Option (List Char) :=
  dropLeadingZeros? cs >>= dropZeroFraction? >>= dropUnderscores? false

/-- The plain form of a numeral, which may have blanks around it and a plus sign as well. -/
def plainForm? (s : String) : Option (List Char) :=
  match dropPlus? (trimBy isSpace s).toList with
  | some ('-' :: cs) => (plainBody? cs).map ('-' :: ·)
  | some cs => plainBody? cs
  | none => none

/-- A numeral is read as it stands, or else in its plain form; length only counts where it is plain as it stands. -/
def readWhole (s : String) : Except NumeralFault Int :=
  match readPlain s.toList with
  | .error .malformed =>
    match (plainForm? s).map readPlain with
    | some (.ok n) => .ok n
    | _ => .error .malformed
  | result => result

end RelatedRows.Text

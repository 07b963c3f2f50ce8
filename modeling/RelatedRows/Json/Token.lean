import RelatedRows.Text.Letters
import RelatedRows.Text.Numeral
import RelatedRows.Value.Basic

/-!
# Tokens of a JSON text

`tokens ls` cuts a text into tokens, each with the position of its first letter.  Nothing is refused here: a letter
that starts no token becomes `stray`, and a literal that goes wrong becomes `faulty` with the place where it does, so
that the reader can decide which fault comes first.  The tokens end at a stray letter or a broken text literal.

The words `NaN`, `Infinity` and `-Infinity` are numbers.
-/

namespace RelatedRows.Json

open Text (Letter)

/-- Why a text could not be read. -/
inductive Cause where
  | expectedValue
  | expectedName
  | expectedColon
  | expectedComma
  | extraData
  | unterminatedText
  | controlCharacter
  | badEscape
  | badCodeEscape
  | longInteger
  | deepNesting
deriving DecidableEq, Repr

def Cause.message : Cause → String
  | .expectedValue => "Expecting value"
  | .expectedName => "Expecting property name enclosed in double quotes"
  | .expectedColon => "Expecting ':' delimiter"
  | .expectedComma => "Expecting ',' delimiter"
  | .extraData => "Extra data"
  | .unterminatedText => "Unterminated string starting at"
  | .controlCharacter => "Invalid control character at"
  | .badEscape => "Invalid \\escape"
  | .badCodeEscape => "Invalid \\uXXXX escape"
  | .longInteger => "Exceeds the limit for integer string conversion"
  | .deepNesting => "Exceeds the limit for nested values"

/-- Whether a text is at fault for its size alone. -/
def Cause.isLimit (c : Cause) : Bool :=
  c = .longInteger || c = .deepNesting

structure ReadFault where
  cause : Cause
  position : Nat
deriving DecidableEq, Repr

inductive Token where
  | openObject
  | closeObject
  | openList
  | closeList
  | comma
  | colon
  | text (value : String)
  | scalar (value : Value)
  | faulty (fault : ReadFault)
  | stray

structure Placed where
  position : Nat
  token : Token

/-! ## Text literals -/

def hexDigit? (l : Letter) : Option Nat :=
  l.char? >>= Text.hexDigit?

def code? (a b c d : Letter) : Option Nat := do
  return (((← hexDigit? a) * 16 + (← hexDigit? b)) * 16 + (← hexDigit? c)) * 16 + (← hexDigit? d)

def shortEscape? : Char → Option Char
  | '"' => some '"'
  | '\\' => some '\\'
  | '/' => some '/'
  | 'b' => some '\x08'
  | 'f' => some '\x0c'
  | 'n' => some '\n'
  | 'r' => some '\r'
  | 't' => some '\t'
  | _ => none

/-- The rest of a text literal from its second letter on: the letters it stands for, in reverse, the position behind it
and the text behind it. -/
def scanText (start : Nat) : (acc : List Letter) → (position : Nat) → List Letter →
    Except ReadFault (List Letter × Nat × List Letter)
  | _, _, [] => .error ⟨.unterminatedText, start⟩
  | acc, p, .char '"' :: rest => .ok (acc, p + 1, rest)
  | _, _, [.char '\\'] => .error ⟨.unterminatedText, start⟩
  | acc, p, .char '\\' :: .char 'u' :: a :: b :: c :: d ::
      .char '\\' :: .char 'u' :: e :: f :: g :: h :: last :: rest =>
    let next := .char '\\' :: .char 'u' :: e :: f :: g :: h :: last :: rest
    match code? a b c d, code? e f g h with
    | none, _ => .error ⟨.badCodeEscape, p + 1⟩
    | some high, some low =>
      if Text.isHighHalf high && Text.isLowHalf low then
        scanText start (.ofPair high low :: acc) (p + 12) (last :: rest)
      else scanText start (.ofCode high :: acc) (p + 6) next
    | some n, none => scanText start (.ofCode n :: acc) (p + 6) next
  | acc, p, .char '\\' :: .char 'u' :: a :: b :: c :: d :: last :: rest =>
    match code? a b c d with
    | none => .error ⟨.badCodeEscape, p + 1⟩
    | some n => scanText start (.ofCode n :: acc) (p + 6) (last :: rest)
  | _, p, .char '\\' :: .char 'u' :: _ => .error ⟨.badCodeEscape, p + 1⟩
  | acc, p, .char '\\' :: l :: rest =>
    match l.char? >>= shortEscape? with
    | some x => scanText start (.char x :: acc) (p + 2) rest
    | none => .error ⟨.badEscape, p⟩
  | acc, p, l :: rest =>
    if l.code < 0x20 then .error ⟨.controlCharacter, p⟩ else scanText start (l :: acc) (p + 1) rest

/-! ## Numbers -/

def digit? (l : Letter) : Option Nat :=
  l.char? >>= Text.plainDigit?

def isDigit (l : Letter) : Bool :=
  (digit? l).isSome

/-- The number that digits write. -/
def numberOf (digits : List Letter) : Nat :=
  Text.ofDigits (digits.filterMap digit?)

/-- The whole part of a number: a zero alone, or digits that do not start with one. -/
def wholePart : List Letter → List Letter
  | .char '0' :: _ => [.char '0']
  | ls => ls.takeWhile isDigit

/-- The digits behind a point, if there are any. -/
def fractionPart : List Letter → List Letter
  | .char '.' :: ls => ls.takeWhile isDigit
  | _ => []

/-- The minus sign in front of a text, if there is one, and how many letters of the text are a sign. -/
def sign : List Letter → Bool × Nat
  | .char '-' :: _ => (true, 1)
  | .char '+' :: _ => (false, 1)
  | _ => (false, 0)

/-- The exponent behind its letter, and how many letters it is with that. -/
def exponentPart : List Letter → Option (Int × Nat)
  | l :: ls =>
    if l = .char 'e' || l = .char 'E' then
      let (negative, signLength) := sign ls
      match (ls.drop signLength).takeWhile isDigit with
      | [] => none
      | digits => some (Text.signed negative (numberOf digits), 1 + signLength + digits.length)
    else none
  | [] => none

/-- The number at the start of a text and its length; `none` if there is no digit where one must be. -/
def number? (position : Nat) (ls : List Letter) : Option (Token × Nat) :=
  let negative := ls.head? = some (.char '-')
  let signLength := if negative then 1 else 0
  let body := ls.drop signLength
  let whole := wholePart body
  if whole.isEmpty then none
  else
    let fraction := fractionPart (body.drop whole.length)
    let fractionLength := if fraction.isEmpty then 0 else fraction.length + 1
    let used := whole.length + fractionLength
    match exponentPart (body.drop used), fraction with
    | none, [] =>
      if Text.maxDigits < whole.length then some (.faulty ⟨.longInteger, position⟩, signLength + used)
      else some (.scalar (.int (Text.signed negative (numberOf whole))), signLength + used)
    | exponent, fraction =>
      let (e, exponentLength) := exponent.getD (0, 0)
      let x := Binary64.ofDecimal negative (numberOf (whole ++ fraction)) (e - fraction.length)
      some (.scalar (.number (.real x)), signLength + used + exponentLength)

/-! ## The whole text -/

/-- The words that stand for values.  All that is read as undefined is one object. -/
def words : List (String × Value) :=
  [("null", .null), ("true", .bool true), ("false", .bool false), ("NaN", .undefined 0),
    ("Infinity", .number (.real (.infinite false))), ("-Infinity", .number (.real (.infinite true)))]

def word? (ls : List Letter) : Option (Token × Nat) :=
  (words.find? fun w => (Text.letters w.1).isPrefixOf ls).map fun w => (.scalar w.2, w.1.length)

def punctuation? : Letter → Option Token
  | .char '\x7b' => some .openObject
  | .char '\x7d' => some .closeObject
  | .char '[' => some .openList
  | .char ']' => some .closeList
  | .char ',' => some .comma
  | .char ':' => some .colon
  | _ => none

def isGap (l : Letter) : Bool :=
  l = .char ' ' || l = .char '\t' || l = .char '\n' || l = .char '\r'

/-- The tokens of a text, at most `count` of them; a token takes at least one letter. -/
def tokensUpTo : (count : Nat) → (position : Nat) → List Letter → List Placed
  | 0, _, _ => []
  | _, _, [] => []
  | count + 1, p, l :: ls =>
    if isGap l then tokensUpTo count (p + 1) ls
    else if l = .char '"' then
      match scanText p [] (p + 1) ls with
      | .ok (acc, q, rest) => ⟨p, .text (Text.ofLetters acc.reverse)⟩ :: tokensUpTo count q rest
      | .error fault => [⟨p, .faulty fault⟩]
    else
      match punctuation? l with
      | some t => ⟨p, t⟩ :: tokensUpTo count (p + 1) ls
      | none =>
        match (word? (l :: ls)).or (number? p (l :: ls)) with
        | some (t, n) => ⟨p, t⟩ :: tokensUpTo count (p + n) ((l :: ls).drop n)
        | none => [⟨p, .stray⟩]

def tokens (ls : List Letter) : List Placed :=
  tokensUpTo ls.length 0 ls

end RelatedRows.Json

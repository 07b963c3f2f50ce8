import RelatedRows.Text.Numeral
import RelatedRows.Text.Parts
import RelatedRows.Text.Utf8

/-!
# Queries of URLs

A query is a list of named values, joined by `&` and `=`, in which a blank is written as a plus sign and every byte
outside letters, digits and `_ . - ~` by its hexadecimal code.  The half of a pair has no bytes: it is read as it
stands, and cannot be written.

* `Url.parameters`: the decoded list; a name without a value has the empty one.  Codes that do not form a character
  stand for the replacement character.
* `Url.encodeParameters`: the text of a list, or the halves that keep it from being written.
-/

namespace RelatedRows.Url

open Text (Letter LoneHalves)

/-- A name and a value. -/
abbrev Parameter := List Letter × List Letter

/-! ## Characters of bytes -/

/-- A character of which `missing + 1` more bytes are to come; the next one lies between `low` and `high`. -/
structure Partial where
  value : Nat
  missing : Nat
  low : Nat
  high : Nat
deriving DecidableEq, Repr

def replacement : Letter := .char '\ufffd'

/-- The characters that a byte completes at the start of a character, and the character it begins. -/
def firstByte (b : Nat) : List Letter × Option Partial :=
  if b < 0x80 then ([.char (Char.ofNat b)], none)
  else if 0xc2 ≤ b ∧ b ≤ 0xdf then ([], some ⟨b - 0xc0, 0, 0x80, 0xbf⟩)
  else if b = 0xe0 then ([], some ⟨0, 1, 0xa0, 0xbf⟩)
  else if b = 0xed then ([], some ⟨0xd, 1, 0x80, 0x9f⟩)
  else if 0xe1 ≤ b ∧ b ≤ 0xef then ([], some ⟨b - 0xe0, 1, 0x80, 0xbf⟩)
  else if b = 0xf0 then ([], some ⟨0, 2, 0x90, 0xbf⟩)
  else if b = 0xf4 then ([], some ⟨4, 2, 0x80, 0x8f⟩)
  else if 0xf1 ≤ b ∧ b ≤ 0xf3 then ([], some ⟨b - 0xf0, 2, 0x80, 0xbf⟩)
  else ([replacement], none)

/-- The same after an unfinished character, which ends as the replacement character if the byte does not fit. -/
def nextByte (pending : Option Partial) (b : Nat) : List Letter × Option Partial :=
  match pending with
  | none => firstByte b
  | some p =>
    if p.low ≤ b ∧ b ≤ p.high then
      let value := p.value * 0x40 + (b - 0x80)
      match p.missing with
      | 0 => ([.char (Char.ofNat value)], none)
      | missing + 1 => ([], some ⟨value, missing, 0x80, 0xbf⟩)
    else
      let (ls, q) := firstByte b
      (replacement :: ls, q)

def flush (pending : Option Partial) : List Letter :=
  if pending.isSome then [replacement] else []

/-! ## Decoding -/

/-- The byte that two digits write. -/
def hexByte? (a b : Letter) : Option Nat := do
  return (← a.char? >>= Text.hexDigit?) * 16 + (← b.char? >>= Text.hexDigit?)

/-- Decodes a text of ASCII bytes, codes and other letters; a letter outside ASCII ends an unfinished character. -/
def decodeFrom (pending : Option Partial) : List Letter → List Letter
  | [] => flush pending
  | .char '%' :: a :: b :: rest =>
    match hexByte? a b with
    | some n =>
      let (ls, q) := nextByte pending n
      ls ++ decodeFrom q rest
    | none =>
      let (ls, q) := nextByte pending '%'.toNat
      ls ++ decodeFrom q (a :: b :: rest)
  | l :: rest =>
    if l.code < 0x80 then
      let (ls, q) := nextByte pending l.code
      ls ++ decodeFrom q rest
    else flush pending ++ l :: decodeFrom none rest

def decode (ls : List Letter) : List Letter :=
  decodeFrom none (ls.map fun l => if l = .char '+' then .char ' ' else l)

/-- The name and the value of one part of a query. -/
def parameter (part : List Letter) : Parameter :=
  let value := (part.dropWhile (· ≠ .char '=')).drop 1
  (decode (part.takeWhile (· ≠ .char '=')), decode value)

def parameters (query : List Letter) : List Parameter :=
  ((Text.split (.char '&') query).filter (!·.isEmpty)).map parameter

/-! ## Encoding -/

def isUnreserved (c : Char) : Bool :=
  c.isAlphanum || c = '_' || c = '.' || c = '-' || c = '~'

def hexDigit (n : Nat) : Char :=
  Char.ofNat (if n < 10 then 0x30 + n else 0x37 + n)

def encodeByte (b : Nat) : List Letter :=
  [.char '%', .char (hexDigit (b / 16)), .char (hexDigit (b % 16))]

def encodeChar (c : Char) : List Letter :=
  if isUnreserved c then [.char c] else if c = ' ' then [.char '+'] else (Text.utf8 c.toNat).flatMap encodeByte

/-- The code of a text without halves. -/
def encode (ls : List Letter) : Except LoneHalves (List Letter) :=
  match Text.loneHalves? ls with
  | some h => .error h
  | none => .ok ((ls.filterMap Letter.char?).flatMap encodeChar)

def encodeParameter (p : Parameter) : Except LoneHalves (List Letter) :=
  return (← encode p.1) ++ .char '=' :: (← encode p.2)

def encodeParameters (ps : List Parameter) : Except LoneHalves (List Letter) :=
  return [.char '&'].intercalate (← ps.mapM encodeParameter)

end RelatedRows.Url

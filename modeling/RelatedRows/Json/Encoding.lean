import RelatedRows.Text.Utf8

/-!
# Encodings of a JSON text

A JSON text starts with a plain character, so zeros among its first bytes tell how many bytes a code takes and which of
them comes first.

* `Encoding.detect`: the encoding of a text, by its first bytes.
* `decode?`: the letters that the bytes of a text stand for, if they form whole codes within range.
-/

namespace RelatedRows.Json

open Text (Letter)

inductive Encoding where
  | utf8
  | utf16 (highFirst : Bool)
  | utf32 (highFirst : Bool)
deriving DecidableEq, Repr

def Encoding.detect : List Nat → Encoding
  | a :: b :: c :: d :: _ =>
    if a = 0 then (if b = 0 then .utf32 true else .utf16 true)
    else if b = 0 then (if c = 0 ∧ d = 0 then .utf32 false else .utf16 false)
    else .utf8
  | [a, b] => if a = 0 then .utf16 true else if b = 0 then .utf16 false else .utf8
  | _ => .utf8

/-- Joins neighbouring codes below `base` to codes below its square. -/
def joinTwo? (base : Nat) (highFirst : Bool) : List Nat → Option (List Nat)
  | [] => some []
  | [_] => none
  | a :: b :: rest => (joinTwo? base highFirst rest).map ((if highFirst then a * base + b else b * base + a) :: ·)

/-- The letters of codes below 65536, of which two halves of a pair stand for one character. -/
def ofUnits : List Nat → List Letter
  | [] => []
  | [n] => [.ofCode n]
  | a :: b :: rest =>
    if Text.isHighHalf a && Text.isLowHalf b then .ofPair a b :: ofUnits rest else .ofCode a :: ofUnits (b :: rest)

def ofCode? (n : Nat) : Option Letter :=
  if n < 0x110000 then some (.ofCode n) else none

/-- The text without the mark of the byte order. -/
def dropMark : List Letter → List Letter
  | .char '\ufeff' :: ls => ls
  | ls => ls

/-- What a text stands for if its bytes are read in the encoding they suggest. -/
def decode? (ls : List Letter) : Option (List Letter) :=
  let bytes := ls.flatMap fun l => Text.utf8 l.code
  match Encoding.detect bytes with
  | .utf8 => some (dropMark ls)
  | .utf16 highFirst => (joinTwo? 256 highFirst bytes).map ofUnits
  | .utf32 highFirst => do (← joinTwo? 65536 highFirst (← joinTwo? 256 highFirst bytes)).mapM ofCode?

end RelatedRows.Json

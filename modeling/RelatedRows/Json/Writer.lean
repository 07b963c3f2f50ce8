import RelatedRows.Number.Shortest
import RelatedRows.Text.Quoted
import RelatedRows.Value.Order

/-!
# Writing a JSON text

The text of a value depends on a `Layout`.

* `Json.write`: the canonical text: fields sorted by name, a blank behind every comma and colon, and nothing but
  printable ASCII, with everything else escaped by its code.
* `Json.compact`: the text that is sent: fields in their order, no blanks, and characters as they are.
-/

namespace RelatedRows.Json

open Text (Letter)

structure Layout where
  /-- Fields are sorted by name. -/
  sorted : Bool
  /-- A blank follows commas and colons. -/
  spaced : Bool
  /-- Only printable ASCII stands for itself. -/
  asciiOnly : Bool
deriving DecidableEq, Repr

def Layout.canonical : Layout := ⟨true, true, true⟩

def Layout.sent : Layout := ⟨false, false, false⟩

def escapedUnit (n : Nat) : List Char :=
  '\\' :: 'u' :: Text.hexDigits 4 n

/-- A code, or the codes of the pair that stands for it. -/
def escapedCode (n : Nat) : List Char :=
  if n ≤ 0xffff then escapedUnit n
  else escapedUnit (0xd800 + (n - 0x10000) / 0x400) ++ escapedUnit (0xdc00 + (n - 0x10000) % 0x400)

section Write

variable (l : Layout)

/-- Whether the letter with code `n` is written as it is. -/
def Layout.standsForItself (n : Nat) : Bool :=
  0x20 ≤ n && (n ≤ 0x7e || !l.asciiOnly)

/-- What is written behind a backslash for a character that has a short form. -/
def shortForm? : Char → Option Char
  | '"' => some '"'
  | '\\' => some '\\'
  | '\n' => some 'n'
  | '\r' => some 'r'
  | '\t' => some 't'
  | '\x0c' => some 'f'
  | '\x08' => some 'b'
  | _ => none

def escapedLetter (x : Letter) : List Char :=
  match x.char? >>= shortForm? with
  | some c => ['\\', c]
  | none => if l.standsForItself x.code then x.written else escapedCode x.code

def writeText (s : String) : String :=
  String.ofList ('"' :: (Text.letters s).flatMap (escapedLetter l) ++ ['"'])

def writeNumber : Number → String
  | .int n => toString n
  | .real (.undefined _) => "NaN"
  | .real (.infinite negative) => if negative then "-Infinity" else "Infinity"
  | .real x => x.text

/-- Written parts with commas between them. -/
def Layout.joined (parts : List String) : String :=
  (if l.spaced then ", " else ",").intercalate parts

def Layout.arranged (fields : List (String × String)) : List (String × String) :=
  if l.sorted then stableSort (fun a b => a.1 ≤ b.1) fields else fields

mutual
def writeValue : Value → String
  | .null => "null"
  | .bool b => if b then "true" else "false"
  | .number n => writeNumber n
  | .text s => writeText l s
  | .list items => "[" ++ l.joined (writeItems items) ++ "]"
  | .object fields => "\x7b" ++ l.joined ((l.arranged (writeFields fields)).map (·.2)) ++ "\x7d"

def writeItems : List Value → List String
  | [] => []
  | v :: vs => writeValue v :: writeItems vs

/-- The names of fields with their written forms. -/
def writeFields : List (String × Value) → List (String × String)
  | [] => []
  | (name, v) :: rest =>
    (name, writeText l name ++ (if l.spaced then ": " else ":") ++ writeValue v) :: writeFields rest
end

end Write

def write (v : Value) : String :=
  writeValue .canonical v

def compact (v : Value) : String :=
  writeValue .sent v

end RelatedRows.Json

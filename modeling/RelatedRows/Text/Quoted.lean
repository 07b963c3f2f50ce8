import RelatedRows.Text.Letters
import RelatedRows.Text.Printable

/-!
# Quoted texts

`quoted s` writes a text between quotes so that it stays on one line and shows every character: single quotes unless
the text holds a single quote and no double one, a backslash before backslashes and the chosen quote, short escapes for
tab and line ends, and the code in hexadecimal for whatever else is not printable.
-/

namespace RelatedRows.Text

def hexDigit (n : Nat) : Char :=
  Char.ofNat (if n < 10 then 0x30 + n else 0x57 + n)

/-- The last `width` hexadecimal digits of a number, in lower case. -/
def hexDigits : (width : Nat) → Nat → List Char
  | 0, _ => []
  | width + 1, n => hexDigits width (n / 16) ++ [hexDigit (n % 16)]

def codeEscape (n : Nat) : List Char :=
  if n ≤ 0xff then '\\' :: 'x' :: hexDigits 2 n
  else if n ≤ 0xffff then '\\' :: 'u' :: hexDigits 4 n
  else '\\' :: 'U' :: hexDigits 8 n

def escapedChar (quote c : Char) : List Char :=
  if c = quote || c = '\\' then ['\\', c]
  else if c = '\n' then ['\\', 'n']
  else if c = '\r' then ['\\', 'r']
  else if c = '\t' then ['\\', 't']
  else if isPrintable c then [c]
  else codeEscape c.toNat

def escapedLetter (quote : Char) : Letter → List Char
  | .char c => escapedChar quote c
  | .half n => codeEscape (Letter.half n).code

/-- The quote that a text is put between. -/
def quoteFor (cs : List Char) : Char :=
  if cs.contains '\'' && !cs.contains '"' then '"' else '\''

def quoted (s : String) : String :=
  let q := quoteFor s.toList
  String.ofList (q :: (letters s).flatMap (escapedLetter q) ++ [q])

/-- A list of texts, quoted, between square brackets. -/
def quotedList (items : List String) : String :=
  "[" ++ ", ".intercalate (items.map quoted) ++ "]"

end RelatedRows.Text

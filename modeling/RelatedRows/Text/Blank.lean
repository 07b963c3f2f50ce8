/-!
# Blank characters

Two readings of "white space" meet in this library.  `isBlank` is the wide one, used wherever a setting is trimmed;
`isSpace` leaves out the four information separators and is the one numerals are trimmed by.

* `trimBy p s`: the text without the characters at either end that satisfy `p`.
-/

namespace RelatedRows.Text

/-- White space of the character standard. -/
def isSpace (c : Char) : Bool :=
  let n := c.toNat
  (0x09 ≤ n && n ≤ 0x0d) || n == 0x20 || n == 0x85 || n == 0xa0 || n == 0x1680 || (0x2000 ≤ n && n ≤ 0x200a) ||
    n == 0x2028 || n == 0x2029 || n == 0x202f || n == 0x205f || n == 0x3000

/-- White space together with the information separators U+001C to U+001F. -/
def isBlank (c : Char) : Bool :=
  isSpace c || (0x1c ≤ c.toNat && c.toNat ≤ 0x1f)

section Trim

variable (p : Char → Bool)

/-- The list without the longest run of `p` at its end. -/
def dropRight (cs : List Char) : List Char :=
  (cs.reverse.dropWhile p).reverse

def trimBy (s : String) : String :=
  String.ofList (dropRight p (s.toList.dropWhile p))

end Trim

/-- The text without blank characters at either end. -/
def trim (s : String) : String :=
  trimBy isBlank s

end RelatedRows.Text

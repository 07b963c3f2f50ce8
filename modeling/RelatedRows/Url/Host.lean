import RelatedRows.Text.Letters
import RelatedRows.Text.Numeral
import RelatedRows.Text.Parts

/-!
# Hosts of URLs

A host between square brackets is an address of version 6 or of a version yet to come.

* `isAddress4`: four decimal numbers up to 255, without leading zeros.
* `isAddress6`: eight groups of up to four hexadecimal digits, of which a run may be left out (`::`) and the last two
  may be written as an address of version 4; a zone may follow behind a percent sign.
* `isFutureAddress`: `v`, a version in hexadecimal digits, a point and more.
-/

namespace RelatedRows.Url

open Text (Letter)

def isDecimal (l : Letter) : Bool :=
  l.is fun c => '0' ≤ c && c ≤ '9'

def isHex (l : Letter) : Bool :=
  l.is fun c => (Text.hexDigit? c).isSome

/-- A number up to 255 without leading zeros. -/
def isOctet (ls : List Letter) : Bool :=
  ls ≠ [] && ls.all isDecimal && ls.length ≤ 3 && (ls.head? ≠ some (.char '0') || ls.length = 1) &&
    Text.ofDigits (ls.filterMap fun l => l.char? >>= Text.plainDigit?) ≤ 255

def isAddress4 (ls : List Letter) : Bool :=
  let parts := Text.split (.char '.') ls
  parts.length = 4 && parts.all isOctet

/-- A group of one to four hexadecimal digits. -/
def isGroup (ls : List Letter) : Bool :=
  ls ≠ [] && ls.length ≤ 4 && ls.all isHex

/-- The groups in which the last one, if it is an address of version 4, stands for two. -/
def widenLast? (groups : List (List Letter)) : Option (List (List Letter)) :=
  match groups.getLast? with
  | none => some groups
  | some last =>
    if last.contains (.char '.') then
      if isAddress4 last then some (groups.dropLast ++ [[.char '0'], [.char '0']]) else none
    else some groups

/-- The groups on either side of `::`; an empty group at the end of a side belongs to a `::` that stands there. -/
def isShortened (before after : List (List Letter)) : Bool :=
  let front := if before = [[]] then [] else before
  let back := if after = [[]] then [] else after
  front.all isGroup && back.all isGroup && front.length + back.length ≤ 7

/-- The positions of the empty groups that are neither first nor last. -/
def emptyInside (groups : List (List Letter)) : List Nat :=
  (List.range groups.length).filter fun i => 0 < i && i + 1 < groups.length && groups[i]? = some []

def areGroups (groups : List (List Letter)) : Bool :=
  match emptyInside groups with
  | [] => groups.length = 8 && groups.all isGroup
  | [i] => isShortened (groups.take i) (groups.drop (i + 1))
  | _ => false

/-- The text in front of the zone, if the zone is not empty and holds no further percent sign. -/
def dropZone? (ls : List Letter) : Option (List Letter) :=
  match Text.split (.char '%') ls with
  | [address] => some address
  | [address, zone] => if zone = [] then none else some address
  | _ => none

def isAddress6 (ls : List Letter) : Bool :=
  if ls.contains (.char '/') then false
  else
    match dropZone? ls with
    | none => false
    | some address =>
      let groups := Text.split (.char ':') address
      3 ≤ groups.length && (widenLast? groups).any areGroups

def isFutureAddress : List Letter → Bool
  | .char 'v' :: ls =>
    match ls.dropWhile isHex with
    | .char '.' :: _ :: _ => ls.head?.any isHex
    | _ => false
  | _ => false

end RelatedRows.Url

import RelatedRows.Text.Letters
import RelatedRows.Text.Quoted

/-!
# Bytes of letters

* `utf8 n`: the one to four bytes of a code, the first of which says how many there are.
* `loneHalves?`: what keeps a text from being sent as bytes, since a half of a pair has none of its own.
-/

namespace RelatedRows.Text

def utf8 (n : Nat) : List Nat :=
  if n < 0x80 then [n]
  else if n < 0x800 then [0xc0 + n / 0x40, 0x80 + n % 0x40]
  else if n < 0x10000 then [0xe0 + n / 0x1000, 0x80 + n / 0x40 % 0x40, 0x80 + n % 0x40]
  else [0xf0 + n / 0x40000, 0x80 + n / 0x1000 % 0x40, 0x80 + n / 0x40 % 0x40, 0x80 + n % 0x40]

/-- A run of `count` halves from `position` on, of which the first has the code `first`. -/
structure LoneHalves where
  first : Nat
  position : Nat
  count : Nat
deriving DecidableEq, Repr

/-- The first run of halves in a text. -/
def loneHalves? (ls : List Letter) : Option LoneHalves :=
  let position := (ls.takeWhile (!·.isHalf)).length
  match (ls.drop position).takeWhile Letter.isHalf with
  | [] => none
  | l :: run => some ⟨l.code, position, run.length + 1⟩

theorem halvesBehind_eq_nil_iff (ls : List Letter) :
    (ls.drop (ls.takeWhile (!·.isHalf)).length).takeWhile Letter.isHalf = [] ↔ ls.any Letter.isHalf = false := by
  induction ls with
  | nil => simp
  | cons l ls ih =>
    cases hl : l.isHalf with
    | true => simp [hl]
    | false => simpa [hl] using ih

theorem loneHalves?_eq_none_iff (ls : List Letter) : loneHalves? ls = none ↔ ls.any Letter.isHalf = false := by
  rw [← halvesBehind_eq_nil_iff, loneHalves?]
  split
  next h => simp [h]
  next h => simp [h]

def LoneHalves.message (h : LoneHalves) : String :=
  "'utf-8' codec can't encode " ++
    (if h.count = 1 then s!"character '{String.ofList (codeEscape h.first)}' in position {h.position}"
      else s!"characters in position {h.position}-{h.position + h.count - 1}") ++
    ": surrogates not allowed"

end RelatedRows.Text

/-!
# Letters of a text

A text is made of letters.  A letter is a character, or a half of a pair that stands alone: characters beyond the first
65536 may be written as a pair of codes, a high half and a low one, and text from outside may hold one without the
other.  A string has characters only, so two of them write a half: the mark U+D7FF, which is no character of any script,
and one of a private area.  The mark itself is written twice.  Texts keep their order this way, since halves come right
behind the mark.

* `letters`, `ofLetters`: the letters of a text, and the text of some letters.  `letters_ofLetters` says that every
  list of letters has a text of its own.
-/

namespace RelatedRows.Text

inductive Letter where
  | char (c : Char)
  /-- The half with the code U+D800 + `n`. -/
  | half (n : Fin 0x800)
deriving DecidableEq, Repr

def firstHalf : Nat := 0xd800

def isHighHalf (n : Nat) : Bool := 0xd800 ≤ n && n ≤ 0xdbff

def isLowHalf (n : Nat) : Bool := 0xdc00 ≤ n && n ≤ 0xdfff

namespace Letter

def ofCode (n : Nat) : Letter :=
  if h : firstHalf ≤ n ∧ n < firstHalf + 0x800 then .half ⟨n - firstHalf, by omega⟩ else .char (Char.ofNat n)

/-- The character that two halves stand for together. -/
def ofPair (high low : Nat) : Letter :=
  .char (Char.ofNat (0x10000 + (high - 0xd800) * 0x400 + (low - 0xdc00)))

def code : Letter → Nat
  | .char c => c.toNat
  | .half n => firstHalf + n

def char? : Letter → Option Char
  | .char c => some c
  | .half _ => none

def isHalf (l : Letter) : Bool :=
  l.char?.isNone

/-- Whether a letter is a character of some sort. -/
def is (p : Char → Bool) (l : Letter) : Bool :=
  l.char?.any p

def toLower : Letter → Letter
  | .char c => .char c.toLower
  | .half n => .half n

theorem is_iff {p : Char → Bool} {l : Letter} : l.is p = true ↔ ∃ c, l = .char c ∧ p c = true := by
  cases l <;> simp [is, char?]

/-- The mark in front of what stands for a half. -/
def mark : Char := '\ud7ff'

/-- The first character of the private area that stands for halves. -/
def firstStandIn : Nat := 0xe000

/-- The characters that write a letter. -/
def written : Letter → List Char
  | .char c => if c = mark then [mark, mark] else [c]
  | .half n => [mark, Char.ofNat (firstStandIn + n)]

/-- The letter that a mark and another character write. -/
def ofMarked (c : Char) : Letter :=
  if h : firstStandIn ≤ c.toNat ∧ c.toNat < firstStandIn + 0x800 then .half ⟨c.toNat - firstStandIn, by omega⟩
  else .char mark

theorem ofMarked_half (n : Fin 0x800) : ofMarked (Char.ofNat (firstStandIn + n)) = .half n := by
  have hv : (firstStandIn + n.val).isValidChar := Or.inr (by simp only [firstStandIn]; omega)
  have hn : (Char.ofNat (firstStandIn + n.val)).toNat = firstStandIn + n.val := by
    rw [Char.ofNat, dif_pos hv]
    rfl
  simp [ofMarked, hn]

end Letter

/-- The letters that a list of characters writes. -/
def lettersOf : List Char → List Letter
  | [] => []
  | [c] => [.char c]
  | c :: d :: rest =>
    if c = Letter.mark then .ofMarked d :: lettersOf rest else .char c :: lettersOf (d :: rest)

def letters (s : String) : List Letter :=
  lettersOf s.toList

def ofLetters (ls : List Letter) : String :=
  String.ofList (ls.flatMap Letter.written)

theorem lettersOf_cons_of_ne {c : Char} (h : c ≠ Letter.mark) (cs : List Char) :
    lettersOf (c :: cs) = .char c :: lettersOf cs := by
  cases cs with
  | nil => rfl
  | cons d rest => simp [lettersOf, h]

theorem lettersOf_written (l : Letter) (cs : List Char) : lettersOf (l.written ++ cs) = l :: lettersOf cs := by
  cases l with
  | char c =>
    by_cases h : c = Letter.mark
    · subst h
      rfl
    · simp [Letter.written, h, lettersOf_cons_of_ne h]
  | half n => simp [Letter.written, lettersOf, Letter.ofMarked_half]

@[simp] theorem letters_ofLetters (ls : List Letter) : letters (ofLetters ls) = ls := by
  simp only [letters, ofLetters, String.toList_ofList]
  induction ls with
  | nil => rfl
  | cons l ls ih => rw [List.flatMap_cons, lettersOf_written, ih]

def length (s : String) : Nat :=
  (letters s).length

def hasHalf (s : String) : Bool :=
  (letters s).any Letter.isHalf

/-- The texts of single letters that make up a text. -/
def pieces (s : String) : List String :=
  (letters s).map fun l => ofLetters [l]

end RelatedRows.Text

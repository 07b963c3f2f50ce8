/-!
# Parts of a text

Texts are lists of characters or of letters here.

* `cut`: the text in front of the first separator and the text behind it.
* `split`: the parts of a text between separators.
* `behindLast`: the last of those parts.
-/

namespace RelatedRows.Text

section Parts

variable {α : Type} [DecidableEq α] (sep : α)

/-- The text in front of the first `sep` and the text behind it. -/
def cut (xs : List α) : Option (List α × List α) :=
  match xs.dropWhile (· ≠ sep) with
  | [] => none
  | _ :: rest => some (xs.takeWhile (· ≠ sep), rest)

/-- The text in front of `sep` and the text behind it, which is empty without a `sep`. -/
def splitAtFirst (xs : List α) : List α × List α :=
  (cut sep xs).getD (xs, [])

/-- The parts of a text between separators. -/
def split : List α → List (List α)
  | [] => [[]]
  | x :: xs =>
    match split xs with
    | [] => [[x]]
    | part :: parts => if x = sep then [] :: part :: parts else (x :: part) :: parts

/-- The text behind the last `sep`; the whole text without a `sep`. -/
def behindLast (xs : List α) : List α :=
  ((split sep xs).getLast?).getD []

theorem split_ne_nil (xs : List α) : split sep xs ≠ [] := by
  cases xs with
  | nil => simp [split]
  | cons x xs =>
    unfold split
    split
    · simp
    · split <;> simp

end Parts

end RelatedRows.Text

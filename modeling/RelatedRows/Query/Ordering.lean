import RelatedRows.Text.Uppercase

/-!
# Orderings

An ordering is a list of columns with directions; earlier columns decide first.

* `Direction`: ascending, descending, or any other word, which a query repeats in upper case.
* `OrderBy.merge`: several orderings in one, in which a column stands once, at its first place and with the direction
  it has there.
-/

namespace RelatedRows

inductive Direction where
  | asc
  | desc
  | word (text : String)
deriving DecidableEq, Repr

namespace Direction

def text : Direction → String
  | .asc => "asc"
  | .desc => "desc"
  | .word s => s

def ofText (s : String) : Direction :=
  if s = "asc" then .asc else if s = "desc" then .desc else .word s

def keyword : Direction → String
  | .asc => "ASC"
  | .desc => "DESC"
  | .word s => Text.upper s

/-- Only the keyword `DESC` turns an order round. -/
def isDescending (d : Direction) : Bool :=
  d.keyword = "DESC"

end Direction

abbrev OrderBy := List (String × Direction)

def ascending (columns : List String) : OrderBy :=
  columns.map fun c => (c, .asc)

/-- The terms whose column is not in `seen` and has not come before. -/
def firstTerms (seen : List String) : OrderBy → OrderBy
  | [] => []
  | (c, d) :: rest => if seen.contains c then firstTerms seen rest else (c, d) :: firstTerms (c :: seen) rest

def OrderBy.merge (orderings : List OrderBy) : OrderBy :=
  firstTerms [] orderings.flatten

theorem firstTerms_subset {seen : List String} {o : OrderBy} {t : String × Direction} (h : t ∈ firstTerms seen o) :
    t ∈ o := by
  induction o generalizing seen with
  | nil => simp [firstTerms] at h
  | cons u rest ih =>
    obtain ⟨c, d⟩ := u
    simp only [firstTerms] at h
    split at h
    · exact List.mem_cons_of_mem _ (ih h)
    · rcases List.mem_cons.mp h with rfl | h
      · exact List.mem_cons_self
      · exact List.mem_cons_of_mem _ (ih h)

end RelatedRows

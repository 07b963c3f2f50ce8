import RelatedRows.Graph.Basic
import RelatedRows.Include.Rejection
import RelatedRows.Value.Literal

/-!
# Column names in a request

A request may only name columns by plain identifiers, and only columns that the entity has if its columns are declared.

* `isIdentifier`: an ASCII letter or underscore, then ASCII letters, digits and underscores.  A line end behind the
  last of them is let through.
* `vetColumns`: the first name of a list that may not be used.
-/

namespace RelatedRows

def startsIdentifier (c : Char) : Bool :=
  c.isAlpha || c = '_'

def continuesIdentifier (c : Char) : Bool :=
  c.isAlphanum || c = '_'

def isPlainIdentifier : List Char → Bool
  | [] => false
  | c :: cs => startsIdentifier c && cs.all continuesIdentifier

def dropLineEnd (cs : List Char) : List Char :=
  if cs.getLast? = some '\n' then cs.dropLast else cs

def isIdentifier (s : String) : Bool :=
  isPlainIdentifier (dropLineEnd s.toList)

/-- The objection to one column of an entity, if there is one. -/
def columnObjection? (e : Entity) : Value → Option Objection
  | .text c =>
    if !isIdentifier c then some (.badColumn (Value.text c).literal)
    else if !e.declares c then some (.unknownColumn c)
    else none
  | v => some (.badColumn v.literal)

def vetColumns (e : Entity) (key : Option String) (columns : List Value) : Except Rejection Unit :=
  match columns.findSome? (columnObjection? e) with
  | some o => .error (.invalid e.name key o)
  | none => .ok ()

theorem vetColumns_eq_ok {e : Entity} {key : Option String} {columns : List Value} :
    vetColumns e key columns = .ok () ↔ ∀ v ∈ columns, columnObjection? e v = none := by
  unfold vetColumns
  cases h : columns.findSome? (columnObjection? e) with
  | none => simpa [List.findSome?_eq_none_iff] using h
  | some o =>
    obtain ⟨v, hv, ho⟩ := List.exists_of_findSome?_eq_some h
    simp only [reduceCtorEq, false_iff]
    intro hall
    simp [hall v hv] at ho

end RelatedRows

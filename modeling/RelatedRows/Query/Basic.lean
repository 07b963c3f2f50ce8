import RelatedRows.Query.Ordering
import RelatedRows.Value.Basic

/-!
# Queries

The two questions that are put to a database.

* `BatchQuery`: the rows of a table whose key columns have one of the given keys.
* `PageQuery`: a stretch of all rows of a table.
-/

namespace RelatedRows

/-- The values of some key columns, in their order. -/
abbrev Key := List Value

structure BatchQuery where
  table : String
  keyColumns : List String
  keys : List Key
  /-- The columns to fetch; `none` fetches all of them. -/
  columns : Option (List String) := none
  ordering : OrderBy := []
deriving DecidableEq

structure PageQuery where
  table : String
  ordering : OrderBy := []
  limit : Int
  offset : Int
deriving DecidableEq

inductive Query where
  | batch (q : BatchQuery)
  | page (q : PageQuery)
deriving DecidableEq

def Query.table : Query → String
  | .batch q => q.table
  | .page q => q.table

end RelatedRows

import RelatedRows.Store.Basic
import RelatedRows.Value.Basic

/-!
# Faults of stitching

Why related rows could not be attached.  Only a failure of the store is wrapped with the place in the plan where it
happened; everything else stands for itself.
-/

namespace RelatedRows

inductive Fault where
  | noPermits
  | otherPlan (planned entity : String)
  /-- The store failed while a relation was loaded. -/
  | query (entity relation : String) (depth : Nat) (cause : Failure)
  | cancelled
  /-- A list or an object stands where a key value must be. -/
  | notKey (kind : Value.Kind)
  /-- An answer holds something that is no row. -/
  | notRow (kind : Value.Kind)
  | notIterable (kind : Value.Kind)
  /-- A root row is a list, and the item at `index` is no list itself. -/
  | notPair (index : Nat)
  | pairLength (index length : Nat)
  /-- A relation goes through a join entity that it does not name. -/
  | noJoinEntity (relation : String)
deriving DecidableEq, Repr

def Fault.message : Fault → String
  | .noPermits => "concurrency must be >= 1"
  | .otherPlan planned entity => s!"Plan was compiled for '{planned}', not '{entity}'."
  | .query entity relation depth cause =>
    s!"Loading '{relation}' on '{entity}' (depth {depth}) failed: " ++ cause.text
  | .cancelled => ""
  | .notKey kind => "unhashable type: '" ++ kind.word ++ "'"
  | .notRow kind => "'" ++ kind.word ++ "' object has no attribute 'get'"
  | .notIterable kind => "'" ++ kind.word ++ "' object is not iterable"
  | .notPair i => s!"cannot convert dictionary update sequence element #{i} to a sequence"
  | .pairLength i n => s!"dictionary update sequence element #{i} has length {n}; 2 is required"
  | .noJoinEntity _ => ""

end RelatedRows

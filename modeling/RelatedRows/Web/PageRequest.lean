import RelatedRows.Form.Field

/-!
# Page requests

What a client may send to list rows: which rows of which page, in the order of which column, and what to include.  Whole
numbers may be spelled as texts here; what is to be included is looked at later.
-/

namespace RelatedRows

structure PageRequest where
  included : Option Row := none
  limit : Nat := 50
  offset : Nat := 0
  orderBy : Option String := none
  order : Direction := .asc
deriving DecidableEq

namespace PageRequest

open Form

def maxLimit : Int := 100

def maxNameLength : Nat := 63

def read (fields : Row) : Checked PageRequest := do
  let included := field fields ["include"] none fun p => optional (object p)
  let limit := field fields ["limit"] 50 fun p v => wholeNumber p v >>= atMost p maxLimit >>= atLeast p 1
  let offset := field fields ["offset"] 0 fun p v => wholeNumber p v >>= atLeast p 0
  let orderBy := field fields ["orderBy", "order_by"] none fun p => optional (shortText p maxNameLength)
  let order := field fields ["order"] Direction.asc direction
  let (included, limit, offset, orderBy, order) ← both included (both limit (both offset (both orderBy order)))
  return ⟨included, limit, offset, orderBy, order⟩

def ofValue : Value → Checked PageRequest
  | .object fields => read fields
  | _ => fail [] (.notForm "ListRequest")

/-- Reads the body of a request; `none` if there is no body. -/
def ofBody : Option Value → Checked PageRequest
  | none => fail [] .missing
  | some (.object fields) => read fields
  | some _ => fail [] .notFields

end PageRequest

end RelatedRows

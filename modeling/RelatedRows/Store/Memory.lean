import RelatedRows.Row.Basic
import RelatedRows.Store.Basic
import RelatedRows.Value.Order

/-!
# Stores in memory

`Memory` keeps its tables as lists of rows and evaluates queries over them: it selects by the keys, sorts stably, cuts
out a page and projects, in this order.  For single tables it may be told to fail, or to give prepared answers one after
the other.

* `selects`: whether a row has one of the keys of a query.
* `compareBy`: the comparison of rows that an ordering stands for; a descending term turns its comparison round.
-/

namespace RelatedRows

/-- Whether the key columns of a row have the values of a key. -/
def matchesKey (columns : List String) (row : Row) (key : Key) : Bool :=
  (columns.zip key).all fun (c, v) => (row.get c).equals v

def BatchQuery.selects (q : BatchQuery) (row : Row) : Bool :=
  q.keys.any (matchesKey q.keyColumns row)

def compareTerm (term : String × Direction) (a b : Row) : Ordering :=
  let o := (a.get term.1).compare (b.get term.1)
  if term.2.isDescending then o.swap else o

def compareBy : OrderBy → Row → Row → Ordering
  | [], _, _ => .eq
  | t :: ts, a, b => (compareTerm t a b).then (compareBy ts a b)

def precedes (o : OrderBy) (a b : Row) : Bool :=
  compareBy o a b != .gt

def sortRows (o : OrderBy) (rows : List Row) : List Row :=
  stableSort (precedes o) rows

def project (columns : Option (List String)) (row : Row) : Row :=
  match columns with
  | none => row
  | some cs => row.keep cs.contains

/-- The rows of a table that answer a query. -/
def Query.evaluate (rows : List Row) : Query → List Row
  | .batch q => (sortRows q.ordering (rows.filter q.selects)).map (project q.columns)
  | .page q => ((sortRows q.ordering rows).drop q.offset.toNat).take q.limit.toNat

structure Memory where
  tables : List (String × List Row) := []
  faults : List (String × Failure) := []
  /-- Prepared answers, by table. -/
  prepared : List (String × List Answer) := []

namespace Memory

def set {α : Type} (name : String) (a : α) : List (String × α) → List (String × α)
  | [] => [(name, a)]
  | (n, b) :: rest => if n = name then (name, a) :: rest else (n, b) :: set name a rest

def missingTable (name : String) : Failure :=
  ⟨.runtime, s!"relation \"{name}\" does not exist"⟩

/-- What the tables alone answer. -/
def evaluate (m : Memory) (q : Query) : Answer :=
  match m.tables.lookup q.table with
  | some rows => .ok (.rows (q.evaluate rows))
  | none => .error (missingTable q.table)

def execute : Executor Memory := fun m q =>
  match m.faults.lookup q.table with
  | some f => (.error f, m)
  | none =>
    match m.prepared.lookup q.table with
    | some [] => (.ok (.list []), m)
    | some (a :: rest) => (a, { m with prepared := set q.table rest m.prepared })
    | none => (m.evaluate q, m)

def fail (m : Memory) (table : String) (f : Failure) : Memory :=
  { m with faults := set table f m.faults }

def heal (m : Memory) (table : String) : Memory :=
  { m with faults := m.faults.filter (·.1 ≠ table) }

def put (m : Memory) (table : String) (rows : List Row) : Memory :=
  { m with tables := set table rows m.tables }

/-- A store that neither fails nor has prepared answers is a function of the query. -/
theorem execute_of_plain {m : Memory} (hf : m.faults = []) (hp : m.prepared = []) (q : Query) :
    execute m q = (m.evaluate q, m) := by
  simp [execute, hf, hp]

end Memory

end RelatedRows

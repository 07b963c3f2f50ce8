import RelatedRows.Json.Writer
import RelatedRows.Stitch.Key

/-!
# Root rows

The rows that relations are to be attached to come from outside.  An object is a row; so is a list whose items are pairs
of a title and a value, and anything without items is the row without columns.  Any key value may be a title, but only
a text names a column: what stands under another title takes no part in stitching, and is shown under the title written
out.

* `Value.rootRow`: the root row that a value is.
* `RootRow.row`: its columns.
* `RootRow.complete row`: all that is shown of it once stitching has made `row` of its columns.
-/

namespace RelatedRows

/-- What a cell stands under: titles are told apart by `identity`, and `name` is how one is written. -/
structure Title where
  identity : Atom
  name : String
deriving DecidableEq, Repr

def Value.title (v : Value) : Except Fault Title :=
  v.atom.map fun a => ⟨a, match v with
    | .text s => s
    | v => Json.write v⟩

def Title.ofText (s : String) : Title :=
  ⟨.text s, s⟩

/-- The column that a title names. -/
def Title.column? (t : Title) : Option String :=
  match t.identity with
  | .text s => some s
  | _ => none

structure RootRow where
  cells : List (Title × Value)
deriving DecidableEq

namespace RootRow

def ofRow (row : Row) : RootRow :=
  ⟨row.map fun (c, v) => (Title.ofText c, v)⟩

def row (r : RootRow) : Row :=
  r.cells.filterMap fun (t, v) => t.column?.map (·, v)

theorem row_ofRow (row : Row) : (ofRow row).row = row := by
  simp only [ofRow, RootRow.row, List.filterMap_map]
  exact List.filterMap_some

/-- The cells as they are written, with the values that `row` has for columns, and then its further columns.  Of fields
with one name the last value is shown. -/
def complete (r : RootRow) (row : Row) : Row :=
  let written := r.cells.map fun (t, v) => (t.name, (t.column?.bind fun c => row.lookup c).getD v)
  (written ++ row.keep fun c => !r.row.columns.contains c).foldl (fun fields (c, v) => fields.set c v) []

/-- The root row as it came. -/
def shown (r : RootRow) : Row :=
  r.complete r.row

def completeAll (roots : List RootRow) (rows : List Row) : List Row :=
  roots.zipWith complete rows

/-- Puts a value under a title; of equal titles the first one stays. -/
def put (t : Title) (v : Value) : List (Title × Value) → List (Title × Value)
  | [] => [(t, v)]
  | (u, w) :: rest => if u.identity = t.identity then (u, v) :: rest else (u, w) :: put t v rest

end RootRow

/-! ## Rows from values -/

/-- Reads the item at `index` as a pair of a title and a value. -/
def Value.pair (index : Nat) : Value → Except Fault (Title × Value)
  | .text s =>
    match Text.pieces s with
    | [a, b] => .ok (.ofText a, .text b)
    | ls => .error (.pairLength index ls.length)
  | .list [title, v] => title.title.map (·, v)
  | .list vs => .error (.pairLength index vs.length)
  | .object [(a, _), (b, _)] => .ok (.ofText a, .text b)
  | .object fields => .error (.pairLength index fields.length)
  | _ => .error (.notPair index)

def RootRow.ofPairs (index : Nat) (cells : List (Title × Value)) : List Value → Except Fault RootRow
  | [] => .ok ⟨cells⟩
  | v :: vs => do
    let (title, value) ← v.pair index
    ofPairs (index + 1) (put title value cells) vs

def Value.rootRow : Value → Except Fault RootRow
  | .object fields => .ok (.ofRow fields)
  | .list vs => RootRow.ofPairs 0 [] vs
  | .text s => RootRow.ofPairs 0 [] ((Text.pieces s).map .text)
  | v => .error (.notIterable v.kind)

end RelatedRows

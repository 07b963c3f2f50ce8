import RelatedRows.Query.Basic
import RelatedRows.Row.Basic
import RelatedRows.Stitch.Fault

/-!
# Keys of rows

The key of a row in some columns is the list of its values there, unless one of them is missing.  Two keys are the same
if their components are equal or the same object: a truth value equals the number one or zero, `1` equals `1.0`, and an
undefined number, which equals nothing, is the same component only where the very same object stands.  `RowKey` keeps
both the values as the row spells them and what they are compared by.

* `Row.key? columns row`: the key of a row, if it has one.  A list or an object is no key value.
-/

namespace RelatedRows

/-- What a key component is compared by. -/
inductive Atom where
  | nothing
  | number (place : Place)
  | text (value : String)
deriving DecidableEq, Repr

structure RowKey where
  identity : List Atom
  spelling : Key
deriving DecidableEq

def Value.atom : Value → Except Fault Atom
  | .null => .ok .nothing
  | .bool b => .ok (.number (Number.int b.toNat).place)
  | .number n => .ok (.number n.place)
  | .text s => .ok (.text s)
  | .list _ => .error (.notKey .list)
  | .object _ => .error (.notKey .object)

def RowKey.ofSpelling (k : Key) : Except Fault RowKey :=
  return ⟨← k.mapM Value.atom, k⟩

def Row.spelling (columns : List String) (row : Row) : Key :=
  columns.map row.get

def Row.key? (columns : List String) (row : Row) : Except Fault (Option RowKey) :=
  let k := row.spelling columns
  if k.any Value.isNull then .ok none else (RowKey.ofSpelling k).map some

/-- The row that an item of an answer is. -/
def Value.row : Value → Except Fault Row
  | .object fields => .ok fields
  | v => .error (.notRow v.kind)

/-- A row with its key. -/
structure KeyedRow where
  row : Row
  key : Option RowKey
deriving DecidableEq

def Value.keyedRow (columns : List String) (v : Value) : Except Fault KeyedRow := do
  let row ← v.row
  return ⟨row, ← row.key? columns⟩

end RelatedRows

import RelatedRows.Form.Field

/-!
# Include options

What a request may say about one relation that it includes: how many related rows to attach and from which position on,
in which order, with which columns, and what to include below.

* `Options.ordering`: the order as columns with directions, one direction standing for all columns.
* `Entry.read`: reads the options object of a request.  Every field is checked on its own before the order is compared
  with the columns that it orders by.
* `Options.dump`: the options that differ from the default, under their names in a request.
-/

namespace RelatedRows

structure Options where
  limit : Option Nat := none
  offset : Nat := 0
  orderBy : Option (List String) := none
  order : Option (List Direction) := none
  select : Option (List String) := none
  exclude : Option (List String) := none
deriving DecidableEq, Repr

/-- Options together with what is to be included below, still unread. -/
structure Entry where
  options : Options
  below : Option Row

namespace Options

/-- One direction per column; a single direction is shared, and none at all means ascending. -/
def directions (o : Options) (columns : List String) : List Direction :=
  match o.order with
  | none | some [] => columns.map fun _ => .asc
  | some [d] => columns.map fun _ => d
  | some ds => ds

def ordering (o : Options) : OrderBy :=
  match o.orderBy with
  | none => []
  | some columns => columns.zip (o.directions columns)

/-- The columns that the options name, in the order in which they are checked. -/
def columns (o : Options) : List String :=
  o.select.getD [] ++ o.exclude.getD [] ++ o.orderBy.getD []

/-- Whether the directions fit the columns: there is one direction, or one for each column. -/
def orderFits (o : Options) : Bool :=
  match o.order, o.orderBy with
  | none, _ => true
  | some [_], _ => true
  | some _, none => false
  | some ds, some cs => ds.length = cs.length

def dump (o : Options) : Row :=
  (o.limit.map fun n => ("limit", Value.ofNat n)).toList ++
  (if o.offset = 0 then [] else [("offset", .ofNat o.offset)]) ++
  (o.orderBy.map fun cs => ("orderBy", Value.texts cs)).toList ++
  (o.order.map fun ds => ("order", Value.texts (ds.map Direction.text))).toList ++
  (o.select.map fun cs => ("select", Value.texts cs)).toList ++
  (o.exclude.map fun cs => ("exclude", Value.texts cs)).toList

end Options

namespace Entry

open Form

/-- The fields of an options object; `order_by` is another spelling of `orderBy`. -/
def known : List String :=
  ["include", "limit", "offset", "orderBy", "order", "select", "exclude"]

/-- Whether a field is no part of an options object; the other spelling is only known where the usual one is absent. -/
def isUnexpected (fields : Row) (name : String) : Bool :=
  !known.contains name && !(name = "order_by" && (fields.lookup "orderBy").isNone)

def unexpected (fields : Row) : Checked Unit :=
  match (fields.columns.filter (isUnexpected fields)).map fun name => (⟨[.field name], .unexpected⟩ : Issue) with
  | [] => .ok ()
  | issues => .error issues

def readFields (fields : Row) : Checked Entry := do
  let below := field fields ["include"] none fun p => optional (object p)
  let limit := field fields ["limit"] none fun p => optional fun v => exactInteger p v >>= above p 0
  let offset := field fields ["offset"] 0 fun p v => exactInteger p v >>= atLeast p 0
  let orderBy := field fields ["orderBy", "order_by"] none fun p => optional (oneOrMany p text)
  let order := field fields ["order"] none fun p => optional (oneOrMany p direction)
  let select := field fields ["select"] none fun p => optional (items p text)
  let exclude := field fields ["exclude"] none fun p => optional (items p text)
  let all ← both below (both limit (both offset (both orderBy (both order (both select (both exclude
    (unexpected fields)))))))
  let (below, limit, offset, orderBy, order, select, exclude, _) := all
  return ⟨⟨limit, offset, orderBy, order, select, exclude⟩, below⟩

/-- Reads an options object; a name with half of a pair in it spoils the object as a whole. -/
def read (fields : Row) : Checked Entry := do
  fields.columns.forM fun name => (wholeText [] name).map fun _ => ()
  let entry ← readFields fields
  if entry.options.orderFits then .ok entry else fail [] .orderMismatch

/-- Reads any value as options. -/
def ofValue : Value → Checked Entry
  | .object fields => read fields
  | _ => fail [] (.notForm "IncludeOptions")

end Entry

end RelatedRows

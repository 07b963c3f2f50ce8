import RelatedRows.Query.Basic
import RelatedRows.Row.Basic
import RelatedRows.Value.Order

/-!
# Key predicates

A key predicate tests the key columns of a row against values that are bound to numbered slots.  For one column it is
membership in a single list; for several it is a disjunction with one conjunction for each key.

* `KeyPredicate.ofColumns columns count start`: the predicate for `count` keys, with slots from `start` on.
* `keyParameters columns keys`: the values for its slots, in order.
* `KeyPredicate.holds`: what the predicate says about a row.
-/

namespace RelatedRows

inductive KeyPredicate where
  /-- The column has one of the values of the list in the slot. -/
  | member (column : String) (slot : Int)
  /-- All columns of one of the groups have the values in their slots. -/
  | anyOf (groups : List (List (String × Int)))
deriving DecidableEq, Repr

namespace KeyPredicate

def groupAt : (columns : List String) → (slot : Int) → List (String × Int)
  | [], _ => []
  | c :: cs, slot => (c, slot) :: groupAt cs (slot + 1)

def groupsFrom (columns : List String) : (count : Nat) → (slot : Int) → List (List (String × Int))
  | 0, _ => []
  | count + 1, slot => groupAt columns slot :: groupsFrom columns count (slot + columns.length)

def ofColumns (columns : List String) (count : Nat) (start : Int) : KeyPredicate :=
  match columns with
  | [c] => .member c start
  | columns => .anyOf (groupsFrom columns count start)

/-- The slots of the predicate, in the order in which they are written. -/
def slots : KeyPredicate → List Int
  | .member _ slot => [slot]
  | .anyOf groups => groups.flatten.map (·.2)

/-- Whether a row satisfies the predicate; an unbound slot and one of the wrong shape equal nothing. -/
def holds (binding : Int → Value) (row : Row) : KeyPredicate → Bool
  | .member c slot =>
    match binding slot with
    | .list vs => vs.any ((row.get c).equals ·)
    | _ => false
  | .anyOf groups => groups.any fun g => g.all fun (c, slot) => (row.get c).equals (binding slot)

theorem length_groupAt (columns : List String) (slot : Int) : (groupAt columns slot).length = columns.length := by
  induction columns generalizing slot with
  | nil => rfl
  | cons c cs ih => simp [groupAt, ih]

theorem length_groupsFrom (columns : List String) (count : Nat) (slot : Int) :
    (groupsFrom columns count slot).length = count := by
  induction count generalizing slot with
  | zero => rfl
  | succ n ih => simp [groupsFrom, ih]

end KeyPredicate

/-- The keys as parameters: one list of values for a single column, every component on its own otherwise. -/
def keyParameters (columns : List String) (keys : List Key) : List Value :=
  match columns with
  | [_] => [.list (keys.map fun k => k.headD .null)]
  | _ => keys.flatten

/-- Whether every key has a component to compare a single column with. -/
def keysFit (columns : List String) (keys : List Key) : Bool :=
  columns.length ≠ 1 || keys.all (!·.isEmpty)

end RelatedRows

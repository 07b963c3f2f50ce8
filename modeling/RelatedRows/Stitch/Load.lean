import RelatedRows.Graph.Basic
import RelatedRows.Stitch.Attachment
import RelatedRows.Stitch.Index
import RelatedRows.Stitch.Key
import RelatedRows.Text.Letters
import RelatedRows.Value.Order

/-!
# Loading one relation

Loading a relation for all rows of a level is a dialogue with the store: it asks at most one query, or two for a
relation through a join entity, whatever the number of rows.  The keys of the rows go into one batch, each once; the
answer is indexed by key, and then every row looks up what belongs to it.

* `Dialogue`: a computation that may put queries to a store.
* `PlanNode.load g n rows`: the dialogue for a node.  Its result is a function of the rows as they are when the answers
  are in.
-/

namespace RelatedRows

inductive Dialogue (α : Type) where
  | done (result : α)
  | ask (query : BatchQuery) (next : Answer → Dialogue α)

/-- What a load leaves to do: to find out, for every row, which of the found rows belong to it. -/
structure Linking where
  found : List Row
  link : Row → Except Fault Link

abbrev Load := Dialogue (Except Fault Linking)

namespace Linking

/-- Links all rows of a level. -/
def attachment (l : Linking) (rows : List Row) : Except Fault Attachment :=
  return ⟨l.found, ← rows.mapM l.link⟩

/-- Links rows one after the other and writes the links out under `key`, up to the first row that cannot be linked. -/
def attachTo (l : Linking) (key : String) : List Row → List Row
  | [] => []
  | row :: rows =>
    match l.link row with
    | .ok link => row.set key (link.value l.found) :: attachTo l key rows
    | .error _ => row :: rows

theorem attachTo_of_attachment {l : Linking} {rows : List Row} {a : Attachment} (h : l.attachment rows = .ok a)
    (key : String) : l.attachTo key rows = a.attachTo key rows := by
  induction rows generalizing a with
  | nil => simp [attachTo, Attachment.attachTo]
  | cons row rows ih =>
    simp only [attachment, List.mapM_cons] at h
    cases hr : l.link row with
    | error f => rw [hr] at h; cases h
    | ok link =>
      cases hrs : rows.mapM l.link with
      | error f => rw [hr, hrs] at h; cases h
      | ok links =>
        rw [hr, hrs] at h
        cases h
        have hrest : l.attachment rows = .ok ⟨l.found, links⟩ := by
          rw [attachment, hrs]
          rfl
        simp [attachTo, hr, ih hrest, Attachment.attachTo]

end Linking

namespace Stitch

/-! ## Keys and answers -/

/-- The different keys of some rows, in the order in which they first appear. -/
def keyBatch (keys : List (Option RowKey)) : List Key :=
  (Index.firstEntries (keys.filterMap fun k => k.map fun k => (k.identity, k.spelling))).map (·.2)

def keyBatchOf (columns : List String) (rows : List Row) : Except Fault (List Key) :=
  return keyBatch (← rows.mapM (Row.key? columns))

/-- The items of an answered value; a text has its letters as items, and an object the names of its fields. -/
def items : Value → Except Fault (List Value)
  | .list vs => .ok vs
  | .text s => .ok ((Text.pieces s).map .text)
  | .object fields => .ok (fields.map fun f => .text f.1)
  | v => .error (.notIterable v.kind)

/-- The items of an answer to a query of a node. -/
def answered (step : Inclusion) : Answer → Except Fault (List Value)
  | .ok v => items v
  | .error f =>
    if f.kind = .cancelled then .error .cancelled
    else .error (.query step.relation.source step.key step.depth f)

/-- The answered rows with their keys. -/
def keyedRows (step : Inclusion) (columns : List String) (a : Answer) : Except Fault (List KeyedRow) := do
  (← answered step a).mapM (Value.keyedRow columns)

/-- The keys of rows, with the positions of the rows; rows without a key are left out. -/
def entries (rows : List KeyedRow) : List (List Atom × Nat) :=
  rows.zipIdx.filterMap fun (r, i) => r.key.map fun k => (k.identity, i)

/-- Links every parent by what a look-up with its key gives. -/
def linkBy (columns : List String) (found : List Row) (link : Option (List Atom) → Link) : Linking where
  found := found
  link row := (row.key? columns).map fun k => link (k.map (·.identity))

/-- Attaches nothing to any row. -/
def nothing (link : Link) : Except Fault Linking :=
  .ok ⟨[], fun _ => .ok link⟩

/-! ## The three kinds of relations -/

section Loads

variable (g : Graph) (n : PlanNode)

def oneQuery (keys : List Key) : BatchQuery where
  table := n.step.relation.target
  keyColumns := n.step.relation.targetKey
  keys := keys
  columns := n.fetched n.step.relation.targetKey

/-- Links every parent to the first row found with its key. -/
def linkOne (rows : List KeyedRow) : Linking :=
  let index := Index.firstEntries (entries rows)
  linkBy n.step.relation.sourceKey (rows.map (·.row)) fun k => .one (k.bind fun k => index.lookup k)

def manyQuery (keys : List Key) : BatchQuery where
  table := n.step.relation.target
  keyColumns := n.step.relation.targetKey
  keys := keys
  columns := n.fetched n.step.relation.targetKey
  ordering := OrderBy.merge [ascending n.step.relation.targetKey, n.step.options.ordering,
    ascending (g.primaryKey n.step.relation.target)]

/-- Links every parent to all rows found with its key. -/
def linkMany (rows : List KeyedRow) : Linking :=
  let groups := Index.groups (entries rows)
  linkBy n.step.relation.sourceKey (rows.map (·.row)) fun k =>
    .many (n.step.options.window ((k.bind fun k => groups.lookup k).getD []))

def joinQuery (joinEntity : String) (keys : List Key) : BatchQuery where
  table := joinEntity
  keyColumns := n.step.relation.joinSourceKey
  keys := keys
  columns := some (n.step.relation.joinSourceKey ++ n.step.relation.joinTargetKey).eraseDups
  ordering := OrderBy.merge [ascending n.step.relation.joinSourceKey, ascending n.step.relation.joinTargetKey]

def targetQuery (keys : List Key) : BatchQuery where
  table := n.step.relation.target
  keyColumns := n.step.relation.targetKey
  keys := keys
  columns := n.fetched n.step.relation.targetKey
  ordering := OrderBy.merge [n.step.options.ordering, ascending (g.primaryKey n.step.relation.target)]

/-- The positions of the targets that the join rows of one parent lead to. -/
def arrange (index : List (List Atom × Nat)) (targets : List (Option RowKey)) : List Nat :=
  let positions := targets.filterMap fun k => k.bind fun k => index.lookup k.identity
  let positions := if n.step.relation.unique then positions.eraseDups else positions
  let ordered := !(n.step.options.orderBy.getD []).isEmpty
  n.step.options.window (if ordered then stableSort (· ≤ ·) positions else positions)

/-- Links every parent to the targets of its join rows, whose keys on the side of the parents are looked at only now. -/
def linkJoined (joins targets : List KeyedRow) : Except Fault Linking := do
  let sources ← joins.mapM fun j => j.row.key? n.step.relation.joinSourceKey
  let index := Index.firstEntries (entries targets)
  let groups := Index.groups ((sources.zip (joins.map (·.key))).filterMap fun (s, t) => s.map fun s => (s.identity, t))
  return linkBy n.step.relation.sourceKey (targets.map (·.row)) fun k =>
    .many (arrange n index ((k.bind fun k => groups.lookup k).getD []))

def loadOne (rows : List Row) : Load :=
  match keyBatchOf n.step.relation.sourceKey rows with
  | .error f => .done (.error f)
  | .ok [] => .done (nothing (.one none))
  | .ok keys => .ask (oneQuery n keys) fun a =>
    .done ((keyedRows n.step n.step.relation.targetKey a).map (linkOne n))

def loadMany (rows : List Row) : Load :=
  match keyBatchOf n.step.relation.sourceKey rows with
  | .error f => .done (.error f)
  | .ok [] => .done (nothing (.many []))
  | .ok keys => .ask (manyQuery g n keys) fun a =>
    .done ((keyedRows n.step n.step.relation.targetKey a).map (linkMany n))

/-- The second half of the dialogue, after the join rows are in. -/
def loadTargets (joins : List KeyedRow) : Load :=
  match keyBatch (joins.map (·.key)) with
  | [] => .done (nothing (.many []))
  | keys => .ask (targetQuery g n keys) fun a =>
    .done (keyedRows n.step n.step.relation.targetKey a >>= linkJoined n joins)

def loadManyViaJoin (rows : List Row) : Load :=
  match n.step.relation.joinEntity with
  | none => .done (.error (.noJoinEntity n.step.relation.name))
  | some joinEntity =>
    match keyBatchOf n.step.relation.sourceKey rows with
    | .error f => .done (.error f)
    | .ok [] => .done (nothing (.many []))
    | .ok keys => .ask (joinQuery n joinEntity keys) fun a =>
      match keyedRows n.step n.step.relation.joinTargetKey a with
      | .error f => .done (.error f)
      | .ok joins => loadTargets g n joins

end Loads

end Stitch

open Stitch in
def PlanNode.load (g : Graph) (n : PlanNode) (rows : List Row) : Load :=
  match n.step.relation.kind with
  | .one => loadOne n rows
  | .many => loadMany g n rows
  | .manyViaJoin => loadManyViaJoin g n rows

end RelatedRows

import RelatedRows.Stitch.Concurrent

/-!
# Row objects

Rows are kept in objects, and whoever hands rows over keeps hold of their objects.  Here stitching is done on the
objects themselves.  It copies what it is given, makes an object of every row that it finds, writes references into
cells, and takes cells out again; an object that several others refer to is still one object.  Nothing in the steps
themselves keeps them from writing into any object there is.

A list that hangs off a row is an object as well: whoever writes into it writes into this one list, and two rows that
share it would both show what was written.  Stitching makes lists but never changes one, so a cell shows what is in its
list beside the address of the list.

* `Objects`: the objects of rows that there are.  The address of an object is its position among them.
* `Objects.row depth a`: the row that an object holds, with the rows of the objects that it refers to.
* `Objects.lists`: the addresses of the lists that there are.
* `ObjectMachine.step place m`: the step of a machine on objects.
-/

namespace RelatedRows

/-! ## Objects -/

/-- What a cell of an object holds: a value of its own, a reference to the object at an address or to none, or a list
of references, which has an address of its own. -/
inductive Cell where
  | plain (value : Value)
  | one (address : Option Nat)
  | many (list : Nat) (addresses : List Nat)
deriving DecidableEq

namespace Cell

/-- The cell for a link to some addresses, with a list at the address `list` if it needs one. -/
def ofLink (list : Nat) : Link → Cell
  | .one a => .one a
  | .many as => .many list as

def addresses : Cell → List Nat
  | .plain _ => []
  | .one a => a.toList
  | .many _ as => as

def list? : Cell → Option Nat
  | .many list _ => some list
  | _ => none

/-- The value in a cell, where `rows` are the rows of all objects. -/
def value (rows : List Row) : Cell → Value
  | .plain v => v
  | .one a => (Link.one a).value rows
  | .many _ as => (Link.many as).value rows

end Cell

abbrev Object := List (String × Cell)

namespace Object

def ofRow (row : Row) : Object :=
  row.map fun f => (f.1, .plain f.2)

def row (rows : List Row) (o : Object) : Row :=
  o.map fun f => (f.1, f.2.value rows)

/-- Writes into a cell, which stands at the end if it is new. -/
def set (c : String) (cell : Cell) : Object → Object
  | [] => [(c, cell)]
  | (d, old) :: rest => if d = c then (c, cell) :: rest else (d, old) :: set c cell rest

def keep (p : String → Bool) (o : Object) : Object :=
  o.filter fun f => p f.1

/-- The objects that a cell refers to. -/
def addressesAt (c : String) (o : Object) : List Nat :=
  ((o.lookup c).map Cell.addresses).getD []

def lists (o : Object) : List Nat :=
  o.filterMap fun f => f.2.list?

end Object

abbrev Objects := List Object

namespace Objects

/-- The rows of all objects.  References lead on to a depth, and to nothing below it. -/
def rows (os : Objects) : (depth : Nat) → List Row
  | 0 => os.map (Object.row [])
  | depth + 1 => os.map (Object.row (os.rows depth))

def row (os : Objects) (depth a : Nat) : Row :=
  ((os.rows depth)[a]?).getD []

/-- The objects that some objects refer to under a key, each once. -/
def attached (os : Objects) (key : String) (as : List Nat) : List Nat :=
  (as.flatMap fun a => ((os[a]?).map (Object.addressesAt key)).getD []).eraseDups

/-- The lists in all cells of all objects. -/
def lists (os : Objects) : List Nat :=
  os.flatMap Object.lists

/-- The list that an object has under a key. -/
def listAt (os : Objects) (key : String) (a : Nat) : Option Nat :=
  (os[a]?).bind fun o => (o.lookup key).bind Cell.list?

/-- An address that no list has. -/
def newList (os : Objects) : Nat :=
  os.lists.max?.getD 0 + 1

/-- Links objects one after the other, up to the first that cannot be linked.  The objects of the rows that were found
stand from `base` on.  Every object is given a list of its own: a stretch of a list is a new list, even if it is all of
it. -/
def linkAll (l : Linking) (base : Nat) (key : String) : List Nat → Objects → Except Fault Unit × Objects
  | [], os => (.ok (), os)
  | a :: as, os =>
    match l.link (os.row 1 a) with
    | .ok link => linkAll l base key as (os.modify a (Object.set key (.ofLink os.newList (link.relabel (base + ·)))))
    | .error f => (.error f, os)

/-- Makes objects of the rows that were found and links the objects of a level to them. -/
def attach (l : Linking) (key : String) (as : List Nat) (os : Objects) : Except Fault Unit × Objects :=
  linkAll l os.length key as (os ++ l.found.map Object.ofRow)

/-- Trims what a node has attached to some objects. -/
def trim (as : List Nat) (os : Objects) (n : PlanNode) : Objects :=
  (os.attached n.key as).foldl (fun os a => os.modify a (Object.keep n.keeps)) os

end Objects

/-! ## The machine -/

/-- What is left of a load; what it attaches is in the objects. -/
inductive ObjectTask where
  | waiting
  | running (load : Load)
  | calling (query : BatchQuery) (next : Answer → Load)
  | finished (result : Except Fault Unit)

def ObjectTask.result? : ObjectTask → Option (Except Fault Unit)
  | .finished r => some r
  | _ => none

/-- A level in the course of a run, with the addresses of its objects. -/
inductive ObjectLevel where
  | loading (nodes : List PlanNode) (as : List Nat) (tasks : List ObjectTask)
  | nesting (nodes : List PlanNode) (as : List Nat) (below : List ObjectLevel)
  | finished (result : Except Fault (List Nat))

namespace ObjectLevel

def start (nodes : List PlanNode) (as : List Nat) : ObjectLevel :=
  if as.isEmpty || nodes.isEmpty then .finished (.ok as) else .loading nodes as (nodes.map fun _ => .waiting)

/-- The level below a node. -/
def nested (os : Objects) (as : List Nat) (n : PlanNode) : ObjectLevel :=
  start ((n.nested?.map (·.nodes)).getD []) (os.attached n.key as)

def result? : ObjectLevel → Option (Except Fault (List Nat))
  | .finished r => some r
  | _ => none

/-- The state of a level after its loads. -/
def ofLoads (nodes : List PlanNode) (as : List Nat) (os : Objects) (results : List (Except Fault Unit)) : ObjectLevel :=
  match results.mapM id with
  | .error f => .finished (.error f)
  | .ok _ => .nesting nodes as (nodes.map (nested os as))

/-- The state of a level after the levels below it, which is when what its nodes attached is trimmed. -/
def ofBelow (nodes : List PlanNode) (as : List Nat) (os : Objects) (results : List (Except Fault (List Nat))) :
    ObjectLevel × Objects :=
  match results.mapM id with
  | .error f => (.finished (.error f), os)
  | .ok _ => (.finished (.ok as), nodes.foldl (Objects.trim as) os)

end ObjectLevel

structure ObjectMachine (σ : Type) where
  shared : Shared σ
  objects : Objects
  root : ObjectLevel

section Steps

variable {σ : Type} (exec : Executor σ) (g : Graph)

/-- One step of the load of a node for the objects at some addresses. -/
def ObjectTask.step (n : PlanNode) (as : List Nat) (s : Shared σ) (os : Objects) :
    ObjectTask → Option (ObjectTask × Shared σ × Objects)
  | .waiting => some (.running (n.load g (as.map (os.row 1))), s, os)
  | .running (.ask q next) =>
    if s.permits = 0 then none
    else some (.calling q next, { s with permits := s.permits - 1, issued := s.issued ++ [q] }, os)
  | .calling q next =>
    let (answer, store) := exec s.store (.batch q)
    some (.running (next answer), { s with store, permits := s.permits + 1 }, os)
  | .running (.done (.error f)) => some (.finished (.error f), s, os)
  | .running (.done (.ok l)) =>
    let (result, os) := os.attach l n.key as
    some (.finished result, s, os)
  | .finished _ => none

def ObjectLevel.step :
    (place : List Nat) → ObjectLevel → Shared σ → Objects → Option (ObjectLevel × Shared σ × Objects)
  | [], .loading nodes as tasks, s, os =>
    (tasks.mapM ObjectTask.result?).map fun results => (ofLoads nodes as os results, s, os)
  | [], .nesting nodes as below, s, os =>
    (below.mapM ObjectLevel.result?).map fun results =>
      let (level, os) := ofBelow nodes as os results
      (level, s, os)
  | [i], .loading nodes as tasks, s, os => do
    let n ← nodes[i]?
    let t ← tasks[i]?
    let (t, s, os) ← t.step exec g n as s os
    return (.loading nodes as (tasks.set i t), s, os)
  | i :: place, .nesting nodes as below, s, os => do
    let b ← below[i]?
    let (b, s, os) ← b.step place s os
    return (.nesting nodes as (below.set i b), s, os)
  | _, _, _, _ => none

namespace ObjectMachine

def step (place : List Nat) (m : ObjectMachine σ) : Option (ObjectMachine σ) :=
  (m.root.step exec g place m.shared m.objects).map fun (root, shared, objects) => ⟨shared, objects, root⟩

def run (schedule : List (List Nat)) (m : ObjectMachine σ) : Option (ObjectMachine σ) :=
  schedule.foldlM (fun m place => m.step exec g place) m

/-- Copies the objects at the given addresses, and starts with the copies. -/
def start (p : Plan) (os : Objects) (given : List Nat) (permits : Nat) (store : σ) : ObjectMachine σ where
  shared := { store, permits }
  objects := os ++ given.map fun a => (os[a]?).getD []
  root := .start p.nodes (List.range' os.length given.length)

end ObjectMachine

end Steps

end RelatedRows

import RelatedRows.Stitch.Load

/-!
# Levels

A level is a list of rows with the nodes of the plan that are to be attached to them.  All nodes of a level are loaded
before anything below it, one after the other in the order of the plan; a node that fails does not keep the others from
being loaded.  Nothing is loaded below a level with a failure.

* `Session`: a store with the record of what has been asked of it.
* `Level.load`: loads the nodes of a level.
* `LoadedLevel.below`: the levels below, one for each node.
* `LoadedLevel.finish`: the rows of a level once the levels below are done; the first failure among them in the order of
  the plan is the failure of the level.
-/

namespace RelatedRows

/-- What happens in the course of stitching.  A path is the list of keys that lead from the root to a node. -/
inductive Event where
  | level (entity : String) (depth : Nat) (keys : List String) (rows : Nat)
  | query (path : List String) (step : Inclusion) (query : BatchQuery)

structure Session (σ : Type) where
  store : σ
  /-- The number of turns that a call to the store takes; without any, it is answered at once. -/
  latency : Nat := 0
  /-- The largest number of calls that were in progress at once. -/
  peak : Nat := 0
  events : List Event := []

namespace Session

variable {σ : Type}

def record (s : Session σ) (es : List Event) : Session σ :=
  { s with events := s.events ++ es }

/-- The session after a call that was the only one in progress. -/
def called (s : Session σ) (store : σ) : Session σ :=
  { s with store, peak := max s.peak 1 }

/-- What has happened since an earlier state of the session. -/
def eventsAfter (s earlier : Session σ) : List Event :=
  s.events.drop earlier.events.length

def queriesOf (events : List Event) : List BatchQuery :=
  events.filterMap fun
    | .query _ _ q => some q
    | .level .. => none

def queries (s : Session σ) : List BatchQuery :=
  queriesOf s.events

def queriesAfter (s earlier : Session σ) : List BatchQuery :=
  queriesOf (s.eventsAfter earlier)

end Session

section Run

variable {σ α : Type} (exec : Executor σ) (g : Graph)

/-- Has the dialogue of the node at a path with a store. -/
def Dialogue.run (path : List String) (step : Inclusion) : Dialogue α → Session σ → α × Session σ
  | .done a, s => (a, s)
  | .ask q next, s =>
    let (answer, store) := exec s.store (.batch q)
    (next answer).run path step ((s.record [.query path step q]).called store)

/-- Rows, with the nodes to attach to them and the path to the node that the rows are attached by. -/
structure Level where
  path : List String
  entity : String
  depth : Nat
  nodes : List PlanNode
  rows : List Row

/-- The level of a plan over some rows. -/
def Plan.level (p : Plan) (path : List String) (rows : List Row) : Level :=
  ⟨path, p.entity, p.depth, p.nodes, rows⟩

/-- Whether there is nothing to attach, or nothing to attach it to. -/
def Level.isIdle (l : Level) : Bool :=
  l.rows.isEmpty || l.nodes.isEmpty

def Level.events (l : Level) : List Event :=
  if l.isIdle then [] else [.level l.entity l.depth (l.nodes.map PlanNode.key) l.rows.length]

abbrev Loaded := PlanNode × Attachment

structure LoadedLevel where
  path : List String
  rows : List Row
  nodes : Except Fault (List Loaded)

/-- The rows of a level after a load under `key`. -/
def rowsAfter (key : String) (rows : List Row) : Except Fault Linking → List Row
  | .ok l => l.attachTo key rows
  | .error _ => rows

/-- Loads nodes one after the other.  What a node attaches is in the rows when the next one is loaded. -/
def loadNodes (path : List String) : List PlanNode → List Row → Session σ →
    List (Except Fault Loaded) × List Row × Session σ
  | [], rows, s => ([], rows, s)
  | n :: ns, rows, s =>
    let (linking, s) := (n.load g rows).run exec (path ++ [n.key]) n.step s
    let (rest, after, s) := loadNodes path ns (rowsAfter n.key rows linking) s
    ((linking >>= (·.attachment rows)).map (n, ·) :: rest, after, s)

def Level.load (l : Level) (s : Session σ) : LoadedLevel × Session σ :=
  if l.isIdle then (⟨l.path, l.rows, .ok []⟩, s)
  else
    let (loaded, rows, s) := loadNodes exec g l.path l.nodes l.rows s
    (⟨l.path, rows, loaded.mapM id⟩, s)

/-- The level below a node; below a leaf nothing is to be attached. -/
def Loaded.below (path : List String) (n : Loaded) : Level :=
  let path := path ++ [n.1.key]
  match n.1.nested? with
  | some p => p.level path n.2.attached
  | none => ⟨path, n.1.step.relation.target, n.1.step.depth + 1, [], n.2.attached⟩

def LoadedLevel.below (l : LoadedLevel) : List Level :=
  match l.nodes with
  | .ok ns => ns.map (Loaded.below l.path)
  | .error _ => []

/-- Puts the finished rows of the level below into what a node attaches, trimmed to the columns it keeps. -/
def Loaded.settle (n : Loaded) (below : List Row) (rows : List Row) : List Row :=
  ((n.2.complete below).map n.1.trim).attachTo n.1.key rows

def settleAll (rows : List Row) (nodes : List Loaded) (below : List (List Row)) : List Row :=
  (nodes.zip below).foldl (fun rows (n, rs) => n.settle rs rows) rows

def LoadedLevel.finish (l : LoadedLevel) (below : List (Except Fault (List Row))) : Except Fault (List Row) := do
  let nodes ← l.nodes
  return settleAll l.rows nodes (← below.mapM id)

/-! ## Whole trees -/

def loadLevels : List Level → Session σ → List LoadedLevel × Session σ
  | [], s => ([], s)
  | l :: ls, s =>
    let (loaded, s) := l.load exec g s
    let (rest, s) := loadLevels ls s
    (loaded :: rest, s)

/-- Finishes levels with the results of the levels below them, which stand in one list. -/
def finishLevels : List LoadedLevel → List (Except Fault (List Row)) → List (Except Fault (List Row))
  | [], _ => []
  | l :: ls, results =>
    let count := l.below.length
    l.finish (results.take count) :: finishLevels ls (results.drop count)

/-- Stitches levels of equal depth, and everything below them down to `height` levels.  All of them are announced and
loaded before any level below them. -/
def stitchLevels : (height : Nat) → List Level → Session σ → List (Except Fault (List Row)) × Session σ
  | 0, levels, s => (levels.map (.ok ·.rows), s)
  | height + 1, levels, s =>
    let (loaded, s) := loadLevels exec g levels (s.record (levels.flatMap Level.events))
    let (results, s) := stitchLevels height (loaded.flatMap LoadedLevel.below) s
    (finishLevels loaded results, s)

/-- Attaches everything that a plan asks for to some rows. -/
def stitchRows (p : Plan) (rows : List Row) (s : Session σ) : Except Fault (List Row) × Session σ :=
  let (results, s) := stitchLevels exec g p.height [p.level [] rows] s
  (results.headD (.ok rows), s)

end Run

end RelatedRows

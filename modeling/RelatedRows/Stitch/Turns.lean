import RelatedRows.Stitch.Concurrent

/-!
# Stitching in turns

Over a store that takes its time, loads go on while others wait.  What is to happen next stands in a queue; a turn is
taken from its front, and what follows from it is put at its end.  A call to the store waits for a number of turns of
its own before it is answered.  Permits are handed out in the order in which they were asked for: a load that gives one
back hands it to the load that has waited longest, and nobody overtakes a load that waits.

* `Turn`, `Turns`: what is to happen, and a run in the course of it.
* `Turns.take`: what a turn does.
* `stitchInTurns`: stitching over a store with a latency.
* `Turns.reaches_finish`: a run in turns is one of the runs of the machine.
-/

namespace RelatedRows

/-- What is to happen.  A load has the place of its level and its number there. -/
inductive Turn where
  /-- A level below another one is reached. -/
  | enter (level : List Nat)
  /-- A load looks at the rows. -/
  | start (level : List Nat) (load : Nat)
  /-- A load goes on with the permit that it was handed. -/
  | permitted (level : List Nat) (load : Nat)
  /-- A call has waited once, and has to do so `left` more times. -/
  | waited (level : List Nat) (load : Nat) (left : Nat)
  /-- A level hears that one of its loads or of the levels below it has ended. -/
  | ended (level : List Nat)
  /-- A level goes on after all of them. -/
  | proceed (level : List Nat)
deriving DecidableEq, Repr

/-- A load in the queue for permits. -/
structure Waiter where
  level : List Nat
  load : Nat
  /-- The load was handed a permit and has not gone on yet. -/
  handed : Bool := false
deriving DecidableEq, Repr

structure Turns (σ : Type) where
  machine : Machine σ
  queue : List Turn := []
  waiters : List Waiter := []
  events : List Event := []
  peak : Nat := 0

mutual
def Plan.size : Plan → Nat
  | .mk _ _ nodes _ => nodesSize nodes

def nodesSize : List PlanNode → Nat
  | [] => 0
  | n :: ns => n.size + 1 + nodesSize ns

/-- The number of nodes below a node. -/
def PlanNode.size : PlanNode → Nat
  | .leaf _ => 0
  | .branch _ p => p.size
end

def LevelState.at? : (place : List Nat) → LevelState → Option LevelState
  | [], s => some s
  | i :: place, .nesting _ _ _ below => (below[i]?).bind (at? place)
  | _, _ => none

namespace Turns

section Take

variable {σ : Type} (exec : Executor σ) (g : Graph) (waits : Nat)

def put (turns : List Turn) (s : Turns σ) : Turns σ :=
  { s with queue := s.queue ++ turns }

/-- Lets the machine take its step at a place. -/
def stepAt (place : List Nat) (s : Turns σ) : Turns σ :=
  match s.machine.step exec g place with
  | some machine => { s with machine }
  | none => s

/-! ## Permits -/

/-- The permits that are neither used nor handed to a load. -/
def free (s : Turns σ) : Nat :=
  s.machine.shared.permits - s.waiters.countP Waiter.handed

/-- The first of the waiting loads that was not handed a permit, and all of them once it has been. -/
def hand : List Waiter → Option (Waiter × List Waiter)
  | [] => none
  | w :: ws => if w.handed then (hand ws).map fun (v, vs) => (v, w :: vs) else some (w, { w with handed := true } :: ws)

/-- Hands a free permit, if there is one, to the load that has waited longest. -/
def handOn (s : Turns σ) : Turns σ :=
  if s.free = 0 then s
  else
    match hand s.waiters with
    | some (w, waiters) => { s with waiters }.put [.permitted w.level w.load]
    | none => s

/-! ## Loads -/

/-- A load calls the store. -/
def call (level : List Nat) (load : Nat) (s : Turns σ) : Turns σ :=
  let s := (s.stepAt exec g (level ++ [load])).handOn
  { s with peak := max s.peak s.machine.inFlight }.put [.waited level load waits]

/-- The announcement of the query that a load is about to put, if that is what it does next. -/
def announcement? (level : List Nat) (load : Nat) (s : Turns σ) : Option Event :=
  match s.machine.root.at? level with
  | some (.loading l tasks) =>
    match l.nodes[load]?, tasks[load]? with
    | some n, some (.running (.ask q _)) => some (.query (l.path ++ [n.key]) n.step q)
    | _, _ => none
  | _ => none

/-- A load goes on.  A query is announced before a permit is asked for; without one, the load ends. -/
def advance (level : List Nat) (load : Nat) (s : Turns σ) : Turns σ :=
  match s.announcement? level load with
  | some e =>
    let s := { s with events := s.events ++ [e] }
    if s.free = 0 || !s.waiters.isEmpty then { s with waiters := s.waiters ++ [⟨level, load, false⟩] }
    else s.call exec g waits level load
  | none => (s.stepAt exec g (level ++ [load])).put [.ended level]

/-! ## Levels -/

/-- Tells the level above that a level has ended. -/
def leave (level : List Nat) (s : Turns σ) : Turns σ :=
  if level.isEmpty then s else s.put [.ended level.dropLast]

/-- A level announces itself and starts its loads; one that has nothing to load ends. -/
def enter (level : List Nat) (s : Turns σ) : Turns σ :=
  match s.machine.root.at? level with
  | some (.loading l _) =>
    { s with events := s.events ++ l.events }.put ((List.range l.nodes.length).map (.start level))
  | _ => s.leave level

/-- Whether all loads of a level, or all levels below it, have ended. -/
def allEnded (level : List Nat) (s : Turns σ) : Bool :=
  match s.machine.root.at? level with
  | some (.loading _ tasks) => tasks.all fun t => t.result?.isSome
  | some (.nesting _ _ _ below) => below.all fun b => b.result?.isSome
  | _ => false

/-- A level goes on after its loads or after the levels below it.  Only nodes with a plan of their own lead to levels
that are entered. -/
def proceed (level : List Nat) (s : Turns σ) : Turns σ :=
  let s := s.stepAt exec g level
  match s.machine.root.at? level with
  | some (.nesting _ _ loaded _) =>
    match loaded.zipIdx.filter fun (n, _) => n.1.nested?.isSome with
    | [] => (s.stepAt exec g level).leave level
    | entered => s.put (entered.map fun (_, i) => .enter (level ++ [i]))
  | _ => s.leave level

/-- Takes a turn.  A level goes on when the last of those that it waits for is heard of. -/
def take (t : Turn) (s : Turns σ) : Turns σ :=
  match t with
  | .enter level => s.enter level
  | .start level load => (s.stepAt exec g (level ++ [load])).advance exec g waits level load
  | .permitted level load =>
    { s with waiters := s.waiters.filter fun w => w.level ≠ level || w.load ≠ load }.call exec g waits level load
  | .waited level load 0 => (s.stepAt exec g (level ++ [load])).handOn.advance exec g waits level load
  | .waited level load (left + 1) => s.put [.waited level load left]
  | .ended level => if s.allEnded level && !s.queue.contains (.ended level) then s.put [.proceed level] else s
  | .proceed level => s.proceed exec g level

/-- Takes at most `count` turns. -/
def finish : (count : Nat) → Turns σ → Turns σ
  | 0, s => s
  | count + 1, s =>
    match s.queue with
    | [] => s
    | t :: queue => finish count ({ s with queue }.take exec g waits t)

/-! ## Turns are steps of the machine -/

theorem reaches_stepAt (place : List Nat) (s : Turns σ) :
    s.machine.Reaches exec g (s.stepAt exec g place).machine := by
  unfold stepAt
  split
  · next h => exact .of_step h
  · exact .refl _

@[simp] theorem machine_put (turns : List Turn) (s : Turns σ) : (s.put turns).machine = s.machine := rfl

@[simp] theorem machine_handOn (s : Turns σ) : s.handOn.machine = s.machine := by
  unfold handOn
  split
  · rfl
  · split <;> rfl

@[simp] theorem machine_leave (level : List Nat) (s : Turns σ) : (s.leave level).machine = s.machine := by
  unfold leave
  split <;> rfl

@[simp] theorem machine_enter (level : List Nat) (s : Turns σ) : (s.enter level).machine = s.machine := by
  unfold enter
  split
  · rfl
  · simp

theorem reaches_call (level : List Nat) (load : Nat) (s : Turns σ) :
    s.machine.Reaches exec g (s.call exec g waits level load).machine := by
  simpa [call] using reaches_stepAt exec g (level ++ [load]) s

theorem reaches_advance (level : List Nat) (load : Nat) (s : Turns σ) :
    s.machine.Reaches exec g (s.advance exec g waits level load).machine := by
  unfold advance
  split
  · next e _ =>
    dsimp only
    split
    · exact .refl _
    · exact reaches_call exec g waits level load { s with events := s.events ++ [e] }
  · exact reaches_stepAt exec g _ s

theorem reaches_proceed (level : List Nat) (s : Turns σ) :
    s.machine.Reaches exec g (s.proceed exec g level).machine := by
  have h := reaches_stepAt exec g level s
  unfold proceed
  dsimp only
  split
  · split
    · rw [machine_leave]
      exact h.trans (reaches_stepAt exec g level _)
    · exact h
  · rwa [machine_leave]

theorem reaches_take (t : Turn) (s : Turns σ) : s.machine.Reaches exec g (s.take exec g waits t).machine := by
  cases t with
  | enter level => simpa [take] using .refl _
  | start level load => exact (reaches_stepAt exec g _ s).trans (reaches_advance exec g waits level load _)
  | permitted level load =>
    exact reaches_call exec g waits level load
      { s with waiters := s.waiters.filter fun w => w.level ≠ level || w.load ≠ load }
  | waited level load left =>
    cases left with
    | zero =>
      have h : s.machine.Reaches exec g (s.stepAt exec g (level ++ [load])).handOn.machine := by
        rw [machine_handOn]
        exact reaches_stepAt exec g _ s
      exact h.trans (reaches_advance exec g waits level load _)
    | succ left => exact .refl _
  | ended level =>
    simp only [take]
    split <;> exact .refl _
  | proceed level => exact reaches_proceed exec g level s

theorem reaches_finish (count : Nat) (s : Turns σ) :
    s.machine.Reaches exec g (s.finish exec g waits count).machine := by
  induction count generalizing s with
  | zero => exact .refl _
  | succ count ih =>
    unfold finish
    split
    · exact .refl _
    · next t queue _ => exact (reaches_take exec g waits t { s with queue }).trans (ih _)

end Take

end Turns

section Run

variable {σ : Type} (exec : Executor σ) (g : Graph)

/-- Stitches over a store whose calls wait `waits + 1` times.  A load takes no more than `2 * waits + 6` turns, and a
level no more than four. -/
def stitchInTurns (concurrency waits : Nat) (p : Plan) (rows : List Row) (s : Session σ) :
    Except Fault (List Row) × Session σ :=
  let turns : Turns σ := { machine := .start p rows concurrency s.store }
  let turns := (turns.enter []).finish exec g waits ((2 * waits + 10) * (p.size + 1))
  (turns.machine.result?.getD (.ok rows), { s with
    store := turns.machine.shared.store, peak := max s.peak turns.peak, events := s.events ++ turns.events })

/-- Stitches at the pace of the store: one load after the other if it answers at once, and in turns otherwise. -/
def stitchRowsPaced (concurrency : Nat) (p : Plan) (rows : List Row) (s : Session σ) :
    Except Fault (List Row) × Session σ :=
  match s.latency with
  | 0 => stitchRows exec g p rows s
  | waits + 1 => stitchInTurns exec g concurrency waits p rows s

/-- Stitches rows from outside at the pace of the store. -/
def stitchPaced (concurrency : Int) (entity : String) (p : Plan) (rows : Value) (s : Session σ) :
    Except Fault (List Row) × Session σ :=
  match rootRows concurrency entity p rows with
  | .error f => (.error f, s)
  | .ok roots =>
    let (rows, s) := stitchRowsPaced exec g concurrency.toNat p (roots.map (·.row)) s
    (rows.map (RootRow.completeAll roots), s)

end Run

end RelatedRows

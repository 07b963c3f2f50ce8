import RelatedRows.Stitch.Basic

/-!
# Stitching with concurrent loads

The loads of a level need not run one after the other, and neither need the levels below different nodes.  A `Machine`
is a state in the course of such a run.  It holds the store, the permits that are left, and a tree of levels; one step
is taken by one load or by one level whose loads or lower levels have all finished.  A load needs a permit to call the
store and gives it back with the answer, so it never holds one while it waits for another.

* `Machine.step place m`: the step of the load or level at a place, if it can take one.
* `Machine.run`, `Machine.Reaches`: the steps of a schedule, and what some schedule leads to.
* `Task.Advances`, `LevelState.Advances`: all that a step can be.
* `Machine.inFlight`: the number of calls in progress.
-/

namespace RelatedRows

/-- What is left of a load. -/
inductive Task where
  /-- The rows have not been looked at. -/
  | waiting
  /-- The next step is to call the store, or to link the rows. -/
  | running (load : Load)
  /-- A call is in progress, under a permit. -/
  | calling (query : BatchQuery) (next : Answer → Load)
  | finished (result : Except Fault Attachment)

namespace Task

def isCalling : Task → Bool
  | .calling .. => true
  | _ => false

def result? : Task → Option (Except Fault Attachment)
  | .finished r => some r
  | _ => none

end Task

/-- A level in the course of a run.  The loads of a level share its rows. -/
inductive LevelState where
  | loading (level : Level) (tasks : List Task)
  | nesting (path : List String) (rows : List Row) (loaded : List Loaded) (below : List LevelState)
  | finished (result : Except Fault (List Row))

/-- What the loads of a run share beside the rows. -/
structure Shared (σ : Type) where
  store : σ
  permits : Nat
  /-- The queries of all calls so far, in the order in which the calls began. -/
  issued : List BatchQuery := []

structure Machine (σ : Type) where
  shared : Shared σ
  root : LevelState

/-! ## Steps -/

def Level.start (l : Level) : LevelState :=
  if l.isIdle then .finished (.ok l.rows) else .loading l (l.nodes.map fun _ => .waiting)

namespace LevelState

def result? : LevelState → Option (Except Fault (List Row))
  | .finished r => some r
  | _ => none

/-- The state of a level after its loads. -/
def ofLoads (l : Level) (results : List (Except Fault Attachment)) : LevelState :=
  match (l.nodes.zip results).mapM fun (n, r) => r.map fun a => ((n, a) : Loaded) with
  | .error f => .finished (.error f)
  | .ok loaded => .nesting l.path l.rows loaded (loaded.map fun n => (Loaded.below l.path n).start)

/-- The state of a level after the levels below it. -/
def ofBelow (path : List String) (rows : List Row) (loaded : List Loaded) (results : List (Except Fault (List Row))) :
    LevelState :=
  .finished (LoadedLevel.finish ⟨path, rows, .ok loaded⟩ results)

end LevelState

section Steps

variable {σ : Type} (exec : Executor σ) (g : Graph)

/-- One step of the load of a node, with the rows of its level after it. -/
def Task.step (n : PlanNode) (rows : List Row) (s : Shared σ) : Task → Option (Task × List Row × Shared σ)
  | .waiting => some (.running (n.load g rows), rows, s)
  | .running (.ask q next) =>
    if s.permits = 0 then none
    else some (.calling q next, rows, { s with permits := s.permits - 1, issued := s.issued ++ [q] })
  | .calling q next =>
    let (answer, store) := exec s.store (.batch q)
    some (.running (next answer), rows, { s with store, permits := s.permits + 1 })
  | .running (.done linking) =>
    some (.finished (linking >>= (·.attachment rows)), rowsAfter n.key rows linking, s)
  | .finished _ => none

/-- One step at a place below a level: the place of a level below it, or the number of one of its loads; the empty place
is the level itself. -/
def LevelState.step : (place : List Nat) → LevelState → Shared σ → Option (LevelState × Shared σ)
  | [], .loading l tasks, s => (tasks.mapM Task.result?).map fun results => (ofLoads l results, s)
  | [], .nesting path rows loaded below, s =>
    (below.mapM LevelState.result?).map fun results => (ofBelow path rows loaded results, s)
  | [i], .loading l tasks, s => do
    let n ← l.nodes[i]?
    let t ← tasks[i]?
    let (t, rows, s) ← t.step exec g n l.rows s
    return (.loading { l with rows } (tasks.set i t), s)
  | i :: place, .nesting path rows loaded below, s => do
    let b ← below[i]?
    let (b, s) ← b.step place s
    return (.nesting path rows loaded (below.set i b), s)
  | _, _, _ => none

namespace Machine

def step (place : List Nat) (m : Machine σ) : Option (Machine σ) :=
  (m.root.step exec g place m.shared).map fun (root, shared) => ⟨shared, root⟩

/-- The steps at the places of a schedule, one after the other. -/
def run (schedule : List (List Nat)) (m : Machine σ) : Option (Machine σ) :=
  schedule.foldlM (fun m place => m.step exec g place) m

def start (p : Plan) (rows : List Row) (permits : Nat) (store : σ) : Machine σ :=
  ⟨{ store, permits }, (p.level [] rows).start⟩

def result? (m : Machine σ) : Option (Except Fault (List Row)) :=
  m.root.result?

/-- A machine comes to be another one by some schedule. -/
def Reaches (m m' : Machine σ) : Prop :=
  ∃ schedule, m.run exec g schedule = some m'

theorem run_append (a b : List (List Nat)) (m : Machine σ) :
    m.run exec g (a ++ b) = (m.run exec g a).bind fun m => m.run exec g b := by
  simp only [run, List.foldlM_append]
  rfl

theorem run_single (place : List Nat) (m : Machine σ) : m.run exec g [place] = m.step exec g place := by
  simp only [run, List.foldlM_cons, List.foldlM_nil]
  exact bind_pure _

variable {exec g} {a b c : Machine σ}

theorem Reaches.refl (m : Machine σ) : m.Reaches exec g m :=
  ⟨[], rfl⟩

theorem Reaches.trans (hab : a.Reaches exec g b) (hbc : b.Reaches exec g c) : a.Reaches exec g c := by
  obtain ⟨s, hs⟩ := hab
  obtain ⟨t, ht⟩ := hbc
  exact ⟨s ++ t, by rw [run_append, hs, Option.bind_some, ht]⟩

theorem Reaches.of_step {place : List Nat} (h : a.step exec g place = some b) : a.Reaches exec g b :=
  ⟨[place], (run_single exec g place a).trans h⟩

/-- What every step preserves is true of all that a machine comes to be. -/
theorem Reaches.preserves {I : Machine σ → Prop} (h : a.Reaches exec g b)
    (hstep : ∀ place m m', I m → m.step exec g place = some m' → I m') (ha : I a) : I b := by
  obtain ⟨schedule, hrun⟩ := h
  induction schedule generalizing a with
  | nil =>
    cases hrun
    exact ha
  | cons place schedule ih =>
    rw [run, List.foldlM_cons] at hrun
    obtain ⟨next, hnext, hrun⟩ := Option.bind_eq_some_iff.mp hrun
    exact ih (hstep place a next ha hnext) hrun

end Machine

end Steps

/-! ## What a step does -/

section Advances

/-- Parts that have all come to results are just these results. -/
theorem eq_map_of_mapM {α β : Type} {f : α → Option β} {make : β → α} (h : ∀ a b, f a = some b → a = make b)
    {xs : List α} {ys : List β} (hxs : xs.mapM f = some ys) : xs = ys.map make := by
  induction xs generalizing ys with
  | nil =>
    cases hxs
    rfl
  | cons x xs ih =>
    rw [List.mapM_cons] at hxs
    obtain ⟨y, hy, hxs⟩ := Option.bind_eq_some_iff.mp hxs
    obtain ⟨ys, hys, hxs⟩ := Option.bind_eq_some_iff.mp hxs
    cases hxs
    rw [List.map_cons, ← h x y hy, ← ih hys]

theorem Task.eq_finished {t : Task} {r : Except Fault Attachment} (h : t.result? = some r) : t = .finished r := by
  cases t with
  | finished r' =>
    cases h
    rfl
  | _ => cases h

theorem LevelState.eq_finished {st : LevelState} {r : Except Fault (List Row)} (h : st.result? = some r) :
    st = .finished r := by
  cases st with
  | finished r' =>
    cases h
    rfl
  | _ => cases h

variable {σ : Type} (exec : Executor σ) (g : Graph)

/-- One step of the load of a node, with the rows of its level before and after it. -/
inductive Task.Advances (n : PlanNode) (rows : List Row) (s : Shared σ) : Task → Task → List Row → Shared σ → Prop
  | begun : Advances n rows s .waiting (.running (n.load g rows)) rows s
  | asked (q : BatchQuery) (next : Answer → Load) (hpermits : s.permits ≠ 0) :
    Advances n rows s (.running (.ask q next)) (.calling q next) rows
      { s with permits := s.permits - 1, issued := s.issued ++ [q] }
  | answered (q : BatchQuery) (next : Answer → Load) :
    Advances n rows s (.calling q next) (.running (next (exec s.store (.batch q)).1)) rows
      { s with store := (exec s.store (.batch q)).2, permits := s.permits + 1 }
  | ended (r : Except Fault Linking) :
    Advances n rows s (.running (.done r)) (.finished (r >>= (·.attachment rows))) (rowsAfter n.key rows r) s

/-- One step somewhere in a level. -/
inductive LevelState.Advances : LevelState → Shared σ → LevelState → Shared σ → Prop
  /-- The level goes on after its loads. -/
  | loaded (l : Level) (results : List (Except Fault Attachment)) (s : Shared σ) :
    Advances (.loading l (results.map .finished)) s (.ofLoads l results) s
  /-- The level goes on after the levels below it. -/
  | joined (path : List String) (rows : List Row) (loaded : List Loaded) (results : List (Except Fault (List Row)))
    (s : Shared σ) :
    Advances (.nesting path rows loaded (results.map .finished)) s (.ofBelow path rows loaded results) s
  | load {l : Level} {tasks : List Task} {i : Nat} {n : PlanNode} {t t' : Task} {rows : List Row} {s s' : Shared σ}
    (hn : l.nodes[i]? = some n) (ht : tasks[i]? = some t) (h : t.step exec g n l.rows s = some (t', rows, s')) :
    Advances (.loading l tasks) s (.loading { l with rows } (tasks.set i t')) s'
  | lower {path : List String} {rows : List Row} {loaded : List Loaded} {below : List LevelState} {i : Nat}
    {b b' : LevelState} {s s' : Shared σ} (hb : below[i]? = some b) (h : Advances b s b' s') :
    Advances (.nesting path rows loaded below) s (.nesting path rows loaded (below.set i b')) s'

variable {exec g}

theorem Task.advances_of_step {n : PlanNode} {rows rows' : List Row} {t t' : Task} {s s' : Shared σ}
    (hstep : t.step exec g n rows s = some (t', rows', s')) : Advances exec g n rows s t t' rows' s' := by
  cases t with
  | waiting =>
    cases hstep
    exact .begun
  | calling q next =>
    cases hstep
    exact .answered q next
  | finished r => cases hstep
  | running load =>
    cases load with
    | done r =>
      cases hstep
      exact .ended r
    | ask q next =>
      rw [step] at hstep
      split at hstep
      · cases hstep
      · next hpermits =>
        cases hstep
        exact .asked q next hpermits

/-- What holds of each kind of step, and of a level if it holds of the one below it that takes the step, holds of all
steps. -/
theorem LevelState.step_induction {motive : List Nat → LevelState → Shared σ → LevelState → Shared σ → Prop}
    (loaded : ∀ l results s, motive [] (.loading l (results.map .finished)) s (.ofLoads l results) s)
    (joined : ∀ path rows loaded results s,
      motive [] (.nesting path rows loaded (results.map .finished)) s (.ofBelow path rows loaded results) s)
    (load : ∀ {l tasks i n t t' rows s s'}, l.nodes[i]? = some n → tasks[i]? = some t →
      t.step exec g n l.rows s = some (t', rows, s') →
        motive [i] (.loading l tasks) s (.loading { l with rows } (tasks.set i t')) s')
    (lower : ∀ {path rows loaded below i place b b' s s'}, below[i]? = some b → motive place b s b' s' →
      motive (i :: place) (.nesting path rows loaded below) s (.nesting path rows loaded (below.set i b')) s')
    {place : List Nat} {st st' : LevelState} {s s' : Shared σ} (hstep : st.step exec g place s = some (st', s')) :
    motive place st s st' s' := by
  induction place generalizing st st' s s' with
  | nil =>
    cases st with
    | loading l tasks =>
      obtain ⟨results, hresults, heq⟩ := Option.map_eq_some_iff.mp hstep
      cases heq
      obtain rfl := eq_map_of_mapM (fun _ _ => Task.eq_finished) hresults
      exact loaded l results s
    | nesting path rows loaded below =>
      obtain ⟨results, hresults, heq⟩ := Option.map_eq_some_iff.mp hstep
      cases heq
      obtain rfl := eq_map_of_mapM (fun _ _ => LevelState.eq_finished) hresults
      exact joined path rows loaded results s
    | finished r => cases hstep
  | cons i place ih =>
    cases st with
    | loading l tasks =>
      cases place with
      | cons j place => cases hstep
      | nil =>
        obtain ⟨n, hn, hstep⟩ := Option.bind_eq_some_iff.mp hstep
        obtain ⟨t, ht, hstep⟩ := Option.bind_eq_some_iff.mp hstep
        obtain ⟨⟨t', rows', s''⟩, htask, hstep⟩ := Option.bind_eq_some_iff.mp hstep
        cases hstep
        exact load hn ht htask
    | nesting path rows loaded below =>
      rw [step] at hstep
      obtain ⟨b, hb, hstep⟩ := Option.bind_eq_some_iff.mp hstep
      obtain ⟨⟨b', s''⟩, hbelow, hstep⟩ := Option.bind_eq_some_iff.mp hstep
      cases hstep
      exact lower hb (ih hbelow)
    | finished r => cases place <;> cases hstep

theorem LevelState.advances_of_step {place : List Nat} {st st' : LevelState} {s s' : Shared σ}
    (hstep : st.step exec g place s = some (st', s')) : st.Advances exec g s st' s' :=
  step_induction (motive := fun _ => Advances exec g) .loaded .joined .load .lower hstep

theorem Machine.advances_of_step {place : List Nat} {m m' : Machine σ} (hstep : m.step exec g place = some m') :
    m.root.Advances exec g m.shared m'.root m'.shared := by
  obtain ⟨⟨root, shared⟩, hroot, rfl⟩ := Option.map_eq_some_iff.mp hstep
  exact LevelState.advances_of_step hroot

end Advances

/-! ## Calls in progress -/

mutual
def LevelState.inFlight : LevelState → Nat
  | .loading _ tasks => tasks.countP Task.isCalling
  | .nesting _ _ _ below => inFlightBelow below
  | .finished _ => 0

def inFlightBelow : List LevelState → Nat
  | [] => 0
  | b :: bs => b.inFlight + inFlightBelow bs
end

def Machine.inFlight {σ : Type} (m : Machine σ) : Nat :=
  m.root.inFlight

end RelatedRows

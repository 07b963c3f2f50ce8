import RelatedRows.Stitch.Turns

/-!
# One store that stands for another

Where the states of one store stand for those of another, and both answer alike, a run over one store is a run over the
other, at whatever pace they answer.

* `Executor.Shadows`: the states of one store stand for states of another, and it answers as the other one does.
* `Session.map`, `Machine.map`, `Turns.map`: a run, with the states of the store replaced by what they stand for.
* `stitchRows_map`, `stitchPaced_map`: rows are stitched alike over both stores.
-/

namespace RelatedRows

/-- Answering a query is the same in a state of one store and in the state of the other that it stands for. -/
def Executor.Shadows {σ τ : Type} (exec' : Executor τ) (exec : Executor σ) (φ : τ → σ) : Prop :=
  ∀ store q, exec (φ store) q = ((exec' store q).1, φ (exec' store q).2)

section Maps

variable {σ τ α : Type} (φ : τ → σ)

def Session.map (s : Session τ) : Session σ where
  store := φ s.store
  latency := s.latency
  peak := s.peak
  events := s.events

def Shared.map (s : Shared τ) : Shared σ where
  store := φ s.store
  permits := s.permits
  issued := s.issued

def Machine.map (m : Machine τ) : Machine σ where
  shared := m.shared.map φ
  root := m.root

def Turns.map (s : Turns τ) : Turns σ where
  machine := s.machine.map φ
  queue := s.queue
  waiters := s.waiters
  events := s.events
  peak := s.peak

variable {φ} {exec : Executor σ} {exec' : Executor τ} (h : exec'.Shadows exec φ) (g : Graph)

include h

/-! ## One load after the other -/

theorem Dialogue.run_map (path : List String) (step : Inclusion) (d : Dialogue α) (s : Session τ) :
    d.run exec path step (s.map φ) = ((d.run exec' path step s).1, (d.run exec' path step s).2.map φ) := by
  induction d generalizing s with
  | done a => rfl
  | ask q next ih =>
    have hcall : exec (s.map φ).store (.batch q) = _ := h s.store (.batch q)
    simp only [run, hcall]
    exact ih _ ((s.record [.query path step q]).called (exec' s.store (.batch q)).2)

theorem loadNodes_map (path : List String) (ns : List PlanNode) (rows : List Row) (s : Session τ) :
    loadNodes exec g path ns rows (s.map φ) =
      ((loadNodes exec' g path ns rows s).1, (loadNodes exec' g path ns rows s).2.1,
        (loadNodes exec' g path ns rows s).2.2.map φ) := by
  induction ns generalizing rows s with
  | nil => rfl
  | cons n ns ih => simp only [loadNodes, Dialogue.run_map h, ih]

theorem Level.load_map (l : Level) (s : Session τ) :
    l.load exec g (s.map φ) = ((l.load exec' g s).1, (l.load exec' g s).2.map φ) := by
  unfold Level.load
  split
  · rfl
  · simp only [loadNodes_map h]

theorem loadLevels_map (ls : List Level) (s : Session τ) :
    loadLevels exec g ls (s.map φ) = ((loadLevels exec' g ls s).1, (loadLevels exec' g ls s).2.map φ) := by
  induction ls generalizing s with
  | nil => rfl
  | cons l ls ih => simp only [loadLevels, Level.load_map h, ih]

theorem stitchLevels_map (height : Nat) (ls : List Level) (s : Session τ) :
    stitchLevels exec g height ls (s.map φ) =
      ((stitchLevels exec' g height ls s).1, (stitchLevels exec' g height ls s).2.map φ) := by
  induction height generalizing ls s with
  | zero => rfl
  | succ height ih =>
    have hrecord : (s.map φ).record (ls.flatMap Level.events) = (s.record (ls.flatMap Level.events)).map φ := rfl
    simp only [stitchLevels, hrecord, loadLevels_map h, ih]

theorem stitchRows_map (p : Plan) (rows : List Row) (s : Session τ) :
    stitchRows exec g p rows (s.map φ) =
      ((stitchRows exec' g p rows s).1, (stitchRows exec' g p rows s).2.map φ) := by
  simp only [stitchRows, stitchLevels_map h]

/-! ## Steps of the machine -/

theorem Task.step_map (n : PlanNode) (rows : List Row) (s : Shared τ) (t : Task) :
    t.step exec g n rows (s.map φ) =
      (t.step exec' g n rows s).map fun (t, rows, s) => (t, rows, s.map φ) := by
  cases t with
  | waiting => rfl
  | finished r => rfl
  | calling q next =>
    have hcall : exec (s.map φ).store (.batch q) = _ := h s.store (.batch q)
    simp only [Task.step, hcall]
    rfl
  | running load =>
    cases load with
    | done linking => rfl
    | ask q next =>
      have hpermits : (s.map φ).permits = s.permits := rfl
      simp only [Task.step, hpermits]
      split <;> rfl

theorem LevelState.step_map (place : List Nat) (st : LevelState) (s : Shared τ) :
    st.step exec g place (s.map φ) = (st.step exec' g place s).map fun (st, s) => (st, s.map φ) := by
  induction place generalizing st with
  | nil =>
    cases st with
    | loading l tasks =>
      simp only [step, Option.map_map]
      rfl
    | nesting path rows loaded below =>
      simp only [step, Option.map_map]
      rfl
    | finished r => rfl
  | cons i place ih =>
    cases st with
    | finished r => cases place <;> rfl
    | nesting path rows loaded below =>
      simp only [step]
      cases below[i]? with
      | none => rfl
      | some b =>
        show Option.bind (b.step exec g place (s.map φ)) _ = Option.map _ (Option.bind (b.step exec' g place s) _)
        rw [ih b]
        cases b.step exec' g place s <;> rfl
    | loading l tasks =>
      cases place with
      | cons j place => rfl
      | nil =>
        simp only [step]
        cases l.nodes[i]? with
        | none => rfl
        | some n =>
          cases tasks[i]? with
          | none => rfl
          | some t =>
            show Option.bind (t.step exec g n l.rows (s.map φ)) _ =
              Option.map _ (Option.bind (t.step exec' g n l.rows s) _)
            rw [Task.step_map h]
            cases t.step exec' g n l.rows s <;> rfl

theorem Machine.step_map (place : List Nat) (m : Machine τ) :
    (m.map φ).step exec g place = (m.step exec' g place).map (Machine.map φ) := by
  show Option.map _ (m.root.step exec g place (m.shared.map φ)) = _
  rw [LevelState.step_map h, Machine.step, Option.map_map, Option.map_map]
  rfl

/-! ## Turns -/

namespace Turns

omit h in
theorem handOn_map (s : Turns τ) : (s.map φ).handOn = s.handOn.map φ := by
  have hfree : (s.map φ).free = s.free := rfl
  have hwaiters : (s.map φ).waiters = s.waiters := rfl
  simp only [handOn, hfree, hwaiters]
  split
  · rfl
  · split <;> rfl

omit h in
theorem leave_map (level : List Nat) (s : Turns τ) : (s.map φ).leave level = (s.leave level).map φ := by
  unfold leave
  split <;> rfl

omit h in
theorem enter_map (level : List Nat) (s : Turns τ) : (s.map φ).enter level = (s.enter level).map φ := by
  have hroot : (s.map φ).machine.root = s.machine.root := rfl
  simp only [enter, hroot]
  split
  · rfl
  · exact leave_map level s

theorem stepAt_map (place : List Nat) (s : Turns τ) :
    (s.map φ).stepAt exec g place = (s.stepAt exec' g place).map φ := by
  have hstep : (s.map φ).machine.step exec g place = _ := Machine.step_map h g place s.machine
  simp only [stepAt, hstep]
  cases s.machine.step exec' g place <;> rfl

variable (waits : Nat)

theorem call_map (level : List Nat) (load : Nat) (s : Turns τ) :
    (s.map φ).call exec g waits level load = (s.call exec' g waits level load).map φ := by
  simp only [call, stepAt_map h, handOn_map]
  rfl

theorem advance_map (level : List Nat) (load : Nat) (s : Turns τ) :
    (s.map φ).advance exec g waits level load = (s.advance exec' g waits level load).map φ := by
  have hannounced : (s.map φ).announcement? level load = s.announcement? level load := rfl
  simp only [advance, hannounced]
  cases s.announcement? level load with
  | none =>
    simp only [stepAt_map h]
    rfl
  | some e =>
    show (if s.free = 0 || !s.waiters.isEmpty then _ else _) =
      Turns.map φ (if s.free = 0 || !s.waiters.isEmpty then _ else _)
    split
    · rfl
    · exact call_map h g waits level load { s with events := s.events ++ [e] }

theorem proceed_map (level : List Nat) (s : Turns τ) :
    (s.map φ).proceed exec g level = (s.proceed exec' g level).map φ := by
  have hroot : ((s.stepAt exec' g level).map φ).machine.root = (s.stepAt exec' g level).machine.root := rfl
  simp only [proceed, stepAt_map h, hroot]
  split
  · split
    · exact leave_map level _
    · rfl
  · exact leave_map level _

theorem take_map (t : Turn) (s : Turns τ) : (s.map φ).take exec g waits t = (s.take exec' g waits t).map φ := by
  cases t with
  | enter level => exact enter_map level s
  | start level load => simp only [take, stepAt_map h, advance_map h]
  | permitted level load =>
    exact call_map h g waits level load
      { s with waiters := s.waiters.filter fun w => w.level ≠ level || w.load ≠ load }
  | waited level load left =>
    cases left with
    | zero => simp only [take, stepAt_map h, handOn_map, advance_map h]
    | succ left => rfl
  | ended level =>
    show (if s.allEnded level && !s.queue.contains (.ended level) then _ else _) =
      Turns.map φ (if s.allEnded level && !s.queue.contains (.ended level) then _ else _)
    split <;> rfl
  | proceed level => exact proceed_map h g level s

theorem finish_map (count : Nat) (s : Turns τ) :
    (s.map φ).finish exec g waits count = (s.finish exec' g waits count).map φ := by
  induction count generalizing s with
  | zero => rfl
  | succ count ih =>
    have hqueue : (s.map φ).queue = s.queue := rfl
    simp only [finish, hqueue]
    cases s.queue with
    | nil => rfl
    | cons t queue =>
      have htake := take_map h g waits t { s with queue }
      simp only [← ih, ← htake]
      rfl

end Turns

/-! ## Stitching at the pace of the store -/

theorem stitchInTurns_map (concurrency waits : Nat) (p : Plan) (rows : List Row) (s : Session τ) :
    stitchInTurns exec g concurrency waits p rows (s.map φ) =
      ((stitchInTurns exec' g concurrency waits p rows s).1,
        (stitchInTurns exec' g concurrency waits p rows s).2.map φ) := by
  have hturns : ({ machine := .start p rows concurrency (s.map φ).store } : Turns σ) =
      ({ machine := .start p rows concurrency s.store } : Turns τ).map φ := rfl
  simp only [stitchInTurns, hturns, Turns.enter_map, Turns.finish_map h]
  rfl

theorem stitchRowsPaced_map (concurrency : Nat) (p : Plan) (rows : List Row) (s : Session τ) :
    stitchRowsPaced exec g concurrency p rows (s.map φ) =
      ((stitchRowsPaced exec' g concurrency p rows s).1, (stitchRowsPaced exec' g concurrency p rows s).2.map φ) := by
  have hlatency : (s.map φ).latency = s.latency := rfl
  simp only [stitchRowsPaced, hlatency]
  cases s.latency with
  | zero => exact stitchRows_map h g p rows s
  | succ waits => exact stitchInTurns_map h g concurrency waits p rows s

theorem stitchPaced_map (concurrency : Int) (entity : String) (p : Plan) (rows : Value) (s : Session τ) :
    stitchPaced exec g concurrency entity p rows (s.map φ) =
      ((stitchPaced exec' g concurrency entity p rows s).1,
        (stitchPaced exec' g concurrency entity p rows s).2.map φ) := by
  unfold stitchPaced
  cases rootRows concurrency entity p rows with
  | error f => rfl
  | ok roots => simp only [stitchRowsPaced_map h]

end Maps

end RelatedRows

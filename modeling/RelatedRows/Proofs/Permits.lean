import RelatedRows.Proofs.Schedules

/-!
# Permits

The permits of a run bound the calls in progress in the whole tree of levels, whatever the store answers and in which
order the loads take their steps.

* `Task.permitUse`, `LevelState.useAt`: what the next step of a load does with a permit.
* `LevelState.callsAt`: the loads that have a permit, by their places.
* `LevelState.Uses`: the effect of a step on the permits, and `uses_of_step` for every step.
* `Machine.permitLog`: the permits that were acquired and released in the course of a schedule.
* `Machine.run_permits`: all that holds of them.
-/

namespace RelatedRows

/-! ## Loads and their places -/

inductive PermitUse where
  | acquired
  | released
deriving DecidableEq, Repr

/-- What the next step of a load does with a permit. -/
def Task.permitUse : Task → Option PermitUse
  | .running (.ask ..) => some .acquired
  | .calling .. => some .released
  | _ => none

namespace LevelState

/-- The load at a place. -/
def task? : (place : List Nat) → LevelState → Option Task
  | [i], .loading _ tasks => tasks[i]?
  | i :: place, .nesting _ _ _ below => (below[i]?).bind (task? place)
  | _, _ => none

/-- Whether there is a load with a call in progress at a place. -/
def callsAt (place : List Nat) (st : LevelState) : Bool :=
  (st.task? place).any Task.isCalling

/-- What a step at a place does with a permit. -/
def useAt (place : List Nat) (st : LevelState) : Option PermitUse :=
  (st.task? place).bind Task.permitUse

end LevelState

section Steps

variable {σ : Type} {exec : Executor σ} {g : Graph} {s s' : Shared σ}

theorem Task.uses_of_step {n : PlanNode} {t t' : Task} {rows rows' : List Row}
    (h : t.step exec g n rows s = some (t', rows', s')) :
    t.isCalling = decide (t.permitUse = some .released) ∧ t'.isCalling = decide (t.permitUse = some .acquired) ∧
      s'.permits + (if t'.isCalling = true then 1 else 0) = s.permits + (if t.isCalling = true then 1 else 0) := by
  cases advances_of_step h with
  | begun | answered | ended => exact ⟨rfl, rfl, rfl⟩
  | asked q next hpermits =>
    refine ⟨rfl, rfl, ?_⟩
    show s.permits - 1 + 1 = s.permits + 0
    omega

/-- What a step at a place does to the permits and to the calls in progress. -/
structure LevelState.Uses (place : List Nat) (st : LevelState) (s : Shared σ) (st' : LevelState) (s' : Shared σ) :
    Prop where
  before : st.callsAt place = decide (st.useAt place = some .released)
  after : st'.callsAt place = decide (st.useAt place = some .acquired)
  elsewhere : ∀ other, other ≠ place → st'.callsAt other = st.callsAt other
  permits : s'.permits + st'.inFlight = s.permits + st.inFlight

namespace LevelState

theorem callsAt_finished (place : List Nat) (r : Except Fault (List Row)) : (finished r).callsAt place = false := by
  cases place with
  | nil => rfl
  | cons i place => cases place <;> rfl

theorem callsAt_nil (st : LevelState) : st.callsAt [] = false := by
  cases st <;> rfl

theorem task?_nesting (path : List String) (rows : List Row) (loaded : List Loaded) (below : List LevelState) (i : Nat)
    (place : List Nat) : (nesting path rows loaded below).task? (i :: place) = (below[i]?).bind (task? place) := by
  cases place <;> rfl

theorem callsAt_nesting (path : List String) (rows : List Row) (loaded : List Loaded) (below : List LevelState)
    (i : Nat) (place : List Nat) :
    (nesting path rows loaded below).callsAt (i :: place) = (below[i]?).any (callsAt place) := by
  rw [callsAt, task?_nesting, Option.any_bind]
  rfl

theorem callsAt_loading (l : Level) (tasks : List Task) (i : Nat) :
    (loading l tasks).callsAt [i] = (tasks[i]?).any Task.isCalling := rfl

theorem task?_of_loading {l : Level} {tasks : List Task} {place : List Nat} {t : Task}
    (h : (loading l tasks).task? place = some t) : ∃ i, place = [i] ∧ tasks[i]? = some t := by
  cases place with
  | nil => cases h
  | cons i place =>
    cases place with
    | nil => exact ⟨i, rfl, h⟩
    | cons j place => cases h

theorem task?_of_nesting {path : List String} {rows : List Row} {loaded : List Loaded} {below : List LevelState}
    {place : List Nat} {t : Task} (h : (nesting path rows loaded below).task? place = some t) :
    ∃ i rest b, place = i :: rest ∧ below[i]? = some b ∧ b.task? rest = some t := by
  cases place with
  | nil => cases h
  | cons i rest =>
    rw [task?_nesting] at h
    obtain ⟨b, hb, ht⟩ := Option.bind_eq_some_iff.mp h
    exact ⟨i, rest, b, rfl, hb, ht⟩

theorem callsAt_eq_false {st : LevelState} {place : List Nat}
    (h : ∀ t, st.task? place = some t → t.isCalling = false) : st.callsAt place = false := by
  unfold callsAt
  cases ht : st.task? place with
  | none => rfl
  | some t => exact h t ht

/-- No load calls before its level has taken a step. -/
theorem callsAt_start (l : Level) (place : List Nat) : l.start.callsAt place = false := by
  unfold Level.start
  split
  · exact callsAt_finished place _
  · refine callsAt_eq_false fun t ht => ?_
    obtain ⟨i, -, hi⟩ := task?_of_loading ht
    obtain ⟨n, -, rfl⟩ := List.mem_map.mp (List.mem_of_getElem? hi)
    rfl

/-- Loads that have all ended have no call in progress, and neither have the levels below them when they start. -/
theorem callsAt_ofLoads (l : Level) (results : List (Except Fault Attachment)) (place : List Nat) :
    (loading l (results.map .finished)).callsAt place = false ∧ (ofLoads l results).callsAt place = false := by
  refine ⟨callsAt_eq_false fun t ht => ?_, ?_⟩
  · obtain ⟨i, -, hi⟩ := task?_of_loading ht
    obtain ⟨r, -, rfl⟩ := List.mem_map.mp (List.mem_of_getElem? hi)
    rfl
  · unfold ofLoads
    split
    · exact callsAt_finished place _
    · cases place with
      | nil => exact callsAt_nil _
      | cons i place =>
        rw [callsAt_nesting, List.getElem?_map, Option.any_map, Option.any_eq_false]
        exact fun n _ => callsAt_start _ place

theorem callsAt_ofBelow (path : List String) (rows : List Row) (loaded : List Loaded)
    (results : List (Except Fault (List Row))) (place : List Nat) :
    (nesting path rows loaded (results.map .finished)).callsAt place = false := by
  cases place with
  | nil => exact callsAt_nil _
  | cons i place =>
    rw [callsAt_nesting, List.getElem?_map, Option.any_map, Option.any_eq_false]
    exact fun r _ => callsAt_finished place r

/-- A step of a level itself is no step of a load. -/
theorem uses_of_level {st st' : LevelState} (hst : ∀ other, st.callsAt other = false)
    (hst' : ∀ other, st'.callsAt other = false) (huse : st.useAt [] = none) (hflight : st'.inFlight = st.inFlight) :
    Uses [] st s st' s where
  before := by rw [hst, huse]; rfl
  after := by rw [hst', huse]; rfl
  elsewhere other _ := (hst' other).trans (hst other).symm
  permits := by rw [hflight]

theorem inFlight_ofLoads (l : Level) (results : List (Except Fault Attachment)) : (ofLoads l results).inFlight = 0 := by
  unfold ofLoads
  split
  · rfl
  · exact inFlightBelow_start _ _

theorem inFlight_finished {tasks : List Task} (h : ∀ t ∈ tasks, t.isCalling = false) (l : Level) :
    (loading l tasks).inFlight = 0 := by
  rw [inFlight, List.countP_eq_zero]
  intro t ht
  simp [h t ht]

theorem uses_of_load {l : Level} {tasks : List Task} {i : Nat} {n : PlanNode} {t t' : Task} {rows : List Row}
    {s s' : Shared σ} (_ : l.nodes[i]? = some n) (ht : tasks[i]? = some t)
    (h : t.step exec g n l.rows s = some (t', rows, s')) :
    Uses [i] (loading l tasks) s (loading { l with rows } (tasks.set i t')) s' := by
  obtain ⟨hi, hget⟩ := List.getElem?_eq_some_iff.mp ht
  obtain ⟨hbefore, hafter, hpermits⟩ := Task.uses_of_step h
  have huse : (loading l tasks).useAt [i] = t.permitUse := by
    show (tasks[i]?).bind Task.permitUse = _
    rw [ht]
    rfl
  refine ⟨?_, ?_, fun other hother => ?_, ?_⟩
  · rw [callsAt_loading, ht, huse, ← hbefore]
    rfl
  · rw [callsAt_loading, List.getElem?_set_self hi, huse, ← hafter]
    rfl
  · match other with
    | [] => rfl
    | [j] =>
      have hne : i ≠ j := fun heq => hother (congrArg (fun k => [k]) heq.symm)
      rw [callsAt_loading, callsAt_loading, List.getElem?_set_ne hne]
    | j :: k :: rest => rfl
  · have hcount := List.countP_set (p := Task.isCalling) (a := t') hi
    have hle := List.boole_getElem_le_countP (p := Task.isCalling) hi
    rw [hget] at hcount hle
    rw [inFlight, inFlight, hcount]
    omega

theorem uses_of_lower {path : List String} {rows : List Row} {loaded : List Loaded} {below : List LevelState} {i : Nat}
    {place : List Nat} {b b' : LevelState} {s s' : Shared σ} (hb : below[i]? = some b) (h : Uses place b s b' s') :
    Uses (i :: place) (nesting path rows loaded below) s (nesting path rows loaded (below.set i b')) s' := by
  have hi := (List.getElem?_eq_some_iff.mp hb).1
  have huse : (nesting path rows loaded below).useAt (i :: place) = b.useAt place := by
    rw [useAt, task?_nesting, hb]
    rfl
  refine ⟨?_, ?_, fun other hother => ?_, ?_⟩
  · rw [callsAt_nesting, hb, huse]
    exact h.before
  · rw [callsAt_nesting, List.getElem?_set_self hi, huse]
    exact h.after
  · cases other with
    | nil => rfl
    | cons j other =>
      rw [callsAt_nesting, callsAt_nesting]
      by_cases hij : i = j
      · subst hij
        rw [List.getElem?_set_self hi, hb]
        exact h.elsewhere other fun heq => hother (congrArg _ heq)
      · rw [List.getElem?_set_ne hij]
  · have hbelow := inFlightBelow_set hb b'
    have hpermits := h.permits
    rw [inFlight, inFlight]
    omega

/-- Every step uses permits in one of these ways. -/
theorem uses_of_step {place : List Nat} {st st' : LevelState} (h : st.step exec g place s = some (st', s')) :
    Uses place st s st' s' := by
  refine step_induction (motive := Uses) ?loaded ?joined uses_of_load uses_of_lower h
  case loaded =>
    intro l results s
    refine uses_of_level (fun other => (callsAt_ofLoads l results other).1)
      (fun other => (callsAt_ofLoads l results other).2) rfl ?_
    rw [inFlight_ofLoads, inFlight_finished]
    intro t ht
    obtain ⟨r, -, rfl⟩ := List.mem_map.mp ht
    rfl
  case joined =>
    intro path rows loaded results s
    refine uses_of_level (callsAt_ofBelow path rows loaded results) (fun other => callsAt_finished other _) rfl ?_
    refine (inFlightBelow_eq_zero fun b hb => ?_).symm
    obtain ⟨r, -, rfl⟩ := List.mem_map.mp hb
    rfl

end LevelState

/-! ## Going on -/

/-- A level that loads has one load for each of its nodes, and so have the levels below it. -/
inductive LevelState.Paired : LevelState → Prop
  | loading {l : Level} {tasks : List Task} (h : l.nodes.length = tasks.length) : Paired (.loading l tasks)
  | nesting {path : List String} {rows : List Row} {loaded : List Loaded} {below : List LevelState}
    (h : ∀ b ∈ below, Paired b) : Paired (.nesting path rows loaded below)
  | finished (r : Except Fault (List Row)) : Paired (.finished r)

theorem Level.paired_start (l : Level) : l.start.Paired := by
  unfold start
  split
  · exact .finished _
  · exact .loading (List.length_map _).symm

namespace LevelState

theorem Advances.paired {st st' : LevelState} (h : st.Advances exec g s st' s') (hst : st.Paired) : st'.Paired := by
  induction h with
  | loaded l results s =>
    unfold ofLoads
    split
    · exact .finished _
    · refine .nesting fun b hb => ?_
      obtain ⟨n, -, rfl⟩ := List.mem_map.mp hb
      exact Level.paired_start _
  | joined path rows loaded results s => exact .finished _
  | load hn ht h =>
    obtain ⟨hlen⟩ := hst
    exact .loading (by rw [List.length_set]; exact hlen)
  | lower hb h ih =>
    obtain _ | ⟨hbelow⟩ := hst
    refine .nesting fun b hmem => ?_
    rcases List.mem_or_eq_of_mem_set hmem with hold | rfl
    · exact hbelow b hold
    · exact ih (hbelow _ (List.mem_of_getElem? hb))

variable (exec g) in
/-- A load that has not ended can take a step, unless it waits for a permit and there is none. -/
theorem Paired.step_task {st : LevelState} (h : st.Paired) {place : List Nat} {t : Task}
    (ht : st.task? place = some t) (hleft : t.result? = none) (s : Shared σ) :
    s.permits = 0 ∨ ∃ next, st.step exec g place s = some next := by
  induction h generalizing place with
  | finished r => cases place with
    | nil => cases ht
    | cons i place => cases place <;> cases ht
  | @loading l tasks hlen =>
    obtain ⟨i, rfl, hi⟩ := task?_of_loading ht
    obtain ⟨n, hn⟩ : ∃ n, l.nodes[i]? = some n :=
      ⟨_, List.getElem?_eq_getElem (hlen ▸ (List.getElem?_eq_some_iff.mp hi).1)⟩
    rcases Task.progress exec g n l.rows s t with hresult | ⟨⟨t', rows', s'⟩, htask⟩ | ⟨hpermits, -⟩
    · rw [hleft] at hresult
      cases hresult
    · refine .inr ⟨(.loading { l with rows := rows' } (tasks.set i t'), s'), ?_⟩
      rw [step, hn, hi]
      show Option.bind (t.step exec g n l.rows s) _ = _
      rw [htask]
      rfl
    · exact .inl hpermits
  | @nesting path rows loaded below _ ih =>
    obtain ⟨i, rest, b, rfl, hb, ht⟩ := task?_of_nesting ht
    rcases ih b (List.mem_of_getElem? hb) ht with hpermits | ⟨⟨b', s'⟩, hbelow⟩
    · exact .inl hpermits
    · refine .inr ⟨(.nesting path rows loaded (below.set i b'), s'), ?_⟩
      rw [step, hb]
      show Option.bind (b.step exec g rest s) _ = _
      rw [hbelow]
      rfl

variable (exec g) in
/-- A level that has not finished can take a step, unless all permits are used elsewhere. -/
theorem Paired.progress {st : LevelState} (h : st.Paired) (s : Shared σ) :
    st.result?.isSome = true ∨ (∃ place next, st.step exec g place s = some next) ∨
      (s.permits = 0 ∧ st.inFlight = 0) := by
  induction h with
  | finished r => exact .inl rfl
  | loading hlen => exact .inr (progress_loading exec g s hlen)
  | nesting _ ih => exact .inr (progress_nesting exec g s ih)

end LevelState

end Steps

/-! ## Runs -/

namespace Machine

variable {σ : Type} (exec : Executor σ) (g : Graph)

/-- The permits that are acquired and released in the course of a schedule, with the places of the loads that do so. -/
def permitLog : (schedule : List (List Nat)) → Machine σ → List (List Nat × PermitUse)
  | [], _ => []
  | place :: schedule, m =>
    match m.step exec g place with
    | some m' => ((m.root.useAt place).map (place, ·)).toList ++ permitLog schedule m'
    | none => []

/-- What the load at a place does with permits. -/
def usesAt (place : List Nat) (log : List (List Nat × PermitUse)) : List PermitUse :=
  log.filterMap fun e => if e.1 = place then some e.2 else none

variable {exec g}

theorem run_cons {place : List Nat} {schedule : List (List Nat)} {m m' : Machine σ}
    (h : m.run exec g (place :: schedule) = some m') :
    ∃ next, m.step exec g place = some next ∧ next.run exec g schedule = some m' := by
  rw [run, List.foldlM_cons] at h
  exact Option.bind_eq_some_iff.mp h

theorem uses_of_step {place : List Nat} {m m' : Machine σ} (h : m.step exec g place = some m') :
    m.root.Uses place m.shared m'.root m'.shared := by
  obtain ⟨⟨root, shared⟩, hroot, rfl⟩ := Option.map_eq_some_iff.mp h
  exact LevelState.uses_of_step hroot

/-- A load takes a step with the permit that it may have: it acquires one if it has none, releases the one that it has,
or goes on as it is. -/
theorem usesAt_step {turn : List Nat} {m next : Machine σ} (h : m.step exec g turn = some next) (place : List Nat) :
    ∃ count, (if m.root.callsAt place then [PermitUse.acquired] else []) ++
        usesAt place ((m.root.useAt turn).map (turn, ·)).toList =
      (List.replicate count [PermitUse.acquired, .released]).flatten ++
        if next.root.callsAt place then [.acquired] else [] := by
  have huses := uses_of_step h
  by_cases hplace : place = turn
  · subst hplace
    have hbefore := huses.before
    have hafter := huses.after
    generalize m.root.useAt place = use? at hbefore hafter
    rw [hbefore, hafter]
    rcases use? with _ | _ | _
    · exact ⟨0, rfl⟩
    · exact ⟨0, by simp [usesAt]⟩
    · exact ⟨1, by simp [usesAt]⟩
  · rw [huses.elsewhere place hplace]
    refine ⟨0, ?_⟩
    cases m.root.useAt turn with
    | none => simp [usesAt]
    | some use => simp [usesAt, Ne.symm hplace]

/-- The permit that a load may have at first, with what it does afterwards: each permit that it acquires it releases
again before the next one, but for the one that it has in the end. -/
theorem usesAt_permitLog {schedule : List (List Nat)} {m m' : Machine σ} (h : m.run exec g schedule = some m')
    (place : List Nat) :
    ∃ count, (if m.root.callsAt place then [PermitUse.acquired] else []) ++ usesAt place (m.permitLog exec g schedule) =
      (List.replicate count [PermitUse.acquired, .released]).flatten ++
        if m'.root.callsAt place then [.acquired] else [] := by
  induction schedule generalizing m with
  | nil =>
    cases h
    exact ⟨0, by simp [permitLog, usesAt]⟩
  | cons turn schedule ih =>
    obtain ⟨next, hnext, hrun⟩ := run_cons h
    obtain ⟨first, hfirst⟩ := usesAt_step hnext place
    obtain ⟨rest, hrest⟩ := ih hrun
    have hlog : usesAt place (m.permitLog exec g (turn :: schedule)) =
        usesAt place ((m.root.useAt turn).map (turn, ·)).toList ++ usesAt place (next.permitLog exec g schedule) := by
      rw [permitLog, hnext]
      exact List.filterMap_append
    refine ⟨first + rest, ?_⟩
    rw [hlog, ← List.append_assoc, hfirst, List.append_assoc, hrest, List.replicate_add, List.flatten_append,
      List.append_assoc]

variable {p : Plan} {rows : List Row} {permits : Nat} {store : σ} {m : Machine σ}

theorem permits_of_reaches (h : (start p rows permits store).Reaches exec g m) :
    m.shared.permits + m.inFlight = permits := by
  refine h.preserves (I := fun m => m.shared.permits + m.inFlight = permits) (fun place m m' hm hstep => ?_) ?_
  · exact (uses_of_step hstep).permits.trans hm
  · show permits + (p.level [] rows).start.inFlight = permits
    rw [Level.inFlight_start]
    rfl

theorem paired_of_reaches (h : (start p rows permits store).Reaches exec g m) : m.root.Paired :=
  h.preserves (I := fun m => m.root.Paired) (fun _ _ _ hm hstep => (advances_of_step hstep).paired hm)
    (Level.paired_start _)

theorem step_of_result? {r : Except Fault (List Row)} (h : m.result? = some r) (place : List Nat) :
    m.step exec g place = none := by
  have hroot : m.root = .finished r := root_of_result? h
  rw [step, hroot]
  cases place with
  | nil => rfl
  | cons i place => cases place <;> rfl

theorem step_eq_some {place : List Nat} {next : LevelState × Shared σ}
    (h : m.root.step exec g place m.shared = some next) : ∃ m', m.step exec g place = some m' := by
  refine ⟨⟨next.2, next.1⟩, ?_⟩
  rw [step, h]
  rfl

/-- Whatever the store answers, also if it fails, the calls in progress in the whole tree never are more than the
permits.  A load releases each permit that it acquires, once and before it acquires another one.  A load that has not
ended can go on unless some call is in progress, and as long as there is no result somebody can.  With the result no
call is in progress, all permits are back, and nothing takes a step any more. -/
theorem run_permits (hpermits : 1 ≤ permits) {schedule : List (List Nat)}
    (hrun : (start p rows permits store).run exec g schedule = some m) :
    (m.inFlight ≤ permits ∧ m.shared.permits + m.inFlight = permits) ∧
      (∀ place, ∃ count, usesAt place ((start p rows permits store).permitLog exec g schedule) =
        (List.replicate count [PermitUse.acquired, .released]).flatten ++
          if m.root.callsAt place then [.acquired] else []) ∧
      (∀ place t, m.root.task? place = some t → t.result? = none →
        1 ≤ m.inFlight ∨ ∃ m', m.step exec g place = some m') ∧
      (m.result? = none → ∃ place m', m.step exec g place = some m') ∧
      ∀ r, m.result? = some r → m.inFlight = 0 ∧ m.shared.permits = permits ∧
        (∀ place, m.root.callsAt place = false) ∧ ∀ place, m.step exec g place = none := by
  have hreaches : (start p rows permits store).Reaches exec g m := ⟨schedule, hrun⟩
  have hkept := permits_of_reaches hreaches
  have hpaired := paired_of_reaches hreaches
  refine ⟨⟨by omega, hkept⟩, fun place => ?_, fun place t ht hleft => ?_, fun hnone => ?_, fun r hr => ?_⟩
  · obtain ⟨count, hcount⟩ := usesAt_permitLog hrun place
    have hstart : (start p rows permits store).root.callsAt place = false := LevelState.callsAt_start _ place
    rw [hstart] at hcount
    exact ⟨count, hcount⟩
  · rcases hpaired.step_task exec g ht hleft m.shared with hzero | ⟨next, hnext⟩
    · exact .inl (by omega)
    · exact .inr (step_eq_some hnext)
  · rcases hpaired.progress exec g m.shared with hresult | ⟨place, next, hnext⟩ | ⟨hzero, hidle⟩
    · rw [result?] at hnone
      simp [hnone] at hresult
    · exact ⟨place, step_eq_some hnext⟩
    · rw [inFlight] at hkept
      omega
  · have hroot : m.root = .finished r := root_of_result? hr
    have hzero : m.inFlight = 0 := by rw [inFlight, hroot]; rfl
    refine ⟨hzero, by omega, fun place => ?_, step_of_result? hr⟩
    rw [hroot]
    exact LevelState.callsAt_finished place r

end Machine

namespace Bookshelf

/-- Has one row of every table but the tags, which it does not give away. -/
def withoutTags (q : Query) : Answer :=
  if q.table = "tags" then .error ⟨.timeout, "too late"⟩ else oneOfEach q

/-- The tags of the books are asked for in two calls, one after the other under the only permit. -/
def tagsLast : List (List Nat) :=
  [[0], [0], [0], [0], [], [0, 0], [0, 0], [0, 0], [0, 0], [0, 0], [0, 0], [0], []]

end Bookshelf

/-- The load of the tags gives its permit back twice, the second time with a failure. -/
theorem Machine.run_permits_bookshelf :
    ∃ m r, (start Bookshelf.plan [[("id", .int 1)]] 1 ()).run (.ofFunction Bookshelf.withoutTags) Bookshelf.graph
        Bookshelf.tagsLast = some m ∧
      m.result? = some (.error r) ∧
      usesAt [0, 0] ((start Bookshelf.plan [[("id", .int 1)]] 1 ()).permitLog (.ofFunction Bookshelf.withoutTags)
        Bookshelf.graph Bookshelf.tagsLast) = [.acquired, .released, .acquired, .released] ∧
      m.inFlight = 0 ∧ m.shared.permits = 1 := by
  have hfails : (((start Bookshelf.plan [[("id", .int 1)]] 1 ()).run (.ofFunction Bookshelf.withoutTags)
      Bookshelf.graph Bookshelf.tagsLast).bind Machine.result?).any (fun r => (Except.error? r).isSome) = true := by
    decide +kernel
  obtain ⟨r, hr, herror⟩ := (Option.any_eq_true _ _).mp hfails
  obtain ⟨m, hrun, hr⟩ := Option.bind_eq_some_iff.mp hr
  obtain ⟨f, hf⟩ := Option.isSome_iff_exists.mp herror
  rw [Except.error?_eq_some.mp hf] at hr
  obtain ⟨hidle, hback, -⟩ := (run_permits (by decide) hrun).2.2.2.2 _ hr
  exact ⟨m, f, hrun, hr, by decide +kernel, hidle, hback⟩

end RelatedRows

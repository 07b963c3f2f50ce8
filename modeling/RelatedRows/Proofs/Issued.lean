import RelatedRows.Proofs.Asked
import RelatedRows.Proofs.Keys
import RelatedRows.Proofs.ShownRows

/-!
# Queries of a run

What is known of every query that the loads of a plan may put, whatever they are answered, is known of every query of a
run, whatever the store is and in whichever order the steps are taken.

* `Dialogue.PutsOnly`, `PlanNode.PutsOnly`: the queries of a load, and of all loads from a node down, have a property.
* `LevelState.PutsOnly`: so do all that are still to come in the course of a run.
* `Machine.issued_of_run`: the queries of a schedule.
* `Session.GoesOn`: a stretch of a session; `goesOn_stitchRows`, `goesOn_stitchInTurns`: the queries of the loader.
-/

namespace RelatedRows

/-- Every query of a dialogue has a property, whatever it is answered. -/
def Dialogue.PutsOnly {α : Type} (P : BatchQuery → Prop) : Dialogue α → Prop
  | .done _ => True
  | .ask q next => P q ∧ ∀ a, (next a).PutsOnly P

/-- The loads of a node and of all nodes below it put only such queries. -/
structure PlanNode.PutsOnly (g : Graph) (P : BatchQuery → Prop) (n : PlanNode) : Prop where
  load : ∀ rows, (n.load g rows).PutsOnly P
  below : ∀ q ∈ n.levels, ∀ m ∈ q.nodes, ∀ rows, (m.load g rows).PutsOnly P

section Nodes

variable {g : Graph} {P : BatchQuery → Prop}

theorem Plan.putsOnly_nodes {p : Plan} (h : ∀ q ∈ p.levels, ∀ n ∈ q.nodes, ∀ rows, (n.load g rows).PutsOnly P) :
    ∀ n ∈ p.nodes, n.PutsOnly g P := by
  intro n hn
  refine ⟨h p p.mem_levels_self n hn, fun q hq => h q ?_⟩
  cases n with
  | leaf s => cases hq
  | branch s r => exact Plan.levels_subset hn hq

/-- The level below a node has the nodes of its plan. -/
theorem Loaded.putsOnly_below {n : Loaded} (h : n.1.PutsOnly g P) (path : List String) :
    ∀ m ∈ (n.below path).nodes, m.PutsOnly g P := by
  obtain ⟨n, a⟩ := n
  cases n with
  | leaf s => exact fun m hm => absurd hm List.not_mem_nil
  | branch s q => exact Plan.putsOnly_nodes h.below

open Stitch in
/-- The queries of a load are the four that its node has, for keys that rows have in the columns of the query's key. -/
theorem PlanNode.putsOnly_load {n : PlanNode}
    (hone : n.step.relation.kind = .one → ∀ keys, SpelledIn n.step.relation.sourceKey keys → P (oneQuery n keys))
    (hmany : n.step.relation.kind = .many → ∀ keys, SpelledIn n.step.relation.sourceKey keys → P (manyQuery g n keys))
    (hjoin : n.step.relation.kind = .manyViaJoin → ∀ j, n.step.relation.joinEntity = some j →
      ∀ keys, SpelledIn n.step.relation.sourceKey keys → P (joinQuery n j keys))
    (htarget : n.step.relation.kind = .manyViaJoin →
      ∀ keys, SpelledIn n.step.relation.joinTargetKey keys → P (targetQuery g n keys))
    (rows : List Row) : (n.load g rows).PutsOnly P := by
  rw [load]
  split
  · next hkind =>
    rw [loadOne]
    split
    · trivial
    · trivial
    next keys _ hkeys => exact ⟨hone hkind keys (spelledIn_keyBatchOf hkeys), fun _ => trivial⟩
  · next hkind =>
    rw [loadMany]
    split
    · trivial
    · trivial
    next keys _ hkeys => exact ⟨hmany hkind keys (spelledIn_keyBatchOf hkeys), fun _ => trivial⟩
  · next hkind =>
    rw [loadManyViaJoin]
    split
    · trivial
    next j hj =>
    split
    · trivial
    · trivial
    next keys _ hkeys =>
    refine ⟨hjoin hkind j hj keys (spelledIn_keyBatchOf hkeys), fun a => ?_⟩
    dsimp only
    split
    · trivial
    next joins hjoins =>
    rw [loadTargets]
    split
    · trivial
    · exact ⟨htarget hkind _ (spelledIn_keyedRows hjoins), fun _ => trivial⟩

end Nodes

/-! ## Schedules -/

section Machine

variable {σ : Type} {exec : Executor σ} {g : Graph} {P : BatchQuery → Prop} {s s' : Shared σ}

/-- What is left of a load puts only such queries. -/
def Task.PutsOnly (P : BatchQuery → Prop) : Task → Prop
  | .running load => load.PutsOnly P
  | .calling _ next => ∀ a, (next a).PutsOnly P
  | _ => True

/-- Loads that go on, and those that will begin below, put only such queries. -/
inductive LevelState.PutsOnly (g : Graph) (P : BatchQuery → Prop) : LevelState → Prop
  | loading {l : Level} {tasks : List Task} (hnodes : ∀ n ∈ l.nodes, n.PutsOnly g P)
    (htasks : ∀ t ∈ tasks, t.PutsOnly P) : PutsOnly g P (.loading l tasks)
  | nesting {path : List String} {rows : List Row} {loaded : List Loaded} {below : List LevelState}
    (hbelow : ∀ b ∈ below, PutsOnly g P b) : PutsOnly g P (.nesting path rows loaded below)
  | finished (r : Except Fault (List Row)) : PutsOnly g P (.finished r)

theorem Level.putsOnly_start {l : Level} (h : ∀ n ∈ l.nodes, n.PutsOnly g P) : l.start.PutsOnly g P := by
  rw [start]
  split
  · exact .finished _
  · refine .loading h fun t ht => ?_
    obtain ⟨n, -, rfl⟩ := List.mem_map.mp ht
    trivial

theorem Task.putsOnly_step {n : PlanNode} {t t' : Task} {rows rows' : List Row} (hn : n.PutsOnly g P)
    (ht : t.PutsOnly P) (hstep : t.step exec g n rows s = some (t', rows', s')) :
    t'.PutsOnly P ∧ ((∀ q ∈ s.issued, P q) → ∀ q ∈ s'.issued, P q) := by
  cases advances_of_step hstep with
  | begun => exact ⟨hn.load rows, id⟩
  | ended linking => exact ⟨trivial, id⟩
  | answered q next => exact ⟨ht _, id⟩
  | asked q next hpermits =>
    refine ⟨ht.2, fun hissued q' hq' => ?_⟩
    rcases List.mem_append.mp hq' with hq' | hq'
    · exact hissued q' hq'
    · exact List.mem_singleton.mp hq' ▸ ht.1

theorem LevelState.putsOnly_ofLoads {l : Level} (h : ∀ n ∈ l.nodes, n.PutsOnly g P)
    (results : List (Except Fault Attachment)) : (ofLoads l results).PutsOnly g P := by
  rw [ofLoads]
  split
  · exact .finished _
  · next loaded hloaded =>
    refine .nesting fun b hb => ?_
    obtain ⟨n, hn, rfl⟩ := List.mem_map.mp hb
    obtain ⟨⟨m, r⟩, hmem, hr⟩ := Except.exists_of_mem_mapM hloaded hn
    obtain ⟨a, rfl, rfl⟩ := Except.map_eq_ok hr
    exact Level.putsOnly_start (Loaded.putsOnly_below (h m (List.of_mem_zip hmem).1) l.path)

/-- A step puts a query that was still to come, or none at all. -/
theorem LevelState.Advances.putsOnly {st st' : LevelState} (hstep : st.Advances exec g s st' s')
    (h : st.PutsOnly g P) : st'.PutsOnly g P ∧ ((∀ q ∈ s.issued, P q) → ∀ q ∈ s'.issued, P q) := by
  induction hstep with
  | loaded l results s =>
    cases h with
    | loading hnodes htasks => exact ⟨putsOnly_ofLoads hnodes results, id⟩
  | joined path rows loaded results s => exact ⟨.finished _, id⟩
  | load hn ht htask =>
    cases h with
    | loading hnodes htasks =>
      obtain ⟨ht', hissued⟩ :=
        Task.putsOnly_step (hnodes _ (List.mem_of_getElem? hn)) (htasks _ (List.mem_of_getElem? ht)) htask
      refine ⟨.loading hnodes fun u hu => ?_, hissued⟩
      rcases List.mem_or_eq_of_mem_set hu with hu | rfl
      · exact htasks u hu
      · exact ht'
  | lower hb _ ih =>
    cases h with
    | nesting hbelow =>
      obtain ⟨hb', hissued⟩ := ih (hbelow _ (List.mem_of_getElem? hb))
      refine ⟨.nesting fun u hu => ?_, hissued⟩
      rcases List.mem_or_eq_of_mem_set hu with hu | rfl
      · exact hbelow u hu
      · exact hb'

theorem Machine.putsOnly_of_reaches {m m' : Machine σ} (h : m.Reaches exec g m') (hroot : m.root.PutsOnly g P) :
    m'.root.PutsOnly g P :=
  h.preserves (I := fun m => m.root.PutsOnly g P) (fun _ _ _ hm hstep => ((advances_of_step hstep).putsOnly hm).1) hroot

theorem Machine.putsOnly_start {p : Plan} (hp : ∀ n ∈ p.nodes, n.PutsOnly g P) (rows : List Row) (permits : Nat)
    (store : σ) : (start p rows permits store).root.PutsOnly g P :=
  Level.putsOnly_start hp

theorem Machine.issued_of_run {p : Plan} (hp : ∀ n ∈ p.nodes, n.PutsOnly g P) {rows : List Row} {permits : Nat}
    {store : σ} {schedule : List (List Nat)} {m : Machine σ}
    (hrun : (start p rows permits store).run exec g schedule = some m) : ∀ q ∈ m.shared.issued, P q := by
  have hreaches : (start p rows permits store).Reaches exec g m := ⟨schedule, hrun⟩
  refine (hreaches.preserves (I := fun m => m.root.PutsOnly g P ∧ ∀ q ∈ m.shared.issued, P q) ?_ ?_).2
  · rintro place m m' ⟨hroot, hissued⟩ hstep
    obtain ⟨hroot', hissued'⟩ := (advances_of_step hstep).putsOnly hroot
    exact ⟨hroot', hissued' hissued⟩
  · exact ⟨putsOnly_start hp rows permits store, fun _ hq => absurd hq List.not_mem_nil⟩

end Machine

/-! ## The loader -/

section Loader

variable {σ α : Type} (exec : Executor σ) (g : Graph) {P : BatchQuery → Prop}

/-- A session goes on, and only such queries are put. -/
def Session.GoesOn (P : BatchQuery → Prop) (s s' : Session σ) : Prop :=
  ∃ es, s'.events = s.events ++ es ∧ ∀ q ∈ queriesOf es, P q

namespace Session.GoesOn

variable {s s' s'' : Session σ}

theorem of_events (h : s'.events = s.events) : s.GoesOn P s' :=
  ⟨[], by rw [h, List.append_nil], fun q hq => absurd hq List.not_mem_nil⟩

theorem refl (s : Session σ) : s.GoesOn P s :=
  of_events rfl

theorem trans (h : s.GoesOn P s') (h' : s'.GoesOn P s'') : s.GoesOn P s'' := by
  obtain ⟨es, hes, hqs⟩ := h
  obtain ⟨es', hes', hqs'⟩ := h'
  refine ⟨es ++ es', by rw [hes', hes, List.append_assoc], fun q hq => ?_⟩
  rw [queriesOf_append] at hq
  rcases List.mem_append.mp hq with hq | hq
  · exact hqs q hq
  · exact hqs' q hq

theorem queriesAfter (h : s.GoesOn P s') : ∀ q ∈ s'.queriesAfter s, P q := by
  obtain ⟨es, hes, hqs⟩ := h
  rwa [Session.queriesAfter, eventsAfter, hes, List.drop_left]

end Session.GoesOn

open Session

theorem Dialogue.goesOn_run (path : List String) (step : Inclusion) {d : Dialogue α} (hd : d.PutsOnly P)
    (s : Session σ) : s.GoesOn P (d.run exec path step s).2 := by
  induction d generalizing s with
  | done a => exact .refl s
  | ask q next ih =>
    have hcall : s.GoesOn P ((s.record [.query path step q]).called (exec s.store (.batch q)).2) := by
      refine ⟨[.query path step q], rfl, fun q' hq' => ?_⟩
      exact List.mem_singleton.mp hq' ▸ hd.1
    exact hcall.trans (ih _ (hd.2 _) _)

theorem goesOn_loadNodes (path : List String) {ns : List PlanNode} (hns : ∀ n ∈ ns, n.PutsOnly g P) (rows : List Row)
    (s : Session σ) :
    s.GoesOn P (loadNodes exec g path ns rows s).2.2 ∧
      ∀ loaded, .ok loaded ∈ (loadNodes exec g path ns rows s).1 → loaded.1 ∈ ns := by
  induction ns generalizing rows s with
  | nil => exact ⟨.refl s, fun loaded h => absurd h List.not_mem_nil⟩
  | cons n ns ih =>
    have hrun := (n.load g rows).goesOn_run exec (path ++ [n.key]) n.step ((hns n List.mem_cons_self).load rows) s
    obtain ⟨hrest, hloaded⟩ := ih (fun m hm => hns m (List.mem_cons_of_mem _ hm))
      (rowsAfter n.key rows ((n.load g rows).run exec (path ++ [n.key]) n.step s).1)
      ((n.load g rows).run exec (path ++ [n.key]) n.step s).2
    refine ⟨hrun.trans hrest, fun loaded h => ?_⟩
    rcases List.mem_cons.mp h with h | h
    · obtain ⟨a, -, rfl⟩ := Except.map_eq_ok h.symm
      exact List.mem_cons_self
    · exact List.mem_cons_of_mem _ (hloaded loaded h)

theorem Level.goesOn_load {l : Level} (hl : ∀ n ∈ l.nodes, n.PutsOnly g P) (s : Session σ) :
    s.GoesOn P (l.load exec g s).2 ∧ ∀ b ∈ (l.load exec g s).1.below, ∀ n ∈ b.nodes, n.PutsOnly g P := by
  rw [Level.load]
  split
  · exact ⟨.refl s, fun b hb => absurd hb List.not_mem_nil⟩
  · obtain ⟨hgoes, hloaded⟩ := goesOn_loadNodes exec g l.path hl l.rows s
    generalize loadNodes exec g l.path l.nodes l.rows s = run at hgoes hloaded
    obtain ⟨results, rows, s'⟩ := run
    refine ⟨hgoes, fun b hb => ?_⟩
    rw [LoadedLevel.below] at hb
    split at hb
    · next ns hns =>
      obtain ⟨n, hn, rfl⟩ := List.mem_map.mp hb
      obtain ⟨r, hr, rfl⟩ := Except.exists_of_mem_mapM hns hn
      exact Loaded.putsOnly_below (hl n.1 (hloaded n hr)) l.path
    · exact absurd hb List.not_mem_nil

theorem goesOn_loadLevels {ls : List Level} (hls : ∀ l ∈ ls, ∀ n ∈ l.nodes, n.PutsOnly g P) (s : Session σ) :
    s.GoesOn P (loadLevels exec g ls s).2 ∧
      ∀ b ∈ (loadLevels exec g ls s).1.flatMap LoadedLevel.below, ∀ n ∈ b.nodes, n.PutsOnly g P := by
  induction ls generalizing s with
  | nil => exact ⟨.refl s, fun b hb => absurd hb List.not_mem_nil⟩
  | cons l ls ih =>
    obtain ⟨hload, hbelow⟩ := Level.goesOn_load exec g (hls l List.mem_cons_self) s
    obtain ⟨hrest, hbelows⟩ := ih (fun m hm => hls m (List.mem_cons_of_mem _ hm)) (l.load exec g s).2
    refine ⟨hload.trans hrest, fun b hb => ?_⟩
    rw [loadLevels, List.flatMap_cons] at hb
    rcases List.mem_append.mp hb with hb | hb
    · exact hbelow b hb
    · exact hbelows b hb

theorem goesOn_stitchLevels (height : Nat) {ls : List Level} (hls : ∀ l ∈ ls, ∀ n ∈ l.nodes, n.PutsOnly g P)
    (s : Session σ) : s.GoesOn P (stitchLevels exec g height ls s).2 := by
  induction height generalizing ls s with
  | zero => exact .refl s
  | succ height ih =>
    have hrecord : s.GoesOn P (s.record (ls.flatMap Level.events)) := by
      refine ⟨ls.flatMap Level.events, rfl, fun q hq => ?_⟩
      rw [queriesOf_levels] at hq
      exact absurd hq List.not_mem_nil
    obtain ⟨hload, hbelow⟩ := goesOn_loadLevels exec g hls (s.record (ls.flatMap Level.events))
    exact (hrecord.trans hload).trans (ih hbelow _)

theorem goesOn_stitchRows {p : Plan} (hp : ∀ n ∈ p.nodes, n.PutsOnly g P) (rows : List Row) (s : Session σ) :
    s.GoesOn P (stitchRows exec g p rows s).2 :=
  goesOn_stitchLevels exec g p.height (fun l hl => by rwa [List.mem_singleton.mp hl]) s

end Loader

/-! ## Turns -/

theorem LevelState.putsOnly_at? {g : Graph} {P : BatchQuery → Prop} {st st' : LevelState} {place : List Nat}
    (h : st.PutsOnly g P) (hat : st.at? place = some st') : st'.PutsOnly g P := by
  induction place generalizing st with
  | nil =>
    cases hat
    exact h
  | cons i place ih =>
    cases h with
    | loading => cases hat
    | finished => cases hat
    | nesting hbelow =>
      obtain ⟨b, hb, hat⟩ := Option.bind_eq_some_iff.mp hat
      exact ih (hbelow b (List.mem_of_getElem? hb)) hat

namespace Turns

variable {σ : Type} (exec : Executor σ) (g : Graph) (waits : Nat) {P : BatchQuery → Prop}

/-- Only such queries have been announced, and only such are still to come. -/
structure PutsOnly (P : BatchQuery → Prop) (s : Turns σ) : Prop where
  root : s.machine.root.PutsOnly g P
  announced : ∀ q ∈ Session.queriesOf s.events, P q

theorem events_stepAt (place : List Nat) (s : Turns σ) : (s.stepAt exec g place).events = s.events := by
  unfold stepAt
  split <;> rfl

theorem events_handOn (s : Turns σ) : s.handOn.events = s.events := by
  unfold handOn
  split
  · rfl
  · split <;> rfl

theorem events_call (level : List Nat) (load : Nat) (s : Turns σ) :
    (s.call exec g waits level load).events = s.events := by
  show (s.stepAt exec g (level ++ [load])).handOn.events = s.events
  rw [events_handOn, events_stepAt]

theorem events_leave (level : List Nat) (s : Turns σ) : (s.leave level).events = s.events := by
  unfold leave
  split <;> rfl

theorem events_proceed (level : List Nat) (s : Turns σ) : (s.proceed exec g level).events = s.events := by
  unfold proceed
  dsimp only
  split
  · split
    · rw [events_leave, events_stepAt, events_stepAt]
    · exact events_stepAt exec g level s
  · rw [events_leave, events_stepAt]

variable {exec g waits} {s : Turns σ}

/-- The query that is announced is the next one of a load. -/
theorem PutsOnly.announcement {level : List Nat} {load : Nat} {e : Event} (h : s.PutsOnly g P)
    (he : s.announcement? level load = some e) : ∀ q ∈ Session.queriesOf (s.events ++ [e]), P q := by
  have hquery : ∀ q ∈ Session.queriesOf [e], P q := by
    unfold announcement? at he
    split at he
    · next l tasks hat =>
      split at he
      · next n q next hn ht =>
        cases he
        intro q' hq'
        obtain rfl := List.mem_singleton.mp hq'
        cases LevelState.putsOnly_at? h.root hat with
        | loading hnodes htasks => exact (htasks _ (List.mem_of_getElem? ht)).1
      · cases he
    · cases he
  intro q hq
  rw [Session.queriesOf_append] at hq
  rcases List.mem_append.mp hq with hq | hq
  · exact h.announced q hq
  · exact hquery q hq

theorem PutsOnly.advance (h : s.PutsOnly g P) (level : List Nat) (load : Nat) :
    ∀ q ∈ Session.queriesOf (s.advance exec g waits level load).events, P q := by
  unfold Turns.advance
  split
  · next e he =>
    dsimp only
    split
    · exact h.announcement he
    · rw [events_call]
      exact h.announcement he
  · show ∀ q ∈ Session.queriesOf (s.stepAt exec g (level ++ [load])).events, P q
    rw [events_stepAt]
    exact h.announced

theorem PutsOnly.enter (h : s.PutsOnly g P) (level : List Nat) :
    ∀ q ∈ Session.queriesOf (s.enter level).events, P q := by
  unfold Turns.enter
  split
  · next l tasks hat =>
    have hlevel : Session.queriesOf l.events = [] := by
      have h := Session.queriesOf_levels [l]
      rwa [List.flatMap_singleton] at h
    show ∀ q ∈ Session.queriesOf (s.events ++ l.events), P q
    rw [Session.queriesOf_append, hlevel, List.append_nil]
    exact h.announced
  · rw [events_leave]
    exact h.announced

theorem PutsOnly.stepAt (h : s.PutsOnly g P) (place : List Nat) : (s.stepAt exec g place).PutsOnly g P :=
  ⟨Machine.putsOnly_of_reaches (reaches_stepAt exec g place s) h.root, by
    rw [events_stepAt]
    exact h.announced⟩

/-- A turn announces a query that was still to come, or none at all. -/
theorem PutsOnly.take (h : s.PutsOnly g P) (t : Turn) : (s.take exec g waits t).PutsOnly g P := by
  refine ⟨Machine.putsOnly_of_reaches (reaches_take exec g waits t s) h.root, ?_⟩
  cases t with
  | enter level => exact h.enter level
  | start level load => exact (h.stepAt (level ++ [load])).advance level load
  | permitted level load =>
    show ∀ q ∈ Session.queriesOf (Turns.call exec g waits level load _).events, P q
    rw [events_call]
    exact h.announced
  | waited level load left =>
    cases left with
    | zero =>
      have hstep : (s.stepAt exec g (level ++ [load])).PutsOnly g P := h.stepAt _
      have hhand : (s.stepAt exec g (level ++ [load])).handOn.PutsOnly g P :=
        ⟨by rw [machine_handOn]; exact hstep.root, by rw [events_handOn]; exact hstep.announced⟩
      exact hhand.advance level load
    | succ left => exact h.announced
  | ended level =>
    rw [Turns.take]
    split <;> exact h.announced
  | proceed level =>
    show ∀ q ∈ Session.queriesOf (s.proceed exec g level).events, P q
    rw [events_proceed]
    exact h.announced

theorem PutsOnly.finish (h : s.PutsOnly g P) (count : Nat) : (s.finish exec g waits count).PutsOnly g P := by
  induction count generalizing s with
  | zero => exact h
  | succ count ih =>
    unfold Turns.finish
    split
    · exact h
    · next t queue _ => exact ih (PutsOnly.take (s := { s with queue }) ⟨h.root, h.announced⟩ t)

end Turns

/-- Stitching puts only such queries, at whatever pace the store answers. -/
theorem goesOn_stitchPaced {σ : Type} (exec : Executor σ) {g : Graph} {P : BatchQuery → Prop} (concurrency : Int)
    (entity : String) {p : Plan} (hp : ∀ n ∈ p.nodes, n.PutsOnly g P) (rows : Value) (s : Session σ) :
    s.GoesOn P (stitchPaced exec g concurrency entity p rows s).2 := by
  rw [stitchPaced]
  split
  · exact .refl s
  next roots hroots =>
  show s.GoesOn P (stitchRowsPaced exec g concurrency.toNat p (roots.map (·.row)) s).2
  rw [stitchRowsPaced]
  split
  · exact goesOn_stitchRows exec g hp _ s
  · next waits hwaits =>
    let turns : Turns σ := { machine := .start p (roots.map (·.row)) concurrency.toNat s.store }
    have hstart : turns.PutsOnly g P :=
      ⟨Machine.putsOnly_start hp _ _ s.store, fun _ hq => absurd hq List.not_mem_nil⟩
    have henter : (turns.enter []).PutsOnly g P :=
      ⟨by rw [Turns.machine_enter]; exact hstart.root, hstart.enter []⟩
    exact ⟨_, rfl, (henter.finish ((2 * waits + 10) * (p.size + 1))).announced⟩

end RelatedRows

import Mathlib.Logic.Relation
import RelatedRows.Proofs.Completion
import RelatedRows.Proofs.Schedules

/-!
# One load after the other

Stitching that loads one node after the other, level before level, is one of the runs of the machine, whatever the store
is and however its state changes.

* `LevelState.Goes`, `LevelStates.Go`: some steps of one level, and of levels next to each other.
* `Dialogue.goes_run`, `goes_loadNodes`, `Level.goes_load`: the steps that a dialogue, the loads of a level and a level
  up to those below it come to.
* `LoadedLevel.Shows`: the levels below loaded levels stand in one list, and a run on that list is a run of the levels
  above (`go_of_below`).
* `reaches_stitchRows`: the run; and `reaches_stitchRowsPaced`, at whatever pace the store answers.
-/

namespace RelatedRows

/-- A run of the machine has come as far as a run of the loader.  There are permits for a call. -/
structure Shared.Follows {σ : Type} (sh : Shared σ) (s : Session σ) : Prop where
  store_eq : sh.store = s.store
  permits_pos : 1 ≤ sh.permits

theorem Shared.Follows.record {σ : Type} {sh : Shared σ} {s : Session σ} (h : sh.Follows s) (es : List Event) :
    sh.Follows (s.record es) :=
  ⟨h.store_eq, h.permits_pos⟩

section Runs

variable {σ : Type} (exec : Executor σ) (g : Graph)

/-- Some steps of a level. -/
def LevelState.Goes : LevelState × Shared σ → LevelState × Shared σ → Prop :=
  Relation.ReflTransGen fun a b => ∃ place, a.1.step exec g place a.2 = some b

/-- One step of some level among levels next to each other. -/
def LevelStates.Step (a b : List LevelState × Shared σ) : Prop :=
  ∃ (i : Nat) (st : LevelState) (place : List Nat) (st' : LevelState), a.1[i]? = some st ∧
    st.step exec g place a.2 = some (st', b.2) ∧ b.1 = a.1.set i st'

/-- Some steps of levels next to each other. -/
def LevelStates.Go : List LevelState × Shared σ → List LevelState × Shared σ → Prop :=
  Relation.ReflTransGen (LevelStates.Step exec g)

variable {exec g} {s s' : Session σ} {sh sh' sh'' : Shared σ} {st st' : LevelState} {sts sts' : List LevelState}

theorem LevelStates.go_head (h : LevelState.Goes exec g (st, sh) (st', sh')) (sts : List LevelState) :
    LevelStates.Go exec g (st :: sts, sh) (st' :: sts, sh') := by
  refine Relation.ReflTransGen.lift (fun a : LevelState × Shared σ => (a.1 :: sts, a.2)) ?_ _ _ h
  rintro a b ⟨place, hstep⟩
  exact ⟨0, a.1, place, b.1, rfl, hstep, rfl⟩

theorem LevelStates.go_tail (h : LevelStates.Go exec g (sts, sh) (sts', sh')) (st : LevelState) :
    LevelStates.Go exec g (st :: sts, sh) (st :: sts', sh') := by
  refine Relation.ReflTransGen.lift (fun a : List LevelState × Shared σ => (st :: a.1, a.2)) ?_ _ _ h
  rintro a b ⟨i, st', place, st'', hget, hstep, hset⟩
  exact ⟨i + 1, st', place, st'', hget, hstep, congrArg (st :: ·) hset⟩

/-- A run of the only level of a machine is a run of the machine. -/
theorem Machine.reaches_of_go (h : LevelStates.Go exec g ([st], sh) (sts', sh')) :
    ∃ st', sts' = [st'] ∧ Machine.Reaches exec g ⟨sh, st⟩ ⟨sh', st'⟩ := by
  obtain ⟨a, ha⟩ : ∃ a, a = (sts', sh') := ⟨_, rfl⟩
  rw [← ha] at h
  have hall : ∃ st', a.1 = [st'] ∧ Machine.Reaches exec g ⟨sh, st⟩ ⟨a.2, st'⟩ := by
    clear ha
    induction h with
    | refl => exact ⟨st, rfl, .refl _⟩
    | @tail b c _ hstep ih =>
      obtain ⟨st', hsts, hreaches⟩ := ih
      obtain ⟨i, u, place, u', hget, hstep, hset⟩ := hstep
      rw [hsts] at hget hset
      cases i with
      | succ i => cases hget
      | zero =>
        cases hget
        have hnext : Machine.step exec g place ⟨b.2, st'⟩ = some ⟨c.2, u'⟩ := by
          rw [Machine.step, hstep]
          rfl
        exact ⟨u', hset, hreaches.trans (.of_step hnext)⟩
  rw [ha] at hall
  exact hall

/-! ## Loads -/

/-- The dialogue of a load. -/
theorem Dialogue.goes_run {l : Level} {n : PlanNode} {i : Nat} (hn : l.nodes[i]? = some n) (path : List String)
    (d : Load) {tasks : List Task} (hi : i < tasks.length) (hsh : sh.Follows s) :
    ∃ sh', LevelState.Goes exec g (.loading l (tasks.set i (.running d)), sh)
        (.loading { l with rows := rowsAfter n.key l.rows (d.run exec path n.step s).1 }
          (tasks.set i (.finished ((d.run exec path n.step s).1 >>= (·.attachment l.rows)))), sh') ∧
      sh'.Follows (d.run exec path n.step s).2 := by
  induction d generalizing s sh with
  | done linking =>
    refine ⟨sh, .single ⟨[i], ?_⟩, hsh⟩
    simp only [LevelState.step, hn, List.getElem?_set_self hi, Option.bind_eq_bind, Option.bind_some, Task.step,
      List.set_set, Dialogue.run]
    rfl
  | ask q next ih =>
    obtain ⟨answer, store, hanswer⟩ : ∃ answer store, exec sh.store (.batch q) = (answer, store) := ⟨_, _, rfl⟩
    have hpermits : ¬sh.permits = 0 := Nat.one_le_iff_ne_zero.mp hsh.permits_pos
    have hcall : LevelState.step exec g [i] (.loading l (tasks.set i (.running (.ask q next)))) sh =
        some (.loading l (tasks.set i (.calling q next)),
          { sh with permits := sh.permits - 1, issued := sh.issued ++ [q] }) := by
      simp only [LevelState.step, hn, List.getElem?_set_self hi, Option.bind_eq_bind, Option.bind_some, Task.step,
        if_neg hpermits, List.set_set]
      rfl
    have hreturn : LevelState.step exec g [i] (.loading l (tasks.set i (.calling q next)))
        { sh with permits := sh.permits - 1, issued := sh.issued ++ [q] } =
        some (.loading l (tasks.set i (.running (next answer))),
          { sh with store, permits := sh.permits - 1 + 1, issued := sh.issued ++ [q] }) := by
      simp only [LevelState.step, hn, List.getElem?_set_self hi, Option.bind_eq_bind, Option.bind_some, Task.step,
        hanswer, List.set_set]
      rfl
    have hfollows : Shared.Follows { sh with store, permits := sh.permits - 1 + 1, issued := sh.issued ++ [q] }
        ((s.record [.query path n.step q]).called store) := ⟨rfl, Nat.le_add_left 1 _⟩
    obtain ⟨sh', hgoes, hsh'⟩ := ih answer hfollows
    rw [Dialogue.run, ← hsh.store_eq, hanswer]
    exact ⟨sh', .trans (.tail (.single ⟨[i], hcall⟩) ⟨[i], hreturn⟩) hgoes, hsh'⟩

/-- The loads of a level, one after the other; those before them have ended. -/
theorem goes_loadNodes (l : Level) (ended : List Task) {before ns : List PlanNode} (hnodes : l.nodes = before ++ ns)
    (hlen : ended.length = before.length) (path : List String) (rows : List Row) (hsh : sh.Follows s) :
    ∃ rs sh', rs.length = ns.length ∧
      (loadNodes exec g path ns rows s).1 = (ns.zip rs).map (fun (n, r) => r.map fun a => ((n, a) : Loaded)) ∧
      LevelState.Goes exec g (.loading { l with rows } (ended ++ ns.map fun _ => .waiting), sh)
        (.loading { l with rows := (loadNodes exec g path ns rows s).2.1 } (ended ++ rs.map .finished), sh') ∧
      sh'.Follows (loadNodes exec g path ns rows s).2.2 := by
  induction ns generalizing before ended rows s sh with
  | nil => exact ⟨[], sh, rfl, rfl, .refl, hsh⟩
  | cons n ns ih =>
    have hn : l.nodes[ended.length]? = some n := by simp [hnodes, hlen]
    obtain ⟨tasks, htasks⟩ : ∃ tasks : List Task, tasks = ended ++ .waiting :: ns.map fun _ => .waiting := ⟨_, rfl⟩
    have hwaiting : tasks[ended.length]? = some .waiting := by simp [htasks]
    have hset : ∀ t : Task, tasks.set ended.length t = ended ++ [t] ++ ns.map fun _ => .waiting := by simp [htasks]
    have hstart : LevelState.step exec g [ended.length] (.loading { l with rows } tasks) sh =
        some (.loading { l with rows } (tasks.set ended.length (.running (n.load g rows))), sh) := by
      simp only [LevelState.step, hn, hwaiting, Option.bind_eq_bind, Option.bind_some, Task.step]
      rfl
    obtain ⟨sh₁, hgoes, hsh₁⟩ := Dialogue.goes_run (l := { l with rows }) hn (path ++ [n.key]) (n.load g rows)
      (List.getElem?_eq_some_iff.mp hwaiting).1 hsh
    rw [loadNodes]
    generalize (n.load g rows).run exec (path ++ [n.key]) n.step s = run at hgoes hsh₁
    obtain ⟨linking, s₁⟩ := run
    have hended : (ended ++ [Task.finished (linking >>= (·.attachment rows))]).length = (before ++ [n]).length := by
      rw [List.length_append, List.length_append, hlen]
      rfl
    obtain ⟨rs, sh₂, hrs, hloaded, hrest, hsh₂⟩ := ih (ended ++ [.finished (linking >>= (·.attachment rows))])
      (hnodes.trans (List.append_cons ..)) hended (rowsAfter n.key rows linking) hsh₁
    refine ⟨(linking >>= (·.attachment rows)) :: rs, sh₂, congrArg (· + 1) hrs, ?_, ?_, hsh₂⟩
    · rw [List.zip_cons_cons, List.map_cons, ← hloaded]
    · dsimp only at hgoes
      rw [hset (.finished (linking >>= (·.attachment rows)))] at hgoes
      rw [List.append_assoc _ _ (rs.map _)] at hrest
      rw [List.map_cons, ← htasks]
      exact .trans (.head ⟨_, hstart⟩ hgoes) hrest

/-! ## Levels and the levels below them -/

theorem mapM_of_forall {α β : Type} (f : α → β) (f' : β → Option α) (h : ∀ a, f' (f a) = some a) (xs : List α) :
    (xs.map f).mapM f' = some xs := by
  induction xs with
  | nil => rfl
  | cons x xs ih =>
    rw [List.map_cons, List.mapM_cons, h, ih]
    rfl

/-- A level that has been loaded, with the levels below it. -/
inductive LoadedLevel.Shows (l : LoadedLevel) : List LevelState → LevelState → Prop
  | nesting {loaded : List Loaded} {below : List LevelState} (h : l.nodes = .ok loaded)
    (hlen : below.length = loaded.length) : Shows l below (.nesting l.path l.rows loaded below)
  | idle (h : l.nodes = .ok []) : Shows l [] (.finished (.ok l.rows))
  | failed {f : Fault} (h : l.nodes = .error f) : Shows l [] (.finished (.error f))

namespace LoadedLevel.Shows

variable {l : LoadedLevel} {below : List LevelState}

theorem length_eq (h : l.Shows below st) : below.length = l.below.length := by
  cases h with
  | nesting h hlen => rw [LoadedLevel.below, h, hlen, List.length_map]
  | idle h => rw [LoadedLevel.below, h]; rfl
  | failed h => rw [LoadedLevel.below, h]; rfl

theorem of_error {f : Fault} (h : l.nodes = .error f) : l.Shows (l.below.map Level.start) (.finished (.error f)) := by
  have hbelow : l.below = [] := by rw [LoadedLevel.below, h]
  rw [hbelow]
  exact .failed h

theorem of_ok {loaded : List Loaded} (h : l.nodes = .ok loaded) :
    l.Shows (l.below.map Level.start)
      (.nesting l.path l.rows loaded (loaded.map fun n => (n.below l.path).start)) := by
  have hbelow : l.below = loaded.map (Loaded.below l.path) := by rw [LoadedLevel.below, h]
  rw [hbelow, List.map_map]
  exact .nesting h (List.length_map ..)

end LoadedLevel.Shows

variable (exec g) in
/-- The loads of a level. -/
theorem Level.goes_load (l : Level) (hsh : sh.Follows s) :
    ∃ st sh', LevelState.Goes exec g (l.start, sh) (st, sh') ∧ sh'.Follows (l.load exec g s).2 ∧
      (l.load exec g s).1.Shows ((l.load exec g s).1.below.map Level.start) st ∧
      ∀ loaded, (l.load exec g s).1.nodes = .ok loaded → loaded = [] ∨ loaded.map (·.1) = l.nodes := by
  rw [Level.start, Level.load]
  split
  · refine ⟨_, sh, .refl, hsh, .idle rfl, fun loaded h => ?_⟩
    cases h
    exact .inl rfl
  · obtain ⟨rs, sh', hlen, hloaded, hgoes, hsh'⟩ := goes_loadNodes l [] (List.nil_append _).symm rfl l.path l.rows hsh
    generalize loadNodes exec g l.path l.nodes l.rows s = run at hloaded hgoes hsh'
    obtain ⟨results, rows, s'⟩ := run
    dsimp only at hloaded hgoes hsh' ⊢
    have hfinish : LevelState.step exec g [] (.loading { l with rows } (rs.map .finished)) sh' =
        some (.ofLoads { l with rows } rs, sh') := by
      have hresults : (rs.map Task.finished).mapM Task.result? = some rs :=
        mapM_of_forall Task.finished _ (fun _ => rfl) rs
      rw [LevelState.step, hresults, Option.map_some]
    have hgoes' : LevelState.Goes exec g (.loading l (l.nodes.map fun _ => .waiting), sh)
        (.ofLoads { l with rows } rs, sh') := .tail hgoes ⟨[], hfinish⟩
    have hnodes : results.mapM id = (rs.mapM id).map l.nodes.zip := by
      rw [hloaded, Except.mapM_id_map, mapM_zip_map hlen]
    have hlen' : rs.length = ({ l with rows } : Level).nodes.length := hlen
    cases has : rs.mapM id with
    | error f =>
      rw [has] at hnodes
      rw [ofLoads_of_error hlen' has] at hgoes'
      refine ⟨_, sh', hgoes', hsh', .of_error hnodes, fun loaded h => ?_⟩
      cases hnodes.symm.trans h
    | ok as =>
      rw [has] at hnodes
      rw [ofLoads_of_ok hlen' has] at hgoes'
      refine ⟨_, sh', hgoes', hsh', .of_ok hnodes, fun loaded h => .inr ?_⟩
      cases hnodes.symm.trans h
      exact List.map_fst_zip (Nat.le_of_eq ((Except.length_of_mapM has).trans hlen).symm)

/-! ## Levels next to each other -/

/-- Levels that have been loaded; the levels below all of them stand in one list. -/
inductive ShowAll : List LoadedLevel → List LevelState → List LevelState → Prop
  | nil : ShowAll [] [] []
  | cons {l : LoadedLevel} {ls : List LoadedLevel} {below belows : List LevelState} {st : LevelState}
    {sts : List LevelState} (h : l.Shows below st) (hrest : ShowAll ls belows sts) :
    ShowAll (l :: ls) (below ++ belows) (st :: sts)

theorem LoadedLevel.Shows.step {l : LoadedLevel} {below below' : List LevelState} (h : l.Shows below st)
    (hstep : LevelStates.Step exec g (below, sh) (below', sh')) :
    ∃ st', l.Shows below' st' ∧ ∃ place, st.step exec g place sh = some (st', sh') := by
  obtain ⟨i, b, place, b', hget, hstep, rfl⟩ := hstep
  cases h with
  | @nesting loaded below h hlen =>
    refine ⟨_, .nesting h (by rw [List.length_set, hlen]), i :: place, ?_⟩
    simp only [LevelState.step, hget, Option.bind_eq_bind, Option.bind_some, hstep]
    rfl
  | idle h => cases hget
  | failed h => cases hget

/-- A step of one of the levels below is a step of the level above it. -/
theorem ShowAll.step {ls : List LoadedLevel} {belows belows' : List LevelState} (h : ShowAll ls belows sts)
    (hstep : LevelStates.Step exec g (belows, sh) (belows', sh')) :
    ∃ sts', ShowAll ls belows' sts' ∧ LevelStates.Step exec g (sts, sh) (sts', sh') := by
  induction h generalizing belows' with
  | nil =>
    obtain ⟨i, b, place, b', hget, -⟩ := hstep
    cases hget
  | @cons l ls below belows st sts h hrest ih =>
    obtain ⟨i, b, place, b', hget, hstep, hset⟩ := hstep
    dsimp only at hget hset
    subst hset
    by_cases hi : i < below.length
    · rw [List.getElem?_append_left hi] at hget
      rw [List.set_append_left _ _ hi]
      have hfirst : LevelStates.Step exec g (below, sh) (below.set i b', sh') := ⟨i, b, place, b', hget, hstep, rfl⟩
      obtain ⟨st', hst', place', hstep'⟩ := h.step hfirst
      exact ⟨st' :: sts, .cons hst' hrest, 0, st, place', st', rfl, hstep', rfl⟩
    · have hge : below.length ≤ i := Nat.le_of_not_lt hi
      rw [List.getElem?_append_right hge] at hget
      rw [List.set_append_right _ _ hge]
      have hrest : LevelStates.Step exec g (belows, sh) (belows.set (i - below.length) b', sh') :=
        ⟨i - below.length, b, place, b', hget, hstep, rfl⟩
      obtain ⟨sts', hsts', j, u, place', u', hget', hstep', hset⟩ := ih hrest
      exact ⟨st :: sts', .cons h hsts', j + 1, u, place', u', hget', hstep', congrArg (st :: ·) hset⟩

theorem ShowAll.go {ls : List LoadedLevel} {belows belows' : List LevelState} (h : ShowAll ls belows sts)
    (hgo : LevelStates.Go exec g (belows, sh) (belows', sh')) :
    ∃ sts', ShowAll ls belows' sts' ∧ LevelStates.Go exec g (sts, sh) (sts', sh') := by
  obtain ⟨a, ha⟩ : ∃ a, a = (belows', sh') := ⟨_, rfl⟩
  rw [← ha] at hgo
  have hall : ∃ sts', ShowAll ls a.1 sts' ∧ LevelStates.Go exec g (sts, sh) (sts', a.2) := by
    clear ha
    induction hgo with
    | refl => exact ⟨sts, h, .refl⟩
    | tail _ hstep ih =>
      obtain ⟨sts', hsts', hgo⟩ := ih
      obtain ⟨sts'', hsts'', hstep'⟩ := hsts'.step hstep
      exact ⟨sts'', hsts'', Relation.ReflTransGen.tail hgo hstep'⟩
  rw [ha] at hall
  exact hall

/-- A level is finished after the levels below it. -/
theorem LoadedLevel.Shows.goes_finish {l : LoadedLevel} {results : List (Except Fault (List Row))}
    (h : l.Shows (results.map .finished) st) (sh : Shared σ) :
    LevelState.Goes exec g (st, sh) (.finished (l.finish results), sh) := by
  generalize hbelow : results.map LevelState.finished = below at h
  cases h with
  | @nesting loaded below h hlen =>
    refine .single ⟨[], ?_⟩
    have hresults : below.mapM LevelState.result? = some results := by
      rw [← hbelow]
      exact mapM_of_forall LevelState.finished _ (fun _ => rfl) results
    rw [LevelState.step, hresults, Option.map_some, LevelState.ofBelow, ← h]
  | idle h =>
    rw [LoadedLevel.finish, h, List.map_eq_nil_iff.mp hbelow]
    exact .refl
  | failed h =>
    rw [LoadedLevel.finish, h]
    exact .refl

theorem ShowAll.go_finish {ls : List LoadedLevel} {results : List (Except Fault (List Row))}
    (h : ShowAll ls (results.map .finished) sts) (sh : Shared σ) :
    LevelStates.Go exec g (sts, sh) ((finishLevels ls results).map .finished, sh) := by
  generalize hbelows : results.map LevelState.finished = belows at h
  induction h generalizing results with
  | nil => exact .refl
  | @cons l ls below belows st sts h hrest ih =>
    have hlen := h.length_eq
    obtain ⟨hbelow, hbelows⟩ : (results.take l.below.length).map LevelState.finished = below ∧
        (results.drop l.below.length).map LevelState.finished = belows := by
      rw [List.map_take, List.map_drop, hbelows, ← hlen]
      exact ⟨List.take_left, List.drop_left⟩
    rw [finishLevels, List.map_cons]
    rw [← hbelow] at h
    exact .trans (LevelStates.go_head (h.goes_finish sh) sts) (LevelStates.go_tail (ih hbelows) _)

/-! ## Whole trees -/

variable (exec g) in
theorem go_loadLevels (ls : List Level) (hsh : sh.Follows s) :
    ∃ sts sh', LevelStates.Go exec g (ls.map Level.start, sh) (sts, sh') ∧ sh'.Follows (loadLevels exec g ls s).2 ∧
      ShowAll (loadLevels exec g ls s).1 (((loadLevels exec g ls s).1.flatMap LoadedLevel.below).map Level.start) sts ∧
      ∀ height, (∀ l ∈ ls, nodesHeight l.nodes ≤ height + 1) →
        ∀ b ∈ (loadLevels exec g ls s).1.flatMap LoadedLevel.below, nodesHeight b.nodes ≤ height := by
  induction ls generalizing s sh with
  | nil => exact ⟨[], sh, .refl, hsh, .nil, fun _ _ b hb => absurd hb List.not_mem_nil⟩
  | cons l ls ih =>
    obtain ⟨st, sh₁, hgoes, hsh₁, hst, hnodes⟩ := l.goes_load exec g hsh
    obtain ⟨sts, sh₂, hgo, hsh₂, hsts, hheight⟩ := ih hsh₁
    rw [loadLevels]
    have hgoAll := (LevelStates.go_head hgoes _).trans (LevelStates.go_tail hgo st)
    refine ⟨st :: sts, sh₂, hgoAll, hsh₂, ?_, fun height hls b hb => ?_⟩
    · rw [List.flatMap_cons, List.map_append]
      exact .cons hst hsts
    · rw [List.flatMap_cons, List.mem_append] at hb
      rcases hb with hb | hb
      · have hl := hls l List.mem_cons_self
        rw [LoadedLevel.below] at hb
        split at hb
        · next loaded hloaded =>
          rcases hnodes loaded hloaded with rfl | hmap
          · cases hb
          · refine LoadedLevel.height_below (l := (l.load exec g s).1) hl (fun loaded' h => ?_) b ?_
            · cases hloaded.symm.trans h
              exact hmap
            · rwa [LoadedLevel.below, hloaded]
        · cases hb
      · exact hheight height (fun l hl => hls l (List.mem_cons_of_mem _ hl)) b hb

variable (exec g) in
theorem go_stitchLevels (height : Nat) (ls : List Level) (hls : ∀ l ∈ ls, nodesHeight l.nodes ≤ height)
    (hsh : sh.Follows s) :
    ∃ sh', LevelStates.Go exec g (ls.map Level.start, sh)
        ((stitchLevels exec g height ls s).1.map .finished, sh') ∧
      sh'.Follows (stitchLevels exec g height ls s).2 := by
  induction height generalizing ls s sh with
  | zero =>
    refine ⟨sh, ?_, hsh⟩
    have hstart : ls.map Level.start = (stitchLevels exec g 0 ls s).1.map .finished := by
      rw [stitchLevels, List.map_map]
      refine List.map_congr_left fun l hl => ?_
      have hnil : l.nodes = [] := by
        cases hnodes : l.nodes with
        | nil => rfl
        | cons n ns =>
          have hzero := hls l hl
          rw [hnodes, nodesHeight] at hzero
          omega
      rw [Level.start, if_pos (by rw [Level.isIdle, hnil, List.isEmpty_nil, Bool.or_true])]
      rfl
    rw [hstart]
    exact .refl
  | succ height ih =>
    obtain ⟨sts, sh₁, hload, hsh₁, hsts, hheight⟩ := go_loadLevels exec g ls
      (hsh.record (ls.flatMap Level.events))
    obtain ⟨sh₂, hbelow, hsh₂⟩ := ih _ (hheight height hls) hsh₁
    obtain ⟨sts', hsts', hgo⟩ := hsts.go hbelow
    exact ⟨sh₂, .trans hload (.trans hgo (hsts'.go_finish sh₂)), hsh₂⟩

variable (exec g) in
/-- Stitching one load after the other is a run of the machine that comes to its end. -/
theorem reaches_stitchRows (p : Plan) (rows : List Row) (s : Session σ) {permits : Nat} (hpermits : 1 ≤ permits) :
    ∃ m, (Machine.start p rows permits s.store).Reaches exec g m ∧
      m.result? = some (stitchRows exec g p rows s).1 ∧ m.shared.store = (stitchRows exec g p rows s).2.store := by
  have hp : nodesHeight (p.level [] rows).nodes ≤ p.height := by
    cases p
    exact Nat.le_refl _
  have hsh : Shared.Follows { store := s.store, permits } s := ⟨rfl, hpermits⟩
  obtain ⟨sh', hgo, hsh'⟩ := go_stitchLevels exec g p.height [p.level [] rows] (by simpa using hp) hsh
  obtain ⟨st, hresults, hreaches⟩ := Machine.reaches_of_go hgo
  refine ⟨⟨sh', st⟩, hreaches, ?_, hsh'.store_eq⟩
  rw [stitchRows]
  generalize stitchLevels exec g p.height [p.level [] rows] s = run at hresults
  obtain ⟨results, s'⟩ := run
  obtain ⟨r, rfl, rfl⟩ := List.map_eq_singleton_iff.mp hresults
  rfl

variable (exec g) in
/-- At whatever pace the store answers, stitching is a run of the machine that comes to its end. -/
theorem reaches_stitchRowsPaced (p : Plan) (rows : List Row) (s : Session σ) {concurrency : Nat}
    (hc : 1 ≤ concurrency) :
    ∃ m, (Machine.start p rows concurrency s.store).Reaches exec g m ∧
      m.result? = some (stitchRowsPaced exec g concurrency p rows s).1 ∧
      m.shared.store = (stitchRowsPaced exec g concurrency p rows s).2.store := by
  rw [stitchRowsPaced]
  cases s.latency with
  | zero => exact reaches_stitchRows exec g p rows s hc
  | succ waits =>
    have hreaches := Turns.reaches_finish exec g waits ((2 * waits + 10) * (p.size + 1))
      (Turns.enter [] { machine := .start p rows concurrency s.store })
    obtain ⟨result, hresult⟩ := Option.isSome_iff_exists.mp (isSome_stitchInTurns exec g waits p rows s.store hc)
    rw [Turns.machine_enter] at hreaches
    refine ⟨_, hreaches, ?_, rfl⟩
    dsimp only [stitchInTurns]
    rw [hresult, Option.getD_some]

end Runs

end RelatedRows

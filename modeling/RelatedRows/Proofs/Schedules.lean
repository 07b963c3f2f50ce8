import RelatedRows.Proofs.Remaining
import RelatedRows.Proofs.Settling

/-!
# Schedules

Loads that run at the same time write into the same rows and look at them again when their answers are in.  What a run
comes to does not depend on the order of their steps.

* `LevelState.Moves`: what some steps of a run do.  The outcome stays, and the steps are taken from those that were
  left.
* `LevelState.Advances.moves`: every step does so.
* `LevelState.Sound.progress`: a run only waits while all permits are used.
* `run_schedule`: every schedule ends, with the rows or the failure of stitching in the order of the plan, after the
  same queries.
-/

namespace RelatedRows

open scoped List

/-! ## Lists with one place changed -/

section Lists

variable {α β γ : Type} {R : α → β → Prop} {xs : List α} {ys : List β} {i : Nat} {x : α}

theorem forall₂_set_of {R' : α → β → Prop} (h : List.Forall₂ R xs ys) (hx : xs[i]? = some x) {y : β} (hxy : R' x y)
    (hother : ∀ (j : Nat) (a : α) (b : β), j ≠ i → xs[j]? = some a → R a b → R' a b) :
    List.Forall₂ R' xs (ys.set i y) := by
  induction h generalizing i with
  | nil => simp at hx
  | @cons a b xs ys hhead htail ih =>
    cases i with
    | zero =>
      cases hx
      have hrest : ∀ a ∈ xs, ∀ b, R a b → R' a b := by
        intro a ha b
        obtain ⟨j, hj⟩ := List.getElem?_of_mem ha
        exact hother (j + 1) a b (by omega) hj
      exact .cons hxy (((List.forall₂_and_left _ _).mpr ⟨hrest, htail⟩).imp fun a b h => h.1 b h.2)
    | succ i =>
      exact .cons (hother 0 a b (by omega) rfl hhead) (ih hx fun j a b hj => hother (j + 1) a b (by omega))

theorem forall₂_set (h : List.Forall₂ R xs ys) (hx : xs[i]? = some x) {y : β} (hxy : R x y) :
    List.Forall₂ R xs (ys.set i y) :=
  forall₂_set_of h hx hxy fun _ _ _ _ _ hab => hab

theorem zipWith_set {f f' : α → β → γ} (hx : xs[i]? = some x) (y : β)
    (h : ∀ (j : Nat) (a : α) (b : β), j ≠ i → xs[j]? = some a → ys[j]? = some b → f' a b = f a b) :
    xs.zipWith f' (ys.set i y) = (xs.zipWith f ys).set i (f' x y) := by
  induction xs generalizing i ys with
  | nil => simp at hx
  | cons a xs ih =>
    cases ys with
    | nil => simp
    | cons b ys =>
      cases i with
      | zero =>
        cases hx
        have hrest : xs.zipWith f' ys = xs.zipWith f ys := by
          refine List.ext_getElem? fun j => ?_
          rw [List.getElem?_zipWith, List.getElem?_zipWith]
          cases ha : xs[j]? with
          | none => rfl
          | some a =>
            cases hb : ys[j]? with
            | none => rfl
            | some b => exact congrArg some (h (j + 1) a b (by omega) ha hb)
        simp only [List.set_cons_zero, List.zipWith_cons_cons, hrest]
      | succ i =>
        simp only [List.set_cons_succ, List.zipWith_cons_cons, h 0 a b (by omega) rfl rfl]
        rw [ih hx fun j a b hj => h (j + 1) a b (by omega)]

theorem getElem?_zipWith_of (f : α → β → γ) {y : β} (hx : xs[i]? = some x) (hy : ys[i]? = some y) :
    (xs.zipWith f ys)[i]? = some (f x y) := by
  rw [List.getElem?_zipWith, hx, hy]

theorem flatten_set_perm {ls : List (List α)} {l l' : List α} {e : List α} (h : ls[i]? = some l) (hl : l ~ e ++ l') :
    ls.flatten ~ e ++ (ls.set i l').flatten := by
  induction ls generalizing i with
  | nil => simp at h
  | cons m ls ih =>
    cases i with
    | zero =>
      cases h
      rw [List.set_cons_zero, List.flatten_cons, List.flatten_cons, ← List.append_assoc]
      exact hl.append_right _
    | succ i =>
      rw [List.set_cons_succ, List.flatten_cons, List.flatten_cons]
      calc m ++ ls.flatten
          ~ m ++ (e ++ (ls.set i l').flatten) := (ih h).append_left m
        _ = m ++ e ++ (ls.set i l').flatten := (List.append_assoc ..).symm
        _ ~ e ++ m ++ (ls.set i l').flatten := List.perm_append_comm.append_right _
        _ = e ++ (m ++ (ls.set i l').flatten) := List.append_assoc ..

end Lists

/-! ## Moves -/

/-- What `count` steps of a level do. -/
structure LevelState.Moves (answer : BatchQuery → Answer) (g : Graph) {σ : Type} (count : Nat) (st : LevelState)
    (s : Shared σ) (st' : LevelState) (s' : Shared σ) : Prop where
  sound : st'.Sound
  outcome : Except.Agree Rows.Same (st'.outcome answer g) (st.outcome answer g)
  left : ∃ es, es.length = count ∧ st.left answer g ~ es ++ st'.left answer g ∧
    s'.issued = s.issued ++ es.reduceOption
  permits : s'.permits + st'.inFlight = s.permits + st.inFlight

section Moves

variable {answer : BatchQuery → Answer} {g : Graph} {σ : Type}

namespace LevelState.Moves

variable {st st' st'' : LevelState} {s s' s'' : Shared σ} {count count' : Nat}

theorem refl (h : st.Sound) : st.Moves answer g 0 s st s where
  sound := h
  outcome := .refl Rows.Same.refl _
  left := ⟨[], rfl, .refl _, (List.append_nil _).symm⟩
  permits := rfl

theorem trans (h : st.Moves answer g count s st' s') (h' : st'.Moves answer g count' s' st'' s'') :
    st.Moves answer g (count + count') s st'' s'' where
  sound := h'.sound
  outcome := .trans (R := Rows.Same) (fun _ _ _ => Rows.Same.trans) h'.outcome h.outcome
  left := by
    obtain ⟨es, hcount, hleft, hissued⟩ := h.left
    obtain ⟨es', hcount', hleft', hissued'⟩ := h'.left
    refine ⟨es ++ es', by rw [List.length_append, hcount, hcount'], ?_, ?_⟩
    · rw [List.append_assoc]
      exact hleft.trans (hleft'.append_left es)
    · rw [hissued', hissued, List.reduceOption_append, List.append_assoc]
  permits := h'.permits.trans h.permits

end LevelState.Moves

/-! ## A step of a load -/

section Loads

variable {l : Level} {n : PlanNode} {t t' : Task} {tasks : List Task} {rows' : List Row} {s s' : Shared σ} {i : Nat}

theorem NodesApart.key_notMem {nodes : List PlanNode} (h : NodesApart nodes) {j : Nat} {m : PlanNode}
    (hn : nodes[i]? = some n) (hm : nodes[j]? = some m) (hne : j ≠ i) : n.key ∉ m.step.relation.sourceKey := by
  obtain ⟨hi, rfl⟩ := List.getElem?_eq_some_iff.mp hn
  obtain ⟨hj, rfl⟩ := List.getElem?_eq_some_iff.mp hm
  have hpairs := List.pairwise_iff_getElem.mp h.level
  rcases Nat.lt_or_gt_of_ne hne with hlt | hlt
  · exact (hpairs j i hj hi hlt).2
  · exact (hpairs i j hi hj hlt).1

theorem Task.Steps.spelling (h : t.Steps answer g n l.rows s t' rows' s') {columns : List String}
    (hkey : n.key ∉ columns) : rows'.map (Row.spelling columns) = l.rows.map (Row.spelling columns) := by
  rcases h.written with rfl | ⟨r, -, rfl⟩
  · rfl
  · exact spelling_rowsAfter hkey l.rows r

theorem Task.Steps.length_rows (h : t.Steps answer g n l.rows s t' rows' s') : rows'.length = l.rows.length := by
  have hmap : rows'.map (Row.spelling []) = l.rows.map (Row.spelling []) := h.spelling (by simp)
  simpa using congrArg List.length hmap

/-- The attachments that all loads come to link all rows. -/
theorem links_of_loadOutcomes {nodes : List PlanNode} {rows : List Row} {as : List Attachment}
    (hloads : List.Forall₂ (fun n t => Task.Sound n rows.length t) nodes tasks)
    (has : (nodes.zipWith (fun n t => t.outcome answer g n rows) tasks).mapM id = .ok as) :
    List.Forall₂ (fun _ a => a.links.length = rows.length) nodes as := by
  induction hloads generalizing as with
  | nil =>
    cases has
    exact .nil
  | @cons n t nodes tasks ht _ ih =>
    rw [List.zipWith_cons_cons] at has
    cases Except.mapM_eq_ok_iff.mp has with
    | cons ha hrest => exact .cons (Task.length_outcome answer g ht ha) (ih (Except.mapM_eq_ok_iff.mpr hrest))

variable (hsound : (LevelState.loading l tasks).Sound) (hn : l.nodes[i]? = some n) (ht : tasks[i]? = some t)
  (hsteps : t.Steps answer g n l.rows s t' rows' s')

include hsound hn hsteps

theorem Task.Steps.loadsLeft_eq : loadsLeft answer g { l with rows := rows' } (tasks.set i t') =
    (loadsLeft answer g l tasks).set i (t'.left answer g n rows') := by
  obtain ⟨hapart, hloads⟩ := hsound
  refine zipWith_set hn t' fun j m u hne hm _ => ?_
  exact Task.left_congr answer g (hsteps.spelling (hapart.key_notMem hn hm hne))

include ht

theorem Task.Steps.loadOutcomes_eq :
    loadOutcomes answer g { l with rows := rows' } (tasks.set i t') = loadOutcomes answer g l tasks := by
  obtain ⟨hapart, hloads⟩ := hsound
  have hother : ∀ (j : Nat) (m : PlanNode) (u : Task), j ≠ i → l.nodes[j]? = some m → tasks[j]? = some u →
      u.outcome answer g m rows' = u.outcome answer g m l.rows := by
    intro j m u hne hm hu
    have hspelling := hsteps.spelling (hapart.key_notMem hn hm hne)
    exact (Task.outcome_congr answer g (rel_of_forall₂ hloads hm hu) hspelling.symm).symm
  have hown := getElem?_zipWith_of (fun n t => t.outcome answer g n l.rows) hn ht
  obtain ⟨hi, hown⟩ := List.getElem?_eq_some_iff.mp hown
  rw [loadOutcomes, loadOutcomes, zipWith_set hn t' hother, hsteps.outcome, ← hown]
  exact List.set_getElem_self hi

/-- What a load writes early does not show once the level is finished. -/
theorem Task.Steps.finishLevel_same {as : List Attachment} (has : (loadOutcomes answer g l tasks).mapM id = .ok as) :
    Except.Agree Rows.Same (finishLevel answer g l.nodes rows' as) (finishLevel answer g l.nodes l.rows as) := by
  rcases hsteps.written with rfl | ⟨r, rfl, rfl⟩
  · exact .refl Rows.Same.refl _
  obtain ⟨hapart, hloads⟩ := hsound
  have hlinks := links_of_loadOutcomes hloads has
  obtain ⟨a, ha, hr⟩ : ∃ a, as[i]? = some a ∧ r >>= (·.attachment l.rows) = .ok a := by
    have hrel := getElem?_of_forall₂ (Except.mapM_eq_ok_iff.mp has) i
    rw [loadOutcomes, getElem?_zipWith_of _ hn ht] at hrel
    generalize as[i]? = x at hrel ⊢
    cases hrel with
    | some hr => exact ⟨_, rfl, hr⟩
  have hmem : (n, a) ∈ l.nodes.zip as := List.mem_of_getElem? (List.getElem?_zip_eq_some.mpr ⟨hn, ha⟩)
  have hcolumn : (a.column n.key).2.length = l.rows.length := by
    simpa [Attachment.column] using List.forall₂_zip hlinks hmem
  rw [finishLevel, finishLevel, rowsAfter_eq hr]
  cases hbelow : (l.nodes.zip as).mapM fun n => n.1.nest answer g n.2.attached with
  | error f => exact .error f
  | ok below =>
    refine .ok (settleAll_writeColumn (fun m hm => ?_) (Except.length_of_mapM hbelow) ?_ hcolumn)
    · exact List.forall₂_zip hlinks hm
    · exact List.mem_map.mpr ⟨_, hmem, rfl⟩

theorem Task.Steps.moves :
    (LevelState.loading l tasks).Moves answer g 1 s (.loading { l with rows := rows' } (tasks.set i t')) s' where
  sound := by
    obtain ⟨hapart, hloads⟩ := hsound
    refine .loading hapart ?_
    show List.Forall₂ (fun n t => Task.Sound n rows'.length t) l.nodes (tasks.set i t')
    rw [hsteps.length_rows]
    exact forall₂_set hloads hn hsteps.sound
  outcome := by
    rw [LevelState.outcome, LevelState.outcome, hsteps.loadOutcomes_eq hsound hn ht]
    cases has : (loadOutcomes answer g l tasks).mapM id with
    | error f => exact .error f
    | ok as => exact hsteps.finishLevel_same hsound hn ht has
  left := by
    obtain ⟨e, he, hissued⟩ := hsteps.left
    refine ⟨[e], rfl, ?_, by rw [hissued, List.reduceOption_singleton]⟩
    rw [LevelState.left, LevelState.left, hsteps.loadOutcomes_eq hsound hn ht, hsteps.loadsLeft_eq hsound hn,
      ← List.append_assoc]
    exact (flatten_set_perm (getElem?_zipWith_of _ hn ht) (.of_eq he)).append_right _
  permits := by
    obtain ⟨hi, rfl⟩ := List.getElem?_eq_some_iff.mp ht
    have hcount := List.countP_set (p := Task.isCalling) (a := t') hi
    have hle := List.boole_getElem_le_countP (p := Task.isCalling) hi
    have hpermits := hsteps.permits
    rw [LevelState.inFlight, LevelState.inFlight, hcount]
    omega

end Loads

/-! ## A step of a level -/

section Levels

variable {path : List String} {rows : List Row} {s s' : Shared σ}

variable (answer g rows) in
/-- Loads that have finished come to their results and have no steps left. -/
theorem loads_of_finished {nodes : List PlanNode} {results : List (Except Fault Attachment)}
    (hlen : results.length = nodes.length) :
    nodes.zipWith (fun n t => Task.outcome answer g n rows t) (results.map .finished) = results ∧
      (nodes.zipWith (fun n t => Task.left answer g n rows t) (results.map .finished)).flatten = [] ∧
      (results.map .finished).countP Task.isCalling = 0 := by
  induction nodes generalizing results with
  | nil =>
    rw [List.length_eq_zero_iff.mp hlen]
    exact ⟨rfl, rfl, rfl⟩
  | cons n nodes ih =>
    cases results with
    | nil => simp at hlen
    | cons r results =>
      obtain ⟨houtcomes, hleft, hcount⟩ := ih (by simpa using hlen)
      refine ⟨?_, ?_, ?_⟩
      · rw [List.map_cons, List.zipWith_cons_cons, houtcomes]
        rfl
      · rw [List.map_cons, List.zipWith_cons_cons, List.flatten_cons, hleft]
        rfl
      · rw [List.map_cons, List.countP_cons_of_neg (by simp [Task.isCalling]), hcount]

theorem mapM_zip_map {nodes : List PlanNode} {results : List (Except Fault Attachment)}
    (hlen : results.length = nodes.length) :
    (nodes.zip results).mapM (fun (n, r) => r.map fun a => ((n, a) : Loaded)) = (results.mapM id).map nodes.zip := by
  induction nodes generalizing results with
  | nil =>
    rw [List.length_eq_zero_iff.mp hlen]
    rfl
  | cons n nodes ih =>
    cases results with
    | nil => simp at hlen
    | cons r results =>
      rw [List.zip_cons_cons, List.mapM_cons, List.mapM_cons, ih (by simpa using hlen)]
      cases r with
      | error f => rfl
      | ok a => cases results.mapM id <;> rfl

theorem ofLoads_of_error {l : Level} {results : List (Except Fault Attachment)} {f : Fault}
    (hlen : results.length = l.nodes.length) (h : results.mapM id = .error f) :
    LevelState.ofLoads l results = .finished (.error f) := by
  rw [LevelState.ofLoads, mapM_zip_map hlen, h]
  rfl

theorem ofLoads_of_ok {l : Level} {results : List (Except Fault Attachment)} {as : List Attachment}
    (hlen : results.length = l.nodes.length) (h : results.mapM id = .ok as) :
    LevelState.ofLoads l results =
      .nesting l.path l.rows (l.nodes.zip as) ((l.nodes.zip as).map fun n => (Loaded.below l.path n).start) := by
  rw [LevelState.ofLoads, mapM_zip_map hlen, h]
  rfl

/-- A level goes on after its loads. -/
theorem moves_ofLoads {l : Level} {results : List (Except Fault Attachment)}
    (hsound : (LevelState.loading l (results.map .finished)).Sound) :
    (LevelState.loading l (results.map .finished)).Moves answer g 1 s (.ofLoads l results) s := by
  obtain ⟨hapart, hloads⟩ := hsound
  have hlen : results.length = l.nodes.length := by rw [hloads.length_eq, List.length_map]
  obtain ⟨houtcomes, hleft, hcount⟩ := loads_of_finished answer g l.rows hlen
  have hlinks : ∀ as, results.mapM id = .ok as →
      List.Forall₂ (fun _ a => a.links.length = l.rows.length) l.nodes as := by
    intro as has
    rw [← houtcomes] at has
    exact links_of_loadOutcomes hloads has
  have hpermits : (LevelState.loading l (results.map .finished)).inFlight = 0 := hcount
  have houtcome : (LevelState.loading l (results.map .finished)).outcome answer g =
      results.mapM id >>= finishLevel answer g l.nodes l.rows := by
    rw [LevelState.outcome, loadOutcomes, houtcomes]
  have hsteps : (LevelState.loading l (results.map .finished)).left answer g =
      none :: leftAfter (leftBelow answer g l.nodes) (results.mapM id) := by
    rw [LevelState.left, loadsLeft, loadOutcomes, houtcomes, hleft]
    rfl
  cases has : results.mapM id with
  | error f =>
    rw [ofLoads_of_error hlen has]
    refine ⟨.finished _, ?_, ⟨[none], rfl, ?_, (List.append_nil _).symm⟩, by rw [hpermits]; rfl⟩
    · rw [houtcome, has]
      exact .error f
    · rw [hsteps, has]
      exact .refl _
  | ok as =>
    have hlinks := hlinks as has
    rw [ofLoads_of_ok hlen has]
    refine ⟨.nesting (fun n hn => List.forall₂_zip hlinks hn) ?_, ?_, ⟨[none], rfl, ?_, (List.append_nil _).symm⟩, ?_⟩
    · intro b hb
      obtain ⟨n, hn, rfl⟩ := List.mem_map.mp hb
      exact Level.sound_start (Level.nodesApart_loaded hapart l.path (List.of_mem_zip hn).1)
    · have hbelow := outcomes_start answer g l.path hapart fun n (hn : n ∈ l.nodes.zip as) => (List.of_mem_zip hn).1
      rw [houtcome, has, LevelState.outcome, hbelow]
      exact .refl Rows.Same.refl _
    · rw [hsteps, has, LevelState.left, leftOf_start]
      exact .refl _
    · rw [hpermits, LevelState.inFlight, inFlightBelow_start]

variable (answer g) in
/-- Levels that have finished come to their results and have no steps left. -/
theorem below_of_finished (results : List (Except Fault (List Row))) :
    LevelState.outcomes answer g (results.map .finished) = results.mapM id ∧
      LevelState.leftOf answer g (results.map .finished) = [] ∧ inFlightBelow (results.map .finished) = 0 := by
  induction results with
  | nil => exact ⟨rfl, rfl, rfl⟩
  | cons r results ih =>
    obtain ⟨houtcomes, hleft, hcount⟩ := ih
    refine ⟨?_, ?_, ?_⟩
    · rw [List.map_cons, LevelState.outcomes, houtcomes, List.mapM_cons]
      rfl
    · rw [List.map_cons, LevelState.leftOf, hleft]
      rfl
    · rw [List.map_cons, inFlightBelow, hcount]
      rfl

/-- A level goes on after the levels below it. -/
theorem moves_ofBelow (loaded : List Loaded) (results : List (Except Fault (List Row))) :
    (LevelState.nesting path rows loaded (results.map .finished)).Moves answer g 1 s
      (.ofBelow path rows loaded results) s := by
  obtain ⟨houtcomes, hleft, hcount⟩ := below_of_finished answer g results
  refine ⟨.finished _, ?_, ⟨[none], rfl, ?_, (List.append_nil _).symm⟩, ?_⟩
  · rw [LevelState.outcome, houtcomes]
    exact .refl Rows.Same.refl _
  · rw [LevelState.left, hleft]
    exact .refl _
  · rw [LevelState.inFlight, hcount]
    rfl

theorem inFlightBelow_set {below : List LevelState} {b : LevelState} {i : Nat} (hb : below[i]? = some b)
    (b' : LevelState) :
    inFlightBelow (below.set i b') + b.inFlight = inFlightBelow below + b'.inFlight := by
  induction below generalizing i with
  | nil => simp at hb
  | cons c below ih =>
    cases i with
    | zero =>
      cases hb
      rw [List.set_cons_zero, inFlightBelow, inFlightBelow]
      omega
    | succ i =>
      have := ih hb
      rw [List.set_cons_succ, inFlightBelow, inFlightBelow]
      omega

/-- A level moves with a level below it. -/
theorem LevelState.Moves.below {loaded : List Loaded} {below : List LevelState} {b b' : LevelState} {i count : Nat}
    (hsound : (LevelState.nesting path rows loaded below).Sound) (hb : below[i]? = some b)
    (h : b.Moves answer g count s b' s') : (LevelState.nesting path rows loaded below).Moves answer g count s
      (.nesting path rows loaded (below.set i b')) s' where
  sound := by
    cases hsound with
    | nesting hlinks hbelow =>
      refine .nesting hlinks fun c hc => ?_
      rcases List.mem_or_eq_of_mem_set hc with hc | rfl
      · exact hbelow c hc
      · exact h.sound
  outcome := by
    have hset : List.Forall₂ (fun c c' => Except.Agree Rows.Same (c'.outcome answer g) (c.outcome answer g)) below
        (below.set i b') := by
      refine forall₂_set (List.forall₂_same.mpr fun c _ => ?_) hb h.outcome
      exact .refl Rows.Same.refl _
    rw [LevelState.outcome, LevelState.outcome, outcomes_eq, outcomes_eq]
    refine (Except.Agree.mapM hset.flip).bind fun rs rs' hrs => .ok ?_
    exact settleAll_same loaded hrs (Rows.Same.refl rows)
  left := by
    obtain ⟨es, hcount, hleft, hissued⟩ := h.left
    refine ⟨es, hcount, ?_, hissued⟩
    have hb : (below.map (LevelState.left answer g))[i]? = some (b.left answer g) := by
      rw [List.getElem?_map, hb]
      rfl
    rw [LevelState.left, LevelState.left, leftOf_eq, leftOf_eq, ← List.append_assoc, List.flatMap_def,
      List.flatMap_def, List.map_set]
    exact (flatten_set_perm hb hleft).append_right _
  permits := by
    have hset := inFlightBelow_set hb b'
    have hpermits := h.permits
    rw [LevelState.inFlight, LevelState.inFlight]
    omega

end Levels

/-! ## Runs -/

section Runs

variable {exec : Executor σ} (hanswer : ∀ s q, (exec s (.batch q)).1 = answer q)

include hanswer in
/-- Every step is a move. -/
theorem LevelState.Advances.moves {st st' : LevelState} {s s' : Shared σ} (h : st.Advances exec g s st' s')
    (hsound : st.Sound) : st.Moves answer g 1 s st' s' := by
  induction h with
  | loaded l results s => exact moves_ofLoads hsound
  | joined path rows loaded results s => exact moves_ofBelow loaded results
  | @load l tasks i n t t' rows s s' hn ht htask =>
    have hload : t.Sound n l.rows.length := by
      obtain ⟨-, hloads⟩ := hsound
      exact rel_of_forall₂ hloads hn ht
    exact (Task.steps_of_step hanswer hload htask).moves hsound hn ht
  | @lower path rows loaded below i b b' s s' hb _ ih =>
    have hsoundBelow : b.Sound := by
      cases hsound with
      | nesting _ hbelow => exact hbelow b (List.mem_of_getElem? hb)
    exact (ih hsoundBelow).below hsound hb

include hanswer in
theorem Machine.moves_of_run {schedule : List (List Nat)} {m m' : Machine σ} (hsound : m.root.Sound)
    (hrun : m.run exec g schedule = some m') :
    m.root.Moves answer g schedule.length m.shared m'.root m'.shared := by
  induction schedule generalizing m with
  | nil =>
    cases hrun
    exact .refl hsound
  | cons place schedule ih =>
    rw [run, List.foldlM_cons] at hrun
    obtain ⟨next, hnext, hrun⟩ := Option.bind_eq_some_iff.mp hrun
    have hmove := (Machine.advances_of_step hnext).moves hanswer hsound
    have hrest := hmove.trans (ih hmove.sound hrun)
    rwa [Nat.add_comm] at hrest

/-! ## Waiting -/

theorem exists_mapM_of_isSome {α β : Type} {f : α → Option β} {xs : List α} (h : ∀ x ∈ xs, (f x).isSome = true) :
    ∃ ys, xs.mapM f = some ys := by
  induction xs with
  | nil => exact ⟨[], rfl⟩
  | cons x xs ih =>
    obtain ⟨y, hy⟩ := Option.isSome_iff_exists.mp (h x List.mem_cons_self)
    obtain ⟨ys, hys⟩ := ih fun z hz => h z (List.mem_cons_of_mem _ hz)
    refine ⟨y :: ys, ?_⟩
    rw [List.mapM_cons, hy, hys]
    rfl

theorem Task.progress (exec : Executor σ) (g : Graph) (n : PlanNode) (rows : List Row) (s : Shared σ) (t : Task) :
    t.result?.isSome = true ∨ (∃ next, t.step exec g n rows s = some next) ∨ (s.permits = 0 ∧ t.isCalling = false) := by
  cases t with
  | waiting => exact .inr (.inl ⟨_, rfl⟩)
  | calling q next => exact .inr (.inl ⟨_, rfl⟩)
  | finished r => exact .inl rfl
  | running d =>
    cases d with
    | done r => exact .inr (.inl ⟨_, rfl⟩)
    | ask q next =>
      by_cases hpermits : s.permits = 0
      · exact .inr (.inr ⟨hpermits, rfl⟩)
      · exact .inr (.inl ⟨_, if_neg hpermits⟩)

/-- If some of them have not finished, and all of those wait for a permit, there is none. -/
theorem permits_eq_zero {α : Type} {permits : Nat} {xs : List α} {done : α → Bool} {idle : α → Prop}
    (hnot : ¬∀ x ∈ xs, done x = true) (h : ∀ x ∈ xs, done x = true ∨ (permits = 0 ∧ idle x)) : permits = 0 := by
  by_contra hpermits
  refine hnot fun x hx => ?_
  rcases h x hx with hdone | ⟨hzero, -⟩
  · exact hdone
  · exact absurd hzero hpermits

theorem inFlightBelow_eq_zero {below : List LevelState} (h : ∀ b ∈ below, b.inFlight = 0) :
    inFlightBelow below = 0 := by
  induction below with
  | nil => rfl
  | cons b below ih =>
    rw [inFlightBelow, h b List.mem_cons_self, ih fun c hc => h c (List.mem_cons_of_mem _ hc)]

namespace LevelState

variable (exec : Executor σ) (g : Graph) (s : Shared σ)

theorem progress_loading {l : Level} {tasks : List Task} (hlen : l.nodes.length = tasks.length) :
    (∃ place next, step exec g place (.loading l tasks) s = some next) ∨
      (s.permits = 0 ∧ (LevelState.loading l tasks).inFlight = 0) := by
  by_cases hall : ∀ t ∈ tasks, t.result?.isSome = true
  · obtain ⟨results, hresults⟩ := exists_mapM_of_isSome hall
    refine .inl ⟨[], (ofLoads l results, s), ?_⟩
    rw [step, hresults]
    rfl
  by_cases hstep : ∃ place next, step exec g place (.loading l tasks) s = some next
  · exact .inl hstep
  -- no load can take a step, so whatever is left of them waits for a permit
  have hstuck : ∀ t ∈ tasks, t.result?.isSome = true ∨ (s.permits = 0 ∧ t.isCalling = false) := by
    intro t ht
    obtain ⟨i, hi, rfl⟩ := List.mem_iff_getElem.mp ht
    have hi' : i < l.nodes.length := hlen ▸ hi
    rcases Task.progress exec g l.nodes[i] l.rows s tasks[i] with hresult | ⟨⟨t', rows', s'⟩, htask⟩ | hwaits
    · exact .inl hresult
    · refine absurd ⟨[i], (.loading { l with rows := rows' } (tasks.set i t'), s'), ?_⟩ hstep
      rw [step, List.getElem?_eq_getElem hi', List.getElem?_eq_getElem hi]
      show Option.bind (tasks[i].step exec g l.nodes[i] l.rows s) _ = _
      rw [htask]
      rfl
    · exact .inr hwaits
  refine .inr ⟨permits_eq_zero hall hstuck, List.countP_eq_zero.mpr fun t ht => ?_⟩
  rcases hstuck t ht with hresult | ⟨-, hidle⟩
  · cases t with
    | finished r => simp [Task.isCalling]
    | _ => cases hresult
  · simp [hidle]

theorem progress_nesting {path : List String} {rows : List Row} {loaded : List Loaded} {below : List LevelState}
    (h : ∀ b ∈ below, b.result?.isSome = true ∨ (∃ place next, b.step exec g place s = some next) ∨
      (s.permits = 0 ∧ b.inFlight = 0)) :
    (∃ place next, step exec g place (.nesting path rows loaded below) s = some next) ∨
      (s.permits = 0 ∧ (LevelState.nesting path rows loaded below).inFlight = 0) := by
  by_cases hall : ∀ b ∈ below, b.result?.isSome = true
  · obtain ⟨results, hresults⟩ := exists_mapM_of_isSome hall
    refine .inl ⟨[], (ofBelow path rows loaded results, s), ?_⟩
    rw [step, hresults]
    rfl
  by_cases hstep : ∃ place next, step exec g place (.nesting path rows loaded below) s = some next
  · exact .inl hstep
  have hstuck : ∀ b ∈ below, b.result?.isSome = true ∨ (s.permits = 0 ∧ b.inFlight = 0) := by
    intro b hb
    obtain ⟨i, hi, rfl⟩ := List.mem_iff_getElem.mp hb
    rcases h below[i] hb with hresult | ⟨place, ⟨b', s'⟩, hbelow⟩ | hwaits
    · exact .inl hresult
    · refine absurd ⟨i :: place, (.nesting path rows loaded (below.set i b'), s'), ?_⟩ hstep
      rw [step, List.getElem?_eq_getElem hi]
      show Option.bind (below[i].step exec g place s) _ = _
      rw [hbelow]
      rfl
    · exact .inr hwaits
  refine .inr ⟨permits_eq_zero hall hstuck, inFlightBelow_eq_zero fun b hb => ?_⟩
  rcases hstuck b hb with hresult | ⟨-, hidle⟩
  · cases b with
    | finished r => rfl
    | _ => cases hresult
  · exact hidle

/-- A level that has not finished can take a step, unless all permits are used elsewhere. -/
theorem Sound.progress {st : LevelState} (h : st.Sound) :
    st.result?.isSome = true ∨ (∃ place next, st.step exec g place s = some next) ∨
      (s.permits = 0 ∧ st.inFlight = 0) := by
  induction h with
  | finished r => exact .inl rfl
  | loading _ hloads => exact .inr (progress_loading exec g s hloads.length_eq)
  | nesting _ _ ih => exact .inr (progress_nesting exec g s ih)

end LevelState

/-! ## All schedules -/

namespace Machine

variable {p : Plan} {rows : List Row} {permits : Nat} {m : Machine σ} {count : Nat}

theorem sound_start (hapart : ∀ q ∈ p.levels, q.KeysApart) (store : σ) :
    (start p rows permits store).root.Sound :=
  Level.sound_start (nodesApart_of_levels hapart)

theorem left_start (store : σ) : (start p rows permits store).root.left answer g = p.left answer g rows :=
  (Level.left_start answer g _).trans (p.left_level answer g [] rows)

include hanswer in
theorem outcome_start (hapart : ∀ q ∈ p.levels, q.KeysApart) (s : Session σ) :
    (start p rows permits s.store).root.outcome answer g = (stitchRows exec g p rows s).1 := by
  rw [stitchRows_eq_nest g hanswer, ← p.nest_level answer g []]
  exact Level.outcome_start answer g (nodesApart_of_levels hapart)

/-- As long as there is no result, somebody can go on: the permits that are not free are all in use. -/
theorem exists_step {store : σ} (hmove : (start p rows permits store).root.Moves answer g count
    (start p rows permits store).shared m.root m.shared) (hpermits : 1 ≤ permits) (hnone : m.result? = none) :
    ∃ place m', m.step exec g place = some m' := by
  have hused : m.shared.permits + m.root.inFlight = permits := by
    have hmoved := hmove.permits
    have hstart : (start p rows permits store).root.inFlight = 0 := Level.inFlight_start _
    rw [hstart] at hmoved
    exact hmoved
  rcases hmove.sound.progress exec g m.shared with hresult | ⟨place, ⟨root, shared⟩, hstep⟩ | ⟨hzero, hidle⟩
  · rw [result?] at hnone
    simp [hnone] at hresult
  · refine ⟨place, ⟨shared, root⟩, ?_⟩
    rw [step, hstep]
    rfl
  · omega

theorem root_of_result? {r : Except Fault (List Row)} (h : m.result? = some r) : m.root = .finished r := by
  rw [result?] at h
  cases hm : m.root with
  | finished r' =>
    rw [hm] at h
    cases h
    rfl
  | _ =>
    rw [hm] at h
    cases h

end Machine

include hanswer in
/-- Whatever order the loads take their steps in, they take no more than a certain number of them, can go on until there
is a result, and come to the rows or the failure of stitching in the order of the plan, after the same queries. -/
theorem run_schedule {p : Plan} (hapart : ∀ q ∈ p.levels, q.KeysApart) {permits : Nat} (hpermits : 1 ≤ permits)
    (rows : List Row) (s : Session σ) :
    (∃ bound, ∀ schedule m, (Machine.start p rows permits s.store).run exec g schedule = some m →
        schedule.length ≤ bound) ∧
      ∀ schedule m, (Machine.start p rows permits s.store).run exec g schedule = some m →
        (m.result? = none → ∃ place m', m.step exec g place = some m') ∧
          ∀ r, m.result? = some r → Except.Agree Rows.Same r (stitchRows exec g p rows s).1 ∧
            m.shared.issued ~ (stitchRows exec g p rows s).2.queriesAfter s := by
  have hmoves : ∀ schedule m, (Machine.start p rows permits s.store).run exec g schedule = some m → _ :=
    fun schedule m => Machine.moves_of_run hanswer (Machine.sound_start hapart s.store)
  refine ⟨⟨(p.left answer g rows).length, fun schedule m hrun => ?_⟩, fun schedule m hrun => ⟨?_, fun r hr => ?_⟩⟩
  · obtain ⟨es, hcount, hleft, -⟩ := (hmoves schedule m hrun).left
    rw [← Machine.left_start s.store, hleft.length_eq, List.length_append]
    omega
  · exact Machine.exists_step (hmoves schedule m hrun) hpermits
  · have hmove := hmoves schedule m hrun
    have houtcome := hmove.outcome
    obtain ⟨es, -, hleft, hissued⟩ := hmove.left
    rw [Machine.root_of_result? hr, Machine.outcome_start hanswer hapart] at houtcome
    rw [Machine.root_of_result? hr, LevelState.left, List.append_nil, Machine.left_start] at hleft
    refine ⟨houtcome, ?_⟩
    have hasked := (asked_stitchRows (g := g) hanswer hapart rows s).map (·.2)
    have hes : m.shared.issued = es.reduceOption := hissued
    rw [← Session.queriesAfter_eq, ← Plan.reduceOption_left] at hasked
    rw [hes]
    exact (hleft.symm.filterMap id).trans hasked.symm

end Runs

end Moves

namespace Bookshelf

/-- Books with their authors and their tags. -/
def siblingRequest : Value :=
  .object [("books", .object [("include", .object [("author", .bool true), ("tags", .bool true)])])]

def siblingPlan : Plan :=
  match compile graph "authors" siblingRequest 2 with
  | .ok p => p
  | .error _ => .empty "authors" 0

/-- Has one row of every table. -/
def oneOfEach (q : Query) : Answer :=
  if q.table = "books" then .ok (.rows [[("id", .int 1), ("author_id", .int 1)]])
  else if q.table = "book_tags" then .ok (.rows [[("book_id", .int 1), ("tag_id", .int 1)]])
  else .ok (.rows [[("id", .int 1)]])

/-- Both loads of the level below the books have a call in progress before either is answered. -/
def schedule : List (List Nat) :=
  [[0], [0], [0], [0], [], [0, 1], [0, 0], [0, 1], [0, 0], [0, 1], [0, 1], [0, 1], [0, 1], [0, 0], [0, 0], [0], [0], []]

end Bookshelf

theorem run_schedule_bookshelf :
    ∃ m r, (Machine.start Bookshelf.siblingPlan [[("id", .int 1)]] 2 ()).run (.ofFunction Bookshelf.oneOfEach)
          Bookshelf.graph Bookshelf.schedule = some m ∧
      m.result? = some r ∧
      Except.Agree Rows.Same r (stitchRows (.ofFunction Bookshelf.oneOfEach) Bookshelf.graph Bookshelf.siblingPlan
        [[("id", .int 1)]] { store := () }).1 := by
  obtain ⟨r, hr⟩ := Option.isSome_iff_exists.mp (by decide +kernel :
    (((Machine.start Bookshelf.siblingPlan [[("id", .int 1)]] 2 ()).run (.ofFunction Bookshelf.oneOfEach)
      Bookshelf.graph Bookshelf.schedule).bind Machine.result?).isSome = true)
  obtain ⟨m, hrun, hr⟩ := Option.bind_eq_some_iff.mp hr
  have hapart : ∀ q ∈ Bookshelf.siblingPlan.levels, q.KeysApart := by decide
  have hanswer : ∀ s q, (Executor.ofFunction Bookshelf.oneOfEach s (.batch q)).1 = Bookshelf.oneOfEach (.batch q) :=
    fun _ _ => rfl
  have hall := run_schedule (g := Bookshelf.graph) hanswer hapart (by decide : 1 ≤ 2) [[("id", .int 1)]] { store := () }
  exact ⟨m, r, hrun, hr, ((hall.2 _ m hrun).2 r hr).1⟩

end RelatedRows

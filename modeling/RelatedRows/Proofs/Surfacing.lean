import RelatedRows.Proofs.Batches
import RelatedRows.Proofs.Recording
import RelatedRows.Proofs.Sequential

/-!
# What a run fails with

Over a store that may answer the same query differently every time, and in whichever order the steps are taken,
stitching fails just when it has heard a failure, and then with one of those that it has heard.

* `Fault.IsOf`: a failure of the store, with a place in a plan.
* `Task.Settling`, `LevelState.Settling`: a run that can only fail with what it has heard.
* `Task.Failed`, `LevelState.Failed`: a run that can only fail.
* `Surfaces`: a stretch of a run in which no failure that is heard gets lost.
* `LevelState.Advances.surfaces`: every step is one.
* `decides_stitchRowsPaced`: the failures of a whole run.
-/

namespace RelatedRows

/-- A failure of the store, with the place in a plan where it was heard. -/
def Fault.IsOf (heard : Failure → Prop) (fault : Fault) : Prop :=
  ∃ entity relation depth f, fault = .query entity relation depth f ∧ heard f

theorem Fault.IsOf.mono {heard heard' : Failure → Prop} {fault : Fault} (h : fault.IsOf heard)
    (hmono : ∀ f, heard f → heard' f) : fault.IsOf heard' := by
  obtain ⟨entity, relation, depth, f, rfl, hf⟩ := h
  exact ⟨entity, relation, depth, f, rfl, hmono f hf⟩

/-- A record has a failure as the answer to some query. -/
def Transcript.Fails (t : Transcript) (f : Failure) : Prop :=
  ∃ q, (q, .error f) ∈ t

theorem Transcript.fails_append {t t' : Transcript} {f : Failure} : (t ++ t').Fails f ↔ t.Fails f ∨ t'.Fails f := by
  simp only [Fails, List.mem_append, exists_or]

theorem Transcript.fails_single {q : Query} {a : Answer} {f : Failure} : Fails [(q, a)] f ↔ a = .error f := by
  simp [Fails, eq_comm]

/-- A run fails just if a query fails in it, and then with a failure that was heard. -/
structure Transcript.Decides {α : Type} (given : Transcript) (run : Except Fault α) : Prop where
  heard : ∀ fault, run = .error fault → fault.IsOf given.Fails
  felt : ∀ f, given.Fails f → ∃ fault, run = .error fault

/-! ## Loads -/

section Loads

variable {σ : Type} {exec : Executor σ} {g : Graph} {n : PlanNode} {uses : List (String × List String)}
  {heard : Failure → Prop} {rows rows' : List Row} {s s' s'' : Shared (σ × Transcript)} {t t' : Task}

/-- What is left of the load of a node over the rows of its level.  As long as it has not ended, it may still look at
their keys. -/
inductive Task.Settling (exec : Executor σ) (uses : List (String × List String)) (heard : Failure → Prop) (n : PlanNode)
    (rows : List Row) : Task → Prop
  | waiting (hrows : ∀ row ∈ rows, row.Keyable n.step.relation.sourceKey) : Settling exec uses heard n rows .waiting
  | running {load : Load} (hrows : ∀ row ∈ rows, row.Keyable n.step.relation.sourceKey)
    (hload : load.Settling exec.Answers n.step (n.LinksAny uses)) : Settling exec uses heard n rows (.running load)
  | calling {q : BatchQuery} {next : Answer → Load}
    (hrows : ∀ row ∈ rows, row.Keyable n.step.relation.sourceKey)
    (hload : (Dialogue.ask q next).Settling exec.Answers n.step (n.LinksAny uses)) :
    Settling exec uses heard n rows (.calling q next)
  | failed {fault : Fault} (h : fault.IsOf heard) : Settling exec uses heard n rows (.running (.done (.error fault)))
  | finished {r : Except Fault Attachment} (hfail : ∀ fault, r = .error fault → fault.IsOf heard)
    (hfound : ∀ a, r = .ok a → ∀ use ∈ uses, use.1 = n.step.relation.target →
      ∀ row ∈ a.found, row.AllAt Value.isScalar use.2) : Settling exec uses heard n rows (.finished r)

/-- A load that has heard a failure. -/
def Task.Failed : Task → Prop
  | .running (.done (.error _)) => True
  | .finished (.error _) => True
  | _ => False

theorem Task.Settling.mono {heard' : Failure → Prop} (h : t.Settling exec uses heard n rows)
    (hheard : ∀ f, heard f → heard' f)
    (hrows : rows'.map (Row.spelling n.step.relation.sourceKey) = rows.map (Row.spelling n.step.relation.sourceKey)) :
    t.Settling exec uses heard' n rows' := by
  have hkeyable (h : ∀ row ∈ rows, row.Keyable n.step.relation.sourceKey) :
      ∀ row ∈ rows', row.Keyable n.step.relation.sourceKey := by
    intro row hrow
    obtain ⟨old, hold, hspelling⟩ := List.mem_map.mp (hrows ▸ List.mem_map_of_mem hrow)
    obtain ⟨k, hk⟩ := h old hold
    exact ⟨k, by rw [← hk, Row.key?, Row.key?, hspelling]⟩
  cases h with
  | waiting h => exact .waiting (hkeyable h)
  | running h hload => exact .running (hkeyable h) hload
  | calling h hload => exact .calling (hkeyable h) hload
  | failed h => exact .failed (h.mono hheard)
  | finished hfail hfound => exact .finished (fun fault hr => (hfail fault hr).mono hheard) hfound

/-- In a stretch of a run answers are recorded; what was heard before is kept, and a failure among them is felt. -/
structure Surfaces (s s' : Shared (σ × Transcript)) (failed failed' : Prop) : Prop where
  record : ∃ given, s'.store.2 = s.store.2 ++ given
  kept : failed → failed'
  felt : ∀ f, s'.store.2.Fails f → s.store.2.Fails f ∨ failed'

namespace Surfaces

variable {failed failed' : Prop}

/-- Nothing is asked. -/
theorem of_eq (h : s'.store = s.store) (hkept : failed → failed') : Surfaces s s' failed failed' where
  record := ⟨[], by rw [h, List.append_nil]⟩
  kept := hkept
  felt f hf := .inl (h ▸ hf)

/-- One query is answered. -/
theorem of_answer {q : Query} {a : Answer} (h : s'.store.2 = s.store.2 ++ [(q, a)]) (hkept : failed → failed')
    (hfail : ∀ f, a = .error f → failed') : Surfaces s s' failed failed' where
  record := ⟨_, h⟩
  kept := hkept
  felt f hf := by
    rw [h, Transcript.fails_append, Transcript.fails_single] at hf
    exact hf.imp_right (hfail f)

theorem trans {failed'' : Prop} (h : Surfaces s s' failed failed') (h' : Surfaces s' s'' failed' failed'') :
    Surfaces s s'' failed failed'' where
  record := by
    obtain ⟨given, hgiven⟩ := h.record
    obtain ⟨given', hgiven'⟩ := h'.record
    exact ⟨given ++ given', by rw [hgiven', hgiven, List.append_assoc]⟩
  kept := h'.kept ∘ h.kept
  felt f hf := by
    rcases h'.felt f hf with hf | hfailed
    · exact (h.felt f hf).imp_right h'.kept
    · exact .inr hfailed

theorem fails (h : Surfaces s s' failed failed') (f : Failure) (hf : s.store.2.Fails f) : s'.store.2.Fails f := by
  obtain ⟨given, hgiven⟩ := h.record
  rw [hgiven]
  exact Transcript.fails_append.mpr (.inl hf)

/-- What is felt in a part is felt in the whole. -/
theorem lift {whole whole' : Prop} (h : Surfaces s s' failed failed') (hkept : whole → failed ∨ whole')
    (hwhole : failed' → whole') : Surfaces s s' whole whole' where
  record := h.record
  kept hw := (hkept hw).elim (fun hf => hwhole (h.kept hf)) id
  felt f hf := (h.felt f hf).imp_right hwhole

end Surfaces

/-- A load takes a step: it looks at the rows, calls the store, hears an answer, or ends. -/
theorem Task.surfaces_step
    (hload : ∀ rows : List Row, (∀ row ∈ rows, row.Keyable n.step.relation.sourceKey) →
      (n.load g rows).Settling exec.Answers n.step (n.LinksAny uses))
    (ht : t.Settling exec uses s.store.2.Fails n rows)
    (hstep : t.step exec.recorded g n rows s = some (t', rows', s')) :
    t'.Settling exec uses s'.store.2.Fails n rows' ∧ Surfaces s s' t.Failed t'.Failed := by
  cases ht with
  | waiting hrows =>
    cases hstep
    exact ⟨.running hrows (hload rows hrows), .of_eq rfl False.elim⟩
  | @running load hrows hsettling =>
    cases hsettling with
    | @linked l hl =>
      cases hstep
      obtain ⟨a, ha⟩ := hl.attachment rows hrows
      have hresult : Except.ok l >>= (·.attachment rows) = Except.ok (ε := Fault) a := ha
      rw [hresult]
      refine ⟨.finished (fun fault h => by cases h) fun b hb => ?_, .of_eq rfl False.elim⟩
      cases hb
      obtain ⟨links, -, heq⟩ := Except.bind_eq_ok ha
      cases heq
      exact hl.found
    | @ask q next hfail hnext =>
      cases advances_of_step hstep with
      | asked => exact ⟨.calling hrows (.ask hfail hnext), .of_eq rfl False.elim⟩
  | @calling q next hrows hsettling =>
    obtain ⟨a, ha⟩ : ∃ a, (exec s.store.1 (.batch q)).1 = a := ⟨_, rfl⟩
    have hgiven : exec.Answers q a := ⟨s.store.1, ha⟩
    have hanswered : t' = .running (next a) ∧ rows' = rows ∧ s'.store.2 = s.store.2 ++ [(.batch q, a)] := by
      cases hstep
      rw [← ha]
      exact ⟨rfl, rfl, rfl⟩
    obtain ⟨rfl, rfl, hrecord⟩ := hanswered
    cases hsettling with
    | ask hfail hnext =>
      cases a with
      | ok v => exact ⟨.running hrows (hnext v hgiven), .of_answer hrecord False.elim fun f hf => by cases hf⟩
      | error f =>
        have hheard : s'.store.2.Fails f := by
          rw [hrecord]
          exact Transcript.fails_append.mpr (.inr (Transcript.fails_single.mpr rfl))
        rw [hfail f hgiven]
        exact ⟨.failed ⟨_, _, _, f, rfl, hheard⟩, .of_answer hrecord False.elim fun _ _ => trivial⟩
  | failed h =>
    cases hstep
    exact ⟨.finished (fun fault hr => by cases hr; exact h) (fun a ha => by cases ha), .of_eq rfl id⟩
  | finished hfail hfound => cases hstep

end Loads

/-! ## Levels -/

/-- What is left of a level of a plan and of those below it. -/
inductive LevelState.Settling {σ : Type} (exec : Executor σ) (p : Plan) (heard : Failure → Prop) : LevelState → Prop
  | loading {l : Level} {tasks : List Task} (hof : l.Of p)
    (htasks : List.Forall₂ (fun n t => Task.Settling exec p.keyUses heard n l.rows t) l.nodes tasks) :
    Settling exec p heard (.loading l tasks)
  | nesting {path : List String} {rows : List Row} {loaded : List Loaded} {below : List LevelState}
    (hbelow : ∀ b ∈ below, Settling exec p heard b) : Settling exec p heard (.nesting path rows loaded below)
  | finished {r : Except Fault (List Row)} (h : ∀ fault, r = .error fault → fault.IsOf heard) :
    Settling exec p heard (.finished r)

/-- A level with a failure in it. -/
inductive LevelState.Failed : LevelState → Prop
  | loading {l : Level} {tasks : List Task} {t : Task} (ht : t ∈ tasks) (h : t.Failed) : Failed (.loading l tasks)
  | nesting {path : List String} {rows : List Row} {loaded : List Loaded} {below : List LevelState} {b : LevelState}
    (hb : b ∈ below) (h : Failed b) : Failed (.nesting path rows loaded below)
  | finished {fault : Fault} : Failed (.finished (.error fault))

section Levels

variable {σ : Type} {exec : Executor σ} {g : Graph} {p : Plan} {heard heard' : Failure → Prop}
  {s s' : Shared (σ × Transcript)} {st st' : LevelState}

theorem LevelState.Settling.mono (h : st.Settling exec p heard) (hheard : ∀ f, heard f → heard' f) :
    st.Settling exec p heard' := by
  induction h with
  | loading hof htasks => exact .loading hof (htasks.imp fun n t ht => ht.mono hheard rfl)
  | nesting _ ih => exact .nesting ih
  | finished h => exact .finished fun fault hr => (h fault hr).mono hheard

theorem Level.settling_start {l : Level} (hof : l.Of p) (hscalar : l.Scalar) : l.start.Settling exec p heard := by
  rw [start]
  split
  · exact .finished fun fault h => by cases h
  · refine .loading hof (List.forall₂_map_right_iff.mpr (List.forall₂_same.mpr fun n hn => .waiting ?_))
    exact fun row hrow => (hscalar row hrow n hn).keyable

/-- A level goes on after its loads. -/
theorem LevelState.surfaces_ofLoads (hfits : p.Fits g) {l : Level} {results : List (Except Fault Attachment)}
    (h : (LevelState.loading l (results.map .finished)).Settling exec p s.store.2.Fails) :
    (ofLoads l results).Settling exec p s.store.2.Fails ∧
      Surfaces s s (LevelState.loading l (results.map .finished)).Failed (ofLoads l results).Failed := by
  cases h with
  | loading hof htasks =>
    have hloads := List.forall₂_map_right_iff.mp htasks
    have hlen := hloads.length_eq.symm
    cases has : results.mapM id with
    | error fault =>
      rw [ofLoads_of_error hlen has]
      obtain ⟨n, -, hn⟩ := Except.exists_of_forall₂_right hloads (Except.mem_of_mapM_id has)
      refine ⟨.finished fun fault' h => ?_, .of_eq rfl fun _ => .finished⟩
      cases h
      cases hn with
      | finished hfail _ => exact hfail fault rfl
    | ok as =>
      rw [ofLoads_of_ok hlen has]
      obtain rfl := Except.eq_map_of_mapM_id has
      refine ⟨.nesting fun b hb => ?_, .of_eq rfl fun hfailed => ?_⟩
      · obtain ⟨⟨n, a⟩, hna, rfl⟩ := List.mem_map.mp hb
        have hn : n ∈ l.nodes := (List.of_mem_zip hna).1
        cases List.forall₂_zip (List.forall₂_map_right_iff.mp hloads) hna with
        | finished _ hfound =>
          have hscalar := hof.scalar_below hfits hn (hfound a rfl) l.path
          exact Level.settling_start (hof.below (n := (n, a)) hn l.path) hscalar
      · cases hfailed with
        | loading ht hfailed =>
          obtain ⟨r, hr, rfl⟩ := List.mem_map.mp ht
          obtain ⟨a, -, rfl⟩ := List.mem_map.mp hr
          exact hfailed.elim

/-- A level goes on after the levels below it. -/
theorem LevelState.surfaces_ofBelow {path : List String} {rows : List Row} {loaded : List Loaded}
    {results : List (Except Fault (List Row))}
    (h : (LevelState.nesting path rows loaded (results.map .finished)).Settling exec p s.store.2.Fails) :
    (ofBelow path rows loaded results).Settling exec p s.store.2.Fails ∧
      Surfaces s s (LevelState.nesting path rows loaded (results.map .finished)).Failed
        (ofBelow path rows loaded results).Failed := by
  rw [ofBelow, LoadedLevel.finish]
  cases h with
  | nesting hbelow =>
    cases hrows : results.mapM id with
    | error fault =>
      refine ⟨.finished fun fault' h => ?_, .of_eq rfl fun _ => .finished⟩
      cases h
      cases hbelow _ (List.mem_map_of_mem (Except.mem_of_mapM_id hrows)) with
      | finished hfail => exact hfail fault rfl
    | ok rs =>
      obtain rfl := Except.eq_map_of_mapM_id hrows
      refine ⟨.finished fun fault h => ?_, .of_eq rfl fun hfailed => ?_⟩
      · cases h
      · cases hfailed with
        | nesting hb hfailed =>
          obtain ⟨r, hr, rfl⟩ := List.mem_map.mp hb
          obtain ⟨rs', -, rfl⟩ := List.mem_map.mp hr
          cases hfailed

/-! ## Steps -/

theorem Task.spelling_step {n : PlanNode} {rows rows' : List Row} {t t' : Task}
    (hstep : t.step exec.recorded g n rows s = some (t', rows', s')) {columns : List String} (hkey : n.key ∉ columns) :
    rows'.map (Row.spelling columns) = rows.map (Row.spelling columns) := by
  cases advances_of_step hstep with
  | begun | asked | answered => rfl
  | ended r => exact spelling_rowsAfter hkey rows r

/-- Of the elements of a list only one is lost when it is replaced. -/
theorem eq_or_mem_set {α : Type} {xs : List α} {i : Nat} {x u : α} (hx : xs[i]? = some x) (hu : u ∈ xs) (y : α) :
    u = x ∨ u ∈ xs.set i y := by
  obtain ⟨j, hj⟩ := List.getElem?_of_mem hu
  by_cases hji : i = j
  · subst hji
    exact .inl (Option.some.inj (hj.symm.trans hx))
  · refine .inr (List.mem_of_getElem? (i := j) ?_)
    rw [List.getElem?_set_ne hji, hj]

theorem Level.Of.nodesApart {l : Level} (hof : l.Of p) (hapart : ∀ q ∈ p.levels, q.KeysApart) {n : PlanNode}
    (hn : n ∈ l.nodes) : NodesApart l.nodes := by
  obtain ⟨q, hq, hnodes⟩ := hof (List.ne_nil_of_mem hn)
  rw [← hnodes]
  exact nodesApart_of_levels fun r hr => hapart r (Plan.levels_trans hq hr)

variable (hg : ∀ r ∈ g.relations, r.Consistent) (hfits : p.Fits g)
  (hreplies : RepliesAmong exec.Answers p.keyUses)

include hg hfits hreplies

theorem Level.Of.settling_load {l : Level} (hof : l.Of p) {n : PlanNode} (hn : n ∈ l.nodes) {rows : List Row}
    (hrows : ∀ row ∈ rows, row.Keyable n.step.relation.sourceKey) :
    (n.load g rows).Settling exec.Answers n.step (n.LinksAny p.keyUses) := by
  obtain ⟨q, hq, hnq⟩ := hof.exists_level hn
  refine PlanNode.settling_load hreplies (fun use huse => ?_) hrows (hg _ (hfits q hq n hnq).mem).exists_join
  exact List.mem_flatMap.mpr ⟨q, hq, List.mem_flatMap.mpr ⟨n, hnq, huse⟩⟩

variable (hapart : ∀ q ∈ p.levels, q.KeysApart)

include hapart

/-- In every step, what is heard is recorded, and a failure that was heard is kept. -/
theorem LevelState.Advances.surfaces (hstep : st.Advances exec.recorded g s st' s')
    (h : st.Settling exec p s.store.2.Fails) :
    st'.Settling exec p s'.store.2.Fails ∧ Surfaces s s' st.Failed st'.Failed := by
  induction hstep with
  | loaded l results s => exact surfaces_ofLoads hfits h
  | joined path rows loaded results s => exact surfaces_ofBelow h
  | @load l tasks i n t t' rows s s' hn ht htask =>
    cases h with
    | loading hof htasks =>
      have hmem := List.mem_of_getElem? hn
      have hload : t.Settling exec p.keyUses s.store.2.Fails n l.rows := rel_of_forall₂ htasks hn ht
      obtain ⟨hload', hsurfaces⟩ :=
        Task.surfaces_step (fun rows => hof.settling_load hg hfits hreplies hmem) hload htask
      refine ⟨.loading hof (forall₂_set_of htasks hn hload' fun j m u hne hm hu => ?_), hsurfaces.lift ?_ ?_⟩
      · have hkey := (hof.nodesApart hapart hmem).key_notMem hn hm hne
        exact hu.mono hsurfaces.fails (Task.spelling_step htask hkey)
      · rintro (⟨hu, hfailed⟩ | _ | _)
        rcases eq_or_mem_set ht hu t' with rfl | hu
        · exact .inl hfailed
        · exact .inr (.loading hu hfailed)
      · exact .loading (List.mem_set (List.getElem?_eq_some_iff.mp ht).1 t')
  | @lower path rows loaded below i b b' s s' hb _ ih =>
    cases h with
    | nesting hsettling =>
      obtain ⟨hb', hsurfaces⟩ := ih (hsettling b (List.mem_of_getElem? hb))
      refine ⟨.nesting fun c hc => ?_, hsurfaces.lift ?_ ?_⟩
      · rcases List.mem_or_eq_of_mem_set hc with hc | rfl
        · exact (hsettling c hc).mono hsurfaces.fails
        · exact hb'
      · rintro (_ | ⟨hc, hfailed⟩ | _)
        rcases eq_or_mem_set hb hc b' with rfl | hc
        · exact .inl hfailed
        · exact .inr (.nesting hc hfailed)
      · exact .nesting (List.mem_set (List.getElem?_eq_some_iff.mp hb).1 b')

/-! ## Runs -/

theorem Machine.surfaces_of_reaches {m m' : Machine (σ × Transcript)} (h : m.Reaches exec.recorded g m')
    (hm : m.root.Settling exec p m.shared.store.2.Fails) :
    m'.root.Settling exec p m'.shared.store.2.Fails ∧ Surfaces m.shared m'.shared m.root.Failed m'.root.Failed := by
  refine h.preserves (I := fun m' => m'.root.Settling exec p m'.shared.store.2.Fails ∧
    Surfaces m.shared m'.shared m.root.Failed m'.root.Failed) ?_ ⟨hm, .of_eq rfl id⟩
  rintro place a b ⟨ha, hsurfaces⟩ hstep
  obtain ⟨hb, hsurfaces'⟩ := (advances_of_step hstep).surfaces hg hfits hreplies hapart ha
  exact ⟨hb, hsurfaces.trans hsurfaces'⟩

/-- At whatever pace the store answers, stitching fails just if a query fails, and with a failure that was heard. -/
theorem decides_stitchRowsPaced {rows : List Row} (hrows : p.Scalar rows) {concurrency : Nat} (hc : 1 ≤ concurrency)
    (s : Session (σ × Transcript)) (hs : ∀ f, ¬s.store.2.Fails f) :
    ∃ given, (stitchRowsPaced exec.recorded g concurrency p rows s).2.store.2 = s.store.2 ++ given ∧
      given.Decides (stitchRowsPaced exec.recorded g concurrency p rows s).1 := by
  obtain ⟨m, hreaches, hresult, hstore⟩ := reaches_stitchRowsPaced exec.recorded g p rows s hc
  have hstart : (p.level [] rows).start.Settling exec p s.store.2.Fails :=
    Level.settling_start (p.of_level rows _ (List.mem_singleton.mpr rfl)) hrows
  obtain ⟨hsettling, hsurfaces⟩ := Machine.surfaces_of_reaches hg hfits hreplies hapart hreaches hstart
  obtain ⟨given, hgiven⟩ := hsurfaces.record
  have hrecord : m.shared.store.2 = s.store.2 ++ given := hgiven
  have hfails : ∀ f, m.shared.store.2.Fails f ↔ given.Fails f := by
    intro f
    rw [hrecord, Transcript.fails_append]
    exact or_iff_right (hs f)
  rw [Machine.root_of_result? hresult] at hsettling hsurfaces
  refine ⟨given, by rw [← hstore, hrecord], ?_, fun f hf => ?_⟩
  · cases hsettling with
    | finished h => exact fun fault hr => (h fault hr).mono fun f hf => (hfails f).mp hf
  · rcases hsurfaces.felt f ((hfails f).mpr hf) with hold | hfailed
    · exact absurd hold (hs f)
    · generalize (stitchRowsPaced exec.recorded g concurrency p rows s).1 = r at hfailed
      cases hfailed
      exact ⟨_, rfl⟩

end Levels

end RelatedRows

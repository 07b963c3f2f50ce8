import Mathlib.Data.List.Nodup
import Mathlib.Data.List.Perm.Basic
import RelatedRows.Proofs.Requests
import RelatedRows.Proofs.Schedules
import RelatedRows.Proofs.Settling
import RelatedRows.Proofs.Tables

/-!
# Stitching in another order

What stitching yields does not depend on the order in which a request lists its relations, as long as no relation
writes a column that another one of its level is loaded by.

* `Plan.nest_eq_ok`: a level is stitched if each of its nodes has a column to write (`PlanNode.columnFor`).
* `PlanNode.columnFor_branch`: the column of a node, when the nodes below it change places.
* `Plan.Reorders.nest`: a plan in another order stitches the same rows, up to the order of columns.
* `stitch_reorders`: so does a request in another order.
* `Clash`: tables whose derived relations write into the keys of each other, so that their order does matter.
-/

namespace RelatedRows

/-- Two computations have related results or both fail, each with a failure of its own. -/
inductive Except.Concur {ε α β : Type} (R : α → β → Prop) : Except ε α → Except ε β → Prop
  | ok {a : α} {b : β} (h : R a b) : Concur R (.ok a) (.ok b)
  | error (e f : ε) : Concur R (.error e) (.error f)

theorem Except.Concur.of_ok {ε α β : Type} {R : α → β → Prop} {x : Except ε α} {y : Except ε β}
    (h : ∀ a, x = .ok a → ∃ b, y = .ok b ∧ R a b) (h' : ∀ b, y = .ok b → ∃ a, x = .ok a) : Concur R x y := by
  cases x with
  | ok a =>
    obtain ⟨b, rfl, hab⟩ := h a rfl
    exact .ok hab
  | error e =>
    cases y with
    | error f => exact .error e f
    | ok b =>
      obtain ⟨a, ha⟩ := h' b rfl
      cases ha

/-! ## Columns in another order -/

theorem Row.lookup_setAll_perm {row : Row} {es fs : List (String × Value)} (h : es.Perm fs)
    (hnodup : (es.map Prod.fst).Nodup) (c : String) : (row.setAll es).lookup c = (row.setAll fs).lookup c := by
  by_cases hc : c ∈ es.map Prod.fst
  · obtain ⟨e, he, rfl⟩ := List.mem_map.mp hc
    have honly : ∀ e' ∈ es, e'.1 = e.1 → e'.2 = e.2 := by
      intro e' he' heq
      rw [List.inj_on_of_nodup_map hnodup he' he heq]
    rw [lookup_setAll_of_mem honly hc, lookup_setAll_of_mem (fun e' he' => honly e' (h.mem_iff.mpr he'))
      ((h.map _).mem_iff.mp hc)]
  · have hc' : c ∉ fs.map Prod.fst := fun hmem => hc ((h.map _).mem_iff.mpr hmem)
    rw [lookup_setAll_of_notMem hc, lookup_setAll_of_notMem hc']

/-- Columns with different keys may be written in any order. -/
theorem writeColumns_perm {cs ds : List (String × List Value)} {rows : List Row} (h : cs.Perm ds)
    (hlength : ∀ c ∈ cs, c.2.length = rows.length) (hnodup : (cs.map Prod.fst).Nodup) :
    Rows.Same (writeColumns cs rows) (writeColumns ds rows) := by
  have hlength' : ∀ d ∈ ds, d.2.length = rows.length := fun d hd => hlength d (h.mem_iff.mpr hd)
  refine Except.forall₂_of_getElem? ?_ fun i x y hx hy => ?_
  · rw [length_writeColumns hlength, length_writeColumns hlength']
  · rw [getElem?_writeColumns hlength] at hx
    rw [getElem?_writeColumns hlength'] at hy
    obtain ⟨row, hrow, rfl⟩ := Option.map_eq_some_iff.mp hx
    rw [hrow] at hy
    cases hy
    refine Row.Same.of_lookup fun c => Row.lookup_setAll_perm (h.map _) ?_ c
    rw [← cellsAt, map_fst_cellsAt]
    exact hnodup

/-- Columns under one key with values that look the same. -/
def SameColumn (c d : String × List Value) : Prop :=
  c.1 = d.1 ∧ List.Forall₂ Value.Same c.2 d.2

theorem SameColumn.refl (c : String × List Value) : SameColumn c c :=
  ⟨rfl, List.forall₂_same.mpr fun v _ => .refl v⟩

theorem writeColumns_same {cs ds : List (String × List Value)} {rows rows' : List Row}
    (h : List.Forall₂ SameColumn cs ds) (hrows : Rows.Same rows rows') :
    Rows.Same (writeColumns cs rows) (writeColumns ds rows') := by
  induction h generalizing rows rows' with
  | nil => exact hrows
  | @cons c d cs ds hcd _ ih =>
    have hfirst : Rows.Same (writeColumn c.1 c.2 rows) (writeColumn d.1 d.2 rows') := by
      rw [hcd.1]
      exact writeColumn_same hrows hcd.2
    exact ih hfirst

/-! ## What a node writes -/

section Columns

variable (answer : BatchQuery → Answer) (g : Graph)

/-- The column that a node writes into rows that no other node has touched. -/
def PlanNode.columnFor (n : PlanNode) (rows : List Row) : Except Fault (String × List Value) := do
  let a ← n.attach answer g rows
  let below ← n.nest answer g a.attached
  return Loaded.column (n, a) below

theorem PlanNode.columnFor_eq_ok {n : PlanNode} {rows : List Row} {c : String × List Value} :
    n.columnFor answer g rows = .ok c ↔ ∃ a below, n.attach answer g rows = .ok a ∧
      n.nest answer g a.attached = .ok below ∧ c = Loaded.column (n, a) below := by
  constructor
  · intro h
    obtain ⟨a, ha, h⟩ := Except.bind_eq_ok h
    obtain ⟨below, hbelow, h⟩ := Except.bind_eq_ok h
    cases h
    exact ⟨a, below, ha, hbelow, rfl⟩
  · rintro ⟨a, below, ha, hbelow, rfl⟩
    simp only [columnFor, ha, bind, Except.bind, hbelow]
    rfl

theorem PlanNode.length_columnFor {n : PlanNode} {rows : List Row} {c : String × List Value}
    (h : n.columnFor answer g rows = .ok c) : c.1 = n.key ∧ c.2.length = rows.length := by
  obtain ⟨a, below, ha, -, rfl⟩ := (columnFor_eq_ok answer g).mp h
  exact ⟨rfl, (Loaded.length_column _ _).trans (length_links ha)⟩

theorem columns_of_mapM {ns : List PlanNode} {rows : List Row} {cs : List (String × List Value)}
    (h : ns.mapM (PlanNode.columnFor answer g · rows) = .ok cs) :
    cs.map Prod.fst = ns.map PlanNode.key ∧ ∀ c ∈ cs, c.2.length = rows.length := by
  have hall := (Except.mapM_eq_ok_iff.mp h).imp fun n c hc => PlanNode.length_columnFor answer g hc
  clear h
  induction hall with
  | nil => simp
  | cons hc _ ih =>
    refine ⟨by rw [List.map_cons, List.map_cons, hc.1, ih.1], fun d hd => ?_⟩
    rcases List.mem_cons.mp hd with rfl | hd
    · exact hc.2
    · exact ih.2 d hd

theorem mapM_columnFor {ns : List PlanNode} {rows : List Row} {cs : List (String × List Value)} :
    ns.mapM (PlanNode.columnFor answer g · rows) = .ok cs ↔ ∃ as belows,
      ns.mapM (PlanNode.attach answer g · rows) = .ok as ∧
      (ns.zip as).mapM (fun n => n.1.nest answer g n.2.attached) = .ok belows ∧
      cs = ((ns.zip as).zip belows).map fun c => Loaded.column c.1 c.2 := by
  simp only [Except.mapM_eq_ok_iff]
  induction ns generalizing cs with
  | nil =>
    constructor
    · rintro ⟨⟩
      exact ⟨[], [], .nil, .nil, rfl⟩
    · rintro ⟨as, belows, ⟨⟩, -, rfl⟩
      exact .nil
  | cons n ns ih =>
    constructor
    · rintro (_ | ⟨hc, hcs⟩)
      obtain ⟨a, below, ha, hbelow, rfl⟩ := (PlanNode.columnFor_eq_ok answer g).mp hc
      obtain ⟨as, belows, has, hbelows, rfl⟩ := ih.mp hcs
      exact ⟨a :: as, below :: belows, .cons ha has, .cons hbelow hbelows, rfl⟩
    · rintro ⟨_, _, (_ | ⟨ha, has⟩), hbelows, rfl⟩
      rw [List.zip_cons_cons] at hbelows
      cases hbelows with
      | cons hbelow hbelows =>
        exact .cons ((PlanNode.columnFor_eq_ok answer g).mpr ⟨_, _, ha, hbelow, rfl⟩)
          (ih.mpr ⟨_, _, has, hbelows, rfl⟩)

/-- A level is stitched if all its nodes have their columns, and then these are written. -/
theorem Plan.nest_eq_ok {p : Plan} (hp : p.KeysApart) {rows out : List Row} (hrows : ¬rows.isEmpty = true) :
    p.nest answer g rows = .ok out ↔
      ∃ cs, p.nodes.mapM (PlanNode.columnFor answer g · rows) = .ok cs ∧ out = writeColumns cs rows := by
  rw [nest_eq answer g hp hrows]
  simp only [mapM_columnFor]
  constructor
  · intro h
    obtain ⟨as, has, h⟩ := Except.bind_eq_ok h
    obtain ⟨belows, hbelows, h⟩ := Except.bind_eq_ok h
    cases h
    exact ⟨_, ⟨as, belows, has, hbelows, rfl⟩, settleAll_eq ..⟩
  · rintro ⟨_, ⟨as, belows, has, hbelows, rfl⟩, rfl⟩
    rw [has]
    show finishLevel answer g p.nodes rows as = _
    rw [finishLevel, hbelows, ← settleAll_eq]
    rfl

end Columns

/-! ## Plans in another order -/

section Reorders

variable {m : Memory} {g : Graph}

/-- In which order the columns are listed that a query asks for does not show in the answer. -/
theorem Memory.answers_congr {q q' : BatchQuery} (htable : q.table = q'.table) (hcolumns : q.keyColumns = q'.keyColumns)
    (hkeys : q.keys = q'.keys) (hordering : q.ordering = q'.ordering)
    (hproject : project q.columns = project q'.columns) :
    m.answers q = m.answers q' := by
  obtain ⟨table, keyColumns, keys, columns, ordering⟩ := q
  obtain ⟨table', keyColumns', keys', columns', ordering'⟩ := q'
  cases htable
  cases hcolumns
  cases hkeys
  cases hordering
  simp only [answers, evaluate, Query.table, Query.evaluate, hproject]
  rfl

section Loads

variable {s : Inclusion} {p q : Plan}
  (h : ∀ columns, project ((PlanNode.branch s p).fetched columns) = project ((PlanNode.branch s q).fetched columns))

include h

theorem Stitch.eval_loadOne_branch (rows : List Row) :
    (loadOne (.branch s p) rows).eval m.answers = (loadOne (.branch s q) rows).eval m.answers := by
  have hquery : ∀ keys, m.answers (oneQuery (.branch s p) keys) = m.answers (oneQuery (.branch s q) keys) :=
    fun keys => Memory.answers_congr rfl rfl rfl rfl (h _)
  unfold loadOne
  simp only [PlanNode.step_branch]
  split
  · rfl
  · rfl
  · simp only [Dialogue.eval, hquery]
    rfl

theorem Stitch.eval_loadMany_branch (rows : List Row) :
    (loadMany g (.branch s p) rows).eval m.answers = (loadMany g (.branch s q) rows).eval m.answers := by
  have hquery : ∀ keys, m.answers (manyQuery g (.branch s p) keys) = m.answers (manyQuery g (.branch s q) keys) :=
    fun keys => Memory.answers_congr rfl rfl rfl rfl (h _)
  unfold loadMany
  simp only [PlanNode.step_branch]
  split
  · rfl
  · rfl
  · simp only [Dialogue.eval, hquery]
    rfl

theorem Stitch.eval_loadTargets_branch (joins : List KeyedRow) :
    (loadTargets g (.branch s p) joins).eval m.answers = (loadTargets g (.branch s q) joins).eval m.answers := by
  have hquery : ∀ keys, m.answers (targetQuery g (.branch s p) keys) = m.answers (targetQuery g (.branch s q) keys) :=
    fun keys => Memory.answers_congr rfl rfl rfl rfl (h _)
  unfold loadTargets
  split
  · rfl
  · simp only [Dialogue.eval, hquery]
    rfl

/-- The query for the join rows does not depend on the plan below. -/
theorem Stitch.eval_loadManyViaJoin_branch (rows : List Row) :
    (loadManyViaJoin g (.branch s p) rows).eval m.answers =
      (loadManyViaJoin g (.branch s q) rows).eval m.answers := by
  unfold loadManyViaJoin
  simp only [PlanNode.step_branch]
  split
  · rfl
  · split
    · rfl
    · rfl
    · next j _ _ keys _ _ =>
      have hjoin : joinQuery (.branch s p) j keys = joinQuery (.branch s q) j keys := rfl
      simp only [Dialogue.eval, hjoin]
      cases keyedRows s s.relation.joinTargetKey (m.answers (joinQuery (.branch s q) j keys)) with
      | error f => rfl
      | ok joins => exact eval_loadTargets_branch h joins

/-- A load depends on the plan below its node by the columns alone that it fetches. -/
theorem PlanNode.eval_load_branch (rows : List Row) :
    ((branch s p).load g rows).eval m.answers = ((branch s q).load g rows).eval m.answers := by
  unfold load
  simp only [step_branch]
  cases s.relation.kind with
  | one => exact Stitch.eval_loadOne_branch h rows
  | many => exact Stitch.eval_loadMany_branch h rows
  | manyViaJoin => exact Stitch.eval_loadManyViaJoin_branch h rows

end Loads

theorem Plan.Reorders.trim_branch {s : Inclusion} {p q : Plan} (hpq : p.Reorders q) :
    (PlanNode.branch s p).trim = (PlanNode.branch s q).trim := by
  have hkeys : ∀ x, (PlanNode.branch s p).nestedKeys.contains x = (PlanNode.branch s q).nestedKeys.contains x := by
    intro x
    have hperm : (p.nodes.map PlanNode.key).Perm (q.nodes.map PlanNode.key) := by
      have hsteps := hpq.steps.map Inclusion.key
      rwa [List.map_map, List.map_map] at hsteps
    exact hperm.contains_eq
  funext row
  refine congrArg (Row.keep · row) (funext fun x => ?_)
  simp only [PlanNode.keeps, hkeys, PlanNode.step_branch]

/-- A node fetches the same columns whatever the order of the nodes that they are for. -/
theorem Plan.Reorders.project_fetched {s : Inclusion} {p q : Plan} (hpq : p.Reorders q) (columns : List String) :
    project ((PlanNode.branch s p).fetched columns) = project ((PlanNode.branch s q).fetched columns) := by
  have hsources : (p.nodes.flatMap (·.step.relation.sourceKey)).Perm
      (q.nodes.flatMap (·.step.relation.sourceKey)) := by
    have hsteps := hpq.steps.flatMap_right (·.relation.sourceKey)
    rwa [List.flatMap_map, List.flatMap_map] at hsteps
  unfold PlanNode.fetched
  rw [PlanNode.step_branch, PlanNode.step_branch, PlanNode.nested?_branch, PlanNode.nested?_branch]
  cases s.options.select with
  | none => rfl
  | some select =>
    have hcontains : ∀ x, (select ++ columns ++ p.nodes.flatMap (·.step.relation.sourceKey)).eraseDups.contains x =
        (select ++ columns ++ q.nodes.flatMap (·.step.relation.sourceKey)).eraseDups.contains x := by
      intro x
      rw [Bool.eq_iff_iff, List.contains_iff_mem, List.contains_iff_mem, List.mem_eraseDups, List.mem_eraseDups,
        (hsources.append_left _).mem_iff]
    funext row
    exact congrArg (Row.keep · row) (funext hcontains)

/-- A node writes the same column, up to the order of columns below it, whatever the order of the nodes below it. -/
theorem PlanNode.columnFor_branch {s : Inclusion} {p q : Plan} (hpq : p.Reorders q)
    (hnest : ∀ (rows out : List Row), p.nest m.answers g rows = .ok out →
      ∃ out', q.nest m.answers g rows = .ok out' ∧ Rows.Same out out')
    {rows : List Row} {c : String × List Value} (hc : (branch s p).columnFor m.answers g rows = .ok c) :
    ∃ d, (branch s q).columnFor m.answers g rows = .ok d ∧ SameColumn c d := by
  obtain ⟨a, below, ha, hbelow, rfl⟩ := (columnFor_eq_ok _ _).mp hc
  obtain ⟨below', hbelow', hsame⟩ := hnest _ _ hbelow
  have ha' : (branch s q).attach m.answers g rows = .ok a := by
    rw [← ha, attach, attach, eval_load_branch hpq.project_fetched]
  refine ⟨_, (columnFor_eq_ok _ _).mpr ⟨a, below', ha', hbelow', rfl⟩, rfl, ?_⟩
  have hfound : Rows.Same ((a.complete below).found.map (branch s p).trim)
      ((a.complete below').found.map (branch s q).trim) := by
    rw [Rows.Same, List.forall₂_map_left_iff, List.forall₂_map_right_iff, hpq.trim_branch]
    exact (a.found_complete hsame).imp fun _ _ h => h.keep _
  show List.Forall₂ _ (a.links.map _) (a.links.map _)
  rw [List.forall₂_map_left_iff, List.forall₂_map_right_iff]
  exact List.forall₂_same.mpr fun l _ => l.value_congr hfound

/-- Whether nodes stand apart is seen from their steps alone. -/
theorem Plan.Reorders.level {p q : Plan} (h : p.Reorders q) (hp : p.KeysApart ∧ p.KeysDistinct) :
    q.KeysApart ∧ q.KeysDistinct := by
  have happart : ∀ r : Plan, r.KeysApart ↔ (r.nodes.map PlanNode.step).Pairwise fun s t =>
      s.key ∉ t.relation.sourceKey ∧ t.key ∉ s.relation.sourceKey := by
    intro r
    rw [List.pairwise_map]
    rfl
  have hdistinct : ∀ r : Plan, r.KeysDistinct ↔ ((r.nodes.map PlanNode.step).map Inclusion.key).Nodup := by
    intro r
    rw [List.map_map]
    rfl
  refine ⟨(happart q).mpr ?_, (hdistinct q).mpr ?_⟩
  · exact (h.steps.pairwise_iff And.symm).mp ((happart p).mp hp.1)
  · exact (h.steps.map _).nodup_iff.mp ((hdistinct p).mp hp.2)

theorem Plan.separate_iff {p : Plan} :
    p.Separate ↔ (p.KeysApart ∧ p.KeysDistinct) ∧ ∀ s q, .branch s q ∈ p.nodes → q.Separate := by
  constructor
  · exact fun h => ⟨h.level, fun s q hq => h.below hq⟩
  · rintro ⟨hlevel, hbelow⟩ r hr
    rcases mem_levels.mp hr with rfl | ⟨s, q, hq, hr⟩
    · exact hlevel
    · exact hbelow s q hq r hr

theorem Plan.Reorders.separate {p q : Plan} (h : p.Reorders q) (hp : p.Separate) : q.Separate := by
  induction h with
  | trans _ _ ih ih' => exact ih' (ih hp)
  | nodes h => exact separate_iff.mpr ⟨(Reorders.nodes h).level hp.level, fun s q hq => hp.below (h.mem_iff.mpr hq)⟩
  | @nested entity depth ns ms ps qs s p q h ih =>
    have hpq : Reorders (.mk entity depth (ns ++ .branch s p :: ms) ps)
        (.mk entity depth (ns ++ .branch s q :: ms) qs) := .nested h
    refine separate_iff.mpr ⟨hpq.level hp.level, fun t r hr => ?_⟩
    rcases List.mem_append.mp hr with hr | hr
    · exact hp.below (s := t) (List.mem_append_left _ hr)
    · rcases List.mem_cons.mp hr with heq | hr
      · cases heq
        exact ih (hp.below (s := s) (List.mem_append_right _ List.mem_cons_self))
      · exact hp.below (s := t) (List.mem_append_right _ (List.mem_cons_of_mem _ hr))

theorem Plan.Reorders.nest {p q : Plan} (h : p.Reorders q) (hp : p.Separate) {rows out : List Row}
    (hout : p.nest m.answers g rows = .ok out) :
    ∃ out', q.nest m.answers g rows = .ok out' ∧ Rows.Same out out' := by
  induction h generalizing rows out with
  | trans h h' ih ih' =>
    obtain ⟨out', hout', hsame⟩ := ih hp hout
    obtain ⟨out'', hout'', hsame'⟩ := ih' (h.separate hp) hout'
    exact ⟨out'', hout'', hsame.trans hsame'⟩
  | @nodes entity depth ns ms ps qs h =>
    by_cases hempty : rows.isEmpty = true
    · rw [Plan.nest_of_isEmpty _ _ hempty] at hout ⊢
      exact ⟨rows, rfl, Except.ok.inj hout ▸ .refl rows⟩
    have hq : (Plan.mk entity depth ms qs).Separate := (Reorders.nodes h).separate hp
    obtain ⟨cs, hcs, rfl⟩ := (nest_eq_ok _ _ hp.level.1 hempty).mp hout
    obtain ⟨ds, hds, hperm⟩ := Except.mapM_perm h hcs
    obtain ⟨hkeys, hlength⟩ := columns_of_mapM _ _ hcs
    refine ⟨_, (nest_eq_ok _ _ hq.level.1 hempty).mpr ⟨ds, hds, rfl⟩, writeColumns_perm hperm hlength ?_⟩
    rw [hkeys]
    exact hp.level.2
  | @nested entity depth ns ms ps qs s p q h ih =>
    by_cases hempty : rows.isEmpty = true
    · rw [Plan.nest_of_isEmpty _ _ hempty] at hout ⊢
      exact ⟨rows, rfl, Except.ok.inj hout ▸ .refl rows⟩
    have hbelow : .branch s p ∈ (Plan.mk entity depth (ns ++ .branch s p :: ms) ps).nodes :=
      List.mem_append_right _ List.mem_cons_self
    have hq : (Plan.mk entity depth (ns ++ .branch s q :: ms) qs).Separate := (Reorders.nested h).separate hp
    obtain ⟨cs, hcs, rfl⟩ := (nest_eq_ok _ _ hp.level.1 hempty).mp hout
    obtain ⟨as, c, bs, rfl, has, hc, hbs⟩ := Except.mapM_append_cons.mp hcs
    obtain ⟨d, hd, hcd⟩ := PlanNode.columnFor_branch h (fun _ _ hout => ih (hp.below hbelow) hout) hc
    refine ⟨_, (nest_eq_ok _ _ hq.level.1 hempty).mpr ⟨as ++ d :: bs, ?_, rfl⟩, writeColumns_same ?_ (.refl rows)⟩
    · exact Except.mapM_append_cons.mpr ⟨as, d, bs, rfl, has, hd, hbs⟩
    · have hrefl : ∀ cs : List (String × List Value), List.Forall₂ SameColumn cs cs :=
        fun cs => List.forall₂_same.mpr fun c _ => .refl c
      exact List.rel_append (hrefl as) (.cons hcd (hrefl bs))

end Reorders

/-! ## From the root -/

/-- Root rows are shown alike if what was written into them is alike. -/
theorem Rows.Same.completeAll {rows out out' : List Row} (h : Rows.Same out out') (hlength : out.length = rows.length)
    (hwrites : ∀ (i : Nat) (row x : Row), rows[i]? = some row → out[i]? = some x → ∃ es, x = row.setAll es)
    (hwrites' : ∀ (i : Nat) (row x : Row), rows[i]? = some row → out'[i]? = some x → ∃ es, x = row.setAll es) :
    List.Forall₂ Row.Same (RootRow.completeAll (rows.map RootRow.ofRow) out)
      (RootRow.completeAll (rows.map RootRow.ofRow) out') := by
  have hlength' : out'.length = rows.length := h.length_eq.symm.trans hlength
  refine Except.forall₂_of_getElem? (by simp [RootRow.completeAll, hlength, hlength']) fun i z z' hz hz' => ?_
  simp only [RootRow.completeAll, List.getElem?_zipWith, List.getElem?_map] at hz hz'
  cases hrow : rows[i]? with
  | none => simp [hrow] at hz
  | some row =>
    obtain ⟨hi, -⟩ := List.getElem?_eq_some_iff.mp hrow
    have hi' : i < out'.length := by omega
    obtain ⟨x, hx⟩ : ∃ x, out[i]? = some x := ⟨_, List.getElem?_eq_getElem (by omega)⟩
    obtain ⟨x', hx'⟩ : ∃ x', out'[i]? = some x' := ⟨_, List.getElem?_eq_getElem hi'⟩
    rw [hrow, hx] at hz
    rw [hrow, hx'] at hz'
    obtain rfl : (RootRow.ofRow row).complete x = z := Option.some.inj hz
    obtain rfl : (RootRow.ofRow row).complete x' = z' := Option.some.inj hz'
    obtain ⟨es, rfl⟩ := hwrites i row x hrow hx
    obtain ⟨es', rfl⟩ := hwrites' i row x' hrow hx'
    have hsame : Row.Same (row.setAll es) (row.setAll es') := rel_of_forall₂ h hx hx'
    have hshown : Row.Same ((RootRow.ofRow row).complete (row.setAll es)) (row.setAll es) :=
      .of_lookup (lookup_complete_setAll row es)
    have hshown' : Row.Same ((RootRow.ofRow row).complete (row.setAll es')) (row.setAll es') :=
      .of_lookup (lookup_complete_setAll row es')
    exact (hshown.trans hsame).trans hshown'.symm

theorem Plan.Reorders.stitch {g : Graph} {concurrency : Int} {entity : String} {p q : Plan} {rows : List Row}
    {s : Session Memory} (h : p.Reorders q) (hp : p.Separate) (hfaults : s.store.faults = [])
    (hprepared : s.store.prepared = []) :
    Except.Concur (List.Forall₂ Row.Same) (stitch g Memory.execute concurrency entity p (.rows rows) s).1
      (stitch g Memory.execute concurrency entity q (.rows rows) s).1 := by
  by_cases hvalid : 1 ≤ concurrency ∧ p.entity = entity
  · rw [Memory.stitch_eq_nest hfaults hprepared hvalid.1 hvalid.2,
      Memory.stitch_eq_nest hfaults hprepared hvalid.1 (h.entity_eq.trans hvalid.2)]
    have hq := h.separate hp
    refine .of_ok (fun a ha => ?_) fun b hb => ?_
    · obtain ⟨out, hout, rfl⟩ := Except.map_eq_ok ha
      obtain ⟨out', hout', hsame⟩ := h.nest hp hout
      have hwrites := nest_writes _ _ hp.level.1 hout
      exact ⟨_, by rw [hout']; rfl, hsame.completeAll hwrites.1 hwrites.2 (nest_writes _ _ hq.level.1 hout').2⟩
    · obtain ⟨out, hout, rfl⟩ := Except.map_eq_ok hb
      obtain ⟨out', hout', -⟩ := h.symm.nest hq hout
      exact ⟨_, by rw [hout']; rfl⟩
  · obtain ⟨f, hf⟩ := rootRows_of_invalid hvalid (.rows rows)
    have hf' : rootRows concurrency entity q (.rows rows) = .error f := (rootRows_congr h.entity_eq _).trans hf
    rw [RelatedRows.stitch, RelatedRows.stitch, hf, hf']
    exact .error f f

/-- The order of the entries of a request does not matter unless a relation writes a column that another one of its
level is loaded by: the same rows are stitched, up to the order of their columns, or stitching fails in both cases. -/
theorem stitch_reorders {g : Graph} {concurrency maxDepth : Int} {entity : String} {spec spec' : Value} {p : Plan}
    {rows : List Row} {s : Session Memory} (hspec : spec.Reorders spec') (hnames : spec.hasDistinctNames = true)
    (hp : compile g entity spec maxDepth = .ok p) (hapart : ∀ q ∈ p.levels, q.KeysApart)
    (hfaults : s.store.faults = []) (hprepared : s.store.prepared = []) :
    ∃ p', compile g entity spec' maxDepth = .ok p' ∧
      Except.Concur (List.Forall₂ Row.Same) (stitch g Memory.execute concurrency entity p (.rows rows) s).1
        (stitch g Memory.execute concurrency entity p' (.rows rows) s).1 := by
  obtain ⟨p', hp', hpp'⟩ := compile_reorders hspec hp
  have hdistinct := keysDistinct_of_compile hnames hp
  exact ⟨p', hp', hpp'.stitch (fun q hq => ⟨hapart q hq, hdistinct q hq⟩) hfaults hprepared⟩

theorem stitch_reorders_bookshelf : ∃ p', compile Bookshelf.graph "authors"
      (.object [("books", .object [("include", .object [("tags", .bool true), ("author", .bool true)])])]) 2 = .ok p' ∧
    Except.Concur (List.Forall₂ Row.Same)
      (stitch Bookshelf.graph Memory.execute 2 "authors" Bookshelf.siblingPlan (.rows [[("id", .int 1)]])
        { store := Bookshelf.database }).1
      (stitch Bookshelf.graph Memory.execute 2 "authors" p' (.rows [[("id", .int 1)]])
        { store := Bookshelf.database }).1 :=
  have hbelow : Value.Reorders (.object [("author", .bool true), ("tags", .bool true)])
      (.object [("tags", .bool true), ("author", .bool true)]) := .entries (.swap _ _ _)
  have hspec : Bookshelf.siblingRequest.Reorders _ := @Value.Reorders.included [] [] [] [] "books" _ _ hbelow
  stitch_reorders hspec (by decide +kernel) rfl (by decide +kernel) rfl rfl

/-! ## A clash of names -/

namespace Clash

/-- Members are numbered within their tenant, and a badge belongs to a member.  The relation from a badge to its tenant
has the name of the column that the tenant and the member are both found by. -/
def tables : List Table := [
  { name := "tenants", primaryKey := ["id"], columns := some ["id", "name"] },
  { name := "members", primaryKey := ["tenant", "number"], columns := some ["tenant", "number"],
    foreignKeys := [⟨["tenant"], "tenants", ["id"], false⟩] },
  { name := "badges", primaryKey := ["id"], columns := some ["id", "tenant", "number"],
    foreignKeys := [⟨["tenant"], "tenants", ["id"], false⟩,
      ⟨["tenant", "number"], "members", ["tenant", "number"], false⟩] }]

def graph : Graph :=
  match Graph.ofTables tables with
  | .ok g => g
  | .error _ => ⟨[], []⟩

def database : Memory where
  tables := [("tenants", [[("id", .int 1), ("name", .text "north")]]),
    ("members", [[("tenant", .int 1), ("number", .int 5)]]),
    ("badges", [[("id", .int 1), ("tenant", .int 1), ("number", .int 5)]])]

def badge : Row :=
  [("id", .int 1), ("tenant", .int 1), ("number", .int 5)]

def memberFirst : Value :=
  .object [("member", .bool true), ("tenant", .bool true)]

def tenantFirst : Value :=
  .object [("tenant", .bool true), ("member", .bool true)]

/-- The plan of a request for a badge. -/
def plan (spec : Value) : Plan :=
  match compile graph "badges" spec 2 with
  | .ok p => p
  | .error _ => .empty "badges" 0

end Clash

/-- Stitched before its tenant the member of a badge is found; stitched after it, there is no key to look for. -/
theorem clash_order_matters :
    Graph.ofTables Clash.tables = .ok Clash.graph ∧ Clash.memberFirst.Reorders Clash.tenantFirst ∧
    compile Clash.graph "badges" Clash.memberFirst 2 = .ok (Clash.plan Clash.memberFirst) ∧
    compile Clash.graph "badges" Clash.tenantFirst 2 = .ok (Clash.plan Clash.tenantFirst) ∧
    (∃ out, (stitch Clash.graph Memory.execute 1 "badges" (Clash.plan Clash.memberFirst) (.rows [Clash.badge])
      { store := Clash.database }).1 = .ok out) ∧
    (stitch Clash.graph Memory.execute 1 "badges" (Clash.plan Clash.tenantFirst) (.rows [Clash.badge])
      { store := Clash.database }).1 = .error (.notKey .object) :=
  ⟨by decide +kernel, .entries (.swap _ _ _), rfl, rfl, ⟨_, rfl⟩, by decide +kernel⟩

end RelatedRows

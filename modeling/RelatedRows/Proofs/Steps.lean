import RelatedRows.Proofs.Pages
import RelatedRows.Proofs.Permuting

/-!
# Other steps in a plan

Where nodes are replaced by others that link all rows alike, stitching stays as it is.

* `Plan.mapSteps f p`: a plan with other steps at its nodes, in the same places.
* `Inclusion.Resembles`: a step that attaches the same columns under the same key.
* `PlanNode.eval_load_mapSteps`: nodes that link alike through the join rows of a database load alike.
* `Plan.nest_mapSteps`, `Memory.stitch_mapSteps`: stitching with steps that load alike.
-/

namespace RelatedRows

mutual
def Plan.mapSteps (f : Inclusion → Inclusion) : Plan → Plan
  | .mk entity depth nodes pruned => .mk entity depth (mapNodeSteps f nodes) pruned

def mapNodeSteps (f : Inclusion → Inclusion) : List PlanNode → List PlanNode
  | [] => []
  | n :: ns => n.mapSteps f :: mapNodeSteps f ns

def PlanNode.mapSteps (f : Inclusion → Inclusion) : PlanNode → PlanNode
  | .leaf s => .leaf (f s)
  | .branch s p => .branch (f s) (p.mapSteps f)
end

/-- Whether a step attaches related rows under the same key and with the same columns as another one; it may order them
in another way or take the relation for unique. -/
structure Inclusion.Resembles (s s' : Inclusion) : Prop where
  key : s'.key = s.key
  depth : s'.depth = s.depth
  relation : ∃ unique, s'.relation = { s.relation with unique }
  select : s'.options.select = s.options.select
  exclude : s'.options.exclude = s.options.exclude

theorem Inclusion.Resembles.refl (s : Inclusion) : s.Resembles s :=
  ⟨rfl, rfl, ⟨s.relation.unique, rfl⟩, rfl, rfl⟩

theorem Inclusion.Resembles.sourceKey {s s' : Inclusion} (h : s.Resembles s') :
    s'.relation.sourceKey = s.relation.sourceKey := by
  obtain ⟨unique, hrelation⟩ := h.relation
  rw [hrelation]

theorem Inclusion.Resembles.keyedRows {s s' : Inclusion} (h : s.Resembles s') :
    Stitch.keyedRows s' = Stitch.keyedRows s := by
  obtain ⟨unique, hrelation⟩ := h.relation
  funext columns a
  have hanswered : Stitch.answered s' a = Stitch.answered s a := by
    cases a with
    | ok v => rfl
    | error e => simp only [Stitch.answered, hrelation, h.key, h.depth]
  rw [Stitch.keyedRows, Stitch.keyedRows, hanswered]

section Steps

variable {f : Inclusion → Inclusion}

theorem mapNodeSteps_eq (ns : List PlanNode) : mapNodeSteps f ns = ns.map (PlanNode.mapSteps f) := by
  induction ns with
  | nil => rfl
  | cons n ns ih => rw [mapNodeSteps, ih, List.map_cons]

@[simp] theorem Plan.entity_mapSteps (p : Plan) : (p.mapSteps f).entity = p.entity := by
  cases p
  rfl

@[simp] theorem Plan.nodes_mapSteps (p : Plan) : (p.mapSteps f).nodes = p.nodes.map (PlanNode.mapSteps f) := by
  cases p
  exact mapNodeSteps_eq _

namespace PlanNode

@[simp] theorem step_mapSteps (n : PlanNode) : (n.mapSteps f).step = f n.step := by
  cases n <;> rfl

@[simp] theorem nested?_mapSteps (n : PlanNode) : (n.mapSteps f).nested? = n.nested?.map (Plan.mapSteps f) := by
  cases n <;> rfl

variable (hf : ∀ s : Inclusion, s.Resembles (f s))

include hf

theorem key_mapSteps (n : PlanNode) : (n.mapSteps f).key = n.key := by
  rw [key, step_mapSteps]
  exact (hf n.step).key

theorem trim_mapSteps (n : PlanNode) : (n.mapSteps f).trim = n.trim := by
  have hkeys : (n.mapSteps f).nestedKeys = n.nestedKeys := by
    rw [nestedKeys, nested?_mapSteps, nestedKeys, Option.map_map]
    refine congrArg (Option.getD · []) (congrArg (Option.map · n.nested?) (funext fun p => ?_))
    simp [Function.comp_def, key_mapSteps hf]
  have hkeeps : (n.mapSteps f).keeps = n.keeps := by
    funext column
    simp only [keeps, hkeys, step_mapSteps, (hf n.step).select, (hf n.step).exclude]
  funext row
  rw [trim, trim, hkeeps]

/-- The same columns are fetched, for the node itself and for those below it. -/
theorem fetched_mapSteps (n : PlanNode) : (n.mapSteps f).fetched = n.fetched := by
  funext required
  have hbelow : ((n.mapSteps f).nested?.map (·.nodes)).getD [] =
      ((n.nested?.map (·.nodes)).getD []).map (PlanNode.mapSteps f) := by
    rw [nested?_mapSteps]
    cases n.nested? <;> simp
  have hsource (m : PlanNode) : (m.mapSteps f).step.relation.sourceKey = m.step.relation.sourceKey := by
    rw [step_mapSteps]
    exact (hf m.step).sourceKey
  have hselect : (n.mapSteps f).step.options.select = n.step.options.select := by
    rw [step_mapSteps]
    exact (hf n.step).select
  rw [fetched, fetched, hbelow, hselect, List.flatMap_map]
  simp only [hsource]

end PlanNode

variable {answer : BatchQuery → Answer} {g : Graph} (hf : ∀ s : Inclusion, s.Resembles (f s))

/-- What a node with another step has attached. -/
def Loaded.mapStep (f : Inclusion → Inclusion) (n : Loaded) : Loaded :=
  (n.1.mapSteps f, n.2)

include hf

theorem settleAll_mapSteps (rows : List Row) (nodes : List Loaded) (below : List (List Row)) :
    settleAll rows (nodes.map (Loaded.mapStep f)) below = settleAll rows nodes below := by
  induction nodes generalizing rows below with
  | nil => rfl
  | cons n nodes ih =>
    cases below with
    | nil => rfl
    | cons rs below =>
      have hsettle : (n.mapStep f).settle rs rows = n.settle rs rows := by
        show (((n.2.complete rs).map (n.1.mapSteps f).trim).attachTo (n.1.mapSteps f).key rows) = _
        rw [PlanNode.trim_mapSteps hf, PlanNode.key_mapSteps hf]
        rfl
      simp only [settleAll, List.map_cons, List.zip_cons_cons, List.foldl_cons, hsettle]
      exact ih _ below

section Nodes

variable {ns : List PlanNode}
  (hloads : ∀ n ∈ ns, ∀ rows, ((n.mapSteps f).load g rows).eval answer = (n.load g rows).eval answer)
  (hnests : ∀ n ∈ ns, ∀ rows, (n.mapSteps f).nest answer g rows = n.nest answer g rows)

include hloads in
/-- Nodes with other steps that link alike are loaded alike. -/
theorem evalNodes_mapSteps (rows : List Row) : evalNodes answer g (ns.map (PlanNode.mapSteps f)) rows =
    ((evalNodes answer g ns rows).1.map (Except.map (Loaded.mapStep f)), (evalNodes answer g ns rows).2) := by
  induction ns generalizing rows with
  | nil => rfl
  | cons n ns ih =>
    simp only [List.map_cons, evalNodes, hloads n List.mem_cons_self, PlanNode.key_mapSteps hf,
      ih fun m hm => hloads m (List.mem_cons_of_mem _ hm)]
    refine congrArg (fun r => (r :: _, _)) ?_
    cases ((n.load g rows).eval answer >>= (·.attachment rows)) <;> rfl

omit hf in
include hnests in
theorem nestBelow_mapSteps (as : List Attachment) :
    nestBelow answer g (ns.map (PlanNode.mapSteps f)) as = nestBelow answer g ns as := by
  induction ns generalizing as with
  | nil => rfl
  | cons n ns ih =>
    cases as with
    | nil => rfl
    | cons a as =>
      rw [List.map_cons, nestBelow, nestBelow, hnests n List.mem_cons_self,
        ih fun m hm => hnests m (List.mem_cons_of_mem _ hm)]

include hloads hnests

theorem nestLevel_mapSteps (rows : List Row) :
    nestLevel answer g (ns.map (PlanNode.mapSteps f)) rows (nestBelow answer g (ns.map (PlanNode.mapSteps f))) =
      nestLevel answer g ns rows (nestBelow answer g ns) := by
  have hall (loads : List (Except Fault Loaded)) : (loads.map (Except.map (Loaded.mapStep f))).mapM id =
      (loads.mapM id).map (List.map (Loaded.mapStep f)) := by
    rw [Except.mapM_id_map]
    exact Except.mapM_map_right id _ loads
  rw [nestLevel, nestLevel, evalNodes_mapSteps hf hloads, List.isEmpty_map, hall]
  split
  · rfl
  · cases (evalNodes answer g ns rows).1.mapM id with
    | error e => rfl
    | ok loaded =>
      have hattached : (loaded.map (Loaded.mapStep f)).map (·.2) = loaded.map (·.2) := by
        rw [List.map_map]
        rfl
      show nestBelow answer g _ ((loaded.map (Loaded.mapStep f)).map (·.2)) >>=
        (fun below => Except.ok (settleAll _ (loaded.map (Loaded.mapStep f)) below)) = _
      rw [hattached, nestBelow_mapSteps hnests]
      simp only [settleAll_mapSteps hf]
      rfl

end Nodes

/-- Where other steps link alike, a plan with them stitches alike. -/
theorem Plan.nest_mapSteps {p : Plan} (h : ∀ q ∈ p.levels, ∀ n ∈ q.nodes, ∀ rows,
      ((n.mapSteps f).load g rows).eval answer = (n.load g rows).eval answer) (rows : List Row) :
    (p.mapSteps f).nest answer g rows = p.nest answer g rows := by
  induction p using Plan.induction generalizing rows with
  | step p ih =>
    have hloads := h p p.mem_levels_self
    have hnests : ∀ n ∈ p.nodes, ∀ rows, (n.mapSteps f).nest answer g rows = n.nest answer g rows := by
      intro n hn rows
      cases n with
      | leaf s => rfl
      | branch s q => exact ih s q hn (fun r hr => h r (levels_subset hn hr)) rows
    obtain ⟨entity, depth, ns, pruned⟩ := p
    rw [mapSteps, mapNodeSteps_eq, nest, nest]
    exact nestLevel_mapSteps hf hloads hnests rows

/-! ## Through join rows -/

namespace PlanNode

open Stitch

variable {m : Memory} {n : PlanNode}

section Links

variable (hn : n.step.Resembles (f n.step))

omit hf
include hn

theorem targetsOf_mapSteps (joins : List Row) (k : Option (List Atom)) :
    (n.mapSteps f).targetsOf joins k = n.targetsOf joins k := by
  obtain ⟨unique, hrelation⟩ := hn.relation
  simp only [targetsOf, step_mapSteps, hrelation]

theorem placeOf_mapSteps (targets : List Row) : (n.mapSteps f).placeOf targets = n.placeOf targets := by
  obtain ⟨unique, hrelation⟩ := hn.relation
  funext k
  simp only [placeOf, step_mapSteps, hrelation]

/-- Nodes that arrange the same targets link rows alike. -/
theorem joinedLink_mapSteps {joins targets : List Row}
    (h : ∀ k, (n.mapSteps f).arranged targets (n.targetsOf joins k) = n.arranged targets (n.targetsOf joins k)) :
    joinedLink (n.mapSteps f) joins targets = joinedLink n joins targets := by
  funext k
  rw [joinedLink, joinedLink, targetsOf_mapSteps hn, placeOf_mapSteps hn, h]

end Links

/-- A node that keeps its step loads as before. -/
theorem load_mapSteps_of_eq (h : f n.step = n.step) (rows : List Row) : (n.mapSteps f).load g rows = n.load g rows := by
  unfold load loadOne loadMany loadManyViaJoin loadTargets linkOne linkMany linkJoined arrange
  simp only [oneQuery, manyQuery, joinQuery, targetQuery, fetched_mapSteps hf, step_mapSteps, h]

section Joined

variable (hserves : m.Serves Value.isPlain n.step.relation)
  (hordering : OrderBy.merge [(f n.step).options.ordering, ascending (g.primaryKey n.step.relation.target)] =
    OrderBy.merge [n.step.options.ordering, ascending (g.primaryKey n.step.relation.target)])

include hserves hordering

theorem eval_loadTargets_mapSteps {joins : List Row} (hjoins : ∀ row ∈ joins, row.Keyable n.step.relation.joinSourceKey)
    (hlink : ∀ keys, joinedLink (n.mapSteps f) joins (m.found (targetQuery g n keys)) =
      joinedLink n joins (m.found (targetQuery g n keys))) :
    (loadTargets g (n.mapSteps f) (keyed n.step.relation.joinTargetKey joins)).eval m.answers =
      (loadTargets g n (keyed n.step.relation.joinTargetKey joins)).eval m.answers := by
  obtain ⟨unique, hrelation⟩ := (hf n.step).relation
  have hquery (keys : List Key) : targetQuery g (n.mapSteps f) keys = targetQuery g n keys := by
    simp only [targetQuery, fetched_mapSteps hf, step_mapSteps, hrelation, hordering]
  simp only [loadTargets, hquery, step_mapSteps, (hf n.step).keyedRows, hrelation]
  cases keyBatch ((keyed n.step.relation.joinTargetKey joins).map (·.key)) with
  | nil => rfl
  | cons k ks =>
    let q := targetQuery g n (k :: ks)
    have hanswer : m.answers q = .ok (.rows (m.found q)) := answers_eq_found (List.cons_ne_nil k ks) hserves.target
    have hkeyed := keyedRows_eq n.step (keyable_fetched hserves (fetched_found (m := m) (n := n) (q := q) rfl rfl))
    show keyedRows n.step _ (m.answers q) >>= linkJoined (n.mapSteps f) _ =
      keyedRows n.step _ (m.answers q) >>= linkJoined n _
    rw [hanswer, hkeyed]
    have hlinked : linkJoined (n.mapSteps f) (keyed n.step.relation.joinTargetKey joins)
        (keyed n.step.relation.targetKey (m.found q)) =
        .ok (linkBy n.step.relation.sourceKey (m.found q) (joinedLink (n.mapSteps f) joins (m.found q))) := by
      simpa only [step_mapSteps, hrelation] using
        @linkJoined_eq (n.mapSteps f) joins (m.found q) (by simpa only [step_mapSteps, hrelation] using hjoins)
    show linkJoined (n.mapSteps f) _ _ = linkJoined n _ _
    rw [hlinked, hlink, linkJoined_eq hjoins]

/-- Over a database, a node with another step loads alike if it orders the targets alike and links alike. -/
theorem eval_load_mapSteps (hkind : n.step.relation.kind = .manyViaJoin)
    (hlink : ∀ j, n.step.relation.joinEntity = some j → ∀ keys keys' : List Key,
      joinedLink (n.mapSteps f) (m.found (joinQuery n j keys)) (m.found (targetQuery g n keys')) =
        joinedLink n (m.found (joinQuery n j keys)) (m.found (targetQuery g n keys')))
    (rows : List Row) : ((n.mapSteps f).load g rows).eval m.answers = (n.load g rows).eval m.answers := by
  obtain ⟨unique, hrelation⟩ := (hf n.step).relation
  have hquery (j : String) (keys : List Key) : joinQuery (n.mapSteps f) j keys = joinQuery n j keys := by
    simp only [joinQuery, step_mapSteps, hrelation]
  unfold load
  simp only [step_mapSteps, (hf n.step).keyedRows, hrelation, hkind, loadManyViaJoin, hquery]
  cases hj : n.step.relation.joinEntity with
  | none => rfl
  | some j =>
    cases keyBatchOf n.step.relation.sourceKey rows with
    | error e => rfl
    | ok batch =>
      cases batch with
      | nil => rfl
      | cons k ks =>
        let q := joinQuery n j (k :: ks)
        have hjoins := allAt_joins hserves hj (k :: ks)
        have hanswer : m.answers q = .ok (.rows (m.found q)) :=
          answers_eq_found (List.cons_ne_nil k ks) (hserves.join j hj)
        have hkeyed := keyedRows_eq n.step fun row hrow => (hjoins row hrow).2.isScalar.keyable
        simp only [Dialogue.eval]
        rw [hanswer, hkeyed]
        exact eval_loadTargets_mapSteps hf hserves hordering (fun row hrow => (hjoins row hrow).1.isScalar.keyable)
          (hlink j hj (k :: ks))

end Joined

end PlanNode

namespace PlanNode

open Stitch

variable {n : PlanNode} {rows : List Row} {s : Session Memory}

omit hf in
/-- A node that attaches lists attaches the same ones with another step that loads alike. -/
theorem exists_lists_mapSteps (hload : ((n.mapSteps f).load g rows).eval s.store.answers =
      (n.load g rows).eval s.store.answers) (hkind : n.step.relation.kind ≠ .one)
    (hjoin : n.step.relation.kind = .manyViaJoin → ∃ j, n.step.relation.joinEntity = some j)
    (hserves : s.store.Serves Value.isScalar n.step.relation)
    (hrows : ∀ row ∈ rows, row.AllAt Value.isScalar n.step.relation.sourceKey) (hfaults : s.store.faults = [])
    (hprepared : s.store.prepared = []) (path : List String) : ∃ lists : Row → List Row,
      rowsAfter n.key rows ((n.load g rows).run Memory.execute path n.step s).1 =
        rows.map (fun row => row.set n.key (.rows (lists row))) ∧
      rowsAfter n.key rows (((n.mapSteps f).load g rows).run Memory.execute path (f n.step) s).1 =
        rows.map fun row => row.set n.key (.rows (lists row)) := by
  obtain ⟨found, positions, hattach, hsound, -⟩ := exists_links hkind hjoin hserves hrows (g := g)
  have hlists := rowsAfter_run hfaults hprepared hattach hsound path
  refine ⟨_, hlists, ?_⟩
  rw [Dialogue.run_plain hfaults hprepared, hload, ← Dialogue.run_plain hfaults hprepared path n.step]
  exact hlists

end PlanNode

/-- Where other steps load alike, stitching with them is stitching as before. -/
theorem Memory.stitch_mapSteps {p : Plan} {s : Session Memory} (hfaults : s.store.faults = [])
    (hprepared : s.store.prepared = []) (h : ∀ q ∈ p.levels, ∀ n ∈ q.nodes, ∀ rows,
      ((n.mapSteps f).load g rows).eval s.store.answers = (n.load g rows).eval s.store.answers)
    (concurrency : Int) (entity : String) (rows : Value) :
    (stitch g execute concurrency entity (p.mapSteps f) rows s).1 =
      (stitch g execute concurrency entity p rows s).1 := by
  unfold stitch
  rw [rootRows_congr p.entity_mapSteps]
  cases rootRows concurrency entity p rows with
  | error f => rfl
  | ok roots =>
    show (stitchRows execute g (p.mapSteps f) _ s).1.map _ = (stitchRows execute g p _ s).1.map _
    rw [stitchRows_fst hfaults hprepared, stitchRows_fst hfaults hprepared, Plan.nest_mapSteps hf h]

end Steps

end RelatedRows

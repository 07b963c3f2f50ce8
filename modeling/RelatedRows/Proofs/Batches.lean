import Mathlib.Algebra.Ring.Nat
import RelatedRows.Proofs.Failures
import RelatedRows.Proofs.Generations
import RelatedRows.Proofs.KeyBatches

/-!
# One batch for each relation

How many queries stitching puts, and which ones, whatever a store answers.

* `Executor.Replies`: a store fails or answers by rows with scalar keys, in any state.
* `PlanNode.puts_load`: a load puts the batches of its node.
* `Level.Of.scalar_next`: the levels that are reached have rows with scalar keys.
* `Plan.queryLimit`: the number of queries that a plan has room for.
* `Level.Reaches.attached`: a level that is reached holds what a node of the level above attaches.
* `Batched`, `stitch_batched`: stitching puts the batches of the nodes that it reaches, and nothing else.
-/

namespace RelatedRows

/-! ## Stores that reply -/

/-- A store answers every query by a failure or by rows with scalars in the key columns of the table, in any state. -/
def Executor.Replies {σ : Type} (exec : Executor σ) (uses : List (String × List String)) : Prop :=
  ∀ q answer, exec.Answers q answer → (∃ f, answer = .error f) ∨ ∃ found, answer = .ok (.rows found) ∧
    ∀ use ∈ uses, use.1 = q.table → ∀ row ∈ found, row.AllAt Value.isScalar use.2

section Loads

variable {σ : Type} {exec : Executor σ} {g : Graph} {n : PlanNode} {uses : List (String × List String)}
  {answers : List Answer}

open Stitch

/-- What is found at the end of a load has scalars in the key columns of the target table. -/
def Dialogue.FindsScalars (d : Load) (n : PlanNode) (uses : List (String × List String)) (answers : List Answer) :
    Prop :=
  ∀ l, d.result? answers = some (.ok l) → ∀ use ∈ uses, use.1 = n.step.relation.target →
    ∀ row ∈ l.found, row.AllAt Value.isScalar use.2

theorem Executor.Replies.keyedRows_eq (hreplies : exec.Replies uses) {q : BatchQuery} {a : Answer}
    (ha : exec.Answers q a) {use : String × List String} (huse : use ∈ uses) (htable : use.1 = q.table)
    {columns : List String} (hcolumns : columns ⊆ use.2) (step : Inclusion) :
    (∃ f, keyedRows step columns a = .error f ∧ foundRows a = []) ∨
      (keyedRows step columns a = .ok (keyed columns (foundRows a)) ∧
        ∀ use ∈ uses, use.1 = q.table → ∀ row ∈ foundRows a, row.AllAt Value.isScalar use.2) := by
  rcases hreplies q a ha with ⟨f, rfl⟩ | ⟨found, rfl, hscalar⟩
  · refine .inl ?_
    rw [keyedRows, answered]
    by_cases hkind : f.kind = .cancelled
    · rw [if_pos hkind]
      exact ⟨_, rfl, rfl⟩
    · rw [if_neg hkind]
      exact ⟨_, rfl, rfl⟩
  · rw [foundRows_rows]
    refine .inr ⟨RelatedRows.keyedRows_eq step fun row hrow => ?_, hscalar⟩
    exact Row.AllAt.keyable fun c hc => hscalar use huse htable row hrow c (hcolumns hc)

/-- A dialogue that ends with a query for the target rows. -/
theorem Executor.Replies.puts_ask (hreplies : exec.Replies uses) {q : BatchQuery}
    (huse : (n.step.relation.target, n.step.relation.targetKey) ∈ uses) (htable : q.table = n.step.relation.target)
    {k : Except Fault (List KeyedRow) → Except Fault Linking}
    (hfail : ∀ f, ∃ f', k (.error f) = .error f')
    (hk : ∀ found l, k (.ok (keyed n.step.relation.targetKey found)) = .ok l → l.found = found)
    (hhears : (Dialogue.ask q fun a => .done (k (keyedRows n.step n.step.relation.targetKey a))).Hears
      exec.Answers answers) :
    (Dialogue.ask q fun a => .done (k (keyedRows n.step n.step.relation.targetKey a))).puts answers = [q] ∧
      Dialogue.FindsScalars (.ask q fun a => .done (k (keyedRows n.step n.step.relation.targetKey a))) n uses
        answers := by
  cases hhears with
  | @ask _ _ a as ha hnext =>
    refine ⟨rfl, fun l hl => ?_⟩
    have hlinked : k (keyedRows n.step n.step.relation.targetKey a) = .ok l := Option.some.inj hl
    rcases hreplies.keyedRows_eq ha huse htable.symm (List.Subset.refl _) n.step with ⟨f, hf, -⟩ | ⟨hkeyed, hscalar⟩
    · rw [hf] at hlinked
      obtain ⟨f', hf'⟩ := hfail f
      rw [hf'] at hlinked
      cases hlinked
    · rw [hkeyed] at hlinked
      rw [hk _ l hlinked, ← htable]
      exact hscalar

theorem Dialogue.findsScalars_nothing (link : Link) :
    Dialogue.FindsScalars (.done (nothing link)) n uses answers := by
  intro l hl use _ _ row hrow
  cases Option.some.inj hl
  cases hrow

variable {rows : List Row} (hreplies : exec.Replies uses) (huses : Graph.keyColumns n.step.relation ⊆ uses)
  (hrows : ∀ row ∈ rows, row.Keyable n.step.relation.sourceKey)

include hreplies huses hrows

theorem puts_loadOne (hkind : n.step.relation.kind = .one) (hhears : (loadOne n rows).Hears exec.Answers answers) :
    (loadOne n rows).puts answers = n.batches g rows answers ∧ (loadOne n rows).FindsScalars n uses answers := by
  rw [PlanNode.batches, hkind]
  rw [loadOne, keyBatchOf_eq hrows, keyBatch_eq] at hhears ⊢
  cases hkeys : distinctKeys n.step.relation.sourceKey rows with
  | nil => exact ⟨rfl, Dialogue.findsScalars_nothing _⟩
  | cons key keys =>
    rw [hkeys] at hhears
    refine hreplies.puts_ask (k := fun r => r.map (linkOne n)) (huses (by simp [Graph.keyColumns])) rfl
      (fun f => ⟨f, rfl⟩) (fun found l hl => ?_) hhears
    cases hl
    exact rows_keyed _ found

theorem puts_loadMany (hkind : n.step.relation.kind = .many)
    (hhears : (loadMany g n rows).Hears exec.Answers answers) :
    (loadMany g n rows).puts answers = n.batches g rows answers ∧
      (loadMany g n rows).FindsScalars n uses answers := by
  rw [PlanNode.batches, hkind]
  rw [loadMany, keyBatchOf_eq hrows, keyBatch_eq] at hhears ⊢
  cases hkeys : distinctKeys n.step.relation.sourceKey rows with
  | nil => exact ⟨rfl, Dialogue.findsScalars_nothing _⟩
  | cons key keys =>
    rw [hkeys] at hhears
    refine hreplies.puts_ask (k := fun r => r.map (linkMany n)) (huses (by simp [Graph.keyColumns])) rfl
      (fun f => ⟨f, rfl⟩) (fun found l hl => ?_) hhears
    cases hl
    exact rows_keyed _ found

omit hrows in
/-- The second half of a load through a join entity, after join rows with scalar keys. -/
theorem puts_loadTargets {joins : List Row} (hjoins : ∀ row ∈ joins, row.Keyable n.step.relation.joinSourceKey)
    (hhears : (loadTargets g n (keyed n.step.relation.joinTargetKey joins)).Hears exec.Answers answers) :
    (loadTargets g n (keyed n.step.relation.joinTargetKey joins)).puts answers =
        (match distinctKeys n.step.relation.joinTargetKey joins with
        | [] => []
        | keys => [targetQuery g n keys]) ∧
      (loadTargets g n (keyed n.step.relation.joinTargetKey joins)).FindsScalars n uses answers := by
  rw [loadTargets, keys_keyed, keyBatch_eq] at hhears ⊢
  cases hkeys : distinctKeys n.step.relation.joinTargetKey joins with
  | nil => exact ⟨rfl, Dialogue.findsScalars_nothing _⟩
  | cons key keys =>
    rw [hkeys] at hhears
    refine hreplies.puts_ask (k := fun r => r >>= linkJoined n (keyed n.step.relation.joinTargetKey joins))
      (huses (by simp [Graph.keyColumns])) rfl (fun f => ⟨f, rfl⟩) (fun found l hl => ?_) hhears
    have hlink : linkJoined n (keyed n.step.relation.joinTargetKey joins) (keyed n.step.relation.targetKey found) =
        .ok l := hl
    rw [linkJoined_eq hjoins] at hlink
    cases hlink
    rfl

theorem puts_loadManyViaJoin {j : String} (hkind : n.step.relation.kind = .manyViaJoin)
    (hj : n.step.relation.joinEntity = some j) (hhears : (loadManyViaJoin g n rows).Hears exec.Answers answers) :
    (loadManyViaJoin g n rows).puts answers = n.batches g rows answers ∧
      (loadManyViaJoin g n rows).FindsScalars n uses answers := by
  have hjoin : (j, n.step.relation.joinSourceKey ++ n.step.relation.joinTargetKey) ∈ uses :=
    huses (by simp [Graph.keyColumns, hj])
  rw [PlanNode.batches, hkind]
  rw [loadManyViaJoin, hj] at hhears ⊢
  simp only [keyBatchOf_eq hrows, keyBatch_eq] at hhears ⊢
  cases hkeys : distinctKeys n.step.relation.sourceKey rows with
  | nil => exact ⟨rfl, Dialogue.findsScalars_nothing _⟩
  | cons key keys =>
    rw [hkeys] at hhears
    cases hhears with
    | @ask _ _ a as ha hnext =>
      have hnext : (afterJoins g n (keyedRows n.step n.step.relation.joinTargetKey a)).Hears exec.Answers as := hnext
      show joinQuery n j (key :: keys) :: (afterJoins g n (keyedRows n.step n.step.relation.joinTargetKey a)).puts as =
          joinQuery n j (key :: keys) ::
            (match distinctKeys n.step.relation.joinTargetKey (foundRows a) with
            | [] => []
            | keys => [targetQuery g n keys]) ∧
        (afterJoins g n (keyedRows n.step n.step.relation.joinTargetKey a)).FindsScalars n uses as
      rcases hreplies.keyedRows_eq ha hjoin rfl (List.subset_append_right _ _) n.step with
        ⟨f, hf, hnone⟩ | ⟨hkeyed, hscalar⟩
      · rw [hf, hnone]
        refine ⟨rfl, fun l hl => ?_⟩
        cases hl
      · rw [hkeyed] at hnext ⊢
        have hjoins : ∀ row ∈ foundRows a, row.Keyable n.step.relation.joinSourceKey := by
          intro row hrow
          exact Row.AllAt.keyable fun c hc => hscalar _ hjoin rfl row hrow c (List.mem_append_left _ hc)
        obtain ⟨hputs, hfinds⟩ := puts_loadTargets hreplies huses hjoins hnext
        exact ⟨congrArg _ hputs, hfinds⟩

/-- A load puts the queries of its node, and finds scalars where the store has scalars. -/
theorem PlanNode.puts_load (hjoin : n.step.relation.kind = .manyViaJoin → ∃ j, n.step.relation.joinEntity = some j)
    (hhears : (n.load g rows).Hears exec.Answers answers) :
    (n.load g rows).puts answers = n.batches g rows answers ∧ (n.load g rows).FindsScalars n uses answers := by
  unfold PlanNode.load at hhears ⊢
  cases hkind : n.step.relation.kind with
  | one =>
    rw [hkind] at hhears
    exact puts_loadOne hreplies huses hrows hkind hhears
  | many =>
    rw [hkind] at hhears
    exact puts_loadMany hreplies huses hrows hkind hhears
  | manyViaJoin =>
    rw [hkind] at hhears
    obtain ⟨j, hj⟩ := hjoin hkind
    exact puts_loadManyViaJoin hreplies huses hrows hkind hj hhears

end Loads

/-! ## Levels with scalar keys -/

/-- Rows with scalars in all columns that the nodes of their level are stitched by. -/
def Level.Scalar (l : Level) : Prop :=
  ∀ row ∈ l.rows, ∀ n ∈ l.nodes, row.AllAt Value.isScalar n.step.relation.sourceKey

/-- The queries of the nodes of a level. -/
def Level.batches (g : Graph) (heard : Heard) (l : Level) : List Asked :=
  l.nodes.flatMap fun n => (n.batches g l.rows (heard (l.path ++ [n.key]))).map (l.path ++ [n.key], ·)

section Levels

variable {σ : Type} {exec : Executor σ} {g : Graph} {p : Plan} {heard : Heard} {l b : Level} {n : PlanNode}

/-- What has been attached by a load is among what the load has found. -/
theorem PlanNode.exists_of_attachHearing {rows : List Row} {answers : List Answer} {a : Attachment}
    (h : n.attachHearing g answers rows = .ok a) :
    ∃ linking, (n.load g rows).result? answers = some (.ok linking) ∧ a.found = linking.found := by
  unfold attachHearing at h
  split at h
  · next r hresult =>
    obtain ⟨linking, rfl, hattach⟩ := Except.bind_eq_ok h
    obtain ⟨links, -, heq⟩ := Except.bind_eq_ok hattach
    cases heq
    exact ⟨linking, hresult, rfl⟩
  · cases h

theorem Level.Of.exists_level (hof : l.Of p) (hn : n ∈ l.nodes) : ∃ q ∈ p.levels, n ∈ q.nodes := by
  obtain ⟨q, hq, hnodes⟩ := hof (List.ne_nil_of_mem hn)
  exact ⟨q, hq, hnodes ▸ hn⟩

/-- The level below a node has rows with scalar keys if what the node has found has scalars in the key columns. -/
theorem Level.Of.scalar_below (hof : l.Of p) (hfits : p.Fits g) (hn : n ∈ l.nodes) {a : Attachment}
    (hfound : ∀ use ∈ p.keyUses, use.1 = n.step.relation.target → ∀ row ∈ a.found, row.AllAt Value.isScalar use.2)
    (path : List String) : (Loaded.below path (n, a)).Scalar := by
  obtain ⟨q, hq, hnq⟩ := hof.exists_level hn
  obtain ⟨-, hrows, hnodes⟩ := Loaded.below_eq path (n, a)
  intro row hrow m hm
  rw [hrows] at hrow
  rw [hnodes] at hm
  cases n with
  | leaf s => cases hm
  | branch s q' =>
    have hq' : q' ∈ p.levels := Plan.levels_trans hq (Plan.levels_subset hnq q'.mem_levels_self)
    have hsource : m.step.relation.source = s.relation.target :=
      (hfits q' hq' m hm).source.trans ((hfits q hq _ hnq).nested q' rfl)
    have huse : (m.step.relation.source, m.step.relation.sourceKey) ∈ p.keyUses :=
      List.mem_flatMap.mpr ⟨q', hq', List.mem_flatMap.mpr ⟨m, hm, by simp [Graph.keyColumns]⟩⟩
    exact hfound _ huse hsource row (Attachment.mem_found_of_mem_attached hrow)

variable (hg : ∀ r ∈ g.relations, r.Consistent) (hfits : p.Fits g) (hreplies : exec.Replies p.keyUses)

include hg hfits hreplies

theorem Level.Of.puts_load (hof : l.Of p) (hscalar : l.Scalar) (hhears : l.Hears g heard exec.Answers)
    (hidle : ¬l.isIdle = true) (hn : n ∈ l.nodes) :
    (n.load g l.rows).puts (heard (l.path ++ [n.key])) = n.batches g l.rows (heard (l.path ++ [n.key])) ∧
      (n.load g l.rows).FindsScalars n p.keyUses (heard (l.path ++ [n.key])) := by
  obtain ⟨q, hq, hnq⟩ := hof.exists_level hn
  have huses : Graph.keyColumns n.step.relation ⊆ p.keyUses := by
    intro use huse
    exact List.mem_flatMap.mpr ⟨q, hq, List.mem_flatMap.mpr ⟨n, hnq, huse⟩⟩
  exact PlanNode.puts_load hreplies huses (fun row hrow => (hscalar row hrow n hn).keyable)
    (hg _ (hfits q hq n hnq).mem).exists_join (hhears hidle n hn)

/-- The rows attached to a level have scalar keys if its own rows have. -/
theorem Level.Of.scalar_next (hof : l.Of p) (hscalar : l.Scalar) (hhears : l.Hears g heard exec.Answers)
    (hb : b ∈ l.next g heard) : b.Scalar := by
  obtain ⟨hidle, n, hn, a, ha, rfl⟩ := Level.exists_of_mem_next hb
  obtain ⟨linking, hresult, hfound⟩ := PlanNode.exists_of_attachHearing ha
  have hfinds := (hof.puts_load hg hfits hreplies hscalar hhears hidle hn).2 linking hresult
  rw [← hfound] at hfinds
  exact hof.scalar_below hfits hn hfinds l.path

/-- What the nodes of a level put, in terms of keys. -/
theorem Level.Of.puts_eq (hof : l.Of p) (hscalar : l.Scalar) (hhears : l.Hears g heard exec.Answers) :
    l.puts g heard = l.batches g heard := by
  rw [Level.puts, Level.batches]
  by_cases hidle : l.isIdle = true
  · rw [if_pos hidle]
    have hnone : ∀ n ∈ l.nodes, n.batches g l.rows (heard (l.path ++ [n.key])) = [] := by
      intro n hn
      have hrows : l.rows = [] := by
        have := List.ne_nil_of_mem hn
        simpa [Level.isIdle, this] using hidle
      rw [PlanNode.batches, hrows]
      rfl
    refine (List.flatMap_eq_nil_iff.mpr fun n hn => ?_).symm
    rw [hnone n hn]
    rfl
  · rw [if_neg hidle]
    refine List.flatMap_congr fun n hn => ?_
    rw [(hof.puts_load hg hfits hreplies hscalar hhears hidle hn).1]

end Levels

/-! ## Limits -/

def nodesLimit (ns : List PlanNode) : Nat :=
  (ns.map PlanNode.queryLimit).sum

/-- How many queries a plan may put: those of all its nodes. -/
def Plan.queryLimit (p : Plan) : Nat :=
  (p.levels.map fun q => nodesLimit q.nodes).sum

/-- How many queries may be put for a level and all levels below it. -/
def Level.queryLimit (l : Level) : Nat :=
  nodesLimit l.nodes + ((levelsBelow l.nodes).map fun q => nodesLimit q.nodes).sum

theorem Plan.queryLimit_level (p : Plan) (path : List String) (rows : List Row) :
    (p.level path rows).queryLimit = p.queryLimit := by
  obtain ⟨entity, depth, nodes, pruned⟩ := p
  rw [Plan.queryLimit, Plan.levels, List.map_cons, List.sum_cons]
  rfl

theorem Loaded.queryLimit_below (path : List String) (n : Loaded) :
    (n.below path).queryLimit = (n.1.levels.map fun q => nodesLimit q.nodes).sum := by
  obtain ⟨n, a⟩ := n
  cases n with
  | leaf s => rfl
  | branch s p => exact p.queryLimit_level (path ++ [s.key]) a.attached

theorem sum_levelsBelow (ns : List PlanNode) (f : Plan → Nat) :
    ((levelsBelow ns).map f).sum = (ns.map fun n => (n.levels.map f).sum).sum := by
  induction ns with
  | nil => rfl
  | cons n ns ih => rw [levelsBelow, List.map_append, List.sum_append_nat, ih, List.map_cons, List.sum_cons]

theorem length_flatMap_le {α β : Type} {xs : List α} {f : α → List β} {limit : α → Nat}
    (h : ∀ x ∈ xs, (f x).length ≤ limit x) : (xs.flatMap f).length ≤ (xs.map limit).sum := by
  induction xs with
  | nil => exact Nat.le_refl _
  | cons x xs ih =>
    have hhead := h x List.mem_cons_self
    have hrest := ih fun y hy => h y (List.mem_cons_of_mem _ hy)
    rw [List.flatMap_cons, List.length_append, List.map_cons, List.sum_cons]
    omega

theorem Level.queryLimit_next (g : Graph) (heard : Heard) (l : Level) :
    nodesLimit l.nodes + ((l.next g heard).map Level.queryLimit).sum ≤ l.queryLimit := by
  refine Nat.add_le_add_left ?_ _
  rw [sum_levelsBelow]
  rcases l.next_eq_zip g heard with hnone | ⟨-, as, -, hfst, hnext⟩
  · rw [hnone]
    exact Nat.zero_le _
  · have hlimits : (l.next g heard).map Level.queryLimit =
        ((l.nodes.zip as).map Prod.fst).map fun n => (n.levels.map fun q => nodesLimit q.nodes).sum := by
      rw [hnext, List.map_map, List.map_map]
      exact List.map_congr_left fun n _ => Loaded.queryLimit_below l.path n
    exact Nat.le_of_eq (by rw [hlimits, hfst])

/-- All levels that are reached put no more queries than the plan has room for. -/
theorem sum_generations_le (g : Graph) (heard : Heard) (steps : Nat) (ls : List Level) :
    ((generations g heard steps ls).map fun l => nodesLimit l.nodes).sum ≤ (ls.map Level.queryLimit).sum := by
  induction steps generalizing ls with
  | zero => exact Nat.zero_le _
  | succ steps ih =>
    have hbelow := ih (ls.flatMap (Level.next g heard))
    have hlevels : (ls.map fun l => nodesLimit l.nodes).sum +
        ((ls.flatMap (Level.next g heard)).map Level.queryLimit).sum ≤ (ls.map Level.queryLimit).sum := by
      clear hbelow ih
      induction ls with
      | nil => exact Nat.zero_le _
      | cons l ls ih =>
        have hhead := l.queryLimit_next g heard
        simp only [List.map_cons, List.sum_cons, List.flatMap_cons, List.map_append, List.sum_append_nat]
        omega
    rw [generations, List.map_append, List.sum_append_nat]
    omega

theorem Plan.queryLimit_reached (p : Plan) {g : Graph} {heard : Heard} {rows : List Row} :
    ((p.reached g heard rows).map fun l => nodesLimit l.nodes).sum ≤ p.queryLimit := by
  have hlimit := sum_generations_le g heard p.height [p.level [] rows]
  rwa [List.map_singleton, List.sum_singleton, Plan.queryLimit_level] at hlimit

/-! ## What one node asks -/

/-- The queries that are put by the node at a path, in turn. -/
def askedAt (asked : List Asked) (path : List String) : List BatchQuery :=
  asked.filterMap fun a => if a.1 = path then some a.2 else none

theorem askedAt_append (asked asked' : List Asked) (path : List String) :
    askedAt (asked ++ asked') path = askedAt asked path ++ askedAt asked' path :=
  List.filterMap_append

theorem askedAt_map (qs : List BatchQuery) (path : List String) : askedAt (qs.map (path, ·)) path = qs := by
  rw [askedAt, List.filterMap_map]
  simp

theorem askedAt_eq_nil {asked : List Asked} {path : List String} (h : ∀ a ∈ asked, a.1 ≠ path) :
    askedAt asked path = [] := by
  refine List.filterMap_eq_nil_iff.mpr fun a ha => ?_
  rw [if_neg (h a ha)]

/-- If only one of several contributors asks at a path, its queries are all that is asked there. -/
theorem askedAt_flatMap {ι : Type} {is : List ι} {f : ι → List Asked} {path : List String} {i : ι} (hi : i ∈ is)
    (hnodup : is.Nodup) (hother : ∀ j ∈ is, j ≠ i → ∀ a ∈ f j, a.1 ≠ path) :
    askedAt (is.flatMap f) path = askedAt (f i) path := by
  induction is with
  | nil => cases hi
  | cons j is ih =>
    rw [List.nodup_cons] at hnodup
    rw [List.flatMap_cons, askedAt_append]
    rcases List.mem_cons.mp hi with rfl | hi
    · have hrest : askedAt (is.flatMap f) path = [] := by
        refine askedAt_eq_nil fun a ha => ?_
        obtain ⟨k, hk, ha⟩ := List.mem_flatMap.mp ha
        exact hother k (List.mem_cons_of_mem _ hk) (fun heq => hnodup.1 (heq ▸ hk)) a ha
      rw [hrest, List.append_nil]
    · have hji : j ≠ i := fun heq => hnodup.1 (heq ▸ hi)
      rw [askedAt_eq_nil (hother j List.mem_cons_self hji), List.nil_append]
      exact ih hi hnodup.2 fun k hk => hother k (List.mem_cons_of_mem _ hk)

section Levels

variable {g : Graph} {heard : Heard} {ls : List Level} {l : Level} {n : PlanNode}

theorem Level.exists_of_mem_batches {a : Asked} (ha : a ∈ l.batches g heard) :
    ∃ n ∈ l.nodes, a.1 = l.path ++ [n.key] ∧ a.2 ∈ n.batches g l.rows (heard (l.path ++ [n.key])) := by
  obtain ⟨n, hn, ha⟩ := List.mem_flatMap.mp ha
  obtain ⟨q, hq, rfl⟩ := List.mem_map.mp ha
  exact ⟨n, hn, rfl, hq⟩

/-- Levels with different paths do not ask for each other, and neither do nodes with different keys. -/
theorem askedAt_batches (hpaths : (ls.map Level.path).Nodup) (hl : l ∈ ls) (hkeys : (l.nodes.map PlanNode.key).Nodup)
    (hn : n ∈ l.nodes) : askedAt (ls.flatMap (Level.batches g heard)) (l.path ++ [n.key]) =
      n.batches g l.rows (heard (l.path ++ [n.key])) := by
  rw [askedAt_flatMap hl (.of_map _ hpaths), Level.batches, askedAt_flatMap hn (.of_map _ hkeys), askedAt_map]
  · intro m hm hmn a ha heq
    obtain ⟨q, -, rfl⟩ := List.mem_map.mp ha
    have hkey : m.key = n.key := by simpa using heq
    exact hmn (List.inj_on_of_nodup_map hkeys hm hn hkey)
  · intro l' hl' hne a ha heq
    obtain ⟨m, -, ha, -⟩ := Level.exists_of_mem_batches ha
    exact hne (List.inj_on_of_nodup_map hpaths hl' hl (List.append_inj_left' (ha.symm.trans heq) rfl))

theorem length_batches_le (ls : List Level) :
    (ls.flatMap (Level.batches g heard)).length ≤ (ls.map fun l => nodesLimit l.nodes).sum := by
  refine length_flatMap_le fun l _ => length_flatMap_le fun n _ => ?_
  rw [List.length_map]
  exact n.length_batches_le l.rows _

/-- The rows of a level are the rows that a node attaches anywhere in the level above, each of them once. -/
theorem Level.Reaches.attached {l₀ : Level} (h : l₀.Reaches g heard l) : l = l₀ ∨
    ∃ above, l₀.Reaches g heard above ∧ ∃ n ∈ above.nodes, ∃ (a : Attachment) (positions : List Nat),
      n.attachHearing g (heard (above.path ++ [n.key])) above.rows = .ok a ∧ l.path = above.path ++ [n.key] ∧
      l.rows = positions.filterMap (a.found[·]?) ∧ positions.Nodup ∧
      ∀ i, i ∈ positions ↔ ∃ link ∈ a.links, i ∈ link.positions := by
  rcases h.exists_above with rfl | ⟨above, habove, hnext⟩
  · exact .inl rfl
  · obtain ⟨-, n, hn, a, ha, rfl⟩ := Level.exists_of_mem_next hnext
    obtain ⟨hpath, hrows, -⟩ := Loaded.below_eq above.path (n, a)
    refine .inr ⟨above, habove, n, hn, a, a.positions, ha, hpath, hrows, nodup_eraseDups _, fun i => ?_⟩
    exact Attachment.mem_positions

end Levels

/-! ## Whole runs -/

/-- What stitching asks, whatever it hears: batches of the keys of the levels that it reaches. -/
structure Batched (g : Graph) (p : Plan) (rows : List Row) (asked : List Asked) (heard : Heard) : Prop where
  /-- A node asks for all keys of its level at once and, through a join entity, for all keys on the far side. -/
  batches : ∀ l, (p.level [] rows).Reaches g heard l → ∀ n ∈ l.nodes,
    askedAt asked (l.path ++ [n.key]) = n.batches g l.rows (heard (l.path ++ [n.key]))
  /-- A node asks at all if any row of its level has a key. -/
  asks : ∀ l, (p.level [] rows).Reaches g heard l → ∀ n ∈ l.nodes, (askedAt asked (l.path ++ [n.key]) ≠ [] ↔
    ∃ row ∈ l.rows, (row.spelling n.step.relation.sourceKey).any Value.isNull = false)
  /-- Only nodes of reached levels ask. -/
  reached : ∀ a ∈ asked, ∃ l, (p.level [] rows).Reaches g heard l ∧ ∃ n ∈ l.nodes, a.1 = l.path ++ [n.key]
  /-- The rows of a level are the rows that a node attaches anywhere in the level above, each of them once. -/
  attached : ∀ l, (p.level [] rows).Reaches g heard l → l = p.level [] rows ∨
    ∃ above, (p.level [] rows).Reaches g heard above ∧ ∃ n ∈ above.nodes, ∃ (a : Attachment) (positions : List Nat),
      n.attachHearing g (heard (above.path ++ [n.key])) above.rows = .ok a ∧ l.path = above.path ++ [n.key] ∧
      l.rows = positions.filterMap (a.found[·]?) ∧ positions.Nodup ∧
      ∀ i, i ∈ positions ↔ ∃ link ∈ a.links, i ∈ link.positions
  /-- No node asks once for each row. -/
  limited : ∀ l, (p.level [] rows).Reaches g heard l → ∀ n ∈ l.nodes,
    (askedAt asked (l.path ++ [n.key])).length ≤ n.queryLimit
  total : asked.length ≤ p.queryLimit
  wellFormed : ∀ a ∈ asked, a.2.WellFormed

section Stitch

variable {entities : List Entity} {relations : List Relation} {g : Graph} {entity : String} {spec : Value}
  {maxDepth concurrency : Int} {p : Plan} {rows : List Row} {σ : Type} {exec : Executor σ}

/-- All levels that are reached are of the plan, and have scalar keys. -/
theorem Plan.scalar_reached {heard : Heard} (hg : ∀ r ∈ g.relations, r.Consistent) (hfits : p.Fits g)
    (hreplies : exec.Replies p.keyUses) (hrows : p.Scalar rows)
    (hhears : ∀ l ∈ p.reached g heard rows, l.Hears g heard exec.Answers) :
    ∀ l ∈ p.reached g heard rows, l.Of p ∧ l.Scalar := by
  refine forall_generations (fun l hl => ⟨p.of_level rows l hl, ?_⟩) fun l hl h b hb =>
    ⟨h.1.next hb, h.1.scalar_next hg hfits hreplies h.2 (hhears l hl) hb⟩
  rw [List.mem_singleton.mp hl]
  exact hrows

theorem batched_stitchRows (hg : ∀ r ∈ g.relations, r.Consistent) (hfits : p.Fits g) (hp : p.Separate)
    (hreplies : exec.Replies p.keyUses) (hrows : p.Scalar rows) (s : Session σ) {asked : List Asked}
    (hasked : (stitchRows exec g p rows s).2.askedAfter s = asked) :
    Batched g p rows asked (exec.heard s.store asked) := by
  obtain ⟨hputs, hhears⟩ := replays_stitchRows exec g hp rows s
  rw [hasked] at hputs hhears
  generalize exec.heard s.store asked = heard at hputs hhears
  have hreached := p.scalar_reached hg hfits hreplies hrows hhears
  have hall : asked = (p.reached g heard rows).flatMap (Level.batches g heard) :=
    hputs.trans (List.flatMap_congr fun l hl =>
      (hreached l hl).1.puts_eq hg hfits hreplies (hreached l hl).2 (hhears l hl))
  have hbatches : ∀ l, (p.level [] rows).Reaches g heard l → ∀ n ∈ l.nodes,
      askedAt asked (l.path ++ [n.key]) = n.batches g l.rows (heard (l.path ++ [n.key])) := by
    intro l hl n hn
    have hlevel := Plan.mem_reached hl (List.ne_nil_of_mem hn)
    rw [hall]
    exact askedAt_batches (Plan.nodup_paths_reached hp) hlevel ((hreached l hlevel).1.separate hp).2 hn
  have hask : ∀ a ∈ asked, ∃ l ∈ p.reached g heard rows, ∃ n ∈ l.nodes, a.1 = l.path ++ [n.key] ∧
      a.2 ∈ n.batches g l.rows (heard (l.path ++ [n.key])) := by
    intro a ha
    rw [hall] at ha
    obtain ⟨l, hl, ha⟩ := List.mem_flatMap.mp ha
    exact ⟨l, hl, Level.exists_of_mem_batches ha⟩
  refine ⟨hbatches, fun l hl n hn => ?_, fun a ha => ?_, fun l hl => hl.attached, fun l hl n hn => ?_, ?_,
    fun a ha => ?_⟩
  · rw [hbatches l hl n hn, Ne, PlanNode.batches_eq_nil_iff]
    simp
  · obtain ⟨l, hl, n, hn, hpath, -⟩ := hask a ha
    exact ⟨l, Plan.reaches_of_mem_reached hl, n, hn, hpath⟩
  · rw [hbatches l hl n hn]
    exact n.length_batches_le l.rows _
  · rw [hall]
    exact Nat.le_trans (length_batches_le _) p.queryLimit_reached
  · obtain ⟨l, hl, n, hn, -, hq⟩ := hask a ha
    obtain ⟨q, hq', hnq⟩ := (hreached l hl).1.exists_level hn
    exact PlanNode.wellFormed_of_mem_batches (hg _ (hfits q hq' n hnq).mem) hq

/-- Whatever a store answers and whenever it fails, stitching puts its queries in batches, one for each node that it
reaches, or two. -/
theorem stitch_batched (hg : Graph.build entities relations = .ok g) (hp : compile g entity spec maxDepth = .ok p)
    (hspec : spec.hasDistinctNames = true) (hapart : ∀ q ∈ p.levels, q.KeysApart) (hc : 1 ≤ concurrency)
    (hreplies : exec.Replies p.keyUses) (hrows : p.Scalar rows) (s : Session σ) {asked : List Asked}
    (hasked : (stitch g exec concurrency entity p (.rows rows) s).2.askedAfter s = asked) :
    Batched g p rows asked (exec.heard s.store asked) := by
  obtain ⟨hentity, hfits⟩ := fits_of_compile hp
  have hseparate : p.Separate := fun q hq => ⟨hapart q hq, keysDistinct_of_compile hspec hp q hq⟩
  rw [stitch_rows hc hentity] at hasked
  exact batched_stitchRows (fun r => Graph.consistent_of_build hg) hfits hseparate hreplies hrows s hasked

end Stitch

namespace Bookshelf

/-- Has one book and a tag for it, but stops answering after two queries. -/
def fading : Executor Nat := fun asked q =>
  (if 2 ≤ asked then .error ⟨.timeout, "no answer"⟩
    else if q.table = "books" then .ok (.rows [[("id", .int 1), ("author_id", .int 1)]])
    else if q.table = "book_tags" then .ok (.rows [[("book_id", .int 1), ("tag_id", .int 7)]])
    else .ok (.rows []),
    asked + 1)

theorem replies_fading : fading.Replies plan.keyUses := by
  rintro q answer ⟨asked, rfl⟩
  show (∃ f, (if 2 ≤ asked then _ else _) = _) ∨ ∃ found, (if 2 ≤ asked then _ else _) = _ ∧ _
  by_cases hasked : 2 ≤ asked
  · exact .inl ⟨_, if_pos hasked⟩
  · refine .inr ?_
    rw [if_neg hasked]
    by_cases hbooks : q.table = "books"
    · refine ⟨_, if_pos hbooks, ?_⟩
      rw [hbooks]
      decide +kernel
    · by_cases hlinks : q.table = "book_tags"
      · refine ⟨_, (if_neg hbooks).trans (if_pos hlinks), ?_⟩
        rw [hlinks]
        decide +kernel
      · exact ⟨[], (if_neg hbooks).trans (if_neg hlinks), fun use _ _ row hrow => absurd hrow List.not_mem_nil⟩

/-- An author twice, one without a number, and three of which the number is undefined, two by the same object. -/
def repeatedAuthors : List Row :=
  [.int 1, .undefined 0, .int 1, .null, .undefined 1, .undefined 0].map fun id => [("id", id)]

end Bookshelf

theorem stitch_batched_bookshelf :
    ∃ asked : List Asked, (stitch Bookshelf.graph Bookshelf.fading 2 "authors" Bookshelf.plan
        (.rows Bookshelf.repeatedAuthors) { store := 0 }).2.askedAfter { store := 0 } = asked ∧
      asked.length = 3 ∧ asked.head?.map (·.2.keys) = some [[.int 1], [.undefined 0], [.undefined 1]] ∧
      Batched Bookshelf.graph Bookshelf.plan Bookshelf.repeatedAuthors asked (Bookshelf.fading.heard 0 asked) :=
  ⟨_, rfl, by decide +kernel, by decide +kernel,
    stitch_batched Bookshelf.build_graph Bookshelf.compile_request (by decide +kernel)
    (by decide) (by decide) Bookshelf.replies_fading (by decide +kernel) _ rfl⟩

end RelatedRows

import RelatedRows.Proofs.Junctions
import RelatedRows.Proofs.Steps

/-!
# The default order through join rows

Without an order of its own, a relation through a join entity attaches the targets in the order of the join rows.  Where
join rows refer to primary keys, this is the order of the targets by primary key.

* `Inclusion.OrdersByKey`: a step that orders by primary key where another one leaves the order open.
* `PlanNode.placeOf_le`: links that come one after the other lead to targets that do.
* `stitch_ordersByKey`: ordering by primary key changes nothing.
-/

namespace RelatedRows

/-- Whether a step orders by the primary key of its target, ascending, where another one leaves the order open. -/
structure Inclusion.OrdersByKey (g : Graph) (s s' : Inclusion) : Prop where
  kind : s.relation.kind = .manyViaJoin
  targetKey : s.relation.targetKey = g.primaryKey s.relation.target
  unordered : s.options.orderBy.getD [] = []
  step : ∃ order, s' = { s with options := { s.options with orderBy := some s.relation.targetKey, order } }
  ordering : s'.options.ordering = ascending s.relation.targetKey

namespace Inclusion.OrdersByKey

variable {g : Graph} {s s' : Inclusion}

theorem resembles (h : s.OrdersByKey g s') : s.Resembles s' := by
  obtain ⟨order, rfl⟩ := h.step
  exact ⟨rfl, rfl, ⟨s.relation.unique, rfl⟩, rfl, rfl⟩

theorem ordering_eq_nil (h : s.OrdersByKey g s') : s.options.ordering = [] := by
  have hunordered := h.unordered
  unfold Options.ordering
  cases hcolumns : s.options.orderBy with
  | none => rfl
  | some columns =>
    obtain rfl : columns = [] := by simpa [hcolumns] using hunordered
    rfl

/-- The targets are queried in the same order. -/
theorem merge_eq (h : s.OrdersByKey g s') :
    OrderBy.merge [s'.options.ordering, ascending (g.primaryKey s.relation.target)] =
      OrderBy.merge [s.options.ordering, ascending (g.primaryKey s.relation.target)] := by
  rw [h.ordering, h.ordering_eq_nil, h.targetKey]
  exact OrderBy.merge_same _

end Inclusion.OrdersByKey

namespace PlanNode

open Stitch

section Sorted

variable {m : Memory} {g : Graph} {n : PlanNode}

/-- The join rows of a node stand in the order of their keys. -/
theorem sorted_joins (j : String) (keys : List Key) : (m.found (joinQuery n j keys)).Pairwise
    (precedes (joinQuery n j keys).ordering · ·) := by
  refine Memory.sorted_found fun t ht row => ?_
  have hcolumn : t.1 ∈ n.step.relation.joinSourceKey ++ n.step.relation.joinTargetKey := by
    have hmem := List.mem_map_of_mem (f := Prod.fst) (firstTerms_subset ht)
    simpa [fst_ascending] using hmem
  exact Row.get_keep_of_pos (by simpa using hcolumn)

theorem exists_getElem_placeOf {targets : List Row} {k : List Atom}
    (h : targets.any (Row.hasKey n.step.relation.targetKey k) = true) :
    ∃ hlt : n.placeOf targets k < targets.length,
      targets[n.placeOf targets k].identity n.step.relation.targetKey = some k := by
  obtain ⟨t, ht, hkey⟩ := List.any_eq_true.mp h
  have hlt : n.placeOf targets k < targets.length := List.findIdx_lt_length_of_exists ⟨t, ht, hkey⟩
  have hfound : Row.hasKey n.step.relation.targetKey k targets[n.placeOf targets k] = true := List.findIdx_getElem
  exact ⟨hlt, of_decide_eq_true hfound⟩

variable (hserves : m.Serves Value.isPlain n.step.relation)
  (hkey : n.step.relation.targetKey = g.primaryKey n.step.relation.target) (hordering : n.step.options.ordering = [])

include hkey hordering in
/-- Without another order, the targets of a node stand in the order of their primary keys. -/
theorem sorted_targets (keys : List Key) : (m.found (targetQuery g n keys)).Pairwise
    (precedes (ascending n.step.relation.targetKey) · ·) := by
  have hquery : (targetQuery g n keys).ordering = OrderBy.merge [[], ascending n.step.relation.targetKey] := by
    rw [targetQuery, hordering, hkey]
  have hsorted : (m.found (targetQuery g n keys)).Pairwise (precedes (targetQuery g n keys).ordering · ·) := by
    refine Memory.sorted_found fun t ht row => ?_
    have hcolumn : t.1 ∈ n.step.relation.targetKey := by
      rw [hquery] at ht
      have hmem := List.mem_map_of_mem (f := Prod.fst) (firstTerms_subset ht)
      simpa [fst_ascending] using hmem
    have hspelling := n.spelling_fetched row n.step.relation.targetKey
    exact List.map_inj_left.mp hspelling t.1 hcolumn
  refine hsorted.imp fun {a b} hab => ?_
  simpa [precedes, hquery, compareBy_merge] using hab

include hserves hkey hordering

/-- Join rows that come one after the other lead to targets that do. -/
theorem placeOf_le {keys : List Key} {a b : Row} {k l : List Atom}
    (ha : a.AllAt Value.isPlain n.step.relation.joinTargetKey)
    (hb : b.AllAt Value.isPlain n.step.relation.joinTargetKey)
    (hk : a.identity n.step.relation.joinTargetKey = some k) (hl : b.identity n.step.relation.joinTargetKey = some l)
    (hab : precedes (ascending n.step.relation.joinTargetKey) a b = true)
    (hkfound : (m.found (targetQuery g n keys)).any (Row.hasKey n.step.relation.targetKey k) = true)
    (hlfound : (m.found (targetQuery g n keys)).any (Row.hasKey n.step.relation.targetKey l) = true) :
    n.placeOf (m.found (targetQuery g n keys)) k ≤ n.placeOf (m.found (targetQuery g n keys)) l := by
  let r := n.step.relation
  let targets := m.found (targetQuery g n keys)
  have hplain : ∀ t ∈ targets, t.AllAt Value.isPlain r.targetKey := by
    intro t ht
    obtain ⟨t', ht', rfl⟩ := fetched_found (n := n) (q := targetQuery g n keys) rfl rfl t ht
    exact (hserves.allAt_target ht').project rfl _
  obtain ⟨hi, hid⟩ := exists_getElem_placeOf hkfound
  obtain ⟨hi', hid'⟩ := exists_getElem_placeOf hlfound
  have hat := hplain _ (List.getElem_mem hi)
  have hat' := hplain _ (List.getElem_mem hi')
  have hatoms := Row.atoms_of_identity hid
  have hatoms' := Row.atoms_of_identity hid'
  by_contra hlt
  -- then the targets stand in both orders, so they tie, and the links are to the same target
  have hback : precedes (ascending r.targetKey) targets[n.placeOf targets l] targets[n.placeOf targets k] = true :=
    List.pairwise_iff_getElem.mp (sorted_targets hkey hordering keys) _ _ hi' hi (Nat.lt_of_not_le hlt)
  have hforth : precedes (ascending r.targetKey) targets[n.placeOf targets k] targets[n.placeOf targets l] = true := by
    rwa [precedes, ← compareBy_ascending_congr ha hat hb hat' ((Row.atoms_of_identity hk).trans hatoms.symm)
      ((Row.atoms_of_identity hl).trans hatoms'.symm)]
  have htie := (compareBy_ascending_eq_iff hat hat').mp (compareBy_eq_of_precedes hforth hback)
  rw [hatoms, hatoms'] at htie
  exact hlt (htie ▸ Nat.le_refl _)

/-- The links of one row stand in the order of their targets. -/
theorem pairwise_targetsOf {j : String} (hj : n.step.relation.joinEntity = some j) (keys keys' : List Key)
    (k : Option (List Atom)) :
    ((n.targetsOf (m.found (joinQuery n j keys)) k).filter fun l =>
        (m.found (targetQuery g n keys')).any (Row.hasKey n.step.relation.targetKey l)).Pairwise
      fun a b => n.placeOf (m.found (targetQuery g n keys')) a ≤ n.placeOf (m.found (targetQuery g n keys')) b := by
  cases k with
  | none => exact .nil
  | some k =>
    rw [targetsOf, Option.elim_some, List.pairwise_filter, List.pairwise_filterMap, List.pairwise_filter]
    refine (sorted_joins j keys).imp_of_mem fun {a b} ha hb hab hka hkb l hl l' hl' hfound hfound' => ?_
    obtain ⟨hsource, htarget⟩ := allAt_joins hserves hj keys a ha
    obtain ⟨hsource', htarget'⟩ := allAt_joins hserves hj keys b hb
    refine placeOf_le hserves hkey hordering htarget htarget' hl hl' ?_ hfound hfound'
    -- the join rows have one source key, so the order of their target keys decides
    have htie : compareBy (ascending n.step.relation.joinSourceKey) a b = .eq :=
      (compareBy_ascending_eq_iff hsource hsource').mpr
        ((Row.atoms_of_identity (of_decide_eq_true hka)).trans (Row.atoms_of_identity (of_decide_eq_true hkb)).symm)
    simpa [precedes, joinQuery, compareBy_merge, compareBy_append, htie] using hab

end Sorted

/-- Where the links stand in the order of their targets, ordering them by these changes nothing. -/
theorem arranged_of_pairwise {n : PlanNode} {targets : List Row} {ks : List (List Atom)}
    (h : (ks.filter fun k => targets.any (Row.hasKey n.step.relation.targetKey k)).Pairwise
      fun a b => n.placeOf targets a ≤ n.placeOf targets b) :
    n.arranged targets ks = n.step.options.window (
      let present := ks.filter fun k => targets.any (Row.hasKey n.step.relation.targetKey k)
      if n.step.relation.unique then present.eraseDups else present) := by
  unfold arranged
  dsimp only
  generalize hpresent : (ks.filter fun k => targets.any (Row.hasKey n.step.relation.targetKey k)) = present at h
  have hlinks : (if n.step.relation.unique then present.eraseDups else present).Pairwise
      fun a b => decide (n.placeOf targets a ≤ n.placeOf targets b) = true := by
    simp only [decide_eq_true_eq]
    split
    · exact h.sublist (eraseDupsBy_sublist present)
    · exact h
  rw [stableSort_of_pairwise hlinks, ite_self]

section Steps

variable {f : Inclusion → Inclusion} {m : Memory} {g : Graph} {n : PlanNode} (h : n.step.OrdersByKey g (f n.step))

include h

theorem arranged_ordersByKey {targets : List Row} {ks : List (List Atom)}
    (hlinks : (ks.filter fun k => targets.any (Row.hasKey n.step.relation.targetKey k)).Pairwise
      fun a b => n.placeOf targets a ≤ n.placeOf targets b) :
    (n.mapSteps f).arranged targets ks = n.arranged targets ks := by
  obtain ⟨order, hstep⟩ := h.step
  rw [arranged_of_pairwise hlinks, arranged_of_pairwise]
  · simp only [step_mapSteps, hstep]
    rfl
  · rw [placeOf_mapSteps h.resembles]
    simpa only [step_mapSteps, hstep] using hlinks

theorem joinedLink_ordersByKey (hserves : m.Serves Value.isPlain n.step.relation) {j : String}
    (hj : n.step.relation.joinEntity = some j) (keys keys' : List Key) :
    joinedLink (n.mapSteps f) (m.found (joinQuery n j keys)) (m.found (targetQuery g n keys')) =
      joinedLink n (m.found (joinQuery n j keys)) (m.found (targetQuery g n keys')) :=
  joinedLink_mapSteps h.resembles fun k =>
    arranged_ordersByKey h (pairwise_targetsOf hserves h.targetKey h.ordering_eq_nil hj keys keys' k)

end Steps

end PlanNode

section Stitched

variable {entities : List Entity} {relations : List Relation} {g : Graph} {entity : String} {spec : Value}
  {maxDepth : Int} {p : Plan} {s : Session Memory} {f : Inclusion → Inclusion}

/-- Ordering targets by their primary key, ascending, is leaving their order open: stitching any rows comes to the same,
and every row of a level gets the same list. -/
theorem stitch_ordersByKey (hg : Graph.build entities relations = .ok g) (hp : compile g entity spec maxDepth = .ok p)
    (hf : ∀ s, f s = s ∨ s.OrdersByKey g (f s)) (hfaults : s.store.faults = []) (hprepared : s.store.prepared = [])
    (hserves : s.store.ServesAll Value.isPlain p) :
    (∀ (concurrency : Int) (entity : String) (rows : Value),
      (stitch g Memory.execute concurrency entity (p.mapSteps f) rows s).1 =
        (stitch g Memory.execute concurrency entity p rows s).1) ∧
    ∀ q ∈ p.levels, ∀ n ∈ q.nodes, n.step.OrdersByKey g (f n.step) → ∀ (rows : List Row) (path : List String),
      (∀ row ∈ rows, row.AllAt Value.isScalar n.step.relation.sourceKey) → ∃ lists : Row → List Row,
        rowsAfter n.key rows ((n.load g rows).run Memory.execute path n.step s).1 =
          rows.map (fun row => row.set n.key (.rows (lists row))) ∧
        rowsAfter n.key rows (((n.mapSteps f).load g rows).run Memory.execute path (f n.step) s).1 =
          rows.map fun row => row.set n.key (.rows (lists row)) := by
  have hresembles (s : Inclusion) : s.Resembles (f s) := by
    rcases hf s with h | h
    · rw [h]
      exact .refl s
    · exact h.resembles
  have hloads : ∀ q ∈ p.levels, ∀ n ∈ q.nodes, ∀ rows,
      ((n.mapSteps f).load g rows).eval s.store.answers = (n.load g rows).eval s.store.answers := by
    intro q hq n hn rows
    rcases hf n.step with h | h
    · rw [PlanNode.load_mapSteps_of_eq hresembles h]
    · exact PlanNode.eval_load_mapSteps hresembles (hserves q hq n hn) h.merge_eq h.kind
        (fun j hj => PlanNode.joinedLink_ordersByKey h (hserves q hq n hn) hj) rows
  refine ⟨Memory.stitch_mapSteps hresembles hfaults hprepared hloads, fun q hq n hn h rows path hrows => ?_⟩
  exact PlanNode.exists_lists_mapSteps (hloads q hq n hn rows) (by rw [h.kind]; decide)
    (Graph.consistent_of_build hg ((fits_of_compile hp).2 q hq n hn).mem).exists_join (hserves q hq n hn).isScalar hrows
    hfaults hprepared path

end Stitched

namespace Bookshelf

/-- Tags in the order of their primary key, where they are asked for without options. -/
def tagsByKey (s : Inclusion) : Inclusion :=
  if s.relation = tagsOfBook ∧ s.options = {} then { s with options := { orderBy := some ["id"] } } else s

theorem ordersByKey_tagsByKey (s : Inclusion) : tagsByKey s = s ∨ s.OrdersByKey graph (tagsByKey s) := by
  have htargetKey : tagsOfBook.targetKey = graph.primaryKey tagsOfBook.target := by decide +kernel
  unfold tagsByKey
  split
  · next h =>
    obtain ⟨key, relation, depth, options⟩ := s
    obtain ⟨rfl, rfl⟩ := h
    exact .inr ⟨rfl, htargetKey, rfl, ⟨none, rfl⟩, rfl⟩
  · exact .inl rfl

/-- Links of two books in no order; one of them is there twice, and one leads to no tag. -/
def tangled : Memory where
  tables := [("books", [[("id", .int 1)], [("id", .int 2)]]),
    ("tags", [[("id", .int 3)], [("id", .int 1)], [("id", .int 2)]]),
    ("book_tags", [[("book_id", .int 1), ("tag_id", .int 3)], [("book_id", .int 2), ("tag_id", .int 2)],
      [("book_id", .int 1), ("tag_id", .int 9)], [("book_id", .int 1), ("tag_id", .int 1)],
      [("book_id", .int 1), ("tag_id", .int 3)]])]

end Bookshelf

theorem stitch_ordersByKey_bookshelf :
    (stitch Bookshelf.graph Memory.execute 2 "books" ((planFor Bookshelf.tagsOfBook 0).mapSteps Bookshelf.tagsByKey)
        (.rows [[("id", .int 1)], [("id", .int 2)]]) { store := Bookshelf.tangled }).1 =
      .ok [[("id", .int 1), ("tags", .rows [[("id", .int 1)], [("id", .int 3)]])],
        [("id", .int 2), ("tags", .rows [[("id", .int 2)]])]] := by
  have hcompile : compile Bookshelf.graph "books" (requestFor "tags") 1 = .ok (planFor Bookshelf.tagsOfBook 0) := rfl
  have h := (stitch_ordersByKey (s := { store := Bookshelf.tangled }) Bookshelf.build_graph hcompile
    Bookshelf.ordersByKey_tagsByKey rfl rfl (by decide +kernel)).1
  exact (h 2 "books" _).trans (by decide +kernel)

end RelatedRows

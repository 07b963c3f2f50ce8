import RelatedRows.Proofs.Asked
import RelatedRows.Proofs.Batching
import RelatedRows.Proofs.Erasing
import RelatedRows.Proofs.Links
import RelatedRows.Proofs.Matching

/-!
# Pages of related rows

The window of a relation is cut out of what belongs to each row after everything else has been done for the row, so
windows that lie side by side show every related row once.

* `Paging`: a list in pages.
* `PlanNode.load_eq_cut`: a load is the load without a window, with its links cut.
* `load_paged`: the pages of every row make up its list.
* `stitchRows_paged`: so they do with all that is nested in their rows.
-/

namespace RelatedRows

open Stitch

/-! ## Pages of a list -/

/-- Whether a list is cut into pages: one after the other they are the list, and they are empty from its end on. -/
structure Paging {α : Type} (size : Nat) (whole : List α) (page : Nat → List α) : Prop where
  concat : ∀ count, whole.length ≤ count * size → (List.range count).flatMap page = whole
  empty_iff : ∀ k, page k = [] ↔ whole.length ≤ k * size

section Paging

variable {α β : Type} {size : Nat} {whole : List α} {page : Nat → List α}

theorem flatMap_pages (size count : Nat) (l : List α) :
    (List.range count).flatMap (fun k => (l.drop (k * size)).take size) = l.take (count * size) := by
  induction count with
  | zero => simp
  | succ count ih =>
    rw [List.range_succ, List.flatMap_append, ih, List.flatMap_singleton, Nat.succ_mul, List.take_add]

theorem paging_slices (hsize : 1 ≤ size) (l : List α) : Paging size l fun k => (l.drop (k * size)).take size where
  concat count hcount := by rw [flatMap_pages, List.take_of_length_le hcount]
  empty_iff k := by
    rw [List.take_eq_nil_iff, List.drop_eq_nil_iff]
    exact or_iff_right (by omega)

theorem Paging.map (h : Paging size whole page) (f : α → β) : Paging size (whole.map f) fun k => (page k).map f where
  concat count hcount := by
    rw [← List.map_flatMap, h.concat count (by rwa [List.length_map] at hcount)]
  empty_iff k := by rw [List.map_eq_nil_iff, h.empty_iff, List.length_map]

end Paging

/-! ## Cutting links -/

def Link.cut (o : Options) : Link → Link
  | .one p => .one p
  | .many ps => .many (o.window ps)

/-- Links rows to a stretch of what they would be linked to. -/
def Linking.cut (o : Options) (l : Linking) : Linking where
  found := l.found
  link row := (l.link row).map (Link.cut o)

def Attachment.cut (o : Options) (a : Attachment) : Attachment where
  found := a.found
  links := a.links.map (Link.cut o)

theorem Linking.attachment_cut (o : Options) (l : Linking) (rows : List Row) :
    (l.cut o).attachment rows = (l.attachment rows).map (Attachment.cut o) := by
  have hlinks : rows.mapM (l.cut o).link = (rows.mapM l.link).map (List.map (Link.cut o)) := by
    induction rows with
    | nil => rfl
    | cons row rows ih =>
      rw [List.mapM_cons, List.mapM_cons, ih]
      cases hrow : l.link row with
      | error f => simp [cut, hrow, Except.map, bind, Except.bind]
      | ok link =>
        cases hrows : rows.mapM l.link with
        | error f => simp [cut, hrow, Except.map, bind, Except.bind]
        | ok links => simp [cut, hrow, Except.map, bind, Except.bind, pure, Except.pure]
  rw [attachment, attachment, hlinks]
  cases rows.mapM l.link <;> rfl

/-- The same dialogue, with something else made of its result. -/
def Dialogue.map {α β : Type} (f : α → β) : Dialogue α → Dialogue β
  | .done a => .done (f a)
  | .ask q next => .ask q fun a => (next a).map f

section Dialogue

variable {α β σ : Type}

theorem Dialogue.eval_map (answer : BatchQuery → Answer) (f : α → β) (d : Dialogue α) :
    (d.map f).eval answer = f (d.eval answer) := by
  induction d with
  | done a => rfl
  | ask q next ih => exact ih (answer q)

/-- The queries that a dialogue puts to a store. -/
def Dialogue.put (exec : Executor σ) : Dialogue α → σ → List BatchQuery
  | .done _, _ => []
  | .ask q next, store => q :: (next (exec store (.batch q)).1).put exec (exec store (.batch q)).2

theorem Dialogue.put_map (exec : Executor σ) (f : α → β) (d : Dialogue α) (store : σ) :
    (d.map f).put exec store = d.put exec store := by
  induction d generalizing store with
  | done a => rfl
  | ask q next ih => exact congrArg (q :: ·) (ih _ _)

theorem Dialogue.queriesAfter_run (exec : Executor σ) (path : List String) (step : Inclusion) (d : Dialogue α)
    (s : Session σ) : (d.run exec path step s).2.queriesAfter s = d.put exec s.store := by
  suffices h : Session.queriesOf (d.run exec path step s).2.events =
      Session.queriesOf s.events ++ d.put exec s.store by
    obtain ⟨es, hes⟩ := Dialogue.events_run exec path step d s
    rw [← hes, Session.queriesOf_append] at h
    rw [Session.queriesAfter, Session.eventsAfter, ← hes, List.drop_left]
    exact List.append_cancel_left h
  induction d generalizing s with
  | done a => simp [run, put]
  | ask q next ih =>
    rw [run]
    refine (ih _ ((s.record [.query path step q]).called (exec s.store (.batch q)).2)).trans ?_
    show Session.queriesOf (s.events ++ [.query path step q]) ++ _ = _
    rw [Session.queriesOf_append, List.append_assoc]
    rfl

end Dialogue

/-! ## Loads without a window -/

namespace PlanNode

/-- A node without limit and offset. -/
def unpaged (n : PlanNode) : PlanNode :=
  n.withOptions { n.step.options with limit := none, offset := 0 }

/-- A node with one page of what belongs to each row. -/
def page (size k : Nat) (n : PlanNode) : PlanNode :=
  n.withOptions { n.step.options with limit := some size, offset := k * size }

section Unpaged

variable {size k : Nat} {n : PlanNode} {answer : BatchQuery → Answer} {g : Graph}

theorem unpaged_page : (n.page size k).unpaged = n.unpaged := by
  cases n <;> rfl

theorem key_unpaged : n.unpaged.key = n.key :=
  key_withOptions _ _

theorem key_page : (n.page size k).key = n.key :=
  key_withOptions _ _

theorem relation_unpaged : n.unpaged.step.relation = n.step.relation := by
  simp [unpaged]

theorem relation_page : (n.page size k).step.relation = n.step.relation := by
  simp [page]

theorem nest_unpaged : n.unpaged.nest answer g = n.nest answer g :=
  nest_withOptions _ _

theorem nest_page : (n.page size k).nest answer g = n.nest answer g :=
  nest_withOptions _ _

theorem trim_unpaged : n.unpaged.trim = n.trim :=
  trim_withOptions rfl rfl

theorem trim_page : (n.page size k).trim = n.trim :=
  trim_withOptions rfl rfl

end Unpaged

section Loads

variable {g : Graph} {n : PlanNode} {rows : List Row}

theorem fetched_unpaged : n.unpaged.fetched = n.fetched :=
  fetched_withOptions rfl

theorem linkBy_cut {columns : List String} {found : List Row} {o : Options} {link link' : Option (List Atom) → Link}
    (h : ∀ k, link' k = (link k).cut o) : linkBy columns found link' = (linkBy columns found link).cut o := by
  refine congrArg (Linking.mk found) (funext fun row => ?_)
  show (row.key? columns).map _ = ((row.key? columns).map _).map _
  cases row.key? columns with
  | error f => rfl
  | ok k => exact congrArg Except.ok (h _)

theorem linkMany_eq_cut (found : List KeyedRow) : linkMany n found = (linkMany n.unpaged found).cut n.step.options := by
  unfold linkMany
  simp only [unpaged, step_withOptions]
  exact linkBy_cut fun k => rfl

theorem arrange_eq_cut (index : List (List Atom × Nat)) (targets : List (Option RowKey)) :
    arrange n index targets = n.step.options.window (arrange n.unpaged index targets) := by
  unfold arrange
  simp only [unpaged, step_withOptions]
  rfl

theorem linkJoined_eq_cut (joins targets : List KeyedRow) :
    linkJoined n joins targets = (linkJoined n.unpaged joins targets).map (Linking.cut n.step.options) := by
  unfold linkJoined
  simp only [arrange_eq_cut (n := n)]
  simp only [unpaged, step_withOptions]
  cases joins.mapM fun j => j.row.key? n.step.relation.joinSourceKey with
  | error f => rfl
  | ok sources => exact congrArg Except.ok (linkBy_cut fun k => rfl)

theorem keyedRows_unpaged : keyedRows n.unpaged.step = keyedRows n.step := by
  simp only [unpaged, step_withOptions]
  rfl

theorem nothing_eq_cut (o : Options) :
    (Dialogue.done (nothing (.many []))).map (Except.map (Linking.cut o)) = .done (nothing (.many [])) := by
  simp [Dialogue.map, nothing, Except.map, Linking.cut, Link.cut, Options.window_nil]

theorem loadMany_eq_cut : loadMany g n rows =
    (loadMany g n.unpaged rows).map (Except.map (Linking.cut n.step.options)) := by
  have hquery (keys : List Key) : manyQuery g n.unpaged keys = manyQuery g n keys := by
    simp only [manyQuery, fetched_unpaged]
    simp only [unpaged, step_withOptions]
    rfl
  simp only [loadMany, hquery, keyedRows_unpaged, relation_unpaged]
  cases keyBatchOf n.step.relation.sourceKey rows with
  | error f => rfl
  | ok keys =>
    cases keys with
    | nil => exact (nothing_eq_cut _).symm
    | cons k ks =>
      refine congrArg (Dialogue.ask _) (funext fun a => congrArg Dialogue.done ?_)
      cases keyedRows n.step n.step.relation.targetKey a with
      | error f => rfl
      | ok found => exact congrArg Except.ok (linkMany_eq_cut found)

theorem loadTargets_eq_cut (joins : List KeyedRow) : loadTargets g n joins =
    (loadTargets g n.unpaged joins).map (Except.map (Linking.cut n.step.options)) := by
  have hquery (keys : List Key) : targetQuery g n.unpaged keys = targetQuery g n keys := by
    simp only [targetQuery, fetched_unpaged]
    simp only [unpaged, step_withOptions]
    rfl
  simp only [loadTargets, hquery, keyedRows_unpaged, relation_unpaged]
  cases keyBatch (joins.map (·.key)) with
  | nil => exact (nothing_eq_cut _).symm
  | cons k ks =>
    refine congrArg (Dialogue.ask _) (funext fun a => congrArg Dialogue.done ?_)
    cases keyedRows n.step n.step.relation.targetKey a with
    | error f => rfl
    | ok targets => exact linkJoined_eq_cut joins targets

theorem loadManyViaJoin_eq_cut : loadManyViaJoin g n rows =
    (loadManyViaJoin g n.unpaged rows).map (Except.map (Linking.cut n.step.options)) := by
  have hquery (j : String) (keys : List Key) : joinQuery n.unpaged j keys = joinQuery n j keys := by
    simp only [joinQuery, relation_unpaged]
  simp only [loadManyViaJoin, hquery, keyedRows_unpaged, relation_unpaged]
  cases n.step.relation.joinEntity with
  | none => rfl
  | some j =>
    cases keyBatchOf n.step.relation.sourceKey rows with
    | error f => rfl
    | ok keys =>
      cases keys with
      | nil => exact (nothing_eq_cut _).symm
      | cons k ks =>
        refine congrArg (Dialogue.ask _) (funext fun a => ?_)
        dsimp only
        cases keyedRows n.step n.step.relation.joinTargetKey a with
        | error f => rfl
        | ok joins => exact loadTargets_eq_cut joins

/-- A load of lists is the load without a window, with its links cut. -/
theorem load_eq_cut (hkind : n.step.relation.kind ≠ .one) :
    n.load g rows = (n.unpaged.load g rows).map (Except.map (Linking.cut n.step.options)) := by
  unfold load
  rw [relation_unpaged]
  cases hk : n.step.relation.kind with
  | one => exact absurd hk hkind
  | many => exact loadMany_eq_cut
  | manyViaJoin => exact loadManyViaJoin_eq_cut

/-- What a node attaches is cut out of what it attaches without a window. -/
theorem attach_eq_cut (hkind : n.step.relation.kind ≠ .one) (answer : BatchQuery → Answer) :
    n.attach answer g rows = (n.unpaged.attach answer g rows).map (Attachment.cut n.step.options) := by
  unfold attach
  rw [load_eq_cut hkind, Dialogue.eval_map]
  cases (n.unpaged.load g rows).eval answer with
  | error f => rfl
  | ok l => exact l.attachment_cut n.step.options rows

/-- The window of a node does not show in its queries. -/
theorem queriesAfter_unpaged {σ : Type} (hkind : n.step.relation.kind ≠ .one) (exec : Executor σ) (path : List String)
    (step step' : Inclusion) (s : Session σ) :
    ((n.load g rows).run exec path step s).2.queriesAfter s =
      ((n.unpaged.load g rows).run exec path step' s).2.queriesAfter s := by
  rw [Dialogue.queriesAfter_run, Dialogue.queriesAfter_run, load_eq_cut hkind, Dialogue.put_map]

end Loads

end PlanNode

/-! ## A level with one node -/

section Single

variable {answer : BatchQuery → Answer} {g : Graph} {n : PlanNode} {rows found : List Row} {link : Row → Link}

theorem related_many {ps : List Nat} (h : ∀ i ∈ ps, i < found.length) :
    (Link.many ps).related found = .many (ps.map fun i => (found[i]?).getD []) := by
  rw [Link.related, ← List.filterMap_eq_map]
  refine congrArg Related.many (List.filterMap_congr fun i hi => ?_)
  simp [List.getElem?_eq_getElem (h i hi)]

theorem rowsAfter_links {r : Except Fault Linking} (h : r >>= (·.attachment rows) = .ok ⟨found, rows.map link⟩)
    (key : String) : rowsAfter key rows r = rows.map fun row => row.set key ((link row).value found) := by
  obtain ⟨l, rfl, ha⟩ := Except.bind_eq_ok h
  refine (l.attachTo_of_attachment ha key).trans ?_
  rw [Attachment.attachTo, List.zipWith_map_right, List.zipWith_self]

/-- Stitching one node, below which every row is finished on its own. -/
theorem nest_single {f : Row → Row} (hattach : n.attach answer g rows = .ok ⟨found, rows.map link⟩)
    (hsound : ∀ row ∈ rows, ∀ i ∈ (link row).positions, i < found.length)
    (hbelow : ∀ attached : List Row, attached ⊆ found → n.nest answer g attached = .ok (attached.map f))
    (entity : String) (depth : Nat) (pruned : List String) :
    (Plan.mk entity depth [n] pruned).nest answer g rows =
      .ok (rows.map fun row => row.set n.key (((link row).related found).map fun t => n.trim (f t)).value) := by
  by_cases hempty : rows.isEmpty = true
  · rw [Plan.nest_of_isEmpty _ _ hempty, List.isEmpty_iff.mp hempty]
    rfl
  let a : Attachment := ⟨found, rows.map link⟩
  have ha : a.Sound := by
    intro l hl
    obtain ⟨row, hrow, rfl⟩ := List.mem_map.mp hl
    exact hsound row hrow
  have hloads : [n].mapM (PlanNode.attach answer g · rows) = .ok [a] := by
    rw [Except.mapM_cons_ok (f := (PlanNode.attach answer g · rows)) hattach]
    rfl
  have hattached : ([n].zip [a]).mapM (fun n => n.1.nest answer g n.2.attached) = .ok [a.attached.map f] := by
    have hnest : n.nest answer g a.attached = _ := hbelow a.attached fun row => a.mem_found_of_mem_attached
    rw [List.zip_cons_cons, Except.mapM_cons_ok (f := fun n : Loaded => n.1.nest answer g n.2.attached) hnest]
    rfl
  have hapart : (Plan.mk entity depth [n] pruned).KeysApart := List.pairwise_singleton _ _
  rw [Plan.nest_eq _ _ hapart hempty]
  show [n].mapM (PlanNode.attach answer g · rows) >>= finishLevel answer g [n] rows = _
  rw [hloads]
  show finishLevel answer g [n] rows [a] = _
  rw [finishLevel, hattached]
  show Except.ok (settleAll rows [(n, a)] [a.attached.map f]) = _
  rw [settleAll_eq]
  show Except.ok (writeColumns [Loaded.column (n, a) (a.attached.map f)] rows) = _
  rw [Loaded.column_map n ha, List.map_map]
  show Except.ok (rows.zipWith (fun row v => row.set n.key v) (rows.map _)) = _
  rw [List.zipWith_map_right, List.zipWith_self]
  rfl

end Single

/-! ## Pages over a database -/

section Database

variable {m : Memory} {g : Graph} {n : PlanNode} {rows : List Row}

/-- A node that attaches lists links every row to some of the rows that it finds. -/
theorem PlanNode.exists_links (hkind : n.step.relation.kind ≠ .one)
    (hjoin : n.step.relation.kind = .manyViaJoin → ∃ j, n.step.relation.joinEntity = some j)
    (hserves : m.Serves Value.isScalar n.step.relation)
    (hrows : ∀ row ∈ rows, row.AllAt Value.isScalar n.step.relation.sourceKey) :
    ∃ (found : List Row) (positions : Row → List Nat),
      n.attach m.answers g rows = .ok ⟨found, rows.map fun row => .many (positions row)⟩ ∧
      (∀ row, ∀ i ∈ positions row, i < found.length) ∧
      ∀ row ∈ found, ∃ t ∈ m.rowsOf n.step.relation.target, row = project (n.fetched n.step.relation.targetKey) t := by
  have hkeyable : ∀ row ∈ rows, row.Keyable n.step.relation.sourceKey := fun row hrow => (hrows row hrow).keyable
  cases hk : n.step.relation.kind with
  | one => exact absurd hk hkind
  | many =>
    let q := manyQuery g n (n.keys rows)
    refine ⟨m.found q, fun row => (manyLink n.step.relation.targetKey n.step.options (m.found q)
        (row.identity n.step.relation.sourceKey)).positions, ?_, fun row i => lt_of_mem_manyLink _ _,
      fetched_found rfl rfl⟩
    exact attach_many hk hkeyable (Memory.answered_found (q := q) hserves.target) (keyable_found hserves rfl)
  | manyViaJoin =>
    obtain ⟨j, hj⟩ := hjoin hk
    let joins := m.found (joinQuery n j (n.keys rows))
    let q := targetQuery g n (keyBatch (joins.map (Row.keyOf n.step.relation.joinTargetKey)))
    have hjoins : ∀ row ∈ joins, row.Keyable n.step.relation.joinSourceKey ∧
        row.Keyable n.step.relation.joinTargetKey := by
      intro row hrow
      obtain ⟨t, ht, rfl⟩ := Memory.of_mem_found hrow
      have hscalar := hserves.allAt_join hj ht
      exact ⟨(hscalar.1.project rfl _).keyable, (hscalar.2.project rfl _).keyable⟩
    refine ⟨m.found q, fun row => (joinedLink n joins (m.found q) (row.identity n.step.relation.sourceKey)).positions,
      ?_, fun row i => lt_of_mem_joinedLink, fetched_found rfl rfl⟩
    exact attach_manyViaJoin hk hj hkeyable (Memory.answered_found (hserves.join j hj)) hjoins
      (Memory.answered_found (q := q) hserves.target) (keyable_found hserves rfl)

theorem Dialogue.run_plain {α : Type} {s : Session Memory} (hfaults : s.store.faults = [])
    (hprepared : s.store.prepared = []) (path : List String) (step : Inclusion) (d : Dialogue α) :
    (d.run Memory.execute path step s).1 = d.eval s.store.answers := by
  have hexecute := Memory.execute_of_plain hfaults hprepared
  generalize hstore : s.store = store at hexecute
  clear hfaults hprepared
  induction d generalizing s with
  | done a => rfl
  | ask q next ih =>
    have hcall : Memory.execute s.store (.batch q) = (store.answers q, store) := by
      rw [hstore, hexecute]
      rfl
    rw [run, eval]
    simp only [hcall]
    exact ih _ rfl

section Plain

variable {s : Session Memory} (hfaults : s.store.faults = []) (hprepared : s.store.prepared = [])
  {found : List Row} {positions : Row → List Nat}
  (hattach : n.attach s.store.answers g rows = .ok ⟨found, rows.map fun row => .many (positions row)⟩)
  (hsound : ∀ row, ∀ i ∈ positions row, i < found.length)

include hfaults hprepared hattach hsound

theorem PlanNode.rowsAfter_run (path : List String) :
    rowsAfter n.key rows ((n.load g rows).run Memory.execute path n.step s).1 =
      rows.map fun row => row.set n.key (.rows ((positions row).map fun i => (found[i]?).getD [])) := by
  rw [Dialogue.run_plain hfaults hprepared, rowsAfter_links hattach]
  refine List.map_congr_left fun row _ => ?_
  rw [Link.value_eq, related_many (hsound row)]
  rfl

theorem PlanNode.stitchRows_single {f : Row → Row}
    (hbelow : ∀ attached : List Row, attached ⊆ found → n.nest s.store.answers g attached = .ok (attached.map f))
    (entity : String) (depth : Nat) :
    (stitchRows Memory.execute g (.mk entity depth [n] []) rows s).1 =
      .ok (rows.map fun row => row.set n.key
        (.rows (((positions row).map fun i => (found[i]?).getD []).map fun t => n.trim (f t)))) := by
  rw [Memory.stitchRows_fst hfaults hprepared, nest_single hattach (fun row _ => hsound row) hbelow]
  refine congrArg Except.ok (List.map_congr_left fun row _ => ?_)
  rw [related_many (hsound row)]
  rfl

end Plain

section Paged

variable {entities : List Entity} {relations : List Relation} {entity : String} {spec : Value} {maxDepth : Int}
  {p q : Plan} {s : Session Memory} {size : Nat}

/-- Below a node of a compiled plan rows are finished one by one, if the keys stand apart there and are plain. -/
theorem PlanNode.nest_fetched (hg : Graph.build entities relations = .ok g) (hfits : q.Fits g) (hn : n ∈ q.nodes)
    (hbelow : ∀ p, n.nested? = some p → (∀ r ∈ p.levels, r.KeysApart) ∧ m.ServesAll Value.isPlain p)
    {columns : Option (List String)} {rows : List Row}
    (hrows : ∀ row ∈ rows, ∃ t ∈ m.rowsOf n.step.relation.target, row = project columns t) :
    n.nest m.answers g rows = .ok (rows.map (n.fill m g)) := by
  cases n with
  | leaf s =>
    show Except.ok rows = .ok (rows.map id)
    rw [List.map_id]
  | branch s p =>
    obtain ⟨hapart, hserves⟩ := hbelow p rfl
    have hp : p.entity = s.relation.target := (hfits q q.mem_levels_self _ hn).nested p rfl
    refine Plan.nest_eq_fill (fun r => Graph.consistent_of_build hg) (hfits.below hn) hapart hserves fun row hrow => ?_
    exact plain_fetched (hfits.below hn) hp hserves (hrows row hrow)

/-- What a node finds, and which of it each row is linked to: all of it without limit and offset, and a stretch of it
with a page. -/
structure PlanNode.Pages (n : PlanNode) (m : Memory) (g : Graph) (size : Nat) (rows found : List Row)
    (positions : Row → List Nat) : Prop where
  whole : n.unpaged.attach m.answers g rows = .ok ⟨found, rows.map fun row => .many (positions row)⟩
  page : ∀ k, (n.page size k).attach m.answers g rows =
    .ok ⟨found, rows.map fun row => .many (((positions row).drop (k * size)).take size)⟩
  inside : ∀ row, ∀ i ∈ positions row, i < found.length
  fetched : ∀ row ∈ found, ∃ t ∈ m.rowsOf n.step.relation.target,
    row = project (n.unpaged.fetched n.step.relation.targetKey) t

namespace PlanNode

theorem exists_pages (hg : Graph.build entities relations = .ok g) (hfits : q.Fits g) (hn : n ∈ q.nodes)
    (hkind : n.step.relation.kind ≠ .one) (hrows : ∀ row ∈ rows, row.AllAt Value.isScalar n.step.relation.sourceKey)
    (hserves : m.Serves Value.isScalar n.step.relation) (size : Nat) :
    ∃ found positions, n.Pages m g size rows found positions := by
  have hjoin := (Graph.consistent_of_build hg (hfits q q.mem_levels_self n hn).mem).exists_join
  obtain ⟨found, positions, hattach, hinside, hfetched⟩ := exists_links (m := m) (g := g) (n := n.unpaged)
    (by rwa [relation_unpaged]) (by rwa [relation_unpaged]) (by rwa [relation_unpaged]) (by rwa [relation_unpaged])
  rw [relation_unpaged] at hfetched
  refine ⟨found, positions, hattach, fun k => ?_, hinside, hfetched⟩
  rw [attach_eq_cut (by rwa [relation_page]), unpaged_page, hattach]
  simp only [Except.map, Attachment.cut, List.map_map]
  simp only [page, step_withOptions]
  rfl

namespace Pages

variable {found : List Row} {positions : Row → List Nat} (h : n.Pages s.store g size rows found positions)

include h

theorem inside_page (k : Nat) : ∀ row, ∀ i ∈ ((positions row).drop (k * size)).take size, i < found.length :=
  fun row i hi => h.inside row i (List.mem_of_mem_drop (List.mem_of_mem_take hi))

/-- With everything below the node stitched, each row of a page is as it is in the whole list. -/
theorem stitchRows_eq (hg : Graph.build entities relations = .ok g) (hfits : q.Fits g) (hn : n ∈ q.nodes)
    (hfaults : s.store.faults = []) (hprepared : s.store.prepared = [])
    (hbelow : ∀ p, n.nested? = some p → (∀ r ∈ p.levels, r.KeysApart) ∧ s.store.ServesAll Value.isPlain p) :
    ∃ below : Row → Row,
      (stitchRows Memory.execute g (.mk q.entity q.depth [n.unpaged] []) rows s).1 =
        .ok (rows.map fun row => row.set n.key
          (.rows (((positions row).map fun i => (found[i]?).getD []).map below))) ∧
      ∀ k, (stitchRows Memory.execute g (.mk q.entity q.depth [n.page size k] []) rows s).1 =
        .ok (rows.map fun row => row.set n.key
          (.rows (((((positions row).drop (k * size)).take size).map fun i => (found[i]?).getD []).map below))) := by
  have hnest : ∀ attached : List Row, attached ⊆ found →
      n.nest s.store.answers g attached = .ok (attached.map (n.fill s.store g)) :=
    fun attached hattached => nest_fetched hg hfits hn hbelow fun row hrow => h.fetched row (hattached hrow)
  refine ⟨fun t => n.trim (n.fill s.store g t), ?_, fun k => ?_⟩
  · rw [stitchRows_single hfaults hprepared h.whole h.inside (by rwa [nest_unpaged]), key_unpaged, trim_unpaged]
  · rw [stitchRows_single hfaults hprepared (h.page k) (h.inside_page k) (by rwa [nest_page]), key_page, trim_page]

end Pages

end PlanNode

/-- The lists that are stitched for the pages of a node make up the list that is stitched without limit and offset, with
all that is nested in its rows, if the keys stand apart below the node and are plain there. -/
theorem stitchRows_paged (hg : Graph.build entities relations = .ok g)
    (hp : compile g entity spec maxDepth = .ok p) (hq : q ∈ p.levels) (hn : n ∈ q.nodes)
    (hkind : n.step.relation.kind ≠ .one) (hsize : 1 ≤ size)
    (hrows : ∀ row ∈ rows, row.AllAt Value.isScalar n.step.relation.sourceKey) (hfaults : s.store.faults = [])
    (hprepared : s.store.prepared = []) (hserves : s.store.Serves Value.isScalar n.step.relation)
    (hbelow : ∀ p, n.nested? = some p → (∀ r ∈ p.levels, r.KeysApart) ∧ s.store.ServesAll Value.isPlain p) :
    ∃ (whole : Row → List Row) (page : Nat → Row → List Row),
      (∀ row, Paging size (whole row) fun k => page k row) ∧
      (stitchRows Memory.execute g (.mk q.entity q.depth [n.unpaged] []) rows s).1 =
        .ok (rows.map fun row => row.set n.key (.rows (whole row))) ∧
      ∀ k, (stitchRows Memory.execute g (.mk q.entity q.depth [n.page size k] []) rows s).1 =
        .ok (rows.map fun row => row.set n.key (.rows (page k row))) := by
  have hfits : q.Fits g := fun r hr => (fits_of_compile hp).2 r (Plan.levels_trans hq hr)
  obtain ⟨found, positions, hpages⟩ := PlanNode.exists_pages hg hfits hn hkind hrows hserves size
  obtain ⟨below, hwhole, hpage⟩ := hpages.stitchRows_eq hg hfits hn hfaults hprepared hbelow
  exact ⟨_, _, fun row => ((paging_slices hsize (positions row)).map _).map below, hwhole, hpage⟩

/-- A node with a page of a compiled plan attaches the pages of one list to every row: put together they are what it
attaches without limit and offset, and they are empty from the end of that list on.  It asks the same queries for every
page.  Where `stitchRows_paged` applies, what is nested in the rows of a page is what is nested in them in the whole
list. -/
theorem load_paged (hg : Graph.build entities relations = .ok g) (hp : compile g entity spec maxDepth = .ok p)
    (hq : q ∈ p.levels) (hn : n ∈ q.nodes) (hkind : n.step.relation.kind ≠ .one) (hsize : 1 ≤ size)
    (hrows : ∀ row ∈ rows, row.AllAt Value.isScalar n.step.relation.sourceKey) (hfaults : s.store.faults = [])
    (hprepared : s.store.prepared = []) (hserves : s.store.ServesAll Value.isScalar p) (path : List String) :
    ∃ (whole : Row → List Row) (page : Nat → Row → List Row),
      (∀ row, Paging size (whole row) fun k => page k row) ∧
      rowsAfter n.key rows ((n.unpaged.load g rows).run Memory.execute path n.unpaged.step s).1 =
        rows.map (fun row => row.set n.key (.rows (whole row))) ∧
      (∀ k, rowsAfter n.key rows (((n.page size k).load g rows).run Memory.execute path (n.page size k).step s).1 =
        rows.map fun row => row.set n.key (.rows (page k row))) ∧
      (∀ k, (((n.page size k).load g rows).run Memory.execute path (n.page size k).step s).2.queriesAfter s =
        ((n.unpaged.load g rows).run Memory.execute path n.unpaged.step s).2.queriesAfter s) ∧
      ((∀ p, n.nested? = some p → (∀ r ∈ p.levels, r.KeysApart) ∧ s.store.ServesAll Value.isPlain p) →
        ∃ below : Row → Row,
          (stitchRows Memory.execute g (.mk q.entity q.depth [n.unpaged] []) rows s).1 =
            .ok (rows.map fun row => row.set n.key (.rows ((whole row).map below))) ∧
          ∀ k, (stitchRows Memory.execute g (.mk q.entity q.depth [n.page size k] []) rows s).1 =
            .ok (rows.map fun row => row.set n.key (.rows ((page k row).map below)))) := by
  have hfits : q.Fits g := fun r hr => (fits_of_compile hp).2 r (Plan.levels_trans hq hr)
  obtain ⟨found, positions, hpages⟩ := PlanNode.exists_pages hg hfits hn hkind hrows (hserves q hq n hn) size
  refine ⟨fun row => (positions row).map fun i => (found[i]?).getD [],
    fun k row => (((positions row).drop (k * size)).take size).map fun i => (found[i]?).getD [],
    fun row => (paging_slices hsize (positions row)).map _, ?_, fun k => ?_, fun k => ?_,
    hpages.stitchRows_eq hg hfits hn hfaults hprepared⟩
  · rw [← n.key_unpaged, PlanNode.rowsAfter_run hfaults hprepared hpages.whole hpages.inside]
  · rw [← n.key_page, PlanNode.rowsAfter_run hfaults hprepared (hpages.page k) (hpages.inside_page k)]
  · rw [PlanNode.queriesAfter_unpaged (by rwa [PlanNode.relation_page]), PlanNode.unpaged_page]

end Paged

end Database

/-- The books of authors, with their tags. -/
def Bookshelf.booksNode : PlanNode :=
  plan.nodes.headD laterBooks

/-- The books of two authors, one to a page. -/
theorem load_paged_bookshelf :
    ∃ (whole : Row → List Row) (page : Nat → Row → List Row),
      (∀ row, Paging 1 (whole row) fun k => page k row) ∧
      ∃ below : Row → Row,
        (stitchRows Memory.execute Bookshelf.graph (.mk "authors" 0 [Bookshelf.booksNode.unpaged] [])
            [[("id", .int 1)], [("id", .int 2)]] { store := Bookshelf.database }).1 =
          .ok [[("id", .int 1), ("books", .rows ((whole [("id", .int 1)]).map below))],
            [("id", .int 2), ("books", .rows ((whole [("id", .int 2)]).map below))]] ∧
        ∀ k, (stitchRows Memory.execute Bookshelf.graph (.mk "authors" 0 [Bookshelf.booksNode.page 1 k] [])
            [[("id", .int 1)], [("id", .int 2)]] { store := Bookshelf.database }).1 =
          .ok [[("id", .int 1), ("books", .rows ((page k [("id", .int 1)]).map below))],
            [("id", .int 2), ("books", .rows ((page k [("id", .int 2)]).map below))]] := by
  obtain ⟨whole, page, hpaging, -, -, -, hbelow⟩ := load_paged (s := { store := Bookshelf.database })
    Bookshelf.build_graph Bookshelf.compile_request (Plan.mem_levels_self _)
    (List.Mem.head _ : Bookshelf.booksNode ∈ Bookshelf.plan.nodes) (by decide +kernel) (Nat.le_refl 1)
    (by decide +kernel : ∀ row ∈ ([[("id", .int 1)], [("id", .int 2)]] : List Row),
      row.AllAt Value.isScalar Bookshelf.booksNode.step.relation.sourceKey) rfl rfl (by decide +kernel) []
  obtain ⟨below, hwhole, hpages⟩ := hbelow fun p hp => by
    cases hp
    exact ⟨by decide +kernel, by decide +kernel⟩
  exact ⟨whole, page, hpaging, below, hwhole, hpages⟩

end RelatedRows

import RelatedRows.Proofs.Plans
import RelatedRows.Proofs.Roots
import RelatedRows.Proofs.Scanning

/-!
# Loads over tables

What a load finds in a database is a part of a sorted table, and the rows that belong to one parent are found in it
whatever the other parents are.

* `Value.isPlain`: the values that a database compares as keys are compared.
* `BatchQuery.selects_of_hasKey`: a query with the keys of some rows selects every row that belongs to one of them.
* `scanOne_part`, `scanMany_part`, `scanJoined_part`: scanning a part of a table that holds all rows with a key.
* `PlanNode.scan m g n row`: what a node attaches to a row, from the tables and that row alone.
* `PlanNode.exists_attach`: a load over a database links every row to what scanning the tables finds for it.
-/

namespace RelatedRows

/-! ## Plain keys -/

/-- A truth value is no plain value: as a key it is the number one or zero, but to a database it is none of them. -/
def Value.isPlain : Value → Bool
  | .null | .number _ | .text _ => true
  | _ => false

theorem Value.isScalar_of_isPlain {v : Value} (h : v.isPlain = true) : v.isScalar = true := by
  cases v with
  | list vs => cases h
  | object fields => cases h
  | _ => rfl

theorem Value.equals_of_atomOf {v w : Value} (hv : v.isPlain = true) (hw : w.isPlain = true) (hn : w.isNull = false)
    (h : v.atomOf = w.atomOf) : v.equals w = true := by
  cases w with
  | null => cases hn
  | number b =>
    cases v with
    | number a => simpa [equals, atomOf] using h
    | bool a => cases hv
    | _ => simp [atomOf] at h
  | text t =>
    cases v with
    | text s => simpa [equals, atomOf] using h
    | _ => simp [atomOf] at h
  | _ => cases hw

theorem Row.AllAt.isScalar {columns : List String} {row : Row} (h : row.AllAt Value.isPlain columns) :
    row.AllAt Value.isScalar columns :=
  fun c hc => Value.isScalar_of_isPlain (h c hc)

/-- Leaving columns out brings in nothing new: a missing column holds nothing. -/
theorem Row.AllAt.project {sort : Value → Bool} (hnull : sort .null = true) {columns : List String} {row : Row}
    (h : row.AllAt sort columns) (cs : Option (List String)) : Row.AllAt sort columns (project cs row) := by
  intro c hc
  cases cs with
  | none => exact h c hc
  | some cs =>
    show sort ((Row.keep cs.contains row).get c) = true
    rw [Row.get_eq_lookup, Row.lookup_keep]
    split
    · exact h c hc
    · exact hnull

/-! ## Selecting by keys -/

theorem matchesKey_of_atoms {columns : List String} {row : Row} {key : Key} (hrow : row.AllAt Value.isPlain columns)
    (hplain : ∀ v ∈ key, v.isPlain = true) (hnull : ∀ v ∈ key, v.isNull = false)
    (h : (row.spelling columns).map Value.atomOf = key.map Value.atomOf) : matchesKey columns row key = true := by
  induction columns generalizing key with
  | nil => simp [matchesKey]
  | cons c columns ih =>
    cases key with
    | nil => simp [matchesKey]
    | cons v key =>
      simp only [Row.spelling, List.map_cons, List.cons.injEq] at h
      have hhead : (row.get c).equals v = true :=
        Value.equals_of_atomOf (hrow c List.mem_cons_self) (hplain v List.mem_cons_self)
          (hnull v List.mem_cons_self) h.1
      have htail : matchesKey columns row key = true :=
        ih (fun d hd => hrow d (List.mem_cons_of_mem _ hd)) (fun w hw => hplain w (List.mem_cons_of_mem _ hw))
          (fun w hw => hnull w (List.mem_cons_of_mem _ hw)) h.2
      simp only [matchesKey] at htail
      simp [matchesKey, hhead, htail]

theorem Stitch.exists_mem_keyBatch {keys : List (Option RowKey)} {k : RowKey} (h : some k ∈ keys) :
    ∃ k', some k' ∈ keys ∧ k'.identity = k.identity ∧ k'.spelling ∈ keyBatch keys := by
  have hmem : (k.identity, k.spelling) ∈ keys.filterMap fun k => k.map fun k => (k.identity, k.spelling) :=
    List.mem_filterMap.mpr ⟨some k, h, rfl⟩
  have hfirst := lookup_firstEntries (keys.filterMap fun k => k.map fun k => (k.identity, k.spelling)) k.identity
  cases hlook : (keys.filterMap fun k => k.map fun k => (k.identity, k.spelling)).lookup k.identity with
  | none =>
    rw [List.lookup_eq_none_iff] at hlook
    simpa using hlook _ hmem
  | some spelling =>
    rw [hlook] at hfirst
    obtain ⟨l₁, l₂, hsplit, -⟩ := List.lookup_eq_some_iff.mp hlook
    have hin : (k.identity, spelling) ∈ keys.filterMap fun k => k.map fun k => (k.identity, k.spelling) := by
      rw [hsplit]
      simp
    obtain ⟨o, ho, heq⟩ := List.mem_filterMap.mp hin
    obtain ⟨k', rfl, hk'⟩ := Option.map_eq_some_iff.mp heq
    simp only [Prod.mk.injEq] at hk'
    refine ⟨k', ho, hk'.1, ?_⟩
    obtain ⟨m₁, m₂, hsplit', -⟩ := List.lookup_eq_some_iff.mp hfirst
    refine List.mem_map.mpr ⟨(k.identity, spelling), ?_, hk'.2.symm⟩
    rw [hsplit']
    simp

theorem BatchQuery.selects_of_hasKey {q : BatchQuery} {columns : List String} {rows : List Row} {k : List Atom}
    {row t : Row} (hq : q.keys = Stitch.keyBatch (rows.map (Row.keyOf columns)))
    (hrows : ∀ row ∈ rows, row.AllAt Value.isPlain columns) (hrow : row ∈ rows) (hk : row.identity columns = some k)
    (ht : t.AllAt Value.isPlain q.keyColumns) (htk : t.hasKey q.keyColumns k = true) : q.selects t = true := by
  obtain ⟨key, hkey, rfl⟩ := Option.map_eq_some_iff.mp hk
  obtain ⟨key', hmem, hid, hspelling⟩ := Stitch.exists_mem_keyBatch (List.mem_map.mpr ⟨row, hrow, hkey⟩)
  obtain ⟨row', hrow', hkey'⟩ := List.mem_map.mp hmem
  obtain ⟨hs, hatoms, hnull⟩ := Row.keyOf_eq_some hkey'
  have hidentity : t.identity q.keyColumns = some key.identity := by simpa [Row.hasKey] using htk
  obtain ⟨tkey, htkey, htid⟩ := Option.map_eq_some_iff.mp hidentity
  refine List.any_eq_true.mpr ⟨key'.spelling, by rw [hq]; exact hspelling, ?_⟩
  refine matchesKey_of_atoms ht ?_ (by rw [hs]; exact hnull) ?_
  · intro v hv
    rw [hs] at hv
    obtain ⟨c, hc, rfl⟩ := List.mem_map.mp hv
    exact hrows row' hrow' c hc
  · rw [hs, ← hatoms, hid, ← htid, (Row.keyOf_eq_some htkey).2.1]

/-! ## Parts of tables -/

section Parts

variable {columns : List String} {o : Options} {n : PlanNode} {rows joins targets : List Row}
  {sel selJoins selTargets : Row → Bool} {f fJoins : Row → Row} {k : Option (List Atom)}

theorem hasKey_comp (hf : ∀ row, (f row).identity columns = row.identity columns) (k : List Atom) :
    Row.hasKey columns k ∘ f = Row.hasKey columns k := by
  funext row
  simp [Row.hasKey, hf]

/-- What is looked for is found in any part of a list that holds all of it. -/
theorem find?_filter_of_imp {α : Type} {p sel : α → Bool} {l : List α} (h : ∀ x ∈ l, p x = true → sel x = true) :
    (l.filter sel).find? p = l.find? p := by
  induction l with
  | nil => rfl
  | cons a l ih =>
    have hrest := ih fun x hx => h x (List.mem_cons_of_mem _ hx)
    rw [List.filter_cons, List.find?_cons]
    cases hp : p a with
    | true => rw [if_pos (h a List.mem_cons_self hp), List.find?_cons, hp]
    | false =>
      split
      · rw [List.find?_cons, hp, hrest]
      · exact hrest

theorem find?_part (hf : ∀ row, (f row).identity columns = row.identity columns) {k : List Atom}
    (h : ∀ row ∈ rows, row.hasKey columns k = true → sel row = true) :
    ((rows.filter sel).map f).find? (Row.hasKey columns k) = (rows.find? (Row.hasKey columns k)).map f := by
  rw [List.find?_map, hasKey_comp hf, find?_filter_of_imp h]

theorem filter_part (hf : ∀ row, (f row).identity columns = row.identity columns) {k : List Atom}
    (h : ∀ row ∈ rows, row.hasKey columns k = true → sel row = true) :
    ((rows.filter sel).map f).filter (Row.hasKey columns k) = (rows.filter (Row.hasKey columns k)).map f := by
  rw [List.filter_map, hasKey_comp hf, List.filter_filter]
  refine congrArg _ (List.filter_congr fun row hrow => ?_)
  cases hk : row.hasKey columns k with
  | false => rfl
  | true => rw [h row hrow hk]; rfl

theorem scanOne_part (hf : ∀ row, (f row).identity columns = row.identity columns)
    (h : ∀ k', k = some k' → ∀ row ∈ rows, row.hasKey columns k' = true → sel row = true) :
    scanOne columns ((rows.filter sel).map f) k = (scanOne columns rows k).map f := by
  cases k with
  | none => rfl
  | some k =>
    simp only [scanOne, Option.bind_some, Related.map]
    rw [find?_part hf (h k rfl)]

theorem scanMany_part (hf : ∀ row, (f row).identity columns = row.identity columns)
    (h : ∀ k', k = some k' → ∀ row ∈ rows, row.hasKey columns k' = true → sel row = true) :
    scanMany columns o ((rows.filter sel).map f) k = (scanMany columns o rows k).map f := by
  cases k with
  | none => simp [scanMany, Related.map, Options.window_nil]
  | some k =>
    simp only [scanMany, Option.elim_some, Related.map]
    rw [filter_part hf (h k rfl), Options.window_map]

theorem targetsOf_part
    (hf : ∀ row, (fJoins row).identity n.step.relation.joinSourceKey = row.identity n.step.relation.joinSourceKey ∧
      (fJoins row).identity n.step.relation.joinTargetKey = row.identity n.step.relation.joinTargetKey)
    (h : ∀ k', k = some k' → ∀ row ∈ joins, row.hasKey n.step.relation.joinSourceKey k' = true → selJoins row = true) :
    n.targetsOf ((joins.filter selJoins).map fJoins) k = n.targetsOf joins k := by
  cases k with
  | none => rfl
  | some k =>
    simp only [PlanNode.targetsOf, Option.elim_some]
    rw [filter_part (fun row => (hf row).1) (h k rfl), List.filterMap_map]
    exact List.filterMap_congr fun row _ => (hf row).2

/-- One predicate holds no later than another one if the first element with either of them has it. -/
theorem findIdx_le_findIdx {α : Type} (p q : α → Bool) (l : List α) :
    l.findIdx p ≤ l.findIdx q ↔ ∀ x, l.find? (fun x => p x || q x) = some x → p x = true := by
  induction l with
  | nil => simp
  | cons a l ih =>
    rw [List.findIdx_cons, List.findIdx_cons, List.find?_cons]
    cases hp : p a with
    | true => simp [hp]
    | false =>
      cases hq : q a with
      | true => simp [hp]
      | false => simpa using ih

theorem placeOf_map
    (hf : ∀ row, (f row).identity n.step.relation.targetKey = row.identity n.step.relation.targetKey)
    (targets : List Row) (k : List Atom) : n.placeOf (targets.map f) k = n.placeOf targets k := by
  rw [PlanNode.placeOf, List.findIdx_map, hasKey_comp hf]
  rfl

theorem placeOf_le_part
    (hf : ∀ row, (f row).identity n.step.relation.targetKey = row.identity n.step.relation.targetKey)
    {a b : List Atom}
    (ha : ∀ row ∈ targets, row.hasKey n.step.relation.targetKey a = true → selTargets row = true)
    (hb : ∀ row ∈ targets, row.hasKey n.step.relation.targetKey b = true → selTargets row = true) :
    n.placeOf ((targets.filter selTargets).map f) a ≤ n.placeOf ((targets.filter selTargets).map f) b ↔
      n.placeOf targets a ≤ n.placeOf targets b := by
  have hfind : (targets.filter selTargets).find? (fun row =>
        row.hasKey n.step.relation.targetKey a || row.hasKey n.step.relation.targetKey b) =
      targets.find? (fun row => row.hasKey n.step.relation.targetKey a || row.hasKey n.step.relation.targetKey b) := by
    refine find?_filter_of_imp fun row hrow hkey => ?_
    rcases Bool.or_eq_true_iff.mp hkey with hkey | hkey
    · exact ha row hrow hkey
    · exact hb row hrow hkey
  rw [placeOf_map hf, placeOf_map hf, PlanNode.placeOf, PlanNode.placeOf, findIdx_le_findIdx, hfind,
    ← findIdx_le_findIdx]
  rfl

theorem arranged_part
    (hf : ∀ row, (f row).identity n.step.relation.targetKey = row.identity n.step.relation.targetKey)
    {ks : List (List Atom)}
    (h : ∀ k ∈ ks, ∀ row ∈ targets, row.hasKey n.step.relation.targetKey k = true → selTargets row = true) :
    n.arranged ((targets.filter selTargets).map f) ks = n.arranged targets ks := by
  have hpresent : ks.filter (fun k =>
        ((targets.filter selTargets).map f).any (Row.hasKey n.step.relation.targetKey k)) =
      ks.filter fun k => targets.any (Row.hasKey n.step.relation.targetKey k) := by
    refine List.filter_congr fun k hk => ?_
    rw [List.any_map, hasKey_comp hf, Bool.eq_iff_iff, List.any_eq_true, List.any_eq_true]
    constructor
    · rintro ⟨row, hrow, hkey⟩
      exact ⟨row, (List.mem_filter.mp hrow).1, hkey⟩
    · rintro ⟨row, hrow, hkey⟩
      exact ⟨row, List.mem_filter.mpr ⟨hrow, h k hk row hrow hkey⟩, hkey⟩
  have hsort : ∀ links : List (List Atom), (∀ k ∈ links, k ∈ ks) →
      stableSort (fun a b => n.placeOf ((targets.filter selTargets).map f) a ≤
        n.placeOf ((targets.filter selTargets).map f) b) links =
      stableSort (fun a b => n.placeOf targets a ≤ n.placeOf targets b) links := by
    intro links hlinks
    refine stableSort_congr fun a ha b hb => ?_
    simp only [decide_eq_decide]
    exact placeOf_le_part hf (h a (hlinks a ha)) (h b (hlinks b hb))
  simp only [PlanNode.arranged, hpresent]
  refine congrArg _ ?_
  split
  · split
    · exact hsort _ fun k hk => (List.mem_filter.mp (List.mem_eraseDups.mp hk)).1
    · exact hsort _ fun k hk => (List.mem_filter.mp hk).1
  · rfl

theorem scanJoined_part
    (hfJoins : ∀ row,
      (fJoins row).identity n.step.relation.joinSourceKey = row.identity n.step.relation.joinSourceKey ∧
        (fJoins row).identity n.step.relation.joinTargetKey = row.identity n.step.relation.joinTargetKey)
    (hf : ∀ row, (f row).identity n.step.relation.targetKey = row.identity n.step.relation.targetKey)
    (hJoins : ∀ k', k = some k' → ∀ row ∈ joins,
      row.hasKey n.step.relation.joinSourceKey k' = true → selJoins row = true)
    (hTargets : ∀ k' ∈ n.targetsOf joins k, ∀ row ∈ targets,
      row.hasKey n.step.relation.targetKey k' = true → selTargets row = true) :
    scanJoined n ((joins.filter selJoins).map fJoins) ((targets.filter selTargets).map f) k =
      (scanJoined n joins targets k).map f := by
  simp only [scanJoined, targetsOf_part hfJoins hJoins, arranged_part hf hTargets, Related.map, List.map_filterMap]
  refine congrArg _ (List.filterMap_congr fun k' hk' => ?_)
  exact find?_part hf (hTargets k' (mem_arranged hk').1)

end Parts

/-! ## Databases -/

namespace Memory

def rowsOf (m : Memory) (table : String) : List Row :=
  (m.tables.lookup table).getD []

/-- The answer to a batch query, as a part of a sorted table. -/
def found (m : Memory) (q : BatchQuery) : List Row :=
  ((sortRows q.ordering (m.rowsOf q.table)).filter q.selects).map (project q.columns)

/-- What a database answers if it neither fails nor has prepared answers. -/
def answers (m : Memory) (q : BatchQuery) : Answer :=
  m.evaluate (.batch q)

/-- A database holds the tables that a relation reads, with values of a certain sort in all its key columns. -/
structure Serves (m : Memory) (sort : Value → Bool) (r : Relation) : Prop where
  target : (m.tables.lookup r.target).isSome = true
  join : ∀ j, r.joinEntity = some j → (m.tables.lookup j).isSome = true
  keys : ∀ use ∈ Graph.keyColumns r, ∀ row ∈ m.rowsOf use.1, row.AllAt sort use.2

instance (m : Memory) (sort : Value → Bool) (r : Relation) : Decidable (m.Serves sort r) :=
  decidable_of_iff ((m.tables.lookup r.target).isSome = true ∧
      (∀ j ∈ r.joinEntity, (m.tables.lookup j).isSome = true) ∧
      ∀ use ∈ Graph.keyColumns r, ∀ row ∈ m.rowsOf use.1, row.AllAt sort use.2)
    ⟨fun h => ⟨h.1, h.2.1, h.2.2⟩, fun h => ⟨h.target, h.join, h.keys⟩⟩

/-- A database serves every relation of a plan. -/
def ServesAll (m : Memory) (sort : Value → Bool) (p : Plan) : Prop :=
  ∀ q ∈ p.levels, ∀ n ∈ q.nodes, m.Serves sort n.step.relation

instance (m : Memory) (sort : Value → Bool) (p : Plan) : Decidable (m.ServesAll sort p) :=
  inferInstanceAs (Decidable (∀ q ∈ p.levels, ∀ n ∈ q.nodes, _))

variable {m : Memory} {q : BatchQuery}

theorem answered_found (h : (m.tables.lookup q.table).isSome = true) : Answered m.answers q (m.found q) := by
  obtain ⟨rows, hrows⟩ := Option.isSome_iff_exists.mp h
  unfold Answered
  split
  · next hkeys =>
    have hnone : q.selects = fun _ => false := by
      funext row
      simp [BatchQuery.selects, hkeys]
    simp [found, hnone]
  · rw [answers, evaluate, show (Query.batch q).table = q.table from rfl, hrows]
    show Except.ok _ = _
    rw [Query.evaluate_batch, found, rowsOf, hrows]
    rfl

section Plain

variable {g : Graph} {concurrency : Int} {entity : String} {p : Plan} {rows : List Row} {s : Session Memory}

theorem stitchRows_fst (hfaults : s.store.faults = []) (hprepared : s.store.prepared = []) :
    (stitchRows execute g p rows s).1 = p.nest s.store.answers g rows := by
  have hexecute := execute_of_plain hfaults hprepared
  have hanswers (store : Memory) (q : BatchQuery) :
      (Executor.frozen execute s.store store (.batch q)).1 = s.store.answers q := by
    rw [Executor.frozen, hexecute]
    rfl
  rw [stitchRows_of_steady (fun q => by rw [hexecute]) g p rows, stitchRows_eq_nest g hanswers]

/-- Stitching over a database that neither fails nor has prepared answers. -/
theorem stitch_eq_nest (hfaults : s.store.faults = []) (hprepared : s.store.prepared = []) (hc : 1 ≤ concurrency)
    (hentity : p.entity = entity) :
    (stitch g execute concurrency entity p (.rows rows) s).1 =
      (p.nest s.store.answers g rows).map (RootRow.completeAll (rows.map RootRow.ofRow)) := by
  rw [stitch_rows hc hentity, stitchRows_fst hfaults hprepared]

end Plain

theorem of_mem_found {row : Row} (h : row ∈ m.found q) : ∃ t ∈ m.rowsOf q.table, row = project q.columns t := by
  obtain ⟨t, ht, rfl⟩ := List.mem_map.mp h
  exact ⟨t, mem_sortRows.mp (List.mem_filter.mp ht).1, rfl⟩

namespace Serves

variable {sort : Value → Bool} {r : Relation} {j : String} {t : Row}

theorem allAt_target (h : m.Serves sort r) (ht : t ∈ m.rowsOf r.target) : t.AllAt sort r.targetKey :=
  h.keys (r.target, r.targetKey) (by simp [Graph.keyColumns]) t ht

theorem allAt_join (h : m.Serves sort r) (hj : r.joinEntity = some j) (ht : t ∈ m.rowsOf j) :
    t.AllAt sort r.joinSourceKey ∧ t.AllAt sort r.joinTargetKey := by
  have hkeys := h.keys (j, r.joinSourceKey ++ r.joinTargetKey) (by simp [Graph.keyColumns, hj]) t ht
  exact ⟨fun c hc => hkeys c (List.mem_append_left _ hc), fun c hc => hkeys c (List.mem_append_right _ hc)⟩

/-- What is plain is a scalar. -/
theorem isScalar (h : m.Serves Value.isPlain r) : m.Serves Value.isScalar r where
  target := h.target
  join := h.join
  keys use huse row hrow := (h.keys use huse row hrow).isScalar

end Serves

end Memory

/-! ## One parent at a time -/

namespace PlanNode

variable (m : Memory) (g : Graph) (n : PlanNode)

/-- What a node attaches to a row. -/
def scan (row : Row) : Related :=
  let r := n.step.relation
  let k := row.identity r.sourceKey
  let found := match r.kind with
    | .one => scanOne r.targetKey (m.rowsOf r.target) k
    | .many =>
      let o := OrderBy.merge [ascending r.targetKey, n.step.options.ordering, ascending (g.primaryKey r.target)]
      scanMany r.targetKey n.step.options (sortRows o (m.rowsOf r.target)) k
    | .manyViaJoin =>
      let oJoins := OrderBy.merge [ascending r.joinSourceKey, ascending r.joinTargetKey]
      let oTargets := OrderBy.merge [n.step.options.ordering, ascending (g.primaryKey r.target)]
      scanJoined n (sortRows oJoins (m.rowsOf (r.joinEntity.getD ""))) (sortRows oTargets (m.rowsOf r.target)) k
  found.map (project (n.fetched r.targetKey))

/-- An attachment gives every row what the tables have for it. -/
structure Attaches (rows : List Row) (a : Attachment) : Prop where
  related : a.links.map (Link.related a.found) = rows.map (n.scan m g)
  sound : a.Sound
  fetched : ∀ row ∈ a.found, ∃ t ∈ m.rowsOf n.step.relation.target,
    row = project (n.fetched n.step.relation.targetKey) t

variable {m g n} {rows : List Row}

theorem identity_fetched (columns : List String) (row : Row) :
    (project (n.fetched columns) row).identity columns = row.identity columns :=
  Row.identity_congr (n.spelling_fetched row columns)

theorem Attaches.of_link {found : List Row} {link : Option (List Atom) → Link}
    (hrelated : ∀ row ∈ rows, (link (row.identity n.step.relation.sourceKey)).related found = n.scan m g row)
    (hsound : ∀ k, ∀ i ∈ (link k).positions, i < found.length)
    (hfetched : ∀ row ∈ found, ∃ t ∈ m.rowsOf n.step.relation.target,
      row = project (n.fetched n.step.relation.targetKey) t) :
    n.Attaches m g rows ⟨found, rows.map fun row => link (row.identity n.step.relation.sourceKey)⟩ where
  related := by
    rw [List.map_map]
    exact List.map_congr_left hrelated
  sound := by
    intro l hl
    obtain ⟨row, -, rfl⟩ := List.mem_map.mp hl
    exact hsound _
  fetched := hfetched

/-- What a query for the target rows of a node finds. -/
theorem fetched_found {q : BatchQuery} (htable : q.table = n.step.relation.target)
    (hcolumns : q.columns = n.fetched n.step.relation.targetKey) : ∀ row ∈ m.found q,
      ∃ t ∈ m.rowsOf n.step.relation.target, row = project (n.fetched n.step.relation.targetKey) t := by
  intro row hrow
  obtain ⟨t, ht, rfl⟩ := Memory.of_mem_found hrow
  exact ⟨t, htable ▸ ht, by rw [hcolumns]⟩

/-- The join rows are fetched with both of their keys. -/
theorem identity_joinQuery {columns : List String} {j : String} {keys : List Key}
    (h : columns ⊆ n.step.relation.joinSourceKey ++ n.step.relation.joinTargetKey) (row : Row) :
    (project (Stitch.joinQuery n j keys).columns row).identity columns = row.identity columns := by
  refine Row.identity_congr (Row.spelling_project (fun c hc => ?_) row)
  exact List.mem_eraseDups.mpr (h hc)

section Attach

variable (hserves : m.Serves Value.isPlain n.step.relation)

include hserves

theorem keyable_fetched {found : List Row} (h : ∀ row ∈ found, ∃ t ∈ m.rowsOf n.step.relation.target,
    row = project (n.fetched n.step.relation.targetKey) t) : ∀ row ∈ found, row.Keyable n.step.relation.targetKey := by
  intro row hrow
  obtain ⟨t, ht, rfl⟩ := h row hrow
  exact ((hserves.allAt_target ht).project rfl _).isScalar.keyable

theorem allAt_joins {j : String} (hj : n.step.relation.joinEntity = some j) (keys : List Key) :
    ∀ row ∈ m.found (Stitch.joinQuery n j keys), row.AllAt Value.isPlain n.step.relation.joinSourceKey ∧
      row.AllAt Value.isPlain n.step.relation.joinTargetKey := by
  intro row hrow
  obtain ⟨t, ht, rfl⟩ := Memory.of_mem_found hrow
  have hplain := hserves.allAt_join hj ht
  exact ⟨hplain.1.project rfl _, hplain.2.project rfl _⟩

variable (hrows : ∀ row ∈ rows, row.AllAt Value.isPlain n.step.relation.sourceKey)

include hrows

/-- Every row of the target table that belongs to a row of the level is selected. -/
theorem selects_target {q : BatchQuery} (hkeys : q.keys = n.keys rows)
    (hcolumns : q.keyColumns = n.step.relation.targetKey) {row : Row} (hrow : row ∈ rows) {k : List Atom}
    (hk : row.identity n.step.relation.sourceKey = some k) {t : Row} (ht : t ∈ m.rowsOf n.step.relation.target)
    (htk : t.hasKey n.step.relation.targetKey k = true) : q.selects t = true := by
  have hplain := hserves.allAt_target ht
  rw [← hcolumns] at hplain htk
  exact BatchQuery.selects_of_hasKey hkeys hrows hrow hk hplain htk

theorem exists_attach_one (hkind : n.step.relation.kind = .one) :
    ∃ a, n.attach m.answers g rows = .ok a ∧ n.Attaches m g rows a := by
  have hfetched := fetched_found (m := m) (n := n) (q := Stitch.oneQuery n (n.keys rows)) rfl rfl
  refine ⟨_, attach_one hkind (fun row hrow => (hrows row hrow).isScalar.keyable)
    (Memory.answered_found hserves.target) (keyable_fetched hserves hfetched),
    .of_link (fun row hrow => ?_) (fun k i => lt_of_mem_oneLink _) hfetched⟩
  rw [related_oneLink, scan, hkind, Memory.found]
  simp only [Stitch.oneQuery, sortRows_nil]
  refine scanOne_part (identity_fetched _) fun k hk t ht => ?_
  exact selects_target hserves hrows (q := Stitch.oneQuery n (n.keys rows)) rfl rfl hrow hk ht

theorem exists_attach_many (hkind : n.step.relation.kind = .many) :
    ∃ a, n.attach m.answers g rows = .ok a ∧ n.Attaches m g rows a := by
  have hfetched := fetched_found (m := m) (n := n) (q := Stitch.manyQuery g n (n.keys rows)) rfl rfl
  refine ⟨_, attach_many hkind (fun row hrow => (hrows row hrow).isScalar.keyable)
    (Memory.answered_found hserves.target) (keyable_fetched hserves hfetched),
    .of_link (fun row hrow => ?_) (fun k i => lt_of_mem_manyLink _ _) hfetched⟩
  rw [related_manyLink, scan, hkind, Memory.found]
  refine scanMany_part (identity_fetched _) fun k hk t ht => ?_
  exact selects_target hserves hrows (q := Stitch.manyQuery g n (n.keys rows)) rfl rfl hrow hk (mem_sortRows.mp ht)

/-- Every join row that belongs to a row of the level is selected. -/
theorem selects_join {j : String} (hj : n.step.relation.joinEntity = some j) {row : Row} (hrow : row ∈ rows)
    {k : List Atom} (hk : row.identity n.step.relation.sourceKey = some k) :
    ∀ t ∈ sortRows (Stitch.joinQuery n j (n.keys rows)).ordering (m.rowsOf j),
      t.hasKey n.step.relation.joinSourceKey k = true → (Stitch.joinQuery n j (n.keys rows)).selects t = true := by
  intro t ht htk
  exact BatchQuery.selects_of_hasKey (q := Stitch.joinQuery n j (n.keys rows)) rfl hrows hrow hk
    (hserves.allAt_join hj (mem_sortRows.mp ht)).1 htk

/-- The second query has the keys of all join rows that were found, so it selects every target that they lead to. -/
theorem selects_joined {j : String} (hj : n.step.relation.joinEntity = some j) {row : Row} (hrow : row ∈ rows)
    {k : List Atom} (hk : k ∈ n.targetsOf (sortRows (Stitch.joinQuery n j (n.keys rows)).ordering (m.rowsOf j))
      (row.identity n.step.relation.sourceKey)) {t : Row} (ht : t ∈ m.rowsOf n.step.relation.target)
    (htk : t.hasKey n.step.relation.targetKey k = true) :
    (Stitch.targetQuery g n (Stitch.keyBatch ((m.found (Stitch.joinQuery n j (n.keys rows))).map
      (Row.keyOf n.step.relation.joinTargetKey)))).selects t = true := by
  have hfound : n.targetsOf (m.found (Stitch.joinQuery n j (n.keys rows)))
        (row.identity n.step.relation.sourceKey) =
      n.targetsOf (sortRows (Stitch.joinQuery n j (n.keys rows)).ordering (m.rowsOf j))
        (row.identity n.step.relation.sourceKey) := by
    refine targetsOf_part (fun row => ⟨?_, ?_⟩) fun k => selects_join hserves hrows hj hrow
    · exact identity_joinQuery (List.subset_append_left _ _) row
    · exact identity_joinQuery (List.subset_append_right _ _) row
  rw [← hfound] at hk
  cases hid : row.identity n.step.relation.sourceKey with
  | none => simp [hid, targetsOf] at hk
  | some k₀ =>
    simp only [hid, targetsOf, Option.elim_some] at hk
    obtain ⟨row', hrow', hk'⟩ := List.mem_filterMap.mp hk
    exact BatchQuery.selects_of_hasKey rfl (fun r hr => (allAt_joins hserves hj _ r hr).2)
      (List.mem_filter.mp hrow').1 hk' (hserves.allAt_target ht) htk

theorem exists_attach_manyViaJoin {j : String} (hkind : n.step.relation.kind = .manyViaJoin)
    (hj : n.step.relation.joinEntity = some j) :
    ∃ a, n.attach m.answers g rows = .ok a ∧ n.Attaches m g rows a := by
  have hjoins := allAt_joins hserves hj (n.keys rows)
  let keys := Stitch.keyBatch ((m.found (Stitch.joinQuery n j (n.keys rows))).map
    (Row.keyOf n.step.relation.joinTargetKey))
  have hfetched := fetched_found (m := m) (n := n) (q := Stitch.targetQuery g n keys) rfl rfl
  refine ⟨_, attach_manyViaJoin hkind hj (fun row hrow => (hrows row hrow).isScalar.keyable)
    (Memory.answered_found (hserves.join j hj))
    (fun row hrow => ⟨(hjoins row hrow).1.isScalar.keyable, (hjoins row hrow).2.isScalar.keyable⟩)
    (Memory.answered_found hserves.target) (keyable_fetched hserves hfetched),
    .of_link (fun row hrow => ?_) (fun k i => lt_of_mem_joinedLink) hfetched⟩
  rw [related_joinedLink, scan, hkind, hj]
  refine scanJoined_part (fun row => ⟨?_, ?_⟩) (identity_fetched _) (fun k => selects_join hserves hrows hj hrow) ?_
  · exact identity_joinQuery (List.subset_append_left _ _) row
  · exact identity_joinQuery (List.subset_append_right _ _) row
  · intro k hk t ht htk
    exact selects_joined hserves hrows hj hrow hk (mem_sortRows.mp ht) htk

/-- Whatever other rows there are, loading links every row to what the tables have for it. -/
theorem exists_attach (hjoin : n.step.relation.kind = .manyViaJoin → ∃ j, n.step.relation.joinEntity = some j) :
    ∃ a, n.attach m.answers g rows = .ok a ∧ n.Attaches m g rows a := by
  cases hkind : n.step.relation.kind with
  | one => exact exists_attach_one hserves hrows hkind
  | many => exact exists_attach_many hserves hrows hkind
  | manyViaJoin =>
    obtain ⟨j, hj⟩ := hjoin hkind
    exact exists_attach_manyViaJoin hserves hrows hkind hj

end Attach

end PlanNode

/-! ## A database for the bookshelf -/

def Bookshelf.database : Memory where
  tables := [
    ("books", [[("id", .int 1), ("author_id", .int 1)], [("id", .int 2), ("author_id", .int 2)],
      [("id", .int 3), ("author_id", .int 1)]]),
    ("tags", [[("id", .int 1)], [("id", .int 2)]]),
    ("book_tags", [[("book_id", .int 1), ("tag_id", .int 2)], [("book_id", .int 2), ("tag_id", .int 2)]])]

end RelatedRows

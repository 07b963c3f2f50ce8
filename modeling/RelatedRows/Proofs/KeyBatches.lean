import RelatedRows.Proofs.Keys
import RelatedRows.Proofs.Plans

/-!
# Batches of keys

For which keys the nodes of a plan query a store.

* `distinctKeys`: the different keys of some rows, as they first appear.
* `Stitch.keyBatch_eq`: a load asks for these keys.
* `PlanNode.batches`: the queries of a node, from the rows of its level and the answers that it gets.
* `BatchQuery.WellFormed`: a batch has keys, all of them complete and different.
-/

namespace RelatedRows

/-! ## Different elements -/

section Distinct

variable {α : Type} {r : α → α → Bool}

theorem eraseDupsBy_sublist (as : List α) : (as.eraseDupsBy r).Sublist as := by
  induction hn : as.length using Nat.strongRecOn generalizing as with
  | ind n ih =>
    cases as with
    | nil => exact .slnil
    | cons a as =>
      have hlen := List.length_filter_le (fun b => decide (r b a = false)) as
      rw [List.length_cons] at hn
      rw [List.eraseDupsBy_cons]
      exact ((ih _ (by omega) _ rfl).trans List.filter_sublist).cons_cons a

theorem eraseDupsBy_subset (as : List α) : as.eraseDupsBy r ⊆ as :=
  (eraseDupsBy_sublist as).subset

theorem pairwise_eraseDupsBy (as : List α) : (as.eraseDupsBy r).Pairwise fun a b => r b a = false := by
  induction hn : as.length using Nat.strongRecOn generalizing as with
  | ind n ih =>
    cases as with
    | nil => exact .nil
    | cons a as =>
      have hlen := List.length_filter_le (fun b => decide (r b a = false)) as
      rw [List.length_cons] at hn
      rw [List.eraseDupsBy_cons, List.pairwise_cons]
      refine ⟨fun b hb => ?_, ih _ (by omega) _ rfl⟩
      exact of_decide_eq_true (List.mem_filter.mp (eraseDupsBy_subset _ hb)).2

theorem nodup_eraseDups [BEq α] [LawfulBEq α] (as : List α) : as.eraseDups.Nodup :=
  (pairwise_eraseDupsBy as).imp fun h heq => by simp [heq] at h

theorem eraseDups_of_nodup [BEq α] [LawfulBEq α] {l : List α} (h : l.Nodup) : l.eraseDups = l := by
  induction l with
  | nil => rfl
  | cons a l ih =>
    obtain ⟨hnot, hnodup⟩ := List.nodup_cons.mp h
    have hfilter : l.filter (fun b => !b == a) = l := by
      refine List.filter_eq_self.mpr fun b hb => ?_
      have hne : b ≠ a := fun hba => hnot (hba ▸ hb)
      simp [hne]
    rw [List.eraseDups_cons, hfilter, ih hnodup]

/-- An index over values by a key of theirs holds the values with different keys, as they first appear. -/
theorem Index.map_snd_firstEntries {κ : Type} [DecidableEq κ] (f : α → κ) (as : List α) :
    (firstEntries (as.map fun a => (f a, a))).map Prod.snd = as.eraseDupsBy fun a b => f a = f b := by
  have hloop : ∀ acc : List α, ((as.map fun a => (f a, a)).foldl insertFirst (acc.reverse.map fun a => (f a, a))).map
      Prod.snd = List.eraseDupsBy.loop (fun a b => decide (f a = f b)) as acc := by
    induction as with
    | nil =>
      intro acc
      simp [List.eraseDupsBy.loop, Function.comp_def]
    | cons a as ih =>
      intro acc
      have hseen : ((acc.reverse.map fun a => (f a, a)).lookup (f a)).isSome = acc.any fun b => decide (f a = f b) := by
        rw [Bool.eq_iff_iff, List.lookup_isSome_iff, List.any_eq_true]
        simp
      rw [List.map_cons, List.foldl_cons, insertFirst, hseen, List.eraseDupsBy.loop]
      cases acc.any fun b => decide (f a = f b) with
      | true => exact ih acc
      | false =>
        have := ih (a :: acc)
        rw [List.reverse_cons, List.map_append] at this
        exact this
  exact hloop []

end Distinct

/-! ## Keys of rows -/

/-- Keys are the same if their values are equal or the same object, one by one. -/
def sameKey (k k' : Key) : Bool :=
  k.map Value.atomOf = k'.map Value.atomOf

/-- An undefined number is the same key as itself, and as no other object. -/
theorem sameKey_undefined_iff {v : Value} {object : Nat} :
    sameKey [v] [.undefined object] = true ↔ v = .undefined object := by
  have hatom : sameKey [v] [.undefined object] = true ↔ v.atomOf = .number (.nowhere object) := by
    simp [sameKey, Value.undefined, Value.atomOf, Number.place]
  rw [hatom]
  cases v with
  | number n => simp [Value.atomOf, Value.undefined, Number.place_eq_nowhere_iff]
  | bool b => simp [Value.atomOf, Value.undefined, Number.place]
  | _ => simp [Value.atomOf, Value.undefined]

/-- The different keys of some rows, in the order in which they first appear; a row has no key where a value is
missing. -/
def distinctKeys (columns : List String) (rows : List Row) : List Key :=
  ((rows.map (Row.spelling columns)).filter fun key => !key.any Value.isNull).eraseDupsBy sameKey

variable {columns : List String} {rows : List Row} {key : Key}

theorem Stitch.keyBatch_eq (columns : List String) (rows : List Row) :
    keyBatch (rows.map (Row.keyOf columns)) = distinctKeys columns rows := by
  have hentries : ((rows.map (Row.keyOf columns)).filterMap fun k => k.map fun k => (k.identity, k.spelling)) =
      ((rows.map (Row.spelling columns)).filter fun key => !key.any Value.isNull).map
        fun key => (key.map Value.atomOf, key) := by
    induction rows with
    | nil => rfl
    | cons row rows ih =>
      rw [List.map_cons, List.filterMap_cons, ih, List.map_cons, List.filter_cons, Row.keyOf]
      cases (row.spelling columns).any Value.isNull <;> rfl
  rw [keyBatch, hentries]
  exact Index.map_snd_firstEntries (List.map Value.atomOf) _

theorem mem_distinctKeys (h : key ∈ distinctKeys columns rows) :
    ∃ row ∈ rows, row.spelling columns = key ∧ key.any Value.isNull = false := by
  obtain ⟨hmem, hnull⟩ := List.mem_filter.mp (eraseDupsBy_subset _ h)
  obtain ⟨row, hrow, rfl⟩ := List.mem_map.mp hmem
  exact ⟨row, hrow, rfl, by simpa using hnull⟩

/-- There is a key to ask for if any of the rows has one. -/
theorem distinctKeys_eq_nil_iff :
    distinctKeys columns rows = [] ↔ ∀ row ∈ rows, (row.spelling columns).any Value.isNull = true := by
  rw [distinctKeys]
  constructor
  · intro h row hrow
    by_contra hnull
    have hmem : row.spelling columns ∈ (rows.map (Row.spelling columns)).filter fun key => !key.any Value.isNull :=
      List.mem_filter.mpr ⟨List.mem_map_of_mem hrow, by simpa using hnull⟩
    cases hfilter : (rows.map (Row.spelling columns)).filter fun key => !key.any Value.isNull with
    | nil =>
      rw [hfilter] at hmem
      cases hmem
    | cons k ks =>
      rw [hfilter, List.eraseDupsBy_cons] at h
      cases h
  · intro h
    have hfilter : (rows.map (Row.spelling columns)).filter (fun key => !key.any Value.isNull) = [] := by
      rw [List.filter_eq_nil_iff]
      intro key hkey
      obtain ⟨row, hrow, rfl⟩ := List.mem_map.mp hkey
      simp [h row hrow]
    rw [hfilter]
    rfl

/-! ## The queries of a node -/

/-- The rows of an answer; a failure has none. -/
def foundRows : Answer → List Row
  | .ok (.list items) => items.filterMap fun v => v.row.toOption
  | _ => []

theorem foundRows_rows (rows : List Row) : foundRows (.ok (.rows rows)) = rows := by
  show (rows.map Value.object).filterMap _ = rows
  rw [List.filterMap_map]
  exact List.filterMap_some

/-- The queries of a node over rows of its level: none without a key to ask for, then one for all keys.  Through a join
entity, a second one follows for the keys on the far side of the join rows that were answered. -/
def PlanNode.batches (g : Graph) (n : PlanNode) (rows : List Row) (answers : List Answer) : List BatchQuery :=
  match distinctKeys n.step.relation.sourceKey rows with
  | [] => []
  | keys =>
    match n.step.relation.kind with
    | .one => [Stitch.oneQuery n keys]
    | .many => [Stitch.manyQuery g n keys]
    | .manyViaJoin => Stitch.joinQuery n (n.step.relation.joinEntity.getD "") keys ::
      match distinctKeys n.step.relation.joinTargetKey (answers.head?.elim [] foundRows) with
      | [] => []
      | keys => [Stitch.targetQuery g n keys]

/-- How many queries a node may put. -/
def PlanNode.queryLimit (n : PlanNode) : Nat :=
  match n.step.relation.kind with
  | .one | .many => 1
  | .manyViaJoin => 2

theorem PlanNode.batches_eq_nil_iff {g : Graph} {n : PlanNode} {answers : List Answer} :
    n.batches g rows answers = [] ↔
      ∀ row ∈ rows, (row.spelling n.step.relation.sourceKey).any Value.isNull = true := by
  rw [← distinctKeys_eq_nil_iff, batches]
  cases distinctKeys n.step.relation.sourceKey rows with
  | nil => exact iff_of_true rfl rfl
  | cons key keys => cases n.step.relation.kind <;> simp

theorem PlanNode.length_batches_le {g : Graph} (n : PlanNode) (rows : List Row) (answers : List Answer) :
    (n.batches g rows answers).length ≤ n.queryLimit := by
  unfold batches queryLimit
  split
  · exact Nat.zero_le _
  · cases n.step.relation.kind with
    | one => exact Nat.le_refl _
    | many => exact Nat.le_refl _
    | manyViaJoin =>
      dsimp only
      split
      · exact Nat.le_succ _
      · exact Nat.le_refl _

/-! ## Well-formed batches -/

/-- A batch has keys, each of them complete, and no two of them the same. -/
structure BatchQuery.WellFormed (q : BatchQuery) : Prop where
  nonempty : q.keys ≠ []
  arity : ∀ key ∈ q.keys, key.length = q.keyColumns.length
  complete : ∀ key ∈ q.keys, key.any Value.isNull = false
  distinct : q.keys.Pairwise fun k k' => sameKey k k' = false

theorem wellFormed_distinctKeys {q : BatchQuery} (hkeys : q.keys = distinctKeys columns rows) (hne : q.keys ≠ [])
    (hlength : columns.length = q.keyColumns.length) : q.WellFormed where
  nonempty := hne
  arity key hkey := by
    obtain ⟨row, -, rfl, -⟩ := mem_distinctKeys (hkeys ▸ hkey)
    rw [← hlength, Row.spelling, List.length_map]
  complete key hkey := by
    obtain ⟨row, -, -, hnull⟩ := mem_distinctKeys (hkeys ▸ hkey)
    exact hnull
  distinct := by
    rw [hkeys]
    refine (pairwise_eraseDupsBy _).imp fun {k k'} h => ?_
    have hsymm : sameKey k k' = sameKey k' k := by
      rw [sameKey, sameKey, Bool.eq_iff_iff, decide_eq_true_iff, decide_eq_true_iff]
      exact eq_comm
    exact hsymm.trans h

theorem PlanNode.wellFormed_of_mem_batches {g : Graph} {n : PlanNode} {answers : List Answer} {q : BatchQuery}
    (hr : n.step.relation.Consistent) (hq : q ∈ n.batches g rows answers) : q.WellFormed := by
  unfold batches at hq
  split at hq
  · cases hq
  · next keys hkeys =>
    have hne : distinctKeys n.step.relation.sourceKey rows ≠ [] := hkeys
    cases hkind : n.step.relation.kind with
    | one =>
      rw [hkind, List.mem_singleton] at hq
      rw [hq]
      exact wellFormed_distinctKeys rfl hne hr.arity
    | many =>
      rw [hkind, List.mem_singleton] at hq
      rw [hq]
      exact wellFormed_distinctKeys rfl hne hr.arity
    | manyViaJoin =>
      obtain ⟨j, -, hsource, htarget⟩ := hr.join hkind
      rw [hkind] at hq
      rcases List.mem_cons.mp hq with rfl | hq
      · exact wellFormed_distinctKeys rfl hne hsource.symm
      · split at hq
        · cases hq
        · next hne' =>
          rw [List.mem_singleton] at hq
          rw [hq]
          exact wellFormed_distinctKeys rfl hne' htarget

end RelatedRows

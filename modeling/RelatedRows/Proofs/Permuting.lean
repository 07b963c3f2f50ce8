import RelatedRows.Proofs.KeyBatches
import RelatedRows.Proofs.Relabelling
import RelatedRows.Proofs.UniqueKeys

/-!
# Tables in another order

A node is loaded alike from tables whose rows are stored in another order, if their keys determine what it loads.

* `Memory.Permutes`: databases with the same rows in another order.
* `Memory.Permutes.found_eq`: a query whose ordering has no ties finds the same rows.
* `BatchQuery.selects_congr`: which rows a query selects depends on what its keys are compared by.
* `PlanNode.Determined`, `PlanNode.loadsAlike`: a node whose tables have keys is loaded alike, whatever its kind.
-/

namespace RelatedRows

/-! ## Databases in another order -/

/-- The same tables with the same rows, in another order. -/
def Memory.Permutes (m m' : Memory) : Prop :=
  List.Forall₂ (fun t t' => t.1 = t'.1 ∧ t.2.Perm t'.2) m.tables m'.tables

namespace Memory.Permutes

variable {m m' : Memory}

theorem lookup (h : m.Permutes m') (table : String) :
    Option.Rel List.Perm (m.tables.lookup table) (m'.tables.lookup table) := by
  have htables : List.Forall₂ (fun t t' => t.1 = t'.1 ∧ t.2.Perm t'.2) m.tables m'.tables := h
  generalize m.tables = ts at htables
  generalize m'.tables = ts' at htables
  induction htables with
  | nil => exact .none
  | @cons t t' ts ts' ht _ ih =>
    rw [List.lookup_cons, List.lookup_cons, ht.1]
    cases table == t'.1
    · exact ih
    · exact .some ht.2

theorem isSome_lookup (h : m.Permutes m') (table : String) :
    (m'.tables.lookup table).isSome = (m.tables.lookup table).isSome := by
  have hrel := h.lookup table
  generalize m.tables.lookup table = rows at hrel
  generalize m'.tables.lookup table = rows' at hrel
  cases hrel <;> rfl

theorem rowsOf (h : m.Permutes m') (table : String) : (m.rowsOf table).Perm (m'.rowsOf table) := by
  have hrel := h.lookup table
  unfold Memory.rowsOf
  generalize m.tables.lookup table = rows at hrel
  generalize m'.tables.lookup table = rows' at hrel
  cases hrel with
  | none => exact .refl _
  | some hperm => exact hperm

theorem serves (h : m.Permutes m') {sort : Value → Bool} {r : Relation} (hserves : m.Serves sort r) :
    m'.Serves sort r where
  target := (h.isSome_lookup _).trans hserves.target
  join j hj := (h.isSome_lookup _).trans (hserves.join j hj)
  keys use huse row hrow := hserves.keys use huse row ((h.rowsOf _).mem_iff.mpr hrow)

/-- A query is answered alike if its ordering has no ties among the rows of its table. -/
theorem found_eq (h : m.Permutes m') {q : BatchQuery}
    (hties : ∀ a ∈ m.rowsOf q.table, ∀ b ∈ m.rowsOf q.table, compareBy q.ordering a b = .eq → a = b) :
    m.found q = m'.found q := by
  rw [Memory.found, Memory.found, sortRows_perm (h.rowsOf q.table) hties]

theorem found_perm (h : m.Permutes m') (q : BatchQuery) : (m.found q).Perm (m'.found q) :=
  ((perm_sortRows.trans ((h.rowsOf q.table).trans perm_sortRows.symm)).filter _).map _

end Memory.Permutes

/-! ## Keys as they are compared -/

/-- To a database, key values that are compared alike are equal to the same values. -/
theorem Value.equals_congr {w w' : Value} (hw : w.isPlain = true) (hw' : w'.isPlain = true)
    (h : w.atomOf = w'.atomOf) (v : Value) : v.equals w = v.equals w' := by
  rcases eq_of_isPlain hw with rfl | ⟨a, rfl⟩ | ⟨s, rfl⟩ <;>
    rcases eq_of_isPlain hw' with rfl | ⟨b, rfl⟩ | ⟨t, rfl⟩
  case inr.inl.inr.inl =>
    have hplace : a.place = b.place := Atom.number.inj h
    cases v <;> simp [equals, hplace]
  case inr.inr.inr.inr =>
    have htext : s = t := Atom.text.inj h
    rw [htext]
  all_goals first | rfl | cases h

theorem matchesKey_congr {columns : List String} {row : Row} {key key' : Key} (hkey : ∀ v ∈ key, v.isPlain = true)
    (hkey' : ∀ v ∈ key', v.isPlain = true) (h : key.map Value.atomOf = key'.map Value.atomOf) :
    matchesKey columns row key = matchesKey columns row key' := by
  induction columns generalizing key key' with
  | nil => rfl
  | cons c columns ih =>
    cases key with
    | nil =>
      obtain rfl : key' = [] := by simpa using h.symm
      rfl
    | cons v key =>
      cases key' with
      | nil => simp at h
      | cons v' key' =>
        simp only [List.map_cons, List.cons.injEq] at h
        have hhead : (row.get c).equals v = (row.get c).equals v' :=
          Value.equals_congr (hkey v List.mem_cons_self) (hkey' v' List.mem_cons_self) h.1 _
        have htail : matchesKey columns row key = matchesKey columns row key' :=
          ih (fun w hw => hkey w (List.mem_cons_of_mem _ hw)) (fun w hw => hkey' w (List.mem_cons_of_mem _ hw)) h.2
        simp only [matchesKey] at htail
        simp only [matchesKey, List.zip_cons_cons, List.all_cons, hhead, htail]

theorem BatchQuery.selects_congr {q q' : BatchQuery} (hcolumns : q.keyColumns = q'.keyColumns)
    (hkeys : ∀ key ∈ q.keys, ∀ v ∈ key, v.isPlain = true) (hkeys' : ∀ key ∈ q'.keys, ∀ v ∈ key, v.isPlain = true)
    (h : q.keys.map (List.map Value.atomOf) = q'.keys.map (List.map Value.atomOf)) : q.selects = q'.selects := by
  funext row
  rw [selects, selects, ← hcolumns]
  generalize q.keys = keys at hkeys h
  generalize q'.keys = keys' at hkeys' h
  induction keys generalizing keys' with
  | nil =>
    obtain rfl : keys' = [] := by simpa using h.symm
    rfl
  | cons key keys ih =>
    cases keys' with
    | nil => simp at h
    | cons key' keys' =>
      simp only [List.map_cons, List.cons.injEq] at h
      rw [List.any_cons, List.any_cons,
        matchesKey_congr (hkeys key List.mem_cons_self) (hkeys' key' List.mem_cons_self) h.1,
        ih (fun k hk => hkeys k (List.mem_cons_of_mem _ hk)) keys'
          (fun k hk => hkeys' k (List.mem_cons_of_mem _ hk)) h.2]

/-! ## Loads of one row -/

section Alike

variable {m m' : Memory} {g : Graph} {n : PlanNode}

section OneLink

variable {sources columns : List String} {found : List Row} {i : Nat}

/-- Where among other rows the row at a position is found by its key. -/
def placeAmong (columns : List String) (found found' : List Row) (i : Nat) : Nat :=
  found'.findIdx (Row.hasKey columns (((found[i]?).bind (Row.identity columns)).getD []))

theorem placeAmong_eq (found' : List Row) {k : List Atom} (hi : found.findIdx? (Row.hasKey columns k) = some i) :
    placeAmong columns found found' i = found'.findIdx (Row.hasKey columns k) ∧
      found[i]? = found.find? (Row.hasKey columns k) := by
  rw [findIdx?_eq_ite] at hi
  split at hi
  · next hany =>
    obtain rfl := Option.some.inj hi
    have hget := getElem?_findIdx (Row.hasKey columns k) found
    obtain ⟨row, hrow⟩ := Option.isSome_iff_exists.mp (List.find?_isSome.mpr (List.any_eq_true.mp hany))
    have hkey : row.identity columns = some k := by simpa [Row.hasKey] using List.find?_some hrow
    refine ⟨?_, hget⟩
    rw [placeAmong, hget, hrow, Option.bind_some, hkey, Option.getD_some]
  · cases hi

variable {found' : List Row}

theorem getElem?_placeAmong (h : found.Perm found') (hunshared : (found.filterMap (Row.identity columns)).Nodup)
    {k : List Atom} (hi : found.findIdx? (Row.hasKey columns k) = some i) :
    found'[placeAmong columns found found' i]? = found[i]? := by
  obtain ⟨hplace, hfind⟩ := placeAmong_eq found' hi
  rw [hplace, getElem?_findIdx, hfind, find?_hasKey_perm h hunshared]

theorem oneLink_perm (h : found.Perm found') (k : Option (List Atom)) :
    oneLink columns found' k = (oneLink columns found k).relabel (placeAmong columns found found') := by
  cases k with
  | none => rfl
  | some k =>
    have hany : found'.any (Row.hasKey columns k) = found.any (Row.hasKey columns k) := by
      rw [Bool.eq_iff_iff, List.any_eq_true, List.any_eq_true]
      simp only [h.mem_iff]
    show Link.one (found'.findIdx? _) = Link.one ((found.findIdx? _).map _)
    refine congrArg Link.one ?_
    cases hi : found.findIdx? (Row.hasKey columns k) with
    | none =>
      rw [findIdx?_eq_ite] at hi ⊢
      split at hi
      · cases hi
      · next hnot =>
        rw [hany, if_neg hnot]
        rfl
    | some i =>
      rw [Option.map_some, (placeAmong_eq found' hi).1, findIdx?_eq_ite, hany]
      rw [findIdx?_eq_ite] at hi
      split at hi
      · next hyes => rw [if_pos hyes]
      · cases hi

theorem findIdx?_of_linked (h : (Stitch.linkBy sources found (oneLink columns found)).Linked i) :
    ∃ k, found.findIdx? (Row.hasKey columns k) = some i := by
  obtain ⟨row, link, hrow, hi⟩ := h
  obtain ⟨key, -, rfl⟩ := Except.map_eq_ok hrow
  cases key with
  | none => simp [oneLink, Link.positions] at hi
  | some key => exact ⟨key.identity, by simpa [oneLink, Link.positions] using hi⟩

/-- By an unshared key one finds the same rows in another order, at other positions. -/
theorem linkBy_oneLink_alike (h : found.Perm found')
    (hunshared : (found.filterMap (Row.identity columns)).Nodup) :
    (Stitch.linkBy sources found (oneLink columns found)).Alike
      (Stitch.linkBy sources found' (oneLink columns found')) := by
  refine ⟨placeAmong columns found found', fun row => ?_, fun i hi => ?_, fun i j hi hj hij => ?_⟩
  · show (row.key? sources).map _ = ((row.key? sources).map _).map _
    cases row.key? sources with
    | error f => rfl
    | ok key => exact congrArg Except.ok (oneLink_perm h _)
  · obtain ⟨k, hk⟩ := findIdx?_of_linked hi
    exact getElem?_placeAmong h hunshared hk
  · obtain ⟨k, hk⟩ := findIdx?_of_linked hi
    obtain ⟨l, hl⟩ := findIdx?_of_linked hj
    -- the rows at both positions are the same row, which has one key only
    have hrow : found[i]? = found[j]? := by
      rw [← getElem?_placeAmong h hunshared hk, ← getElem?_placeAmong h hunshared hl, hij]
    obtain ⟨hi, hkey, -⟩ := List.findIdx?_eq_some_iff_getElem.mp hk
    obtain ⟨hj, hkey', -⟩ := List.findIdx?_eq_some_iff_getElem.mp hl
    rw [List.getElem?_eq_getElem hi, List.getElem?_eq_getElem hj, Option.some.injEq] at hrow
    rw [hrow] at hkey
    have hkl : k = l := by
      simp only [Row.hasKey, decide_eq_true_eq] at hkey hkey'
      exact Option.some.inj (hkey.symm.trans hkey')
    rw [hkl, hl] at hk
    exact (Option.some.inj hk).symm

end OneLink

/-- The tables that a node reads have keys that make it immaterial in which order they are stored. -/
structure PlanNode.Determined (m : Memory) (g : Graph) (n : PlanNode) : Prop where
  serves : m.Serves Value.isPlain n.step.relation
  target : m.KeyedBy n.step.relation.target (g.primaryKey n.step.relation.target)
  unshared : n.step.relation.kind = .one → m.UnsharedKey n.step.relation.target n.step.relation.targetKey

namespace PlanNode

open Stitch

/-- The rows found for a node are distinguished by an unshared target key, too. -/
theorem nodup_found {q : BatchQuery} (htable : q.table = n.step.relation.target)
    (hcolumns : q.columns = n.fetched n.step.relation.targetKey)
    (hunshared : m.UnsharedKey n.step.relation.target n.step.relation.targetKey) :
    ((m.found q).filterMap (Row.identity n.step.relation.targetKey)).Nodup := by
  rw [← htable] at hunshared
  exact hunshared.found fun row => hcolumns ▸ identity_fetched _ row

theorem answers_eq_found {q : BatchQuery} (hkeys : q.keys ≠ []) (htable : (m.tables.lookup q.table).isSome = true) :
    m.answers q = .ok (.rows (m.found q)) := by
  have hanswered := Memory.answered_found htable
  rwa [Answered, if_neg hkeys] at hanswered

section Loads

variable (h : m.Permutes m')

include h

theorem loadsAlike_one (hn : n.Determined m g) (hkind : n.step.relation.kind = .one) :
    n.LoadsAlike m.answers m'.answers g := by
  intro rows
  have hload : n.load g rows = loadOne n rows := by
    unfold load
    rw [hkind]
  rw [hload, loadOne]
  cases keyBatchOf n.step.relation.sourceKey rows with
  | error f => exact .error f
  | ok batch =>
    cases batch with
    | nil => exact .refl Linking.Alike.refl _
    | cons k ks =>
      let q := oneQuery n (k :: ks)
      have hanswer : m.answers q = .ok (.rows (m.found q)) := answers_eq_found (List.cons_ne_nil k ks) hn.serves.target
      have hanswer' : m'.answers q = .ok (.rows (m'.found q)) :=
        answers_eq_found (List.cons_ne_nil k ks) (h.serves hn.serves).target
      show Except.Agree _ ((keyedRows n.step _ (m.answers q)).map (linkOne n))
        ((keyedRows n.step _ (m'.answers q)).map (linkOne n))
      rw [hanswer, hanswer', keyedRows_eq n.step (keyable_fetched hn.serves (fetched_found rfl rfl)),
        keyedRows_eq n.step (keyable_fetched (h.serves hn.serves) (fetched_found rfl rfl))]
      show Except.Agree _ (.ok (linkOne n _)) (.ok (linkOne n _))
      rw [linkOne_eq, linkOne_eq]
      exact .ok (linkBy_oneLink_alike (h.found_perm q) (nodup_found rfl rfl (hn.unshared hkind)))

/-- A query that is ordered by the primary key of its table is answered alike. -/
theorem answers_perm {q : BatchQuery} (hn : n.Determined m g) (hkeys : q.keys ≠ [])
    (htable : q.table = n.step.relation.target) {os : List OrderBy} (hordering : q.ordering = OrderBy.merge os)
    (hos : ascending (g.primaryKey n.step.relation.target) ∈ os) : m'.answers q = m.answers q := by
  have htarget : (m.tables.lookup q.table).isSome = true := htable ▸ hn.serves.target
  rw [answers_eq_found hkeys htarget, answers_eq_found hkeys ((h.isSome_lookup _).trans htarget)]
  refine congrArg (fun rows => Except.ok (Value.rows rows)) (h.found_eq fun a ha b hb htie => ?_).symm
  rw [htable] at ha hb
  rw [hordering] at htie
  exact hn.target.eq_of_tie hos ha hb htie

theorem loadsAlike_many (hn : n.Determined m g) (hkind : n.step.relation.kind = .many) :
    n.LoadsAlike m.answers m'.answers g := by
  intro rows
  have hload : n.load g rows = loadMany g n rows := by
    unfold load
    rw [hkind]
  rw [hload, loadMany]
  cases keyBatchOf n.step.relation.sourceKey rows with
  | error f => exact .error f
  | ok batch =>
    cases batch with
    | nil => exact .refl Linking.Alike.refl _
    | cons k ks =>
      let q := manyQuery g n (k :: ks)
      have hanswer : m'.answers q = m.answers q :=
        answers_perm h hn (q := q) (List.cons_ne_nil k ks) rfl rfl (by simp)
      show Except.Agree _ ((keyedRows n.step _ (m.answers q)).map (linkMany n))
        ((keyedRows n.step _ (m'.answers q)).map (linkMany n))
      rw [hanswer]
      exact .refl Linking.Alike.refl _

omit h

/-! ## Loads through join rows -/

/-- The keys of a join row on both sides. -/
def ends (n : PlanNode) (row : Row) : Option (List Atom) × Option (List Atom) :=
  (row.identity n.step.relation.joinSourceKey, row.identity n.step.relation.joinTargetKey)

include h

/-- Join rows that tie have the same keys on both sides, so these are found in one order. -/
theorem ends_perm (hserves : m.Serves Value.isPlain n.step.relation) {j : String}
    (hj : n.step.relation.joinEntity = some j) (keys : List Key) :
    (m.found (joinQuery n j keys)).map n.ends = (m'.found (joinQuery n j keys)).map n.ends := by
  let q := joinQuery n j keys
  let r := n.step.relation
  let atoms (row : Row) : List Atom × List Atom := (row.atoms r.joinSourceKey, row.atoms r.joinTargetKey)
  let rows (m : Memory) : List Row := sortRows q.ordering ((m.rowsOf j).filter q.selects)
  have hplain : ∀ {m : Memory}, m.Serves Value.isPlain r → ∀ row ∈ (m.rowsOf j).filter q.selects,
      row.AllAt Value.isPlain r.joinSourceKey ∧ row.AllAt Value.isPlain r.joinTargetKey :=
    fun hserves row hrow => hserves.allAt_join hj (List.mem_filter.mp hrow).1
  have hsorted : (rows m).map atoms = (rows m').map atoms := by
    refine map_sortRows_perm ((h.rowsOf j).filter q.selects) fun a ha b hb => ?_
    have hcolumns : [ascending r.joinSourceKey, ascending r.joinTargetKey].flatten.map Prod.fst =
        r.joinSourceKey ++ r.joinTargetKey := by
      simp [fst_ascending]
    obtain ⟨ha₁, ha₂⟩ := hplain hserves a ha
    obtain ⟨hb₁, hb₂⟩ := hplain hserves b hb
    show compareBy (OrderBy.merge _) a b = .eq ↔ _
    rw [compareBy_merge_eq_iff, hcolumns, List.forall_mem_append, ← Row.atoms_eq_iff ha₁ hb₁,
      ← Row.atoms_eq_iff ha₂ hb₂, Prod.mk.injEq]
  let key (atoms : List Atom) : Option (List Atom) := if Atom.nothing ∈ atoms then none else some atoms
  have hends : ∀ m : Memory, m.Serves Value.isPlain r →
      (m.found q).map n.ends = ((rows m).map atoms).map fun p => (key p.1, key p.2) := by
    intro m hserves
    rw [Memory.found, filter_sortRows, List.map_map, List.map_map]
    refine List.map_congr_left fun row hrow => ?_
    obtain ⟨hsource, htarget⟩ := hplain hserves row (mem_sortRows.mp hrow)
    show (_, _) = (key _, key _)
    rw [identity_joinQuery (List.subset_append_left _ _), identity_joinQuery (List.subset_append_right _ _),
      Row.identity_eq hsource, Row.identity_eq htarget]
  rw [hends m hserves, hends m' (h.serves hserves), hsorted]

omit h

theorem targetsOf_eq_ends (joins : List Row) (k : Option (List Atom)) :
    n.targetsOf joins k = k.elim [] fun k => ((joins.map n.ends).filter (·.1 = some k)).filterMap (·.2) := by
  cases k with
  | none => rfl
  | some k =>
    rw [Option.elim_some, List.filter_map, List.filterMap_map]
    rfl

theorem atoms_joinBatch (joins : List Row) :
    (keyBatch (joins.map (Row.keyOf n.step.relation.joinTargetKey))).map (List.map Value.atomOf) =
      ((joins.map n.ends).filterMap (·.2)).eraseDups := by
  rw [atoms_keyBatch, List.filterMap_map, List.filterMap_map]
  · rfl
  · intro k hk
    obtain ⟨row, -, hkey⟩ := List.mem_map.mp hk
    obtain ⟨hspelling, hidentity, -⟩ := Row.keyOf_eq_some hkey
    rw [hidentity, hspelling]

/-- The keys of join rows are plain, as their values are. -/
theorem plain_joinBatch {joins : List Row}
    (hjoins : ∀ row ∈ joins, row.AllAt Value.isPlain n.step.relation.joinTargetKey) :
    ∀ key ∈ keyBatch (joins.map (Row.keyOf n.step.relation.joinTargetKey)), ∀ v ∈ key, v.isPlain = true := by
  intro key hkey v hv
  rw [keyBatch_eq] at hkey
  obtain ⟨row, hrow, rfl, -⟩ := mem_distinctKeys hkey
  obtain ⟨c, hc, rfl⟩ := List.mem_map.mp hv
  exact hjoins row hrow c hc

include h

/-- Queries for the same key values are answered by the same targets. -/
theorem answers_targets_perm (hn : n.Determined m g) {keys keys' : List Key} (hkeys : keys ≠ []) (hkeys' : keys' ≠ [])
    (hplain : ∀ key ∈ keys, ∀ v ∈ key, v.isPlain = true) (hplain' : ∀ key ∈ keys', ∀ v ∈ key, v.isPlain = true)
    (hatoms : keys.map (List.map Value.atomOf) = keys'.map (List.map Value.atomOf)) :
    m'.answers (targetQuery g n keys') = m.answers (targetQuery g n keys) := by
  have hselects : (targetQuery g n keys).selects = (targetQuery g n keys').selects :=
    BatchQuery.selects_congr rfl hplain hplain' hatoms
  have hfound : m.found (targetQuery g n keys') = m.found (targetQuery g n keys) := by
    show (List.filter (targetQuery g n keys').selects _).map _ = (List.filter (targetQuery g n keys).selects _).map _
    rw [hselects]
    rfl
  have htarget := hn.serves.target
  rw [answers_perm h hn (q := targetQuery g n keys') hkeys' rfl rfl (by simp), answers_eq_found hkeys' htarget,
    answers_eq_found hkeys htarget, hfound]

/-- Join rows with the same keys lead to the same targets. -/
theorem eval_loadTargets_perm (hn : n.Determined m g) {joins joins' : List Row}
    (hends : joins.map n.ends = joins'.map n.ends)
    (hjoins : ∀ row ∈ joins, row.AllAt Value.isPlain n.step.relation.joinSourceKey ∧
      row.AllAt Value.isPlain n.step.relation.joinTargetKey)
    (hjoins' : ∀ row ∈ joins', row.AllAt Value.isPlain n.step.relation.joinSourceKey ∧
      row.AllAt Value.isPlain n.step.relation.joinTargetKey) :
    (loadTargets g n (keyed n.step.relation.joinTargetKey joins)).eval m.answers =
      (loadTargets g n (keyed n.step.relation.joinTargetKey joins')).eval m'.answers := by
  have hatoms : (keyBatch (joins.map (Row.keyOf n.step.relation.joinTargetKey))).map (List.map Value.atomOf) =
      (keyBatch (joins'.map (Row.keyOf n.step.relation.joinTargetKey))).map (List.map Value.atomOf) := by
    rw [atoms_joinBatch, atoms_joinBatch, hends]
  have hplain := plain_joinBatch fun row hrow => (hjoins row hrow).2
  have hplain' := plain_joinBatch fun row hrow => (hjoins' row hrow).2
  simp only [loadTargets, keys_keyed]
  generalize keyBatch (joins.map (Row.keyOf n.step.relation.joinTargetKey)) = keys at hatoms hplain
  generalize keyBatch (joins'.map (Row.keyOf n.step.relation.joinTargetKey)) = keys' at hatoms hplain'
  cases keys with
  | nil =>
    obtain rfl : keys' = [] := by simpa using hatoms.symm
    rfl
  | cons k ks =>
    cases keys' with
    | nil => cases hatoms
    | cons k' ks' =>
      let q := targetQuery g n (k :: ks)
      have hanswer : m.answers q = .ok (.rows (m.found q)) := answers_eq_found (List.cons_ne_nil k ks) hn.serves.target
      have hsame : m'.answers (targetQuery g n (k' :: ks')) = m.answers q :=
        answers_targets_perm h hn (List.cons_ne_nil k ks) (List.cons_ne_nil k' ks') hplain hplain' hatoms
      have hlink : joinedLink n joins (m.found q) = joinedLink n joins' (m.found q) := by
        funext k
        rw [joinedLink, joinedLink, targetsOf_eq_ends, targetsOf_eq_ends, hends]
      show keyedRows n.step _ (m.answers q) >>= linkJoined n _ =
        keyedRows n.step _ (m'.answers (targetQuery g n (k' :: ks'))) >>= linkJoined n _
      rw [hsame, hanswer, keyedRows_eq n.step (keyable_fetched hn.serves (fetched_found rfl rfl))]
      show linkJoined n _ _ = linkJoined n _ _
      rw [linkJoined_eq fun row hrow => (hjoins row hrow).1.isScalar.keyable,
        linkJoined_eq fun row hrow => (hjoins' row hrow).1.isScalar.keyable, hlink]

theorem loadsAlike_manyViaJoin (hn : n.Determined m g) (hkind : n.step.relation.kind = .manyViaJoin) :
    n.LoadsAlike m.answers m'.answers g := by
  intro rows
  have hload : n.load g rows = loadManyViaJoin g n rows := by
    unfold load
    rw [hkind]
  rw [hload, loadManyViaJoin]
  cases hj : n.step.relation.joinEntity with
  | none => exact .error _
  | some j =>
    cases keyBatchOf n.step.relation.sourceKey rows with
    | error f => exact .error f
    | ok batch =>
      cases batch with
      | nil => exact .refl Linking.Alike.refl _
      | cons k ks =>
        let q := joinQuery n j (k :: ks)
        have hserves' := h.serves hn.serves
        have hjoins := allAt_joins hn.serves hj (k :: ks)
        have hjoins' := allAt_joins hserves' hj (k :: ks)
        have hanswer : m.answers q = .ok (.rows (m.found q)) :=
          answers_eq_found (List.cons_ne_nil k ks) (hn.serves.join j hj)
        have hanswer' : m'.answers q = .ok (.rows (m'.found q)) :=
          answers_eq_found (List.cons_ne_nil k ks) (hserves'.join j hj)
        have hsecond := eval_loadTargets_perm h hn (ends_perm h hn.serves hj (k :: ks)) hjoins hjoins'
        simp only [Dialogue.eval]
        rw [hanswer, hanswer', keyedRows_eq n.step fun row hrow => (hjoins row hrow).2.isScalar.keyable,
          keyedRows_eq n.step fun row hrow => (hjoins' row hrow).2.isScalar.keyable, hsecond]
        exact .refl Linking.Alike.refl _

/-- A node is loaded alike from tables in another order. -/
theorem loadsAlike (hn : n.Determined m g) : n.LoadsAlike m.answers m'.answers g := by
  cases hkind : n.step.relation.kind with
  | one => exact loadsAlike_one h hn hkind
  | many => exact loadsAlike_many h hn hkind
  | manyViaJoin => exact loadsAlike_manyViaJoin h hn hkind

end Loads

end PlanNode

end Alike

end RelatedRows

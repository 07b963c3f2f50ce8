import Mathlib.Data.List.Induction
import Mathlib.Logic.Basic
import RelatedRows.Proofs.Results
import RelatedRows.Store.Memory
import RelatedRows.Stitch.Load

/-!
# Scalar keys

Rows whose key values are scalars always have a key or none, and an index over them holds what scanning them finds.

* `Row.identity columns row`: what the key of a row is compared by, if it has one.
* `Row.hasKey columns k row`: whether the row has the key.
* `keyedRows_eq`: the answered rows with their keys.
* `Stitch.atoms_keyBatch`: the keys of a batch, as they are compared.
* `lookup_entries`, `entriesOf_entries`, `entriesOf_links`: the indexes of a load, as scans.
-/

namespace RelatedRows

/-! ## Scalar keys -/

/-- A scalar may be a key value; a list or an object may not. -/
def Value.isScalar : Value → Bool
  | .list _ | .object _ => false
  | _ => true

/-- What a scalar is compared by. -/
def Value.atomOf : Value → Atom
  | .bool b => .number (Number.int b.toNat).place
  | .number n => .number n.place
  | .text s => .text s
  | _ => .nothing

theorem Value.atom_eq {v : Value} (h : v.isScalar = true) : v.atom = .ok v.atomOf := by
  cases v with
  | list vs => cases h
  | object fields => cases h
  | _ => rfl

namespace Row

/-- Whether the values of some columns are of a certain sort. -/
def AllAt (sort : Value → Bool) (columns : List String) (row : Row) : Prop :=
  ∀ c ∈ columns, sort (row.get c) = true

instance (sort : Value → Bool) (columns : List String) (row : Row) : Decidable (row.AllAt sort columns) :=
  inferInstanceAs (Decidable (∀ c ∈ columns, _))

/-- Whether it can be said which key a row has, if any; a list or an object among the values stands against it. -/
def Keyable (columns : List String) (row : Row) : Prop :=
  ∃ k, row.key? columns = .ok k

/-- The key of a row, if its values are scalars. -/
def keyOf (columns : List String) (row : Row) : Option RowKey :=
  if (row.spelling columns).any Value.isNull then none
  else some ⟨(row.spelling columns).map Value.atomOf, row.spelling columns⟩

def identity (columns : List String) (row : Row) : Option (List Atom) :=
  (row.keyOf columns).map (·.identity)

/-- Whether a row has a key. -/
def hasKey (columns : List String) (k : List Atom) (row : Row) : Bool :=
  row.identity columns = some k

variable {columns : List String} {a b row : Row}

theorem key?_eq (h : row.Keyable columns) : row.key? columns = .ok (row.keyOf columns) := by
  obtain ⟨k, hk⟩ := h
  rw [hk]
  unfold key? at hk
  unfold keyOf
  dsimp only at hk
  split at hk
  · next hnull => rw [if_pos hnull, ← Except.ok.inj hk]
  · next hnull =>
    obtain ⟨key, hkey, rfl⟩ := Except.map_eq_ok hk
    obtain ⟨atoms, hatoms, heq⟩ := Except.bind_eq_ok hkey
    cases heq
    have hmap : (row.spelling columns).map Value.atomOf = atoms := by
      have hall := Except.mapM_eq_ok_iff.mp hatoms
      refine List.forall₂_eq_eq_eq ▸ List.forall₂_map_left_iff.mpr (hall.imp fun v x hv => ?_)
      cases v <;> cases hv <;> rfl
    rw [if_neg hnull, hmap]

theorem keyOf_eq_some {key : RowKey} (h : row.keyOf columns = some key) :
    key.spelling = row.spelling columns ∧ key.identity = (row.spelling columns).map Value.atomOf ∧
      ∀ v ∈ row.spelling columns, v.isNull = false := by
  unfold keyOf at h
  split at h
  · cases h
  · next hnull =>
    cases h
    refine ⟨rfl, rfl, fun v hv => ?_⟩
    rw [List.any_eq_true, not_exists] at hnull
    by_contra hv'
    exact hnull v ⟨hv, by simpa using hv'⟩

theorem keyOf_of_key? {key : RowKey} (h : row.key? columns = .ok (some key)) : row.keyOf columns = some key :=
  Except.ok.inj ((key?_eq ⟨_, h⟩).symm.trans h)

theorem AllAt.keyable (h : row.AllAt Value.isScalar columns) : row.Keyable columns := by
  have hatoms : (row.spelling columns).mapM Value.atom = .ok ((row.spelling columns).map Value.atomOf) := by
    refine Except.mapM_ok fun v hv => ?_
    obtain ⟨c, hc, rfl⟩ := List.mem_map.mp hv
    exact Value.atom_eq (h c hc)
  simp only [Keyable, key?, RowKey.ofSpelling, hatoms]
  split
  · exact ⟨_, rfl⟩
  · exact ⟨_, rfl⟩

/-- The only faults of a key are the lists and the objects in it. -/
theorem key?_failsOnly (columns : List String) (row : Row) :
    Except.FailsOnly (fun f => ∃ kind, f = .notKey kind) (row.key? columns) := by
  have hatom (v : Value) : Except.FailsOnly (fun f => ∃ kind, f = .notKey kind) v.atom := by
    cases v with
    | list vs => exact .error ⟨.list, rfl⟩
    | object fields => exact .error ⟨.object, rfl⟩
    | _ => exact .ok _
  unfold key?
  dsimp only
  split
  · exact .ok none
  · exact .map (.bind (.mapM fun v _ => hatom v) fun _ _ => .ok _) some

theorem identity_congr (h : a.spelling columns = b.spelling columns) : a.identity columns = b.identity columns := by
  simp only [identity, keyOf, h]

theorem spelling_project {cs : List String} (h : columns ⊆ cs) (row : Row) :
    (project (some cs) row).spelling columns = row.spelling columns := by
  refine List.map_congr_left fun c hc => ?_
  exact get_keep_of_pos (by simpa using h hc)

end Row

/-- The columns that a node fetches include the ones that it is stitched by. -/
theorem PlanNode.spelling_fetched (n : PlanNode) (row : Row) (columns : List String) :
    (project (n.fetched columns) row).spelling columns = row.spelling columns := by
  unfold fetched
  cases n.step.options.select with
  | none => rfl
  | some select =>
    refine Row.spelling_project (fun c hc => ?_) row
    simp [hc]

theorem Stitch.keyBatchOf_eq {columns : List String} {rows : List Row} (h : ∀ row ∈ rows, row.Keyable columns) :
    keyBatchOf columns rows = .ok (keyBatch (rows.map (Row.keyOf columns))) := by
  have hkeys : rows.mapM (Row.key? columns) = .ok (rows.map (Row.keyOf columns)) :=
    Except.mapM_ok fun row hrow => Row.key?_eq (h row hrow)
  rw [keyBatchOf, hkeys]
  rfl

theorem Stitch.keyable_of_keyBatchOf {columns : List String} {rows : List Row} {keys : List Key}
    (h : keyBatchOf columns rows = .ok keys) : ∀ row ∈ rows, row.Keyable columns := by
  intro row hrow
  obtain ⟨ks, hks, -⟩ := Except.bind_eq_ok h
  have hall := Except.mapM_eq_ok_iff.mp hks
  clear hks h
  induction hall with
  | nil => simp at hrow
  | cons hk _ ih =>
    rcases List.mem_cons.mp hrow with rfl | hrow
    · exact ⟨_, hk⟩
    · exact ih hrow

/-- Where the rows do not all have keys, the fault is a list or an object among the key values. -/
theorem Stitch.keyBatchOf_eq_error {columns : List String} {rows : List Row}
    (h : ∃ row ∈ rows, ¬row.Keyable columns) : ∃ kind, keyBatchOf columns rows = .error (.notKey kind) := by
  cases hkeys : keyBatchOf columns rows with
  | ok keys =>
    obtain ⟨row, hrow, hkeyable⟩ := h
    exact absurd (keyable_of_keyBatchOf hkeys row hrow) hkeyable
  | error f =>
    have hfails : Except.FailsOnly (fun f => ∃ kind, f = .notKey kind) (keyBatchOf columns rows) :=
      .bind (.mapM fun row _ => row.key?_failsOnly columns) fun _ _ => .ok _
    obtain ⟨kind, rfl⟩ := hfails f hkeys
    exact ⟨kind, rfl⟩

theorem Stitch.key?_of_keyedRows {step : Inclusion} {columns : List String} {a : Answer} {rows : List KeyedRow}
    (h : keyedRows step columns a = .ok rows) : ∀ r ∈ rows, r.row.key? columns = .ok r.key := by
  intro r hr
  obtain ⟨items, -, h⟩ := Except.bind_eq_ok h
  obtain ⟨v, -, hv⟩ := Except.exists_of_mem_mapM h hr
  obtain ⟨row, -, hv⟩ := Except.bind_eq_ok hv
  obtain ⟨key, hkey, hv⟩ := Except.bind_eq_ok hv
  cases hv
  exact hkey

/-! ## Looking keys up -/

/-- Keys are compared as lists or by deciding their equality; a look-up does not tell. -/
theorem beq_atoms : (List.instBEq : BEq (List Atom)) = instBEqOfDecidableEq :=
  lawful_beq_subsingleton _ _

theorem lookup_firstEntries {α : Type} (es : List (List Atom × α)) (k : List Atom) :
    (Index.firstEntries es).lookup k = es.lookup k := by
  rw [beq_atoms]
  exact Index.lookup_firstEntries es k

theorem lookup_groups {α : Type} (es : List (List Atom × α)) (k : List Atom) :
    ((Index.groups es).lookup k).getD [] = Index.entriesOf k es := by
  rw [beq_atoms]
  exact Index.lookup_groups es k

theorem Index.firstEntries_subset {κ α : Type} [DecidableEq κ] (es : List (κ × α)) : firstEntries es ⊆ es := by
  induction es using List.reverseRecOn with
  | nil => exact List.Subset.refl _
  | append_singleton es e ih =>
    intro x hx
    rw [firstEntries_concat, insertFirst] at hx
    split at hx
    · exact List.mem_append_left _ (ih hx)
    · rcases List.mem_append.mp hx with hx | hx
      · exact List.mem_append_left _ (ih hx)
      · exact List.mem_append_right _ hx

/-- The keys of an index are the different keys of its entries, as they first appear. -/
theorem Index.map_fst_firstEntries {κ α : Type} [DecidableEq κ] (es : List (κ × α)) :
    (firstEntries es).map Prod.fst = (es.map Prod.fst).eraseDups := by
  induction es using List.reverseRecOn with
  | nil => rfl
  | append_singleton es e ih =>
    have hseen : ((firstEntries es).lookup e.1).isSome = true ↔ e.1 ∈ es.map Prod.fst := by
      rw [lookup_firstEntries, List.lookup_isSome_iff, List.mem_map]
      exact exists_congr fun p => and_congr_right fun _ => beq_iff_eq.trans eq_comm
    rw [firstEntries_concat, insertFirst, List.map_append, List.map_singleton, List.eraseDups_append]
    by_cases h : e.1 ∈ es.map Prod.fst
    · have hnew : [e.1].removeAll (es.map Prod.fst) = [] := by simp [List.removeAll, h]
      rw [if_pos (hseen.mpr h), hnew, ih, List.eraseDups_nil, List.append_nil]
    · have hnew : [e.1].removeAll (es.map Prod.fst) = [e.1] := by simp [List.removeAll, h]
      rw [if_neg fun hs => h (hseen.mp hs), hnew, List.map_append, ih]
      rfl

theorem map_fst_firstEntries {α : Type} (es : List (List Atom × α)) :
    (Index.firstEntries es).map Prod.fst = (es.map Prod.fst).eraseDups := by
  rw [beq_atoms]
  exact Index.map_fst_firstEntries es

/-- The keys of a batch are told apart by what they are compared by, and so is their order. -/
theorem Stitch.atoms_keyBatch {keys : List (Option RowKey)}
    (h : ∀ k, some k ∈ keys → k.identity = k.spelling.map Value.atomOf) :
    (keyBatch keys).map (List.map Value.atomOf) = (keys.filterMap (Option.map RowKey.identity)).eraseDups := by
  let es := keys.filterMap fun k => k.map fun k => (k.identity, k.spelling)
  have hentries : ∀ e ∈ Index.firstEntries es, e.2.map Value.atomOf = e.1 := by
    intro e he
    obtain ⟨o, ho, heq⟩ := List.mem_filterMap.mp (Index.firstEntries_subset es he)
    obtain ⟨k, rfl, rfl⟩ := Option.map_eq_some_iff.mp heq
    exact (h k ho).symm
  have hfst : es.map Prod.fst = keys.filterMap (Option.map RowKey.identity) := by
    rw [List.map_filterMap]
    refine List.filterMap_congr fun k _ => ?_
    cases k <;> rfl
  show ((Index.firstEntries es).map Prod.snd).map _ = _
  rw [List.map_map, ← hfst, ← map_fst_firstEntries]
  exact List.map_congr_left hentries

/-- The keys in a batch are those of some rows. -/
theorem Stitch.mem_keyBatch {keys : List (Option RowKey)} {key : Key} (h : key ∈ keyBatch keys) :
    ∃ k, some k ∈ keys ∧ k.spelling = key := by
  obtain ⟨e, he, rfl⟩ := List.mem_map.mp h
  obtain ⟨o, ho, heq⟩ := List.mem_filterMap.mp (Index.firstEntries_subset _ he)
  obtain ⟨k, rfl, rfl⟩ := Option.map_eq_some_iff.mp heq
  exact ⟨k, ho, rfl⟩

/-- Every one of the keys is what some row has in the columns. -/
def Stitch.SpelledIn (columns : List String) (keys : List Key) : Prop :=
  ∀ key ∈ keys, ∃ row : Row, row.spelling columns = key

theorem Stitch.spelledIn_keyBatchOf {columns : List String} {rows : List Row} {keys : List Key}
    (h : keyBatchOf columns rows = .ok keys) : SpelledIn columns keys := by
  intro key hkey
  obtain ⟨ks, hks, h⟩ := Except.bind_eq_ok h
  cases h
  obtain ⟨k, hk, rfl⟩ := mem_keyBatch hkey
  obtain ⟨row, -, hrow⟩ := Except.exists_of_mem_mapM hks hk
  exact ⟨row, (Row.keyOf_eq_some (Row.keyOf_of_key? hrow)).1.symm⟩

theorem Stitch.spelledIn_keyedRows {step : Inclusion} {columns : List String} {a : Answer} {found : List KeyedRow}
    (h : keyedRows step columns a = .ok found) : SpelledIn columns (keyBatch (found.map (·.key))) := by
  intro key hkey
  obtain ⟨k, hk, rfl⟩ := mem_keyBatch hkey
  obtain ⟨r, hr, hrk⟩ := List.mem_map.mp hk
  have hkeyed := key?_of_keyedRows h r hr
  rw [hrk] at hkeyed
  exact ⟨r.row, (Row.keyOf_eq_some (Row.keyOf_of_key? hkeyed)).1.symm⟩

/-! ## Indexes over rows -/

/-- Rows with their keys. -/
def keyed (columns : List String) (rows : List Row) : List KeyedRow :=
  rows.map fun row => ⟨row, row.keyOf columns⟩

section Keyed

variable {columns : List String} {rows : List Row}

theorem rows_keyed (columns : List String) (rows : List Row) : (keyed columns rows).map (·.row) = rows := by
  simp [keyed, Function.comp_def]

theorem keys_keyed (columns : List String) (rows : List Row) :
    (keyed columns rows).map (·.key) = rows.map (Row.keyOf columns) := by
  simp [keyed, Function.comp_def]

theorem keyedRows_eq (step : Inclusion) (h : ∀ row ∈ rows, row.Keyable columns) :
    Stitch.keyedRows step columns (.ok (.rows rows)) = .ok (keyed columns rows) := by
  show (rows.map Value.object).mapM (Value.keyedRow columns) = _
  rw [List.mapM_map]
  refine Except.mapM_ok fun row hrow => ?_
  show (do return KeyedRow.mk row (← Row.key? columns row)) = _
  rw [Row.key?_eq (h row hrow)]
  rfl

theorem entries_keyed (columns : List String) (rows : List Row) : Stitch.entries (keyed columns rows) =
    rows.zipIdx.filterMap fun (row, i) => (row.identity columns).map (·, i) := by
  rw [Stitch.entries, keyed, List.zipIdx_map, List.filterMap_map]
  refine List.filterMap_congr fun r hr => ?_
  simp [Row.identity, Option.map_map, Function.comp_def]

/-- The index gives the position of the first row with a key. -/
theorem lookup_entries (columns : List String) (rows : List Row) (k : List Atom) :
    (Stitch.entries (keyed columns rows)).lookup k = rows.findIdx? (Row.hasKey columns k) := by
  suffices h : ∀ start, ((rows.zipIdx start).filterMap fun (row, i) => (row.identity columns).map (·, i)).lookup k =
      (rows.findIdx? (Row.hasKey columns k)).map (· + start) by
    simpa [entries_keyed] using h 0
  intro start
  induction rows generalizing start with
  | nil => simp
  | cons row rows ih =>
    have shift (o : Option Nat) : (o.map (· + 1)).map (· + start) = o.map (· + (start + 1)) := by
      rw [Option.map_map]
      refine congrArg (Option.map · o) (funext fun i => ?_)
      show i + 1 + start = i + (start + 1)
      omega
    rw [List.zipIdx_cons, List.filterMap_cons, List.findIdx?_cons]
    cases hid : row.identity columns with
    | none =>
      have hne : row.hasKey columns k = false := by simp [Row.hasKey, hid]
      simp only [hid, Option.map_none, hne, Bool.false_eq_true, if_false, shift]
      exact ih (start + 1)
    | some k' =>
      by_cases hk : k' = k
      · subst hk
        simp [Row.hasKey, hid]
      · have hne : row.hasKey columns k = false := by simp [Row.hasKey, hid, hk]
        simp only [hid, Option.map_some, hne, Bool.false_eq_true, if_false, shift]
        rw [List.lookup_cons, beq_eq_false_iff_ne.mpr (Ne.symm hk)]
        exact ih (start + 1)

/-- The group of a key holds the positions of all rows with it. -/
theorem entriesOf_entries (columns : List String) (rows : List Row) (k : List Atom) :
    Index.entriesOf k (Stitch.entries (keyed columns rows)) =
      (rows.zipIdx.filter fun r => r.1.hasKey columns k).map Prod.snd := by
  rw [entries_keyed]
  generalize rows.zipIdx = indexed
  induction indexed with
  | nil => rfl
  | cons r rest ih =>
    obtain ⟨row, i⟩ := r
    rw [List.filterMap_cons, List.filter_cons]
    cases hid : row.identity columns with
    | none =>
      have hne : row.hasKey columns k = false := by simp [Row.hasKey, hid]
      simp only [hid, Option.map_none, hne, Bool.false_eq_true, if_false]
      exact ih
    | some k' =>
      by_cases hk : k' = k
      · have heq : row.hasKey columns k = true := by simp [Row.hasKey, hid, hk]
        simp only [hid, Option.map_some, heq, if_true, List.map_cons]
        rw [Index.entriesOf, List.filter_cons_of_pos (by simpa using hk), List.map_cons]
        exact congrArg _ ih
      · have hne : row.hasKey columns k = false := by simp [Row.hasKey, hid, hk]
        simp only [hid, Option.map_some, hne, Bool.false_eq_true, if_false]
        rw [Index.entriesOf, List.filter_cons_of_neg (by simpa using hk)]
        exact ih

theorem entriesOf_links {columns : List String} {joins : List Row} (k : List Atom) (key : Row → Option RowKey) :
    Index.entriesOf k (((joins.map (Row.keyOf columns)).zip (joins.map key)).filterMap fun (s, t) =>
      s.map fun s => (s.identity, t)) = (joins.filter (Row.hasKey columns k)).map key := by
  induction joins with
  | nil => rfl
  | cons j joins ih =>
    rw [List.map_cons, List.map_cons, List.zip_cons_cons, List.filterMap_cons, List.filter_cons]
    cases hkey : j.keyOf columns with
    | none =>
      have hne : j.hasKey columns k = false := by simp [Row.hasKey, Row.identity, hkey]
      simp only [Option.map_none, hne, Bool.false_eq_true, if_false]
      exact ih
    | some k' =>
      by_cases hk : k'.identity = k
      · have heq : j.hasKey columns k = true := by simp [Row.hasKey, Row.identity, hkey, hk]
        simp only [Option.map_some, heq, if_true, List.map_cons]
        rw [Index.entriesOf, List.filter_cons_of_pos (by simpa using hk), List.map_cons]
        exact congrArg _ ih
      · have hne : j.hasKey columns k = false := by simp [Row.hasKey, Row.identity, hkey, hk]
        simp only [Option.map_some, hne, Bool.false_eq_true, if_false]
        rw [Index.entriesOf, List.filter_cons_of_neg (by simpa using hk)]
        exact ih

end Keyed

end RelatedRows

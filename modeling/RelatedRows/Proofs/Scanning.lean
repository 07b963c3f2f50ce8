import RelatedRows.Proofs.Attachments
import RelatedRows.Proofs.Keys
import RelatedRows.Proofs.Siblings
import RelatedRows.Proofs.Sorting

/-!
# Scanning

A load answers every row of a level from indexes that it builds over all found rows.  Over rows whose key values are
scalars this comes to scanning the found rows for each row on its own, as a join by nested loops would.

* `scanOne`, `scanMany`, `scanJoined`: the found rows that belong to a key, by scanning.
* `PlanNode.attach_one`, `attach_many`, `attach_manyViaJoin`: what a load links, in terms of the found rows alone.
* `related_oneLink`, `related_manyLink`, `related_joinedLink`: these links lead to what scanning finds.
-/

namespace RelatedRows

/-! ## Rows and positions -/

theorem findIdx?_eq_ite {α : Type} (p : α → Bool) (l : List α) :
    l.findIdx? p = if l.any p = true then some (l.findIdx p) else none := by
  induction l with
  | nil => rfl
  | cons a l ih =>
    by_cases h : p a = true
    · simp [List.findIdx?_cons, List.findIdx_cons, h]
    · have ha : p a = false := by simpa using h
      rw [List.findIdx?_cons, List.findIdx_cons, List.any_cons, ih, ha, Bool.false_or]
      by_cases hl : l.any p = true <;> simp [hl]

theorem getElem?_findIdx {α : Type} (p : α → Bool) (l : List α) : l[l.findIdx p]? = l.find? p := by
  induction l with
  | nil => rfl
  | cons a l ih =>
    by_cases h : p a = true
    · simp [List.findIdx_cons, h]
    · simp [List.findIdx_cons, h, ih]

/-- Of elements that `r` takes for the same the first one is kept, and so is the first of the equal values under `f`. -/
theorem map_eraseDupsBy {α β : Type} [BEq β] {f : α → β} {r : α → α → Bool} {l : List α}
    (h : ∀ a ∈ l, ∀ b ∈ l, r a b = (f a == f b)) : (l.eraseDupsBy r).map f = (l.map f).eraseDups := by
  suffices hloop : ∀ rest kept : List α, rest ⊆ l → kept ⊆ l →
      (List.eraseDupsBy.loop r rest kept).map f = List.eraseDupsBy.loop (· == ·) (rest.map f) (kept.map f) from
    hloop l [] (List.Subset.refl l) (List.nil_subset l)
  intro rest kept hrest hkept
  induction rest generalizing kept with
  | nil => simp [List.eraseDupsBy.loop]
  | cons a rest ih =>
    obtain ⟨ha, hrest⟩ := List.cons_subset.mp hrest
    have hany : (kept.map f).any (f a == ·) = kept.any (r a) := by
      rw [List.any_map, Bool.eq_iff_iff, List.any_eq_true, List.any_eq_true]
      exact exists_congr fun b => and_congr_right fun hb => by rw [h a ha b (hkept hb)]; rfl
    rw [List.map_cons, List.eraseDupsBy.loop, List.eraseDupsBy.loop, hany]
    cases kept.any (r a) with
    | true => exact ih kept hrest hkept
    | false => exact ih (a :: kept) hrest (List.cons_subset.mpr ⟨ha, hkept⟩)

theorem eraseDups_map {α β : Type} [BEq α] [LawfulBEq α] [BEq β] [LawfulBEq β] {f : α → β} {l : List α}
    (h : ∀ a ∈ l, ∀ b ∈ l, f a = f b → a = b) : (l.map f).eraseDups = l.eraseDups.map f := by
  refine (map_eraseDupsBy fun a ha b hb => ?_).symm
  rw [Bool.eq_iff_iff, beq_iff_eq, beq_iff_eq]
  exact ⟨congrArg f, h a ha b hb⟩

namespace Options

variable {α β : Type} (o : Options)

theorem window_map (f : α → β) (l : List α) : o.window (l.map f) = (o.window l).map f := by
  unfold window
  split <;> simp [List.map_drop, List.map_take]

theorem window_nil : o.window ([] : List α) = [] := by
  unfold window
  split <;> simp

theorem window_subset (l : List α) : o.window l ⊆ l := by
  unfold window
  split
  · intro x hx
    exact List.mem_of_mem_drop (List.mem_of_mem_take hx)
  · exact List.drop_subset _ _

variable {o} in
theorem length_window_le {limit : Nat} (h : o.limit = some limit) (l : List α) : (o.window l).length ≤ limit := by
  unfold window
  rw [h]
  exact List.length_take_le _ _

end Options

/-! ## Scans -/

section Scans

variable (columns : List String) (o : Options) (n : PlanNode)

def scanOne (found : List Row) (k : Option (List Atom)) : Related :=
  .one (k.bind fun k => found.find? (Row.hasKey columns k))

def scanMany (found : List Row) (k : Option (List Atom)) : Related :=
  .many (o.window (k.elim [] fun k => found.filter (Row.hasKey columns k)))

/-- The keys of targets that the join rows of a key lead to. -/
def PlanNode.targetsOf (joins : List Row) (k : Option (List Atom)) : List (List Atom) :=
  k.elim [] fun k => (joins.filter (Row.hasKey n.step.relation.joinSourceKey k)).filterMap
    (Row.identity n.step.relation.joinTargetKey)

/-- The place of the first target with a key. -/
def PlanNode.placeOf (targets : List Row) (k : List Atom) : Nat :=
  targets.findIdx (Row.hasKey n.step.relation.targetKey k)

/-- The keys of the targets to attach, in their order. -/
def PlanNode.arranged (targets : List Row) (ks : List (List Atom)) : List (List Atom) :=
  let present := ks.filter fun k => targets.any (Row.hasKey n.step.relation.targetKey k)
  let links := if n.step.relation.unique then present.eraseDups else present
  let ordered := !(n.step.options.orderBy.getD []).isEmpty
  n.step.options.window
    (if ordered then stableSort (fun a b => n.placeOf targets a ≤ n.placeOf targets b) links else links)

def scanJoined (joins targets : List Row) (k : Option (List Atom)) : Related :=
  .many ((n.arranged targets (n.targetsOf joins k)).filterMap fun k =>
    targets.find? (Row.hasKey n.step.relation.targetKey k))

/-! ## Links -/

def oneLink (found : List Row) (k : Option (List Atom)) : Link :=
  .one (k.bind fun k => found.findIdx? (Row.hasKey columns k))

def manyLink (found : List Row) (k : Option (List Atom)) : Link :=
  .many (o.window (k.elim [] fun k => (found.zipIdx.filter fun r => r.1.hasKey columns k).map Prod.snd))

def joinedLink (joins targets : List Row) (k : Option (List Atom)) : Link :=
  .many ((n.arranged targets (n.targetsOf joins k)).map (n.placeOf targets))

theorem related_oneLink (found : List Row) (k : Option (List Atom)) :
    (oneLink columns found k).related found = scanOne columns found k := by
  cases k with
  | none => rfl
  | some k =>
    simp only [oneLink, scanOne, Link.related, Option.bind_some, findIdx?_eq_ite]
    by_cases h : found.any (Row.hasKey columns k) = true
    · rw [if_pos h, Option.bind_some, getElem?_findIdx]
    · rw [if_neg h, Option.bind_none]
      refine congrArg _ (List.find?_eq_none.mpr fun row hrow hk => h ?_).symm
      exact List.any_eq_true.mpr ⟨row, hrow, hk⟩

theorem related_manyLink (found : List Row) (k : Option (List Atom)) :
    (manyLink columns o found k).related found = scanMany columns o found k := by
  cases k with
  | none => simp [manyLink, scanMany, Link.related, Options.window_nil]
  | some k =>
    simp only [manyLink, scanMany, Link.related, Option.elim_some, Options.window_map]
    have hrows : found.filter (Row.hasKey columns k) =
        (found.zipIdx.filter fun r => r.1.hasKey columns k).map Prod.fst := by
      conv_lhs => rw [← List.zipIdx_map_fst 0 found, List.filter_map]
      rfl
    have hmem : ∀ r ∈ o.window (found.zipIdx.filter fun r => r.1.hasKey columns k), found[r.2]? = some r.1 := by
      intro r hr
      exact List.mem_zipIdx_iff_getElem?.mp (List.mem_filter.mp (o.window_subset _ hr)).1
    rw [hrows, Options.window_map, List.filterMap_map]
    refine congrArg _ ((List.filterMap_congr hmem).trans ?_)
    exact congrFun List.filterMap_eq_map _

theorem related_joinedLink (joins targets : List Row) (k : Option (List Atom)) :
    (joinedLink n joins targets k).related targets = scanJoined n joins targets k := by
  simp only [joinedLink, scanJoined, Link.related, List.filterMap_map]
  refine congrArg _ (List.filterMap_congr fun k _ => ?_)
  exact getElem?_findIdx _ _

/-! ## Links lead to found rows -/

theorem lt_of_mem_oneLink {found : List Row} {k : Option (List Atom)} {i : Nat}
    (h : i ∈ (oneLink columns found k).positions) : i < found.length := by
  cases k with
  | none => simp [oneLink, Link.positions] at h
  | some k =>
    simp only [oneLink, Link.positions, Option.bind_some, Option.mem_toList] at h
    exact (List.findIdx?_eq_some_iff_getElem.mp h).1

theorem lt_of_mem_manyLink {found : List Row} {k : Option (List Atom)} {i : Nat}
    (h : i ∈ (manyLink columns o found k).positions) : i < found.length := by
  cases k with
  | none => simp [manyLink, Link.positions, Options.window_nil] at h
  | some k =>
    obtain ⟨r, hr, rfl⟩ := List.mem_map.mp (o.window_subset _ h)
    have hget := List.mem_zipIdx_iff_getElem?.mp (List.mem_filter.mp hr).1
    exact (List.getElem?_eq_some_iff.mp hget).1

variable {n}

theorem mem_arranged {targets : List Row} {ks : List (List Atom)} {k : List Atom}
    (h : k ∈ n.arranged targets ks) :
    k ∈ ks ∧ targets.any (Row.hasKey n.step.relation.targetKey k) = true := by
  have hpresent : k ∈ ks.filter fun k => targets.any (Row.hasKey n.step.relation.targetKey k) := by
    have hwindow := n.step.options.window_subset _ h
    split at hwindow
    · have hsorted := mem_stableSort.mp hwindow
      split at hsorted
      · exact List.mem_eraseDups.mp hsorted
      · exact hsorted
    · split at hwindow
      · exact List.mem_eraseDups.mp hwindow
      · exact hwindow
  exact List.mem_filter.mp hpresent

theorem lt_of_mem_joinedLink {joins targets : List Row} {k : Option (List Atom)} {i : Nat}
    (h : i ∈ (joinedLink n joins targets k).positions) : i < targets.length := by
  obtain ⟨k', hk', rfl⟩ := List.mem_map.mp h
  obtain ⟨t, ht, hkey⟩ := List.any_eq_true.mp (mem_arranged hk').2
  exact List.findIdx_lt_length_of_exists ⟨t, ht, hkey⟩

end Scans

/-! ## Loads -/

/-- Whether a store has these rows for a query; a query without keys is not put. -/
def Answered (answer : BatchQuery → Answer) (q : BatchQuery) (found : List Row) : Prop :=
  if q.keys = [] then found = [] else answer q = .ok (.rows found)

/-- The different keys of some rows, as a load puts them to the store. -/
def PlanNode.keys (n : PlanNode) (rows : List Row) : List Key :=
  Stitch.keyBatch (rows.map (Row.keyOf n.step.relation.sourceKey))

theorem Stitch.attachment_linkBy {columns : List String} {found rows : List Row}
    {link : Option (List Atom) → Link} (h : ∀ row ∈ rows, row.Keyable columns) :
    (linkBy columns found link).attachment rows = .ok ⟨found, rows.map fun row => link (row.identity columns)⟩ := by
  have hlinks : rows.mapM (linkBy columns found link).link = .ok (rows.map fun row => link (row.identity columns)) := by
    refine Except.mapM_ok fun row hrow => ?_
    show (row.key? columns).map _ = _
    rw [Row.key?_eq (h row hrow)]
    rfl
  rw [Linking.attachment, hlinks]
  rfl

theorem Stitch.attachment_nothing (link : Link) (rows : List Row) :
    (nothing link >>= (·.attachment rows)) = .ok ⟨[], rows.map fun _ => link⟩ := by
  have hlinks : rows.mapM (fun _ => Except.ok (ε := Fault) link) = .ok (rows.map fun _ => link) :=
    Except.mapM_ok fun _ _ => rfl
  show (do return Attachment.mk [] (← rows.mapM fun _ => Except.ok (ε := Fault) link)) = _
  rw [hlinks]
  rfl

section Loads

variable {answer : BatchQuery → Answer} {g : Graph} {n : PlanNode} {rows found joins targets : List Row}

open Stitch

theorem oneLink_nil (columns : List String) (k : Option (List Atom)) : oneLink columns [] k = .one none := by
  cases k <;> rfl

theorem manyLink_nil (columns : List String) (o : Options) (k : Option (List Atom)) :
    manyLink columns o [] k = .many [] := by
  cases k <;> simp [manyLink, Options.window_nil]

theorem joinedLink_nil (n : PlanNode) (joins : List Row) (k : Option (List Atom)) :
    joinedLink n joins [] k = .many [] := by
  simp [joinedLink, PlanNode.arranged, stableSort, Options.window_nil]

theorem linkOne_eq (n : PlanNode) (found : List Row) : linkOne n (keyed n.step.relation.targetKey found) =
    linkBy n.step.relation.sourceKey found (oneLink n.step.relation.targetKey found) := by
  simp only [linkOne, rows_keyed, lookup_firstEntries, lookup_entries]
  rfl

theorem linkMany_eq (n : PlanNode) (found : List Row) : linkMany n (keyed n.step.relation.targetKey found) =
    linkBy n.step.relation.sourceKey found (manyLink n.step.relation.targetKey n.step.options found) := by
  rw [linkMany, rows_keyed]
  refine congrArg (linkBy _ found) (funext fun k => ?_)
  cases k with
  | none => rfl
  | some k => simp only [Option.bind_some, lookup_groups, entriesOf_entries, manyLink, Option.elim_some]

theorem PlanNode.attach_one (hkind : n.step.relation.kind = .one)
    (hrows : ∀ row ∈ rows, row.Keyable n.step.relation.sourceKey)
    (hanswer : Answered answer (oneQuery n (n.keys rows)) found)
    (hfound : ∀ row ∈ found, row.Keyable n.step.relation.targetKey) :
    n.attach answer g rows = .ok ⟨found, rows.map fun row =>
      oneLink n.step.relation.targetKey found (row.identity n.step.relation.sourceKey)⟩ := by
  unfold attach load
  rw [hkind]
  simp only [loadOne, keyBatchOf_eq hrows]
  cases hkeys : keyBatch (rows.map (Row.keyOf n.step.relation.sourceKey)) with
  | nil =>
    have hnil : found = [] := by simpa [Answered, oneQuery, keys, hkeys] using hanswer
    simp only [Dialogue.eval, attachment_nothing, hnil, oneLink_nil]
  | cons k ks =>
    have hput : answer (oneQuery n (k :: ks)) = .ok (.rows found) := by
      simpa [Answered, oneQuery, keys, hkeys] using hanswer
    simp only [Dialogue.eval, hput, keyedRows_eq n.step hfound]
    show (linkOne n (keyed _ found)).attachment rows = _
    rw [linkOne_eq, attachment_linkBy hrows]

theorem PlanNode.attach_many (hkind : n.step.relation.kind = .many)
    (hrows : ∀ row ∈ rows, row.Keyable n.step.relation.sourceKey)
    (hanswer : Answered answer (manyQuery g n (n.keys rows)) found)
    (hfound : ∀ row ∈ found, row.Keyable n.step.relation.targetKey) :
    n.attach answer g rows = .ok ⟨found, rows.map fun row =>
      manyLink n.step.relation.targetKey n.step.options found (row.identity n.step.relation.sourceKey)⟩ := by
  unfold attach load
  rw [hkind]
  simp only [loadMany, keyBatchOf_eq hrows]
  cases hkeys : keyBatch (rows.map (Row.keyOf n.step.relation.sourceKey)) with
  | nil =>
    have hnil : found = [] := by simpa [Answered, manyQuery, keys, hkeys] using hanswer
    simp only [Dialogue.eval, attachment_nothing, hnil, manyLink_nil]
  | cons k ks =>
    have hput : answer (manyQuery g n (k :: ks)) = .ok (.rows found) := by
      simpa [Answered, manyQuery, keys, hkeys] using hanswer
    simp only [Dialogue.eval, hput, keyedRows_eq n.step hfound]
    show (linkMany n (keyed _ found)).attachment rows = _
    rw [linkMany_eq, attachment_linkBy hrows]

/-- The positions that a load arranges are the places of the targets whose keys it arranges. -/
theorem arrange_eq (n : PlanNode) (targets : List Row) (keys : List (Option RowKey)) :
    arrange n (Index.firstEntries (entries (keyed n.step.relation.targetKey targets))) keys =
      (n.arranged targets (keys.filterMap (·.map RowKey.identity))).map (n.placeOf targets) := by
  have hpositions : (keys.filterMap fun k => k.bind fun k =>
        (Index.firstEntries (entries (keyed n.step.relation.targetKey targets))).lookup k.identity) =
      ((keys.filterMap (·.map RowKey.identity)).filter fun k =>
        targets.any (Row.hasKey n.step.relation.targetKey k)).map (n.placeOf targets) := by
    simp only [lookup_firstEntries, lookup_entries, findIdx?_eq_ite]
    induction keys with
    | nil => rfl
    | cons k keys ih =>
      cases k with
      | none => exact ih
      | some k =>
        rw [List.filterMap_cons, List.filterMap_cons]
        by_cases h : targets.any (Row.hasKey n.step.relation.targetKey k.identity) = true
        · simp only [Option.bind_some, Option.map_some, List.filter_cons, h, if_true, List.map_cons, ih]
          rfl
        · simp only [Option.bind_some, Option.map_some, List.filter_cons, h, Bool.false_eq_true, if_false, ih]
  -- different keys have different places, as long as there are targets with them
  have hplaces : ∀ a ∈ (keys.filterMap (·.map RowKey.identity)).filter fun k =>
        targets.any (Row.hasKey n.step.relation.targetKey k),
      ∀ b ∈ (keys.filterMap (·.map RowKey.identity)).filter fun k =>
        targets.any (Row.hasKey n.step.relation.targetKey k),
      n.placeOf targets a = n.placeOf targets b → a = b := by
    intro a ha b hb hab
    have hfind : targets.find? (Row.hasKey n.step.relation.targetKey a) =
        targets.find? (Row.hasKey n.step.relation.targetKey b) := by
      rw [← getElem?_findIdx, ← getElem?_findIdx]
      exact congrArg (targets[·]?) hab
    obtain ⟨t, ht⟩ := Option.isSome_iff_exists.mp
      (List.find?_isSome.mpr (List.any_eq_true.mp (List.mem_filter.mp ha).2))
    have hta : t.hasKey n.step.relation.targetKey a = true := List.find?_some ht
    have htb : t.hasKey n.step.relation.targetKey b = true := List.find?_some (hfind ▸ ht)
    simp only [Row.hasKey, decide_eq_true_eq] at hta htb
    exact Option.some.inj (hta.symm.trans htb)
  simp only [arrange, PlanNode.arranged, hpositions]
  rw [← Options.window_map]
  refine congrArg _ ?_
  split
  · split
    · rw [eraseDups_map hplaces, stableSort_map]
    · rw [stableSort_map]
  · split
    · rw [eraseDups_map hplaces]
    · rfl

theorem linkJoined_eq (hjoins : ∀ row ∈ joins, row.Keyable n.step.relation.joinSourceKey) :
    linkJoined n (keyed n.step.relation.joinTargetKey joins) (keyed n.step.relation.targetKey targets) =
      .ok (linkBy n.step.relation.sourceKey targets (joinedLink n joins targets)) := by
  have hsources : (keyed n.step.relation.joinTargetKey joins).mapM
      (fun j => j.row.key? n.step.relation.joinSourceKey) =
      .ok (joins.map (Row.keyOf n.step.relation.joinSourceKey)) := by
    rw [keyed, List.mapM_map]
    exact Except.mapM_ok fun row hrow => Row.key?_eq (hjoins row hrow)
  unfold linkJoined
  rw [hsources]
  show Except.ok _ = _
  simp only [rows_keyed, keys_keyed, arrange_eq]
  refine congrArg (fun link => Except.ok (linkBy _ targets link)) (funext fun k => ?_)
  cases k with
  | none => rfl
  | some k =>
    simp only [Option.bind_some, lookup_groups, entriesOf_links, joinedLink, PlanNode.targetsOf, Option.elim_some,
      List.filterMap_map]
    rfl

theorem PlanNode.attach_manyViaJoin {j : String} (hkind : n.step.relation.kind = .manyViaJoin)
    (hjoin : n.step.relation.joinEntity = some j)
    (hrows : ∀ row ∈ rows, row.Keyable n.step.relation.sourceKey)
    (hjoinAnswer : Answered answer (joinQuery n j (n.keys rows)) joins)
    (hjoins : ∀ row ∈ joins, row.Keyable n.step.relation.joinSourceKey ∧ row.Keyable n.step.relation.joinTargetKey)
    (hanswer : Answered answer
      (targetQuery g n (keyBatch (joins.map (Row.keyOf n.step.relation.joinTargetKey)))) targets)
    (htargets : ∀ row ∈ targets, row.Keyable n.step.relation.targetKey) :
    n.attach answer g rows = .ok ⟨targets, rows.map fun row =>
      joinedLink n joins targets (row.identity n.step.relation.sourceKey)⟩ := by
  have hsecond : (loadTargets g n (keyed n.step.relation.joinTargetKey joins)).eval answer >>= (·.attachment rows) =
      .ok ⟨targets, rows.map fun row => joinedLink n joins targets (row.identity n.step.relation.sourceKey)⟩ := by
    simp only [loadTargets, keys_keyed]
    cases hkeys : keyBatch (joins.map (Row.keyOf n.step.relation.joinTargetKey)) with
    | nil =>
      have hnil : targets = [] := by simpa [Answered, targetQuery, hkeys] using hanswer
      simp only [Dialogue.eval, attachment_nothing, hnil, joinedLink_nil]
    | cons k ks =>
      have hput : answer (targetQuery g n (k :: ks)) = .ok (.rows targets) := by
        simpa [Answered, targetQuery, hkeys] using hanswer
      simp only [Dialogue.eval, hput, keyedRows_eq n.step htargets]
      show linkJoined n (keyed _ joins) (keyed _ targets) >>= (·.attachment rows) = _
      rw [linkJoined_eq fun row hrow => (hjoins row hrow).1]
      exact attachment_linkBy hrows
  unfold attach load
  rw [hkind]
  simp only [loadManyViaJoin, hjoin, keyBatchOf_eq hrows]
  cases hkeys : keyBatch (rows.map (Row.keyOf n.step.relation.sourceKey)) with
  | nil =>
    have hnil : joins = [] := by simpa [Answered, joinQuery, keys, hkeys] using hjoinAnswer
    have htnil : targets = [] := by simpa [Answered, targetQuery, hnil, keyBatch] using hanswer
    simp only [Dialogue.eval, attachment_nothing, htnil, joinedLink_nil]
  | cons k ks =>
    have hput : answer (joinQuery n j (k :: ks)) = .ok (.rows joins) := by
      simpa [Answered, joinQuery, keys, hkeys] using hjoinAnswer
    simp only [Dialogue.eval, hput, keyedRows_eq n.step fun row hrow => (hjoins row hrow).2]
    exact hsecond

end Loads

end RelatedRows

import RelatedRows.Proofs.KeyBatches
import RelatedRows.Proofs.UniqueKeys

/-!
# Scanning join rows

What a relation through a join entity attaches to a row can be read off the join rows and the targets that were found,
by scanning both of them for this row alone.

* `PlanNode.belongs`, `PlanNode.leadsTo`: the rows on either side of a join row.
* `PlanNode.linksOf`: the join rows that are followed for a row, in their order.
* `PlanNode.joined`: the targets that are attached to a row.
* `PlanNode.scanJoined_identity`: looking up keys comes to the same.
* `PlanNode.load_joined`: so does a load, whatever the two answers are.
-/

namespace RelatedRows

open Stitch

/-! ## Following join rows -/

namespace PlanNode

section Joined

variable (n : PlanNode) (joins targets : List Row) (row : Row)

/-- Whether a join row has the key of a row that it is to be attached to. -/
def belongs (join : Row) : Bool :=
  (row.identity n.step.relation.sourceKey).any fun k => join.hasKey n.step.relation.joinSourceKey k

/-- Whether a target has the key that a join row gives for it. -/
def leadsTo (join target : Row) : Bool :=
  (join.identity n.step.relation.joinTargetKey).any fun k => target.hasKey n.step.relation.targetKey k

/-- The join rows that belong to a row and lead to some target; of those with the same key for it the first one only, if
the relation is unique. -/
def linksOf : List Row :=
  let links := (joins.filter (n.belongs row)).filter fun join => targets.any (n.leadsTo join)
  if n.step.relation.unique then
    links.eraseDupsBy fun a b =>
      a.identity n.step.relation.joinTargetKey = b.identity n.step.relation.joinTargetKey
  else links

/-- The same join rows in the order of the targets that they lead to, if an order was asked for. -/
def orderedLinksOf : List Row :=
  if (n.step.options.orderBy.getD []).isEmpty then n.linksOf joins targets row
  else
    stableSort (fun a b => targets.findIdx (n.leadsTo a) ≤ targets.findIdx (n.leadsTo b)) (n.linksOf joins targets row)

/-- The first targets that these join rows lead to, without as many as the offset says and no more than the limit. -/
def joined : List Row :=
  let found := (n.orderedLinksOf joins targets row).filterMap fun join => targets.find? (n.leadsTo join)
  match n.step.options.limit with
  | none => found.drop n.step.options.offset
  | some limit => (found.drop n.step.options.offset).take limit

end Joined

/-! ## Keys of join rows -/

section Keys

variable {n : PlanNode} {joins targets : List Row} {row : Row}

/-- The key of a target that a join row gives, if it does. -/
def linkKey (n : PlanNode) (join : Row) : List Atom :=
  (join.identity n.step.relation.joinTargetKey).getD []

theorem joined_eq : n.joined joins targets row =
    n.step.options.window ((n.orderedLinksOf joins targets row).filterMap fun join =>
      targets.find? (n.leadsTo join)) := by
  unfold joined Options.window
  cases n.step.options.limit <;> rfl

theorem belongs_of_key {k : List Atom} (h : row.identity n.step.relation.sourceKey = some k) :
    n.belongs row = Row.hasKey n.step.relation.joinSourceKey k := by
  funext join
  rw [belongs, h]
  rfl

theorem leadsTo_of_key {join : Row} {k : List Atom} (h : join.identity n.step.relation.joinTargetKey = some k) :
    n.leadsTo join = Row.hasKey n.step.relation.targetKey k := by
  funext target
  rw [leadsTo, h]
  rfl

theorem identity_of_leads {join : Row} (h : targets.any (n.leadsTo join) = true) :
    join.identity n.step.relation.joinTargetKey = some (n.linkKey join) := by
  obtain ⟨target, -, htarget⟩ := List.any_eq_true.mp h
  obtain ⟨k, hk, -⟩ := (Option.any_eq_true _ _).mp htarget
  rw [linkKey, hk]
  rfl

/-- Targets that a join row leads to are those with its key. -/
theorem leadsTo_eq {join : Row} (h : targets.any (n.leadsTo join) = true) :
    n.leadsTo join = Row.hasKey n.step.relation.targetKey (n.linkKey join) :=
  leadsTo_of_key (identity_of_leads h)

theorem leads_of_mem_linksOf {join : Row} (h : join ∈ n.linksOf joins targets row) :
    targets.any (n.leadsTo join) = true := by
  unfold linksOf at h
  split at h
  · exact (List.mem_filter.mp (eraseDupsBy_subset _ h)).2
  · exact (List.mem_filter.mp h).2

theorem perm_orderedLinksOf : (n.orderedLinksOf joins targets row).Perm (n.linksOf joins targets row) := by
  unfold orderedLinksOf
  split
  · exact .refl _
  · exact perm_stableSort _ _

theorem leads_of_mem_orderedLinksOf {join : Row} (h : join ∈ n.orderedLinksOf joins targets row) :
    targets.any (n.leadsTo join) = true :=
  leads_of_mem_linksOf (perm_orderedLinksOf.mem_iff.mp h)

/-- The keys of the targets that are looked up are those of the join rows that are followed. -/
theorem map_linkKey_links :
    ((joins.filter (n.belongs row)).filter fun join => targets.any (n.leadsTo join)).map n.linkKey =
      (n.targetsOf joins (row.identity n.step.relation.sourceKey)).filter fun k =>
        targets.any (Row.hasKey n.step.relation.targetKey k) := by
  have hkeys (links : List Row) : (links.filter fun join => targets.any (n.leadsTo join)).map n.linkKey =
      (links.filterMap (Row.identity n.step.relation.joinTargetKey)).filter fun k =>
        targets.any (Row.hasKey n.step.relation.targetKey k) := by
    induction links with
    | nil => rfl
    | cons join links ih =>
      rw [List.filter_cons, List.filterMap_cons]
      cases hk : join.identity n.step.relation.joinTargetKey with
      | none =>
        have hleads : ¬targets.any (n.leadsTo join) = true := by simp [leadsTo, hk]
        rw [if_neg hleads, ih]
      | some k =>
        have hkey : n.linkKey join = k := by rw [linkKey, hk]; rfl
        rw [leadsTo_of_key hk]
        show _ = List.filter _ (k :: _)
        rw [List.filter_cons, ← ih]
        split
        · rw [List.map_cons, hkey]
        · rfl
  rw [hkeys]
  refine congrArg _ ?_
  cases hrow : row.identity n.step.relation.sourceKey with
  | none =>
    have hbelongs : joins.filter (n.belongs row) = [] :=
      List.filter_eq_nil_iff.mpr fun join _ => by simp [belongs, hrow]
    rw [hbelongs]
    rfl
  | some k =>
    rw [belongs_of_key hrow]
    rfl

theorem map_linkKey_linksOf : (n.linksOf joins targets row).map n.linkKey =
    let present := (n.targetsOf joins (row.identity n.step.relation.sourceKey)).filter fun k =>
      targets.any (Row.hasKey n.step.relation.targetKey k)
    if n.step.relation.unique then present.eraseDups else present := by
  unfold linksOf
  split
  · rw [← map_linkKey_links, map_eraseDupsBy]
    intro a ha b hb
    rw [identity_of_leads (List.mem_filter.mp ha).2, identity_of_leads (List.mem_filter.mp hb).2, Bool.eq_iff_iff,
      decide_eq_true_iff, beq_iff_eq, Option.some.injEq]
  · exact map_linkKey_links

theorem map_linkKey_orderedLinksOf :
    n.step.options.window ((n.orderedLinksOf joins targets row).map n.linkKey) =
      n.arranged targets (n.targetsOf joins (row.identity n.step.relation.sourceKey)) := by
  unfold arranged orderedLinksOf
  refine congrArg _ ?_
  rw [← map_linkKey_linksOf]
  by_cases hempty : (n.step.options.orderBy.getD []).isEmpty = true
  · rw [if_pos hempty, if_neg (by simp [hempty])]
  · rw [if_neg hempty, if_pos (by simp [hempty]), stableSort_map]
    refine congrArg _ (stableSort_congr fun a ha b hb => ?_)
    rw [placeOf, placeOf, ← leadsTo_eq (leads_of_mem_linksOf ha), ← leadsTo_eq (leads_of_mem_linksOf hb)]

/-- Looking up keys comes to scanning for the row. -/
theorem scanJoined_identity :
    scanJoined n joins targets (row.identity n.step.relation.sourceKey) = .many (n.joined joins targets row) := by
  let first (join : Row) : Row := (targets.find? (n.leadsTo join)).getD []
  have hfirst : ∀ join ∈ n.orderedLinksOf joins targets row, targets.find? (n.leadsTo join) = some (first join) := by
    intro join hjoin
    obtain ⟨target, htarget⟩ := Option.isSome_iff_exists.mp
      (List.find?_isSome.mpr (List.any_eq_true.mp (leads_of_mem_orderedLinksOf hjoin)))
    simp only [first, htarget, Option.getD_some]
  have hlookup : ∀ join ∈ n.step.options.window (n.orderedLinksOf joins targets row),
      targets.find? (Row.hasKey n.step.relation.targetKey (n.linkKey join)) = some (first join) := by
    intro join hjoin
    have hordered := n.step.options.window_subset _ hjoin
    rw [← leadsTo_eq (leads_of_mem_orderedLinksOf hordered), hfirst join hordered]
  rw [scanJoined, joined_eq, ← map_linkKey_orderedLinksOf, Options.window_map, List.filterMap_map]
  refine congrArg Related.many ?_
  calc (n.step.options.window (n.orderedLinksOf joins targets row)).filterMap _
      = (n.step.options.window (n.orderedLinksOf joins targets row)).filterMap (some ∘ first) :=
        List.filterMap_congr hlookup
    _ = n.step.options.window ((n.orderedLinksOf joins targets row).map first) := by
        rw [List.filterMap_eq_map, Options.window_map]
    _ = n.step.options.window ((n.orderedLinksOf joins targets row).filterMap (some ∘ first)) := by
        rw [List.filterMap_eq_map]
    _ = _ := congrArg _ (List.filterMap_congr fun join hjoin => (hfirst join hjoin).symm)

/-! ## Rows without join rows, and repeated targets -/

theorem joined_eq_nil (h : ∀ join ∈ joins, n.belongs row join = true → targets.any (n.leadsTo join) = false) :
    n.joined joins targets row = [] := by
  have hlinks : (joins.filter (n.belongs row)).filter (fun join => targets.any (n.leadsTo join)) = [] := by
    rw [List.filter_filter, List.filter_eq_nil_iff]
    intro join hjoin hboth
    obtain ⟨hany, hbelongs⟩ := Bool.and_eq_true_iff.mp hboth
    rw [h join hjoin hbelongs] at hany
    cases hany
  have hnone : n.orderedLinksOf joins targets row = [] := by
    unfold orderedLinksOf linksOf
    simp [hlinks, stableSort]
  rw [joined_eq, hnone, List.filterMap_nil, Options.window_nil]

/-- Without a window, and if it may be repeated, a target is attached once for each join row between the two. -/
theorem countP_joined (hunique : n.step.relation.unique = false) (hoffset : n.step.options.offset = 0)
    (hlimit : n.step.options.limit = none) {k l : List Atom} (hk : row.identity n.step.relation.sourceKey = some k)
    (hl : targets.any (Row.hasKey n.step.relation.targetKey l) = true) :
    (n.joined joins targets row).countP (Row.hasKey n.step.relation.targetKey l) =
      joins.countP fun join =>
        join.hasKey n.step.relation.joinSourceKey k && join.hasKey n.step.relation.joinTargetKey l := by
  have hlinks : n.linksOf joins targets row =
      (joins.filter (n.belongs row)).filter fun join => targets.any (n.leadsTo join) :=
    if_neg (by simp [hunique])
  have hjoined : n.joined joins targets row =
      (n.orderedLinksOf joins targets row).filterMap fun join => targets.find? (n.leadsTo join) := by
    rw [joined, hlimit, hoffset]
    rfl
  -- the first target of a join row has the key that the join row gives
  have hkeys : ∀ join ∈ n.orderedLinksOf joins targets row,
      (((targets.find? (n.leadsTo join)).map (Row.hasKey n.step.relation.targetKey l)).getD false = true ↔
        join.hasKey n.step.relation.joinTargetKey l = true) := by
    intro join hjoin
    have hany := leads_of_mem_orderedLinksOf hjoin
    obtain ⟨target, htarget⟩ := Option.isSome_iff_exists.mp (List.find?_isSome.mpr (List.any_eq_true.mp hany))
    have htkey : target.identity n.step.relation.targetKey = some (n.linkKey join) := by
      have hleads := List.find?_some htarget
      rw [leadsTo_eq hany] at hleads
      exact of_decide_eq_true hleads
    simp only [htarget, Option.map_some, Option.getD_some, Row.hasKey, htkey, identity_of_leads hany]
  rw [hjoined, List.countP_filterMap, List.countP_congr hkeys, perm_orderedLinksOf.countP_eq, hlinks,
    List.filter_filter, List.countP_filter]
  refine List.countP_congr fun join _ => ?_
  rw [belongs_of_key hk]
  by_cases hkey : join.hasKey n.step.relation.joinTargetKey l = true
  · have hid : join.identity n.step.relation.joinTargetKey = some l := of_decide_eq_true hkey
    simp [hkey, leadsTo_of_key hid, hl]
  · simp [hkey]

end Keys

end PlanNode

/-! ## Loads -/

theorem Stitch.identity_of_keyBatch_eq_nil {columns : List String} {rows : List Row}
    (h : keyBatch (rows.map (Row.keyOf columns)) = []) : ∀ row ∈ rows, row.identity columns = none := by
  intro row hrow
  rw [Row.identity, Option.map_eq_none_iff]
  cases hkey : row.keyOf columns with
  | none => rfl
  | some key =>
    obtain ⟨key', -, -, hmem⟩ := exists_mem_keyBatch (List.mem_map.mpr ⟨row, hrow, hkey⟩)
    rw [h] at hmem
    cases hmem

/-- Rows that are linked one by one have the value of their link under the key. -/
theorem Linking.attachTo_eq_map {l : Linking} {key : String} {rows : List Row} {value : Row → Value}
    (h : ∀ row ∈ rows, ∃ link, l.link row = .ok link ∧ link.value l.found = value row) :
    (∃ a, l.attachment rows = .ok a) ∧ l.attachTo key rows = rows.map fun row => row.set key (value row) := by
  induction rows with
  | nil => exact ⟨⟨_, rfl⟩, rfl⟩
  | cons row rows ih =>
    obtain ⟨link, hlink, hvalue⟩ := h row List.mem_cons_self
    obtain ⟨⟨a, ha⟩, hrest⟩ := ih fun row hrow => h row (List.mem_cons_of_mem _ hrow)
    obtain ⟨links, hlinks, -⟩ := Except.bind_eq_ok ha
    refine ⟨⟨⟨l.found, link :: links⟩, ?_⟩, ?_⟩
    · rw [attachment, Except.mapM_cons_ok hlink, hlinks]
      rfl
    · simp only [attachTo, hlink, hvalue, hrest, List.map_cons]

section Loads

variable {σ : Type} {exec : Executor σ} {g : Graph} {n : PlanNode} {path : List String} {rows joins targets : List Row}

/-- Whether a load has ended with links to the targets of join rows. -/
def PlanNode.LinksJoined (n : PlanNode) (joins targets rows : List Row) (r : Except Fault Linking) : Prop :=
  ∃ l, r = .ok l ∧ ∀ row ∈ rows, ∃ link, l.link row = .ok link ∧
    link.value l.found = .rows (n.joined joins targets row)

theorem PlanNode.linksJoined_nothing (h : ∀ row ∈ rows, n.joined joins targets row = []) :
    n.LinksJoined joins targets rows (nothing (.many [])) := by
  refine ⟨_, rfl, fun row hrow => ⟨.many [], rfl, ?_⟩⟩
  rw [h row hrow]
  rfl

theorem PlanNode.linksJoined_linkBy (hrows : ∀ row ∈ rows, row.Keyable n.step.relation.sourceKey) :
    n.LinksJoined joins targets rows
      (.ok (linkBy n.step.relation.sourceKey targets (joinedLink n joins targets))) := by
  refine ⟨_, rfl, fun row hrow => ⟨joinedLink n joins targets (row.identity n.step.relation.sourceKey), ?_, ?_⟩⟩
  · show (row.key? n.step.relation.sourceKey).map _ = _
    rw [Row.key?_eq (hrows row hrow)]
    rfl
  · show Link.value targets _ = _
    rw [Link.value_eq, related_joinedLink, scanJoined_identity]
    rfl

/-- What the second half of a load comes to, after the join rows are in. -/
theorem PlanNode.linksJoined_loadTargets {s : Session σ} {u : σ}
    (hrows : ∀ row ∈ rows, row.Keyable n.step.relation.sourceKey)
    (hjoins : ∀ row ∈ joins, row.Keyable n.step.relation.joinSourceKey)
    (htargets : ∀ row ∈ targets, row.Keyable n.step.relation.targetKey)
    (hanswer : keyBatch (joins.map (Row.keyOf n.step.relation.joinTargetKey)) ≠ [] →
      exec s.store (.batch (targetQuery g n (keyBatch (joins.map (Row.keyOf n.step.relation.joinTargetKey))))) =
        (.ok (.rows targets), u)) :
    n.LinksJoined joins targets rows
      ((loadTargets g n (keyed n.step.relation.joinTargetKey joins)).run exec path n.step s).1 := by
  unfold loadTargets
  rw [keys_keyed]
  cases hkeys : keyBatch (joins.map (Row.keyOf n.step.relation.joinTargetKey)) with
  | nil =>
    refine linksJoined_nothing fun row _ => joined_eq_nil fun join hjoin _ => ?_
    simp [leadsTo, identity_of_keyBatch_eq_nil hkeys join hjoin]
  | cons k ks =>
    rw [hkeys] at hanswer
    simp only [Dialogue.run, hanswer (List.cons_ne_nil k ks), keyedRows_eq n.step htargets]
    show n.LinksJoined joins targets rows (linkJoined n (keyed _ joins) (keyed _ targets))
    rw [linkJoined_eq hjoins]
    exact linksJoined_linkBy hrows

theorem PlanNode.linksJoined_load {j : String} {s : Session σ} {t u : σ}
    (hkind : n.step.relation.kind = .manyViaJoin) (hjoin : n.step.relation.joinEntity = some j)
    (hrows : ∀ row ∈ rows, row.Keyable n.step.relation.sourceKey)
    (hjoins : ∀ row ∈ joins, row.AllAt Value.isScalar n.step.relation.joinSourceKey ∧
      row.AllAt Value.isScalar n.step.relation.joinTargetKey)
    (htargets : ∀ row ∈ targets, row.AllAt Value.isScalar n.step.relation.targetKey)
    (hfirst : n.keys rows ≠ [] → exec s.store (.batch (joinQuery n j (n.keys rows))) = (.ok (.rows joins), t))
    (hsecond : n.keys rows ≠ [] → keyBatch (joins.map (Row.keyOf n.step.relation.joinTargetKey)) ≠ [] →
      exec t (.batch (targetQuery g n (keyBatch (joins.map (Row.keyOf n.step.relation.joinTargetKey))))) =
        (.ok (.rows targets), u)) :
    n.LinksJoined joins targets rows ((n.load g rows).run exec path n.step s).1 := by
  have hload : n.load g rows = loadManyViaJoin g n rows := by rw [load, hkind]
  rw [hload]
  unfold loadManyViaJoin
  rw [hjoin, keyBatchOf_eq hrows]
  cases hkeys : n.keys rows with
  | nil =>
    have hnil : keyBatch (rows.map (Row.keyOf n.step.relation.sourceKey)) = [] := hkeys
    rw [hnil]
    refine linksJoined_nothing fun row hrow => joined_eq_nil fun join _ hbelongs => ?_
    simp [belongs, identity_of_keyBatch_eq_nil hnil row hrow] at hbelongs
  | cons k ks =>
    have hcons : keyBatch (rows.map (Row.keyOf n.step.relation.sourceKey)) = k :: ks := hkeys
    rw [hkeys] at hfirst hsecond
    simp only [hcons, Dialogue.run, hfirst (List.cons_ne_nil k ks),
      keyedRows_eq n.step fun row hrow => (hjoins row hrow).2.keyable]
    exact linksJoined_loadTargets hrows (fun row hrow => (hjoins row hrow).1.keyable)
      (fun row hrow => (htargets row hrow).keyable) (hsecond (List.cons_ne_nil k ks))

/-- A load through a join entity attaches to every row the targets that scanning finds for it, whatever the two answers
are.  A row with no key value, or that no join row belongs to, is left with none of them; targets are repeated unless
the relation is unique.  Where a list or an object stands for a key value, nothing is asked. -/
theorem PlanNode.load_joined {j : String} {s : Session σ} {t u : σ} (hkind : n.step.relation.kind = .manyViaJoin)
    (hjoin : n.step.relation.joinEntity = some j)
    (hjoins : ∀ row ∈ joins, row.AllAt Value.isScalar n.step.relation.joinSourceKey ∧
      row.AllAt Value.isScalar n.step.relation.joinTargetKey)
    (htargets : ∀ row ∈ targets, row.AllAt Value.isScalar n.step.relation.targetKey)
    (hfirst : n.keys rows ≠ [] → exec s.store (.batch (joinQuery n j (n.keys rows))) = (.ok (.rows joins), t))
    (hsecond : n.keys rows ≠ [] → keyBatch (joins.map (Row.keyOf n.step.relation.joinTargetKey)) ≠ [] →
      exec t (.batch (targetQuery g n (keyBatch (joins.map (Row.keyOf n.step.relation.joinTargetKey))))) =
        (.ok (.rows targets), u)) :
    ((∀ row ∈ rows, row.Keyable n.step.relation.sourceKey) →
      (∃ a, ((n.load g rows).run exec path n.step s).1 >>= (·.attachment rows) = .ok a) ∧
        rowsAfter n.key rows ((n.load g rows).run exec path n.step s).1 =
          rows.map fun row => row.set n.key (.rows (n.joined joins targets row))) ∧
      ((∃ row ∈ rows, ¬row.Keyable n.step.relation.sourceKey) →
        ∃ kind, (n.load g rows).run exec path n.step s = (.error (.notKey kind), s)) ∧
      (∀ row : Row, (row.identity n.step.relation.sourceKey = none ∨
          ∀ join ∈ joins, join.identity n.step.relation.joinSourceKey ≠ row.identity n.step.relation.sourceKey) →
        n.joined joins targets row = []) ∧
      (n.step.relation.unique = false → n.step.options.offset = 0 → n.step.options.limit = none →
        ∀ (row : Row) (k l : List Atom), row.identity n.step.relation.sourceKey = some k →
          targets.any (Row.hasKey n.step.relation.targetKey l) = true →
          (n.joined joins targets row).countP (Row.hasKey n.step.relation.targetKey l) =
            joins.countP fun join =>
              join.hasKey n.step.relation.joinSourceKey k && join.hasKey n.step.relation.joinTargetKey l) := by
  refine ⟨fun hrows => ?_, fun hrow => ?_, fun row hrow => ?_, fun hunique hoffset hlimit row k l hk hl => ?_⟩
  · obtain ⟨l, hl, hlinks⟩ := linksJoined_load hkind hjoin hrows hjoins htargets hfirst hsecond
    rw [hl]
    exact Linking.attachTo_eq_map hlinks
  · obtain ⟨kind, hkeys⟩ := keyBatchOf_eq_error hrow
    refine ⟨kind, ?_⟩
    simp only [load, hkind, loadManyViaJoin, hjoin, hkeys]
    rfl
  · refine joined_eq_nil fun join hjoin hbelongs => ?_
    obtain ⟨k, hk, hkey⟩ := (Option.any_eq_true _ _).mp hbelongs
    rcases hrow with hnone | hother
    · rw [hnone] at hk
      cases hk
    · exact absurd ((of_decide_eq_true hkey).trans hk.symm) (hother join hjoin)
  · exact countP_joined hunique hoffset hlimit hk hl

end Loads

namespace Bookshelf

/-- From a book to its tags, possibly more than once. -/
def repeatedTags : Relation :=
  bookTags.across false ⟨["book_id"], "books", ["id"], false⟩ ⟨["tag_id"], "tags", ["id"], false⟩

/-- These tags by name, without the first one and no more than three. -/
def tagsByName : PlanNode :=
  .leaf ⟨"tags", repeatedTags, 1, { orderBy := some ["name"], offset := 1, limit := some 3 }⟩

/-- Links of two books; one leads to no tag, some lead to tags that are not found, and one is there three times.  Those
of undefined books are not all of the same object, and neither are the undefined tags that were asked for and found. -/
def links : List Row :=
  [[("book_id", .int 1), ("tag_id", .int 8)], [("book_id", .int 2), ("tag_id", .int 9)],
    [("book_id", .int 1), ("tag_id", .int 7)], [("book_id", .int 1), ("tag_id", .int 5)],
    [("book_id", .int 1), ("tag_id", .null)], [("book_id", .int 1), ("tag_id", .int 8)],
    [("book_id", .int 1), ("tag_id", .int 8)], [("book_id", .undefined 1), ("tag_id", .int 8)],
    [("book_id", .undefined 2), ("tag_id", .int 8)], [("book_id", .undefined 1), ("tag_id", .undefined 3)],
    [("book_id", .undefined 1), ("tag_id", .int 7)]]

def foundTags : List Row :=
  [[("id", .int 7), ("name", .text "essay")], [("id", .int 8), ("name", .text "novel")],
    [("id", .int 8), ("name", .text "novella")], [("id", .null), ("name", .text "other")],
    [("id", .undefined 4), ("name", .text "some")]]

/-- A store that gives these links and tags, whatever is asked of it. -/
def prepared : Memory where
  prepared := [("book_tags", [.ok (.rows links)]), ("tags", [.ok (.rows foundTags)])]

def someBooks : List Row :=
  [[("id", .int 1)], [("id", .int 2)], [("id", .null)], [("id", .undefined 1)]]

theorem keyable_someBooks : ∀ row ∈ someBooks, row.Keyable tagsByName.step.relation.sourceKey := by
  have hscalar : ∀ row ∈ someBooks, row.AllAt Value.isScalar tagsByName.step.relation.sourceKey := by
    decide +kernel
  exact fun row hrow => (hscalar row hrow).keyable

end Bookshelf

/-- Three times the same tag, after another one that is left out; nothing for the second book, whose link leads
nowhere; one tag after another for the undefined book, whose other links are of another object or lead to one. -/
theorem PlanNode.load_joined_bookshelf :
    rowsAfter "tags" Bookshelf.someBooks
        ((Bookshelf.tagsByName.load Bookshelf.graph Bookshelf.someBooks).run Memory.execute ["tags"]
          Bookshelf.tagsByName.step { store := Bookshelf.prepared }).1 =
      [[("id", .int 1), ("tags", .rows (List.replicate 3 [("id", .int 8), ("name", .text "novel")]))],
        [("id", .int 2), ("tags", .rows [])], [("id", .null), ("tags", .rows [])],
        [("id", .undefined 1), ("tags", .rows [[("id", .int 8), ("name", .text "novel")]])]] := by
  have h := (@PlanNode.load_joined Memory Memory.execute Bookshelf.graph Bookshelf.tagsByName ["tags"]
    Bookshelf.someBooks Bookshelf.links Bookshelf.foundTags "book_tags" { store := Bookshelf.prepared } _ _ rfl rfl
    (by decide +kernel) (by decide +kernel) (fun _ => rfl) (fun _ _ => rfl)).1
  exact (h Bookshelf.keyable_someBooks).2.trans (by decide +kernel)

end RelatedRows

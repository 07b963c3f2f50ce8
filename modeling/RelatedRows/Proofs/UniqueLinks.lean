import Mathlib.Data.List.Induction
import RelatedRows.Proofs.Junctions
import RelatedRows.Proofs.Steps

/-!
# Junctions that link no pair twice

A relation through a junction is unique if a declared key of the junction has exactly the columns of its two foreign
keys.  Rows that satisfy this key link no pair twice, so attaching every target once attaches all that are linked.

* `Graph.exists_junction`: the unique relations of a derived graph lead across junctions with such a key.
* `Table.LinksOnce`: the rows of a junction satisfy such a key.
* `Stitch.distinct_linkJoined`: whatever is stored, a unique relation attaches no target to a row twice.
* `stitch_repeating`: without the flag, the same lists are attached.
-/

namespace RelatedRows

/-! ## Unique relations of a graph -/

theorem mem_of_mem_keepFirst {rs : List Relation} {r : Relation} (h : r ∈ keepFirst rs) : r ∈ rs := by
  induction rs using List.reverseRecOn with
  | nil => exact h
  | append_singleton rs last ih =>
    rw [keepFirst_concat] at h
    split at h
    · exact List.mem_append_left _ (ih h)
    · rcases List.mem_append.mp h with h | h
      · exact List.mem_append_left _ (ih h)
      · exact List.mem_append_right _ h

section Derived

variable {tables : List Table} {g : Graph} {r : Relation} {t : Table}

theorem Table.not_unique_of_mem (h : r ∈ t.ofForeignKeys tables) : r.unique = false := by
  obtain ⟨fk, -, hr⟩ := List.mem_flatMap.mp h
  rcases List.mem_cons.mp hr with rfl | hr
  · rfl
  · rw [List.mem_singleton.mp hr]
    rfl

theorem Table.covers_of_mem (h : r ∈ t.ofJunction tables) (hunique : r.unique = true) :
    ∃ a b, t.foreignKeys = [a, b] ∧ t.covers (a.columns ++ b.columns) = true ∧
      (r = t.across true a b ∨ r = t.across true b a) := by
  unfold ofJunction at h
  split at h
  · next a b hkeys =>
    dsimp only at h
    split at h
    · refine ⟨a, b, hkeys, ?_⟩
      rcases List.mem_pair.mp h with rfl | rfl
      · have hcovers : t.covers (a.columns ++ b.columns) = true := hunique
        exact ⟨hcovers, .inl (by rw [hcovers])⟩
      · have hcovers : t.covers (a.columns ++ b.columns) = true := hunique
        exact ⟨hcovers, .inr (by rw [hcovers])⟩
    · cases h
  · cases h

/-- Only junctions with a key of exactly the columns of their foreign keys give unique relations. -/
theorem Graph.exists_junction (hg : Graph.ofTables tables = .ok g) (hr : r ∈ g.relations) (hunique : r.unique = true) :
    ∃ t ∈ tables, ∃ a b, t.foreignKeys = [a, b] ∧ t.covers (a.columns ++ b.columns) = true ∧
      (r = t.across true a b ∨ r = t.across true b a) := by
  rw [eq_of_build hg] at hr
  rcases List.mem_append.mp (mem_of_mem_keepFirst hr) with hr | hr
  · obtain ⟨t, -, hr⟩ := List.mem_flatMap.mp hr
    rw [Table.not_unique_of_mem hr] at hunique
    cases hunique
  · obtain ⟨t, ht, hr⟩ := List.mem_flatMap.mp hr
    exact ⟨t, ht, Table.covers_of_mem hr hunique⟩

end Derived

/-- If a declared key of a table has exactly the columns of its two foreign keys, its stored rows satisfy such a key. -/
def Table.LinksOnce (t : Table) (m : Memory) : Prop :=
  ∀ a b, t.foreignKeys = [a, b] → t.covers (a.columns ++ b.columns) = true →
    ∃ columns ∈ t.primaryKey :: t.unique,
      sameColumns columns (a.columns ++ b.columns) = true ∧ m.UnsharedKey t.name columns

/-- Rows of a junction that satisfies its key are not linked to one target twice. -/
theorem PlanNode.nodup_targetsOf_found {tables : List Table} {g : Graph} {m : Memory} {n : PlanNode} {j : String}
    (hg : Graph.ofTables tables = .ok g) (hmem : n.step.relation ∈ g.relations)
    (hunique : n.step.relation.unique = true) (hj : n.step.relation.joinEntity = some j)
    (hlinks : ∀ t ∈ tables, t.name = j → t.LinksOnce m) (keys : List Key) (k : Option (List Atom)) :
    (n.targetsOf (m.found (Stitch.joinQuery n j keys)) k).Nodup := by
  obtain ⟨t, ht, a, b, hkeys, hcovers, hrelation⟩ := Graph.exists_junction hg hmem hunique
  have hname : t.name = j := by
    rcases hrelation with h | h <;> (rw [h] at hj; exact Option.some.inj hj)
  obtain ⟨columns, -, hsame, hunshared⟩ := hlinks t ht hname a b hkeys hcovers
  have hsub : columns ⊆ n.step.relation.joinSourceKey ++ n.step.relation.joinTargetKey := by
    intro c hc
    have hc : c ∈ a.columns ++ b.columns := by
      rw [sameColumns, Bool.and_eq_true, List.all_eq_true] at hsame
      simpa using hsame.1 c hc
    rcases hrelation with h | h
    · rw [h]
      exact hc
    · rw [h]
      exact List.mem_append.mpr (List.mem_append.mp hc).symm
  rw [hname] at hunshared
  exact n.nodup_targetsOf hsub (Memory.UnsharedKey.found (q := Stitch.joinQuery n j keys) hunshared
    fun row => identity_joinQuery hsub row) k

/-! ## Links without the flag -/

/-- A step that attaches a target as often as it is linked. -/
def Inclusion.repeating (s : Inclusion) : Inclusion :=
  { s with relation := { s.relation with unique := false } }

theorem Inclusion.resembles_repeating (s : Inclusion) : s.Resembles s.repeating :=
  ⟨rfl, rfl, ⟨false, rfl⟩, rfl, rfl⟩

theorem Inclusion.repeating_of_not_unique {s : Inclusion} (h : s.relation.unique = false) : s.repeating = s := by
  obtain ⟨key, relation, depth, options⟩ := s
  obtain ⟨⟩ := relation
  simp only at h
  rw [repeating, h]

namespace PlanNode

open Stitch

variable {f : Inclusion → Inclusion} {n : PlanNode}

theorem arranged_of_nodup {targets : List Row} {ks : List (List Atom)} (h : ks.Nodup) :
    n.arranged targets ks = n.step.options.window (
      let present := ks.filter fun k => targets.any (Row.hasKey n.step.relation.targetKey k)
      if !(n.step.options.orderBy.getD []).isEmpty then
        stableSort (fun a b => n.placeOf targets a ≤ n.placeOf targets b) present
      else present) := by
  unfold arranged
  dsimp only
  rw [eraseDups_of_nodup (h.filter _), ite_self]

/-- Where no target is linked twice, the flag does not matter. -/
theorem joinedLink_repeating (hf : f n.step = n.step.repeating) {joins : List Row}
    (h : ∀ k, (n.targetsOf joins k).Nodup) (targets : List Row) :
    joinedLink (n.mapSteps f) joins targets = joinedLink n joins targets := by
  have hresembles : n.step.Resembles (f n.step) := hf ▸ n.step.resembles_repeating
  refine joinedLink_mapSteps hresembles fun k => ?_
  rw [arranged_of_nodup (h k), arranged_of_nodup (h k), placeOf_mapSteps hresembles]
  simp only [step_mapSteps, hf]
  rfl

end PlanNode

/-! ## No target twice -/

theorem Options.window_sublist {α : Type} (o : Options) (l : List α) : (o.window l).Sublist l := by
  unfold window
  split
  · exact (List.take_sublist _ _).trans (List.drop_sublist _ _)
  · exact List.drop_sublist _ _

namespace Stitch

variable {n : PlanNode}

theorem nodup_arrange (hunique : n.step.relation.unique = true) (index : List (List Atom × Nat))
    (targets : List (Option RowKey)) : (arrange n index targets).Nodup := by
  unfold arrange
  dsimp only
  rw [if_pos hunique]
  refine List.Nodup.sublist (n.step.options.window_sublist _) ?_
  split
  · exact (perm_stableSort _ _).nodup_iff.mpr (nodup_eraseDups _)
  · exact nodup_eraseDups _

/-- The row at a position of an index has the key that the position stands under. -/
theorem identity_of_lookup {columns : List String} {targets : List KeyedRow}
    (htargets : ∀ t ∈ targets, t.row.key? columns = .ok t.key) {k : List Atom} {i : Nat}
    (h : (Index.firstEntries (entries targets)).lookup k = some i) {row : Row}
    (hrow : (targets.map (·.row))[i]? = some row) : row.identity columns = some k := by
  rw [lookup_firstEntries] at h
  obtain ⟨es, es', heq, -⟩ := List.lookup_eq_some_iff.mp h
  have hmem : (k, i) ∈ entries targets := heq ▸ List.mem_append_right es List.mem_cons_self
  obtain ⟨⟨t, j⟩, ht, hk⟩ := List.mem_filterMap.mp hmem
  obtain ⟨key, hkey, hki⟩ := Option.map_eq_some_iff.mp hk
  obtain ⟨rfl, rfl⟩ := Prod.mk.inj hki
  have hget : targets[j]? = some t := List.mem_zipIdx_iff_getElem?.mp ht
  rw [List.getElem?_map, hget] at hrow
  obtain rfl := Option.some.inj hrow
  have hkeyOf := htargets t (List.mem_of_getElem? hget)
  rw [Row.identity, Except.ok.inj ((Row.key?_eq ⟨_, hkeyOf⟩).symm.trans hkeyOf), hkey]
  rfl

section Distinct

variable (hunique : n.step.relation.unique = true) {joins targets : List KeyedRow}
  (htargets : ∀ t ∈ targets, t.row.key? n.step.relation.targetKey = .ok t.key)

include hunique htargets

/-- The rows at the positions that a unique relation arranges have different keys. -/
theorem distinct_arrange (keys : List (Option RowKey)) :
    (((arrange n (Index.firstEntries (entries targets)) keys).filterMap ((targets.map (·.row))[·]?)).map
      (Row.identity n.step.relation.targetKey)).Nodup := by
  rw [List.Nodup, List.pairwise_map, List.pairwise_filterMap]
  refine (nodup_arrange hunique _ _).imp_of_mem fun {i j} hi hj hij row hrow row' hrow' heq => hij ?_
  obtain ⟨k, hk⟩ := mem_arrange hi
  obtain ⟨k', hk'⟩ := mem_arrange hj
  rw [identity_of_lookup htargets hk hrow, identity_of_lookup htargets hk' hrow', Option.some.injEq] at heq
  rw [heq, hk'] at hk
  exact (Option.some.inj hk).symm

theorem distinct_linkJoined {l : Linking} (h : linkJoined n joins targets = .ok l) {row : Row} {link : Link}
    (hlink : l.link row = .ok link) : ∃ attached : List Row, link.value l.found = .rows attached ∧
      (attached.map (Row.identity n.step.relation.targetKey)).Nodup := by
  obtain ⟨sources, -, h⟩ := Except.bind_eq_ok h
  cases h
  obtain ⟨k, -, rfl⟩ := Except.map_eq_ok hlink
  exact ⟨_, Link.value_eq _ _, distinct_arrange hunique htargets _⟩

end Distinct

end Stitch

/-- Whatever a store answers, a unique relation through a junction attaches no target to a row twice. -/
theorem PlanNode.distinct_load {σ : Type} {exec : Executor σ} {g : Graph} {n : PlanNode} {rows : List Row}
    {path : List String} {step : Inclusion} {s : Session σ} {l : Linking} (hkind : n.step.relation.kind = .manyViaJoin)
    (hunique : n.step.relation.unique = true) (hl : ((n.load g rows).run exec path step s).1 = .ok l) {row : Row}
    {link : Link} (hlink : l.link row = .ok link) : ∃ attached : List Row, link.value l.found = .rows attached ∧
      (attached.map (Row.identity n.step.relation.targetKey)).Nodup := by
  let P (l : Linking) : Prop := ∀ row link, l.link row = .ok link → ∃ attached : List Row,
    link.value l.found = .rows attached ∧ (attached.map (Row.identity n.step.relation.targetKey)).Nodup
  have hnothing : P ⟨[], fun _ => .ok (.many [])⟩ := by
    rintro row link ⟨⟩
    exact ⟨[], rfl, List.nodup_nil⟩
  have hends : (n.load g rows).Ends P := by
    rw [load, hkind]
    exact Stitch.ends_loadManyViaJoin hnothing fun joins targets a l htargets hl row link hlink =>
      Stitch.distinct_linkJoined hunique (Stitch.key?_of_keyedRows htargets) hl hlink
  exact hends.run hl row link hlink

/-! ## Stitching with and without the flag -/

section Stitched

variable {tables : List Table} {g : Graph} {entity : String} {spec : Value} {maxDepth : Int} {p : Plan}
  {s : Session Memory} {f : Inclusion → Inclusion}

/-- A derived relation is unique only if nothing is lost by it.  Over a database where the junctions satisfy the key
that the flag comes from, stitching any rows comes to the same without the flag, and every row of a level gets the same
list.  With the flag no target comes twice, whatever is stored. -/
theorem stitch_repeating (hg : Graph.ofTables tables = .ok g) (hp : compile g entity spec maxDepth = .ok p)
    (hf : ∀ s, f s = s ∨ f s = s.repeating) (hfaults : s.store.faults = []) (hprepared : s.store.prepared = [])
    (hserves : s.store.ServesAll Value.isPlain p)
    (hlinks : ∀ q ∈ p.levels, ∀ n ∈ q.nodes, f n.step ≠ n.step → ∀ t ∈ tables,
      n.step.relation.joinEntity = some t.name → t.LinksOnce s.store) :
    (∀ (concurrency : Int) (entity : String) (rows : Value),
      (stitch g Memory.execute concurrency entity (p.mapSteps f) rows s).1 =
        (stitch g Memory.execute concurrency entity p rows s).1) ∧
    ∀ q ∈ p.levels, ∀ n ∈ q.nodes, n.step.relation.unique = true →
      (∀ (rows : List Row) (path : List String), (∀ row ∈ rows, row.AllAt Value.isScalar n.step.relation.sourceKey) →
        ∃ lists : Row → List Row,
          rowsAfter n.key rows ((n.load g rows).run Memory.execute path n.step s).1 =
            rows.map (fun row => row.set n.key (.rows (lists row))) ∧
          rowsAfter n.key rows (((n.mapSteps f).load g rows).run Memory.execute path (f n.step) s).1 =
            rows.map fun row => row.set n.key (.rows (lists row))) ∧
      ∀ (σ : Type) (exec : Executor σ) (rows : List Row) (path : List String) (s : Session σ) (l : Linking),
        ((n.load g rows).run exec path n.step s).1 = .ok l → ∀ row link, l.link row = .ok link →
          ∃ attached : List Row, link.value l.found = .rows attached ∧
            (attached.map (Row.identity n.step.relation.targetKey)).Nodup := by
  have hfits := (fits_of_compile hp).2
  have hresembles (s : Inclusion) : s.Resembles (f s) := by
    rcases hf s with h | h
    · rw [h]
      exact .refl s
    · rw [h]
      exact s.resembles_repeating
  have hjunction : ∀ q ∈ p.levels, ∀ n ∈ q.nodes, n.step.relation.unique = true →
      n.step.relation.kind = .manyViaJoin := by
    intro q hq n hn hunique
    obtain ⟨t, -, a, b, -, -, h | h⟩ := Graph.exists_junction hg (hfits q hq n hn).mem hunique
    · rw [h]
      rfl
    · rw [h]
      rfl
  have hloads : ∀ q ∈ p.levels, ∀ n ∈ q.nodes, ∀ rows,
      ((n.mapSteps f).load g rows).eval s.store.answers = (n.load g rows).eval s.store.answers := by
    intro q hq n hn rows
    by_cases hsame : f n.step = n.step
    · rw [PlanNode.load_mapSteps_of_eq hresembles hsame]
    · have hrepeating : f n.step = n.step.repeating := (hf n.step).resolve_left hsame
      have hunique : n.step.relation.unique = true := by
        by_contra hnot
        exact hsame (hrepeating.trans (Inclusion.repeating_of_not_unique (by simpa using hnot)))
      refine PlanNode.eval_load_mapSteps hresembles (hserves q hq n hn) (by rw [hrepeating]; rfl)
        (hjunction q hq n hn hunique) (fun j hj keys keys' => ?_) rows
      refine PlanNode.joinedLink_repeating hrepeating (fun k => ?_) _
      exact PlanNode.nodup_targetsOf_found hg (hfits q hq n hn).mem hunique hj
        (fun t ht hname => hlinks q hq n hn hsame t ht (hname ▸ hj)) keys k
  refine ⟨Memory.stitch_mapSteps hresembles hfaults hprepared hloads,
    fun q hq n hn hunique => ⟨fun rows path hrows => ?_, fun σ exec rows path s l hl row link hlink => ?_⟩⟩
  · exact PlanNode.exists_lists_mapSteps (hloads q hq n hn rows) (by rw [hjunction q hq n hn hunique]; decide)
      (Graph.consistent_of_build hg (hfits q hq n hn).mem).exists_join (hserves q hq n hn).isScalar hrows hfaults
      hprepared path
  · exact PlanNode.distinct_load (hjunction q hq n hn hunique) hunique hl hlink

end Stitched

namespace Bookshelf

theorem ofTables_tables : Graph.ofTables tables = .ok graph := by
  decide +kernel

/-- Links of two books; one leads to no tag, and two are incomplete. -/
def linked : Memory where
  tables := [("books", [[("id", .int 1)], [("id", .int 2)]]), ("tags", [[("id", .int 1)], [("id", .int 3)]]),
    ("book_tags", [[("book_id", .int 1), ("tag_id", .int 3)], [("book_id", .int 2), ("tag_id", .int 1)],
      [("book_id", .int 1), ("tag_id", .null)], [("book_id", .int 1), ("tag_id", .int 9)],
      [("book_id", .int 1), ("tag_id", .int 1)], [("book_id", .int 1), ("tag_id", .null)]])]

theorem linksOnce_linked {t : Table} (ht : t ∈ tables) : t.LinksOnce linked := by
  intro a b hkeys _
  have hjunction : t = bookTags := by
    simp only [tables, List.mem_cons, List.not_mem_nil, or_false] at ht
    rcases ht with rfl | rfl | rfl | rfl <;> first | rfl | cases hkeys
  subst hjunction
  cases hkeys
  exact ⟨bookTags.primaryKey, List.mem_cons_self, by decide +kernel, by decide +kernel⟩

end Bookshelf

theorem stitch_repeating_bookshelf :
    (stitch Bookshelf.graph Memory.execute 2 "books" ((planFor Bookshelf.tagsOfBook 0).mapSteps Inclusion.repeating)
        (.rows [[("id", .int 1)], [("id", .int 2)]]) { store := Bookshelf.linked }).1 =
      .ok [[("id", .int 1), ("tags", .rows [[("id", .int 1)], [("id", .int 3)]])],
        [("id", .int 2), ("tags", .rows [[("id", .int 1)]])]] := by
  have hcompile : compile Bookshelf.graph "books" (requestFor "tags") 1 = .ok (planFor Bookshelf.tagsOfBook 0) := rfl
  have h := (stitch_repeating (s := { store := Bookshelf.linked }) Bookshelf.ofTables_tables hcompile
    (fun s => .inr rfl) rfl rfl (by decide +kernel) fun _ _ _ _ _ _ ht _ => Bookshelf.linksOnce_linked ht).1
  exact (h 2 "books" _).trans (by decide +kernel)

end RelatedRows

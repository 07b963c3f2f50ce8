import RelatedRows.Proofs.Columns
import RelatedRows.Proofs.Issued
import RelatedRows.Proofs.UniqueKeys
import RelatedRows.Web.Listing

/-!
# Columns that queries mention

A query mentions columns in its select list, in its key predicate and in its order.  They come from the keys of
relations, which a graph looks at, from the options of a request, which compiling looks at, and from the primary keys of
entities, which nobody looks at.

* `Query.selected`, `Query.tested`, `Query.ordered`: the columns that a query mentions.
* `Query.Mentions e q`: they are columns of an entity; only its order may go on with an undeclared primary key.
* `Relation.KeysDeclared`, `PlanNode.ColumnsDeclared`: what is known of a relation and of a node.
* `PlanNode.putsOnly_declared`: the queries of a load.
* `stitch_mentions`: the queries of every run, and of a page.
-/

namespace RelatedRows

/-! ## Columns of a query -/

/-- The columns that a predicate tests. -/
def KeyPredicate.columns : KeyPredicate → List String
  | .member c _ => [c]
  | .anyOf groups => groups.flatten.map (·.1)

namespace Query

/-- The columns of the select list; a query for all columns has none. -/
def selected : Query → List String
  | .batch q => q.columns.getD []
  | .page _ => []

/-- The columns of the key predicate. -/
def tested : Query → List String
  | .batch q => (KeyPredicate.ofColumns q.keyColumns q.keys.length 1).columns
  | .page _ => []

/-- The columns of the order. -/
def ordered : Query → List String
  | .batch q => q.ordering.map Prod.fst
  | .page q => q.ordering.map Prod.fst

/-- A query of an entity mentions declared columns only, if columns are declared, and the primary key. -/
structure Mentions (e : Entity) (q : Query) : Prop where
  selected : ∀ c ∈ q.selected, e.declares c = true
  tested : ∀ c ∈ q.tested, e.declares c = true
  ordered : ∀ c ∈ q.ordered, e.declares c = true ∨ c ∈ e.primaryKey

/-- A query is put to an entity of a graph and mentions its columns. -/
def InOrder (g : Graph) (q : Query) : Prop :=
  ∃ e, g.entity? q.table = some e ∧ q.Mentions e

end Query

namespace KeyPredicate

theorem map_fst_groupAt (columns : List String) (slot : Int) : (groupAt columns slot).map (·.1) = columns := by
  induction columns generalizing slot with
  | nil => rfl
  | cons c cs ih => rw [groupAt, List.map_cons, ih]

theorem columns_ofColumns_subset (columns : List String) (count : Nat) (start : Int) :
    (ofColumns columns count start).columns ⊆ columns := by
  have hgroups : ∀ count slot, (groupsFrom columns count slot).flatten.map (·.1) ⊆ columns := by
    intro count
    induction count with
    | zero => exact fun slot => List.nil_subset _
    | succ count ih =>
      intro slot
      rw [groupsFrom, List.flatten_cons, List.map_append, map_fst_groupAt]
      exact List.append_subset.mpr ⟨List.Subset.refl _, ih _⟩
  unfold ofColumns
  split
  · exact List.Subset.refl _
  · exact hgroups count start

end KeyPredicate

theorem mem_merge {os : List OrderBy} {c : String} (h : c ∈ (OrderBy.merge os).map Prod.fst) :
    ∃ o ∈ os, c ∈ o.map Prod.fst := by
  have hc := (mem_firstTerms.mp h).1
  rw [List.map_flatten] at hc
  obtain ⟨names, hnames, hc⟩ := List.mem_flatten.mp hc
  obtain ⟨o, ho, rfl⟩ := List.mem_map.mp hnames
  exact ⟨o, ho, hc⟩

theorem mem_of_mem_ascending {columns : List String} {c : String} (h : c ∈ (ascending columns).map Prod.fst) :
    c ∈ columns := by
  rwa [fst_ascending] at h

theorem Options.mem_columns_of_mem_ordering {o : Options} {c : String} (h : c ∈ o.ordering.map Prod.fst) :
    c ∈ o.columns := by
  obtain ⟨⟨c, d⟩, ht, rfl⟩ := List.mem_map.mp h
  unfold Options.ordering at ht
  unfold Options.columns
  cases horder : o.orderBy with
  | none => simp [horder] at ht
  | some columns =>
    rw [horder] at ht
    exact List.mem_append_right _ (List.of_mem_zip ht).1

/-! ## Columns of a relation -/

/-- The columns of a relation are declared by the entities that it uses them on. -/
structure Relation.KeysDeclared (g : Graph) (r : Relation) : Prop where
  source : ∃ e, g.entity? r.source = some e ∧ ∀ c ∈ r.sourceKey, e.declares c = true
  target : ∃ e, g.entity? r.target = some e ∧ ∀ c ∈ r.targetKey, e.declares c = true
  join : ∀ j, r.joinEntity = some j → ∃ e, g.entity? j = some e ∧
    ∀ c ∈ r.joinSourceKey ++ r.joinTargetKey, e.declares c = true

namespace Graph

variable {entities : List Entity} {relations : List Relation} {g : Graph} {r : Relation}

theorem declares_of_declaredOn {name : String} {columns : List String} (h : DeclaredOn g.entities name columns)
    {e : Entity} (he : g.entity? name = some e) : ∀ c ∈ columns, e.declares c = true :=
  fun c hc => (e.declares_iff c).mpr fun cs hcs =>
    h e (List.mem_of_find?_eq_some he) (name_of_entity? he) cs hcs hc

theorem keysDeclared_of_build (h : build entities relations = .ok g) (hr : r ∈ g.relations) : r.KeysDeclared g := by
  obtain ⟨⟨source, hsource⟩, target, htarget⟩ := entity?_of_build h hr
  have hfits := consistentIn_of_build h hr
  refine ⟨⟨source, hsource, declares_of_declaredOn hfits.sourceKey hsource⟩,
    ⟨target, htarget, declares_of_declaredOn hfits.targetKey htarget⟩, fun j hj => ?_⟩
  obtain ⟨e, he⟩ := exists_entity? (hfits.join j hj).1
  exact ⟨e, he, declares_of_declaredOn (hfits.joinKeys j hj) he⟩

end Graph

/-! ## Columns of a node -/

/-- The columns that a node uses on the target of its relation are declared, as are those of its relation. -/
structure PlanNode.ColumnsDeclared (g : Graph) (n : PlanNode) : Prop where
  keys : n.step.relation.KeysDeclared g
  target : ∃ e, g.entity? n.step.relation.target = some e ∧ (∀ c ∈ n.step.relation.targetKey, e.declares c = true) ∧
    (∀ c ∈ n.step.options.columns, e.declares c = true) ∧
    ∀ c ∈ ((n.nested?.map (·.nodes)).getD []).flatMap (·.step.relation.sourceKey), e.declares c = true

theorem Plan.columnsDeclared {entities : List Entity} {relations : List Relation} {g : Graph} {p : Plan}
    (hg : Graph.build entities relations = .ok g) (hfits : p.Fits g) (hoptions : p.HasOptions g) :
    ∀ q ∈ p.levels, ∀ n ∈ q.nodes, n.ColumnsDeclared g := by
  intro q hq n hn
  have hkeys := Graph.keysDeclared_of_build hg (hfits q hq n hn).mem
  obtain ⟨e, he, htarget⟩ := hkeys.target
  refine ⟨hkeys, e, he, htarget, fun c hc => ?_, fun c hc => ?_⟩
  · obtain ⟨v, hv⟩ := hoptions q hq n hn
    obtain ⟨e', he', -, hdeclared⟩ := hv.columns hc
    cases he.symm.trans he'
    exact (e.declares_iff c).mpr hdeclared
  · obtain ⟨m, hm, hmc⟩ := List.mem_flatMap.mp hc
    cases n with
    | leaf s => cases hm
    | branch s r =>
      -- The rows below a node are rows of its target, and are stitched by columns of the target.
      have hr : r ∈ p.levels := Plan.levels_trans hq (Plan.levels_subset hn r.mem_levels_self)
      have hm' := hfits r hr m hm
      have hsource : m.step.relation.source = s.relation.target :=
        hm'.source.trans ((hfits q hq _ hn).nested r rfl)
      obtain ⟨e', he', hdeclared⟩ := (Graph.keysDeclared_of_build hg hm'.mem).source
      rw [hsource] at he'
      cases he.symm.trans he'
      exact hdeclared c hmc

/-! ## Queries of a load -/

section Load

variable {g : Graph} {n : PlanNode}

theorem PlanNode.mem_fetched {required : List String} {c : String} (h : c ∈ (n.fetched required).getD []) :
    c ∈ n.step.options.columns ∨ c ∈ required ∨
      c ∈ ((n.nested?.map (·.nodes)).getD []).flatMap (·.step.relation.sourceKey) := by
  unfold fetched at h
  cases hselect : n.step.options.select with
  | none => simp [hselect] at h
  | some select =>
    rw [hselect] at h
    simp only [Option.map_some, Option.getD_some, List.mem_eraseDups, List.mem_append] at h
    rcases h with (h | h) | h
    · exact .inl (by simp [Options.columns, hselect, h])
    · exact .inr (.inl h)
    · exact .inr (.inr h)

/-- A query for target rows mentions declared columns if its order does. -/
theorem PlanNode.ColumnsDeclared.inOrder (h : n.ColumnsDeclared g) (q : BatchQuery)
    (htable : q.table = n.step.relation.target) (hkey : q.keyColumns = n.step.relation.targetKey)
    (hcolumns : q.columns = n.fetched n.step.relation.targetKey)
    (hordering : ∀ c ∈ q.ordering.map Prod.fst, c ∈ n.step.relation.targetKey ∨ c ∈ n.step.options.columns ∨
      c ∈ g.primaryKey n.step.relation.target) :
    (Query.batch q).InOrder g := by
  obtain ⟨e, he, htarget, hoptions, hbelow⟩ := h.target
  refine ⟨e, (congrArg g.entity? htable).trans he, fun c hc => ?_, fun c hc => ?_, fun c hc => ?_⟩
  · have hc' : c ∈ (n.fetched n.step.relation.targetKey).getD [] := hcolumns ▸ hc
    rcases PlanNode.mem_fetched hc' with hc | hc | hc
    · exact hoptions c hc
    · exact htarget c hc
    · exact hbelow c hc
  · exact htarget c (hkey ▸ KeyPredicate.columns_ofColumns_subset _ _ _ hc)
  · rcases hordering c hc with hc | hc | hc
    · exact .inl (htarget c hc)
    · exact .inl (hoptions c hc)
    · rw [Graph.primaryKey, he] at hc
      exact .inr hc

namespace Stitch

theorem inOrder_oneQuery (h : n.ColumnsDeclared g) (keys : List Key) : (Query.batch (oneQuery n keys)).InOrder g :=
  h.inOrder _ rfl rfl rfl fun _ hc => absurd hc List.not_mem_nil

theorem inOrder_manyQuery (h : n.ColumnsDeclared g) (keys : List Key) :
    (Query.batch (manyQuery g n keys)).InOrder g := by
  refine h.inOrder _ rfl rfl rfl fun c hc => ?_
  obtain ⟨o, ho, hc⟩ := mem_merge hc
  simp only [List.mem_cons, List.not_mem_nil, or_false] at ho
  rcases ho with rfl | rfl | rfl
  · exact .inl (mem_of_mem_ascending hc)
  · exact .inr (.inl (Options.mem_columns_of_mem_ordering hc))
  · exact .inr (.inr (mem_of_mem_ascending hc))

theorem inOrder_targetQuery (h : n.ColumnsDeclared g) (keys : List Key) :
    (Query.batch (targetQuery g n keys)).InOrder g := by
  refine h.inOrder _ rfl rfl rfl fun c hc => ?_
  obtain ⟨o, ho, hc⟩ := mem_merge hc
  simp only [List.mem_cons, List.not_mem_nil, or_false] at ho
  rcases ho with rfl | rfl
  · exact .inr (.inl (Options.mem_columns_of_mem_ordering hc))
  · exact .inr (.inr (mem_of_mem_ascending hc))

theorem inOrder_joinQuery (h : n.ColumnsDeclared g) {j : String} (hj : n.step.relation.joinEntity = some j)
    (keys : List Key) : (Query.batch (joinQuery n j keys)).InOrder g := by
  obtain ⟨e, he, hdeclared⟩ := h.keys.join j hj
  refine ⟨e, he, fun c hc => ?_, fun c hc => ?_, fun c hc => .inl ?_⟩
  · exact hdeclared c (List.mem_eraseDups.mp hc)
  · exact hdeclared c (List.mem_append_left _ (KeyPredicate.columns_ofColumns_subset _ _ _ hc))
  · obtain ⟨o, ho, hc⟩ := mem_merge hc
    simp only [List.mem_cons, List.not_mem_nil, or_false] at ho
    rcases ho with rfl | rfl
    · exact hdeclared c (List.mem_append_left _ (mem_of_mem_ascending hc))
    · exact hdeclared c (List.mem_append_right _ (mem_of_mem_ascending hc))

end Stitch

open Stitch

theorem PlanNode.putsOnly_declared (h : n.ColumnsDeclared g) (rows : List Row) :
    (n.load g rows).PutsOnly fun q => (Query.batch q).InOrder g :=
  n.putsOnly_load (fun _ keys _ => inOrder_oneQuery h keys) (fun _ keys _ => inOrder_manyQuery h keys)
    (fun _ _ hj keys _ => inOrder_joinQuery h hj keys) (fun _ keys _ => inOrder_targetQuery h keys) rows

end Load

/-! ## Pages -/

theorem Listing.inOrder_pageQuery {g : Graph} {name : String} {e : Entity} (he : g.entity? name = some e)
    {key : Option String} {ordering : OrderBy}
    (hordering : vetColumns e key ((ordering.map Prod.fst).map .text) = .ok ()) (limit offset : Int) :
    (Query.page (pageQuery name e.primaryKey ordering limit offset)).InOrder g := by
  refine ⟨e, he, fun c hc => absurd hc List.not_mem_nil, fun c hc => absurd hc List.not_mem_nil, fun c hc => ?_⟩
  obtain ⟨o, ho, hco⟩ := mem_merge hc
  simp only [List.mem_cons, List.not_mem_nil, or_false] at ho
  rcases ho with rfl | rfl
  · exact .inl ((e.declares_iff c).mpr ((vetColumns_texts e key _).mp hordering c hco).2)
  · exact .inr (mem_of_mem_ascending hco)

/-- Whatever a store answers and in whichever order the loads of a compiled plan go on, the queries that are put select
and test declared columns only, and order by declared columns and by the primary key of the entity; so do the queries of
pages. -/
theorem stitch_mentions {entities : List Entity} {relations : List Relation} {g : Graph} {entity : String}
    {spec : Value} {maxDepth : Int} {p : Plan} (hg : Graph.build entities relations = .ok g)
    (h : compile g entity spec maxDepth = .ok p) :
    (∀ (σ : Type) (exec : Executor σ) (rows : List Row) (permits : Nat) (store : σ) (schedule : List (List Nat))
      (m : Machine σ), (Machine.start p rows permits store).run exec g schedule = some m →
        ∀ q ∈ m.shared.issued, (Query.batch q).InOrder g) ∧
    (∀ (σ : Type) (exec : Executor σ) (concurrency : Int) (name : String) (rows : Value) (s : Session σ),
      ∀ q ∈ (stitchPaced exec g concurrency name p rows s).2.queriesAfter s, (Query.batch q).InOrder g) ∧
    ∀ (name : String) (e : Entity), g.entity? name = some e → ∀ (key : Option String) (ordering : OrderBy),
      vetColumns e key ((ordering.map Prod.fst).map .text) = .ok () → ∀ limit offset : Int,
        (Query.page (Listing.pageQuery name e.primaryKey ordering limit offset)).InOrder g := by
  have hoptions := hasOptions_of_compileLevel (compileLevel_of_compile h)
  have hdeclared := Plan.columnsDeclared hg (fits_of_compile h).2 hoptions
  have hputs : ∀ n ∈ p.nodes, n.PutsOnly g fun q => (Query.batch q).InOrder g :=
    Plan.putsOnly_nodes fun q hq n hn => PlanNode.putsOnly_declared (hdeclared q hq n hn)
  refine ⟨fun σ exec rows permits store schedule m hrun => Machine.issued_of_run hputs hrun, ?_, ?_⟩
  · exact fun σ exec concurrency name rows s => (goesOn_stitchPaced exec concurrency name hputs rows s).queriesAfter
  · exact fun name e he key ordering hordering => Listing.inOrder_pageQuery he hordering

/-- Loading one author's books and their tags. -/
theorem stitch_mentions_bookshelf :
    ∃ queries, (stitchPaced Memory.execute Bookshelf.graph 2 "authors" Bookshelf.plan (.rows [[("id", .int 1)]])
        { store := Bookshelf.database, latency := 3 }).2.queriesAfter { store := Bookshelf.database, latency := 3 } =
          queries ∧
      queries.length = 3 ∧ ∀ q ∈ queries, (Query.batch q).InOrder Bookshelf.graph :=
  ⟨_, rfl, by decide +kernel, (stitch_mentions Bookshelf.build_graph Bookshelf.compile_request).2.1 Memory
    Memory.execute 2 "authors" (.rows [[("id", .int 1)]]) { store := Bookshelf.database, latency := 3 }⟩

namespace Shelves

/-- Shelves, and copies whose primary key is none of their columns. -/
def entities : List Entity :=
  [{ name := "shelves", primaryKey := ["id"], columns := some ["id"] },
    { name := "copies", primaryKey := ["code"], columns := some ["shelf_id"] }]

def copies : Relation where
  name := "copies"
  source := "shelves"
  kind := .many
  target := "copies"
  sourceKey := ["id"]
  targetKey := ["shelf_id"]

def graph : Graph := ⟨entities, [copies]⟩

def plan : Plan :=
  .mk "shelves" 0 [.leaf ⟨"copies", copies, 0, {}⟩] []

def stock : Memory where
  tables := [("copies", [[("shelf_id", .int 1)]])]

end Shelves

/-- A graph takes a primary key that is not declared, and queries order by it. -/
theorem undeclared_key_is_mentioned :
    Graph.build Shelves.entities [Shelves.copies] = .ok Shelves.graph ∧
      compile Shelves.graph "shelves" (.object [("copies", .bool true)]) 3 = .ok Shelves.plan ∧
      ∃ q ∈ (stitchPaced Memory.execute Shelves.graph 4 "shelves" Shelves.plan
          (.rows [[("id", .int 1)]]) { store := Shelves.stock }).2.queriesAfter { store := Shelves.stock },
        q.table = "copies" ∧ "code" ∈ (Query.batch q).ordered ∧
          ∀ e, Shelves.graph.entity? "copies" = some e → e.declares "code" = false := by
  refine ⟨by decide +kernel, rfl, _, List.mem_cons_self, rfl, by decide +kernel, fun e he => ?_⟩
  cases he
  rfl

end RelatedRows

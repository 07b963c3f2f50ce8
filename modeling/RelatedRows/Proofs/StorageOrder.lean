import RelatedRows.Proofs.Permuting
import RelatedRows.Web.Listing

/-!
# Storage order

In which order a database stores the rows of its tables never shows, as long as the rows have primary keys.

* `Listing.pages`: consecutive pages of one limit.
* `pages_eq`, `flatten_pieces`: they are the sorted table, cut into pieces.
* `listPage_perm`: a page does not show in which order the table is stored.
* `stitch_permuted`: neither do stitched rows.
-/

namespace RelatedRows

/-! ## Pages -/

namespace Listing

/-- Consecutive pages of one limit, fetched one after the other. -/
def pages {σ : Type} (exec : Executor σ) (query : Int → PageQuery) (limit : Nat) :
    (count : Nat) → (offset : Nat) → Session σ → List Answer × Session σ
  | 0, _, s => ([], s)
  | count + 1, offset, s =>
    let (answer, s) := listPage exec (query offset) s
    let (rest, s) := pages exec query limit count (offset + limit) s
    (answer :: rest, s)

end Listing

/-- A list in pieces of one length; the last ones may be shorter, or empty. -/
def pieces {α : Type} (limit : Nat) : (count : Nat) → List α → List (List α)
  | 0, _ => []
  | count + 1, as => as.take limit :: pieces limit count (as.drop limit)

theorem flatten_pieces {α : Type} (limit count : Nat) (as : List α) :
    (pieces limit count as).flatten = as.take (count * limit) := by
  induction count generalizing as with
  | zero => simp [pieces]
  | succ count ih => rw [pieces, List.flatten_cons, ih, Nat.succ_mul, Nat.add_comm, List.take_add]

section Pages

variable {table : String} {primaryKey : List String} {s s' : Session Memory}

open Listing

theorem listPage_plain (hfaults : s.store.faults = []) (hprepared : s.store.prepared = []) (q : PageQuery) :
    listPage Memory.execute q s = (s.store.evaluate (.page q), s.called s.store) := by
  rw [listPage, Memory.execute_of_plain hfaults hprepared]

/-- A page is a stretch of the sorted table. -/
theorem evaluate_page {m : Memory} (htable : (m.tables.lookup table).isSome = true) (ordering : OrderBy)
    (limit offset : Int) : m.evaluate (.page (pageQuery table primaryKey ordering limit offset)) =
      .ok (.rows (((sortRows (OrderBy.merge [ordering, ascending primaryKey]) (m.rowsOf table)).drop
        offset.toNat).take limit.toNat)) := by
  obtain ⟨rows, hrows⟩ := Option.isSome_iff_exists.mp htable
  have htarget : (Query.page (pageQuery table primaryKey ordering limit offset)).table = table := rfl
  simp only [Memory.evaluate, Memory.rowsOf, htarget, hrows]
  rfl

theorem pages_eq (hfaults : s.store.faults = []) (hprepared : s.store.prepared = [])
    (htable : (s.store.tables.lookup table).isSome = true) (ordering : OrderBy) (limit count offset : Nat) :
    (pages Memory.execute (fun offset => pageQuery table primaryKey ordering limit offset) limit count offset s).1 =
      (pieces limit count ((sortRows (OrderBy.merge [ordering, ascending primaryKey])
        (s.store.rowsOf table)).drop offset)).map fun rows => .ok (.rows rows) := by
  induction count generalizing offset s with
  | zero => rfl
  | succ count ih =>
    have hrest := ih (s := s.called s.store) hfaults hprepared htable (offset + limit)
    have hstore : (s.called s.store).store = s.store := rfl
    rw [hstore, ← List.drop_drop] at hrest
    simp only [pages, listPage_plain hfaults hprepared, evaluate_page htable, Int.toNat_natCast, pieces, List.map_cons,
      hrest]

/-- A page does not show in which order the table is stored. -/
theorem listPage_perm {m m' : Memory} (h : m.Permutes m') (hkeyed : m.KeyedBy table primaryKey) (ordering : OrderBy)
    (limit offset : Int) : m'.evaluate (.page (pageQuery table primaryKey ordering limit offset)) =
      m.evaluate (.page (pageQuery table primaryKey ordering limit offset)) := by
  by_cases htable : (m.tables.lookup table).isSome = true
  · have hsorted := sortRows_perm (o := OrderBy.merge [ordering, ascending primaryKey]) (h.rowsOf table)
      fun a ha b hb htie => hkeyed.eq_of_tie (by simp) ha hb htie
    rw [evaluate_page htable, evaluate_page ((h.isSome_lookup table).trans htable), hsorted]
  · have hnone : m.tables.lookup table = none := by
      rw [← Option.not_isSome_iff_eq_none]
      exact htable
    have hnone' : m'.tables.lookup table = none := by simpa [hnone] using h.isSome_lookup table
    have htarget : (Query.page (pageQuery table primaryKey ordering limit offset)).table = table := rfl
    simp only [Memory.evaluate, htarget, hnone, hnone']

end Pages

/-! ## Stitching -/

/-- Where every table has a primary key, the tables of a plan determine what is loaded from them. -/
theorem Plan.determined {entities : List Entity} {relations : List Relation} {g : Graph} {p : Plan} {m : Memory}
    (hg : Graph.build entities relations = .ok g) (hfits : p.Fits g) (hserves : m.ServesAll Value.isPlain p)
    (hkeyed : ∀ e ∈ g.entities, m.KeyedBy e.name e.primaryKey)
    (hunshared : ∀ q ∈ p.levels, ∀ n ∈ q.nodes, n.step.relation.kind = .one →
      m.UnsharedKey n.step.relation.target n.step.relation.targetKey) :
    ∀ q ∈ p.levels, ∀ n ∈ q.nodes, n.Determined m g := by
  intro q hq n hn
  obtain ⟨e, he⟩ := (Graph.entity?_of_build hg (hfits q hq n hn).mem).2
  have htarget : m.KeyedBy n.step.relation.target (g.primaryKey n.step.relation.target) := by
    rw [Graph.primaryKey, he, ← Graph.name_of_entity? he]
    exact hkeyed e (List.mem_of_find?_eq_some he)
  exact ⟨hserves q hq n hn, htarget, hunshared q hq n hn⟩

/-- Storage order never shows, neither in stitched rows nor in pages of a table. -/
theorem stitch_permuted {entities : List Entity} {relations : List Relation} {g : Graph} {entity : String}
    {spec : Value} {maxDepth : Int} {p : Plan} {s s' : Session Memory}
    (hg : Graph.build entities relations = .ok g) (hp : compile g entity spec maxDepth = .ok p)
    (hstores : s.store.Permutes s'.store) (hfaults : s.store.faults = [] ∧ s'.store.faults = [])
    (hprepared : s.store.prepared = [] ∧ s'.store.prepared = []) (hserves : s.store.ServesAll Value.isPlain p)
    (hkeyed : ∀ e ∈ g.entities, s.store.KeyedBy e.name e.primaryKey)
    (hunshared : ∀ q ∈ p.levels, ∀ n ∈ q.nodes, n.step.relation.kind = .one →
      s.store.UnsharedKey n.step.relation.target n.step.relation.targetKey) :
    (∀ (concurrency : Int) (entity : String) (rows : Value),
      (stitch g Memory.execute concurrency entity p rows s').1 =
        (stitch g Memory.execute concurrency entity p rows s).1) ∧
    ∀ e ∈ g.entities, ∀ ordering : OrderBy,
      (∀ limit offset : Int,
        (Listing.listPage Memory.execute (Listing.pageQuery e.name e.primaryKey ordering limit offset) s').1 =
          (Listing.listPage Memory.execute (Listing.pageQuery e.name e.primaryKey ordering limit offset) s).1) ∧
      ∀ limit count : Nat, (s.store.tables.lookup e.name).isSome = true →
        (s.store.rowsOf e.name).length ≤ count * limit →
        ∃ pages : List (List Row), (Listing.pages Memory.execute
            (fun offset => Listing.pageQuery e.name e.primaryKey ordering limit offset) limit count 0 s).1 =
              pages.map (fun rows => .ok (.rows rows)) ∧
          pages.flatten.Perm (s.store.rowsOf e.name) ∧ pages.flatten.Nodup := by
  have hdetermined := Plan.determined hg (fits_of_compile hp).2 hserves hkeyed hunshared
  have hnest : ∀ rows, p.nest s'.store.answers g rows = p.nest s.store.answers g rows :=
    Plan.nest_alike fun q hq n hn => PlanNode.loadsAlike hstores (hdetermined q hq n hn)
  refine ⟨fun concurrency entity rows => ?_, fun e he ordering => ⟨fun limit offset => ?_, ?_⟩⟩
  · unfold stitch
    cases rootRows concurrency entity p rows with
    | error f => rfl
    | ok roots =>
      show (stitchRows Memory.execute g p _ s').1.map _ = (stitchRows Memory.execute g p _ s).1.map _
      rw [Memory.stitchRows_fst hfaults.1 hprepared.1, Memory.stitchRows_fst hfaults.2 hprepared.2, hnest]
  · rw [listPage_plain hfaults.1 hprepared.1, listPage_plain hfaults.2 hprepared.2]
    exact listPage_perm hstores (hkeyed e he) ordering limit offset
  · intro limit count htable hlength
    have hflatten : (pieces limit count (sortRows (OrderBy.merge [ordering, ascending e.primaryKey])
        (s.store.rowsOf e.name))).flatten.Perm (s.store.rowsOf e.name) := by
      rw [flatten_pieces, List.take_of_length_le (by rwa [perm_sortRows.length_eq])]
      exact perm_sortRows
    refine ⟨_, pages_eq hfaults.1 hprepared.1 htable ordering limit count 0, hflatten, ?_⟩
    exact hflatten.nodup_iff.mpr ((hkeyed e he).distinct.of_map _)

namespace Bookshelf

/-- Books with their tags, and with the rows in between and the tag of each. -/
def requestTwice : Value :=
  .object [("tags", .object [("orderBy", .text "name")]),
    ("book_tags", .object [("include", .object [("tag", .bool true)])])]

def planTwice : Plan :=
  match compile graph "books" requestTwice 2 with
  | .ok p => p
  | .error _ => .empty "books" 0

/-- The database with its rows in another order. -/
def rearranged : Memory where
  tables := database.tables.map fun t => (t.1, t.2.reverse)

theorem permutes_rearranged : database.Permutes rearranged := by
  have hall : List.Forall₂ (fun t t' => t.1 = t'.1 ∧ t.2.Perm t'.2) database.tables
      (database.tables.map fun t => (t.1, t.2.reverse)) := by
    rw [List.forall₂_map_right_iff, List.forall₂_same]
    exact fun t _ => ⟨rfl, t.2.reverse_perm.symm⟩
  exact hall

end Bookshelf

theorem stitch_permuted_bookshelf :
    (stitch Bookshelf.graph Memory.execute 2 "books" Bookshelf.planTwice (.rows [[("id", .int 1)], [("id", .int 2)]])
        { store := Bookshelf.rearranged }).1 =
      (stitch Bookshelf.graph Memory.execute 2 "books" Bookshelf.planTwice (.rows [[("id", .int 1)], [("id", .int 2)]])
        { store := Bookshelf.database }).1 ∧
    ∃ pages : List (List Row), (Listing.pages Memory.execute
        (fun offset => Listing.pageQuery "books" ["id"] [("author_id", .desc)] 2 offset) 2 2 0
          { store := Bookshelf.database }).1 = pages.map (fun rows => .ok (.rows rows)) ∧
      pages.flatten.Perm (Bookshelf.database.rowsOf "books") ∧ pages.flatten.Nodup := by
  let s : Session Memory := { store := Bookshelf.database }
  let s' : Session Memory := { store := Bookshelf.rearranged }
  have hcompile : compile Bookshelf.graph "books" Bookshelf.requestTwice 2 = .ok Bookshelf.planTwice := rfl
  have hstores : s.store.Permutes s'.store := Bookshelf.permutes_rearranged
  obtain ⟨hstitch, hpages⟩ := stitch_permuted Bookshelf.build_graph hcompile hstores ⟨rfl, rfl⟩ ⟨rfl, rfl⟩
    (by decide +kernel) (by decide +kernel) (by decide +kernel)
  have hbooks : ⟨"books", ["id"], Bookshelf.books.columns⟩ ∈ Bookshelf.graph.entities := by decide +kernel
  exact ⟨hstitch 2 "books" _, (hpages _ hbooks _).2 2 2 rfl (by decide)⟩

end RelatedRows

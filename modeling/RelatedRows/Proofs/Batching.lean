import RelatedRows.Proofs.Tables
import RelatedRows.Stitch.Basic

/-!
# Batches

Over a database, stitching many rows at once gives every row what it would get on its own.

* `Plan.fill m g p row`: everything that a plan attaches to a row, found by scanning the tables for this row alone.
* `Plan.nest_eq_fill`: stitching rows is filling each of them.
* `stitch_batch`: stitching all rows at once is stitching them one by one.
-/

namespace RelatedRows

/-! ## Filling one row -/

section Fill

variable (m : Memory) (g : Graph)

mutual
def Plan.fill : Plan → Row → Row
  | .mk _ _ nodes _, row => row.setAll (fillNodes nodes row)

/-- The columns that some nodes write into a row. -/
def fillNodes : List PlanNode → Row → List (String × Value)
  | [], _ => []
  | n :: ns, row => (n.key, ((n.scan m g row).map fun t => n.trim (n.fill t)).value) :: fillNodes ns row

def PlanNode.fill : PlanNode → Row → Row
  | .leaf _, row => row
  | .branch _ p, row => p.fill row
end

/-- The cell that a node writes into a row. -/
def PlanNode.cell (n : PlanNode) (row : Row) : Value :=
  ((n.scan m g row).map fun t => n.trim (n.fill m g t)).value

theorem fillNodes_eq (ns : List PlanNode) (row : Row) :
    fillNodes m g ns row = ns.map fun n => (n.key, n.cell m g row) := by
  induction ns with
  | nil => rfl
  | cons n ns ih =>
    rw [fillNodes, ih]
    rfl

theorem Plan.fill_eq (p : Plan) (row : Row) :
    p.fill m g row = row.setAll (p.nodes.map fun n => (n.key, n.cell m g row)) := by
  cases p
  rw [Plan.fill, fillNodes_eq]
  rfl

variable {m g}

/-- Writing columns that hold a cell for each row. -/
theorem writeColumns_map (ns : List PlanNode) (cell : PlanNode → Row → Value) (rows : List Row) :
    writeColumns (ns.map fun n => (n.key, rows.map (cell n))) rows =
      rows.map fun row => row.setAll (ns.map fun n => (n.key, cell n row)) := by
  refine List.ext_getElem? fun i => ?_
  rw [getElem?_writeColumns (by simp), List.getElem?_map]
  cases hrow : rows[i]? with
  | none => rfl
  | some row => simp [cellsAt, List.map_map, Function.comp_def, hrow]

/-- The column of a node below which every row is finished on its own. -/
theorem Loaded.column_map (n : PlanNode) {a : Attachment} (h : a.Sound) (f : Row → Row) :
    Loaded.column (n, a) (a.attached.map f) =
      (n.key, a.links.map fun l => ((l.related a.found).map fun t => n.trim (f t)).value) := by
  refine congrArg (n.key, ·) (List.map_congr_left fun l hl => ?_)
  show Link.value ((a.complete (a.attached.map f)).found.map n.trim) l = _
  rw [Link.value_eq, Link.related_map, Attachment.related_complete h _ hl, Related.map_map]
  rfl

theorem PlanNode.Attaches.column {n : PlanNode} {rows : List Row} {a : Attachment} (h : n.Attaches m g rows a) :
    Loaded.column (n, a) (a.attached.map (n.fill m g)) = (n.key, rows.map (n.cell m g)) := by
  have hcells : a.links.map (fun l => ((l.related a.found).map fun t => n.trim (n.fill m g t)).value) =
      (a.links.map (Link.related a.found)).map fun r => (r.map fun t => n.trim (n.fill m g t)).value := by
    rw [List.map_map]
    rfl
  rw [Loaded.column_map n h.sound, hcells, h.related, List.map_map]
  rfl

/-- The rows that a node fetches hold plain values in the columns that the nodes below it are loaded by. -/
theorem PlanNode.plain_fetched {target : String} {q : Plan} (hfits : q.Fits g) (hq : q.entity = target)
    (hserves : m.ServesAll Value.isPlain q) {columns : Option (List String)} {row : Row}
    (h : ∃ t ∈ m.rowsOf target, row = project columns t) :
    ∀ c ∈ q.nodes, row.AllAt Value.isPlain c.step.relation.sourceKey := by
  intro c hc
  obtain ⟨t, ht, rfl⟩ := h
  have hsource : c.step.relation.source = target := ((hfits q q.mem_levels_self c hc).source).trans hq
  refine Row.AllAt.project rfl ?_ _
  refine (hserves q q.mem_levels_self c hc).keys (c.step.relation.source, c.step.relation.sourceKey) ?_ t ?_
  · simp [Graph.keyColumns]
  · rw [hsource]
    exact ht

theorem Plan.nest_eq_fill (hg : ∀ r ∈ g.relations, r.Consistent) {p : Plan} (hfits : p.Fits g)
    (hapart : ∀ q ∈ p.levels, q.KeysApart) (hserves : m.ServesAll Value.isPlain p) {rows : List Row}
    (hrows : ∀ row ∈ rows, ∀ n ∈ p.nodes, row.AllAt Value.isPlain n.step.relation.sourceKey) :
    p.nest m.answers g rows = .ok (rows.map (p.fill m g)) := by
  induction p using Plan.induction generalizing rows with
  | step p ih =>
    by_cases hempty : rows.isEmpty = true
    · rw [Plan.nest_of_isEmpty _ _ hempty, List.isEmpty_iff.mp hempty]
      rfl
    have hattach : ∀ n ∈ p.nodes, ∃ a, n.attach m.answers g rows = .ok a ∧ n.Attaches m g rows a := by
      intro n hn
      exact PlanNode.exists_attach (hserves p p.mem_levels_self n hn) (fun row hrow => hrows row hrow n hn)
        (hg _ (hfits p p.mem_levels_self n hn).mem).exists_join
    have hnest : ∀ n ∈ p.nodes, ∀ a, n.Attaches m g rows a →
        n.nest m.answers g a.attached = .ok (a.attached.map (n.fill m g)) := by
      intro n hn a ha
      cases n with
      | leaf s =>
        show Except.ok a.attached = .ok (a.attached.map id)
        rw [List.map_id]
      | branch s q =>
        have hq : q.entity = s.relation.target := (hfits p p.mem_levels_self _ hn).nested q rfl
        have hserves' : m.ServesAll Value.isPlain q := fun r hr => hserves r (Plan.levels_subset hn hr)
        exact ih s q hn (hfits.below hn) (fun r hr => hapart r (Plan.levels_subset hn hr)) hserves'
          fun row hrow => PlanNode.plain_fetched (hfits.below hn) hq hserves'
            (ha.fetched row (a.mem_found_of_mem_attached hrow))
    have : Nonempty Attachment := ⟨⟨[], []⟩⟩
    choose! a ha using hattach
    have hzip : p.nodes.zip (p.nodes.map a) = p.nodes.map fun n => (n, a n) := by
      simpa using List.zip_map' (f := id) (g := a) (l := p.nodes)
    have hbelow : (p.nodes.zip (p.nodes.map a)).mapM (fun n => n.1.nest m.answers g n.2.attached) =
        .ok (p.nodes.map fun n => (a n).attached.map (n.fill m g)) := by
      rw [hzip, List.mapM_map]
      exact Except.mapM_ok fun n hn => hnest n hn (a n) (ha n hn).2
    have hcolumns : ((p.nodes.zip (p.nodes.map a)).zip (p.nodes.map fun n => (a n).attached.map (n.fill m g))).map
        (fun c => Loaded.column c.1 c.2) = p.nodes.map fun n => (n.key, rows.map (n.cell m g)) := by
      rw [hzip, List.zip_map', List.map_map]
      exact List.map_congr_left fun n hn => (ha n hn).2.column
    rw [Plan.nest_eq _ _ (hapart p p.mem_levels_self) hempty, Except.mapM_ok fun n hn => (ha n hn).1]
    show finishLevel m.answers g p.nodes rows (p.nodes.map a) = _
    rw [finishLevel, hbelow]
    show Except.ok (settleAll _ _ _) = _
    rw [settleAll_eq, hcolumns, writeColumns_map]
    exact congrArg Except.ok (List.map_congr_left fun row _ => (p.fill_eq m g row).symm)

end Fill

/-! ## Many rows and one -/

theorem completeAll_map (rows : List Row) (f : Row → Row) :
    RootRow.completeAll (rows.map RootRow.ofRow) (rows.map f) =
      rows.map fun row => (RootRow.ofRow row).complete (f row) := by
  rw [RootRow.completeAll, List.zipWith_map, List.zipWith_self]

section Batch

variable {entities : List Entity} {relations : List Relation} {g : Graph} {entity : String} {spec : Value}
  {maxDepth concurrency : Int} {p : Plan} {rows : List Row} {s : Session Memory}

/-- Over a database, what a row gets does not depend on the rows that it is stitched with. -/
theorem stitch_batch (hg : Graph.build entities relations = .ok g) (hp : compile g entity spec maxDepth = .ok p)
    (hapart : ∀ q ∈ p.levels, q.KeysApart) (hc : 1 ≤ concurrency)
    (hrows : ∀ row ∈ rows, ∀ n ∈ p.nodes, row.AllAt Value.isPlain n.step.relation.sourceKey)
    (hfaults : s.store.faults = []) (hprepared : s.store.prepared = []) (hserves : s.store.ServesAll Value.isPlain p) :
    ∃ out, (stitch g Memory.execute concurrency entity p (.rows rows) s).1 = .ok out ∧
      List.Forall₂ (fun row r => (stitch g Memory.execute concurrency entity p (.rows [row]) s).1 = .ok [r])
        rows out := by
  obtain ⟨hentity, hfits⟩ := fits_of_compile hp
  have hstitch : ∀ rows : List Row, (∀ row ∈ rows, ∀ n ∈ p.nodes, row.AllAt Value.isPlain n.step.relation.sourceKey) →
      (stitch g Memory.execute concurrency entity p (.rows rows) s).1 =
        .ok (rows.map fun row => (RootRow.ofRow row).complete (p.fill s.store g row)) := by
    intro rows hrows
    rw [Memory.stitch_eq_nest hfaults hprepared hc hentity,
      Plan.nest_eq_fill (fun r => Graph.consistent_of_build hg) hfits hapart hserves hrows]
    exact congrArg Except.ok (completeAll_map rows _)
  refine ⟨_, hstitch rows hrows, ?_⟩
  rw [List.forall₂_map_right_iff, List.forall₂_same]
  intro row hrow
  refine hstitch [row] fun r hr => ?_
  rw [List.mem_singleton.mp hr]
  exact hrows row hrow

end Batch

theorem stitch_batch_bookshelf :
    ∃ out, (stitch Bookshelf.graph Memory.execute 2 "authors" Bookshelf.plan
        (.rows [[("id", .int 1)], [("id", .int 2)]]) { store := Bookshelf.database }).1 = .ok out ∧
      List.Forall₂ (fun row r => (stitch Bookshelf.graph Memory.execute 2 "authors" Bookshelf.plan (.rows [row])
        { store := Bookshelf.database }).1 = .ok [r]) [[("id", .int 1)], [("id", .int 2)]] out :=
  stitch_batch Bookshelf.build_graph Bookshelf.compile_request (by decide +kernel) (by decide) (by decide +kernel)
    rfl rfl (by decide +kernel)

end RelatedRows

import RelatedRows.Proofs.Generations
import RelatedRows.Proofs.ObjectRuns
import RelatedRows.Proofs.ShownRows
import RelatedRows.Proofs.Trimming

/-!
# Shapes of stitched rows

Whatever a store answers, rows that were stitched have what the plan attaches to them, down to the last level, and keep
all other columns.  It does not matter which rows were found, under which keys, or how often; and nothing that was
attached is lost when columns are trimmed.

* `Inclusion.Admits`: the values that a relation attaches.
* `Plan.Shapes`: a row has all that a plan attaches, and so have the rows that are attached.
* `PlanNode.EndsIn.fits`: the links of a load fit its relation.
* `LevelState.Shapes`, `LevelState.Advances.shapes`: what every step keeps of the rows and the loads of a level.
* `stitch_shapes`: all runs of a compiled plan, on rows and on objects.
-/

namespace RelatedRows

/-! ## Shapes -/

/-- The values that a relation attaches, where `below` is true of each row in them. -/
def Inclusion.Admits (s : Inclusion) (below : Row → Prop) (v : Value) : Prop :=
  match s.relation.kind with
  | .one => v = .null ∨ ∃ row, v = .object row ∧ below row
  | .many | .manyViaJoin => ∃ rows : List Row, v = .rows rows ∧
      (∀ limit, s.options.limit = some limit → rows.length ≤ limit) ∧ ∀ row ∈ rows, below row

mutual
/-- A row has all that a plan attaches, and so have the rows below it. -/
def Plan.Shapes : Plan → Row → Prop
  | .mk _ _ nodes _, row => NodesShape nodes row

def NodesShape : List PlanNode → Row → Prop
  | [], _ => True
  | n :: ns, row => (∃ v, row.lookup n.key = some v ∧ n.Shapes v) ∧ NodesShape ns row

def PlanNode.Shapes : PlanNode → Value → Prop
  | .leaf s, v => s.Admits (fun _ => True) v
  | .branch s p, v => s.Admits (fun row => p.Shapes row) v
end

/-- What stitching makes of a root row. -/
structure Plan.Stitched (p : Plan) (row row' : Row) : Prop where
  kept : ∀ c, c ∉ p.nodes.map PlanNode.key → row'.lookup c = row.lookup c
  shapes : p.Shapes row'

theorem nodesShape_iff {nodes : List PlanNode} {row : Row} :
    NodesShape nodes row ↔ ∀ n ∈ nodes, ∃ v, row.lookup n.key = some v ∧ n.Shapes v := by
  induction nodes with
  | nil => simp [NodesShape]
  | cons n nodes ih => rw [NodesShape, ih, List.forall_mem_cons]

theorem Plan.shapes_iff (p : Plan) (row : Row) : p.Shapes row ↔ NodesShape p.nodes row := by
  cases p
  rfl

theorem PlanNode.shapes_iff (n : PlanNode) (v : Value) : n.Shapes v ↔ n.step.Admits (NodesShape n.lower) v := by
  cases n with
  | leaf s => rfl
  | branch s p =>
    cases p
    rfl

theorem Inclusion.admits_one {s : Inclusion} (hkind : s.relation.kind = .one) (below : Row → Prop) (v : Value) :
    s.Admits below v ↔ v = .null ∨ ∃ row, v = .object row ∧ below row := by
  simp only [Admits, hkind]

theorem Inclusion.admits_many {s : Inclusion} (hkind : s.relation.kind ≠ .one) (below : Row → Prop) (v : Value) :
    s.Admits below v ↔ ∃ rows : List Row, v = .rows rows ∧
      (∀ limit, s.options.limit = some limit → rows.length ≤ limit) ∧ ∀ row ∈ rows, below row := by
  unfold Admits
  split
  · next hone => exact absurd hone hkind
  · rfl
  · rfl

/-! ## Links -/

/-- A link is of the kind of its relation, and leads to no more rows than its options allow. -/
def Link.Fits (s : Inclusion) : Link → Prop
  | .one _ => s.relation.kind = .one
  | .many ps => s.relation.kind ≠ .one ∧ ∀ limit, s.options.limit = some limit → ps.length ≤ limit

theorem Link.admits_value {s : Inclusion} {below : Row → Prop} {found : List Row} {l : Link} (hfits : l.Fits s)
    (hbelow : ∀ i ∈ l.positions, ∀ row, found[i]? = some row → below row) : s.Admits below (l.value found) := by
  cases l with
  | one p =>
    rw [Inclusion.admits_one hfits, value]
    cases hp : p.bind (found[·]?) with
    | none => exact .inl rfl
    | some row =>
      obtain ⟨i, hi, hrow⟩ := Option.bind_eq_some_iff.mp hp
      exact .inr ⟨row, rfl, hbelow i (Option.mem_toList.mpr hi) row hrow⟩
  | many ps =>
    obtain ⟨hkind, hlimit⟩ := hfits
    rw [Inclusion.admits_many hkind]
    refine ⟨ps.filterMap (found[·]?), rfl, fun limit h => ?_, fun row hrow => ?_⟩
    · exact (List.length_filterMap_le _ _).trans (hlimit limit h)
    · obtain ⟨i, hi, hrow⟩ := List.mem_filterMap.mp hrow
      exact hbelow i hi row hrow

/-- What a node has attached to a number of rows. -/
structure Attachment.Fits (n : PlanNode) (count : Nat) (a : Attachment) : Prop where
  length : a.links.length = count
  sound : a.Sound
  links : ∀ link ∈ a.links, link.Fits n.step

namespace PlanNode

variable {n : PlanNode} {l : Linking}

theorem EndsIn.fits (h : n.EndsIn l) {row : Row} {link : Link} (hlink : l.link row = .ok link) : link.Fits n.step := by
  cases h with
  | noOne hkind =>
    cases hlink
    exact hkind
  | noMany hkind =>
    cases hlink
    exact ⟨hkind, fun limit _ => Nat.zero_le limit⟩
  | one hkind found =>
    obtain ⟨k, -, rfl⟩ := Except.map_eq_ok hlink
    exact hkind
  | many hkind found =>
    obtain ⟨k, -, rfl⟩ := Except.map_eq_ok hlink
    exact ⟨hkind, fun limit h => Options.length_window_le h _⟩
  | joined hkind hl =>
    obtain ⟨sources, -, hl⟩ := Except.bind_eq_ok hl
    cases hl
    obtain ⟨k, -, rfl⟩ := Except.map_eq_ok hlink
    exact ⟨hkind, fun limit h => Options.length_window_le h _⟩

theorem EndsIn.fits_attachment (h : n.EndsIn l) {rows : List Row} {a : Attachment} (ha : l.attachment rows = .ok a) :
    a.Fits n rows.length where
  length := l.length_links ha
  sound := h.sound.attachment ha
  links link hlink := by
    obtain ⟨links, hlinks, ha⟩ := Except.bind_eq_ok ha
    cases ha
    obtain ⟨row, -, hrow⟩ := Except.exists_of_mem_mapM hlinks hlink
    exact h.fits hrow

/-- Trimming leaves the columns that the nodes below a node write. -/
theorem nodesShape_trim {row : Row} (h : NodesShape n.lower row) : NodesShape n.lower (n.trim row) := by
  rw [nodesShape_iff] at h ⊢
  intro m hm
  obtain ⟨v, hv, hshapes⟩ := h m hm
  have hkeeps : n.keeps m.key = true := by
    have hmem : m.key ∈ n.nestedKeys := by
      rw [nestedKeys_eq]
      exact List.mem_map_of_mem hm
    simp [keeps, hmem]
  refine ⟨v, ?_, hshapes⟩
  rw [trim, Row.lookup_keep, if_pos hkeeps, hv]

end PlanNode

/-! ## Finished levels -/

/-- Columns with some of these names were written into a row. -/
def Row.Written (keys : List String) (row row' : Row) : Prop :=
  ∃ es : Row, es.columns ⊆ keys ∧ row' = row.setAll es

namespace Row.Written

variable {keys : List String} {row row' : Row}

theorem refl (keys : List String) (row : Row) : row.Written keys row :=
  ⟨[], List.nil_subset keys, rfl⟩

theorem set (h : row.Written keys row') {c : String} (hc : c ∈ keys) (v : Value) : row.Written keys (row'.set c v) := by
  obtain ⟨es, hes, rfl⟩ := h
  refine ⟨es ++ [(c, v)], ?_, (setAll_concat row es (c, v)).symm⟩
  rw [columns, List.map_append, List.append_subset]
  exact ⟨hes, List.cons_subset.mpr ⟨hc, List.nil_subset keys⟩⟩

theorem setAll (h : row.Written keys row') {fs : Row} (hfs : fs.columns ⊆ keys) :
    row.Written keys (row'.setAll fs) := by
  induction fs generalizing row' with
  | nil => exact h
  | cons f fs ih =>
    obtain ⟨hf, hrest⟩ := List.cons_subset.mp hfs
    exact ih (h.set hf f.2) hrest

end Row.Written

/-- What stitching some nodes makes of a row. -/
structure NodesStitched (nodes : List PlanNode) (row row' : Row) : Prop where
  written : row.Written (nodes.map PlanNode.key) row'
  shapes : NodesShape nodes row'

/-- A row into which every node has written a value of its own. -/
theorem nodesShape_setAll {nodes : List PlanNode} {row es : Row} (hdistinct : (nodes.map PlanNode.key).Nodup)
    (hkeys : es.columns = nodes.map PlanNode.key) (hes : ∀ e ∈ es, ∃ n ∈ nodes, n.key = e.1 ∧ n.Shapes e.2) :
    NodesShape nodes (row.setAll es) := by
  rw [nodesShape_iff]
  intro n hn
  have hkey : n.key ∈ es.columns := hkeys ▸ List.mem_map_of_mem hn
  obtain ⟨e, he, hen⟩ := List.mem_map.mp hkey
  obtain ⟨m, hm, hme, hshapes⟩ := hes e he
  obtain rfl : m = n := List.inj_on_of_nodup_map hdistinct hm hn (hme.trans hen)
  have hnodup : es.columns.Nodup := by
    rw [hkeys]
    exact hdistinct
  refine ⟨e.2, Row.lookup_setAll_of_mem (fun f hf hfn => ?_) hkey, hshapes⟩
  exact congrArg Prod.snd (List.inj_on_of_nodup_map hnodup hf he (hfn.trans hen.symm))

/-- The values that a node writes have its shape if the rows below have that of the nodes below. -/
theorem Loaded.shapes_of_mem_column {n : Loaded} {count : Nat} (hfits : n.2.Fits n.1 count) {below : List Row}
    (hbelow : List.Forall₂ (NodesStitched n.1.lower) n.2.attached below) {v : Value} (hv : v ∈ (n.column below).2) :
    n.1.Shapes v := by
  obtain ⟨link, hlink, rfl⟩ := List.mem_map.mp hv
  rw [PlanNode.shapes_iff]
  refine Link.admits_value (hfits.links link hlink) fun i hi row hrow => ?_
  -- the row that a link leads to is what the level below has made of the attached row, trimmed
  have hposition : i ∈ n.2.positions := Attachment.mem_positions.mpr ⟨link, hlink, hi⟩
  have hlen : below.length = n.2.positions.length :=
    hbelow.length_eq.symm.trans (Attachment.length_attached hfits.sound)
  rw [Attachment.map, List.getElem?_map,
    Attachment.getElem?_complete hlen hposition (hfits.sound link hlink i hi)] at hrow
  obtain ⟨x, hx, rfl⟩ := Option.map_eq_some_iff.mp hrow
  obtain ⟨_, -, hstitched⟩ := Except.exists_of_forall₂_right hbelow (List.mem_of_getElem? hx)
  exact n.1.nodesShape_trim hstitched.shapes

/-- Once the levels below are done, all nodes of a level write into its rows. -/
theorem stitched_settleAll {rows rows' : List Row} {nodes : List PlanNode} {loaded : List Loaded}
    {belows : List (List Row)} (hnodes : loaded.map (·.1) = nodes) (hdistinct : (nodes.map PlanNode.key).Nodup)
    (hrows : List.Forall₂ (Row.Written (nodes.map PlanNode.key)) rows rows')
    (hfits : ∀ n ∈ loaded, n.2.Fits n.1 rows.length)
    (hbelows : List.Forall₂ (fun n below => List.Forall₂ (NodesStitched n.1.lower) n.2.attached below) loaded belows) :
    List.Forall₂ (NodesStitched nodes) rows (settleAll rows' loaded belows) := by
  have hcolumns : ∀ c ∈ (loaded.zip belows).map fun c => Loaded.column c.1 c.2, c.2.length = rows'.length :=
    Loaded.length_columns (fun n hn => (hfits n hn).length.trans hrows.length_eq) belows
  rw [settleAll_eq]
  refine Except.forall₂_of_getElem? (hrows.length_eq.trans (length_writeColumns hcolumns).symm) ?_
  intro i row x hrow hx
  rw [getElem?_writeColumns hcolumns] at hx
  obtain ⟨row', hrow', rfl⟩ := Option.map_eq_some_iff.mp hx
  have hkeys : Row.columns (cellsAt ((loaded.zip belows).map fun c => Loaded.column c.1 c.2) i) =
      nodes.map PlanNode.key := by
    rw [Row.columns, map_fst_cellsAt, Loaded.map_fst_columns hbelows.length_eq.symm, ← hnodes, List.map_map]
    rfl
  have hwritten : row.Written (nodes.map PlanNode.key) row' := rel_of_forall₂ hrows hrow hrow'
  refine ⟨hwritten.setAll (hkeys ▸ List.Subset.refl _), nodesShape_setAll hdistinct hkeys fun e he => ?_⟩
  obtain ⟨c, hc, rfl⟩ := List.mem_map.mp he
  have hi : i < c.2.length := by
    rw [hcolumns c hc]
    exact (List.getElem?_eq_some_iff.mp hrow').1
  obtain ⟨⟨n, below⟩, hn, rfl⟩ := List.mem_map.mp hc
  refine ⟨n.1, hnodes ▸ List.mem_map_of_mem (List.of_mem_zip hn).1, rfl, ?_⟩
  show n.1.Shapes ((n.column below).2[i]?.getD .null)
  rw [List.getElem?_eq_getElem hi]
  exact Loaded.shapes_of_mem_column (hfits n (List.of_mem_zip hn).1) (List.forall₂_zip hbelows hn)
    (List.getElem_mem hi)

/-! ## Steps -/

/-- A load of a node over a number of rows, however it goes on. -/
def Task.Fits (n : PlanNode) (count : Nat) : Task → Prop
  | .waiting => True
  | .running load => load.Ends n.EndsIn
  | .calling _ next => ∀ a, (next a).Ends n.EndsIn
  | .finished r => ∀ a, r = .ok a → a.Fits n count

/-- A level in which some nodes are stitched to some rows. -/
inductive LevelState.Shapes : List Row → List PlanNode → LevelState → Prop
  | loading {rows : List Row} {l : Level} {tasks : List Task} (hdistinct : NodesDistinct l.nodes)
    (hrows : List.Forall₂ (Row.Written (l.nodes.map PlanNode.key)) rows l.rows)
    (hloads : List.Forall₂ (fun n t => Task.Fits n rows.length t) l.nodes tasks) :
    Shapes rows l.nodes (.loading l tasks)
  | nesting {path : List String} {rows rows' : List Row} {nodes : List PlanNode} {loaded : List Loaded}
    {below : List LevelState} (hnodes : loaded.map (·.1) = nodes) (hdistinct : (nodes.map PlanNode.key).Nodup)
    (hrows : List.Forall₂ (Row.Written (nodes.map PlanNode.key)) rows rows')
    (hfits : ∀ n ∈ loaded, n.2.Fits n.1 rows.length)
    (hbelow : List.Forall₂ (fun n b => Shapes n.2.attached n.1.lower b) loaded below) :
    Shapes rows nodes (.nesting path rows' loaded below)
  | failed {rows : List Row} {nodes : List PlanNode} (f : Fault) : Shapes rows nodes (.finished (.error f))
  | finished {rows rows' : List Row} {nodes : List PlanNode} (h : List.Forall₂ (NodesStitched nodes) rows rows') :
    Shapes rows nodes (.finished (.ok rows'))

section Steps

variable {σ : Type} {exec : Executor σ} {g : Graph} {s s' : Shared σ}

theorem Task.fits_of_step {n : PlanNode} {rows rows' : List Row} {t t' : Task} (h : t.Fits n rows.length)
    (hstep : t.step exec g n rows s = some (t', rows', s')) :
    t'.Fits n rows.length ∧ (rows' = rows ∨ ∃ r, rows' = rowsAfter n.key rows r) := by
  cases advances_of_step hstep with
  | begun => exact ⟨n.ends_load, .inl rfl⟩
  | asked q next hpermits => exact ⟨h, .inl rfl⟩
  | answered q next => exact ⟨h _, .inl rfl⟩
  | ended r =>
    refine ⟨fun a ha => ?_, .inr ⟨r, rfl⟩⟩
    obtain ⟨l, hl, ha⟩ := Except.bind_eq_ok ha
    exact (h l hl).fits_attachment ha

theorem Level.shapes_start {l : Level} (h : NodesDistinct l.nodes) : l.start.Shapes l.rows l.nodes := by
  have hrows : List.Forall₂ (Row.Written (l.nodes.map PlanNode.key)) l.rows l.rows :=
    List.forall₂_same.mpr fun row _ => .refl _ row
  rw [start]
  split
  · next hidle =>
    refine .finished (List.forall₂_same.mpr fun row hrow => ⟨.refl _ row, ?_⟩)
    rcases Bool.or_eq_true_iff.mp hidle with hempty | hempty
    · rw [List.isEmpty_iff.mp hempty] at hrow
      cases hrow
    · rw [List.isEmpty_iff.mp hempty]
      trivial
  · exact .loading h hrows (List.forall₂_map_right_iff.mpr (List.forall₂_same.mpr fun _ _ => trivial))

namespace LevelState

theorem shapes_ofLoads {rows : List Row} {nodes : List PlanNode} {l : Level}
    {results : List (Except Fault Attachment)} (h : Shapes rows nodes (.loading l (results.map .finished))) :
    (ofLoads l results).Shapes rows nodes := by
  cases h with
  | loading hdistinct hrows hloads =>
    have hloads := List.forall₂_map_right_iff.mp hloads
    have hlen := hloads.length_eq.symm
    cases has : results.mapM id with
    | error f =>
      rw [ofLoads_of_error hlen has]
      exact .failed f
    | ok as =>
      rw [ofLoads_of_ok hlen has]
      obtain rfl := Except.eq_map_of_mapM_id has
      have hfits := List.forall₂_map_right_iff.mp hloads
      refine .nesting (List.map_fst_zip hfits.length_eq.le) hdistinct.level hrows
        (fun n hn => List.forall₂_zip hfits hn _ rfl) ?_
      refine List.forall₂_map_right_iff.mpr (List.forall₂_same.mpr fun n hn => ?_)
      obtain ⟨-, hbelow, hlower⟩ := Loaded.below_eq l.path n
      have hstart := Level.shapes_start (l := Loaded.below l.path n) (hlower ▸ hdistinct.nested (List.of_mem_zip hn).1)
      rw [hbelow, hlower] at hstart
      exact hstart

theorem Shapes.of_finished {rows out : List Row} {nodes : List PlanNode} (h : Shapes rows nodes (.finished (.ok out))) :
    List.Forall₂ (NodesStitched nodes) rows out := by
  cases h with
  | finished h => exact h

theorem shapes_ofBelow {rows rows' : List Row} {nodes : List PlanNode} {path : List String} {loaded : List Loaded}
    {results : List (Except Fault (List Row))}
    (h : Shapes rows nodes (.nesting path rows' loaded (results.map .finished))) :
    (ofBelow path rows' loaded results).Shapes rows nodes := by
  cases h with
  | nesting hnodes hdistinct hrows hfits hbelow =>
    rw [ofBelow, LoadedLevel.finish]
    cases hresults : results.mapM id with
    | error f => exact .failed f
    | ok belows =>
      obtain rfl := Except.eq_map_of_mapM_id hresults
      refine .finished (stitched_settleAll hnodes hdistinct hrows hfits ?_)
      have hbelow := List.forall₂_map_right_iff.mp (List.forall₂_map_right_iff.mp hbelow)
      exact hbelow.imp fun _ _ => Shapes.of_finished

/-- Every step of a level keeps this. -/
theorem Advances.shapes {st st' : LevelState} (hstep : st.Advances exec g s st' s') {rows : List Row}
    {nodes : List PlanNode} (h : st.Shapes rows nodes) : st'.Shapes rows nodes := by
  induction hstep generalizing rows nodes with
  | loaded l results => exact shapes_ofLoads h
  | joined path rows' loaded results => exact shapes_ofBelow h
  | @load l tasks i n t t' after _ _ hn ht htask =>
    cases h with
    | loading hdistinct hrows hloads =>
      have hcount : rows.length = l.rows.length := hrows.length_eq
      have hfits : t.Fits n l.rows.length := hcount ▸ rel_of_forall₂ hloads hn ht
      obtain ⟨hfits', hafter⟩ := Task.fits_of_step hfits htask
      refine .loading (l := { l with rows := after }) hdistinct ?_ (forall₂_set hloads hn (hcount ▸ hfits'))
      -- the rows of the level are only written to under the key of the node
      rcases hafter with rfl | ⟨r, rfl⟩
      · exact hrows
      · have hkey : n.key ∈ l.nodes.map PlanNode.key := List.mem_map_of_mem (List.mem_of_getElem? hn)
        exact forall₂_rowsAfter (fun _ _ v hrow => hrow.set hkey v) hrows r
  | @lower path rows' loaded below i b b' _ _ hb _ ih =>
    cases h with
    | nesting hnodes hdistinct hrows hfits hbelow =>
      have hrel := getElem?_of_forall₂ hbelow i
      rw [hb] at hrel
      generalize hn : loaded[i]? = n? at hrel
      cases hrel with
      | some hshapes => exact .nesting hnodes hdistinct hrows hfits (forall₂_set hbelow hn (ih hshapes))

end LevelState

/-! ## Runs -/

theorem NodesStitched.stitched {p : Plan} {row row' : Row} (h : NodesStitched p.nodes row row') :
    p.Stitched row row' where
  kept c hc := by
    obtain ⟨es, hes, rfl⟩ := h.written
    exact Row.lookup_setAll_of_notMem fun hmem => hc (hes hmem)
  shapes := (p.shapes_iff row').mpr h.shapes

/-- What is shown of a stitched row is stitched too. -/
theorem NodesStitched.stitched_complete {p : Plan} {row row' : Row} (h : NodesStitched p.nodes row row') :
    p.Stitched row ((RootRow.ofRow row).complete row') := by
  obtain ⟨kept, shapes⟩ := h.stitched
  obtain ⟨es, -, rfl⟩ := h.written
  refine ⟨fun c hc => (lookup_complete_setAll row es c).trans (kept c hc), ?_⟩
  rw [Plan.shapes_iff, nodesShape_iff] at shapes ⊢
  simpa only [lookup_complete_setAll] using shapes

theorem stitched_completeAll {p : Plan} {rows rows' : List Row}
    (h : List.Forall₂ (NodesStitched p.nodes) rows rows') :
    List.Forall₂ p.Stitched rows (RootRow.completeAll (rows.map RootRow.ofRow) rows') := by
  induction h with
  | nil => exact .nil
  | cons hrow _ ih => exact .cons hrow.stitched_complete ih

namespace Machine

variable {p : Plan} {rows out : List Row} {permits : Nat} {store : σ} {m : Machine σ}

theorem stitched_of_reaches (hp : NodesDistinct p.nodes) (h : (start p rows permits store).Reaches exec g m)
    (hout : m.result? = some (.ok out)) : List.Forall₂ (NodesStitched p.nodes) rows out := by
  have hstart : (start p rows permits store).root.Shapes rows p.nodes := Level.shapes_start (l := p.level [] rows) hp
  have hshapes : m.root.Shapes rows p.nodes :=
    h.preserves (I := fun m => m.root.Shapes rows p.nodes)
      (fun _ _ _ hm hstep => (advances_of_step hstep).shapes hm) hstart
  rw [LevelState.eq_finished hout] at hshapes
  exact hshapes.of_finished

end Machine

/-- The objects that are returned hold stitched rows, whichever of them are shared. -/
theorem ObjectMachine.stitched_of_run {p : Plan} (hp : NodesDistinct p.nodes) {own : List Row} {given as : List Nat}
    {permits : Nat} {store : σ} {schedule : List (List Nat)} {m : ObjectMachine σ}
    (hrun : (start p (own.map .ofRow) given permits store).run exec g schedule = some m)
    (has : m.root.result? = some (.ok as)) :
    ∃ out, m.objects.Hold as out ∧ List.Forall₂ (NodesStitched p.nodes) (rowsAt own given) out := by
  have hmatches := matches_run exec g hp own given permits store schedule
  rw [hrun] at hmatches
  generalize hrows : (Machine.start p (rowsAt own given) permits store).run exec g schedule = m'? at hmatches
  cases hmatches with
  | @some _ m' h =>
    have hresult := h.result
    rw [has] at hresult
    generalize hout : m'.result? = r? at hresult
    cases hresult with
    | some hagree =>
      cases hagree with
      | ok hhold => exact ⟨_, hhold, Machine.stitched_of_reaches hp ⟨schedule, hrows⟩ hout⟩

end Steps

/-- Whatever a store answers, and whenever: if a compiled plan is stitched to rows without a failure, each row keeps its
columns, all but those that the plan attaches, and has what the plan attaches.  So it is for stitching at the pace of a
store, and for any run on the objects of the rows, in whichever order its loads take their steps. -/
theorem stitch_shapes {g : Graph} {entity : String} {spec : Value} {maxDepth : Int} {p : Plan}
    (hspec : spec.hasDistinctNames = true) (hp : compile g entity spec maxDepth = .ok p) {σ : Type}
    (exec : Executor σ) (loader : Graph) :
    (∀ (concurrency : Int) (rows : List Row) (s : Session σ) (out : List Row),
      (stitchPaced exec loader concurrency entity p (.rows rows) s).1 = .ok out → List.Forall₂ p.Stitched rows out) ∧
    ∀ (own : List Row) (given : List Nat) (permits : Nat) (store : σ) (schedule : List (List Nat))
      (m : ObjectMachine σ) (as : List Nat),
      (ObjectMachine.start p (own.map .ofRow) given permits store).run exec loader schedule = some m →
      m.root.result? = some (.ok as) →
      ∃ out, m.objects.Hold as out ∧ List.Forall₂ p.Stitched (rowsAt own given) out := by
  have hnodes : NodesDistinct p.nodes := nodesDistinct_of_levels (keysDistinct_of_compile hspec hp)
  refine ⟨fun concurrency rows s out hout => ?_, fun own given permits store schedule m as hrun has => ?_⟩
  -- a result means that the plan is one for these rows, with a permit at least
  · by_cases hvalid : 1 ≤ concurrency ∧ p.entity = entity
    · obtain ⟨m, hreaches, hresult, -⟩ :=
        reaches_stitchRowsPaced exec loader p rows s (show 1 ≤ concurrency.toNat by omega)
      rw [stitchPaced, rootRows_rows hvalid.1 hvalid.2] at hout
      simp only [row_rootRows] at hout
      obtain ⟨out', hout', rfl⟩ := Except.map_eq_ok hout
      rw [hout'] at hresult
      exact stitched_completeAll (Machine.stitched_of_reaches hnodes hreaches hresult)
    · obtain ⟨f, hf⟩ := rootRows_of_invalid hvalid (.rows rows)
      rw [stitchPaced, hf] at hout
      cases hout
  · obtain ⟨out, hhold, hstitched⟩ := ObjectMachine.stitched_of_run hnodes hrun has
    exact ⟨out, hhold, hstitched.imp fun _ _ => NodesStitched.stitched⟩

namespace Bookshelf

/-- Answers with a book that was not asked for, one without a key, and one twice. -/
def strays (q : Query) : Answer :=
  if q.table = "books" then
    .ok (.rows [[("id", .int 3), ("author_id", .int 9)], [("id", .int 1), ("author_id", .int 1)],
      [("title", .text "Untitled")], [("id", .int 1), ("author_id", .int 1)]])
  else oneOfEach q

/-- A book with all that `siblingPlan` attaches to it. -/
def stitchedBook : Row :=
  [("id", .int 1), ("author_id", .int 1), ("author", .object [("id", .int 1)]), ("tags", .rows [[("id", .int 1)]])]

end Bookshelf

theorem stitch_shapes_bookshelf :
    ((stitchPaced (.ofFunction Bookshelf.strays) Bookshelf.graph 2 "authors" Bookshelf.siblingPlan
          (.rows [[("id", .int 1)]]) { store := (), latency := 1 }).1 =
        .ok [[("id", .int 1), ("books", .rows [Bookshelf.stitchedBook, Bookshelf.stitchedBook])]] ∧
      List.Forall₂ Bookshelf.siblingPlan.Stitched [[("id", .int 1)]]
        [[("id", .int 1), ("books", .rows [Bookshelf.stitchedBook, Bookshelf.stitchedBook])]]) ∧
    ∃ m as out, (ObjectMachine.start Bookshelf.siblingPlan [.ofRow [("id", .int 1)]] [0, 0] 2 ()).run
        (.ofFunction Bookshelf.strays) Bookshelf.graph Bookshelf.schedule = some m ∧
      m.root.result? = some (.ok as) ∧ m.objects.Hold as out ∧
      List.Forall₂ Bookshelf.siblingPlan.Stitched [[("id", .int 1)], [("id", .int 1)]] out := by
  have hplan : compile Bookshelf.graph "authors" Bookshelf.siblingRequest 2 = .ok Bookshelf.siblingPlan := rfl
  obtain ⟨hpaced, hobjects⟩ := stitch_shapes (by decide) hplan (.ofFunction Bookshelf.strays) Bookshelf.graph
  refine ⟨?_, ?_⟩
  · have hout : (stitchPaced (.ofFunction Bookshelf.strays) Bookshelf.graph 2 "authors" Bookshelf.siblingPlan
        (.rows [[("id", .int 1)]]) { store := (), latency := 1 }).1 =
          .ok [[("id", .int 1), ("books", .rows [Bookshelf.stitchedBook, Bookshelf.stitchedBook])]] := by
      decide +kernel
    exact ⟨hout, hpaced 2 _ { store := (), latency := 1 } _ hout⟩
  · obtain ⟨as, has⟩ := Option.isSome_iff_exists.mp (by decide +kernel :
      (((ObjectMachine.start Bookshelf.siblingPlan [.ofRow [("id", .int 1)]] [0, 0] 2 ()).run
        (.ofFunction Bookshelf.strays) Bookshelf.graph Bookshelf.schedule).bind
          fun m => m.root.result?.bind (·.toOption)).isSome = true)
    obtain ⟨m, hrun, has⟩ := Option.bind_eq_some_iff.mp has
    obtain ⟨r, hr, has⟩ := Option.bind_eq_some_iff.mp has
    cases r with
    | error f => cases has
    | ok as =>
      obtain ⟨out, hhold, hstitched⟩ := hobjects [[("id", .int 1)]] [0, 0] 2 () Bookshelf.schedule m as hrun hr
      exact ⟨m, as, out, hrun, hr, hhold, hstitched⟩

end RelatedRows

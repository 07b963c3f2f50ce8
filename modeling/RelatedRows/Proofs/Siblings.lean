import RelatedRows.Proofs.Plans
import RelatedRows.Proofs.Rows
import RelatedRows.Stitch.Nested

/-!
# Siblings

The nodes of a level write into the same rows.  If their keys stand apart from the columns that the others are stitched
by, each of them attaches what it would attach on its own.

* `PlanNode.EndsIn`, `PlanNode.ends_load`: the ways in which a node links rows in the end, whatever a store answers.
* `Dialogue.LinksBy`: a load sees of the rows only the columns of its source key.
* `PlanNode.attach`: what a node attaches to rows that no other node has touched.
* `writeColumns`: rows with whole columns written, and `getElem?_writeColumns` for one of the rows.
* `Plan.nest_eq`: stitching a level, with all nodes looking at the rows as they were.
* `Plan.nest_writes`: a stitched row is the row with columns written into it.
-/

namespace RelatedRows

/-! ## What a load ends in -/

/-- Whether a load links rows in one of the ways that `P` allows, or fails, whatever the answers are. -/
def Dialogue.Ends (P : Linking → Prop) : Load → Prop
  | .done r => ∀ l, r = .ok l → P l
  | .ask _ next => ∀ a, (next a).Ends P

/-- What holds of all links that a dialogue may end in holds of those that it ends in. -/
theorem Dialogue.Ends.run {σ : Type} {P : Linking → Prop} {d : Load} (h : d.Ends P) {exec : Executor σ}
    {path : List String} {step : Inclusion} {s : Session σ} {l : Linking} (hl : (d.run exec path step s).1 = .ok l) :
    P l := by
  induction d generalizing s with
  | done r => exact h l hl
  | ask q next ih => exact ih _ (h _) hl

/-- The ways in which a node links rows. -/
inductive PlanNode.EndsIn (n : PlanNode) : Linking → Prop
  | noOne (hkind : n.step.relation.kind = .one) : EndsIn n ⟨[], fun _ => .ok (.one none)⟩
  | noMany (hkind : n.step.relation.kind ≠ .one) : EndsIn n ⟨[], fun _ => .ok (.many [])⟩
  | one (hkind : n.step.relation.kind = .one) (found : List KeyedRow) : EndsIn n (Stitch.linkOne n found)
  | many (hkind : n.step.relation.kind ≠ .one) (found : List KeyedRow) : EndsIn n (Stitch.linkMany n found)
  | joined (hkind : n.step.relation.kind ≠ .one) {joins targets : List KeyedRow} {l : Linking}
    (hl : Stitch.linkJoined n joins targets = .ok l) : EndsIn n l

namespace Stitch

variable {g : Graph} {n : PlanNode} {rows : List Row}

theorem ends_error (P : Linking → Prop) (f : Fault) : Dialogue.Ends P (.done (.error f)) := by
  rintro l ⟨⟩

theorem ends_nothing {P : Linking → Prop} {link : Link} (h : P ⟨[], fun _ => .ok link⟩) :
    Dialogue.Ends P (.done (nothing link)) := by
  rintro l ⟨⟩
  exact h

theorem ends_loadOne (hkind : n.step.relation.kind = .one) : (loadOne n rows).Ends n.EndsIn := by
  unfold loadOne
  split
  · exact ends_error _ _
  · exact ends_nothing (.noOne hkind)
  · intro a l hl
    obtain ⟨found, -, rfl⟩ := Except.map_eq_ok hl
    exact .one hkind found

theorem ends_loadMany (hkind : n.step.relation.kind ≠ .one) : (loadMany g n rows).Ends n.EndsIn := by
  unfold loadMany
  split
  · exact ends_error _ _
  · exact ends_nothing (.noMany hkind)
  · intro a l hl
    obtain ⟨found, -, rfl⟩ := Except.map_eq_ok hl
    exact .many hkind found

section Joined

variable {P : Linking → Prop} (hnothing : P ⟨[], fun _ => .ok (.many [])⟩)
  (hjoined : ∀ joins targets a l, keyedRows n.step n.step.relation.targetKey a = .ok targets →
    linkJoined n joins targets = .ok l → P l)

include hnothing hjoined

theorem ends_loadTargets (joins : List KeyedRow) : (loadTargets g n joins).Ends P := by
  unfold loadTargets
  split
  · exact ends_nothing hnothing
  · intro a l hl
    obtain ⟨targets, htargets, hl⟩ := Except.bind_eq_ok hl
    exact hjoined joins targets a l htargets hl

/-- A load through join rows links nothing, or links through them to the targets of an answer. -/
theorem ends_loadManyViaJoin : (loadManyViaJoin g n rows).Ends P := by
  unfold loadManyViaJoin
  split
  · exact ends_error _ _
  · split
    · exact ends_error _ _
    · exact ends_nothing hnothing
    · intro a
      dsimp only
      split
      · exact ends_error _ _
      · exact ends_loadTargets hnothing hjoined _

end Joined

end Stitch

theorem PlanNode.ends_load {g : Graph} {n : PlanNode} {rows : List Row} : (n.load g rows).Ends n.EndsIn := by
  unfold load
  split
  · next hkind => exact Stitch.ends_loadOne hkind
  · next hkind => exact Stitch.ends_loadMany (by simp [hkind])
  · next hkind =>
    have hkind : n.step.relation.kind ≠ .one := by simp [hkind]
    exact Stitch.ends_loadManyViaJoin (.noMany hkind) fun _ _ _ _ _ hl => .joined hkind hl

/-! ## What a load reads -/

theorem map_spelling_cons {columns : List String} {row : Row} {rows rows' : List Row}
    (h : (row :: rows).map (Row.spelling columns) = rows'.map (Row.spelling columns)) :
    ∃ row' rest, rows' = row' :: rest ∧ row.spelling columns = row'.spelling columns ∧
      rows.map (Row.spelling columns) = rest.map (Row.spelling columns) := by
  cases rows' with
  | nil => simp at h
  | cons row' rest =>
    simp only [List.map_cons, List.cons.injEq] at h
    exact ⟨row', rest, rfl, h.1, h.2⟩

/-- Whether a load links rows by nothing but their values in `columns`. -/
def Dialogue.LinksBy (columns : List String) : Load → Prop
  | .done r => ∀ l, r = .ok l → ∀ a b : Row, a.spelling columns = b.spelling columns → l.link a = l.link b
  | .ask _ next => ∀ a, LinksBy columns (next a)

theorem Dialogue.Ends.linksBy {P : Linking → Prop} {columns : List String} {d : Load} (h : d.Ends P)
    (hP : ∀ l, P l → ∀ a b : Row, a.spelling columns = b.spelling columns → l.link a = l.link b) :
    d.LinksBy columns := by
  induction d with
  | done r => exact fun l hl => hP l (h l hl)
  | ask q next ih => exact fun a => ih a (h a)

theorem Row.key?_congr {columns : List String} {a b : Row} (h : a.spelling columns = b.spelling columns) :
    a.key? columns = b.key? columns := by
  simp only [Row.key?, h]

namespace Stitch

variable {rows rows' : List Row} {columns : List String}

theorem keyBatchOf_congr (h : rows.map (Row.spelling columns) = rows'.map (Row.spelling columns)) :
    keyBatchOf columns rows = keyBatchOf columns rows' := by
  have hkeys : rows.mapM (Row.key? columns) = rows'.mapM (Row.key? columns) := by
    induction rows generalizing rows' with
    | nil =>
      have : rows' = [] := by simpa using h.symm
      rw [this]
    | cons row rows ih =>
      obtain ⟨row', rest, rfl, hrow, hrest⟩ := map_spelling_cons h
      rw [List.mapM_cons, List.mapM_cons, Row.key?_congr hrow, ih hrest]
  rw [keyBatchOf, keyBatchOf, hkeys]

theorem link_linkBy {found : List Row} {link : Option (List Atom) → Link} {a b : Row}
    (h : a.spelling columns = b.spelling columns) :
    (linkBy columns found link).link a = (linkBy columns found link).link b := by
  simp only [linkBy, Row.key?_congr h]

end Stitch

namespace PlanNode

variable {g : Graph} {n : PlanNode} {rows rows' : List Row}

/-- All linkings that a load may end in link rows by their source key. -/
theorem EndsIn.link_congr {l : Linking} (h : n.EndsIn l) {a b : Row}
    (hab : a.spelling n.step.relation.sourceKey = b.spelling n.step.relation.sourceKey) : l.link a = l.link b := by
  cases h with
  | noOne | noMany => rfl
  | one hkind found =>
    unfold Stitch.linkOne
    exact Stitch.link_linkBy hab
  | many hkind found =>
    unfold Stitch.linkMany
    exact Stitch.link_linkBy hab
  | joined hkind hl =>
    obtain ⟨sources, -, hl⟩ := Except.bind_eq_ok hl
    cases hl
    exact Stitch.link_linkBy hab

theorem linksBy_load : (n.load g rows).LinksBy n.step.relation.sourceKey :=
  ends_load.linksBy fun _ hl _ _ => hl.link_congr

theorem load_congr (h : rows.map (Row.spelling n.step.relation.sourceKey) =
    rows'.map (Row.spelling n.step.relation.sourceKey)) : n.load g rows = n.load g rows' := by
  simp only [load, Stitch.loadOne, Stitch.loadMany, Stitch.loadManyViaJoin, Stitch.keyBatchOf_congr h]

end PlanNode

theorem Linking.attachment_congr {columns : List String} {l : Linking} {rows rows' : List Row}
    (hl : ∀ a b : Row, a.spelling columns = b.spelling columns → l.link a = l.link b)
    (h : rows.map (Row.spelling columns) = rows'.map (Row.spelling columns)) :
    l.attachment rows = l.attachment rows' := by
  have hlinks : rows.mapM l.link = rows'.mapM l.link := by
    induction rows generalizing rows' with
    | nil =>
      have : rows' = [] := by simpa using h.symm
      rw [this]
    | cons row rows ih =>
      obtain ⟨row', rest, rfl, hrow, hrest⟩ := map_spelling_cons h
      rw [List.mapM_cons, List.mapM_cons, hl row row' hrow, ih hrest]
  rw [Linking.attachment, Linking.attachment, hlinks]

/-- What a finished load attaches depends on the columns alone that it links by. -/
theorem Dialogue.LinksBy.attachment {answer : BatchQuery → Answer} {columns : List String} {d : Load}
    (hd : d.LinksBy columns) {rows rows' : List Row}
    (h : rows.map (Row.spelling columns) = rows'.map (Row.spelling columns)) :
    d.eval answer >>= (·.attachment rows) = d.eval answer >>= (·.attachment rows') := by
  induction d with
  | ask q next ih => exact ih (answer q) (hd (answer q))
  | done r =>
    cases r with
    | error e => rfl
    | ok l => exact l.attachment_congr (hd l rfl) h

/-! ## What a node attaches on its own -/

/-- The attachment of a node to rows that no other node has touched. -/
def PlanNode.attach (answer : BatchQuery → Answer) (g : Graph) (n : PlanNode) (rows : List Row) :
    Except Fault Attachment :=
  (n.load g rows).eval answer >>= (·.attachment rows)

theorem PlanNode.attach_congr {answer : BatchQuery → Answer} {g : Graph} {n : PlanNode} {rows rows' : List Row}
    (h : rows.map (Row.spelling n.step.relation.sourceKey) = rows'.map (Row.spelling n.step.relation.sourceKey)) :
    n.attach answer g rows = n.attach answer g rows' := by
  unfold attach
  rw [load_congr h]
  exact linksBy_load.attachment h

theorem Linking.length_links {l : Linking} {rows : List Row} {a : Attachment} (h : l.attachment rows = .ok a) :
    a.links.length = rows.length := by
  obtain ⟨links, hlinks, ha⟩ := Except.bind_eq_ok h
  cases ha
  exact Except.length_of_mapM hlinks

theorem PlanNode.length_links {answer : BatchQuery → Answer} {g : Graph} {n : PlanNode} {rows : List Row}
    {a : Attachment} (h : n.attach answer g rows = .ok a) : a.links.length = rows.length := by
  obtain ⟨l, -, ha⟩ := Except.bind_eq_ok h
  exact l.length_links ha

/-! ## Writing columns -/

def writeColumn (key : String) (values : List Value) (rows : List Row) : List Row :=
  rows.zipWith (fun row v => row.set key v) values

def writeColumns (columns : List (String × List Value)) (rows : List Row) : List Row :=
  columns.foldl (fun rows c => writeColumn c.1 c.2 rows) rows

/-- What some columns hold for the row at a position. -/
def cellsAt (columns : List (String × List Value)) (i : Nat) : List (String × Value) :=
  columns.map fun c => (c.1, (c.2[i]?).getD .null)

theorem map_fst_cellsAt (columns : List (String × List Value)) (i : Nat) :
    (cellsAt columns i).map Prod.fst = columns.map Prod.fst := by
  simp [cellsAt]

theorem length_writeColumn {key : String} {values : List Value} {rows : List Row} (h : values.length = rows.length) :
    (writeColumn key values rows).length = rows.length := by
  simp [writeColumn, h]

theorem length_writeColumns {columns : List (String × List Value)} {rows : List Row}
    (h : ∀ c ∈ columns, c.2.length = rows.length) : (writeColumns columns rows).length = rows.length := by
  induction columns generalizing rows with
  | nil => rfl
  | cons c columns ih =>
    have hc : (writeColumn c.1 c.2 rows).length = rows.length := length_writeColumn (h c List.mem_cons_self)
    have hrest : ∀ d ∈ columns, d.2.length = (writeColumn c.1 c.2 rows).length := by
      intro d hd
      rw [hc]
      exact h d (List.mem_cons_of_mem _ hd)
    exact (ih hrest).trans hc

theorem getElem?_writeColumns {columns : List (String × List Value)} {rows : List Row}
    (h : ∀ c ∈ columns, c.2.length = rows.length) (i : Nat) :
    (writeColumns columns rows)[i]? = rows[i]?.map fun row => row.setAll (cellsAt columns i) := by
  induction columns generalizing rows with
  | nil => simp [writeColumns, cellsAt]
  | cons c columns ih =>
    have hlen := h c List.mem_cons_self
    have hrest : ∀ d ∈ columns, d.2.length = (writeColumn c.1 c.2 rows).length := by
      intro d hd
      rw [length_writeColumn hlen]
      exact h d (List.mem_cons_of_mem _ hd)
    have hfirst : (writeColumn c.1 c.2 rows)[i]? = rows[i]?.map fun row => row.set c.1 ((c.2[i]?).getD .null) := by
      rw [writeColumn, List.getElem?_zipWith]
      cases hrow : rows[i]? with
      | none => simp
      | some row =>
        have hi : i < c.2.length := by
          have := (List.getElem?_eq_some_iff.mp hrow).1
          omega
        simp [List.getElem?_eq_getElem hi]
    show (writeColumns columns (writeColumn c.1 c.2 rows))[i]? = _
    rw [ih hrest, hfirst, Option.map_map]
    rfl

/-- Of two rounds of writing the same columns only the second one counts. -/
theorem writeColumns_writeColumns {cs ds : List (String × List Value)} {rows : List Row}
    (hcs : ∀ c ∈ cs, c.2.length = rows.length) (hds : ∀ d ∈ ds, d.2.length = rows.length)
    (h : cs.map Prod.fst = ds.map Prod.fst) : writeColumns ds (writeColumns cs rows) = writeColumns ds rows := by
  refine List.ext_getElem? fun i => ?_
  have hds' : ∀ d ∈ ds, d.2.length = (writeColumns cs rows).length := by
    intro d hd
    rw [length_writeColumns hcs]
    exact hds d hd
  rw [getElem?_writeColumns hds', getElem?_writeColumns hcs, getElem?_writeColumns hds, Option.map_map]
  refine congrArg (fun f => Option.map f rows[i]?) (funext fun row => ?_)
  refine Row.setAll_setAll ?_
  rw [map_fst_cellsAt, map_fst_cellsAt, h]

/-- The column that an attachment writes. -/
def Attachment.column (a : Attachment) (key : String) : String × List Value :=
  (key, a.links.map (Link.value a.found))

theorem Attachment.attachTo_eq (a : Attachment) (key : String) (rows : List Row) :
    a.attachTo key rows = writeColumn key (a.column key).2 rows := by
  simp [attachTo, writeColumn, column, List.zipWith_map_right]

/-- The column that a node writes once what lies below its attachment is done. -/
def Loaded.column (n : Loaded) (below : List Row) : String × List Value :=
  ((n.2.complete below).map n.1.trim).column n.1.key

theorem Loaded.length_column (n : Loaded) (below : List Row) : (n.column below).2.length = n.2.links.length := by
  simp [column, Attachment.column, Attachment.map, Attachment.complete]

theorem Loaded.length_columns {nodes : List Loaded} {len : Nat} (hlinks : ∀ n ∈ nodes, n.2.links.length = len)
    (below : List (List Row)) : ∀ c ∈ (nodes.zip below).map fun c => Loaded.column c.1 c.2, c.2.length = len := by
  intro c hc
  obtain ⟨⟨n, rs⟩, hn, rfl⟩ := List.mem_map.mp hc
  rw [Loaded.length_column]
  exact hlinks n (List.of_mem_zip hn).1

/-- Every node of a level writes its column. -/
theorem Loaded.map_fst_columns {nodes : List Loaded} {below : List (List Row)} (hlen : below.length = nodes.length) :
    ((nodes.zip below).map fun c => Loaded.column c.1 c.2).map Prod.fst = nodes.map fun n => n.1.key := by
  have hfst : (nodes.zip below).map Prod.fst = nodes := List.map_fst_zip (by omega)
  calc ((nodes.zip below).map fun c => Loaded.column c.1 c.2).map Prod.fst
      = (nodes.zip below).map fun c => c.1.1.key := by rw [List.map_map]; rfl
    _ = ((nodes.zip below).map Prod.fst).map fun n => n.1.key := by rw [List.map_map]; rfl
    _ = nodes.map fun n => n.1.key := by rw [hfst]

theorem settleAll_eq (rows : List Row) (nodes : List Loaded) (below : List (List Row)) :
    settleAll rows nodes below = writeColumns ((nodes.zip below).map fun c => Loaded.column c.1 c.2) rows := by
  simp only [settleAll, writeColumns, List.foldl_map, Loaded.settle, Attachment.attachTo_eq]
  rfl

/-- A load that links all rows writes one column. -/
theorem rowsAfter_eq {r : Except Fault Linking} {rows : List Row} {a : Attachment}
    (h : r >>= (·.attachment rows) = .ok a) (key : String) :
    rowsAfter key rows r = writeColumn key (a.column key).2 rows := by
  obtain ⟨l, rfl, ha⟩ := Except.bind_eq_ok h
  rw [← a.attachTo_eq]
  exact l.attachTo_of_attachment ha key

/-! ## A level -/

section Level

variable (answer : BatchQuery → Answer) (g : Graph)

theorem spelling_rowsAfter {key : String} {columns : List String} (h : key ∉ columns) (rows : List Row)
    (r : Except Fault Linking) :
    (rowsAfter key rows r).map (Row.spelling columns) = rows.map (Row.spelling columns) := by
  cases r with
  | error e => rfl
  | ok l =>
    show (l.attachTo key rows).map (Row.spelling columns) = _
    induction rows with
    | nil => rfl
    | cons row rows ih =>
      rw [Linking.attachTo]
      split
      · rw [List.map_cons, List.map_cons, ih, Row.spelling_set h]
      · rfl

/-- Each node of a level attaches what it would attach on its own. -/
theorem evalNodes_fst {ns : List PlanNode}
    (hns : ns.Pairwise PlanNode.Apart)
    (rows : List Row) :
    (evalNodes answer g ns rows).1 = ns.map fun n => (n.attach answer g rows).map (n, ·) := by
  induction ns generalizing rows with
  | nil => rfl
  | cons n ns ih =>
    rw [List.pairwise_cons] at hns
    simp only [evalNodes, List.map_cons, ih hns.2]
    refine congrArg₂ List.cons rfl (List.map_congr_left fun m hm => ?_)
    rw [PlanNode.attach_congr (spelling_rowsAfter (hns.1 m hm).1 rows _)]

theorem mapM_evalNodes {ns : List PlanNode}
    (hns : ns.Pairwise PlanNode.Apart)
    (rows : List Row) :
    (evalNodes answer g ns rows).1.mapM id = (ns.mapM (PlanNode.attach answer g · rows)).map ns.zip := by
  rw [evalNodes_fst answer g hns]
  exact Except.mapM_pair (PlanNode.attach answer g · rows) ns

/-- The rows of a level after all its loads. -/
theorem evalNodes_snd {ns : List PlanNode}
    (hns : ns.Pairwise PlanNode.Apart)
    {rows : List Row} {as : List Attachment} (h : ns.mapM (PlanNode.attach answer g · rows) = .ok as) :
    (evalNodes answer g ns rows).2 = writeColumns ((ns.zip as).map fun n => n.2.column n.1.key) rows := by
  induction ns generalizing rows as with
  | nil => rw [List.zip_nil_left]; rfl
  | cons n ns ih =>
    rw [List.pairwise_cons] at hns
    cases hn : n.attach answer g rows with
    | error e =>
      rw [Except.mapM_cons_error (f := (PlanNode.attach answer g · rows)) hn] at h
      cases h
    | ok a =>
      rw [Except.mapM_cons_ok (f := (PlanNode.attach answer g · rows)) hn] at h
      obtain ⟨as', hrest, rfl⟩ := Except.map_eq_ok h
      have hafter := rowsAfter_eq hn n.key
      have hrest' : ns.mapM (PlanNode.attach answer g · (rowsAfter n.key rows ((n.load g rows).eval answer))) =
          .ok as' := by
        rw [← hrest]
        refine Except.mapM_congr fun m hm => ?_
        exact PlanNode.attach_congr (spelling_rowsAfter (hns.1 m hm).1 rows _)
      simp only [evalNodes]
      rw [ih hns.2 hrest', hafter]
      rfl

theorem nestBelow_eq {ns : List PlanNode} {as : List Attachment} (h : as.length = ns.length) :
    nestBelow answer g ns as = (ns.zip as).mapM fun n => n.1.nest answer g n.2.attached := by
  induction ns generalizing as with
  | nil => simp [nestBelow, pure, Except.pure]
  | cons n ns ih =>
    cases as with
    | nil => simp at h
    | cons a as =>
      simp only [nestBelow, List.zip_cons_cons, List.mapM_cons]
      rw [ih (by simpa using h)]

/-- Finishes a level once all its nodes have their attachments. -/
def finishLevel (nodes : List PlanNode) (rows : List Row) (as : List Attachment) : Except Fault (List Row) := do
  let below ← (nodes.zip as).mapM fun n => n.1.nest answer g n.2.attached
  return settleAll rows (nodes.zip as) below

theorem Plan.nest_of_isEmpty {p : Plan} {rows : List Row} (h : rows.isEmpty = true) :
    p.nest answer g rows = .ok rows := by
  cases p
  rw [Plan.nest, nestLevel, h]
  rfl

/-- A level is stitched as if all its nodes saw the rows as they were. -/
theorem Plan.nest_eq {p : Plan} (hp : p.KeysApart) {rows : List Row} (hrows : ¬rows.isEmpty = true) :
    p.nest answer g rows = p.nodes.mapM (PlanNode.attach answer g · rows) >>= finishLevel answer g p.nodes rows := by
  obtain ⟨entity, depth, ns, pruned⟩ := p
  have hapart : ns.Pairwise PlanNode.Apart := hp
  rw [Plan.nest, nestLevel]
  simp only [nodes, hrows, Bool.false_or]
  split
  · next hidle =>
    rw [List.isEmpty_iff] at hidle
    rw [hidle]
    rfl
  · rw [mapM_evalNodes answer g hapart]
    cases has : ns.mapM (PlanNode.attach answer g · rows) with
    | error e => rfl
    | ok as =>
      have hlen : as.length = ns.length := Except.length_of_mapM has
      simp only [Except.map, bind, Except.bind, finishLevel]
      rw [List.map_snd_zip (by omega), nestBelow_eq answer g hlen]
      cases hbelow : (ns.zip as).mapM fun n => n.1.nest answer g n.2.attached with
      | error e => rfl
      | ok below =>
        have hblen : below.length = (ns.zip as).length := Except.length_of_mapM hbelow
        simp only [pure, Except.pure, Except.ok.injEq]
        rw [settleAll_eq, settleAll_eq, evalNodes_snd answer g hapart has]
        have hlinks : ∀ n ∈ ns.zip as, n.2.links.length = rows.length := by
          intro n hn
          exact PlanNode.length_links (List.forall₂_zip (Except.mapM_eq_ok_iff.mp has) hn)
        refine writeColumns_writeColumns ?_ (Loaded.length_columns hlinks below) ?_
        · intro c hc
          obtain ⟨n, hn, rfl⟩ := List.mem_map.mp hc
          simpa [Attachment.column] using hlinks n hn
        · rw [Loaded.map_fst_columns hblen, List.map_map]
          rfl

/-- Stitching only writes columns into the rows. -/
theorem Plan.nest_writes {p : Plan} (hp : p.KeysApart) {rows out : List Row} (h : p.nest answer g rows = .ok out) :
    out.length = rows.length ∧
      ∀ (i : Nat) (row x : Row), rows[i]? = some row → out[i]? = some x → ∃ es, x = row.setAll es := by
  by_cases hempty : rows.isEmpty = true
  · rw [nest_of_isEmpty _ _ hempty] at h
    cases h
    refine ⟨rfl, fun i row x hrow hx => ⟨[], ?_⟩⟩
    rw [hrow] at hx
    exact (Option.some.inj hx).symm
  · rw [nest_eq answer g hp hempty] at h
    obtain ⟨as, has, h⟩ := Except.bind_eq_ok h
    obtain ⟨below, hbelow, h⟩ := Except.bind_eq_ok h
    cases h
    have hcolumns : ∀ c ∈ ((p.nodes.zip as).zip below).map fun c => Loaded.column c.1 c.2,
        c.2.length = rows.length :=
      Loaded.length_columns
        (fun n hn => PlanNode.length_links (List.forall₂_zip (Except.mapM_eq_ok_iff.mp has) hn)) below
    rw [settleAll_eq]
    refine ⟨length_writeColumns hcolumns, fun i row x hrow hx => ?_⟩
    rw [getElem?_writeColumns hcolumns, hrow, Option.map_some, Option.some.injEq] at hx
    exact ⟨_, hx.symm⟩

end Level

end RelatedRows

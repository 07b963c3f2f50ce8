import Mathlib.Data.List.Induction
import RelatedRows.Proofs.Batching
import RelatedRows.Proofs.Erasing

/-!
# Trimming

Column options only trim.  What a plan stitches is what it would stitch with all columns kept, with columns taken away
from the attached rows afterwards.

* `Plan.prune p`: takes away, in rows that were stitched with all columns kept, the columns that the options of `p`
  leave out.
* `PlanNode.trim_eq`: what a node leaves out, as its selection and then its exclusion.
* `Plan.nest_erase`: stitching with column options and without them, level by level.
* `stitch_erase`: the same from the root.
-/

namespace RelatedRows

/-! ## Pruning -/

namespace PlanNode

/-- A row with the columns that a node selects and those that the nodes below it write. -/
def select (n : PlanNode) (row : Row) : Row :=
  match n.step.options.select with
  | none => row
  | some columns => row.keep fun c => columns.contains c || n.nestedKeys.contains c

/-- A row without the columns that a node excludes, but with those that the nodes below it write. -/
def exclude (n : PlanNode) (row : Row) : Row :=
  row.keep fun c => !((n.step.options.exclude.getD []).contains c && !n.nestedKeys.contains c)

theorem trim_eq (n : PlanNode) (row : Row) : n.trim row = n.exclude (n.select row) := by
  unfold trim exclude select Row.keep
  cases hselect : n.step.options.select with
  | none =>
    refine List.filter_congr fun f _ => ?_
    simp only [keeps, hselect]
    cases n.nestedKeys.contains f.1 <;> simp
  | some columns =>
    rw [List.filter_filter]
    refine List.filter_congr fun f _ => ?_
    simp only [keeps, hselect]
    cases n.nestedKeys.contains f.1 <;> simp [Bool.and_comm]

end PlanNode

/-- Changes the rows that a value holds: the object that it is, or the objects in a list. -/
def Value.mapRows (f : Row → Row) : Value → Value
  | .object row => .object (f row)
  | .list items => .list (items.map fun
    | .object row => .object (f row)
    | v => v)
  | v => v

mutual
def Plan.prune : Plan → Row → Row
  | .mk _ _ nodes _, row => row.map fun (c, v) => (c, pruneColumn nodes c v)

/-- Prunes the value of a column; of several nodes with its key, the last one has written it. -/
def pruneColumn : List PlanNode → String → Value → Value
  | [], _, v => v
  | n :: ns, c, v =>
    if c ∈ ns.map PlanNode.key then pruneColumn ns c v
    else if c = n.key then v.mapRows fun row => n.exclude (n.select (n.prune row))
    else v

def PlanNode.prune : PlanNode → Row → Row
  | .leaf _, row => row
  | .branch _ p, row => p.prune row
end

/-- What pruning leaves of a row that a node attached. -/
def PlanNode.pruned (n : PlanNode) (row : Row) : Row :=
  n.exclude (n.select (n.prune row))

theorem pruneColumn_concat (ns : List PlanNode) (n : PlanNode) (c : String) (v : Value) :
    pruneColumn (ns ++ [n]) c v = if c = n.key then v.mapRows n.pruned else pruneColumn ns c v := by
  induction ns with
  | nil => simp [pruneColumn]; rfl
  | cons m ns ih =>
    rw [List.cons_append, pruneColumn, ih, pruneColumn]
    by_cases hn : c = n.key
    · simp [hn]
    · by_cases hns : c ∈ ns.map PlanNode.key
      · rw [if_pos (by simp [List.mem_map.mp hns]), if_neg hn, if_neg hn, if_pos hns]
      · have hnot : c ∉ (ns ++ [n]).map PlanNode.key := by
          simpa [hn] using hns
        rw [if_neg hnot, if_neg hn, if_neg hns]

theorem Plan.lookup_prune (p : Plan) (row : Row) (c : String) :
    (p.prune row).lookup c = (row.lookup c).map (pruneColumn p.nodes c) := by
  obtain ⟨entity, depth, nodes, pruned⟩ := p
  rw [prune]
  show _ = (row.lookup c).map (pruneColumn nodes c)
  induction row with
  | nil => rfl
  | cons f rest ih =>
    obtain ⟨d, v⟩ := f
    rw [List.map_cons]
    by_cases hd : c = d
    · subst hd
      simp
    · rw [Row.lookup_cons_of_ne hd, Row.lookup_cons_of_ne hd, ih]

/-- In a row with the columns of some nodes, the last node with a key decides what the column holds. -/
theorem lookup_setAll_nodes {γ : Type} (cs : List γ) (node : γ → PlanNode) (x : String) :
    (∃ c ∈ cs, (node c).key = x ∧ (∀ w, pruneColumn (cs.map node) x w = w.mapRows (node c).pruned) ∧
        ∀ (row : Row) (v : γ → Value), (row.setAll (cs.map fun c => ((node c).key, v c))).lookup x = some (v c)) ∨
      (x ∉ cs.map fun c => (node c).key) ∧ (∀ w, pruneColumn (cs.map node) x w = w) ∧
        ∀ (row : Row) (v : γ → Value),
          (row.setAll (cs.map fun c => ((node c).key, v c))).lookup x = row.lookup x := by
  induction cs using List.reverseRecOn with
  | nil => exact .inr ⟨by simp, fun _ => rfl, fun _ _ => rfl⟩
  | append_singleton cs c ih =>
    simp only [List.map_append, List.map_cons, List.map_nil, Row.setAll_concat, pruneColumn_concat]
    by_cases hx : x = (node c).key
    · refine .inl ⟨c, by simp, hx.symm, fun w => if_pos hx, fun row v => ?_⟩
      rw [hx, Row.lookup_set_self]
    · simp only [if_neg hx, Row.lookup_set_of_ne hx]
      rcases ih with ⟨d, hd, hkey, hprune, hlookup⟩ | ⟨hnot, hprune, hlookup⟩
      · exact .inl ⟨d, by simp [hd], hkey, hprune, hlookup⟩
      · exact .inr ⟨by simpa [hx] using hnot, hprune, hlookup⟩

/-! ## Rows of a level -/

/-- What stitching some nodes makes of a row, with column options and without: a column that one of the nodes writes
differs by pruning, and any other one is as it was before. -/
def Trims (nodes : List PlanNode) (row row' out out' : Row) : Prop :=
  ∀ x, (∃ v v', x ∈ nodes.map PlanNode.key ∧ out.lookup x = some v ∧ out'.lookup x = some v' ∧
      v.Same (pruneColumn nodes x v')) ∨
    (x ∉ nodes.map PlanNode.key ∧ out.lookup x = row.lookup x ∧ out'.lookup x = row'.lookup x ∧
      ∀ w, pruneColumn nodes x w = w)

theorem trims_setAll {γ : Type} {cs : List γ} {node : γ → PlanNode} {v v' : γ → Value}
    (h : ∀ c ∈ cs, (v c).Same ((v' c).mapRows (node c).pruned)) (row row' : Row) :
    Trims (cs.map node) row row' (row.setAll (cs.map fun c => ((node c).key, v c)))
      (row'.setAll (cs.map fun c => ((node c).key, v' c))) := by
  intro x
  have hkeys : (cs.map node).map PlanNode.key = cs.map fun c => (node c).key := by
    rw [List.map_map]
    rfl
  rw [hkeys]
  rcases lookup_setAll_nodes cs node x with ⟨c, hc, hkey, hprune, hlookup⟩ | ⟨hnot, hprune, hlookup⟩
  · refine .inl ⟨v c, v' c, List.mem_map.mpr ⟨c, hc, hkey⟩, hlookup row v, hlookup row' v', ?_⟩
    rw [hprune]
    exact h c hc
  · exact .inr ⟨hnot, hlookup row v, hlookup row' v', hprune⟩

theorem Trims.same_prune {p : Plan} {row out out' : Row} (h : Trims p.nodes row row out out') :
    out.Same (p.prune out') := by
  refine .of_columns fun x => ?_
  rw [Plan.lookup_prune]
  rcases h x with ⟨v, v', -, hv, hv', hsame⟩ | ⟨-, hout, hout', hprune⟩
  · exact .inr ⟨v, _, hv, by rw [hv', Option.map_some], hsame⟩
  · refine .inl ?_
    rw [hout, hout', funext hprune]
    simp

namespace PlanNode

/-- The nodes below a node. -/
def lower (n : PlanNode) : List PlanNode :=
  (n.nested?.map (·.nodes)).getD []

theorem nestedKeys_eq (n : PlanNode) : n.nestedKeys = n.lower.map key := by
  cases n <;> rfl

theorem lookup_prune (n : PlanNode) (row : Row) (c : String) :
    (n.prune row).lookup c = (row.lookup c).map (pruneColumn n.lower c) := by
  cases n with
  | leaf s =>
    show row.lookup c = (row.lookup c).map fun v => v
    simp
  | branch s p => exact p.lookup_prune row c

/-- What a node keeps of a row and does not attach to it, it has fetched. -/
theorem lookup_fetched {n : PlanNode} {columns : List String} {c : String} (hkeeps : n.keeps c = true)
    (hc : c ∉ n.nestedKeys) (row : Row) : (project (n.fetched columns) row).lookup c = row.lookup c := by
  have hselect : n.step.options.select.all (·.contains c) = true := by
    have hnot : n.nestedKeys.contains c = false := by simpa using hc
    rw [keeps, hnot, Bool.false_or, Bool.and_eq_true] at hkeeps
    exact hkeeps.1
  unfold fetched
  cases h : n.step.options.select with
  | none => rfl
  | some select =>
    rw [h, Option.all_some] at hselect
    have hmem : c ∈ select := by simpa using hselect
    simp only [Option.map_some, project]
    rw [Row.lookup_keep, if_pos (by simp [hmem])]

theorem same_pruned {n : PlanNode} {columns : List String} {row' out out' : Row}
    (h : Trims n.lower (project (n.fetched columns) row') row' out out') : Row.Same (n.trim out) (n.pruned out') := by
  have hpruned : n.pruned out' = n.trim (n.prune out') := (n.trim_eq _).symm
  rw [hpruned]
  refine .of_columns fun x => ?_
  rw [trim, trim, Row.lookup_keep, Row.lookup_keep, lookup_prune]
  by_cases hkeeps : n.keeps x = true
  · rw [if_pos hkeeps, if_pos hkeeps]
    rcases h x with ⟨v, v', -, hv, hv', hsame⟩ | ⟨hnot, hout, hout', hprune⟩
    · exact .inr ⟨v, _, hv, by rw [hv', Option.map_some], hsame⟩
    · refine .inl ?_
      rw [← nestedKeys_eq] at hnot
      rw [hout, hout', lookup_fetched hkeeps hnot, funext hprune]
      simp
  · rw [if_neg hkeeps, if_neg hkeeps]
    exact .inl rfl

end PlanNode

/-! ## Attached values -/

theorem Link.value_same {f : Row → Row} {found found' : List Row} {l : Link}
    (h : ∀ i ∈ l.positions, ∃ x x', found[i]? = some x ∧ found'[i]? = some x' ∧ Row.Same x (f x')) :
    (l.value found).Same ((l.value found').mapRows f) := by
  cases l with
  | one p =>
    cases p with
    | none => exact .refl _
    | some i =>
      obtain ⟨x, x', hx, hx', hsame⟩ := h i (by simp [Link.positions])
      simp only [value, Option.bind_some, hx, hx']
      exact hsame
  | many ps =>
    refine Value.Same.list_of_forall₂ ?_
    induction ps with
    | nil => exact .nil
    | cons i ps ih =>
      obtain ⟨x, x', hx, hx', hsame⟩ := h i (by simp [Link.positions])
      have hrest := ih fun j hj => h j (List.mem_cons_of_mem _ hj)
      simp only [List.filterMap_cons, hx, hx', List.map_cons]
      exact .cons hsame hrest

namespace PlanNode

variable {n : PlanNode} {a a' : Attachment}

theorem Narrows.attached (h : n.Narrows a a') :
    a.attached = a'.attached.map (project (n.fetched n.step.relation.targetKey)) := by
  have hpositions : a.positions = a'.positions := by rw [Attachment.positions, Attachment.positions, h.links]
  rw [Attachment.attached, Attachment.attached, hpositions, List.map_filterMap]
  refine List.filterMap_congr fun i _ => ?_
  rw [h.found, List.getElem?_map]

theorem Narrows.sound_left (h : n.Narrows a a') : a.Sound := by
  intro l hl i hi
  rw [h.found, List.length_map]
  exact h.sound l (h.links ▸ hl) i hi

/-- What is made of the attached rows below a node, with column options and without. -/
structure BelowTrims (n : PlanNode) (a a' : Attachment) (below below' : List Row) : Prop where
  length : below.length = a.attached.length
  length' : below'.length = a'.attached.length
  trims : ∀ (j : Nat) (x x' : Row), below[j]? = some x → below'[j]? = some x' → Row.Same (n.trim x) (n.pruned x')

/-- The columns that a node writes with its column options and without them. -/
theorem Narrows.same_column (h : n.Narrows a a') {below below' : List Row} (hbelow : n.BelowTrims a a' below below') :
    List.Forall₂ (fun v v' => v.Same (v'.mapRows n.pruned)) (Loaded.column (n, a) below).2
      (Loaded.column (n.erase, a') below').2 := by
  have hpositions : a.positions = a'.positions := by rw [Attachment.positions, Attachment.positions, h.links]
  show List.Forall₂ _ (a.links.map (Link.value ((a.complete below).found.map n.trim)))
    (a'.links.map (Link.value ((a'.complete below').found.map n.erase.trim)))
  rw [← h.links, List.forall₂_map_left_iff, List.forall₂_map_right_iff, List.forall₂_same]
  intro l hl
  refine Link.value_same fun i hi => ?_
  have hl' : l ∈ a'.links := h.links ▸ hl
  have hmem : i ∈ a.positions := Attachment.mem_positions.mpr ⟨l, hl, hi⟩
  have hidx : a.positions.idxOf i < below.length := by
    rw [hbelow.length, Attachment.length_attached h.sound_left]
    exact List.idxOf_lt_length_iff.mpr hmem
  have hidx' : a.positions.idxOf i < below'.length := by
    rw [hbelow.length', Attachment.length_attached h.sound, ← hpositions]
    exact List.idxOf_lt_length_iff.mpr hmem
  refine ⟨n.trim below[a.positions.idxOf i], below'[a.positions.idxOf i], ?_, ?_, ?_⟩
  · have hlen := hbelow.length.trans (Attachment.length_attached h.sound_left)
    rw [List.getElem?_map, Attachment.getElem?_complete hlen hmem (h.sound_left l hl i hi),
      List.getElem?_eq_getElem hidx]
    rfl
  · have hlen := hbelow.length'.trans (Attachment.length_attached h.sound)
    rw [List.getElem?_map, Attachment.getElem?_complete hlen (hpositions ▸ hmem) (h.sound l hl' i hi), ← hpositions,
      List.getElem?_eq_getElem hidx', Option.map_some, trim_erase]
  · exact hbelow.trims _ _ _ (List.getElem?_eq_getElem hidx) (List.getElem?_eq_getElem hidx')

/-- The columns that a node fetches include those that the nodes below it are stitched by. -/
theorem spelling_lower {c : PlanNode} (hc : c ∈ n.lower) (columns : List String) (row : Row) :
    (project (n.fetched columns) row).spelling c.step.relation.sourceKey = row.spelling c.step.relation.sourceKey := by
  unfold fetched
  cases n.step.options.select with
  | none => rfl
  | some select =>
    refine Row.spelling_project (fun d hd => ?_) row
    rw [List.mem_eraseDups]
    exact List.mem_append_right _ (List.mem_flatMap.mpr ⟨c, hc, hd⟩)

end PlanNode

/-! ## Levels -/

/-- What stitching some nodes makes of the rows of a level, with column options and without. -/
structure LevelTrims (nodes : List PlanNode) (rows rows' out out' : List Row) : Prop where
  length : out.length = rows.length
  length' : out'.length = rows'.length
  trims : ∀ (i : Nat) (row row' x x' : Row), rows[i]? = some row → rows'[i]? = some row' → out[i]? = some x →
    out'[i]? = some x' → Trims nodes row row' x x'

theorem levelTrims_writeColumns {γ : Type} {cs : List γ} {node : γ → PlanNode} {column column' : γ → List Value}
    {rows rows' : List Row} (hlen : rows.length = rows'.length)
    (h : ∀ c ∈ cs, (column c).length = rows.length ∧
      List.Forall₂ (fun v v' => v.Same (v'.mapRows (node c).pruned)) (column c) (column' c)) :
    LevelTrims (cs.map node) rows rows' (writeColumns (cs.map fun c => ((node c).key, column c)) rows)
      (writeColumns (cs.map fun c => ((node c).key, column' c)) rows') := by
  have hcolumns : ∀ c ∈ cs.map fun c => ((node c).key, column c), c.2.length = rows.length := by
    intro c hc
    obtain ⟨d, hd, rfl⟩ := List.mem_map.mp hc
    exact (h d hd).1
  have hcolumns' : ∀ c ∈ cs.map fun c => ((node c).key, column' c), c.2.length = rows'.length := by
    intro c hc
    obtain ⟨d, hd, rfl⟩ := List.mem_map.mp hc
    exact ((h d hd).2.length_eq.symm.trans (h d hd).1).trans hlen
  refine ⟨length_writeColumns hcolumns, length_writeColumns hcolumns', fun i row row' x x' hrow hrow' hx hx' => ?_⟩
  rw [getElem?_writeColumns hcolumns, hrow, Option.map_some, Option.some.injEq] at hx
  rw [getElem?_writeColumns hcolumns', hrow', Option.map_some, Option.some.injEq] at hx'
  rw [← hx, ← hx', cellsAt, cellsAt, List.map_map, List.map_map]
  refine trims_setAll (fun c hc => ?_) row row'
  obtain ⟨hi, -⟩ := List.getElem?_eq_some_iff.mp hrow
  have hi : i < (column c).length := by
    rw [(h c hc).1]
    exact hi
  have hi' : i < (column' c).length := by
    rw [← (h c hc).2.length_eq]
    exact hi
  show Value.Same ((column c)[i]?.getD .null) (Value.mapRows (node c).pruned ((column' c)[i]?.getD .null))
  rw [List.getElem?_eq_getElem hi, List.getElem?_eq_getElem hi']
  exact (h c hc).2.get hi hi'

variable {m : Memory} {g : Graph}

theorem PlanNode.nest_erase {n : PlanNode} {a a' : Attachment} (h : n.Narrows a a')
    (ih : ∀ q, n.nested? = some q → ∀ {rows rows' : List Row}, rows.length = rows'.length →
      (∀ c ∈ q.nodes, rows.map (Row.spelling c.step.relation.sourceKey) =
        rows'.map (Row.spelling c.step.relation.sourceKey)) →
      Except.Agree (LevelTrims q.nodes rows rows') (q.nest m.answers g rows) (q.erase.nest m.answers g rows')) :
    Except.Agree (n.BelowTrims a a') (n.nest m.answers g a.attached) (n.erase.nest m.answers g a'.attached) := by
  have hattached := h.attached
  cases n with
  | leaf s =>
    refine .ok ⟨rfl, rfl, fun j x x' hx hx' => ?_⟩
    rw [hattached, List.getElem?_map, hx', Option.map_some, Option.some.injEq] at hx
    have htrims : Trims (leaf s).lower (project ((leaf s).fetched s.relation.targetKey) x') x' x x' :=
      fun y => .inr ⟨by simp [lower], by rw [← hx]; rfl, rfl, fun _ => rfl⟩
    exact same_pruned htrims
  | branch s q =>
    have hlengths : a.attached.length = a'.attached.length := by rw [hattached, List.length_map]
    have hspelling : ∀ c ∈ q.nodes, a.attached.map (Row.spelling c.step.relation.sourceKey) =
        a'.attached.map (Row.spelling c.step.relation.sourceKey) := by
      intro c hc
      rw [hattached, List.map_map]
      exact List.map_congr_left fun row _ => spelling_lower (n := .branch s q) hc _ row
    refine (ih q rfl hlengths hspelling).mono fun below below' hlevel => ⟨hlevel.length, hlevel.length', ?_⟩
    intro j x x' hx hx'
    obtain ⟨hj, -⟩ := List.getElem?_eq_some_iff.mp hx'
    rw [hlevel.length'] at hj
    have hrow : a.attached[j]? = some (project ((branch s q).fetched s.relation.targetKey) a'.attached[j]) := by
      rw [hattached, List.getElem?_map, List.getElem?_eq_getElem hj]
      rfl
    have htrims : Trims (branch s q).lower _ _ x x' :=
      hlevel.trims j _ _ x x' hrow (List.getElem?_eq_getElem hj) hx hx'
    exact same_pruned htrims

/-- Writing what some nodes attach to the rows of a level, with their column options and without them. -/
theorem finishLevel_erase {cs : List (PlanNode × Attachment × Attachment)} {rows rows' : List Row}
    (hlen : rows.length = rows'.length)
    (hcs : ∀ c ∈ cs, c.2.1.links.length = rows.length ∧ c.1.Narrows c.2.1 c.2.2)
    (hbelow : ∀ c ∈ cs, Except.Agree (c.1.BelowTrims c.2.1 c.2.2) (c.1.nest m.answers g c.2.1.attached)
      (c.1.erase.nest m.answers g c.2.2.attached)) :
    Except.Agree (LevelTrims (cs.map (·.1)) rows rows')
      (finishLevel m.answers g (cs.map (·.1)) rows (cs.map (·.2.1)))
      (finishLevel m.answers g (cs.map (·.1.erase)) rows' (cs.map (·.2.2))) := by
  rw [finishLevel, finishLevel, List.zip_map', List.zip_map', List.mapM_map, List.mapM_map]
  refine (Except.Agree.mapM_same hbelow).bind ?_
  rintro belows belows' ⟨ds, rfl, rfl, rfl, hds⟩
  rw [settleAll_eq, settleAll_eq]
  simp only [List.map_map, List.zip_map', Function.comp_def]
  have hright : ds.map (fun d => Loaded.column (d.1.1.erase, d.1.2.2) d.2.2) =
      ds.map fun d => (d.1.1.key, (Loaded.column (d.1.1.erase, d.1.2.2) d.2.2).2) :=
    List.map_congr_left fun d _ => congrArg (·, _) d.1.1.key_erase
  rw [hright]
  refine .ok (levelTrims_writeColumns hlen fun d hd => ?_)
  obtain ⟨hlinks, hnarrows⟩ := hcs d.1 (List.mem_map_of_mem hd)
  exact ⟨(Loaded.length_column (d.1.1, d.1.2.1) d.2.1).trans hlinks, hnarrows.same_column (hds d hd)⟩

/-- Stitching rows of which only the columns are left that the plan is stitched by. -/
theorem Plan.nest_erase {p : Plan} (hapart : ∀ q ∈ p.levels, q.KeysApart) (hserves : m.ServesAll Value.isScalar p)
    {rows rows' : List Row} (hlen : rows.length = rows'.length)
    (h : ∀ n ∈ p.nodes, rows.map (Row.spelling n.step.relation.sourceKey) =
      rows'.map (Row.spelling n.step.relation.sourceKey)) :
    Except.Agree (LevelTrims p.nodes rows rows') (p.nest m.answers g rows) (p.erase.nest m.answers g rows') := by
  induction p using Plan.induction generalizing rows rows' with
  | step p ih =>
    by_cases hempty : rows.isEmpty = true
    · have hempty' : rows'.isEmpty = true := by
        rw [List.isEmpty_iff_length_eq_zero] at hempty ⊢
        omega
      rw [nest_of_isEmpty _ _ hempty, nest_of_isEmpty _ _ hempty', List.isEmpty_iff.mp hempty]
      exact .ok ⟨rfl, rfl, fun i row row' x x' hrow => by simp at hrow⟩
    have hempty' : ¬rows'.isEmpty = true := by
      rw [List.isEmpty_iff_length_eq_zero] at hempty ⊢
      omega
    have hp := hapart p p.mem_levels_self
    rw [nest_eq _ _ hp hempty, nest_eq _ _ hp.erase hempty', nodes_erase, List.mapM_map]
    refine (Except.Agree.mapM_same fun n hn =>
      (PlanNode.attach_erase (hserves p p.mem_levels_self n hn) (h n hn)).with_eq).bind ?_
    -- what the nodes attach, with and without their options, stands beside them from here on
    rintro as as' ⟨cs, hnodes, rfl, rfl, hcs⟩
    rw [hnodes, List.map_map]
    refine finishLevel_erase hlen (fun c hc => ⟨PlanNode.length_links (hcs c hc).1, (hcs c hc).2.2⟩) fun c hc => ?_
    have hn : c.1 ∈ p.nodes := hnodes ▸ List.mem_map_of_mem hc
    refine PlanNode.nest_erase (hcs c hc).2.2 fun q hq rows rows' hlengths hspelling => ?_
    obtain ⟨n, a, a'⟩ := c
    cases n with
    | leaf s => cases hq
    | branch s q' =>
      cases hq
      exact ih s q hn (fun r hr => hapart r (levels_subset hn hr)) (fun r hr => hserves r (levels_subset hn hr))
        hlengths hspelling

/-! ## From the root -/

theorem Trims.congr {nodes : List PlanNode} {row row' out out' x x' : Row} (h : Trims nodes row row' x x')
    (hout : ∀ c, out.lookup c = x.lookup c) (hout' : ∀ c, out'.lookup c = x'.lookup c) :
    Trims nodes row row' out out' := by
  intro c
  rw [hout, hout']
  exact h c

/-- The root rows that are shown differ as the rows that the level below them was written into. -/
theorem LevelTrims.same_completeAll {p : Plan} {rows out out' : List Row} (h : LevelTrims p.nodes rows rows out out')
    (hwrites : ∀ (i : Nat) (row x : Row), rows[i]? = some row → out[i]? = some x → ∃ es, x = row.setAll es)
    (hwrites' : ∀ (i : Nat) (row x : Row), rows[i]? = some row → out'[i]? = some x → ∃ es, x = row.setAll es) :
    List.Forall₂ Row.Same (RootRow.completeAll (rows.map RootRow.ofRow) out)
      ((RootRow.completeAll (rows.map RootRow.ofRow) out').map p.prune) := by
  have hlen := h.length
  have hlen' := h.length'
  refine Except.forall₂_of_getElem? (by simp [RootRow.completeAll, hlen, hlen']) fun i z z' hz hz' => ?_
  simp only [RootRow.completeAll, List.getElem?_map, List.getElem?_zipWith] at hz hz'
  cases hrow : rows[i]? with
  | none => simp [hrow] at hz
  | some row =>
    obtain ⟨hi, -⟩ := List.getElem?_eq_some_iff.mp hrow
    have hx := List.getElem?_eq_getElem (hlen ▸ hi)
    have hx' := List.getElem?_eq_getElem (hlen' ▸ hi)
    rw [hrow, hx] at hz
    rw [hrow, hx'] at hz'
    cases hz
    cases hz'
    obtain ⟨es, hes⟩ := hwrites i row _ hrow hx
    obtain ⟨es', hes'⟩ := hwrites' i row _ hrow hx'
    refine ((h.trims i row row _ _ hrow hrow hx hx').congr (fun c => ?_) fun c => ?_).same_prune
    · rw [hes]
      exact lookup_complete_setAll row es c
    · rw [hes']
      exact lookup_complete_setAll row es' c

/-- Column options only trim: stitching with them is stitching without them and taking columns away afterwards, up to
the order in which the columns of a row stand. -/
theorem stitch_erase {g : Graph} {concurrency : Int} {entity : String} {p : Plan} {rows : List Row}
    {s : Session Memory} (hapart : ∀ q ∈ p.levels, q.KeysApart) (hfaults : s.store.faults = [])
    (hprepared : s.store.prepared = []) (hserves : s.store.ServesAll Value.isScalar p) :
    Except.Agree (List.Forall₂ Row.Same) (stitch g Memory.execute concurrency entity p (.rows rows) s).1
      ((stitch g Memory.execute concurrency entity p.erase (.rows rows) s).1.map (List.map p.prune)) := by
  by_cases hvalid : 1 ≤ concurrency ∧ p.entity = entity
  · rw [Memory.stitch_eq_nest hfaults hprepared hvalid.1 hvalid.2,
      Memory.stitch_eq_nest hfaults hprepared hvalid.1 (p.entity_erase.trans hvalid.2)]
    have hnest : Except.Agree (LevelTrims p.nodes rows rows) (p.nest s.store.answers g rows)
        (p.erase.nest s.store.answers g rows) := Plan.nest_erase hapart hserves rfl fun _ _ => rfl
    have hp := hapart p p.mem_levels_self
    refine .map_right (hnest.with_eq.map fun out out' hout => ?_)
    obtain ⟨hout₁, hout₂, hlevel⟩ := hout
    exact hlevel.same_completeAll (Plan.nest_writes _ _ hp hout₁).2 (Plan.nest_writes _ _ hp.erase hout₂).2
  · obtain ⟨f, hf⟩ := rootRows_of_invalid hvalid (.rows rows)
    have hf' : rootRows concurrency entity p.erase (.rows rows) = .error f :=
      (rootRows_congr p.entity_erase _).trans hf
    rw [stitch, stitch, hf, hf']
    exact .error f

namespace Bookshelf

/-- Authors with the titles of their books alone, and with the tags of the books, all but their names. -/
def narrowRequest : Value :=
  .object [("books", .object [("select", .list [.text "title"]),
    ("include", .object [("tags", .object [("exclude", .list [.text "name"])])])])]

def narrowPlan : Plan :=
  match compile graph "authors" narrowRequest 2 with
  | .ok p => p
  | .error _ => .empty "authors" 0

end Bookshelf

theorem stitch_erase_bookshelf :
    Except.Agree (List.Forall₂ Row.Same)
      (stitch Bookshelf.graph Memory.execute 2 "authors" Bookshelf.narrowPlan
        (.rows [[("id", .int 1)], [("id", .int 2)]]) { store := Bookshelf.database }).1
      ((stitch Bookshelf.graph Memory.execute 2 "authors" Bookshelf.narrowPlan.erase
        (.rows [[("id", .int 1)], [("id", .int 2)]]) { store := Bookshelf.database }).1.map
          (List.map Bookshelf.narrowPlan.prune)) :=
  stitch_erase (by decide +kernel) rfl rfl (by decide +kernel)

end RelatedRows

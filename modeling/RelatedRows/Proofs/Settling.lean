import RelatedRows.Proofs.Siblings

/-!
# Settling rows

What the nodes of a level write at last counts, and not what has been written before.

* `Rows.Same`: lists of rows that look the same, one by one.
* `settleAll_same`: rows that look the same, settled with rows that look the same, look the same.
* `settleAll_writeColumn`: a column that a node will write may be written before.
-/

namespace RelatedRows

/-- Rows that look the same, one by one. -/
abbrev Rows.Same (rows rows' : List Row) : Prop :=
  List.Forall₂ Row.Same rows rows'

theorem Rows.Same.refl (rows : List Row) : Rows.Same rows rows :=
  List.forall₂_same.mpr fun _ _ => .refl _

theorem Rows.Same.trans {rows rows' rows'' : List Row} (h : Rows.Same rows rows') (h' : Rows.Same rows' rows'') :
    Rows.Same rows rows'' := by
  induction h generalizing rows'' with
  | nil => exact h'
  | cons hrow _ ih =>
    cases h' with
    | cons hrow' hrest' => exact .cons (hrow.trans hrow') (ih hrest')

/-! ## Attached rows -/

section Forall

variable {α β : Type} {R : α → β → Prop} {xs : List α} {ys : List β}

theorem getElem?_of_forall₂ (h : List.Forall₂ R xs ys) (i : Nat) : Option.Rel R xs[i]? ys[i]? := by
  induction h generalizing i with
  | nil => exact .none
  | cons hx _ ih =>
    cases i with
    | zero => exact .some hx
    | succ i => exact ih i

theorem rel_of_forall₂ (h : List.Forall₂ R xs ys) {i : Nat} {x : α} {y : β} (hx : xs[i]? = some x)
    (hy : ys[i]? = some y) : R x y := by
  have hrel := getElem?_of_forall₂ h i
  rw [hx, hy] at hrel
  cases hrel with
  | some hxy => exact hxy

theorem lookup_zip_of_forall₂ (h : List.Forall₂ R xs ys) (ps : List Nat) (i : Nat) :
    Option.Rel R ((ps.zip xs).lookup i) ((ps.zip ys).lookup i) := by
  induction h generalizing ps with
  | nil =>
    rw [List.zip_nil_right, List.zip_nil_right]
    exact .none
  | cons hx _ ih =>
    cases ps with
    | nil => exact .none
    | cons p ps =>
      rw [List.zip_cons_cons, List.zip_cons_cons, List.lookup_cons, List.lookup_cons]
      cases i == p
      · exact ih ps
      · exact .some hx

end Forall

variable {rows rows' below below' found found' : List Row}

theorem Link.value_congr (h : Rows.Same found found') (l : Link) : (l.value found).Same (l.value found') := by
  have hget := getElem?_of_forall₂ h
  cases l with
  | one p =>
    cases p with
    | none => exact .refl _
    | some i =>
      show Value.Same (Value.ofOption .object found[i]?) (Value.ofOption .object found'[i]?)
      have hrow := hget i
      generalize found[i]? = x, found'[i]? = x' at hrow ⊢
      cases hrow with
      | none => exact .refl _
      | some hrow => exact hrow
  | many ps =>
    refine Value.Same.list_of_forall₂ ?_
    rw [List.forall₂_map_left_iff, List.forall₂_map_right_iff]
    induction ps with
    | nil => exact .nil
    | cons i ps ih =>
      rw [List.filterMap_cons, List.filterMap_cons]
      have hrow := hget i
      generalize found[i]? = x, found'[i]? = x' at hrow ⊢
      cases hrow with
      | none => exact ih
      | some hrow => exact .cons hrow ih

theorem Attachment.found_complete (a : Attachment) (h : Rows.Same below below') :
    Rows.Same (a.complete below).found (a.complete below').found := by
  refine Except.forall₂_of_getElem? (by simp [complete]) fun i row row' hrow hrow' => ?_
  rw [complete, List.getElem?_mapIdx] at hrow hrow'
  cases hfound : a.found[i]? with
  | none => simp [hfound] at hrow
  | some x =>
    simp only [hfound, Option.map_some, Option.some.injEq] at hrow hrow'
    rw [← hrow, ← hrow']
    have hlookup := lookup_zip_of_forall₂ h a.positions i
    generalize (a.positions.zip below).lookup i = y, (a.positions.zip below').lookup i = y' at hlookup ⊢
    cases hlookup with
    | none => exact .refl _
    | some hsame => exact hsame

/-! ## Rows of a level -/

theorem writeColumn_same {key : String} {values values' : List Value} (hrows : Rows.Same rows rows')
    (hvalues : List.Forall₂ Value.Same values values') :
    Rows.Same (writeColumn key values rows) (writeColumn key values' rows') := by
  induction hrows generalizing values values' with
  | nil =>
    rw [writeColumn, writeColumn, List.zipWith_nil_left, List.zipWith_nil_left]
    exact .nil
  | cons hrow _ ih =>
    cases hvalues with
    | nil => exact .nil
    | cons hvalue hvalues => exact .cons (hrow.set hvalue) (ih hvalues)

theorem Loaded.settle_same (n : Loaded) (hbelow : Rows.Same below below') (hrows : Rows.Same rows rows') :
    Rows.Same (n.settle below rows) (n.settle below' rows') := by
  rw [settle, settle, Attachment.attachTo_eq, Attachment.attachTo_eq]
  refine writeColumn_same hrows ?_
  have hfound : Rows.Same ((n.2.complete below).found.map n.1.trim) ((n.2.complete below').found.map n.1.trim) := by
    rw [Rows.Same, List.forall₂_map_left_iff, List.forall₂_map_right_iff]
    exact (n.2.found_complete hbelow).imp fun _ _ h => h.keep _
  show List.Forall₂ _ (n.2.links.map _) (n.2.links.map _)
  rw [List.forall₂_map_left_iff, List.forall₂_map_right_iff]
  exact List.forall₂_same.mpr fun l _ => l.value_congr hfound

theorem settleAll_same (nodes : List Loaded) {belows belows' : List (List Row)}
    (hbelows : List.Forall₂ Rows.Same belows belows') (hrows : Rows.Same rows rows') :
    Rows.Same (settleAll rows nodes belows) (settleAll rows' nodes belows') := by
  induction nodes generalizing rows rows' belows belows' with
  | nil => exact hrows
  | cons n nodes ih =>
    cases hbelows with
    | nil => exact hrows
    | cons hbelow hbelows => exact ih hbelows (n.settle_same hbelow hrows)

/-- What a node writes early is written again when the level is settled. -/
theorem settleAll_writeColumn {nodes : List Loaded} {belows : List (List Row)} {key : String} {values : List Value}
    (hlinks : ∀ n ∈ nodes, n.2.links.length = rows.length) (hlen : belows.length = nodes.length)
    (hkey : key ∈ nodes.map (·.1.key)) (hvalues : values.length = rows.length) :
    Rows.Same (settleAll (writeColumn key values rows) nodes belows) (settleAll rows nodes belows) := by
  have hcolumns := Loaded.length_columns hlinks belows
  have hwritten : (writeColumn key values rows).length = rows.length := length_writeColumn hvalues
  have hcolumns' : ∀ c ∈ (nodes.zip belows).map fun c => Loaded.column c.1 c.2,
      c.2.length = (writeColumn key values rows).length := by
    rw [hwritten]
    exact hcolumns
  have hmem (j : Nat) : key ∈ (cellsAt ((nodes.zip belows).map fun c => Loaded.column c.1 c.2) j).map Prod.fst := by
    rw [map_fst_cellsAt, Loaded.map_fst_columns hlen]
    exact hkey
  rw [settleAll_eq, settleAll_eq]
  refine Except.forall₂_of_getElem? ?_ fun i x y hx hy => ?_
  · rw [length_writeColumns hcolumns, length_writeColumns hcolumns', hwritten]
  · rw [getElem?_writeColumns hcolumns', writeColumn, List.getElem?_zipWith] at hx
    rw [getElem?_writeColumns hcolumns] at hy
    obtain ⟨row, hrow, rfl⟩ := Option.map_eq_some_iff.mp hy
    have hi : i < values.length := by
      have := (List.getElem?_eq_some_iff.mp hrow).1
      omega
    rw [hrow, List.getElem?_eq_getElem hi] at hx
    cases hx
    exact Row.Same.setAll_set (hmem i)

end RelatedRows

import RelatedRows.Proofs.Results
import RelatedRows.Proofs.Rows
import RelatedRows.Proofs.Shadows
import RelatedRows.Stitch.Nested

/-!
# Stitching from the root

What stitching rows comes to, whatever store is asked.

* `stitch_rows`: stitching objects is stitching the rows that they are.
* `stitch_eq_nest`: over a store whose answers depend on the query alone, it is stitching node by node.
* `stitchRows_of_steady`: a store that no call changes answers like a function of the query.
-/

namespace RelatedRows

/-! ## Objects as root rows -/

section Roots

variable {σ : Type} {g : Graph} {exec : Executor σ} {concurrency : Int} {entity : String} {p : Plan} {rows : List Row}

theorem rootRows_rows (hc : 1 ≤ concurrency) (hentity : p.entity = entity) :
    rootRows concurrency entity p (.rows rows) = .ok (rows.map RootRow.ofRow) := by
  have hroots : (rows.map Value.object).mapM Value.rootRow = .ok (rows.map RootRow.ofRow) := by
    rw [List.mapM_map]
    exact Except.mapM_ok fun row _ => rfl
  rw [rootRows, if_neg (by omega), if_neg (by simpa using hentity)]
  exact hroots

/-- Without a permit, or with the plan of another entity, no rows are stitched at all. -/
theorem rootRows_of_invalid (h : ¬(1 ≤ concurrency ∧ p.entity = entity)) (v : Value) :
    ∃ f, rootRows concurrency entity p v = .error f := by
  rw [rootRows]
  by_cases hc : concurrency < 1
  · exact ⟨_, if_pos hc⟩
  · have hentity : p.entity ≠ entity := fun hentity => h ⟨by omega, hentity⟩
    exact ⟨_, (if_neg hc).trans (if_pos hentity)⟩

theorem rootRows_congr {q : Plan} (h : q.entity = p.entity) (v : Value) :
    rootRows concurrency entity q v = rootRows concurrency entity p v := by
  rw [rootRows, rootRows, h]

theorem row_rootRows : (rows.map RootRow.ofRow).map (·.row) = rows := by
  rw [List.map_map]
  exact (List.map_congr_left fun row _ => RootRow.row_ofRow row).trans (List.map_id rows)

theorem stitch_rows (hc : 1 ≤ concurrency) (hentity : p.entity = entity) (s : Session σ) :
    stitch g exec concurrency entity p (.rows rows) s =
      ((stitchRows exec g p rows s).1.map (RootRow.completeAll (rows.map RootRow.ofRow)),
        (stitchRows exec g p rows s).2) := by
  rw [stitch, rootRows_rows hc hentity]
  simp only [row_rootRows]

theorem stitch_eq_nest {answer : BatchQuery → Answer} (h : ∀ s q, (exec s (.batch q)).1 = answer q)
    (hc : 1 ≤ concurrency) (hentity : p.entity = entity) (s : Session σ) :
    (stitch g exec concurrency entity p (.rows rows) s).1 =
      (p.nest answer g rows).map (RootRow.completeAll (rows.map RootRow.ofRow)) := by
  rw [stitch_rows hc hentity, stitchRows_eq_nest g h]

end Roots

/-! ## What is shown of a root row -/

/-- What is shown of an object into which columns were written is the object with these columns. -/
theorem lookup_complete_setAll (row : Row) (es : List (String × Value)) (c : String) :
    ((RootRow.ofRow row).complete (row.setAll es)).lookup c = (row.setAll es).lookup c := by
  have hcomplete : (RootRow.ofRow row).complete (row.setAll es) =
      Row.setAll [] ((row.map fun f => (f.1, ((row.setAll es).lookup f.1).getD f.2)) ++
        (row.setAll es).keep fun c => !row.columns.contains c) := by
    simp only [RootRow.complete, RootRow.row_ofRow]
    rw [RootRow.ofRow, List.map_map]
    rfl
  rw [hcomplete]
  cases hv : (row.setAll es).lookup c with
  | none =>
    have hnot := Row.lookup_eq_none.mp hv
    rw [Row.lookup_setAll_of_notMem]
    · rfl
    · rw [List.map_append, List.mem_append, not_or, List.map_map]
      refine ⟨fun hmem => hnot (Row.mem_columns_setAll.mpr (.inr hmem)), fun hmem => hnot ?_⟩
      obtain ⟨f, hf, rfl⟩ := List.mem_map.mp hmem
      exact List.mem_map_of_mem (List.mem_filter.mp hf).1
  | some v =>
    refine Row.lookup_setAll_of_mem (fun e he hec => ?_) ?_
    · rcases List.mem_append.mp he with he | he
      · obtain ⟨f, hf, rfl⟩ := List.mem_map.mp he
        obtain rfl : f.1 = c := hec
        rw [hv]
        rfl
      · obtain ⟨hmem, hfresh⟩ := List.mem_filter.mp he
        subst hec
        have hcount : row.columns.count e.1 ≤ 1 := by
          have hnot : e.1 ∉ row.columns := by simpa using hfresh
          rw [List.count_eq_zero.mpr hnot]
          omega
        have hlookup := Row.lookup_of_mem (Row.count_columns_setAll hcount) hmem
        rw [hv] at hlookup
        exact (Option.some.inj hlookup).symm
    · have hmem : c ∈ (row.setAll es).columns := by
        by_contra hnot
        rw [Row.lookup_eq_none.mpr hnot] at hv
        cases hv
      rw [List.map_append, List.mem_append, List.map_map]
      by_cases hrow : c ∈ row.columns
      · exact .inl hrow
      · obtain ⟨f, hf, rfl⟩ := List.mem_map.mp hmem
        refine .inr (List.mem_map.mpr ⟨f, List.mem_filter.mpr ⟨hf, by simpa using hrow⟩, rfl⟩)

/-! ## Stores that stay as they are -/

/-- The executor that answers as another one does in one of its states. -/
def Executor.frozen {σ : Type} (exec : Executor σ) (store : σ) : Executor σ :=
  fun _ q => exec store q

theorem Executor.shadows_frozen {σ : Type} {exec : Executor σ} {store : σ} (hsteady : ∀ q, (exec store q).2 = store) :
    (exec.frozen store).Shadows exec fun _ => store :=
  fun _ q => Prod.ext rfl (hsteady q)

theorem stitchRows_of_steady {σ : Type} {exec : Executor σ} {s : Session σ}
    (hsteady : ∀ q, (exec s.store q).2 = s.store) (g : Graph) (p : Plan) (rows : List Row) :
    (stitchRows exec g p rows s).1 = (stitchRows (exec.frozen s.store) g p rows s).1 := by
  have hsame : s.map (fun _ => s.store) = s := rfl
  rw [← congrArg Prod.fst (stitchRows_map (Executor.shadows_frozen hsteady) g p rows s), hsame]

end RelatedRows

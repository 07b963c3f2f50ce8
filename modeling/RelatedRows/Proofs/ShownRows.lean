import Mathlib.Data.List.Nodup
import RelatedRows.Proofs.Roots
import RelatedRows.Proofs.Sequential

/-!
# Stitched rows as they are shown

In the course of stitching, columns are added to a row behind its own.  An object that is stitched is shown as the row
that becomes of it.

* `Row.Extends`: a row with columns added.
* `RootRow.complete_ofRow`: nothing has to be completed in it.
* `LevelState.Advances.extends`: no step does anything else to the rows of a level.
* `stitchPaced_rows`: whatever the pace of the store, what is shown are the rows of the loader.
-/

namespace RelatedRows

/-! ## Columns are added -/

structure Row.Extends (row row' : Row) : Prop where
  nodup : row'.columns.Nodup
  columns : row.columns <+: row'.columns

namespace Row

variable {row row' : Row}

theorem set_of_notMem {c : String} (h : c ∉ row.columns) (v : Value) : row.set c v = row ++ [(c, v)] := by
  induction row with
  | nil => rfl
  | cons f row ih =>
    obtain ⟨d, w⟩ := f
    obtain ⟨hd, hrest⟩ := not_or.mp (fun hmem => h (List.mem_cons.mpr hmem))
    rw [Row.set, if_neg (Ne.symm hd), ih hrest, List.cons_append]

theorem setAll_of_nodup {es : Row} (h : (row ++ es).columns.Nodup) : row.setAll es = row ++ es := by
  induction es generalizing row with
  | nil => rw [Row.setAll_nil, List.append_nil]
  | cons e es ih =>
    have hnew : e.1 ∉ row.columns := by
      rw [Row.columns, List.map_append] at h
      exact fun hmem => (List.nodup_append.mp h).2.2 _ hmem _ List.mem_cons_self rfl
    have hrest : row ++ e :: es = (row ++ [e]) ++ es := by rw [List.append_assoc]; rfl
    rw [Row.setAll_cons, Row.set_of_notMem hnew, hrest]
    exact ih (hrest ▸ h)

theorem Extends.refl (h : row.columns.Nodup) : row.Extends row :=
  ⟨h, List.prefix_rfl⟩

theorem Extends.set (h : row.Extends row') (c : String) (v : Value) : row.Extends (row'.set c v) := by
  by_cases hc : c ∈ row'.columns
  · have hcolumns : (row'.set c v).columns = row'.columns := by rw [columns_set, if_pos hc]
    exact ⟨hcolumns ▸ h.nodup, hcolumns ▸ h.columns⟩
  · have hcolumns : (row'.set c v).columns = row'.columns ++ [c] := by rw [columns_set, if_neg hc]
    rw [← List.concat_eq_append] at hcolumns
    exact ⟨hcolumns ▸ h.nodup.concat hc, hcolumns ▸ h.columns.trans (List.prefix_concat c row'.columns)⟩

end Row

/-- The columns of one row, with the values that they have in another. -/
theorem map_lookup_eq (look : String → Option Value) {row row' : Row} (hcolumns : row'.columns = row.columns)
    (hlook : ∀ f ∈ row', look f.1 = some f.2) : row.map (fun f => (f.1, (look f.1).getD f.2)) = row' := by
  induction row generalizing row' with
  | nil => exact (List.map_eq_nil_iff.mp hcolumns).symm
  | cons f row ih =>
    obtain ⟨f', row', rfl, hf', hrow'⟩ := List.map_eq_cons_iff.mp hcolumns
    have hhead : look f.1 = some f'.2 := (congrArg look hf'.symm).trans (hlook f' List.mem_cons_self)
    rw [List.map_cons, ih hrow' fun e he => hlook e (List.mem_cons_of_mem _ he), hhead, Option.getD_some]
    exact congrArg (fun c => (c, f'.2) :: row') hf'.symm

/-- An object with columns added is shown as it is. -/
theorem RootRow.complete_ofRow {row row' : Row} (h : row.Extends row') : (RootRow.ofRow row).complete row' = row' := by
  obtain ⟨rest, hrest⟩ := h.columns
  obtain ⟨own, added, rfl, hown, hadded⟩ := List.map_eq_append_iff.mp hrest.symm
  have hlookup : ∀ f ∈ own ++ added, (own ++ added).lookup f.1 = some f.2 := fun f hf =>
    Row.lookup_of_mem (List.nodup_iff_count_le_one.mp h.nodup f.1) hf
  have hwritten : row.map (fun f => (f.1, ((own ++ added).lookup f.1).getD f.2)) = own :=
    map_lookup_eq (fun c => (own ++ added).lookup c) hown fun f hf => hlookup f (List.mem_append_left _ hf)
  have hnodup : (row.columns ++ rest).Nodup := hrest ▸ h.nodup
  have hkeep : Row.keep (fun c => !row.columns.contains c) (own ++ added) = added := by
    rw [Row.keep, List.filter_append, List.filter_eq_nil_iff.mpr, List.filter_eq_self.mpr, List.nil_append]
    · intro f hf
      have hmem : f.1 ∈ rest := hadded ▸ List.mem_map_of_mem hf
      have hnot : f.1 ∉ row.columns := fun hin => (List.nodup_append.mp hnodup).2.2 _ hin _ hmem rfl
      simpa using hnot
    · intro f hf
      have hmem : f.1 ∈ row.columns := hown ▸ List.mem_map_of_mem hf
      simpa using hmem
  have hcomplete : (RootRow.ofRow row).complete (own ++ added) =
      Row.setAll [] (row.map (fun f => (f.1, ((own ++ added).lookup f.1).getD f.2)) ++
        Row.keep (fun c => !row.columns.contains c) (own ++ added)) := by
    simp only [RootRow.complete, RootRow.row_ofRow]
    rw [RootRow.ofRow, List.map_map]
    rfl
  rw [hcomplete, hwritten, hkeep]
  exact Row.setAll_of_nodup h.nodup

theorem RootRow.shown_ofRow {row : Row} (h : row.columns.Nodup) : (RootRow.ofRow row).shown = row := by
  rw [RootRow.shown, RootRow.row_ofRow]
  exact complete_ofRow (.refl h)

theorem RootRow.completeAll_ofRow {rows rows' : List Row} (h : List.Forall₂ Row.Extends rows rows') :
    RootRow.completeAll (rows.map RootRow.ofRow) rows' = rows' := by
  induction h with
  | nil => rfl
  | cons hrow _ ih =>
    rw [List.map_cons, RootRow.completeAll, List.zipWith_cons_cons, complete_ofRow hrow]
    exact congrArg _ ih

/-! ## Runs add columns -/

section Runs

variable {rows rows' : List Row} {key : String}

/-- What writing values under a key keeps is kept by a load that does so. -/
theorem forall₂_rowsAfter {R : Row → Row → Prop} (hset : ∀ row row' v, R row row' → R row (row'.set key v))
    (h : List.Forall₂ R rows rows') (r : Except Fault Linking) : List.Forall₂ R rows (rowsAfter key rows' r) := by
  cases r with
  | error f => exact h
  | ok l =>
    show List.Forall₂ R rows (l.attachTo key rows')
    induction h with
    | nil => exact .nil
    | cons hrow hrows ih =>
      rw [Linking.attachTo]
      split
      · exact .cons (hset _ _ _ hrow) ih
      · exact .cons hrow hrows

theorem extends_writeColumn (h : List.Forall₂ Row.Extends rows rows') {values : List Value}
    (hlen : values.length = rows'.length) : List.Forall₂ Row.Extends rows (writeColumn key values rows') := by
  induction h generalizing values with
  | nil => exact .nil
  | cons hrow hrows ih =>
    cases values with
    | nil => cases hlen
    | cons v values => exact .cons (hrow.set key v) (ih (Nat.succ.inj hlen))

theorem extends_settleAll (h : List.Forall₂ Row.Extends rows rows') {loaded : List Loaded}
    (hlinks : ∀ n ∈ loaded, n.2.links.length = rows.length) (belows : List (List Row)) :
    List.Forall₂ Row.Extends rows (settleAll rows' loaded belows) := by
  induction loaded generalizing rows' belows with
  | nil => exact h
  | cons n loaded ih =>
    cases belows with
    | nil => exact h
    | cons below belows =>
      refine ih ?_ (fun m hm => hlinks m (List.mem_cons_of_mem _ hm)) belows
      show List.Forall₂ _ _ (((n.2.complete below).map n.1.trim).attachTo n.1.key rows')
      rw [Attachment.attachTo_eq]
      refine extends_writeColumn h ?_
      rw [← h.length_eq, ← hlinks n List.mem_cons_self]
      exact n.length_column below

/-- A level over some rows, to which columns have been added. -/
inductive LevelState.Extends (rows : List Row) : LevelState → Prop
  | loading {l : Level} {tasks : List Task} (hrows : List.Forall₂ Row.Extends rows l.rows)
    (hlinks : ∀ a, .finished (.ok a) ∈ tasks → a.links.length = rows.length) : Extends rows (.loading l tasks)
  | nesting {path : List String} {rows' : List Row} {loaded : List Loaded} {below : List LevelState}
    (hrows : List.Forall₂ Row.Extends rows rows') (hlinks : ∀ n ∈ loaded, n.2.links.length = rows.length) :
    Extends rows (.nesting path rows' loaded below)
  | failed (f : Fault) : Extends rows (.finished (.error f))
  | finished {rows' : List Row} (hrows : List.Forall₂ Row.Extends rows rows') : Extends rows (.finished (.ok rows'))

variable {σ : Type} {exec : Executor σ} {g : Graph} {s s' : Shared σ}

/-- A load adds its column to the rows of its level. -/
theorem Task.extends_of_step {n : PlanNode} {t t' : Task} {after : List Row} (h : List.Forall₂ Row.Extends rows rows')
    (hstep : t.step exec g n rows' s = some (t', after, s')) :
    List.Forall₂ Row.Extends rows after ∧ ∀ a, t' = .finished (.ok a) → a.links.length = rows.length := by
  cases advances_of_step hstep with
  | begun | asked | answered => exact ⟨h, fun _ ha => by cases ha⟩
  | ended linking =>
    refine ⟨forall₂_rowsAfter (fun _ _ v hrow => hrow.set n.key v) h linking, fun a ha => ?_⟩
    obtain ⟨l, -, ha⟩ := Except.bind_eq_ok (Task.finished.inj ha)
    exact (l.length_links ha).trans h.length_eq.symm

theorem LevelState.extends_ofLoads {l : Level} {results : List (Except Fault Attachment)}
    (hrows : List.Forall₂ Row.Extends rows l.rows)
    (hlinks : ∀ a, .ok a ∈ results → a.links.length = rows.length) : (ofLoads l results).Extends rows := by
  rw [ofLoads]
  split
  · exact .failed _
  · next loaded hloaded =>
    refine .nesting hrows fun n hn => ?_
    obtain ⟨⟨m, r⟩, hmem, hr⟩ := Except.exists_of_mem_mapM hloaded hn
    obtain ⟨a, rfl, rfl⟩ := Except.map_eq_ok hr
    exact hlinks a (List.of_mem_zip hmem).2

/-- No step does anything to the rows of a level but add columns. -/
theorem LevelState.Advances.extends {st st' : LevelState} (hstep : st.Advances exec g s st' s')
    (h : st.Extends rows) : st'.Extends rows := by
  cases hstep with
  | loaded l results =>
    cases h with
    | loading hrows hlinks => exact extends_ofLoads hrows fun a ha => hlinks a (List.mem_map_of_mem ha)
  | joined path rows' loaded results =>
    cases h with
    | nesting hrows hlinks =>
      rw [ofBelow, LoadedLevel.finish]
      cases results.mapM id with
      | error f => exact .failed f
      | ok belows => exact .finished (extends_settleAll hrows hlinks belows)
  | load hn ht htask =>
    cases h with
    | loading hrows hlinks =>
      obtain ⟨hrows', hlinks'⟩ := Task.extends_of_step hrows htask
      refine .loading hrows' fun a ha => ?_
      rcases List.mem_or_eq_of_mem_set ha with ha | ha
      · exact hlinks a ha
      · exact hlinks' a ha.symm
  | lower hb hbelow =>
    cases h with
    | nesting hrows hlinks => exact .nesting hrows hlinks

theorem Machine.extends_of_reaches {p : Plan} {permits : Nat} {store : σ} {m : Machine σ}
    (hrows : ∀ row ∈ rows, row.columns.Nodup) (h : (start p rows permits store).Reaches exec g m) :
    m.root.Extends rows := by
  have hextends : List.Forall₂ Row.Extends rows rows :=
    List.forall₂_same.mpr fun row hrow => .refl (hrows row hrow)
  have hstart : (start p rows permits store).root.Extends rows := by
    show (Level.start (p.level [] rows)).Extends rows
    rw [Level.start]
    split
    · exact .finished hextends
    · refine .loading hextends fun a ha => ?_
      obtain ⟨n, -, hn⟩ := List.mem_map.mp ha
      cases hn
  exact h.preserves (I := fun m => m.root.Extends rows)
    (fun _ _ _ hm hstep => (advances_of_step hstep).extends hm) hstart

/-- Objects with different columns come back as the rows that the loader makes of them. -/
theorem stitchPaced_rows {concurrency : Int} {entity : String} {p : Plan} (hc : 1 ≤ concurrency)
    (hentity : p.entity = entity) (hrows : ∀ row ∈ rows, row.columns.Nodup) (s : Session σ) :
    stitchPaced exec g concurrency entity p (.rows rows) s =
      stitchRowsPaced exec g concurrency.toNat p rows s := by
  obtain ⟨m, hreaches, hresult, -⟩ := reaches_stitchRowsPaced exec g p rows s (show 1 ≤ concurrency.toNat by omega)
  have hextends := Machine.extends_of_reaches hrows hreaches
  rw [stitchPaced, rootRows_rows hc hentity]
  simp only [row_rootRows]
  generalize stitchRowsPaced exec g concurrency.toNat p rows s = run at hresult
  obtain ⟨result, s'⟩ := run
  rw [Machine.result?] at hresult
  dsimp only at hresult ⊢
  generalize m.root = st at hextends hresult
  cases hextends with
  | finished hrows' =>
    cases hresult
    exact congrArg (fun rows => (Except.ok rows, s')) (RootRow.completeAll_ofRow hrows')
  | failed f =>
    cases hresult
    rfl
  | _ => cases hresult

end Runs

end RelatedRows

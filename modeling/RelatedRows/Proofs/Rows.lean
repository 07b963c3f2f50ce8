import Mathlib.Data.List.Forall2
import RelatedRows.Stitch.Key

/-!
# Rows as mappings

A row says which value each of its columns has; in which order the columns stand says nothing.

* `Row.setAll es`: the row with several columns set, one after the other.
* `Value.Same`: two values that differ at most in the order of the fields of objects, at any depth.  `Row.Same` is the
  same for rows: every column has the same value in both, or is in neither.
* `Row.setAll_setAll`, `Row.Same.setAll_set`: what is overwritten later does not matter.
-/

namespace RelatedRows

namespace Row

variable {row : Row} {c d : String} {v w : Value}

/-! ## Setting columns -/

theorem get_eq_lookup (row : Row) (c : String) : row.get c = (row.lookup c).getD .null := rfl

theorem lookup_cons_of_ne {α : Type} {l : List (String × α)} {a : α} (h : c ≠ d) :
    List.lookup c ((d, a) :: l) = l.lookup c := by
  simp [List.lookup_cons, beq_eq_false_iff_ne.mpr h]

theorem lookup_set_self : (row.set c v).lookup c = some v := by
  induction row with
  | nil => simp [set]
  | cons f rest ih =>
    obtain ⟨e, w⟩ := f
    by_cases h : e = c
    · simp [set, h]
    · rw [set, if_neg h, lookup_cons_of_ne (Ne.symm h), ih]

theorem lookup_set_of_ne (h : d ≠ c) : (row.set c v).lookup d = row.lookup d := by
  induction row with
  | nil => rw [set, lookup_cons_of_ne h]
  | cons f rest ih =>
    obtain ⟨e, w⟩ := f
    by_cases he : e = c
    · subst he
      rw [set, if_pos rfl, lookup_cons_of_ne h, lookup_cons_of_ne h]
    · rw [set, if_neg he]
      by_cases hd : d = e
      · simp [hd]
      · rw [lookup_cons_of_ne hd, lookup_cons_of_ne hd, ih]

theorem mem_columns_set {e : String} : e ∈ (row.set c v).columns ↔ e = c ∨ e ∈ row.columns := by
  induction row with
  | nil => simp [set, columns]
  | cons f rest ih =>
    obtain ⟨e', w⟩ := f
    by_cases h : e' = c
    · simp [set, h, columns]
    · simp only [columns] at ih
      simp only [set, h, if_false, columns, List.map_cons, List.mem_cons, ih]
      tauto

theorem columns_set (row : Row) (c : String) (v : Value) :
    (row.set c v).columns = if c ∈ row.columns then row.columns else row.columns ++ [c] := by
  induction row with
  | nil => rfl
  | cons f rest ih =>
    obtain ⟨d, w⟩ := f
    simp only [columns] at ih
    by_cases hd : d = c
    · simp [set, hd, columns]
    · have hc : c ∈ columns ((d, w) :: rest) ↔ c ∈ rest.map (·.1) := by simp [columns, Ne.symm hd]
      simp only [set, if_neg hd, hc]
      simp only [columns, List.map_cons, ih]
      by_cases hmem : c ∈ rest.map (·.1) <;> simp [hmem]

theorem set_set (row : Row) (c : String) (v w : Value) : (row.set c v).set c w = row.set c w := by
  induction row with
  | nil => simp [set]
  | cons f rest ih =>
    obtain ⟨e, u⟩ := f
    by_cases h : e = c
    · simp [set, h]
    · simp [set, h, ih]

/-- Columns may be set in either order if one of them is there already. -/
theorem set_comm (h : c ≠ d) (hc : c ∈ row.columns) : (row.set d w).set c v = (row.set c v).set d w := by
  induction row with
  | nil => simp [columns] at hc
  | cons f rest ih =>
    obtain ⟨e, u⟩ := f
    by_cases hec : e = c
    · subst hec
      simp [set, h]
    · have hc' : c ∈ columns rest := by
        simp only [columns, List.map_cons, List.mem_cons] at hc
        exact hc.resolve_left (Ne.symm hec)
      by_cases hed : e = d
      · subst hed
        simp [set, hec]
      · simp [set, hec, hed, ih hc']

theorem lookup_keep (p : String → Bool) (row : Row) (c : String) :
    (row.keep p).lookup c = if p c = true then row.lookup c else none := by
  induction row with
  | nil => simp [keep]
  | cons f rest ih =>
    obtain ⟨e, u⟩ := f
    simp only [keep] at ih ⊢
    by_cases he : p e = true
    · rw [List.filter_cons_of_pos (by simpa using he)]
      by_cases hc : c = e
      · subst hc
        simp [he]
      · rw [lookup_cons_of_ne hc, lookup_cons_of_ne hc, ih]
    · rw [List.filter_cons_of_neg (by simpa using he), ih]
      by_cases hc : c = e
      · subst hc
        simp [he]
      · rw [lookup_cons_of_ne hc]

theorem lookup_eq_none : row.lookup c = none ↔ c ∉ row.columns := by
  induction row with
  | nil => simp [columns]
  | cons f rest ih =>
    obtain ⟨e, u⟩ := f
    by_cases h : c = e
    · simp [h, columns]
    · rw [lookup_cons_of_ne h, ih]
      simp [columns, h]

theorem lookup_of_mem {row : Row} {c : String} {v : Value} (h : row.columns.count c ≤ 1) (hv : (c, v) ∈ row) :
    row.lookup c = some v := by
  induction row with
  | nil => simp at hv
  | cons f rest ih =>
    obtain ⟨d, w⟩ := f
    simp only [columns, List.map_cons, List.count_cons] at h
    rcases List.mem_cons.mp hv with heq | hv
    · cases heq
      simp
    · have hrest : 0 < (rest.map (·.1)).count c := List.count_pos_iff.mpr (List.mem_map.mpr ⟨_, hv, rfl⟩)
      have hd : c ≠ d := by
        rintro rfl
        simp at h
        omega
      rw [lookup_cons_of_ne hd]
      refine ih ?_ hv
      simp only [columns]
      omega

/-! ## Setting several columns -/

def setAll (row : Row) (es : List (String × Value)) : Row :=
  es.foldl (fun row e => row.set e.1 e.2) row

@[simp] theorem setAll_nil (row : Row) : row.setAll [] = row := rfl

@[simp] theorem setAll_cons (row : Row) (e : String × Value) (es : List (String × Value)) :
    row.setAll (e :: es) = (row.set e.1 e.2).setAll es := rfl

theorem setAll_concat (row : Row) (es : List (String × Value)) (e : String × Value) :
    row.setAll (es ++ [e]) = (row.setAll es).set e.1 e.2 := by
  simp [setAll, List.foldl_append]

theorem mem_columns_setAll {es : List (String × Value)} :
    c ∈ (row.setAll es).columns ↔ c ∈ es.map Prod.fst ∨ c ∈ row.columns := by
  induction es generalizing row with
  | nil => simp
  | cons e es ih =>
    rw [setAll_cons, ih, mem_columns_set]
    simp only [List.map_cons, List.mem_cons]
    tauto

theorem lookup_setAll_of_notMem {es : List (String × Value)} (h : c ∉ es.map Prod.fst) :
    (row.setAll es).lookup c = row.lookup c := by
  induction es generalizing row with
  | nil => rfl
  | cons e es ih =>
    simp only [List.map_cons, List.mem_cons, not_or] at h
    rw [setAll_cons, ih h.2, lookup_set_of_ne h.1]

theorem count_columns_setAll {c : String} {es : List (String × Value)} {row : Row} (h : row.columns.count c ≤ 1) :
    (row.setAll es).columns.count c ≤ 1 := by
  induction es generalizing row with
  | nil => exact h
  | cons e es ih =>
    refine ih ?_
    rw [columns_set]
    split
    · exact h
    · next hnot =>
      by_cases hc : e.1 = c
      · subst hc
        simp [List.count_append, List.count_eq_zero.mpr hnot]
      · simp [List.count_append, hc, h]

/-- A value that every entry for a column agrees on. -/
theorem lookup_setAll_of_mem {row : Row} {c : String} {v : Value} {es : List (String × Value)}
    (h : ∀ e ∈ es, e.1 = c → e.2 = v) (hc : c ∈ es.map Prod.fst) : (row.setAll es).lookup c = some v := by
  induction es generalizing row with
  | nil => simp at hc
  | cons e es ih =>
    rw [setAll_cons]
    by_cases hes : c ∈ es.map Prod.fst
    · exact ih (fun e he => h e (List.mem_cons_of_mem _ he)) hes
    · have he : e.1 = c := by
        rcases List.mem_cons.mp hc with heq | hmem
        · exact heq.symm
        · exact absurd hmem hes
      rw [lookup_setAll_of_notMem hes, ← he, lookup_set_self, h e List.mem_cons_self he]

/-- A value that is overwritten later may be left out, if its column is there already. -/
theorem setAll_set_of_mem {es : List (String × Value)} (hc : c ∈ row.columns) (he : c ∈ es.map Prod.fst) :
    (row.set c v).setAll es = row.setAll es := by
  induction es generalizing row with
  | nil => simp at he
  | cons e es ih =>
    rw [setAll_cons, setAll_cons]
    by_cases h : c = e.1
    · rw [← h, set_set]
    · have he' : c ∈ es.map Prod.fst := by
        simp only [List.map_cons, List.mem_cons] at he
        exact he.resolve_left h
      rw [← set_comm h hc]
      exact ih (mem_columns_set.mpr (.inr hc)) he'

/-- A column that is there already may be set before or after others. -/
theorem set_setAll_of_notMem {es : List (String × Value)} (hc : c ∈ row.columns) (he : c ∉ es.map Prod.fst) :
    (row.setAll es).set c v = (row.set c v).setAll es := by
  induction es generalizing row with
  | nil => rfl
  | cons e es ih =>
    simp only [List.map_cons, List.mem_cons, not_or] at he
    rw [setAll_cons, setAll_cons, ih (mem_columns_set.mpr (.inr hc)) he.2, set_comm he.1 hc]

/-- Of two rounds of values for the same columns only the second one counts. -/
theorem setAll_setAll {es fs : List (String × Value)} (h : es.map Prod.fst = fs.map Prod.fst) :
    (row.setAll es).setAll fs = row.setAll fs := by
  induction es generalizing row fs with
  | nil =>
    cases fs with
    | nil => rfl
    | cons f fs => simp at h
  | cons e es ih =>
    cases fs with
    | nil => simp at h
    | cons f fs =>
      obtain ⟨c, v⟩ := e
      obtain ⟨d, w⟩ := f
      simp only [List.map_cons, List.cons.injEq] at h
      obtain ⟨rfl, hrest⟩ := h
      simp only [setAll_cons]
      have hc : c ∈ (row.set c w).columns := mem_columns_set.mpr (.inl rfl)
      have hv : c ∈ (row.set c v).columns := mem_columns_set.mpr (.inl rfl)
      have hagain : ((row.set c w).setAll es).setAll fs = (row.set c w).setAll fs := ih hrest
      rw [← hagain]
      by_cases hes : c ∈ es.map Prod.fst
      · -- the column comes again, so neither of its first values is left
        have hsame : (row.set c w).setAll es = (row.set c v).setAll es := by
          rw [← setAll_set_of_mem hc hes (v := v), set_set]
        rw [hsame]
        exact setAll_set_of_mem (mem_columns_setAll.mpr (.inr hv)) (hrest ▸ hes)
      · rw [set_setAll_of_notMem hv hes, set_set]

end Row

/-! ## Sameness -/

/-- Values that differ at most in the order in which the columns of their objects stand. -/
inductive Value.Same : Value → Value → Prop
  | refl (v : Value) : Same v v
  | list {vs ws : List Value} (length : vs.length = ws.length)
    (items : ∀ (i : Nat) (v w : Value), vs[i]? = some v → ws[i]? = some w → Same v w) : Same (.list vs) (.list ws)
  | object {a b : Row} (columns : ∀ c, a.lookup c = none ↔ b.lookup c = none)
    (fields : ∀ c v w, a.lookup c = some v → b.lookup c = some w → Same v w) : Same (.object a) (.object b)

abbrev Row.Same (a b : Row) : Prop :=
  Value.Same (.object a) (.object b)

theorem Row.Same.isNone_iff {a b : Row} (h : a.Same b) (c : String) : a.lookup c = none ↔ b.lookup c = none := by
  cases h with
  | refl => rfl
  | object columns fields => exact columns c

theorem Row.Same.lookup {a b : Row} (h : a.Same b) {c : String} {v w : Value} (hv : a.lookup c = some v)
    (hw : b.lookup c = some w) : v.Same w := by
  cases h with
  | refl =>
    rw [hv] at hw
    cases hw
    exact .refl v
  | object columns fields => exact fields c v w hv hw

theorem Value.Same.symm {v w : Value} (h : v.Same w) : w.Same v := by
  induction h with
  | refl v => exact .refl v
  | list length items ih => exact .list length.symm fun i v w hv hw => ih i w v hw hv
  | object columns fields ih => exact .object (fun c => (columns c).symm) fun c v w hv hw => ih c w v hw hv

theorem Value.Same.trans {u v w : Value} (h : u.Same v) (h' : v.Same w) : u.Same w := by
  induction h generalizing w with
  | refl => exact h'
  | @list vs ws length items ih =>
    cases h' with
    | refl => exact .list length items
    | @list _ us length' items' =>
      refine .list (length.trans length') fun i x z hx hz => ?_
      have hi : i < ws.length := by
        have := (List.getElem?_eq_some_iff.mp hx).1
        omega
      exact ih i x ws[i] hx (List.getElem?_eq_getElem hi) (items' i ws[i] z (List.getElem?_eq_getElem hi) hz)
  | @object a b columns fields ih =>
    cases h' with
    | refl => exact .object columns fields
    | object columns' fields' =>
      refine .object (fun c => (columns c).trans (columns' c)) fun c x z hx hz => ?_
      cases hy : b.lookup c with
      | none => simp [(columns c).mpr hy] at hx
      | some y => exact ih c x y hx hy (fields' c y z hy hz)

theorem Row.Same.of_lookup {a b : Row} (h : ∀ c, a.lookup c = b.lookup c) : a.Same b := by
  refine .object (fun c => by rw [h c]) fun c v w hv hw => ?_
  rw [h c, hw] at hv
  cases hv
  exact .refl _

/-- Rows are the same if every column looks the same in both. -/
theorem Row.Same.of_columns {a b : Row}
    (h : ∀ c, a.lookup c = b.lookup c ∨ ∃ v w, a.lookup c = some v ∧ b.lookup c = some w ∧ v.Same w) : a.Same b := by
  refine .object (fun c => ?_) fun c v w hv hw => ?_
  · rcases h c with heq | ⟨v, w, hv, hw, -⟩
    · rw [heq]
    · simp [hv, hw]
  · rcases h c with heq | ⟨v', w', hv', hw', hsame⟩
    · rw [heq, hw] at hv
      cases hv
      exact .refl _
    · rw [hv'] at hv
      rw [hw'] at hw
      cases hv
      cases hw
      exact hsame

theorem Value.Same.list_of_forall₂ {vs ws : List Value} (h : List.Forall₂ Value.Same vs ws) :
    Value.Same (.list vs) (.list ws) := by
  refine .list h.length_eq fun i v w hv hw => ?_
  obtain ⟨hi, rfl⟩ := List.getElem?_eq_some_iff.mp hv
  obtain ⟨hi', rfl⟩ := List.getElem?_eq_some_iff.mp hw
  exact h.get hi hi'

namespace Row.Same

variable {a b : Row} {c : String} {v w : Value}

theorem set (h : a.Same b) (hv : v.Same w) : Row.Same (a.set c v) (b.set c w) := by
  refine .object (fun d => ?_) fun d x y hx hy => ?_
  · by_cases hd : d = c
    · subst hd
      simp [lookup_set_self]
    · rw [lookup_set_of_ne hd, lookup_set_of_ne hd, h.isNone_iff d]
  · by_cases hd : d = c
    · subst hd
      rw [lookup_set_self] at hx hy
      cases hx
      cases hy
      exact hv
    · rw [lookup_set_of_ne hd] at hx hy
      exact h.lookup hx hy

theorem keep (h : a.Same b) (p : String → Bool) : Row.Same (a.keep p) (b.keep p) := by
  refine .object (fun d => ?_) fun d x y hx hy => ?_
  · rw [lookup_keep, lookup_keep]
    by_cases hp : p d = true
    · simpa [hp] using h.isNone_iff d
    · simp [hp]
  · rw [lookup_keep] at hx hy
    by_cases hp : p d = true
    · rw [if_pos hp] at hx hy
      exact h.lookup hx hy
    · simp [hp] at hx

theorem setAll (h : a.Same b) (es : List (String × Value)) : Row.Same (a.setAll es) (b.setAll es) := by
  induction es generalizing a b with
  | nil => exact h
  | cons e es ih => exact ih (h.set (.refl e.2))

/-- A value that is overwritten later may be left out. -/
theorem setAll_set {es : List (String × Value)} (hc : c ∈ es.map Prod.fst) :
    Row.Same ((a.set c v).setAll es) (a.setAll es) := by
  induction es generalizing a with
  | nil => simp at hc
  | cons e es ih =>
    rw [setAll_cons, setAll_cons]
    by_cases h : c = e.1
    · rw [← h, set_set]
      exact .refl _
    · have hc' : c ∈ es.map Prod.fst := by
        simp only [List.map_cons, List.mem_cons] at hc
        exact hc.resolve_left h
      have hswap : Row.Same ((a.set c v).set e.1 e.2) ((a.set e.1 e.2).set c v) := by
        refine of_lookup fun d => ?_
        by_cases hd : d = e.1
        · subst hd
          rw [lookup_set_self, lookup_set_of_ne (Ne.symm h), lookup_set_self]
        · by_cases hd' : d = c
          · subst hd'
            rw [lookup_set_of_ne hd, lookup_set_self, lookup_set_self]
          · rw [lookup_set_of_ne hd, lookup_set_of_ne hd', lookup_set_of_ne hd', lookup_set_of_ne hd]
      exact (hswap.setAll es).trans (ih hc')

end Row.Same

/-! ## Keys -/

theorem Row.spelling_set {row : Row} {c : String} {v : Value} {columns : List String} (h : c ∉ columns) :
    (row.set c v).spelling columns = row.spelling columns := by
  refine List.map_congr_left fun d hd => ?_
  exact Row.get_set_of_ne fun hdc => h (hdc ▸ hd)

end RelatedRows

import RelatedRows.Proofs.UniqueKeys

/-!
# Merged orderings

A term of an ordering decides nothing where an earlier term has compared the same column, so merging orderings is
putting one behind the other.

* `firstTerms_append`, `OrderBy.merge_same`: merging, ordering by ordering.
* `compareBy_append`, `compareBy_merge`: rows compared by several orderings, one after the other.
* `compareBy_ascending_congr`: of key columns, a comparison sees what keys are compared by.
* `Memory.sorted_found`: what a query finds stands in the order of the query.
-/

namespace RelatedRows

/-! ## One ordering behind another -/

theorem firstTerms_congr {seen seen' : List String} (h : ∀ c, c ∈ seen ↔ c ∈ seen') (o : OrderBy) :
    firstTerms seen o = firstTerms seen' o := by
  induction o generalizing seen seen' with
  | nil => rfl
  | cons t o ih =>
    obtain ⟨c, d⟩ := t
    have hcontains : seen.contains c = seen'.contains c := by
      rw [Bool.eq_iff_iff, List.contains_iff_mem, List.contains_iff_mem, h]
    have hcons : ∀ x, x ∈ c :: seen ↔ x ∈ c :: seen' := fun x => by rw [List.mem_cons, List.mem_cons, h]
    rw [firstTerms, firstTerms, hcontains, ih h, ih hcons]

theorem firstTerms_append (seen : List String) (o o' : OrderBy) :
    firstTerms seen (o ++ o') = firstTerms seen o ++ firstTerms (o.map Prod.fst ++ seen) o' := by
  induction o generalizing seen with
  | nil => rfl
  | cons t o ih =>
    obtain ⟨c, d⟩ := t
    rw [List.cons_append, firstTerms, firstTerms]
    by_cases hc : c ∈ seen
    · have hsame : firstTerms (((c, d) :: o).map Prod.fst ++ seen) o' = firstTerms (o.map Prod.fst ++ seen) o' :=
        firstTerms_congr (fun x => by simp only [List.map_cons, List.mem_append, List.mem_cons]; grind) o'
      rw [if_pos (by simpa using hc), if_pos (by simpa using hc), ih, hsame]
    · have hsame : firstTerms (((c, d) :: o).map Prod.fst ++ seen) o' = firstTerms (o.map Prod.fst ++ c :: seen) o' :=
        firstTerms_congr (fun x => by simp only [List.map_cons, List.mem_append, List.mem_cons]; grind) o'
      rw [if_neg (by simpa using hc), if_neg (by simpa using hc), ih, hsame, List.cons_append]

/-- Terms that repeat columns leave nothing. -/
theorem firstTerms_eq_nil {seen : List String} {o : OrderBy} (h : ∀ t ∈ o, t.1 ∈ seen) : firstTerms seen o = [] := by
  induction o with
  | nil => rfl
  | cons t o ih =>
    obtain ⟨c, d⟩ := t
    have hc : c ∈ seen := h (c, d) List.mem_cons_self
    rw [firstTerms, if_pos (by simpa using hc)]
    exact ih fun t ht => h t (List.mem_cons_of_mem _ ht)

/-- What comes twice is merged into what comes once. -/
theorem OrderBy.merge_same (o : OrderBy) : OrderBy.merge [o, o] = OrderBy.merge [[], o] := by
  simp only [merge, List.flatten_cons, List.flatten_nil, List.append_nil, List.nil_append]
  rw [firstTerms_append, firstTerms_eq_nil fun t ht => List.mem_append_left _ (List.mem_map_of_mem ht), List.append_nil]

theorem compareBy_append (o o' : OrderBy) (a b : Row) :
    compareBy (o ++ o') a b = (compareBy o a b).then (compareBy o' a b) := by
  induction o with
  | nil => rfl
  | cons t o ih => rw [List.cons_append, compareBy, compareBy, ih, Ordering.then_assoc]

/-- Terms are left out where rows tie in their columns. -/
theorem compareBy_firstTerms {seen : List String} {a b : Row} (h : ∀ c ∈ seen, (a.get c).compare (b.get c) = .eq)
    (o : OrderBy) : compareBy (firstTerms seen o) a b = compareBy o a b := by
  induction o generalizing seen with
  | nil => rfl
  | cons t o ih =>
    obtain ⟨c, d⟩ := t
    rw [firstTerms, compareBy]
    by_cases hc : c ∈ seen
    · have htie : compareTerm (c, d) a b = .eq := compareTerm_eq_iff.mpr (h c hc)
      rw [if_pos (by simpa using hc), ih h, htie, Ordering.eq_then]
    · rw [if_neg (by simpa using hc), compareBy]
      -- the term decides, or the rows tie in its column, too
      cases hterm : compareTerm (c, d) a b with
      | lt => rfl
      | gt => rfl
      | eq =>
        rw [Ordering.eq_then, Ordering.eq_then]
        refine ih fun x hx => ?_
        rcases List.mem_cons.mp hx with rfl | hx
        · exact compareTerm_eq_iff.mp hterm
        · exact h x hx

/-- Comparing by a merged ordering is comparing by its orderings, one after the other. -/
theorem compareBy_merge (os : List OrderBy) : compareBy (OrderBy.merge os) = compareBy os.flatten := by
  funext a b
  exact compareBy_firstTerms (by simp) _

/-! ## Comparing by keys -/

theorem compareTerm_asc (c : String) (a b : Row) : compareTerm (c, .asc) a b = (a.get c).compare (b.get c) := by
  have h : Direction.asc.isDescending = false := by decide
  simp [compareTerm, h]

/-- Plain values that are the same key values compare alike. -/
theorem Value.compare_congr {v v' w w' : Value} (hv : v.isPlain = true) (hv' : v'.isPlain = true)
    (hw : w.isPlain = true) (hw' : w'.isPlain = true) (h : v.atomOf = v'.atomOf) (h' : w.atomOf = w'.atomOf) :
    v.compare w = v'.compare w' :=
  calc v.compare w = v'.compare w := Std.TransCmp.congr_left ((compare_eq_iff hv hv').mpr h)
    _ = v'.compare w' := Std.TransCmp.congr_right ((compare_eq_iff hw hw').mpr h')

/-- Rows with the same keys compare alike by them, whatever the key columns are called. -/
theorem compareBy_ascending_congr {columns columns' : List String} {a a' b b' : Row}
    (ha : a.AllAt Value.isPlain columns) (ha' : a'.AllAt Value.isPlain columns') (hb : b.AllAt Value.isPlain columns)
    (hb' : b'.AllAt Value.isPlain columns') (h : a.atoms columns = a'.atoms columns')
    (h' : b.atoms columns = b'.atoms columns') :
    compareBy (ascending columns) a b = compareBy (ascending columns') a' b' := by
  induction columns generalizing columns' with
  | nil =>
    obtain rfl : columns' = [] := by simpa [Row.atoms, Row.spelling] using h.symm
    rfl
  | cons c columns ih =>
    cases columns' with
    | nil => simp [Row.atoms, Row.spelling] at h
    | cons c' columns' =>
      simp only [Row.atoms, Row.spelling, List.map_cons, List.cons.injEq] at h h'
      have hhead : (a.get c).compare (b.get c) = (a'.get c').compare (b'.get c') :=
        Value.compare_congr (ha c List.mem_cons_self) (ha' c' List.mem_cons_self) (hb c List.mem_cons_self)
          (hb' c' List.mem_cons_self) h.1 h'.1
      have htail : compareBy (ascending columns) a b = compareBy (ascending columns') a' b' :=
        ih (fun d hd => ha d (List.mem_cons_of_mem _ hd)) (fun d hd => ha' d (List.mem_cons_of_mem _ hd))
          (fun d hd => hb d (List.mem_cons_of_mem _ hd)) (fun d hd => hb' d (List.mem_cons_of_mem _ hd)) h.2 h'.2
      show (compareTerm (c, .asc) a b).then (compareBy (ascending columns) a b) =
        (compareTerm (c', .asc) a' b').then (compareBy (ascending columns') a' b')
      rw [compareTerm_asc, compareTerm_asc, hhead, htail]

theorem compareBy_ascending_eq_iff {columns : List String} {a b : Row} (ha : a.AllAt Value.isPlain columns)
    (hb : b.AllAt Value.isPlain columns) :
    compareBy (ascending columns) a b = .eq ↔ a.atoms columns = b.atoms columns := by
  rw [Row.atoms_eq_iff ha hb, compareBy_eq_iff]
  simp [ascending]

/-! ## Found rows in order -/

theorem compareBy_congr {o : OrderBy} {a a' b b' : Row} (ha : ∀ t ∈ o, a.get t.1 = a'.get t.1)
    (hb : ∀ t ∈ o, b.get t.1 = b'.get t.1) : compareBy o a b = compareBy o a' b' := by
  induction o with
  | nil => rfl
  | cons t o ih =>
    have hterm : compareTerm t a b = compareTerm t a' b' := by
      rw [compareTerm, compareTerm, ha t List.mem_cons_self, hb t List.mem_cons_self]
    rw [compareBy, compareBy, hterm, ih (fun u hu => ha u (List.mem_cons_of_mem _ hu))
      fun u hu => hb u (List.mem_cons_of_mem _ hu)]

/-- Rows that are found with the columns that they are ordered by stand in this order. -/
theorem Memory.sorted_found {m : Memory} {q : BatchQuery}
    (h : ∀ t ∈ q.ordering, ∀ row, (project q.columns row).get t.1 = row.get t.1) :
    (m.found q).Pairwise (precedes q.ordering · ·) := by
  have hsorted : (sortRows q.ordering (m.rowsOf q.table)).Pairwise (precedes q.ordering · ·) :=
    pairwise_stableSort (precedes_total q.ordering) (fun _ _ _ => precedes_trans) _
  rw [found, List.pairwise_map]
  refine (hsorted.sublist List.filter_sublist).imp fun {a b} hab => ?_
  rwa [precedes, compareBy_congr (fun t ht => h t ht a) fun t ht => h t ht b]

end RelatedRows

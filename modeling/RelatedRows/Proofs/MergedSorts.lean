import RelatedRows.Proofs.KeyBatches
import RelatedRows.Proofs.Orderings

/-!
# Sorting by merged orderings

A list has one stable sort by a total preorder, so a merged ordering sorts rows as its orderings do, one behind the
other.

* `IsStableSort le as bs`: `bs` are the elements of `as` in the order `le`, with ties in their old order.
* `isStableSort_iff`: there is one such list.
* `map_fst_firstTerms`, `lookup_firstTerms`: the columns of a merged ordering and their directions.
* `OrderBy.merge_part`: orderings may be merged beforehand.
* `sortRows_merge`: what merging does to a sort and to the terms.
-/

namespace RelatedRows

/-! ## Stable sorts -/

section StableSort

variable {α : Type} {le : α → α → Bool}

/-- Whether two elements may stand in either order. -/
def ties (le : α → α → Bool) (a b : α) : Bool :=
  le a b && le b a

structure IsStableSort (le : α → α → Bool) (as bs : List α) : Prop where
  perm : bs.Perm as
  sorted : bs.Pairwise (le · ·)
  stable : ∀ a, bs.filter (ties le a) = as.filter (ties le a)

section Preorder

variable (total : ∀ a b, le a b = true ∨ le b a = true)
  (trans : ∀ a b c, le a b = true → le b c = true → le a c = true)

include total trans

theorem isStableSort_stableSort (as : List α) : IsStableSort le as (stableSort le as) where
  perm := perm_stableSort le as
  sorted := pairwise_stableSort total trans as
  stable a := by
    rw [filter_stableSort total trans]
    refine stableSort_of_pairwise (List.pairwise_of_forall_mem_list fun b hb c hc => ?_)
    have hba : le b a = true := (Bool.and_eq_true_iff.mp (List.mem_filter.mp hb).2).2
    have hac : le a c = true := (Bool.and_eq_true_iff.mp (List.mem_filter.mp hc).2).1
    exact trans b a c hba hac

omit trans in
theorem ties_self (a : α) : ties le a a = true := by
  have h : le a a = true := (total a a).elim id id
  rw [ties, h, Bool.and_self]

omit trans in
theorem mem_iff_of_ties {bs cs : List α} (h : ∀ a, bs.filter (ties le a) = cs.filter (ties le a)) (a : α) :
    a ∈ bs ↔ a ∈ cs := by
  have hself := ties_self total a
  calc a ∈ bs ↔ a ∈ bs.filter (ties le a) := by simp [hself]
    _ ↔ a ∈ cs := by rw [h a]; simp [hself]

omit trans in
/-- Sorted lists that agree on ties are the same. -/
theorem eq_of_sorted {bs cs : List α} (hb : bs.Pairwise (le · ·)) (hc : cs.Pairwise (le · ·))
    (h : ∀ a, bs.filter (ties le a) = cs.filter (ties le a)) : bs = cs := by
  have hmem := mem_iff_of_ties total h
  induction bs generalizing cs with
  | nil => exact (List.eq_nil_iff_forall_not_mem.mpr fun a ha => List.not_mem_nil ((hmem a).mpr ha)).symm
  | cons b bs ih =>
    cases cs with
    | nil => exact absurd ((hmem b).mp List.mem_cons_self) List.not_mem_nil
    | cons c cs =>
      -- each head comes before the other one
      have first {x y : α} {xs : List α} (hs : (x :: xs).Pairwise (le · ·)) (hy : y ∈ x :: xs) : le x y = true := by
        rcases List.mem_cons.mp hy with rfl | hy
        · exact (total y y).elim id id
        · exact List.rel_of_pairwise_cons hs hy
      have htie : ties le b c = true := by
        rw [ties, first hb ((hmem c).mpr List.mem_cons_self), first hc ((hmem b).mp List.mem_cons_self), Bool.and_self]
      have heads := h b
      rw [List.filter_cons_of_pos (ties_self total b), List.filter_cons_of_pos htie] at heads
      obtain rfl : b = c := (List.cons.inj heads).1
      have tails : ∀ a, bs.filter (ties le a) = cs.filter (ties le a) := fun a => by
        have ha := h a
        rw [List.filter_cons, List.filter_cons] at ha
        split at ha
        · exact (List.cons.inj ha).2
        · exact ha
      rw [ih hb.of_cons hc.of_cons tails (mem_iff_of_ties total tails)]

/-- Any way to sort stably comes to the same list. -/
theorem isStableSort_iff {as bs : List α} : IsStableSort le as bs ↔ bs = stableSort le as := by
  have hsort := isStableSort_stableSort total trans as
  refine ⟨fun h => eq_of_sorted total h.sorted hsort.sorted fun a => ?_, ?_⟩
  · rw [h.stable, hsort.stable]
  · rintro rfl
    exact hsort

end Preorder

end StableSort

/-! ## The terms of a merged ordering -/

theorem firstTerms_sublist (seen : List String) (o : OrderBy) : (firstTerms seen o).Sublist o := by
  induction o generalizing seen with
  | nil => exact .slnil
  | cons t o ih =>
    obtain ⟨c, d⟩ := t
    rw [firstTerms]
    split
    · exact (ih seen).cons _
    · exact (ih _).cons_cons _

/-- The columns stand where they come first. -/
theorem map_fst_firstTerms (seen : List String) (o : OrderBy) :
    (firstTerms seen o).map Prod.fst = ((o.map Prod.fst).filter fun c => !seen.contains c).eraseDups := by
  induction o generalizing seen with
  | nil => rfl
  | cons t o ih =>
    obtain ⟨c, d⟩ := t
    rw [firstTerms, List.map_cons]
    by_cases hc : seen.contains c = true
    · rw [if_pos hc, ih, List.filter_cons_of_neg (by simpa using hc)]
    · rw [if_neg hc, List.filter_cons_of_pos (by simpa using hc), List.eraseDups_cons, List.map_cons, ih,
        List.filter_filter]
      congr 2
      refine List.filter_congr fun x _ => ?_
      simp [Bool.beq_eq_decide_eq]

/-- A column has the direction that it comes with first. -/
theorem lookup_firstTerms (seen : List String) (o : OrderBy) (c : String) :
    (firstTerms seen o).lookup c = if c ∈ seen then none else o.lookup c := by
  induction o generalizing seen with
  | nil => simp [firstTerms]
  | cons t o ih =>
    obtain ⟨c', d⟩ := t
    rw [firstTerms]
    by_cases hc : c = c'
    · subst hc
      by_cases hs : c ∈ seen
      · rw [if_pos (by simpa using hs), ih, if_pos hs, if_pos hs]
      · rw [if_neg (by simpa using hs), if_neg hs, List.lookup_cons_self, List.lookup_cons_self]
    · have hlookup (rest : OrderBy) : ((c', d) :: rest).lookup c = rest.lookup c := by
        rw [List.lookup_cons, beq_eq_false_iff_ne.mpr hc]
      split
      · rw [ih, hlookup]
      · rw [hlookup, hlookup, ih]
        simp [hc]

/-! ## Merging in parts -/

/-- What leaves out fewer columns beforehand leaves nothing out for good. -/
theorem firstTerms_firstTerms {seen seen' : List String} (h : seen' ⊆ seen) (o : OrderBy) :
    firstTerms seen (firstTerms seen' o) = firstTerms seen o := by
  induction o generalizing seen seen' with
  | nil => rfl
  | cons t o ih =>
    obtain ⟨c, d⟩ := t
    rw [firstTerms, firstTerms]
    by_cases hc : c ∈ seen
    · by_cases hc' : c ∈ seen'
      · rw [if_pos (by simpa using hc'), if_pos (by simpa using hc), ih h]
      · rw [if_neg (by simpa using hc'), if_pos (by simpa using hc), firstTerms, if_pos (by simpa using hc),
          ih (List.cons_subset.mpr ⟨hc, h⟩)]
    · rw [if_neg (by simpa using fun hc' => hc (h hc')), if_neg (by simpa using hc), firstTerms,
        if_neg (by simpa using hc), ih (List.cons_subset_cons c h)]

/-- Orderings may be merged beforehand, wherever they stand. -/
theorem OrderBy.merge_part (front os rest : List OrderBy) :
    merge (front ++ merge os :: rest) = merge (front ++ os ++ rest) := by
  have hseen : ∀ c, c ∈ (firstTerms [] os.flatten).map Prod.fst ++ (front.flatten.map Prod.fst ++ []) ↔
      c ∈ os.flatten.map Prod.fst ++ (front.flatten.map Prod.fst ++ []) := fun c => by
    rw [List.mem_append, List.mem_append, mem_firstTerms]
    simp
  simp only [merge, List.flatten_append, List.flatten_cons, List.append_assoc]
  rw [firstTerms_append, firstTerms_append, firstTerms_append, firstTerms_append,
    firstTerms_firstTerms (List.nil_subset _), firstTerms_congr hseen]

/-- A merged ordering sorts rows as its orderings do, one behind the other, whichever stable sort is used.  It has each
column once, at its first place and with the direction that it has there, and orderings may be merged in any parts. -/
theorem sortRows_merge (os : List OrderBy) :
    (∀ rows sorted : List Row,
      IsStableSort (precedes os.flatten) rows sorted ↔ sorted = sortRows (OrderBy.merge os) rows) ∧
    (∀ rows, sortRows (OrderBy.merge os) rows = sortRows os.flatten rows) ∧
    (OrderBy.merge os).Sublist os.flatten ∧
    (OrderBy.merge os).map Prod.fst = (os.flatten.map Prod.fst).eraseDups ∧
    ((OrderBy.merge os).map Prod.fst).Nodup ∧
    (∀ c, (OrderBy.merge os).lookup c = os.flatten.lookup c) ∧
    (∀ front rest, OrderBy.merge (front ++ OrderBy.merge os :: rest) = OrderBy.merge (front ++ os ++ rest)) ∧
    (∀ a b c, OrderBy.merge [OrderBy.merge [a, b], c] = OrderBy.merge [a, b, c] ∧
      OrderBy.merge [a, b, c] = OrderBy.merge [a, OrderBy.merge [b, c]]) ∧
    OrderBy.merge [OrderBy.merge os] = OrderBy.merge os ∧ OrderBy.merge (os ++ os) = OrderBy.merge os := by
  have hprecedes : precedes (OrderBy.merge os) = precedes os.flatten := by
    funext a b
    rw [precedes, precedes, compareBy_merge]
  have hcolumns : (OrderBy.merge os).map Prod.fst = (os.flatten.map Prod.fst).eraseDups := by
    rw [OrderBy.merge, map_fst_firstTerms, List.filter_eq_self.mpr (by simp)]
  refine ⟨fun rows sorted => ?_, fun rows => by rw [sortRows, sortRows, hprecedes], firstTerms_sublist [] _, hcolumns,
    hcolumns ▸ nodup_eraseDups _, fun c => ?_, fun front rest => OrderBy.merge_part front os rest,
    fun a b c => ⟨OrderBy.merge_part [] [a, b] [c], (OrderBy.merge_part [a] [b, c] []).symm⟩, ?_, ?_⟩
  · rw [sortRows, hprecedes]
    exact isStableSort_iff (precedes_total _) fun _ _ _ => precedes_trans
  · rw [OrderBy.merge, lookup_firstTerms, if_neg List.not_mem_nil]
  · simpa using OrderBy.merge_part [] os []
  · rw [OrderBy.merge, List.flatten_append, firstTerms_append,
      firstTerms_eq_nil fun t ht => List.mem_append_left _ (List.mem_map_of_mem ht), List.append_nil, OrderBy.merge]

end RelatedRows

import Mathlib.Data.List.Basic
import RelatedRows.Store.Memory

/-!
# Sorting and filtering

The comparison of stored values is a preorder, and so is the comparison of rows by an ordering.  A stable sort by a
preorder commutes with filtering, so what a query finds of a part of a table is the part of what it finds of the whole.

* `filter_stableSort`, `filter_sortRows`: sorting and then filtering is filtering and then sorting.
* `stableSort_map`, `stableSort_congr`: a sort sees of the elements only what it compares.
* `Query.evaluate_batch`: a batch query as a filter of the sorted table.
-/

namespace RelatedRows

/-! ## Comparisons -/

namespace DyadicFraction

theorem isLE_compare {a b : DyadicFraction} :
    (a.compare b).isLE = true ↔ a.numerator * Int.pow 2 b.scale ≤ b.numerator * Int.pow 2 a.scale := by
  rw [compare, Std.isLE_compare]

instance : Std.TransCmp compare where
  eq_swap := Std.OrientedOrd.eq_swap
  isLE_trans := by
    intro a b c hab hbc
    rw [isLE_compare] at *
    have pos (n : Nat) : (0 : Int) < Int.pow 2 n := Int.pow_pos (by decide)
    refine Int.le_of_mul_le_mul_right ?_ (pos b.scale)
    calc a.numerator * Int.pow 2 c.scale * Int.pow 2 b.scale
        = a.numerator * Int.pow 2 b.scale * Int.pow 2 c.scale := Int.mul_right_comm ..
      _ ≤ b.numerator * Int.pow 2 a.scale * Int.pow 2 c.scale :=
        Int.mul_le_mul_of_nonneg_right hab (Int.le_of_lt (pos c.scale))
      _ = b.numerator * Int.pow 2 c.scale * Int.pow 2 a.scale := Int.mul_right_comm ..
      _ ≤ c.numerator * Int.pow 2 b.scale * Int.pow 2 a.scale :=
        Int.mul_le_mul_of_nonneg_right hbc (Int.le_of_lt (pos a.scale))
      _ = c.numerator * Int.pow 2 a.scale * Int.pow 2 b.scale := Int.mul_right_comm ..

end DyadicFraction

namespace Place

/-- The fraction at a place on the line; the other places have none to tell them apart by. -/
def fraction : Place → DyadicFraction
  | .at x => x
  | _ => ⟨0, 0⟩

/-- The object that is nowhere; what is somewhere needs none to be told apart by. -/
def object : Place → Nat
  | .nowhere object => object
  | _ => 0

theorem compare_eq : compare =
    compareLex (compareOn rank) (compareLex (fun a b => a.fraction.compare b.fraction) (compareOn object)) := by
  funext a b
  cases a <;> cases b <;>
    simp [compare, compareLex, compareOn, rank, fraction, object, DyadicFraction.compare_self] <;> rfl

instance : Std.TransCmp compare := by
  rw [compare_eq]
  have : Std.TransCmp fun a b : Place => a.fraction.compare b.fraction :=
    { eq_swap := Std.OrientedCmp.eq_swap, isLE_trans := Std.TransCmp.isLE_trans }
  infer_instance

end Place

namespace Value

/-- The truth value, the place or the text of a value; it has at most one of them. -/
def truth : Value → Nat
  | .bool b => b.toNat
  | _ => 0

def place : Value → Place
  | .number n => n.place
  | _ => .nowhere 0

def letters : Value → String
  | .text s => s
  | _ => ""

theorem compare_eq : compare =
    compareLex (compareOn rank)
      (compareLex (compareOn truth) (compareLex (fun v w => v.place.compare w.place) (compareOn letters))) := by
  funext v w
  cases v <;> cases w <;> simp [compare, compareLex, compareOn, rank, truth, place, letters, Place.compare] <;> rfl

instance : Std.TransCmp compare := by
  rw [compare_eq]
  have : Std.TransCmp fun v w : Value => v.place.compare w.place :=
    { eq_swap := Std.OrientedCmp.eq_swap, isLE_trans := Std.TransCmp.isLE_trans }
  infer_instance

end Value

instance (t : String × Direction) : Std.TransCmp (compareTerm t) := by
  have ascending : Std.TransCmp fun a b : Row => (a.get t.1).compare (b.get t.1) :=
    { eq_swap := Std.OrientedCmp.eq_swap, isLE_trans := Std.TransCmp.isLE_trans }
  by_cases h : t.2.isDescending = true
  · have hswap : compareTerm t = fun a b => (b.get t.1).compare (a.get t.1) := by
      funext a b
      simp only [compareTerm, h, if_true]
      exact Std.OrientedCmp.eq_swap.symm
    rw [hswap]
    exact Std.TransCmp.opposite
  · have hsame : compareTerm t = fun a b => (a.get t.1).compare (b.get t.1) := by
      funext a b
      simp [compareTerm, h]
    rw [hsame]
    exact ascending

theorem transCmp_compareBy (o : OrderBy) : Std.TransCmp (compareBy o) := by
  induction o with
  | nil => exact { eq_swap := rfl, isLE_trans := fun _ _ => rfl }
  | cons t ts ih =>
    have h : compareBy (t :: ts) = compareLex (compareTerm t) (compareBy ts) := rfl
    rw [h]
    infer_instance

theorem precedes_total (o : OrderBy) (a b : Row) : precedes o a b = true ∨ precedes o b a = true := by
  have := transCmp_compareBy o
  have hswap : compareBy o b a = (compareBy o a b).swap := Std.OrientedCmp.eq_swap
  unfold precedes
  rw [hswap]
  cases compareBy o a b <;> simp

theorem precedes_trans {o : OrderBy} {a b c : Row} (hab : precedes o a b = true) (hbc : precedes o b c = true) :
    precedes o a c = true := by
  have := transCmp_compareBy o
  have h : (compareBy o a c).isLE = true := by
    refine Std.TransCmp.isLE_trans (b := b) ?_ ?_
    · cases hc : compareBy o a b <;> simp [precedes, hc] at hab ⊢
    · cases hc : compareBy o b c <;> simp [precedes, hc] at hbc ⊢
  cases hc : compareBy o a c <;> simp [precedes, hc] at h ⊢

/-! ## Stable sorts -/

section StableSort

variable {α β : Type} {le : α → α → Bool}

theorem insertSorted_of_le {a : α} {bs : List α} (h : ∀ b ∈ bs, le a b = true) : insertSorted le a bs = a :: bs := by
  cases bs with
  | nil => rfl
  | cons b bs => rw [insertSorted, if_pos (h b List.mem_cons_self)]

theorem pairwise_insertSorted (total : ∀ a b, le a b = true ∨ le b a = true)
    (trans : ∀ a b c, le a b = true → le b c = true → le a c = true) {bs : List α}
    (h : bs.Pairwise (le · ·)) (a : α) : (insertSorted le a bs).Pairwise (le · ·) := by
  induction bs with
  | nil => simp [insertSorted]
  | cons b bs ih =>
    rw [List.pairwise_cons] at h
    by_cases hab : le a b = true
    · rw [insertSorted, if_pos hab, List.pairwise_cons]
      refine ⟨fun x hx => ?_, List.pairwise_cons.mpr h⟩
      rcases List.mem_cons.mp hx with rfl | hx
      · exact hab
      · exact trans a b x hab (h.1 x hx)
    · rw [insertSorted, if_neg hab, List.pairwise_cons]
      refine ⟨fun x hx => ?_, ih h.2⟩
      rcases mem_insertSorted.mp hx with rfl | hx
      · exact (total x b).resolve_left hab
      · exact h.1 x hx

theorem pairwise_stableSort (total : ∀ a b, le a b = true ∨ le b a = true)
    (trans : ∀ a b c, le a b = true → le b c = true → le a c = true) (as : List α) :
    (stableSort le as).Pairwise (le · ·) := by
  induction as with
  | nil => exact .nil
  | cons a as ih => exact pairwise_insertSorted total trans ih a

/-- What is sorted already stays as it is. -/
theorem stableSort_of_pairwise {as : List α} (h : as.Pairwise (le · ·)) : stableSort le as = as := by
  induction as with
  | nil => rfl
  | cons a as ih =>
    rw [List.pairwise_cons] at h
    rw [stableSort, ih h.2, insertSorted_of_le h.1]

theorem filter_insertSorted (trans : ∀ a b c, le a b = true → le b c = true → le a c = true) (p : α → Bool)
    {bs : List α} (h : bs.Pairwise (le · ·)) (a : α) :
    (insertSorted le a bs).filter p = if p a = true then insertSorted le a (bs.filter p) else bs.filter p := by
  induction bs with
  | nil => simp [insertSorted, List.filter_cons]
  | cons b bs ih =>
    rw [List.pairwise_cons] at h
    by_cases hab : le a b = true
    · have hle : ∀ x ∈ (b :: bs).filter p, le a x = true := by
        intro x hx
        rcases List.mem_cons.mp (List.mem_filter.mp hx).1 with rfl | hx
        · exact hab
        · exact trans a b x hab (h.1 x hx)
      rw [insertSorted, if_pos hab, List.filter_cons, insertSorted_of_le hle]
    · rw [insertSorted, if_neg hab, List.filter_cons, List.filter_cons, ih h.2]
      by_cases hb : p b = true
      · by_cases ha : p a = true
        · simp [ha, hb, insertSorted, hab]
        · simp [ha, hb]
      · simp [hb]

/-- Sorting a part of a list yields the part of the sorted list. -/
theorem filter_stableSort (total : ∀ a b, le a b = true ∨ le b a = true)
    (trans : ∀ a b c, le a b = true → le b c = true → le a c = true) (p : α → Bool) (as : List α) :
    (stableSort le as).filter p = stableSort le (as.filter p) := by
  induction as with
  | nil => rfl
  | cons a as ih =>
    rw [stableSort, filter_insertSorted trans p (pairwise_stableSort total trans as), ih, List.filter_cons]
    by_cases ha : p a = true
    · rw [if_pos ha, if_pos ha, stableSort]
    · rw [if_neg ha, if_neg ha]

theorem insertSorted_map (f : β → α) (b : β) (bs : List β) :
    insertSorted le (f b) (bs.map f) = (insertSorted (fun x y => le (f x) (f y)) b bs).map f := by
  induction bs with
  | nil => rfl
  | cons c bs ih =>
    by_cases h : le (f b) (f c) = true
    · simp [insertSorted, h]
    · simp [insertSorted, h, ih]

theorem stableSort_map (f : β → α) (bs : List β) :
    stableSort le (bs.map f) = (stableSort (fun x y => le (f x) (f y)) bs).map f := by
  induction bs with
  | nil => rfl
  | cons b bs ih => rw [List.map_cons, stableSort, ih, insertSorted_map, stableSort]

theorem insertSorted_congr {le' : α → α → Bool} {a : α} {bs : List α} (h : ∀ b ∈ bs, le a b = le' a b) :
    insertSorted le a bs = insertSorted le' a bs := by
  induction bs with
  | nil => rfl
  | cons b bs ih =>
    rw [insertSorted, insertSorted, h b List.mem_cons_self, ih fun x hx => h x (List.mem_cons_of_mem _ hx)]

theorem stableSort_congr {le' : α → α → Bool} {as : List α} (h : ∀ a ∈ as, ∀ b ∈ as, le a b = le' a b) :
    stableSort le as = stableSort le' as := by
  induction as with
  | nil => rfl
  | cons a as ih =>
    have hrest := ih fun x hx y hy => h x (List.mem_cons_of_mem _ hx) y (List.mem_cons_of_mem _ hy)
    rw [stableSort, stableSort, hrest]
    refine insertSorted_congr fun b hb => h a List.mem_cons_self b ?_
    exact List.mem_cons_of_mem _ (mem_stableSort.mp hb)

end StableSort

/-! ## Sorted tables -/

theorem sortRows_nil (rows : List Row) : sortRows [] rows = rows := by
  induction rows with
  | nil => rfl
  | cons row rows ih =>
    show insertSorted _ row (sortRows [] rows) = _
    rw [ih]
    exact insertSorted_of_le fun _ _ => rfl

theorem filter_sortRows (o : OrderBy) (p : Row → Bool) (rows : List Row) :
    (sortRows o rows).filter p = sortRows o (rows.filter p) :=
  filter_stableSort (precedes_total o) (fun _ _ _ => precedes_trans) p rows

theorem mem_sortRows {o : OrderBy} {row : Row} {rows : List Row} : row ∈ sortRows o rows ↔ row ∈ rows :=
  mem_stableSort

theorem Query.evaluate_batch (rows : List Row) (q : BatchQuery) :
    (Query.batch q).evaluate rows = ((sortRows q.ordering rows).filter q.selects).map (project q.columns) := by
  rw [Query.evaluate, filter_sortRows]

end RelatedRows

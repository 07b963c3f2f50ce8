import Mathlib.Algebra.Group.Int.Defs
import Mathlib.Data.List.Nodup
import Mathlib.Data.List.Perm.Basic
import RelatedRows.Proofs.Tables

/-!
# Unique keys

Where keys are unique, it does not matter in which order the rows of a table are stored.

* `Value.compare_eq_iff`: plain values compare as equal if they are the same key value.
* `compareBy_merge_eq_iff`: rows tie in a merged ordering if they do in all of its columns.
* `map_sortRows_perm`, `sortRows_perm`: sorting forgets the stored order, up to what the ordering does not see.
* `Memory.KeyedBy`, `Memory.UnsharedKey`: tables with a primary key, and with a key that no two rows share.
* `find?_hasKey_perm`: a row is found by an unshared key in any stored order.
-/

namespace RelatedRows

/-! ## Comparing key values -/

namespace DyadicFraction

def Lowest (x : DyadicFraction) : Prop :=
  x.scale = 0 ∨ x.numerator % 2 = 1

theorem lowest_reduce (m : Int) (scale : Nat) : (reduce m scale).Lowest := by
  induction scale generalizing m with
  | zero => exact .inl rfl
  | succ scale ih =>
    rw [reduce]
    by_cases h : m % 2 = 0
    · rw [if_pos h]
      exact ih _
    · rw [if_neg h]
      exact .inr (by show m % 2 = 1; omega)

theorem lowest_ofScaled (m q : Int) : (ofScaled m q).Lowest := by
  unfold ofScaled
  split
  · exact .inl rfl
  · exact lowest_reduce _ _

/-- The scale of a fraction in lowest terms is the least one, so equal fractions have equal scales. -/
theorem scale_le_of_eq {x y : DyadicFraction} (hy : y.Lowest)
    (h : x.numerator * 2 ^ y.scale = y.numerator * 2 ^ x.scale) : y.scale ≤ x.scale := by
  by_contra hlt
  obtain ⟨d, hd⟩ : ∃ d, y.scale = x.scale + (d + 1) := ⟨y.scale - x.scale - 1, by omega⟩
  have hodd : y.numerator % 2 = 1 := hy.resolve_left (by omega)
  have hpos : (0 : Int) < 2 ^ x.scale := Int.pow_pos (by decide)
  have hnum : x.numerator * 2 ^ (d + 1) = y.numerator := by
    refine Int.eq_of_mul_eq_mul_right (Int.ne_of_gt hpos) ?_
    rw [← h, hd, Int.mul_assoc, ← Int.pow_add, Nat.add_comm (d + 1)]
  have heven : y.numerator = 2 * (x.numerator * 2 ^ d) := by
    rw [← hnum, Int.pow_succ, ← Int.mul_assoc, Int.mul_comm]
  omega

theorem eq_of_compare {x y : DyadicFraction} (hx : x.Lowest) (hy : y.Lowest) (h : x.compare y = .eq) : x = y := by
  have hcross : x.numerator * 2 ^ y.scale = y.numerator * 2 ^ x.scale := Std.LawfulEqOrd.eq_of_compare h
  have hscale : x.scale = y.scale := Nat.le_antisymm (scale_le_of_eq hx hcross.symm) (scale_le_of_eq hy hcross)
  have hpos : (0 : Int) < 2 ^ y.scale := Int.pow_pos (by decide)
  obtain ⟨m, k⟩ := x
  obtain ⟨n, l⟩ := y
  obtain rfl : k = l := hscale
  obtain rfl : m = n := Int.eq_of_mul_eq_mul_right (Int.ne_of_gt hpos) hcross
  rfl

end DyadicFraction

theorem Number.lowest_of_place {n : Number} {x : DyadicFraction} (h : n.place = .at x) : x.Lowest := by
  unfold place at h
  split at h
  · obtain rfl := Place.at.inj h
    exact .inl rfl
  · obtain rfl := Place.at.inj h
    exact DyadicFraction.lowest_ofScaled _ _
  · split at h <;> cases h
  · cases h

theorem Number.place_eq_of_compare {a b : Number} (h : a.place.compare b.place = .eq) : a.place = b.place := by
  cases ha : a.place <;> cases hb : b.place <;> rw [ha, hb] at h
  case at.at x y =>
    have hxy : x.compare y = .eq := h
    rw [DyadicFraction.eq_of_compare (lowest_of_place ha) (lowest_of_place hb) hxy]
  case nowhere.nowhere o p =>
    have hop : Ord.compare o p = .eq := h
    rw [Std.LawfulEqOrd.compare_eq_iff_eq.mp hop]
  all_goals first | rfl | cases h

namespace Value

theorem eq_of_isPlain {v : Value} (h : v.isPlain = true) : v = .null ∨ (∃ n, v = .number n) ∨ ∃ s, v = .text s := by
  cases v with
  | null => exact .inl rfl
  | number n => exact .inr (.inl ⟨n, rfl⟩)
  | text s => exact .inr (.inr ⟨s, rfl⟩)
  | _ => cases h

/-- Plain values compare as equal if they are the same key value. -/
theorem compare_eq_iff {v w : Value} (hv : v.isPlain = true) (hw : w.isPlain = true) :
    v.compare w = .eq ↔ v.atomOf = w.atomOf := by
  rcases eq_of_isPlain hv with rfl | ⟨a, rfl⟩ | ⟨s, rfl⟩ <;>
    rcases eq_of_isPlain hw with rfl | ⟨b, rfl⟩ | ⟨t, rfl⟩
  case inr.inl.inr.inl =>
    show a.place.compare b.place = .eq ↔ Atom.number a.place = Atom.number b.place
    constructor
    · intro h
      rw [Number.place_eq_of_compare h]
    · intro h
      rw [Atom.number.inj h]
      exact Std.ReflCmp.compare_self
  case inr.inr.inr.inr =>
    show Ord.compare s t = .eq ↔ Atom.text s = Atom.text t
    rw [Std.LawfulEqOrd.compare_eq_iff_eq, Atom.text.injEq]
  all_goals simp [compare, rank, atomOf]

end Value

namespace Row

/-- What the values of a row in some columns are compared by. -/
def atoms (columns : List String) (row : Row) : List Atom :=
  (row.spelling columns).map Value.atomOf

variable {columns : List String} {a b row : Row}

theorem identity_eq (h : row.AllAt Value.isPlain columns) :
    row.identity columns = if Atom.nothing ∈ row.atoms columns then none else some (row.atoms columns) := by
  have hnull : (row.spelling columns).any Value.isNull = true ↔ Atom.nothing ∈ row.atoms columns := by
    rw [List.any_eq_true, atoms, List.mem_map]
    refine exists_congr fun v => and_congr_right fun hv => ?_
    obtain ⟨c, hc, rfl⟩ := List.mem_map.mp hv
    rcases Value.eq_of_isPlain (h c hc) with hget | ⟨n, hget⟩ | ⟨s, hget⟩ <;> simp [hget, Value.isNull, Value.atomOf]
  unfold identity keyOf
  by_cases hn : Atom.nothing ∈ row.atoms columns
  · rw [if_pos (hnull.mpr hn), if_pos hn]
    rfl
  · rw [if_neg fun h => hn (hnull.mp h), if_neg hn]
    rfl

theorem atoms_of_identity {k : List Atom} (h : row.identity columns = some k) : row.atoms columns = k := by
  obtain ⟨key, hkey, rfl⟩ := Option.map_eq_some_iff.mp h
  exact (keyOf_eq_some hkey).2.1.symm

theorem identity_of_not_null (h : ∀ c ∈ columns, (row.get c).isNull = false) :
    row.identity columns = some (row.atoms columns) := by
  have hnull : ¬(row.spelling columns).any Value.isNull = true := by
    rw [List.any_eq_true]
    rintro ⟨v, hv, hnull⟩
    obtain ⟨c, hc, rfl⟩ := List.mem_map.mp hv
    rw [h c hc] at hnull
    cases hnull
  rw [identity, keyOf, if_neg hnull]
  rfl

/-- Rows with the same keys on two sides have the same key in any columns of these. -/
theorem exists_identity {near far : List String} (hsub : columns ⊆ near ++ far) {k l : List Atom}
    (ha : a.identity near = some k) (ha' : a.identity far = some l) (hb : b.identity near = some k)
    (hb' : b.identity far = some l) : ∃ x, a.identity columns = some x ∧ b.identity columns = some x := by
  have hpresent : ∀ {row : Row}, row.identity near = some k → row.identity far = some l →
      ∀ c ∈ columns, (row.get c).isNull = false := by
    intro row hnear hfar c hc
    obtain ⟨key, hkey, -⟩ := Option.map_eq_some_iff.mp hnear
    obtain ⟨key', hkey', -⟩ := Option.map_eq_some_iff.mp hfar
    rcases List.mem_append.mp (hsub hc) with hc | hc
    · exact (keyOf_eq_some hkey).2.2 _ (List.mem_map_of_mem hc)
    · exact (keyOf_eq_some hkey').2.2 _ (List.mem_map_of_mem hc)
  have hsame : ∀ {columns' : List String}, a.atoms columns' = b.atoms columns' →
      ∀ c ∈ columns', (a.get c).atomOf = (b.get c).atomOf := by
    intro columns' h
    simpa [atoms, spelling] using h
  have hatoms : a.atoms columns = b.atoms columns := by
    simp only [atoms, spelling, List.map_map, List.map_inj_left]
    intro c hc
    rcases List.mem_append.mp (hsub hc) with hc | hc
    · exact hsame ((atoms_of_identity ha).trans (atoms_of_identity hb).symm) c hc
    · exact hsame ((atoms_of_identity ha').trans (atoms_of_identity hb').symm) c hc
  refine ⟨_, identity_of_not_null (hpresent ha ha'), ?_⟩
  rw [identity_of_not_null (hpresent hb hb'), hatoms]

theorem identity_congr_atoms (ha : a.AllAt Value.isPlain columns) (hb : b.AllAt Value.isPlain columns)
    (h : a.atoms columns = b.atoms columns) : a.identity columns = b.identity columns := by
  rw [identity_eq ha, identity_eq hb, h]

theorem atoms_eq_iff (ha : a.AllAt Value.isPlain columns) (hb : b.AllAt Value.isPlain columns) :
    a.atoms columns = b.atoms columns ↔ ∀ c ∈ columns, (a.get c).compare (b.get c) = .eq := by
  simp only [atoms, spelling, List.map_map, List.map_inj_left]
  exact forall₂_congr fun c hc => (Value.compare_eq_iff (ha c hc) (hb c hc)).symm

end Row

/-! ## Ties -/

theorem compareTerm_eq_iff {t : String × Direction} {a b : Row} :
    compareTerm t a b = .eq ↔ (a.get t.1).compare (b.get t.1) = .eq := by
  unfold compareTerm
  by_cases h : t.2.isDescending = true
  · simp [h]
  · simp [h]

theorem compareBy_eq_iff {o : OrderBy} {a b : Row} :
    compareBy o a b = .eq ↔ ∀ t ∈ o, (a.get t.1).compare (b.get t.1) = .eq := by
  induction o with
  | nil => simp [compareBy]
  | cons t o ih =>
    rw [compareBy, Ordering.then_eq_eq, compareTerm_eq_iff, ih, List.forall_mem_cons]

theorem mem_firstTerms {seen : List String} {o : OrderBy} {c : String} :
    c ∈ (firstTerms seen o).map Prod.fst ↔ c ∈ o.map Prod.fst ∧ c ∉ seen := by
  induction o generalizing seen with
  | nil => simp [firstTerms]
  | cons t o ih =>
    obtain ⟨d, dir⟩ := t
    rw [firstTerms]
    by_cases hd : d ∈ seen
    · rw [if_pos (by simpa using hd), ih]
      by_cases hcd : c = d
      · simp [hcd, hd]
      · simp [hcd]
    · rw [if_neg (by simpa using hd), List.map_cons, List.mem_cons, ih]
      by_cases hcd : c = d
      · simp [hcd, hd]
      · simp [hcd]

/-- Rows tie in a merged ordering if they do in all of its columns. -/
theorem compareBy_merge_eq_iff {os : List OrderBy} {a b : Row} :
    compareBy (OrderBy.merge os) a b = .eq ↔
      ∀ c ∈ os.flatten.map Prod.fst, (a.get c).compare (b.get c) = .eq := by
  have hmem (c : String) : c ∈ (OrderBy.merge os).map Prod.fst ↔ c ∈ os.flatten.map Prod.fst := by
    rw [OrderBy.merge, mem_firstTerms]
    simp
  rw [compareBy_eq_iff]
  constructor
  · intro h c hc
    obtain ⟨t, ht, rfl⟩ := List.mem_map.mp ((hmem c).mpr hc)
    exact h t ht
  · intro h t ht
    exact h t.1 ((hmem t.1).mp (List.mem_map_of_mem ht))

theorem fst_ascending (columns : List String) : (ascending columns).map Prod.fst = columns := by
  simp [ascending, Function.comp_def]

/-! ## Sorting what is stored in another order -/

theorem perm_insertSorted {α : Type} (le : α → α → Bool) (a : α) (bs : List α) :
    (insertSorted le a bs).Perm (a :: bs) := by
  induction bs with
  | nil => exact .refl _
  | cons b bs ih =>
    by_cases h : le a b = true
    · rw [insertSorted, if_pos h]
    · rw [insertSorted, if_neg h]
      exact (ih.cons b).trans (.swap a b bs)

theorem perm_stableSort {α : Type} (le : α → α → Bool) (as : List α) : (stableSort le as).Perm as := by
  induction as with
  | nil => exact .refl _
  | cons a as ih => exact (perm_insertSorted le a _).trans (ih.cons a)

section Sorted

variable {o : OrderBy} {rows rows' : List Row}

theorem perm_sortRows : (sortRows o rows).Perm rows :=
  perm_stableSort _ rows

theorem compareBy_eq_of_precedes {a b : Row} (hab : precedes o a b = true) (hba : precedes o b a = true) :
    compareBy o a b = .eq := by
  have := transCmp_compareBy o
  have hswap : compareBy o b a = (compareBy o a b).swap := Std.OrientedCmp.eq_swap
  unfold precedes at hab hba
  rw [hswap] at hba
  cases hc : compareBy o a b <;> rw [hc] at hab hba
  · cases hba
  · cases hab

theorem precedes_of_eq {a b : Row} (h : compareBy o a b = .eq) : precedes o a b = true ∧ precedes o b a = true := by
  have := transCmp_compareBy o
  have hswap : compareBy o b a = (compareBy o a b).swap := Std.OrientedCmp.eq_swap
  simp [precedes, hswap, h]

/-- Sorting forgets the stored order, up to what the ordering does not tell apart. -/
theorem map_sortRows_perm {β : Type} {f : Row → β} (h : rows.Perm rows')
    (hf : ∀ a ∈ rows, ∀ b ∈ rows, compareBy o a b = .eq ↔ f a = f b) :
    (sortRows o rows).map f = (sortRows o rows').map f := by
  let before (x y : β) : Prop := ∃ a ∈ rows, ∃ b ∈ rows, f a = x ∧ f b = y ∧ precedes o a b = true
  have hsorted : ∀ rs : List Row, rs.Perm rows → ((sortRows o rs).map f).Pairwise before := by
    intro rs hrs
    rw [List.pairwise_map]
    have hmem : ∀ a ∈ sortRows o rs, a ∈ rows := fun a ha => hrs.mem_iff.mp (mem_sortRows.mp ha)
    refine (pairwise_stableSort (precedes_total o) (fun _ _ _ => precedes_trans) rs).imp_of_mem ?_
    exact fun ha hb hab => ⟨_, hmem _ ha, _, hmem _ hb, rfl, rfl, hab⟩
  refine List.Perm.eq_of_pairwise ?_ (hsorted rows (.refl _)) (hsorted rows' h.symm)
    ((perm_sortRows.trans (h.trans perm_sortRows.symm)).map f)
  rintro x y - - ⟨a, ha, b, hb, hax, hby, hab⟩ ⟨b', hb', a', ha', hby', hax', hba⟩
  have haa : precedes o a' a = true := (precedes_of_eq ((hf a' ha' a ha).mpr (hax'.trans hax.symm))).1
  have hbb : precedes o b b' = true := (precedes_of_eq ((hf b hb b' hb').mpr (hby.trans hby'.symm))).1
  have hback : precedes o b a = true := precedes_trans hbb (precedes_trans hba haa)
  rw [← hax, ← hby]
  exact (hf a ha b hb).mp (compareBy_eq_of_precedes hab hback)

/-- An ordering without ties determines the sorted rows. -/
theorem sortRows_perm (h : rows.Perm rows') (hties : ∀ a ∈ rows, ∀ b ∈ rows, compareBy o a b = .eq → a = b) :
    sortRows o rows = sortRows o rows' := by
  have hmap : (sortRows o rows).map id = (sortRows o rows').map id := by
    refine map_sortRows_perm h fun a ha b hb => ⟨hties a ha b hb, ?_⟩
    rintro rfl
    exact compareBy_eq_iff.mpr fun t _ => Std.ReflCmp.compare_self
  rwa [List.map_id, List.map_id] at hmap

end Sorted

/-! ## Primary keys and unshared keys -/

/-- The values that a primary key is made of. -/
def Value.isKeyValue : Value → Bool
  | .number _ | .text _ => true
  | _ => false

theorem Value.isPlain_of_isKeyValue {v : Value} (h : v.isKeyValue = true) : v.isPlain = true := by
  cases v <;> first | rfl | cases h

namespace Memory

variable {m : Memory} {table : String} {columns : List String}

/-- The rows of a table have numbers and texts in some columns, and no two of them have the same. -/
structure KeyedBy (m : Memory) (table : String) (columns : List String) : Prop where
  present : ∀ row ∈ m.rowsOf table, row.AllAt Value.isKeyValue columns
  distinct : ((m.rowsOf table).map (Row.identity columns)).Nodup

instance (m : Memory) (table : String) (columns : List String) : Decidable (m.KeyedBy table columns) :=
  decidable_of_iff ((∀ row ∈ m.rowsOf table, row.AllAt Value.isKeyValue columns) ∧
      ((m.rowsOf table).map (Row.identity columns)).Nodup)
    ⟨fun h => ⟨h.1, h.2⟩, fun h => ⟨h.present, h.distinct⟩⟩

/-- No two rows of a table share a key in some columns; rows without one do not count. -/
def UnsharedKey (m : Memory) (table : String) (columns : List String) : Prop :=
  ((m.rowsOf table).filterMap (Row.identity columns)).Nodup

instance (m : Memory) (table : String) (columns : List String) : Decidable (m.UnsharedKey table columns) :=
  inferInstanceAs (Decidable (List.Nodup _))

/-- A primary key is not shared. -/
theorem KeyedBy.unshared (h : m.KeyedBy table columns) : m.UnsharedKey table columns := by
  have hkeys : (m.rowsOf table).filterMap (Row.identity columns) =
      ((m.rowsOf table).map (Row.identity columns)).filterMap id := by
    rw [List.filterMap_map]
    rfl
  rw [UnsharedKey, hkeys]
  exact h.distinct.filterMap fun x y k hx hy => (Option.mem_def.mp hx).trans (Option.mem_def.mp hy).symm

/-- Rows with different primary keys do not tie if they are ordered by them, behind whatever else. -/
theorem KeyedBy.eq_of_tie (h : m.KeyedBy table columns) {os : List OrderBy} (hos : ascending columns ∈ os) {a b : Row}
    (ha : a ∈ m.rowsOf table) (hb : b ∈ m.rowsOf table) (htie : compareBy (OrderBy.merge os) a b = .eq) : a = b := by
  have hplain : ∀ row ∈ m.rowsOf table, row.AllAt Value.isPlain columns :=
    fun row hrow c hc => Value.isPlain_of_isKeyValue (h.present row hrow c hc)
  have hatoms : a.atoms columns = b.atoms columns := by
    refine (Row.atoms_eq_iff (hplain a ha) (hplain b hb)).mpr fun c hc => ?_
    refine compareBy_merge_eq_iff.mp htie c ?_
    obtain ⟨t, ht, rfl⟩ := List.mem_map.mp ((fst_ascending columns).symm ▸ hc)
    exact List.mem_map_of_mem (List.mem_flatten_of_mem hos ht)
  exact List.inj_on_of_nodup_map h.distinct ha hb (Row.identity_congr_atoms (hplain a ha) (hplain b hb) hatoms)

/-- The rows that a query finds do not share the key, either, if they are found with its columns. -/
theorem UnsharedKey.found {q : BatchQuery} (h : m.UnsharedKey q.table columns)
    (hproject : ∀ row, (project q.columns row).identity columns = row.identity columns) :
    ((m.found q).filterMap (Row.identity columns)).Nodup := by
  have hidentity : (m.found q).filterMap (Row.identity columns) =
      ((sortRows q.ordering (m.rowsOf q.table)).filter q.selects).filterMap (Row.identity columns) := by
    rw [Memory.found, List.filterMap_map]
    exact List.filterMap_congr fun row _ => hproject row
  have hsub : ((sortRows q.ordering (m.rowsOf q.table)).filter q.selects).Sublist
      (sortRows q.ordering (m.rowsOf q.table)) := List.filter_sublist
  rw [hidentity]
  exact ((perm_sortRows.filterMap _).nodup_iff.mpr h).sublist (hsub.filterMap _)

end Memory

/-- Join rows that do not share a key of columns on both sides lead from one source to different targets. -/
theorem PlanNode.nodup_targetsOf {n : PlanNode} {joins : List Row} {columns : List String}
    (hsub : columns ⊆ n.step.relation.joinSourceKey ++ n.step.relation.joinTargetKey)
    (h : (joins.filterMap (Row.identity columns)).Nodup) (k : Option (List Atom)) : (n.targetsOf joins k).Nodup := by
  cases k with
  | none => exact List.nodup_nil
  | some k =>
    rw [targetsOf, Option.elim_some, List.Nodup, List.pairwise_filterMap, List.pairwise_filter]
    refine (List.pairwise_filterMap.mp h).imp fun {a b} hab hak hbk l hl l' hl' heq => ?_
    obtain ⟨x, hx, hx'⟩ := Row.exists_identity hsub (of_decide_eq_true hak) hl (of_decide_eq_true hbk) (heq ▸ hl')
    exact hab x hx x hx' rfl

/-- A row is found by an unshared key in any stored order. -/
theorem find?_hasKey_perm {columns : List String} {rows rows' : List Row} (h : rows.Perm rows')
    (hunshared : (rows.filterMap (Row.identity columns)).Nodup) (k : List Atom) :
    rows.find? (Row.hasKey columns k) = rows'.find? (Row.hasKey columns k) := by
  have hfilter : (rows.filter (Row.hasKey columns k)).length ≤ 1 := by
    have hkeys : (rows.filter (Row.hasKey columns k)).filterMap (Row.identity columns) =
        List.replicate (rows.filter (Row.hasKey columns k)).length k := by
      rw [← List.map_const']
      refine (List.filterMap_congr fun row hrow => ?_).trans (congrFun List.filterMap_eq_map _)
      have hkey := (List.mem_filter.mp hrow).2
      simpa [Row.hasKey] using hkey
    have hsub : (rows.filter (Row.hasKey columns k)).Sublist rows := List.filter_sublist
    have hnodup := hunshared.sublist (hsub.filterMap (Row.identity columns))
    rw [hkeys] at hnodup
    exact List.nodup_replicate.mp hnodup
  have hsame : rows.filter (Row.hasKey columns k) = rows'.filter (Row.hasKey columns k) := by
    have hperm := h.filter (Row.hasKey columns k)
    cases hrows : rows.filter (Row.hasKey columns k) with
    | nil =>
      rw [hrows] at hperm
      exact hperm.nil_eq
    | cons row rest =>
      rw [hrows] at hfilter hperm
      obtain rfl : rest = [] := List.eq_nil_of_length_eq_zero (by simpa using hfilter)
      exact (List.perm_singleton.mp hperm.symm).symm
  rw [← List.head?_filter, ← List.head?_filter, hsame]

end RelatedRows

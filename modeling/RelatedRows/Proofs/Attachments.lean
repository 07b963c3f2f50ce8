import Mathlib.Data.List.Basic
import RelatedRows.Stitch.Attachment

/-!
# Attached rows

* `Related`: what a relation attaches to one row, as rows and not as positions.
* `Attachment.getElem?_complete`: the row at a position, once the attached rows have been replaced.
* `Attachment.related_complete`: what is done to every attached row shows under every parent.
-/

namespace RelatedRows

/-! ## Links as rows -/

/-- What a relation attaches to one row. -/
inductive Related where
  | one (row : Option Row)
  | many (rows : List Row)

namespace Related

def map (f : Row → Row) : Related → Related
  | .one row => .one (row.map f)
  | .many rows => .many (rows.map f)

def value : Related → Value
  | .one row => Value.ofOption .object row
  | .many rows => .list (rows.map .object)

theorem map_map (f g : Row → Row) (r : Related) : (r.map f).map g = r.map (g ∘ f) := by
  cases r <;> simp [map]

end Related

/-- The rows that a link leads to. -/
def Link.related (found : List Row) : Link → Related
  | .one p => .one (p.bind (found[·]?))
  | .many ps => .many (ps.filterMap (found[·]?))

theorem Link.value_eq (found : List Row) (l : Link) : l.value found = (l.related found).value := by
  cases l <;> rfl

theorem Link.related_map (f : Row → Row) (found : List Row) (l : Link) :
    l.related (found.map f) = (l.related found).map f := by
  cases l with
  | one p => cases p <;> simp [related, Related.map]
  | many ps => simp [related, Related.map, List.map_filterMap]

/-! ## Replacing attached rows -/

theorem lookup_zip {α : Type} {ps : List Nat} {as : List α} {i : Nat} (hlen : ps.length = as.length) (h : i ∈ ps) :
    (ps.zip as).lookup i = as[ps.idxOf i]? := by
  induction ps generalizing as with
  | nil => simp at h
  | cons p ps ih =>
    cases as with
    | nil => simp at hlen
    | cons a as =>
      rw [List.zip_cons_cons, List.lookup_cons]
      by_cases hi : i = p
      · simp [hi]
      · rw [beq_eq_false_iff_ne.mpr hi, List.idxOf_cons_ne _ (Ne.symm hi), List.getElem?_cons_succ]
        exact ih (by simpa using hlen) ((List.mem_cons.mp h).resolve_left hi)

namespace Attachment

/-- Links lead to rows that were found. -/
def Sound (a : Attachment) : Prop :=
  ∀ l ∈ a.links, ∀ i ∈ l.positions, i < a.found.length

variable {a : Attachment}

theorem mem_positions {i : Nat} : i ∈ a.positions ↔ ∃ l ∈ a.links, i ∈ l.positions := by
  rw [positions, List.mem_eraseDups, List.mem_flatMap]

theorem mem_found_of_mem_attached {row : Row} (h : row ∈ a.attached) : row ∈ a.found := by
  obtain ⟨i, -, hi⟩ := List.mem_filterMap.mp h
  exact List.mem_of_getElem? hi

theorem attached_eq (h : a.Sound) :
    a.attached = a.positions.map fun i => (a.found[i]?).getD [] := by
  rw [attached, ← congrFun List.filterMap_eq_map]
  refine List.filterMap_congr fun i hi => ?_
  obtain ⟨l, hl, hil⟩ := mem_positions.mp hi
  rw [Function.comp, List.getElem?_eq_getElem (h l hl i hil)]
  rfl

/-- All positions are attached, one row for each. -/
theorem length_attached (h : a.Sound) :
    a.attached.length = a.positions.length := by
  rw [attached_eq h, List.length_map]

theorem getElem?_complete {below : List Row} (hlen : below.length = a.positions.length) {i : Nat}
    (hi : i ∈ a.positions) (hlt : i < a.found.length) : (a.complete below).found[i]? = below[a.positions.idxOf i]? := by
  have hidx : a.positions.idxOf i < below.length := by
    rw [hlen]
    exact List.idxOf_lt_length_iff.mpr hi
  rw [complete, List.getElem?_mapIdx, lookup_zip hlen.symm hi, List.getElem?_eq_getElem hlt,
    List.getElem?_eq_getElem hidx]
  rfl

theorem getElem?_complete_map (h : a.Sound) (f : Row → Row) {i : Nat}
    (hi : i ∈ a.positions) : (a.complete (a.attached.map f)).found[i]? = a.found[i]?.map f := by
  obtain ⟨l, hl, hil⟩ := mem_positions.mp hi
  rw [getElem?_complete (by rw [List.length_map, length_attached h]) hi (h l hl i hil), attached_eq h, List.map_map,
    List.getElem?_map, List.getElem?_eq_getElem (List.idxOf_lt_length_iff.mpr hi), List.getElem_idxOf,
    List.getElem?_eq_getElem (h l hl i hil)]
  simp [List.getElem?_eq_getElem (h l hl i hil)]

theorem related_complete (h : a.Sound) (f : Row → Row) {l : Link}
    (hl : l ∈ a.links) : l.related (a.complete (a.attached.map f)).found = (l.related a.found).map f := by
  have hget : ∀ i ∈ l.positions, (a.complete (a.attached.map f)).found[i]? = a.found[i]?.map f :=
    fun i hi => getElem?_complete_map h f (mem_positions.mpr ⟨l, hl, hi⟩)
  cases l with
  | one p =>
    cases p with
    | none => rfl
    | some i => exact congrArg Related.one (hget i (by simp [Link.positions]))
  | many ps =>
    simp only [Link.related, Related.map, List.map_filterMap]
    exact congrArg _ (List.filterMap_congr hget)

end Attachment

end RelatedRows

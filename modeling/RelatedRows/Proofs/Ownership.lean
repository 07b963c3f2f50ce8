import RelatedRows.Proofs.Objects
import RelatedRows.Proofs.Requests

/-!
# Objects and the places that they belong to

Every object that stitching makes belongs to a place in the tree of levels: the copies of the given rows to the root,
and the rows that a load finds to the place right below its level.  A level writes into objects of its own place and of
places below it only, so what belongs elsewhere, or to a caller, stays as it is.

* `Objects.Placed labels os`: objects refer to objects at the places right below their own.
* `Objects.Alike place`: nothing is different at a place, or below it.
* `Objects.Grows place`: what happens at a place, or below it, does to objects.
* `Objects.Grows.beside`: nothing becomes different at a place next to it.
-/

namespace RelatedRows

/-! ## Places -/

/-- To which place each object belongs; the objects of a caller belong to none. -/
abbrev Labels := List (Option (List Nat))

def Labels.At (labels : Labels) (place : List Nat) (a : Nat) : Prop :=
  labels[a]? = some (some place)

namespace Labels.At

variable {labels : Labels} {place place' : List Nat} {a : Nat}

theorem unique (h : labels.At place a) (h' : labels.At place' a) : place = place' :=
  Option.some.inj (Option.some.inj (h.symm.trans h'))

theorem lt_length (h : labels.At place a) : a < labels.length :=
  (List.getElem?_eq_some_iff.mp h).1

/-- Nothing belongs to a place and right below it. -/
theorem not_below (h : labels.At place a) (i : Nat) : ¬labels.At (place ++ [i]) a := by
  intro h'
  have hlen := congrArg List.length (h.unique h')
  simp at hlen

end Labels.At

/-- The labels after objects of some rows have been made at a place. -/
def Labels.extend (labels : Labels) (place : List Nat) (rows : List Row) : Labels :=
  labels ++ rows.map fun _ => some place

section Extend

variable {labels : Labels} {place place' : List Nat} {rows : List Row} {a : Nat}

theorem Labels.At.extend (h : labels.At place' a) : (labels.extend place rows).At place' a :=
  (List.getElem?_append_left h.lt_length).trans h

theorem Labels.at_extend_iff :
    (labels.extend place rows).At place' a ↔
      labels.At place' a ∨ labels.length ≤ a ∧ a < labels.length + rows.length ∧ place' = place := by
  rcases Nat.lt_or_ge a labels.length with ha | ha
  · rw [Labels.At, Labels.extend, List.getElem?_append_left ha, Labels.At]
    exact ⟨.inl, fun h => h.resolve_right fun h => by omega⟩
  · have hnot : ¬labels.At place' a := fun h => by
      have := h.lt_length
      omega
    rw [Labels.At, Labels.extend, List.getElem?_append_right ha, List.getElem?_map]
    by_cases hlt : a - labels.length < rows.length
    · rw [List.getElem?_eq_getElem hlt]
      have hlt' : a < labels.length + rows.length := by omega
      simp [hnot, ha, hlt', eq_comm]
    · have hge : ¬a < labels.length + rows.length := by omega
      simp [hnot, hge, List.getElem?_eq_none (Nat.le_of_not_lt hlt)]

/-- The objects that have been made belong to their place. -/
theorem Labels.at_extend (labels : Labels) (place : List Nat) {i : Nat} (hi : i < rows.length) :
    (labels.extend place rows).At place (labels.length + i) :=
  at_extend_iff.mpr (.inr ⟨by omega, by omega, rfl⟩)

end Extend

namespace Objects

theorem getElem?_append_ofRow (os : Objects) {rows : List Row} {i : Nat} {row : Row} (hrow : rows[i]? = some row) :
    (os ++ rows.map Object.ofRow)[os.length + i]? = some (.ofRow row) := by
  rw [List.getElem?_append_right (by omega), Nat.add_sub_cancel_left, List.getElem?_map, hrow, Option.map_some]

/-- An object that refers to nothing holds its own row. -/
theorem row_of_flat {os : Objects} {a : Nat} {row : Row} (ho : os[a]? = some (.ofRow row)) (depth : Nat) :
    os.row depth a = row := by
  rw [Objects.row, getElem?_rows_of_flat ho (Object.flat_ofRow row), Object.row_ofRow, Option.getD_some]

/-- Objects refer to objects at the places right below their own. -/
structure Placed (labels : Labels) (os : Objects) : Prop where
  length_eq : labels.length = os.length
  below : ∀ a o, os[a]? = some o → ∀ f ∈ o, ∀ b ∈ f.2.addresses,
    ∃ place i, labels.At place a ∧ labels.At (place ++ [i]) b

/-- Nothing is different at a place, or below it. -/
structure Alike (place : List Nat) (labels : Labels) (os : Objects) (labels' : Labels) (os' : Objects) : Prop where
  at_iff : ∀ rest a, labels'.At (place ++ rest) a ↔ labels.At (place ++ rest) a
  same : ∀ rest a, labels.At (place ++ rest) a → os'[a]? = os[a]?

/-- What is done at a place, or below it: objects are made there, and only objects that belong there are changed. -/
structure Grows (place : List Nat) (labels : Labels) (os : Objects) (labels' : Labels) (os' : Objects) : Prop where
  placed : Placed labels' os'
  old : ∀ a, a < labels.length → labels'[a]? = labels[a]?
  new : ∀ a label, labels.length ≤ a → labels'[a]? = some label → ∃ rest, label = some (place ++ rest)
  same : ∀ a, a < os.length → (∀ rest, ¬labels.At (place ++ rest) a) → os'[a]? = os[a]?

variable {labels labels' labels'' : Labels} {os os' os'' : Objects} {place : List Nat} {a : Nat}

/-- Objects that refer to nothing need not belong anywhere. -/
theorem placed_ofRow (rows : List Row) : Placed (rows.map fun _ => none) (rows.map Object.ofRow) := by
  refine ⟨by rw [List.length_map, List.length_map], fun a o ho f hf b hb => ?_⟩
  obtain ⟨row, -, rfl⟩ := List.mem_map.mp (List.mem_of_getElem? ho)
  rw [Object.flat_ofRow row f hf] at hb
  cases hb

theorem Placed.exists_of_at (h : Placed labels os) (ha : labels.At place a) : ∃ o, os[a]? = some o :=
  ⟨_, List.getElem?_eq_getElem (h.length_eq ▸ ha.lt_length)⟩

theorem Placed.at_below (h : Placed labels os) (ha : labels.At place a) {o : Object} (ho : os[a]? = some o)
    {f : String × Cell} (hf : f ∈ o) {b : Nat} (hb : b ∈ f.2.addresses) : ∃ i, labels.At (place ++ [i]) b := by
  obtain ⟨place', i, ha', hb'⟩ := h.below a o ho f hf b hb
  exact ⟨i, ha.unique ha' ▸ hb'⟩

/-- The rows of the objects at a place are read off the objects there and below. -/
theorem Placed.getElem?_rows_congr (h : Placed labels os)
    (hsame : ∀ rest a, labels.At (place ++ rest) a → os'[a]? = os[a]?) (depth : Nat)
    (ha : labels.At place a) : (os'.rows depth)[a]? = (os.rows depth)[a]? := by
  refine rows_congr (S := fun a => ∃ rest, labels.At (place ++ rest) a) ?_ ?_ depth a
    ⟨[], by rwa [List.append_nil]⟩
  · rintro a ⟨rest, ha⟩
    exact hsame rest a ha
  · rintro a o ⟨rest, ha⟩ ho f hf b hb
    obtain ⟨i, hbelow⟩ := h.at_below ha ho hf hb
    exact ⟨rest ++ [i], by rwa [← List.append_assoc]⟩

theorem Placed.row_congr (h : Placed labels os)
    (hsame : ∀ rest a, labels.At (place ++ rest) a → os'[a]? = os[a]?) (depth : Nat)
    (ha : labels.At place a) : os'.row depth a = os.row depth a :=
  congrArg (·.getD []) (h.getElem?_rows_congr hsame depth ha)

theorem Alike.at (h : Alike place labels os labels' os') : labels'.At place a ↔ labels.At place a := by
  have hat := h.at_iff [] a
  rwa [List.append_nil] at hat

theorem Alike.getElem?_eq (h : Alike place labels os labels' os') (ha : labels.At place a) : os'[a]? = os[a]? :=
  h.same [] a (by rwa [List.append_nil])

theorem Alike.below (h : Alike place labels os labels' os') (i : Nat) : Alike (place ++ [i]) labels os labels' os' where
  at_iff rest a := by
    rw [List.append_assoc]
    exact h.at_iff _ a
  same rest a ha := h.same ([i] ++ rest) a (by rwa [← List.append_assoc])

theorem Grows.refl (place : List Nat) (h : Placed labels os) : Grows place labels os labels os where
  placed := h
  old _ _ := rfl
  new a label ha hlabel := by
    rw [List.getElem?_eq_none ha] at hlabel
    cases hlabel
  same _ _ _ := rfl

theorem Grows.length_le (h : Grows place labels os labels' os') : labels.length ≤ labels'.length := by
  by_contra hlt
  have hold := h.old labels'.length (by omega)
  rw [List.getElem?_eq_none (Nat.le_refl _), List.getElem?_eq_getElem (by omega)] at hold
  cases hold

/-- Labels stay. -/
theorem Grows.at_iff (h : Grows place labels os labels' os') (ha : a < labels.length) (place' : List Nat) :
    labels'.At place' a ↔ labels.At place' a := by
  rw [Labels.At, h.old a ha, Labels.At]

theorem Grows.at_of_at (h : Grows place labels os labels' os') {place' : List Nat} (ha : labels.At place' a) :
    labels'.At place' a :=
  (h.at_iff ha.lt_length place').mpr ha

theorem Grows.trans (hos : Placed labels os) (h : Grows place labels os labels' os')
    (h' : Grows place labels' os' labels'' os'') : Grows place labels os labels'' os'' where
  placed := h'.placed
  old a ha := (h'.old a (Nat.lt_of_lt_of_le ha h.length_le)).trans (h.old a ha)
  new a label ha hlabel := by
    by_cases hlt : a < labels'.length
    · exact h.new a label ha ((h'.old a hlt).symm.trans hlabel)
    · exact h'.new a label (by omega) hlabel
  same a ha hnot := by
    have hlabels : a < labels.length := hos.length_eq ▸ ha
    have hlt : a < os'.length := h.placed.length_eq ▸ Nat.lt_of_lt_of_le hlabels h.length_le
    exact (h'.same a hlt fun rest hat => hnot rest ((h.at_iff hlabels _).mp hat)).trans (h.same a ha hnot)

/-- Objects are changed that belong to a place, or below; a cell is an old one or leads right below. -/
theorem Grows.of_changed (hos : Placed labels os) (hlen : os'.length = os.length)
    (hchanged : ∀ a o', os'[a]? = some o' → os[a]? = some o' ∨ ∃ rest o, labels.At (place ++ rest) a ∧ os[a]? = some o ∧
      ∀ f ∈ o', f ∈ o ∨ ∀ b ∈ f.2.addresses, ∃ i, labels.At (place ++ rest ++ [i]) b) :
    Grows place labels os labels os' where
  placed := by
    refine ⟨hos.length_eq.trans hlen.symm, fun a o' ho' f hf b hb => ?_⟩
    rcases hchanged a o' ho' with ho | ⟨rest, o, hat, ho, hcells⟩
    · exact hos.below a o' ho f hf b hb
    · rcases hcells f hf with hf | hbelow
      · exact hos.below a o ho f hf b hb
      · obtain ⟨i, hi⟩ := hbelow b hb
        exact ⟨_, i, hat, hi⟩
  old _ _ := rfl
  new a label ha hlabel := by
    rw [List.getElem?_eq_none ha] at hlabel
    cases hlabel
  same a ha hnot := by
    have ha' : a < os'.length := hlen ▸ ha
    rw [List.getElem?_eq_getElem ha']
    rcases hchanged a _ (List.getElem?_eq_getElem ha') with ho | ⟨rest, o, hat, -⟩
    · exact ho.symm
    · exact absurd hat (hnot rest)

/-- Objects are made that refer to nothing. -/
theorem Grows.extend (hos : Placed labels os) (place rest : List Nat) (rows : List Row) :
    Grows place labels os (labels.extend (place ++ rest) rows) (os ++ rows.map Object.ofRow) where
  placed := by
    refine ⟨by simp [Labels.extend, hos.length_eq], fun a o ho f hf b hb => ?_⟩
    rcases Nat.lt_or_ge a os.length with ha | ha
    · rw [List.getElem?_append_left ha] at ho
      obtain ⟨place', i, ha', hb'⟩ := hos.below a o ho f hf b hb
      exact ⟨place', i, ha'.extend, hb'.extend⟩
    · rw [List.getElem?_append_right ha] at ho
      obtain ⟨row, -, rfl⟩ := List.mem_map.mp (List.mem_of_getElem? ho)
      rw [Object.flat_ofRow row f hf] at hb
      cases hb
  old a ha := List.getElem?_append_left ha
  new a label ha hlabel := by
    rw [Labels.extend, List.getElem?_append_right ha] at hlabel
    obtain ⟨row, -, rfl⟩ := List.mem_map.mp (List.mem_of_getElem? hlabel)
    exact ⟨rest, rfl⟩
  same a ha _ := List.getElem?_append_left ha

/-- What is done below a place is done at the place. -/
theorem Grows.of_below {i : Nat} (h : Grows (place ++ [i]) labels os labels' os') :
    Grows place labels os labels' os' where
  placed := h.placed
  old := h.old
  new a label ha hlabel := by
    obtain ⟨rest, heq⟩ := h.new a label ha hlabel
    exact ⟨i :: rest, by rw [heq, List.append_assoc]; rfl⟩
  same a ha hnot := h.same a ha fun rest hat => hnot (i :: rest) (by rwa [List.append_assoc] at hat)

/-- What is done below a place leaves the objects at the place as they are. -/
theorem Grows.getElem?_above {i : Nat} (h : Grows (place ++ [i]) labels os labels' os') (hos : Placed labels os)
    (ha : labels.At place a) : os'[a]? = os[a]? := by
  refine h.same a (hos.length_eq ▸ ha.lt_length) fun rest hat => ?_
  have hlen := congrArg List.length (ha.unique hat)
  simp at hlen

/-- What is done below a place makes no difference next to it. -/
theorem Grows.beside {i j : Nat} (h : Grows (place ++ [i]) labels os labels' os') (hos : Placed labels os)
    (hij : i ≠ j) : Alike (place ++ [j]) labels os labels' os' := by
  have hne : ∀ rest rest', place ++ [j] ++ rest ≠ place ++ [i] ++ rest' := by
    intro rest rest' heq
    rw [List.append_assoc, List.append_assoc] at heq
    exact hij (List.cons.inj (List.append_cancel_left heq)).1.symm
  refine ⟨fun rest a => ⟨fun hat => ?_, h.at_of_at⟩, fun rest a hat => ?_⟩
  · by_cases ha : a < labels.length
    · exact (h.at_iff ha _).mp hat
    · obtain ⟨rest', heq⟩ := h.new a _ (by omega) hat
      exact absurd (Option.some.inj heq) (hne rest rest')
  · refine h.same a (hos.length_eq ▸ hat.lt_length) fun rest' hat' => hne rest rest' (hat.unique hat')

end Objects

end RelatedRows

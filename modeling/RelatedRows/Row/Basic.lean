import RelatedRows.Value.Basic

/-!
# Rows

A row is a list of named values, as the fields of an object.  A column that is missing reads as nothing.

* `Row.get c`: the value in column `c`.
* `Row.set c v`: the row with `v` in column `c`, in the place of the old value or at the end.
* `Row.keep p`: the row with the columns that satisfy `p` only.
-/

namespace RelatedRows

abbrev Row := List (String × Value)

def Value.rows (rows : List Row) : Value :=
  .list (rows.map .object)

namespace Row

def get (row : Row) (c : String) : Value :=
  (row.lookup c).getD .null

def columns (row : Row) : List String :=
  row.map (·.1)

def set (c : String) (v : Value) : Row → Row
  | [] => [(c, v)]
  | (d, w) :: rest => if d = c then (c, v) :: rest else (d, w) :: set c v rest

def keep (p : String → Bool) (row : Row) : Row :=
  row.filter fun f => p f.1

variable {row : Row} {c d : String} {v : Value}

theorem get_cons : get ((d, v) :: row) c = if c = d then v else get row c := by
  by_cases h : c = d
  · simp [get, h]
  · simp [get, List.lookup_cons, beq_eq_false_iff_ne.mpr h, h]

@[simp] theorem get_set_self : (row.set c v).get c = v := by
  induction row with
  | nil => simp [set, get_cons]
  | cons f rest ih =>
    obtain ⟨e, w⟩ := f
    by_cases h : e = c
    · simp [set, h, get_cons]
    · simp [set, h, get_cons, ih, Ne.symm h]

theorem get_set_of_ne (h : d ≠ c) : (row.set c v).get d = row.get d := by
  induction row with
  | nil => simp [set, get_cons, h]
  | cons f rest ih =>
    obtain ⟨e, w⟩ := f
    by_cases he : e = c
    · subst he
      simp [set, get_cons, h]
    · simp [set, he, get_cons, ih]

theorem get_keep_of_pos {p : String → Bool} (h : p c = true) : (row.keep p).get c = row.get c := by
  induction row with
  | nil => rfl
  | cons f rest ih =>
    obtain ⟨e, w⟩ := f
    by_cases he : p e = true
    · simp only [keep, List.filter_cons, he, if_true, get_cons]
      simp only [keep] at ih
      simp [ih]
    · have hne : c ≠ e := by rintro rfl; exact he h
      simp only [keep, List.filter_cons, he, get_cons, hne, if_false]
      exact ih

end Row

end RelatedRows

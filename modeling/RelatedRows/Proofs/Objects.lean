import RelatedRows.Proofs.KeyBatches
import RelatedRows.Proofs.Links
import RelatedRows.Proofs.Relabelling
import RelatedRows.Stitch.Objects

/-!
# Reading and writing objects

* `Object.row_congr`, `Objects.rows_congr`: a row is read off the objects that its object leads to, and no others.
* `Object.Tidy keys`: no object is referred to but from the cells under these keys.
* `Object.setAll_row`: once references lead to other rows, those rows stand in the cells they are written into.
* `Objects.Refer`: objects refer to others as an attachment links rows.
* `Objects.Linkable.linked`: what linking the objects of a level does to their rows is what it does to rows.
* `Objects.getElem?_trim`: trimming changes the attached objects, and no others.
-/

namespace RelatedRows

/-! ## Objects as rows -/

@[simp] theorem Cell.addresses_ofLink (list : Nat) (link : Link) : (ofLink list link).addresses = link.positions := by
  cases link <;> rfl

@[simp] theorem Cell.value_ofLink (rows : List Row) (list : Nat) (link : Link) :
    (ofLink list link).value rows = link.value rows := by
  cases link <;> rfl

theorem Cell.value_congr {rows rows' : List Row} {cell : Cell} (h : ∀ b ∈ cell.addresses, rows'[b]? = rows[b]?) :
    cell.value rows' = cell.value rows := by
  have hlink (link : Link) (h : ∀ b ∈ link.positions, rows'[b]? = rows[b]?) : link.value rows' = link.value rows := by
    have hvalue := Link.value_relabel (σ := id) h
    rwa [Link.relabel_id] at hvalue
  cases cell with
  | plain v => rfl
  | one a => exact hlink (.one a) h
  | many list as => exact hlink (.many as) h

theorem Cell.value_of_addresses_eq_nil {cell : Cell} (h : cell.addresses = []) (rows : List Row) :
    cell.value rows = cell.value [] :=
  Cell.value_congr fun b hb => by simp [h] at hb

namespace Object

/-- Nothing is referred to. -/
def Flat (o : Object) : Prop :=
  ∀ f ∈ o, f.2.addresses = []

/-- Other objects are only referred to from cells under some keys, and only from the first cell under each. -/
structure Tidy (keys : List String) (o : Object) : Prop where
  under : ∀ f ∈ o, f.2.addresses ≠ [] → f.1 ∈ keys
  first : o.Pairwise fun f f' => f.1 = f'.1 → f'.2.addresses = []

variable {o : Object} {rows rows' : List Row} {c d : String} {cell : Cell} {keys : List String}

theorem row_congr (h : ∀ f ∈ o, ∀ b ∈ f.2.addresses, rows'[b]? = rows[b]?) : o.row rows' = o.row rows := by
  refine List.map_congr_left fun f hf => ?_
  rw [Cell.value_congr (h f hf)]

theorem flat_ofRow (row : Row) : (ofRow row).Flat := by
  intro f hf
  obtain ⟨e, -, rfl⟩ := List.mem_map.mp hf
  rfl

theorem Flat.tidy (h : o.Flat) (keys : List String) : o.Tidy keys where
  under := fun f hf hne => absurd (h f hf) hne
  first := List.pairwise_of_forall_mem_list fun _ _ f' hf' _ => h f' hf'

@[simp] theorem row_ofRow (rows : List Row) (row : Row) : (ofRow row).row rows = row := by
  rw [ofRow, Object.row, List.map_map]
  exact List.map_id row

@[simp] theorem row_set : (o.set c cell).row rows = (o.row rows).set c (cell.value rows) := by
  induction o with
  | nil => rfl
  | cons f o ih =>
    obtain ⟨d, old⟩ := f
    simp only [row] at ih
    simp only [set, row, List.map_cons, Row.set]
    split
    · rfl
    · rw [List.map_cons, ih]

@[simp] theorem row_keep (p : String → Bool) : (o.keep p).row rows = (o.row rows).keep p := by
  rw [keep, row, row, Row.keep, List.filter_map]
  rfl

theorem lookup_set_self : (o.set c cell).lookup c = some cell := by
  induction o with
  | nil => simp [set]
  | cons f o ih =>
    obtain ⟨d, old⟩ := f
    by_cases h : d = c
    · simp [set, h]
    · rw [set, if_neg h, Row.lookup_cons_of_ne (Ne.symm h), ih]

theorem lookup_set_of_ne (h : d ≠ c) : (o.set c cell).lookup d = o.lookup d := by
  induction o with
  | nil => simp [set, h]
  | cons f o ih =>
    obtain ⟨e, old⟩ := f
    by_cases he : e = c
    · subst he
      rw [set, if_pos rfl, Row.lookup_cons_of_ne h, Row.lookup_cons_of_ne h]
    · rw [set, if_neg he, List.lookup_cons, List.lookup_cons, ih]

theorem mem_set {f : String × Cell} (h : f ∈ o.set c cell) : f = (c, cell) ∨ f ∈ o := by
  induction o with
  | nil => exact .inl (List.mem_singleton.mp h)
  | cons e o ih =>
    obtain ⟨d, old⟩ := e
    rw [set] at h
    split at h
    · rcases List.mem_cons.mp h with heq | h
      · exact .inl heq
      · exact .inr (List.mem_cons_of_mem _ h)
    · rcases List.mem_cons.mp h with rfl | h
      · exact .inr List.mem_cons_self
      · exact (ih h).imp_right (List.mem_cons_of_mem _)

theorem Tidy.set (h : o.Tidy keys) (hc : c ∈ keys) (cell : Cell) : (o.set c cell).Tidy keys where
  under := by
    intro f hf hne
    rcases mem_set hf with rfl | hf
    · exact hc
    · exact h.under f hf hne
  first := by
    have hfirst := h.first
    clear h
    induction o with
    | nil => exact List.pairwise_singleton _ _
    | cons e o ih =>
      obtain ⟨d, old⟩ := e
      obtain ⟨hhead, hrest⟩ := List.pairwise_cons.mp hfirst
      rw [Object.set]
      split
      · next hd => exact List.pairwise_cons.mpr ⟨fun f hf heq => hhead f hf (hd.trans heq), hrest⟩
      · next hd =>
        refine List.pairwise_cons.mpr ⟨fun f hf heq => ?_, ih hrest⟩
        rcases mem_set hf with rfl | hf
        · exact absurd heq hd
        · exact hhead f hf heq

/-! ## References that lead to other rows -/

/-- The row that an object holds if the references under some keys lead to `rows'` and all others to `rows`. -/
def rowAfter (done : List String) (rows rows' : List Row) (o : Object) : Row :=
  o.map fun f => (f.1, f.2.value (if f.1 ∈ done then rows' else rows))

theorem set_rowAfter {done : List String} (hfirst : o.Pairwise fun f f' => f.1 = f'.1 → f'.2.addresses = [])
    (hcell : o.lookup c = some cell) :
    (o.rowAfter done rows rows').set c (cell.value rows') = o.rowAfter (c :: done) rows rows' := by
  induction o with
  | nil => cases hcell
  | cons f o ih =>
    obtain ⟨d, old⟩ := f
    obtain ⟨hhead, hrest⟩ := List.pairwise_cons.mp hfirst
    simp only [rowAfter] at ih
    simp only [rowAfter, List.map_cons, Row.set]
    by_cases hd : d = c
    · subst hd
      rw [List.lookup_cons_self] at hcell
      cases hcell
      rw [if_pos rfl, if_pos List.mem_cons_self]
      congr 1
      -- further cells under the key refer to nothing
      refine List.map_congr_left fun f hf => ?_
      by_cases hfd : f.1 = d
      · have hnone := hhead f hf hfd.symm
        simp only [Cell.value_of_addresses_eq_nil hnone]
      · simp [hfd]
    · rw [Row.lookup_cons_of_ne (Ne.symm hd)] at hcell
      rw [if_neg hd, ih hrest hcell]
      simp [hd]

/-- Where references lead to other rows than before, these rows stand in the cells that they are written into. -/
theorem setAll_row (h : o.Tidy keys) {es : List (String × Value)} (hes : es.map Prod.fst = keys)
    (hvalues : ∀ e ∈ es, ∃ cell, o.lookup e.1 = some cell ∧ e.2 = cell.value rows') :
    (o.row rows).setAll es = o.row rows' := by
  have hall : ∀ done : List String, ∃ done', (∀ c, c ∈ done' ↔ c ∈ done ∨ c ∈ es.map Prod.fst) ∧
      (o.rowAfter done rows rows').setAll es = o.rowAfter done' rows rows' := by
    clear hes
    induction es with
    | nil => exact fun done => ⟨done, by simp, rfl⟩
    | cons e es ih =>
      intro done
      obtain ⟨cell, hcell, hvalue⟩ := hvalues e List.mem_cons_self
      obtain ⟨done', hdone', heq⟩ := ih (fun e he => hvalues e (List.mem_cons_of_mem _ he)) (e.1 :: done)
      refine ⟨done', fun c => ?_, ?_⟩
      · rw [hdone', List.map_cons, List.mem_cons, List.mem_cons]
        tauto
      · rw [Row.setAll_cons, hvalue, set_rowAfter h.first hcell, heq]
  obtain ⟨done, hdone, heq⟩ := hall []
  have hnone : o.rowAfter [] rows rows' = o.row rows := by simp [rowAfter, row]
  rw [← hnone, heq]
  refine List.map_congr_left fun f hf => ?_
  by_cases hkey : f.1 ∈ keys
  · rw [if_pos ((hdone f.1).mpr (.inr (hes ▸ hkey)))]
  · have hflat : f.2.addresses = [] := by
      by_contra hne
      exact hkey (h.under f hf hne)
    simp only [Cell.value_of_addresses_eq_nil hflat]

end Object

/-! ## Rows of all objects -/

namespace Objects

variable {os os' : Objects} {a : Nat}

theorem getElem?_rows_zero (os : Objects) (a : Nat) : (os.rows 0)[a]? = os[a]?.map (Object.row []) :=
  List.getElem?_map

theorem getElem?_rows_succ (os : Objects) (depth a : Nat) :
    (os.rows (depth + 1))[a]? = os[a]?.map (Object.row (os.rows depth)) :=
  List.getElem?_map

theorem row_succ {o : Object} (h : os[a]? = some o) (depth : Nat) : os.row (depth + 1) a = o.row (os.rows depth) := by
  rw [Objects.row, getElem?_rows_succ, h]
  rfl

/-- An object that refers to nothing holds the same row at every depth. -/
theorem getElem?_rows_of_flat {o : Object} (h : os[a]? = some o) (hflat : o.Flat) (depth : Nat) :
    (os.rows depth)[a]? = some (o.row []) := by
  cases depth with
  | zero => rw [getElem?_rows_zero, h, Option.map_some]
  | succ depth =>
    rw [getElem?_rows_succ, h, Option.map_some, Object.row_congr fun f hf b hb => by simp [hflat f hf] at hb]

/-- Rows that are read off the same objects are the same. -/
theorem rows_congr {S : Nat → Prop} (hsame : ∀ a, S a → os'[a]? = os[a]?)
    (hclosed : ∀ a o, S a → os[a]? = some o → ∀ f ∈ o, ∀ b ∈ f.2.addresses, S b) (depth : Nat) :
    ∀ a, S a → (os'.rows depth)[a]? = (os.rows depth)[a]? := by
  induction depth with
  | zero =>
    intro a ha
    rw [getElem?_rows_zero, getElem?_rows_zero, hsame a ha]
  | succ depth ih =>
    intro a ha
    rw [getElem?_rows_succ, getElem?_rows_succ, hsame a ha]
    cases ho : os[a]? with
    | none => rfl
    | some o =>
      rw [Option.map_some, Option.map_some, Object.row_congr fun f hf b hb => ih b (hclosed a o ha ho f hf b hb)]

theorem row_one_congr (h : os'[a]? = os[a]?)
    (hbelow : ∀ o, os[a]? = some o → ∀ f ∈ o, ∀ b ∈ f.2.addresses, os'[b]? = os[b]?) : os'.row 1 a = os.row 1 a := by
  rw [Objects.row, Objects.row, getElem?_rows_succ, getElem?_rows_succ, h]
  cases ho : os[a]? with
  | none => rfl
  | some o =>
    have hrow : o.row (os'.rows 0) = o.row (os.rows 0) := by
      refine Object.row_congr fun f hf b hb => ?_
      rw [getElem?_rows_zero, getElem?_rows_zero, hbelow o ho f hf b hb]
    rw [Option.map_some, Option.map_some, hrow]

end Objects

/-! ## Linking -/

namespace Linking

variable {l : Linking} {row : Row} {rows : List Row}

theorem attachment_cons_ok {link : Link} (h : l.link row = .ok link) :
    l.attachment (row :: rows) = (l.attachment rows).map fun a => { a with links := link :: a.links } := by
  rw [attachment, attachment, Except.mapM_cons_ok h]
  cases rows.mapM l.link <;> rfl

theorem attachment_cons_error {f : Fault} (h : l.link row = .error f) : l.attachment (row :: rows) = .error f := by
  rw [attachment, Except.mapM_cons_error h]
  rfl

end Linking

namespace Objects

variable {os : Objects}

/-- Objects to link to the rows that a load has found. -/
structure Linkable (l : Linking) (base : Nat) (as : List Nat) (os : Objects) : Prop where
  nodup : as.Nodup
  exist : ∀ a ∈ as, ∃ o, os[a]? = some o
  apart : ∀ a ∈ as, ∀ o, os[a]? = some o → ∀ f ∈ o, ∀ b ∈ f.2.addresses, b ∉ as
  found : ∀ i row, l.found[i]? = some row → base + i ∉ as ∧ os[base + i]? = some (.ofRow row)

/-- Objects refer to those that stand from `base` on, as links say. -/
def Refer (os : Objects) (base : Nat) (key : String) : List Nat → List Link → Prop :=
  List.Forall₂ fun a link =>
    ∃ o list, os[a]? = some o ∧ o.lookup key = some (.ofLink list (link.relabel (base + ·)))

theorem Refer.congr {os' : Objects} {base : Nat} {key : String} {as : List Nat} {links : List Link}
    (h : Refer os base key as links)
    (hcells : ∀ a ∈ as, ∀ o, os[a]? = some o → ∃ o', os'[a]? = some o' ∧ o'.lookup key = o.lookup key) :
    Refer os' base key as links := by
  refine List.forall₂_iff_zip.mpr ⟨h.length_eq, fun {a link} hmem => ?_⟩
  obtain ⟨o, list, ho, hlookup⟩ := List.forall₂_zip h hmem
  obtain ⟨o', ho', hlookup'⟩ := hcells a (List.of_mem_zip hmem).1 o ho
  exact ⟨o', list, ho', hlookup'.trans hlookup⟩

/-- What linking objects leaves: the rows that linking them comes to, and objects in which nothing else has changed. -/
structure Linked (l : Linking) (base : Nat) (key : String) (as : List Nat) (os : Objects)
    (r : Except Fault Unit × Objects) : Prop where
  result : r.1 = (l.attachment (as.map (os.row 1))).map fun _ => ()
  rows : as.map (r.2.row 1) = l.attachTo key (as.map (os.row 1))
  same : ∀ a, a ∉ as → r.2[a]? = os[a]?
  written : ∀ a ∈ as, r.2[a]? = os[a]? ∨ ∃ o list link, os[a]? = some o ∧
    (∀ i ∈ Link.positions link, i < l.found.length) ∧
    r.2[a]? = some (o.set key (.ofLink list (link.relabel (base + ·))))
  refer : ∀ att, l.attachment (as.map (os.row 1)) = .ok att → Refer r.2 base key as att.links

namespace Linkable

variable {os' : Objects} {l : Linking} {base a : Nat} {as : List Nat}

/-- Changing one object leaves the others to be linked as before. -/
theorem of_cons (h : Linkable l base (a :: as) os) (hsame : ∀ b, b ≠ a → os'[b]? = os[b]?) :
    Linkable l base as os' := by
  obtain ⟨hnotMem, hnodup⟩ := List.nodup_cons.mp h.nodup
  have hin : ∀ b ∈ as, b ≠ a := fun b hb hba => hnotMem (hba ▸ hb)
  have hout : ∀ b, b ∉ a :: as → b ≠ a ∧ b ∉ as := fun b hb => not_or.mp fun hor => hb (List.mem_cons.mpr hor)
  refine ⟨hnodup, fun b hb => ?_, fun b hb x hx f hf c hc => ?_, fun i row hrow => ?_⟩
  · obtain ⟨x, hx⟩ := h.exist b (List.mem_cons_of_mem a hb)
    exact ⟨x, (hsame b (hin b hb)).trans hx⟩
  · rw [hsame b (hin b hb)] at hx
    exact (hout c (h.apart b (List.mem_cons_of_mem a hb) x hx f hf c hc)).2
  · obtain ⟨hnot, hfound⟩ := h.found i row hrow
    exact ⟨(hout _ hnot).2, (hsame _ (hout _ hnot).1).trans hfound⟩

theorem map_row_of_cons (h : Linkable l base (a :: as) os) (hsame : ∀ b, b ≠ a → os'[b]? = os[b]?) :
    as.map (os'.row 1) = as.map (os.row 1) := by
  have hnotMem := (List.nodup_cons.mp h.nodup).1
  refine List.map_congr_left fun b hb => row_one_congr (hsame b fun hba => hnotMem (hba ▸ hb)) fun x hx f hf c hc => ?_
  refine hsame c fun hca => ?_
  exact h.apart b (List.mem_cons_of_mem a hb) x hx f hf c hc (hca ▸ List.mem_cons_self)

/-- The row of an object that has been linked. -/
theorem row_linked (h : Linkable l base (a :: as) os) (hsame : ∀ b, b ∉ a :: as → os'[b]? = os[b]?) {o : Object}
    (ho : os[a]? = some o) {key : String} {list : Nat} {link : Link} (hlink : ∀ i ∈ link.positions, i < l.found.length)
    (hself : os'[a]? = some (o.set key (.ofLink list (link.relabel (base + ·))))) :
    os'.row 1 a = (os.row 1 a).set key (link.value l.found) := by
  have hold : o.row (os'.rows 0) = o.row (os.rows 0) := by
    refine Object.row_congr fun f hf b hb => ?_
    rw [getElem?_rows_zero, getElem?_rows_zero, hsame b (h.apart a List.mem_cons_self o ho f hf b hb)]
  have hvalue : (link.relabel (base + ·)).value (os'.rows 0) = link.value l.found := by
    refine Link.value_relabel fun i hi => ?_
    obtain ⟨hnot, hfound⟩ := h.found i _ (List.getElem?_eq_getElem (hlink i hi))
    rw [getElem?_rows_zero, hsame _ hnot, hfound, List.getElem?_eq_getElem (hlink i hi), Option.map_some,
      Object.row_ofRow]
  rw [row_succ hself 0, row_succ ho 0, Object.row_set, hold, Cell.value_ofLink, hvalue]

theorem linked (h : Linkable l base as os) (key : String) (hl : l.Sound) :
    Linked l base key as os (linkAll l base key as os) := by
  induction as generalizing os with
  | nil =>
    refine ⟨rfl, rfl, fun a _ => rfl, fun a ha => absurd ha List.not_mem_nil, fun att hatt => ?_⟩
    cases hatt
    exact .nil
  | cons a as ih =>
    have hnotMem := (List.nodup_cons.mp h.nodup).1
    obtain ⟨o, ho⟩ := h.exist a List.mem_cons_self
    unfold linkAll
    cases hlink : l.link (os.row 1 a) with
    | error f =>
      have hattachment : l.attachment ((a :: as).map (os.row 1)) = .error f := Linking.attachment_cons_error hlink
      refine ⟨?_, ?_, fun a _ => rfl, fun a _ => .inl rfl, fun att hatt => ?_⟩
      · rw [hattachment]
        rfl
      · simp only [List.map_cons, Linking.attachTo, hlink]
      · rw [hattachment] at hatt
        cases hatt
    | ok link =>
      have hpositions := hl _ _ hlink
      have hself := List.getElem?_modify_eq (Object.set key (.ofLink os.newList (link.relabel (base + ·)))) a os
      have hother : ∀ b, b ≠ a →
          (os.modify a (Object.set key (.ofLink os.newList (link.relabel (base + ·)))))[b]? = os[b]? :=
        fun b hb => List.getElem?_modify_ne _ os hb.symm
      rw [ho] at hself
      dsimp only
      generalize os.modify a (Object.set key (.ofLink os.newList (link.relabel (base + ·)))) = os₁ at hself hother ⊢
      -- the others are linked in the objects that have been changed
      obtain ⟨hresult, hrows, hsame, hwritten, hrefer⟩ := ih (h.of_cons hother)
      rw [h.map_row_of_cons hother] at hresult hrows hrefer
      have hunchanged : ∀ b, b ∉ a :: as → (linkAll l base key as os₁).2[b]? = os[b]? := fun b hb =>
        (hsame b fun hmem => hb (List.mem_cons_of_mem a hmem)).trans (hother b fun hba => hb (hba ▸ List.mem_cons_self))
      have hfinal := (hsame a hnotMem).trans hself
      have hattachment : l.attachment (os.row 1 a :: as.map (os.row 1)) = _ := Linking.attachment_cons_ok hlink
      refine ⟨?_, ?_, hunchanged, fun b hb => ?_, fun att hatt => ?_⟩
      · rw [hresult, List.map_cons, hattachment]
        cases l.attachment (as.map (os.row 1)) <;> rfl
      · rw [List.map_cons, hrows, h.row_linked hunchanged ho hpositions hfinal, List.map_cons, Linking.attachTo, hlink]
      · rcases List.mem_cons.mp hb with rfl | hb
        · exact .inr ⟨o, _, link, ho, hpositions, hfinal⟩
        · have hb' := hwritten b hb
          rwa [hother b fun hba => hnotMem (hba ▸ hb)] at hb'
      · rw [List.map_cons, hattachment] at hatt
        obtain ⟨att', hatt', rfl⟩ := Except.map_eq_ok hatt
        exact .cons ⟨_, _, hfinal, Object.lookup_set_self⟩ (hrefer att' hatt')

end Linkable

theorem length_linkAll (l : Linking) (base : Nat) (key : String) (as : List Nat) (os : Objects) :
    (linkAll l base key as os).2.length = os.length := by
  induction as generalizing os with
  | nil => rfl
  | cons a as ih =>
    unfold linkAll
    cases l.link (os.row 1 a) with
    | error f => rfl
    | ok link => exact (ih _).trans (List.length_modify ..)

/-- What is attached under a key, in terms of the attachment that was written there. -/
theorem attached_eq {base : Nat} {key : String} {as : List Nat} {att : Attachment}
    (h : Refer os base key as att.links) : os.attached key as = att.positions.map (base + ·) := by
  have hflat : (as.flatMap fun a => ((os[a]?).map (Object.addressesAt key)).getD []) =
      (att.links.flatMap Link.positions).map (base + ·) := by
    generalize att.links = links at h
    induction h with
    | nil => rfl
    | cons hcell _ ih =>
      obtain ⟨o, list, ho, hlookup⟩ := hcell
      rw [List.flatMap_cons, List.flatMap_cons, List.map_append, ih, ho, Option.map_some, Option.getD_some,
        Object.addressesAt, hlookup, Option.map_some, Option.getD_some, Cell.addresses_ofLink, Link.positions_relabel]
  rw [attached, hflat, eraseDups_map fun i _ j _ hij => by omega]
  rfl

/-! ## Trimming -/

theorem getElem?_foldl_modify (f : Object → Object) {bs : List Nat} (hbs : bs.Nodup) (os : Objects) (a : Nat) :
    (bs.foldl (fun os b => os.modify b f) os)[a]? = if a ∈ bs then os[a]?.map f else os[a]? := by
  induction bs generalizing os with
  | nil => rfl
  | cons b bs ih =>
    obtain ⟨hnotMem, hrest⟩ := List.nodup_cons.mp hbs
    rw [List.foldl_cons, ih hrest, List.getElem?_modify]
    by_cases hab : b = a
    · subst hab
      rw [if_neg hnotMem, if_pos List.mem_cons_self]
      simp
    · have hmem : a ∈ b :: bs ↔ a ∈ bs := by simp [Ne.symm hab]
      simp [hab, hmem]

theorem getElem?_trim (as : List Nat) (os : Objects) (n : PlanNode) (a : Nat) :
    (trim as os n)[a]? =
      if a ∈ os.attached n.key as then os[a]?.map (Object.keep n.keeps) else os[a]? :=
  getElem?_foldl_modify _ (nodup_eraseDups _) os a

theorem attached_congr {os' : Objects} {as : List Nat} (h : ∀ a ∈ as, os'[a]? = os[a]?) (key : String) :
    os'.attached key as = os.attached key as := by
  rw [attached, attached, List.flatMap_congr fun a ha => by rw [h a ha]]

/-- Trimming what the nodes of a level have attached, where no object is attached by two of them. -/
theorem getElem?_foldl_trim {nodes : List PlanNode} {as : List Nat}
    (happart : ∀ n ∈ nodes, ∀ b ∈ os.attached n.key as, b ∉ as)
    (hdisjoint : nodes.Pairwise fun n m => ∀ b ∈ os.attached n.key as, b ∉ os.attached m.key as) (a : Nat) :
    ((∀ n ∈ nodes, a ∉ os.attached n.key as) → (nodes.foldl (trim as) os)[a]? = os[a]?) ∧
      ∀ n ∈ nodes, a ∈ os.attached n.key as →
        (nodes.foldl (trim as) os)[a]? = os[a]?.map (Object.keep n.keeps) := by
  induction nodes generalizing os with
  | nil => exact ⟨fun _ => rfl, nofun⟩
  | cons m nodes ih =>
    obtain ⟨hhead, hrest⟩ := List.pairwise_cons.mp hdisjoint
    have hattached : ∀ n, (trim as os m).attached n as = os.attached n as := by
      refine fun key => attached_congr (fun b hb => ?_) key
      rw [getElem?_trim, if_neg fun hm => happart m List.mem_cons_self b hm hb]
    have happart' : ∀ n ∈ nodes, ∀ b ∈ (trim as os m).attached n.key as, b ∉ as := by
      intro n hn b hb
      rw [hattached] at hb
      exact happart n (List.mem_cons_of_mem m hn) b hb
    have hdisjoint' : nodes.Pairwise fun n n' =>
        ∀ b ∈ (trim as os m).attached n.key as, b ∉ (trim as os m).attached n'.key as := by
      simpa only [hattached] using hrest
    obtain ⟨hother, hmine⟩ := ih happart' hdisjoint'
    simp only [hattached] at hother hmine
    rw [List.foldl_cons]
    refine ⟨fun hnone => ?_, fun n hn ha => ?_⟩
    · rw [hother fun n hn => hnone n (List.mem_cons_of_mem m hn), getElem?_trim,
        if_neg (hnone m List.mem_cons_self)]
    · rcases List.mem_cons.mp hn with rfl | hn
      · rw [hother fun k hk hak => hhead k hk a ha hak, getElem?_trim, if_pos ha]
      · rw [hmine n hn ha, getElem?_trim, if_neg fun hm => hhead n hn a hm ha]

end Objects

end RelatedRows

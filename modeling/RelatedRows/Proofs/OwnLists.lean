import RelatedRows.Proofs.ObjectRuns

/-!
# Lists of one's own

Every list that is attached is made for the one row that it is attached to, also where several rows have the same key
and equal lists.  So what is done to the list of one row does not show in another.

* `Objects.Separate`: no two cells hold the same list.
* `ObjectMachine.separate_run`: in no run on objects do two cells come to hold the same list.
* `Objects.OwnLists`: objects have been given lists, of which no two are the same and none is an old one.
* `Objects.Apart.ownLists_attach`: attaching many rows to each of some objects gives them such lists.
-/

namespace RelatedRows

/-! ## The lists of objects -/

namespace Object

theorem lists_cons (f : String × Cell) (o : Object) : lists (f :: o) = f.2.list?.toList ++ lists o := by
  rw [lists, List.filterMap_cons]
  cases f.2.list? <;> rfl

@[simp] theorem lists_ofRow (row : Row) : (ofRow row).lists = [] := by
  refine List.filterMap_eq_nil_iff.mpr fun f hf => ?_
  obtain ⟨e, -, rfl⟩ := List.mem_map.mp hf
  rfl

/-- Writing into a cell brings no list but the one that is written. -/
theorem count_lists_set_le (list : Nat) (c : String) (cell : Cell) (o : Object) :
    (o.set c cell).lists.count list ≤ cell.list?.toList.count list + o.lists.count list := by
  induction o with
  | nil => rw [set, lists_cons, List.count_append]
  | cons f o ih =>
    obtain ⟨d, old⟩ := f
    rw [set]
    split
    · simp only [lists_cons, List.count_append]
      omega
    · simp only [lists_cons, List.count_append]
      omega

theorem count_lists_keep_le (list : Nat) (p : String → Bool) (o : Object) :
    (o.keep p).lists.count list ≤ o.lists.count list :=
  (List.filter_sublist.filterMap _).count_le list

end Object

namespace Objects

variable {os : Objects} {key : String} {list a : Nat}

theorem lists_append_ofRow (os : Objects) (rows : List Row) : (os ++ rows.map Object.ofRow).lists = os.lists := by
  rw [lists, List.flatMap_append, List.flatMap_map]
  simp [lists]

theorem count_lists_modify_le {f : Object → Object} {k : Nat}
    (h : ∀ o, (f o).lists.count list ≤ k + o.lists.count list) (a : Nat) (os : Objects) :
    (lists (os.modify a f)).count list ≤ k + os.lists.count list := by
  induction os generalizing a with
  | nil => simp [lists]
  | cons o os ih =>
    simp only [lists] at ih
    cases a with
    | zero =>
      have ho := h o
      simp only [lists, List.modify_zero_cons, List.flatMap_cons, List.count_append]
      omega
    | succ a =>
      have hos := ih a
      simp only [lists, List.modify_succ_cons, List.flatMap_cons, List.count_append]
      omega

theorem mem_lists_of_listAt (h : os.listAt key a = some list) : list ∈ os.lists := by
  obtain ⟨o, ho, h⟩ := Option.bind_eq_some_iff.mp h
  obtain ⟨cell, hcell, hlist⟩ := Option.bind_eq_some_iff.mp h
  obtain ⟨es, es', heq, -⟩ := List.lookup_eq_some_iff.mp hcell
  have hmem : (key, cell) ∈ o := heq ▸ List.mem_append_right es List.mem_cons_self
  exact List.mem_flatMap.mpr ⟨o, List.mem_of_getElem? ho, List.mem_filterMap.mpr ⟨_, hmem, hlist⟩⟩

theorem lt_newList (h : list ∈ os.lists) : list < os.newList :=
  Nat.lt_succ_of_le (List.le_max?_getD_of_mem h)

theorem not_mem_lists_of_newList_le (h : os.newList ≤ list) : list ∉ os.lists :=
  fun hmem => absurd (lt_newList hmem) (Nat.not_lt_of_le h)

/-! ## No list in two cells -/

def Separate (os : Objects) : Prop :=
  os.lists.Nodup

namespace Separate

theorem modify_ofLink (h : os.Separate) (a : Nat) (key : String) (link : Link) :
    Separate (os.modify a (Object.set key (.ofLink os.newList link))) := by
  rw [Separate, List.nodup_iff_count_le_one] at h ⊢
  intro list
  have hmodify := count_lists_modify_le (Object.count_lists_set_le list key (.ofLink os.newList link)) a os
  by_cases hlist : list = os.newList
  · have hcell : (Cell.ofLink os.newList link).list?.toList.count list ≤ 1 := by
      cases link with
      | one _ => exact Nat.zero_le 1
      | many _ => exact List.count_le_length
    have hnone : os.lists.count list = 0 :=
      List.count_eq_zero.mpr (not_mem_lists_of_newList_le (Nat.le_of_eq hlist.symm))
    omega
  · have hcell : (Cell.ofLink os.newList link).list?.toList.count list = 0 := by
      cases link with
      | one _ => rfl
      | many _ => exact List.count_eq_zero.mpr fun hmem => hlist (List.mem_singleton.mp hmem)
    have hold := h list
    omega

theorem linkAll (h : os.Separate) (l : Linking) (base : Nat) (key : String) (as : List Nat) :
    (linkAll l base key as os).2.Separate := by
  induction as generalizing os with
  | nil => exact h
  | cons a as ih =>
    unfold Objects.linkAll
    cases l.link (os.row 1 a) with
    | error f => exact h
    | ok link => exact ih (h.modify_ofLink a key _)

theorem attach (h : os.Separate) (l : Linking) (key : String) (as : List Nat) : (os.attach l key as).2.Separate := by
  refine linkAll ?_ l os.length key as
  rwa [Separate, lists_append_ofRow]

theorem trim (h : os.Separate) (as : List Nat) (n : PlanNode) : (trim as os n).Separate := by
  rw [Objects.trim]
  generalize os.attached n.key as = bs
  induction bs generalizing os with
  | nil => exact h
  | cons b bs ih =>
    refine ih ?_
    rw [Separate, List.nodup_iff_count_le_one] at h ⊢
    intro list
    have hkeep (o : Object) : (o.keep n.keeps).lists.count list ≤ 0 + o.lists.count list := by
      rw [Nat.zero_add]
      exact Object.count_lists_keep_le list n.keeps o
    have hmodify := count_lists_modify_le hkeep b os
    rw [Nat.zero_add] at hmodify
    exact hmodify.trans (h list)

theorem trimAll (h : os.Separate) (as : List Nat) (nodes : List PlanNode) :
    (nodes.foldl (Objects.trim as) os).Separate := by
  induction nodes generalizing os with
  | nil => exact h
  | cons n nodes ih => exact ih (h.trim as n)

end Separate

end Objects

/-! ## Runs -/

section Runs

variable {σ : Type} {exec : Executor σ} {g : Graph} {s : Shared σ} {os : Objects}

theorem ObjectTask.separate_step {n : PlanNode} {as : List Nat} {t : ObjectTask} {r : ObjectTask × Shared σ × Objects}
    (h : os.Separate) (hstep : t.step exec g n as s os = some r) : r.2.2.Separate := by
  cases t with
  | waiting =>
    cases hstep
    exact h
  | running load =>
    cases load with
    | ask q next =>
      rw [ObjectTask.step] at hstep
      split at hstep
      · cases hstep
      · cases hstep
        exact h
    | done r =>
      cases r with
      | error f =>
        cases hstep
        exact h
      | ok l =>
        cases hstep
        exact h.attach l n.key as
  | calling q next =>
    cases hstep
    exact h
  | finished r => cases hstep

theorem ObjectLevel.separate_step {place : List Nat} {lvl : ObjectLevel} {r : ObjectLevel × Shared σ × Objects}
    (h : os.Separate) (hstep : lvl.step exec g place s os = some r) : r.2.2.Separate := by
  induction place generalizing lvl r with
  | nil =>
    cases lvl with
    | loading nodes as tasks =>
      obtain ⟨results, -, rfl⟩ := Option.map_eq_some_iff.mp hstep
      exact h
    | nesting nodes as below =>
      obtain ⟨results, -, rfl⟩ := Option.map_eq_some_iff.mp hstep
      dsimp only
      unfold ofBelow
      split
      · exact h
      · exact h.trimAll as nodes
    | finished result => cases hstep
  | cons i place ih =>
    cases lvl with
    | loading nodes as tasks =>
      cases place with
      | nil =>
        obtain ⟨n, -, hstep⟩ := Option.bind_eq_some_iff.mp hstep
        obtain ⟨t, -, hstep⟩ := Option.bind_eq_some_iff.mp hstep
        obtain ⟨r, hr, hstep⟩ := Option.bind_eq_some_iff.mp hstep
        cases hstep
        exact ObjectTask.separate_step h hr
      | cons j place => cases hstep
    | nesting nodes as below =>
      rw [ObjectLevel.step] at hstep
      obtain ⟨b, -, hstep⟩ := Option.bind_eq_some_iff.mp hstep
      obtain ⟨r, hr, hstep⟩ := Option.bind_eq_some_iff.mp hstep
      cases hstep
      exact ih (r := r) hr
    | finished result => cases place <;> cases hstep

namespace ObjectMachine

variable {m m' : ObjectMachine σ}

theorem separate_step {place : List Nat} (h : m.objects.Separate) (hstep : m.step exec g place = some m') :
    m'.objects.Separate := by
  obtain ⟨r, hr, rfl⟩ := Option.map_eq_some_iff.mp hstep
  exact ObjectLevel.separate_step h hr

/-- Whatever the schedule is and wherever a run stands, no list is in two cells. -/
theorem separate_run {p : Plan} {own : List Row} {given : List Nat} {permits : Nat} {store : σ}
    {schedule : List (List Nat)} (hrun : (start p (own.map .ofRow) given permits store).run exec g schedule = some m) :
    m.objects.Separate := by
  have hstart : (start p (own.map .ofRow) given permits store).objects.Separate := by
    rw [start_objects, ← List.map_append, Objects.Separate, ← List.nil_append (List.map ..), Objects.lists_append_ofRow]
    exact List.nodup_nil
  generalize start p (own.map .ofRow) given permits store = m₀ at hstart hrun
  induction schedule generalizing m₀ with
  | nil =>
    cases hrun
    exact hstart
  | cons place schedule ih =>
    obtain ⟨m₁, hm₁, hrun⟩ := Option.bind_eq_some_iff.mp hrun
    exact ih m₁ (separate_step hstart hm₁) hrun

end ObjectMachine

end Runs

/-! ## New lists -/

namespace Objects

/-- Objects have been given lists under a key, of which no two are the same and none is one that there was before. -/
structure OwnLists (os : Objects) (key : String) (as : List Nat) (os' : Objects) : Prop where
  new : ∀ a ∈ as, ∃ list, os'.listAt key a = some list ∧ list ∉ os.lists
  apart : as.Pairwise fun a b => os'.listAt key a ≠ os'.listAt key b

/-- Objects that there are, each once.  What they refer to is there as well, and none of them. -/
structure Apart (os : Objects) (as : List Nat) : Prop where
  nodup : as.Nodup
  exist : ∀ a ∈ as, ∃ o, os[a]? = some o
  below : ∀ a ∈ as, ∀ o, os[a]? = some o → ∀ f ∈ o, ∀ b ∈ f.2.addresses, b < os.length ∧ b ∉ as

variable {os : Objects} {as : List Nat} {l : Linking}

/-- Lists are given out in the order of their addresses. -/
theorem Linkable.listAt_linkAll {base : Nat} (h : Linkable l base as os) (hl : l.Sound) (key : String)
    (hmany : ∀ a ∈ as, ∃ ps, l.link (os.row 1 a) = .ok (.many ps)) :
    (∀ a ∈ as, ∃ list, (linkAll l base key as os).2.listAt key a = some list ∧ os.newList ≤ list) ∧
      as.Pairwise fun a b =>
        (linkAll l base key as os).2.listAt key a ≠ (linkAll l base key as os).2.listAt key b := by
  induction as generalizing os with
  | nil => exact ⟨nofun, .nil⟩
  | cons a as ih =>
    have hnotMem := (List.nodup_cons.mp h.nodup).1
    obtain ⟨o, ho⟩ := h.exist a List.mem_cons_self
    obtain ⟨ps, hlink⟩ := hmany a List.mem_cons_self
    unfold linkAll
    rw [hlink]
    dsimp only
    have hself := List.getElem?_modify_eq (Object.set key (.ofLink os.newList (.relabel (base + ·) (.many ps)))) a os
    have hother : ∀ b, b ≠ a →
        (os.modify a (Object.set key (.ofLink os.newList (.relabel (base + ·) (.many ps)))))[b]? = os[b]? :=
      fun b hb => List.getElem?_modify_ne _ os hb.symm
    rw [ho] at hself
    generalize os.modify a (Object.set key (.ofLink os.newList (.relabel (base + ·) (.many ps)))) = os₁
      at hself hother ⊢
    have hlist {os' : Objects} (hself' : os'[a]? = os₁[a]?) : os'.listAt key a = some os.newList := by
      rw [listAt, hself', hself, Option.map_eq_map, Option.map_some, Option.bind_some]
      exact Option.bind_eq_some_iff.mpr ⟨_, Object.lookup_set_self, rfl⟩
    have hnext : os.newList < Objects.newList os₁ := lt_newList (mem_lists_of_listAt (hlist rfl))
    have hrest := h.of_cons hother
    have hrows := List.map_inj_left.mp (h.map_row_of_cons hother)
    obtain ⟨hnew, hapart⟩ := ih hrest fun b hb => by
      rw [hrows b hb]
      exact hmany b (List.mem_cons_of_mem a hb)
    have hhead := hlist ((hrest.linked key hl).same a hnotMem)
    refine ⟨fun b hb => ?_, List.pairwise_cons.mpr ⟨fun b hb heq => ?_, hapart⟩⟩
    · rcases List.mem_cons.mp hb with rfl | hb
      · exact ⟨_, hhead, Nat.le_refl _⟩
      · obtain ⟨list, hb, hle⟩ := hnew b hb
        exact ⟨list, hb, by omega⟩
    · obtain ⟨list, hb, hle⟩ := hnew b hb
      rw [hhead, hb] at heq
      cases heq
      omega

namespace Apart

/-- Objects that are made of rows refer to nothing. -/
theorem of_rows (rows : List Row) : Apart (rows.map Object.ofRow) (List.range rows.length) where
  nodup := List.nodup_range
  exist a ha := ⟨_, List.getElem?_eq_getElem (by simpa using ha)⟩
  below a _ o ho f hf b hb := by
    obtain ⟨row, -, rfl⟩ := List.mem_map.mp (List.mem_of_getElem? ho)
    rw [Object.flat_ofRow row f hf] at hb
    cases hb

theorem linkable (h : Apart os as) (l : Linking) :
    Linkable l os.length as (os ++ l.found.map Object.ofRow) where
  nodup := h.nodup
  exist a ha := by
    obtain ⟨o, ho⟩ := h.exist a ha
    exact ⟨o, (List.getElem?_append_left (List.getElem?_eq_some_iff.mp ho).1).trans ho⟩
  apart a ha o ho f hf b hb := by
    obtain ⟨o', ho'⟩ := h.exist a ha
    rw [List.getElem?_append_left (List.getElem?_eq_some_iff.mp ho').1] at ho
    exact (h.below a ha o ho f hf b hb).2
  found i row hrow := by
    refine ⟨fun hmem => ?_, getElem?_append_ofRow os hrow⟩
    obtain ⟨o, ho⟩ := h.exist _ hmem
    have hlt := (List.getElem?_eq_some_iff.mp ho).1
    omega

/-- Making objects of rows does not change the rows of those that there are. -/
theorem map_row_append (h : Apart os as) (rows : List Row) :
    as.map (row (os ++ rows.map Object.ofRow) 1) = as.map (os.row 1) := by
  refine List.map_congr_left fun a ha => ?_
  obtain ⟨o, ho⟩ := h.exist a ha
  exact row_one_congr (List.getElem?_append_left (List.getElem?_eq_some_iff.mp ho).1) fun o ho f hf b hb =>
    List.getElem?_append_left (h.below a ha o ho f hf b hb).1

/-- Attaching to objects is attaching to their rows. -/
theorem attach_eq (h : Apart os as) (hl : l.Sound) (key : String) :
    (os.attach l key as).1 = (l.attachment (as.map (os.row 1))).map (fun _ => ()) ∧
      as.map ((os.attach l key as).2.row 1) = l.attachTo key (as.map (os.row 1)) := by
  have hlinked := (h.linkable l).linked key hl
  rw [← h.map_row_append l.found]
  exact ⟨hlinked.result, hlinked.rows⟩

theorem ownLists_attach (h : Apart os as) (hl : l.Sound) (key : String)
    (hmany : ∀ a ∈ as, ∃ ps, l.link (os.row 1 a) = .ok (.many ps)) : OwnLists os key as (os.attach l key as).2 := by
  obtain ⟨hnew, hapart⟩ := (h.linkable l).listAt_linkAll hl key fun a ha => by
    rw [List.map_inj_left.mp (h.map_row_append l.found) a ha]
    exact hmany a ha
  refine ⟨fun a ha => ?_, hapart⟩
  obtain ⟨list, hlist, hle⟩ := hnew a ha
  refine ⟨list, hlist, ?_⟩
  rw [← lists_append_ofRow os l.found]
  exact not_mem_lists_of_newList_le hle

end Apart

end Objects

end RelatedRows

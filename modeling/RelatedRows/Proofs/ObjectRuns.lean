import RelatedRows.Proofs.Lockstep

/-!
# Objects of a caller

Stitching works on copies of the objects that it is given.  In no run on objects is an object of the caller written to,
and what the run comes to is what the same run on rows comes to.

* `ObjectMachine.Matches own m m'`: a machine on objects matches one on rows, and the objects of the caller still hold
  the rows `own`.
* `ObjectMachine.matches_run`: whatever the schedule is, the machines match.
-/

namespace RelatedRows

open Objects

/-- The objects at some addresses come to hold some rows, once references are followed far enough. -/
def Objects.Hold (os : Objects) (as : List Nat) (rows : List Row) : Prop :=
  ∃ depth, ∀ d, depth ≤ d → as.map (os.row d) = rows

/-- The rows that are given by the addresses of their objects. -/
def rowsAt (own : List Row) (given : List Nat) : List Row :=
  given.map fun a => (own[a]?).getD []

namespace ObjectMachine

variable {σ : Type}

structure Matches (own : List Row) (m : ObjectMachine σ) (m' : Machine σ) : Prop where
  shared : m.shared = m'.shared
  /-- The objects of the caller are as they were. -/
  untouched : m.objects.take own.length = own.map .ofRow
  /-- None of the objects that are returned is one of the caller. -/
  fresh : ∀ as, m.root.result? = some (.ok as) → ∀ a ∈ as, own.length ≤ a
  result : Option.Rel (Except.Agree m.objects.Hold) m.root.result? m'.result?

/-- A machine on objects stands for one on rows; the objects of the caller belong to no place. -/
structure Mirrors (own : List Row) (as : List Nat) (m : ObjectMachine σ) (m' : Machine σ) (labels : Labels) : Prop where
  shared : m.shared = m'.shared
  placed : Placed labels m.objects
  root : m.root.Mirrors labels m.objects [] as m'.root
  own_label : ∀ a, a < own.length → labels[a]? = some none
  own_object : ∀ a, a < own.length → m.objects[a]? = (own.map .ofRow)[a]?

variable {own : List Row} {given as : List Nat} {m : ObjectMachine σ} {m' : Machine σ} {labels : Labels}

theorem Mirrors.matches (h : Mirrors own as m m' labels) : Matches own m m' where
  shared := h.shared
  untouched := by
    refine List.ext_getElem? fun a => ?_
    rw [List.getElem?_take]
    split
    · next ha => exact h.own_object a ha
    · next ha => rw [List.getElem?_eq_none (by rw [List.length_map]; omega)]
  fresh bs hbs a ha := by
    by_contra hlt
    have hroot := h.root
    generalize m.root = lvl, m'.root = st at hbs hroot
    cases hroot with
    | finished hplaced depth hrows =>
      cases hbs
      have hlabel := hplaced a ha
      rw [Labels.At, h.own_label a (by omega)] at hlabel
      cases hlabel
    | _ => cases hbs
  result := by
    rw [Machine.result?]
    have hroot := h.root
    generalize m.root = lvl, m'.root = st at hroot
    cases hroot with
    | failed f => exact .some (.error f)
    | finished hplaced depth hrows => exact .some (.ok ⟨depth, hrows⟩)
    | _ => exact .none

theorem Mirrors.step (exec : Executor σ) (g : Graph) (h : Mirrors own as m m' labels) (place : List Nat) :
    Option.Rel (fun n n' => ∃ labels', Mirrors own as n n' labels') (m.step exec g place) (m'.step exec g place) := by
  have hstep := h.root.step exec g h.placed place m.shared
  rw [ObjectMachine.step, Machine.step, ← h.shared]
  generalize m.root.step exec g place m.shared m.objects = r, m'.root.step exec g place m.shared = r' at hstep
  cases hstep with
  | none => exact .none
  | some hr =>
    obtain ⟨hshared, labels', hgrows, hmirrors⟩ := hr
    refine .some ⟨labels', hshared, hgrows.placed, hmirrors, fun a ha => ?_, fun a ha => ?_⟩
    · have hlt : a < labels.length := (List.getElem?_eq_some_iff.mp (h.own_label a ha)).1
      exact (hgrows.old a hlt).trans (h.own_label a ha)
    · have hlt : a < labels.length := (List.getElem?_eq_some_iff.mp (h.own_label a ha)).1
      refine (hgrows.same a (h.placed.length_eq ▸ hlt) fun rest hat => ?_).trans (h.own_object a ha)
      rw [Labels.At, h.own_label a ha] at hat
      cases hat

theorem Mirrors.run (exec : Executor σ) (g : Graph) (h : Mirrors own as m m' labels) (schedule : List (List Nat)) :
    Option.Rel (fun n n' => ∃ labels', Mirrors own as n n' labels') (m.run exec g schedule)
      (m'.run exec g schedule) := by
  induction schedule generalizing m m' labels with
  | nil => exact .some ⟨labels, h⟩
  | cons place schedule ih =>
    rw [ObjectMachine.run, Machine.run, List.foldlM_cons, List.foldlM_cons]
    have hstep := h.step exec g place
    generalize m.step exec g place = n?, m'.step exec g place = n'? at hstep
    cases hstep with
    | none => exact .none
    | some hn =>
      obtain ⟨labels', hn⟩ := hn
      exact ih hn

theorem start_objects (p : Plan) (own : List Row) (given : List Nat) (permits : Nat) (store : σ) :
    (start p (own.map .ofRow) given permits store).objects =
      own.map Object.ofRow ++ (rowsAt own given).map Object.ofRow := by
  refine congrArg (own.map Object.ofRow ++ ·) ?_
  rw [rowsAt, List.map_map]
  refine List.map_congr_left fun a _ => ?_
  rw [Function.comp, List.getElem?_map]
  cases own[a]? <;> rfl

/-- Only the copies of the given rows belong to a place, which is the root. -/
theorem at_start_iff {place : List Nat} {a : Nat} :
    (Labels.extend (own.map fun _ => none) [] (rowsAt own given)).At place a ↔
      own.length ≤ a ∧ a < own.length + given.length ∧ place = [] := by
  rw [Labels.at_extend_iff, List.length_map, rowsAt, List.length_map]
  refine or_iff_right fun hat => ?_
  obtain ⟨row, -, hnone⟩ := List.mem_map.mp (List.mem_of_getElem? hat)
  cases hnone

/-- At the start there are the objects of the caller, and copies of those that are given. -/
theorem mirrors_start {p : Plan} (hp : NodesDistinct p.nodes) (own : List Row) (given : List Nat) (permits : Nat)
    (store : σ) :
    Mirrors own (List.range' own.length given.length) (start p (own.map .ofRow) given permits store)
      (.start p (rowsAt own given) permits store)
      (Labels.extend (own.map fun _ => none) [] (rowsAt own given)) := by
  have hobjects := start_objects p own given permits store
  have hlength : (rowsAt own given).length = given.length := List.length_map ..
  have hown : (own.map Object.ofRow).length = own.length := List.length_map ..
  refine ⟨rfl, ?_, ?_, fun a ha => ?_, fun a ha => ?_⟩
  · rw [hobjects]
    exact (Grows.extend (placed_ofRow own) [] [] (rowsAt own given)).placed
  · have hroot : (start p (own.map .ofRow) given permits store).root =
        .start (p.level [] (rowsAt own given)).nodes (List.range' own.length given.length) := by
      rw [start, List.length_map]
      rfl
    rw [hobjects, hroot]
    refine ObjectLevel.Mirrors.start (l := p.level [] (rowsAt own given)) hp (List.nodup_range' ..) (fun a ha => ?_)
      (fun rest a ha => (at_start_iff.mp ha).2.2) (fun a _ o ho => ?_) fun depth => ?_
    · rw [List.mem_range'_1] at ha
      exact at_start_iff.mpr ⟨ha.1, ha.2, rfl⟩
    · rw [← List.map_append] at ho
      obtain ⟨row, -, rfl⟩ := List.mem_map.mp (List.mem_of_getElem? ho)
      exact Object.flat_ofRow row
    · show _ = rowsAt own given
      refine List.ext_getElem (by rw [List.length_map, List.length_range', hlength]) fun i _ hi => ?_
      have ho := getElem?_append_ofRow (own.map Object.ofRow) (List.getElem?_eq_getElem hi)
      rw [hown] at ho
      rw [List.getElem_map, List.getElem_range', Nat.one_mul, row_of_flat ho]
  · rw [Labels.extend, List.getElem?_append_left (by rwa [List.length_map]), List.getElem?_map,
      List.getElem?_eq_getElem ha, Option.map_some]
  · rw [hobjects, List.getElem?_append_left (by rwa [hown])]

/-- Whatever the schedule is, a run on objects goes on as the run on rows does, and leaves the objects of the caller as
they were. -/
theorem matches_run (exec : Executor σ) (g : Graph) {p : Plan} (hp : NodesDistinct p.nodes) (own : List Row)
    (given : List Nat) (permits : Nat) (store : σ) (schedule : List (List Nat)) :
    Option.Rel (Matches own) ((start p (own.map .ofRow) given permits store).run exec g schedule)
      ((Machine.start p (rowsAt own given) permits store).run exec g schedule) := by
  have hrun := (mirrors_start hp own given permits store).run exec g schedule
  generalize (start p (own.map .ofRow) given permits store).run exec g schedule = m?,
    (Machine.start p (rowsAt own given) permits store).run exec g schedule = m'? at hrun
  cases hrun with
  | none => exact .none
  | some hm =>
    obtain ⟨labels, hm⟩ := hm
    exact .some hm.matches

/-- In no run are the objects of the caller written to. -/
theorem untouched_of_run {exec : Executor σ} {g : Graph} {p : Plan} (hp : NodesDistinct p.nodes) {own : List Row}
    {given : List Nat} {permits : Nat} {store : σ} {schedule : List (List Nat)}
    (hrun : (start p (own.map .ofRow) given permits store).run exec g schedule = some m) :
    m.objects.take own.length = own.map .ofRow := by
  have hmatches := matches_run exec g hp own given permits store schedule
  rw [hrun] at hmatches
  generalize (Machine.start p (rowsAt own given) permits store).run exec g schedule = m'? at hmatches
  cases hmatches with
  | some h => exact h.untouched

/-- Every run on rows is one on objects. -/
theorem exists_run {exec : Executor σ} {g : Graph} {p : Plan} (hp : NodesDistinct p.nodes) {own : List Row}
    {given : List Nat} {permits : Nat} {store : σ}
    (hreaches : (Machine.start p (rowsAt own given) permits store).Reaches exec g m') :
    ∃ schedule m, (start p (own.map .ofRow) given permits store).run exec g schedule = some m ∧ m.Matches own m' := by
  obtain ⟨schedule, hrun⟩ := hreaches
  have hmatches := matches_run exec g hp own given permits store schedule
  rw [hrun] at hmatches
  generalize hm : (start p (own.map .ofRow) given permits store).run exec g schedule = m? at hmatches
  cases hmatches with
  | some h => exact ⟨schedule, _, hm, h⟩

end ObjectMachine

end RelatedRows

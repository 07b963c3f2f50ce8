import RelatedRows.Proofs.Wakeups

/-!
# Runs in turns end

Over a store that takes its time, the queue of turns does not run dry before there is a result.

* `Turns.take_enter`, `take_ended`, `take_proceed`: the turns of a level.
* `Turns.Due.take`: whatever the turn, there are fewer turns to go after it.
* `isSome_stitchInTurns`: stitching takes no more turns than it is given, and ends with a result.
-/

namespace RelatedRows

open LevelState

namespace Turns

variable {σ : Type} {s : Turns σ} {exec : Executor σ} {g : Graph} {waits permits m : Nat} {place : List Nat}
  {st : LevelState}

/-! ## Levels that hear of an end -/

/-- A turn of a level leads to the level. -/
theorem Due.find {t : Turn} (h : Due waits permits t s m) (place : List Nat) (hplace : t.place = place) :
    ∃ st T₁ m₁ T₂ m₂, Found waits [] s.machine.root ({.turn t} + s.tickets) m place st T₁ m₁ T₂ m₂ ∧
      st.Holds waits place T₁ m₁ ∧ .turn t ∈ T₁ := by
  subst hplace
  have hmem : .turn t ∈ {.turn t} + s.tickets := Multiset.mem_add.mpr (.inl (Multiset.mem_singleton_self _))
  obtain ⟨st, T₁, m₁, T₂, m₂, hfound⟩ := h.holds.find_root hmem
  exact ⟨st, T₁, m₁, T₂, m₂, hfound, hfound.holds, hfound.mem hmem⟩

theorem allEnded_iff (h : s.machine.root.at? place = some st) : s.allEnded place = true ↔ st.AllEnded := by
  rw [allEnded, h]
  cases st with
  | loading l tasks => exact List.all_eq_true
  | nesting path rows loaded below => exact List.all_eq_true
  | finished r => exact iff_of_false Bool.false_ne_true id

/-- The end that a level has just heard of is the last one. -/
theorem lastEnd_iff (h : s.machine.root.at? place = some st) :
    (s.allEnded place && !s.queue.contains (.ended place)) = true ↔
      st.AllEnded ∧ .turn (.ended place) ∉ s.tickets := by
  rw [Bool.and_eq_true, allEnded_iff h, Bool.not_eq_true', ← Bool.not_eq_true, List.contains_iff_mem,
    ← mem_tickets_turn]

/-- A level hears of an end. -/
theorem take_ended (h : Due waits permits (.ended place) s m) :
    ∃ m' < m, Orderly waits permits (s.take exec g waits (.ended place)) m' := by
  obtain ⟨st, T₁, m₁, T₂, m₂, hfound, hst, hx⟩ := h.find place rfl
  obtain ⟨T', m', hT', rfl, htold⟩ := hst.tell hx
  obtain ⟨hat, -, hT, rfl, hframe⟩ := hfound
  rw [hT', add_assoc] at hT
  have hT := add_left_cancel hT
  have hroot := put_self hat
  have hfar : .turn (.ended place) ∉ T₂ := fun hmem => hframe.apart _ hmem List.prefix_rfl
  refine ⟨m' + m₂, by omega, ?_⟩
  rw [take]
  split
  · next hlast =>
    rw [lastEnd_iff hat, hT] at hlast
    -- levels below would have been entered before this end was heard of
    have henter : ∀ i, .turn (.enter (place ++ [i])) ∉ T' := by
      intro i hmem
      have hmem' : .turn (.enter (place ++ [i])) ∈ s.tickets := hT ▸ Multiset.mem_add.mpr (.inl hmem)
      exact (List.pairwise_cons.mp h.order).1 _ (mem_tickets_turn.mp hmem') place i rfl rfl
    obtain ⟨hzero, hproceed⟩ :=
      htold.goes_on hlast.1 (fun hmem => hlast.2 (Multiset.mem_add.mpr (.inl hmem))) henter
    refine ⟨?_, ?_, h.order_tail.concat rfl⟩
    · rw [tickets_put_single, hT, hzero, zero_add]
      have hnew := hframe.holds _ _ _ hproceed (.inl (Multiset.singleton_ne_zero _))
      rwa [hroot] at hnew
    · rw [tickets_put_single]
      exact (h.kept.of_add rfl).turn rfl
  · next hmore =>
    have hne : T' ≠ 0 := by
      intro hzero
      refine hmore ((lastEnd_iff hat).mpr ⟨htold.last hzero, ?_⟩)
      rwa [hT, hzero, zero_add]
    refine ⟨?_, h.kept.of_add rfl, h.order_tail⟩
    have hnew := hframe.holds _ _ _ (htold.holds hne) (.inl hne)
    rwa [hroot, ← hT] at hnew

/-- A level that has finished lets the level above hear of it. -/
theorem orderly_leave {r : Except Fault (List Row)} (hat : s.machine.root.at? place = some (.finished r))
    (hframe : Frame waits [] s.machine.root place s.tickets m)
    (hkept : PermitsKept permits s.machine.shared.permits s.tickets) (horder : InOrder s.queue) :
    ∃ m' ≤ 1 + m, Orderly waits permits (s.leave place) m' := by
  have hroot := put_self hat
  rw [leave]
  split
  · next hplace =>
    have hnew := hframe.holds (.finished r) 0 0 (.told r) (.inr (List.isEmpty_iff.mp hplace))
    rw [hroot, zero_add, Nat.zero_add] at hnew
    exact ⟨m, by omega, hnew, hkept, horder⟩
  · next hplace =>
    rw [List.isEmpty_iff] at hplace
    have hnew := hframe.holds (.finished r) _ 1 (.ended r hplace) (.inl (Multiset.singleton_ne_zero _))
    rw [hroot] at hnew
    refine ⟨1 + m, Nat.le_refl _, ?_, ?_, horder.concat rfl⟩
    · rw [tickets_put_single]
      exact hnew
    · rw [tickets_put_single]
      exact hkept.turn rfl

/-! ## Entering levels -/

theorem turnsBelow_add (waits : Nat) (nodes : List PlanNode) :
    nodes.length * (2 * waits + 6) + turnsBelow waits nodes = (2 * waits + 10) * nodesSize nodes := by
  induction nodes with
  | nil => simp [turnsBelow, nodesSize]
  | cons n nodes ih =>
    have hcons : turnsBelow waits (n :: nodes) = (2 * waits + 10) * n.size + 4 + turnsBelow waits nodes := rfl
    have hsize : (2 * waits + 10) * (n.size + 1) = (2 * waits + 10) * n.size + (2 * waits + 10) := Nat.mul_succ ..
    rw [hcons, nodesSize, List.length_cons, Nat.succ_mul, Nat.mul_add (2 * waits + 10) (n.size + 1), hsize, ← ih]
    omega

/-- The tickets that a list of turns stands for. -/
theorem coe_map_turn_range (count : Nat) (f : Nat → Turn) :
    (((List.range count).map f).map Ticket.turn : Multiset Ticket) =
      ∑ i ∈ Finset.range count, ({.turn (f i)} : Multiset Ticket) := by
  induction count with
  | zero => rfl
  | succ count ih =>
    rw [List.range_succ, List.map_append, List.map_append, ← Multiset.coe_add, ih, Finset.sum_range_succ]
    rfl

/-- The loads of a level that has been entered stand at their starts. -/
theorem holds_entered (l : Level) (hnodes : l.nodes ≠ []) :
    (LevelState.loading l (l.nodes.map fun _ => .waiting)).Holds waits place
      (((List.range l.nodes.length).map (Turn.start place)).map Ticket.turn : Multiset Ticket)
      ((2 * waits + 10) * nodesSize l.nodes + 3) := by
  have hlen : (l.nodes.map fun _ => Task.waiting).length = l.nodes.length := List.length_map ..
  have hholds := @Holds.loading waits place l _ (fun i => {.turn (.start place i)}) (fun _ => 2 * waits + 6) hlen
    (fun i t ht => ?_) ?_
  · rw [hlen, Finset.sum_const_nat fun _ _ => rfl, Finset.card_range, ← Nat.add_assoc, turnsBelow_add] at hholds
    rwa [coe_map_turn_range]
  · rw [List.getElem?_map] at ht
    obtain ⟨n, -, rfl⟩ := Option.map_eq_some_iff.mp ht
    exact .waiting
  · intro hzero
    have hpos : 0 < l.nodes.length := List.length_pos_iff.mpr hnodes
    have hfirst := Finset.sum_eq_zero_iff.mp hzero 0 (Finset.mem_range.mpr (hlen ▸ hpos))
    exact Multiset.singleton_ne_zero _ hfirst

/-- A level is entered. -/
theorem take_enter (h : Due waits permits (.enter place) s m) :
    ∃ m' < m, Orderly waits permits (s.take exec g waits (.enter place)) m' := by
  obtain ⟨st, T₁, m₁, T₂, m₂, ⟨hat, -, hT, rfl, hframe⟩, hst, hx⟩ := h.find place rfl
  obtain ⟨hplace, rfl, hkind⟩ := hst.of_enter hx
  have hT := add_left_cancel hT
  rw [← hT] at hframe
  rw [take, enter, hat]
  rcases hkind with ⟨l, rfl, hnodes, rfl⟩ | ⟨⟨r, rfl⟩, rfl⟩
  · refine ⟨(2 * waits + 10) * nodesSize l.nodes + 3 + m₂, by omega, ?_, ?_, h.order_tail.append fun t ht => ?_⟩
    · rw [tickets_put]
      have hnew := hframe.holds _ _ _ (holds_entered l hnodes) (.inl (by simpa using hnodes))
      rwa [put_self hat] at hnew
    · rw [tickets_put]
      refine (h.kept.of_add rfl).turns fun t ht => ?_
      obtain ⟨i, -, rfl⟩ := List.mem_map.mp ht
      rfl
    · obtain ⟨i, -, rfl⟩ := List.mem_map.mp ht
      rfl
  · obtain ⟨m', hle, horderly⟩ := orderly_leave hat hframe (h.kept.of_add rfl) h.order_tail
    exact ⟨m', by omega, horderly⟩

/-! ## After the loads of a level -/

variable (exec g) in
/-- A level goes on after the levels below it. -/
theorem orderly_settle {path : List String} {rows : List Row} {loaded : List Loaded} {below : List LevelState}
    (hat : s.machine.root.at? place = some (.nesting path rows loaded below))
    (hall : ∀ b ∈ below, b.result?.isSome = true) (hframe : Frame waits [] s.machine.root place s.tickets m)
    (hkept : PermitsKept permits s.machine.shared.permits s.tickets) (horder : InOrder s.queue) :
    ∃ r, (s.stepAt exec g place).machine.root.at? place = some (.finished r) ∧
      ∃ m' ≤ 1 + m, Orderly waits permits ((s.stepAt exec g place).leave place) m' := by
  obtain ⟨results, hresults⟩ := exists_mapM_of_isSome hall
  have hstep : LevelState.step exec g [] (.nesting path rows loaded below) s.machine.shared =
      some (ofBelow path rows loaded results, s.machine.shared) := by
    rw [LevelState.step, hresults]
    rfl
  have hroot := step_put hat hstep
  rw [List.append_nil] at hroot
  rw [stepAt_eq hroot]
  exact ⟨_, at?_put hat _, orderly_leave (s := { s with machine := ⟨s.machine.shared, _⟩ }) (at?_put hat _)
    (hframe.put _) hkept horder⟩

/-- The level below a node is to be entered if the node has a plan of its own; otherwise there is nothing to do. -/
theorem holds_below (waits : Nat) (path : List String) (n : Loaded) (place : List Nat) (i : Nat) :
    ∃ m ≤ (2 * waits + 10) * n.1.size + 4, (n.below path).start.Holds waits (place ++ [i])
      (if n.1.nested?.isSome = true then {.turn (.enter (place ++ [i]))} else 0) m := by
  obtain ⟨n, att⟩ := n
  have hplace : place ++ [i] ≠ [] := by simp
  cases n with
  | leaf step =>
    have hidle : (Loaded.below path (.leaf step, att)).isIdle = true := Bool.or_true _
    rw [Level.start, if_pos hidle]
    exact ⟨0, Nat.zero_le _, .told _⟩
  | branch step p =>
    have hnodes : (Loaded.below path (.branch step p, att)).nodes = p.nodes := rfl
    have hsize : (PlanNode.branch step p).size = nodesSize p.nodes := by
      cases p
      rfl
    rw [Level.start, hsize, ← hnodes]
    split
    · exact ⟨2, by omega, .idle _ hplace⟩
    · next hbusy =>
      refine ⟨_, Nat.le_refl _, .outside hplace fun hnone => hbusy ?_⟩
      rw [Level.isIdle, hnone]
      exact Bool.or_true _

theorem coe_map_filter_zipIdx {α : Type} (p : α → Bool) (f : Nat → Turn) (xs : List α) (k : Nat) :
    (((((xs.zipIdx k).filter fun c => p c.1).map fun c => f c.2).map Ticket.turn : List Ticket) : Multiset Ticket) =
      ∑ i ∈ Finset.range xs.length, if xs[i]?.any p = true then {.turn (f (k + i))} else 0 := by
  induction xs generalizing k with
  | nil => rfl
  | cons x xs ih =>
    have hshift :
        ∑ i ∈ Finset.range xs.length, (if (x :: xs)[i + 1]?.any p = true then {.turn (f (k + (i + 1)))} else 0) =
          ∑ i ∈ Finset.range xs.length,
            (if xs[i]?.any p = true then {.turn (f (k + 1 + i))} else 0 : Multiset Ticket) := by
      refine Finset.sum_congr rfl fun i _ => ?_
      rw [List.getElem?_cons_succ, Nat.add_assoc, Nat.add_comm 1]
    rw [List.zipIdx_cons, List.length_cons, Finset.sum_range_succ', hshift, ← ih, List.filter_cons]
    by_cases hx : p x = true
    · have hany : (x :: xs)[0]?.any p = true := hx
      rw [if_pos hx, if_pos hany, List.map_cons, List.map_cons, ← Multiset.cons_coe]
      exact (Multiset.singleton_add ..).symm.trans (add_comm ..)
    · have hany : ¬(x :: xs)[0]?.any p = true := hx
      rw [if_neg hx, if_neg hany, add_zero]

theorem sum_range_le_sum_map {α : Type} {xs : List α} {f : Nat → Nat} {g : α → Nat}
    (h : ∀ (i : Nat) x, xs[i]? = some x → f i ≤ g x) : ∑ i ∈ Finset.range xs.length, f i ≤ (xs.map g).sum := by
  induction xs generalizing f with
  | nil => exact Nat.le_refl 0
  | cons x xs ih =>
    rw [List.length_cons, Finset.sum_range_succ', List.map_cons, List.sum_cons, Nat.add_comm]
    exact Nat.add_le_add (h 0 x rfl) (ih fun i y hy => h (i + 1) y hy)

theorem filter_zipIdx_eq_nil_iff {α : Type} {p : α → Bool} {xs : List α} {k : Nat} :
    ((xs.zipIdx k).filter fun c => p c.1) = [] ↔ ∀ x ∈ xs, ¬p x = true := by
  have hfst : (((xs.zipIdx k).filter fun c => p c.1).map Prod.fst) = xs.filter p := by
    rw [← List.zipIdx_map_fst k xs, List.filter_map, List.zipIdx_map_fst]
    rfl
  rw [← List.map_eq_nil_iff, hfst, List.filter_eq_nil_iff]

/-- After its loads a level waits for those below it that are to be entered. -/
theorem holds_nesting {path : List String} {rows : List Row} {loaded : List Loaded}
    (hentered : ∃ n ∈ loaded, n.1.nested?.isSome = true) :
    ∃ m ≤ turnsBelow waits (loaded.map (·.1)) + 2,
      (LevelState.nesting path rows loaded (loaded.map fun n => (n.below path).start)).Holds waits place
        (((loaded.zipIdx.filter fun c => c.1.1.nested?.isSome).map fun c => Turn.enter (place ++ [c.2])).map
          Ticket.turn : List Ticket) m := by
  have hbelow : ∀ i, ∃ m, ∀ n : Loaded, loaded[i]? = some n → m ≤ (2 * waits + 10) * n.1.size + 4 ∧
      (n.below path).start.Holds waits (place ++ [i])
        (if n.1.nested?.isSome = true then {.turn (.enter (place ++ [i]))} else 0) m := by
    intro i
    cases hn : loaded[i]? with
    | none => exact ⟨0, fun _ hnone => by cases hnone⟩
    | some n =>
      obtain ⟨m, hm⟩ := holds_below waits path n place i
      refine ⟨m, fun n' hn' => ?_⟩
      cases hn'
      exact hm
  choose m hm using hbelow
  have htickets := coe_map_filter_zipIdx (fun n : Loaded => n.1.nested?.isSome) (fun i => .enter (place ++ [i]))
    loaded 0
  have hlen : (loaded.map fun n => (n.below path).start).length = loaded.length := List.length_map ..
  have hholds := @Holds.nesting waits place path rows loaded (loaded.map fun n => (n.below path).start)
    (fun i => if loaded[i]?.any (fun n => n.1.nested?.isSome) = true then {.turn (.enter (place ++ [0 + i]))} else 0) m
    (fun i b hb => ?_) ?_
  · rw [hlen, ← htickets] at hholds
    refine ⟨_, ?_, hholds⟩
    rw [turnsBelow, List.map_map]
    exact Nat.add_le_add_right (sum_range_le_sum_map fun i n hn => (hm i n hn).1) 2
  · rw [List.getElem?_map] at hb
    obtain ⟨n, hn, rfl⟩ := Option.map_eq_some_iff.mp hb
    have hni := (hm i n hn).2
    rw [hn, Nat.zero_add]
    exact hni
  · rw [hlen, ← htickets, Ne, Multiset.coe_eq_zero, List.map_eq_nil_iff, List.map_eq_nil_iff]
    obtain ⟨n, hn, hnested⟩ := hentered
    intro hnone
    exact filter_zipIdx_eq_nil_iff (p := fun n : Loaded => n.1.nested?.isSome).mp hnone n hn hnested

/-- A level that has just gone on after its loads has the levels below it entered. -/
theorem orderly_nest {path : List String} {rows : List Row} {loaded : List Loaded}
    (hat : s.machine.root.at? place = some (.nesting path rows loaded (loaded.map fun n => (n.below path).start)))
    (hframe : Frame waits [] s.machine.root place s.tickets m)
    (hkept : PermitsKept permits s.machine.shared.permits s.tickets) (horder : InOrder s.queue)
    (hentered : ∃ n ∈ loaded, n.1.nested?.isSome = true) :
    ∃ m' ≤ turnsBelow waits (loaded.map (·.1)) + 2 + m, Orderly waits permits
      (s.put ((loaded.zipIdx.filter fun c => c.1.1.nested?.isSome).map fun c => .enter (place ++ [c.2]))) m' := by
  obtain ⟨m', hle, hholds⟩ := @holds_nesting waits place path rows loaded hentered
  refine ⟨m' + m, by omega, ?_, ?_, ?_⟩
  · rw [tickets_put]
    have hnew := hframe.holds _ _ _ hholds (.inl fun hzero => ?_)
    · rwa [put_self hat] at hnew
    · rw [hzero] at hholds
      cases hholds.of_zero.1
  · rw [tickets_put]
    refine hkept.turns fun t ht => ?_
    obtain ⟨c, -, rfl⟩ := List.mem_map.mp ht
    rfl
  · refine List.pairwise_append.mpr ⟨horder, ?_, ?_⟩
    · refine List.pairwise_of_forall_mem_list fun a ha b _ place' i heq => ?_
      obtain ⟨c, -, rfl⟩ := List.mem_map.mp ha
      cases heq
    -- nothing that the queue still holds is about this level, so no end is heard of here before the levels are entered
    · rintro a ha b hb place' i rfl heq
      obtain ⟨c, -, rfl⟩ := List.mem_map.mp hb
      have hplace : place' = place := (List.append_inj' (Turn.enter.inj heq) rfl).1.symm
      subst hplace
      exact hframe.apart _ (mem_tickets_turn.mpr ha) List.prefix_rfl

variable (exec g) in
/-- A level goes on after its loads. -/
theorem orderly_proceed {l : Level} {tasks : List Task} (hat : s.machine.root.at? place = some (.loading l tasks))
    (hlen : tasks.length = l.nodes.length) (hall : ∀ t ∈ tasks, t.result?.isSome = true)
    (hframe : Frame waits [] s.machine.root place s.tickets m)
    (hkept : PermitsKept permits s.machine.shared.permits s.tickets) (horder : InOrder s.queue) :
    ∃ m' ≤ turnsBelow waits l.nodes + 2 + m, Orderly waits permits (s.proceed exec g place) m' := by
  obtain ⟨results, hresults⟩ := exists_mapM_of_isSome hall
  have hresultsLen : results.length = l.nodes.length := by
    rwa [eq_map_of_mapM (fun _ _ => Task.eq_finished) hresults, List.length_map] at hlen
  have hstep : LevelState.step exec g [] (.loading l tasks) s.machine.shared =
      some (ofLoads l results, s.machine.shared) := by
    rw [LevelState.step, hresults]
    rfl
  have hroot := step_put hat hstep
  rw [List.append_nil] at hroot
  have hat' := at?_put hat (ofLoads l results)
  replace hframe := hframe.put (ofLoads l results)
  rw [proceed, stepAt_eq hroot]
  dsimp only
  rw [hat']
  cases hatts : results.mapM id with
  | error f =>
    rw [ofLoads_of_error hresultsLen hatts] at hat' hframe ⊢
    obtain ⟨m', hle, horderly⟩ := orderly_leave (s := { s with machine := ⟨s.machine.shared, _⟩ }) hat' hframe hkept
      horder
    exact ⟨m', by omega, horderly⟩
  | ok atts =>
    rw [ofLoads_of_ok hresultsLen hatts] at hat' hframe ⊢
    have hnodes : turnsBelow waits l.nodes = turnsBelow waits ((l.nodes.zip atts).map (·.1)) := by
      rw [List.map_fst_zip (Nat.le_of_eq ((Except.length_of_mapM hatts).trans hresultsLen).symm)]
    rw [hnodes]
    generalize (l.nodes.zip atts : List Loaded) = loaded at hat' hframe ⊢
    dsimp only
    split
    · next hnone =>
      have hdone : ∀ b ∈ loaded.map fun n => (Loaded.below l.path n).start, b.result?.isSome = true := by
        intro b hb
        obtain ⟨n, hn, rfl⟩ := List.mem_map.mp hb
        obtain ⟨m', -, hholds⟩ := holds_below waits l.path n [] 0
        rw [if_neg (filter_zipIdx_eq_nil_iff (p := fun n : Loaded => n.1.nested?.isSome).mp hnone n hn)] at hholds
        exact hholds.of_zero.1
      obtain ⟨-, -, m', hle, horderly⟩ := orderly_settle (s := { s with machine := ⟨s.machine.shared, _⟩ }) exec g
        hat' hdone hframe hkept horder
      exact ⟨m', by omega, horderly⟩
    · next hsome =>
      have hentered : ∃ n ∈ loaded, n.1.nested?.isSome = true := by
        by_contra hnone
        have hleaves : ∀ n ∈ loaded, ¬n.1.nested?.isSome = true := fun n hn hnested => hnone ⟨n, hn, hnested⟩
        exact hsome (filter_zipIdx_eq_nil_iff (p := fun n : Loaded => n.1.nested?.isSome).mpr hleaves)
      exact orderly_nest (s := { s with machine := ⟨s.machine.shared, _⟩ }) hat' hframe hkept horder hentered

/-- A level goes on after its loads, or after the levels below it. -/
theorem take_proceed (h : Due waits permits (.proceed place) s m) :
    ∃ m' < m, Orderly waits permits (s.take exec g waits (.proceed place)) m' := by
  obtain ⟨st, T₁, m₁, T₂, m₂, ⟨hat, -, hT, rfl, hframe⟩, hst, hx⟩ := h.find place rfl
  obtain ⟨rfl, hkind⟩ := hst.of_proceed hx
  rw [← add_left_cancel hT] at hframe
  have hkept := h.kept.of_add rfl
  rcases hkind with ⟨l, tasks, rfl, hlen, hall, rfl⟩ | ⟨path, rows, loaded, below, rfl, hall, rfl⟩
  · obtain ⟨m', hle, horderly⟩ := orderly_proceed exec g hat hlen hall hframe hkept h.order_tail
    exact ⟨m', by omega, horderly⟩
  · obtain ⟨r, hfinished, m', hle, horderly⟩ := orderly_settle exec g hat hall hframe hkept h.order_tail
    rw [take, proceed]
    dsimp only
    rw [hfinished]
    exact ⟨m', by omega, horderly⟩

variable (exec g) in
/-- Whatever the turn, there are fewer turns to go after it. -/
theorem Due.take {t : Turn} (h : Due waits permits t s m) :
    ∃ m' < m, Orderly waits permits (s.take exec g waits t) m' := by
  cases t with
  | enter place => exact take_enter h
  | start place i => exact take_start h
  | permitted place i => exact take_permitted h
  | waited place i left =>
    cases left with
    | zero => exact take_waited_zero h
    | succ left => exact take_waited_succ h
  | ended place => exact take_ended h
  | proceed place => exact take_proceed h

/-! ## Whole runs -/

variable (exec g) in
/-- With enough turns the queue runs dry. -/
theorem Orderly.finish (h : Orderly waits permits s m) {count : Nat} (hcount : m ≤ count) :
    (s.finish exec g waits count).queue = [] ∧ ∃ m', Orderly waits permits (s.finish exec g waits count) m' := by
  induction count generalizing s m with
  | zero =>
    refine ⟨?_, m, h⟩
    cases hqueue : s.queue with
    | nil => exact hqueue
    | cons t queue =>
      obtain ⟨m', hlt, -⟩ := (h.due hqueue).take exec g
      omega
  | succ count ih =>
    rw [Turns.finish]
    cases hqueue : s.queue with
    | nil => exact ⟨hqueue, m, h⟩
    | cons t queue =>
      obtain ⟨m', hlt, horderly⟩ := (h.due hqueue).take exec g
      exact ih horderly (by omega)

/-- A load that has been handed a permit has a turn. -/
theorem Orderly.mem_queue_of_handed {w : Waiter} (h : Orderly waits permits s m) (hw : w ∈ s.waiters)
    (hhanded : w.handed = true) : .permitted w.level w.load ∈ s.queue := by
  obtain ⟨place, i, handed⟩ := w
  obtain rfl : handed = true := hhanded
  obtain ⟨l, tasks, task, T₁, m₁, T₂, m₂, -, htask, hx, hT, -⟩ := h.holds.find_load (mem_tickets_waiter.mpr hw) rfl
  cases htask with
  | permitted _ =>
    rw [← mem_tickets_turn, hT]
    simp
  | told => exact absurd hx (Multiset.notMem_zero _)
  | _ => cases Multiset.mem_singleton.mp hx

/-- Once the queue has run dry there is a result: a load that waits for a permit would have been handed one. -/
theorem Orderly.isSome (h : Orderly waits permits s m) (hpermits : 1 ≤ permits) (hqueue : s.queue = []) :
    s.machine.result?.isSome = true := by
  have hwaiting : ∀ x ∈ s.tickets, x.isWaiting = true ∧ x.isCall = false ∧ x.isHanded = false := by
    intro x hx
    cases x with
    | turn t =>
      rw [mem_tickets_turn, hqueue] at hx
      cases hx
    | waiter w =>
      have hw : w.handed = false := by
        refine Bool.eq_false_of_not_eq_true fun hhanded => ?_
        have hmem := h.mem_queue_of_handed (mem_tickets_waiter.mp hx) hhanded
        rw [hqueue] at hmem
        cases hmem
      exact ⟨by rw [Ticket.isWaiting, hw]; rfl, rfl, hw⟩
  by_cases hzero : s.tickets = 0
  · exact (hzero ▸ h.holds).of_zero.1
  · exfalso
    obtain ⟨x, hx⟩ := Multiset.exists_mem_of_ne_zero hzero
    have hcalls : calls s.tickets = 0 :=
      Multiset.countP_eq_zero.mpr fun x hx => Bool.not_eq_true _ ▸ (hwaiting x hx).2.1
    have hhanded : handedOut s.tickets = 0 :=
      Multiset.countP_eq_zero.mpr fun x hx => Bool.not_eq_true _ ▸ (hwaiting x hx).2.2
    have hfree := h.kept.permits_eq
    have hwoken := h.kept.woken ⟨x, hx, (hwaiting x hx).1⟩
    omega

/-- A run is orderly from its start. -/
theorem orderly_start (waits : Nat) (p : Plan) (rows : List Row) (permits : Nat) (store : σ) :
    ∃ m ≤ (2 * waits + 10) * (p.size + 1),
      Orderly waits permits (Turns.enter [] { machine := .start p rows permits store }) m := by
  obtain ⟨l, hl⟩ : ∃ l, l = p.level [] rows := ⟨_, rfl⟩
  have hsize : p.size = nodesSize l.nodes := by
    rw [hl]
    cases p
    rfl
  have hkept : PermitsKept permits permits 0 :=
    ⟨rfl, Nat.zero_le _, fun ⟨_, hx, _⟩ => absurd hx (Multiset.notMem_zero _)⟩
  rw [Machine.start, ← hl, Level.start]
  split
  · exact ⟨0, Nat.zero_le _, .told _, hkept, .nil⟩
  · next hbusy =>
    have hnodes : l.nodes ≠ [] := by
      intro hnone
      rw [Level.isIdle, hnone] at hbusy
      exact hbusy (Bool.or_true _)
    have hentered : Turns.enter [] { machine := ⟨{ store, permits }, .loading l (l.nodes.map fun _ => .waiting)⟩ } =
        put ((List.range l.nodes.length).map (.start []))
          { machine := ⟨{ store, permits }, .loading l (l.nodes.map fun _ => .waiting)⟩, events := l.events } := rfl
    refine ⟨(2 * waits + 10) * nodesSize l.nodes + 3, ?_, ?_, ?_, ?_⟩
    · rw [hsize, Nat.mul_succ]
      omega
    · rw [hentered, (tickets_put ..).trans (add_zero _)]
      exact holds_entered l hnodes
    · rw [hentered, tickets_put]
      refine hkept.turns fun t ht => ?_
      obtain ⟨i, -, rfl⟩ := List.mem_map.mp ht
      rfl
    · rw [hentered]
      refine InOrder.append .nil fun t ht => ?_
      obtain ⟨i, -, rfl⟩ := List.mem_map.mp ht
      rfl

end Turns

/-- Over a store that takes its time, stitching ends with a result. -/
theorem isSome_stitchInTurns {σ : Type} (exec : Executor σ) (g : Graph) (waits : Nat) (p : Plan) (rows : List Row)
    (store : σ) {permits : Nat} (hpermits : 1 ≤ permits) :
    ((Turns.enter [] { machine := .start p rows permits store }).finish exec g waits
      ((2 * waits + 10) * (p.size + 1))).machine.result?.isSome = true := by
  obtain ⟨m, hle, hstart⟩ := Turns.orderly_start waits p rows permits store
  obtain ⟨hqueue, m', horderly⟩ := hstart.finish exec g hle
  exact horderly.isSome hpermits hqueue

end RelatedRows

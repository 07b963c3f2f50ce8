import RelatedRows.Proofs.Requests
import RelatedRows.Proofs.Transcripts

/-!
# Levels that are reached

Which levels stitching comes to, and what it asks there, in terms of what the nodes hear.

* `Level.next`, `Level.Reaches`: the levels below a level, and all that are reached from it.
* `generations`: the levels that are reached, in the order in which they are loaded.
* `nodup_paths_generations`: no level is reached twice.
* `Plan.reached`: the levels that are reached from the rows that a plan is stitched to.
* `replays_stitchRows`: stitching asks for each level that it reaches what the nodes there put, and nothing else.
-/

namespace RelatedRows

/-! ## Levels that are reached -/

namespace Level

variable (g : Graph) (heard : Heard) (l : Level)

/-- The queries of the nodes of a level. -/
def puts : List Asked :=
  if l.isIdle then []
  else l.nodes.flatMap fun n =>
    ((n.load g l.rows).puts (heard (l.path ++ [n.key]))).map (l.path ++ [n.key], ·)

/-- The levels below a level, one for each node; there are none if any of the nodes fails. -/
def next : List Level :=
  if l.isIdle then []
  else
    match l.nodes.mapM fun n => n.attachHearing g (heard (l.path ++ [n.key])) l.rows with
    | .ok as => (l.nodes.zip as).map (Loaded.below l.path)
    | .error _ => []

/-- The nodes of a level hear what they ask for. -/
def Hears (possible : BatchQuery → Answer → Prop) : Prop :=
  ¬l.isIdle = true → ∀ n ∈ l.nodes, (n.load g l.rows).Hears possible (heard (l.path ++ [n.key]))

/-- A level is reached from another one, level by level. -/
inductive Reaches : Level → Level → Prop
  | refl (l : Level) : Reaches l l
  | step {l b b' : Level} (hb : b ∈ l.next g heard) (h : Reaches b b') : Reaches l b'

end Level

/-- The levels that are reached from some levels in a number of steps, generation by generation. -/
def generations (g : Graph) (heard : Heard) : (steps : Nat) → List Level → List Level
  | 0, _ => []
  | steps + 1, ls => ls ++ generations g heard steps (ls.flatMap (Level.next g heard))

/-! ## Levels in a run -/

section Runs

variable {σ : Type} (exec : Executor σ) (g : Graph)

open Session

/-- The nodes of a level have different keys that stand apart. -/
def Level.Separate (l : Level) : Prop :=
  l.nodes.Pairwise PlanNode.Apart ∧ (l.nodes.map PlanNode.key).Nodup

theorem Level.replays_load {l : Level} (hl : l.Separate) (s : Session σ) :
    s.Replays exec (fun p => ∃ n ∈ l.nodes, p = l.path ++ [n.key]) (fun heard => l.puts g heard)
      (fun heard => l.Hears g heard exec.Answers ∧ (l.load exec g s).1.below = l.next g heard)
      (l.load exec g s).2 := by
  by_cases hidle : l.isIdle = true
  · have hload : l.load exec g s = (⟨l.path, l.rows, .ok []⟩, s) := by rw [load, if_pos hidle]
    rw [hload]
    refine .of_asks_nil ⟨(List.append_nil _).symm, rfl⟩ (fun heard => if_pos hidle) fun heard => ⟨?_, ?_⟩
    · exact fun hnot => absurd hidle hnot
    · rw [next, if_pos hidle]
      rfl
  · have hload : l.load exec g s = (⟨l.path, (loadNodes exec g l.path l.nodes l.rows s).2.1,
        (loadNodes exec g l.path l.nodes l.rows s).1.mapM id⟩, (loadNodes exec g l.path l.nodes l.rows s).2.2) := by
      rw [load, if_neg hidle]
    rw [hload]
    refine (replays_loadNodes exec g l.path hl.1 hl.2 l.rows s).mono (fun p hp => hp) ?_ ?_
    · exact fun heard _ => (if_neg hidle).symm
    · rintro heard ⟨hhears, hloaded⟩
      refine ⟨fun _ => hhears, ?_⟩
      rw [LoadedLevel.below, next, if_neg hidle, hloaded, Except.mapM_pair]
      cases l.nodes.mapM fun n => n.attachHearing g (heard (l.path ++ [n.key])) l.rows <;> rfl

theorem replays_loadLevels {ls : List Level} (hls : ∀ l ∈ ls, l.Separate) (hpaths : (ls.map Level.path).Nodup)
    (s : Session σ) :
    s.Replays exec (fun p => ∃ l ∈ ls, ∃ n ∈ l.nodes, p = l.path ++ [n.key])
      (fun heard => ls.flatMap (Level.puts g heard))
      (fun heard => (∀ l ∈ ls, l.Hears g heard exec.Answers) ∧
        (loadLevels exec g ls s).1.flatMap LoadedLevel.below = ls.flatMap (Level.next g heard))
      (loadLevels exec g ls s).2 := by
  induction ls generalizing s with
  | nil =>
    exact .of_asks_nil ⟨(List.append_nil _).symm, rfl⟩ (fun _ => rfl) fun _ =>
      ⟨fun l hl => absurd hl List.not_mem_nil, rfl⟩
  | cons l ls ih =>
    rw [List.map_cons, List.nodup_cons] at hpaths
    have hload := Level.replays_load exec g (hls l List.mem_cons_self) s
    have hrest := ih (fun m hm => hls m (List.mem_cons_of_mem _ hm)) hpaths.2 (l.load exec g s).2
    have hother : ∀ p, (∃ n ∈ l.nodes, p = l.path ++ [n.key]) →
        ¬∃ m ∈ ls, ∃ n ∈ m.nodes, p = m.path ++ [n.key] := by
      rintro p ⟨n, -, rfl⟩ ⟨m, hm, n', -, heq⟩
      have hpath : l.path = m.path := (List.append_inj_left' heq rfl)
      exact hpaths.1 (hpath ▸ List.mem_map_of_mem hm)
    refine (hload.trans hrest hother).mono ?_ (fun heard _ => rfl) ?_
    · rintro p (⟨n, hn, rfl⟩ | ⟨m, hm, n, hn, rfl⟩)
      · exact ⟨l, List.mem_cons_self, n, hn, rfl⟩
      · exact ⟨m, List.mem_cons_of_mem _ hm, n, hn, rfl⟩
    · rintro heard ⟨⟨hhears, hbelow⟩, hhears', hbelow'⟩
      refine ⟨List.forall_mem_cons.mpr ⟨hhears, hhears'⟩, ?_⟩
      show (l.load exec g s).1.below ++ (loadLevels exec g ls (l.load exec g s).2).1.flatMap _ = _
      rw [hbelow, hbelow', List.flatMap_cons]

end Runs

/-! ## Levels of a plan -/

theorem Loaded.below_eq (path : List String) (n : Loaded) :
    (n.below path).path = path ++ [n.1.key] ∧ (n.below path).rows = n.2.attached ∧
      (n.below path).nodes = (n.1.nested?.map Plan.nodes).getD [] := by
  obtain ⟨n, a⟩ := n
  cases n with
  | leaf s => exact ⟨rfl, rfl, rfl⟩
  | branch s p => exact ⟨rfl, rfl, rfl⟩

/-- Unless nothing is left to be attached, the nodes of a level are those of a level of a plan. -/
def Level.Of (p : Plan) (l : Level) : Prop :=
  l.nodes ≠ [] → ∃ q ∈ p.levels, q.nodes = l.nodes

theorem Level.Of.separate {p : Plan} {l : Level} (h : l.Of p) (hp : p.Separate) : l.Separate := by
  by_cases hnodes : l.nodes = []
  · rw [Separate, hnodes]
    exact ⟨.nil, .nil⟩
  · obtain ⟨q, hq, hqnodes⟩ := h hnodes
    rw [Separate, ← hqnodes]
    exact hp q hq

namespace Level

variable {g : Graph} {heard : Heard} {l b : Level} {p : Plan}

/-- A level other than the first one is reached from the level above it. -/
theorem Reaches.exists_above {l₀ : Level} (h : l₀.Reaches g heard l) :
    l = l₀ ∨ ∃ above, l₀.Reaches g heard above ∧ l ∈ above.next g heard := by
  induction h with
  | refl l => exact .inl rfl
  | @step l₀ b l hb _ ih =>
    rcases ih with rfl | ⟨above, hreaches, hl⟩
    · exact .inr ⟨l₀, .refl l₀, hb⟩
    · exact .inr ⟨above, .step hb hreaches, hl⟩

/-- The levels below stand in the order of the nodes, with an attachment each. -/
theorem next_eq_zip (g : Graph) (heard : Heard) (l : Level) : l.next g heard = [] ∨ ¬l.isIdle = true ∧ ∃ as,
    (l.nodes.mapM fun n => n.attachHearing g (heard (l.path ++ [n.key])) l.rows) = .ok as ∧
      (l.nodes.zip as).map Prod.fst = l.nodes ∧ l.next g heard = (l.nodes.zip as).map (Loaded.below l.path) := by
  rw [next]
  by_cases hidle : l.isIdle = true
  · rw [if_pos hidle]
    exact .inl rfl
  · rw [if_neg hidle]
    cases has : l.nodes.mapM fun n => n.attachHearing g (heard (l.path ++ [n.key])) l.rows with
    | error f => exact .inl rfl
    | ok as => exact .inr ⟨hidle, as, rfl, List.map_fst_zip (Nat.le_of_eq (Except.length_of_mapM has).symm), rfl⟩

/-- A level below holds what a node has attached to the rows of the level above. -/
theorem exists_of_mem_next (h : b ∈ l.next g heard) : ¬l.isIdle = true ∧ ∃ n ∈ l.nodes, ∃ a,
    n.attachHearing g (heard (l.path ++ [n.key])) l.rows = .ok a ∧ b = Loaded.below l.path (n, a) := by
  rcases l.next_eq_zip g heard with hnone | ⟨hidle, as, has, -, hnext⟩
  · rw [hnone] at h
    cases h
  · rw [hnext] at h
    obtain ⟨⟨n, a⟩, hzip, rfl⟩ := List.mem_map.mp h
    exact ⟨hidle, n, (List.of_mem_zip hzip).1, a, List.forall₂_zip (Except.mapM_eq_ok_iff.mp has) hzip, rfl⟩

/-- The paths of the levels below are those of the nodes. -/
theorem paths_next : ((l.next g heard).map path).Sublist (l.nodes.map fun n => l.path ++ [n.key]) := by
  rcases l.next_eq_zip g heard with hnone | ⟨-, as, -, hfst, hnext⟩
  · rw [hnone]
    exact List.nil_sublist _
  · have hpaths : (l.next g heard).map path =
        ((l.nodes.zip as).map Prod.fst).map fun n => l.path ++ [n.key] := by
      rw [hnext, List.map_map, List.map_map]
      exact List.map_congr_left fun x _ => (Loaded.below_eq l.path x).1
    rw [hpaths, hfst]

theorem Of.below {n : Loaded} (h : l.Of p) (hn : n.1 ∈ l.nodes) (path : List String) : (n.below path).Of p := by
  obtain ⟨n, a⟩ := n
  intro hnodes
  obtain ⟨q, hq, hqnodes⟩ := h (List.ne_nil_of_mem hn)
  rw [(Loaded.below_eq _ _).2.2] at hnodes ⊢
  cases n with
  | leaf s => exact absurd rfl hnodes
  | branch s r => exact ⟨r, Plan.levels_trans hq (Plan.levels_subset (hqnodes ▸ hn) r.mem_levels_self), rfl⟩

theorem Of.next (h : l.Of p) (hb : b ∈ l.next g heard) : b.Of p := by
  obtain ⟨-, n, hn, a, -, rfl⟩ := exists_of_mem_next hb
  exact h.below hn l.path

end Level

section Reached

variable {g : Graph} {heard : Heard} {p : Plan} {ls : List Level}

theorem nodup_paths_next (hls : ∀ l ∈ ls, l.Separate) (hpaths : (ls.map Level.path).Nodup) :
    ((ls.flatMap (Level.next g heard)).map Level.path).Nodup := by
  rw [List.map_flatMap, List.nodup_flatMap]
  refine ⟨fun l hl => ?_, ?_⟩
  · have hnodes : (l.nodes.map fun n => l.path ++ [n.key]).Nodup := by
      have hkeys := (hls l hl).2.map (f := fun key => l.path ++ [key]) fun a b hab => by simpa using hab
      rwa [List.map_map] at hkeys
    exact hnodes.sublist Level.paths_next
  · rw [List.Nodup, List.pairwise_map] at hpaths
    refine hpaths.imp fun {l m} hne => ?_
    intro path hl hm
    obtain ⟨n, -, rfl⟩ := List.mem_map.mp (Level.paths_next.subset hl)
    obtain ⟨n', -, heq⟩ := List.mem_map.mp (Level.paths_next.subset hm)
    exact hne (List.append_inj_left' heq rfl).symm

theorem length_path_next {k : Nat} (hlength : ∀ l ∈ ls, l.path.length = k) :
    ∀ b ∈ ls.flatMap (Level.next g heard), b.path.length = k + 1 := by
  intro b hb
  obtain ⟨l, hl, hb⟩ := List.mem_flatMap.mp hb
  obtain ⟨-, n, -, a, -, rfl⟩ := Level.exists_of_mem_next hb
  rw [(Loaded.below_eq _ _).1, List.length_append, hlength l hl]
  rfl

theorem exists_reaches {steps : Nat} {l : Level} (h : l ∈ generations g heard steps ls) :
    ∃ l₀ ∈ ls, l₀.Reaches g heard l := by
  induction steps generalizing ls with
  | zero => cases h
  | succ steps ih =>
    rcases List.mem_append.mp h with hl | hl
    · exact ⟨l, hl, .refl l⟩
    · obtain ⟨b, hb, hreaches⟩ := ih hl
      obtain ⟨l₀, hl₀, hb⟩ := List.mem_flatMap.mp hb
      exact ⟨l₀, hl₀, .step hb hreaches⟩

/-- What is true of the first levels, and is handed down from reached levels, is true of all levels that are reached. -/
theorem forall_generations {P : Level → Prop} {steps : Nat} (hls : ∀ l ∈ ls, P l)
    (hnext : ∀ l ∈ generations g heard steps ls, P l → ∀ b ∈ l.next g heard, P b) :
    ∀ l ∈ generations g heard steps ls, P l := by
  induction steps generalizing ls with
  | zero => exact fun l hl => absurd hl List.not_mem_nil
  | succ steps ih =>
    have hbelow : ∀ b ∈ ls.flatMap (Level.next g heard), P b := by
      intro b hb
      obtain ⟨l, hl, hb⟩ := List.mem_flatMap.mp hb
      exact hnext l (List.mem_append_left _ hl) (hls l hl) b hb
    intro l hl
    rcases List.mem_append.mp hl with hl | hl
    · exact hls l hl
    · exact ih hbelow (fun l hl => hnext l (List.mem_append_right _ hl)) l hl

theorem nodup_paths_generations (hp : p.Separate) {steps k : Nat} (hls : ∀ l ∈ ls, l.Of p)
    (hpaths : (ls.map Level.path).Nodup) (hlength : ∀ l ∈ ls, l.path.length = k) :
    ((generations g heard steps ls).map Level.path).Nodup ∧ ∀ l ∈ generations g heard steps ls, k ≤ l.path.length := by
  induction steps generalizing ls k with
  | zero => exact ⟨.nil, fun l hl => absurd hl List.not_mem_nil⟩
  | succ steps ih =>
    have hof : ∀ b ∈ ls.flatMap (Level.next g heard), b.Of p := by
      intro b hb
      obtain ⟨l, hl, hb⟩ := List.mem_flatMap.mp hb
      exact (hls l hl).next hb
    obtain ⟨hnodup, hlonger⟩ := ih hof (nodup_paths_next (fun l hl => (hls l hl).separate hp) hpaths)
      (length_path_next hlength)
    refine ⟨?_, fun l hl => ?_⟩
    · rw [generations, List.map_append, List.nodup_append]
      refine ⟨hpaths, hnodup, fun path hpath path' hpath' heq => ?_⟩
      obtain ⟨l, hl, rfl⟩ := List.mem_map.mp hpath
      obtain ⟨b, hb, rfl⟩ := List.mem_map.mp hpath'
      have hle := hlonger b hb
      rw [← heq, hlength l hl] at hle
      omega
    · rcases List.mem_append.mp hl with hl | hl
      · exact Nat.le_of_eq (hlength l hl).symm
      · exact Nat.le_of_succ_le (hlonger l hl)

theorem height_next {height : Nat} (hheight : ∀ l ∈ ls, nodesHeight l.nodes ≤ height + 1) :
    ∀ b ∈ ls.flatMap (Level.next g heard), nodesHeight b.nodes ≤ height := by
  intro b hb
  obtain ⟨l, hl, hb⟩ := List.mem_flatMap.mp hb
  obtain ⟨-, n, hn, a, -, rfl⟩ := Level.exists_of_mem_next hb
  have hlt := PlanNode.height_lt_of_mem hn
  have hle := hheight l hl
  rw [(Loaded.below_eq _ _).2.2]
  cases n with
  | leaf s => exact Nat.zero_le _
  | branch s q =>
    obtain ⟨entity, depth, nodes, pruned⟩ := q
    have hnodes : nodesHeight nodes < nodesHeight l.nodes := hlt
    show nodesHeight nodes ≤ height
    omega

/-- Every level with something to attach is reached within the height of the plan. -/
theorem mem_generations {height : Nat} (hheight : ∀ l ∈ ls, nodesHeight l.nodes ≤ height) {l₀ l : Level} (hl₀ : l₀ ∈ ls)
    (hreaches : l₀.Reaches g heard l) (hnodes : l.nodes ≠ []) : l ∈ generations g heard height ls := by
  induction hreaches generalizing ls height with
  | refl l =>
    cases height with
    | zero =>
      have hzero := hheight l hl₀
      cases hns : l.nodes with
      | nil => exact absurd hns hnodes
      | cons n ns =>
        rw [hns, nodesHeight] at hzero
        omega
    | succ height => exact List.mem_append_left _ hl₀
  | @step l b b' hb _ ih =>
    cases height with
    | zero =>
      obtain ⟨-, n, hn, -⟩ := Level.exists_of_mem_next hb
      have hzero := hheight l hl₀
      have hlt := PlanNode.height_lt_of_mem hn
      omega
    | succ height =>
      refine List.mem_append_right _ (ih (height_next hheight) ?_ hnodes)
      exact List.mem_flatMap.mpr ⟨l, hl₀, hb⟩

/-- The levels that stitching a plan to rows reaches. -/
def Plan.reached (g : Graph) (heard : Heard) (p : Plan) (rows : List Row) : List Level :=
  generations g heard p.height [p.level [] rows]

variable {rows : List Row}

theorem Plan.of_level (p : Plan) (rows : List Row) : ∀ l ∈ [p.level [] rows], l.Of p := by
  intro l hl
  rw [List.mem_singleton.mp hl]
  exact fun _ => ⟨p, p.mem_levels_self, rfl⟩

theorem Plan.length_path_level (p : Plan) (rows : List Row) : ∀ l ∈ [p.level [] rows], l.path.length = 0 := by
  intro l hl
  rw [List.mem_singleton.mp hl]
  rfl

theorem Plan.reaches_of_mem_reached {l : Level} (h : l ∈ p.reached g heard rows) :
    (p.level [] rows).Reaches g heard l := by
  obtain ⟨l₀, hl₀, hreaches⟩ := exists_reaches h
  rwa [List.mem_singleton.mp hl₀] at hreaches

theorem Plan.mem_reached {l : Level} (h : (p.level [] rows).Reaches g heard l) (hnodes : l.nodes ≠ []) :
    l ∈ p.reached g heard rows := by
  refine mem_generations (fun l hl => ?_) (List.mem_singleton_self _) h hnodes
  rw [List.mem_singleton.mp hl]
  cases p
  exact Nat.le_refl _

theorem Plan.nodup_paths_reached (hp : p.Separate) : ((p.reached g heard rows).map Level.path).Nodup :=
  (nodup_paths_generations hp (p.of_level rows) (List.nodup_singleton _) (p.length_path_level rows)).1

end Reached

/-! ## Whole runs -/

section Stitch

variable {σ : Type} (exec : Executor σ) (g : Graph) {p : Plan} (hp : p.Separate)

open Session

include hp

/-- The nodes of a generation of levels have shorter paths than those of the generations below. -/
theorem replays_stitchLevels (height : Nat) {ls : List Level} (hls : ∀ l ∈ ls, l.Of p)
    (hpaths : (ls.map Level.path).Nodup) {k : Nat} (hlength : ∀ l ∈ ls, l.path.length = k) (s : Session σ) :
    s.Replays exec (fun path => k < path.length)
      (fun heard => (generations g heard height ls).flatMap (Level.puts g heard))
      (fun heard => ∀ l ∈ generations g heard height ls, l.Hears g heard exec.Answers)
      (stitchLevels exec g height ls s).2 := by
  induction height generalizing ls k s with
  | zero =>
    exact .of_asks_nil ⟨(List.append_nil _).symm, rfl⟩ (fun _ => rfl) fun _ l hl => absurd hl List.not_mem_nil
  | succ height ih =>
    let s' := s.record (ls.flatMap Level.events)
    have hasked : s'.asked = s.asked := by
      rw [Session.asked_record, Session.askedOf_levels, List.append_nil]
    have hseparate : ∀ l ∈ ls, l.Separate := fun l hl => (hls l hl).separate hp
    have hloads := replays_loadLevels exec g hseparate hpaths s'
    obtain ⟨heard₀, -, hbelow₀⟩ := hloads.exists_facts
    have hof : ∀ b ∈ (loadLevels exec g ls s').1.flatMap LoadedLevel.below, b.Of p := by
      rw [hbelow₀]
      intro b hb
      obtain ⟨l, hl, hb⟩ := List.mem_flatMap.mp hb
      exact (hls l hl).next hb
    have hrest := ih hof (by rw [hbelow₀]; exact nodup_paths_next hseparate hpaths)
      (by rw [hbelow₀]; exact length_path_next hlength) (loadLevels exec g ls s').2
    have hshorter : ∀ path, (∃ l ∈ ls, ∃ n ∈ l.nodes, path = l.path ++ [n.key]) → path.length = k + 1 := by
      rintro path ⟨l, hl, n, -, rfl⟩
      rw [List.length_append, hlength l hl]
      rfl
    have hother : ∀ path, (∃ l ∈ ls, ∃ n ∈ l.nodes, path = l.path ++ [n.key]) → ¬k + 1 < path.length := by
      intro path hpath hlt
      rw [hshorter path hpath] at hlt
      omega
    refine ((hloads.trans hrest hother).mono ?_ ?_ ?_).of_asked_eq hasked rfl
    · rintro path (hpath | hlt)
      · have := hshorter path hpath
        omega
      · omega
    · rintro heard ⟨⟨-, hbelow⟩, -⟩
      rw [hbelow, generations, List.flatMap_append]
    · rintro heard ⟨⟨hhears, hbelow⟩, hhears'⟩
      rw [hbelow] at hhears'
      exact fun l hl => (List.mem_append.mp hl).elim (hhears l) (hhears' l)

/-- Stitching asks what the nodes of the levels put that it reaches, level by level. -/
theorem replays_stitchRows (rows : List Row) (s : Session σ) :
    let asked := (stitchRows exec g p rows s).2.askedAfter s
    let heard := exec.heard s.store asked
    asked = (p.reached g heard rows).flatMap (Level.puts g heard) ∧
      ∀ l ∈ p.reached g heard rows, l.Hears g heard exec.Answers := by
  obtain ⟨asked, hasks, -, hall⟩ :=
    replays_stitchLevels exec g hp p.height (p.of_level rows) (List.nodup_singleton _) (p.length_path_level rows) s
  have hevents : s.events <+: (stitchRows exec g p rows s).2.events := events_stitchLevels exec g p.height _ s
  have hafter : (stitchRows exec g p rows s).2.askedAfter s = asked :=
    List.append_cancel_left ((Session.asked_eq hevents).symm.trans hasks.asked)
  rw [hafter]
  exact hall _ fun _ _ => rfl

end Stitch

end RelatedRows

import RelatedRows.Stitch.Level

/-!
# Stitching node by node

When every answer of a store depends on its query alone, nothing shows in which order the queries were put, and
stitching is a recursion on the plan: the nodes of a level are loaded, and then everything below each of them is
stitched.

* `Plan.nest answer g p rows`: the rows with everything attached that the plan asks for, or the first failure.
* `stitchRows_eq_nest`: stitching level by level comes to the same.
-/

namespace RelatedRows

/-- The result of a dialogue with a store that gives these answers. -/
def Dialogue.eval {α : Type} (answer : BatchQuery → Answer) : Dialogue α → α
  | .done a => a
  | .ask q next => (next (answer q)).eval answer

section Nest

variable (answer : BatchQuery → Answer) (g : Graph)

/-- Loads nodes one after the other; also gives the rows with what was attached to them. -/
def evalNodes : List PlanNode → List Row → List (Except Fault Loaded) × List Row
  | [], rows => ([], rows)
  | n :: ns, rows =>
    let linking := (n.load g rows).eval answer
    let (rest, after) := evalNodes ns (rowsAfter n.key rows linking)
    ((linking >>= (·.attachment rows)).map (n, ·) :: rest, after)

/-- Stitches the nodes of one level; `below` stitches what lies below their attachments. -/
def nestLevel (nodes : List PlanNode) (rows : List Row) (below : List Attachment → Except Fault (List (List Row))) :
    Except Fault (List Row) :=
  if rows.isEmpty || nodes.isEmpty then .ok rows
  else do
    let loaded ← (evalNodes answer g nodes rows).1.mapM id
    return settleAll (evalNodes answer g nodes rows).2 loaded (← below (loaded.map (·.2)))

mutual
def Plan.nest : Plan → List Row → Except Fault (List Row)
  | .mk _ _ nodes _, rows => nestLevel answer g nodes rows (nestBelow nodes)

/-- Stitches what lies below the attachments of some nodes, one node after the other. -/
def nestBelow : List PlanNode → List Attachment → Except Fault (List (List Row))
  | n :: ns, a :: as => do
    let rows ← n.nest a.attached
    return rows :: (← nestBelow ns as)
  | _, _ => .ok []

def PlanNode.nest : PlanNode → List Row → Except Fault (List Row)
  | .leaf _, rows => .ok rows
  | .branch _ p, rows => p.nest rows
end

def Level.nest (l : Level) : Except Fault (List Row) :=
  nestLevel answer g l.nodes l.rows (nestBelow answer g l.nodes)

theorem Level.nest_of_nodes_eq_nil {l : Level} (h : l.nodes = []) : l.nest answer g = .ok l.rows := by
  simp [nest, nestLevel, h]

theorem Plan.nest_level (p : Plan) (path : List String) (rows : List Row) :
    (p.level path rows).nest answer g = p.nest answer g rows := by
  cases p
  simp only [nest]
  rfl

/-- A level as it is after its own loads. -/
def Level.eval (l : Level) : LoadedLevel :=
  if l.isIdle then ⟨l.path, l.rows, .ok []⟩
  else ⟨l.path, (evalNodes answer g l.nodes l.rows).2, (evalNodes answer g l.nodes l.rows).1.mapM id⟩

theorem Loaded.nest_below (path : List String) (n : Loaded) :
    (n.below path).nest answer g = n.1.nest answer g n.2.attached := by
  obtain ⟨n, a⟩ := n
  cases n with
  | leaf s => simp [below, Level.nest_of_nodes_eq_nil, PlanNode.nest]
  | branch s p => simp [below, Plan.nest_level, PlanNode.nest]

theorem mapM_nest_below (path : List String) (ns : List Loaded) :
    ((ns.map (Loaded.below path)).map (Level.nest answer g)).mapM id =
      nestBelow answer g (ns.map (·.1)) (ns.map (·.2)) := by
  induction ns with
  | nil => simp [nestBelow, pure, Except.pure]
  | cons n ns ih =>
    simp only [List.map_cons, List.mapM_cons, id, nestBelow, Loaded.nest_below, ih]

/-! ## Loads -/

theorem map_fst_of_mapM_evalNodes {ns : List PlanNode} {rows : List Row} {loaded : List Loaded}
    (h : (evalNodes answer g ns rows).1.mapM id = .ok loaded) : loaded.map (·.1) = ns := by
  induction ns generalizing rows loaded with
  | nil =>
    simp only [evalNodes, List.mapM_nil, pure, Except.pure, Except.ok.injEq] at h
    simp [← h]
  | cons n ns ih =>
    simp only [evalNodes, List.mapM_cons, id] at h
    generalize rowsAfter n.key rows ((n.load g rows).eval answer) = after at h
    generalize ((n.load g rows).eval answer >>= (·.attachment rows)) = r at h
    cases r with
    | error f => cases h
    | ok a =>
      cases hrest : (evalNodes answer g ns after).1.mapM id with
      | error f => rw [hrest] at h; cases h
      | ok rest => rw [hrest] at h; cases h; simp [ih hrest]

variable {σ : Type} {exec : Executor σ} {answer}

theorem Dialogue.run_fst {α : Type} (h : ∀ s q, (exec s (.batch q)).1 = answer q) (path : List String)
    (step : Inclusion) (d : Dialogue α) (s : Session σ) : (d.run exec path step s).1 = d.eval answer := by
  induction d generalizing s with
  | done a => rfl
  | ask q next ih =>
    simp only [run, eval]
    rw [ih, h]

theorem loadNodes_eq (h : ∀ s q, (exec s (.batch q)).1 = answer q) (path : List String) (ns : List PlanNode)
    (rows : List Row) (s : Session σ) :
    (loadNodes exec g path ns rows s).1 = (evalNodes answer g ns rows).1 ∧
      (loadNodes exec g path ns rows s).2.1 = (evalNodes answer g ns rows).2 := by
  induction ns generalizing rows s with
  | nil => exact ⟨rfl, rfl⟩
  | cons n ns ih =>
    simp only [loadNodes, evalNodes, Dialogue.run_fst h]
    exact ⟨by rw [(ih _ _).1], by rw [(ih _ _).2]⟩

theorem Level.load_fst (h : ∀ s q, (exec s (.batch q)).1 = answer q) (l : Level) (s : Session σ) :
    (l.load exec g s).1 = l.eval answer g := by
  unfold load eval
  split
  · rfl
  · simp [loadNodes_eq g h]

theorem loadLevels_fst (h : ∀ s q, (exec s (.batch q)).1 = answer q) (ls : List Level) (s : Session σ) :
    (loadLevels exec g ls s).1 = ls.map (Level.eval answer g) := by
  induction ls generalizing s with
  | nil => rfl
  | cons l ls ih => simp [loadLevels, Level.load_fst g h, ih]

/-! ## Levels -/

variable (answer)

theorem finishLevels_map (ls : List LoadedLevel) :
    finishLevels ls ((ls.flatMap LoadedLevel.below).map (Level.nest answer g)) =
      ls.map fun l => l.finish (l.below.map (Level.nest answer g)) := by
  induction ls with
  | nil => rfl
  | cons l ls ih =>
    simp only [List.flatMap_cons, List.map_append, finishLevels, List.map_cons]
    rw [List.take_left' (by simp), List.drop_left' (by simp), ih]

theorem Level.finish_eval (l : Level) :
    (l.eval answer g).finish ((l.eval answer g).below.map (Level.nest answer g)) = l.nest answer g := by
  by_cases hi : l.isIdle = true
  · have hnest : l.nest answer g = .ok l.rows := if_pos hi
    rw [hnest, eval, if_pos hi]
    rfl
  · have hnest : ¬(l.rows.isEmpty || l.nodes.isEmpty) = true := hi
    rw [eval, if_neg hi, nest, nestLevel, if_neg hnest]
    cases hl : (evalNodes answer g l.nodes l.rows).1.mapM id with
    | error f => rfl
    | ok loaded =>
      simp only [LoadedLevel.below, LoadedLevel.finish, mapM_nest_below, map_fst_of_mapM_evalNodes answer g hl]
      rfl

theorem LoadedLevel.height_below {l : LoadedLevel} {ns : List PlanNode} {height : Nat}
    (hn : nodesHeight ns ≤ height + 1)
    (hl : ∀ loaded, l.nodes = .ok loaded → loaded.map (·.1) = ns) : ∀ b ∈ l.below, nodesHeight b.nodes ≤ height := by
  intro b hb
  unfold below at hb
  split at hb
  · next loaded hloaded =>
    obtain ⟨⟨n, a⟩, hna, rfl⟩ := List.mem_map.mp hb
    have hmem : n ∈ ns := hl loaded hloaded ▸ List.mem_map_of_mem hna
    have hlt := PlanNode.height_lt_of_mem hmem
    cases n with
    | leaf s => simp [Loaded.below, nodesHeight]
    | branch s p =>
      obtain ⟨e, d, nodes, pruned⟩ := p
      simp only [PlanNode.height, Plan.height] at hlt
      simp only [Loaded.below, PlanNode.nested?_branch, Plan.level, Plan.nodes]
      omega
  · simp at hb

theorem Level.height_below_eval {l : Level} {height : Nat} (hn : nodesHeight l.nodes ≤ height + 1) :
    ∀ b ∈ (l.eval answer g).below, nodesHeight b.nodes ≤ height := by
  by_cases hi : l.isIdle = true
  · simp [eval, hi, LoadedLevel.below]
  · refine LoadedLevel.height_below hn fun loaded h => ?_
    simp only [eval, hi] at h
    exact map_fst_of_mapM_evalNodes answer g h

variable {answer}

theorem stitchLevels_eq_nest (h : ∀ s q, (exec s (.batch q)).1 = answer q) (height : Nat) (ls : List Level)
    (s : Session σ) (hl : ∀ l ∈ ls, nodesHeight l.nodes ≤ height) :
    (stitchLevels exec g height ls s).1 = ls.map (Level.nest answer g) := by
  induction height generalizing ls s with
  | zero =>
    refine List.map_congr_left fun l hmem => ?_
    have hnil : l.nodes = [] := by
      cases hns : l.nodes with
      | nil => rfl
      | cons n ns =>
        have := hl l hmem
        rw [hns, nodesHeight] at this
        omega
    rw [Level.nest_of_nodes_eq_nil answer g hnil]
  | succ height ih =>
    have hbelow : ∀ b ∈ ((ls.map (Level.eval answer g)).flatMap LoadedLevel.below), nodesHeight b.nodes ≤ height := by
      intro b hb
      obtain ⟨loaded, hloaded, hb⟩ := List.mem_flatMap.mp hb
      obtain ⟨l, hmem, rfl⟩ := List.mem_map.mp hloaded
      exact Level.height_below_eval answer g (hl l hmem) b hb
    simp only [stitchLevels, loadLevels_fst g h]
    rw [ih _ _ hbelow, finishLevels_map, List.map_map]
    exact List.map_congr_left fun l _ => Level.finish_eval answer g l

/-- Over a store whose answers depend on the query alone, stitching by levels is stitching node by node. -/
theorem stitchRows_eq_nest (h : ∀ s q, (exec s (.batch q)).1 = answer q) (p : Plan) (rows : List Row) (s : Session σ) :
    (stitchRows exec g p rows s).1 = p.nest answer g rows := by
  have hp : nodesHeight (p.level [] rows).nodes ≤ p.height := by
    cases p
    simp [Plan.level, Plan.nodes, Plan.height]
  simp only [stitchRows]
  rw [stitchLevels_eq_nest g h p.height [p.level [] rows] s (by simpa using hp)]
  simp [Plan.nest_level]

end Nest

end RelatedRows

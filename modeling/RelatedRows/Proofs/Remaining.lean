import Mathlib.Data.List.ReduceOption
import RelatedRows.Proofs.Asked
import RelatedRows.Stitch.Concurrent

/-!
# What is left of a run

In the course of a run with concurrent loads it is settled what the run still comes to, whatever step is taken next.

* `Task.outcome`, `LevelState.outcome`: what a load or a level comes to.
* `Task.left`, `LevelState.left`: the steps that it still takes, in some order, each with the query that it puts.
* `LevelState.Sound`: what holds of every level in the course of a run.
* `Level.start_outcome`, `Level.start_left`: at the start everything is left.
-/

namespace RelatedRows

/-- The steps of a dialogue, each with the query that it puts; the last one links rows. -/
def Dialogue.left {α : Type} (answer : BatchQuery → Answer) : Dialogue α → List (Option BatchQuery)
  | .done _ => [none]
  | .ask q next => some q :: none :: (next (answer q)).left answer

theorem Dialogue.reduceOption_left {α : Type} (answer : BatchQuery → Answer) (d : Dialogue α) :
    (d.left answer).reduceOption = d.asked answer := by
  induction d with
  | done a => rfl
  | ask q next ih =>
    rw [left, asked, List.reduceOption_cons_of_some, List.reduceOption_cons_of_none, ih]

/-! ## Steps of a plan -/

section Plans

variable (answer : BatchQuery → Answer) (g : Graph)

/-- The steps of a level after its loads. -/
def leftAfter (below : List Attachment → List (Option BatchQuery)) :
    Except Fault (List Attachment) → List (Option BatchQuery)
  | .ok as => below as ++ [none]
  | .error _ => []

/-- The steps of a level: those of its loads, one to go on after them, and those of the levels below. -/
def leftLevel (nodes : List PlanNode) (rows : List Row) (below : List Attachment → List (Option BatchQuery)) :
    List (Option BatchQuery) :=
  if rows.isEmpty || nodes.isEmpty then []
  else
    (nodes.flatMap fun n => none :: (n.load g rows).left answer) ++
      none :: leftAfter below (nodes.mapM (PlanNode.attach answer g · rows))

mutual
def Plan.left : Plan → List Row → List (Option BatchQuery)
  | .mk _ _ nodes _, rows => leftLevel answer g nodes rows (leftBelow nodes)

/-- The steps below some nodes and their attachments. -/
def leftBelow : List PlanNode → List Attachment → List (Option BatchQuery)
  | n :: ns, a :: as => n.left a.attached ++ leftBelow ns as
  | _, _ => []

def PlanNode.left : PlanNode → List Row → List (Option BatchQuery)
  | .leaf _, _ => []
  | .branch _ p, rows => p.left rows
end

def Level.left (l : Level) : List (Option BatchQuery) :=
  leftLevel answer g l.nodes l.rows (leftBelow answer g l.nodes)

theorem Plan.left_eq (p : Plan) (rows : List Row) :
    p.left answer g rows = leftLevel answer g p.nodes rows (leftBelow answer g p.nodes) := by
  cases p
  rw [left]
  rfl

theorem Plan.left_level (p : Plan) (path : List String) (rows : List Row) :
    (p.level path rows).left answer g = p.left answer g rows :=
  (p.left_eq answer g rows).symm

theorem leftBelow_eq (ns : List PlanNode) (as : List Attachment) :
    leftBelow answer g ns as = (ns.zip as).flatMap fun n => n.1.left answer g n.2.attached := by
  induction ns generalizing as with
  | nil => rfl
  | cons n ns ih =>
    cases as with
    | nil => rfl
    | cons a as => rw [leftBelow, ih, List.zip_cons_cons, List.flatMap_cons]

theorem Loaded.left_below (path : List String) (n : Loaded) :
    (n.below path).left answer g = n.1.left answer g n.2.attached := by
  obtain ⟨n, a⟩ := n
  cases n with
  | leaf s =>
    rw [PlanNode.left, Level.left, leftLevel, if_pos]
    simp [below]
  | branch s p =>
    rw [PlanNode.left, ← Plan.left_level]
    rfl

theorem reduceOption_flatMap {ι α : Type} (f : ι → List (Option α)) (xs : List ι) :
    (xs.flatMap f).reduceOption = xs.flatMap fun x => (f x).reduceOption := by
  induction xs with
  | nil => rfl
  | cons x xs ih => rw [List.flatMap_cons, List.flatMap_cons, List.reduceOption_append, ih]

/-- The steps of a plan put its queries. -/
theorem Plan.reduceOption_left (p : Plan) (path : List String) (rows : List Row) :
    (p.left answer g rows).reduceOption = (p.asked answer g path rows).map (·.2) := by
  induction p using Plan.induction generalizing path rows with
  | step p ih =>
    obtain ⟨entity, depth, nodes, pruned⟩ := p
    rw [Plan.left, Plan.asked, leftLevel, askedLevel]
    have hbelow : ∀ as, (leftBelow answer g nodes as).reduceOption = (askedBelow answer g nodes path as).map (·.2) := by
      intro as
      rw [leftBelow_eq, askedBelow_eq, reduceOption_flatMap, List.map_flatMap]
      refine List.flatMap_congr ?_
      rintro ⟨n, a⟩ hna
      cases n with
      | leaf s => rfl
      | branch s q => exact ih s q (List.of_mem_zip hna).1 _ _
    have hloads : ∀ n ∈ nodes, (none :: (n.load g rows).left answer).reduceOption =
        (n.asks answer g path rows).map (·.2) := by
      intro n _
      rw [List.reduceOption_cons_of_none, Dialogue.reduceOption_left, PlanNode.asks, List.map_map]
      exact (List.map_id _).symm
    by_cases hrows : rows.isEmpty = true
    · rw [if_pos hrows, if_pos (by simp [hrows])]
      rfl
    rw [if_neg hrows]
    by_cases hnodes : nodes.isEmpty = true
    · rw [if_pos (by simp [hnodes]), List.isEmpty_iff.mp hnodes]
      rfl
    rw [if_neg (by simp [hrows, hnodes]), List.reduceOption_append, List.reduceOption_cons_of_none,
      reduceOption_flatMap, List.map_append, List.map_flatMap, List.flatMap_congr hloads]
    refine congrArg _ ?_
    cases nodes.mapM (PlanNode.attach answer g · rows) with
    | error f => rfl
    | ok as =>
      show (leftBelow answer g nodes as ++ [none]).reduceOption = (askedBelow answer g nodes path as).map (·.2)
      rw [List.reduceOption_append, hbelow]
      exact List.append_nil _

/-! ## Loads in the course of a run -/

namespace Task

/-- What a load comes to, over the rows as they are now. -/
def outcome (n : PlanNode) (rows : List Row) : Task → Except Fault Attachment
  | .waiting => n.attach answer g rows
  | .running d => d.eval answer >>= (·.attachment rows)
  | .calling q next => (next (answer q)).eval answer >>= (·.attachment rows)
  | .finished r => r

def left (n : PlanNode) (rows : List Row) : Task → List (Option BatchQuery)
  | .waiting => none :: (n.load g rows).left answer
  | .running d => d.left answer
  | .calling q next => none :: (next (answer q)).left answer
  | .finished _ => []

/-- Whether a load links rows by the columns of its node, and has linked each of them if it has finished. -/
def Sound (n : PlanNode) (count : Nat) : Task → Prop
  | .waiting => True
  | .running d => d.LinksBy n.step.relation.sourceKey
  | .calling _ next => ∀ a, (next a).LinksBy n.step.relation.sourceKey
  | .finished r => ∀ a, r = .ok a → a.links.length = count

variable {n : PlanNode} {rows rows' : List Row} {t : Task}

/-- Other loads do not show in what a load comes to. -/
theorem outcome_congr (ht : t.Sound n rows.length)
    (h : rows.map (Row.spelling n.step.relation.sourceKey) = rows'.map (Row.spelling n.step.relation.sourceKey)) :
    t.outcome answer g n rows = t.outcome answer g n rows' := by
  cases t with
  | waiting => exact PlanNode.attach_congr h
  | running d => exact Dialogue.LinksBy.attachment ht h
  | calling q next => exact (ht (answer q)).attachment h
  | finished r => rfl

theorem left_congr
    (h : rows.map (Row.spelling n.step.relation.sourceKey) = rows'.map (Row.spelling n.step.relation.sourceKey)) :
    t.left answer g n rows = t.left answer g n rows' := by
  cases t with
  | waiting => rw [left, left, PlanNode.load_congr h]
  | _ => rfl

theorem length_outcome {a : Attachment} (ht : t.Sound n rows.length) (h : t.outcome answer g n rows = .ok a) :
    a.links.length = rows.length := by
  cases t with
  | waiting => exact PlanNode.length_links h
  | finished r => exact ht a h
  | running d | calling q next =>
    obtain ⟨l, -, ha⟩ := Except.bind_eq_ok h
    exact l.length_links ha

end Task

end Plans

/-- What a step of a load does: it is the first of the steps that were left, and the outcome stays. -/
structure Task.Steps (answer : BatchQuery → Answer) (g : Graph) (n : PlanNode) {σ : Type} (t : Task) (rows : List Row)
    (s : Shared σ) (t' : Task) (rows' : List Row) (s' : Shared σ) : Prop where
  sound : t'.Sound n rows.length
  outcome : t'.outcome answer g n rows' = t.outcome answer g n rows
  written : rows' = rows ∨ ∃ r, t = .running (.done r) ∧ rows' = rowsAfter n.key rows r
  left : ∃ e, t.left answer g n rows = e :: t'.left answer g n rows' ∧ s'.issued = s.issued ++ e.toList
  permits : s'.permits + (if t'.isCalling then 1 else 0) = s.permits + (if t.isCalling then 1 else 0)

section Steps

variable {answer : BatchQuery → Answer} {g : Graph} {σ : Type} {exec : Executor σ} {n : PlanNode} {t t' : Task}
  {rows rows' : List Row} {s s' : Shared σ}

theorem Task.steps_of_step (h : ∀ s q, (exec s (.batch q)).1 = answer q) (ht : t.Sound n rows.length)
    (hstep : t.step exec g n rows s = some (t', rows', s')) : t.Steps answer g n rows s t' rows' s' := by
  cases advances_of_step hstep with
  | begun => exact ⟨PlanNode.linksBy_load, rfl, .inl rfl, ⟨none, rfl, by simp⟩, rfl⟩
  | answered q next =>
    have hnext : (exec s.store (.batch q)).1 = answer q := h s.store q
    refine ⟨ht _, ?_, .inl rfl, ⟨none, ?_, by simp⟩, rfl⟩
    · simp only [outcome, hnext]
    · simp only [left, hnext]
  | asked q next hpermits =>
    refine ⟨ht, rfl, .inl rfl, ⟨some q, rfl, rfl⟩, ?_⟩
    show s.permits - 1 + 1 = s.permits + 0
    omega
  | ended r =>
    refine ⟨?_, rfl, .inr ⟨r, rfl, rfl⟩, ⟨none, rfl, by simp⟩, rfl⟩
    intro a ha
    obtain ⟨l, -, ha⟩ := Except.bind_eq_ok ha
    exact l.length_links ha

end Steps

/-! ## Levels in the course of a run -/

section Levels

variable (answer : BatchQuery → Answer) (g : Graph)

/-- What the loads of a level come to. -/
def loadOutcomes (l : Level) (tasks : List Task) : List (Except Fault Attachment) :=
  l.nodes.zipWith (fun n t => t.outcome answer g n l.rows) tasks

/-- The steps that each load of a level still takes. -/
def loadsLeft (l : Level) (tasks : List Task) : List (List (Option BatchQuery)) :=
  l.nodes.zipWith (fun n t => t.left answer g n l.rows) tasks

namespace LevelState

mutual
/-- What a level comes to. -/
def outcome : LevelState → Except Fault (List Row)
  | .loading l tasks => (loadOutcomes answer g l tasks).mapM id >>= finishLevel answer g l.nodes l.rows
  | .nesting _ rows loaded below => do return settleAll rows loaded (← outcomes below)
  | .finished r => r

def outcomes : List LevelState → Except Fault (List (List Row))
  | [] => .ok []
  | b :: bs => do
    let rows ← b.outcome
    return rows :: (← outcomes bs)
end

mutual
def left : LevelState → List (Option BatchQuery)
  | .loading l tasks => (loadsLeft answer g l tasks).flatten ++
      none :: leftAfter (leftBelow answer g l.nodes) ((loadOutcomes answer g l tasks).mapM id)
  | .nesting _ _ _ below => leftOf below ++ [none]
  | .finished _ => []

def leftOf : List LevelState → List (Option BatchQuery)
  | [] => []
  | b :: bs => b.left ++ leftOf bs
end

theorem outcomes_eq (bs : List LevelState) : outcomes answer g bs = bs.mapM (outcome answer g) := by
  induction bs with
  | nil => rfl
  | cons b bs ih => rw [outcomes, ih, List.mapM_cons]

theorem leftOf_eq (bs : List LevelState) : leftOf answer g bs = bs.flatMap (left answer g) := by
  induction bs with
  | nil => rfl
  | cons b bs ih => rw [leftOf, ih, List.flatMap_cons]

/-- What holds of a level in the course of a run: every attachment links all rows, and the keys of the levels that are
still to come stand apart. -/
inductive Sound : LevelState → Prop
  | loading {l : Level} {tasks : List Task} (apart : NodesApart l.nodes)
    (loads : List.Forall₂ (fun n t => Task.Sound n l.rows.length t) l.nodes tasks) : Sound (.loading l tasks)
  | nesting {path : List String} {rows : List Row} {loaded : List Loaded} {below : List LevelState}
    (links : ∀ n ∈ loaded, n.2.links.length = rows.length) (sound : ∀ b ∈ below, Sound b) :
    Sound (.nesting path rows loaded below)
  | finished (r : Except Fault (List Row)) : Sound (.finished r)

end LevelState

namespace Level

variable {l : Level}

theorem nodesApart_loaded {nodes : List PlanNode} (h : NodesApart nodes) (path : List String) {n : Loaded}
    (hn : n.1 ∈ nodes) : NodesApart (n.below path).nodes := by
  obtain ⟨n, a⟩ := n
  cases n with
  | leaf s => exact ⟨.nil, fun q hq => by cases hq⟩
  | branch s p => exact nodesApart_of_levels (h.nested hn rfl)

theorem sound_start (h : NodesApart l.nodes) : l.start.Sound := by
  unfold start
  split
  · exact .finished _
  · refine .loading h ?_
    rw [List.forall₂_map_right_iff]
    exact List.forall₂_same.mpr fun _ _ => trivial

theorem outcome_start (h : NodesApart l.nodes) : l.start.outcome answer g = l.nest answer g := by
  unfold start
  split
  · next hidle =>
    have hnest : l.nest answer g = .ok l.rows := if_pos hidle
    rw [LevelState.outcome, hnest]
  · next hidle =>
    have hrows : ¬l.rows.isEmpty = true := fun hrows => hidle (by simp [isIdle, hrows])
    have hnest : l.nest answer g = _ := Plan.nest_eq answer g (p := .mk l.entity l.depth l.nodes []) h.level hrows
    rw [LevelState.outcome, hnest, loadOutcomes, List.zipWith_map_right, List.zipWith_self, Except.mapM_id_map]
    rfl

theorem left_start (l : Level) : l.start.left answer g = l.left answer g := by
  by_cases hidle : l.isIdle = true
  · have hleft : l.left answer g = [] := if_pos hidle
    rw [start, if_pos hidle, hleft, LevelState.left]
  · have hleft : l.left answer g = _ := if_neg hidle
    rw [start, if_neg hidle, hleft, LevelState.left, loadOutcomes, loadsLeft, List.zipWith_map_right,
      List.zipWith_self, List.zipWith_map_right, List.zipWith_self, Except.mapM_id_map]
    rfl

theorem inFlight_start (l : Level) : l.start.inFlight = 0 := by
  unfold start
  split
  · rfl
  · rw [LevelState.inFlight, List.countP_eq_zero]
    intro t ht
    obtain ⟨n, -, rfl⟩ := List.mem_map.mp ht
    simp [Task.isCalling]

end Level

section Below

variable {nodes : List PlanNode} {loaded : List Loaded} (path : List String)

/-- The levels below the nodes of a level, as they start. -/
theorem outcomes_start (h : NodesApart nodes) (hloaded : ∀ n ∈ loaded, n.1 ∈ nodes) :
    LevelState.outcomes answer g (loaded.map fun n => (n.below path).start) =
      loaded.mapM fun n => n.1.nest answer g n.2.attached := by
  rw [LevelState.outcomes_eq, List.mapM_map]
  refine Except.mapM_congr fun n hn => ?_
  show (Loaded.below path n).start.outcome answer g = _
  rw [Level.outcome_start answer g (Level.nodesApart_loaded h path (hloaded n hn)), Loaded.nest_below]

theorem leftOf_start (as : List Attachment) :
    LevelState.leftOf answer g ((nodes.zip as).map fun n => (Loaded.below path n).start) =
      leftBelow answer g nodes as := by
  rw [LevelState.leftOf_eq, List.flatMap_map, leftBelow_eq]
  refine List.flatMap_congr fun n _ => ?_
  rw [Level.left_start, Loaded.left_below]

theorem inFlightBelow_start (loaded : List Loaded) : inFlightBelow (loaded.map fun n => (n.below path).start) = 0 := by
  induction loaded with
  | nil => rfl
  | cons n loaded ih => rw [List.map_cons, inFlightBelow, ih, Level.inFlight_start]

end Below

end Levels

end RelatedRows

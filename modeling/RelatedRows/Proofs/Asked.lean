import Mathlib.Data.List.Perm.Basic
import RelatedRows.Proofs.Siblings

/-!
# What is asked

Which queries stitching puts, when the answers of a store depend on the query alone.

* `Dialogue.asked`, `PlanNode.asks`: the queries of one load.
* `Plan.asked answer g p path rows`: the queries of a plan, each with the path to its node.  All nodes of a level put
  all their queries; below the level nothing is asked if one of them fails.
* `NodesApart`: the keys of a level and of all levels below it stand apart.
* `asked_stitchRows`: stitching puts these queries, level by level.
-/

namespace RelatedRows

open scoped List

/-- A query with the path to the node that puts it. -/
abbrev Asked := List String × BatchQuery

/-- The queries of a dialogue with a store that gives these answers. -/
def Dialogue.asked {α : Type} (answer : BatchQuery → Answer) : Dialogue α → List BatchQuery
  | .done _ => []
  | .ask q next => q :: (next (answer q)).asked answer

namespace Session

variable {σ : Type}

def askedOf (events : List Event) : List Asked :=
  events.filterMap fun
    | .query path _ q => some (path, q)
    | .level .. => none

def asked (s : Session σ) : List Asked :=
  askedOf s.events

/-- What has been asked since an earlier state of the session. -/
def askedAfter (s earlier : Session σ) : List Asked :=
  askedOf (s.eventsAfter earlier)

theorem queriesOf_eq (es : List Event) : queriesOf es = (askedOf es).map (·.2) := by
  unfold queriesOf askedOf
  rw [List.map_filterMap]
  refine List.filterMap_congr fun e _ => ?_
  cases e <;> rfl

theorem queriesOf_append (es es' : List Event) : queriesOf (es ++ es') = queriesOf es ++ queriesOf es' :=
  List.filterMap_append

theorem queriesAfter_eq (s earlier : Session σ) : s.queriesAfter earlier = (s.askedAfter earlier).map (·.2) :=
  queriesOf_eq _

theorem asked_eq {s earlier : Session σ} (h : earlier.events <+: s.events) :
    s.asked = earlier.asked ++ s.askedAfter earlier := by
  obtain ⟨es, hes⟩ := h
  rw [asked, asked, askedAfter, eventsAfter, ← hes, List.drop_left]
  exact List.filterMap_append

theorem asked_record (s : Session σ) (es : List Event) : (s.record es).asked = s.asked ++ askedOf es := by
  simp [asked, askedOf, record]

theorem askedOf_levels (ls : List Level) : askedOf (ls.flatMap Level.events) = [] := by
  induction ls with
  | nil => rfl
  | cons l ls ih =>
    rw [askedOf] at ih ⊢
    rw [List.flatMap_cons, List.filterMap_append, ih, List.append_nil, Level.events]
    split <;> rfl

theorem queriesOf_levels (ls : List Level) : queriesOf (ls.flatMap Level.events) = [] := by
  rw [queriesOf_eq, askedOf_levels, List.map_nil]

end Session

/-! ## The queries of a plan -/

section Asked

variable (answer : BatchQuery → Answer) (g : Graph)

/-- The queries of the load of a node. -/
def PlanNode.asks (n : PlanNode) (path : List String) (rows : List Row) : List Asked :=
  ((n.load g rows).asked answer).map (path ++ [n.key], ·)

/-- The queries of a level; `below` gives those of the levels below. -/
def askedLevel (nodes : List PlanNode) (path : List String) (rows : List Row) (below : List Attachment → List Asked) :
    List Asked :=
  if rows.isEmpty then []
  else
    nodes.flatMap (·.asks answer g path rows) ++
      match nodes.mapM (PlanNode.attach answer g · rows) with
      | .ok as => below as
      | .error _ => []

mutual
def Plan.asked : Plan → (path : List String) → List Row → List Asked
  | .mk _ _ nodes _, path, rows => askedLevel answer g nodes path rows (askedBelow nodes path)

/-- The queries below some nodes and their attachments. -/
def askedBelow : List PlanNode → (path : List String) → List Attachment → List Asked
  | n :: ns, path, a :: as => n.asked (path ++ [n.key]) a.attached ++ askedBelow ns path as
  | _, _, _ => []

def PlanNode.asked : PlanNode → (path : List String) → List Row → List Asked
  | .leaf _, _, _ => []
  | .branch _ p, path, rows => p.asked path rows
end

def Level.asked (l : Level) : List Asked :=
  askedLevel answer g l.nodes l.path l.rows (askedBelow answer g l.nodes l.path)

theorem Plan.asked_eq (p : Plan) (path : List String) (rows : List Row) :
    p.asked answer g path rows = askedLevel answer g p.nodes path rows (askedBelow answer g p.nodes path) := by
  cases p
  rw [asked]
  rfl

theorem Plan.asked_level (p : Plan) (path : List String) (rows : List Row) :
    (p.level path rows).asked answer g = p.asked answer g path rows :=
  (p.asked_eq answer g path rows).symm

theorem askedBelow_eq {ns : List PlanNode} {as : List Attachment} (path : List String) :
    askedBelow answer g ns path as =
      (ns.zip as).flatMap fun n => n.1.asked answer g (path ++ [n.1.key]) n.2.attached := by
  induction ns generalizing as with
  | nil => rfl
  | cons n ns ih =>
    cases as with
    | nil => rfl
    | cons a as => rw [askedBelow, ih, List.zip_cons_cons, List.flatMap_cons]

theorem Level.asked_of_isIdle {l : Level} (h : l.isIdle = true) : l.asked answer g = [] := by
  rw [asked, askedLevel]
  split
  · rfl
  · next hrows =>
    have hnodes : l.nodes = [] := by simpa [isIdle, hrows] using h
    rw [hnodes]
    rfl

theorem Loaded.asked_below (path : List String) (n : Loaded) :
    (n.below path).asked answer g = n.1.asked answer g (path ++ [n.1.key]) n.2.attached := by
  obtain ⟨n, a⟩ := n
  cases n with
  | leaf s =>
    rw [PlanNode.asked, Level.asked_of_isIdle]
    simp [below, Level.isIdle]
  | branch s p =>
    rw [PlanNode.asked, ← Plan.asked_level]
    rfl

/-! ## A level -/

variable {answer g}

/-- What is asked for a level is what its nodes ask, and then what is asked below. -/
theorem Level.asked_eq {l : Level} (hl : l.nodes.Pairwise PlanNode.Apart) (hidle : ¬l.isIdle = true) :
    l.asked answer g = l.nodes.flatMap (·.asks answer g l.path l.rows) ++
      (l.eval answer g).below.flatMap (Level.asked answer g) := by
  have hbelow : (match l.nodes.mapM (PlanNode.attach answer g · l.rows) with
      | .ok as => askedBelow answer g l.nodes l.path as
      | .error _ => []) = (l.eval answer g).below.flatMap (Level.asked answer g) := by
    rw [eval, if_neg hidle, mapM_evalNodes answer g hl]
    cases l.nodes.mapM (PlanNode.attach answer g · l.rows) with
    | error f => rfl
    | ok as =>
      show askedBelow answer g l.nodes l.path as = ((l.nodes.zip as).map (Loaded.below l.path)).flatMap _
      rw [List.flatMap_map, askedBelow_eq]
      exact List.flatMap_congr fun n _ => (Loaded.asked_below answer g l.path n).symm
  have hrows : ¬l.rows.isEmpty = true := fun hrows => hidle (by simp [isIdle, hrows])
  rw [asked, askedLevel, if_neg hrows, hbelow]

theorem Level.exists_of_mem_below {l b : Level} (hb : b ∈ (l.eval answer g).below) :
    ∃ n ∈ l.nodes, ∃ a, b = Loaded.below l.path (n, a) := by
  by_cases hidle : l.isIdle = true
  · rw [eval, if_pos hidle] at hb
    cases hb
  · rw [eval, if_neg hidle, LoadedLevel.below] at hb
    split at hb
    · next loaded hloaded =>
      obtain ⟨⟨n, a⟩, hn, rfl⟩ := List.mem_map.mp hb
      have hnodes := map_fst_of_mapM_evalNodes answer g hloaded
      exact ⟨n, hnodes ▸ List.mem_map_of_mem hn, a, rfl⟩
    · cases hb

theorem Level.nodesApart_below {l b : Level} (hl : NodesApart l.nodes) (hb : b ∈ (l.eval answer g).below) :
    NodesApart b.nodes := by
  obtain ⟨n, hn, a, rfl⟩ := exists_of_mem_below hb
  cases n with
  | leaf s => exact ⟨.nil, fun q hq => by cases hq⟩
  | branch s p => exact nodesApart_of_levels (hl.nested hn rfl)

/-! ## Nothing is taken back -/

section Events

variable {σ : Type} (exec : Executor σ) (g : Graph)

theorem Dialogue.events_run {α : Type} (path : List String) (step : Inclusion) (d : Dialogue α) (s : Session σ) :
    s.events <+: (d.run exec path step s).2.events := by
  induction d generalizing s with
  | done a => exact List.prefix_rfl
  | ask q next ih =>
    let s' := (s.record [.query path step q]).called (exec s.store (.batch q)).2
    have hcall : s.events <+: s'.events := List.prefix_append ..
    exact hcall.trans (ih (exec s.store (.batch q)).1 s')

theorem events_loadNodes (path : List String) (ns : List PlanNode) (rows : List Row) (s : Session σ) :
    s.events <+: (loadNodes exec g path ns rows s).2.2.events := by
  induction ns generalizing rows s with
  | nil => exact List.prefix_rfl
  | cons n ns ih => exact (Dialogue.events_run exec _ n.step _ s).trans (ih _ _)

theorem events_loadLevels (ls : List Level) (s : Session σ) : s.events <+: (loadLevels exec g ls s).2.events := by
  induction ls generalizing s with
  | nil => exact List.prefix_rfl
  | cons l ls ih =>
    have hload : s.events <+: (l.load exec g s).2.events := by
      unfold Level.load
      split
      · exact List.prefix_rfl
      · exact events_loadNodes exec g l.path l.nodes l.rows s
    exact hload.trans (ih _)

theorem events_stitchLevels (height : Nat) (ls : List Level) (s : Session σ) :
    s.events <+: (stitchLevels exec g height ls s).2.events := by
  induction height generalizing ls s with
  | zero => exact List.prefix_rfl
  | succ height ih =>
    have hrecord : s.events <+: (s.record (ls.flatMap Level.events)).events := List.prefix_append ..
    exact (hrecord.trans (events_loadLevels exec g ls _)).trans (ih _ _)

end Events

/-! ## Asking a store -/

section Run

variable {σ : Type} {exec : Executor σ} (h : ∀ s q, (exec s (.batch q)).1 = answer q)

include h

theorem Dialogue.asked_run {α : Type} (path : List String) (step : Inclusion) (d : Dialogue α) (s : Session σ) :
    (d.run exec path step s).2.asked = s.asked ++ (d.asked answer).map (path, ·) := by
  induction d generalizing s with
  | done a => simp [run, asked]
  | ask q next ih =>
    have hs : ((s.record [.query path step q]).called (exec s.store (.batch q)).2).asked = s.asked ++ [(path, q)] :=
      s.asked_record [.query path step q]
    simp only [run, asked]
    rw [ih, hs, h, List.map_cons, List.append_assoc]
    rfl

theorem asked_loadNodes (path : List String) {ns : List PlanNode} (hns : ns.Pairwise PlanNode.Apart)
    (rows : List Row) (s : Session σ) :
    (loadNodes exec g path ns rows s).2.2.asked = s.asked ++ ns.flatMap (·.asks answer g path rows) := by
  induction ns generalizing rows s with
  | nil => simp [loadNodes]
  | cons n ns ih =>
    rw [List.pairwise_cons] at hns
    have hrest : ∀ after : List Row, (∃ r, after = rowsAfter n.key rows r) →
        ns.flatMap (·.asks answer g path after) = ns.flatMap (·.asks answer g path rows) := by
      rintro after ⟨r, rfl⟩
      refine List.flatMap_congr fun m hm => ?_
      rw [PlanNode.asks, PlanNode.asks, PlanNode.load_congr (spelling_rowsAfter (hns.1 m hm).1 rows r)]
    simp only [loadNodes]
    rw [ih hns.2, Dialogue.asked_run h, hrest _ ⟨_, rfl⟩, List.flatMap_cons, List.append_assoc]
    rfl

theorem Level.asked_load {l : Level} (hl : l.nodes.Pairwise PlanNode.Apart) (s : Session σ) :
    (l.load exec g s).2.asked ++ (l.eval answer g).below.flatMap (Level.asked answer g) =
      s.asked ++ l.asked answer g := by
  by_cases hidle : l.isIdle = true
  · rw [load, eval, if_pos hidle, if_pos hidle, asked_of_isIdle answer g hidle]
    rfl
  · rw [asked_eq hl hidle, load, if_neg hidle]
    show (loadNodes exec g l.path l.nodes l.rows s).2.2.asked ++ _ = _
    rw [asked_loadNodes h l.path hl, List.append_assoc]

theorem asked_loadLevels {ls : List Level} (hls : ∀ l ∈ ls, NodesApart l.nodes) (s : Session σ) :
    ((loadLevels exec g ls s).2.asked ++
        ((ls.map (Level.eval answer g)).flatMap LoadedLevel.below).flatMap (Level.asked answer g)).Perm
      (s.asked ++ ls.flatMap (Level.asked answer g)) := by
  induction ls generalizing s with
  | nil => exact .refl _
  | cons l ls ih =>
    have hrest := ih (fun m hm => hls m (List.mem_cons_of_mem _ hm)) (l.load exec g s).2
    have hload := Level.asked_load (g := g) h (hls l List.mem_cons_self).level s
    simp only [loadLevels, List.map_cons, List.flatMap_cons, List.flatMap_append]
    generalize (l.eval answer g).below.flatMap (Level.asked answer g) = below at hload ⊢
    generalize ((ls.map (Level.eval answer g)).flatMap LoadedLevel.below).flatMap (Level.asked answer g) = others
      at hrest ⊢
    generalize ls.flatMap (Level.asked answer g) = later at hrest ⊢
    calc (loadLevels exec g ls (l.load exec g s).2).2.asked ++ (below ++ others)
        ~ (loadLevels exec g ls (l.load exec g s).2).2.asked ++ (others ++ below) :=
          List.perm_append_comm.append_left _
      _ = (loadLevels exec g ls (l.load exec g s).2).2.asked ++ others ++ below := (List.append_assoc ..).symm
      _ ~ (l.load exec g s).2.asked ++ later ++ below := hrest.append_right below
      _ = (l.load exec g s).2.asked ++ (later ++ below) := List.append_assoc ..
      _ ~ (l.load exec g s).2.asked ++ (below ++ later) := List.perm_append_comm.append_left _
      _ = s.asked ++ (l.asked answer g ++ later) := by rw [← List.append_assoc, hload, List.append_assoc]

theorem asked_stitchLevels (height : Nat) {ls : List Level} (hheight : ∀ l ∈ ls, nodesHeight l.nodes ≤ height)
    (hls : ∀ l ∈ ls, NodesApart l.nodes) (s : Session σ) :
    (stitchLevels exec g height ls s).2.asked.Perm (s.asked ++ ls.flatMap (Level.asked answer g)) := by
  induction height generalizing ls s with
  | zero =>
    have hasked : ls.flatMap (Level.asked answer g) = [] := by
      refine List.flatMap_eq_nil_iff.mpr fun l hl => Level.asked_of_isIdle answer g ?_
      cases hns : l.nodes with
      | nil => simp [Level.isIdle, hns]
      | cons n ns =>
        have := hheight l hl
        rw [hns, nodesHeight] at this
        omega
    rw [hasked, List.append_nil]
    exact .refl _
  | succ height ih =>
    have hmem : ∀ b ∈ (ls.map (Level.eval answer g)).flatMap LoadedLevel.below,
        ∃ l ∈ ls, b ∈ (l.eval answer g).below := by
      intro b hb
      obtain ⟨loaded, hloaded, hb⟩ := List.mem_flatMap.mp hb
      obtain ⟨l, hl, rfl⟩ := List.mem_map.mp hloaded
      exact ⟨l, hl, hb⟩
    have hloads := asked_loadLevels (g := g) h hls (s.record (ls.flatMap Level.events))
    rw [Session.asked_record, Session.askedOf_levels, List.append_nil] at hloads
    simp only [stitchLevels, loadLevels_fst g h]
    refine (ih (fun b hb => ?_) (fun b hb => ?_) _).trans hloads
    · obtain ⟨l, hl, hb⟩ := hmem b hb
      exact Level.height_below_eval answer g (hheight l hl) b hb
    · obtain ⟨l, hl, hb⟩ := hmem b hb
      exact Level.nodesApart_below (hls l hl) hb

/-- Stitching puts the queries of the plan, each as often as the plan does. -/
theorem asked_stitchRows {p : Plan} (hp : ∀ q ∈ p.levels, q.KeysApart) (rows : List Row) (s : Session σ) :
    ((stitchRows exec g p rows s).2.askedAfter s).Perm (p.asked answer g [] rows) := by
  have hheight : nodesHeight (p.level [] rows).nodes ≤ p.height := by
    cases p
    simp [Plan.level, Plan.nodes, Plan.height]
  have hapart : NodesApart (p.level [] rows).nodes := nodesApart_of_levels hp
  have hlevels : (stitchRows exec g p rows s).2.asked.Perm
      (s.asked ++ [p.level [] rows].flatMap (Level.asked answer g)) :=
    asked_stitchLevels h p.height (by simpa using hheight) (by simpa using hapart) s
  have hevents : s.events <+: (stitchRows exec g p rows s).2.events := events_stitchLevels exec g p.height _ s
  rw [List.flatMap_singleton, Plan.asked_level, Session.asked_eq hevents] at hlevels
  exact (List.perm_append_left_iff s.asked).mp hlevels

end Run

end Asked

end RelatedRows

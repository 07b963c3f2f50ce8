import RelatedRows.Include.Compile
import RelatedRows.Proofs.Consistency
import RelatedRows.Web.Bookshelf

/-!
# Compiled plans

What is known of every level of a plan that was compiled against a consistent graph.

* `Plan.levels`: a plan and all the plans below its nodes.
* `Plan.induction`: a property passes to a plan from the plans below its nodes.
* `Plan.KeysApart`: no node of a level is stitched by a column that another node of the level writes.
* `PlanNode.Fits`, `Relation.Consistent`: what compiling guarantees about a node, and the graph about its relation.
* `Graph.lookup?_of_build`, `Graph.entity?_of_build`: a graph finds each of its relations by name, and its entities.
-/

namespace RelatedRows

/-! ## Levels -/

mutual
def Plan.levels : Plan → List Plan
  | .mk entity depth nodes pruned => .mk entity depth nodes pruned :: levelsBelow nodes

/-- The plans below some nodes, at any depth. -/
def levelsBelow : List PlanNode → List Plan
  | [] => []
  | n :: ns => n.levels ++ levelsBelow ns

def PlanNode.levels : PlanNode → List Plan
  | .leaf _ => []
  | .branch _ p => p.levels
end

theorem mem_levelsBelow {q : Plan} {ns : List PlanNode} : q ∈ levelsBelow ns ↔ ∃ n ∈ ns, q ∈ n.levels := by
  induction ns with
  | nil => simp [levelsBelow]
  | cons n ns ih => simp [levelsBelow, ih]

namespace Plan

theorem mem_levels_self (p : Plan) : p ∈ p.levels := by
  cases p
  simp [levels]

theorem levels_subset {p q : Plan} {s : Inclusion} (h : .branch s q ∈ p.nodes) : q.levels ⊆ p.levels := by
  intro r hr
  cases p with
  | mk entity depth nodes pruned =>
    rw [levels]
    exact List.mem_cons_of_mem _ (mem_levelsBelow.mpr ⟨_, h, hr⟩)

theorem mem_levels {p r : Plan} : r ∈ p.levels ↔ r = p ∨ ∃ s q, .branch s q ∈ p.nodes ∧ r ∈ q.levels := by
  cases p with
  | mk entity depth nodes pruned =>
    rw [levels, List.mem_cons, mem_levelsBelow]
    refine or_congr Iff.rfl ⟨?_, ?_⟩
    · rintro ⟨n, hn, hr⟩
      cases n with
      | leaf s => simp [PlanNode.levels] at hr
      | branch s q => exact ⟨s, q, hn, hr⟩
    · rintro ⟨s, q, hn, hr⟩
      exact ⟨_, hn, hr⟩

theorem height_lt {p q : Plan} {s : Inclusion} (h : .branch s q ∈ p.nodes) : q.height < p.height := by
  cases p with
  | mk entity depth nodes pruned => exact PlanNode.height_lt_of_mem h

theorem induction {motive : Plan → Prop}
    (step : ∀ p, (∀ s q, .branch s q ∈ p.nodes → motive q) → motive p) (p : Plan) : motive p := by
  generalize hn : p.height = n
  induction n using Nat.strongRecOn generalizing p with
  | ind n ih =>
    refine step p fun s q hq => ih q.height ?_ q rfl
    exact hn ▸ height_lt hq

theorem levels_trans {p q r : Plan} (hq : q ∈ p.levels) (hr : r ∈ q.levels) : r ∈ p.levels := by
  induction p using induction with
  | step p ih =>
    rcases mem_levels.mp hq with rfl | ⟨s, p', hp', hq⟩
    · exact hr
    · exact levels_subset hp' (ih s p' hp' hq)

end Plan

/-- Neither of two nodes is stitched by the column that the other one writes. -/
def PlanNode.Apart (n m : PlanNode) : Prop :=
  n.key ∉ m.step.relation.sourceKey ∧ m.key ∉ n.step.relation.sourceKey

instance (n m : PlanNode) : Decidable (n.Apart m) :=
  inferInstanceAs (Decidable (_ ∧ _))

/-- No node is stitched by a column that another node of the same level writes. -/
def Plan.KeysApart (p : Plan) : Prop :=
  p.nodes.Pairwise PlanNode.Apart

instance (p : Plan) : Decidable p.KeysApart :=
  inferInstanceAs (Decidable (List.Pairwise _ _))

/-- No node is stitched by a column that another one writes, neither among these nodes nor in a level below them. -/
structure NodesApart (ns : List PlanNode) : Prop where
  level : ns.Pairwise PlanNode.Apart
  below : ∀ q ∈ levelsBelow ns, q.KeysApart

theorem nodesApart_of_levels {p : Plan} (h : ∀ q ∈ p.levels, q.KeysApart) : NodesApart p.nodes := by
  cases p with
  | mk entity depth ns pruned =>
    refine ⟨h _ (Plan.mem_levels_self _), fun q hq => h q ?_⟩
    rw [Plan.levels]
    exact List.mem_cons_of_mem _ hq

theorem NodesApart.nested {ns : List PlanNode} (h : NodesApart ns) {n : PlanNode} (hn : n ∈ ns) {p : Plan}
    (hp : n.nested? = some p) : ∀ q ∈ p.levels, q.KeysApart := by
  intro q hq
  refine h.below q (mem_levelsBelow.mpr ⟨n, hn, ?_⟩)
  cases n with
  | leaf s => cases hp
  | branch s p' =>
    cases hp
    exact hq

/-! ## Relations of a consistent graph -/

structure Relation.Consistent (r : Relation) : Prop where
  arity : r.sourceKey.length = r.targetKey.length
  join : r.kind = .manyViaJoin → ∃ j, r.joinEntity = some j ∧
    r.joinSourceKey.length = r.sourceKey.length ∧ r.joinTargetKey.length = r.targetKey.length

theorem Relation.Consistent.exists_join {r : Relation} (h : r.Consistent) (hkind : r.kind = .manyViaJoin) :
    ∃ j, r.joinEntity = some j := by
  obtain ⟨j, hj, -⟩ := h.join hkind
  exact ⟨j, hj⟩

namespace Graph

variable {entities : List Entity} {relations : List Relation} {g : Graph} {r : Relation}

theorem consistent_of_build (h : build entities relations = .ok g) (hr : r ∈ g.relations) : r.Consistent := by
  have hfits := consistentIn_of_build h hr
  refine ⟨hfits.arity, fun hkind => ?_⟩
  obtain ⟨j, hj⟩ := hfits.joined.mpr hkind
  exact ⟨j, hj, (hfits.join j hj).2⟩

/-- Every relation of a graph is found by its name. -/
theorem lookup?_of_build (h : build entities relations = .ok g) (hr : r ∈ g.relations) :
    g.lookup? r.source r.name = some r := by
  rw [eq_of_build h] at hr
  exact (lookup?_eq_some_iff h).mpr ⟨hr, rfl, rfl⟩

/-- The ends of a relation are entities of its graph. -/
theorem entity?_of_build (h : build entities relations = .ok g) (hr : r ∈ g.relations) :
    (∃ e, g.entity? r.source = some e) ∧ ∃ e, g.entity? r.target = some e :=
  ⟨exists_entity? (consistentIn_of_build h hr).source, exists_entity? (consistentIn_of_build h hr).target⟩

end Graph

/-! ## Nodes of a compiled plan -/

/-- What compiling an entry of a request guarantees about the node that it yields. -/
structure PlanNode.Compiles (g : Graph) (deeper : Option LevelCompiler) (entity : String) (depth : Nat)
    (path : List String) (field : String × Value) (n : PlanNode) : Prop where
  relation : g.lookup? entity field.1 = some n.step.relation
  key_eq : n.key = field.1
  depth_eq : n.step.depth = depth
  nested : ∀ q, n.nested? = some q → ∃ fields entry below compileLevel,
    field.2 = .object fields ∧ Entry.read fields = .ok entry ∧ entry.below = some below ∧
    deeper = some compileLevel ∧
    compileLevel n.step.relation.target (depth + 1) (path ++ [field.1]) (.object below) = .ok q

section Compile

variable {g : Graph} {deeper : Option LevelCompiler} {entity : String} {depth : Nat} {path : List String}
  {field : String × Value} {n : PlanNode} {c : Compiled}

theorem compileOptions_node {step : Inclusion} {entry : Entry}
    (h : compileOptions deeper depth path step entry = .ok c) (hn : c.node = some n) :
    n.step = step ∧ ∀ q, n.nested? = some q → ∃ below compileLevel, entry.below = some below ∧
      deeper = some compileLevel ∧
      compileLevel step.relation.target (depth + 1) (path ++ [step.key]) (.object below) = .ok q := by
  have leaf : some (PlanNode.leaf step) = some n → n.step = step ∧ ∀ q, n.nested? ≠ some q := by
    rintro ⟨⟩
    exact ⟨rfl, fun q hq => by cases hq⟩
  unfold compileOptions at h
  split at h
  · cases h
    exact ⟨(leaf hn).1, fun q hq => absurd hq ((leaf hn).2 q)⟩
  · cases h
    exact ⟨(leaf hn).1, fun q hq => absurd hq ((leaf hn).2 q)⟩
  · next below _ hbelow =>
    split at h
    · cases h
      exact ⟨(leaf hn).1, fun q hq => absurd hq ((leaf hn).2 q)⟩
    · next compileLevel =>
      obtain ⟨nested, hnested, h⟩ := Except.bind_eq_ok h
      cases h
      by_cases he : nested.isEmpty = true
      · simp only [he, if_true] at hn
        exact ⟨(leaf hn).1, fun q hq => absurd hq ((leaf hn).2 q)⟩
      · simp only [he] at hn
        cases hn
        refine ⟨rfl, fun q hq => ?_⟩
        cases hq
        exact ⟨below, compileLevel, hbelow, rfl, hnested⟩

theorem compileEntry_node (h : compileEntry g deeper entity depth path field = .ok c) (hn : c.node = some n) :
    n.Compiles g deeper entity depth path field := by
  obtain ⟨key, value⟩ := field
  unfold compileEntry at h
  simp only at h
  split at h
  · cases h
  · next relation hrel =>
    split at h
    · cases h; cases hn
    · cases h; cases hn
    · cases h
      cases hn
      exact ⟨hrel, rfl, rfl, fun q hq => by cases hq⟩
    · next fields =>
      split at h
      · cases h
      · next entry hentry =>
        split at h
        · cases h
        · next target _ =>
          obtain ⟨u, -, h⟩ := Except.bind_eq_ok h
          obtain ⟨hstep, hnested⟩ := compileOptions_node h hn
          refine ⟨?_, ?_, ?_, fun q hq => ?_⟩
          · rw [hstep]; exact hrel
          · rw [PlanNode.key, hstep]
          · rw [hstep]
          · obtain ⟨below, compileLevel, hbelow, hdeeper, hq⟩ := hnested q hq
            rw [hstep]
            exact ⟨fields, entry, below, compileLevel, rfl, hentry, hbelow, hdeeper, hq⟩
    · cases h

/-- The nodes of a compiled level come from the entries of its object. -/
theorem compileSpec_eq_ok {spec : Value} {p : Plan} (h : compileSpec g deeper entity depth path spec = .ok p) :
    p.entity = entity ∧ p.depth = depth ∧
      ∀ n ∈ p.nodes, ∃ field, n.Compiles g deeper entity depth path field := by
  unfold compileSpec at h
  split at h
  · cases h
    exact ⟨rfl, rfl, by simp⟩
  · next fields =>
    obtain ⟨compiled, hcompiled, h⟩ := Except.bind_eq_ok h
    cases h
    refine ⟨rfl, rfl, fun n hn => ?_⟩
    obtain ⟨c, hc, hcn⟩ := List.mem_filterMap.mp hn
    obtain ⟨field, -, hfield⟩ := Except.exists_of_mem_mapM hcompiled hc
    exact ⟨field, compileEntry_node hfield hcn⟩
  · cases h

end Compile

/-- What holds of a node wherever it stands in a compiled plan. -/
structure PlanNode.Fits (g : Graph) (entity : String) (n : PlanNode) : Prop where
  mem : n.step.relation ∈ g.relations
  source : n.step.relation.source = entity
  nested : ∀ q, n.nested? = some q → q.entity = n.step.relation.target

def Plan.Fits (g : Graph) (p : Plan) : Prop :=
  ∀ q ∈ p.levels, ∀ n ∈ q.nodes, n.Fits g q.entity

theorem Plan.Fits.below {g : Graph} {p q : Plan} {s : Inclusion} (h : p.Fits g) (hq : .branch s q ∈ p.nodes) :
    q.Fits g :=
  fun r hr => h r (Plan.levels_subset hq hr)

section Compile

variable {g : Graph} {entity : String} {spec : Value} {p : Plan}

theorem fits_of_compileSpec {deeper : Option LevelCompiler} {depth : Nat} {path : List String}
    (hdeeper : ∀ compileLevel, deeper = some compileLevel → ∀ entity depth path spec p,
      compileLevel entity depth path spec = .ok p → p.entity = entity ∧ p.Fits g)
    (h : compileSpec g deeper entity depth path spec = .ok p) : p.entity = entity ∧ p.Fits g := by
  obtain ⟨hentity, -, hnodes⟩ := compileSpec_eq_ok h
  have hnested : ∀ n ∈ p.nodes, ∀ q, n.nested? = some q → q.entity = n.step.relation.target ∧ q.Fits g := by
    intro n hn q hq
    obtain ⟨field, hc⟩ := hnodes n hn
    obtain ⟨_, _, below, compileLevel, -, -, -, hlevel, hq⟩ := hc.nested q hq
    exact hdeeper compileLevel hlevel _ _ _ _ _ hq
  refine ⟨hentity, fun r hr n hn => ?_⟩
  rcases Plan.mem_levels.mp hr with rfl | ⟨s, q, hq, hr⟩
  · obtain ⟨field, hc⟩ := hnodes n hn
    refine ⟨Graph.mem_of_lookup? hc.relation, ?_, fun q hq => (hnested n hn q hq).1⟩
    rw [hentity]
    exact (Graph.source_of_lookup? hc.relation).1
  · exact (hnested _ hq q rfl).2 r hr n hn

theorem fits_of_compileLevel {below depth : Nat} {path : List String}
    (h : compileLevel g below entity depth path spec = .ok p) : p.entity = entity ∧ p.Fits g := by
  induction below generalizing entity depth path spec p with
  | zero => exact fits_of_compileSpec (fun _ hl => by cases hl) h
  | succ below ih =>
    refine fits_of_compileSpec (fun compileLevel hl => ?_) h
    cases hl
    exact fun _ _ _ _ _ hq => ih hq

theorem compileLevel_of_compile {maxDepth : Int} (h : compile g entity spec maxDepth = .ok p) :
    compileLevel g (maxDepth - 1).toNat entity 0 [] spec = .ok p := by
  unfold compile at h
  split_ifs at h
  split at h
  · cases h
  · exact h

theorem fits_of_compile {maxDepth : Int} (h : compile g entity spec maxDepth = .ok p) :
    p.entity = entity ∧ p.Fits g :=
  fits_of_compileLevel (compileLevel_of_compile h)

/-- Every node has the relation that its key names. -/
def Plan.Named (g : Graph) (p : Plan) : Prop :=
  ∀ q ∈ p.levels, ∀ n ∈ q.nodes, g.lookup? q.entity n.key = some n.step.relation

theorem named_of_compileSpec {deeper : Option LevelCompiler} {depth : Nat} {path : List String}
    (hdeeper : ∀ compileLevel, deeper = some compileLevel → ∀ entity depth path spec p,
      compileLevel entity depth path spec = .ok p → p.Named g)
    (h : compileSpec g deeper entity depth path spec = .ok p) : p.Named g := by
  obtain ⟨hentity, -, hnodes⟩ := compileSpec_eq_ok h
  intro r hr n hn
  rcases Plan.mem_levels.mp hr with rfl | ⟨s, q, hq, hr⟩
  · obtain ⟨field, hc⟩ := hnodes n hn
    rw [hentity, hc.key_eq]
    exact hc.relation
  · obtain ⟨field, hc⟩ := hnodes _ hq
    obtain ⟨_, _, below, compileLevel, -, -, -, hlevel, hq⟩ := hc.nested q rfl
    exact hdeeper compileLevel hlevel _ _ _ _ _ hq r hr n hn

theorem named_of_compile {maxDepth : Int} (h : compile g entity spec maxDepth = .ok p) : p.Named g := by
  have hlevel : ∀ (below depth : Nat) (entity : String) (path : List String) (spec : Value) (p : Plan),
      compileLevel g below entity depth path spec = .ok p → p.Named g := by
    intro below
    induction below with
    | zero => exact fun _ _ _ _ _ => named_of_compileSpec fun _ hl => by cases hl
    | succ below ih =>
      intro _ _ _ _ _
      refine named_of_compileSpec fun compileLevel hl => ?_
      cases hl
      exact fun entity depth => ih depth entity
  exact hlevel _ _ _ _ _ _ (compileLevel_of_compile h)

end Compile

/-! ## A plan for the bookshelf -/

namespace Bookshelf

/-- Authors with their first book each, and with its tags. -/
def request : Value :=
  .object [("books", .object [("limit", .int 1), ("include", .object [("tags", .bool true)])])]

def plan : Plan :=
  match compile graph "authors" request 2 with
  | .ok p => p
  | .error _ => .empty "authors" 0

theorem build_graph : Graph.build graph.entities graph.relations = .ok graph := by
  decide +kernel

theorem compile_request : compile graph "authors" request 2 = .ok plan := rfl

end Bookshelf

end RelatedRows

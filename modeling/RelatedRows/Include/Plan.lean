import RelatedRows.Graph.Basic
import RelatedRows.Include.Options

/-!
# Include plans

A plan is a request for includes with every name resolved: for one entity, the relations to attach to its rows, each
with its options and perhaps a plan for the rows that it attaches.

* `Plan.height`: how many levels of relations there are.
* `Plan.describe`: the plan as a value, by keys.
* `Plan.pruned`: the paths of the includes that were dropped because they lay too deep.
-/

namespace RelatedRows

/-- One relation of a plan; `depth` counts the levels above. -/
structure Inclusion where
  key : String
  relation : Relation
  depth : Nat
  options : Options := {}
deriving DecidableEq, Repr

mutual
inductive Plan where
  | mk (entity : String) (depth : Nat) (nodes : List PlanNode) (pruned : List String)

inductive PlanNode where
  | leaf (step : Inclusion)
  | branch (step : Inclusion) (nested : Plan)
end

namespace PlanNode

def step : PlanNode → Inclusion
  | .leaf s => s
  | .branch s _ => s

def nested? : PlanNode → Option Plan
  | .leaf _ => none
  | .branch _ p => some p

def key (n : PlanNode) : String := n.step.key

@[simp] theorem step_leaf (s : Inclusion) : (leaf s).step = s := rfl

@[simp] theorem step_branch (s : Inclusion) (p : Plan) : (branch s p).step = s := rfl

@[simp] theorem nested?_leaf (s : Inclusion) : (leaf s).nested? = none := rfl

@[simp] theorem nested?_branch (s : Inclusion) (p : Plan) : (branch s p).nested? = some p := rfl

end PlanNode

namespace Plan

def entity : Plan → String
  | .mk e _ _ _ => e

def depth : Plan → Nat
  | .mk _ d _ _ => d

def nodes : Plan → List PlanNode
  | .mk _ _ ns _ => ns

def pruned : Plan → List String
  | .mk _ _ _ ps => ps

def isEmpty (p : Plan) : Bool := p.nodes.isEmpty

/-- The plan that attaches nothing. -/
def empty (entity : String) (depth : Nat) : Plan :=
  .mk entity depth [] []

@[simp] theorem nodes_empty (entity : String) (depth : Nat) : (empty entity depth).nodes = [] := rfl

end Plan

/-- The keys that the plan below a node attaches. -/
def PlanNode.nestedKeys (n : PlanNode) : List String :=
  (n.nested?.map fun p => p.nodes.map PlanNode.key).getD []

/-! ## Height -/

mutual
def Plan.height : Plan → Nat
  | .mk _ _ nodes _ => nodesHeight nodes

/-- The height of a plan with these nodes. -/
def nodesHeight : List PlanNode → Nat
  | [] => 0
  | n :: ns => max (n.height + 1) (nodesHeight ns)

def PlanNode.height : PlanNode → Nat
  | .leaf _ => 0
  | .branch _ p => p.height
end

theorem PlanNode.height_lt_of_mem {n : PlanNode} {ns : List PlanNode} (h : n ∈ ns) : n.height < nodesHeight ns := by
  induction ns with
  | nil => simp at h
  | cons m ns ih =>
    rw [nodesHeight]
    rcases List.mem_cons.mp h with rfl | h
    · omega
    · have := ih h
      omega

/-! ## Description -/

/-- What one relation attaches, and its options if they are not the default ones. -/
def Inclusion.describe (s : Inclusion) : Row :=
  [("kind", .text s.relation.kind.word), ("target", .text s.relation.target)] ++
    match s.options.dump with
    | [] => []
    | fields => [("options", .object fields)]

mutual
def Plan.describe : Plan → Value
  | .mk _ _ nodes _ => .object (describeNodes nodes)

def describeNodes : List PlanNode → Row
  | [] => []
  | n :: ns => (n.key, n.describe) :: describeNodes ns

def PlanNode.describe : PlanNode → Value
  | .leaf s => .object s.describe
  | .branch s p => .object (s.describe ++ [("include", p.describe)])
end

end RelatedRows

import RelatedRows.Include.Plan

/-!
# Plans as requests

* `Plan.request`: a plan written back as a request for what it attaches.
* `cutIncludes levels spec`: a request that includes nothing below its first `levels` levels.
-/

namespace RelatedRows

mutual
def Plan.request : Plan → Row
  | .mk _ _ nodes _ => requestNodes nodes

def requestNodes : List PlanNode → Row
  | [] => []
  | n :: ns => (n.key, n.request) :: requestNodes ns

/-- The options of a node that differ from the default, with what is included below it. -/
def PlanNode.request : PlanNode → Value
  | .leaf s => .object s.options.dump
  | .branch s p => .object (s.options.dump ++ [("include", .object p.request)])
end

/-- Applies a function to the fields of an object. -/
def Value.mapFields (f : Row → Row) : Value → Value
  | .object fields => .object (f fields)
  | v => v

/-- Whether an options object may have this value for what is included below; a field of another shape is a fault of the
object itself. -/
def Value.isIncludable : Value → Bool
  | .null | .object _ => true
  | _ => false

/-- An options object without what is included below. -/
def withoutIncludes (options : Row) : Row :=
  options.filter fun f => !(f.1 = "include" && f.2.isIncludable)

def cutIncludes : (levels : Nat) → Value → Value
  | 0, spec => spec
  | 1, spec => spec.mapFields fun entries => entries.map fun e => (e.1, e.2.mapFields withoutIncludes)
  | levels + 2, spec => spec.mapFields fun entries => entries.map fun e =>
    (e.1, e.2.mapFields fun options => options.map fun f =>
      if f.1 = "include" then (f.1, cutIncludes (levels + 1) f.2) else f)

end RelatedRows

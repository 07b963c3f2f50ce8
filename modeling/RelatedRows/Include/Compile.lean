import RelatedRows.Include.Column
import RelatedRows.Include.Plan

/-!
# Compiling a request

`compile g entity spec maxDepth` resolves what a request wants included below rows of `entity`.  Every key must name a
relation, every options object must be in order, and only columns of the target may be named; the first entry at fault
rejects the request.  Includes at `maxDepth` or below are dropped, and their paths kept in the plan.

* `compileEntry`: one entry of a request, with a compiler for what is included below it; there is none at the deepest
  level.
* `compileSpec`: the entries of one level in their order.
-/

namespace RelatedRows

/-- What becomes of one entry: the relation to attach, unless the entry turns it off, and the paths dropped below. -/
structure Compiled where
  node : Option PlanNode := none
  pruned : List String := []

/-- Compiles what is included below a relation: the entity, its depth and the path to it. -/
abbrev LevelCompiler := String → Nat → List String → Value → Except Rejection Plan

section Level

variable (g : Graph)

/-- The node of a relation whose options are read. -/
def compileOptions (deeper : Option LevelCompiler) (depth : Nat) (path : List String) (step : Inclusion)
    (entry : Entry) : Except Rejection Compiled :=
  let here := path ++ [step.key]
  match entry.below with
  | none | some [] => .ok ⟨some (.leaf step), []⟩
  | some below =>
    match deeper with
    | none => .ok ⟨some (.leaf step), [".".intercalate here]⟩
    | some compileLevel => do
      let nested ← compileLevel step.relation.target (depth + 1) here (.object below)
      return ⟨some (if nested.isEmpty then .leaf step else .branch step nested), nested.pruned⟩

def compileEntry (deeper : Option LevelCompiler) (entity : String) (depth : Nat) (path : List String)
    (field : String × Value) : Except Rejection Compiled :=
  let (key, value) := field
  match g.lookup? entity key with
  | none => .error (.unknownRelation entity key)
  | some relation =>
    match value with
    | .null | .bool false => .ok {}
    | .bool true => .ok ⟨some (.leaf ⟨key, relation, depth, {}⟩), []⟩
    | .object fields =>
      match Entry.read fields with
      | .error issues => .error (.invalid entity key (.badOptions issues))
      | .ok entry =>
        match g.entity? relation.target with
        | none => .error (.undeclaredTarget relation)
        | some target => do
          vetColumns target key (entry.options.columns.map .text)
          compileOptions deeper depth path ⟨key, relation, depth, entry.options⟩ entry
    | _ => .error (.invalid entity key .notOptions)

def compileSpec (deeper : Option LevelCompiler) : LevelCompiler
  | entity, depth, _, .null => .ok (Plan.empty entity depth)
  | entity, depth, path, .object fields => do
    let compiled ← fields.mapM (compileEntry g deeper entity depth path)
    return .mk entity depth (compiled.filterMap (·.node)) (compiled.flatMap (·.pruned))
  | entity, _, _, _ => .error (.invalid entity none .notObject)

/-- Compiles a level with `below` more levels under it. -/
def compileLevel : (below : Nat) → LevelCompiler
  | 0 => compileSpec g none
  | below + 1 => compileSpec g (some (compileLevel below))

def compile (entity : String) (spec : Value) (maxDepth : Int) : Except Rejection Plan :=
  if maxDepth < 1 then .error .noDepth
  else
    match g.entity? entity with
    | none => .error (.unknownEntity entity)
    | some _ => compileLevel g (maxDepth - 1).toNat entity 0 [] spec

end Level

end RelatedRows

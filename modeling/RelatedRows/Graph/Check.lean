import RelatedRows.Graph.Basic
import RelatedRows.Text.Quoted

/-!
# Consistent graphs

`Graph.build entities relations` accepts lists of entities and relations that fit together and names the first thing
that does not: entities are looked at first, then the relations in order.

* `checkKeys`: the arities of the keys of a relation, and its join entity.
* `missingColumns`: the key columns of a relation that its entities do not declare.
-/

namespace RelatedRows

inductive GraphError where
  | entityTwice (entity : String)
  | noPrimaryKey (entity : String)
  | relationTwice (relation source : String)
  | unknownEntity (label entity : String)
  | keyArity (label : String)
  | noJoinEntity (label : String)
  | joinSourceArity (label : String)
  | joinTargetArity (label : String)
  | strayJoinEntity (label : String) (kind : RelationKind)
  | unknownColumns (label : String) (columns : List String) (entity : String)
  | unknownKind (literal : String)
deriving DecidableEq, Repr

def GraphError.message : GraphError → String
  | .entityTwice e => s!"Entity '{e}' is declared twice."
  | .noPrimaryKey e => s!"Entity '{e}' has no primary key."
  | .relationTwice r e => s!"Relation '{r}' is declared twice on '{e}'."
  | .unknownEntity l e => s!"Relation '{l}' references unknown entity '{e}'."
  | .keyArity l => s!"Relation '{l}' has mismatched key columns."
  | .noJoinEntity l => s!"Relation '{l}' needs a declared join entity."
  | .joinSourceArity l => s!"Relation '{l}' has mismatched join source key."
  | .joinTargetArity l => s!"Relation '{l}' has mismatched join target key."
  | .strayJoinEntity l kind => s!"Relation '{l}' is '" ++ kind.word ++ "' but names a join entity."
  | .unknownColumns l cs e => s!"Relation '{l}' uses unknown columns " ++ Text.quotedList cs ++ s!" of '{e}'."
  | .unknownKind k => s!"{k} is not a valid RelationKind"

/-- How messages refer to a relation. -/
def Relation.label (r : Relation) : String :=
  r.source ++ "." ++ r.name

namespace Graph

section Relations

variable (entities : List Entity)

def declared? (name : String) : Option Entity :=
  entities.find? (·.name = name)

def isDeclared (name : String) : Bool :=
  (declared? entities name).isSome

def checkEnds (r : Relation) : Except GraphError Unit :=
  match [r.source, r.target].find? (!isDeclared entities ·) with
  | some e => .error (.unknownEntity r.label e)
  | none => .ok ()

def checkKeys (r : Relation) : Except GraphError Unit :=
  if r.sourceKey = [] ∨ r.sourceKey.length ≠ r.targetKey.length then .error (.keyArity r.label)
  else
    match r.kind, r.joinEntity with
    | .manyViaJoin, none => .error (.noJoinEntity r.label)
    | .manyViaJoin, some j =>
      if !isDeclared entities j then .error (.noJoinEntity r.label)
      else if r.joinSourceKey.length ≠ r.sourceKey.length then .error (.joinSourceArity r.label)
      else if r.joinTargetKey.length ≠ r.targetKey.length then .error (.joinTargetArity r.label)
      else .ok ()
    | _, some _ => .error (.strayJoinEntity r.label r.kind)
    | _, none => .ok ()

/-- The entities of a relation with the columns that it uses on them. -/
def keyColumns (r : Relation) : List (String × List String) :=
  [(r.source, r.sourceKey), (r.target, r.targetKey)] ++
    match r.joinEntity with
    | some j => [(j, r.joinSourceKey ++ r.joinTargetKey)]
    | none => []

def missingColumns (entity : String) (columns : List String) : List String :=
  match declared? entities entity with
  | some e => columns.filter (!e.declares ·)
  | none => []

def checkDeclared (label : String) : List (String × List String) → Except GraphError Unit
  | [] => .ok ()
  | (entity, columns) :: rest =>
    match missingColumns entities entity columns with
    | [] => checkDeclared label rest
    | missing => .error (.unknownColumns label missing entity)

def checkRelation (r : Relation) : Except GraphError Unit := do
  checkEnds entities r
  checkKeys entities r
  checkDeclared entities r.label (keyColumns r)

def checkRelations (seen : List (String × String)) : List Relation → Except GraphError Unit
  | [] => .ok ()
  | r :: rs => do
    checkRelation entities r
    if (r.source, r.name) ∈ seen then .error (.relationTwice r.name r.source)
    else checkRelations ((r.source, r.name) :: seen) rs

end Relations

def checkEntities (seen : List String) : List Entity → Except GraphError Unit
  | [] => .ok ()
  | e :: es =>
    if e.name ∈ seen then .error (.entityTwice e.name)
    else if e.primaryKey = [] then .error (.noPrimaryKey e.name)
    else checkEntities (e.name :: seen) es

def build (entities : List Entity) (relations : List Relation) : Except GraphError Graph := do
  checkEntities [] entities
  checkRelations entities [] relations
  return ⟨entities, relations⟩

/-- A graph is made of the lists it was built from. -/
theorem eq_of_build {entities : List Entity} {relations : List Relation} {g : Graph}
    (h : build entities relations = .ok g) : g = ⟨entities, relations⟩ := by
  unfold build at h
  cases h₁ : checkEntities [] entities with
  | error e => rw [h₁] at h; cases h
  | ok u =>
    cases h₂ : checkRelations entities [] relations with
    | error e => rw [h₁, h₂] at h; cases h
    | ok v => rw [h₁, h₂] at h; cases h; rfl

end Graph

end RelatedRows

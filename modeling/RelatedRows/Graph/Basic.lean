/-!
# Relation graphs

A graph has entities, each with a primary key and perhaps a list of its columns, and named relations that lead from one
entity to another.  `Relation` says which columns of the two ends have to agree:

* `one`: the target row whose target key is the source key of the row;
* `many`: all target rows whose target key is the source key of the row;
* `manyViaJoin`: the target rows that rows of a join entity tie to the row.

`Graph.Check` says which lists of entities and relations form a graph, `Graph.Tables` derives one from table metadata.
-/

namespace RelatedRows

inductive RelationKind where
  | one
  | many
  | manyViaJoin
deriving DecidableEq, Repr

def RelationKind.word : RelationKind → String
  | .one => "one"
  | .many => "many"
  | .manyViaJoin => "many_via_join"

def RelationKind.ofWord? (s : String) : Option RelationKind :=
  [.one, .many, .manyViaJoin].find? (·.word = s)

theorem RelationKind.ofWord?_word (k : RelationKind) : ofWord? k.word = some k := by
  cases k <;> decide +kernel

structure Entity where
  name : String
  primaryKey : List String
  /-- The columns of the entity; `none` if they are not declared, and then no column is unknown. -/
  columns : Option (List String) := none
deriving DecidableEq, Repr

/-- Whether a column may be used on an entity. -/
def Entity.declares (e : Entity) (c : String) : Bool :=
  match e.columns with
  | some cs => cs.contains c
  | none => true

structure Relation where
  name : String
  source : String
  kind : RelationKind
  target : String
  sourceKey : List String
  targetKey : List String
  joinEntity : Option String := none
  joinSourceKey : List String := []
  joinTargetKey : List String := []
  /-- No pair of source and target is linked twice. -/
  unique : Bool := false
deriving DecidableEq, Repr

structure Graph where
  entities : List Entity
  relations : List Relation
deriving DecidableEq, Repr

namespace Graph

variable (g : Graph)

def entity? (name : String) : Option Entity :=
  g.entities.find? (·.name = name)

/-- The relations that start at an entity, in the order they were declared. -/
def relationsOf (entity : String) : List Relation :=
  g.relations.filter (·.source = entity)

def lookup? (entity name : String) : Option Relation :=
  g.relations.find? fun r => r.source = entity ∧ r.name = name

/-- The primary key of an entity; empty for an unknown one. -/
def primaryKey (entity : String) : List String :=
  ((g.entity? entity).map (·.primaryKey)).getD []

variable {g}

theorem name_of_entity? {name : String} {e : Entity} (h : g.entity? name = some e) : e.name = name := by
  simpa using List.find?_some h

theorem source_of_lookup? {entity name : String} {r : Relation} (h : g.lookup? entity name = some r) :
    r.source = entity ∧ r.name = name := by
  simpa using List.find?_some h

theorem mem_of_lookup? {entity name : String} {r : Relation} (h : g.lookup? entity name = some r) :
    r ∈ g.relations :=
  List.mem_of_find?_eq_some h

end Graph

end RelatedRows

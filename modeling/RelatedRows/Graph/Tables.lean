import RelatedRows.Graph.Check

/-!
# Graphs from table metadata

`Graph.ofTables` derives the relations of a list of tables from their foreign keys.

1. A foreign key gives its table a `one` relation to the target, and the target a `many` relation back, or a `one`
   relation if the key is unique.
2. A table with exactly two foreign keys, to two different tables, is a junction if a key covers their columns or if it
   is flagged as one; each side then gets a `manyViaJoin` relation to the other.

All relations of rule 1 come before those of rule 2, and of two relations with one name on one entity the first is kept.
-/

namespace RelatedRows

structure ForeignKey where
  columns : List String
  targetTable : String
  targetColumns : List String
  /-- The target has at most one row behind it. -/
  unique : Bool := false
deriving DecidableEq, Repr

structure Table where
  name : String
  primaryKey : List String
  columns : Option (List String) := none
  foreignKeys : List ForeignKey := []
  /-- The columns of the unique constraints. -/
  unique : List (List String) := []
  /-- Links two tables although a pair may be linked more than once. -/
  junction : Bool := false
deriving DecidableEq, Repr

/-- The name of one row of a table. -/
def singular (name : String) : String :=
  if name.toList.getLast? = some 's' then String.ofList name.toList.dropLast else name

/-- The name of several rows of a table. -/
def plural (name : String) : String :=
  if name.toList.getLast? = some 's' then name else name ++ "s"

section Names

variable {name : String}

theorem ends_in_s_iff : name.toList.getLast? = some 's' ↔ ∃ stem, name = stem ++ "s" := by
  constructor
  · intro h
    obtain ⟨cs, hcs⟩ := List.getLast?_eq_some_iff.mp h
    exact ⟨String.ofList cs, String.toList_inj.mp (by simp [hcs])⟩
  · rintro ⟨stem, rfl⟩
    simp

@[simp] theorem singular_append (stem : String) : singular (stem ++ "s") = stem := by
  rw [singular, if_pos (ends_in_s_iff.mpr ⟨stem, rfl⟩)]
  simp

@[simp] theorem plural_append (stem : String) : plural (stem ++ "s") = stem ++ "s" :=
  if_pos (ends_in_s_iff.mpr ⟨stem, rfl⟩)

theorem singular_of_ne (h : ∀ stem, name ≠ stem ++ "s") : singular name = name :=
  if_neg fun hlast => (ends_in_s_iff.mp hlast).elim h

theorem plural_of_ne (h : ∀ stem, name ≠ stem ++ "s") : plural name = name ++ "s" :=
  if_neg fun hlast => (ends_in_s_iff.mp hlast).elim h

example : singular "tags" = "tag" ∧ plural "tag" = "tags" ∧ singular "staff" = "staff" ∧ plural "news" = "news" := by
  decide +kernel

end Names

def sameColumns (a b : List String) : Bool :=
  a.all b.contains && b.all a.contains

namespace Table

/-- Whether the primary key or a unique constraint has exactly the given columns, in any order. -/
def covers (t : Table) (columns : List String) : Bool :=
  sameColumns t.primaryKey columns || t.unique.any (sameColumns · columns)

def entity (t : Table) : Entity :=
  ⟨t.name, t.primaryKey, t.columns⟩

/-- From the table with a foreign key to the table it refers to. -/
def belongsTo (child : Table) (fk : ForeignKey) : Relation where
  name := singular fk.targetTable
  source := child.name
  kind := .one
  target := fk.targetTable
  sourceKey := fk.columns
  targetKey := fk.targetColumns

/-- From the table that a foreign key refers to back to the table with the key. -/
def inverse (child : Table) (fk : ForeignKey) : Relation where
  name := if fk.unique then singular child.name else plural child.name
  source := fk.targetTable
  kind := if fk.unique then .one else .many
  target := child.name
  sourceKey := fk.targetColumns
  targetKey := fk.columns

/-- From the table of one foreign key of a junction to that of the other. -/
def across (junction : Table) (unique : Bool) (near far : ForeignKey) : Relation where
  name := plural far.targetTable
  source := near.targetTable
  kind := .manyViaJoin
  target := far.targetTable
  sourceKey := near.targetColumns
  targetKey := far.targetColumns
  joinEntity := some junction.name
  joinSourceKey := near.columns
  joinTargetKey := far.columns
  unique := unique

section Derive

variable (tables : List Table)

def isListed (name : String) : Bool :=
  tables.any (·.name = name)

/-- The relations of rule 1. -/
def ofForeignKeys (child : Table) : List Relation :=
  (child.foreignKeys.filter (isListed tables ·.targetTable)).flatMap fun fk => [child.belongsTo fk, child.inverse fk]

/-- The relations of rule 2. -/
def ofJunction (junction : Table) : List Relation :=
  match junction.foreignKeys with
  | [a, b] =>
    let unique := junction.covers (a.columns ++ b.columns)
    if a.targetTable ≠ b.targetTable && isListed tables a.targetTable && isListed tables b.targetTable &&
        (unique || junction.junction) then
      [junction.across unique a b, junction.across unique b a]
    else []
  | _ => []

/-- All relations that the rules give, in the order in which the first of a name is kept. -/
def candidates : List Relation :=
  tables.flatMap (ofForeignKeys tables) ++ tables.flatMap (ofJunction tables)

end Derive

end Table

/-- Keeps the first relation of each name on an entity. -/
def keepFirst : List Relation → List Relation :=
  List.foldl (fun kept r => if kept.any fun k => k.source = r.source ∧ k.name = r.name then kept else kept ++ [r]) []

theorem keepFirst_concat (rs : List Relation) (r : Relation) :
    keepFirst (rs ++ [r]) =
      if (keepFirst rs).any fun k => k.source = r.source ∧ k.name = r.name then keepFirst rs
      else keepFirst rs ++ [r] := by
  simp [keepFirst, List.foldl_append]

def Graph.ofTables (tables : List Table) : Except GraphError Graph :=
  Graph.build (tables.map Table.entity) (keepFirst (Table.candidates tables))

end RelatedRows

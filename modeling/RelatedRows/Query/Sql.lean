import RelatedRows.Query.Predicate

/-!
# Queries as SQL

`Query.sql` and `Query.parameters` write a query as a statement with numbered placeholders and the values for them.
Names stand between double quotes, with a double quote inside a name written twice, so a name never ends early; values
only ever travel as parameters.
-/

namespace RelatedRows.Sql

/-- A name with its double quotes doubled. -/
def doubled : List Char → List Char
  | [] => []
  | c :: cs => if c = '"' then '"' :: '"' :: doubled cs else c :: doubled cs

def identifier (name : String) : String :=
  String.ofList ('"' :: doubled name.toList ++ ['"'])

def placeholder (slot : Int) : String :=
  "$" ++ toString slot

def equation (term : String × Int) : String :=
  identifier term.1 ++ " = " ++ placeholder term.2

def group (terms : List (String × Int)) : String :=
  "(" ++ " AND ".intercalate (terms.map equation) ++ ")"

def condition : KeyPredicate → String
  | .member c slot => identifier c ++ " = ANY(" ++ placeholder slot ++ ")"
  | .anyOf groups => " OR ".intercalate (groups.map group)

def orderTerm (term : String × Direction) : String :=
  identifier term.1 ++ " " ++ term.2.keyword

/-- The clause for an ordering; nothing at all for an empty one. -/
def orderBy (o : OrderBy) : String :=
  if o.isEmpty then "" else "ORDER BY " ++ ", ".intercalate (o.map orderTerm)

def columnList : Option (List String) → String
  | none => "*"
  | some columns => ", ".intercalate (columns.map identifier)

def batch (q : BatchQuery) : String :=
  let clause := orderBy q.ordering
  "SELECT " ++ columnList q.columns ++ " FROM " ++ identifier q.table ++ " WHERE " ++
    condition (KeyPredicate.ofColumns q.keyColumns q.keys.length 1) ++ (if clause = "" then "" else " " ++ clause)

def page (q : PageQuery) : String :=
  "SELECT * FROM " ++ identifier q.table ++ " " ++ orderBy q.ordering ++ " LIMIT $1 OFFSET $2"

end RelatedRows.Sql

namespace RelatedRows

def Query.sql : Query → String
  | .batch q => Sql.batch q
  | .page q => Sql.page q

def Query.parameters : Query → List Value
  | .batch q => keyParameters q.keyColumns q.keys
  | .page q => [.int q.limit, .int q.offset]

/-- A key without a component for the single column that it is compared with. -/
structure EmptyKey where
deriving DecidableEq, Repr

def EmptyKey.message (_ : EmptyKey) : String :=
  "tuple index out of range"

/-- The condition that some columns have one of some keys, with the parameters for its placeholders. -/
def keyCondition (columns : List String) (keys : List Key) (start : Int) : Except EmptyKey (String × List Value) :=
  if keysFit columns keys then
    .ok (Sql.condition (KeyPredicate.ofColumns columns keys.length start), keyParameters columns keys)
  else .error {}

def BatchQuery.render (q : BatchQuery) : Except EmptyKey (String × List Value) :=
  if keysFit q.keyColumns q.keys then .ok (Sql.batch q, keyParameters q.keyColumns q.keys) else .error {}

end RelatedRows

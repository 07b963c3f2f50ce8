import RelatedRows.Graph.Tables
import RelatedRows.Value.Basic

/-!
# The bookshelf

The tables of authors, books and tags that the service lists, and the graph of their relations.

* `Relation.describe`: a relation as a value.
-/

namespace RelatedRows

/-- A relation as it is described to clients; the join columns are only shown where there is a join entity. -/
def Relation.describe (r : Relation) : List (String × Value) :=
  [("name", .text r.name), ("kind", .text r.kind.word), ("target", .text r.target),
    ("sourceKey", .texts r.sourceKey), ("targetKey", .texts r.targetKey)] ++
    match r.joinEntity with
    | none => []
    | some j => [("joinEntity", .text j), ("joinSourceKey", .texts r.joinSourceKey),
        ("joinTargetKey", .texts r.joinTargetKey), ("unique", .bool r.unique)]

namespace Bookshelf

def authors : Table where
  name := "authors"
  primaryKey := ["id"]
  columns := some ["id", "name"]

def books : Table where
  name := "books"
  primaryKey := ["id"]
  columns := some ["id", "author_id", "title", "published_at"]
  foreignKeys := [⟨["author_id"], "authors", ["id"], false⟩]

def tags : Table where
  name := "tags"
  primaryKey := ["id"]
  columns := some ["id", "name"]

def bookTags : Table where
  name := "book_tags"
  primaryKey := ["book_id", "tag_id"]
  columns := some ["book_id", "tag_id"]
  foreignKeys := [⟨["book_id"], "books", ["id"], false⟩, ⟨["tag_id"], "tags", ["id"], false⟩]

def tables : List Table :=
  [authors, books, tags, bookTags]

def build : Except GraphError Graph :=
  Graph.ofTables tables

/-- The graph of the bookshelf; the tables are consistent, so there is one. -/
def graph : Graph :=
  match build with
  | .ok g => g
  | .error _ => ⟨[], []⟩

end Bookshelf

end RelatedRows

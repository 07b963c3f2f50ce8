import RelatedRows.Include.Plan
import RelatedRows.Row.Basic

/-!
# Attachments

What one relation attaches to the rows of a level.  The rows that were found are kept once, by position; every parent
has a link that says which of them are attached to it, so a row under several parents stays one row, and whatever is
done to it below is done once.

* `Attachment.positions`, `Attachment.attached`: the found rows that are attached anywhere, each once.
* `Attachment.complete`: the attachment with those rows replaced.
* `Attachment.attachTo key parents`: the parents with their links written out under `key`.
* `PlanNode.trim`: a row without the columns that the options of a node leave out.
-/

namespace RelatedRows

/-- The positions of the rows attached to one parent. -/
inductive Link where
  | one (position : Option Nat)
  | many (positions : List Nat)
deriving DecidableEq, Repr

def Link.positions : Link → List Nat
  | .one p => p.toList
  | .many ps => ps

def Link.relabel (σ : Nat → Nat) : Link → Link
  | .one p => .one (p.map σ)
  | .many ps => .many (ps.map σ)

/-- What a link with these positions among `found` attaches. -/
def Link.value (found : List Row) : Link → Value
  | .one p => Value.ofOption .object (p.bind (found[·]?))
  | .many ps => .list ((ps.filterMap (found[·]?)).map .object)

structure Attachment where
  found : List Row
  links : List Link
deriving DecidableEq

namespace Attachment

def positions (a : Attachment) : List Nat :=
  (a.links.flatMap Link.positions).eraseDups

def attached (a : Attachment) : List Row :=
  a.positions.filterMap (a.found[·]?)

def attachTo (a : Attachment) (key : String) (parents : List Row) : List Row :=
  parents.zipWith (fun row link => row.set key (link.value a.found)) a.links

def map (f : Row → Row) (a : Attachment) : Attachment :=
  { a with found := a.found.map f }

/-- Replaces the attached rows by other ones, in the order of `attached`. -/
def complete (a : Attachment) (rows : List Row) : Attachment :=
  { a with found := a.found.mapIdx fun i row => ((a.positions.zip rows).lookup i).getD row }

end Attachment

/-- Whether the options of a node, and the relations below it, keep a column. -/
def PlanNode.keeps (n : PlanNode) (column : String) : Bool :=
  n.nestedKeys.contains column ||
    ((n.step.options.select.all (·.contains column)) && !((n.step.options.exclude.getD []).contains column))

def PlanNode.trim (n : PlanNode) (row : Row) : Row :=
  row.keep n.keeps

/-- The columns to fetch for the target rows of a node.  A selection is widened by the columns that the relation itself
and the relations below it are stitched by. -/
def PlanNode.fetched (n : PlanNode) (required : List String) : Option (List String) :=
  n.step.options.select.map fun select =>
    (select ++ required ++ ((n.nested?.map (·.nodes)).getD []).flatMap (·.step.relation.sourceKey)).eraseDups

/-- The stretch of a list that the options of a relation ask for. -/
def Options.window {α : Type} (o : Options) (items : List α) : List α :=
  match o.limit with
  | some n => (items.drop o.offset).take n
  | none => items.drop o.offset

end RelatedRows

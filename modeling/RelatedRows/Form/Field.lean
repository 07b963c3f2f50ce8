import RelatedRows.Form.Issue
import RelatedRows.Query.Ordering
import RelatedRows.Text.Letters
import RelatedRows.Text.Numeral

/-!
# Fields of a form

Readers for the shapes that a field may have.  A reader gets the path to the value for its issues; an issue with an item
of a list has the index of the item behind the path.

* `exactInteger`: integers only; `wholeNumber`: also truth values, numbers without a fraction, and numerals.
* `oneOrMany`: one item may stand for a list of one.
-/

namespace RelatedRows.Form

abbrev Checked (α : Type) := Except (List Issue) α

def fail {α : Type} (path : List Step) (d : Defect) : Checked α :=
  .error [⟨path, d⟩]

/-- Reads the first reader's value and the second's, and reports the issues of both. -/
def both {α β : Type} (a : Checked α) (b : Checked β) : Checked (α × β) :=
  match a, b with
  | .ok x, .ok y => .ok (x, y)
  | .error i, .ok _ => .error i
  | .ok _, .error j => .error j
  | .error i, .error j => .error (i ++ j)

theorem both_eq_ok {α β : Type} {a : Checked α} {b : Checked β} {x : α} {y : β} :
    both a b = .ok (x, y) ↔ a = .ok x ∧ b = .ok y := by
  cases a <;> cases b <;> simp [both]

section Readers

variable (path : List Step)

def exactInteger : Value → Checked Int
  | .number (.int n) => .ok n
  | _ => fail path .notInteger

/-- A number without a fraction as an integer, if it is below `2 ^ 63` in magnitude. -/
def integerOfReal (x : Binary64) : Checked Int :=
  match x with
  | .infinite _ | .undefined _ => fail path .notFinite
  | x =>
    match (Number.real x).toInt? with
    | some n => if n.natAbs < Nat.pow 2 63 then .ok n else fail path .longInteger
    | none => fail path .fractional

/-- A text that is looked into must not hold half of a pair. -/
def wholeText (s : String) : Checked String :=
  if Text.hasHalf s then fail path .brokenText else .ok s

def wholeNumber : Value → Checked Int
  | .bool b => .ok b.toNat
  | .number (.int n) => .ok n
  | .number (.real x) => integerOfReal path x
  | .text s => do
    match Text.readWhole (← wholeText path s) with
    | .ok n => .ok n
    | .error .malformed => fail path .malformedInteger
    | .error .tooLong => fail path .longInteger
  | _ => fail path .notInteger

def above (bound : Int) (n : Int) : Checked Nat :=
  if bound < n then .ok n.toNat else fail path (.notGreater bound)

def atLeast (bound : Int) (n : Int) : Checked Nat :=
  if bound ≤ n then .ok n.toNat else fail path (.less bound)

def atMost (bound : Int) (n : Int) : Checked Int :=
  if n ≤ bound then .ok n else fail path (.greater bound)

def text : Value → Checked String
  | .text s => .ok s
  | _ => fail path .notText

def shortText (bound : Nat) (v : Value) : Checked String := do
  let s ← text path v >>= wholeText path
  if Text.length s ≤ bound then .ok s else fail path (.longText bound)

def direction : Value → Checked Direction
  | .text s => do
    match ← wholeText path s with
    | "asc" => .ok .asc
    | "desc" => .ok .desc
    | _ => fail path .notDirection
  | _ => fail path .notDirection

def object : Value → Checked Row
  | .object fields => .ok fields
  | _ => fail path .notObject

def itemsFrom {α : Type} (read : List Step → Value → Checked α) : (index : Nat) → List Value → Checked (List α)
  | _, [] => .ok []
  | n, v :: vs => (both (read (path ++ [.index n]) v) (itemsFrom read (n + 1) vs)).map fun (x, xs) => x :: xs

def items {α : Type} (read : List Step → Value → Checked α) : Value → Checked (List α)
  | .list vs => itemsFrom path read 0 vs
  | _ => fail path .notTuple

def oneOrMany {α : Type} (read : List Step → Value → Checked α) : Value → Checked (List α)
  | .text s => items path read (.list [.text s])
  | v => items path read v

/-- Nothing, or what the reader makes of the value. -/
def optional {α : Type} (read : Value → Checked α) : Value → Checked (Option α)
  | .null => .ok none
  | v => (read v).map some

end Readers

/-- Reads a field under the name it is found by; a field that is not there has a default. -/
def field {α : Type} (fields : Row) (names : List String) (default : α) (read : List Step → Value → Checked α) :
    Checked α :=
  match names.find? fun name => (fields.lookup name).isSome with
  | some name => read [.field name] (fields.get name)
  | none => .ok default

end RelatedRows.Form

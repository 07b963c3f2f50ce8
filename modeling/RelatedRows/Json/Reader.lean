import RelatedRows.Json.Token
import RelatedRows.Row.Basic

/-!
# Reading a JSON text

`Json.read` turns a text into a value.  It goes through the tokens once, with a stack of the lists and objects that are
still open, and stops at the first fault.  Fields keep the order in which their names first appear; of two fields with
one name the later value is kept.
-/

namespace RelatedRows.Json

/-- A list or an object that is still open; the name is that of the field being read. -/
inductive Frame where
  | list (items : List Value)
  | object (fields : Row) (name : String)

/-- What may come next. -/
inductive Expect where
  | value
  | itemOrEnd
  | name
  | nameOrEnd
  | colon
  | delimiter
  | nothing

/-- The place reached in a text; `done` is the value once `expect` is `nothing`. -/
structure State where
  expect : Expect
  stack : List Frame
  done : Value

def State.initial : State := ⟨.value, [], .null⟩

/-- The state after a whole value. -/
def State.put (v : Value) : List Frame → State
  | [] => ⟨.nothing, [], v⟩
  | .list items :: stack => ⟨.delimiter, .list (v :: items) :: stack, .null⟩
  | .object fields name :: stack => ⟨.delimiter, .object (fields.set name v) name :: stack, .null⟩

def State.closeList (otherwise : Except ReadFault State) : List Frame → Except ReadFault State
  | .list items :: stack => .ok (State.put (.list items.reverse) stack)
  | _ => otherwise

def State.closeObject (otherwise : Except ReadFault State) : List Frame → Except ReadFault State
  | .object fields _ :: stack => .ok (State.put (.object fields) stack)
  | _ => otherwise

def State.nextItem (otherwise : Except ReadFault State) : List Frame → Except ReadFault State
  | .list items :: stack => .ok ⟨.value, .list items :: stack, .null⟩
  | .object fields name :: stack => .ok ⟨.name, .object fields name :: stack, .null⟩
  | [] => otherwise

/-- The largest number of lists and objects that may be open at a time. -/
def maxNesting : Nat := 960

/-- Opens a list or an object. -/
def State.openFrame (expect : Expect) (frame : Frame) (stack : List Frame) (position : Nat) :
    Except ReadFault State :=
  if stack.length < maxNesting then .ok ⟨expect, frame :: stack, .null⟩ else .error ⟨.deepNesting, position⟩

def State.start (stack : List Frame) (p : Placed) : Except ReadFault State :=
  match p.token with
  | .text s => .ok (State.put (.text s) stack)
  | .scalar v => .ok (State.put v stack)
  | .openList => State.openFrame .itemOrEnd (.list []) stack p.position
  | .openObject => State.openFrame .nameOrEnd (.object [] "") stack p.position
  | .faulty fault => .error fault
  | _ => .error ⟨.expectedValue, p.position⟩

def State.field (stack : List Frame) (p : Placed) : Except ReadFault State :=
  match p.token, stack with
  | .text s, .object fields _ :: rest => .ok ⟨.colon, .object fields s :: rest, .null⟩
  | .faulty fault, _ => if fault.cause = .longInteger then .error ⟨.expectedName, p.position⟩ else .error fault
  | _, _ => .error ⟨.expectedName, p.position⟩

def State.next (s : State) (p : Placed) : Except ReadFault State :=
  match s.expect, p.token with
  | .value, _ => State.start s.stack p
  | .itemOrEnd, .closeList => State.closeList (.error ⟨.expectedValue, p.position⟩) s.stack
  | .itemOrEnd, _ => State.start s.stack p
  | .name, _ => State.field s.stack p
  | .nameOrEnd, .closeObject => State.closeObject (.error ⟨.expectedName, p.position⟩) s.stack
  | .nameOrEnd, _ => State.field s.stack p
  | .colon, .colon => .ok { s with expect := .value }
  | .colon, _ => .error ⟨.expectedColon, p.position⟩
  | .delimiter, .comma => State.nextItem (.error ⟨.expectedComma, p.position⟩) s.stack
  | .delimiter, .closeList => State.closeList (.error ⟨.expectedComma, p.position⟩) s.stack
  | .delimiter, .closeObject => State.closeObject (.error ⟨.expectedComma, p.position⟩) s.stack
  | .delimiter, _ => .error ⟨.expectedComma, p.position⟩
  | .nothing, _ => .error ⟨.extraData, p.position⟩

/-- The value of a text that ends here, `length` letters long. -/
def State.finish (s : State) (length : Nat) : Except ReadFault Value :=
  match s.expect with
  | .nothing => .ok s.done
  | .value | .itemOrEnd => .error ⟨.expectedValue, length⟩
  | .name | .nameOrEnd => .error ⟨.expectedName, length⟩
  | .colon => .error ⟨.expectedColon, length⟩
  | .delimiter => .error ⟨.expectedComma, length⟩

def read (ls : List Text.Letter) : Except ReadFault Value := do
  (← (tokens ls).foldlM State.next State.initial).finish ls.length

end RelatedRows.Json

import RelatedRows.Row.Basic

/-!
# Issues with a form

A form is an object whose fields have to have certain shapes.  An `Issue` says what is wrong with which part of it.  All
issues of a form are reported together, in the order of its fields, with unexpected fields last.
-/

namespace RelatedRows.Form

/-- One step on the way into a form. -/
inductive Step where
  | field (name : String)
  | index (n : Nat)
deriving DecidableEq, Repr

inductive Defect where
  | notInteger
  | malformedInteger
  | longInteger
  | fractional
  | notFinite
  | notGreater (bound : Int)
  | less (bound : Int)
  | greater (bound : Int)
  | notText
  /-- A text holds half of a pair. -/
  | brokenText
  | longText (bound : Nat)
  | notDirection
  | notTuple
  | notObject
  | unexpected
  | orderMismatch
  | notForm (name : String)
  | notFields
  | missing
deriving DecidableEq, Repr

namespace Defect

def message : Defect → String
  | .notInteger => "Input should be a valid integer"
  | .malformedInteger => "Input should be a valid integer, unable to parse string as an integer"
  | .longInteger => "Unable to parse input string as an integer, exceeded maximum size"
  | .fractional => "Input should be a valid integer, got a number with a fractional part"
  | .notFinite => "Input should be a finite number"
  | .notGreater n => s!"Input should be greater than {n}"
  | .less n => s!"Input should be greater than or equal to {n}"
  | .greater n => s!"Input should be less than or equal to {n}"
  | .notText => "Input should be a valid string"
  | .brokenText => "Input should be a valid string, unable to parse raw data as a unicode string"
  | .longText n => s!"String should have at most {n} characters"
  | .notDirection => "Input should be 'asc' or 'desc'"
  | .notTuple => "Input should be a valid tuple"
  | .notObject => "Input should be a valid dictionary"
  | .unexpected => "Extra inputs are not permitted"
  | .orderMismatch => "Value error, order must be a single direction or match orderBy one-to-one"
  | .notForm name => s!"Input should be a valid dictionary or instance of {name}"
  | .notFields => "Input should be a valid dictionary or object to extract fields from"
  | .missing => "Field required"

/-- The short name of a defect. -/
def code : Defect → String
  | .notInteger => "int_type"
  | .malformedInteger => "int_parsing"
  | .longInteger => "int_parsing_size"
  | .fractional => "int_from_float"
  | .notFinite => "finite_number"
  | .notGreater _ => "greater_than"
  | .less _ => "greater_than_equal"
  | .greater _ => "less_than_equal"
  | .notText => "string_type"
  | .brokenText => "string_unicode"
  | .longText _ => "string_too_long"
  | .notDirection => "literal_error"
  | .notTuple => "tuple_type"
  | .notObject => "dict_type"
  | .unexpected => "extra_forbidden"
  | .orderMismatch => "value_error"
  | .notForm _ => "model_type"
  | .notFields => "model_attributes_type"
  | .missing => "missing"

/-- What a client is told about the bound that was missed. -/
def bound : Defect → Row
  | .notGreater n => [("gt", .int n)]
  | .less n => [("ge", .int n)]
  | .greater n => [("le", .int n)]
  | .longText n => [("max_length", .ofNat n)]
  | .notDirection => [("expected", .text "'asc' or 'desc'")]
  | _ => []

end Defect

structure Issue where
  path : List Step
  defect : Defect
deriving DecidableEq, Repr

def Step.text : Step → String
  | .field name => name
  | .index n => toString n

def Step.value : Step → Value
  | .field name => .text name
  | .index n => .ofNat n

/-- One issue in words, after the path to it. -/
def Issue.line (i : Issue) : String :=
  let path := ".".intercalate (i.path.map Step.text)
  (if path = "" then "options" else path) ++ ": " ++ i.defect.message

def lines (issues : List Issue) : String :=
  "; ".intercalate (issues.map Issue.line)

end RelatedRows.Form

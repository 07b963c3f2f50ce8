import RelatedRows.Number.Shortest
import RelatedRows.Text.Quoted
import RelatedRows.Value.Basic

/-!
# Literals

`Value.literal` writes a value into a message: texts quoted, lists between square brackets, objects between braces, the
rest by their words.
-/

namespace RelatedRows

def Number.literal : Number → String
  | .int n => toString n
  | .real x => x.text

namespace Value

mutual
def literal : Value → String
  | .null => "None"
  | .bool b => if b then "True" else "False"
  | .number n => n.literal
  | .text s => Text.quoted s
  | .list items => "[" ++ ", ".intercalate (itemLiterals items) ++ "]"
  | .object fields => "\x7b" ++ ", ".intercalate (fieldLiterals fields) ++ "\x7d"

def itemLiterals : List Value → List String
  | [] => []
  | v :: vs => literal v :: itemLiterals vs

def fieldLiterals : List (String × Value) → List String
  | [] => []
  | (name, v) :: rest => (Text.quoted name ++ ": " ++ literal v) :: fieldLiterals rest
end

end Value

end RelatedRows

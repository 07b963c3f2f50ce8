import RelatedRows.Form.Issue
import RelatedRows.Graph.Basic

/-!
# Rejected requests

Why a request for includes is rejected before any row is read.
-/

namespace RelatedRows

/-- What is wrong with one part of a request. -/
inductive Objection where
  | notObject
  | notOptions
  | badOptions (issues : List Form.Issue)
  | badColumn (literal : String)
  | unknownColumn (column : String)
deriving DecidableEq, Repr

def Objection.detail : Objection → String
  | .notObject => "include must be an object"
  | .notOptions => "expected true or an options object"
  | .badOptions issues => Form.lines issues
  | .badColumn literal => s!"invalid column name {literal}"
  | .unknownColumn c => s!"unknown column '{c}'"

inductive Rejection where
  | noDepth
  | unknownEntity (entity : String)
  | unknownRelation (entity key : String)
  /-- A part of the request is not as it should be; the key is that of the relation concerned, if it is about one. -/
  | invalid (entity : String) (key : Option String) (objection : Objection)
  /-- A relation leads to an entity that its graph does not have. -/
  | undeclaredTarget (relation : Relation)
deriving DecidableEq, Repr

def Rejection.message : Rejection → String
  | .noDepth => "max_depth must be >= 1"
  | .unknownEntity e => s!"Unknown entity '{e}'"
  | .unknownRelation e k => s!"Unknown include key '{k}' on '{e}'"
  | .invalid e key o =>
    let place := match key with
      | none | some "" => s!"'{e}'"
      | some k => s!"'{k}' on '{e}'"
    s!"Invalid include for {place}: " ++ o.detail
  | .undeclaredTarget _ => ""

end RelatedRows

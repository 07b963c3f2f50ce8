import RelatedRows.Query.Basic
import RelatedRows.Text.Quoted

/-!
# Stores

A store answers queries.  An answer is whatever the store sends, normally a list of rows, or a failure.

* `Executor σ`: a store with states `σ`; answering a query may change its state.
* `Failure.text`: what a failure says.
-/

namespace RelatedRows

/-- The sorts of failures that a store may report. -/
inductive Failure.Kind where
  | runtime
  | value
  | key
  | type
  | lookup
  | system
  | timeout
  | connection
  | zeroDivision
  | include
  /-- The call was called off; this says nothing about the query. -/
  | cancelled
deriving DecidableEq, Repr

def Failure.Kind.name : Failure.Kind → String
  | .runtime => "RuntimeError"
  | .value => "ValueError"
  | .key => "KeyError"
  | .type => "TypeError"
  | .lookup => "LookupError"
  | .system => "OSError"
  | .timeout => "TimeoutError"
  | .connection => "ConnectionError"
  | .zeroDivision => "ZeroDivisionError"
  | .include => "IncludeError"
  | .cancelled => "CancelledError"

def Failure.Kind.all : List Failure.Kind :=
  [.runtime, .value, .key, .type, .lookup, .system, .timeout, .connection, .zeroDivision, .include, .cancelled]

def Failure.Kind.ofName? (name : String) : Option Failure.Kind :=
  all.find? (·.name = name)

structure Failure where
  kind : Failure.Kind
  message : String
deriving DecidableEq, Repr

/-- A missing key is quoted, and a call that was called off says nothing. -/
def Failure.text (f : Failure) : String :=
  match f.kind with
  | .key => Text.quoted f.message
  | .cancelled => ""
  | _ => f.message

abbrev Answer := Except Failure Value

abbrev Executor (σ : Type) := σ → Query → Answer × σ

/-- A store whose answers depend on the query alone. -/
def Executor.ofFunction (answer : Query → Answer) : Executor Unit :=
  fun _ q => (answer q, ())

end RelatedRows

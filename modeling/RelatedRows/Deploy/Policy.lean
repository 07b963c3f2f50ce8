import RelatedRows.Deploy.Logging
import RelatedRows.Deploy.Settings
import RelatedRows.Include.Compile
import RelatedRows.Stitch.Turns

/-!
# The failure policy

A controller compiles requests and stitches rows under the settings of a deployment.  When the store fails while related
rows are loaded, a strict deployment aborts the request; any other returns the root rows as they were, with a report of
the failure beside them.  Faults of other sorts are passed on under every setting.

* `Report.payload`: what the caller gets to see.
-/

namespace RelatedRows

inductive Outcome where
  | stitched
  | partiallyStitched
deriving DecidableEq, Repr

def Outcome.word : Outcome → String
  | .stitched => "stitched"
  | .partiallyStitched => "partially_stitched"

/-- The failure of the store that ended stitching, and the place in the plan where it happened. -/
structure StitchFailure where
  entity : String
  relation : String
  depth : Nat
  cause : Failure
deriving DecidableEq, Repr

def StitchFailure.fault (f : StitchFailure) : Fault :=
  .query f.entity f.relation f.depth f.cause

def StitchFailure.message (f : StitchFailure) : String :=
  f.fault.message

/-- The failure as a caller sees it.  In detail, the cause is named and a trace is said to be there, but not shown. -/
def StitchFailure.describe (f : StitchFailure) (debug : Bool) : Row :=
  ("message", .text f.message) ::
    if debug then
      [("entity", .text f.entity), ("relation", .text f.relation), ("depth", .ofNat f.depth),
        ("cause", .text (f.cause.kind.name ++ ": " ++ f.cause.text)), ("stack", .bool true)]
    else []

structure Report where
  rows : List Row
  outcome : Outcome
  /-- What the caller is told about a failure. -/
  failure : Option Row := none
deriving DecidableEq

def Report.payload (r : Report) : Value :=
  match r.failure with
  | none => .rows r.rows
  | some f => .object [("data", .rows r.rows), ("includeError", .object f)]

/-- Why a controller gives no report. -/
inductive PolicyError where
  | fault (f : Fault)
  | aborted (failure : StitchFailure)
deriving DecidableEq, Repr

namespace Policy

variable {σ : Type} (g : Graph) (settings : Settings)

/-- Compiles a request; what was dropped for being too deep is logged. -/
def compile (entity : String) (spec : Value) : Except Rejection Plan × List LogRecord :=
  match RelatedRows.compile g entity spec settings.maxDepth with
  | .error e => (.error e, [])
  | .ok p =>
    let paths := Text.quotedList p.pruned
    (.ok p, if p.pruned.isEmpty then []
      else [⟨LogLevel.debug, s!"include_pruned entity={entity} max_depth={settings.maxDepth} paths={paths}"⟩])

/-- What a failure of the store comes to: the report or the abortion, and the record of it. -/
def onFailure (f : StitchFailure) (rows : List Row) : Except PolicyError Report × LogRecord :=
  let place := s!"entity={f.entity} relation={f.relation} depth={f.depth}"
  if settings.strict then
    (.error (.aborted f), ⟨LogLevel.error, s!"include_stitch_aborted {place} error=" ++ f.cause.text⟩)
  else
    (.ok ⟨rows, .partiallyStitched, some (f.describe settings.debug)⟩,
      ⟨LogLevel.error, s!"include_stitch_degraded {place}"⟩)

/-- The report on stitched rows; `rows` are the root rows as they came. -/
def conclude (rows : List Row) : Except Fault (List Row) → Except PolicyError Report × List LogRecord
  | .ok stitched => (.ok ⟨stitched, .stitched, none⟩, [])
  | .error (.query entity relation depth cause) =>
    let (result, record) := onFailure settings ⟨entity, relation, depth, cause⟩ rows
    (result, [record])
  | .error f => (.error (.fault f), [])

/-- Stitches rows from outside.  An empty plan asks nothing of the settings. -/
def stitch (exec : Executor σ) (p : Plan) (rows : Value) (s : Session σ) :
    Except PolicyError Report × List LogRecord × Session σ :=
  let concurrency := if p.isEmpty then 1 else settings.concurrency
  match rootRows concurrency p.entity p rows with
  | .error f => (.error (.fault f), [], s)
  | .ok roots =>
    let (rows, s') := stitchRowsPaced exec g concurrency.toNat p (roots.map (·.row)) s
    let (result, records) := conclude settings (roots.map (·.shown)) (rows.map (RootRow.completeAll roots))
    (result, (s'.eventsAfter s).map Event.record ++ records, s')

end Policy

end RelatedRows

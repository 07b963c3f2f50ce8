import RelatedRows.Query.Sql
import RelatedRows.Stitch.Level
import RelatedRows.Text.Quoted

/-!
# Log records

What stitching leaves in the log, and the level below which a logger drops records.

* `Event.record`: the record of an event.
* `Logger.ensure`: the level that a logger gets on its first use; one that is set already stays.
-/

namespace RelatedRows

/-- Levels are numbers; five of them, and zero for a level that is not set, have names. -/
abbrev LogLevel := Int

namespace LogLevel

def notSet : LogLevel := 0
def debug : LogLevel := 10
def info : LogLevel := 20
def error : LogLevel := 40

def names : List (String × LogLevel) :=
  [("NOTSET", 0), ("DEBUG", 10), ("INFO", 20), ("WARNING", 30), ("ERROR", 40), ("CRITICAL", 50)]

/-- Other names of levels. -/
def aliases : List (String × LogLevel) :=
  [("WARN", 30), ("FATAL", 50)]

def name (l : LogLevel) : String :=
  match names.find? (·.2 = l) with
  | some (n, _) => n
  | none => s!"Level {l}"

def ofName? (s : String) : Option LogLevel :=
  (names ++ aliases).lookup s

end LogLevel

structure LogRecord where
  level : LogLevel
  message : String
deriving DecidableEq, Repr

/-- The level of a logger after its first use. -/
def LogLevel.ensure (level : LogLevel) (debug : Bool) : LogLevel :=
  if level = LogLevel.notSet then (if debug then LogLevel.debug else LogLevel.info) else level

/-- The records that a logger keeps. -/
def LogLevel.keeps (level : LogLevel) (records : List LogRecord) : List LogRecord :=
  records.filter fun r => level ≤ r.level

def Event.record : Event → LogRecord
  | .level entity depth keys rows =>
    let relations := Text.quotedList keys
    ⟨LogLevel.debug, s!"include_level entity={entity} depth={depth} relations={relations} rows={rows}"⟩
  | .query _ step q =>
    let entity := step.relation.source
    let keys := q.keys.length
    ⟨LogLevel.debug, s!"include_query entity={entity} relation={step.key} depth={step.depth} table={q.table} " ++
      s!"keys={keys} sql=" ++ (Query.batch q).sql⟩

end RelatedRows

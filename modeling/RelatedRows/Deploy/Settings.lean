import RelatedRows.Text.Numeral
import RelatedRows.Text.Parts

/-!
# Settings from the environment

Settings are read from named texts.  A setting that is absent, blank or malformed has its default, and so has a number
that is out of range.

* `Env.integer`, `Env.flag`: a number and a switch.
* `Settings.ofEnv`: the depth bound, the failure policy and the bound on concurrent calls.
-/

namespace RelatedRows

/-- The variables that are set, each once. -/
abbrev Env := List (String × String)

namespace Env

/-- The text of a variable without blanks around it; empty if the variable is not set. -/
def text (env : Env) (name : String) : String :=
  Text.trim ((env.lookup name).getD "")

def integer (env : Env) (name : String) (default : Int) : Int :=
  let s := env.text name
  if s = "" then default else (Text.readInteger s).getD default

/-- A number that must be at least one. -/
def positive (env : Env) (name : String) (default : Int) : Int :=
  let n := env.integer name default
  if n < 1 then default else n

def onWords : List String := ["1", "true", "yes", "on"]

/-- A switch is on if its text is one of `onWords`, in letters of either case. -/
def flag (env : Env) (name : String) : Bool :=
  onWords.contains (String.ofList ((env.text name).toList.map Char.toLower))

/-- Sets a variable. -/
def set (name value : String) : Env → Env
  | [] => [(name, value)]
  | (n, v) :: rest => if n = name then (name, value) :: rest else (n, v) :: set name value rest

theorem positive_pos (env : Env) (name : String) (default : Int) (h : 1 ≤ default) :
    1 ≤ env.positive name default := by
  unfold positive
  dsimp only
  split <;> omega

end Env

structure Settings where
  maxDepth : Int := 3
  /-- A failure while stitching aborts the request. -/
  strict : Bool := false
  /-- Failures are reported in detail. -/
  debug : Bool := false
  concurrency : Int := 4
deriving DecidableEq, Repr

def Settings.ofEnv (env : Env) : Settings where
  maxDepth := env.positive "INCLUDE_MAX_DEPTH" 3
  strict := env.flag "INCLUDE_STRICT"
  debug := env.flag "INCLUDE_DEBUG"
  concurrency := env.positive "INCLUDE_CONCURRENCY" 4

theorem Settings.maxDepth_ofEnv_pos (env : Env) : 1 ≤ (ofEnv env).maxDepth := by
  simp only [ofEnv]
  exact env.positive_pos _ _ (by decide)

theorem Settings.concurrency_ofEnv_pos (env : Env) : 1 ≤ (ofEnv env).concurrency := by
  simp only [ofEnv]
  exact env.positive_pos _ _ (by decide)

/-- The largest number of connections in the pool. -/
def Env.poolSize (env : Env) : Int :=
  env.positive "DB_POOL_MAX_SIZE" 5

def defaultOrigins : List String :=
  ["http://localhost:5173", "http://127.0.0.1:5173"]

/-- The origins that may call the service, separated by commas. -/
def Env.origins (env : Env) : List String :=
  let s := env.text "CORS_ORIGINS"
  if s = "" then defaultOrigins
  else ((Text.split ',' s.toList).map fun part => Text.trim (String.ofList part)).filter (· ≠ "")

end RelatedRows

import RelatedRows.Deploy.Address
import RelatedRows.Row.Basic

/-!
# The life of the connection pool

There is at most one pool at a time.  It is opened on request unless there is one already, and closed on request if
there is one; queries need an open pool.

* `PoolState`: the pool in use, and all that has happened to pools so far.
* `PoolState.apply`, `PoolState.run`: what a command does, and several of them one after the other.
* `PoolState.serve`: the pool is opened, the service runs, and the pool is closed however the service ends.
-/

namespace RelatedRows

/-- How a pool is opened. -/
structure PoolConfig where
  address : String
  minSize : Int := 1
  maxSize : Int
  /-- Seconds that a command may take. -/
  commandTimeout : Int := 30
deriving DecidableEq, Repr

/-- What happens to pools; they are numbered in the order in which they are opened. -/
inductive PoolEvent where
  | opened (pool : Nat) (config : PoolConfig)
  /-- The database would not open a pool. -/
  | refused (config : PoolConfig)
  | fetched (pool : Nat) (sql : String) (arguments : List Value)
  | closed (pool : Nat)
  /-- The service ran, with an open pool or without one. -/
  | serving (isOpen : Bool)
deriving DecidableEq

inductive PoolError where
  | notInitialized
  | address (e : AddressError)
  /-- The pool could not be opened, a query failed, or the service did. -/
  | failed (message : String)
deriving DecidableEq, Repr

def PoolError.message : PoolError → String
  | .notInitialized => "DB pool is not initialized. Call init_pool() on startup."
  | .address e => e.message
  | .failed m => m

structure PoolState where
  current : Option Nat := none
  opened : Nat := 0
  events : List PoolEvent := []
deriving DecidableEq

namespace PoolState

def isOpen (s : PoolState) : Bool :=
  s.current.isSome

def config (env : Env) : Except PoolError PoolConfig :=
  match env.databaseUrl with
  | .ok address => .ok { address, maxSize := env.poolSize }
  | .error e => .error (.address e)

/-- Opens a pool unless there is one; `connect` says whether opening works. -/
def init (env : Env) (connect : Except String Unit) (s : PoolState) : Except PoolError Unit × PoolState :=
  match s.current with
  | some _ => (.ok (), s)
  | none =>
    match config env with
    | .error e => (.error e, s)
    | .ok config =>
      match connect with
      | .error message => (.error (.failed message), { s with events := s.events ++ [.refused config] })
      | .ok () => (.ok (), ⟨some s.opened, s.opened + 1, s.events ++ [.opened s.opened config]⟩)

def close (s : PoolState) : PoolState :=
  match s.current with
  | none => s
  | some p => { s with current := none, events := s.events ++ [.closed p] }

def pool (s : PoolState) : Except PoolError Nat :=
  match s.current with
  | none => .error .notInitialized
  | some p => .ok p

/-- Puts a query to the pool in use; `answer` is what the database has to say. -/
def fetch (sql : String) (arguments : List Value) (answer : Except String (List Row)) (s : PoolState) :
    Except PoolError (List Row) × PoolState :=
  match s.pool with
  | .error e => (.error e, s)
  | .ok p => (answer.mapError .failed, { s with events := s.events ++ [.fetched p sql arguments] })

/-- What may be asked of the pool. -/
inductive Command where
  | init (env : Env) (connect : Except String Unit)
  | close
  | pool
  | fetch (sql : String) (arguments : List Value) (answer : Except String (List Row) := .ok [])

def apply (s : PoolState) : Command → Except PoolError Unit × PoolState
  | .init env connect => s.init env connect
  | .close => (.ok (), s.close)
  | .pool => (s.pool.map fun _ => (), s)
  | .fetch sql arguments answer =>
    let (rows, s) := s.fetch sql arguments answer
    (rows.map fun _ => (), s)

/-- The state after some commands; one that fails does not keep the next ones from being tried. -/
def run (s : PoolState) (commands : List Command) : PoolState :=
  commands.foldl (fun s c => (s.apply c).2) s

/-- Runs the service between opening and closing the pool; `fails` is what it fails with. -/
def serve (env : Env) (connect : Except String Unit) (fails : Option String) (s : PoolState) :
    Except PoolError Unit × PoolState :=
  match s.init env connect with
  | (.error e, s) => (.error e, s)
  | (.ok (), s) =>
    let s : PoolState := { s with events := s.events ++ [.serving s.isOpen] }
    (match fails with
      | some message => .error (.failed message)
      | none => .ok (), s.close)

end PoolState

end RelatedRows

import RelatedRows.Deploy.Pool
import RelatedRows.Proofs.Addresses
import Mathlib.Data.List.Nodup
import Mathlib.Logic.Relation

/-!
# Histories of pools

The events so far tell which pools are open.  Whatever is asked, in any order and with any success, a pool is opened
only if there is none, it is closed once, and nothing is done to a pool that is not open.

* `PoolState.openPools`: the pools that some events leave open.  `PoolState.InOrder`: each event comes when it may.
* `PoolState.Changes`: all that can happen to the pools at once; a command is one change, a service a few of them.
* `PoolState.Accounted`: what every change preserves.  The pools are the closed ones and behind them the one in use.
* `PoolState.Opening`: the ways in which opening a pool can go; `Env.HasAddress` decides whether it is tried.
* `PoolState.run_lifeCycle`: all that holds after a list of commands; `PoolState.serve_settled` is about a service.
-/

namespace RelatedRows

/-! ## Addresses -/

/-- An address is set that can be split into the parts of a URL and whose parameters, those that are kept, can be
written. -/
def Env.HasAddress (env : Env) : Prop :=
  env.text "DATABASE_URL" ≠ "" ∧ ∃ u, Url.split (Text.letters (env.text "DATABASE_URL")) = .ok u ∧ u.Encodable

instance (r : Except UrlError Url) : Decidable (∃ u, r = .ok u ∧ u.Encodable) :=
  match r with
  | .ok u => decidable_of_iff u.Encodable (by simp)
  | .error _ => .isFalse (by simp)

instance (env : Env) : Decidable env.HasAddress :=
  inferInstanceAs (Decidable (_ ∧ _))

theorem Env.exists_databaseUrl_iff (env : Env) : (∃ address, env.databaseUrl = .ok address) ↔ env.HasAddress := by
  rw [HasAddress, ← exists_sanitize_iff, databaseUrl]
  split
  next hempty => simp [hempty]
  next hset => cases sanitize (Text.letters (env.text "DATABASE_URL")) <;> simp [hset, Except.map]

/-! ## Events in order -/

namespace PoolEvent

def opened? : PoolEvent → Option Nat
  | .opened p _ => some p
  | _ => none

def closed? : PoolEvent → Option Nat
  | .closed p => some p
  | _ => none

/-- Whether the database is asked for a pool. -/
def isAttempt : PoolEvent → Bool
  | .opened .. | .refused _ => true
  | _ => false

end PoolEvent

namespace PoolState

def openings (events : List PoolEvent) : List Nat :=
  events.filterMap PoolEvent.opened?

def closings (events : List PoolEvent) : List Nat :=
  events.filterMap PoolEvent.closed?

/-- The pools that were opened and are not yet closed. -/
def openPools (events : List PoolEvent) : List Nat :=
  (openings events).filter (· ∉ closings events)

def attempts (events : List PoolEvent) : Nat :=
  events.countP PoolEvent.isAttempt

/-- When an event may come.  The database is asked for a pool if none is open, and a pool that it opens is a new one; a
query is put to the open pool, and a pool that is closed was open. -/
def Fits (before : List PoolEvent) : PoolEvent → Prop
  | .opened p _ => openPools before = [] ∧ p ∉ openings before
  | .refused _ => openPools before = []
  | .fetched p _ _ => openPools before = [p]
  | .closed p => openPools before = [p]
  | .serving isOpen => isOpen = true ∧ ∃ p, openPools before = [p]

def InOrder (events : List PoolEvent) : Prop :=
  ∀ before e after, events = before ++ e :: after → Fits before e

section Events

variable {events : List PoolEvent} {e : PoolEvent}

@[simp] theorem openings_concat (events : List PoolEvent) (e : PoolEvent) :
    openings (events ++ [e]) = openings events ++ e.opened?.toList := by
  cases h : e.opened? <;> simp [openings, h]

@[simp] theorem closings_concat (events : List PoolEvent) (e : PoolEvent) :
    closings (events ++ [e]) = closings events ++ e.closed?.toList := by
  cases h : e.closed? <;> simp [closings, h]

theorem attempts_concat (events : List PoolEvent) (e : PoolEvent) :
    attempts (events ++ [e]) = attempts events + if e.isAttempt then 1 else 0 := by
  simp [attempts, List.countP_append, List.countP_singleton]

theorem inOrder_nil : InOrder [] := by
  intro before e after h
  simp at h

theorem inOrder_concat (h : InOrder events) (he : Fits events e) : InOrder (events ++ [e]) := by
  intro before e' after heq
  rcases after.eq_nil_or_concat with rfl | ⟨rest, last, rfl⟩
  · obtain ⟨rfl, hlast⟩ := List.append_inj' heq rfl
    obtain rfl := List.singleton_inj.mp hlast
    exact he
  · rw [List.concat_eq_append, ← List.cons_append, ← List.append_assoc] at heq
    exact h before e' rest (List.append_inj' heq rfl).1

end Events

/-! ## Changes -/

/-- What can happen to the pools at once. -/
inductive Changes (s : PoolState) : PoolState → Prop where
  | nothing : Changes s s
  | opened (config : PoolConfig) (hnone : s.current = none) :
      Changes s ⟨some s.opened, s.opened + 1, s.events ++ [.opened s.opened config]⟩
  | refused (config : PoolConfig) (hnone : s.current = none) :
      Changes s { s with events := s.events ++ [.refused config] }
  | fetched (sql : String) (arguments : List Value) {p : Nat} (hp : s.current = some p) :
      Changes s { s with events := s.events ++ [.fetched p sql arguments] }
  | closed {p : Nat} (hp : s.current = some p) :
      Changes s { s with current := none, events := s.events ++ [.closed p] }
  | served {p : Nat} (hp : s.current = some p) : Changes s { s with events := s.events ++ [.serving true] }

/-- Every pool has a number, in the order of the openings.  All but the one in use are closed, in the same order. -/
structure Accounted (s : PoolState) : Prop where
  numbered : openings s.events = List.range s.opened
  settled : closings s.events ++ s.current.toList = List.range s.opened
  inOrder : InOrder s.events

section Accounts

variable {s s' : PoolState} {p : Nat}

theorem accounted_empty : Accounted {} where
  numbered := rfl
  settled := rfl
  inOrder := inOrder_nil

theorem Accounted.nodup (h : s.Accounted) : (closings s.events ++ s.current.toList).Nodup := by
  rw [h.settled]
  exact List.nodup_range

theorem Accounted.openPools_eq (h : s.Accounted) : openPools s.events = s.current.toList := by
  obtain ⟨-, -, hdisjoint⟩ := List.nodup_append'.mp h.nodup
  have hclosed : (closings s.events).filter (· ∉ closings s.events) = [] :=
    List.filter_eq_nil_iff.mpr fun p hp => by simpa using hp
  have hcurrent : s.current.toList.filter (· ∉ closings s.events) = s.current.toList :=
    List.filter_eq_self.mpr fun p hp => by simpa using fun hc => hdisjoint hc hp
  rw [openPools, h.numbered, ← h.settled, List.filter_append, hclosed, hcurrent, List.nil_append]

theorem Accounted.count_closings (h : s.Accounted) (hp : p ∈ openings s.events) (hne : s.current ≠ some p) :
    (closings s.events).count p = 1 := by
  rw [h.numbered, ← h.settled] at hp
  have hclosed : p ∈ closings s.events := by
    rcases List.mem_append.mp hp with hp | hp
    · exact hp
    · exact absurd (Option.mem_toList.mp hp) hne
  exact List.count_eq_one_of_mem (List.nodup_append'.mp h.nodup).1 hclosed

/-- An event that opens no pool and after which the same pool is in use, unless it is the one that the event closes. -/
theorem Accounted.record {e : PoolEvent} {current : Option Nat} (h : s.Accounted) (hfits : Fits s.events e)
    (hopened : e.opened? = none) (hcurrent : e.closed?.toList ++ current.toList = s.current.toList) :
    Accounted { s with current := current, events := s.events ++ [e] } where
  numbered := by rw [openings_concat, hopened, Option.toList_none, List.append_nil, h.numbered]
  settled := by rw [closings_concat, List.append_assoc, hcurrent, h.settled]
  inOrder := inOrder_concat h.inOrder hfits

theorem Changes.accounted (h : Changes s s') (hs : s.Accounted) : s'.Accounted := by
  have hopen := hs.openPools_eq
  cases h with
  | nothing => exact hs
  | opened config hnone =>
    have hsettled := hs.settled
    rw [hnone] at hopen hsettled
    refine ⟨?_, ?_, inOrder_concat hs.inOrder ⟨hopen, ?_⟩⟩
    · rw [openings_concat, hs.numbered, List.range_succ]
      rfl
    · rw [closings_concat, List.range_succ, ← hsettled]
      simp [PoolEvent.closed?]
    · rw [hs.numbered]
      exact List.not_mem_range_self
  | refused config hnone => exact hs.record (by rwa [hnone] at hopen) rfl rfl
  | fetched sql arguments hp => exact hs.record (by rwa [hp] at hopen) rfl rfl
  | closed hp => exact hs.record (by rwa [hp] at hopen) rfl (by rw [hp]; rfl)
  | served hp => exact hs.record ⟨rfl, _, by rwa [hp] at hopen⟩ rfl rfl

/-- What every change preserves holds after any number of them. -/
theorem accounted_of_changes (h : Relation.ReflTransGen Changes s s') (hs : s.Accounted) : s'.Accounted := by
  induction h with
  | refl => exact hs
  | tail _ hlast ih => exact hlast.accounted ih

end Accounts

/-! ## Commands and services -/

section Runs

variable {env : Env} {connect : Except String Unit} {fails : Option String} {result : Except PoolError Unit}
  {s s' : PoolState}

theorem exists_config_iff (env : Env) : (∃ c, config env = .ok c) ↔ env.HasAddress := by
  rw [← env.exists_databaseUrl_iff, config]
  cases env.databaseUrl <;> simp

/-- The ways in which opening a pool can go. -/
inductive Opening (env : Env) (connect : Except String Unit) (s : PoolState) :
    Except PoolError Unit → PoolState → Prop where
  | already {p : Nat} (hp : s.current = some p) : Opening env connect s (.ok ()) s
  | noAddress {e : PoolError} (hnone : s.current = none) (hmissing : ¬env.HasAddress) (he : config env = .error e) :
      Opening env connect s (.error e) s
  | refused {c : PoolConfig} {message : String} (hnone : s.current = none) (haddress : env.HasAddress)
      (hc : config env = .ok c) (hconnect : connect = .error message) :
      Opening env connect s (.error (.failed message)) { s with events := s.events ++ [.refused c] }
  | opened {c : PoolConfig} (hnone : s.current = none) (haddress : env.HasAddress) (hc : config env = .ok c)
      (hconnect : connect = .ok ()) :
      Opening env connect s (.ok ()) ⟨some s.opened, s.opened + 1, s.events ++ [.opened s.opened c]⟩

theorem opening_of_init (h : s.init env connect = (result, s')) : Opening env connect s result s' := by
  have haddress := exists_config_iff env
  unfold init at h
  split at h
  next p hp =>
    cases h
    exact .already hp
  next hnone =>
    split at h
    next e he =>
      cases h
      exact .noAddress hnone (by simp [← haddress, he]) he
    next c hc =>
      cases connect with
      | error message =>
        cases h
        exact .refused hnone (haddress.mp ⟨c, hc⟩) hc rfl
      | ok _ =>
        cases h
        exact .opened hnone (haddress.mp ⟨c, hc⟩) hc rfl

theorem changes_init (h : s.init env connect = (result, s')) : Changes s s' := by
  cases opening_of_init h with
  | already | noAddress => exact .nothing
  | refused hnone => exact .refused _ hnone
  | opened hnone => exact .opened _ hnone

theorem changes_close (s : PoolState) : Changes s s.close := by
  unfold close
  split
  next => exact .nothing
  next p hp => exact .closed hp

theorem pool_eq_ok {p : Nat} (h : s.current = some p) : s.pool = .ok p := by
  rw [pool, h]

theorem pool_eq_error (h : s.current = none) : s.pool = .error .notInitialized := by
  rw [pool, h]

theorem fetch_of_open {p : Nat} (h : s.current = some p) (sql : String) (arguments : List Value)
    (answer : Except String (List Row)) :
    s.fetch sql arguments answer =
      (answer.mapError .failed, { s with events := s.events ++ [.fetched p sql arguments] }) := by
  rw [fetch, pool_eq_ok h]

theorem fetch_of_none (h : s.current = none) (sql : String) (arguments : List Value)
    (answer : Except String (List Row)) : s.fetch sql arguments answer = (.error .notInitialized, s) := by
  rw [fetch, pool_eq_error h]

theorem changes_apply (s : PoolState) (c : Command) : Changes s (s.apply c).2 := by
  cases c with
  | init env connect =>
    show Changes s (s.init env connect).2
    rcases hinit : s.init env connect with ⟨result, s'⟩
    exact changes_init hinit
  | close => exact changes_close s
  | pool => exact .nothing
  | fetch sql arguments answer =>
    show Changes s (s.fetch sql arguments answer).2
    cases h : s.current with
    | none =>
      rw [fetch_of_none h]
      exact .nothing
    | some p =>
      rw [fetch_of_open h]
      exact .fetched sql arguments h

theorem changes_run (s : PoolState) (commands : List Command) : Relation.ReflTransGen Changes s (s.run commands) := by
  induction commands generalizing s with
  | nil => exact .refl
  | cons c commands ih => exact .head (changes_apply s c) (ih (s.apply c).2)

theorem accounted_run (commands : List Command) : (run {} commands).Accounted :=
  accounted_of_changes (changes_run {} commands) accounted_empty

/-- The database is asked for a pool once or not at all. -/
theorem attempts_init (h : s.init env connect = (result, s')) :
    attempts s'.events = attempts s.events + if s.current = none ∧ env.HasAddress then 1 else 0 := by
  cases opening_of_init h with
  | already hp => simp [hp]
  | noAddress hnone hmissing => simp [hmissing]
  | refused hnone haddress => simp [attempts_concat, PoolEvent.isAttempt, hnone, haddress]
  | opened hnone haddress => simp [attempts_concat, PoolEvent.isAttempt, hnone, haddress]

theorem init_of_open {p : Nat} (hp : s.current = some p) (env : Env) (connect : Except String Unit) :
    s.init env connect = (.ok (), s) := by
  rw [init, hp]

theorem init_succeeds_iff (h : s.init env connect = (result, s')) :
    result = .ok () ↔ s.current ≠ none ∨ env.HasAddress ∧ connect = .ok () := by
  cases opening_of_init h with
  | already hp => simp [hp]
  | noAddress hnone hmissing => simp [hnone, hmissing]
  | refused hnone haddress hc hconnect => simp [hnone, hconnect]
  | opened hnone haddress hc hconnect => simp [haddress, hconnect]

/-- Opening a pool succeeds if there is one afterwards, and fails if there is none. -/
theorem current_init (h : s.init env connect = (result, s')) : s'.current = none ↔ result ≠ .ok () := by
  cases opening_of_init h with
  | already hp => simp [hp]
  | noAddress hnone | refused hnone => simp [hnone]
  | opened hnone => simp

theorem exists_init (hnone : s.current = none) (haddress : env.HasAddress) :
    ∃ s', s.init env (.ok ()) = (.ok (), s') ∧ s'.current = some s.opened := by
  rcases h : s.init env (.ok ()) with ⟨result, s'⟩
  cases opening_of_init h with
  | already hp => simp [hnone] at hp
  | noAddress _ hmissing => exact absurd haddress hmissing
  | refused _ _ _ hconnect => cases hconnect
  | opened => exact ⟨_, rfl, rfl⟩

theorem close_of_none (h : s.current = none) : s.close = s := by
  rw [close, h]

theorem pool_eq_error_iff : s.pool = .error .notInitialized ↔ s.current = none := by
  cases h : s.current with
  | none => simp [pool_eq_error h]
  | some p => simp [pool_eq_ok h]

theorem fetch_eq_error_iff {sql : String} {arguments : List Value} {answer : Except String (List Row)} :
    (s.fetch sql arguments answer).1 = .error .notInitialized ↔ s.current = none := by
  cases h : s.current with
  | none => simp [fetch_of_none h]
  | some p => cases answer <;> simp [fetch_of_open h, Except.mapError]

/-- Between its opening and its closing the service has a pool. -/
theorem changes_serve (h : s.serve env connect fails = (result, s')) :
    Relation.ReflTransGen Changes s s' ∧ s'.current = none := by
  unfold serve at h
  split at h
  next e s₁ hinit =>
    cases h
    exact ⟨.single (changes_init hinit), (current_init hinit).mpr (by simp)⟩
  next s₁ hinit =>
    cases h
    cases hp : s₁.current with
    | none => exact absurd ((current_init hinit).mp hp) (by simp)
    | some p =>
      have hserved := Changes.served hp
      refine ⟨.tail (.tail (.single (changes_init hinit)) ?_) (changes_close _), ?_⟩
      · simpa [isOpen, hp] using hserved
      · simp [close]

/-- A service leaves no pool open, however it ends. -/
theorem serve_settled (hs : s.Accounted) (h : s.serve env connect fails = (result, s')) :
    s'.Accounted ∧ openPools s'.events = [] := by
  obtain ⟨hchanges, hnone⟩ := changes_serve h
  have haccounted := accounted_of_changes hchanges hs
  refine ⟨haccounted, ?_⟩
  rw [haccounted.openPools_eq, hnone]
  rfl

end Runs

/-- After any commands the pools that were opened and not closed are the one in use, any other was closed once, and at
no time was a pool opened beside another one.  To open a pool the database is asked if there is none and an address is
set, and only then; a failure leaves no pool, and the next attempt can succeed.  Closing does nothing without a pool.
If there is none, and only then, no pool is there to be had or to take a query; else the one in use takes it and stays
in use. -/
theorem run_lifeCycle {commands : List Command} {s : PoolState} (hrun : run {} commands = s) :
    (openPools s.events = s.current.toList ∧ InOrder s.events ∧ (openings s.events).Nodup ∧
      ∀ p ∈ openings s.events, s.current ≠ some p → (closings s.events).count p = 1) ∧
    (∀ env connect result s', s.init env connect = (result, s') →
      attempts s'.events = attempts s.events + (if s.current = none ∧ env.HasAddress then 1 else 0) ∧
      (s.current ≠ none → result = .ok () ∧ s' = s) ∧
      (result = .ok () ↔ s.current ≠ none ∨ env.HasAddress ∧ connect = .ok ()) ∧
      (result ≠ .ok () → s'.current = none ∧ ∀ later : Env, later.HasAddress →
        ∃ s'', s'.init later (.ok ()) = (.ok (), s'') ∧ s''.current = some s'.opened)) ∧
    (s.current = none → s.close = s) ∧
    ((s.pool = .error .notInitialized ↔ s.current = none) ∧ ∀ p, s.current = some p → s.pool = .ok p) ∧
    ∀ sql arguments answer,
      ((s.fetch sql arguments answer).1 = .error .notInitialized ↔ s.current = none) ∧
      (s.current = none → (s.fetch sql arguments answer).2 = s) ∧
      ∀ p, s.current = some p → s.fetch sql arguments answer =
        (answer.mapError .failed, { s with events := s.events ++ [.fetched p sql arguments] }) := by
  have hs : s.Accounted := hrun ▸ accounted_run commands
  refine ⟨⟨hs.openPools_eq, hs.inOrder, ?_, fun p hp hne => hs.count_closings hp hne⟩, ?_, close_of_none,
    ⟨pool_eq_error_iff, fun p hp => pool_eq_ok hp⟩, ?_⟩
  · rw [hs.numbered]
    exact List.nodup_range
  · intro env connect result s' hinit
    refine ⟨attempts_init hinit, fun hopen => ?_, init_succeeds_iff hinit, fun hfailed => ?_⟩
    · obtain ⟨p, hp⟩ := Option.ne_none_iff_exists'.mp hopen
      rw [init_of_open hp] at hinit
      cases hinit
      exact ⟨rfl, rfl⟩
    · have hnone : s'.current = none := (current_init hinit).mpr hfailed
      exact ⟨hnone, fun later haddress => exists_init hnone haddress⟩
  · intro sql arguments answer
    refine ⟨fetch_eq_error_iff, fun hnone => ?_, fun p hp => fetch_of_open hp sql arguments answer⟩
    rw [fetch_of_none hnone]

def readersEnv : Env :=
  [("DATABASE_URL", " postgres://reader@db/books?sslmode=require "), ("DB_POOL_MAX_SIZE", "2")]

def readersConfig : PoolConfig :=
  { address := "postgres://reader@db/books", maxSize := 2 }

/-- A pool is wanted without an address, in vain, with success and once more; the next one comes after two closings. -/
def restarts : List Command :=
  [.fetch "SELECT 1" [], .init [] (.ok ()), .init readersEnv (.error "refused"), .init readersEnv (.ok ()),
    .init readersEnv (.error "refused"), .fetch "SELECT 1" [], .close, .close, .init readersEnv (.ok ()), .pool, .close]

def restarted : PoolState :=
  ⟨none, 2, [.refused readersConfig, .opened 0 readersConfig, .fetched 0 "SELECT 1" [], .closed 0,
    .opened 1 readersConfig, .closed 1]⟩

/-- Both pools are closed, and after one more refusal there can be a third. -/
theorem run_lifeCycle_restarted :
    run {} restarts = restarted ∧ openPools restarted.events = [] ∧
      (closings restarted.events).count 0 = 1 ∧ (closings restarted.events).count 1 = 1 ∧
      (∃ s', restarted.init readersEnv (.error "refused") = (.error (.failed "refused"), s') ∧
        attempts s'.events = 4 ∧ s'.current = none ∧
        ∃ s'', s'.init readersEnv (.ok ()) = (.ok (), s'') ∧ s''.current = some 2) ∧
      (restarted.fetch "SELECT 1" [] (.ok [])).1 = .error .notInitialized := by
  have hrun : run {} restarts = restarted := by decide +kernel
  have haddress : readersEnv.HasAddress := by decide +kernel
  have hrefused : restarted.init readersEnv (.error "refused") = (.error (.failed "refused"),
      { restarted with events := restarted.events ++ [.refused readersConfig] }) := by decide +kernel
  obtain ⟨⟨hopen, -, -, hclosed⟩, hinit, -, -, hfetch⟩ := run_lifeCycle hrun
  obtain ⟨hattempts, -, -, hfailed⟩ := hinit _ _ _ _ hrefused
  obtain ⟨hnone, hlater⟩ := hfailed (by simp)
  rw [if_pos ⟨rfl, haddress⟩] at hattempts
  exact ⟨hrun, hopen, hclosed 0 (by decide) (by decide), hclosed 1 (by decide) (by decide),
    ⟨_, hrefused, hattempts, hnone, hlater readersEnv haddress⟩, (hfetch _ _ _).1.mpr rfl⟩

def halvedEnv : Env :=
  [("DATABASE_URL", Text.ofLetters halvedAddress)]

/-- The database is not asked for a pool at every address that can be split. -/
theorem not_run_lifeCycle_halved :
    ¬∀ (commands : List Command) (env : Env) (connect : Except String Unit) (result : Except PoolError Unit)
      (s' : PoolState), (run {} commands).init env connect = (result, s') →
        attempts s'.events = attempts (run {} commands).events +
          if (run {} commands).current = none ∧ env.text "DATABASE_URL" ≠ "" ∧
            (Url.split (Text.letters (env.text "DATABASE_URL"))).isOk = true then 1 else 0 := by
  intro h
  have hinit : (run {} []).init halvedEnv (.ok ()) =
      (.error (.address (.notEncodable ⟨0xdcff, 0, 1⟩)), {}) := by decide +kernel
  have hattempts := h [] halvedEnv (.ok ()) _ _ hinit
  rw [if_pos (by decide +kernel)] at hattempts
  exact absurd hattempts (by decide)

end PoolState

end RelatedRows

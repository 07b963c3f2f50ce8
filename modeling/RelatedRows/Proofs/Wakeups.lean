import RelatedRows.Proofs.Tickets

/-!
# Loads that are woken

Over a store that takes its time, no load is left waiting for a permit that nobody uses.

* `PermitsKept`: a permit that is free has been handed on, if a load waits; `Turns.handOn_spec` hands it on.
* `Turns.Orderly`: all tickets are in the queue or among the loads that wait, and the permits are kept.
* `Turns.Due`: a turn has been taken from the queue; the turns of a load (`take_start`, `take_permitted`,
  `take_waited_zero`, `take_waited_succ`) leave it orderly, with fewer turns to go.
-/

namespace RelatedRows

open LevelState

/-! ## Permits -/

/-- The calls in progress. -/
def calls (T : Multiset Ticket) : Nat :=
  T.countP fun x => x.isCall = true

/-- The loads that have been handed a permit that they do not use yet. -/
def handedOut (T : Multiset Ticket) : Nat :=
  T.countP fun x => x.isHanded = true

section Counts

variable (x : Ticket) (T T' : Multiset Ticket)

@[simp] theorem calls_add : calls (T + T') = calls T + calls T' :=
  Multiset.countP_add ..

@[simp] theorem calls_cons : calls (x ::ₘ T) = calls T + if x.isCall = true then 1 else 0 :=
  Multiset.countP_cons ..

@[simp] theorem calls_singleton : calls {x} = if x.isCall = true then 1 else 0 := by
  rw [← Multiset.cons_zero, calls_cons]
  exact Nat.zero_add _

@[simp] theorem handedOut_add : handedOut (T + T') = handedOut T + handedOut T' :=
  Multiset.countP_add ..

@[simp] theorem handedOut_cons : handedOut (x ::ₘ T) = handedOut T + if x.isHanded = true then 1 else 0 :=
  Multiset.countP_cons ..

@[simp] theorem handedOut_singleton : handedOut {x} = if x.isHanded = true then 1 else 0 := by
  rw [← Multiset.cons_zero, handedOut_cons]
  exact Nat.zero_add _

end Counts

/-- A load that waits may have been handed a permit. -/
def Handed (T T' : Multiset Ticket) : Prop :=
  T' = T ∨ ∃ place i R, T = {.waiter ⟨place, i, false⟩} + R ∧
    T' = {.waiter ⟨place, i, true⟩, .turn (.permitted place i)} + R

namespace Handed

variable {waits m : Nat} {root : LevelState} {T T' X : Multiset Ticket}

theorem holds (h : Handed T T') (hroot : root.Holds waits [] (X + T) m) : root.Holds waits [] (X + T') m := by
  rcases h with rfl | ⟨place, i, R, rfl, rfl⟩
  · exact hroot
  · obtain ⟨l, tasks, t, T₁, m₁, T₂, m₂, hframe, ht, hx, hT, rfl⟩ := hroot.find_load (x := .waiter ⟨place, i, false⟩)
      (Multiset.mem_add.mpr (.inr (Multiset.mem_add.mpr (.inl (Multiset.mem_singleton_self _))))) rfl
    cases ht with
    | asking hasks =>
      have hT₂ : X + R = T₂ := by
        rw [add_left_comm] at hT
        exact add_left_cancel hT
      have hnew := hframe.holds_self (.permitted hasks) (Multiset.cons_ne_zero)
      rwa [← hT₂, add_left_comm] at hnew
    | permitted _ => simp at hx
    | told => exact absurd hx (Multiset.notMem_zero _)
    | _ => cases Multiset.mem_singleton.mp hx

theorem frame (h : Handed T T') {place : List Nat} {l : Level} {tasks : List Task} {i : Nat} {t : Task}
    (hframe : LoadFrame waits root place l tasks i t T m) : LoadFrame waits root place l tasks i t T' m where
  at_eq := hframe.at_eq
  task_eq := hframe.task_eq
  length_eq := hframe.length_eq
  apart x hx := by
    rcases h with rfl | ⟨place', j, R, rfl, rfl⟩
    · exact hframe.apart x hx
    · have hwaiter := hframe.apart (.waiter ⟨place', j, false⟩)
        (Multiset.mem_add.mpr (.inl (Multiset.mem_singleton_self _)))
      rcases Multiset.mem_add.mp hx with hx | hx
      · rcases Multiset.mem_cons.mp hx with rfl | hx
        · exact hwaiter
        · cases Multiset.mem_singleton.mp hx
          exact hwaiter
      · exact hframe.apart x (Multiset.mem_add.mpr (.inr hx))
  holds rows t' T₁ m₁ ht' hne := h.holds (hframe.holds rows t' T₁ m₁ ht' hne)

theorem calls_eq (h : Handed T T') : calls T' = calls T := by
  rcases h with rfl | ⟨place, i, R, rfl, rfl⟩
  · rfl
  · simp [Ticket.isCall]

end Handed

/-- The permits that are in use are those of the calls in progress.  No load waits while there is a free permit, unless
one that was handed a permit is about to hand on the next. -/
structure PermitsKept (permits free : Nat) (T : Multiset Ticket) : Prop where
  permits_eq : free + calls T = permits
  handed_le : handedOut T ≤ free
  woken : (∃ x ∈ T, x.isWaiting = true) → free ≤ handedOut T ∨ 0 < handedOut T

namespace PermitsKept

variable {permits free : Nat} {T : Multiset Ticket} {t : Turn}

theorem of_turn (hpermits : free + (calls T + if (Ticket.turn t).isCall = true then 1 else 0) = permits)
    (hle : handedOut T ≤ free)
    (hwoken : (∃ x ∈ T, x.isWaiting = true) → free ≤ handedOut T ∨ 0 < handedOut T) :
    PermitsKept permits free ({.turn t} + T) := by
  have hhanded : handedOut ({.turn t} + T) = handedOut T := by
    rw [handedOut_add, handedOut_singleton]
    exact Nat.zero_add _
  refine ⟨?_, hhanded ▸ hle, ?_⟩
  · rw [calls_add, calls_singleton]
    omega
  · rintro ⟨x, hx, hwaiting⟩
    rw [hhanded]
    rcases Multiset.mem_add.mp hx with hx | hx
    · cases Multiset.mem_singleton.mp hx
      cases hwaiting
    · exact hwoken ⟨x, hx, hwaiting⟩

/-- A turn that is not about a call in progress makes no difference. -/
theorem turn (h : PermitsKept permits free T) (ht : (Ticket.turn t).isCall = false) :
    PermitsKept permits free ({.turn t} + T) := by
  refine of_turn ?_ h.handed_le h.woken
  rw [ht]
  exact h.permits_eq

theorem turns (h : PermitsKept permits free T) {turns : List Turn}
    (hturns : ∀ t ∈ turns, (Ticket.turn t).isCall = false) :
    PermitsKept permits free ((turns.map Ticket.turn : Multiset Ticket) + T) := by
  induction turns with
  | nil => rwa [List.map_nil, Multiset.coe_nil, zero_add]
  | cons t turns ih =>
    rw [List.map_cons, ← Multiset.cons_coe, ← Multiset.singleton_add, add_assoc]
    exact (ih fun u hu => hturns u (List.mem_cons_of_mem _ hu)).turn (hturns t List.mem_cons_self)

/-- Without the turn, the permit of a call that is in progress is not accounted for. -/
theorem without_turn (h : PermitsKept permits free ({.turn t} + T)) :
    free + (calls T + if (Ticket.turn t).isCall = true then 1 else 0) = permits ∧ handedOut T ≤ free ∧
      ((∃ x ∈ T, x.isWaiting = true) → free ≤ handedOut T ∨ 0 < handedOut T) := by
  obtain ⟨hpermits, hle, hwoken⟩ := h
  have hhanded : handedOut ({.turn t} + T) = handedOut T := by
    rw [handedOut_add, handedOut_singleton]
    exact Nat.zero_add _
  rw [calls_add, calls_singleton] at hpermits
  rw [hhanded] at hle hwoken
  refine ⟨by omega, hle, ?_⟩
  rintro ⟨x, hx, hwaiting⟩
  exact hwoken ⟨x, Multiset.mem_add.mpr (.inr hx), hwaiting⟩

theorem of_add (h : PermitsKept permits free ({.turn t} + T)) (ht : (Ticket.turn t).isCall = false) :
    PermitsKept permits free T := by
  obtain ⟨hpermits, hle, hwoken⟩ := h.without_turn
  rw [ht] at hpermits
  exact ⟨hpermits, hle, hwoken⟩

end PermitsKept

namespace Turns

variable {σ : Type} {s : Turns σ}

/-- The turns in the queue, and the loads that wait for a permit. -/
def tickets (s : Turns σ) : Multiset Ticket :=
  (s.queue.map Ticket.turn : Multiset Ticket) + (s.waiters.map Ticket.waiter : Multiset Ticket)

theorem mem_tickets_turn {t : Turn} : .turn t ∈ s.tickets ↔ t ∈ s.queue := by
  simp [tickets]

theorem mem_tickets_waiter {w : Waiter} : .waiter w ∈ s.tickets ↔ w ∈ s.waiters := by
  simp [tickets]

theorem tickets_put (turns : List Turn) (s : Turns σ) :
    (s.put turns).tickets = (turns.map Ticket.turn : Multiset Ticket) + s.tickets := by
  simp only [tickets, put, List.map_append, ← Multiset.coe_add]
  rw [add_comm (s.queue.map Ticket.turn : Multiset Ticket), add_assoc]

theorem tickets_put_single (t : Turn) (s : Turns σ) : (s.put [t]).tickets = {.turn t} + s.tickets :=
  tickets_put [t] s

theorem handedOut_tickets (s : Turns σ) : handedOut s.tickets = s.waiters.countP Waiter.handed := by
  have hturns : handedOut (s.queue.map Ticket.turn : Multiset Ticket) = 0 := by
    refine Multiset.countP_eq_zero.mpr fun x hx => ?_
    obtain ⟨t, -, rfl⟩ := List.mem_map.mp (Multiset.mem_coe.mp hx)
    exact Bool.false_ne_true
  rw [tickets, handedOut_add, hturns, Nat.zero_add, handedOut, Multiset.coe_countP, List.countP_map]
  exact congrArg (List.countP · s.waiters) (funext fun _ => Bool.decide_eq_true)

theorem free_eq (s : Turns σ) : s.free = s.machine.shared.permits - handedOut s.tickets := by
  rw [free, handedOut_tickets]

theorem hand_eq_none {ws : List Waiter} (h : hand ws = none) : ∀ w ∈ ws, w.handed = true := by
  induction ws with
  | nil => exact fun w hw => absurd hw List.not_mem_nil
  | cons v ws ih =>
    rw [hand] at h
    split at h
    · next hv => exact List.forall_mem_cons.mpr ⟨hv, ih (Option.map_eq_none_iff.mp h)⟩
    · cases h

theorem hand_eq_some {ws vs : List Waiter} {w : Waiter} (h : hand ws = some (w, vs)) :
    ∃ before after, ws = before ++ ⟨w.level, w.load, false⟩ :: after ∧
      vs = before ++ ⟨w.level, w.load, true⟩ :: after := by
  induction ws generalizing vs with
  | nil => cases h
  | cons v ws ih =>
    rw [hand] at h
    split at h
    · obtain ⟨⟨u, us⟩, hus, heq⟩ := Option.map_eq_some_iff.mp h
      cases heq
      obtain ⟨before, after, rfl, rfl⟩ := ih hus
      exact ⟨v :: before, after, rfl, rfl⟩
    · next hv =>
      cases h
      obtain ⟨level, load, handed⟩ := w
      cases handed with
      | false => exact ⟨[], ws, rfl, rfl⟩
      | true => exact absurd rfl hv

theorem coe_map_middle (before after : List Waiter) (w : Waiter) :
    ((before ++ w :: after).map Ticket.waiter : Multiset Ticket) =
      {.waiter w} + ((before ++ after).map Ticket.waiter : Multiset Ticket) := by
  rw [List.map_append, List.map_cons, List.map_append, Multiset.singleton_add, Multiset.cons_coe]
  exact Multiset.coe_eq_coe.mpr List.perm_middle

/-- Levels below a level are entered before the level hears of an end. -/
def InOrder (queue : List Turn) : Prop :=
  queue.Pairwise fun a b => ∀ place i, a = .ended place → b ≠ .enter (place ++ [i])

theorem InOrder.append {queue turns : List Turn} (h : InOrder queue) (hturns : ∀ t ∈ turns, t.isEnter = false) :
    InOrder (queue ++ turns) := by
  refine List.pairwise_append.mpr ⟨h, ?_, fun a _ b hb place i _ => Turn.ne_enter (hturns b hb) _⟩
  exact List.pairwise_of_forall_mem_list fun a _ b hb place i _ => Turn.ne_enter (hturns b hb) _

theorem InOrder.concat {queue : List Turn} {t : Turn} (h : InOrder queue) (ht : t.isEnter = false) :
    InOrder (queue ++ [t]) :=
  h.append (List.forall_mem_singleton.mpr ht)

/-- A permit that is free has been handed on, if a load waits. -/
structure HandedOn (s s' : Turns σ) : Prop where
  machine_eq : s'.machine = s.machine
  handed : Handed s.tickets s'.tickets
  handed_le : handedOut s'.tickets ≤ s.machine.shared.permits
  woken : (∃ x ∈ s'.tickets, x.isWaiting = true) →
    s.machine.shared.permits ≤ handedOut s'.tickets ∨ 0 < handedOut s'.tickets
  order : InOrder s.queue → InOrder s'.queue

theorem handOn_spec (s : Turns σ) (hle : handedOut s.tickets ≤ s.machine.shared.permits) : HandedOn s s.handOn := by
  rw [handOn]
  split
  · next hfree =>
    rw [free_eq] at hfree
    exact ⟨rfl, .inl rfl, hle, fun _ => .inl (by omega), id⟩
  · next hfree =>
    rw [free_eq] at hfree
    split
    · next w waiters hhand =>
      obtain ⟨before, after, hbefore, hafter⟩ := hand_eq_some hhand
      obtain ⟨R, htickets, htickets'⟩ : ∃ R, s.tickets = {.waiter ⟨w.level, w.load, false⟩} + R ∧
          ({ s with waiters }.put [.permitted w.level w.load]).tickets =
            {.waiter ⟨w.level, w.load, true⟩, .turn (.permitted w.level w.load)} + R := by
        refine ⟨(s.queue.map Ticket.turn : Multiset Ticket) + ((before ++ after).map Ticket.waiter : Multiset Ticket),
          ?_, ?_⟩
        · rw [tickets, hbefore, coe_map_middle, add_left_comm]
        · rw [tickets_put_single, tickets, hafter, coe_map_middle, Multiset.insert_eq_cons, ← Multiset.singleton_add]
          ac_rfl
      refine ⟨rfl, .inr ⟨_, _, _, htickets, htickets'⟩, ?_, fun _ => ?_, fun horder => horder.concat rfl⟩
      · rw [htickets] at hfree hle
        rw [htickets']
        simp [Ticket.isHanded] at hfree hle ⊢
        omega
      · rw [htickets']
        simp [Ticket.isHanded]
    · next hhand =>
      refine ⟨rfl, .inl rfl, hle, ?_, id⟩
      rintro ⟨x, hx, hwaiting⟩
      cases x with
      | turn t => cases hwaiting
      | waiter w =>
        have hhanded := hand_eq_none hhand w (mem_tickets_waiter.mp hx)
        rw [Ticket.isWaiting, hhanded] at hwaiting
        cases hwaiting

namespace HandedOn

variable {s' : Turns σ} {waits permits m i : Nat} {place : List Nat} {l : Level} {tasks : List Task} {t : Task}

theorem kept (h : HandedOn s s') (hpermits : s.machine.shared.permits + calls s.tickets = permits) :
    PermitsKept permits s'.machine.shared.permits s'.tickets := by
  rw [h.machine_eq]
  exact ⟨h.handed.calls_eq.symm ▸ hpermits, h.handed_le, h.woken⟩

theorem frame (h : HandedOn s s') (hframe : LoadFrame waits s.machine.root place l tasks i t s.tickets m) :
    LoadFrame waits s'.machine.root place l tasks i t s'.tickets m := by
  rw [h.machine_eq]
  exact h.handed.frame hframe

end HandedOn

/-! ## Loads that go on -/

/-- All tickets are in the queue or among the loads that wait, and `m` turns are enough. -/
structure Orderly (waits permits : Nat) (s : Turns σ) (m : Nat) : Prop where
  holds : s.machine.root.Holds waits [] s.tickets m
  kept : PermitsKept permits s.machine.shared.permits s.tickets
  order : InOrder s.queue

variable {exec : Executor σ} {g : Graph} {waits permits i m count : Nat} {place : List Nat} {l : Level}
  {tasks : List Task}

theorem stepAt_eq {root : LevelState} {shared : Shared σ}
    (h : s.machine.root.step exec g place s.machine.shared = some (root, shared)) :
    s.stepAt exec g place = { s with machine := ⟨shared, root⟩ } := by
  rw [stepAt, Machine.step, h]
  rfl

/-- A load calls the store. -/
theorem orderly_call {q : BatchQuery} {next : Answer → Load}
    (hframe : LoadFrame waits s.machine.root place l tasks i (.running (.ask q next)) s.tickets m)
    (hasks : ∀ a, (next a).Asks count) (hfree : handedOut s.tickets < s.machine.shared.permits)
    (hpermits : s.machine.shared.permits + calls s.tickets = permits) (horder : InOrder s.queue) :
    Orderly waits permits (s.call exec g waits place i) (waits + 1 + (count * (waits + 2) + 1) + m) := by
  obtain ⟨n, hn⟩ := hframe.exists_node
  have hstep : Task.step exec g n l.rows s.machine.shared (.running (.ask q next)) =
      some (.calling q next, l.rows, { s.machine.shared with
        permits := s.machine.shared.permits - 1, issued := s.machine.shared.issued ++ [q] }) := by
    rw [Task.step, if_neg (by omega)]
  rw [call, stepAt_eq (hframe.step hn hstep)]
  have hhanded := handOn_spec { s with machine := ⟨{ s.machine.shared with
      permits := s.machine.shared.permits - 1, issued := s.machine.shared.issued ++ [q] },
      s.machine.root.put place (.loading l (tasks.set i (.calling q next)))⟩ }
    (show handedOut s.tickets ≤ s.machine.shared.permits - 1 by omega)
  have hframe' := hhanded.frame (hframe.set l.rows (.calling q next))
  have hkept := hhanded.kept (show s.machine.shared.permits - 1 + calls s.tickets = permits - 1 by omega)
  have horder' := hhanded.order horder
  generalize handOn _ = s' at hframe' hkept horder' ⊢
  refine ⟨?_, ?_, horder'.concat rfl⟩
  · rw [tickets_put_single]
    exact hframe'.holds_self (.calling hasks waits) (Multiset.singleton_ne_zero _)
  · rw [tickets_put_single]
    refine .of_turn ?_ hkept.handed_le hkept.woken
    have hpermits' := hkept.permits_eq
    show s'.machine.shared.permits + (calls s'.tickets + 1) = permits
    omega

/-- A load that has nothing more to ask links the rows and ends. -/
theorem orderly_advance_done {r : Except Fault Linking}
    (hframe : LoadFrame waits s.machine.root place l tasks i (.running (.done r)) s.tickets m)
    (hkept : PermitsKept permits s.machine.shared.permits s.tickets) (horder : InOrder s.queue) :
    Orderly waits permits (s.advance exec g waits place i) (1 + m) := by
  obtain ⟨n, hn⟩ := hframe.exists_node
  have hnone : s.announcement? place i = none := by
    rw [announcement?, hframe.at_eq]
    simp only [hn, hframe.task_eq]
  have hstep : Task.step exec g n l.rows s.machine.shared (.running (.done r)) =
      some (.finished (r >>= (·.attachment l.rows)), rowsAfter n.key l.rows r, s.machine.shared) := rfl
  rw [advance, hnone, stepAt_eq (hframe.step hn hstep)]
  refine ⟨?_, ?_, horder.concat rfl⟩
  · rw [tickets_put_single]
    exact hframe.holds _ _ _ _ (.ended _) (Multiset.singleton_ne_zero _)
  · rw [tickets_put_single]
    exact hkept.turn rfl

theorem tickets_wait (s : Turns σ) (w : Waiter) :
    ({ s with waiters := s.waiters ++ [w] } : Turns σ).tickets = {.waiter w} + s.tickets := by
  rw [tickets, coe_map_middle, List.append_nil, add_left_comm]
  rfl

/-- A load waits for a permit, since none is free or others wait already. -/
theorem orderly_wait {q : BatchQuery} {next : Answer → Load}
    (hframe : LoadFrame waits s.machine.root place l tasks i (.running (.ask q next)) s.tickets m)
    (hasks : ∀ a, (next a).Asks count) (hkept : PermitsKept permits s.machine.shared.permits s.tickets)
    (horder : InOrder s.queue) (hwait : s.free = 0 ∨ s.waiters ≠ []) :
    Orderly waits permits { s with waiters := s.waiters ++ [⟨place, i, false⟩] }
      ((count + 1) * (waits + 2) + 1 + m) := by
  have hhanded : handedOut ({.waiter ⟨place, i, false⟩} + s.tickets) = handedOut s.tickets := by
    rw [handedOut_add, handedOut_singleton]
    exact Nat.zero_add _
  refine ⟨?_, ?_, horder⟩
  · rw [tickets_wait]
    exact hframe.holds_self (.asking hasks) (Multiset.singleton_ne_zero _)
  · rw [tickets_wait]
    refine ⟨?_, ?_, fun _ => ?_⟩
    · rw [calls_add, calls_singleton]
      show s.machine.shared.permits + (0 + calls s.tickets) = permits
      rw [Nat.zero_add]
      exact hkept.permits_eq
    · rw [hhanded]
      exact hkept.handed_le
    · rw [hhanded]
      rcases hwait with hfree | hwaiters
      · rw [free_eq] at hfree
        exact .inl (Nat.sub_eq_zero_iff_le.mp hfree)
      · obtain ⟨w, hw⟩ := List.exists_mem_of_ne_nil _ hwaiters
        have hmem := mem_tickets_waiter.mpr hw
        cases hw : w.handed with
        | true => exact .inr (Multiset.countP_pos.mpr ⟨_, hmem, hw⟩)
        | false => exact hkept.woken ⟨_, hmem, by rw [Ticket.isWaiting, hw]; rfl⟩

/-- A load with a query waits for a permit, or takes one that is free. -/
theorem orderly_advance_ask {q : BatchQuery} {next : Answer → Load}
    (hframe : LoadFrame waits s.machine.root place l tasks i (.running (.ask q next)) s.tickets m)
    (hasks : ∀ a, (next a).Asks count) (hkept : PermitsKept permits s.machine.shared.permits s.tickets)
    (horder : InOrder s.queue) :
    ∃ m' ≤ (count + 1) * (waits + 2) + 1 + m, Orderly waits permits (s.advance exec g waits place i) m' := by
  obtain ⟨n, hn⟩ := hframe.exists_node
  have hsome : s.announcement? place i = some (.query (l.path ++ [n.key]) n.step q) := by
    rw [announcement?, hframe.at_eq]
    simp only [hn, hframe.task_eq]
  rw [advance, hsome]
  dsimp only
  split
  · next hwait =>
    rw [Bool.or_eq_true, decide_eq_true_iff, Bool.not_eq_true', List.isEmpty_eq_false_iff] at hwait
    exact ⟨_, Nat.le_refl _, orderly_wait (s := { s with events := s.events ++ [.query (l.path ++ [n.key]) n.step q] })
      hframe hasks hkept horder hwait⟩
  · next hnowait =>
    rw [Bool.or_eq_true, decide_eq_true_iff, not_or] at hnowait
    have hfree : s.free ≠ 0 := hnowait.1
    rw [free_eq] at hfree
    refine ⟨_, ?_, orderly_call (s := { s with events := s.events ++ [.query (l.path ++ [n.key]) n.step q] })
      hframe hasks ?_ hkept.permits_eq horder⟩
    · rw [Nat.succ_mul]
      omega
    · show handedOut s.tickets < s.machine.shared.permits
      omega

variable (exec g) in
/-- A load goes on with what it has to do next. -/
theorem orderly_advance {load : Load}
    (hframe : LoadFrame waits s.machine.root place l tasks i (.running load) s.tickets m)
    (hasks : load.Asks count) (hkept : PermitsKept permits s.machine.shared.permits s.tickets)
    (horder : InOrder s.queue) :
    ∃ m' ≤ count * (waits + 2) + 1 + m, Orderly waits permits (s.advance exec g waits place i) m' := by
  cases hasks with
  | done r => exact ⟨_, by omega, orderly_advance_done hframe hkept horder⟩
  | ask hnext => exact orderly_advance_ask hframe hnext hkept horder

/-! ## Taking a turn -/

/-- A turn has been taken from the front of the queue and is due. -/
structure Due (waits permits : Nat) (t : Turn) (s : Turns σ) (m : Nat) : Prop where
  holds : s.machine.root.Holds waits [] ({.turn t} + s.tickets) m
  kept : PermitsKept permits s.machine.shared.permits ({.turn t} + s.tickets)
  order : InOrder (t :: s.queue)

theorem Orderly.due {t : Turn} {queue : List Turn} (h : Orderly waits permits s m) (hqueue : s.queue = t :: queue) :
    Due waits permits t { s with queue } m := by
  have htickets : s.tickets = {.turn t} + ({ s with queue } : Turns σ).tickets := by
    rw [tickets, hqueue, List.map_cons, ← Multiset.cons_coe, ← Multiset.singleton_add, add_assoc]
    rfl
  obtain ⟨hholds, hkept, horder⟩ := h
  rw [htickets] at hholds hkept
  rw [hqueue] at horder
  exact ⟨hholds, hkept, horder⟩

namespace Due

variable {t : Turn}

theorem order_tail (h : Due waits permits t s m) : InOrder s.queue :=
  (List.pairwise_cons.mp h.order).2

/-- A turn of a load leads to the load. -/
theorem find_load (h : Due waits permits t s m) (hload : (Ticket.turn t).load? = some (place, i)) :
    ∃ l tasks task T₁ m₁ T₂ m₂, LoadFrame waits s.machine.root place l tasks i task T₂ m₂ ∧
      task.Holds waits place i T₁ m₁ ∧ .turn t ∈ T₁ ∧ {.turn t} + s.tickets = T₁ + T₂ ∧ m = m₁ + m₂ :=
  h.holds.find_load (Multiset.mem_add.mpr (.inl (Multiset.mem_singleton_self _))) hload

end Due

/-- A load looks at the rows. -/
theorem take_start (h : Due waits permits (.start place i) s m) :
    ∃ m' < m, Orderly waits permits (s.take exec g waits (.start place i)) m' := by
  obtain ⟨l, tasks, task, T₁, m₁, T₂, m₂, hframe, htask, hx, hT, rfl⟩ := h.find_load rfl
  cases htask with
  | waiting =>
    cases add_left_cancel hT
    obtain ⟨n, hn⟩ := hframe.exists_node
    have hstep : Task.step exec g n l.rows s.machine.shared .waiting =
        some (.running (n.load g l.rows), l.rows, s.machine.shared) := rfl
    rw [take, stepAt_eq (hframe.step hn hstep)]
    obtain ⟨m', hle, horderly⟩ := orderly_advance (s := { s with machine := ⟨s.machine.shared, _⟩ }) exec g
      (hframe.set l.rows _) (n.asks_load g l.rows) (h.kept.of_add rfl) h.order_tail
    exact ⟨m', by omega, horderly⟩
  | permitted _ => simp at hx
  | told => exact absurd hx (Multiset.notMem_zero _)
  | _ => cases Multiset.mem_singleton.mp hx

/-- A call waits on. -/
theorem take_waited_succ {left : Nat} (h : Due waits permits (.waited place i (left + 1)) s m) :
    ∃ m' < m, Orderly waits permits (s.take exec g waits (.waited place i (left + 1))) m' := by
  obtain ⟨l, tasks, task, T₁, m₁, T₂, m₂, hframe, htask, hx, hT, rfl⟩ := h.find_load rfl
  obtain ⟨query, next, count, rfl, hasks, rfl, rfl⟩ := htask.of_waited hx
  obtain ⟨hpermits, hle, hwoken⟩ := h.kept.without_turn
  cases add_left_cancel hT
  refine ⟨left + 1 + (count * (waits + 2) + 1) + m₂, by omega, ?_, ?_, h.order_tail.concat rfl⟩
  · rw [take, tickets_put_single]
    exact hframe.holds_self (.calling hasks left) (Multiset.singleton_ne_zero _)
  · rw [take, tickets_put_single]
    exact .of_turn hpermits hle hwoken

/-- A call is answered, and its permit wakes a load. -/
theorem take_waited_zero (h : Due waits permits (.waited place i 0) s m) :
    ∃ m' < m, Orderly waits permits (s.take exec g waits (.waited place i 0)) m' := by
  obtain ⟨l, tasks, task, T₁, m₁, T₂, m₂, hframe, htask, hx, hT, rfl⟩ := h.find_load rfl
  obtain ⟨query, next, count, rfl, hasks, rfl, rfl⟩ := htask.of_waited hx
  obtain ⟨hpermits, hle, hwoken⟩ := h.kept.without_turn
  cases add_left_cancel hT
  obtain ⟨n, hn⟩ := hframe.exists_node
  rcases hexec : exec s.machine.shared.store (.batch query) with ⟨answer, store⟩
  have hstep : Task.step exec g n l.rows s.machine.shared (.calling query next) =
      some (.running (next answer), l.rows,
        { s.machine.shared with store, permits := s.machine.shared.permits + 1 }) := by
    rw [Task.step, hexec]
  rw [take, stepAt_eq (hframe.step hn hstep)]
  rw [Ticket.isCall, if_pos rfl] at hpermits
  have hhanded := handOn_spec { s with machine := ⟨{ s.machine.shared with
      store, permits := s.machine.shared.permits + 1 },
      s.machine.root.put place (.loading l (tasks.set i (.running (next answer))))⟩ }
    (show handedOut s.tickets ≤ s.machine.shared.permits + 1 by omega)
  have hframe' := hhanded.frame (hframe.set l.rows (.running (next answer)))
  have hkept := hhanded.kept (show s.machine.shared.permits + 1 + calls s.tickets = permits by omega)
  obtain ⟨m', hm', horderly⟩ := orderly_advance exec g hframe' (hasks answer) hkept (hhanded.order h.order_tail)
  exact ⟨m', by omega, horderly⟩

/-- A load no longer waits. -/
theorem tickets_filter {T : Multiset Ticket} (hT : s.tickets = {.waiter ⟨place, i, true⟩} + T)
    (hapart : ∀ x ∈ T, x.load? ≠ some (place, i)) :
    ({ s with waiters := s.waiters.filter fun w => w.level ≠ place || w.load ≠ i } : Turns σ).tickets = T := by
  have hmem : ⟨place, i, true⟩ ∈ s.waiters :=
    mem_tickets_waiter.mp (hT ▸ Multiset.mem_add.mpr (.inl (Multiset.mem_singleton_self _)))
  obtain ⟨before, after, hwaiters⟩ := List.append_of_mem hmem
  rw [tickets, hwaiters, coe_map_middle, add_left_comm] at hT
  have hT := add_left_cancel hT
  have hkeep : ∀ w ∈ before ++ after, (decide (w.level ≠ place) || decide (w.load ≠ i)) = true := by
    intro w hw
    have hload := hapart (.waiter w) (hT ▸ Multiset.mem_add.mpr (.inr (List.mem_map_of_mem hw)))
    rw [Bool.or_eq_true, decide_eq_true_iff, decide_eq_true_iff, ← not_and_or]
    rintro ⟨rfl, rfl⟩
    exact hload rfl
  have hfilter : (s.waiters.filter fun w => w.level ≠ place || w.load ≠ i) = before ++ after := by
    rw [hwaiters, List.filter_append, List.filter_cons_of_neg (by simp), ← List.filter_append]
    exact List.filter_eq_self.mpr hkeep
  rw [tickets, hfilter]
  exact hT

/-- A load uses the permit that it was handed. -/
theorem take_permitted (h : Due waits permits (.permitted place i) s m) :
    ∃ m' < m, Orderly waits permits (s.take exec g waits (.permitted place i)) m' := by
  obtain ⟨l, tasks, task, T₁, m₁, T₂, m₂, hframe, htask, hx, hT, rfl⟩ := h.find_load rfl
  obtain ⟨hpermits, hle, -⟩ := h.kept.without_turn
  cases htask with
  | @permitted query next count hasks =>
    rw [Multiset.insert_eq_cons, ← Multiset.singleton_add, add_right_comm, add_comm (_ + _) {_}] at hT
    replace hT := add_left_cancel hT
    have hfilter := tickets_filter hT hframe.apart
    have hcalls : calls s.tickets = calls T₂ := by
      rw [hT]
      simp [Ticket.isCall]
    have hhanded : handedOut s.tickets = handedOut T₂ + 1 := by
      rw [hT]
      simp [Ticket.isHanded]
    have hpermits' : s.machine.shared.permits + calls T₂ = permits := hcalls ▸ hpermits
    have hfree : handedOut T₂ < s.machine.shared.permits := by omega
    rw [← hfilter] at hframe hpermits' hfree
    refine ⟨_, ?_, orderly_call hframe hasks hfree hpermits' h.order_tail⟩
    rw [Nat.succ_mul]
    omega
  | told => exact absurd hx (Multiset.notMem_zero _)
  | _ => cases Multiset.mem_singleton.mp hx

end Turns

end RelatedRows

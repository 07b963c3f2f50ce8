import Mathlib.Algebra.BigOperators.Group.Finset.Basic
import Mathlib.Algebra.Order.BigOperators.Group.Finset
import Mathlib.Algebra.Ring.Nat
import Mathlib.Data.Multiset.Count
import RelatedRows.Proofs.Schedules
import RelatedRows.Stitch.Turns

/-!
# Tickets

A load or a level that is not done goes on because a turn for it stands in the queue, or because it is in the queue for
permits.  Such a turn or waiter is a ticket, and every ticket belongs to one load or one level.

* `Task.Holds`, `LevelState.Holds`: the tickets that belong to a load, or to a level and everything below it, and a
  number of turns that is enough for them.
* `LevelState.Holds.find`: a ticket leads to the level it belongs to.
* `LevelState.Frame`: a level can be replaced, with its tickets, by what it has become.
-/

namespace RelatedRows

/-- Something by which a load or a level goes on. -/
inductive Ticket where
  | turn (t : Turn)
  | waiter (w : Waiter)

/-- The level that a turn is about. -/
def Turn.place : Turn → List Nat
  | .enter level => level
  | .start level _ => level
  | .permitted level _ => level
  | .waited level _ _ => level
  | .ended level => level
  | .proceed level => level

def Turn.isEnter : Turn → Bool
  | .enter _ => true
  | _ => false

theorem Turn.ne_enter {t : Turn} (h : t.isEnter = false) (place : List Nat) : t ≠ .enter place := by
  rintro rfl
  cases h

namespace Ticket

def place : Ticket → List Nat
  | .turn t => t.place
  | .waiter w => w.level

/-- The load that a ticket is about, with the place of its level. -/
def load? : Ticket → Option (List Nat × Nat)
  | .turn (.start level load) => some (level, load)
  | .turn (.permitted level load) => some (level, load)
  | .turn (.waited level load _) => some (level, load)
  | .turn _ => none
  | .waiter w => some (w.level, w.load)

/-- A call is in progress. -/
def isCall : Ticket → Bool
  | .turn (.waited ..) => true
  | _ => false

/-- A load has been handed a permit that it does not use yet. -/
def isHanded : Ticket → Bool
  | .waiter w => w.handed
  | _ => false

/-- A load waits for a permit. -/
def isWaiting : Ticket → Bool
  | .waiter w => !w.handed
  | _ => false

end Ticket

/-! ## Queries of a load -/

/-- A dialogue that puts no more than some number of queries. -/
inductive Dialogue.Asks {α : Type} : Nat → Dialogue α → Prop
  | done {count : Nat} (result : α) : Asks count (.done result)
  | ask {count : Nat} {query : BatchQuery} {next : Answer → Dialogue α} (h : ∀ a, (next a).Asks count) :
    Asks (count + 1) (.ask query next)

namespace Stitch

variable (g : Graph) (n : PlanNode) (rows : List Row)

theorem asks_loadOne : (loadOne n rows).Asks 2 := by
  rw [loadOne]
  split
  · exact .done _
  · exact .done _
  · exact .ask fun _ => .done _

theorem asks_loadMany : (loadMany g n rows).Asks 2 := by
  rw [loadMany]
  split
  · exact .done _
  · exact .done _
  · exact .ask fun _ => .done _

theorem asks_loadTargets (joins : List KeyedRow) : (loadTargets g n joins).Asks 1 := by
  rw [loadTargets]
  split
  · exact .done _
  · exact .ask fun _ => .done _

theorem asks_loadManyViaJoin : (loadManyViaJoin g n rows).Asks 2 := by
  rw [loadManyViaJoin]
  split
  · exact .done _
  split
  · exact .done _
  · exact .done _
  · refine .ask fun a => ?_
    split
    · exact .done _
    · exact asks_loadTargets g n _

end Stitch

theorem PlanNode.asks_load (n : PlanNode) (g : Graph) (rows : List Row) : (n.load g rows).Asks 2 := by
  rw [PlanNode.load]
  split
  · exact Stitch.asks_loadOne n rows
  · exact Stitch.asks_loadMany g n rows
  · exact Stitch.asks_loadManyViaJoin g n rows

/-! ## Tickets of loads and levels -/

/-- The tickets of a load, and a number of turns that is enough for it to end and for its level to hear of it. -/
inductive Task.Holds (waits : Nat) (place : List Nat) (i : Nat) : Task → Multiset Ticket → Nat → Prop
  | waiting : Holds waits place i .waiting {.turn (.start place i)} (2 * waits + 6)
  | asking {query : BatchQuery} {next : Answer → Load} {count : Nat} (h : ∀ a, (next a).Asks count) :
    Holds waits place i (.running (.ask query next)) {.waiter ⟨place, i, false⟩} ((count + 1) * (waits + 2) + 1)
  | permitted {query : BatchQuery} {next : Answer → Load} {count : Nat} (h : ∀ a, (next a).Asks count) :
    Holds waits place i (.running (.ask query next)) {.waiter ⟨place, i, true⟩, .turn (.permitted place i)}
      ((count + 1) * (waits + 2) + 1)
  | calling {query : BatchQuery} {next : Answer → Load} {count : Nat} (h : ∀ a, (next a).Asks count) (left : Nat) :
    Holds waits place i (.calling query next) {.turn (.waited place i left)} (left + 1 + (count * (waits + 2) + 1))
  | ended (r : Except Fault Attachment) : Holds waits place i (.finished r) {.turn (.ended place)} 1
  | told (r : Except Fault Attachment) : Holds waits place i (.finished r) 0 0

/-- Enough turns for the levels below some nodes. -/
def turnsBelow (waits : Nat) (nodes : List PlanNode) : Nat :=
  (nodes.map fun n => (2 * waits + 10) * n.size + 4).sum

/-- The tickets of a level and of everything below it, and a number of turns that is enough for all that and for the
level above to hear of it.  There is always a ticket as long as the level has not finished. -/
inductive LevelState.Holds (waits : Nat) : List Nat → LevelState → Multiset Ticket → Nat → Prop
  | outside {place : List Nat} {l : Level} (hplace : place ≠ []) (hnodes : l.nodes ≠ []) :
    Holds waits place (.loading l (l.nodes.map fun _ => .waiting)) {.turn (.enter place)}
      ((2 * waits + 10) * nodesSize l.nodes + 4)
  | loading {place : List Nat} {l : Level} {tasks : List Task} {T : Nat → Multiset Ticket} {m : Nat → Nat}
    (hlen : tasks.length = l.nodes.length)
    (h : ∀ (i : Nat) t, tasks[i]? = some t → t.Holds waits place i (T i) (m i))
    (hne : ∑ i ∈ Finset.range tasks.length, T i ≠ 0) :
    Holds waits place (.loading l tasks) (∑ i ∈ Finset.range tasks.length, T i)
      (∑ i ∈ Finset.range tasks.length, m i + (turnsBelow waits l.nodes + 3))
  | loaded {place : List Nat} {l : Level} {tasks : List Task} (hlen : tasks.length = l.nodes.length)
    (h : ∀ t ∈ tasks, t.result?.isSome = true) :
    Holds waits place (.loading l tasks) {.turn (.proceed place)} (turnsBelow waits l.nodes + 3)
  | nesting {place : List Nat} {path : List String} {rows : List Row} {loaded : List Loaded} {below : List LevelState}
    {T : Nat → Multiset Ticket} {m : Nat → Nat}
    (h : ∀ (i : Nat) b, below[i]? = some b → Holds waits (place ++ [i]) b (T i) (m i))
    (hne : ∑ i ∈ Finset.range below.length, T i ≠ 0) :
    Holds waits place (.nesting path rows loaded below) (∑ i ∈ Finset.range below.length, T i)
      (∑ i ∈ Finset.range below.length, m i + 2)
  | nested {place : List Nat} {path : List String} {rows : List Row} {loaded : List Loaded} {below : List LevelState}
    (h : ∀ b ∈ below, b.result?.isSome = true) :
    Holds waits place (.nesting path rows loaded below) {.turn (.proceed place)} 2
  | idle {place : List Nat} (r : Except Fault (List Row)) (hplace : place ≠ []) :
    Holds waits place (.finished r) {.turn (.enter place)} 2
  | ended {place : List Nat} (r : Except Fault (List Row)) (hplace : place ≠ []) :
    Holds waits place (.finished r) {.turn (.ended place.dropLast)} 1
  | told {place : List Nat} (r : Except Fault (List Row)) : Holds waits place (.finished r) 0 0

/-! ## Sums over places -/

section Sums

variable {α : Type} [AddCommMonoid α] {f : Nat → α} {i count : Nat}

theorem sum_range_update (hi : i < count) (x : α) :
    ∑ j ∈ Finset.range count, Function.update f i x j = x + ∑ j ∈ (Finset.range count).erase i, f j := by
  rw [← Finset.add_sum_erase _ _ (Finset.mem_range.mpr hi), Function.update_self]
  refine congrArg (x + ·) (Finset.sum_congr rfl fun j hj => ?_)
  exact Function.update_of_ne (Finset.ne_of_mem_erase hj) x f

theorem sum_range_eq (hi : i < count) :
    ∑ j ∈ Finset.range count, f j = f i + ∑ j ∈ (Finset.range count).erase i, f j :=
  (Finset.add_sum_erase _ _ (Finset.mem_range.mpr hi)).symm

theorem sum_erase_eq_zero {f : Nat → Multiset Ticket} {i count : Nat}
    (h : ∑ j ∈ (Finset.range count).erase i, f j = 0) {j : Nat} (hj : j < count) (hji : j ≠ i) : f j = 0 :=
  Finset.sum_eq_zero_iff.mp h j (Finset.mem_erase.mpr ⟨hji, Finset.mem_range.mpr hj⟩)

/-- What belongs to each place of a list, after one place has changed. -/
theorem forall_set_update {β γ δ : Type} {P : Nat → β → γ → δ → Prop} {xs : List β} {f : Nat → γ} {g : Nat → δ}
    (h : ∀ (j : Nat) x, xs[j]? = some x → P j x (f j) (g j)) {i : Nat} {x : β} {y : γ} {z : δ} (hx : P i x y z) :
    ∀ (j : Nat) x', (xs.set i x)[j]? = some x' → P j x' (Function.update f i y j) (Function.update g i z j) := by
  intro j x' hx'
  by_cases hij : i = j
  · subst hij
    have hi : i < xs.length := List.length_set ▸ (List.getElem?_eq_some_iff.mp hx').1
    rw [List.getElem?_set_self hi] at hx'
    cases hx'
    rwa [Function.update_self, Function.update_self]
  · rw [List.getElem?_set_ne hij] at hx'
    rw [Function.update_of_ne (Ne.symm hij), Function.update_of_ne (Ne.symm hij)]
    exact h j x' hx'

end Sums

namespace LevelState

section Changes

variable {waits : Nat} {place : List Nat} {l : Level} {tasks : List Task} {path : List String} {rows : List Row}
  {loaded : List Loaded} {below : List LevelState} {T : Nat → Multiset Ticket} {m : Nat → Nat} {T' : Multiset Ticket}
  {i m' : Nat}

/-- One load of a level has changed, and the level still has a ticket. -/
theorem Holds.set_load (hlen : tasks.length = l.nodes.length)
    (h : ∀ (j : Nat) t, tasks[j]? = some t → t.Holds waits place j (T j) (m j)) (hi : i < tasks.length)
    (rows : List Row) {t : Task} (ht : t.Holds waits place i T' m')
    (hne : T' + ∑ j ∈ (Finset.range tasks.length).erase i, T j ≠ 0) :
    (LevelState.loading { l with rows } (tasks.set i t)).Holds waits place
      (T' + ∑ j ∈ (Finset.range tasks.length).erase i, T j)
      (m' + (∑ j ∈ (Finset.range tasks.length).erase i, m j + (turnsBelow waits l.nodes + 3))) := by
  have hnew := Holds.loading (l := { l with rows }) ((List.length_set ..).trans hlen) (forall_set_update h ht)
  rw [List.length_set, sum_range_update hi, sum_range_update hi, add_assoc m'] at hnew
  exact hnew hne

variable (path rows loaded) in
/-- One level below a level has changed, and the level still has a ticket. -/
theorem Holds.set_below (h : ∀ (j : Nat) b, below[j]? = some b → b.Holds waits (place ++ [j]) (T j) (m j))
    (hi : i < below.length) {b : LevelState} (hb : b.Holds waits (place ++ [i]) T' m')
    (hne : T' + ∑ j ∈ (Finset.range below.length).erase i, T j ≠ 0) :
    (LevelState.nesting path rows loaded (below.set i b)).Holds waits place
      (T' + ∑ j ∈ (Finset.range below.length).erase i, T j)
      (m' + (∑ j ∈ (Finset.range below.length).erase i, m j + 2)) := by
  have hnew := @Holds.nesting waits place path rows loaded _ _ _ (forall_set_update h hb)
  rw [List.length_set, sum_range_update hi, sum_range_update hi, add_assoc m'] at hnew
  exact hnew hne

end Changes

/-! ## A level in its tree -/

/-- Another level in the place of one. -/
def put : (place : List Nat) → (root new : LevelState) → LevelState
  | [], _, new => new
  | i :: place, .nesting path rows loaded below, new =>
    .nesting path rows loaded (below.modify i fun b => b.put place new)
  | _ :: _, root, _ => root

variable {root st st' : LevelState} {place rest : List Nat}

theorem modify_eq_set {α : Type} {xs : List α} {i : Nat} {x : α} (h : xs[i]? = some x) (f : α → α) :
    xs.modify i f = xs.set i (f x) := by
  rw [List.modify_eq_set_getElem?, h]
  rfl

theorem put_put (place : List Nat) (a b root : LevelState) : (root.put place a).put place b = root.put place b := by
  induction place generalizing root with
  | nil => rfl
  | cons i place ih =>
    cases root with
    | nesting path rows loaded below =>
      rw [put, put, put, List.modify_modify_eq]
      exact congrArg (fun f => nesting path rows loaded (below.modify i f)) (funext ih)
    | _ => rfl

theorem exists_of_at? {i : Nat} (h : root.at? (i :: place) = some st) :
    ∃ path rows loaded below b, root = .nesting path rows loaded below ∧ below[i]? = some b ∧
      b.at? place = some st := by
  cases root with
  | nesting path rows loaded below =>
    rw [at?] at h
    obtain ⟨b, hb, hat⟩ := Option.bind_eq_some_iff.mp h
    exact ⟨path, rows, loaded, below, b, rfl, hb, hat⟩
  | _ => cases h

theorem put_self (h : root.at? place = some st) : root.put place st = root := by
  induction place generalizing root with
  | nil => exact (Option.some.inj h).symm
  | cons i place ih =>
    obtain ⟨path, rows, loaded, below, b, rfl, hb, hat⟩ := exists_of_at? h
    obtain ⟨hi, rfl⟩ := List.getElem?_eq_some_iff.mp hb
    rw [put, modify_eq_set hb, ih hat, List.set_getElem_self]

theorem at?_put (h : root.at? place = some st) (new : LevelState) : (root.put place new).at? place = some new := by
  induction place generalizing root with
  | nil => rfl
  | cons i place ih =>
    obtain ⟨path, rows, loaded, below, b, rfl, hb, hat⟩ := exists_of_at? h
    rw [put, at?, List.getElem?_modify_eq, hb]
    exact ih hat

/-- A step of a level is one of the tree. -/
theorem step_put {σ : Type} {exec : Executor σ} {g : Graph} {s s' : Shared σ} (h : root.at? place = some st)
    (hstep : st.step exec g rest s = some (st', s')) :
    root.step exec g (place ++ rest) s = some (root.put place st', s') := by
  induction place generalizing root with
  | nil =>
    cases h
    exact hstep
  | cons i place ih =>
    obtain ⟨path, rows, loaded, below, b, rfl, hb, hat⟩ := exists_of_at? h
    rw [List.cons_append, step, hb, put]
    simp only [Option.bind_eq_bind, Option.bind_some, ih hat, modify_eq_set hb]
    rfl

end LevelState

/-! ## Where a ticket belongs -/

namespace Ticket

variable {x : Ticket} {place : List Nat} {i : Nat}

theorem place_of_load? (h : x.load? = some (place, i)) : x.place = place := by
  cases x with
  | waiter w =>
    cases h
    rfl
  | turn t => cases t <;> cases h <;> rfl

end Ticket

namespace Task.Holds

variable {waits i m : Nat} {place : List Nat} {t : Task} {T : Multiset Ticket} {x : Ticket}

/-- The tickets of a load are about the load, but for what is to be heard of in its level. -/
theorem load?_eq (h : t.Holds waits place i T m) (hx : x ∈ T) :
    x.load? = some (place, i) ∨ x = .turn (.ended place) := by
  cases h with
  | permitted _ =>
    rcases Multiset.mem_cons.mp hx with rfl | hx
    · exact .inl rfl
    · cases Multiset.mem_singleton.mp hx
      exact .inl rfl
  | ended r => exact .inr (Multiset.mem_singleton.mp hx)
  | told => exact absurd hx (Multiset.notMem_zero x)
  | _ =>
    cases Multiset.mem_singleton.mp hx
    exact .inl rfl

theorem place_eq (h : t.Holds waits place i T m) (hx : x ∈ T) : x.place = place := by
  rcases h.load?_eq hx with hload | rfl
  · exact Ticket.place_of_load? hload
  · rfl

theorem of_ended (h : t.Holds waits place i T m) (hx : .turn (.ended place) ∈ T) :
    (∃ r, t = .finished r) ∧ T = {.turn (.ended place)} ∧ m = 1 := by
  cases h with
  | permitted _ => simp at hx
  | ended r => exact ⟨⟨r, rfl⟩, rfl, rfl⟩
  | told => exact absurd hx (Multiset.notMem_zero _)
  | _ => cases Multiset.mem_singleton.mp hx

theorem of_waited {left : Nat} (h : t.Holds waits place i T m) (hx : .turn (.waited place i left) ∈ T) :
    ∃ query next count, t = .calling query next ∧ (∀ a, (next a).Asks count) ∧ T = {.turn (.waited place i left)} ∧
      m = left + 1 + (count * (waits + 2) + 1) := by
  cases h with
  | @calling query next count hasks left' =>
    cases Multiset.mem_singleton.mp hx
    exact ⟨query, next, count, rfl, hasks, rfl, rfl⟩
  | permitted _ => simp at hx
  | told => exact absurd hx (Multiset.notMem_zero _)
  | _ => cases Multiset.mem_singleton.mp hx

/-- A load that has ended has at most to be heard of. -/
theorem of_isSome (h : t.Holds waits place i T m) (ht : t.result?.isSome = true) :
    .turn (.ended place) ∈ T ∨ T = 0 := by
  cases h with
  | ended r => exact .inl (Multiset.mem_singleton_self _)
  | told r => exact .inr rfl
  | _ => cases ht

theorem of_zero (h : t.Holds waits place i 0 m) : t.result?.isSome = true ∧ m = 0 := by
  generalize hT : (0 : Multiset Ticket) = T at h
  cases h with
  | told r => exact ⟨rfl, rfl⟩
  | permitted _ => cases Multiset.zero_ne_cons hT
  | _ => cases Multiset.zero_ne_singleton _ hT

end Task.Holds

namespace LevelState

variable {root st : LevelState} {waits m : Nat} {place rest : List Nat} {T : Multiset Ticket} {x : Ticket}

/-- Around a level that may change: what the rest of the tree holds. -/
structure Frame (waits : Nat) (place : List Nat) (root : LevelState) (rest : List Nat) (T : Multiset Ticket) (m : Nat) :
    Prop where
  apart : ∀ x ∈ T, ¬place ++ rest <+: x.place
  holds : ∀ st T' m', st.Holds waits (place ++ rest) T' m' → (T' ≠ 0 ∨ rest = []) →
    (root.put rest st).Holds waits place (T' + T) (m' + m)

theorem Frame.refl (waits : Nat) (place : List Nat) (root : LevelState) : Frame waits place root [] 0 0 where
  apart x hx := absurd hx (Multiset.notMem_zero x)
  holds st T' m' h _ := by
    rw [List.append_nil] at h
    rwa [add_zero]

theorem Frame.put (h : Frame waits place root rest T m) (st : LevelState) :
    Frame waits place (root.put rest st) rest T m where
  apart := h.apart
  holds st' T' m' hst' hne := by
    rw [put_put]
    exact h.holds st' T' m' hst' hne

/-- The level that a ticket belongs to. -/
structure Found (waits : Nat) (place : List Nat) (root : LevelState) (T : Multiset Ticket) (m : Nat) (rest : List Nat)
    (st : LevelState) (T₁ : Multiset Ticket) (m₁ : Nat) (T₂ : Multiset Ticket) (m₂ : Nat) : Prop where
  at_eq : root.at? rest = some st
  holds : st.Holds waits (place ++ rest) T₁ m₁
  tickets_eq : T = T₁ + T₂
  turns_eq : m = m₁ + m₂
  frame : Frame waits place root rest T₂ m₂

theorem Holds.found_self (h : root.Holds waits place T m) : Found waits place root T m [] root T m 0 0 where
  at_eq := rfl
  holds := by rwa [List.append_nil]
  tickets_eq := (add_zero T).symm
  turns_eq := (Nat.add_zero m).symm
  frame := .refl waits place root

/-- Around a level below a node of a level. -/
theorem Frame.below {path : List String} {rows : List Row} {loaded : List Loaded} {below : List LevelState}
    {T : Nat → Multiset Ticket} {m : Nat → Nat}
    (h : ∀ (j : Nat) b, below[j]? = some b → b.Holds waits (place ++ [j]) (T j) (m j))
    (hplaced : ∀ j, j < below.length → ∀ x ∈ T j, x.place = place ∨ place ++ [j] <+: x.place) {i : Nat}
    {b : LevelState} (hb : below[i]? = some b) {T₂ : Multiset Ticket} {m₂ : Nat}
    (hframe : Frame waits (place ++ [i]) b rest T₂ m₂) :
    Frame waits place (.nesting path rows loaded below) (i :: rest)
      (T₂ + ∑ j ∈ (Finset.range below.length).erase i, T j)
      (m₂ + (∑ j ∈ (Finset.range below.length).erase i, m j + 2)) := by
  have hi : i < below.length := (List.getElem?_eq_some_iff.mp hb).1
  refine ⟨fun x hx hprefix => ?_, fun st T' m' hst hne => ?_⟩
  · rcases Multiset.mem_add.mp hx with hx | hx
    · exact hframe.apart x hx (by rwa [List.append_assoc])
    · obtain ⟨j, hj, hx⟩ := Multiset.mem_sum.mp hx
      obtain ⟨hji, hj⟩ := Finset.mem_erase.mp hj
      rcases hplaced j (Finset.mem_range.mp hj) x hx with heq | hother
      · have hlen := hprefix.length_le
        rw [heq, List.length_append, List.length_cons] at hlen
        omega
      · have hi' : place ++ [i] <+: x.place := .trans ⟨rest, by rw [List.append_assoc]; rfl⟩ hprefix
        have heq := List.prefix_of_prefix_length_le hi' hother (by simp)
        exact hji (List.cons.inj (List.append_cancel_left (heq.eq_of_length (by simp)))).1.symm
  · have hT : T' ≠ 0 := hne.resolve_right (by simp)
    have hchild := hframe.holds st T' m' (by rwa [List.append_assoc]) (.inl hT)
    have hne' : T' + T₂ + ∑ j ∈ (Finset.range below.length).erase i, T j ≠ 0 := by
      rw [Ne, add_eq_zero, add_eq_zero]
      exact fun hzero => hT hzero.1.1
    rw [LevelState.put, modify_eq_set hb, ← add_assoc T', ← add_assoc m']
    exact .set_below path rows loaded h hi hchild hne'

/-- The tickets of a level are about places at it or below, or its end is to be heard of above. -/
theorem Holds.placed (h : root.Holds waits place T m) (hx : x ∈ T) :
    place ≠ [] ∧ x = .turn (.ended place.dropLast) ∨ place <+: x.place := by
  induction h with
  | @loading place l tasks T m hlen hloads hne =>
    obtain ⟨i, hi, hx⟩ := Multiset.mem_sum.mp hx
    exact .inr ((hloads i _ (List.getElem?_eq_getElem (Finset.mem_range.mp hi))).place_eq hx ▸ List.prefix_rfl)
  | @nesting place path rows loaded below T m hbelow hne ih =>
    obtain ⟨i, hi, hx⟩ := Multiset.mem_sum.mp hx
    refine .inr ?_
    rcases ih i _ (List.getElem?_eq_getElem (Finset.mem_range.mp hi)) hx with ⟨-, rfl⟩ | hprefix
    · rw [List.dropLast_concat]
      exact List.prefix_rfl
    · exact (List.prefix_append place [i]).trans hprefix
  | ended r hplace => exact .inl ⟨hplace, Multiset.mem_singleton.mp hx⟩
  | told r => exact absurd hx (Multiset.notMem_zero x)
  | _ =>
    cases Multiset.mem_singleton.mp hx
    exact .inr List.prefix_rfl

/-- A ticket leads to the level it belongs to. -/
theorem Holds.find (h : root.Holds waits place T m) (hx : x ∈ T) :
    (place ≠ [] ∧ x = .turn (.ended place.dropLast)) ∨
      ∃ rest st T₁ m₁ T₂ m₂, x.place = place ++ rest ∧ Found waits place root T m rest st T₁ m₁ T₂ m₂ := by
  have hself : ∀ {place root T m}, root.Holds waits place T m → x.place = place →
      ∃ rest st T₁ m₁ T₂ m₂, x.place = place ++ rest ∧ Found waits place root T m rest st T₁ m₁ T₂ m₂ :=
    fun h hplace => ⟨[], _, _, _, _, _, by rwa [List.append_nil], h.found_self⟩
  induction h with
  | @loading place l tasks T m hlen hloads hne =>
    refine .inr (hself (.loading hlen hloads hne) ?_)
    obtain ⟨i, hi, hx⟩ := Multiset.mem_sum.mp hx
    exact (hloads i _ (List.getElem?_eq_getElem (Finset.mem_range.mp hi))).place_eq hx
  | @nesting place path rows loaded below T m hbelow hne ih =>
    refine .inr ?_
    have hplaced : ∀ j, j < below.length → ∀ y ∈ T j, y.place = place ∨ place ++ [j] <+: y.place := by
      intro j hj y hy
      rcases (hbelow j _ (List.getElem?_eq_getElem hj)).placed hy with ⟨-, rfl⟩ | hprefix
      · exact .inl (List.dropLast_concat ..)
      · exact .inr hprefix
    obtain ⟨i, hi, hx⟩ := Multiset.mem_sum.mp hx
    have hi := Finset.mem_range.mp hi
    have hb := List.getElem?_eq_getElem hi
    rcases ih i _ hb hx with ⟨-, rfl⟩ | ⟨rest, st, T₁, m₁, T₂, m₂, hrest, hfound⟩
    -- the end of a level below is heard of here, so it belongs to this level
    · exact hself (.nesting hbelow hne) (List.dropLast_concat ..)
    · refine ⟨i :: rest, st, T₁, m₁, _, _, ?_, ?_, ?_, ?_, ?_, hfound.frame.below hbelow hplaced hb⟩
      · rw [hrest, List.append_assoc]
        rfl
      · rw [at?, hb]
        exact hfound.at_eq
      · have hholds := hfound.holds
        rwa [List.append_assoc] at hholds
      · rw [sum_range_eq hi, hfound.tickets_eq, add_assoc]
      · rw [sum_range_eq hi, hfound.turns_eq]
        omega
  | ended r hplace => exact .inl ⟨hplace, Multiset.mem_singleton.mp hx⟩
  | told r => exact absurd hx (Multiset.notMem_zero x)
  | outside hplace hnodes => exact .inr (hself (.outside hplace hnodes) (by cases Multiset.mem_singleton.mp hx; rfl))
  | loaded hlen h => exact .inr (hself (.loaded hlen h) (by cases Multiset.mem_singleton.mp hx; rfl))
  | nested h => exact .inr (hself (.nested h) (by cases Multiset.mem_singleton.mp hx; rfl))
  | idle r hplace => exact .inr (hself (.idle r hplace) (by cases Multiset.mem_singleton.mp hx; rfl))

/-- A ticket in a whole tree. -/
theorem Holds.find_root (h : root.Holds waits [] T m) (hx : x ∈ T) :
    ∃ st T₁ m₁ T₂ m₂, Found waits [] root T m x.place st T₁ m₁ T₂ m₂ := by
  rcases h.find hx with ⟨hne, -⟩ | ⟨rest, st, T₁, m₁, T₂, m₂, rfl, hfound⟩
  · exact absurd rfl hne
  · exact ⟨st, T₁, m₁, T₂, m₂, hfound⟩

theorem Found.mem {T₁ T₂ : Multiset Ticket} {m₁ m₂ : Nat} (h : Found waits [] root T m x.place st T₁ m₁ T₂ m₂)
    (hx : x ∈ T) : x ∈ T₁ := by
  rw [h.tickets_eq, Multiset.mem_add] at hx
  exact hx.resolve_right fun hx => h.frame.apart x hx List.prefix_rfl

/-! ## What becomes of a ticket's level -/

theorem not_prefix_self_of_concat (place : List Nat) (i : Nat) : ¬place ++ [i] <+: place := by
  intro h
  have hlen := h.length_le
  simp at hlen

/-- Nothing below the nodes of a level is about the level, but for what is to be heard of there. -/
theorem Holds.eq_ended {i : Nat} (h : st.Holds waits (place ++ [i]) T m) (hx : x ∈ T) (hplace : x.place = place) :
    x = .turn (.ended place) := by
  rcases h.placed hx with ⟨-, hx⟩ | hprefix
  · rwa [List.dropLast_concat] at hx
  · rw [hplace] at hprefix
    exact absurd hprefix (not_prefix_self_of_concat place i)

/-- Only a level that has finished is to be heard of above. -/
theorem Holds.of_ended {i : Nat} (h : st.Holds waits (place ++ [i]) T m) (hx : .turn (.ended place) ∈ T) :
    (∃ r, st = .finished r) ∧ T = {.turn (.ended place)} ∧ m = 1 := by
  generalize hbelow : place ++ [i] = below at h
  cases h with
  | @loading _ _ _ T m _ hloads _ =>
    obtain ⟨j, hj, hx⟩ := Multiset.mem_sum.mp hx
    have heq := (hloads j _ (List.getElem?_eq_getElem (Finset.mem_range.mp hj))).place_eq hx
    exact absurd (hbelow.trans heq.symm ▸ List.prefix_rfl) (not_prefix_self_of_concat place i)
  | @nesting _ _ _ _ _ T m h _ =>
    obtain ⟨j, hj, hx⟩ := Multiset.mem_sum.mp hx
    subst hbelow
    rcases (h j _ (List.getElem?_eq_getElem (Finset.mem_range.mp hj))).placed hx with ⟨-, heq⟩ | hprefix
    · rw [List.dropLast_concat] at heq
      have hplace : place = place ++ [i] := congrArg Ticket.place heq
      simp at hplace
    · exact absurd ((List.prefix_append _ _).trans hprefix) (not_prefix_self_of_concat place i)
  | ended r _ =>
    subst hbelow
    rw [List.dropLast_concat]
    exact ⟨⟨r, rfl⟩, rfl, rfl⟩
  | told r => exact absurd hx (Multiset.notMem_zero _)
  | _ => cases Multiset.mem_singleton.mp hx

theorem Holds.of_enter (h : st.Holds waits place T m) (hx : .turn (.enter place) ∈ T) :
    place ≠ [] ∧ T = {.turn (.enter place)} ∧
      ((∃ l : Level, st = .loading l (l.nodes.map fun _ => .waiting) ∧ l.nodes ≠ [] ∧
          m = (2 * waits + 10) * nodesSize l.nodes + 4) ∨
        (∃ r, st = .finished r) ∧ m = 2) := by
  cases h with
  | outside hplace hnodes => exact ⟨hplace, rfl, .inl ⟨_, rfl, hnodes, rfl⟩⟩
  | idle r hplace => exact ⟨hplace, rfl, .inr ⟨⟨r, rfl⟩, rfl⟩⟩
  | @loading _ _ _ T m _ hloads _ =>
    obtain ⟨j, hj, hx⟩ := Multiset.mem_sum.mp hx
    rcases (hloads j _ (List.getElem?_eq_getElem (Finset.mem_range.mp hj))).load?_eq hx with hload | heq
    · cases hload
    · cases heq
  | @nesting _ _ _ _ _ T m h _ =>
    obtain ⟨j, hj, hx⟩ := Multiset.mem_sum.mp hx
    cases (h j _ (List.getElem?_eq_getElem (Finset.mem_range.mp hj))).eq_ended hx rfl
  | told r => exact absurd hx (Multiset.notMem_zero _)
  | _ => cases Multiset.mem_singleton.mp hx

theorem Holds.of_proceed (h : st.Holds waits place T m) (hx : .turn (.proceed place) ∈ T) :
    T = {.turn (.proceed place)} ∧
      ((∃ l tasks, st = .loading l tasks ∧ tasks.length = l.nodes.length ∧ (∀ t ∈ tasks, t.result?.isSome = true) ∧
          m = turnsBelow waits l.nodes + 3) ∨
        ∃ path rows loaded below, st = .nesting path rows loaded below ∧ (∀ b ∈ below, b.result?.isSome = true) ∧
          m = 2) := by
  cases h with
  | loaded hlen h => exact ⟨rfl, .inl ⟨_, _, rfl, hlen, h, rfl⟩⟩
  | nested h => exact ⟨rfl, .inr ⟨_, _, _, _, rfl, h, rfl⟩⟩
  | @loading _ _ _ T m _ hloads _ =>
    obtain ⟨j, hj, hx⟩ := Multiset.mem_sum.mp hx
    rcases (hloads j _ (List.getElem?_eq_getElem (Finset.mem_range.mp hj))).load?_eq hx with hload | heq
    · cases hload
    · cases heq
  | @nesting _ _ _ _ _ T m h _ =>
    obtain ⟨j, hj, hx⟩ := Multiset.mem_sum.mp hx
    cases (h j _ (List.getElem?_eq_getElem (Finset.mem_range.mp hj))).eq_ended hx rfl
  | told r => exact absurd hx (Multiset.notMem_zero _)
  | _ => cases Multiset.mem_singleton.mp hx

/-- As long as a level has not finished, there is a ticket. -/
theorem Holds.of_zero (h : st.Holds waits place 0 m) : st.result?.isSome = true ∧ m = 0 := by
  generalize hT : (0 : Multiset Ticket) = T at h
  cases h with
  | told r => exact ⟨rfl, rfl⟩
  | loading _ _ hne => exact absurd hT.symm hne
  | nesting _ hne => exact absurd hT.symm hne
  | _ => cases Multiset.zero_ne_singleton _ hT

/-- A level that has finished has at most to be entered or to be heard of. -/
theorem Holds.of_isSome {i : Nat} (h : st.Holds waits (place ++ [i]) T m) (hst : st.result?.isSome = true) :
    .turn (.enter (place ++ [i])) ∈ T ∨ .turn (.ended place) ∈ T ∨ T = 0 := by
  cases h with
  | idle r _ => exact .inl (Multiset.mem_singleton_self _)
  | ended r _ =>
    rw [List.dropLast_concat]
    exact .inr (.inl (Multiset.mem_singleton_self _))
  | told r => exact .inr (.inr rfl)
  | _ => cases hst

/-! ## Ends that are heard of -/

/-- All that a level waits for has ended. -/
def AllEnded : LevelState → Prop
  | .loading _ tasks => ∀ t ∈ tasks, t.result?.isSome = true
  | .nesting _ _ _ below => ∀ b ∈ below, b.result?.isSome = true
  | .finished _ => False

/-- A level after it has heard of an end.  It goes on if that was the last one. -/
structure Told (waits : Nat) (place : List Nat) (st : LevelState) (T : Multiset Ticket) (m : Nat) : Prop where
  holds : T ≠ 0 → st.Holds waits place T m
  last : T = 0 → st.AllEnded
  goes_on : st.AllEnded → .turn (.ended place) ∉ T → (∀ i, .turn (.enter (place ++ [i])) ∉ T) →
    T = 0 ∧ st.Holds waits place {.turn (.proceed place)} m

/-- What the loads of a level, or the levels below it, come to once one of them has been heard of. -/
theorem told_of {α : Type} {xs : List α} {P : Nat → α → Multiset Ticket → Nat → Prop} {Q : α → Prop}
    {T : Nat → Multiset Ticket} {m : Nat → Nat} {i rest : Nat} {x : α}
    (h : ∀ (j : Nat) x, xs[j]? = some x → P j x (T j) (m j)) (hzero : ∀ j x m, P j x 0 m → Q x ∧ m = 0)
    (hends : ∀ j x T m, P j x T m → Q x →
      .turn (.ended place) ∈ T ∨ .turn (.enter (place ++ [j])) ∈ T ∨ T = 0)
    (hx : xs[i]? = some x) (hQ : Q x) (hall : st.AllEnded ↔ ∀ x ∈ xs, Q x)
    (hholds : ∑ j ∈ (Finset.range xs.length).erase i, T j ≠ 0 →
      st.Holds waits place (∑ j ∈ (Finset.range xs.length).erase i, T j)
        (∑ j ∈ (Finset.range xs.length).erase i, m j + rest))
    (hproceed : st.AllEnded → st.Holds waits place {.turn (.proceed place)} rest) :
    Told waits place st (∑ j ∈ (Finset.range xs.length).erase i, T j)
      (∑ j ∈ (Finset.range xs.length).erase i, m j + rest) := by
  have hothers : ∑ j ∈ (Finset.range xs.length).erase i, T j = 0 → ∀ j (hj : j < xs.length), j ≠ i →
      Q xs[j] ∧ m j = 0 := by
    intro hsum j hj hji
    have hj' := h j _ (List.getElem?_eq_getElem hj)
    rw [sum_erase_eq_zero hsum hj hji] at hj'
    exact hzero _ _ _ hj'
  refine ⟨hholds, fun hsum => hall.mpr fun y hy => ?_, fun hended hended' henter => ?_⟩
  · obtain ⟨j, hj, rfl⟩ := List.mem_iff_getElem.mp hy
    by_cases hji : j = i
    · subst hji
      rwa [(List.getElem?_eq_some_iff.mp hx).2]
    · exact (hothers hsum j hj hji).1
  · have hsum : ∑ j ∈ (Finset.range xs.length).erase i, T j = 0 := by
      refine Finset.sum_eq_zero fun j hj => ?_
      have hj' := Finset.mem_range.mp (Finset.mem_erase.mp hj).2
      have hQj := hall.mp hended _ (List.getElem_mem hj')
      rcases hends j _ _ _ (h j _ (List.getElem?_eq_getElem hj')) hQj with hmem | hmem | hnone
      · exact absurd (Multiset.mem_sum.mpr ⟨j, hj, hmem⟩) hended'
      · exact absurd (Multiset.mem_sum.mpr ⟨j, hj, hmem⟩) (henter j)
      · exact hnone
    have hturns : ∑ j ∈ (Finset.range xs.length).erase i, m j = 0 := by
      refine Finset.sum_eq_zero fun j hj => ?_
      obtain ⟨hji, hj⟩ := Finset.mem_erase.mp hj
      exact (hothers hsum j (Finset.mem_range.mp hj) hji).2
    rw [hturns, Nat.zero_add]
    exact ⟨hsum, hproceed hended⟩

theorem told_loading {l : Level} {tasks : List Task} {T : Nat → Multiset Ticket} {m : Nat → Nat} {i : Nat}
    {r : Except Fault Attachment} (hlen : tasks.length = l.nodes.length)
    (h : ∀ (j : Nat) t, tasks[j]? = some t → t.Holds waits place j (T j) (m j)) (hi : tasks[i]? = some (.finished r)) :
    Told waits place (.loading l tasks) (∑ j ∈ (Finset.range tasks.length).erase i, T j)
      (∑ j ∈ (Finset.range tasks.length).erase i, m j + (turnsBelow waits l.nodes + 3)) := by
  refine told_of h (fun _ _ _ => Task.Holds.of_zero) (fun _ _ _ _ ht hended => (ht.of_isSome hended).imp_right .inr) hi
    rfl Iff.rfl (fun hne => ?_) (.loaded hlen)
  obtain ⟨hi, hr⟩ := List.getElem?_eq_some_iff.mp hi
  have hnew := Holds.set_load hlen h hi l.rows (.told r) (by rwa [zero_add])
  rwa [← hr, List.set_getElem_self, zero_add, zero_add] at hnew

theorem told_nesting {path : List String} {rows : List Row} {loaded : List Loaded} {below : List LevelState}
    {T : Nat → Multiset Ticket} {m : Nat → Nat} {i : Nat} {r : Except Fault (List Row)}
    (h : ∀ (j : Nat) b, below[j]? = some b → b.Holds waits (place ++ [j]) (T j) (m j))
    (hi : below[i]? = some (.finished r)) :
    Told waits place (.nesting path rows loaded below) (∑ j ∈ (Finset.range below.length).erase i, T j)
      (∑ j ∈ (Finset.range below.length).erase i, m j + 2) := by
  refine told_of h (fun _ _ _ => Holds.of_zero) (fun _ _ _ _ hb hended => ?_) hi rfl Iff.rfl (fun hne => ?_) .nested
  · exact or_left_comm.mp (hb.of_isSome hended)
  · obtain ⟨hi, hr⟩ := List.getElem?_eq_some_iff.mp hi
    have hnew := Holds.set_below path rows loaded h hi (.told r) (by rwa [zero_add])
    rwa [← hr, List.set_getElem_self, zero_add, zero_add] at hnew

theorem Holds.tell (h : st.Holds waits place T m) (hx : .turn (.ended place) ∈ T) :
    ∃ T' m', T = {.turn (.ended place)} + T' ∧ m = m' + 1 ∧ Told waits place st T' m' := by
  cases h with
  | @loading _ l tasks T m hlen hloads _ =>
    obtain ⟨i, hi, hx⟩ := Multiset.mem_sum.mp hx
    have hi := Finset.mem_range.mp hi
    have ht := List.getElem?_eq_getElem hi
    obtain ⟨⟨r, hr⟩, hT, hm⟩ := (hloads i _ ht).of_ended hx
    refine ⟨_, _, ?_, ?_, told_loading hlen hloads (hr ▸ ht)⟩
    · rw [sum_range_eq hi, hT]
    · rw [sum_range_eq hi, hm]
      omega
  | @nesting _ _ _ _ below T m hbelow _ =>
    obtain ⟨i, hi, hx⟩ := Multiset.mem_sum.mp hx
    have hi := Finset.mem_range.mp hi
    have hb := List.getElem?_eq_getElem hi
    obtain ⟨⟨r, hr⟩, hT, hm⟩ := (hbelow i _ hb).of_ended hx
    refine ⟨_, _, ?_, ?_, told_nesting hbelow (hr ▸ hb)⟩
    · rw [sum_range_eq hi, hT]
    · rw [sum_range_eq hi, hm]
      omega
  | ended r hplace =>
    have heq : place = place.dropLast := congrArg Ticket.place (Multiset.mem_singleton.mp hx)
    have hlen := congrArg List.length heq
    rw [List.length_dropLast] at hlen
    have := List.length_pos_iff.mpr hplace
    omega
  | told r => exact absurd hx (Multiset.notMem_zero _)
  | _ => cases Multiset.mem_singleton.mp hx

/-! ## A load in its tree -/

/-- Around a load that may take steps: what all others hold. -/
structure LoadFrame (waits : Nat) (root : LevelState) (place : List Nat) (l : Level) (tasks : List Task) (i : Nat)
    (t : Task) (T : Multiset Ticket) (m : Nat) : Prop where
  at_eq : root.at? place = some (.loading l tasks)
  task_eq : tasks[i]? = some t
  length_eq : tasks.length = l.nodes.length
  apart : ∀ x ∈ T, x.load? ≠ some (place, i)
  holds : ∀ rows t' T' m', t'.Holds waits place i T' m' → T' ≠ 0 →
    (root.put place (.loading { l with rows } (tasks.set i t'))).Holds waits [] (T' + T) (m' + m)

section Loads

variable {l : Level} {tasks : List Task} {t : Task} {i : Nat}

theorem LoadFrame.set (h : LoadFrame waits root place l tasks i t T m) (rows : List Row) (t' : Task) :
    LoadFrame waits (root.put place (.loading { l with rows } (tasks.set i t'))) place { l with rows } (tasks.set i t')
      i t' T m where
  at_eq := at?_put h.at_eq _
  task_eq := List.getElem?_set_self (List.getElem?_eq_some_iff.mp h.task_eq).1
  length_eq := by rw [List.length_set, h.length_eq]
  apart := h.apart
  holds rows' t'' T' m' ht'' hne := by
    rw [put_put, List.set_set]
    exact h.holds rows' t'' T' m' ht'' hne

/-- A load holds what it holds as long as it takes no step. -/
theorem LoadFrame.holds_self (h : LoadFrame waits root place l tasks i t T m) {T' : Multiset Ticket} {m' : Nat}
    (ht : t.Holds waits place i T' m') (hne : T' ≠ 0) : root.Holds waits [] (T' + T) (m' + m) := by
  obtain ⟨hi, hti⟩ := List.getElem?_eq_some_iff.mp h.task_eq
  have hself : tasks.set i t = tasks := by rw [← hti, List.set_getElem_self]
  have hholds := h.holds l.rows t T' m' ht hne
  rwa [hself, put_self h.at_eq] at hholds

/-- A step of a load is one of the tree. -/
theorem LoadFrame.step {σ : Type} {exec : Executor σ} {g : Graph} {s s' : Shared σ} {n : PlanNode} {t' : Task}
    {rows : List Row} (h : LoadFrame waits root place l tasks i t T m) (hn : l.nodes[i]? = some n)
    (hstep : t.step exec g n l.rows s = some (t', rows, s')) :
    root.step exec g (place ++ [i]) s = some (root.put place (.loading { l with rows } (tasks.set i t')), s') := by
  refine step_put h.at_eq ?_
  rw [LevelState.step, hn, h.task_eq]
  simp only [Option.bind_eq_bind, Option.bind_some, hstep]
  rfl

theorem LoadFrame.exists_node (h : LoadFrame waits root place l tasks i t T m) : ∃ n, l.nodes[i]? = some n :=
  ⟨_, List.getElem?_eq_getElem (h.length_eq ▸ (List.getElem?_eq_some_iff.mp h.task_eq).1)⟩

/-- A ticket that is about a load leads to the load. -/
theorem Holds.find_load (h : root.Holds waits [] T m) (hx : x ∈ T) (hload : x.load? = some (place, i)) :
    ∃ l tasks t T₁ m₁ T₂ m₂, LoadFrame waits root place l tasks i t T₂ m₂ ∧ t.Holds waits place i T₁ m₁ ∧ x ∈ T₁ ∧
      T = T₁ + T₂ ∧ m = m₁ + m₂ := by
  have hplace := Ticket.place_of_load? hload
  obtain ⟨st, T₁, m₁, T₂, m₂, hfound⟩ := h.find_root hx
  have hx₁ := hfound.mem hx
  obtain ⟨hat, hst, rfl, rfl, hframe⟩ := hfound
  rw [hplace, List.nil_append] at hst
  rw [hplace] at hat hframe
  cases hst with
  | @loading _ l tasks T m hlen hloads hne =>
    obtain ⟨j, hj, hxj⟩ := Multiset.mem_sum.mp hx₁
    have hj := Finset.mem_range.mp hj
    have htj := hloads j _ (List.getElem?_eq_getElem hj)
    have hij : i = j := by
      rcases htj.load?_eq hxj with hload' | rfl
      · rw [hload] at hload'
        cases hload'
        rfl
      · cases hload
    subst hij
    refine ⟨l, tasks, tasks[i], T i, m i, ∑ k ∈ (Finset.range tasks.length).erase i, T k + T₂,
      ∑ k ∈ (Finset.range tasks.length).erase i, m k + (turnsBelow waits l.nodes + 3) + m₂,
      ⟨hat, List.getElem?_eq_getElem hj, hlen, ?_, ?_⟩, htj, hxj, ?_, ?_⟩
    · intro y hy hyload
      rcases Multiset.mem_add.mp hy with hy | hy
      · obtain ⟨k, hk, hy⟩ := Multiset.mem_sum.mp hy
        obtain ⟨hki, hk⟩ := Finset.mem_erase.mp hk
        rcases (hloads k _ (List.getElem?_eq_getElem (Finset.mem_range.mp hk))).load?_eq hy with hyload' | rfl
        · rw [hyload] at hyload'
          cases hyload'
          exact hki rfl
        · cases hyload
      · refine hframe.apart y hy ?_
        rw [Ticket.place_of_load? hyload]
        exact List.prefix_rfl
    · intro rows t' T' m' ht' hne'
      have hsum : T' + ∑ k ∈ (Finset.range tasks.length).erase i, T k ≠ 0 := fun hzero =>
        hne' (add_eq_zero.mp hzero).1
      have hst := Holds.set_load hlen hloads hj rows ht' hsum
      rw [← add_assoc T', ← add_assoc m']
      exact hframe.holds _ _ _ hst (.inl hsum)
    · rw [sum_range_eq hj, add_assoc]
    · rw [sum_range_eq hj]
      omega
  | @nesting _ _ _ _ _ T m hbelow _ =>
    obtain ⟨j, hj, hxj⟩ := Multiset.mem_sum.mp hx₁
    cases (hbelow j _ (List.getElem?_eq_getElem (Finset.mem_range.mp hj))).eq_ended hxj hplace
    cases hload
  | told r => exact absurd hx₁ (Multiset.notMem_zero _)
  | _ =>
    cases Multiset.mem_singleton.mp hx₁
    cases hload

end Loads

end LevelState

end RelatedRows

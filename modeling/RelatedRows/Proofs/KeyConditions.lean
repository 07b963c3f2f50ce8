import RelatedRows.Proofs.Conditions

/-!
# Key conditions as membership

With its parameters in the slots that it starts from, a key condition holds of a row if the row has one of the keys.

* `Binds binding start parameters`: the parameters stand in the slots from `start` on.
* `KeyPredicate.holds_ofColumns`: what a key predicate says about a row.
* `KeyPredicate.slots_ofColumns`: the slots of a key predicate, one for each parameter.
* `Sql.Tests`: a text with parameters tests for some keys.
* `keyCondition_membership`: the text of a key condition does.
-/

namespace RelatedRows

/-! ## Bound parameters -/

/-- The parameters stand in the slots from `start` on. -/
def Binds (binding : Int → Value) (start : Int) (parameters : List Value) : Prop :=
  ∀ (i : Nat) (v : Value), parameters[i]? = some v → binding (start + i) = v

section Binds

variable {binding : Int → Value} {start : Int} {v : Value} {as bs : List Value}

theorem Binds.append_left (h : Binds binding start (as ++ bs)) : Binds binding start as := by
  intro i v hv
  refine h i v ?_
  rwa [List.getElem?_append_left (List.getElem?_eq_some_iff.mp hv).1]

theorem Binds.append_right (h : Binds binding start (as ++ bs)) : Binds binding (start + as.length) bs := by
  intro i v hv
  have hbound := h (as.length + i) v (by rwa [List.getElem?_append_right (by omega), Nat.add_sub_cancel_left])
  rwa [Int.natCast_add, ← Int.add_assoc] at hbound

theorem Binds.head (h : Binds binding start (v :: as)) : binding start = v := by
  have hbound := h 0 v rfl
  rwa [Int.natCast_zero, Int.add_zero] at hbound

theorem Binds.tail (h : Binds binding start (v :: as)) : Binds binding (start + 1) as := by
  have hfront : Binds binding start ([v] ++ as) := h
  exact hfront.append_right

end Binds

/-- The parameters, from a slot on, and nothing elsewhere. -/
def bound (start : Int) (parameters : List Value) (slot : Int) : Value :=
  if start ≤ slot then parameters.getD (slot - start).toNat .null else .null

theorem binds_bound (start : Int) (parameters : List Value) : Binds (bound start parameters) start parameters := by
  intro i v hv
  have hplace : (start + i - start).toNat = i := by omega
  rw [bound, if_pos (by omega), hplace, List.getD_eq_getElem?_getD, hv]
  rfl

def slotsFrom (start : Int) (count : Nat) : List Int :=
  (List.range count).map fun i : Nat => start + i

theorem slotsFrom_add (start : Int) (m n : Nat) :
    slotsFrom start (m + n) = slotsFrom start m ++ slotsFrom (start + m) n := by
  rw [slotsFrom, List.range_add, List.map_append, List.map_map]
  congr 1
  refine List.map_congr_left fun i _ => ?_
  simp [Int.add_assoc]

theorem nonneg_of_mem_slotsFrom (start count : Nat) : ∀ slot ∈ slotsFrom start count, 0 ≤ slot := by
  intro slot hslot
  obtain ⟨i, -, rfl⟩ := List.mem_map.mp hslot
  omega

/-! ## Parameters of keys -/

theorem keyParameters_of_length_ne_one {columns : List String} (h : columns.length ≠ 1) (keys : List Key) :
    keyParameters columns keys = keys.flatten := by
  rcases columns with _ | ⟨c, _ | ⟨d, columns⟩⟩
  · rfl
  · exact absurd rfl h
  · rfl

theorem length_keyParameters {columns : List String} {keys : List Key}
    (hlength : ∀ key ∈ keys, key.length = columns.length) :
    (keyParameters columns keys).length = if columns.length = 1 then 1 else columns.length * keys.length := by
  split
  · next hone =>
    obtain ⟨c, rfl⟩ := List.length_eq_one_iff.mp hone
    rfl
  · next hone =>
    rw [keyParameters_of_length_ne_one hone, List.length_flatten, List.map_congr_left hlength, List.map_const',
      List.sum_replicate_nat, Nat.mul_comm]

/-! ## Predicates -/

namespace KeyPredicate

variable {columns : List String} {keys : List Key} {binding : Int → Value} {row : Row}

theorem all_groupAt {key : Key} {slot : Int} (hlength : key.length = columns.length) (hbinds : Binds binding slot key) :
    ((groupAt columns slot).all fun t => (row.get t.1).equals (binding t.2)) = matchesKey columns row key := by
  induction columns generalizing slot key with
  | nil => rfl
  | cons c columns ih =>
    obtain ⟨v, key, rfl⟩ := List.exists_cons_of_length_eq_add_one hlength
    have hrest := ih (Nat.succ.inj hlength) hbinds.tail
    rw [groupAt, List.all_cons, hbinds.head, hrest, matchesKey, matchesKey, List.zip_cons_cons, List.all_cons]

theorem any_groupsFrom {slot : Int} (hlength : ∀ key ∈ keys, key.length = columns.length)
    (hbinds : Binds binding slot keys.flatten) :
    ((groupsFrom columns keys.length slot).any fun g => g.all fun t => (row.get t.1).equals (binding t.2)) =
      keys.any (matchesKey columns row) := by
  induction keys generalizing slot with
  | nil => rfl
  | cons key keys ih =>
    have hkey := hlength key List.mem_cons_self
    -- A key has a component for each column, so the next group starts where the parameters of this key end.
    have hrest := ih (fun k hk => hlength k (List.mem_cons_of_mem _ hk)) hbinds.append_right
    rw [hkey] at hrest
    rw [List.length_cons, groupsFrom, List.any_cons, all_groupAt hkey hbinds.append_left, hrest, List.any_cons]

theorem ofColumns_of_length_ne_one (h : columns.length ≠ 1) (count : Nat) (start : Int) :
    ofColumns columns count start = .anyOf (groupsFrom columns count start) := by
  rcases columns with _ | ⟨c, _ | ⟨d, columns⟩⟩
  · rfl
  · exact absurd rfl h
  · rfl

/-- A key predicate whose slots have the components of some keys holds of the rows that have one of them. -/
theorem holds_ofColumns {start : Int} (hlength : ∀ key ∈ keys, key.length = columns.length)
    (hbinds : Binds binding start (keyParameters columns keys)) :
    (ofColumns columns keys.length start).holds binding row = keys.any (matchesKey columns row) := by
  by_cases hone : columns.length = 1
  · obtain ⟨c, rfl⟩ := List.length_eq_one_iff.mp hone
    have hlist : binding start = .list (keys.map fun key => key.headD .null) := hbinds.head
    have hkey : ∀ key ∈ keys, (row.get c).equals (key.headD .null) = matchesKey [c] row key := by
      intro key hkey
      obtain ⟨v, rfl⟩ := List.length_eq_one_iff.mp (hlength key hkey)
      simp [matchesKey]
    rw [ofColumns, holds, hlist]
    simp only [List.any_map]
    rw [Bool.eq_iff_iff, List.any_eq_true, List.any_eq_true]
    exact exists_congr fun key => and_congr_right fun hmem => by rw [Function.comp_apply, hkey key hmem]
  · rw [keyParameters_of_length_ne_one hone] at hbinds
    rw [ofColumns_of_length_ne_one hone, holds]
    exact any_groupsFrom hlength hbinds

/-! ## Slots -/

theorem slots_groupAt (columns : List String) (slot : Int) :
    (groupAt columns slot).map (·.2) = slotsFrom slot columns.length := by
  induction columns generalizing slot with
  | nil => rfl
  | cons c columns ih =>
    rw [groupAt, List.map_cons, ih, List.length_cons, Nat.add_comm, slotsFrom_add]
    simp [slotsFrom]

theorem slots_groupsFrom (columns : List String) (count : Nat) (slot : Int) :
    (groupsFrom columns count slot).flatten.map (·.2) = slotsFrom slot (columns.length * count) := by
  induction count generalizing slot with
  | zero => rfl
  | succ count ih =>
    rw [groupsFrom, List.flatten_cons, List.map_append, slots_groupAt, ih, Nat.mul_succ, Nat.add_comm, slotsFrom_add]

/-- A single column has one slot; several have one for each component of each key, in their order. -/
theorem slots_ofColumns (columns : List String) (count : Nat) (start : Int) :
    (ofColumns columns count start).slots =
      slotsFrom start (if columns.length = 1 then 1 else columns.length * count) := by
  split
  · next hone =>
    obtain ⟨c, rfl⟩ := List.length_eq_one_iff.mp hone
    simp [ofColumns, slots, slotsFrom]
  · next hone =>
    rw [ofColumns_of_length_ne_one hone, slots, slots_groupsFrom]

theorem nonneg_of_mem_slots (columns : List String) (count start : Nat) :
    ∀ slot ∈ (ofColumns columns count start).slots, 0 ≤ slot := by
  rw [slots_ofColumns]
  exact nonneg_of_mem_slotsFrom start _

theorem compares_groupsFrom (hcolumns : columns ≠ []) {count : Nat} (hcount : count ≠ 0) (slot : Int) :
    Sql.Compares (.anyOf (groupsFrom columns count slot)) := by
  constructor
  · rwa [← List.length_pos_iff, length_groupsFrom, Nat.pos_iff_ne_zero]
  · clear hcount
    induction count generalizing slot with
    | zero => simp [groupsFrom]
    | succ count ih =>
      rw [groupsFrom, List.forall_mem_cons]
      refine ⟨?_, ih _⟩
      rwa [← List.length_pos_iff, length_groupAt, List.length_pos_iff]

theorem compares_ofColumns (hcolumns : columns ≠ []) {count : Nat} (hcount : count ≠ 0) (start : Int) :
    Sql.Compares (ofColumns columns count start) := by
  by_cases hone : columns.length = 1
  · obtain ⟨c, rfl⟩ := List.length_eq_one_iff.mp hone
    trivial
  · rw [ofColumns_of_length_ne_one hone]
    exact compares_groupsFrom hcolumns hcount start

end KeyPredicate

/-! ## Conditions -/

namespace Sql

/-- With the parameters in the slots from `start` on, a text is a condition that holds of the rows that have one of some
keys. -/
def Tests (text : String) (start : Int) (parameters : List Value) (columns : List String) (keys : List Key) : Prop :=
  ∃ c, Condition.read text = some c ∧ ∀ binding, Binds binding start parameters →
    ∀ row, c.truth binding row = .yes ↔ ∃ key ∈ keys, matchesKey columns row key = true

theorem tests_condition {p : KeyPredicate} {start : Int} {parameters : List Value} {columns : List String}
    {keys : List Key} (hcompares : Compares p) (hslots : ∀ slot ∈ p.slots, 0 ≤ slot)
    (hholds : ∀ binding, Binds binding start parameters →
      ∀ row, p.holds binding row = keys.any (matchesKey columns row)) :
    Tests (condition p) start parameters columns keys := by
  refine ⟨_, read_condition hcompares hslots, fun binding hbinds row => ?_⟩
  rw [truth_ofPredicate, hholds binding hbinds row, List.any_eq_true]

end Sql

theorem keysFit_of_length {columns : List String} {keys : List Key}
    (hlength : ∀ key ∈ keys, key.length = columns.length) : keysFit columns keys = true := by
  rw [keysFit, Bool.or_eq_true, decide_eq_true_iff, or_iff_not_imp_left, not_not, List.all_eq_true]
  intro hone key hkey
  have hpos : key ≠ [] := List.ne_nil_of_length_eq_add_one ((hlength key hkey).trans hone)
  simpa using hpos

theorem keyCondition_of_length {columns : List String} {keys : List Key}
    (hlength : ∀ key ∈ keys, key.length = columns.length) (start : Int) :
    keyCondition columns keys start =
      .ok (Sql.condition (.ofColumns columns keys.length start), keyParameters columns keys) := by
  rw [keyCondition, if_pos (keysFit_of_length hlength)]

/-- A key condition says that some columns have one of some keys, as their comparison component by component does; its
placeholders are those of its parameters, each once and in order; and its text is the same for all keys, for as many of
them where there are several columns. -/
theorem keyCondition_membership {columns : List String} {keys : List Key} (hcolumns : columns ≠ []) (hkeys : keys ≠ [])
    (hlength : ∀ key ∈ keys, key.length = columns.length) (start : Nat) :
    ∃ text parameters, keyCondition columns keys start = .ok (text, parameters) ∧
      Sql.Tests text start parameters columns keys ∧
      Sql.Tests (Sql.condition (.anyOf (KeyPredicate.groupsFrom columns keys.length start))) start keys.flatten columns
        keys ∧
      (Sql.tokens text).filterMap Sql.Token.slot? =
        (List.range parameters.length).map (fun i : Nat => (start : Int) + i) ∧
      parameters.length = (if columns.length = 1 then 1 else columns.length * keys.length) ∧
      ∀ keys' : List Key, (∀ key ∈ keys', key.length = columns.length) →
        (columns.length = 1 ∨ keys'.length = keys.length) →
        keyCondition columns keys' start = .ok (text, keyParameters columns keys') := by
  have hcount : keys.length ≠ 0 := fun h => hkeys (List.length_eq_zero_iff.mp h)
  have hnonneg := KeyPredicate.nonneg_of_mem_slots columns keys.length start
  refine ⟨_, _, keyCondition_of_length hlength start, ?_, ?_, ?_, length_keyParameters hlength, ?_⟩
  · exact Sql.tests_condition (KeyPredicate.compares_ofColumns hcolumns hcount start) hnonneg
      fun _ hbinds _ => KeyPredicate.holds_ofColumns hlength hbinds
  · refine Sql.tests_condition (KeyPredicate.compares_groupsFrom hcolumns hcount start) ?_
      fun _ hbinds _ => KeyPredicate.any_groupsFrom hlength hbinds
    rw [KeyPredicate.slots, KeyPredicate.slots_groupsFrom]
    exact nonneg_of_mem_slotsFrom start _
  · rw [(Sql.spells_condition hnonneg).tokens_eq, Sql.slots_conditionTokens, KeyPredicate.slots_ofColumns,
      length_keyParameters hlength, slotsFrom]
  · intro keys' hlength' hsame
    rw [keyCondition_of_length hlength' start]
    rcases hsame with hone | hsame
    · obtain ⟨c, rfl⟩ := List.length_eq_one_iff.mp hone
      rfl
    · rw [hsame]

/-- Two keys of two columns, one of whose names looks like a placeholder: a row with one of the keys is found, and a row
that has a component of each is not. -/
theorem keyCondition_membership_pairs :
    let columns := ["shop", "item $1"]
    let keys : List Key := [[.int 1, .text "a"], [.int 2, .text "b"]]
    ∃ text parameters c, keyCondition columns keys 3 = .ok (text, parameters) ∧ Sql.Condition.read text = some c ∧
      (Sql.tokens text).filterMap Sql.Token.slot? = [3, 4, 5, 6] ∧
      c.truth (bound 3 parameters) [("shop", .int 2), ("item $1", .text "b")] = .yes ∧
      c.truth (bound 3 parameters) [("shop", .int 1), ("item $1", .text "b")] ≠ .yes := by
  intro columns keys
  have hlength : ∀ key ∈ keys, key.length = columns.length := by decide
  obtain ⟨text, parameters, htext, ⟨c, hread, htruth⟩, -, hslots, hcount, -⟩ :=
    keyCondition_membership (List.cons_ne_nil _ _) (List.cons_ne_nil _ _) hlength 3
  have hfour : parameters.length = 4 := hcount
  have hmeaning := htruth _ (binds_bound 3 parameters)
  refine ⟨text, parameters, c, htext, hread, ?_, (hmeaning _).mpr (by decide +kernel), ?_⟩
  · rw [hslots, hfour]
    rfl
  · exact fun hyes => absurd ((hmeaning _).mp hyes) (by decide +kernel)

end RelatedRows

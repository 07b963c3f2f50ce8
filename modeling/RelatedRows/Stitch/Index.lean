/-!
# Indexes

Association lists built in one pass over entries with keys.

* `firstEntries es`: for each key its first entry, in the order in which the keys first appear.
* `groups es`: for each key all its entries, in order.

Looking a key up in either is the same as scanning the entries for it (`lookup_firstEntries`, `lookup_groups`).
-/

namespace RelatedRows.Index

section Index

variable {κ α : Type} [DecidableEq κ]

def insertFirst (m : List (κ × α)) (e : κ × α) : List (κ × α) :=
  if (m.lookup e.1).isSome then m else m ++ [e]

def firstEntries (es : List (κ × α)) : List (κ × α) :=
  es.foldl insertFirst []

/-- Adds an entry at the end of the group of its key. -/
def addToGroup : List (κ × List α) → κ × α → List (κ × List α)
  | [], (k, a) => [(k, [a])]
  | (k', as) :: rest, (k, a) => if k' = k then (k', as ++ [a]) :: rest else (k', as) :: addToGroup rest (k, a)

def groups (es : List (κ × α)) : List (κ × List α) :=
  es.foldl addToGroup []

/-- All entries of a key, by scanning. -/
def entriesOf (k : κ) (es : List (κ × α)) : List α :=
  (es.filter (·.1 = k)).map (·.2)

@[simp] theorem firstEntries_nil : firstEntries ([] : List (κ × α)) = [] := rfl

theorem firstEntries_concat (es : List (κ × α)) (e : κ × α) :
    firstEntries (es ++ [e]) = insertFirst (firstEntries es) e := by
  simp [firstEntries, List.foldl_append]

theorem lookup_append (k : κ) (l₁ l₂ : List (κ × α)) : (l₁ ++ l₂).lookup k = (l₁.lookup k).or (l₂.lookup k) := by
  induction l₁ with
  | nil => simp
  | cons e l ih =>
    obtain ⟨k', a⟩ := e
    by_cases h : k = k'
    · simp [h]
    · simp [List.lookup_cons, beq_eq_false_iff_ne.mpr h, ih]

theorem lookup_insertFirst (m : List (κ × α)) (e : κ × α) (k : κ) :
    (insertFirst m e).lookup k = (m ++ [e]).lookup k := by
  obtain ⟨k₀, a⟩ := e
  unfold insertFirst
  split
  · next h =>
    rw [lookup_append]
    by_cases hk : k = k₀
    · subst hk
      obtain ⟨b, hb⟩ := Option.isSome_iff_exists.mp h
      simp only at hb
      simp [hb]
    · simp [List.lookup_cons, beq_eq_false_iff_ne.mpr hk]
  · rfl

/-- The first entry of a key is the one that scanning finds. -/
theorem lookup_firstEntries (es : List (κ × α)) (k : κ) : (firstEntries es).lookup k = es.lookup k := by
  suffices h : ∀ m : List (κ × α), (es.foldl insertFirst m).lookup k = (m ++ es).lookup k by
    simpa [firstEntries] using h []
  intro m
  induction es generalizing m with
  | nil => simp
  | cons e es ih =>
    rw [List.foldl_cons, ih, lookup_append, lookup_insertFirst, ← lookup_append]
    simp

theorem lookup_addToGroup (m : List (κ × List α)) (e : κ × α) (k : κ) :
    (addToGroup m e).lookup k = if k = e.1 then some ((m.lookup k).getD [] ++ [e.2]) else m.lookup k := by
  obtain ⟨k₀, a⟩ := e
  induction m with
  | nil =>
    by_cases h : k = k₀
    · simp [addToGroup, h]
    · simp [addToGroup, List.lookup_cons, beq_eq_false_iff_ne.mpr h, h]
  | cons g m ih =>
    obtain ⟨k', as⟩ := g
    by_cases h' : k' = k₀
    · subst h'
      by_cases h : k = k'
      · simp [addToGroup, h]
      · simp [addToGroup, List.lookup_cons, beq_eq_false_iff_ne.mpr h, h]
    · by_cases h : k = k'
      · subst h
        simp [addToGroup, h']
      · simp [addToGroup, List.lookup_cons, beq_eq_false_iff_ne.mpr h, h', ih]

/-- The group of a key holds what scanning finds. -/
theorem lookup_groups (es : List (κ × α)) (k : κ) : ((groups es).lookup k).getD [] = entriesOf k es := by
  suffices h : ∀ m : List (κ × List α),
      ((es.foldl addToGroup m).lookup k).getD [] = (m.lookup k).getD [] ++ entriesOf k es by
    simpa [groups] using h []
  intro m
  induction es generalizing m with
  | nil => simp [entriesOf]
  | cons e es ih =>
    rw [List.foldl_cons, ih, lookup_addToGroup]
    by_cases h : k = e.1
    · simp [entriesOf, h]
    · simp [entriesOf, h, Ne.symm h]

end Index

end RelatedRows.Index

import Mathlib.Data.List.Basic
import RelatedRows.Proofs.Tokens
import RelatedRows.Store.Memory

/-!
# Conditions of a statement

A condition is read as alternatives between `OR`, each of parts between `AND`; a part compares a column with what a
placeholder stands for, or is a condition between brackets.  It comes to one of three truth values, since nothing is
known of a comparison with nothing.

* `Sql.Part`, `Sql.Condition`: conditions as they are read, and `Sql.Condition.truth`, what they come to.
* `Sql.Condition.read`: the condition that a text is.
* `Sql.read_condition`: a written key predicate is read back.
* `Sql.truth_ofPredicate`: what is read means what was written.
* `keyCondition_membership`: a key condition says that some columns have one of some keys.
-/

namespace RelatedRows.Sql

/-! ## Readers -/

/-- Reads something at the front of some tokens. -/
abbrev Reader (α : Type) := List Token → Option (α × List Token)

/-- What a text is, if all of it is read. -/
def readWhole {α : Type} (reader : Reader α) (text : String) : Option α :=
  match reader (tokens text) with
  | some (a, []) => some a
  | _ => none

theorem readWhole_of_spells {α : Type} {reader : Reader α} {text : String} {ts : List Token} {a : α}
    (htext : Spells text.toList ts) (hread : reader ts = some (a, [])) : readWhole reader text = some a := by
  rw [readWhole, htext.tokens_eq, hread]

/-- Reads items between separators, at most `count` of them. -/
def severalWithin {α : Type} (separator : Token) (item : Reader α) : (count : Nat) → Reader (List α)
  | 0, _ => none
  | count + 1, ts =>
    match item ts with
    | none => none
    | some (a, []) => some ([a], [])
    | some (a, t :: rest) =>
      if t = separator then (severalWithin separator item count rest).map fun (as, rest) => (a :: as, rest)
      else some ([a], t :: rest)

/-- Reads items between separators. -/
def several {α : Type} (separator : Token) (item : Reader α) : Reader (List α) := fun ts =>
  severalWithin separator item (ts.length + 1) ts

theorem length_le_intercalate (separator : Token) (parts : List (List Token)) :
    parts.length ≤ ([separator].intercalate parts).length + 1 := by
  induction parts with
  | nil => exact Nat.zero_le _
  | cons part parts ih =>
    cases parts with
    | nil => simp
    | cons next parts =>
      simp only [List.intercalate_cons_cons, List.length_append, List.length_cons, List.length_nil] at ih ⊢
      omega

section Several

variable {α β : Type} {separator : Token} {item : Reader α} {written : β → List Token} {value : β → α}
  (Stops : List Token → Prop)

theorem severalWithin_intercalate {bs : List β} (hne : bs ≠ [])
    (h : ∀ b ∈ bs, ∀ rest, Stops rest → item (written b ++ rest) = some (value b, rest))
    (hseparator : ∀ rest, Stops (separator :: rest)) {rest : List Token} (hstops : Stops rest)
    (hrest : rest.head? ≠ some separator) {count : Nat} (hcount : bs.length ≤ count) :
    severalWithin separator item count ([separator].intercalate (bs.map written) ++ rest) =
      some (bs.map value, rest) := by
  induction bs generalizing count with
  | nil => exact absurd rfl hne
  | cons b bs ih =>
    obtain ⟨count, rfl⟩ : ∃ n, count = n + 1 := ⟨count - 1, by simp only [List.length_cons] at hcount; omega⟩
    have hb := h b List.mem_cons_self
    cases bs with
    | nil =>
      -- The last item: what stands behind it is not a separator.
      rw [List.map_singleton, List.intercalate_singleton, severalWithin, hb rest hstops]
      cases rest with
      | nil => rfl
      | cons t rest =>
        have ht : t ≠ separator := fun heq => hrest (by rw [heq]; rfl)
        simp [ht]
    | cons c bs =>
      have hless : (c :: bs).length ≤ count := by simpa using hcount
      have htail := ih (List.cons_ne_nil c bs) (fun x hx => h x (List.mem_cons_of_mem _ hx)) hless
      rw [List.map_cons, List.map_cons, List.intercalate_cons_cons, List.append_assoc, List.append_assoc,
        List.singleton_append, severalWithin, hb _ (hseparator _)]
      simp only [if_true]
      rw [← List.map_cons, htail]
      rfl

/-- Items that are read in front of separators are read one after the other. -/
theorem several_intercalate {bs : List β} (hne : bs ≠ [])
    (h : ∀ b ∈ bs, ∀ rest, Stops rest → item (written b ++ rest) = some (value b, rest))
    (hseparator : ∀ rest, Stops (separator :: rest)) {rest : List Token} (hstops : Stops rest)
    (hrest : rest.head? ≠ some separator) :
    several separator item ([separator].intercalate (bs.map written) ++ rest) = some (bs.map value, rest) := by
  refine severalWithin_intercalate Stops hne h hseparator hstops hrest ?_
  have hlength := length_le_intercalate separator (bs.map written)
  rw [List.length_map] at hlength
  rw [List.length_append]
  omega

end Several

/-! ## Conditions -/

inductive Part where
  /-- The column has the value in the slot. -/
  | equals (column : String) (slot : Int)
  /-- The column has one of the values of the list in the slot. -/
  | member (column : String) (slot : Int)
  | nested (alternatives : List (List Part))

abbrev Condition := List (List Part)

def readComparison : Reader Part
  | .name c :: .sign '=' :: .placeholder slot :: rest => some (.equals c slot, rest)
  | .name c :: .sign '=' :: .word "ANY" :: .sign '(' :: .placeholder slot :: .sign ')' :: rest =>
    some (.member c slot, rest)
  | _ => none

/-- Reads a part, with a reader for conditions between brackets. -/
def readPart (inner : Reader Condition) : Reader Part
  | .sign '(' :: ts =>
    match inner ts with
    | some (c, .sign ')' :: rest) => some (.nested c, rest)
    | _ => none
  | ts => readComparison ts

/-- Reads a condition with fewer than `depth` brackets inside one another. -/
def conditionWithin : (depth : Nat) → Reader Condition
  | 0 => fun _ => none
  | depth + 1 => several (.word "OR") (several (.word "AND") (readPart (conditionWithin depth)))

def readCondition : Reader Condition := fun ts =>
  conditionWithin (ts.length + 1) ts

/-- The condition that a text is. -/
def Condition.read (text : String) : Option Condition :=
  readWhole readCondition text

/-! ## Truth -/

inductive Truth where
  | yes
  | no
  | unknown
deriving DecidableEq, Repr

namespace Truth

def and : Truth → Truth → Truth
  | .no, _ => .no
  | _, .no => .no
  | .yes, t => t
  | .unknown, _ => .unknown

def or : Truth → Truth → Truth
  | .yes, _ => .yes
  | _, .yes => .yes
  | .no, t => t
  | .unknown, _ => .unknown

theorem and_eq_yes_iff {s t : Truth} : s.and t = .yes ↔ s = .yes ∧ t = .yes := by
  cases s <;> cases t <;> simp [and]

theorem or_eq_yes_iff {s t : Truth} : s.or t = .yes ↔ s = .yes ∨ t = .yes := by
  cases s <;> cases t <;> simp [or]

/-- Whether two values are equal; nothing is known where one of them is missing. -/
def ofEqual (v w : Value) : Truth :=
  if v.isNull || w.isNull then .unknown else if v.equals w then .yes else .no

theorem ofEqual_eq_yes_iff {v w : Value} : ofEqual v w = .yes ↔ v.equals w = true := by
  unfold ofEqual
  split
  · next h =>
    rcases Bool.or_eq_true_iff.mp h with h | h
    · simp [Value.isNull_iff.mp h, Value.equals_null_left]
    · simp [Value.isNull_iff.mp h, Value.equals_null_right]
  · split
    · next h => simp [h]
    · next h => simp [h]

/-- Whether a value is one of the values of a list. -/
def ofMember (v : Value) : Value → Truth
  | .list ws => (ws.map (ofEqual v)).foldr or .no
  | _ => .unknown

theorem ofMember_eq_yes_iff {v w : Value} :
    ofMember v w = .yes ↔ ∃ ws, w = .list ws ∧ ws.any (v.equals ·) = true := by
  cases w with
  | list ws =>
    have hfold : (ws.map (ofEqual v)).foldr or .no = .yes ↔ ws.any (v.equals ·) = true := by
      induction ws with
      | nil => simp
      | cons w ws ih => rw [List.map_cons, List.foldr_cons, or_eq_yes_iff, ih, ofEqual_eq_yes_iff, List.any_cons,
          Bool.or_eq_true]
    simpa [ofMember] using hfold
  | _ => simp [ofMember]

end Truth

section Truth

variable (binding : Int → Value) (row : Row)

mutual

def Part.truth : Part → Truth
  | .equals c slot => .ofEqual (row.get c) (binding slot)
  | .member c slot => .ofMember (row.get c) (binding slot)
  | .nested alternatives => truthOfAny alternatives

def truthOfAny : List (List Part) → Truth
  | [] => .no
  | parts :: alternatives => (truthOfAll parts).or (truthOfAny alternatives)

def truthOfAll : List Part → Truth
  | [] => .yes
  | p :: parts => p.truth.and (truthOfAll parts)

end

/-- What a condition comes to on a row. -/
def Condition.truth (c : Condition) : Truth :=
  truthOfAny binding row c

variable {binding row}

theorem truthOfAll_eq_yes_iff {parts : List Part} :
    truthOfAll binding row parts = .yes ↔ ∀ p ∈ parts, p.truth binding row = .yes := by
  induction parts with
  | nil => simp [truthOfAll]
  | cons p parts ih => rw [truthOfAll, Truth.and_eq_yes_iff, ih, List.forall_mem_cons]

theorem Condition.truth_eq_yes_iff {c : Condition} :
    c.truth binding row = .yes ↔ ∃ parts ∈ c, ∀ p ∈ parts, p.truth binding row = .yes := by
  rw [truth]
  induction c with
  | nil => simp [truthOfAny]
  | cons parts c ih => rw [truthOfAny, Truth.or_eq_yes_iff, ih, truthOfAll_eq_yes_iff, List.exists_mem_cons_iff]

end Truth

/-! ## Written conditions -/

def equationTokens (term : String × Int) : List Token :=
  [.name term.1, .sign '=', .placeholder term.2]

def groupTokens (terms : List (String × Int)) : List Token :=
  .sign '(' :: ([.word "AND"].intercalate (terms.map equationTokens) ++ [.sign ')'])

def memberTokens (term : String × Int) : List Token :=
  [.name term.1, .sign '=', .word "ANY", .sign '(', .placeholder term.2, .sign ')']

def conditionTokens : KeyPredicate → List Token
  | .member c slot => memberTokens (c, slot)
  | .anyOf groups => [.word "OR"].intercalate (groups.map groupTokens)

section Spelling

theorem opens_sign (text : List Char) (front : List Token) (c : Char)
    (h : ∀ rest, tokensFrom .blank (text ++ rest) = front ++ tokensFrom (.sign c) rest) :
    Opens text (front ++ [.sign c]) := by
  intro rest
  rw [h, tokensFrom_of_extend?_eq_none fun _ _ => rfl, ← List.append_assoc]
  rfl

theorem opens_open : Opens "(".toList [.sign '('] := opens_sign _ [] '(' fun _ => rfl

theorem opens_close : Opens ")".toList [.sign ')'] := opens_sign _ [] ')' fun _ => rfl

theorem spells_equation {term : String × Int} (h : 0 ≤ term.2) :
    Spells (equation term).toList (equationTokens term) := by
  obtain ⟨c, slot⟩ := term
  obtain ⟨n, rfl⟩ := Int.eq_ofNat_of_zero_le h
  have hequals : Opens " = ".toList [.sign '='] := fun _ => rfl
  rw [equation, String.toList_append, String.toList_append]
  exact ((spells_identifier c).append_opens hequals (ends_blank _)).append_spells (spells_placeholder n)

theorem spells_group {terms : List (String × Int)} (h : ∀ t ∈ terms, 0 ≤ t.2) :
    Spells (group terms).toList (groupTokens terms) := by
  have hand : Opens " AND ".toList [.word "AND"] := fun _ => rfl
  have hterms := Spells.intercalate (fun t ht => spells_equation (h t ht)) hand (ends_blank _)
  rw [group, String.toList_append, String.toList_append, String.toList_intercalate, List.map_map]
  exact ((opens_open.append_spells hterms).append_opens opens_close (ends_close _)).spells

theorem spells_condition {p : KeyPredicate} (h : ∀ slot ∈ p.slots, 0 ≤ slot) :
    Spells (condition p).toList (conditionTokens p) := by
  cases p with
  | member c slot =>
    obtain ⟨n, rfl⟩ := Int.eq_ofNat_of_zero_le (h slot List.mem_cons_self)
    have hany : Opens " = ANY(".toList [.sign '=', .word "ANY", .sign '('] :=
      opens_sign _ [.sign '=', .word "ANY"] '(' fun _ => rfl
    rw [condition, String.toList_append, String.toList_append, String.toList_append]
    have hlist := ((spells_identifier c).append_opens hany (ends_blank _)).append_spells (spells_placeholder n)
    exact (hlist.append_opens opens_close (ends_close _)).spells
  | anyOf groups =>
    have hor : Opens " OR ".toList [.word "OR"] := fun _ => rfl
    have hgroups : ∀ g ∈ groups, Spells (group g).toList (groupTokens g) := by
      refine fun g hg => spells_group fun t ht => h t.2 ?_
      exact List.mem_map_of_mem (List.mem_flatten.mpr ⟨g, hg, ht⟩)
    rw [condition, String.toList_intercalate, List.map_map]
    exact Spells.intercalate hgroups hor (ends_blank _)

end Spelling

theorem slots_intercalate {ts : List Token} (h : ts.filterMap Token.slot? = []) (parts : List (List Token)) :
    (ts.intercalate parts).filterMap Token.slot? = (parts.map (List.filterMap Token.slot?)).flatten := by
  induction parts with
  | nil => rfl
  | cons part parts ih =>
    cases parts with
    | nil => simp
    | cons next parts =>
      rw [List.intercalate_cons_cons, List.filterMap_append, List.filterMap_append, h, ih]
      simp

/-- The placeholders of a condition are the slots of the predicate. -/
theorem slots_conditionTokens (p : KeyPredicate) : (conditionTokens p).filterMap Token.slot? = p.slots := by
  cases p with
  | member c slot => rfl
  | anyOf groups =>
    have hgroup (g : List (String × Int)) : (groupTokens g).filterMap Token.slot? = g.map (·.2) := by
      have hterms : (g.map equationTokens).map (List.filterMap Token.slot?) = g.map fun t => [t.2] := by
        rw [List.map_map]
        rfl
      rw [groupTokens, List.filterMap_cons_none rfl, List.filterMap_append, slots_intercalate rfl, hterms,
        ← List.flatMap_def, ← List.map_eq_flatMap]
      exact List.append_nil _
    rw [conditionTokens, slots_intercalate rfl, List.map_map, KeyPredicate.slots, List.map_flatten]
    exact congrArg List.flatten (List.map_congr_left fun g _ => hgroup g)

/-! ## Reading back -/

/-- The condition that a key predicate is written as. -/
def Condition.ofPredicate : KeyPredicate → Condition
  | .member c slot => [[.member c slot]]
  | .anyOf groups => groups.map fun g => [.nested [g.map fun t => .equals t.1 t.2]]

/-- A predicate compares something, in every group. -/
def Compares : KeyPredicate → Prop
  | .member _ _ => True
  | .anyOf groups => groups ≠ [] ∧ ∀ g ∈ groups, g ≠ []

/-- A condition does not go on. -/
def EndsCondition (rest : List Token) : Prop :=
  rest.head? ≠ some (.word "OR") ∧ rest.head? ≠ some (.word "AND")

theorem endsCondition_nil : EndsCondition [] := ⟨by simp, by simp⟩

section Reading

variable {β : Type} {rest : List Token}

/-- Parts between `AND` in alternatives between `OR` are a condition. -/
theorem conditionWithin_alternatives (depth : Nat) (written : β → List Token) (value : β → Part)
    {alternatives : List (List β)} (hne : alternatives ≠ [])
    (hparts : ∀ parts ∈ alternatives, parts ≠ [])
    (h : ∀ parts ∈ alternatives, ∀ b ∈ parts, ∀ rest,
      readPart (conditionWithin depth) (written b ++ rest) = some (value b, rest)) (hrest : EndsCondition rest) :
    conditionWithin (depth + 1) ([.word "OR"].intercalate (alternatives.map fun parts =>
        [.word "AND"].intercalate (parts.map written)) ++ rest) = some (alternatives.map (·.map value), rest) := by
  refine several_intercalate (fun rest => rest.head? ≠ some (.word "AND")) hne (fun parts hmem rest hstops => ?_)
    (fun rest => by simp) hrest.2 hrest.1
  exact several_intercalate (fun _ => True) (hparts parts hmem) (fun b hb rest _ => h parts hmem b hb rest)
    (fun _ => trivial) trivial hstops

theorem readPart_equation (inner : Reader Condition) (term : String × Int) (rest : List Token) :
    readPart inner (equationTokens term ++ rest) = some (.equals term.1 term.2, rest) := rfl

theorem readPart_member (inner : Reader Condition) (term : String × Int) (rest : List Token) :
    readPart inner (memberTokens term ++ rest) = some (.member term.1 term.2, rest) := rfl

theorem readPart_group {terms : List (String × Int)} (h : terms ≠ []) (depth : Nat) (rest : List Token) :
    readPart (conditionWithin (depth + 1)) (groupTokens terms ++ rest) =
      some (.nested [terms.map fun t => .equals t.1 t.2], rest) := by
  have hends : EndsCondition (.sign ')' :: rest) := ⟨by simp, by simp⟩
  have hinner := conditionWithin_alternatives depth equationTokens (fun t => .equals t.1 t.2)
    (List.cons_ne_nil terms []) (by simpa using h) (fun _ _ t _ rest => readPart_equation _ t rest) hends
  rw [List.map_singleton, List.intercalate_singleton] at hinner
  rw [groupTokens, List.cons_append, List.append_assoc, List.singleton_append, readPart, hinner]
  rfl

theorem conditionWithin_conditionTokens {p : KeyPredicate} (h : Compares p) (hrest : EndsCondition rest) (depth : Nat) :
    conditionWithin (depth + 2) (conditionTokens p ++ rest) = some (.ofPredicate p, rest) := by
  cases p with
  | member c slot =>
    have hread := conditionWithin_alternatives (depth + 1) memberTokens (fun t => .member t.1 t.2)
      (List.cons_ne_nil [(c, slot)] []) (by simp) (fun _ _ t _ rest => readPart_member _ t rest) hrest
    simpa [conditionTokens, Condition.ofPredicate] using hread
  | anyOf groups =>
    -- Each group is an alternative with one part, which is a condition between brackets.
    have hgroups : ∀ parts ∈ groups.map ([·]), ∀ g ∈ parts, ∀ rest,
        readPart (conditionWithin (depth + 1)) (groupTokens g ++ rest) =
          some (.nested [g.map fun t => .equals t.1 t.2], rest) := by
      intro parts hmem g hg rest
      obtain ⟨g', hg', rfl⟩ := List.mem_map.mp hmem
      obtain rfl := List.mem_singleton.mp hg
      exact readPart_group (h.2 g hg') depth rest
    have hread := conditionWithin_alternatives (depth + 1) groupTokens _ (by simpa using h.1) (by simp) hgroups hrest
    simpa [conditionTokens, Condition.ofPredicate, Function.comp_def] using hread

/-- A written key predicate is read back, in front of whatever ends it. -/
theorem readCondition_conditionTokens {p : KeyPredicate} (h : Compares p) (hrest : EndsCondition rest) :
    readCondition (conditionTokens p ++ rest) = some (.ofPredicate p, rest) := by
  obtain ⟨n, hn⟩ : ∃ n, (conditionTokens p ++ rest).length + 1 = n + 2 := by
    have hpos : conditionTokens p ≠ [] := by
      rintro hnil
      have hread := conditionWithin_conditionTokens h endsCondition_nil 0
      rw [hnil] at hread
      cases hread
    have hlength := List.length_pos_iff.mpr hpos
    exact ⟨(conditionTokens p ++ rest).length - 1, by rw [List.length_append]; omega⟩
  rw [readCondition, hn]
  exact conditionWithin_conditionTokens h hrest n

theorem read_condition {p : KeyPredicate} (h : Compares p) (hslots : ∀ slot ∈ p.slots, 0 ≤ slot) :
    Condition.read (condition p) = some (.ofPredicate p) := by
  have hread := readCondition_conditionTokens h endsCondition_nil
  rw [List.append_nil] at hread
  exact readWhole_of_spells (spells_condition hslots) hread

end Reading

/-! ## Meaning -/

theorem truth_ofPredicate {p : KeyPredicate} {binding : Int → Value} {row : Row} :
    (Condition.ofPredicate p).truth binding row = .yes ↔ p.holds binding row = true := by
  rw [Condition.truth_eq_yes_iff]
  cases p with
  | member c slot =>
    have hmember : Truth.ofMember (row.get c) (binding slot) = .yes ↔
        (KeyPredicate.member c slot).holds binding row = true := by
      rw [Truth.ofMember_eq_yes_iff, KeyPredicate.holds]
      cases binding slot <;> simp
    simpa [Condition.ofPredicate, Part.truth] using hmember
  | anyOf groups =>
    have hgroup (g : List (String × Int)) :
        Part.truth binding row (.nested [g.map fun t => .equals t.1 t.2]) = .yes ↔
          ∀ t ∈ g, (row.get t.1).equals (binding t.2) = true := by
      rw [Part.truth, ← Condition.truth, Condition.truth_eq_yes_iff]
      simp only [List.mem_singleton, exists_eq_left, List.forall_mem_map, Part.truth, Truth.ofEqual_eq_yes_iff]
    simp [Condition.ofPredicate, KeyPredicate.holds, hgroup]

end RelatedRows.Sql

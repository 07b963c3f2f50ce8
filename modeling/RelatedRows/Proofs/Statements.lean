import Mathlib.Data.List.Forall2
import RelatedRows.Proofs.KeyConditions

/-!
# Statements

A written batch is read back as a statement that says where its rows come from, which of them and in which order, so two
batches that are written alike are the same batch.

* `Sql.Statement`, `Sql.Statement.read`: the statement that a text is.
* `Sql.read_batch`: a written batch is read back, whatever its names are.
* `BatchQuery.Agrees r`: two batches ask for the same, with values that are the same by `r`.
* `BatchQuery.render_injective`: batches with one text and the same parameters agree.
-/

namespace RelatedRows

namespace Sql

/-! ## Reading -/

structure Statement where
  /-- The columns to fetch; `none` stands for all of them. -/
  columns : Option (List String)
  table : String
  condition : Condition
  ordering : OrderBy

def readName : Reader String
  | .name c :: rest => some (c, rest)
  | _ => none

/-- Reads names between commas, a star for all columns, or nothing. -/
def readColumns : Reader (Option (List String)) := fun ts =>
  match several (.sign ',') readName ts, ts with
  | some (columns, rest), _ => some (some columns, rest)
  | none, .sign '*' :: rest => some (none, rest)
  | none, ts => some (some [], ts)

def readTerm : Reader (String × Direction)
  | .name c :: .word "ASC" :: rest => some ((c, .asc), rest)
  | .name c :: .word "DESC" :: rest => some ((c, .desc), rest)
  | _ => none

def readOrdering : Reader OrderBy
  | .word "ORDER" :: .word "BY" :: rest => several (.sign ',') readTerm rest
  | ts => some ([], ts)

def readStatement : Reader Statement
  | .word "SELECT" :: ts =>
    match readColumns ts with
    | some (columns, .word "FROM" :: .name table :: .word "WHERE" :: ts) => do
      let (condition, ts) ← readCondition ts
      let (ordering, ts) ← readOrdering ts
      return (⟨columns, table, condition, ordering⟩, ts)
    | _ => none
  | _ => none

/-- The statement that a text is. -/
def Statement.read (text : String) : Option Statement :=
  readWhole readStatement text

/-! ## Written statements -/

def columnTokens : Option (List String) → List Token
  | none => [.sign '*']
  | some columns => [.sign ','].intercalate (columns.map fun c => [.name c])

def termTokens (term : String × Direction) : List Token :=
  [.name term.1, .word term.2.keyword]

def orderTokens : OrderBy → List Token
  | [] => []
  | t :: ts => .word "ORDER" :: .word "BY" :: [.sign ','].intercalate ((t :: ts).map termTokens)

def batchTokens (q : BatchQuery) : List Token :=
  .word "SELECT" :: (columnTokens q.columns ++ .word "FROM" :: .name q.table :: .word "WHERE" ::
    (conditionTokens (KeyPredicate.ofColumns q.keyColumns q.keys.length 1) ++ orderTokens q.ordering))

/-- The terms of an ordering have one of the two known directions. -/
def Directed (o : OrderBy) : Prop :=
  ∀ t ∈ o, t.2 = .asc ∨ t.2 = .desc

section Spelling

theorem opens_comma : Opens ", ".toList [.sign ','] := fun _ => rfl

theorem spells_columns (columns : Option (List String)) :
    Spells (columnList columns).toList (columnTokens columns) := by
  cases columns with
  | none => exact (opens_sign "*".toList [] '*' fun _ => rfl).spells
  | some columns =>
    rw [columnList, String.toList_intercalate, List.map_map]
    exact Spells.intercalate (fun c _ => spells_identifier c) opens_comma (ends_comma _)

theorem spells_term {term : String × Direction} (h : term.2 = .asc ∨ term.2 = .desc) :
    Spells (orderTerm term).toList (termTokens term) := by
  have hspace : Opens " ".toList [] := fun _ => rfl
  have hkeyword : Spells term.2.keyword.toList [.word term.2.keyword] := by
    rcases h with h | h <;> rw [h]
    · exact spells_of_lexeme "ASC".toList (.word "ASC".toList) (by simp) fun _ => rfl
    · exact spells_of_lexeme "DESC".toList (.word "DESC".toList) (by simp) fun _ => rfl
  rw [orderTerm, String.toList_append, String.toList_append]
  exact ((spells_identifier term.1).append_opens hspace (ends_blank _)).append_spells hkeyword

theorem spells_terms {o : OrderBy} (h : Directed o) :
    Spells (", ".intercalate (o.map orderTerm)).toList ([.sign ','].intercalate (o.map termTokens)) := by
  rw [String.toList_intercalate, List.map_map]
  exact Spells.intercalate (fun t ht => spells_term (h t ht)) opens_comma (ends_comma _)

theorem spells_batch {q : BatchQuery} (h : Directed q.ordering) : Spells (batch q).toList (batchTokens q) := by
  have hselect : Opens "SELECT ".toList [.word "SELECT"] := fun _ => rfl
  have hfrom : Opens " FROM ".toList [.word "FROM"] := fun _ => rfl
  have hwhere : Opens " WHERE ".toList [.word "WHERE"] := fun _ => rfl
  have hcolumns := (hselect.append_spells (spells_columns q.columns)).append_opens hfrom (ends_blank _)
  have htable := (hcolumns.append_spells (spells_identifier q.table)).append_opens hwhere (ends_blank _)
  have hcondition := htable.append_spells
    (spells_condition (KeyPredicate.nonneg_of_mem_slots q.keyColumns q.keys.length 1))
  cases horder : q.ordering with
  | nil => simpa [batch, batchTokens, horder, orderBy, orderTokens] using hcondition
  | cons t ts =>
    have horderBy : Opens " ORDER BY ".toList [.word "ORDER", .word "BY"] := fun _ => rfl
    have hterms := (hcondition.append_opens horderBy (ends_blank _)).append_spells
      (spells_terms (horder ▸ h))
    have hclause : orderBy (t :: ts) = "ORDER BY " ++ ", ".intercalate ((t :: ts).map orderTerm) := rfl
    have hne : orderBy (t :: ts) ≠ "" := by
      rw [hclause, ← String.toList_inj.ne]
      simp
    simp only [batch, batchTokens, horder]
    rw [if_neg hne, hclause]
    simpa [orderTokens] using hterms

end Spelling

/-! ## Reading back -/

section Reading

variable {rest : List Token}

theorem readColumns_columnTokens (columns : Option (List String)) :
    readColumns (columnTokens columns ++ .word "FROM" :: rest) = some (columns, .word "FROM" :: rest) := by
  match columns with
  | none => rfl
  | some [] => rfl
  | some (c :: cs) =>
    have hread : several (.sign ',') readName (columnTokens (some (c :: cs)) ++ .word "FROM" :: rest) =
        some ((c :: cs).map id, .word "FROM" :: rest) :=
      several_intercalate (fun _ => True) (List.cons_ne_nil c cs) (fun _ _ _ _ => rfl) (fun _ => trivial) trivial
        (by simp)
    unfold readColumns
    rw [hread, List.map_id]

theorem readOrdering_orderTokens {o : OrderBy} (h : Directed o) : readOrdering (orderTokens o) = some (o, []) := by
  cases o with
  | nil => rfl
  | cons t ts =>
    have hterm : ∀ u ∈ t :: ts, ∀ rest, readTerm (termTokens u ++ rest) = some (id u, rest) := by
      rintro ⟨c, d⟩ hmem rest
      obtain rfl | rfl : d = .asc ∨ d = .desc := h (c, d) hmem
      · rfl
      · rfl
    have hread : several (.sign ',') readTerm ([.sign ','].intercalate ((t :: ts).map termTokens) ++ []) =
        some ((t :: ts).map id, []) :=
      several_intercalate (fun _ => True) (List.cons_ne_nil t ts) (fun u hu rest _ => hterm u hu rest)
        (fun _ => trivial) trivial (by simp)
    rw [List.append_nil, List.map_id] at hread
    exact hread

theorem endsCondition_orderTokens (o : OrderBy) : EndsCondition (orderTokens o) := by
  cases o with
  | nil => exact endsCondition_nil
  | cons t ts => exact ⟨by simp [orderTokens], by simp [orderTokens]⟩

end Reading

end Sql

/-! ## Batches -/

/-- The statement that a batch is written as. -/
def BatchQuery.statement (q : BatchQuery) : Sql.Statement :=
  ⟨q.columns, q.table, .ofPredicate (.ofColumns q.keyColumns q.keys.length 1), q.ordering⟩

/-- A batch has key columns and keys of as many components, and orders its rows in one of the two known directions. -/
structure BatchQuery.Proper (q : BatchQuery) : Prop where
  keyColumns_ne : q.keyColumns ≠ []
  keys_ne : q.keys ≠ []
  length_key : ∀ key ∈ q.keys, key.length = q.keyColumns.length
  directed : Sql.Directed q.ordering

theorem BatchQuery.Proper.length_keys_ne {q : BatchQuery} (h : q.Proper) : q.keys.length ≠ 0 :=
  fun hzero => h.keys_ne (List.length_eq_zero_iff.mp hzero)

theorem BatchQuery.Proper.render_eq {q : BatchQuery} (h : q.Proper) :
    q.render = .ok (Sql.batch q, keyParameters q.keyColumns q.keys) := by
  rw [render, if_pos (keysFit_of_length h.length_key)]

/-- Two batches ask for the same, with values that are the same by `r`. -/
structure BatchQuery.Agrees (r : Value → Value → Prop) (q q' : BatchQuery) : Prop where
  table : q.table = q'.table
  keyColumns : q.keyColumns = q'.keyColumns
  keys : List.Forall₂ (List.Forall₂ r) q.keys q'.keys
  columns : q.columns = q'.columns
  ordering : q.ordering = q'.ordering

theorem BatchQuery.Agrees.eq {q q' : BatchQuery} (h : Agrees Eq q q') : q = q' := by
  obtain ⟨htable, hkeyColumns, hkeys, hcolumns, hordering⟩ := h
  rw [List.forall₂_eq_eq_eq, List.forall₂_eq_eq_eq] at hkeys
  cases q
  cases q'
  simp_all

/-- A written batch is read back, whatever its names are. -/
theorem Sql.read_batch {q : BatchQuery} (h : q.Proper) : Statement.read (batch q) = some q.statement := by
  refine readWhole_of_spells (spells_batch h.directed) ?_
  have hcompares := KeyPredicate.compares_ofColumns h.keyColumns_ne h.length_keys_ne 1
  rw [batchTokens, readStatement, readColumns_columnTokens]
  simp only
  rw [readCondition_conditionTokens hcompares (endsCondition_orderTokens q.ordering)]
  simp [readOrdering_orderTokens h.directed, BatchQuery.statement]

/-! ## What a statement leaves open -/

def Sql.Part.column? : Part → Option String
  | .equals c _ => some c
  | .member c _ => some c
  | .nested _ => none

/-- The columns that the first alternative of a condition compares. -/
def Sql.Condition.firstColumns : Condition → List String
  | [.nested (parts :: _)] :: _ => parts.filterMap Part.column?
  | parts :: _ => parts.filterMap Part.column?
  | [] => []

theorem Sql.Condition.firstColumns_ofColumns {columns : List String} {count : Nat} (hcount : count ≠ 0) (start : Int) :
    firstColumns (.ofPredicate (.ofColumns columns count start)) = columns := by
  obtain ⟨count, rfl⟩ := Nat.exists_eq_succ_of_ne_zero hcount
  have hgroup (columns : List String) (slot : Int) :
      ((KeyPredicate.groupAt columns slot).map fun t => Part.equals t.1 t.2).filterMap Part.column? = columns := by
    induction columns generalizing slot with
    | nil => rfl
    | cons c columns ih => simpa [KeyPredicate.groupAt, Part.column?] using ih (slot + 1)
  by_cases hone : columns.length = 1
  · obtain ⟨c, rfl⟩ := List.length_eq_one_iff.mp hone
    rfl
  · rw [KeyPredicate.ofColumns_of_length_ne_one hone]
    exact hgroup columns start

section Keys

variable {r : Value → Value → Prop} {columns : List String} {keys keys' : List Key}

/-- Lists of keys of one length are the same if their components are, one after the other. -/
theorem forall₂_of_flatten {n : Nat} (hn : n ≠ 0) (hlength : ∀ key ∈ keys, key.length = n)
    (hlength' : ∀ key ∈ keys', key.length = n) (h : List.Forall₂ r keys.flatten keys'.flatten) :
    List.Forall₂ (List.Forall₂ r) keys keys' := by
  have hcount : keys.length * n = keys'.length * n := by
    have hflatten := h.length_eq
    rwa [List.length_flatten, List.length_flatten, List.map_congr_left hlength, List.map_congr_left hlength',
      List.map_const', List.map_const', List.sum_replicate_nat, List.sum_replicate_nat] at hflatten
  replace hcount := Nat.eq_of_mul_eq_mul_right (Nat.pos_of_ne_zero hn) hcount
  induction keys generalizing keys' with
  | nil =>
    obtain rfl := List.length_eq_zero_iff.mp hcount.symm
    exact .nil
  | cons key keys ih =>
    obtain ⟨key', keys', rfl⟩ := List.exists_cons_of_length_eq_add_one hcount.symm
    rw [List.forall_mem_cons] at hlength hlength'
    have hsame : key.length = key'.length := hlength.1.trans hlength'.1.symm
    rw [List.flatten_cons, List.flatten_cons] at h
    have hkey := List.forall₂_take_append _ _ _ h
    have hkeys := List.forall₂_drop_append _ _ _ h
    rw [List.take_left' hsame] at hkey
    rw [List.drop_left' hsame] at hkeys
    exact .cons hkey (ih hlength.2 hlength'.2 hkeys (Nat.succ.inj hcount))

/-- The parameters of keys of the right length determine the keys. -/
theorem forall₂_of_keyParameters (hlist : ∀ vs ws, r (.list vs) (.list ws) → List.Forall₂ r vs ws)
    (hcolumns : columns ≠ []) (hlength : ∀ key ∈ keys, key.length = columns.length)
    (hlength' : ∀ key ∈ keys', key.length = columns.length)
    (h : List.Forall₂ r (keyParameters columns keys) (keyParameters columns keys')) :
    List.Forall₂ (List.Forall₂ r) keys keys' := by
  have hn : columns.length ≠ 0 := fun hzero => hcolumns (List.length_eq_zero_iff.mp hzero)
  refine forall₂_of_flatten hn hlength hlength' ?_
  by_cases hone : columns.length = 1
  · obtain ⟨c, rfl⟩ := List.length_eq_one_iff.mp hone
    have hsingle {keys : List Key} (hlength : ∀ key ∈ keys, key.length = 1) :
        keys.map (fun key => key.headD .null) = keys.flatten := by
      rw [← List.flatMap_id, List.map_eq_flatMap]
      refine List.flatMap_congr fun key hkey => ?_
      obtain ⟨v, rfl⟩ := List.length_eq_one_iff.mp (hlength key hkey)
      rfl
    obtain ⟨hvalues, -⟩ := List.forall₂_cons.mp h
    rw [hsingle hlength, hsingle hlength'] at hvalues
    exact hlist _ _ hvalues
  · rwa [keyParameters_of_length_ne_one hone, keyParameters_of_length_ne_one hone] at h

end Keys

section Batches

variable {r : Value → Value → Prop} {q q' : BatchQuery}

theorem BatchQuery.keyColumns_of_statement (h : q.Proper) (h' : q'.Proper) (hstatement : q.statement = q'.statement) :
    q.keyColumns = q'.keyColumns := by
  have hfirst := congrArg (fun s => s.condition.firstColumns) hstatement
  simpa [statement, Sql.Condition.firstColumns_ofColumns, h.length_keys_ne, h'.length_keys_ne] using hfirst

/-- A statement leaves nothing open but the keys, and their parameters determine them. -/
theorem BatchQuery.agrees_of_statement (hlist : ∀ vs ws, r (.list vs) (.list ws) → List.Forall₂ r vs ws) (h : q.Proper)
    (h' : q'.Proper) (hstatement : q.statement = q'.statement)
    (hparameters : List.Forall₂ r (keyParameters q.keyColumns q.keys) (keyParameters q'.keyColumns q'.keys)) :
    q.Agrees r q' where
  table := congrArg Sql.Statement.table hstatement
  keyColumns := keyColumns_of_statement h h' hstatement
  keys := by
    have hcolumns := keyColumns_of_statement h h' hstatement
    rw [← hcolumns] at hparameters
    exact forall₂_of_keyParameters hlist h.keyColumns_ne h.length_key (hcolumns ▸ h'.length_key) hparameters
  columns := congrArg Sql.Statement.columns hstatement
  ordering := congrArg Sql.Statement.ordering hstatement

end Batches

/-- A batch is written as a text that is read back as its statement, with parameters; and only batches that agree with
it are written as this text with the same parameters, whatever it is for values to be the same, if lists are so item by
item. -/
theorem BatchQuery.render_injective {q : BatchQuery} (h : q.Proper) :
    ∃ text parameters, q.render = .ok (text, parameters) ∧ Sql.Statement.read text = some q.statement ∧
      ∀ q' : BatchQuery, q'.Proper →
        (q'.render = .ok (text, parameters) → q = q') ∧
        ∀ r : Value → Value → Prop, (∀ vs ws, r (.list vs) (.list ws) → List.Forall₂ r vs ws) →
          ∀ parameters', q'.render = .ok (text, parameters') → List.Forall₂ r parameters parameters' →
            q.Agrees r q' := by
  refine ⟨_, _, h.render_eq, Sql.read_batch h, fun q' h' => ?_⟩
  have hagrees (r : Value → Value → Prop) (hlist : ∀ vs ws, r (.list vs) (.list ws) → List.Forall₂ r vs ws)
      (parameters' : List Value) (heq : q'.render = .ok (Sql.batch q, parameters'))
      (hparameters : List.Forall₂ r (keyParameters q.keyColumns q.keys) parameters') : q.Agrees r q' := by
    rw [h'.render_eq] at heq
    obtain ⟨htext, rfl⟩ := Prod.mk.inj (Except.ok.inj heq)
    have hread := Sql.read_batch h'
    rw [htext, Sql.read_batch h] at hread
    exact agrees_of_statement hlist h h' (Option.some.inj hread) hparameters
  refine ⟨fun heq => (hagrees Eq ?_ _ heq (List.forall₂_refl _)).eq, hagrees⟩
  intro vs ws hsame
  obtain rfl := Value.list.inj hsame
  exact List.forall₂_refl vs

/-- Names that look like the clauses of a statement. -/
def sneakyBatch : BatchQuery where
  table := "a\" WHERE \"b"
  keyColumns := ["id\" = ANY($1)", "$2"]
  keys := [[.int 1, .text "\""], [.int 2, .text "x"]]
  columns := some ["*", "c\", \"d", "FROM"]
  ordering := [("e\" ASC, \"f", .desc), ("", .asc)]

theorem BatchQuery.render_injective_sneaky :
    ∃ text parameters, sneakyBatch.render = .ok (text, parameters) ∧
      Sql.Statement.read text = some sneakyBatch.statement ∧
      { sneakyBatch with columns := none }.render ≠ .ok (text, parameters) := by
  have hproper : sneakyBatch.Proper := ⟨by decide, by decide, by decide, by unfold Sql.Directed; decide⟩
  obtain ⟨text, parameters, hrender, hread, hsame⟩ := BatchQuery.render_injective hproper
  refine ⟨text, parameters, hrender, hread, fun heq => ?_⟩
  have hother : BatchQuery.Proper { sneakyBatch with columns := none } := { hproper with }
  have hcolumns := congrArg BatchQuery.columns ((hsame _ hother).1 heq)
  exact absurd hcolumns (by decide)

end RelatedRows

import RelatedRows.Proofs.Requests

/-!
# What an entry compiles to

* `Form.field_cons_of_some`, `Form.field_of_absent`: a field under the first of its names, and one that is not there.
* `Value.isOn`, `Value.included`: whether an entry is not turned off, and what it includes below its relation.
* `Entry.included_of_read`: an options object is read with what it includes.
* `Compiled.Of`: what compiling an entry can come to; `compileEntry_eq_ok_iff`: it comes to this and to nothing else.
-/

namespace RelatedRows

open Form

/-! ## Fields -/

namespace Form

variable {α : Type} {F : Row} {name : String} {names : List String}

theorem field_cons_of_some {v : Value} (h : F.lookup name = some v) (default : α)
    (read : List Step → Value → Checked α) : field F (name :: names) default read = read [.field name] v := by
  unfold field
  rw [List.find?_cons_of_pos (by rw [h]; rfl)]
  simp only [Row.get_eq_lookup, h, Option.getD_some]

theorem field_of_absent (h : ∀ c ∈ names, F.lookup c = none) (default : α) (read : List Step → Value → Checked α) :
    field F names default read = .ok default := by
  have hnone : names.find? (fun c => (F.lookup c).isSome) = none := by
    rw [List.find?_eq_none]
    intro c hc
    simp [h c hc]
  unfold field
  rw [hnone]

end Form

/-! ## Entries -/

namespace Value

/-- Whether the value of an entry does not turn it off. -/
def isOn : Value → Bool
  | .null | .bool false => false
  | _ => true

/-- The fields of an object; any other value has none. -/
def entries : Value → Row
  | .object fields => fields
  | _ => []

/-- What the value of an entry asks to include below the rows of its relation. -/
def included (v : Value) : Row :=
  ((v.field? "include").getD .null).entries

theorem included_object (fields : Row) :
    (object fields).included = ((fields.lookup "include").getD .null).entries := rfl

end Value

namespace Entry

theorem below_eq_none {fields : Row} (h : fields.lookup "include" = none) : includeOf fields = .ok none :=
  field_of_absent (by simpa using h) none _

theorem includeOf_of_some {fields : Row} {v : Value} (h : fields.lookup "include" = some v) :
    includeOf fields = Form.optional (object [.field "include"]) v :=
  field_cons_of_some h none _

theorem read_eq_ok {fields : Row} {entry : Entry} (h : Entry.read fields = .ok entry) :
    readFields fields = .ok entry ∧ entry.options.orderFits = true := by
  obtain ⟨u, -, h⟩ := Except.bind_eq_ok h
  obtain ⟨entry', hfields, h⟩ := Except.bind_eq_ok h
  split at h
  · next hfits =>
    cases h
    exact ⟨hfields, hfits⟩
  · cases h

/-- An options object is read with what it includes. -/
theorem included_of_read {fields : Row} {entry : Entry} (h : Entry.read fields = .ok entry) :
    entry.below.getD [] = (Value.object fields).included := by
  obtain ⟨options, below⟩ := entry
  have hbelow := readFields_eq_ok (read_eq_ok h).1
  rw [Value.included_object]
  cases hlookup : fields.lookup "include" with
  | none =>
    rw [below_eq_none hlookup] at hbelow
    cases hbelow
    rfl
  | some v =>
    rw [includeOf_of_some hlookup] at hbelow
    cases v with
    | null =>
      cases hbelow
      rfl
    | object below =>
      cases hbelow
      rfl
    | _ => cases hbelow

end Entry

/-! ## Compiling an entry -/

/-- The options that an entry has if its value is in order. -/
inductive Value.HasOptions (g : Graph) (relation : Relation) (key : String) : Value → Options → Prop
  | on : HasOptions g relation key (.bool true) {}
  | object {fields : Row} {entry : Entry} {target : Entity} (hread : Entry.read fields = .ok entry)
    (htarget : g.entity? relation.target = some target)
    (hcolumns : vetColumns target key (entry.options.columns.map .text) = .ok ()) :
    HasOptions g relation key (.object fields) entry.options

/-- What compiling an entry comes to if nothing is wrong with it. -/
inductive Compiled.Of (g : Graph) (deeper : Option LevelCompiler) (entity : String) (depth : Nat) (path : List String) :
    String × Value → Compiled → Prop
  | off {key : String} {v : Value} {relation : Relation} (hrelation : g.lookup? entity key = some relation)
    (hoff : v.isOn = false) : Of g deeper entity depth path (key, v) {}
  | single {key : String} {v : Value} {relation : Relation} {options : Options}
    (hrelation : g.lookup? entity key = some relation) (hoptions : v.HasOptions g relation key options)
    (hnone : v.included = []) :
    Of g deeper entity depth path (key, v) ⟨some (.leaf ⟨key, relation, depth, options⟩), []⟩
  | deepest {key : String} {v : Value} {relation : Relation} {options : Options}
    (hrelation : g.lookup? entity key = some relation) (hoptions : v.HasOptions g relation key options)
    (hsome : v.included ≠ []) (hdeeper : deeper = none) :
    Of g deeper entity depth path (key, v)
      ⟨some (.leaf ⟨key, relation, depth, options⟩), [".".intercalate (path ++ [key])]⟩
  | nested {key : String} {v : Value} {relation : Relation} {options : Options} {compileLevel : LevelCompiler}
    {q : Plan} (hrelation : g.lookup? entity key = some relation) (hoptions : v.HasOptions g relation key options)
    (hsome : v.included ≠ []) (hdeeper : deeper = some compileLevel)
    (hnested : compileLevel relation.target (depth + 1) (path ++ [key]) (.object v.included) = .ok q) :
    Of g deeper entity depth path (key, v)
      ⟨some (if q.isEmpty then .leaf ⟨key, relation, depth, options⟩ else .branch ⟨key, relation, depth, options⟩ q),
        q.pruned⟩

section Compile

variable {g : Graph} {deeper : Option LevelCompiler} {entity : String} {depth : Nat} {path : List String}
  {field : String × Value} {c : Compiled}

/-- Options are compiled by what is included below them. -/
theorem compileOptions_eq (step : Inclusion) (entry : Entry) :
    compileOptions deeper depth path step entry =
      if entry.below.getD [] = [] then .ok ⟨some (.leaf step), []⟩
      else
        match deeper with
        | none => .ok ⟨some (.leaf step), [".".intercalate (path ++ [step.key])]⟩
        | some compileLevel => do
          let nested ← compileLevel step.relation.target (depth + 1) (path ++ [step.key])
            (.object (entry.below.getD []))
          return ⟨some (if nested.isEmpty then .leaf step else .branch step nested), nested.pruned⟩ := by
  unfold compileOptions
  cases entry.below with
  | none => rfl
  | some below => cases below <;> rfl

theorem compileEntry_of (h : compileEntry g deeper entity depth path field = .ok c) :
    Compiled.Of g deeper entity depth path field c := by
  obtain ⟨key, v⟩ := field
  unfold compileEntry at h
  simp only at h
  split at h
  · cases h
  next relation hrelation =>
  split at h
  · cases h
    exact .off hrelation rfl
  · cases h
    exact .off hrelation rfl
  · cases h
    exact .single hrelation .on rfl
  · next fields =>
    split at h
    · cases h
    next entry hread =>
    split at h
    · cases h
    next target htarget =>
    obtain ⟨u, hcolumns, h⟩ := Except.bind_eq_ok h
    have hoptions : (Value.object fields).HasOptions g relation key entry.options := .object hread htarget hcolumns
    rw [compileOptions_eq, Entry.included_of_read hread] at h
    split at h
    · next hnone =>
      cases h
      exact .single hrelation hoptions hnone
    next hsome =>
    split at h
    · cases h
      exact .deepest hrelation hoptions hsome rfl
    · next compileLevel =>
      obtain ⟨q, hnested, h⟩ := Except.bind_eq_ok h
      cases h
      exact .nested hrelation hoptions hsome rfl hnested
  · cases h

variable (deeper depth path) in
theorem compileEntry_options {key : String} {v : Value} {relation : Relation} {options : Options}
    (hrelation : g.lookup? entity key = some relation) (hoptions : v.HasOptions g relation key options) :
    ∃ entry : Entry, entry.below.getD [] = v.included ∧
      compileEntry g deeper entity depth path (key, v) =
        compileOptions deeper depth path ⟨key, relation, depth, options⟩ entry := by
  unfold compileEntry
  simp only [hrelation]
  cases hoptions with
  | on => exact ⟨⟨{}, none⟩, rfl, rfl⟩
  | object hread htarget hcolumns =>
    refine ⟨_, Entry.included_of_read hread, ?_⟩
    simp only [hread, htarget, hcolumns]
    rfl

/-- What compiling an entry comes to. -/
theorem compileEntry_eq_ok_iff :
    compileEntry g deeper entity depth path field = .ok c ↔ Compiled.Of g deeper entity depth path field c := by
  refine ⟨compileEntry_of, fun h => ?_⟩
  cases h with
  | @off key v relation hrelation hoff =>
    unfold compileEntry
    simp only [hrelation]
    unfold Value.isOn at hoff
    split at hoff
    · rfl
    · rfl
    · cases hoff
  | single hrelation hoptions hnone =>
    obtain ⟨entry, hbelow, heq⟩ := compileEntry_options deeper depth path hrelation hoptions
    rw [heq, compileOptions_eq, if_pos (hbelow.trans hnone)]
  | deepest hrelation hoptions hsome hdeeper =>
    obtain ⟨entry, hbelow, heq⟩ := compileEntry_options deeper depth path hrelation hoptions
    rw [heq, compileOptions_eq, if_neg (hbelow ▸ hsome), hdeeper]
  | nested hrelation hoptions hsome hdeeper hnested =>
    obtain ⟨entry, hbelow, heq⟩ := compileEntry_options deeper depth path hrelation hoptions
    rw [heq, compileOptions_eq, if_neg (hbelow ▸ hsome), hdeeper, hbelow]
    simp only [hnested]
    rfl

/-- A level is compiled entry by entry. -/
theorem exists_compiled_of_compileSpec {spec : Value} {p : Plan}
    (h : compileSpec g deeper entity depth path spec = .ok p) :
    ∃ cs, List.Forall₂ (Compiled.Of g deeper entity depth path) spec.entries cs ∧
      p = .mk entity depth (cs.filterMap (·.node)) (cs.flatMap (·.pruned)) := by
  unfold compileSpec at h
  split at h
  · cases h
    exact ⟨[], .nil, rfl⟩
  · obtain ⟨cs, hcs, h⟩ := Except.bind_eq_ok h
    cases h
    exact ⟨cs, (Except.mapM_eq_ok_iff.mp hcs).imp fun _ _ => compileEntry_of, rfl⟩
  · cases h

variable (g) in
/-- Each level is compiled by a compiler for the levels below it, if there are any. -/
theorem exists_compileSpec (below : Nat) : ∃ deeper, compileLevel g below = compileSpec g deeper := by
  cases below <;> exact ⟨_, rfl⟩

/-- A node comes from an entry. -/
theorem exists_entry_of_mem_nodes {spec : Value} {p : Plan} (h : compileSpec g deeper entity depth path spec = .ok p)
    {n : PlanNode} (hn : n ∈ p.nodes) :
    ∃ f ∈ spec.entries, ∃ c, Compiled.Of g deeper entity depth path f c ∧ c.node = some n := by
  obtain ⟨cs, hcs, rfl⟩ := exists_compiled_of_compileSpec h
  obtain ⟨c, hc, hnode⟩ := List.mem_filterMap.mp hn
  obtain ⟨f, hf, hentry⟩ := Except.exists_of_forall₂_right hcs hc
  exact ⟨f, hf, c, hentry, hnode⟩

/-- A node with a plan below it comes from an entry, and the plan from what this entry includes. -/
theorem exists_entry_of_branch {spec : Value} {p q : Plan} {s : Inclusion}
    (h : compileSpec g deeper entity depth path spec = .ok p) (hq : .branch s q ∈ p.nodes) :
    ∃ f ∈ spec.entries, f.1 = s.key ∧ ∃ compileLevel, deeper = some compileLevel ∧
      compileLevel s.relation.target (depth + 1) (path ++ [s.key]) (.object f.2.included) = .ok q := by
  obtain ⟨f, hf, c, hc, hnode⟩ := exists_entry_of_mem_nodes h hq
  refine ⟨f, hf, ?_⟩
  cases hc with
  | off => cases hnode
  | single => cases hnode
  | deepest => cases hnode
  | nested hrelation hoptions hsome hlevel hnested =>
    simp only [Option.some.injEq] at hnode
    split at hnode
    · cases hnode
    · cases hnode
      exact ⟨rfl, _, hlevel, hnested⟩

end Compile

end RelatedRows

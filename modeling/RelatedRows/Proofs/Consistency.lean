import Mathlib.Data.List.Nodup
import RelatedRows.Graph.Check
import RelatedRows.Proofs.Results

/-!
# Consistent graphs

Which lists of entities and relations a graph can be built from, check by check.

* `Relation.ConsistentIn`: a relation fits the entities that it leads from, to and through.
* `Graph.Consistent`: entities and relations that form a graph.
* `Graph.build_eq_ok_iff`: a graph is built from these and from no others.
* `Graph.lookup?_eq_some_iff`: in such a graph every relation is found, by its source and its name.
-/

namespace RelatedRows

/-- Where an entity declares its columns, these are among them. -/
def DeclaredOn (entities : List Entity) (name : String) (columns : List String) : Prop :=
  ∀ e ∈ entities, e.name = name → ∀ declared, e.columns = some declared → columns ⊆ declared

/-- A relation fits the entities that it is declared among. -/
structure Relation.ConsistentIn (entities : List Entity) (r : Relation) : Prop where
  source : ∃ e ∈ entities, e.name = r.source
  target : ∃ e ∈ entities, e.name = r.target
  keyed : r.sourceKey ≠ []
  arity : r.sourceKey.length = r.targetKey.length
  joined : (∃ j, r.joinEntity = some j) ↔ r.kind = .manyViaJoin
  join : ∀ j, r.joinEntity = some j → (∃ e ∈ entities, e.name = j) ∧
    r.joinSourceKey.length = r.sourceKey.length ∧ r.joinTargetKey.length = r.targetKey.length
  sourceKey : DeclaredOn entities r.source r.sourceKey
  targetKey : DeclaredOn entities r.target r.targetKey
  joinKeys : ∀ j, r.joinEntity = some j → DeclaredOn entities j (r.joinSourceKey ++ r.joinTargetKey)

/-- Entities with different names and with primary keys, and relations that fit them, no two of one name on an
entity. -/
structure Graph.Consistent (entities : List Entity) (relations : List Relation) : Prop where
  entityNames : (entities.map (·.name)).Nodup
  primaryKeys : ∀ e ∈ entities, e.primaryKey ≠ []
  relationNames : (relations.map fun r => (r.source, r.name)).Nodup
  relations : ∀ r ∈ relations, r.ConsistentIn entities

theorem Except.seq_eq_ok {ε α : Type} {x : Except ε Unit} {y : Except ε α} {a : α} :
    (do x; y) = .ok a ↔ x = .ok () ∧ y = .ok a := by
  cases x with
  | error e => exact ⟨nofun, nofun⟩
  | ok u => exact ⟨fun h => ⟨rfl, h⟩, fun h => h.2⟩

namespace Graph

variable {entities : List Entity} {relations : List Relation} {r : Relation}

/-! ## Entities -/

theorem isDeclared_iff {name : String} : isDeclared entities name = true ↔ ∃ e ∈ entities, e.name = name := by
  simp [isDeclared, declared?]

theorem declared?_eq_some_iff (hnames : (entities.map (·.name)).Nodup) {name : String} {e : Entity} :
    declared? entities name = some e ↔ e ∈ entities ∧ e.name = name := by
  constructor
  · exact fun h => ⟨List.mem_of_find?_eq_some h, by simpa using List.find?_some h⟩
  · rintro ⟨he, hname⟩
    obtain ⟨e', he'⟩ := Option.isSome_iff_exists.mp (isDeclared_iff.mpr ⟨e, he, hname⟩)
    have hname' : e'.name = name := by simpa using List.find?_some he'
    obtain rfl := List.inj_on_of_nodup_map hnames (List.mem_of_find?_eq_some he') he (hname'.trans hname.symm)
    exact he'

theorem checkEntities_eq_ok {seen : List String} :
    checkEntities seen entities = .ok () ↔
      (entities.map (·.name)).Nodup ∧ ∀ e ∈ entities, e.name ∉ seen ∧ e.primaryKey ≠ [] := by
  induction entities generalizing seen with
  | nil => simp [checkEntities]
  | cons e es ih =>
    rw [checkEntities, List.forall_mem_cons, List.map_cons, List.nodup_cons]
    split_ifs with hseen hkey
    · simp [hseen]
    · simp [hkey]
    · rw [ih]
      simp only [List.mem_cons, List.mem_map, not_or, not_exists, not_and]
      -- a name that was seen is that of an earlier entity
      constructor
      · rintro ⟨hnodup, hrest⟩
        exact ⟨⟨fun e' he' => (hrest e' he').1.1, hnodup⟩, ⟨hseen, hkey⟩,
          fun e' he' => ⟨(hrest e' he').1.2, (hrest e' he').2⟩⟩
      · rintro ⟨⟨hfresh, hnodup⟩, -, hrest⟩
        exact ⟨hnodup, fun e' he' => ⟨⟨hfresh e' he', (hrest e' he').1⟩, (hrest e' he').2⟩⟩

/-! ## Relations -/

theorem checkEnds_eq_ok :
    checkEnds entities r = .ok () ↔ (∃ e ∈ entities, e.name = r.source) ∧ ∃ e ∈ entities, e.name = r.target := by
  rw [← isDeclared_iff, ← isDeclared_iff, checkEnds]
  cases hsource : isDeclared entities r.source <;> cases htarget : isDeclared entities r.target <;>
    simp [hsource, htarget]

theorem checkKeys_eq_ok :
    checkKeys entities r = .ok () ↔
      r.sourceKey ≠ [] ∧ r.sourceKey.length = r.targetKey.length ∧
        ((∃ j, r.joinEntity = some j) ↔ r.kind = .manyViaJoin) ∧
        ∀ j, r.joinEntity = some j → (∃ e ∈ entities, e.name = j) ∧
          r.joinSourceKey.length = r.sourceKey.length ∧ r.joinTargetKey.length = r.targetKey.length := by
  simp only [← isDeclared_iff]
  unfold checkKeys
  by_cases hkeys : r.sourceKey = [] ∨ r.sourceKey.length ≠ r.targetKey.length
  · rw [if_pos hkeys]
    exact ⟨nofun, fun ⟨hne, hlength, _⟩ => (hkeys.elim hne (· hlength)).elim⟩
  rw [if_neg hkeys]
  obtain ⟨hne, hlength⟩ := not_or.mp hkeys
  rw [not_not] at hlength
  cases hjoin : r.joinEntity with
  | none => cases hkind : r.kind <;> simp [hne, hlength]
  | some j =>
    cases hkind : r.kind with
    | manyViaJoin =>
      by_cases hsource : r.joinSourceKey.length = r.targetKey.length <;>
        by_cases htarget : r.joinTargetKey.length = r.targetKey.length <;>
          cases hj : isDeclared entities j <;> simp [hne, hlength, hsource, htarget, hj]
    | _ => simp

theorem checkDeclared_eq_ok {label : String} {used : List (String × List String)} :
    checkDeclared entities label used = .ok () ↔ ∀ u ∈ used, missingColumns entities u.1 u.2 = [] := by
  induction used with
  | nil => simp [checkDeclared]
  | cons u used ih =>
    obtain ⟨name, columns⟩ := u
    rw [checkDeclared, List.forall_mem_cons]
    cases hmissing : missingColumns entities name columns with
    | nil => simp [ih]
    | cons c cs => simp

theorem missingColumns_eq_nil (hnames : (entities.map (·.name)).Nodup) {name : String} {columns : List String} :
    missingColumns entities name columns = [] ↔ DeclaredOn entities name columns := by
  rw [missingColumns]
  constructor
  · intro h e he hname declared hdeclared c hc
    rw [(declared?_eq_some_iff hnames).mpr ⟨he, hname⟩] at h
    simpa [Entity.declares, hdeclared] using List.filter_eq_nil_iff.mp h c hc
  · intro h
    split
    · next e he =>
      obtain ⟨hmem, hname⟩ := (declared?_eq_some_iff hnames).mp he
      refine List.filter_eq_nil_iff.mpr fun c hc => ?_
      cases hdeclared : e.columns with
      | none => simp [Entity.declares, hdeclared]
      | some declared => simpa [Entity.declares, hdeclared] using h e hmem hname declared hdeclared hc
    · rfl

theorem checkRelation_eq_ok (hnames : (entities.map (·.name)).Nodup) :
    checkRelation entities r = .ok () ↔ r.ConsistentIn entities := by
  have hused : (∀ u ∈ keyColumns r, missingColumns entities u.1 u.2 = []) ↔
      DeclaredOn entities r.source r.sourceKey ∧ DeclaredOn entities r.target r.targetKey ∧
        ∀ j, r.joinEntity = some j → DeclaredOn entities j (r.joinSourceKey ++ r.joinTargetKey) := by
    simp only [missingColumns_eq_nil hnames, keyColumns]
    cases r.joinEntity <;> simp
  rw [checkRelation, Except.seq_eq_ok, Except.seq_eq_ok, checkEnds_eq_ok, checkKeys_eq_ok, checkDeclared_eq_ok, hused]
  constructor
  · rintro ⟨⟨hsource, htarget⟩, ⟨hkeyed, harity, hjoined, hjoin⟩, hsourceKey, htargetKey, hjoinKeys⟩
    exact ⟨hsource, htarget, hkeyed, harity, hjoined, hjoin, hsourceKey, htargetKey, hjoinKeys⟩
  · rintro ⟨hsource, htarget, hkeyed, harity, hjoined, hjoin, hsourceKey, htargetKey, hjoinKeys⟩
    exact ⟨⟨hsource, htarget⟩, ⟨hkeyed, harity, hjoined, hjoin⟩, hsourceKey, htargetKey, hjoinKeys⟩

theorem checkRelations_eq_ok {seen : List (String × String)} :
    checkRelations entities seen relations = .ok () ↔
      (relations.map fun r => (r.source, r.name)).Nodup ∧
        ∀ r ∈ relations, (r.source, r.name) ∉ seen ∧ checkRelation entities r = .ok () := by
  induction relations generalizing seen with
  | nil => simp [checkRelations]
  | cons r rs ih =>
    rw [checkRelations, Except.seq_eq_ok, List.forall_mem_cons, List.map_cons, List.nodup_cons]
    split_ifs with hseen
    · simp [hseen]
    · rw [ih]
      simp only [List.mem_cons, List.mem_map, not_or, not_exists, not_and]
      constructor
      · rintro ⟨hcheck, hnodup, hrest⟩
        exact ⟨⟨fun r' hr' => (hrest r' hr').1.1, hnodup⟩, ⟨hseen, hcheck⟩,
          fun r' hr' => ⟨(hrest r' hr').1.2, (hrest r' hr').2⟩⟩
      · rintro ⟨⟨hfresh, hnodup⟩, ⟨-, hcheck⟩, hrest⟩
        exact ⟨hcheck, hnodup, fun r' hr' => ⟨⟨hfresh r' hr', (hrest r' hr').1⟩, (hrest r' hr').2⟩⟩

/-! ## Graphs -/

theorem build_eq_ok_iff {g : Graph} :
    build entities relations = .ok g ↔ Consistent entities relations ∧ ⟨entities, relations⟩ = g := by
  rw [build, Except.seq_eq_ok, Except.seq_eq_ok, checkEntities_eq_ok, checkRelations_eq_ok]
  constructor
  · rintro ⟨⟨hnames, hentities⟩, ⟨hrelationNames, hrelations⟩, heq⟩
    exact ⟨⟨hnames, fun e he => (hentities e he).2, hrelationNames,
      fun r hr => (checkRelation_eq_ok hnames).mp (hrelations r hr).2⟩, Except.ok.inj heq⟩
  · rintro ⟨⟨hnames, hprimary, hrelationNames, hrelations⟩, rfl⟩
    exact ⟨⟨hnames, fun e he => ⟨List.not_mem_nil, hprimary e he⟩⟩,
      ⟨hrelationNames, fun r hr => ⟨List.not_mem_nil, (checkRelation_eq_ok hnames).mpr (hrelations r hr)⟩⟩, rfl⟩

theorem consistentIn_of_build {g : Graph} (h : build entities relations = .ok g) (hr : r ∈ g.relations) :
    r.ConsistentIn g.entities := by
  obtain ⟨hconsistent, rfl⟩ := build_eq_ok_iff.mp h
  exact hconsistent.relations r hr

theorem exists_entity? {g : Graph} {name : String} (h : ∃ e ∈ g.entities, e.name = name) :
    ∃ e, g.entity? name = some e :=
  Option.isSome_iff_exists.mp (isDeclared_iff.mpr h)

/-- A relation is found by its source and its name, and by nothing else. -/
theorem lookup?_eq_some_iff {g : Graph} (h : build entities relations = .ok g) {entity name : String} :
    g.lookup? entity name = some r ↔ r ∈ relations ∧ r.source = entity ∧ r.name = name := by
  obtain ⟨hconsistent, rfl⟩ := build_eq_ok_iff.mp h
  constructor
  · exact fun hfind => ⟨mem_of_lookup? hfind, source_of_lookup? hfind⟩
  · rintro ⟨hr, rfl, rfl⟩
    cases hfind : Graph.lookup? ⟨entities, relations⟩ r.source r.name with
    | none => simpa using List.find?_eq_none.mp hfind r hr
    | some r' =>
      obtain ⟨hsource, hname⟩ := source_of_lookup? hfind
      have heq : (r'.source, r'.name) = (r.source, r.name) := by rw [hsource, hname]
      rw [List.inj_on_of_nodup_map hconsistent.relationNames (mem_of_lookup? hfind) hr heq]

theorem lookup?_eq_none_iff {g : Graph} (h : build entities relations = .ok g) {entity name : String} :
    g.lookup? entity name = none ↔ ∀ r ∈ relations, ¬(r.source = entity ∧ r.name = name) := by
  obtain ⟨-, rfl⟩ := build_eq_ok_iff.mp h
  simp [lookup?]

end Graph

end RelatedRows

import RelatedRows.Proofs.OptionGrammar

/-!
# Well-formed plans

What is known of a compiled plan, level by level, in terms of the request that it was made from.

* `Inclusion.WellFormed`: what holds of the step that stands for an entry.
* `Value.EndsAt`: the reasons why nothing is attached below an entry.
* `Plan.WellFormed g bound entity depth spec p`: the nodes of every level of a plan are the entries of its part of the
  request that are not turned off, in their order.
* `compile_wellFormed`: compiled plans are well-formed.
-/

namespace RelatedRows

/-! ## Options that were read -/

theorem Entry.limit_pos_of_read {fields : Row} {entry : Entry} (h : Entry.read fields = .ok entry) {n : Nat}
    (hn : entry.options.limit = some n) : 0 < n := by
  obtain ⟨-, hgives, -⟩ := read_eq_ok_iff.mp h
  obtain ⟨_, -, i, -, hpos, hi⟩ := Value.given_some.mp (hn ▸ hgives.limit)
  omega

theorem columnObjection?_eq_none {e : Entity} {c : String} (h : columnObjection? e (.text c) = none) :
    e.declares c = true := by
  by_contra hnot
  simp only [columnObjection?] at h
  split at h
  · cases h
  · rw [if_pos (by simpa using hnot)] at h
    cases h

/-! ## Entries and their parts of a request -/

namespace Value

theorem hasDistinctNames_of_mem {v : Value} (h : v.hasDistinctNames = true) {f : String × Value} (hf : f ∈ v.entries) :
    f.2.hasDistinctNames = true := by
  cases v with
  | object fields => exact (hasDistinctNames_object h).2 f hf
  | _ => cases hf

theorem hasDistinctNames_included {v : Value} (h : v.hasDistinctNames = true) :
    (object v.included).hasDistinctNames = true := by
  cases v with
  | object fields =>
    rw [included_object]
    cases hlookup : fields.lookup "include" with
    | none => rfl
    | some w =>
      have hw := (hasDistinctNames_object h).2 _ (Row.mem_of_lookup hlookup)
      cases w with
      | object below => exact hw
      | _ => rfl
  | _ => rfl

/-- Nothing is attached below an entry at this depth: it includes nothing, or would do so below the last level, or all
that it includes is turned off. -/
def EndsAt (bound depth : Nat) (v : Value) : Prop :=
  v.included = [] ∨ bound ≤ depth + 1 ∨ ∀ f ∈ v.included, f.2.isOn = false

theorem HasOptions.isOn {g : Graph} {relation : Relation} {key : String} {v : Value} {options : Options}
    (h : v.HasOptions g relation key options) : v.isOn = true := by
  cases h <;> rfl

end Value

/-! ## Plans -/

/-- What holds of the step that stands for an entry of a request for rows of `entity`.  Options have no place for what
is to be included below. -/
structure Inclusion.WellFormed (g : Graph) (entity : String) (depth : Nat) (field : String × Value) (s : Inclusion) :
    Prop where
  key_eq : s.key = field.1
  depth_eq : s.depth = depth
  relation : g.lookup? entity s.key = some s.relation
  name_eq : s.relation.name = s.key
  source_eq : s.relation.source = entity
  limit_pos : ∀ n, s.options.limit = some n → 0 < n
  target : ∃ target, g.entity? s.relation.target = some target ∧ ∀ c ∈ s.options.columns, target.declares c = true

section WellFormed

variable (g : Graph) (bound : Nat)

mutual
/-- A level is for rows of the entity that it is attached to and lies above the bound.  Its nodes have different keys
and are the entries that are not turned off. -/
def Plan.WellFormed : (entity : String) → (depth : Nat) → (spec : Value) → Plan → Prop
  | entity, depth, spec, .mk e d nodes _ =>
    e = entity ∧ d = depth ∧ depth < bound ∧ (nodes.map PlanNode.key).Nodup ∧
      nodesWellFormed entity depth (spec.entries.filter (·.2.isOn)) nodes

/-- Some nodes are what some entries ask for, one node for each entry. -/
def nodesWellFormed : (entity : String) → (depth : Nat) → Row → List PlanNode → Prop
  | _, _, [], [] => True
  | entity, depth, f :: fs, n :: ns => n.WellFormed entity depth f ∧ nodesWellFormed entity depth fs ns
  | _, _, _, _ => False

/-- A node has a plan below it unless its entry ends there, and then one with nodes. -/
def PlanNode.WellFormed : (entity : String) → (depth : Nat) → String × Value → PlanNode → Prop
  | entity, depth, field, .leaf s => s.WellFormed g entity depth field ∧ field.2.EndsAt bound depth
  | entity, depth, field, .branch s p =>
    s.WellFormed g entity depth field ∧ ¬field.2.EndsAt bound depth ∧ p.nodes ≠ [] ∧
      p.WellFormed s.relation.target (depth + 1) (.object field.2.included)
end

theorem nodesWellFormed_iff (entity : String) (depth : Nat) (fields : Row) (ns : List PlanNode) :
    nodesWellFormed g bound entity depth fields ns ↔
      List.Forall₂ (PlanNode.WellFormed g bound entity depth) fields ns := by
  induction fields generalizing ns with
  | nil => cases ns <;> simp [nodesWellFormed]
  | cons f fs ih => cases ns <;> simp [nodesWellFormed, ih]

end WellFormed

section Compile

variable {g : Graph} {deeper : Option LevelCompiler} {bound : Nat} {entity : String} {depth : Nat} {path : List String}
  {field : String × Value} {c : Compiled}

theorem Plan.WellFormed.isEmpty_iff {spec : Value} {p : Plan} (h : p.WellFormed g bound entity depth spec) :
    p.isEmpty = true ↔ ∀ f ∈ spec.entries, f.2.isOn = false := by
  obtain ⟨e, d, nodes, pruned⟩ := p
  obtain ⟨-, -, -, -, hnodes⟩ := h
  have hlength := ((nodesWellFormed_iff ..).mp hnodes).length_eq
  have hnil : nodes = [] ↔ spec.entries.filter (·.2.isOn) = [] := by
    rw [← List.length_eq_zero_iff, ← List.length_eq_zero_iff, hlength]
  rw [Plan.isEmpty, List.isEmpty_iff]
  exact hnil.trans (by simp)

/-- The compiler of the levels below makes well-formed plans, and there is one just above the bound. -/
structure DeepensTo (g : Graph) (bound depth : Nat) (deeper : Option LevelCompiler) : Prop where
  ends : deeper = none → bound ≤ depth + 1
  below : ∀ compileLevel, deeper = some compileLevel → depth + 1 < bound ∧ ∀ entity path (spec : Value) p,
    spec.hasDistinctNames = true → compileLevel entity (depth + 1) path spec = .ok p →
      p.WellFormed g bound entity (depth + 1) spec

variable (hg : ∀ r ∈ g.relations, ∃ e, g.entity? r.target = some e)

include hg

variable (depth) in
theorem wellFormed_step {key : String} {v : Value} {relation : Relation} {options : Options}
    (hrelation : g.lookup? entity key = some relation) (hoptions : v.HasOptions g relation key options) :
    Inclusion.WellFormed g entity depth (key, v) ⟨key, relation, depth, options⟩ where
  key_eq := rfl
  depth_eq := rfl
  relation := hrelation
  name_eq := (Graph.source_of_lookup? hrelation).2
  source_eq := (Graph.source_of_lookup? hrelation).1
  limit_pos := by
    intro n hn
    cases hoptions with
    | on => cases hn
    | object hread => exact Entry.limit_pos_of_read hread hn
  target := by
    cases hoptions with
    | on =>
      obtain ⟨target, htarget⟩ := hg relation (Graph.mem_of_lookup? hrelation)
      exact ⟨target, htarget, fun c hc => by cases hc⟩
    | @object fields entry target _ htarget hcolumns =>
      refine ⟨target, htarget, fun c hc => columnObjection?_eq_none ?_⟩
      exact vetColumns_eq_ok.mp hcolumns _ (List.mem_map_of_mem hc)

/-- An entry that is not turned off yields a node, any other yields none. -/
theorem Compiled.Of.wellFormed (hdeeper : DeepensTo g bound depth deeper) (hfield : field.2.hasDistinctNames = true)
    (h : Compiled.Of g deeper entity depth path field c) :
    (field.2.isOn = false ∧ c.node = none) ∨
      (field.2.isOn = true ∧ ∃ n, c.node = some n ∧ n.WellFormed g bound entity depth field) := by
  cases h with
  | off hrelation hoff => exact .inl ⟨hoff, rfl⟩
  | single hrelation hoptions hnone =>
    exact .inr ⟨hoptions.isOn, _, rfl, wellFormed_step depth hg hrelation hoptions, .inl hnone⟩
  | deepest hrelation hoptions hsome hnone =>
    exact .inr ⟨hoptions.isOn, _, rfl, wellFormed_step depth hg hrelation hoptions, .inr (.inl (hdeeper.ends hnone))⟩
  | @nested key v relation options compileLevel q hrelation hoptions hsome hlevel hnested =>
    obtain ⟨hbound, hbelow⟩ := hdeeper.below compileLevel hlevel
    have hq := hbelow _ _ _ q (Value.hasDistinctNames_included hfield) hnested
    have hstep := wellFormed_step depth hg hrelation hoptions
    refine .inr ⟨hoptions.isOn, _, rfl, ?_⟩
    by_cases hempty : q.isEmpty = true
    · rw [if_pos hempty]
      exact ⟨hstep, .inr (.inr (hq.isEmpty_iff.mp hempty))⟩
    · rw [if_neg hempty]
      refine ⟨hstep, ?_, fun hnil => hempty (List.isEmpty_iff.mpr hnil), hq⟩
      rintro (hnone | hends | hoff)
      · exact hsome hnone
      · omega
      · exact hempty (hq.isEmpty_iff.mpr hoff)

theorem forall₂_wellFormed (hdeeper : DeepensTo g bound depth deeper) {fields : Row} {cs : List Compiled}
    (hfields : ∀ f ∈ fields, f.2.hasDistinctNames = true)
    (hcs : List.Forall₂ (fun f c => compileEntry g deeper entity depth path f = .ok c) fields cs) :
    List.Forall₂ (PlanNode.WellFormed g bound entity depth) (fields.filter (·.2.isOn)) (cs.filterMap (·.node)) := by
  induction hcs with
  | nil => exact .nil
  | @cons field c fields cs hc _ ih =>
    have hrest := ih fun f hf => hfields f (List.mem_cons_of_mem _ hf)
    rcases (compileEntry_of hc).wellFormed hg hdeeper (hfields field List.mem_cons_self) with
      ⟨hoff, hnode⟩ | ⟨hon, n, hnode, hn⟩
    · rw [List.filter_cons_of_neg (by simp [hoff]), List.filterMap_cons_none hnode]
      exact hrest
    · rw [List.filter_cons_of_pos (by exact hon), List.filterMap_cons_some hnode]
      exact .cons hn hrest

theorem wellFormed_of_compileSpec (hdeeper : DeepensTo g bound depth deeper) (hdepth : depth < bound) {spec : Value}
    (hspec : spec.hasDistinctNames = true) {p : Plan} (h : compileSpec g deeper entity depth path spec = .ok p) :
    p.WellFormed g bound entity depth spec := by
  unfold compileSpec at h
  split at h
  · cases h
    exact ⟨rfl, rfl, hdepth, List.nodup_nil, trivial⟩
  · next fields =>
    obtain ⟨hnodup, hfields⟩ := Value.hasDistinctNames_object hspec
    obtain ⟨cs, hcs, h⟩ := Except.bind_eq_ok h
    cases h
    refine ⟨rfl, rfl, hdepth, (keys_sublist_of_mapM hcs).nodup hnodup, (nodesWellFormed_iff ..).mpr ?_⟩
    exact forall₂_wellFormed hg hdeeper hfields (Except.mapM_eq_ok_iff.mp hcs)
  · cases h

theorem wellFormed_of_compileLevel {below : Nat} (hbound : bound = depth + below + 1) {spec : Value}
    (hspec : spec.hasDistinctNames = true) {p : Plan} (h : compileLevel g below entity depth path spec = .ok p) :
    p.WellFormed g bound entity depth spec := by
  induction below generalizing entity depth path spec p with
  | zero =>
    refine wellFormed_of_compileSpec hg ⟨fun _ => by omega, fun compileLevel hlevel => ?_⟩ (by omega) hspec h
    cases hlevel
  | succ below ih =>
    refine wellFormed_of_compileSpec hg ⟨fun hnone => ?_, fun compileLevel hlevel => ?_⟩ (by omega) hspec h
    · cases hnone
    · cases hlevel
      exact ⟨by omega, fun entity path spec p hspec hp => ih (by omega) hspec hp⟩

end Compile

/-- A compiled plan is well-formed on every level, for the part of the request that the level stands for. -/
theorem compile_wellFormed {entities : List Entity} {relations : List Relation} {g : Graph} {entity : String}
    {spec : Value} {maxDepth : Int} {p : Plan} (hg : Graph.build entities relations = .ok g)
    (hspec : spec.hasDistinctNames = true) (h : compile g entity spec maxDepth = .ok p) :
    p.WellFormed g maxDepth.toNat entity 0 spec := by
  have hpos : 1 ≤ maxDepth := by
    by_contra hnot
    rw [compile, if_pos (by omega)] at h
    cases h
  have htargets : ∀ r ∈ g.relations, ∃ e, g.entity? r.target = some e :=
    fun r hr => (Graph.entity?_of_build hg hr).2
  exact wellFormed_of_compileLevel htargets (by omega) hspec (compileLevel_of_compile h)

theorem compile_wellFormed_bookshelf : Bookshelf.plan.WellFormed Bookshelf.graph 2 "authors" 0 Bookshelf.request :=
  compile_wellFormed Bookshelf.build_graph (by decide) Bookshelf.compile_request

end RelatedRows

import RelatedRows.Proofs.Includes
import RelatedRows.Proofs.WellFormed

/-!
# Bounds on the depth

What a request includes below the last level that is allowed has no influence on its plan, and a larger bound only makes
the plan deeper.

* `Plan.unpruned`: a plan that does not say what was dropped.
* `Plan.truncate depth`: a plan without the plans below its nodes at a depth.
* `compile_cutIncludes`: a request compiles as the same request without what it includes below the bound.
* `compile_deeper`: the plan for a bound is the truncated plan for the next one; and if nothing was dropped, it is the
  plan for every larger bound.
-/

namespace RelatedRows

/-! ## Plans without a record of what was dropped -/

mutual
def Plan.unpruned : Plan → Plan
  | .mk entity depth nodes _ => .mk entity depth (unprunedNodes nodes) []

def unprunedNodes : List PlanNode → List PlanNode
  | [] => []
  | n :: ns => n.unpruned :: unprunedNodes ns

def PlanNode.unpruned : PlanNode → PlanNode
  | .leaf s => .leaf s
  | .branch s p => .branch s p.unpruned
end

theorem unprunedNodes_eq (ns : List PlanNode) : unprunedNodes ns = ns.map PlanNode.unpruned := by
  induction ns with
  | nil => rfl
  | cons n ns ih => rw [unprunedNodes, ih, List.map_cons]

@[simp] theorem Plan.isEmpty_unpruned (p : Plan) : p.unpruned.isEmpty = p.isEmpty := by
  obtain ⟨entity, depth, nodes, pruned⟩ := p
  cases nodes <;> rfl

@[simp] theorem Plan.pruned_unpruned (p : Plan) : p.unpruned.pruned = [] := by
  obtain ⟨entity, depth, nodes, pruned⟩ := p
  rfl

/-- What becomes of an entry, without a record of what was dropped. -/
def Compiled.unpruned (c : Compiled) : Compiled :=
  ⟨c.node.map PlanNode.unpruned, []⟩

theorem Plan.unpruned_ofCompiled (entity : String) (depth : Nat) (cs : List Compiled) :
    (Plan.mk entity depth (cs.filterMap (·.node)) (cs.flatMap (·.pruned))).unpruned =
      .mk entity depth ((cs.map Compiled.unpruned).filterMap (·.node))
        ((cs.map Compiled.unpruned).flatMap (·.pruned)) := by
  have hnodes : unprunedNodes (cs.filterMap (·.node)) = (cs.map Compiled.unpruned).filterMap (·.node) := by
    rw [unprunedNodes_eq, List.map_filterMap, List.filterMap_map]
    rfl
  have hpruned : (cs.map Compiled.unpruned).flatMap (·.pruned) = [] := by
    rw [List.flatMap_map]
    exact List.flatMap_eq_nil_iff.mpr fun c _ => rfl
  rw [Plan.unpruned, hnodes, hpruned]

/-! ## Plans without what is below a depth -/

mutual
def Plan.truncate (bottom : Nat) : Plan → Plan
  | .mk entity depth nodes pruned => .mk entity depth (truncateNodes bottom nodes) pruned

def truncateNodes (bottom : Nat) : List PlanNode → List PlanNode
  | [] => []
  | n :: ns => n.truncate bottom :: truncateNodes bottom ns

def PlanNode.truncate (bottom : Nat) : PlanNode → PlanNode
  | .leaf s => .leaf s
  | .branch s p => if s.depth = bottom then .leaf s else .branch s (p.truncate bottom)
end

theorem truncateNodes_eq (bottom : Nat) (ns : List PlanNode) :
    truncateNodes bottom ns = ns.map (PlanNode.truncate bottom) := by
  induction ns with
  | nil => rfl
  | cons n ns ih => rw [truncateNodes, ih, List.map_cons]

@[simp] theorem Plan.isEmpty_truncate (bottom : Nat) (p : Plan) : (p.truncate bottom).isEmpty = p.isEmpty := by
  obtain ⟨entity, depth, nodes, pruned⟩ := p
  cases nodes <;> rfl

/-- What becomes of an entry, without what is below a depth. -/
def Compiled.truncate (bottom : Nat) (c : Compiled) : Compiled :=
  ⟨c.node.map (PlanNode.truncate bottom), c.pruned⟩

theorem Plan.truncate_ofCompiled (bottom : Nat) (entity : String) (depth : Nat) (cs : List Compiled) :
    (Plan.mk entity depth (cs.filterMap (·.node)) (cs.flatMap (·.pruned))).truncate bottom =
      .mk entity depth ((cs.map (Compiled.truncate bottom)).filterMap (·.node))
        ((cs.map (Compiled.truncate bottom)).flatMap (·.pruned)) := by
  rw [Plan.truncate, truncateNodes_eq, List.map_filterMap, List.filterMap_map, List.flatMap_map]
  rfl

/-! ## Requests cut at the bound -/

/-- A level that is cut has the same entries, with something else in their options. -/
theorem cutIncludes_succ (levels : Nat) :
    ∃ cut : String × Value → String × Value, ∀ spec, cutIncludes (levels + 1) spec = spec.mapFields (List.map cut) := by
  cases levels with
  | zero => exact ⟨_, fun _ => rfl⟩
  | succ levels => exact ⟨_, fun _ => rfl⟩

section Compile

variable {g : Graph} {deeper deeper' : Option LevelCompiler} {entity : String} {depth : Nat} {path : List String}

theorem compileOptions_mapBelow_none (step : Inclusion) (entry : Entry) :
    compileOptions deeper' depth path step (entry.mapBelow fun _ => none) =
      (compileOptions none depth path step entry).map Compiled.unpruned := by
  have hnone : (entry.mapBelow fun _ => none).below.getD [] = [] := rfl
  rw [compileOptions_eq, compileOptions_eq, if_pos hnone]
  split <;> rfl

theorem compileOptions_mapBelow {compileLevel compileLevel' : LevelCompiler} {cut : String × Value → String × Value}
    (step : Inclusion) (entry : Entry)
    (h : compileLevel' step.relation.target (depth + 1) (path ++ [step.key])
        (.object ((entry.below.getD []).map cut)) =
      (compileLevel step.relation.target (depth + 1) (path ++ [step.key]) (.object (entry.below.getD []))).map
        Plan.unpruned) :
    compileOptions (some compileLevel') depth path step (entry.mapBelow (Option.map (List.map cut))) =
      (compileOptions (some compileLevel) depth path step entry).map Compiled.unpruned := by
  have hbelow : (entry.mapBelow (Option.map (List.map cut))).below.getD [] = (entry.below.getD []).map cut := by
    cases hentry : entry.below <;> simp [Entry.mapBelow, hentry]
  rw [compileOptions_eq, compileOptions_eq, hbelow]
  by_cases hnil : entry.below.getD [] = []
  · rw [if_pos hnil, if_pos (by rw [hnil]; rfl)]
    rfl
  · rw [if_neg hnil, if_neg (by simpa using hnil)]
    simp only [h]
    cases compileLevel step.relation.target (depth + 1) (path ++ [step.key]) (.object (entry.below.getD [])) with
    | error e => rfl
    | ok nested =>
      show Except.ok _ = Except.ok _
      rw [Plan.isEmpty_unpruned, Plan.pruned_unpruned]
      split <;> rfl

/-- An entry whose options are read alike but for what they include compiles alike if that does. -/
theorem compileEntry_mapFields {F : Row → Row} {f : Option Row → Option Row} {key : String} {v : Value}
    (hread : ∀ fields, v = .object fields → Entry.read (F fields) = (Entry.read fields).map (Entry.mapBelow f))
    (hoptions : ∀ fields entry step, v = .object fields → Entry.read fields = .ok entry →
      compileOptions deeper' depth path step (entry.mapBelow f) =
        (compileOptions deeper depth path step entry).map Compiled.unpruned) :
    compileEntry g deeper' entity depth path (key, v.mapFields F) =
      (compileEntry g deeper entity depth path (key, v)).map Compiled.unpruned := by
  simp only [compileEntry]
  cases g.lookup? entity key with
  | none => rfl
  | some relation =>
    cases v with
    | object fields =>
      simp only [Value.mapFields_object, hread fields rfl]
      cases hentry : Entry.read fields with
      | error issues => rfl
      | ok entry =>
        cases g.entity? relation.target with
        | none => rfl
        | some target =>
          simp only [Except.map, Entry.mapBelow]
          cases vetColumns target key (entry.options.columns.map .text) with
          | error e => rfl
          | ok u => exact hoptions fields entry _ rfl hentry
    | bool b => cases b <;> rfl
    | _ => rfl

theorem compileSpec_mapFields {F : Row → Row} {spec : Value}
    (h : ∀ f ∈ spec.entries, compileEntry g deeper' entity depth path (f.1, f.2.mapFields F) =
      (compileEntry g deeper entity depth path f).map Compiled.unpruned) :
    compileSpec g deeper' entity depth path (spec.mapFields (List.map fun f => (f.1, f.2.mapFields F))) =
      (compileSpec g deeper entity depth path spec).map Plan.unpruned := by
  cases spec with
  | object fields =>
    have hmapM : (fields.map fun f => (f.1, f.2.mapFields F)).mapM (compileEntry g deeper' entity depth path) =
        (fields.mapM (compileEntry g deeper entity depth path)).map (List.map Compiled.unpruned) := by
      rw [List.mapM_map, ← Except.mapM_map_right]
      exact Except.mapM_congr h
    rw [Value.mapFields_object]
    simp only [compileSpec, hmapM]
    cases fields.mapM (compileEntry g deeper entity depth path) with
    | error e => rfl
    | ok cs => exact congrArg Except.ok (Plan.unpruned_ofCompiled entity depth cs).symm
  | _ => rfl

/-- A level that is cut compiles alike with at least as many levels below it. -/
theorem compileLevel_cutIncludes {below below' : Nat} (hbelow : below ≤ below') {spec : Value}
    (hspec : spec.hasDistinctNames = true) :
    compileLevel g below' entity depth path (cutIncludes (below + 1) spec) =
      (compileLevel g below entity depth path spec).map Plan.unpruned := by
  induction below generalizing below' entity depth path spec with
  | zero =>
    obtain ⟨deeper', hdeeper'⟩ := exists_compileSpec g below'
    rw [hdeeper']
    refine compileSpec_mapFields fun f hf => compileEntry_mapFields (fun fields hfields => ?_)
      fun _ entry step _ _ => compileOptions_mapBelow_none step entry
    have hoptions := Value.hasDistinctNames_of_mem hspec hf
    rw [hfields] at hoptions
    exact Entry.read_withoutIncludes fields (Value.hasDistinctNames_object hoptions).1
  | succ below ih =>
    obtain ⟨below', rfl⟩ : ∃ n, below' = n + 1 := ⟨below' - 1, by omega⟩
    obtain ⟨cut, hcut⟩ := cutIncludes_succ below
    have hspecCut : cutIncludes (below + 1 + 1) spec =
        spec.mapFields (List.map fun f => (f.1, f.2.mapFields (Row.mapIncluded (List.map cut)))) := by
      simp only [cutIncludes, hcut]
      rfl
    rw [hspecCut]
    refine compileSpec_mapFields fun f hf =>
      compileEntry_mapFields (fun fields _ => Entry.read_mapIncluded _ fields) fun fields entry step hfields hread => ?_
    refine compileOptions_mapBelow step entry ?_
    have hdistinct : (Value.object (entry.below.getD [])).hasDistinctNames = true := by
      rw [Entry.included_of_read hread, ← hfields]
      exact Value.hasDistinctNames_included (Value.hasDistinctNames_of_mem hspec hf)
    rw [← ih (Nat.le_of_succ_le_succ hbelow) hdistinct, hcut]
    rfl

/-! ## Larger bounds -/

/-- The compilers of the levels below make the same plans up to the depth `bottom`; one of them may end there. -/
def Shallower (bottom depth : Nat) (deeper deeper' : Option LevelCompiler) : Prop :=
  ∀ compileLevel', deeper' = some compileLevel' →
    deeper = none ∧ depth = bottom ∨
      depth ≠ bottom ∧ ∃ compileLevel, deeper = some compileLevel ∧ ∀ entity path spec q,
        compileLevel' entity (depth + 1) path spec = .ok q →
          (compileLevel entity (depth + 1) path spec).map Plan.unpruned = .ok (q.truncate bottom).unpruned

theorem unpruned_compileEntry {bottom : Nat} (hdeeper : Shallower bottom depth deeper deeper')
    (hends : deeper' ≠ none) {field : String × Value} {c : Compiled}
    (h : compileEntry g deeper' entity depth path field = .ok c) :
    (compileEntry g deeper entity depth path field).map Compiled.unpruned = .ok (c.truncate bottom).unpruned := by
  cases compileEntry_of h with
  | off hrelation hoff =>
    rw [compileEntry_eq_ok_iff.mpr (.off hrelation hoff)]
    rfl
  | single hrelation hoptions hnone =>
    rw [compileEntry_eq_ok_iff.mpr (.single hrelation hoptions hnone)]
    rfl
  | deepest hrelation hoptions hsome hnone => exact absurd hnone hends
  | @nested key v relation options compileLevel' q hrelation hoptions hsome hlevel' hnested =>
    rcases hdeeper compileLevel' hlevel' with ⟨hnone, hdepth⟩ | ⟨hdepth, compileLevel, hlevel, hagree⟩
    · rw [compileEntry_eq_ok_iff.mpr (.deepest hrelation hoptions hsome hnone)]
      simp only [Compiled.truncate, Compiled.unpruned, Except.map]
      split <;> simp [PlanNode.truncate, hdepth, PlanNode.unpruned]
    · obtain ⟨q', hnested', hq'⟩ := Except.map_eq_ok (hagree _ _ _ q hnested)
      have hempty : q'.isEmpty = q.isEmpty := by
        rw [← q'.isEmpty_unpruned, hq', Plan.isEmpty_unpruned, Plan.isEmpty_truncate]
      rw [compileEntry_eq_ok_iff.mpr (.nested hrelation hoptions hsome hlevel hnested')]
      simp only [Compiled.truncate, Compiled.unpruned, Except.map, hempty]
      split <;> simp [PlanNode.truncate, hdepth, PlanNode.unpruned, hq']

theorem unpruned_compileSpec {bottom : Nat} (hdeeper : Shallower bottom depth deeper deeper') (hends : deeper' ≠ none)
    {spec : Value} {q : Plan} (h : compileSpec g deeper' entity depth path spec = .ok q) :
    (compileSpec g deeper entity depth path spec).map Plan.unpruned = .ok (q.truncate bottom).unpruned := by
  unfold compileSpec at h
  split at h
  · cases h
    rfl
  · next fields =>
    obtain ⟨cs, hcs, h⟩ := Except.bind_eq_ok h
    cases h
    have hmapM : (fields.mapM (compileEntry g deeper entity depth path)).map (List.map Compiled.unpruned) =
        .ok (cs.map fun c => (c.truncate bottom).unpruned) := by
      rw [← Except.mapM_map_right, Except.mapM_eq_ok_iff, List.forall₂_map_right_iff]
      exact (Except.mapM_eq_ok_iff.mp hcs).imp fun f c hc => unpruned_compileEntry hdeeper hends hc
    obtain ⟨cs', hcs', heq⟩ := Except.map_eq_ok hmapM
    simp only [compileSpec, hcs']
    refine congrArg Except.ok ?_
    rw [Plan.truncate_ofCompiled, Plan.unpruned_ofCompiled, Plan.unpruned_ofCompiled, heq, List.map_map]
    rfl
  · cases h

/-- With one more level below it, a level is compiled as before down to the last level. -/
theorem unpruned_compileLevel {below : Nat} {spec : Value} {q : Plan}
    (h : compileLevel g (below + 1) entity depth path spec = .ok q) :
    (compileLevel g below entity depth path spec).map Plan.unpruned = .ok (q.truncate (depth + below)).unpruned := by
  induction below generalizing entity depth path spec q with
  | zero => exact unpruned_compileSpec (fun _ _ => .inl ⟨rfl, rfl⟩) (by simp) h
  | succ below ih =>
    refine unpruned_compileSpec (fun compileLevel' hlevel' => ?_) (by simp) h
    refine .inr ⟨by omega, _, rfl, fun e ps v q hq => ?_⟩
    cases hlevel'
    have hsum : depth + (below + 1) = depth + 1 + below := by omega
    rw [hsum]
    exact ih hq

/-- The second compiler of the levels below makes every plan of the first for which nothing is dropped. -/
def Extends (depth : Nat) (deeper deeper' : Option LevelCompiler) : Prop :=
  ∀ compileLevel, deeper = some compileLevel → ∃ compileLevel', deeper' = some compileLevel' ∧
    ∀ entity path spec q, q.pruned = [] → compileLevel entity (depth + 1) path spec = .ok q →
      compileLevel' entity (depth + 1) path spec = .ok q

/-- Entries below which nothing was dropped come to the same if the levels below do. -/
theorem compileEntry_of_unpruned {field : String × Value} {c : Compiled} (hpruned : c.pruned = [])
    (hdeeper : Extends depth deeper deeper')
    (h : compileEntry g deeper entity depth path field = .ok c) :
    compileEntry g deeper' entity depth path field = .ok c := by
  rw [compileEntry_eq_ok_iff]
  cases compileEntry_of h with
  | off hrelation hoff => exact .off hrelation hoff
  | single hrelation hoptions hnone => exact .single hrelation hoptions hnone
  | deepest => cases hpruned
  | nested hrelation hoptions hsome hlevel hnested =>
    obtain ⟨compileLevel', hlevel', hagree⟩ := hdeeper _ hlevel
    exact .nested hrelation hoptions hsome hlevel' (hagree _ _ _ _ hpruned hnested)

theorem compileSpec_of_unpruned {spec : Value} {p : Plan} (hpruned : p.pruned = [])
    (hdeeper : Extends depth deeper deeper')
    (h : compileSpec g deeper entity depth path spec = .ok p) :
    compileSpec g deeper' entity depth path spec = .ok p := by
  unfold compileSpec at h
  split at h
  · exact h
  · next fields =>
    obtain ⟨cs, hcs, heq⟩ := Except.bind_eq_ok h
    cases heq
    clear h
    have hcs' : fields.mapM (compileEntry g deeper' entity depth path) = .ok cs := by
      rw [Except.mapM_eq_ok_iff] at hcs ⊢
      induction hcs with
      | nil => exact .nil
      | @cons f c fields cs hc _ ih =>
        obtain ⟨hc0, hcs0⟩ := List.append_eq_nil_iff.mp hpruned
        exact .cons (compileEntry_of_unpruned hc0 hdeeper hc) (ih hcs0)
    simp only [compileSpec, hcs']
    rfl
  · cases h

/-- A level below which nothing was dropped is compiled alike with more levels below it. -/
theorem compileLevel_of_unpruned {below below' : Nat} (hbelow : below ≤ below') {spec : Value} {p : Plan}
    (hpruned : p.pruned = []) (h : compileLevel g below entity depth path spec = .ok p) :
    compileLevel g below' entity depth path spec = .ok p := by
  induction below generalizing below' entity depth path spec p with
  | zero =>
    have hnone : ∀ deeper', compileSpec g deeper' entity depth path spec = .ok p :=
      fun _ => compileSpec_of_unpruned hpruned (fun _ hlevel => by cases hlevel) h
    cases below' with
    | zero => exact h
    | succ below' => exact hnone _
  | succ below ih =>
    obtain ⟨below', rfl⟩ : ∃ n, below' = n + 1 := ⟨below' - 1, by omega⟩
    refine compileSpec_of_unpruned hpruned (fun compileLevel hlevel => ⟨_, rfl, fun e ps v q hq hv => ?_⟩) h
    cases hlevel
    exact ih (Nat.le_of_succ_le_succ hbelow) hq hv

/-- A bound of at least one rejects an unknown entity, and otherwise says how many levels there may be. -/
theorem compile_eq {spec : Value} {d : Int} (hd : 1 ≤ d) :
    compile g entity spec d =
      if (g.entity? entity).isSome then compileLevel g (d - 1).toNat entity 0 [] spec
      else .error (.unknownEntity entity) := by
  rw [compile, if_neg (by omega)]
  cases g.entity? entity <;> rfl

end Compile

/-- A request compiles as the same request without what it includes below the bound, whatever that is and whatever
larger bound is put on the shorter request. -/
theorem compile_cutIncludes {g : Graph} {entity : String} {spec : Value} {d d' : Int}
    (hspec : spec.hasDistinctNames = true) (hd : 1 ≤ d) (hd' : d ≤ d') :
    compile g entity (cutIncludes d.toNat spec) d' = (compile g entity spec d).map Plan.unpruned ∧
      ∀ other : Value, other.hasDistinctNames = true → cutIncludes d.toNat other = cutIncludes d.toNat spec →
        (compile g entity other d).map Plan.unpruned = (compile g entity spec d).map Plan.unpruned := by
  have hcut : ∀ v : Value, v.hasDistinctNames = true →
      compile g entity (cutIncludes d.toNat v) d' = (compile g entity v d).map Plan.unpruned := by
    intro v hv
    have hlevels : d.toNat = (d - 1).toNat + 1 := by omega
    rw [compile_eq hd, compile_eq (by omega : 1 ≤ d'), hlevels]
    split
    · exact compileLevel_cutIncludes (by omega) hv
    · rfl
  refine ⟨hcut spec hspec, fun other hother hsame => ?_⟩
  rw [← hcut other hother, hsame, hcut spec hspec]

namespace Bookshelf

/-- The first book of each author with its author once more, of whom something is wanted in turn. -/
def requestBelow (fields : Row) : Value :=
  .object [("books", .object [("limit", .int 1),
    ("include", .object [("author", .object [("include", .object fields)]), ("tags", .bool false)])])]

end Bookshelf

/-- With two levels it makes no difference that nothing is called so, or that more is wanted. -/
theorem compile_cutIncludes_bookshelf :
    compile Bookshelf.graph "authors" (cutIncludes 2 (Bookshelf.requestBelow [("nothing", .int 5)])) 5 =
        (compile Bookshelf.graph "authors" (Bookshelf.requestBelow [("nothing", .int 5)]) 2).map Plan.unpruned ∧
      (compile Bookshelf.graph "authors" (Bookshelf.requestBelow [("books", .bool true)]) 2).map Plan.unpruned =
        (compile Bookshelf.graph "authors" (Bookshelf.requestBelow [("nothing", .int 5)]) 2).map Plan.unpruned := by
  have h := @compile_cutIncludes Bookshelf.graph "authors" (Bookshelf.requestBelow [("nothing", .int 5)]) 2 5
    (by decide) (by decide) (by decide)
  exact ⟨h.1, h.2 (Bookshelf.requestBelow [("books", .bool true)]) (by decide) rfl⟩

/-- The plan for one level more is the same plan continued; and where nothing was dropped, more levels change
nothing. -/
theorem compile_deeper {g : Graph} {entity : String} {spec : Value} {d : Int} (hd : 1 ≤ d) :
    (∀ q, compile g entity spec (d + 1) = .ok q →
      ∃ p, compile g entity spec d = .ok p ∧ p.unpruned = (q.truncate (d - 1).toNat).unpruned) ∧
    ∀ p, compile g entity spec d = .ok p → p.pruned = [] → ∀ d', d ≤ d' → compile g entity spec d' = .ok p := by
  refine ⟨fun q hq => ?_, fun p hp hpruned d' hd' => ?_⟩
  · have hlevels : (d + 1 - 1).toNat = (d - 1).toNat + 1 := by omega
    rw [compile_eq (by omega), hlevels] at hq
    rw [compile_eq hd]
    split at hq
    · next hentity =>
      have h := unpruned_compileLevel hq
      rw [Nat.zero_add] at h
      rw [if_pos hentity]
      exact Except.map_eq_ok h
    · cases hq
  · rw [compile_eq hd] at hp
    rw [compile_eq (by omega : 1 ≤ d')]
    split at hp
    · next hentity =>
      rw [if_pos hentity]
      exact compileLevel_of_unpruned (by omega) hpruned hp
    · cases hp

theorem compile_deeper_bookshelf :
    (∃ p, compile Bookshelf.graph "authors" Bookshelf.request 1 = .ok p ∧
      p.unpruned = (Bookshelf.plan.truncate 0).unpruned) ∧
    ∀ d', 2 ≤ d' → compile Bookshelf.graph "authors" Bookshelf.request d' = .ok Bookshelf.plan :=
  ⟨(compile_deeper (by decide)).1 Bookshelf.plan Bookshelf.compile_request,
    (compile_deeper (by decide)).2 Bookshelf.plan Bookshelf.compile_request rfl⟩

end RelatedRows

import RelatedRows.Proofs.Depths

/-!
# Entries on their own

A request is compiled entry by entry: every entry becomes what it becomes in a request without any other entries.

* `Plan.join`: what some plans for one level attach, one after the other.
* `LevelCompiler.EntryWise`: a compiler that puts the plans of single entries together.
* `entryWise_compileLevel`: the compiler of every level is one.
* `compile_entryWise`: so a request is rejected as the first of its entries that would be rejected on its own.
-/

namespace RelatedRows

/-- All that some plans attach to the rows of one level, and all that was dropped from them. -/
def Plan.join (entity : String) (depth : Nat) (ps : List Plan) : Plan :=
  .mk entity depth (ps.flatMap Plan.nodes) (ps.flatMap Plan.pruned)

/-- The plan of an object is put together from the plans of its entries. -/
def LevelCompiler.EntryWise (compileLevel : LevelCompiler) : Prop :=
  ∀ entity depth path fields, compileLevel entity depth path (.object fields) =
    (fields.mapM fun f => compileLevel entity depth path (.object [f])).map (Plan.join entity depth)

section Levels

variable {g : Graph} {deeper : Option LevelCompiler}

theorem compileSpec_object (entity : String) (depth : Nat) (path : List String) (fields : Row) :
    compileSpec g deeper entity depth path (.object fields) =
      (fields.mapM (compileEntry g deeper entity depth path)).map fun cs =>
        .mk entity depth (cs.filterMap (·.node)) (cs.flatMap (·.pruned)) := by
  rw [compileSpec]
  cases fields.mapM (compileEntry g deeper entity depth path) <;> rfl

/-- The plan of one entry. -/
def Compiled.plan (entity : String) (depth : Nat) (c : Compiled) : Plan :=
  .mk entity depth c.node.toList c.pruned

theorem compileSpec_single (entity : String) (depth : Nat) (path : List String) (f : String × Value) :
    compileSpec g deeper entity depth path (.object [f]) =
      (compileEntry g deeper entity depth path f).map (Compiled.plan entity depth) := by
  rw [compileSpec_object]
  cases hc : compileEntry g deeper entity depth path f with
  | error err =>
    rw [Except.mapM_cons_error hc]
    rfl
  | ok c =>
    rw [Except.mapM_single_ok hc]
    obtain ⟨node, pruned⟩ := c
    cases node <;> simp [Except.map, Compiled.plan]

theorem join_plans (entity : String) (depth : Nat) (cs : List Compiled) :
    Plan.join entity depth (cs.map (Compiled.plan entity depth)) =
      .mk entity depth (cs.filterMap (·.node)) (cs.flatMap (·.pruned)) := by
  have hnodes : (cs.map (Compiled.plan entity depth)).flatMap Plan.nodes = cs.filterMap (·.node) := by
    rw [List.flatMap_map, List.filterMap_eq_flatMap_toList]
    rfl
  rw [Plan.join, hnodes, List.flatMap_map]
  rfl

theorem entryWise_compileSpec : LevelCompiler.EntryWise (compileSpec g deeper) := by
  intro entity depth path fields
  simp only [compileSpec_single]
  rw [compileSpec_object, Except.mapM_map_right]
  cases fields.mapM (compileEntry g deeper entity depth path) with
  | error err => rfl
  | ok cs => exact congrArg Except.ok (join_plans entity depth cs).symm

variable (g) in
/-- On every level of a request, whatever is above and below it, its entries do not depend on each other. -/
theorem entryWise_compileLevel (below : Nat) : (compileLevel g below).EntryWise := by
  obtain ⟨deeper, hdeeper⟩ := exists_compileSpec g below
  rw [hdeeper]
  exact entryWise_compileSpec

theorem compile_object {entity : String} {e : Entity} (he : g.entity? entity = some e) {d : Int} (hd : 1 ≤ d)
    (fields : Row) :
    compile g entity (.object fields) d =
      (fields.mapM fun f => compile g entity (.object [f]) d).map (Plan.join entity 0) := by
  simp only [compile_eq hd, he, Option.isSome_some, if_true]
  exact entryWise_compileLevel g _ entity 0 [] fields

end Levels

/-- A request compiles if each of its entries does on its own, to what they give one after the other.  Otherwise it is
rejected as the first entry is that would be rejected on its own, and what follows this entry makes no difference. -/
theorem compile_entryWise {g : Graph} {entity : String} {e : Entity} (he : g.entity? entity = some e) {d : Int}
    (hd : 1 ≤ d) (fields : Row) :
    (∀ p, compile g entity (.object fields) d = .ok p ↔
      ∃ ps, List.Forall₂ (fun f p => compile g entity (.object [f]) d = .ok p) fields ps ∧
        p = .mk entity 0 (ps.flatMap Plan.nodes) (ps.flatMap Plan.pruned)) ∧
    (∀ err, compile g entity (.object fields) d = .error err ↔
      ∃ before f after, fields = before ++ f :: after ∧
        (∀ b ∈ before, ∃ p, compile g entity (.object [b]) d = .ok p) ∧
        compile g entity (.object [f]) d = .error err) ∧
    ∀ err, compile g entity (.object fields) d = .error err →
      ∀ later, compile g entity (.object (fields ++ later)) d = .error err := by
  have hok : ∀ p, compile g entity (.object fields) d = .ok p ↔
      ∃ ps, List.Forall₂ (fun f p => compile g entity (.object [f]) d = .ok p) fields ps ∧
        p = .mk entity 0 (ps.flatMap Plan.nodes) (ps.flatMap Plan.pruned) := by
    intro p
    rw [compile_object he hd]
    constructor
    · intro h
      obtain ⟨ps, hps, rfl⟩ := Except.map_eq_ok h
      exact ⟨ps, Except.mapM_eq_ok_iff.mp hps, rfl⟩
    · rintro ⟨ps, hps, rfl⟩
      rw [Except.mapM_eq_ok_iff.mpr hps]
      rfl
  have herror : ∀ (fields : Row) err, compile g entity (.object fields) d = .error err ↔
      ∃ before f after, fields = before ++ f :: after ∧
        (∀ b ∈ before, ∃ p, compile g entity (.object [b]) d = .ok p) ∧
        compile g entity (.object [f]) d = .error err := by
    intro fields err
    rw [compile_object he hd, Except.map_eq_error_iff]
    exact Except.mapM_eq_error_iff
  refine ⟨hok, herror fields, fun err h later => (herror _ err).mpr ?_⟩
  obtain ⟨before, f, after, rfl, hbefore, hf⟩ := (herror fields err).mp h
  exact ⟨before, f, after ++ later, List.append_assoc _ _ _, hbefore, hf⟩

/-- Who edits a book is not known, and that something else is wrong further on makes no difference. -/
theorem compile_entryWise_bookshelf :
    compile Bookshelf.graph "books" (.object [("tags", .int 5)]) 1 = .error (.invalid "books" "tags" .notOptions) ∧
      compile Bookshelf.graph "books" (.object [("author", .bool true), ("editor", .bool true), ("tags", .int 5)]) 1 =
        .error (.unknownRelation "books" "editor") := by
  obtain ⟨e, he⟩ : ∃ e, Bookshelf.graph.entity? "books" = some e := ⟨_, rfl⟩
  refine ⟨rfl, ((compile_entryWise he (by decide) _).2.1 _).mpr ?_⟩
  refine ⟨[("author", .bool true)], ("editor", .bool true), [("tags", .int 5)], rfl, fun b hb => ?_, rfl⟩
  rw [List.mem_singleton.mp hb]
  exact ⟨_, rfl⟩

end RelatedRows

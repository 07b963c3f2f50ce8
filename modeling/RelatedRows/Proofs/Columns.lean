import RelatedRows.Proofs.Trimming
import RelatedRows.Proofs.WellFormed

/-!
# Columns that a plan names

* `IsPlainName`: an ASCII letter or underscore, then ASCII letters, digits and underscores.
* `Plan.HasOptions`: every node of a plan has options that were read and whose columns were looked at.
* `vetColumns_texts`: which columns may be named.
* `compile_columns`: what is known of the columns that a plan names.  They are plain names, except that one line end is
  let through behind a name.
-/

namespace RelatedRows

/-! ## Plain names -/

def StartsName (c : Char) : Prop :=
  'A' ≤ c ∧ c ≤ 'Z' ∨ 'a' ≤ c ∧ c ≤ 'z' ∨ c = '_'

def ContinuesName (c : Char) : Prop :=
  StartsName c ∨ '0' ≤ c ∧ c ≤ '9'

def IsPlainName (s : String) : Prop :=
  ∃ c cs, s.toList = c :: cs ∧ StartsName c ∧ ∀ d ∈ cs, ContinuesName d

theorem startsIdentifier_iff (c : Char) : startsIdentifier c = true ↔ StartsName c := by
  have hupper : c.isUpper = decide ('A' ≤ c ∧ c ≤ 'Z') := rfl
  have hlower : c.isLower = (decide ('a' ≤ c) && decide (c ≤ 'z')) := rfl
  have halpha : c.isAlpha = (c.isUpper || c.isLower) := rfl
  simp [startsIdentifier, StartsName, halpha, hupper, hlower, or_assoc]

theorem continuesIdentifier_iff (c : Char) : continuesIdentifier c = true ↔ ContinuesName c := by
  rw [ContinuesName, ← startsIdentifier_iff]
  simp only [continuesIdentifier, startsIdentifier, Char.isAlphanum, Char.isDigit, Char.le_def, Bool.or_eq_true,
    Bool.and_eq_true, decide_eq_true_eq, ge_iff_le]
  tauto

theorem isPlainIdentifier_iff (s : String) : isPlainIdentifier s.toList = true ↔ IsPlainName s := by
  unfold IsPlainName
  cases s.toList with
  | nil => simp [isPlainIdentifier]
  | cons c cs =>
    simp only [isPlainIdentifier, Bool.and_eq_true, List.all_eq_true, startsIdentifier_iff, continuesIdentifier_iff]
    refine ⟨fun h => ⟨c, cs, rfl, h⟩, ?_⟩
    rintro ⟨c', cs', heq, h⟩
    cases heq
    exact h

theorem IsPlainName.getLast?_ne {s : String} (h : IsPlainName s) : s.toList.getLast? ≠ some '\n' := by
  obtain ⟨c, cs, heq, hc, hcs⟩ := h
  have hend : ¬ContinuesName '\n' := by
    rw [← continuesIdentifier_iff]
    decide
  intro hlast
  rcases List.mem_cons.mp (heq ▸ List.mem_of_getLast? hlast) with hmem | hmem
  · exact hend (.inl (hmem ▸ hc))
  · exact hend (hcs _ hmem)

/-- A name passes if it is plain, and also with a line end behind it. -/
theorem isIdentifier_iff (s : String) :
    isIdentifier s = true ↔ ∃ name, IsPlainName name ∧ (s = name ∨ s = name ++ "\n") := by
  rw [isIdentifier, dropLineEnd]
  constructor
  · intro h
    split at h
    · next hlast =>
      refine ⟨String.ofList s.toList.dropLast, ?_, .inr ?_⟩
      · rw [← isPlainIdentifier_iff, String.toList_ofList]
        exact h
      · apply String.toList_injective
        rw [String.toList_append, String.toList_ofList]
        exact (List.dropLast_append_getLast? _ hlast).symm
    · exact ⟨s, (isPlainIdentifier_iff s).mp h, .inl rfl⟩
  · rintro ⟨name, hname, rfl | rfl⟩
    · rw [if_neg hname.getLast?_ne]
      exact (isPlainIdentifier_iff _).mpr hname
    · have hlist : (name ++ "\n").toList = name.toList ++ ['\n'] := String.toList_append
      rw [hlist, if_pos (by simp), List.dropLast_concat]
      exact (isPlainIdentifier_iff _).mpr hname

/-! ## Columns that may be named -/

theorem Entity.declares_iff (e : Entity) (c : String) : e.declares c = true ↔ ∀ cs, e.columns = some cs → c ∈ cs := by
  unfold declares
  cases e.columns <;> simp

theorem columnObjection?_eq_none_iff (e : Entity) (c : String) :
    columnObjection? e (.text c) = none ↔ isIdentifier c = true ∧ e.declares c = true := by
  simp only [columnObjection?]
  cases isIdentifier c <;> cases e.declares c <;> simp

/-- The names that may be used on an entity: those that pass as names, and are declared if columns are. -/
theorem vetColumns_texts (e : Entity) (key : Option String) (columns : List String) :
    vetColumns e key (columns.map .text) = .ok () ↔
      ∀ c ∈ columns, (∃ name, IsPlainName name ∧ (c = name ∨ c = name ++ "\n")) ∧
        ∀ cs, e.columns = some cs → c ∈ cs := by
  rw [vetColumns_eq_ok, List.forall_mem_map]
  refine forall₂_congr fun c _ => ?_
  rw [columnObjection?_eq_none_iff, isIdentifier_iff, Entity.declares_iff]

/-! ## Columns of a plan -/

/-- Each node of a plan has the options of some value that is in order. -/
def Plan.HasOptions (g : Graph) (p : Plan) : Prop :=
  ∀ q ∈ p.levels, ∀ n ∈ q.nodes, ∃ v : Value, v.HasOptions g n.step.relation n.step.key n.step.options

section Compile

variable {g : Graph} {deeper : Option LevelCompiler} {depth : Nat} {entity : String} {path : List String} {spec : Value}
  {p : Plan}

theorem Compiled.Of.hasOptions {field : String × Value} {c : Compiled}
    (h : Compiled.Of g deeper entity depth path field c) {n : PlanNode} (hn : c.node = some n) :
    field.2.HasOptions g n.step.relation n.step.key n.step.options := by
  cases h with
  | off => cases hn
  | single hrelation hoptions =>
    cases hn
    exact hoptions
  | deepest hrelation hoptions =>
    cases hn
    exact hoptions
  | nested hrelation hoptions =>
    cases hn
    split <;> exact hoptions

theorem hasOptions_of_compileSpec
    (hdeeper : ∀ compileLevel, deeper = some compileLevel → ∀ entity depth path spec q,
      compileLevel entity depth path spec = .ok q → q.HasOptions g)
    (h : compileSpec g deeper entity depth path spec = .ok p) : p.HasOptions g := by
  intro r hr n hn
  rcases Plan.mem_levels.mp hr with rfl | ⟨s, q, hq, hr⟩
  · obtain ⟨f, -, c, hc, hnode⟩ := exists_entry_of_mem_nodes h hn
    exact ⟨f.2, hc.hasOptions hnode⟩
  · obtain ⟨f, -, -, compileLevel, hlevel, hnested⟩ := exists_entry_of_branch h hq
    exact hdeeper compileLevel hlevel _ _ _ _ q hnested r hr n hn

theorem hasOptions_of_compileLevel {below : Nat} (h : compileLevel g below entity depth path spec = .ok p) :
    p.HasOptions g := by
  induction below generalizing entity depth path spec p with
  | zero => exact hasOptions_of_compileSpec (fun _ hlevel => by cases hlevel) h
  | succ below ih =>
    refine hasOptions_of_compileSpec (fun compileLevel hlevel => ?_) h
    cases hlevel
    exact fun _ _ _ _ _ hq => ih hq

end Compile

/-- Columns are named among the options of an entry only if they may be. -/
theorem Value.HasOptions.columns {g : Graph} {relation : Relation} {key : String} {v : Value} {options : Options}
    (h : v.HasOptions g relation key options) {c : String} (hc : c ∈ options.columns) :
    ∃ target, g.entity? relation.target = some target ∧
      (∃ name, IsPlainName name ∧ (c = name ∨ c = name ++ "\n")) ∧ ∀ cs, target.columns = some cs → c ∈ cs := by
  cases h with
  | on => cases hc
  | @object fields entry target hread htarget hcolumns =>
    exact ⟨target, htarget, (vetColumns_texts target key entry.options.columns).mp hcolumns c hc⟩

/-- What a plan selects, excludes or orders by are columns of the target with plain names, or with one line end behind a
plain name.  Names that may be used are just these: a plain name is turned down only where columns are declared
without it. -/
theorem compile_columns {g : Graph} {entity : String} {spec : Value} {maxDepth : Int} {p : Plan}
    (h : compile g entity spec maxDepth = .ok p) :
    (∀ q ∈ p.levels, ∀ n ∈ q.nodes, ∀ c ∈ n.step.options.columns,
      ∃ target, g.entity? n.step.relation.target = some target ∧
        (∃ name, IsPlainName name ∧ (c = name ∨ c = name ++ "\n")) ∧ ∀ cs, target.columns = some cs → c ∈ cs) ∧
    ∀ (e : Entity) (key : Option String) (columns : List String),
      vetColumns e key (columns.map .text) = .ok () ↔
        ∀ c ∈ columns, (∃ name, IsPlainName name ∧ (c = name ∨ c = name ++ "\n")) ∧
          ∀ cs, e.columns = some cs → c ∈ cs := by
  refine ⟨fun q hq n hn c hc => ?_, vetColumns_texts⟩
  obtain ⟨v, hv⟩ := hasOptions_of_compileLevel (compileLevel_of_compile h) q hq n hn
  exact hv.columns hc

theorem compile_columns_bookshelf :
    (Bookshelf.narrowPlan.levels.flatMap fun q => q.nodes.flatMap fun n => n.step.options.columns) = ["title", "name"] ∧
      ∀ q ∈ Bookshelf.narrowPlan.levels, ∀ n ∈ q.nodes, ∀ c ∈ n.step.options.columns,
        ∃ target, Bookshelf.graph.entity? n.step.relation.target = some target ∧
          (∃ name, IsPlainName name ∧ (c = name ∨ c = name ++ "\n")) ∧ ∀ cs, target.columns = some cs → c ∈ cs :=
  ⟨by decide +kernel,
    (compile_columns (rfl : compile Bookshelf.graph "authors" Bookshelf.narrowRequest 2 = .ok Bookshelf.narrowPlan)).1⟩

namespace Undeclared

/-- Authors and books of which no columns are known. -/
def entities : List Entity :=
  [{ name := "authors", primaryKey := ["id"] }, { name := "books", primaryKey := ["id"] }]

def books : Relation where
  name := "books"
  source := "authors"
  kind := .many
  target := "books"
  sourceKey := ["id"]
  targetKey := ["author_id"]

def graph : Graph := ⟨entities, [books]⟩

/-- The books of each author with one column only. -/
def request (column : String) : Value :=
  .object [("books", .object [("select", .list [.text column])])]

end Undeclared

/-- A line end behind a name is let through where no columns are declared. -/
theorem lineEnd_is_let_through :
    Graph.build Undeclared.entities [Undeclared.books] = .ok Undeclared.graph ∧
      (∃ p, compile Undeclared.graph "authors" (Undeclared.request "title\n") 3 = .ok p ∧
        ∃ n ∈ p.nodes, n.step.options.select = some ["title\n"]) ∧
      ¬IsPlainName "title\n" := by
  refine ⟨by decide +kernel, ⟨_, rfl, _, List.mem_cons_self, rfl⟩, ?_⟩
  rw [← isPlainIdentifier_iff]
  decide +kernel

end RelatedRows

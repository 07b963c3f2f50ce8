import RelatedRows.Proofs.Depths

/-!
# Includes that were dropped

A plan says which includes of its request lie below the bound.  Such an include belongs to an entry of the last level,
which is reached by a trail of entries, each of them included by the one before.

* `Trail`, `Trail.path`: an entry with those that it is included by, and the path that names it.
* `Trail.IsDropped`, `Trail.Precedes`: which entries have their includes dropped, and in which order they are met.
* `dropped levels fields`: all of them, in that order.
* `Plan.At`: the plan below the nodes of a path.
* `compile_pruned`: a plan lists the dropped includes and no others, and so does every plan below its nodes.
-/

namespace RelatedRows

/-! ## Trails -/

/-- An entry of a request behind those that it is included by, the outermost first. -/
abbrev Trail := List (String × Value)

theorem Value.nodup_columns_entries {v : Value} (h : v.hasDistinctNames = true) : v.entries.columns.Nodup := by
  cases v with
  | object fields => exact (hasDistinctNames_object h).1
  | _ => exact .nil

namespace Trail

def keys (t : Trail) : List String :=
  t.map (·.1)

/-- The path of a trail that starts below the nodes of `path`. -/
def path (path : List String) (t : Trail) : String :=
  ".".intercalate (path ++ t.keys)

/-- The first entry is one of the fields, and each one includes the next. -/
def Leads : Row → Trail → Prop
  | _, [] => True
  | fields, f :: t => f ∈ fields ∧ Leads f.2.included t

/-- A trail through all levels whose last entry includes something. -/
structure IsDropped (levels : Nat) (fields : Row) (t : Trail) : Prop where
  length_eq : t.length = levels
  leads : t.Leads fields
  includes : ∃ f, t.getLast? = some f ∧ f.2.included ≠ []

/-- The order in which a request is read: where two trails part, the first one takes the entry that stands first. -/
inductive Precedes : Row → Trail → Trail → Prop
  | here {fields : Row} {f f' : String × Value} {t t' : Trail} (h : [f, f'].Sublist fields) :
    Precedes fields (f :: t) (f' :: t')
  | under {fields : Row} {f : String × Value} {t t' : Trail} (hf : f ∈ fields)
    (h : Precedes f.2.included t t') : Precedes fields (f :: t) (f :: t')

/-- No trail precedes itself if names are different. -/
theorem Precedes.ne {fields : Row} {t t' : Trail} (h : Precedes fields t t')
    (hfields : (Value.object fields).hasDistinctNames = true) : t ≠ t' := by
  induction h with
  | here h =>
    intro heq
    obtain ⟨rfl, -⟩ := List.cons_eq_cons.mp heq
    exact List.nodup_iff_sublist.mp (Value.hasDistinctNames_object hfields).1.of_map _ h
  | under hf h ih =>
    intro heq
    have hincluded := Value.hasDistinctNames_included ((Value.hasDistinctNames_object hfields).2 _ hf)
    exact ih hincluded (List.cons_eq_cons.mp heq).2

theorem keys_cons (f : String × Value) (t : Trail) : keys (f :: t) = f.1 :: t.keys := rfl

theorem path_cons (ks : List String) (f : String × Value) (t : Trail) :
    path ks (f :: t) = path (ks ++ [f.1]) t := by
  rw [path, path, keys_cons, List.append_assoc, List.singleton_append]

theorem isDropped_singleton {fields : Row} {f : String × Value} :
    IsDropped 1 fields [f] ↔ f ∈ fields ∧ f.2.included ≠ [] := by
  refine ⟨fun h => ?_, fun h => ⟨rfl, ⟨h.1, trivial⟩, f, rfl, h.2⟩⟩
  obtain ⟨f', hlast, hincludes⟩ := h.includes
  cases hlast
  exact ⟨h.leads.1, hincludes⟩

theorem isDropped_cons {levels : Nat} {fields : Row} {f : String × Value} {t : Trail} (hlevels : levels ≠ 0) :
    IsDropped (levels + 1) fields (f :: t) ↔ f ∈ fields ∧ IsDropped levels f.2.included t := by
  have hlast : t.length = levels → (f :: t).getLast? = t.getLast? := by
    intro hlength
    cases t with
    | nil => exact absurd hlength.symm hlevels
    | cons f' t => rw [List.getLast?_cons_cons]
  constructor
  · intro h
    have hlength : t.length = levels := Nat.succ.inj h.length_eq
    exact ⟨h.leads.1, hlength, h.leads.2, hlast hlength ▸ h.includes⟩
  · rintro ⟨hf, h⟩
    exact ⟨congrArg Nat.succ h.length_eq, ⟨hf, h.leads⟩, (hlast h.length_eq).symm ▸ h.includes⟩

end Trail

/-- The trails to the entries whose includes lie below `levels` levels, in the order of the request. -/
def dropped : (levels : Nat) → Row → List Trail
  | 0, _ => []
  | 1, fields => (fields.filter fun f => f.2.included ≠ []).map fun f => [f]
  | levels + 2, fields => fields.flatMap fun f => (dropped (levels + 1) f.2.included).map (f :: ·)

theorem mem_dropped {levels : Nat} {fields : Row} {t : Trail} :
    t ∈ dropped levels fields ↔ t.IsDropped levels fields := by
  induction levels generalizing fields t with
  | zero =>
    refine ⟨fun h => (List.not_mem_nil h).elim, fun h => ?_⟩
    obtain rfl := List.length_eq_zero_iff.mp h.length_eq
    obtain ⟨f, hlast, -⟩ := h.includes
    cases hlast
  | succ levels ih =>
    cases levels with
    | zero =>
      simp only [dropped, List.mem_map, List.mem_filter, decide_eq_true_eq]
      constructor
      · rintro ⟨f, hf, rfl⟩
        exact Trail.isDropped_singleton.mpr hf
      · intro h
        obtain ⟨f, rfl⟩ := List.length_eq_one_iff.mp h.length_eq
        exact ⟨f, Trail.isDropped_singleton.mp h, rfl⟩
    | succ levels =>
      simp only [dropped, List.mem_flatMap, List.mem_map]
      constructor
      · rintro ⟨f, hf, t, ht, rfl⟩
        exact (Trail.isDropped_cons (by omega)).mpr ⟨hf, ih.mp ht⟩
      · intro h
        cases t with
        | nil => cases h.length_eq
        | cons f t =>
          obtain ⟨hf, ht⟩ := (Trail.isDropped_cons (by omega)).mp h
          exact ⟨f, hf, t, ih.mpr ht, rfl⟩

theorem dropped_nil (levels : Nat) : dropped levels [] = [] := by
  match levels with
  | 0 | 1 | _ + 2 => rfl

/-- Dropped includes are listed in the order of the request. -/
theorem pairwise_dropped (levels : Nat) (fields : Row) :
    (dropped levels fields).Pairwise (Trail.Precedes fields) := by
  induction levels generalizing fields with
  | zero => exact .nil
  | succ levels ih =>
    cases levels with
    | zero =>
      rw [dropped, List.pairwise_map, List.pairwise_iff_forall_sublist]
      exact fun h => .here (h.trans List.filter_sublist)
    | succ levels =>
      rw [dropped, List.pairwise_flatMap]
      refine ⟨fun f hf => ?_, ?_⟩
      · rw [List.pairwise_map]
        exact (ih f.2.included).imp fun h => .under hf h
      · rw [List.pairwise_iff_forall_sublist]
        intro f f' hsub t ht t' ht'
        obtain ⟨u, -, rfl⟩ := List.mem_map.mp ht
        obtain ⟨u', -, rfl⟩ := List.mem_map.mp ht'
        exact .here hsub

theorem nodup_dropped {spec : Value} (hspec : spec.hasDistinctNames = true) (levels : Nat) :
    (dropped levels spec.entries).Nodup := by
  refine (pairwise_dropped levels spec.entries).imp fun h => h.ne ?_
  cases spec with
  | object fields => exact hspec
  | _ => rfl

/-- If names are different, the trails through an entry stand together. -/
theorem dropped_through (levels : Nat) {fields : Row} {f : String × Value} (hfields : fields.columns.Nodup)
    (hf : f ∈ fields) :
    ∃ before after, dropped (levels + 2) fields =
        before ++ (dropped (levels + 1) f.2.included).map (f :: ·) ++ after ∧
      ∀ t ∈ before ++ after, ∀ f' t', t = f' :: t' → f'.1 ≠ f.1 := by
  obtain ⟨fields₁, fields₂, rfl⟩ := List.append_of_mem hf
  rw [Row.columns, List.map_append, List.map_cons, List.nodup_middle, List.nodup_cons, ← List.map_append] at hfields
  refine ⟨dropped (levels + 2) fields₁, dropped (levels + 2) fields₂, ?_, ?_⟩
  · simp only [dropped, List.flatMap_append, List.flatMap_cons, List.append_assoc]
  · rintro t ht f' t' rfl heq
    rw [dropped, dropped, ← List.flatMap_append] at ht
    obtain ⟨f'', hf'', ht⟩ := List.mem_flatMap.mp ht
    obtain ⟨u, -, hu⟩ := List.mem_map.mp ht
    obtain ⟨rfl, -⟩ := List.cons_eq_cons.mp hu
    exact hfields.1 (List.mem_map.mpr ⟨f'', hf'', heq⟩)

/-! ## What compiling drops -/

theorem Value.included_of_not_isOn {v : Value} (h : v.isOn = false) : v.included = [] := by
  cases v with
  | object fields => cases h
  | _ => rfl

section Compile

variable {g : Graph} {deeper : Option LevelCompiler} {below depth : Nat} {entity : String} {path : List String}
  {spec : Value} {field : String × Value} {c : Compiled} {p : Plan}

/-- An entry of the last level drops what it includes. -/
theorem pruned_of_deepest (h : Compiled.Of g none entity depth path field c) :
    c.pruned = if field.2.included = [] then [] else [Trail.path path [field]] := by
  cases h with
  | off hrelation hoff => rw [if_pos (Value.included_of_not_isOn hoff)]
  | single hrelation hoptions hnone => rw [if_pos hnone]
  | deepest hrelation hoptions hsome =>
    rw [if_neg hsome]
    rfl
  | nested hrelation hoptions hsome hlevel => cases hlevel

/-- An entry above the last level drops what the level below it drops, also if this level is left out. -/
theorem pruned_of_nested {compileLevel : LevelCompiler}
    (h : Compiled.Of g (some compileLevel) entity depth path field c) :
    field.2.included = [] ∧ c.pruned = [] ∨
      ∃ relation q, compileLevel relation (depth + 1) (path ++ [field.1]) (.object field.2.included) = .ok q ∧
        c.pruned = q.pruned := by
  cases h with
  | off hrelation hoff => exact .inl ⟨Value.included_of_not_isOn hoff, rfl⟩
  | single hrelation hoptions hnone => exact .inl ⟨hnone, rfl⟩
  | deepest hrelation hoptions hsome hlevel => cases hlevel
  | nested hrelation hoptions hsome hlevel hnested =>
    cases hlevel
    exact .inr ⟨_, _, hnested, rfl⟩

/-- A level lists what its entries drop, one after the other. -/
theorem pruned_of_compileSpec (h : compileSpec g deeper entity depth path spec = .ok p)
    (drop : String × Value → List String)
    (hdrop : ∀ f ∈ spec.entries, ∀ c, Compiled.Of g deeper entity depth path f c → c.pruned = drop f) :
    p.pruned = spec.entries.flatMap drop := by
  obtain ⟨cs, hcs, rfl⟩ := exists_compiled_of_compileSpec h
  show cs.flatMap (·.pruned) = spec.entries.flatMap drop
  clear h
  generalize spec.entries = fields at hcs hdrop
  induction hcs with
  | nil => rfl
  | @cons f c fields cs hc _ ih =>
    rw [List.flatMap_cons, List.flatMap_cons, hdrop f List.mem_cons_self c hc,
      ih fun f' hf' => hdrop f' (List.mem_cons_of_mem _ hf')]

/-- A level with `below` more levels under it lists what is included below all of them. -/
theorem pruned_of_compileLevel (h : compileLevel g below entity depth path spec = .ok p) :
    p.pruned = (dropped (below + 1) spec.entries).map (Trail.path path) := by
  induction below generalizing entity depth path spec p with
  | zero =>
    rw [pruned_of_compileSpec h _ fun f _ c hc => pruned_of_deepest hc, dropped, List.map_map]
    induction spec.entries with
    | nil => rfl
    | cons f fields ih =>
      rw [List.flatMap_cons, ih]
      by_cases hnone : f.2.included = [] <;> simp [hnone]
  | succ below ih =>
    have hentry : ∀ f ∈ spec.entries, ∀ c, Compiled.Of g (some (compileLevel g below)) entity depth path f c →
        c.pruned = ((dropped (below + 1) f.2.included).map (f :: ·)).map (Trail.path path) := by
      intro f _ c hc
      rw [List.map_map]
      rcases pruned_of_nested hc with ⟨hnone, hpruned⟩ | ⟨relation, q, hq, hpruned⟩
      · rw [hpruned, hnone, dropped_nil]
        rfl
      · rw [hpruned, ih hq]
        exact List.map_congr_left fun t _ => (Trail.path_cons path f t).symm
    rw [pruned_of_compileSpec h _ hentry, dropped, List.map_flatMap]

/-- A level without nodes has all its entries turned off, so there is nothing below it that could be dropped. -/
theorem pruned_of_isEmpty (h : compileLevel g below entity depth path spec = .ok p) (hempty : p.nodes = []) :
    p.pruned = [] := by
  obtain ⟨deeper, hdeeper⟩ := exists_compileSpec g below
  rw [hdeeper] at h
  obtain ⟨cs, hcs, rfl⟩ := exists_compiled_of_compileSpec h
  have hnone : ∀ c ∈ cs, c.node = none := by simpa [Plan.nodes, List.filterMap_eq_nil_iff] using hempty
  refine List.flatMap_eq_nil_iff.mpr fun c hc => ?_
  obtain ⟨f, -, hf⟩ := Except.exists_of_forall₂_right hcs hc
  have hnode := hnone c hc
  cases hf with
  | off => rfl
  | _ => cases hnode

end Compile

/-! ## The plans below -/

/-- The plan below the nodes of a path. -/
inductive Plan.At : Plan → List String → Plan → Prop
  | root (p : Plan) : At p [] p
  | under {p q r : Plan} {s : Inclusion} {path : List String} (hq : .branch s q ∈ p.nodes) (hr : At q path r) :
    At p (s.key :: path) r

/-- A plan below lists the part of what is dropped that lies under its path. -/
theorem part_of_compileLevel {g : Graph} {below depth : Nat} {entity : String} {path path' : List String} {spec : Value}
    {p q : Plan} (hspec : spec.hasDistinctNames = true) (h : compileLevel g below entity depth path spec = .ok p)
    (hq : p.At path' q) :
    ∃ before part after, dropped (below + 1) spec.entries = before ++ part ++ after ∧
      q.pruned = part.map (Trail.path path) ∧ (∀ t ∈ part, path' <+: t.keys) ∧
      ∀ t ∈ before ++ after, ¬path' <+: t.keys := by
  induction hq generalizing below entity depth path spec with
  | root p =>
    refine ⟨[], dropped (below + 1) spec.entries, [], (List.append_nil _).symm, pruned_of_compileLevel h,
      fun t _ => List.nil_prefix, fun t ht => by cases ht⟩
  | @under p q r s path' hq hr ih =>
    cases below with
    | zero =>
      obtain ⟨f, -, -, compileLevel, hlevel, -⟩ := exists_entry_of_branch h hq
      cases hlevel
    | succ below =>
      obtain ⟨f, hf, hkey, compileLevel, hlevel, hnested⟩ := exists_entry_of_branch h hq
      cases hlevel
      have hincluded := Value.hasDistinctNames_included (Value.hasDistinctNames_of_mem hspec hf)
      obtain ⟨before, part, after, hdropped, hpruned, hpart, hrest⟩ := ih hincluded hnested
      obtain ⟨before', after', hthrough, hbeside⟩ := dropped_through below (Value.nodup_columns_entries hspec) hf
      have hunder : ∀ t : Trail, s.key :: path' <+: Trail.keys (f :: t) ↔ path' <+: t.keys := by
        intro t
        rw [Trail.keys_cons, List.cons_prefix_cons, hkey]
        exact and_iff_right rfl
      refine ⟨before' ++ before.map (f :: ·), part.map (f :: ·), after.map (f :: ·) ++ after', ?_, ?_, ?_, ?_⟩
      · rw [hthrough, show dropped (below + 1) f.2.included = before ++ part ++ after from hdropped]
        simp only [List.map_append, List.append_assoc]
      · rw [hpruned, List.map_map, ← hkey]
        exact List.map_congr_left fun t _ => (Trail.path_cons path f t).symm
      · intro t ht
        obtain ⟨u, hu, rfl⟩ := List.mem_map.mp ht
        exact (hunder u).mpr (hpart u hu)
      · intro t ht hprefix
        have hcases : t ∈ before' ++ after' ∨ ∃ u ∈ before ++ after, f :: u = t := by
          simp only [List.mem_append, List.mem_map] at ht ⊢
          grind
        rcases hcases with ht | ⟨u, hu, rfl⟩
        · cases t with
          | nil => exact absurd hprefix (by simp [Trail.keys])
          | cons f' t => exact hbeside _ ht f' t rfl ((List.cons_prefix_cons.mp hprefix).1.symm.trans hkey.symm)
        · exact hrest u hu ((hunder u).mp hprefix)

/-- A plan lists the paths of the includes that lie below the bound, all of them, in the order of the request and no
others.  A plan below its nodes lists those that lie under its path, which stand together, and a plan without nodes,
which is left out, has none to list. -/
theorem compile_pruned {g : Graph} {entity : String} {spec : Value} {maxDepth : Int} {p : Plan}
    (hspec : spec.hasDistinctNames = true) (h : compile g entity spec maxDepth = .ok p) :
    (∀ t, t ∈ dropped maxDepth.toNat spec.entries ↔ t.IsDropped maxDepth.toNat spec.entries) ∧
      (dropped maxDepth.toNat spec.entries).Pairwise (Trail.Precedes spec.entries) ∧
      (dropped maxDepth.toNat spec.entries).Nodup ∧
      p.pruned = (dropped maxDepth.toNat spec.entries).map (Trail.path []) ∧
      (∀ path q, p.At path q → ∃ before part after,
        dropped maxDepth.toNat spec.entries = before ++ part ++ after ∧ q.pruned = part.map (Trail.path []) ∧
          (∀ t ∈ part, path <+: t.keys) ∧ ∀ t ∈ before ++ after, ¬path <+: t.keys) ∧
      ∀ below entity depth path spec q, compileLevel g below entity depth path spec = .ok q → q.nodes = [] →
        q.pruned = [] := by
  have hlevels : maxDepth.toNat = (maxDepth - 1).toNat + 1 := by
    by_contra hnot
    rw [compile, if_pos (by omega)] at h
    cases h
  have hlevel := compileLevel_of_compile h
  rw [hlevels]
  exact ⟨fun t => mem_dropped, pairwise_dropped _ _, nodup_dropped hspec _, pruned_of_compileLevel hlevel,
    fun path q hq => part_of_compileLevel hspec hlevel hq,
    fun below entity depth path spec q hq hempty => pruned_of_isEmpty hq hempty⟩

namespace Bookshelf

/-- Books, and what is called so of each. -/
def booksWith (key : String) : Value :=
  .object [("books", .object [("include", .object [(key, .bool true)])])]

/-- Books with their authors and tags, the books of both, and something more of these. -/
def requestAround : Value :=
  .object [("author", .object [("include", booksWith "tags")]), ("tags", .object [("include", booksWith "author")])]

def planAround : Plan :=
  match compile graph "books" requestAround 2 with
  | .ok p => p
  | .error _ => .empty "books" 0

/-- The plan for what is attached to the tags. -/
def planOfTags : Plan :=
  ((planAround.nodes.find? (·.key = "tags")).bind PlanNode.nested?).getD (.empty "tags" 1)

end Bookshelf

/-- With two levels the books of the authors and of the tags come without anything else, and the plan for the tags knows
of its own books only. -/
theorem compile_pruned_bookshelf :
    Bookshelf.planAround.pruned = ["author.books", "tags.books"] ∧
      ∃ before part after, dropped 2 Bookshelf.requestAround.entries = before ++ part ++ after ∧
        Bookshelf.planOfTags.pruned = part.map (Trail.path []) ∧ (∀ t ∈ part, ["tags"] <+: t.keys) ∧
          ∀ t ∈ before ++ after, ¬["tags"] <+: t.keys := by
  have h := @compile_pruned Bookshelf.graph "books" Bookshelf.requestAround 2 Bookshelf.planAround (by decide) rfl
  have hat : Bookshelf.planAround.At ["tags"] Bookshelf.planOfTags := by
    obtain ⟨s, hs, hkey⟩ : ∃ s, .branch s Bookshelf.planOfTags ∈ Bookshelf.planAround.nodes ∧ s.key = "tags" :=
      ⟨_, List.mem_cons_of_mem _ List.mem_cons_self, rfl⟩
    exact hkey ▸ .under hs (.root _)
  exact ⟨h.2.2.2.1.trans rfl, h.2.2.2.2.1 _ _ hat⟩

end RelatedRows

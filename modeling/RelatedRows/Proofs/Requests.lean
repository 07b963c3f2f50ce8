import Mathlib.Data.List.Perm.Basic
import RelatedRows.Proofs.Plans
import RelatedRows.Proofs.Rows
import RelatedRows.Stitch.Index

/-!
# Requests and their order

The entries of a request say what to include, whatever their order.

* `Value.Reorders`: a request whose entries stand in another order, on any of its levels.
* `Plan.Reorders`: the same for plans.
* `compile_reorders`: a request in another order compiles to a plan in another order.
* `Value.hasDistinctNames`, `Plan.KeysDistinct`: the entries of a request have different names, and so have the nodes of
  a level of its plan (`keysDistinct_of_compile`).
* `Plan.Separate`: the nodes of every level have different keys that stand apart.
-/

namespace RelatedRows

open Form

/-! ## Options in another order -/

theorem Form.field_congr {α : Type} {F F' : Row} {names : List String} (h : ∀ c ∈ names, F.lookup c = F'.lookup c)
    (default : α) (read : List Step → Value → Checked α) :
    field F names default read = field F' names default read := by
  have hfind : names.find? (fun name => (F.lookup name).isSome) = names.find? fun name => (F'.lookup name).isSome := by
    induction names with
    | nil => rfl
    | cons c names ih =>
      rw [List.find?_cons, List.find?_cons, h c List.mem_cons_self, ih fun d hd => h d (List.mem_cons_of_mem _ hd)]
  unfold field
  rw [hfind]
  split
  · next name hname =>
    rw [Row.get, Row.get, h name (List.mem_of_find?_eq_some hname)]
  · rfl

namespace Entry

/-- The reader for what is included below. -/
def includeOf (fields : Row) : Checked (Option Row) :=
  field fields ["include"] none fun p => optional (object p)

theorem readFields_eq_ok {fields : Row} {entry : Entry} (h : readFields fields = .ok entry) :
    includeOf fields = .ok entry.below := by
  unfold readFields at h
  obtain ⟨⟨below, rest⟩, hboth, hentry⟩ := Except.bind_eq_ok h
  obtain ⟨hbelow, -⟩ := both_eq_ok.mp hboth
  cases hentry
  exact hbelow

theorem readFields_congr {F F' : Row} {entry : Entry} {below : Option Row} (hcolumns : F.columns = F'.columns)
    (hlookup : ∀ c, c ≠ "include" → F.lookup c = F'.lookup c) (hbelow : includeOf F' = .ok below)
    (h : readFields F = .ok entry) : readFields F' = .ok { entry with below } := by
  have hsame {α : Type} (names : List String) (hnames : "include" ∉ names) (default : α)
      (read : List Step → Value → Checked α) : field F names default read = field F' names default read :=
    field_congr (fun c hc => hlookup c fun hinclude => hnames (hinclude ▸ hc)) default read
  have hunexpected : unexpected F = unexpected F' := by
    have hname : isUnexpected F = isUnexpected F' := by
      funext name
      rw [isUnexpected, isUnexpected, hlookup "orderBy" (by decide)]
    rw [unexpected, unexpected, hcolumns, hname]
  unfold readFields at h ⊢
  obtain ⟨⟨below', rest⟩, hboth, hentry⟩ := Except.bind_eq_ok h
  obtain ⟨-, hrest⟩ := both_eq_ok.mp hboth
  cases hentry
  rw [hsame ["limit"] (by decide), hsame ["offset"] (by decide), hsame ["orderBy", "order_by"] (by decide),
    hsame ["order"] (by decide), hsame ["select"] (by decide), hsame ["exclude"] (by decide), hunexpected] at hrest
  have hall := both_eq_ok.mpr ⟨hbelow, hrest⟩
  unfold includeOf at hall
  simp only [hall]
  rfl

/-- What is included below is the object under its name. -/
theorem lookup_include {fields below : Row} (h : includeOf fields = .ok (some below)) :
    fields.lookup "include" = some (.object below) := by
  unfold includeOf field at h
  simp only [List.find?_cons, List.find?_nil] at h
  cases hv : fields.lookup "include" with
  | none =>
    simp only [hv, Option.isSome_none] at h
    cases h
  | some v =>
    simp only [hv, Option.isSome_some, Row.get_eq_lookup, Option.getD_some] at h
    unfold Form.optional at h
    split at h
    · cases h
    · obtain ⟨fields', hobject, hsome⟩ := Except.map_eq_ok h
      cases hsome
      unfold object at hobject
      split at hobject
      · cases hobject
        rfl
      · cases hobject

theorem lookup_of_read {fields below : Row} {entry : Entry} (h : Entry.read fields = .ok entry)
    (hbelow : entry.below = some below) : fields.lookup "include" = some (.object below) := by
  obtain ⟨_, -, h⟩ := Except.bind_eq_ok h
  obtain ⟨entry', hfields, h⟩ := Except.bind_eq_ok h
  split at h
  · cases h
    exact lookup_include (hbelow ▸ readFields_eq_ok hfields)
  · cases h

theorem includeOf_of_lookup {fields below : Row} (h : fields.lookup "include" = some (.object below)) :
    includeOf fields = .ok (some below) := by
  unfold includeOf field
  simp only [List.find?_cons, h, Option.isSome_some, Row.get_eq_lookup, Option.getD_some]
  rfl

end Entry

/-! ## Requests -/

/-- A request whose entries stand in another order, on any of its levels. -/
inductive Value.Reorders : Value → Value → Prop
  | refl (v : Value) : Reorders v v
  | entries {es fs : Row} (h : es.Perm fs) : Reorders (.object es) (.object fs)
  | included {before after os os' : Row} {key : String} {v w : Value} (h : Reorders v w) :
    Reorders (.object (before ++ (key, .object (os ++ ("include", v) :: os')) :: after))
      (.object (before ++ (key, .object (os ++ ("include", w) :: os')) :: after))
  | trans {u v w : Value} (h : Reorders u v) (h' : Reorders v w) : Reorders u w

namespace Value.Reorders

/-- Only objects have entries to reorder. -/
theorem eq_or_objects {v w : Value} (h : v.Reorders w) :
    v = w ∨ ∃ es fs, v = .object es ∧ w = .object fs ∧ es.length = fs.length := by
  induction h with
  | refl v => exact .inl rfl
  | entries h => exact .inr ⟨_, _, rfl, rfl, h.length_eq⟩
  | included h => exact .inr ⟨_, _, rfl, rfl, by simp⟩
  | trans h h' ih ih' =>
    rcases ih with rfl | ⟨es, fs, rfl, rfl, hlen⟩
    · exact ih'
    · rcases ih' with hfs | ⟨es', fs', hes', rfl, hlen'⟩
      · exact .inr ⟨es, fs, rfl, hfs.symm, hlen⟩
      · cases hes'
        exact .inr ⟨es, fs', rfl, rfl, hlen.trans hlen'⟩

end Value.Reorders

theorem Row.lookup_append_cons_of_ne {os os' : Row} {c d : String} {v : Value} (h : c ≠ d) :
    (os ++ (d, v) :: os').lookup c = (os ++ os').lookup c := by
  rw [Index.lookup_append, Index.lookup_append, lookup_cons_of_ne h]

/-- What an options object includes, after a change to the order of it. -/
theorem Entry.includeOf_reorders {os os' : Row} {v w : Value} (hvw : v.Reorders w) {below : Option Row}
    (h : includeOf (os ++ ("include", v) :: os') = .ok below) :
    ∃ below', includeOf (os ++ ("include", w) :: os') = .ok below' ∧
      (below' = below ∨ ∃ a b, below = some a ∧ below' = some b ∧ v = .object a ∧ w = .object b ∧
        a.length = b.length) := by
  have hlookup (x : Value) : List.lookup "include" (os ++ ("include", x) :: os') =
      (os.lookup "include").or (some x) := by
    rw [Index.lookup_append]
    simp
  cases hos : os.lookup "include" with
  | some x =>
    refine ⟨below, ?_, .inl rfl⟩
    rw [← h]
    refine field_congr (fun c hc => ?_) _ _
    rw [List.mem_singleton.mp hc, hlookup, hlookup, hos]
    rfl
  | none =>
    rcases hvw.eq_or_objects with rfl | ⟨a, b, rfl, rfl, hlength⟩
    · exact ⟨_, h, .inl rfl⟩
    · have hread (x : Row) : includeOf (os ++ ("include", .object x) :: os') = .ok (some x) :=
        includeOf_of_lookup (by rw [hlookup, hos]; rfl)
      rw [hread a] at h
      exact ⟨_, hread b, .inr ⟨a, b, (Except.ok.inj h).symm, rfl, rfl, rfl, hlength⟩⟩

/-- Reading an options object again after a change to the order of what it includes. -/
theorem Entry.read_reorders {os os' : Row} {v w : Value} (hvw : v.Reorders w) {entry : Entry}
    (h : Entry.read (os ++ ("include", v) :: os') = .ok entry) :
    ∃ below, Entry.read (os ++ ("include", w) :: os') = .ok { entry with below } ∧
      (below = entry.below ∨ ∃ a b, entry.below = some a ∧ below = some b ∧ v = .object a ∧ w = .object b ∧
        a.length = b.length) := by
  have hcolumns : Row.columns (os ++ ("include", v) :: os') = Row.columns (os ++ ("include", w) :: os') := by
    simp [Row.columns]
  obtain ⟨u, hnames, h⟩ := Except.bind_eq_ok h
  obtain ⟨entry', hfields, h⟩ := Except.bind_eq_ok h
  have hfits : entry'.options.orderFits = true := by
    by_contra hnot
    rw [if_neg hnot] at h
    cases h
  rw [if_pos hfits] at h
  cases h
  obtain ⟨below, hread, hrel⟩ := includeOf_reorders hvw (readFields_eq_ok hfields)
  refine ⟨below, ?_, hrel⟩
  have hfields' := readFields_congr hcolumns
    (fun c hc => by rw [Row.lookup_append_cons_of_ne hc, Row.lookup_append_cons_of_ne hc]) hread hfields
  rw [hcolumns] at hnames
  unfold Entry.read
  rw [hnames, hfields']
  exact if_pos hfits

/-! ## Plans -/

/-- A plan whose nodes stand in another order, on any of its levels; which paths were dropped does not matter. -/
inductive Plan.Reorders : Plan → Plan → Prop
  | nodes {entity : String} {depth : Nat} {ns ms : List PlanNode} {ps qs : List String} (h : ns.Perm ms) :
    Reorders (.mk entity depth ns ps) (.mk entity depth ms qs)
  | nested {entity : String} {depth : Nat} {ns ms : List PlanNode} {ps qs : List String} {s : Inclusion} {p q : Plan}
    (h : Reorders p q) :
    Reorders (.mk entity depth (ns ++ .branch s p :: ms) ps) (.mk entity depth (ns ++ .branch s q :: ms) qs)
  | trans {p q r : Plan} (h : Reorders p q) (h' : Reorders q r) : Reorders p r

theorem Except.mapM_perm {ε α β : Type} {f : α → Except ε β} {xs ys : List α} (h : xs.Perm ys) {as : List β}
    (has : xs.mapM f = .ok as) : ∃ bs, ys.mapM f = .ok bs ∧ as.Perm bs := by
  obtain ⟨bs, hbs, hperm⟩ := List.perm_comp_forall₂ h.symm (Except.mapM_eq_ok_iff.mp has)
  exact ⟨bs, Except.mapM_eq_ok_iff.mpr hbs, hperm.symm⟩

theorem Except.mapM_append_cons {ε α β : Type} {f : α → Except ε β} {xs ys : List α} {x : α} {cs : List β} :
    (xs ++ x :: ys).mapM f = .ok cs ↔
      ∃ as b bs, cs = as ++ b :: bs ∧ xs.mapM f = .ok as ∧ f x = .ok b ∧ ys.mapM f = .ok bs := by
  rw [List.mapM_append, List.mapM_cons]
  constructor
  · intro h
    obtain ⟨as, has, h⟩ := Except.bind_eq_ok h
    obtain ⟨rest, hrest, h⟩ := Except.bind_eq_ok h
    obtain ⟨b, hb, hrest⟩ := Except.bind_eq_ok hrest
    obtain ⟨bs, hbs, hrest⟩ := Except.bind_eq_ok hrest
    cases hrest
    cases h
    exact ⟨as, b, bs, rfl, has, hb, hbs⟩
  · rintro ⟨as, b, bs, rfl, has, hb, hbs⟩
    rw [has, hb, hbs]
    rfl

namespace Plan.Reorders

theorem refl (p : Plan) : p.Reorders p := by
  cases p
  exact .nodes (.refl _)

theorem symm {p q : Plan} (h : p.Reorders q) : q.Reorders p := by
  induction h with
  | nodes h => exact .nodes h.symm
  | nested _ ih => exact .nested ih
  | trans _ _ ih ih' => exact .trans ih' ih

theorem entity_eq {p q : Plan} (h : p.Reorders q) : q.entity = p.entity := by
  induction h with
  | nodes h => rfl
  | nested _ ih => rfl
  | trans _ _ ih ih' => exact ih'.trans ih

/-- The same steps are taken on a level. -/
theorem steps {p q : Plan} (h : p.Reorders q) : (p.nodes.map PlanNode.step).Perm (q.nodes.map PlanNode.step) := by
  induction h with
  | nodes h => exact h.map _
  | nested _ ih => simp [Plan.nodes]
  | trans _ _ ih ih' => exact ih.trans ih'

theorem isEmpty_eq {p q : Plan} (h : p.Reorders q) : q.isEmpty = p.isEmpty := by
  have hlen := h.steps.length_eq
  rw [List.length_map, List.length_map] at hlen
  rw [Plan.isEmpty, Plan.isEmpty, Bool.eq_iff_iff, List.isEmpty_iff, List.isEmpty_iff, ← List.length_eq_zero_iff,
    ← List.length_eq_zero_iff, hlen]

end Plan.Reorders

/-! ## Compiling -/

/-- What becomes of an entry, up to the order of what it includes below. -/
def Compiled.Reorders (c d : Compiled) : Prop :=
  d.node = c.node ∨ ∃ s p q, c.node = some (.branch s p) ∧ d.node = some (.branch s q) ∧ p.Reorders q

/-- A compiler for which the order of entries does not matter. -/
def LevelCompiler.Reorders (compileLevel : LevelCompiler) (v w : Value) : Prop :=
  ∀ entity depth path p, compileLevel entity depth path v = .ok p →
    ∃ q, compileLevel entity depth path w = .ok q ∧ p.Reorders q

section Compile

variable {g : Graph} {deeper : Option LevelCompiler} {entity : String} {depth : Nat} {path : List String}

theorem compileOptions_reorders {step : Inclusion} {entry : Entry} {a b : Row}
    (hlength : a.length = b.length)
    (hdeeper : ∀ compileLevel, deeper = some compileLevel → compileLevel.Reorders (.object a) (.object b))
    (ha : entry.below = some a) {c : Compiled} (h : compileOptions deeper depth path step entry = .ok c) :
    ∃ d, compileOptions deeper depth path step { entry with below := some b } = .ok d ∧ c.Reorders d := by
  unfold compileOptions at h ⊢
  rw [ha] at h
  cases a with
  | nil =>
    obtain rfl : b = [] := List.eq_nil_of_length_eq_zero hlength.symm
    exact ⟨c, h, .inl rfl⟩
  | cons e es =>
    cases b with
    | nil => simp at hlength
    | cons f fs =>
      cases deeper with
      | none =>
        cases h
        exact ⟨_, rfl, .inl rfl⟩
      | some compileLevel =>
        obtain ⟨p, hp, h⟩ := Except.bind_eq_ok h
        obtain ⟨q, hq, hpq⟩ := hdeeper compileLevel rfl _ _ _ _ hp
        cases h
        simp only [hq]
        refine ⟨_, rfl, ?_⟩
        by_cases he : p.isEmpty = true
        · exact .inl (by simp [he, hpq.isEmpty_eq])
        · exact .inr ⟨step, p, q, by simp [he], by simp [he, hpq.isEmpty_eq], hpq⟩

theorem compileEntry_reorders {os os' : Row} {key : String} {v w : Value} (hvw : v.Reorders w)
    (hdeeper : ∀ compileLevel, deeper = some compileLevel → compileLevel.Reorders v w) {c : Compiled}
    (h : compileEntry g deeper entity depth path (key, .object (os ++ ("include", v) :: os')) = .ok c) :
    ∃ d, compileEntry g deeper entity depth path (key, .object (os ++ ("include", w) :: os')) = .ok d ∧
      c.Reorders d := by
  unfold compileEntry at h ⊢
  simp only at h ⊢
  cases hrelation : g.lookup? entity key with
  | none => rw [hrelation] at h; cases h
  | some relation =>
    simp only [hrelation] at h ⊢
    cases hread : Entry.read (os ++ ("include", v) :: os') with
    | error issues => rw [hread] at h; cases h
    | ok entry =>
      obtain ⟨below, hread', hbelow⟩ := Entry.read_reorders hvw hread
      simp only [hread] at h
      simp only [hread']
      cases htarget : g.entity? relation.target with
      | none => rw [htarget] at h; cases h
      | some target =>
        simp only [htarget] at h ⊢
        obtain ⟨u, hvet, h⟩ := Except.bind_eq_ok h
        simp only [hvet]
        rcases hbelow with rfl | ⟨a, b, ha, rfl, hva, hwb, hlength⟩
        · exact ⟨c, h, .inl rfl⟩
        · exact compileOptions_reorders hlength (hva ▸ hwb ▸ hdeeper) ha h

theorem compileSpec_reorders_entries {es fs : Row} (hperm : es.Perm fs) :
    LevelCompiler.Reorders (compileSpec g deeper) (.object es) (.object fs) := by
  intro entity depth path p h
  obtain ⟨cs, hcs, h⟩ := Except.bind_eq_ok h
  obtain ⟨ds, hds, hcd⟩ := Except.mapM_perm hperm hcs
  cases h
  simp only [compileSpec, hds]
  exact ⟨_, rfl, .nodes (hcd.filterMap _)⟩

theorem compileSpec_reorders_included {before after os os' : Row} {key : String} {v w : Value} (hvw : v.Reorders w)
    (hdeeper : ∀ compileLevel, deeper = some compileLevel → compileLevel.Reorders v w) :
    LevelCompiler.Reorders (compileSpec g deeper)
      (.object (before ++ (key, .object (os ++ ("include", v) :: os')) :: after))
      (.object (before ++ (key, .object (os ++ ("include", w) :: os')) :: after)) := by
  intro entity depth path p h
  obtain ⟨all, hall, h⟩ := Except.bind_eq_ok h
  obtain ⟨cs, c, ds, rfl, hcs, hc, hds⟩ := Except.mapM_append_cons.mp hall
  obtain ⟨d, hd, hcd⟩ := compileEntry_reorders hvw hdeeper hc
  have hall' := Except.mapM_append_cons.mpr ⟨cs, d, ds, rfl, hcs, hd, hds⟩
  cases h
  simp only [compileSpec, hall']
  refine ⟨_, rfl, ?_⟩
  rcases hcd with hnode | ⟨s, p, q, hnode, hnode', hpq⟩
  · simp only [List.filterMap_append, List.filterMap_cons, hnode]
    exact .nodes (.refl _)
  · simp only [List.filterMap_append, List.filterMap_cons, hnode, hnode']
    exact .nested hpq

theorem compileLevel_reorders {v w : Value} (h : v.Reorders w) (below : Nat) :
    (compileLevel g below).Reorders v w := by
  induction h generalizing below with
  | refl v => exact fun entity depth path p hp => ⟨p, hp, .refl p⟩
  | entries h =>
    cases below with
    | zero => exact compileSpec_reorders_entries h
    | succ below => exact compileSpec_reorders_entries h
  | included h ih =>
    cases below with
    | zero => exact compileSpec_reorders_included h fun _ hl => by cases hl
    | succ below =>
      refine compileSpec_reorders_included h fun compileLevel hl => ?_
      cases hl
      exact ih below
  | trans _ _ ih ih' =>
    intro entity depth path p hp
    obtain ⟨q, hq, hpq⟩ := ih below _ _ _ _ hp
    obtain ⟨r, hr, hqr⟩ := ih' below _ _ _ _ hq
    exact ⟨r, hr, hpq.trans hqr⟩

/-- A request in another order compiles to a plan in another order. -/
theorem compile_reorders {v w : Value} (h : v.Reorders w) {maxDepth : Int} {p : Plan}
    (hp : compile g entity v maxDepth = .ok p) : ∃ q, compile g entity w maxDepth = .ok q ∧ p.Reorders q := by
  unfold compile at hp ⊢
  split_ifs at hp ⊢ with hdepth
  split at hp
  · cases hp
  · exact compileLevel_reorders h _ _ _ _ _ hp

end Compile


/-! ## Names -/

mutual
/-- Whether no object in a value has two fields of one name. -/
def Value.hasDistinctNames : Value → Bool
  | .list vs => itemsHaveDistinctNames vs
  | .object fields => decide (fields.map Prod.fst).Nodup && fieldsHaveDistinctNames fields
  | _ => true

def itemsHaveDistinctNames : List Value → Bool
  | [] => true
  | v :: vs => v.hasDistinctNames && itemsHaveDistinctNames vs

def fieldsHaveDistinctNames : List (String × Value) → Bool
  | [] => true
  | (_, v) :: fields => v.hasDistinctNames && fieldsHaveDistinctNames fields
end

theorem Value.hasDistinctNames_object {fields : Row} (h : (Value.object fields).hasDistinctNames = true) :
    fields.columns.Nodup ∧ ∀ f ∈ fields, f.2.hasDistinctNames = true := by
  have hboth : fields.columns.Nodup ∧ fieldsHaveDistinctNames fields = true := by
    simpa [hasDistinctNames, Row.columns] using h
  refine ⟨hboth.1, ?_⟩
  have hfields := hboth.2
  clear h hboth
  induction fields with
  | nil => simp
  | cons f fields ih =>
    obtain ⟨c, v⟩ := f
    rw [fieldsHaveDistinctNames, Bool.and_eq_true] at hfields
    intro g hg
    rcases List.mem_cons.mp hg with rfl | hg
    · exact hfields.1
    · exact ih hfields.2 g hg

theorem Row.mem_of_lookup {row : Row} {c : String} {v : Value} (h : row.lookup c = some v) : (c, v) ∈ row := by
  obtain ⟨l₁, l₂, rfl, -⟩ := List.lookup_eq_some_iff.mp h
  simp

/-- No two nodes of a level have the same key. -/
def Plan.KeysDistinct (p : Plan) : Prop :=
  (p.nodes.map PlanNode.key).Nodup

instance (p : Plan) : Decidable p.KeysDistinct :=
  inferInstanceAs (Decidable (List.Nodup _))

/-- No two nodes of a level write the same column, and none is loaded by a column that another one writes. -/
def Plan.Separate (p : Plan) : Prop :=
  ∀ q ∈ p.levels, q.KeysApart ∧ q.KeysDistinct

theorem Plan.Separate.level {p : Plan} (h : p.Separate) : p.KeysApart ∧ p.KeysDistinct :=
  h p p.mem_levels_self

theorem Plan.Separate.below {p q : Plan} {s : Inclusion} (h : p.Separate) (hq : .branch s q ∈ p.nodes) : q.Separate :=
  fun r hr => h r (levels_subset hq hr)

section Compile

variable {g : Graph} {entity : String} {depth : Nat} {path : List String}

theorem keys_sublist_of_mapM {deeper : Option LevelCompiler} {fields : Row} {cs : List Compiled}
    (h : fields.mapM (compileEntry g deeper entity depth path) = .ok cs) :
    ((cs.filterMap (·.node)).map PlanNode.key).Sublist fields.columns := by
  have hall := Except.mapM_eq_ok_iff.mp h
  clear h
  induction hall with
  | nil => exact .slnil
  | @cons field c fields cs hc _ ih =>
    rw [List.filterMap_cons]
    cases hn : c.node with
    | none => exact ih.cons _
    | some n =>
      show (n.key :: (cs.filterMap (·.node)).map PlanNode.key).Sublist (field.1 :: Row.columns fields)
      rw [(compileEntry_node hc hn).key_eq]
      exact ih.cons_cons _

theorem keysDistinct_of_compileSpec {deeper : Option LevelCompiler} {spec : Value} {p : Plan}
    (hspec : spec.hasDistinctNames = true)
    (hdeeper : ∀ compileLevel, deeper = some compileLevel → ∀ entity depth path (spec : Value) p,
      spec.hasDistinctNames = true → compileLevel entity depth path spec = .ok p → ∀ q ∈ p.levels, q.KeysDistinct)
    (h : compileSpec g deeper entity depth path spec = .ok p) : ∀ q ∈ p.levels, q.KeysDistinct := by
  unfold compileSpec at h
  split at h
  · cases h
    intro q hq
    rw [Plan.empty, Plan.levels, levelsBelow, List.mem_singleton] at hq
    rw [hq]
    exact List.nodup_nil
  · next fields =>
    obtain ⟨hnodup, hfields⟩ := Value.hasDistinctNames_object hspec
    obtain ⟨cs, hcs, h⟩ := Except.bind_eq_ok h
    cases h
    intro q hq
    rcases Plan.mem_levels.mp hq with rfl | ⟨s, q', hq', hq⟩
    · exact (keys_sublist_of_mapM hcs).nodup hnodup
    · obtain ⟨c, hc, hnode⟩ := List.mem_filterMap.mp hq'
      obtain ⟨field, hfield, hentry⟩ := Except.exists_of_mem_mapM hcs hc
      obtain ⟨options, entry, below, compileLevel, hvalue, hread, hbelow, hlevel, hnested⟩ :=
        (compileEntry_node hentry hnode).nested q' rfl
      have hoptions : (Value.object options).hasDistinctNames = true := hvalue ▸ hfields field hfield
      have hinclude := Entry.lookup_of_read hread hbelow
      exact hdeeper compileLevel hlevel _ _ _ _ _
        ((Value.hasDistinctNames_object hoptions).2 _ (Row.mem_of_lookup hinclude)) hnested q hq
  · cases h

theorem keysDistinct_of_compileLevel {below : Nat} {spec : Value} {p : Plan} (hspec : spec.hasDistinctNames = true)
    (h : compileLevel g below entity depth path spec = .ok p) : ∀ q ∈ p.levels, q.KeysDistinct := by
  induction below generalizing entity depth path spec p with
  | zero => exact keysDistinct_of_compileSpec hspec (fun _ hl => by cases hl) h
  | succ below ih =>
    refine keysDistinct_of_compileSpec hspec (fun compileLevel hl => ?_) h
    cases hl
    exact fun _ _ _ _ _ hspec hq => ih hspec hq

/-- The nodes of a level have different keys, as the entries of a request do. -/
theorem keysDistinct_of_compile {spec : Value} {maxDepth : Int} {p : Plan} (hspec : spec.hasDistinctNames = true)
    (h : compile g entity spec maxDepth = .ok p) : ∀ q ∈ p.levels, q.KeysDistinct :=
  keysDistinct_of_compileLevel hspec (compileLevel_of_compile h)

end Compile

end RelatedRows

import RelatedRows.Proofs.Columns
import RelatedRows.Proofs.Depths
import RelatedRows.Proofs.OptionGrammar

/-!
# Plans written back

A plan that is written back as a request compiles to the same plan again.

* `Options.fields`: the fields of an options object, with the values of those that are written.
* `Options.Readable`: what holds of options that were read.
* `Options.gives_fields`: the fields say what they were written from.
* `Entry.read_written`: such options are read again from the object that they are written as.
* `LevelCompiler.WritesBack`: a compiler that makes a plan again from the request that the plan is written as.
* `compile_writtenBack`: compiling is such a compiler, but for the record of what was dropped.
-/

namespace RelatedRows

/-! ## Options that were written -/

namespace Row

/-- The row of those fields that have a value. -/
def ofFields (fields : List (String × Option Value)) : Row :=
  fields.filterMap fun f => f.2.map (f.1, ·)

variable {fields : List (String × Option Value)} {c : String}

theorem ofFields_nil : ofFields [] = [] :=
  rfl

theorem ofFields_cons (f : String × Option Value) (fields : List (String × Option Value)) :
    ofFields (f :: fields) = (f.2.map (f.1, ·)).toList ++ ofFields fields := by
  obtain ⟨c, _ | v⟩ := f
  all_goals rfl

theorem columns_ofFields_subset (fields : List (String × Option Value)) :
    (ofFields fields).columns ⊆ fields.map Prod.fst := by
  intro c hc
  obtain ⟨f, hf, rfl⟩ := List.mem_map.mp hc
  obtain ⟨⟨d, x⟩, hfield, heq⟩ := List.mem_filterMap.mp hf
  obtain ⟨v, -, rfl⟩ := Option.map_eq_some_iff.mp heq
  exact List.mem_map_of_mem hfield

theorem lookup_ofFields_of_notMem (h : c ∉ fields.map Prod.fst) : (ofFields fields).lookup c = none :=
  lookup_eq_none.mpr fun hc => h (columns_ofFields_subset fields hc)

/-- Among fields with different names each one has its value. -/
theorem lookup_ofFields (h : (fields.map Prod.fst).Nodup) {x : Option Value} (hx : (c, x) ∈ fields) :
    (ofFields fields).lookup c = x := by
  induction fields with
  | nil => cases hx
  | cons f fields ih =>
    obtain ⟨d, y⟩ := f
    obtain ⟨hd, hrest⟩ := List.nodup_cons.mp h
    rcases List.mem_cons.mp hx with heq | hmem
    · cases heq
      cases x with
      | none => exact (lookup_ofFields_of_notMem hd : (ofFields fields).lookup c = none)
      | some v => exact List.lookup_cons_self
    · have hne : c ≠ d := by
        rintro rfl
        exact hd (List.mem_map.mpr ⟨_, hmem, rfl⟩)
      cases y with
      | none => exact ih hrest hmem
      | some v => exact (lookup_cons_of_ne hne).trans (ih hrest hmem)

end Row

namespace Options

/-- The fields of an options object in the order in which they are written, with the values of those that are. -/
def fields (o : Options) (below : Option Row) : List (String × Option Value) :=
  [("limit", o.limit.map .ofNat), ("offset", if o.offset = 0 then none else some (.ofNat o.offset)),
    ("orderBy", o.orderBy.map .texts), ("order", o.order.map fun ds => .texts (ds.map Direction.text)),
    ("select", o.select.map .texts), ("exclude", o.exclude.map .texts), ("include", below.map .object)]

theorem nodup_fields (o : Options) (below : Option Row) : ((o.fields below).map Prod.fst).Nodup := by
  show ["limit", "offset", "orderBy", "order", "select", "exclude", "include"].Nodup
  decide

theorem dump_eq (o : Options) (below : Option Row) :
    o.dump ++ (below.map fun b => ("include", .object b)).toList = Row.ofFields (o.fields below) := by
  have hoffset : ((if o.offset = 0 then none else some (Value.ofNat o.offset)).map ("offset", ·)).toList =
      if o.offset = 0 then [] else [("offset", .ofNat o.offset)] := by
    split_ifs <;> rfl
  simp only [dump, fields, Row.ofFields_cons, Row.ofFields_nil, hoffset, Option.map_map, Function.comp_def,
    List.append_assoc, List.append_nil]

/-- What holds of options that were read. -/
structure Readable (o : Options) : Prop where
  limit_pos : ∀ n, o.limit = some n → 0 < n
  directions : ∀ ds, o.order = some ds → ∀ d ∈ ds, d = .asc ∨ d = .desc
  fits : o.orderFits = true

end Options

namespace Entry

theorem readable_of_read {fields : Row} {entry : Entry} (h : Entry.read fields = .ok entry) :
    entry.options.Readable := by
  obtain ⟨-, hgives, hfits⟩ := read_eq_ok_iff.mp h
  refine ⟨fun n hn => limit_pos_of_read h hn, fun ds hds d hd => ?_, hfits⟩
  obtain ⟨_, -, ss, -, hnamed⟩ := Value.given_some.mp (hds ▸ hgives.order)
  obtain ⟨s, -, hname⟩ := Except.exists_of_forall₂_right hnamed hd
  exact hname.imp And.right And.right

end Entry

theorem Direction.named_text {d : Direction} (h : d = .asc ∨ d = .desc) : Named d.text d :=
  h.imp (fun hd => ⟨congrArg text hd, hd⟩) (fun hd => ⟨congrArg text hd, hd⟩)

/-- The object that options are written as says them again, whatever is not written because it is the default. -/
theorem Options.gives_fields {o : Options} (h : o.Readable) {F : Row} {below : Option Row}
    (hfields : ∀ c x, (c, x) ∈ o.fields below → F.lookup c = x) (habsent : F.lookup "order_by" = none) :
    F.Gives ⟨o, below⟩ where
  below := by
    rw [hfields "include" (below.map .object) (by simp [fields])]
    exact Value.given_map fun _ _ => rfl
  limit := by
    rw [hfields "limit" (o.limit.map .ofNat) (by simp [fields])]
    exact Value.given_map fun n hn => ⟨n, rfl, Int.natCast_pos.mpr (h.limit_pos n hn), rfl⟩
  offset := by
    rw [hfields "offset" (if o.offset = 0 then none else some (.ofNat o.offset)) (by simp [fields])]
    split_ifs with hzero
    · exact hzero
    · exact ⟨o.offset, rfl, Int.natCast_nonneg _, rfl⟩
  orderBy := by
    rw [Row.orderedBy, habsent, Option.or_none, hfields "orderBy" (o.orderBy.map .texts) (by simp [fields])]
    exact Value.given_map fun _ _ => .inl rfl
  order := by
    rw [hfields "order" (o.order.map fun ds => .texts (ds.map Direction.text)) (by simp [fields])]
    refine Value.given_map fun ds hds => ⟨ds.map Direction.text, .inl rfl, ?_⟩
    exact List.forall₂_map_left_iff.mpr
      (List.forall₂_same.mpr fun d hd => Direction.named_text (h.directions ds hds d hd))
  select := by
    rw [hfields "select" (o.select.map .texts) (by simp [fields])]
    exact Value.given_map fun _ _ => rfl
  exclude := by
    rw [hfields "exclude" (o.exclude.map .texts) (by simp [fields])]
    exact Value.given_map fun _ _ => rfl

/-- Options that were read are read again from the object that they are written as. -/
theorem Entry.read_written {o : Options} (h : o.Readable) (below : Option Row) :
    Entry.read (.ofFields (o.fields below)) = .ok ⟨o, below⟩ := by
  have hknown : ∀ c ∈ (Row.ofFields (o.fields below)).columns, c ∈ known := by
    intro c hc
    have hc : c ∈ ["limit", "offset", "orderBy", "order", "select", "exclude", "include"] :=
      Row.columns_ofFields_subset _ hc
    exact (by decide : ∀ c ∈ ["limit", "offset", "orderBy", "order", "select", "exclude", "include"], c ∈ known) c hc
  have habsent : (Row.ofFields (o.fields below)).lookup "order_by" = none :=
    Row.lookup_eq_none.mpr fun hc => absurd (hknown _ hc) (by decide)
  have hgives := Options.gives_fields h (fun c x => Row.lookup_ofFields (o.nodup_fields below)) habsent
  exact read_eq_ok_iff.mpr ⟨fun c hc => .inl (hknown c hc), hgives, h.fits⟩

/-! ## Plans that were written -/

theorem PlanNode.request_eq (n : PlanNode) :
    n.request = .object (Row.ofFields (n.step.options.fields (n.nested?.map Plan.request))) := by
  rw [← Options.dump_eq]
  cases n with
  | leaf s => exact congrArg Value.object (List.append_nil _).symm
  | branch s p => rfl

theorem requestNodes_eq (ns : List PlanNode) : requestNodes ns = ns.map fun n => (n.key, n.request) := by
  induction ns with
  | nil => rfl
  | cons n ns ih => rw [requestNodes, ih, List.map_cons]

namespace Plan

theorem request_eq (p : Plan) : p.request = p.nodes.map fun n => (n.key, n.request) := by
  cases p
  exact requestNodes_eq _

theorem request_eq_nil_iff {p : Plan} : p.request = [] ↔ p.isEmpty = true := by
  rw [request_eq, List.map_eq_nil_iff, isEmpty, List.isEmpty_iff]

/-- A request does not say what a plan has dropped. -/
theorem request_unpruned (p : Plan) : p.unpruned.request = p.request := by
  induction p using Plan.induction with
  | step p ih =>
    obtain ⟨entity, depth, nodes, pruned⟩ := p
    rw [request_eq, request_eq]
    show (unprunedNodes nodes).map _ = nodes.map _
    rw [unprunedNodes_eq, List.map_map]
    refine List.map_congr_left fun n hn => ?_
    cases n with
    | leaf s => rfl
    | branch s q =>
      show (s.key, PlanNode.request (.branch s q.unpruned)) = _
      rw [PlanNode.request, ih s q hn]
      rfl

end Plan

theorem Value.included_written (o : Options) (below : Option Row) :
    (object (Row.ofFields (o.fields below))).included = below.getD [] := by
  have hlookup : (Row.ofFields (o.fields below)).lookup "include" = below.map .object :=
    Row.lookup_ofFields (o.nodup_fields below) (by simp [Options.fields])
  rw [included_object, hlookup]
  cases below <;> rfl

section HasOptions

variable {g : Graph} {relation : Relation} {key : String} {v : Value} {options : Options}

theorem Value.HasOptions.readable (h : v.HasOptions g relation key options) : options.Readable := by
  cases h with
  | on => exact ⟨nofun, nofun, rfl⟩
  | object hread _ _ => exact Entry.readable_of_read hread

/-- An entry may have the same options in writing. -/
theorem Value.HasOptions.written (h : v.HasOptions g relation key options)
    (htarget : ∃ target, g.entity? relation.target = some target) (below : Option Row) :
    (Value.object (Row.ofFields (options.fields below))).HasOptions g relation key options := by
  have hread := Entry.read_written h.readable below
  cases h with
  | on =>
    obtain ⟨target, htarget⟩ := htarget
    exact .object hread htarget rfl
  | @object _ entry target _ htarget hcolumns =>
    exact @object g relation key _ ⟨entry.options, below⟩ target hread htarget hcolumns

end HasOptions

/-! ## Compiling what was written -/

/-- A plan that was compiled comes from the request that it is written as, wherever this stands. -/
def LevelCompiler.WritesBack (compileLevel : LevelCompiler) : Prop :=
  ∀ entity depth path spec p, compileLevel entity depth path spec = .ok p →
    ∀ path', compileLevel entity depth path' (.object p.request) = .ok p.unpruned

section Compile

variable {g : Graph} (htargets : ∀ r ∈ g.relations, ∃ target, g.entity? r.target = some target)
  {deeper : Option LevelCompiler} (hdeeper : ∀ compileLevel, deeper = some compileLevel → compileLevel.WritesBack)

include htargets hdeeper

/-- The node of an entry comes from what it is written as. -/
theorem Compiled.Of.writtenBack {entity : String} {depth : Nat} {path : List String} {field : String × Value}
    {c : Compiled} (h : Compiled.Of g deeper entity depth path field c) {n : PlanNode} (hn : c.node = some n)
    (path' : List String) :
    Compiled.Of g deeper entity depth path' (n.key, n.request) ⟨some n.unpruned, []⟩ := by
  have hleaf {key : String} {v : Value} {relation : Relation} {options : Options}
      (hrelation : g.lookup? entity key = some relation) (hoptions : v.HasOptions g relation key options) :
      Compiled.Of g deeper entity depth path' (key, (PlanNode.leaf ⟨key, relation, depth, options⟩).request)
        ⟨some (.leaf ⟨key, relation, depth, options⟩), []⟩ := by
    rw [PlanNode.request_eq]
    have hwritten := hoptions.written (htargets relation (Graph.mem_of_lookup? hrelation)) none
    exact .single hrelation hwritten (Value.included_written options none)
  cases h with
  | off => cases hn
  | single hrelation hoptions =>
    cases hn
    exact hleaf hrelation hoptions
  | deepest hrelation hoptions =>
    cases hn
    exact hleaf hrelation hoptions
  | @nested key v relation options compileLevel q hrelation hoptions hsome hlevel hnested =>
    cases hn
    by_cases hempty : q.isEmpty = true
    · rw [if_pos hempty]
      exact hleaf hrelation hoptions
    · rw [if_neg hempty, PlanNode.request_eq]
      have hwritten := hoptions.written (htargets relation (Graph.mem_of_lookup? hrelation)) (some q.request)
      have hincluded := Value.included_written options (some q.request)
      have hagain : compileLevel relation.target (depth + 1) (path' ++ [key])
          (.object (Value.object (Row.ofFields (options.fields (some q.request)))).included) = .ok q.unpruned := by
        rw [hincluded]
        exact hdeeper compileLevel hlevel _ _ _ _ q hnested _
      have hof := Compiled.Of.nested hrelation hwritten ?_ hlevel hagain
      · rwa [Plan.isEmpty_unpruned, if_neg hempty, Plan.pruned_unpruned] at hof
      · rw [hincluded]
        exact fun hnil => hempty (Plan.request_eq_nil_iff.mp hnil)

theorem writesBack_compileSpec : LevelCompiler.WritesBack (compileSpec g deeper) := by
  intro entity depth path spec p h path'
  obtain ⟨cs, hcs, rfl⟩ := exists_compiled_of_compileSpec h
  have hnodes : ∀ n ∈ cs.filterMap (·.node),
      compileEntry g deeper entity depth path' (n.key, n.request) = .ok ⟨some n.unpruned, []⟩ := by
    intro n hn
    obtain ⟨c, hc, hnode⟩ := List.mem_filterMap.mp hn
    obtain ⟨f, -, hentry⟩ := Except.exists_of_forall₂_right hcs hc
    exact compileEntry_eq_ok_iff.mpr (hentry.writtenBack htargets hdeeper hnode path')
  have hall : (Plan.mk entity depth (cs.filterMap (·.node)) (cs.flatMap (·.pruned))).request.mapM
      (compileEntry g deeper entity depth path') =
      .ok ((cs.filterMap (·.node)).map fun n => ⟨some n.unpruned, []⟩) := by
    rw [Plan.request_eq, List.mapM_map]
    exact Except.mapM_ok hnodes
  rw [compileSpec, hall, Plan.unpruned, unprunedNodes_eq]
  show Except.ok (Plan.mk entity depth _ _) = _
  rw [List.filterMap_map, List.flatMap_map]
  refine congrArg Except.ok (congrArg₂ (Plan.mk entity depth) ?_ ?_)
  · exact congrFun List.filterMap_eq_map _
  · exact List.flatMap_eq_nil_iff.mpr fun _ _ => rfl

end Compile

theorem writesBack_compileLevel {g : Graph} (htargets : ∀ r ∈ g.relations, ∃ target, g.entity? r.target = some target)
    (below : Nat) : LevelCompiler.WritesBack (compileLevel g below) := by
  induction below with
  | zero => exact writesBack_compileSpec htargets fun _ hlevel => by cases hlevel
  | succ below ih =>
    refine writesBack_compileSpec htargets fun compileLevel hlevel => ?_
    cases hlevel
    exact ih

/-- A plan that is written back as a request compiles to the same plan, except that nothing is dropped this time, and it
is written in the same way again; its options are read from what they are written as. -/
theorem compile_writtenBack {entities : List Entity} {relations : List Relation} {g : Graph} {entity : String}
    {spec : Value} {d : Int} {p : Plan} (hg : Graph.build entities relations = .ok g)
    (hp : compile g entity spec d = .ok p) :
    compile g entity (.object p.request) d = .ok p.unpruned ∧ p.unpruned.request = p.request ∧
      ∀ q ∈ p.levels, ∀ n ∈ q.nodes, Entry.read n.step.options.dump = .ok ⟨n.step.options, none⟩ := by
  have htargets : ∀ r ∈ g.relations, ∃ target, g.entity? r.target = some target :=
    fun r hr => (Graph.entity?_of_build hg hr).2
  have hlevel := compileLevel_of_compile hp
  have hd : 1 ≤ d := by
    by_contra hlt
    rw [compile, if_pos (by omega)] at hp
    cases hp
  refine ⟨?_, p.request_unpruned, fun q hq n hn => ?_⟩
  · rw [compile_eq hd] at hp ⊢
    split at hp
    · next hentity =>
      rw [if_pos hentity]
      exact writesBack_compileLevel htargets _ _ _ _ _ p hlevel []
    · cases hp
  · obtain ⟨v, hv⟩ := hasOptions_of_compileLevel hlevel q hq n hn
    have hread := Entry.read_written hv.readable none
    rwa [← Options.dump_eq, Option.map_none, Option.toList_none, List.append_nil] at hread

namespace Bookshelf

/-- The last two books of each author by title, with the names of their tags and with what is not wanted or not there
any more. -/
def lastBooks : Value :=
  .object [("books", .object [("orderBy", .text "title"), ("order", .list [.text "desc"]), ("limit", .int 2),
    ("offset", .int 0), ("exclude", .list []),
    ("include", .object [("author", .bool false),
      ("tags", .object [("select", .list [.text "name"]), ("include", .object [("books", .bool true)])])])])]

def lastBooksPlan : Plan :=
  match compile graph "authors" lastBooks 2 with
  | .ok p => p
  | .error _ => .empty "authors" 0

end Bookshelf

/-- The plan is written with lists for single names, and without the offset that is the default, without the entry that
is off, and without what lies too deep. -/
theorem compile_writtenBack_bookshelf :
    Bookshelf.lastBooksPlan.request =
        [("books", .object [("limit", .int 2), ("orderBy", .texts ["title"]), ("order", .texts ["desc"]),
          ("exclude", .texts []), ("include", .object [("tags", .object [("select", .texts ["name"])])])])] ∧
      compile Bookshelf.graph "authors" (.object Bookshelf.lastBooksPlan.request) 2 =
        .ok Bookshelf.lastBooksPlan.unpruned :=
  ⟨by decide +kernel,
    (compile_writtenBack Bookshelf.build_graph
      (rfl : compile Bookshelf.graph "authors" Bookshelf.lastBooks 2 = .ok Bookshelf.lastBooksPlan)).1⟩

end RelatedRows

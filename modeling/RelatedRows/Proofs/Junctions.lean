import RelatedRows.Proofs.Batching
import RelatedRows.Proofs.KeyBatches
import RelatedRows.Proofs.Orderings

/-!
# Junctions

A relation through a join entity says in one step what two relations say in two: one to the rows of the join entity, and
one from each of them to its target.

* `Graph.Junction`: the three relations.
* `merge_links`: both ways of stitching sort the join rows alike.
* `scanJoined_eq`: without options, the targets of a row are those of its join rows, in order.
* `stitch_junction`: stitching through the join entity is stitching its rows and taking their targets.
-/

namespace RelatedRows

/-- A relation through a join entity, a relation to the rows of that entity, and one from there to the target.  The
primary key of the join entity is made of its two keys. -/
structure Graph.Junction (g : Graph) (via toLinks toTarget : Relation) : Prop where
  mem : via ∈ g.relations ∧ toLinks ∈ g.relations ∧ toTarget ∈ g.relations
  kinds : via.kind = .manyViaJoin ∧ toLinks.kind = .many ∧ toTarget.kind = .one
  entities : via.joinEntity = some toLinks.target ∧ toLinks.source = via.source ∧
    toTarget.source = toLinks.target ∧ toTarget.target = via.target
  toLinks_keys : toLinks.sourceKey = via.sourceKey ∧ toLinks.targetKey = via.joinSourceKey
  toTarget_keys : toTarget.sourceKey = via.joinTargetKey ∧ toTarget.targetKey = via.targetKey
  primaryKey : g.primaryKey toLinks.target = via.joinSourceKey ++ via.joinTargetKey

/-! ## The order of join rows -/

/-- Sorting by the one key and then by the primary key, which begins with it, is sorting by the two keys. -/
theorem merge_links (a b : List String) :
    OrderBy.merge [ascending a, [], ascending (a ++ b)] = OrderBy.merge [ascending a, ascending b] := by
  have hsplit : ascending (a ++ b) = ascending a ++ ascending b := List.map_append
  have hrepeated : firstTerms (a ++ []) (ascending a) = [] := by
    refine firstTerms_eq_nil fun t ht => ?_
    obtain ⟨c, hc, rfl⟩ := List.mem_map.mp ht
    simpa using hc
  simp only [OrderBy.merge, List.flatten_cons, List.flatten_nil, List.append_nil, List.nil_append, hsplit]
  rw [firstTerms_append, firstTerms_append, firstTerms_append, fst_ascending, hrepeated, List.nil_append]
  exact congrArg _ (firstTerms_congr (fun c => by simp) _)

/-! ## Requests without options -/

section Requests

variable {g : Graph} {r : Relation} {e : Entity} {maxDepth : Int}

/-- The request for a single relation, without options. -/
def requestFor (name : String) : Value :=
  .object [(name, .bool true)]

/-- The request for a relation and for another one below it, without options. -/
def requestThrough (name below : String) : Value :=
  .object [(name, .object [("include", requestFor below)])]

/-- The plan for a single relation. -/
def planFor (r : Relation) (depth : Nat) : Plan :=
  .mk r.source depth [.leaf ⟨r.name, r, depth, {}⟩] []

/-- The plan for a relation and for another one below it. -/
def planThrough (r below : Relation) : Plan :=
  .mk r.source 0 [.branch ⟨r.name, r, 0, {}⟩ (planFor below 1)] []

theorem compileLevel_requestFor (hlookup : g.lookup? r.source r.name = some r) (below depth : Nat)
    (path : List String) : compileLevel g below r.source depth path (requestFor r.name) = .ok (planFor r depth) := by
  have hspec (deeper : Option LevelCompiler) : compileSpec g deeper r.source depth path (requestFor r.name) =
      .ok (planFor r depth) := by
    simp only [requestFor, compileSpec, List.mapM_cons, compileEntry, hlookup]
    rfl
  cases below with
  | zero => exact hspec none
  | succ below => exact hspec _

theorem compile_requestFor (hlookup : g.lookup? r.source r.name = some r) (hsource : g.entity? r.source = some e)
    (hdepth : 1 ≤ maxDepth) : compile g r.source (requestFor r.name) maxDepth = .ok (planFor r 0) := by
  rw [compile, if_neg (by omega), hsource]
  exact compileLevel_requestFor hlookup _ 0 []

theorem compile_requestThrough {below : Relation} {e' : Entity} (hlookup : g.lookup? r.source r.name = some r)
    (hsource : g.entity? r.source = some e) (htarget : g.entity? r.target = some e')
    (hbelow : below.source = r.target) (hlookup' : g.lookup? below.source below.name = some below)
    (hdepth : 2 ≤ maxDepth) :
    compile g r.source (requestThrough r.name below.name) maxDepth = .ok (planThrough r below) := by
  obtain ⟨n, hn⟩ : ∃ n, (maxDepth - 1).toNat = n + 1 := ⟨(maxDepth - 2).toNat, by omega⟩
  have hread : Entry.read [("include", requestFor below.name)] = .ok ⟨{}, some [(below.name, .bool true)]⟩ := by
    have hname : Form.wholeText [] "include" = .ok "include" := by decide +kernel
    have hnames : (Row.columns [("include", requestFor below.name)]).forM
        (fun name => (Form.wholeText [] name).map fun _ => ()) = .ok () := by
      show (do ((Form.wholeText [] "include").map fun _ => ()); pure ()) = _
      rw [hname]
      rfl
    have hfields : Entry.readFields [("include", requestFor below.name)] =
        .ok ⟨{}, some [(below.name, .bool true)]⟩ := by
      rfl
    rw [Entry.read, hnames, hfields]
    rfl
  have hvet : vetColumns e' (some r.name) (({} : Options).columns.map .text) = .ok () := rfl
  have hnested : compileLevel g n r.target 1 ([] ++ [r.name]) (.object [(below.name, .bool true)]) =
      .ok (planFor below 1) := hbelow ▸ compileLevel_requestFor hlookup' n 1 _
  have hentry : compileEntry g (some (compileLevel g n)) r.source 0 []
      (r.name, .object [("include", requestFor below.name)]) =
      .ok ⟨some (.branch ⟨r.name, r, 0, {}⟩ (planFor below 1)), []⟩ := by
    simp only [compileEntry, hlookup, hread, htarget, hvet, compileOptions]
    show (do let nested ← compileLevel g n r.target 1 ([] ++ [r.name]) (.object [(below.name, .bool true)]); _) = _
    rw [hnested]
    rfl
  rw [compile, if_neg (by omega), hsource, hn]
  show compileSpec g (some (compileLevel g n)) r.source 0 [] (requestThrough r.name below.name) = _
  simp only [requestThrough, compileSpec, List.mapM_cons, hentry]
  rfl

end Requests

/-! ## Loads without options -/

namespace PlanNode

variable {n : PlanNode} (h : n.step.options = {})

include h

theorem fetched_of_default (columns : List String) : n.fetched columns = none := by
  rw [fetched, h]
  rfl

theorem trim_of_default (row : Row) : n.trim row = row := by
  refine List.filter_eq_self.mpr fun f _ => ?_
  simp [keeps, h]

theorem arranged_of_default {targets : List Row} {ks : List (List Atom)}
    (hunique : n.step.relation.unique = true → ks.Nodup) :
    n.arranged targets ks = ks.filter fun k => targets.any (Row.hasKey n.step.relation.targetKey k) := by
  have hwindow (l : List (List Atom)) : Options.window {} l = l := rfl
  unfold arranged
  simp only [h, hwindow]
  show (if n.step.relation.unique = true then _ else _) = _
  by_cases hu : n.step.relation.unique = true
  · rw [if_pos hu]
    exact eraseDups_of_nodup ((hunique hu).filter _)
  · exact if_neg hu

/-- Without options, the targets of a row are those of its join rows, in order. -/
theorem scanJoined_eq {joins targets : List Row} {k : Option (List Atom)}
    (hunique : n.step.relation.unique = true → (n.targetsOf joins k).Nodup) :
    scanJoined n joins targets k = .many ((n.targetsOf joins k).filterMap fun k =>
      targets.find? (Row.hasKey n.step.relation.targetKey k)) := by
  rw [scanJoined, arranged_of_default h hunique, List.filterMap_filter]
  refine congrArg _ (List.filterMap_congr fun k _ => ?_)
  by_cases hany : targets.any (Row.hasKey n.step.relation.targetKey k) = true
  · rw [if_pos hany]
  · rw [if_neg hany]
    refine (List.find?_eq_none.mpr fun t ht hk => hany ?_).symm
    exact List.any_eq_true.mpr ⟨t, ht, hk⟩

end PlanNode

/-! ## Through the join rows -/

section Junction

variable {g : Graph} {m : Memory} {via toLinks toTarget : Relation}

/-- The join rows of a key, in the order of their own keys. -/
def Memory.links (m : Memory) (via : Relation) (joinEntity : String) (k : Option (List Atom)) : List Row :=
  k.elim [] fun k =>
    (sortRows (OrderBy.merge [ascending via.joinSourceKey, ascending via.joinTargetKey]) (m.rowsOf joinEntity)).filter
      (Row.hasKey via.joinSourceKey k)

/-- The target that a join row leads to. -/
def Memory.linked (m : Memory) (via : Relation) (link : Row) : Option Row :=
  (link.identity via.joinTargetKey).bind fun k => (m.rowsOf via.target).find? (Row.hasKey via.targetKey k)

variable (hjunction : g.Junction via toLinks toTarget)
  (hlinks : m.KeyedBy toLinks.target (g.primaryKey toLinks.target))

include hjunction hlinks

/-- The join rows of one key have different keys of targets, as they would have one primary key otherwise. -/
theorem nodup_targetsOf (n : PlanNode) (hn : n.step.relation = via) (o : OrderBy) (k : Option (List Atom)) :
    (n.targetsOf (sortRows o (m.rowsOf toLinks.target)) k).Nodup := by
  have hsub : g.primaryKey toLinks.target ⊆ n.step.relation.joinSourceKey ++ n.step.relation.joinTargetKey := by
    rw [hjunction.primaryKey, hn]
    exact List.Subset.refl _
  exact n.nodup_targetsOf hsub ((perm_sortRows.filterMap _).nodup_iff.mpr hlinks.unshared) k

/-- What the relation through the join entity attaches to a row. -/
theorem scan_via (hunshared : m.UnsharedKey via.target via.targetKey) {n : PlanNode} (hn : n.step.relation = via)
    (hoptions : n.step.options = {}) (row : Row) :
    n.scan m g row = .many ((m.links via toLinks.target (row.identity via.sourceKey)).filterMap (m.linked via)) := by
  simp only [PlanNode.scan, n.fetched_of_default hoptions, hn, hjunction.kinds.1, hjunction.entities.1,
    Option.getD_some]
  rw [PlanNode.scanJoined_eq hoptions fun _ => nodup_targetsOf hjunction hlinks n hn _ _]
  have hsame : ∀ rows, Related.map (project none) (.many rows) = .many rows := by
    intro rows
    exact congrArg Related.many (List.map_id rows)
  rw [hsame]
  refine congrArg Related.many ?_
  cases row.identity via.sourceKey with
  | none => rfl
  | some k =>
    simp only [PlanNode.targetsOf, Option.elim_some, Memory.links, List.filterMap_filterMap, hn]
    refine List.filterMap_congr fun link _ => ?_
    rw [Memory.linked]
    refine Option.bind_congr fun k _ => ?_
    have hsorted : ((sortRows (OrderBy.merge [n.step.options.ordering, ascending (g.primaryKey via.target)])
        (m.rowsOf via.target)).filterMap (Row.identity via.targetKey)).Nodup :=
      (perm_sortRows.filterMap _).nodup_iff.mpr hunshared
    exact find?_hasKey_perm perm_sortRows hsorted k

omit hlinks

/-- What the relation to the join rows attaches to a row. -/
theorem scan_toLinks {n : PlanNode} (hn : n.step.relation = toLinks) (hoptions : n.step.options = {}) (row : Row) :
    n.scan m g row = .many (m.links via toLinks.target (row.identity via.sourceKey)) := by
  have hordering : Options.ordering {} = [] := rfl
  have hwindow (rows : List Row) : Options.window {} rows = rows := rfl
  simp only [PlanNode.scan, n.fetched_of_default hoptions, hn, hoptions, hjunction.kinds.2.1, hordering,
    hjunction.toLinks_keys.1, hjunction.toLinks_keys.2, hjunction.primaryKey, merge_links, scanMany, hwindow]
  exact congrArg Related.many (List.map_id _)

/-- What the relation from a join row to its target attaches. -/
theorem scan_toTarget {n : PlanNode} (hn : n.step.relation = toTarget) (hoptions : n.step.options = {}) (link : Row) :
    n.scan m g link = .one (m.linked via link) := by
  simp only [PlanNode.scan, n.fetched_of_default hoptions, hn, hjunction.kinds.2.2, hjunction.toTarget_keys.1,
    hjunction.toTarget_keys.2, hjunction.entities.2.2.2, scanOne]
  exact congrArg Related.one Option.map_id_apply

include hlinks

theorem cell_via (hunshared : m.UnsharedKey via.target via.targetKey) (row : Row) :
    (PlanNode.leaf ⟨via.name, via, 0, {}⟩).cell m g row =
      .rows ((m.links via toLinks.target (row.identity via.sourceKey)).filterMap (m.linked via)) := by
  let n := PlanNode.leaf ⟨via.name, via, 0, {}⟩
  have hid : (fun t => n.trim (n.fill m g t)) = id := funext fun t => n.trim_of_default rfl t
  show ((n.scan m g row).map fun t => n.trim (n.fill m g t)).value = _
  rw [scan_via hjunction hlinks hunshared (n := n) rfl rfl row, hid]
  simp only [Related.map, List.map_id, Related.value, Value.rows]

omit hlinks

theorem cell_toLinks (row : Row) :
    (PlanNode.branch ⟨toLinks.name, toLinks, 0, {}⟩ (planFor toTarget 1)).cell m g row =
      .rows ((m.links via toLinks.target (row.identity via.sourceKey)).map fun link =>
        link.setAll [(toTarget.name, Value.ofOption .object (m.linked via link))]) := by
  let n := PlanNode.branch ⟨toLinks.name, toLinks, 0, {}⟩ (planFor toTarget 1)
  let below := PlanNode.leaf ⟨toTarget.name, toTarget, 1, {}⟩
  have hbelow (link : Row) : below.cell m g link = Value.ofOption .object (m.linked via link) := by
    have hid : (fun t => below.trim (below.fill m g t)) = id := funext fun t => below.trim_of_default rfl t
    show ((below.scan m g link).map fun t => below.trim (below.fill m g t)).value = _
    rw [scan_toTarget hjunction (n := below) rfl rfl link, hid]
    exact congrArg (Value.ofOption Value.object) Option.map_id_apply
  have hfill : (fun t => n.trim (n.fill m g t)) = fun link : Row =>
      link.setAll [(toTarget.name, Value.ofOption .object (m.linked via link))] := by
    funext link
    rw [n.trim_of_default rfl]
    show (planFor toTarget 1).fill m g link = _
    rw [Plan.fill_eq, ← hbelow]
    rfl
  show ((n.scan m g row).map fun t => n.trim (n.fill m g t)).value = _
  rw [scan_toLinks hjunction (n := n) rfl rfl row, hfill]
  rfl

end Junction

/-! ## Both ways of stitching -/

theorem Row.lookup_complete_single (row : Row) (c : String) (v : Value) :
    ((RootRow.ofRow row).complete (row.setAll [(c, v)])).lookup c = some v := by
  rw [lookup_complete_setAll, setAll_cons, setAll_nil, lookup_set_self]

theorem filter_ofOption {α : Type} (f : α → Option Row) (l : List α) :
    (l.map fun a => Value.ofOption .object (f a)).filter (fun v => !v.isNull) = (l.filterMap f).map .object := by
  induction l with
  | nil => rfl
  | cons a l ih =>
    cases ha : f a with
    | none => simpa [ha, Value.ofOption, Value.isNull] using ih
    | some row => simpa [ha, Value.ofOption, Value.isNull] using ih

/-- Stitching rows over a database is filling each of them. -/
theorem stitch_eq_fill {entities : List Entity} {relations : List Relation} {g : Graph} {entity : String} {spec : Value}
    {maxDepth concurrency : Int} {p : Plan} {rows : List Row} {s : Session Memory}
    (hg : Graph.build entities relations = .ok g) (hp : compile g entity spec maxDepth = .ok p)
    (hapart : ∀ q ∈ p.levels, q.KeysApart) (hc : 1 ≤ concurrency)
    (hrows : ∀ row ∈ rows, ∀ n ∈ p.nodes, row.AllAt Value.isPlain n.step.relation.sourceKey)
    (hfaults : s.store.faults = []) (hprepared : s.store.prepared = []) (hserves : s.store.ServesAll Value.isPlain p) :
    (stitch g Memory.execute concurrency entity p (.rows rows) s).1 =
      .ok (rows.map fun row => (RootRow.ofRow row).complete (p.fill s.store g row)) := by
  obtain ⟨hentity, hfits⟩ := fits_of_compile hp
  rw [Memory.stitch_eq_nest hfaults hprepared hc hentity,
    Plan.nest_eq_fill (fun r => Graph.consistent_of_build hg) hfits hapart hserves hrows]
  exact congrArg Except.ok (completeAll_map rows _)

theorem levels_planFor (r : Relation) (depth : Nat) : (planFor r depth).levels = [planFor r depth] := by
  simp [planFor, Plan.levels, levelsBelow, PlanNode.levels]

theorem nodes_planFor (r : Relation) (depth : Nat) : (planFor r depth).nodes = [.leaf ⟨r.name, r, depth, {}⟩] := rfl

theorem keysApart_planFor (r : Relation) (depth : Nat) : ∀ q ∈ (planFor r depth).levels, q.KeysApart := by
  intro q hq
  rw [levels_planFor, List.mem_singleton] at hq
  rw [hq, Plan.KeysApart, nodes_planFor]
  exact List.pairwise_singleton _ _

theorem nodes_planThrough (r below : Relation) :
    (planThrough r below).nodes = [.branch ⟨r.name, r, 0, {}⟩ (planFor below 1)] := rfl

theorem levels_planThrough (r below : Relation) :
    (planThrough r below).levels = [planThrough r below, planFor below 1] := by
  simp [planThrough, Plan.levels, levelsBelow, PlanNode.levels, levels_planFor]

theorem keysApart_planThrough (r below : Relation) : ∀ q ∈ (planThrough r below).levels, q.KeysApart := by
  intro q hq
  rw [levels_planThrough, List.mem_cons, ← levels_planFor] at hq
  rcases hq with rfl | hq
  · rw [Plan.KeysApart, nodes_planThrough]
    exact List.pairwise_singleton _ _
  · exact keysApart_planFor below 1 q hq

section Stitched

variable {entities : List Entity} {relations : List Relation} {g : Graph} {maxDepth concurrency : Int}
  {rows : List Row} {s : Session Memory} (hg : Graph.build entities relations = .ok g) (hc : 1 ≤ concurrency)
  (hfaults : s.store.faults = []) (hprepared : s.store.prepared = [])

include hg hc hfaults hprepared

/-- What the request for a single relation stitches. -/
theorem stitch_requestFor {r : Relation} (hr : r ∈ g.relations) (hdepth : 1 ≤ maxDepth)
    (hrows : ∀ row ∈ rows, row.AllAt Value.isPlain r.sourceKey) (hserves : s.store.Serves Value.isPlain r) :
    compile g r.source (requestFor r.name) maxDepth = .ok (planFor r 0) ∧
      (stitch g Memory.execute concurrency r.source (planFor r 0) (.rows rows) s).1 =
        .ok (rows.map fun row => (RootRow.ofRow row).complete
          (row.setAll [(r.name, (PlanNode.leaf ⟨r.name, r, 0, {}⟩).cell s.store g row)])) := by
  obtain ⟨e, he⟩ := (Graph.entity?_of_build hg hr).1
  have hp := compile_requestFor (Graph.lookup?_of_build hg hr) he hdepth
  have hservesAll : s.store.ServesAll Value.isPlain (planFor r 0) := by
    intro q hq n hn
    rw [levels_planFor, List.mem_singleton] at hq
    rw [hq, nodes_planFor, List.mem_singleton] at hn
    rw [hn]
    exact hserves
  have hrowsAll : ∀ row ∈ rows, ∀ n ∈ (planFor r 0).nodes, row.AllAt Value.isPlain n.step.relation.sourceKey := by
    intro row hrow n hn
    rw [nodes_planFor, List.mem_singleton] at hn
    rw [hn]
    exact hrows row hrow
  refine ⟨hp, ?_⟩
  rw [stitch_eq_fill hg hp (keysApart_planFor r 0) hc hrowsAll hfaults hprepared hservesAll]
  exact congrArg Except.ok (List.map_congr_left fun row _ => by rw [Plan.fill_eq]; rfl)

/-- What the request for a relation and for another one below it stitches. -/
theorem stitch_requestThrough {r below : Relation} (hr : r ∈ g.relations) (hr' : below ∈ g.relations)
    (hbelow : below.source = r.target) (hdepth : 2 ≤ maxDepth)
    (hrows : ∀ row ∈ rows, row.AllAt Value.isPlain r.sourceKey) (hserves : s.store.Serves Value.isPlain r)
    (hserves' : s.store.Serves Value.isPlain below) :
    compile g r.source (requestThrough r.name below.name) maxDepth = .ok (planThrough r below) ∧
      (stitch g Memory.execute concurrency r.source (planThrough r below) (.rows rows) s).1 =
        .ok (rows.map fun row => (RootRow.ofRow row).complete
          (row.setAll [(r.name, (PlanNode.branch ⟨r.name, r, 0, {}⟩ (planFor below 1)).cell s.store g row)])) := by
  obtain ⟨⟨e, he⟩, ⟨e', he'⟩⟩ := Graph.entity?_of_build hg hr
  have hq := compile_requestThrough (Graph.lookup?_of_build hg hr) he he' hbelow (Graph.lookup?_of_build hg hr') hdepth
  have hservesAll : s.store.ServesAll Value.isPlain (planThrough r below) := by
    intro q hq n hn
    rw [levels_planThrough, List.mem_cons, List.mem_singleton] at hq
    rcases hq with rfl | rfl
    · rw [nodes_planThrough, List.mem_singleton] at hn
      rw [hn]
      exact hserves
    · rw [nodes_planFor, List.mem_singleton] at hn
      rw [hn]
      exact hserves'
  have hrowsAll : ∀ row ∈ rows, ∀ n ∈ (planThrough r below).nodes,
      row.AllAt Value.isPlain n.step.relation.sourceKey := by
    intro row hrow n hn
    rw [nodes_planThrough, List.mem_singleton] at hn
    rw [hn]
    exact hrows row hrow
  refine ⟨hq, ?_⟩
  rw [stitch_eq_fill hg hq (keysApart_planThrough r below) hc hrowsAll hfaults hprepared hservesAll]
  exact congrArg Except.ok (List.map_congr_left fun row _ => by rw [Plan.fill_eq]; rfl)

end Stitched

/-- The targets that a relation through a join entity attaches are those of the join rows that the relation to these
attaches, in their order and without the ones that are missing. -/
theorem stitch_junction {entities : List Entity} {relations : List Relation} {g : Graph}
    {via toLinks toTarget : Relation} {maxDepth concurrency : Int} {rows : List Row} {s : Session Memory}
    (hg : Graph.build entities relations = .ok g) (hjunction : g.Junction via toLinks toTarget)
    (hdepth : 2 ≤ maxDepth) (hc : 1 ≤ concurrency)
    (hrows : ∀ row ∈ rows, row.AllAt Value.isPlain via.sourceKey)
    (hfaults : s.store.faults = []) (hprepared : s.store.prepared = [])
    (hserves : ∀ r ∈ [via, toLinks, toTarget], s.store.Serves Value.isPlain r)
    (hlinks : s.store.KeyedBy toLinks.target (g.primaryKey toLinks.target))
    (hunshared : s.store.UnsharedKey via.target via.targetKey) :
    ∃ p q out out', compile g via.source (requestFor via.name) maxDepth = .ok p ∧
      compile g via.source (requestThrough toLinks.name toTarget.name) maxDepth = .ok q ∧
      (stitch g Memory.execute concurrency via.source p (.rows rows) s).1 = .ok out ∧
      (stitch g Memory.execute concurrency via.source q (.rows rows) s).1 = .ok out' ∧
      out.length = rows.length ∧
      List.Forall₂ (fun a b => ∃ links : List Row, b.lookup toLinks.name = some (.rows links) ∧
        a.lookup via.name = some (.list ((links.map (Row.get · toTarget.name)).filter fun v => !v.isNull)))
        out out' := by
  obtain ⟨hvia, htoLinks, htoTarget⟩ := hjunction.mem
  obtain ⟨-, hsource, hbelow, -⟩ := hjunction.entities
  have hone : 1 ≤ maxDepth := by omega
  obtain ⟨hp, hout⟩ := stitch_requestFor hg hc hfaults hprepared hvia hone hrows (hserves via (by simp))
  obtain ⟨hq, hout'⟩ := stitch_requestThrough hg hc hfaults hprepared htoLinks htoTarget hbelow hdepth
    (hjunction.toLinks_keys.1 ▸ hrows) (hserves toLinks (by simp)) (hserves toTarget (by simp))
  rw [hsource] at hq hout'
  refine ⟨_, _, _, _, hp, hq, hout, hout', List.length_map _, ?_⟩
  rw [List.forall₂_map_left_iff, List.forall₂_map_right_iff, List.forall₂_same]
  intro row _
  rw [cell_toLinks hjunction row, cell_via hjunction hlinks hunshared row]
  let links := s.store.links via toLinks.target (row.identity via.sourceKey)
  let attached (link : Row) : Row := link.setAll [(toTarget.name, Value.ofOption .object (s.store.linked via link))]
  have hget : (links.map attached).map (Row.get · toTarget.name) =
      links.map fun link => Value.ofOption .object (s.store.linked via link) := by
    rw [List.map_map]
    exact List.map_congr_left fun link _ => Row.get_set_self
  refine ⟨links.map attached, Row.lookup_complete_single row _ _, ?_⟩
  rw [Row.lookup_complete_single, hget, filter_ofOption]
  rfl

namespace Bookshelf

/-- From a book to its tags. -/
def tagsOfBook : Relation :=
  bookTags.across true ⟨["book_id"], "books", ["id"], false⟩ ⟨["tag_id"], "tags", ["id"], false⟩

def linksOfBook : Relation :=
  bookTags.inverse ⟨["book_id"], "books", ["id"], false⟩

def tagOfLink : Relation :=
  bookTags.belongsTo ⟨["tag_id"], "tags", ["id"], false⟩

theorem junction_tags : graph.Junction tagsOfBook linksOfBook tagOfLink := by
  constructor <;> decide +kernel

end Bookshelf

theorem stitch_junction_bookshelf :
    ∃ p q out out', compile Bookshelf.graph "books" (requestFor "tags") 2 = .ok p ∧
      compile Bookshelf.graph "books" (requestThrough "book_tags" "tag") 2 = .ok q ∧
      (stitch Bookshelf.graph Memory.execute 2 "books" p (.rows [[("id", .int 1)], [("id", .int 2)]])
        { store := Bookshelf.database }).1 = .ok out ∧
      (stitch Bookshelf.graph Memory.execute 2 "books" q (.rows [[("id", .int 1)], [("id", .int 2)]])
        { store := Bookshelf.database }).1 = .ok out' ∧
      out.length = 2 ∧
      List.Forall₂ (fun a b => ∃ links : List Row, b.lookup "book_tags" = some (.rows links) ∧
        a.lookup "tags" = some (.list ((links.map (Row.get · "tag")).filter fun v => !v.isNull))) out out' :=
  stitch_junction Bookshelf.build_graph Bookshelf.junction_tags (by decide) (by decide) (by decide +kernel) rfl rfl
    (by decide +kernel) (by decide +kernel) (by decide +kernel)

end RelatedRows

import RelatedRows.Proofs.Mentions
import RelatedRows.Proofs.Outcomes
import RelatedRows.Proofs.Permits

/-!
# Faults of a graph

Compiling a request and stitching rows rely on what a graph was checked for when it was built.  Over a graph that was
built, neither ends in a fault of the graph, whatever the request, the rows and the store are.

* `Fault.Blameless`: a fault that no relation is to blame for.
* `compile_ne_undeclaredTarget`: the entity that a relation leads to is known to the compiler.
* `PlanNode.Grounded`: a node that can be loaded, with keys that can be compared.
* `Dialogue.FailsOnly`, `LevelState.FailsOnly`: the faults of a load, and of a run in its course.
* `LevelState.Advances.failsOnly`: no step brings another fault about.
* `Graph.build_accepts`: consistent graphs are built, and they are enough.
-/

namespace RelatedRows

/-- The rows, the store or the call are to blame for a fault, and no relation is. -/
def Fault.Blameless (f : Fault) : Prop :=
  ∀ relation, f ≠ .noJoinEntity relation

/-! ## Requests -/

/-- The compiler finds the entity that a relation leads to. -/
theorem compile_ne_undeclaredTarget {g : Graph} (hg : ∀ r ∈ g.relations, ∃ e, g.entity? r.target = some e)
    (entity : String) (spec : Value) (maxDepth : Int) (r : Relation) :
    compile g entity spec maxDepth ≠ .error (.undeclaredTarget r) := by
  intro h
  by_cases hdepth : maxDepth < 1
  · rw [compile, if_pos hdepth] at h
    cases h
  · cases he : g.entity? entity with
    | none =>
      rw [compile, if_neg hdepth, he] at h
      cases h
    | some e =>
      obtain ⟨detail, htold⟩ := Listing.tells_of_compile hg (by omega) he h
      cases htold

/-! ## Keys -/

theorem Row.length_of_key? {columns : List String} {row : Row} {key : RowKey}
    (h : row.key? columns = .ok (some key)) : key.identity.length = columns.length := by
  obtain ⟨-, hidentity, -⟩ := keyOf_eq_some (keyOf_of_key? h)
  rw [hidentity, List.length_map, spelling, List.length_map]

open Stitch in
/-- What answered rows are found by has the length of their key. -/
theorem Stitch.length_of_mem_entries {step : Inclusion} {columns : List String} {a : Answer} {found : List KeyedRow}
    (hfound : keyedRows step columns a = .ok found) {e : List Atom × Nat} (he : e ∈ entries found) :
    e.1.length = columns.length := by
  obtain ⟨⟨r, i⟩, hr, heq⟩ := List.mem_filterMap.mp he
  obtain ⟨key, hkey, rfl⟩ := Option.map_eq_some_iff.mp heq
  have hkeyed := key?_of_keyedRows hfound r (List.mem_of_getElem? (List.mem_zipIdx_iff_getElem?.mp hr))
  exact Row.length_of_key? (hkeyed.trans (congrArg _ hkey))

theorem Stitch.SpelledIn.length {columns : List String} {keys : List Key} (h : SpelledIn columns keys) :
    ∀ key ∈ keys, key.length = columns.length := by
  intro key hkey
  obtain ⟨row, rfl⟩ := h key hkey
  exact List.length_map _

/-- The keys of a batch fit the columns that they are compared with. -/
def BatchQuery.FitsArity (q : BatchQuery) : Prop :=
  ∀ key ∈ q.keys, key.length = q.keyColumns.length

open Stitch in
/-- Keys that a load looks up are as long as those that it finds rows by. -/
structure Inclusion.KeysMeet (s : Inclusion) : Prop where
  /-- The key of a parent, and what the targets of an answer are found by. -/
  direct : s.relation.kind ≠ .manyViaJoin → ∀ (parent : Row) key, parent.key? s.relation.sourceKey = .ok (some key) →
    ∀ answer targets, keyedRows s s.relation.targetKey answer = .ok targets →
      ∀ e ∈ entries targets, key.identity.length = e.1.length
  /-- The key of a parent, and the key of a join row on the side of the parents. -/
  source : s.relation.kind = .manyViaJoin → ∀ (parent join : Row) key key',
    parent.key? s.relation.sourceKey = .ok (some key) → join.key? s.relation.joinSourceKey = .ok (some key') →
      key.identity.length = key'.identity.length
  /-- The key of a join row on the far side, and what the targets of an answer are found by. -/
  target : s.relation.kind = .manyViaJoin → ∀ (join : Row) key, join.key? s.relation.joinTargetKey = .ok (some key) →
    ∀ answer targets, keyedRows s s.relation.targetKey answer = .ok targets →
      ∀ e ∈ entries targets, key.identity.length = e.1.length

theorem Relation.Consistent.keysMeet {s : Inclusion} (h : s.relation.Consistent) : s.KeysMeet where
  direct _ parent key hkey answer targets htargets e he := by
    rw [Row.length_of_key? hkey, Stitch.length_of_mem_entries htargets he, h.arity]
  source hkind parent join key key' hkey hkey' := by
    obtain ⟨j, -, hsource, -⟩ := h.join hkind
    rw [Row.length_of_key? hkey, Row.length_of_key? hkey', hsource]
  target hkind join key hkey answer targets htargets e he := by
    obtain ⟨j, -, -, htarget⟩ := h.join hkind
    rw [Row.length_of_key? hkey, Stitch.length_of_mem_entries htargets he, htarget]

theorem PlanNode.putsOnly_fitting {g : Graph} {n : PlanNode} (h : n.step.relation.Consistent) (rows : List Row) :
    (n.load g rows).PutsOnly BatchQuery.FitsArity := by
  refine n.putsOnly_load (fun _ keys hkeys key hkey => ?_) (fun _ keys hkeys key hkey => ?_)
    (fun hkind j _ keys hkeys key hkey => ?_) (fun hkind keys hkeys key hkey => ?_) rows
  · exact (hkeys.length key hkey).trans h.arity
  · exact (hkeys.length key hkey).trans h.arity
  · obtain ⟨_, -, hsource, -⟩ := h.join hkind
    exact (hkeys.length key hkey).trans hsource.symm
  · obtain ⟨_, -, -, htarget⟩ := h.join hkind
    exact (hkeys.length key hkey).trans htarget

/-! ## Nodes -/

open Stitch in
/-- A node whose target the graph has, which is loaded as its kind is, and whose keys can be compared. -/
structure PlanNode.Grounded (g : Graph) (n : PlanNode) : Prop where
  target : ∃ e, g.entity? n.step.relation.target = some e
  loaded : (n.step.relation.kind = .one ∧ n.load g = loadOne n) ∨
    (n.step.relation.kind = .many ∧ n.load g = loadMany g n) ∨
    (n.step.relation.kind = .manyViaJoin ∧ n.load g = loadManyViaJoin g n ∧
      ∃ j, n.step.relation.joinEntity = some j ∧ ∃ e, g.entity? j = some e)
  keys : n.step.KeysMeet

theorem PlanNode.grounded_of_build {entities : List Entity} {relations : List Relation} {g : Graph}
    (hg : Graph.build entities relations = .ok g) {n : PlanNode} (hn : n.step.relation ∈ g.relations) :
    n.Grounded g where
  target := (Graph.entity?_of_build hg hn).2
  loaded := by
    have hfits := Graph.consistentIn_of_build hg hn
    cases hkind : n.step.relation.kind with
    | one => exact .inl ⟨rfl, by funext rows; rw [load, hkind]⟩
    | many => exact .inr (.inl ⟨rfl, by funext rows; rw [load, hkind]⟩)
    | manyViaJoin =>
      obtain ⟨j, hj⟩ := hfits.joined.mpr hkind
      exact .inr (.inr ⟨rfl, by funext rows; rw [load, hkind], j, hj, Graph.exists_entity? (hfits.join j hj).1⟩)
  keys := (Graph.consistent_of_build hg hn).keysMeet

/-! ## Loads -/

/-- Whatever its queries are answered and whichever rows it links in the end, a load fails in these ways only. -/
def Dialogue.FailsOnly (P : Fault → Prop) : Load → Prop
  | .done linking => ∀ rows, Except.FailsOnly P (linking >>= (·.attachment rows))
  | .ask _ next => ∀ a, (next a).FailsOnly P

theorem Row.blameless_key? (columns : List String) (row : Row) :
    Except.FailsOnly Fault.Blameless (row.key? columns) := by
  intro f hf
  obtain ⟨kind, rfl⟩ := row.key?_failsOnly columns f hf
  exact nofun

namespace Stitch

theorem blameless_keyBatchOf (columns : List String) (rows : List Row) :
    Except.FailsOnly Fault.Blameless (keyBatchOf columns rows) :=
  .bind (.mapM fun row _ => row.blameless_key? columns) fun _ _ => .ok _

theorem blameless_items (v : Value) : Except.FailsOnly Fault.Blameless (items v) := by
  cases v with
  | list vs => exact .ok vs
  | text s => exact .ok _
  | object fields => exact .ok _
  | _ => exact .error (P := Fault.Blameless) nofun

theorem blameless_answered (step : Inclusion) (a : Answer) : Except.FailsOnly Fault.Blameless (answered step a) := by
  cases a with
  | ok v => exact blameless_items v
  | error f =>
    unfold answered
    dsimp only
    split
    · exact .error nofun
    · exact .error nofun

theorem blameless_keyedRow (columns : List String) (v : Value) :
    Except.FailsOnly Fault.Blameless (v.keyedRow columns) := by
  refine .bind ?_ fun row _ => .bind (row.blameless_key? columns) fun _ _ => .ok _
  cases v with
  | object fields => exact .ok fields
  | _ => exact .error nofun

theorem blameless_keyedRows (step : Inclusion) (columns : List String) (a : Answer) :
    Except.FailsOnly Fault.Blameless (keyedRows step columns a) :=
  .bind (blameless_answered step a) fun _ _ => .mapM fun v _ => blameless_keyedRow columns v

/-- A row that is linked fails by its own key. -/
theorem blameless_done {linking : Except Fault Linking} (h : Except.FailsOnly Fault.Blameless linking)
    (hlink : ∀ l, linking = .ok l → ∀ row, Except.FailsOnly Fault.Blameless (l.link row)) :
    Dialogue.FailsOnly Fault.Blameless (.done linking) :=
  fun _ => h.bind fun l hl => .bind (.mapM fun row _ => hlink l hl row) fun _ _ => .ok _

theorem blameless_failed {fault : Fault} (h : fault.Blameless) :
    Dialogue.FailsOnly Fault.Blameless (.done (.error fault : Except Fault Linking)) :=
  blameless_done (.error h) fun _ hl => by cases hl

theorem blameless_nothing (link : Link) : Dialogue.FailsOnly Fault.Blameless (.done (nothing link)) := by
  refine blameless_done (.ok _) ?_
  rintro l ⟨⟩ row
  exact .ok link

theorem blameless_linked (step : Inclusion) (columns : List String) (a : Answer) {make : List KeyedRow → Linking}
    (hmake : ∀ found row, Except.FailsOnly Fault.Blameless ((make found).link row)) :
    Dialogue.FailsOnly Fault.Blameless (.done ((keyedRows step columns a).map make)) := by
  refine blameless_done ((blameless_keyedRows step columns a).map make) fun l hl => ?_
  obtain ⟨found, -, rfl⟩ := Except.map_eq_ok hl
  exact hmake found

variable {g : Graph} {n : PlanNode} (rows : List Row)

theorem blameless_loadOne : (loadOne n rows).FailsOnly Fault.Blameless := by
  have hkeys := blameless_keyBatchOf n.step.relation.sourceKey rows
  rw [loadOne]
  split
  · next f hf => exact blameless_failed (hkeys f hf)
  · exact blameless_nothing _
  · exact fun a => blameless_linked n.step _ a fun _ row => (row.blameless_key? n.step.relation.sourceKey).map _

theorem blameless_loadMany : (loadMany g n rows).FailsOnly Fault.Blameless := by
  have hkeys := blameless_keyBatchOf n.step.relation.sourceKey rows
  rw [loadMany]
  split
  · next f hf => exact blameless_failed (hkeys f hf)
  · exact blameless_nothing _
  · exact fun a => blameless_linked n.step _ a fun _ row => (row.blameless_key? n.step.relation.sourceKey).map _

theorem blameless_loadTargets (joins : List KeyedRow) : (loadTargets g n joins).FailsOnly Fault.Blameless := by
  rw [loadTargets]
  split
  · exact blameless_nothing _
  · intro a
    refine blameless_done ((blameless_keyedRows n.step n.step.relation.targetKey a).bind fun targets _ => ?_)
      fun l hl row => ?_
    · exact .bind (.mapM fun j _ => j.row.blameless_key? _) fun _ _ => .ok _
    · obtain ⟨targets, -, hl⟩ := Except.bind_eq_ok hl
      obtain ⟨sources, -, hl⟩ := Except.bind_eq_ok hl
      cases hl
      exact (row.blameless_key? n.step.relation.sourceKey).map _

/-- With a join entity, a load through it fails like any other. -/
theorem blameless_loadManyViaJoin {j : String} (hj : n.step.relation.joinEntity = some j) :
    (loadManyViaJoin g n rows).FailsOnly Fault.Blameless := by
  have hkeys := blameless_keyBatchOf n.step.relation.sourceKey rows
  rw [loadManyViaJoin, hj]
  dsimp only
  split
  · next f hf => exact blameless_failed (hkeys f hf)
  · exact blameless_nothing _
  · intro a
    have hjoins := blameless_keyedRows n.step n.step.relation.joinTargetKey a
    dsimp only
    split
    · next f hf => exact blameless_failed (hjoins f hf)
    · next joins _ => exact blameless_loadTargets joins

end Stitch

theorem PlanNode.Grounded.blameless_load {g : Graph} {n : PlanNode} (h : n.Grounded g) (rows : List Row) :
    (n.load g rows).FailsOnly Fault.Blameless := by
  rcases h.loaded with ⟨-, hload⟩ | ⟨-, hload⟩ | ⟨-, hload, j, hj, -⟩
  · rw [hload]
    exact Stitch.blameless_loadOne rows
  · rw [hload]
    exact Stitch.blameless_loadMany rows
  · rw [hload]
    exact Stitch.blameless_loadManyViaJoin rows hj

/-! ## Runs -/

section Runs

variable {σ : Type} {exec : Executor σ} {g : Graph} {p : Plan} {P : Fault → Prop} {s s' : Shared σ}
  {st st' : LevelState}

/-- What is left of a load, or what it has ended with, fails in these ways only. -/
def Task.FailsOnly (P : Fault → Prop) : Task → Prop
  | .waiting => True
  | .running load => load.FailsOnly P
  | .calling _ next => ∀ a, (next a).FailsOnly P
  | .finished r => Except.FailsOnly P r

/-- What is left of a level of a plan and of those below it, or what they have ended with, fails in these ways only. -/
inductive LevelState.FailsOnly (p : Plan) (P : Fault → Prop) : LevelState → Prop
  | loading {l : Level} {tasks : List Task} (hof : l.Of p) (htasks : ∀ t ∈ tasks, t.FailsOnly P) :
    FailsOnly p P (.loading l tasks)
  | nesting {path : List String} {rows : List Row} {loaded : List Loaded} {below : List LevelState}
    (hbelow : ∀ b ∈ below, FailsOnly p P b) : FailsOnly p P (.nesting path rows loaded below)
  | finished {r : Except Fault (List Row)} (hr : Except.FailsOnly P r) : FailsOnly p P (.finished r)

theorem Level.failsOnly_start {l : Level} (hof : l.Of p) : l.start.FailsOnly p P := by
  rw [start]
  split
  · exact .finished (.ok _)
  · refine .loading hof fun t ht => ?_
    obtain ⟨n, -, rfl⟩ := List.mem_map.mp ht
    trivial

theorem Task.failsOnly_step {n : PlanNode} {t t' : Task} {rows rows' : List Row}
    (hn : ∀ rows, (n.load g rows).FailsOnly P) (ht : t.FailsOnly P)
    (hstep : t.step exec g n rows s = some (t', rows', s')) : t'.FailsOnly P := by
  cases advances_of_step hstep with
  | begun => exact hn rows
  | asked q next => exact ht
  | answered q next => exact ht _
  | ended linking => exact ht rows

/-- A level goes on after its loads. -/
theorem LevelState.failsOnly_ofLoads {l : Level} (hof : l.Of p) {results : List (Except Fault Attachment)}
    (h : ∀ r ∈ results, Except.FailsOnly P r) : (ofLoads l results).FailsOnly p P := by
  have hzip : Except.FailsOnly P ((l.nodes.zip results).mapM fun x => x.2.map fun a => ((x.1, a) : Loaded)) :=
    .mapM fun x hx => (h x.2 (List.of_mem_zip hx).2).map _
  rw [ofLoads]
  split
  · next f hf => exact .finished (.error (hzip f hf))
  · next loaded hloaded =>
    refine .nesting fun b hb => ?_
    obtain ⟨n, hn, rfl⟩ := List.mem_map.mp hb
    obtain ⟨⟨m, r⟩, hmem, hr⟩ := Except.exists_of_mem_mapM hloaded hn
    obtain ⟨a, -, rfl⟩ := Except.map_eq_ok hr
    exact Level.failsOnly_start (hof.below (List.of_mem_zip hmem).1 l.path)

/-- A level goes on after the levels below it. -/
theorem LevelState.failsOnly_ofBelow (path : List String) (rows : List Row) (loaded : List Loaded)
    {results : List (Except Fault (List Row))} (h : ∀ r ∈ results, Except.FailsOnly P r) :
    (ofBelow path rows loaded results).FailsOnly p P :=
  .finished (.bind (.ok loaded) fun _ _ => .bind (.mapM h) fun _ _ => .ok _)

variable (hp : ∀ q ∈ p.levels, ∀ n ∈ q.nodes, ∀ rows, (n.load g rows).FailsOnly P)

include hp

/-- No step brings another fault about. -/
theorem LevelState.Advances.failsOnly (hstep : st.Advances exec g s st' s') (h : st.FailsOnly p P) :
    st'.FailsOnly p P := by
  induction hstep with
  | loaded l results s =>
    cases h with
    | loading hof htasks => exact failsOnly_ofLoads hof fun r hr => htasks _ (List.mem_map_of_mem hr)
  | joined path rows loaded results s =>
    cases h with
    | nesting hbelow =>
      refine failsOnly_ofBelow path rows loaded fun r hr => ?_
      cases hbelow _ (List.mem_map_of_mem hr) with
      | finished hr => exact hr
  | load hn ht htask =>
    cases h with
    | loading hof htasks =>
      obtain ⟨q, hq, hnq⟩ := hof.exists_level (List.mem_of_getElem? hn)
      refine .loading hof fun u hu => ?_
      rcases List.mem_or_eq_of_mem_set hu with hu | rfl
      · exact htasks u hu
      · exact Task.failsOnly_step (hp q hq _ hnq) (htasks _ (List.mem_of_getElem? ht)) htask
  | lower hb _ ih =>
    cases h with
    | nesting hbelow =>
      refine .nesting fun u hu => ?_
      rcases List.mem_or_eq_of_mem_set hu with hu | rfl
      · exact hbelow u hu
      · exact ih (hbelow _ (List.mem_of_getElem? hb))

theorem Machine.failsOnly_of_reaches {rows : List Row} {permits : Nat} {store : σ} {m : Machine σ}
    (h : (start p rows permits store).Reaches exec g m) : m.root.FailsOnly p P := by
  refine h.preserves (I := fun m => m.root.FailsOnly p P)
    (fun _ _ _ hm hstep => (advances_of_step hstep).failsOnly hp hm) ?_
  exact Level.failsOnly_start (p.of_level rows _ (List.mem_singleton.mpr rfl))

omit hp

theorem LevelState.FailsOnly.task? {place : List Nat} {t : Task} (h : st.FailsOnly p P) (ht : st.task? place = some t) :
    t.FailsOnly P := by
  induction h generalizing place with
  | loading hof htasks =>
    obtain ⟨i, -, hi⟩ := task?_of_loading ht
    exact htasks t (List.mem_of_getElem? hi)
  | nesting _ ih =>
    obtain ⟨i, rest, b, -, hb, ht⟩ := task?_of_nesting ht
    exact ih b (List.mem_of_getElem? hb) ht
  | finished hr =>
    cases place with
    | nil => cases ht
    | cons i place => cases place <;> cases ht

theorem LevelState.FailsOnly.at? {place : List Nat} (h : st.FailsOnly p P) (hat : st.at? place = some st') :
    st'.FailsOnly p P := by
  induction place generalizing st with
  | nil =>
    cases hat
    exact h
  | cons i place ih =>
    cases h with
    | loading => cases hat
    | finished => cases hat
    | nesting hbelow =>
      obtain ⟨b, hb, hat⟩ := Option.bind_eq_some_iff.mp hat
      exact ih (hbelow b (List.mem_of_getElem? hb)) hat

end Runs

/-! ## Root rows -/

theorem Value.blameless_pair (index : Nat) (v : Value) : Except.FailsOnly Fault.Blameless (v.pair index) := by
  have htitle (title : Value) : Except.FailsOnly Fault.Blameless title.title := by
    refine .map ?_ _
    cases title with
    | list vs => exact .error (P := Fault.Blameless) nofun
    | object fields => exact .error (P := Fault.Blameless) nofun
    | _ => exact .ok _
  unfold pair
  split
  · split
    · exact .ok _
    · exact .error nofun
  · exact (htitle _).map _
  · exact .error nofun
  · exact .ok _
  · exact .error nofun
  · exact .error nofun

theorem RootRow.blameless_ofPairs (index : Nat) (cells : List (Title × Value)) (vs : List Value) :
    Except.FailsOnly Fault.Blameless (ofPairs index cells vs) := by
  induction vs generalizing index cells with
  | nil => exact .ok _
  | cons v vs ih => exact (v.blameless_pair index).bind fun _ _ => ih _ _

theorem Value.blameless_rootRow (v : Value) : Except.FailsOnly Fault.Blameless v.rootRow := by
  cases v with
  | object fields => exact .ok _
  | list vs => exact RootRow.blameless_ofPairs 0 [] vs
  | text s => exact RootRow.blameless_ofPairs 0 [] _
  | _ => exact .error (P := Fault.Blameless) nofun

theorem blameless_rootRows (concurrency : Int) (entity : String) (p : Plan) (rows : Value) :
    Except.FailsOnly Fault.Blameless (rootRows concurrency entity p rows) := by
  unfold rootRows
  split
  · exact .error nofun
  · split
    · exact .error nofun
    · exact (Stitch.blameless_items rows).bind fun _ _ => .mapM fun v _ => v.blameless_rootRow

/-! ## Graphs that were built -/

/-- In the course of a run no load and no level has ended with a fault that a relation is to blame for, and every key
that the store was asked for fits the columns that it is compared with. -/
structure Machine.Blameless {σ : Type} (m : Machine σ) : Prop where
  loads : ∀ place fault, m.root.task? place = some (.finished (.error fault)) → fault.Blameless
  levels : ∀ place fault, m.root.at? place = some (.finished (.error fault)) → fault.Blameless
  queries : ∀ q ∈ m.shared.issued, q.FitsArity

section Built

variable {σ : Type} {exec : Executor σ} {g : Graph} {p : Plan}
  (hp : ∀ q ∈ p.levels, ∀ n ∈ q.nodes, n.Grounded g ∧ n.step.relation.Consistent)

include hp

theorem Machine.blameless_of_run {rows : List Row} {permits : Nat} {store : σ} {schedule : List (List Nat)}
    {m : Machine σ} (hrun : (start p rows permits store).run exec g schedule = some m) : m.Blameless := by
  have hroot : m.root.FailsOnly p Fault.Blameless :=
    failsOnly_of_reaches (fun q hq n hn => (hp q hq n hn).1.blameless_load) ⟨schedule, hrun⟩
  refine ⟨fun place fault ht => hroot.task? ht fault rfl, fun place fault hat => ?_, ?_⟩
  · cases hroot.at? hat with
    | finished hr => exact hr fault rfl
  · exact issued_of_run (Plan.putsOnly_nodes fun q hq n hn => PlanNode.putsOnly_fitting (hp q hq n hn).2) hrun

theorem blameless_stitchPaced (concurrency : Int) (entity : String) (rows : Value) (s : Session σ) :
    Except.FailsOnly Fault.Blameless (stitchPaced exec g concurrency entity p rows s).1 := by
  have hroots := blameless_rootRows concurrency entity p rows
  unfold stitchPaced
  split
  · next fault hfault => exact .error (hroots fault hfault)
  · next roots hok =>
    have hc : 1 ≤ concurrency := by
      by_contra hlt
      have hinvalid : ¬(1 ≤ concurrency ∧ p.entity = entity) := fun h => hlt h.1
      obtain ⟨fault, hfault⟩ := rootRows_of_invalid hinvalid rows
      rw [hok] at hfault
      cases hfault
    have hturns : 0 < concurrency.toNat := by omega
    obtain ⟨m, ⟨schedule, hrun⟩, hresult, -⟩ := reaches_stitchRowsPaced exec g p (roots.map (·.row)) s hturns
    refine .map (fun fault hfault => ?_) _
    refine (Machine.blameless_of_run hp hrun).levels [] fault ?_
    rw [hfault] at hresult
    exact congrArg some (LevelState.eq_finished hresult)

end Built

/-- A graph is built from entities and relations just if they are consistent.  It finds its relations by their names;
whatever is compiled over it, no target is missing, and whatever is stitched by the plan, over any store, in any order
and at any pace, no load falls short of a join entity and no key is compared with one of another length. -/
theorem Graph.build_accepts (entities : List Entity) (relations : List Relation) :
    ((∃ g, build entities relations = .ok g) ↔ Consistent entities relations) ∧
    ∀ g, build entities relations = .ok g →
      (∀ entity name, (∀ r, g.lookup? entity name = some r ↔ r ∈ relations ∧ r.source = entity ∧ r.name = name) ∧
        (g.lookup? entity name = none ↔ ∀ r ∈ relations, ¬(r.source = entity ∧ r.name = name))) ∧
      ∀ entity spec maxDepth, (∀ r, compile g entity spec maxDepth ≠ .error (.undeclaredTarget r)) ∧
        ∀ p, compile g entity spec maxDepth = .ok p →
          (∀ q ∈ p.levels, ∀ n ∈ q.nodes, n.Grounded g) ∧
          (∀ (σ : Type) (exec : Executor σ) (rows : List Row) (permits : Nat) (store : σ)
            (schedule : List (List Nat)) (m : Machine σ),
              (Machine.start p rows permits store).run exec g schedule = some m → m.Blameless) ∧
          ∀ (σ : Type) (exec : Executor σ) (concurrency : Int) (name : String) (rows : Value) (s : Session σ) fault,
            (stitchPaced exec g concurrency name p rows s).1 = .error fault → fault.Blameless := by
  refine ⟨⟨fun ⟨g, hg⟩ => (build_eq_ok_iff.mp hg).1, fun h => ⟨_, build_eq_ok_iff.mpr ⟨h, rfl⟩⟩⟩, fun g hg => ?_⟩
  refine ⟨fun entity name => ⟨fun r => lookup?_eq_some_iff hg, lookup?_eq_none_iff hg⟩,
    fun entity spec maxDepth => ⟨?_, fun p hp => ?_⟩⟩
  · exact compile_ne_undeclaredTarget (fun r hr => (entity?_of_build hg hr).2) entity spec maxDepth
  · have hnodes : ∀ q ∈ p.levels, ∀ n ∈ q.nodes, n.Grounded g ∧ n.step.relation.Consistent := by
      intro q hq n hn
      have hmem := ((fits_of_compile hp).2 q hq n hn).mem
      exact ⟨PlanNode.grounded_of_build hg hmem, consistent_of_build hg hmem⟩
    exact ⟨fun q hq n hn => (hnodes q hq n hn).1, fun _ _ _ _ _ _ _ hrun => Machine.blameless_of_run hnodes hrun,
      fun _ _ concurrency name rows s => blameless_stitchPaced hnodes concurrency name rows s⟩

/-- A store that answers every query with a text in place of a row. -/
def Bookshelf.textsOnly : Executor Unit :=
  .ofFunction fun _ => .ok (.list [.text "row"])

/-- The bookshelf is consistent.  Loading an author's books from a store of texts fails, and the store is to blame. -/
theorem Graph.build_accepts_bookshelf :
    Consistent Bookshelf.graph.entities Bookshelf.graph.relations ∧
      (stitchPaced Bookshelf.textsOnly Bookshelf.graph 2 "authors" Bookshelf.plan (.rows [[("id", .int 1)]])
        { store := (), latency := 1 }).1 = .error (.notRow .text) ∧ (Fault.notRow .text).Blameless := by
  obtain ⟨hconsistent, hbuilt⟩ := Graph.build_accepts Bookshelf.graph.entities Bookshelf.graph.relations
  obtain ⟨-, hcompile⟩ := hbuilt Bookshelf.graph Bookshelf.build_graph
  have hfault : (stitchPaced Bookshelf.textsOnly Bookshelf.graph 2 "authors" Bookshelf.plan (.rows [[("id", .int 1)]])
      { store := (), latency := 1 }).1 = .error (.notRow .text) := by decide +kernel
  obtain ⟨-, -, hblameless⟩ := (hcompile "authors" Bookshelf.request 2).2 Bookshelf.plan Bookshelf.compile_request
  exact ⟨hconsistent.mp ⟨_, Bookshelf.build_graph⟩, hfault, hblameless _ _ _ _ _ _ _ hfault⟩

end RelatedRows

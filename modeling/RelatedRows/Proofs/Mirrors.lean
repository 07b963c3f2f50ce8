import RelatedRows.Proofs.Ownership

/-!
# Runs on objects

A run on objects goes on as the run on rows does: whatever step is taken next, on both sides it can be taken or not,
calls the store with the same query, and leaves objects that hold the rows of the other side.

* `ObjectLevel.Mirrors`: a level on objects stands for a level on rows.
* `ObjectLevel.Mirrors.congr`: only the objects at its place, or below, matter for this.
-/

namespace RelatedRows

/-! ## Objects of a level -/

namespace Objects

/-- The objects of a level, which refer to others only under the keys of its nodes. -/
structure Holders (labels : Labels) (os : Objects) (place : List Nat) (keys : List String) (as : List Nat) : Prop where
  nodup : as.Nodup
  placed : ∀ a ∈ as, labels.At place a
  tidy : ∀ a ∈ as, ∀ o, os[a]? = some o → o.Tidy keys

/-- Objects refer to others under a key as an attachment links rows.  The objects of the found rows stand from `base`
on, at the place of the attachment. -/
structure Attaches (labels : Labels) (os : Objects) (place : List Nat) (as : List Nat) (key : String) (att : Attachment)
    (base : Nat) : Prop where
  sound : att.Sound
  found : ∀ i, i < att.found.length → labels.At place (base + i)
  refer : Refer os base key as att.links

variable {labels labels' : Labels} {os os' : Objects} {place : List Nat} {keys : List String} {as : List Nat}
  {key : String} {att : Attachment} {base : Nat}

theorem Holders.congr (h : Holders labels os place keys as) (halike : Alike place labels os labels' os') :
    Holders labels' os' place keys as where
  nodup := h.nodup
  placed a ha := halike.at.mpr (h.placed a ha)
  tidy a ha o ho := h.tidy a ha o ((halike.getElem?_eq (h.placed a ha)).symm.trans ho)

/-- What is attached to objects is found again as long as their cells and the places of the found objects stay. -/
theorem Attaches.congr (h : Attaches labels os place as key att base)
    (hat : ∀ b, labels.At place b → labels'.At place b)
    (hcells : ∀ a ∈ as, ∀ o, os[a]? = some o → ∃ o', os'[a]? = some o' ∧ o'.lookup key = o.lookup key) :
    Attaches labels' os' place as key att base where
  sound := h.sound
  found i hi := hat _ (h.found i hi)
  refer := h.refer.congr hcells

theorem Attaches.congr_of_eq (h : Attaches labels os place as key att base)
    (hat : ∀ b, labels.At place b → labels'.At place b) (hsame : ∀ a ∈ as, os'[a]? = os[a]?) :
    Attaches labels' os' place as key att base :=
  h.congr hat fun a ha o ho => ⟨o, (hsame a ha).trans ho, rfl⟩

theorem Attaches.position_lt (h : Attaches labels os place as key att base) {j : Nat} (hj : j ∈ att.positions) :
    j < att.found.length := by
  obtain ⟨link, hlink, hj⟩ := Attachment.mem_positions.mp hj
  exact h.sound link hlink j hj

end Objects

/-- A load on objects stands for a load on rows. -/
inductive ObjectTask.Mirrors (labels : Labels) (os : Objects) (place : List Nat) (as : List Nat) (key : String) :
    ObjectTask → Task → Prop
  | waiting : Mirrors labels os place as key .waiting .waiting
  | running {load : Load} (hload : load.Sound) : Mirrors labels os place as key (.running load) (.running load)
  | calling {q : BatchQuery} {next : Answer → Load} (hnext : ∀ a, (next a).Sound) :
    Mirrors labels os place as key (.calling q next) (.calling q next)
  | failed (f : Fault) : Mirrors labels os place as key (.finished (.error f)) (.finished (.error f))
  | linked {att : Attachment} {base : Nat} (hattaches : Objects.Attaches labels os place as key att base)
    (hfound : ∀ i row, att.found[i]? = some row → os[base + i]? = some (.ofRow row)) :
    Mirrors labels os place as key (.finished (.ok ())) (.finished (.ok att))

/-- Nodes of a level with different keys, and so on at all levels below. -/
structure NodesDistinct (nodes : List PlanNode) : Prop where
  level : (nodes.map PlanNode.key).Nodup
  below : ∀ q ∈ levelsBelow nodes, q.KeysDistinct

theorem nodesDistinct_of_levels {p : Plan} (h : ∀ q ∈ p.levels, q.KeysDistinct) : NodesDistinct p.nodes := by
  refine ⟨h p p.mem_levels_self, fun q hq => h q ?_⟩
  cases p
  exact List.mem_cons_of_mem _ hq

namespace NodesDistinct

variable {nodes : List PlanNode} {n m : PlanNode}

theorem eq_of_key (h : NodesDistinct nodes) {i j : Nat} (hn : nodes[i]? = some n) (hm : nodes[j]? = some m)
    (hkey : m.key = n.key) : i = j := by
  have hi : i < (nodes.map PlanNode.key).length := by
    rw [List.length_map]
    exact (List.getElem?_eq_some_iff.mp hn).1
  refine (List.getElem?_inj hi h.level).mp ?_
  rw [List.getElem?_map, List.getElem?_map, hn, hm, Option.map_some, Option.map_some, hkey]

theorem nested (h : NodesDistinct nodes) (hn : n ∈ nodes) : NodesDistinct ((n.nested?.map (·.nodes)).getD []) := by
  cases n with
  | leaf step => exact ⟨List.nodup_nil, fun q hq => absurd hq List.not_mem_nil⟩
  | branch step p =>
    exact nodesDistinct_of_levels fun q hq => h.below q (mem_levelsBelow.mpr ⟨_, hn, hq⟩)

end NodesDistinct

namespace ObjectLevel

/-- The loads of a level on objects stand for those of a level on rows. -/
structure Loads (labels : Labels) (os : Objects) (place : List Nat) (nodes : List PlanNode) (as : List Nat)
    (tasks : List ObjectTask) (rows : List Row) (tasks' : List Task) : Prop where
  distinct : NodesDistinct nodes
  holders : Objects.Holders labels os place (nodes.map PlanNode.key) as
  /-- Nothing is found below the level yet but the rows of its loads. -/
  bottom : ∀ rest a, labels.At (place ++ rest) a → rest.length ≤ 1
  flat : ∀ i a o, labels.At (place ++ [i]) a → os[a]? = some o → o.Flat
  rows_eq : as.map (os.row 1) = rows
  length_eq : tasks.length = nodes.length
  length_eq' : tasks'.length = nodes.length
  mirrors : ∀ (i : Nat) n t t', nodes[i]? = some n → tasks[i]? = some t → tasks'[i]? = some t' →
    ObjectTask.Mirrors labels os (place ++ [i]) as n.key t t'

/-- Objects after the loads of their level; `base i` is where the objects stand that the load of a node has found. -/
structure Nests (labels : Labels) (os : Objects) (place : List Nat) (nodes : List PlanNode) (as : List Nat)
    (rows : List Row) (loaded : List Loaded) (base : Nat → Nat) : Prop where
  nodes_eq : loaded.map (·.1) = nodes
  distinct : (nodes.map PlanNode.key).Nodup
  holders : Objects.Holders labels os place (nodes.map PlanNode.key) as
  /-- References led to some rows then. -/
  rows_eq : ∃ table, rows = as.map fun a => Object.row table ((os[a]?).getD [])
  attaches : ∀ (i : Nat) n, loaded[i]? = some n →
    Objects.Attaches labels os (place ++ [i]) as n.1.key n.2 (base i)

/-- A level on objects stands for a level on rows. -/
inductive Mirrors (labels : Labels) (os : Objects) : List Nat → List Nat → ObjectLevel → LevelState → Prop
  | loading {place as : List Nat} {nodes : List PlanNode} {tasks : List ObjectTask} {l : Level} {tasks' : List Task}
    (hnodes : l.nodes = nodes) (h : Loads labels os place nodes as tasks l.rows tasks') :
    Mirrors labels os place as (.loading nodes as tasks) (.loading l tasks')
  | nesting {place as : List Nat} {nodes : List PlanNode} {below : List ObjectLevel} {path : List String}
    {rows : List Row} {loaded : List Loaded} {below' : List LevelState} {base : Nat → Nat}
    (h : Nests labels os place nodes as rows loaded base) (hlen : below.length = loaded.length)
    (hlen' : below'.length = loaded.length)
    (hbelow : ∀ (i : Nat) n b b', loaded[i]? = some n → below[i]? = some b → below'[i]? = some b' →
      Mirrors labels os (place ++ [i]) (n.2.positions.map (base i + ·)) b b') :
    Mirrors labels os place as (.nesting nodes as below) (.nesting path rows loaded below')
  | failed {place as : List Nat} (f : Fault) : Mirrors labels os place as (.finished (.error f)) (.finished (.error f))
  | finished {place as : List Nat} {rows : List Row} (hplaced : ∀ a ∈ as, labels.At place a) (depth : Nat)
    (hrows : ∀ d, depth ≤ d → as.map (os.row d) = rows) :
    Mirrors labels os place as (.finished (.ok as)) (.finished (.ok rows))

end ObjectLevel

/-! ## What matters for a level -/

section Congr

variable {labels labels' : Labels} {os os' : Objects} {place as : List Nat}

theorem Objects.Alike.map_row (halike : Objects.Alike place labels os labels' os') (hos : Objects.Placed labels os)
    (has : ∀ a ∈ as, labels.At place a) (depth : Nat) : as.map (os'.row depth) = as.map (os.row depth) :=
  List.map_congr_left fun a ha => hos.row_congr halike.same depth (has a ha)

theorem ObjectTask.Mirrors.congr {key : String} {t : ObjectTask} {t' : Task}
    (h : ObjectTask.Mirrors labels os place as key t t') (hat : ∀ b, labels.At place b → labels'.At place b)
    (hfoundSame : ∀ b, labels.At place b → os'[b]? = os[b]?)
    (hcells : ∀ a ∈ as, ∀ o, os[a]? = some o → ∃ o', os'[a]? = some o' ∧ o'.lookup key = o.lookup key) :
    ObjectTask.Mirrors labels' os' place as key t t' := by
  cases h with
  | waiting => exact .waiting
  | running hload => exact .running hload
  | calling hnext => exact .calling hnext
  | failed f => exact .failed f
  | linked hattaches hfound =>
    refine .linked (hattaches.congr hat hcells) fun i row hrow => ?_
    have hi := (List.getElem?_eq_some_iff.mp hrow).1
    exact (hfoundSame _ (hattaches.found i hi)).trans (hfound i row hrow)

namespace ObjectLevel

theorem Loads.congr {nodes : List PlanNode} {tasks : List ObjectTask} {rows : List Row} {tasks' : List Task}
    (h : Loads labels os place nodes as tasks rows tasks') (halike : Objects.Alike place labels os labels' os')
    (hos : Objects.Placed labels os) : Loads labels' os' place nodes as tasks rows tasks' where
  distinct := h.distinct
  holders := h.holders.congr halike
  bottom rest a ha := h.bottom rest a ((halike.at_iff rest a).mp ha)
  flat i a o ha ho := by
    have hat := (halike.at_iff [i] a).mp ha
    exact h.flat i a o hat ((halike.same [i] a hat).symm.trans ho)
  rows_eq := (halike.map_row hos h.holders.placed 1).trans h.rows_eq
  length_eq := h.length_eq
  length_eq' := h.length_eq'
  mirrors i n t t' hn ht ht' := by
    refine (h.mirrors i n t t' hn ht ht').congr (fun b hb => (halike.at_iff [i] b).mpr hb)
      (fun b hb => halike.same [i] b hb) fun a ha o ho => ⟨o, ?_, rfl⟩
    exact (halike.getElem?_eq (h.holders.placed a ha)).trans ho

/-- What the loads of a level have written stays as long as its objects do. -/
theorem Nests.congr {nodes : List PlanNode} {rows : List Row} {loaded : List Loaded} {base : Nat → Nat}
    (h : Nests labels os place nodes as rows loaded base) (hself : ∀ a, labels.At place a → labels'.At place a)
    (hbelow : ∀ i a, labels.At (place ++ [i]) a → labels'.At (place ++ [i]) a) (hsame : ∀ a ∈ as, os'[a]? = os[a]?) :
    Nests labels' os' place nodes as rows loaded base where
  nodes_eq := h.nodes_eq
  distinct := h.distinct
  holders := {
    nodup := h.holders.nodup
    placed := fun a ha => hself a (h.holders.placed a ha)
    tidy := fun a ha o ho => h.holders.tidy a ha o ((hsame a ha).symm.trans ho) }
  rows_eq := by
    obtain ⟨table, hrows⟩ := h.rows_eq
    refine ⟨table, hrows.trans (List.map_congr_left fun a ha => ?_)⟩
    rw [hsame a ha]
  attaches i n hn := (h.attaches i n hn).congr_of_eq (hbelow i) hsame

/-- Only the objects at the place of a level, or below, matter for it. -/
theorem Mirrors.congr {lvl : ObjectLevel} {st : LevelState} (h : Mirrors labels os place as lvl st)
    (halike : Objects.Alike place labels os labels' os') (hos : Objects.Placed labels os) :
    Mirrors labels' os' place as lvl st := by
  induction h with
  | loading hnodes h => exact .loading hnodes (h.congr halike hos)
  | nesting h hlen hlen' _ ih =>
    refine .nesting (h.congr (fun a => halike.at.mpr) (fun i a => (halike.at_iff [i] a).mpr) fun a ha => ?_) hlen hlen'
      fun i n b b' hn hb hb' => ih i n b b' hn hb hb' (halike.below i)
    exact halike.getElem?_eq (h.holders.placed a ha)
  | failed f => exact .failed f
  | finished hplaced depth hrows =>
    refine .finished (fun a ha => halike.at.mpr (hplaced a ha)) depth fun d hd => ?_
    exact (halike.map_row hos hplaced d).trans (hrows d hd)

end ObjectLevel

end Congr

end RelatedRows

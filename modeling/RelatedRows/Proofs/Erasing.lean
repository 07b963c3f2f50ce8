import RelatedRows.Proofs.Tables

/-!
# Plans without column options

Which columns of the related rows are shown has no influence on which rows are related.

* `Plan.erase`: a plan in which every node keeps all columns.
* `PlanNode.Narrows a a'`: two attachments with the same links, where the rows of the first have a part of the columns.
* `PlanNode.attach_erase`: over a database, a node attaches the same rows with its column options and without them.
-/

namespace RelatedRows

/-! ## Erasing -/

/-- A step that keeps all columns. -/
def Inclusion.whole (s : Inclusion) : Inclusion :=
  { s with options := { s.options with select := none, exclude := none } }

mutual
def Plan.erase : Plan → Plan
  | .mk entity depth nodes pruned => .mk entity depth (eraseNodes nodes) pruned

def eraseNodes : List PlanNode → List PlanNode
  | [] => []
  | n :: ns => n.erase :: eraseNodes ns

def PlanNode.erase : PlanNode → PlanNode
  | .leaf s => .leaf s.whole
  | .branch s p => .branch s.whole p.erase
end

theorem eraseNodes_eq (ns : List PlanNode) : eraseNodes ns = ns.map PlanNode.erase := by
  induction ns with
  | nil => rfl
  | cons n ns ih => rw [eraseNodes, ih, List.map_cons]

@[simp] theorem Plan.entity_erase (p : Plan) : p.erase.entity = p.entity := by
  cases p
  rfl

@[simp] theorem Plan.nodes_erase (p : Plan) : p.erase.nodes = p.nodes.map PlanNode.erase := by
  cases p
  exact eraseNodes_eq _

namespace PlanNode

@[simp] theorem step_erase (n : PlanNode) : n.erase.step = n.step.whole := by
  cases n <;> rfl

@[simp] theorem key_erase (n : PlanNode) : n.erase.key = n.key := by
  cases n <;> rfl

@[simp] theorem relation_erase (n : PlanNode) : n.erase.step.relation = n.step.relation := by
  cases n <;> rfl

/-- Without column options, nothing is trimmed. -/
theorem trim_erase (n : PlanNode) (row : Row) : n.erase.trim row = row := by
  have hkeeps : n.erase.keeps = fun _ => true := by
    funext c
    cases n <;> simp [keeps, erase, Inclusion.whole]
  rw [trim, hkeeps]
  exact List.filter_true row

end PlanNode

theorem Plan.KeysApart.erase {p : Plan} (h : p.KeysApart) : p.erase.KeysApart := by
  rw [KeysApart, nodes_erase, List.pairwise_map]
  refine h.imp fun {n m} hnm => ?_
  rw [PlanNode.Apart, PlanNode.key_erase, PlanNode.key_erase, PlanNode.relation_erase, PlanNode.relation_erase]
  exact hnm

/-! ## Queries for all columns -/

/-- A query for all columns. -/
def BatchQuery.whole (q : BatchQuery) : BatchQuery :=
  { q with columns := none }

namespace Stitch

variable (g : Graph) (n : PlanNode) (keys : List Key)

theorem oneQuery_erase : oneQuery n.erase keys = (oneQuery n keys).whole := by
  cases n <;> rfl

theorem manyQuery_erase : manyQuery g n.erase keys = (manyQuery g n keys).whole := by
  cases n <;> rfl

theorem joinQuery_erase (j : String) : joinQuery n.erase j keys = joinQuery n j keys := by
  cases n <;> rfl

theorem targetQuery_erase : targetQuery g n.erase keys = (targetQuery g n keys).whole := by
  cases n <;> rfl

end Stitch

theorem Memory.found_eq_whole (m : Memory) (q : BatchQuery) :
    m.found q = (m.found q.whole).map (project q.columns) := by
  rw [found, found, List.map_map]
  rfl

/-! ## Rows with the same keys -/

section Keys

variable {columns : List String} {rows rows' : List Row}

theorem map_keyOf_congr (h : rows.map (Row.spelling columns) = rows'.map (Row.spelling columns)) :
    rows.map (Row.keyOf columns) = rows'.map (Row.keyOf columns) := by
  have hkey (rows : List Row) : rows.map (Row.keyOf columns) = (rows.map (Row.spelling columns)).map fun k =>
      if k.any Value.isNull then none else some ⟨k.map Value.atomOf, k⟩ := by
    rw [List.map_map]
    rfl
  rw [hkey, h, ← hkey]

theorem map_identity_congr (h : rows.map (Row.spelling columns) = rows'.map (Row.spelling columns)) :
    rows.map (Row.identity columns) = rows'.map (Row.identity columns) := by
  have hid (rows : List Row) : rows.map (Row.identity columns) =
      (rows.map (Row.keyOf columns)).map (Option.map RowKey.identity) := by
    rw [List.map_map]
    rfl
  rw [hid, map_keyOf_congr h, ← hid]

end Keys

/-! ## Links over projected rows -/

section Links

variable {columns : List String} {f : Row → Row} (hf : ∀ row, (f row).identity columns = row.identity columns)

include hf

theorem oneLink_map (found : List Row) (k : Option (List Atom)) :
    oneLink columns (found.map f) k = oneLink columns found k := by
  cases k with
  | none => rfl
  | some k => rw [oneLink, Option.bind_some, List.findIdx?_map, hasKey_comp hf, oneLink, Option.bind_some]

theorem manyLink_map (o : Options) (found : List Row) (k : Option (List Atom)) :
    manyLink columns o (found.map f) k = manyLink columns o found k := by
  cases k with
  | none => rfl
  | some k =>
    have hpositions : ((found.map f).zipIdx.filter fun r => r.1.hasKey columns k).map Prod.snd =
        (found.zipIdx.filter fun r => r.1.hasKey columns k).map Prod.snd := by
      rw [List.zipIdx_map, List.filter_map, List.map_map]
      have hsame : (fun r : Row × Nat => r.1.hasKey columns k) ∘ Prod.map f id = fun r => r.1.hasKey columns k :=
        funext fun r => congrFun (hasKey_comp hf k) r.1
      rw [hsame]
      rfl
    simp only [manyLink, Option.elim_some, hpositions]

end Links

theorem joinedLink_map {n : PlanNode} {f : Row → Row}
    (hf : ∀ row, (f row).identity n.step.relation.targetKey = row.identity n.step.relation.targetKey)
    (joins targets : List Row) (k : Option (List Atom)) :
    joinedLink n joins (targets.map f) k = joinedLink n joins targets k := by
  have harranged : n.arranged (targets.map f) (n.targetsOf joins k) = n.arranged targets (n.targetsOf joins k) := by
    have hpart : n.arranged ((targets.filter fun _ => true).map f) (n.targetsOf joins k) =
        n.arranged targets (n.targetsOf joins k) := arranged_part hf fun _ _ _ _ _ => rfl
    rwa [List.filter_true] at hpart
  rw [joinedLink, harranged, joinedLink]
  exact congrArg _ (List.map_congr_left fun k _ => placeOf_map hf targets k)

/-! ## Attachments -/

namespace PlanNode

/-- Two attachments with the same links; the first one has of each row only the columns that the node fetches. -/
structure Narrows (n : PlanNode) (a a' : Attachment) : Prop where
  links : a.links = a'.links
  found : a.found = a'.found.map (project (n.fetched n.step.relation.targetKey))
  sound : a'.Sound

variable {m : Memory} {g : Graph} {n : PlanNode} {rows rows' : List Row}

theorem Narrows.of_link {found found' : List Row} {link : Option (List Atom) → Link}
    (hfound : found = found'.map (project (n.fetched n.step.relation.targetKey)))
    (hsound : ∀ k, ∀ i ∈ (link k).positions, i < found'.length)
    (h : rows.map (Row.spelling n.step.relation.sourceKey) = rows'.map (Row.spelling n.step.relation.sourceKey)) :
    n.Narrows ⟨found, rows.map fun row => link (row.identity n.step.relation.sourceKey)⟩
      ⟨found', rows'.map fun row => link (row.identity n.step.relation.sourceKey)⟩ where
  links := by
    have hlinks (rows : List Row) : rows.map (fun row => link (row.identity n.step.relation.sourceKey)) =
        (rows.map (Row.identity n.step.relation.sourceKey)).map link := by
      rw [List.map_map]
      rfl
    show rows.map _ = rows'.map _
    rw [hlinks, map_identity_congr h, ← hlinks]
  found := hfound
  sound := by
    intro l hl
    obtain ⟨row, -, rfl⟩ := List.mem_map.mp hl
    exact hsound _

theorem attach_eq_error {answer : BatchQuery → Answer} {f : Fault}
    (hkeys : Stitch.keyBatchOf n.step.relation.sourceKey rows = .error f)
    (hjoin : n.step.relation.kind = .manyViaJoin → ∃ j, n.step.relation.joinEntity = some j) :
    n.attach answer g rows = .error f := by
  unfold attach load
  cases hkind : n.step.relation.kind with
  | one => simp only [Stitch.loadOne, hkeys, Dialogue.eval]; rfl
  | many => simp only [Stitch.loadMany, hkeys, Dialogue.eval]; rfl
  | manyViaJoin =>
    obtain ⟨j, hj⟩ := hjoin hkind
    simp only [Stitch.loadManyViaJoin, hj, hkeys, Dialogue.eval]
    rfl

theorem attach_of_noJoinEntity {answer : BatchQuery → Answer} (hkind : n.step.relation.kind = .manyViaJoin)
    (hjoin : n.step.relation.joinEntity = none) :
    n.attach answer g rows = .error (.noJoinEntity n.step.relation.name) := by
  unfold attach load
  rw [hkind]
  simp only [Stitch.loadManyViaJoin, hjoin, Dialogue.eval]
  rfl

theorem keyable_found (hserves : m.Serves Value.isScalar n.step.relation) {q : BatchQuery}
    (htable : q.table = n.step.relation.target) : ∀ row ∈ m.found q, row.Keyable n.step.relation.targetKey := by
  intro row hrow
  obtain ⟨t, ht, rfl⟩ := Memory.of_mem_found hrow
  exact ((hserves.allAt_target (htable ▸ ht)).project rfl _).keyable

section Attach

variable (hserves : m.Serves Value.isScalar n.step.relation)
  (h : rows.map (Row.spelling n.step.relation.sourceKey) = rows'.map (Row.spelling n.step.relation.sourceKey))
  (hrows : ∀ row ∈ rows, row.Keyable n.step.relation.sourceKey)
  (hrows' : ∀ row ∈ rows', row.Keyable n.step.relation.sourceKey)

include h in
theorem keys_erase : n.erase.keys rows' = n.keys rows := by
  rw [keys, keys, relation_erase, map_keyOf_congr h]

include hserves h hrows hrows'

theorem attach_erase_one (hkind : n.step.relation.kind = .one) :
    Except.Agree n.Narrows (n.attach m.answers g rows) (n.erase.attach m.answers g rows') := by
  let q := Stitch.oneQuery n (n.keys rows)
  have hq : Stitch.oneQuery n.erase (n.erase.keys rows') = q.whole := by rw [Stitch.oneQuery_erase, keys_erase h]
  have hnarrow : n.attach m.answers g rows = _ :=
    attach_one hkind hrows (Memory.answered_found (q := q) hserves.target) (keyable_found hserves rfl)
  have hwhole : n.erase.attach m.answers g rows' = _ :=
    attach_one (by rwa [relation_erase]) (by rwa [relation_erase])
      (by rw [hq]; exact Memory.answered_found hserves.target)
      (by rw [relation_erase]; exact keyable_found hserves rfl)
  have hlink : oneLink n.step.relation.targetKey (m.found q) = oneLink n.step.relation.targetKey (m.found q.whole) := by
    funext k
    rw [Memory.found_eq_whole]
    exact oneLink_map (identity_fetched _) _ _
  rw [hnarrow, hwhole, hlink]
  simp only [relation_erase]
  exact .ok (.of_link (m.found_eq_whole q) (fun k i => lt_of_mem_oneLink _) h)

theorem attach_erase_many (hkind : n.step.relation.kind = .many) :
    Except.Agree n.Narrows (n.attach m.answers g rows) (n.erase.attach m.answers g rows') := by
  let q := Stitch.manyQuery g n (n.keys rows)
  have hq : Stitch.manyQuery g n.erase (n.erase.keys rows') = q.whole := by
    rw [Stitch.manyQuery_erase, keys_erase h]
  have hnarrow : n.attach m.answers g rows = _ :=
    attach_many hkind hrows (Memory.answered_found (q := q) hserves.target) (keyable_found hserves rfl)
  have hwhole : n.erase.attach m.answers g rows' = _ :=
    attach_many (by rwa [relation_erase]) (by rwa [relation_erase])
      (by rw [hq]; exact Memory.answered_found hserves.target)
      (by rw [relation_erase]; exact keyable_found hserves rfl)
  have hlink : manyLink n.step.relation.targetKey n.step.options (m.found q) =
      manyLink n.step.relation.targetKey n.erase.step.options (m.found q.whole) := by
    funext k
    rw [Memory.found_eq_whole, step_erase]
    exact manyLink_map (identity_fetched _) _ _ _
  rw [hnarrow, hwhole, hlink]
  simp only [relation_erase]
  exact .ok (.of_link (m.found_eq_whole q) (fun k i => lt_of_mem_manyLink _ _) h)

theorem attach_erase_manyViaJoin {j : String} (hkind : n.step.relation.kind = .manyViaJoin)
    (hjoin : n.step.relation.joinEntity = some j) :
    Except.Agree n.Narrows (n.attach m.answers g rows) (n.erase.attach m.answers g rows') := by
  let joins := m.found (Stitch.joinQuery n j (n.keys rows))
  let q := Stitch.targetQuery g n (Stitch.keyBatch (joins.map (Row.keyOf n.step.relation.joinTargetKey)))
  have hjoins : ∀ row ∈ joins,
      row.Keyable n.step.relation.joinSourceKey ∧ row.Keyable n.step.relation.joinTargetKey := by
    intro row hrow
    obtain ⟨t, ht, rfl⟩ := Memory.of_mem_found hrow
    have hscalar := hserves.allAt_join hjoin ht
    exact ⟨(hscalar.1.project rfl _).keyable, (hscalar.2.project rfl _).keyable⟩
  have hanswered : Answered m.answers (Stitch.joinQuery n j (n.keys rows)) joins :=
    Memory.answered_found (hserves.join j hjoin)
  have hnarrow : n.attach m.answers g rows = _ :=
    attach_manyViaJoin hkind hjoin hrows hanswered hjoins (Memory.answered_found (q := q) hserves.target)
      (keyable_found hserves rfl)
  have hwhole : n.erase.attach m.answers g rows' = _ :=
    attach_manyViaJoin (by rwa [relation_erase]) (by rwa [relation_erase])
      (by rwa [relation_erase]) (by rw [Stitch.joinQuery_erase, keys_erase h]; exact hanswered)
      (by rw [relation_erase]; exact hjoins)
      (by rw [relation_erase, Stitch.targetQuery_erase]; exact Memory.answered_found hserves.target)
      (by rw [relation_erase]; exact keyable_found hserves rfl)
  have hlink : joinedLink n joins (m.found q) = joinedLink n.erase joins (m.found q.whole) := by
    funext k
    rw [Memory.found_eq_whole]
    refine (joinedLink_map (identity_fetched _) _ _ _).trans ?_
    cases n <;> rfl
  rw [hnarrow, hwhole, hlink]
  simp only [relation_erase]
  exact .ok (.of_link (m.found_eq_whole q) (fun k i => lt_of_mem_joinedLink) h)

end Attach

/-- A node attaches the same rows with its column options and without them. -/
theorem attach_erase (hserves : m.Serves Value.isScalar n.step.relation)
    (h : rows.map (Row.spelling n.step.relation.sourceKey) = rows'.map (Row.spelling n.step.relation.sourceKey)) :
    Except.Agree n.Narrows (n.attach m.answers g rows) (n.erase.attach m.answers g rows') := by
  by_cases hjoin : n.step.relation.kind = .manyViaJoin → ∃ j, n.step.relation.joinEntity = some j
  · cases hkeys : Stitch.keyBatchOf n.step.relation.sourceKey rows with
    | error f =>
      have hkeys' : Stitch.keyBatchOf n.erase.step.relation.sourceKey rows' = .error f := by
        rw [relation_erase, ← Stitch.keyBatchOf_congr h, hkeys]
      rw [attach_eq_error hkeys hjoin, attach_eq_error hkeys' (by rwa [relation_erase])]
      exact .error f
    | ok keys =>
      have hrows := Stitch.keyable_of_keyBatchOf hkeys
      have hrows' : ∀ row ∈ rows', row.Keyable n.step.relation.sourceKey :=
        Stitch.keyable_of_keyBatchOf ((Stitch.keyBatchOf_congr h).symm.trans hkeys)
      cases hkind : n.step.relation.kind with
      | one => exact attach_erase_one hserves h hrows hrows' hkind
      | many => exact attach_erase_many hserves h hrows hrows' hkind
      | manyViaJoin =>
        obtain ⟨j, hj⟩ := hjoin hkind
        exact attach_erase_manyViaJoin hserves h hrows hrows' hkind hj
  · rw [Classical.not_imp] at hjoin
    have hnone : n.step.relation.joinEntity = none := Option.eq_none_iff_forall_ne_some.mpr fun j hj => hjoin.2 ⟨j, hj⟩
    rw [attach_of_noJoinEntity hjoin.1 hnone,
      attach_of_noJoinEntity (by rw [relation_erase]; exact hjoin.1) (by rw [relation_erase]; exact hnone),
      relation_erase]
    exact .error _

end PlanNode

end RelatedRows

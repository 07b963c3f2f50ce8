import RelatedRows.Proofs.Asked
import RelatedRows.Proofs.Roots
import RelatedRows.Proofs.Scanning

/-!
# The failure that surfaces

Which failure stitching ends with, if the store fails for some queries.

* `Dialogue.failure?`, `PlanNode.fault?`: the failure of one load.
* `Plan.firstFault answer g p rows`: the first failing node of a level, and otherwise the first failure among the levels
  below, in the order of the plan.
* `Replies`: a store that answers by rows with scalar keys or by an exception.
* `PlanNode.settling_load`: over such stores, a load ends with the first failure that it hears, or links rows.
* `stitch_failure`: stitching raises the first failure, and it does so if any query that it puts fails.
-/

namespace RelatedRows

/-- The failure that ends a dialogue, if one of its queries fails. -/
def Dialogue.failure? {α : Type} (answer : BatchQuery → Answer) : Dialogue α → Option Failure
  | .done _ => none
  | .ask q next =>
    match answer q with
    | .error f => some f
    | .ok v => (next (.ok v)).failure? answer

section Faults

variable (answer : BatchQuery → Answer) (g : Graph)

/-- The failure of the load of a node, with the place of the node. -/
def PlanNode.fault? (n : PlanNode) (rows : List Row) : Option Fault :=
  ((n.load g rows).failure? answer).map (.query n.step.relation.source n.step.key n.step.depth)

/-- The failure of a level; `below` gives that of the levels below, which are not reached if a node fails. -/
def levelFault (nodes : List PlanNode) (rows : List Row) (below : List Attachment → Option Fault) : Option Fault :=
  if rows.isEmpty then none
  else
    match nodes.findSome? (·.fault? answer g rows), nodes.mapM (PlanNode.attach answer g · rows) with
    | some f, _ => some f
    | none, .ok as => below as
    | none, .error _ => none

mutual
def Plan.firstFault : Plan → List Row → Option Fault
  | .mk _ _ nodes _, rows => levelFault answer g nodes rows (firstFaultBelow nodes)

/-- The first failure below some nodes and their attachments, in the order of the nodes. -/
def firstFaultBelow : List PlanNode → List Attachment → Option Fault
  | n :: ns, a :: as => (n.firstFault a.attached).or (firstFaultBelow ns as)
  | _, _ => none

def PlanNode.firstFault : PlanNode → List Row → Option Fault
  | .leaf _, _ => none
  | .branch _ p, rows => p.firstFault rows
end

theorem Plan.firstFault_eq (p : Plan) (rows : List Row) :
    p.firstFault answer g rows = levelFault answer g p.nodes rows (firstFaultBelow answer g p.nodes) := by
  cases p
  rw [firstFault]
  rfl

theorem firstFaultBelow_eq (ns : List PlanNode) (as : List Attachment) :
    firstFaultBelow answer g ns as = (ns.zip as).findSome? fun n => n.1.firstFault answer g n.2.attached := by
  induction ns generalizing as with
  | nil => rfl
  | cons n ns ih =>
    cases as with
    | nil => rfl
    | cons a as =>
      rw [firstFaultBelow, ih, List.zip_cons_cons, List.findSome?_cons]
      cases n.firstFault answer g a.attached with
      | none => simp only [Option.none_or]
      | some f => simp only [Option.some_or]

/-- A dialogue fails if one of the queries that it puts does. -/
theorem Dialogue.exists_failing_iff {α : Type} (d : Dialogue α) :
    (∃ q ∈ d.asked answer, ∃ f, answer q = .error f) ↔ ∃ f, d.failure? answer = some f := by
  induction d with
  | done a => simp [asked, failure?]
  | ask q next ih =>
    rw [asked, failure?]
    cases hq : answer q with
    | error f => exact iff_of_true ⟨q, List.mem_cons_self, f, hq⟩ ⟨f, rfl⟩
    | ok v =>
      rw [← ih]
      constructor
      · rintro ⟨q', hq', f, hf⟩
        rcases List.mem_cons.mp hq' with rfl | hq'
        · rw [hq] at hf
          cases hf
        · exact ⟨q', hq', f, hf⟩
      · rintro ⟨q', hq', f, hf⟩
        exact ⟨q', List.mem_cons_of_mem _ hq', f, hf⟩

/-- A load fails if one of the queries fails that it puts. -/
theorem PlanNode.exists_failing_iff (n : PlanNode) (path : List String) (rows : List Row) :
    (∃ a ∈ n.asks answer g path rows, ∃ f, answer a.2 = .error f) ↔ ∃ f, n.fault? answer g rows = some f := by
  have hdialogue := Dialogue.exists_failing_iff answer (n.load g rows)
  simpa [asks, fault?] using hdialogue

end Faults

/-- Some element of joined lists has a property if one of the lists is known to have such an element. -/
theorem exists_flatMap_iff {ι α φ : Type} {xs : List ι} {l : ι → List α} {P : α → Prop} {fault : ι → Option φ}
    (h : ∀ x ∈ xs, (∃ a ∈ l x, P a) ↔ ∃ f, fault x = some f) :
    (∃ a ∈ xs.flatMap l, P a) ↔ ∃ f, xs.findSome? fault = some f := by
  constructor
  · rintro ⟨a, ha, hP⟩
    obtain ⟨x, hx, ha⟩ := List.mem_flatMap.mp ha
    obtain ⟨f, hf⟩ := (h x hx).mp ⟨a, ha, hP⟩
    rw [← Option.isSome_iff_exists, List.findSome?_isSome_iff]
    exact ⟨x, hx, Option.isSome_iff_exists.mpr ⟨f, hf⟩⟩
  · rintro ⟨f, hf⟩
    obtain ⟨x, hx, hxf⟩ := List.exists_of_findSome?_eq_some hf
    obtain ⟨a, ha, hP⟩ := (h x hx).mpr ⟨f, hxf⟩
    exact ⟨a, List.mem_flatMap.mpr ⟨x, hx, ha⟩, hP⟩

/-! ## Loads that only the store can fail -/

/-- A load that ends with the failure of the first query that fails, and otherwise links rows in a way that satisfies
`P`. -/
inductive Dialogue.Settles (answer : BatchQuery → Answer) (step : Inclusion) (P : Linking → Prop) : Load → Prop
  | linked {l : Linking} (h : P l) : Settles answer step P (.done (.ok l))
  | failed {q : BatchQuery} {next : Answer → Load} {f : Failure} (h : answer q = .error f)
    (hnext : next (.error f) = .done (.error (.query step.relation.source step.key step.depth f))) :
    Settles answer step P (.ask q next)
  | answered {q : BatchQuery} {next : Answer → Load} {v : Value} (h : answer q = .ok v)
    (hnext : Settles answer step P (next (.ok v))) : Settles answer step P (.ask q next)

/-- A load that ends with the first failure that it hears, and otherwise links rows in a way that satisfies `P`,
whichever of the possible answers it gets. -/
inductive Dialogue.Settling (possible : BatchQuery → Answer → Prop) (step : Inclusion) (P : Linking → Prop) :
    Load → Prop
  | linked {l : Linking} (h : P l) : Settling possible step P (.done (.ok l))
  | ask {q : BatchQuery} {next : Answer → Load}
    (hfail : ∀ f, possible q (.error f) →
      next (.error f) = .done (.error (.query step.relation.source step.key step.depth f)))
    (hnext : ∀ v, possible q (.ok v) → Settling possible step P (next (.ok v))) : Settling possible step P (.ask q next)

theorem Dialogue.Settling.settles {answer : BatchQuery → Answer} {step : Inclusion} {P Q : Linking → Prop} {d : Load}
    (h : d.Settling (fun q a => answer q = a) step P) (hPQ : ∀ l, P l → Q l) : d.Settles answer step Q := by
  induction h with
  | linked h => exact .linked (hPQ _ h)
  | @ask q next hfail _ ih =>
    cases hq : answer q with
    | error f => exact .failed hq (hfail f hq)
    | ok v => exact .answered hq (ih v hq)

theorem Dialogue.Settles.eval {answer : BatchQuery → Answer} {step : Inclusion} {P : Linking → Prop} {d : Load}
    (h : d.Settles answer step P) :
    (∃ f, d.failure? answer = some f ∧
      d.eval answer = .error (.query step.relation.source step.key step.depth f)) ∨
    (d.failure? answer = none ∧ ∃ l, d.eval answer = .ok l ∧ P l) := by
  induction h with
  | linked h => exact .inr ⟨rfl, _, rfl, h⟩
  | @failed q next f h hnext =>
    refine .inl ⟨f, ?_, ?_⟩
    · rw [failure?, h]
    · rw [Dialogue.eval, h, hnext]
      rfl
  | answered h hnext ih =>
    rw [failure?, Dialogue.eval, h]
    exact ih

/-- Whether a store answers every query by an exception or by rows with scalars in the key columns of the table. -/
def Replies (answer : BatchQuery → Answer) (uses : List (String × List String)) : Prop :=
  ∀ q, (∃ f, answer q = .error f ∧ f.kind ≠ .cancelled) ∨
    ∃ found, answer q = .ok (.rows found) ∧
      ∀ use ∈ uses, use.1 = q.table → ∀ row ∈ found, row.AllAt Value.isScalar use.2

/-- Whether all possible answers are failures or rows with scalars in the key columns of the table. -/
def RepliesAmong (possible : BatchQuery → Answer → Prop) (uses : List (String × List String)) : Prop :=
  ∀ q a, possible q a → (∃ f, a = .error f ∧ f.kind ≠ .cancelled) ∨
    ∃ found, a = .ok (.rows found) ∧
      ∀ use ∈ uses, use.1 = q.table → ∀ row ∈ found, row.AllAt Value.isScalar use.2

theorem Replies.among {answer : BatchQuery → Answer} {uses : List (String × List String)} (h : Replies answer uses) :
    RepliesAmong (fun q a => answer q = a) uses := by
  rintro q _ rfl
  exact h q

/-- The columns that the relations of a plan use as keys, with their tables. -/
def Plan.keyUses (p : Plan) : List (String × List String) :=
  p.levels.flatMap fun q => q.nodes.flatMap fun n => Graph.keyColumns n.step.relation

/-- A linking that can be carried out for some rows, and finds rows with scalar keys. -/
structure PlanNode.Links (n : PlanNode) (uses : List (String × List String)) (rows : List Row) (l : Linking) :
    Prop where
  attachment : ∃ a, l.attachment rows = .ok a
  found : ∀ use ∈ uses, use.1 = n.step.relation.target → ∀ row ∈ l.found, row.AllAt Value.isScalar use.2

/-- A linking that can be carried out for all rows that may have keys, and finds rows with scalar keys. -/
structure PlanNode.LinksAny (n : PlanNode) (uses : List (String × List String)) (l : Linking) : Prop where
  attachment : ∀ rows : List Row, (∀ row ∈ rows, row.Keyable n.step.relation.sourceKey) →
    ∃ a, l.attachment rows = .ok a
  found : ∀ use ∈ uses, use.1 = n.step.relation.target → ∀ row ∈ l.found, row.AllAt Value.isScalar use.2

section Loads

variable {possible : BatchQuery → Answer → Prop} {g : Graph} {n : PlanNode} {uses : List (String × List String)}
  {rows : List Row}

open Stitch

/-- A query of a node, whatever is done with the rows that come back. -/
theorem RepliesAmong.settling_ask (hamong : RepliesAmong possible uses) {P : Linking → Prop} {step : Inclusion}
    {q : BatchQuery} {use : String × List String} {columns : List String}
    {k : Except Fault (List KeyedRow) → Load} (huse : use ∈ uses) (htable : use.1 = q.table)
    (hcolumns : columns ⊆ use.2) (hfail : ∀ f, k (.error f) = .done (.error f))
    (hnext : ∀ found, (∀ use ∈ uses, use.1 = q.table → ∀ row ∈ found, row.AllAt Value.isScalar use.2) →
      (k (.ok (keyed columns found))).Settling possible step P) :
    Dialogue.Settling possible step P (.ask q fun a => k (keyedRows step columns a)) := by
  refine .ask (fun f hf => ?_) fun v hv => ?_
  · rcases hamong q _ hf with ⟨f', heq, hkind⟩ | ⟨found, heq, -⟩
    · cases heq
      have hanswered : keyedRows step columns (.error f) =
          .error (.query step.relation.source step.key step.depth f) := by
        rw [keyedRows, answered, if_neg hkind]
        rfl
      rw [hanswered, hfail]
    · cases heq
  · rcases hamong q _ hv with ⟨f, heq, -⟩ | ⟨found, heq, hscalar⟩
    · cases heq
    · cases heq
      have hkeyable : ∀ row ∈ found, row.Keyable columns := by
        intro row hrow
        have hall := hscalar use huse htable row hrow
        exact Row.AllAt.keyable fun c hc => hall c (hcolumns hc)
      rw [keyedRows_eq step hkeyable]
      exact hnext found hscalar

theorem linksAny_nothing (link : Link) {l : Linking} (hl : nothing link = .ok l) : n.LinksAny uses l := by
  cases hl
  refine ⟨fun rows _ => ⟨_, attachment_nothing link rows⟩, fun use _ _ row hrow => ?_⟩
  cases hrow

theorem linksAny_linkBy {found : List Row} {link : Option (List Atom) → Link}
    (hfound : ∀ use ∈ uses, use.1 = n.step.relation.target → ∀ row ∈ found, row.AllAt Value.isScalar use.2) :
    n.LinksAny uses (linkBy n.step.relation.sourceKey found link) :=
  ⟨fun _ hrows => ⟨_, attachment_linkBy hrows⟩, hfound⟩

/-- What a load through a join entity does with the join rows, or without them. -/
def afterJoins (g : Graph) (n : PlanNode) : Except Fault (List KeyedRow) → Load
  | .error f => .done (.error f)
  | .ok joins => loadTargets g n joins

variable (hamong : RepliesAmong possible uses) (huses : Graph.keyColumns n.step.relation ⊆ uses)

include hamong huses

theorem settling_loadTargets {joins : List Row} (hjoins : ∀ row ∈ joins, row.Keyable n.step.relation.joinSourceKey) :
    (loadTargets g n (keyed n.step.relation.joinTargetKey joins)).Settling possible n.step (n.LinksAny uses) := by
  have htarget : (n.step.relation.target, n.step.relation.targetKey) ∈ uses := huses (by simp [Graph.keyColumns])
  rw [loadTargets]
  split
  · exact .linked (linksAny_nothing _ rfl)
  · refine hamong.settling_ask
      (k := fun r => .done (r >>= linkJoined n (keyed n.step.relation.joinTargetKey joins))) htarget rfl
      (List.Subset.refl _) (fun f => rfl) fun found hfound => ?_
    show Dialogue.Settling _ _ _ (.done (linkJoined n _ _))
    rw [linkJoined_eq hjoins]
    exact .linked (linksAny_linkBy hfound)

variable (hrows : ∀ row ∈ rows, row.Keyable n.step.relation.sourceKey)

include hrows

theorem settling_loadOne : (loadOne n rows).Settling possible n.step (n.LinksAny uses) := by
  have htarget : (n.step.relation.target, n.step.relation.targetKey) ∈ uses := huses (by simp [Graph.keyColumns])
  rw [loadOne, keyBatchOf_eq hrows]
  split
  · next heq => cases heq
  · exact .linked (linksAny_nothing _ rfl)
  · next keys _ _ =>
    refine hamong.settling_ask (k := fun r => .done (r.map (linkOne n))) htarget rfl (List.Subset.refl _)
      (fun f => rfl) fun found hfound => .linked ?_
    rw [linkOne, rows_keyed]
    exact linksAny_linkBy hfound

theorem settling_loadMany : (loadMany g n rows).Settling possible n.step (n.LinksAny uses) := by
  have htarget : (n.step.relation.target, n.step.relation.targetKey) ∈ uses := huses (by simp [Graph.keyColumns])
  rw [loadMany, keyBatchOf_eq hrows]
  split
  · next heq => cases heq
  · exact .linked (linksAny_nothing _ rfl)
  · next keys _ _ =>
    refine hamong.settling_ask (k := fun r => .done (r.map (linkMany n))) htarget rfl (List.Subset.refl _)
      (fun f => rfl) fun found hfound => .linked ?_
    rw [linkMany, rows_keyed]
    exact linksAny_linkBy hfound

theorem settling_loadManyViaJoin {j : String} (hj : n.step.relation.joinEntity = some j) :
    (loadManyViaJoin g n rows).Settling possible n.step (n.LinksAny uses) := by
  have hjoin : (j, n.step.relation.joinSourceKey ++ n.step.relation.joinTargetKey) ∈ uses :=
    huses (by simp [Graph.keyColumns, hj])
  rw [loadManyViaJoin, hj]
  simp only [keyBatchOf_eq hrows]
  split
  · next heq => cases heq
  · exact .linked (linksAny_nothing _ rfl)
  · refine hamong.settling_ask (k := afterJoins g n) hjoin rfl (List.subset_append_right _ _) (fun f => rfl)
      fun joins hscalar => ?_
    refine settling_loadTargets hamong huses fun row hrow => Row.AllAt.keyable fun c hc => ?_
    exact hscalar _ hjoin rfl row hrow c (List.mem_append_left _ hc)

theorem PlanNode.settling_load
    (hjoin : n.step.relation.kind = .manyViaJoin → ∃ j, n.step.relation.joinEntity = some j) :
    (n.load g rows).Settling possible n.step (n.LinksAny uses) := by
  unfold PlanNode.load
  cases hkind : n.step.relation.kind with
  | one => exact settling_loadOne hamong huses hrows
  | many => exact settling_loadMany hamong huses hrows
  | manyViaJoin =>
    obtain ⟨j, hj⟩ := hjoin hkind
    exact settling_loadManyViaJoin hamong huses hrows hj

omit hamong

variable {answer : BatchQuery → Answer} (hreplies : Replies answer uses)

include hreplies

theorem PlanNode.settles_load
    (hjoin : n.step.relation.kind = .manyViaJoin → ∃ j, n.step.relation.joinEntity = some j) :
    (n.load g rows).Settles answer n.step (n.Links uses rows) :=
  (settling_load hreplies.among huses hrows hjoin).settles fun _ hl => ⟨hl.attachment rows hrows, hl.found⟩

/-- A node fails to attach anything just with the failure of its load. -/
theorem PlanNode.error?_attach
    (hjoin : n.step.relation.kind = .manyViaJoin → ∃ j, n.step.relation.joinEntity = some j) :
    Except.error? (n.attach answer g rows) = n.fault? answer g rows ∧
      ∀ a, n.attach answer g rows = .ok a → ∀ use ∈ uses, use.1 = n.step.relation.target →
        ∀ row ∈ a.attached, row.AllAt Value.isScalar use.2 := by
  rw [attach, fault?]
  rcases (settles_load (g := g) huses hrows hreplies hjoin).eval with ⟨f, hf, heval⟩ | ⟨hnone, l, heval, hlinks⟩
  · rw [hf, heval]
    exact ⟨rfl, fun a ha => by cases ha⟩
  · obtain ⟨a, ha⟩ := hlinks.attachment
    have hattach : Except.ok l >>= (·.attachment rows) = Except.ok (ε := Fault) a := ha
    rw [hnone, heval, hattach]
    refine ⟨rfl, fun b hb use huse htable row hrow => ?_⟩
    cases hb
    obtain ⟨links, -, heq⟩ := Except.bind_eq_ok ha
    cases heq
    exact hlinks.found use huse htable row (Attachment.mem_found_of_mem_attached hrow)

end Loads

/-! ## Plans -/

/-- A plan whose nodes fit their places, with keys that stand apart and come from known columns. -/
structure Plan.Suits (g : Graph) (uses : List (String × List String)) (p : Plan) : Prop where
  fits : p.Fits g
  apart : ∀ q ∈ p.levels, q.KeysApart
  uses : ∀ q ∈ p.levels, ∀ n ∈ q.nodes, Graph.keyColumns n.step.relation ⊆ uses

theorem Plan.Suits.below {g : Graph} {uses : List (String × List String)} {p q : Plan} {s : Inclusion}
    (h : p.Suits g uses) (hq : .branch s q ∈ p.nodes) : q.Suits g uses where
  fits := h.fits.below hq
  apart r hr := h.apart r (levels_subset hq hr)
  uses r hr := h.uses r (levels_subset hq hr)

theorem Plan.suits_keyUses {g : Graph} {p : Plan} (hfits : p.Fits g) (hapart : ∀ q ∈ p.levels, q.KeysApart) :
    p.Suits g p.keyUses where
  fits := hfits
  apart := hapart
  uses q hq n hn _ huse := List.mem_flatMap.mpr ⟨q, hq, List.mem_flatMap.mpr ⟨n, hn, huse⟩⟩

/-- Rows with scalars in all columns that the nodes of a level are stitched by. -/
def Plan.Scalar (p : Plan) (rows : List Row) : Prop :=
  ∀ row ∈ rows, ∀ n ∈ p.nodes, row.AllAt Value.isScalar n.step.relation.sourceKey

instance (p : Plan) (rows : List Row) : Decidable (p.Scalar rows) :=
  inferInstanceAs (Decidable (∀ row ∈ rows, _))

section Plans

variable {answer : BatchQuery → Answer} {g : Graph} {uses : List (String × List String)}
  (hg : ∀ r ∈ g.relations, r.Consistent) (hreplies : Replies answer uses)

include hg hreplies

/-- What the nodes of a level attach, and why they fail. -/
theorem Plan.Suits.error?_attach {p : Plan} (hp : p.Suits g uses) {rows : List Row} (hrows : p.Scalar rows) :
    ∀ n ∈ p.nodes, Except.error? (n.attach answer g rows) = n.fault? answer g rows ∧
      ∀ a, n.attach answer g rows = .ok a → ∀ q, n.nested? = some q → q.Scalar a.attached := by
  intro n hn
  have hfits := hp.fits p p.mem_levels_self n hn
  obtain ⟨herror, hscalar⟩ := PlanNode.error?_attach (g := g) (hp.uses p p.mem_levels_self n hn)
    (fun row hrow => (hrows row hrow n hn).keyable) hreplies (hg _ hfits.mem).exists_join
  refine ⟨herror, fun a ha q hq row hrow c hc => ?_⟩
  have hlevel : q ∈ p.levels := by
    cases n with
    | leaf s => cases hq
    | branch s q' =>
      cases hq
      exact levels_subset hn (mem_levels_self _)
  have hsource : c.step.relation.source = n.step.relation.target :=
    (hp.fits q hlevel c hc).source.trans (hfits.nested q hq)
  have huse : (c.step.relation.source, c.step.relation.sourceKey) ∈ uses :=
    hp.uses q hlevel c hc (by simp [Graph.keyColumns])
  exact hscalar a ha _ huse hsource row hrow

/-- Stitching fails with the first failure of the plan, and with nothing else. -/
theorem Plan.error?_nest {p : Plan} (hp : p.Suits g uses) {rows : List Row} (hrows : p.Scalar rows) :
    Except.error? (p.nest answer g rows) = p.firstFault answer g rows := by
  induction p using Plan.induction generalizing rows with
  | step p ih =>
    have hattach := hp.error?_attach hg hreplies hrows
    rw [p.firstFault_eq, levelFault]
    by_cases hempty : rows.isEmpty = true
    · rw [nest_of_isEmpty _ _ hempty, if_pos hempty]
      rfl
    have hfaults : p.nodes.findSome? (·.fault? answer g rows) =
        Except.error? (p.nodes.mapM (PlanNode.attach answer g · rows)) :=
      (Except.error?_mapM fun n hn => (hattach n hn).1).symm
    rw [nest_eq answer g (hp.apart p p.mem_levels_self) hempty, if_neg hempty, hfaults]
    cases has : p.nodes.mapM (PlanNode.attach answer g · rows) with
    | error f => rfl
    | ok as =>
      have hbelow : Except.error? (finishLevel answer g p.nodes rows as) =
          Except.error? ((p.nodes.zip as).mapM fun n => n.1.nest answer g n.2.attached) := by
        rw [finishLevel]
        exact Except.error?_map _ _
      show Except.error? (finishLevel answer g p.nodes rows as) = firstFaultBelow answer g p.nodes as
      rw [hbelow, firstFaultBelow_eq]
      refine Except.error?_mapM ?_
      rintro ⟨n, a⟩ hna
      have hn : n ∈ p.nodes := (List.of_mem_zip hna).1
      have ha := List.forall₂_zip (Except.mapM_eq_ok_iff.mp has) hna
      cases n with
      | leaf s => rfl
      | branch s q => exact ih s q hn (hp.below hn) ((hattach _ hn).2 a ha q rfl)

/-- Stitching fails if one of the queries fails that it puts. -/
theorem Plan.exists_failing_iff {p : Plan} (hp : p.Suits g uses) {rows : List Row} (hrows : p.Scalar rows)
    (path : List String) :
    (∃ a ∈ p.asked answer g path rows, ∃ f, answer a.2 = .error f) ↔ ∃ f, p.firstFault answer g rows = some f := by
  induction p using Plan.induction generalizing rows path with
  | step p ih =>
    have hattach := hp.error?_attach hg hreplies hrows
    rw [p.firstFault_eq, p.asked_eq, levelFault, askedLevel]
    by_cases hempty : rows.isEmpty = true
    · simp [hempty]
    rw [if_neg hempty, if_neg hempty]
    have hbelow : ∀ as, p.nodes.mapM (PlanNode.attach answer g · rows) = .ok as → ∀ na ∈ p.nodes.zip as,
        (∃ a ∈ na.1.asked answer g (path ++ [na.1.key]) na.2.attached, ∃ f, answer a.2 = .error f) ↔
          ∃ f, na.1.firstFault answer g na.2.attached = some f := by
      rintro as has ⟨n, a⟩ hna
      have hn : n ∈ p.nodes := (List.of_mem_zip hna).1
      have ha := List.forall₂_zip (Except.mapM_eq_ok_iff.mp has) hna
      cases n with
      | leaf s => simp [PlanNode.asked, PlanNode.firstFault]
      | branch s q => exact ih s q hn (hp.below hn) ((hattach _ hn).2 a ha q rfl) _
    have hfirst := Except.error?_mapM fun n hn => (hattach n hn).1
    have hown := exists_flatMap_iff fun n (_ : n ∈ p.nodes) => n.exists_failing_iff answer g path rows
    cases has : p.nodes.mapM (PlanNode.attach answer g · rows) with
    | error f =>
      rw [has] at hfirst
      obtain ⟨a, ha, hfails⟩ := hown.mpr ⟨f, hfirst.symm⟩
      rw [← hfirst]
      exact iff_of_true ⟨a, List.mem_append_left _ ha, hfails⟩ ⟨f, rfl⟩
    | ok as =>
      rw [has] at hfirst
      rw [← hfirst] at hown ⊢
      have hnone : ¬∃ a ∈ p.nodes.flatMap (·.asks answer g path rows), ∃ f, answer a.2 = .error f := by
        rw [hown]
        rintro ⟨f, hf⟩
        cases hf
      show (∃ a ∈ _ ++ askedBelow answer g p.nodes path as, _) ↔ ∃ f, firstFaultBelow answer g p.nodes as = some f
      rw [askedBelow_eq, firstFaultBelow_eq, ← exists_flatMap_iff (hbelow as has)]
      simp only [List.mem_append, or_and_right, exists_or]
      exact or_iff_right hnone

end Plans

/-! ## Whole runs -/

section Stitch

variable {entities : List Entity} {relations : List Relation} {g : Graph} {entity : String} {spec : Value}
  {maxDepth concurrency : Int} {p : Plan} {rows : List Row} {answer : BatchQuery → Answer} {σ : Type}
  {exec : Executor σ}

/-- Stitching raises the first failure in the order of the plan, level before level; it raises one if any query that it
puts fails; and it puts the queries of the plan, whichever of them fail. -/
theorem stitch_failure (hg : Graph.build entities relations = .ok g) (hp : compile g entity spec maxDepth = .ok p)
    (hapart : ∀ q ∈ p.levels, q.KeysApart) (hc : 1 ≤ concurrency) (hanswer : ∀ s q, (exec s (.batch q)).1 = answer q)
    (hreplies : Replies answer p.keyUses) (hrows : p.Scalar rows) (s : Session σ) :
    (∀ f, (stitch g exec concurrency entity p (.rows rows) s).1 = .error f ↔
        p.firstFault answer g rows = some f) ∧
      ((∃ f, (stitch g exec concurrency entity p (.rows rows) s).1 = .error f) ↔
        ∃ q ∈ (stitch g exec concurrency entity p (.rows rows) s).2.queriesAfter s, ∃ f, answer q = .error f) ∧
      ((stitch g exec concurrency entity p (.rows rows) s).2.askedAfter s).Perm (p.asked answer g [] rows) := by
  obtain ⟨hentity, hfits⟩ := fits_of_compile hp
  have hconsistent : ∀ r ∈ g.relations, r.Consistent := fun r => Graph.consistent_of_build hg
  have hsuits := Plan.suits_keyUses hfits hapart
  have hfault : ∀ f, (stitch g exec concurrency entity p (.rows rows) s).1 = .error f ↔
      p.firstFault answer g rows = some f := by
    intro f
    rw [stitch_eq_nest hanswer hc hentity, ← Except.error?_eq_some, Except.error?_map,
      Plan.error?_nest hconsistent hreplies hsuits hrows]
  have hasked : ((stitch g exec concurrency entity p (.rows rows) s).2.askedAfter s).Perm
      (p.asked answer g [] rows) := by
    rw [stitch_rows hc hentity]
    exact asked_stitchRows hanswer hapart rows s
  refine ⟨hfault, ?_, hasked⟩
  rw [exists_congr hfault, ← Plan.exists_failing_iff hconsistent hreplies hsuits hrows [], Session.queriesAfter_eq]
  simp only [List.mem_map, hasked.mem_iff]
  constructor
  · rintro ⟨a, ha, hfails⟩
    exact ⟨a.2, ⟨a, ha, rfl⟩, hfails⟩
  · rintro ⟨_, ⟨a, ha, rfl⟩, hfails⟩
    exact ⟨a, ha, hfails⟩

end Stitch

namespace Bookshelf

/-- Has one book, and does not answer any other query. -/
def booksOnly (q : Query) : Answer :=
  if q.table = "books" then .ok (.rows [[("id", .int 1), ("author_id", .int 1)]]) else .error ⟨.timeout, "no answer"⟩

theorem replies_booksOnly : Replies (fun q => booksOnly (.batch q)) plan.keyUses := by
  intro q
  by_cases h : q.table = "books"
  · refine .inr ⟨_, if_pos h, ?_⟩
    rw [h]
    decide +kernel
  · exact .inl ⟨_, if_neg h, by decide⟩

end Bookshelf

theorem stitch_failure_bookshelf :
    (stitch Bookshelf.graph (.ofFunction Bookshelf.booksOnly) 2 "authors" Bookshelf.plan
      (.rows [[("id", .int 1)]]) { store := () }).1 = .error (.query "books" "tags" 1 ⟨.timeout, "no answer"⟩) :=
  ((stitch_failure Bookshelf.build_graph Bookshelf.compile_request (by decide) (by decide) (fun _ _ => rfl)
    Bookshelf.replies_booksOnly (by decide +kernel) _).1 _).mpr (by decide +kernel)

end RelatedRows

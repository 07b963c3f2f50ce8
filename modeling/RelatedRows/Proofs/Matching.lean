import RelatedRows.Proofs.JoinedScans
import RelatedRows.Proofs.OwnLists

/-!
# Scanning for matching rows

What a relation without a join entity attaches to a row can be read off the rows that were found, by comparing the key
of each of them with the key of this row.

* `PlanNode.matching`: whether a found row belongs to a row.
* `Options.slice`: the rows at the positions that the options ask for.
* `LinksTo.attach`: objects that many rows are attached to have lists of their own.
* `PlanNode.load_matching`: a load attaches the matching rows, whatever the answer is.
-/

namespace RelatedRows

open Stitch

/-! ## Matching rows -/

section Matching

/-- Whether no value of the key of a row is missing and the found row has the same key. -/
def PlanNode.matching (n : PlanNode) (row target : Row) : Bool :=
  let source := row.spelling n.step.relation.sourceKey
  !source.any Value.isNull && sameKey source (target.spelling n.step.relation.targetKey)

theorem Value.atomOf_eq_nothing_iff {v : Value} (h : v.isScalar = true) : v.atomOf = .nothing ↔ v.isNull = true := by
  cases v <;> simp_all [atomOf, isNull, isScalar]

/-- Keys with a missing value are the same as no key without. -/
theorem sameKey_eq_false {k k' : Key} (h : ∀ v ∈ k, v.isScalar = true) (hk : k.any Value.isNull = false)
    (hk' : k'.any Value.isNull = true) : sameKey k k' = false := by
  rw [sameKey, decide_eq_false_iff_not]
  intro hatoms
  obtain ⟨v', hv', hnull⟩ := List.any_eq_true.mp hk'
  have hmem : v'.atomOf ∈ k.map Value.atomOf := hatoms ▸ List.mem_map_of_mem hv'
  obtain ⟨v, hv, hatom⟩ := List.mem_map.mp hmem
  have hnothing : v'.atomOf = .nothing := by
    cases v' <;> first | rfl | cases hnull
  rw [hnothing, Value.atomOf_eq_nothing_iff (h v hv)] at hatom
  exact absurd hatom (by simpa using List.any_eq_false.mp hk v hv)

theorem Row.AllAt.spelling {sort : Value → Bool} {columns : List String} {row : Row} (h : row.AllAt sort columns) :
    ∀ v ∈ row.spelling columns, sort v = true := by
  intro v hv
  obtain ⟨c, hc, rfl⟩ := List.mem_map.mp hv
  exact h c hc

variable {n : PlanNode} {row target : Row}

/-- Scanning for a row comes to looking for its key. -/
theorem PlanNode.matching_eq (hrow : row.AllAt Value.isScalar n.step.relation.sourceKey) :
    n.matching row = fun target =>
      (row.identity n.step.relation.sourceKey).any fun k => target.hasKey n.step.relation.targetKey k := by
  funext target
  cases hsource : (row.spelling n.step.relation.sourceKey).any Value.isNull with
  | true => simp [matching, hsource, Row.identity, Row.keyOf]
  | false =>
    cases htarget : (target.spelling n.step.relation.targetKey).any Value.isNull with
    | true =>
      have hother := sameKey_eq_false hrow.spelling hsource htarget
      simp [matching, hsource, Row.identity, Row.keyOf, Row.hasKey, htarget, hother]
    | false => simp [matching, hsource, Row.identity, Row.keyOf, Row.hasKey, htarget, sameKey, eq_comm]

/-- Rows with the same key match the same rows. -/
theorem PlanNode.matching_congr {row' : Row} (hrow : row.AllAt Value.isScalar n.step.relation.sourceKey)
    (hrow' : row'.AllAt Value.isScalar n.step.relation.sourceKey)
    (h : sameKey (row.spelling n.step.relation.sourceKey) (row'.spelling n.step.relation.sourceKey) = true) :
    n.matching row = n.matching row' := by
  have hatoms : (row.spelling n.step.relation.sourceKey).map Value.atomOf =
      (row'.spelling n.step.relation.sourceKey).map Value.atomOf := of_decide_eq_true h
  have hnull : (row.spelling n.step.relation.sourceKey).any Value.isNull =
      (row'.spelling n.step.relation.sourceKey).any Value.isNull := by
    cases hk : (row.spelling n.step.relation.sourceKey).any Value.isNull <;>
      cases hk' : (row'.spelling n.step.relation.sourceKey).any Value.isNull
    case false.true =>
      rw [sameKey_eq_false hrow.spelling hk hk'] at h
      cases h
    case true.false =>
      have hother := sameKey_eq_false hrow'.spelling hk' hk
      rw [sameKey, hatoms] at hother
      simp at hother
    all_goals rfl
  have hidentity : row.identity n.step.relation.sourceKey = row'.identity n.step.relation.sourceKey := by
    simp only [Row.identity, Row.keyOf, hnull, hatoms]
    split <;> rfl
  rw [matching_eq hrow, matching_eq hrow', hidentity]

/-- Rows with a missing key value on either side do not match. -/
theorem PlanNode.not_null_of_matching (hrow : row.AllAt Value.isScalar n.step.relation.sourceKey)
    (h : n.matching row target = true) :
    (∀ c ∈ n.step.relation.sourceKey, row.get c ≠ .null) ∧ ∀ c ∈ n.step.relation.targetKey, target.get c ≠ .null := by
  obtain ⟨hsource, hsame⟩ := Bool.and_eq_true_iff.mp h
  have hnone : (row.spelling n.step.relation.sourceKey).any Value.isNull = false := by simpa using hsource
  have hnone' : (target.spelling n.step.relation.targetKey).any Value.isNull = false := by
    by_contra hnull
    rw [sameKey_eq_false hrow.spelling hnone (by simpa using hnull)] at hsame
    cases hsame
  have hget {columns : List String} {r : Row} (hr : (r.spelling columns).any Value.isNull = false) :
      ∀ c ∈ columns, r.get c ≠ .null := by
    intro c hc hnull
    exact absurd (List.any_eq_false.mp hr _ (List.mem_map_of_mem hc)) (by simp [hnull, Value.isNull])
  exact ⟨hget hnone, hget hnone'⟩

end Matching

/-! ## Positions -/

namespace Options

variable {α : Type} (o : Options)

/-- Whether the options ask for what stands at a position. -/
def covers (i : Nat) : Bool :=
  decide (o.offset ≤ i) && o.limit.all fun limit => decide (i < o.offset + limit)

def slice (items : List α) : List α :=
  (items.zipIdx.filter fun r => o.covers r.2).map Prod.fst

end Options

section Slices

variable {α : Type}

theorem filter_le_zipIdx (l : List α) (start c : Nat) :
    (l.zipIdx start).filter (fun r => decide (start + c ≤ r.2)) = (l.drop c).zipIdx (start + c) := by
  induction l generalizing start c with
  | nil => simp
  | cons a l ih =>
    cases c with
    | zero =>
      refine List.filter_eq_self.mpr fun r hr => ?_
      simpa using (List.mem_zipIdx hr).1
    | succ c =>
      have hshift : start + (c + 1) = start + 1 + c := by omega
      rw [List.zipIdx_cons, List.filter_cons_of_neg (by simp), hshift, ih]
      rfl

theorem filter_lt_zipIdx (l : List α) (start c : Nat) :
    (l.zipIdx start).filter (fun r => decide (r.2 < start + c)) = (l.take c).zipIdx start := by
  induction l generalizing start c with
  | nil => simp
  | cons a l ih =>
    cases c with
    | zero =>
      refine List.filter_eq_nil_iff.mpr fun r hr => ?_
      simp [(List.mem_zipIdx hr).1]
    | succ c =>
      have hshift : start + (c + 1) = start + 1 + c := by omega
      rw [List.zipIdx_cons, List.filter_cons_of_pos (by simp), hshift, ih]
      rfl

/-- A stretch of a list is what stands at the positions in it. -/
theorem Options.window_eq_slice (o : Options) (l : List α) : o.window l = o.slice l := by
  have hdrop (l : List α) : l.zipIdx.filter (fun r => decide (o.offset ≤ r.2)) = (l.drop o.offset).zipIdx o.offset := by
    simpa using filter_le_zipIdx l 0 o.offset
  have htake (c : Nat) : l.zipIdx.filter (fun r => decide (r.2 < c)) = (l.take c).zipIdx := by
    simpa using filter_lt_zipIdx l 0 c
  unfold slice window covers
  cases o.limit with
  | none => simp only [Option.all_none, Bool.and_true, hdrop, List.zipIdx_map_fst]
  | some limit => simp only [Option.all_some, ← List.filter_filter, htake, hdrop, List.zipIdx_map_fst, List.take_drop]

end Slices

/-! ## Other options -/

namespace PlanNode

/-- A node with other options; what is nested below it keeps its own. -/
def withOptions (o : Options) : PlanNode → PlanNode
  | .leaf s => .leaf { s with options := o }
  | .branch s p => .branch { s with options := o } p

variable (o : Options) (n : PlanNode)

@[simp] theorem step_withOptions : (n.withOptions o).step = { n.step with options := o } := by
  cases n <;> rfl

@[simp] theorem nested?_withOptions : (n.withOptions o).nested? = n.nested? := by
  cases n <;> rfl

@[simp] theorem key_withOptions : (n.withOptions o).key = n.key := by
  cases n <;> rfl

variable {o n}

/-- Which columns are fetched depends on the selection only. -/
theorem fetched_withOptions (h : o.select = n.step.options.select) : (n.withOptions o).fetched = n.fetched := by
  funext required
  simp [fetched, h]

theorem nest_withOptions (answer : BatchQuery → Answer) (g : Graph) :
    (n.withOptions o).nest answer g = n.nest answer g := by
  cases n <;> rfl

/-- A row is trimmed by the selection and the exclusion only. -/
theorem trim_withOptions (hselect : o.select = n.step.options.select)
    (hexclude : o.exclude = n.step.options.exclude) : (n.withOptions o).trim = n.trim := by
  have hkeeps : (n.withOptions o).keeps = n.keeps := by
    funext column
    simp [keeps, nestedKeys, hselect, hexclude]
  funext row
  rw [trim, trim, hkeeps]

/-- A load of single rows depends on no other option than the selection. -/
theorem load_one_withOptions {g : Graph} (hkind : n.step.relation.kind = .one)
    (h : o.select = n.step.options.select) (rows : List Row) : (n.withOptions o).load g rows = n.load g rows := by
  have hquery (keys : List Key) : oneQuery (n.withOptions o) keys = oneQuery n keys := by
    simp [oneQuery, fetched_withOptions h]
  have hlink : linkOne (n.withOptions o) = linkOne n := by
    funext found
    simp [linkOne]
  simp only [load, step_withOptions, hkind, loadOne, hquery, hlink]
  rfl

end PlanNode

/-! ## Loads -/

section Loads

variable {σ : Type} {exec : Executor σ} {g : Graph} {n : PlanNode} {path : List String} {rows found : List Row}

/-- Whether a load has ended with a link for every row, to these rows. -/
def LinksTo (related : Row → Related) (rows : List Row) (r : Except Fault Linking) : Prop :=
  ∃ l, r = .ok l ∧ ∀ row ∈ rows, ∃ link, l.link row = .ok link ∧ link.related l.found = related row

variable {related : Row → Related}

theorem LinksTo.nothing {link : Link} (h : ∀ row ∈ rows, link.related [] = related row) :
    LinksTo related rows (nothing link) :=
  ⟨_, rfl, fun row hrow => ⟨link, rfl, h row hrow⟩⟩

theorem LinksTo.linkBy {columns : List String} {link : Option (List Atom) → Link}
    (hrows : ∀ row ∈ rows, row.Keyable columns)
    (h : ∀ row ∈ rows, (link (row.identity columns)).related found = related row) :
    LinksTo related rows (.ok (linkBy columns found link)) := by
  refine ⟨_, rfl, fun row hrow => ⟨link (row.identity columns), ?_, h row hrow⟩⟩
  show (row.key? columns).map _ = _
  rw [Row.key?_eq (hrows row hrow)]
  rfl

/-- Rows that have been linked one by one have what they are linked to under the key. -/
theorem LinksTo.attachTo {r : Except Fault Linking} (h : LinksTo related rows r) (key : String) :
    (∃ a, r >>= (·.attachment rows) = .ok a) ∧
      rowsAfter key rows r = rows.map fun row => row.set key (related row).value := by
  obtain ⟨l, rfl, hlinks⟩ := h
  refine Linking.attachTo_eq_map fun row hrow => ?_
  obtain ⟨link, hlink, hrelated⟩ := hlinks row hrow
  exact ⟨link, hlink, by rw [Link.value_eq, hrelated]⟩

/-- Objects that hold the rows come to hold what their rows are linked to, each in a list of its own. -/
theorem LinksTo.attach {many : Row → List Row} {l : Linking}
    (h : LinksTo (fun row => .many (many row)) rows (.ok l)) (hl : l.Sound) (key : String) {os : Objects}
    {as : List Nat} (has : os.Apart as) (hrows : as.map (os.row 1) = rows) :
    (os.attach l key as).1 = .ok () ∧
      as.map ((os.attach l key as).2.row 1) = rows.map (fun row => row.set key (.rows (many row))) ∧
      Objects.OwnLists os key as (os.attach l key as).2 := by
  subst hrows
  obtain ⟨⟨att, hatt⟩, hafter⟩ := h.attachTo key
  obtain ⟨hresult, hheld⟩ := has.attach_eq hl key
  refine ⟨?_, hheld.trans hafter, has.ownLists_attach hl key fun a ha => ?_⟩
  · have hatt : l.attachment (as.map (os.row 1)) = .ok att := hatt
    rw [hresult, hatt]
    rfl
  · obtain ⟨l', hl', hlinks⟩ := h
    cases hl'
    obtain ⟨link, hlink, hrelated⟩ := hlinks _ (List.mem_map_of_mem ha)
    cases link with
    | one p => cases hrelated
    | many ps => exact ⟨ps, hlink⟩

namespace PlanNode

variable (g n) in
/-- The query that a node without a join entity puts for some keys. -/
def query (keys : List Key) : BatchQuery :=
  match n.step.relation.kind with
  | .one => oneQuery n keys
  | _ => manyQuery g n keys

/-- The found rows with the key of a row, in their order, as far as the options ask for them. -/
def matched (n : PlanNode) (found : List Row) (row : Row) : List Row :=
  n.step.options.slice (found.filter (n.matching row))

section Scans

variable (found) {row : Row} (hrow : row.AllAt Value.isScalar n.step.relation.sourceKey)

include hrow

theorem scanOne_identity : scanOne n.step.relation.targetKey found (row.identity n.step.relation.sourceKey) =
    .one (found.find? (n.matching row)) := by
  rw [matching_eq hrow, scanOne]
  cases row.identity n.step.relation.sourceKey with
  | none => exact congrArg Related.one (List.find?_eq_none.mpr fun _ _ h => by cases h).symm
  | some k => rfl

theorem scanMany_identity : scanMany n.step.relation.targetKey n.step.options found
    (row.identity n.step.relation.sourceKey) = .many (n.matched found row) := by
  rw [matched, matching_eq hrow, scanMany, Options.window_eq_slice]
  cases row.identity n.step.relation.sourceKey with
  | none => simp
  | some k => rfl

end Scans

variable {s : Session σ} {t : σ} (hrows : ∀ row ∈ rows, row.AllAt Value.isScalar n.step.relation.sourceKey)
  (hfound : ∀ row ∈ found, row.AllAt Value.isScalar n.step.relation.targetKey)
  (hanswer : n.keys rows ≠ [] → exec s.store (.batch (n.query g (n.keys rows))) = (.ok (.rows found), t))

include hrows hfound hanswer

variable (path) in
theorem linksTo_load_one (hkind : n.step.relation.kind = .one) :
    LinksTo (fun row => .one (found.find? (n.matching row))) rows ((n.load g rows).run exec path n.step s).1 := by
  have hkeyable : ∀ row ∈ rows, row.Keyable n.step.relation.sourceKey := fun row hrow => (hrows row hrow).keyable
  have hload : n.load g rows = loadOne n rows := by rw [load, hkind]
  rw [hload, loadOne, keyBatchOf_eq hkeyable]
  cases hkeys : n.keys rows with
  | nil =>
    have hnil : keyBatch (rows.map (Row.keyOf n.step.relation.sourceKey)) = [] := hkeys
    rw [hnil]
    refine .nothing fun row hrow => ?_
    rw [← scanOne_identity found (hrows row hrow), identity_of_keyBatch_eq_nil hnil row hrow]
    rfl
  | cons k ks =>
    have hcons : keyBatch (rows.map (Row.keyOf n.step.relation.sourceKey)) = k :: ks := hkeys
    rw [hkeys, query, hkind] at hanswer
    simp only [hcons, Dialogue.run, hanswer (List.cons_ne_nil k ks),
      keyedRows_eq n.step fun row hrow => (hfound row hrow).keyable]
    show LinksTo _ rows (.ok (linkOne n _))
    rw [linkOne_eq]
    refine .linkBy hkeyable fun row hrow => ?_
    rw [related_oneLink, scanOne_identity found (hrows row hrow)]

variable (path) in
theorem linksTo_load_many (hkind : n.step.relation.kind = .many) :
    LinksTo (fun row => .many (n.matched found row)) rows ((n.load g rows).run exec path n.step s).1 := by
  have hkeyable : ∀ row ∈ rows, row.Keyable n.step.relation.sourceKey := fun row hrow => (hrows row hrow).keyable
  have hload : n.load g rows = loadMany g n rows := by rw [load, hkind]
  rw [hload, loadMany, keyBatchOf_eq hkeyable]
  cases hkeys : n.keys rows with
  | nil =>
    have hnil : keyBatch (rows.map (Row.keyOf n.step.relation.sourceKey)) = [] := hkeys
    rw [hnil]
    refine .nothing fun row hrow => ?_
    rw [← scanMany_identity found (hrows row hrow), identity_of_keyBatch_eq_nil hnil row hrow, scanMany,
      Option.elim_none, Options.window_nil]
    rfl
  | cons k ks =>
    have hcons : keyBatch (rows.map (Row.keyOf n.step.relation.sourceKey)) = k :: ks := hkeys
    rw [hkeys, query, hkind] at hanswer
    simp only [hcons, Dialogue.run, hanswer (List.cons_ne_nil k ks),
      keyedRows_eq n.step fun row hrow => (hfound row hrow).keyable]
    show LinksTo _ rows (.ok (linkMany n _))
    rw [linkMany_eq]
    refine .linkBy hkeyable fun row hrow => ?_
    rw [related_manyLink, scanMany_identity found (hrows row hrow)]

/-- A load without a join entity attaches to every row what scanning finds for it, whatever the answer is: the first
matching row, or all of them in their order as far as the options ask for them.  Options other than the selection do
nothing to a load of single rows.  Rows with the same key are given equal lists, and the objects of the rows new lists
of which no two are the same. -/
theorem load_matching :
    (n.step.relation.kind = .one →
      (∃ a, ((n.load g rows).run exec path n.step s).1 >>= (·.attachment rows) = .ok a) ∧
        rowsAfter n.key rows ((n.load g rows).run exec path n.step s).1 =
          rows.map (fun row => row.set n.key (Value.ofOption .object (found.find? (n.matching row)))) ∧
        ∀ limit offset orderBy order,
          (n.withOptions { n.step.options with limit, offset, orderBy, order }).load g rows = n.load g rows) ∧
      (n.step.relation.kind = .many →
        (∃ a, ((n.load g rows).run exec path n.step s).1 >>= (·.attachment rows) = .ok a) ∧
          rowsAfter n.key rows ((n.load g rows).run exec path n.step s).1 =
            rows.map (fun row => row.set n.key (.rows (n.matched found row))) ∧
          ∀ l, ((n.load g rows).run exec path n.step s).1 = .ok l → ∀ (os : Objects) (as : List Nat),
            os.Apart as → as.map (os.row 1) = rows →
            (os.attach l n.key as).1 = .ok () ∧
              as.map ((os.attach l n.key as).2.row 1) =
                rows.map (fun row => row.set n.key (.rows (n.matched found row))) ∧
              Objects.OwnLists os n.key as (os.attach l n.key as).2) ∧
      (∀ row ∈ rows, ∀ row' ∈ rows,
        sameKey (row.spelling n.step.relation.sourceKey) (row'.spelling n.step.relation.sourceKey) = true →
        n.matching row = n.matching row') ∧
      ∀ row ∈ rows, ∀ target, n.matching row target = true →
        (∀ c ∈ n.step.relation.sourceKey, row.get c ≠ .null) ∧
          ∀ c ∈ n.step.relation.targetKey, target.get c ≠ .null := by
  refine ⟨fun hkind => ?_, fun hkind => ?_,
    fun row hrow row' hrow' => matching_congr (hrows row hrow) (hrows row' hrow'),
    fun row hrow target => not_null_of_matching (hrows row hrow)⟩
  · have hlinks := linksTo_load_one path hrows hfound hanswer hkind
    refine and_assoc.mp ⟨hlinks.attachTo n.key, fun limit offset orderBy order => ?_⟩
    exact load_one_withOptions (o := { n.step.options with limit, offset, orderBy, order }) hkind rfl rows
  · have hlinks := linksTo_load_many path hrows hfound hanswer hkind
    refine and_assoc.mp ⟨hlinks.attachTo n.key, fun l hl os as has hheld => ?_⟩
    rw [hl] at hlinks
    exact hlinks.attach (ends_load.run hl).sound n.key has hheld

end PlanNode

end Loads

namespace Bookshelf

/-- The second and the third book of each author. -/
def laterBooks : PlanNode :=
  .leaf ⟨"books", books.inverse ⟨["author_id"], "authors", ["id"], false⟩, 0, { offset := 1, limit := some 2 }⟩

def someAuthors : List Row :=
  [[("id", .int 1)], [("id", .null)], [("id", .bool true)], [("id", .int 2)], [("id", .undefined 1)]]

/-- Books of two authors, one of which was not asked for, and a book of nobody; one book is there twice, and one has a
text for its author.  Some have undefined authors, not all of them the same object. -/
def foundBooks : List Row :=
  [[("id", .int 3), ("author_id", .int 1)], [("id", .int 5), ("author_id", .int 9)],
    [("id", .int 2), ("author_id", .int 1)], [("id", .int 4), ("author_id", .null)],
    [("id", .int 6), ("author_id", .text "1")], [("id", .int 3), ("author_id", .int 1)],
    [("id", .int 7), ("author_id", .undefined 1)], [("id", .int 8), ("author_id", .undefined 2)],
    [("id", .int 9), ("author_id", .undefined 1)]]

/-- A store that gives these books, whatever is asked of it. -/
def preparedBooks : Memory where
  prepared := [("books", [.ok (.rows foundBooks)])]

end Bookshelf

/-- Both spellings of the first author get the same books, and an undefined author gets those of the very same object.
Objects of the authors get lists of their own. -/
theorem PlanNode.load_matching_bookshelf :
    rowsAfter "books" Bookshelf.someAuthors
        ((Bookshelf.laterBooks.load Bookshelf.graph Bookshelf.someAuthors).run Memory.execute ["books"]
          Bookshelf.laterBooks.step { store := Bookshelf.preparedBooks }).1 =
      [[("id", .int 1),
          ("books", .rows [[("id", .int 2), ("author_id", .int 1)], [("id", .int 3), ("author_id", .int 1)]])],
        [("id", .null), ("books", .rows [])],
        [("id", .bool true),
          ("books", .rows [[("id", .int 2), ("author_id", .int 1)], [("id", .int 3), ("author_id", .int 1)]])],
        [("id", .int 2), ("books", .rows [])],
        [("id", .undefined 1), ("books", .rows [[("id", .int 9), ("author_id", .undefined 1)]])]] ∧
      ∃ l, ((Bookshelf.laterBooks.load Bookshelf.graph Bookshelf.someAuthors).run Memory.execute ["books"]
          Bookshelf.laterBooks.step { store := Bookshelf.preparedBooks }).1 = .ok l ∧
        Objects.OwnLists (Bookshelf.someAuthors.map .ofRow) "books" [0, 1, 2, 3, 4]
          (Objects.attach l "books" [0, 1, 2, 3, 4] (Bookshelf.someAuthors.map .ofRow)).2 := by
  have h := (@PlanNode.load_matching Memory Memory.execute Bookshelf.graph Bookshelf.laterBooks ["books"]
    Bookshelf.someAuthors Bookshelf.foundBooks { store := Bookshelf.preparedBooks } _ (by decide +kernel)
    (by decide +kernel) (fun _ => rfl)).2.1
  obtain ⟨⟨a, ha⟩, hafter, hobjects⟩ := h rfl
  obtain ⟨l, hl, -⟩ := Except.bind_eq_ok ha
  refine ⟨hafter.trans (by decide +kernel), l, hl, ?_⟩
  exact (hobjects l hl _ [0, 1, 2, 3, 4] (.of_rows Bookshelf.someAuthors) (by decide +kernel)).2.2

end RelatedRows

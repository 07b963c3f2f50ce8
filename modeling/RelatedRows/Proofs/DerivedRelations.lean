import RelatedRows.Proofs.UniqueLinks

/-!
# Where relations come from

The relations of a derived graph come from foreign keys, read from either end, and from junctions, crossed from either
side.  Several of them may have one name on an entity; then the graph has the one that comes first.

* `NamesOne`, `NamesSeveral`: what one row of a table is called, and several.
* `Origin`: what a relation comes from; `Origin.Gives` says which relation that is, `Origin.Before` which comes first.
* `Origin.GivesFirst`: a relation comes from an origin, and none of its name from an earlier one.
* `derivations`: all origins of a list of tables with their relations, in order.
* `mem_keepFirst_iff`: of the entries of one name the first is kept.
* `Graph.ofTables_derives`: the relations of a derived graph.
-/

namespace RelatedRows

/-! ## Names -/

/-- One row of a table is called by the name of the table without a final s. -/
inductive NamesOne : (table name : String) → Prop
  | stem (name : String) : NamesOne (name ++ "s") name
  | same {table : String} (h : ∀ stem, table ≠ stem ++ "s") : NamesOne table table

/-- Several rows of a table are called by the name of the table, with an s if it has no final one. -/
inductive NamesSeveral : (table name : String) → Prop
  | same (stem : String) : NamesSeveral (stem ++ "s") (stem ++ "s")
  | ending {table : String} (h : ∀ stem, table ≠ stem ++ "s") : NamesSeveral table (table ++ "s")

section Names

variable {table name : String}

theorem namesOne_iff : NamesOne table name ↔ name = singular table := by
  constructor
  · rintro (_ | h)
    · exact (singular_append _).symm
    · exact (singular_of_ne h).symm
  · rintro rfl
    by_cases h : ∃ stem, table = stem ++ "s"
    · obtain ⟨stem, rfl⟩ := h
      rw [singular_append]
      exact .stem stem
    · have hne := not_exists.mp h
      rw [singular_of_ne hne]
      exact .same hne

theorem namesSeveral_iff : NamesSeveral table name ↔ name = plural table := by
  constructor
  · rintro (_ | h)
    · exact (plural_append _).symm
    · exact (plural_of_ne h).symm
  · rintro rfl
    by_cases h : ∃ stem, table = stem ++ "s"
    · obtain ⟨stem, rfl⟩ := h
      rw [plural_append]
      exact .same stem
    · have hne := not_exists.mp h
      rw [plural_of_ne hne]
      exact .ending hne

end Names

/-! ## Origins -/

/-- A foreign key by the positions of its table and of the key in it, or a junction by the position of its table; `back`
if it is gone through from the end that its second table or its target is at. -/
inductive Origin where
  | foreignKey (table key : Nat) (back : Bool)
  | junction (table : Nat) (back : Bool)
deriving DecidableEq, Repr

/-- Foreign keys come before junctions; both come in the order of the tables, and forwards before backwards. -/
inductive Origin.Before : Origin → Origin → Prop
  | rules {i k i' : Nat} {b b' : Bool} : Before (.foreignKey i k b) (.junction i' b')
  | tables {i k i' k' : Nat} {b b' : Bool} (h : i < i') : Before (.foreignKey i k b) (.foreignKey i' k' b')
  | keys {i k k' : Nat} {b b' : Bool} (h : k < k') : Before (.foreignKey i k b) (.foreignKey i k' b')
  | ends {i k : Nat} : Before (.foreignKey i k false) (.foreignKey i k true)
  | junctions {i i' : Nat} {b b' : Bool} (h : i < i') : Before (.junction i b) (.junction i' b')
  | sides {i : Nat} : Before (.junction i false) (.junction i true)

theorem Origin.Before.asymm {o o' : Origin} (h : o.Before o') : ¬o'.Before o := by
  intro h'
  cases h with
  | rules => cases h'
  | tables h =>
    cases h' with
    | tables h' => exact Nat.lt_asymm h h'
    | keys => exact Nat.lt_irrefl _ h
    | ends => exact Nat.lt_irrefl _ h
  | keys h =>
    cases h' with
    | tables h' => exact Nat.lt_irrefl _ h'
    | keys h' => exact Nat.lt_asymm h h'
    | ends => exact Nat.lt_irrefl _ h
  | ends =>
    cases h' with
    | tables h' => exact Nat.lt_irrefl _ h'
    | keys h' => exact Nat.lt_irrefl _ h'
  | junctions h =>
    cases h' with
    | junctions h' => exact Nat.lt_asymm h h'
    | sides => exact Nat.lt_irrefl _ h
  | sides =>
    cases h' with
    | junctions h' => exact Nat.lt_irrefl _ h'

/-- The primary key or a unique constraint has exactly some columns. -/
def Table.HasKey (t : Table) (columns : List String) : Prop :=
  ∃ key ∈ t.primaryKey :: t.unique, ∀ c, c ∈ key ↔ c ∈ columns

/-- The relation that an origin stands for, if its tables are declared. -/
inductive Origin.Gives (tables : List Table) : Origin → Relation → Prop
  | belongsTo {i k : Nat} {child parent : Table} {f : ForeignKey} {name : String} (hchild : tables[i]? = some child)
      (hkey : child.foreignKeys[k]? = some f) (hparent : parent ∈ tables) (htarget : parent.name = f.targetTable)
      (hname : NamesOne parent.name name) :
      Gives tables (.foreignKey i k false)
        { name
          source := child.name
          kind := .one
          target := parent.name
          sourceKey := f.columns
          targetKey := f.targetColumns }
  | inverse {i k : Nat} {child parent : Table} {f : ForeignKey} {name : String} (hchild : tables[i]? = some child)
      (hkey : child.foreignKeys[k]? = some f) (hparent : parent ∈ tables) (htarget : parent.name = f.targetTable)
      (hname : if f.unique then NamesOne child.name name else NamesSeveral child.name name) :
      Gives tables (.foreignKey i k true)
        { name
          source := parent.name
          kind := if f.unique then .one else .many
          target := child.name
          sourceKey := f.targetColumns
          targetKey := f.columns }
  | across {i : Nat} {back unique : Bool} {junction a b : Table} {near far : ForeignKey} {name : String}
      (hjunction : tables[i]? = some junction)
      (hkeys : junction.foreignKeys = if back then [far, near] else [near, far])
      (ha : a ∈ tables) (hnear : a.name = near.targetTable) (hb : b ∈ tables) (hfar : b.name = far.targetTable)
      (hne : a.name ≠ b.name) (hunique : unique = true ↔ junction.HasKey (near.columns ++ far.columns))
      (hlinks : unique = true ∨ junction.junction = true) (hname : NamesSeveral b.name name) :
      Gives tables (.junction i back)
        { name
          source := a.name
          kind := .manyViaJoin
          target := b.name
          sourceKey := near.targetColumns
          targetKey := far.targetColumns
          joinEntity := some junction.name
          joinSourceKey := near.columns
          joinTargetKey := far.columns
          unique := unique }

/-- An origin stands for a relation, and none before it stands for one of this name on the same entity. -/
def Origin.GivesFirst (tables : List Table) (o : Origin) (r : Relation) : Prop :=
  o.Gives tables r ∧
    ∀ (o' : Origin) (r' : Relation), o'.Gives tables r' → r'.source = r.source ∧ r'.name = r.name → ¬o'.Before o

/-! ## The first of a name -/

theorem exists_mem_keepFirst {rs : List Relation} {r : Relation} (h : r ∈ rs) :
    ∃ k ∈ keepFirst rs, k.source = r.source ∧ k.name = r.name := by
  induction rs using List.reverseRecOn with
  | nil => cases h
  | append_singleton rs last ih =>
    rw [keepFirst_concat]
    rcases List.mem_append.mp h with h | h
    · obtain ⟨k, hk, hsame⟩ := ih h
      split
      · exact ⟨k, hk, hsame⟩
      · exact ⟨k, List.mem_append_left _ hk, hsame⟩
    · obtain rfl := List.mem_singleton.mp h
      split
      · next hany => simpa using hany
      · exact ⟨r, List.mem_append_right _ List.mem_cons_self, rfl, rfl⟩

/-- The last relation is kept if no other one has its name. -/
theorem mem_keepFirst_concat_iff {rs : List Relation} {last r : Relation} :
    r ∈ keepFirst (rs ++ [last]) ↔
      r ∈ keepFirst rs ∨ r = last ∧ ∀ k ∈ rs, ¬(k.source = last.source ∧ k.name = last.name) := by
  have hany : (keepFirst rs).any (fun k => k.source = last.source ∧ k.name = last.name) = true ↔
      ∃ k ∈ rs, k.source = last.source ∧ k.name = last.name := by
    rw [List.any_eq_true]
    constructor
    · rintro ⟨k, hk, hsame⟩
      exact ⟨k, mem_of_mem_keepFirst hk, of_decide_eq_true hsame⟩
    · rintro ⟨k, hk, hsource, hname⟩
      obtain ⟨k', hk', hsource', hname'⟩ := exists_mem_keepFirst hk
      exact ⟨k', hk', decide_eq_true ⟨hsource'.trans hsource, hname'.trans hname⟩⟩
  rw [keepFirst_concat]
  split
  · next h =>
    obtain ⟨k, hk, hsame⟩ := hany.mp h
    exact ⟨.inl, fun hr => hr.elim id fun hlast => absurd hsame (hlast.2 k hk)⟩
  · next h =>
    have hfresh : ∀ k ∈ rs, ¬(k.source = last.source ∧ k.name = last.name) :=
      fun k hk hsame => h (hany.mpr ⟨k, hk, hsame⟩)
    rw [List.mem_append, List.mem_singleton]
    exact or_congr_right ⟨fun hr => ⟨hr, hfresh⟩, And.left⟩

section KeepFirst

variable {κ : Type} {before : κ → κ → Prop}

/-- A relation is kept if it stands somewhere with no relation of its name before it. -/
theorem mem_keepFirst_iff (asymm : ∀ {a b}, before a b → ¬before b a) {l : List (κ × Relation)}
    (h : l.Pairwise (before ·.1 ·.1)) {r : Relation} :
    r ∈ keepFirst (l.map Prod.snd) ↔
      ∃ o, (o, r) ∈ l ∧ ∀ o' r', (o', r') ∈ l → r'.source = r.source ∧ r'.name = r.name → ¬before o' o := by
  induction l using List.reverseRecOn with
  | nil => simp [keepFirst]
  | append_singleton l last ih =>
    obtain ⟨o₁, r₁⟩ := last
    obtain ⟨hl, -, hlast⟩ := List.pairwise_append.mp h
    have hfront : ∀ o r, (o, r) ∈ l → before o o₁ := fun o r hmem => hlast _ hmem _ List.mem_cons_self
    simp only [List.map_append, List.map_cons, List.map_nil, mem_keepFirst_concat_iff, ih hl, List.mem_append,
      List.mem_singleton, Prod.mk.injEq]
    constructor
    · rintro (⟨o, ho, hfirst⟩ | ⟨rfl, hfresh⟩)
      · refine ⟨o, .inl ho, fun o' r' hmem hsame => ?_⟩
        rcases hmem with hmem | ⟨rfl, rfl⟩
        · exact hfirst o' r' hmem hsame
        · exact asymm (hfront o r ho)
      · refine ⟨o₁, .inr ⟨rfl, rfl⟩, fun o' r' hmem hsame => ?_⟩
        rcases hmem with hmem | ⟨rfl, rfl⟩
        · exact absurd hsame (hfresh r' (List.mem_map_of_mem hmem))
        · exact fun hself => asymm hself hself
    · rintro ⟨o, ho | ⟨rfl, rfl⟩, hfirst⟩
      · exact .inl ⟨o, ho, fun o' r' hmem => hfirst o' r' (.inl hmem)⟩
      · refine .inr ⟨rfl, fun k hk hsame => ?_⟩
        obtain ⟨⟨o', k⟩, hmem, rfl⟩ := List.mem_map.mp hk
        exact hfirst o' k (.inl hmem) hsame (hfront o' k hmem)

end KeepFirst

/-! ## All origins in order -/

section Derivations

variable (tables : List Table)

/-- The two ends of a foreign key. -/
def Table.keyDerivations (child : Table) (i : Nat) : List (Origin × Relation) :=
  (child.foreignKeys.zipIdx.filter fun (f, _) => isListed tables f.targetTable).flatMap fun (f, k) =>
    [(.foreignKey i k false, child.belongsTo f), (.foreignKey i k true, child.inverse f)]

def Table.junctionDerivations (junction : Table) (i : Nat) : List (Origin × Relation) :=
  [Origin.junction i false, .junction i true].zip (junction.ofJunction tables)

def derivations : List (Origin × Relation) :=
  tables.zipIdx.flatMap (fun (t, i) => t.keyDerivations tables i) ++
    tables.zipIdx.flatMap fun (t, i) => t.junctionDerivations tables i

end Derivations

section Ordered

variable {tables : List Table}

theorem pairwise_zipIdx {α : Type} (l : List α) : l.zipIdx.Pairwise (·.2 < ·.2) := by
  have h : (l.zipIdx.map Prod.snd).Pairwise (· < ·) := by
    rw [List.zipIdx_map_snd]
    exact List.pairwise_lt_range'
  exact List.pairwise_map.mp h

theorem Table.map_keyDerivations (child : Table) (i : Nat) :
    (child.keyDerivations tables i).map Prod.snd = child.ofForeignKeys tables := by
  have hkeys : (child.foreignKeys.zipIdx.filter fun (f, _) => isListed tables f.targetTable).map Prod.fst =
      child.foreignKeys.filter (isListed tables ·.targetTable) := by
    conv_rhs => rw [← List.zipIdx_map_fst 0 child.foreignKeys]
    rw [List.filter_map]
    rfl
  rw [keyDerivations, ofForeignKeys, ← hkeys, List.map_flatMap, List.flatMap_map]
  rfl

/-- A table joins the targets of its two foreign keys. -/
structure Table.Joins (tables : List Table) (junction : Table) (a b : ForeignKey) : Prop where
  keys : junction.foreignKeys = [a, b]
  apart : a.targetTable ≠ b.targetTable
  first : isListed tables a.targetTable = true
  second : isListed tables b.targetTable = true
  links : junction.covers (a.columns ++ b.columns) = true ∨ junction.junction = true

theorem Table.Joins.ofJunction_eq {junction : Table} {a b : ForeignKey} (h : junction.Joins tables a b) :
    junction.ofJunction tables = [junction.across (junction.covers (a.columns ++ b.columns)) a b,
      junction.across (junction.covers (a.columns ++ b.columns)) b a] := by
  rw [ofJunction, h.keys]
  dsimp only
  rw [if_pos]
  simp only [h.first, h.second, h.apart, Bool.and_true, Bool.and_eq_true, Bool.or_eq_true, ne_eq, not_false_eq_true,
    decide_true, true_and]
  exact h.links

theorem Table.exists_joins {junction : Table} {r : Relation} (h : r ∈ junction.ofJunction tables) :
    ∃ a b, junction.Joins tables a b := by
  unfold ofJunction at h
  split at h
  · next a b hkeys =>
    dsimp only at h
    split at h
    · next hif =>
      simp only [Bool.and_eq_true, Bool.or_eq_true, decide_eq_true_eq] at hif
      obtain ⟨⟨⟨hne, ha⟩, hb⟩, hlinks⟩ := hif
      exact ⟨a, b, hkeys, hne, ha, hb, hlinks⟩
    · cases h
  · cases h

/-- A table gives two relations or none. -/
theorem Table.junctionDerivations_cases (junction : Table) (i : Nat) :
    junction.ofJunction tables = [] ∧ junction.junctionDerivations tables i = [] ∨
      ∃ a b, junction.Joins tables a b ∧ junction.junctionDerivations tables i =
        [(.junction i false, junction.across (junction.covers (a.columns ++ b.columns)) a b),
          (.junction i true, junction.across (junction.covers (a.columns ++ b.columns)) b a)] := by
  cases hnil : junction.ofJunction tables with
  | nil => exact .inl ⟨rfl, by rw [junctionDerivations, hnil]; rfl⟩
  | cons r rest =>
    obtain ⟨a, b, h⟩ := exists_joins (hnil ▸ List.mem_cons_self : r ∈ junction.ofJunction tables)
    exact .inr ⟨a, b, h, by rw [junctionDerivations, h.ofJunction_eq]; rfl⟩

theorem map_derivations : (derivations tables).map Prod.snd = Table.candidates tables := by
  have hzip (f : Table → List Relation) : (tables.zipIdx.flatMap fun (t, _) => f t) = tables.flatMap f := by
    conv_rhs => rw [← List.zipIdx_map_fst 0 tables, List.flatMap_map]
  rw [derivations, Table.candidates, List.map_append, List.map_flatMap, List.map_flatMap]
  have hkeys (t : Table × Nat) : (t.1.keyDerivations tables t.2).map Prod.snd = t.1.ofForeignKeys tables :=
    t.1.map_keyDerivations t.2
  have hjunctions (t : Table × Nat) : (t.1.junctionDerivations tables t.2).map Prod.snd = t.1.ofJunction tables := by
    rcases t.1.junctionDerivations_cases t.2 with ⟨hnil, h⟩ | ⟨a, b, hjoins, h⟩
    · rw [h, hnil]
      rfl
    · rw [h, hjoins.ofJunction_eq]
      rfl
  simp only [hkeys, hjunctions]
  rw [hzip, hzip]

/-- The origins come in order. -/
theorem pairwise_derivations : (derivations tables).Pairwise (·.1.Before ·.1) := by
  have hkey {t : Table} {i : Nat} {x : Origin × Relation} (hx : x ∈ t.keyDerivations tables i) :
      ∃ k back, x.1 = .foreignKey i k back := by
    obtain ⟨⟨f, k⟩, -, hx⟩ := List.mem_flatMap.mp hx
    rcases List.mem_pair.mp hx with rfl | rfl
    · exact ⟨k, false, rfl⟩
    · exact ⟨k, true, rfl⟩
  have hjunction {t : Table} {i : Nat} {x : Origin × Relation} (hx : x ∈ t.junctionDerivations tables i) :
      ∃ back, x.1 = .junction i back := by
    rcases List.mem_pair.mp (List.of_mem_zip hx).1 with h | h
    · exact ⟨false, h⟩
    · exact ⟨true, h⟩
  refine List.pairwise_append.mpr ⟨List.pairwise_flatMap.mpr ⟨fun t _ => ?_, ?_⟩,
    List.pairwise_flatMap.mpr ⟨fun ⟨t, i⟩ _ => ?_, ?_⟩, fun x hx y hy => ?_⟩
  · refine List.pairwise_flatMap.mpr ⟨fun f _ => List.pairwise_pair.mpr .ends, ?_⟩
    refine ((pairwise_zipIdx _).sublist List.filter_sublist).imp fun {f f'} hlt x hx y hy => ?_
    rcases List.mem_pair.mp hx with rfl | rfl <;> rcases List.mem_pair.mp hy with rfl | rfl <;> exact .keys hlt
  · refine (pairwise_zipIdx tables).imp fun {t t'} hlt x hx y hy => ?_
    obtain ⟨k, back, hx⟩ := hkey hx
    obtain ⟨k', back', hy⟩ := hkey hy
    rw [hx, hy]
    exact .tables hlt
  · dsimp only
    rcases t.junctionDerivations_cases i with ⟨-, h⟩ | ⟨a, b, -, h⟩
    · rw [h]
      exact .nil
    · rw [h]
      exact List.pairwise_pair.mpr .sides
  · refine (pairwise_zipIdx tables).imp fun {t t'} hlt x hx y hy => ?_
    obtain ⟨back, hx⟩ := hjunction hx
    obtain ⟨back', hy⟩ := hjunction hy
    rw [hx, hy]
    exact .junctions hlt
  · obtain ⟨t, -, hx⟩ := List.mem_flatMap.mp hx
    obtain ⟨t', -, hy⟩ := List.mem_flatMap.mp hy
    obtain ⟨k, back, hx⟩ := hkey hx
    obtain ⟨back', hy⟩ := hjunction hy
    rw [hx, hy]
    exact .rules

theorem isListed_iff {name : String} : Table.isListed tables name = true ↔ ∃ t ∈ tables, t.name = name := by
  simp [Table.isListed]

theorem sameColumns_iff {a b : List String} : sameColumns a b = true ↔ ∀ c, c ∈ a ↔ c ∈ b := by
  simp only [sameColumns, Bool.and_eq_true, List.all_eq_true, List.contains_iff_mem]
  exact ⟨fun h c => ⟨h.1 c, h.2 c⟩, fun h => ⟨fun c => (h c).mp, fun c => (h c).mpr⟩⟩

theorem Table.covers_iff {t : Table} {columns : List String} : t.covers columns = true ↔ t.HasKey columns := by
  simp [covers, HasKey, sameColumns_iff]

theorem Table.hasKey_comm {t : Table} {a b : List String} : t.HasKey (a ++ b) ↔ t.HasKey (b ++ a) := by
  simp only [HasKey, List.mem_append, or_comm]

theorem Table.mem_keyDerivations {child : Table} {i : Nat} {o : Origin} {r : Relation} :
    (o, r) ∈ child.keyDerivations tables i ↔ ∃ k f, child.foreignKeys[k]? = some f ∧
      Table.isListed tables f.targetTable = true ∧
      (o = .foreignKey i k false ∧ r = child.belongsTo f ∨ o = .foreignKey i k true ∧ r = child.inverse f) := by
  simp only [keyDerivations, List.mem_flatMap, List.mem_filter, Prod.exists, List.mem_zipIdx_iff_getElem?,
    List.mem_cons, List.not_mem_nil, or_false, Prod.mk.injEq, and_assoc]
  exact exists_comm

theorem Table.names_inverse_iff {child : Table} {f : ForeignKey} {name : String} :
    (if f.unique then NamesOne child.name name else NamesSeveral child.name name) ↔ name = (child.inverse f).name := by
  rw [inverse]
  cases f.unique with
  | true => exact namesOne_iff
  | false => exact namesSeveral_iff

/-- The origins of a list of tables are those that stand for a relation. -/
theorem mem_derivations {o : Origin} {r : Relation} : (o, r) ∈ derivations tables ↔ o.Gives tables r := by
  simp only [derivations, List.mem_append, List.mem_flatMap, Prod.exists, List.mem_zipIdx_iff_getElem?]
  constructor
  · rintro (⟨child, i, hchild, hmem⟩ | ⟨junction, i, hjunction, hmem⟩)
    · obtain ⟨k, f, hkey, hlisted, horigin⟩ := Table.mem_keyDerivations.mp hmem
      obtain ⟨parent, hparent, hname⟩ := isListed_iff.mp hlisted
      rcases horigin with ⟨rfl, rfl⟩ | ⟨rfl, rfl⟩
      · rw [Table.belongsTo, ← hname]
        exact .belongsTo hchild hkey hparent hname (namesOne_iff.mpr rfl)
      · rw [Table.inverse, ← hname]
        exact .inverse hchild hkey hparent hname (Table.names_inverse_iff.mpr rfl)
    · rcases junction.junctionDerivations_cases i with ⟨-, h⟩ | ⟨a, b, hjoins, h⟩
      · rw [h] at hmem
        cases hmem
      · obtain ⟨p, hp, hpname⟩ := isListed_iff.mp hjoins.first
        obtain ⟨q, hq, hqname⟩ := isListed_iff.mp hjoins.second
        have hne : p.name ≠ q.name := hpname ▸ hqname ▸ hjoins.apart
        rw [h] at hmem
        rcases List.mem_pair.mp hmem with hmem | hmem
        · cases hmem
          rw [Table.across, ← hpname, ← hqname]
          exact .across hjunction hjoins.keys hp hpname hq hqname hne Table.covers_iff hjoins.links
            (namesSeveral_iff.mpr rfl)
        · cases hmem
          rw [Table.across, ← hpname, ← hqname]
          exact .across hjunction hjoins.keys hq hqname hp hpname hne.symm (Table.covers_iff.trans Table.hasKey_comm)
            hjoins.links (namesSeveral_iff.mpr rfl)
  · intro h
    cases h with
    | belongsTo hchild hkey hparent htarget hname =>
      obtain rfl := namesOne_iff.mp hname
      refine .inl ⟨_, _, hchild, Table.mem_keyDerivations.mpr ⟨_, _, hkey, isListed_iff.mpr ⟨_, hparent, htarget⟩, ?_⟩⟩
      exact .inl ⟨rfl, by rw [Table.belongsTo, ← htarget]⟩
    | inverse hchild hkey hparent htarget hname =>
      obtain rfl := Table.names_inverse_iff.mp hname
      refine .inl ⟨_, _, hchild, Table.mem_keyDerivations.mpr ⟨_, _, hkey, isListed_iff.mpr ⟨_, hparent, htarget⟩, ?_⟩⟩
      exact .inr ⟨rfl, by rw [Table.inverse, ← htarget]⟩
    | @across i back unique junction a b near far name hjunction hkeys ha hnear hb hfar hne hunique hlinks hname =>
      obtain rfl := namesSeveral_iff.mp hname
      have hne' : near.targetTable ≠ far.targetTable := hnear ▸ hfar ▸ hne
      have ha' := isListed_iff.mpr ⟨a, ha, hnear⟩
      have hb' := isListed_iff.mpr ⟨b, hb, hfar⟩
      have hcovers : junction.covers (near.columns ++ far.columns) = unique := by
        rw [Bool.eq_iff_iff, Table.covers_iff, hunique]
      refine .inr ⟨junction, i, hjunction, ?_⟩
      cases back with
      | false =>
        have hjoins : junction.Joins tables near far := ⟨hkeys, hne', ha', hb', by rwa [hcovers]⟩
        rw [Table.junctionDerivations, hjoins.ofJunction_eq, hcovers, Table.across, ← hnear, ← hfar]
        exact List.mem_cons_self
      | true =>
        have hback : junction.covers (far.columns ++ near.columns) = unique := by
          rw [← hcovers, Bool.eq_iff_iff, Table.covers_iff, Table.covers_iff, Table.hasKey_comm]
        have hjoins : junction.Joins tables far near := ⟨hkeys, hne'.symm, hb', ha', by rwa [hback]⟩
        rw [Table.junctionDerivations, hjoins.ofJunction_eq, hback]
        exact List.mem_cons_of_mem _ (List.mem_singleton.mpr (by rw [Table.across, ← hnear, ← hfar]))

end Ordered

/-- A derived graph has exactly the relations of its foreign keys and junctions; of several that have one name on an
entity it has the one that comes first. -/
theorem Graph.ofTables_derives {tables : List Table} {g : Graph} (h : Graph.ofTables tables = .ok g) :
    (∀ r, r ∈ g.relations ↔ ∃ o : Origin, o.GivesFirst tables r) ∧
    (∀ r ∈ g.relations, g.lookup? r.source r.name = some r) ∧
    ∀ (o : Origin) (r : Relation), o.Gives tables r → ∃ r' ∈ g.relations, r'.source = r.source ∧ r'.name = r.name ∧
      g.lookup? r.source r.name = some r' := by
  have hrelations : g.relations = keepFirst ((derivations tables).map Prod.snd) := by
    rw [map_derivations, eq_of_build h]
  refine ⟨fun r => ?_, fun r hr => lookup?_of_build h hr, fun o r ho => ?_⟩
  · rw [hrelations, mem_keepFirst_iff (fun hbefore => hbefore.asymm) pairwise_derivations]
    simp only [mem_derivations]
    rfl
  · obtain ⟨r', hr', hsource, hname⟩ := exists_mem_keepFirst (List.mem_map_of_mem (mem_derivations.mpr ho))
    rw [← hrelations] at hr'
    exact ⟨r', hr', hsource, hname, by rw [← hsource, ← hname]; exact lookup?_of_build h hr'⟩

namespace Likes

def users : Table where
  name := "users"
  primaryKey := ["id"]

def author : ForeignKey := ⟨["author_id"], "users", ["id"], false⟩

def editor : ForeignKey := ⟨["editor_id"], "users", ["id"], false⟩

/-- Two keys lead to one table. -/
def books : Table where
  name := "books"
  primaryKey := ["id"]
  foreignKeys := [author, editor]

def reader : ForeignKey := ⟨["user_id"], "users", ["id"], false⟩

def liked : ForeignKey := ⟨["book_id"], "books", ["id"], false⟩

/-- Crossed from users, it leads to books, as the keys of books do. -/
def likes : Table where
  name := "likes"
  primaryKey := ["book_id", "user_id"]
  foreignKeys := [reader, liked]

def label : Table where
  name := "label"
  primaryKey := ["id"]

def labelled : ForeignKey := ⟨["book_id"], "books", ["id"], false⟩

def labelling : ForeignKey := ⟨["label_id"], "label", ["id"], false⟩

/-- Names of single rows, and a book may have a label more than once. -/
def bookLabel : Table where
  name := "book_label"
  primaryKey := ["id"]
  foreignKeys := [labelled, labelling]
  junction := true

def tables : List Table := [users, books, likes, label, bookLabel]

def graph : Graph where
  entities := [users.entity, books.entity, likes.entity, label.entity, bookLabel.entity]
  relations := [books.belongsTo author, books.inverse author, likes.belongsTo reader, likes.inverse reader,
    likes.belongsTo liked, likes.inverse liked, bookLabel.belongsTo labelled, bookLabel.inverse labelled,
    bookLabel.belongsTo labelling, bookLabel.inverse labelling, likes.across true liked reader,
    bookLabel.across false labelled labelling, bookLabel.across false labelling labelled]

end Likes

/-- Of the three relations from users to books the one for authors is kept.  Several rows of a table with the name of
one have this name with an s. -/
theorem ofTables_derives_likes :
    Graph.ofTables Likes.tables = .ok Likes.graph ∧ Likes.books.inverse Likes.author ∈ Likes.graph.relations ∧
      Likes.books.inverse Likes.editor ∉ Likes.graph.relations ∧
      Likes.likes.across true Likes.reader Likes.liked ∉ Likes.graph.relations ∧
      (Likes.graph.lookup? "books" "labels").map (·.target) = some "label" ∧
      (Likes.graph.lookup? "books" "book_labels").map (·.target) = some "book_label" ∧
      (Likes.graph.lookup? "book_label" "label").map (·.target) = some "label" ∧
      ∀ r, r ∈ Likes.graph.relations ↔ ∃ o : Origin, o.GivesFirst Likes.tables r :=
  have h : Graph.ofTables Likes.tables = .ok Likes.graph := by decide +kernel
  ⟨h, by decide +kernel, by decide +kernel, by decide +kernel, by decide +kernel, by decide +kernel,
    by decide +kernel, (Graph.ofTables_derives h).1⟩

end RelatedRows

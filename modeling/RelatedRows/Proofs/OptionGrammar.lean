import RelatedRows.Proofs.Entries

/-!
# The grammar of options

Which objects are read as options, and what they are read as.

* `Form.Reads`: a reader that is described by the values that it reads and what it makes of them; one lemma for each
  reader of a form.
* `Value.Given`: what is read of a field of an object; `Row.Gives`: what all fields say of the options.
* `Entry.read_eq_ok_iff`: options are read field by field.
* `Row.IsOptions`: the objects that are options.
* `Row.Directs`: the direction that is asked for at a place of an order.
* `Entry.ofValue_accepts`: options are read from these objects only, and an order has all columns that it should.
-/

namespace RelatedRows

/-! ## Values of fields -/

/-- A text, standing for a list of one, or a list of texts. -/
def Value.Says (v : Value) (ss : List String) : Prop :=
  v = .texts ss ∨ ∃ s, v = .text s ∧ ss = [s]

/-- A word for a direction. -/
def Direction.Named (s : String) (d : Direction) : Prop :=
  (s = "asc" ∧ d = .asc) ∨ (s = "desc" ∧ d = .desc)

/-- A value that may be null. -/
def Value.OrNull {α : Type} (Is : Value → α → Prop) (v : Value) (x : Option α) : Prop :=
  (v = .null ∧ x = none) ∨ ∃ a, Is v a ∧ x = some a

/-- What is read of a field: what its value says, or the default if it is not there. -/
def Value.Given {α : Type} (v? : Option Value) (default : α) (Is : Value → α → Prop) (a : α) : Prop :=
  match v? with
  | none => a = default
  | some v => Is v a

namespace Form

variable {α : Type} {Is : Value → α → Prop} {read : List Step → Value → Checked α}

/-- A reader that makes `a` of the values `v` with `Is v a`, wherever they stand, and rejects all others. -/
def Reads (read : List Step → Value → Checked α) (Is : Value → α → Prop) : Prop :=
  ∀ path v a, read path v = .ok a ↔ Is v a

theorem Reads.unique (h : Reads read Is) {v : Value} {a b : α} (ha : Is v a) (hb : Is v b) : a = b :=
  Except.ok.inj (((h [] v a).mpr ha).symm.trans ((h [] v b).mpr hb))

theorem reads_object : Reads object fun v fields => v = .object fields := by
  intro path v fields
  cases v with
  | object fields' => simp [object]
  | _ => simp [object, fail]

theorem exactInteger_eq_ok {path : List Step} {v : Value} {n : Int} : exactInteger path v = .ok n ↔ v = .int n := by
  unfold exactInteger
  split
  · simp [Value.int]
  · next hne =>
    refine ⟨nofun, ?_⟩
    rintro rfl
    exact absurd rfl (hne n)

theorem reads_integer {P : Int → Prop} [DecidablePred P] {d : Defect} :
    Reads (fun path v => exactInteger path v >>= fun i => if P i then .ok i.toNat else fail path d)
      fun v n => ∃ i : Int, v = .int i ∧ P i ∧ i.toNat = n := by
  intro path v n
  constructor
  · intro h
    obtain ⟨i, hi, h⟩ := Except.bind_eq_ok h
    split at h
    · next hP => exact ⟨i, exactInteger_eq_ok.mp hi, hP, Except.ok.inj h⟩
    · cases h
  · rintro ⟨i, rfl, hP, rfl⟩
    exact if_pos hP

theorem reads_positive : Reads (fun path v => exactInteger path v >>= above path 0)
    fun v n => ∃ i : Int, v = .int i ∧ 0 < i ∧ i.toNat = n :=
  reads_integer (P := fun i => 0 < i)

theorem reads_natural : Reads (fun path v => exactInteger path v >>= atLeast path 0)
    fun v n => ∃ i : Int, v = .int i ∧ 0 ≤ i ∧ i.toNat = n :=
  reads_integer (P := fun i => 0 ≤ i)

theorem reads_text : Reads text fun v a => ∃ s, v = .text s ∧ s = a := by
  intro path v a
  cases v with
  | text s => simp [text]
  | _ => simp [text, fail]

theorem direction_text {d : Direction} (h : d = .asc ∨ d = .desc) (path : List Step) :
    direction path (.text d.text) = .ok d := by
  have hwhole : ∀ s ∈ ["asc", "desc"], wholeText path s = .ok s := by
    intro s hs
    exact if_neg ((by decide +kernel : ∀ s ∈ ["asc", "desc"], ¬Text.hasHalf s = true) s hs)
  rcases h with rfl | rfl
  · show wholeText path "asc" >>= _ = _
    rw [hwhole "asc" (by simp)]
    rfl
  · show wholeText path "desc" >>= _ = _
    rw [hwhole "desc" (by simp)]
    rfl

theorem reads_direction : Reads direction fun v d => ∃ s, v = .text s ∧ Direction.Named s d := by
  intro path v d
  constructor
  · intro h
    cases v with
    | text s =>
      obtain ⟨t, ht, h⟩ := Except.bind_eq_ok h
      have hst : s = t := by
        rw [wholeText] at ht
        split at ht
        · cases ht
        · exact Except.ok.inj ht
      subst hst
      split at h
      · exact ⟨_, rfl, .inl ⟨rfl, (Except.ok.inj h).symm⟩⟩
      · exact ⟨_, rfl, .inr ⟨rfl, (Except.ok.inj h).symm⟩⟩
      · cases h
    | _ => cases h
  · rintro ⟨s, rfl, ⟨rfl, rfl⟩ | ⟨rfl, rfl⟩⟩
    · exact direction_text (.inl rfl) path
    · exact direction_text (.inr rfl) path

section Items

variable {Item : String → α → Prop} (h : Reads read fun v a => ∃ s, v = .text s ∧ Item s a)

include h

theorem itemsFrom_eq_ok {path : List Step} {n : Nat} {vs : List Value} {as : List α} :
    itemsFrom path read n vs = .ok as ↔ ∃ ss : List String, vs = ss.map .text ∧ List.Forall₂ Item ss as := by
  induction vs generalizing n as with
  | nil =>
    constructor
    · rintro ⟨⟩
      exact ⟨[], rfl, .nil⟩
    · rintro ⟨ss, hss, has⟩
      obtain rfl := List.map_eq_nil_iff.mp hss.symm
      cases has
      rfl
  | cons v vs ih =>
    constructor
    · intro hok
      obtain ⟨⟨b, bs⟩, hboth, rfl⟩ := Except.map_eq_ok hok
      obtain ⟨hb, hbs⟩ := both_eq_ok.mp hboth
      obtain ⟨s, rfl, hs⟩ := (h _ v b).mp hb
      obtain ⟨ss, rfl, hss⟩ := ih.mp hbs
      exact ⟨s :: ss, rfl, .cons hs hss⟩
    · rintro ⟨ss, hss, has⟩
      cases has with
      | nil => cases hss
      | cons hs hss' =>
        obtain ⟨rfl, rfl⟩ := List.cons_eq_cons.mp hss
        rw [itemsFrom, (h _ _ _).mpr ⟨_, rfl, hs⟩, ih.mpr ⟨_, rfl, hss'⟩]
        rfl

theorem reads_items : Reads (fun path => items path read)
    fun v as => ∃ ss, v = .texts ss ∧ List.Forall₂ Item ss as := by
  intro path v as
  cases v with
  | list vs =>
    refine (itemsFrom_eq_ok h).trans (exists_congr fun ss => and_congr_left fun _ => ?_)
    simp [Value.texts]
  | _ => simp [items, fail, Value.texts]

theorem reads_oneOrMany : Reads (fun path => oneOrMany path read)
    fun v as => ∃ ss, v.Says ss ∧ List.Forall₂ Item ss as := by
  intro path v as
  cases v with
  | text s =>
    have hone : ∀ ss, Value.list [.text s] = .texts ss ↔ (Value.text s).Says ss := by
      intro ss
      simp [Value.Says, Value.texts, eq_comm, List.map_eq_cons_iff]
    exact (reads_items h path (.list [.text s]) as).trans (exists_congr fun ss => and_congr_left fun _ => hone ss)
  | list vs =>
    have hmany : ∀ ss, Value.list vs = .texts ss ↔ (Value.list vs).Says ss := by
      intro ss
      simp [Value.Says]
    exact (reads_items h path (.list vs) as).trans (exists_congr fun ss => and_congr_left fun _ => hmany ss)
  | _ => simp [oneOrMany, items, fail, Value.Says, Value.texts]

end Items

theorem optional_of_ne_null {v : Value} (h : v ≠ .null) (read : Value → Checked α) :
    Form.optional read v = (read v).map some := by
  cases v with
  | null => exact absurd rfl h
  | _ => rfl

theorem reads_optional (h : Reads read Is) (hnull : ∀ a, ¬Is .null a) :
    Reads (fun path => Form.optional (read path)) (Value.OrNull Is) := by
  intro path v x
  by_cases hv : v = .null
  · subst hv
    simp [Form.optional, Value.OrNull, hnull, eq_comm]
  · show Form.optional (read path) v = .ok x ↔ _
    rw [optional_of_ne_null hv]
    constructor
    · intro hok
      obtain ⟨a, ha, rfl⟩ := Except.map_eq_ok hok
      exact .inr ⟨a, (h path v a).mp ha, rfl⟩
    · rintro (⟨hnone, -⟩ | ⟨a, ha, rfl⟩)
      · exact absurd hnone hv
      · rw [(h path v a).mpr ha]
        rfl

theorem field_cons_of_none {F : Row} {name : String} (h : F.lookup name = none) (names : List String) (default : α)
    (read : List Step → Value → Checked α) : field F (name :: names) default read = field F names default read := by
  rw [field, field, List.find?_cons_of_neg (by simp [h])]

/-- A field is read under the first of its names that is there. -/
theorem field_eq_ok_iff (h : Reads read Is) {F : Row} {names : List String} {default a : α} :
    field F names default read = .ok a ↔ Value.Given (names.findSome? fun c => F.lookup c) default Is a := by
  induction names with
  | nil =>
    show Except.ok default = .ok a ↔ a = default
    rw [Except.ok.injEq, eq_comm]
  | cons name names ih =>
    rw [List.findSome?_cons]
    cases hname : F.lookup name with
    | none => rw [field_cons_of_none hname, ih]
    | some v =>
      rw [field_cons_of_some hname]
      exact h _ v a

theorem field_single_eq_ok_iff (h : Reads read Is) {F : Row} {name : String} {default a : α} :
    field F [name] default read = .ok a ↔ Value.Given (F.lookup name) default Is a := by
  rw [field_eq_ok_iff h, List.findSome?_singleton]

theorem reads_texts : Reads (fun path => items path text) fun v cs => v = .texts cs := by
  intro path v cs
  refine (reads_items reads_text path v cs).trans ?_
  simp [List.forall₂_eq_eq_eq]

theorem reads_columns : Reads (fun path => oneOrMany path text) Value.Says := by
  intro path v cs
  refine (reads_oneOrMany reads_text path v cs).trans ?_
  simp [List.forall₂_eq_eq_eq]

end Form

/-! ## Options -/

open Form

/-- What an object says the rows are ordered by, under either name. -/
def Row.orderedBy (F : Row) : Option Value :=
  (F.lookup "orderBy").or (F.lookup "order_by")

/-- What each field of an object says of the options. -/
structure Row.Gives (F : Row) (entry : Entry) : Prop where
  below : Value.Given (F.lookup "include") none (Value.OrNull fun v fields => v = .object fields) entry.below
  limit : Value.Given (F.lookup "limit") none
    (Value.OrNull fun v n => ∃ i : Int, v = .int i ∧ 0 < i ∧ i.toNat = n) entry.options.limit
  offset : Value.Given (F.lookup "offset") 0 (fun v n => ∃ i : Int, v = .int i ∧ 0 ≤ i ∧ i.toNat = n)
    entry.options.offset
  orderBy : Value.Given F.orderedBy none (Value.OrNull Value.Says) entry.options.orderBy
  order : Value.Given (F.lookup "order") none
    (Value.OrNull fun v ds => ∃ ss, v.Says ss ∧ List.Forall₂ Direction.Named ss ds) entry.options.order
  select : Value.Given (F.lookup "select") none (Value.OrNull fun v cs => v = .texts cs) entry.options.select
  exclude : Value.Given (F.lookup "exclude") none (Value.OrNull fun v cs => v = .texts cs) entry.options.exclude

/-- All names in an object are those of options; one of them has another spelling. -/
def Row.HasKnownNames (F : Row) : Prop :=
  ∀ c ∈ F.columns, c ∈ Entry.known ∨ (c = "order_by" ∧ F.lookup "orderBy" = none)

namespace Entry

variable {F : Row} {entry : Entry}

theorem isUnexpected_eq_false {c : String} :
    isUnexpected F c = false ↔ c ∈ known ∨ (c = "order_by" ∧ F.lookup "orderBy" = none) := by
  rw [isUnexpected, ← Option.isNone_iff_eq_none]
  simp only [Bool.and_eq_false_iff, Bool.not_eq_false', Bool.and_eq_true, List.contains_iff_mem, decide_eq_true_eq]

theorem unexpected_eq_ok_iff : unexpected F = .ok () ↔ F.HasKnownNames := by
  have hnames : F.columns.filter (isUnexpected F) = [] ↔ F.HasKnownNames := by
    simp only [List.filter_eq_nil_iff, Bool.not_eq_true, isUnexpected_eq_false, Row.HasKnownNames]
  rw [← hnames, unexpected]
  cases F.columns.filter (isUnexpected F) with
  | nil => exact ⟨fun _ => rfl, fun _ => rfl⟩
  | cons c cs => exact iff_of_false (by rintro ⟨⟩) (List.cons_ne_nil c cs)

theorem field_orderBy_eq_ok_iff {x : Option (List String)} :
    field F ["orderBy", "order_by"] none (fun p => Form.optional (oneOrMany p text)) = .ok x ↔
      Value.Given F.orderedBy none (Value.OrNull Value.Says) x := by
  have hnames : (["orderBy", "order_by"].findSome? fun c => F.lookup c) = F.orderedBy := by
    rw [List.findSome?_cons, List.findSome?_singleton, Row.orderedBy]
    cases F.lookup "orderBy" <;> rfl
  rw [field_eq_ok_iff (reads_optional reads_columns (by simp [Value.Says, Value.texts])), hnames]

/-- Options are read field by field, and nothing else may be there. -/
theorem readFields_eq_ok_iff : readFields F = .ok entry ↔ F.Gives entry ∧ F.HasKnownNames := by
  have hread {α : Type} {read : List Step → Value → Checked α} {Is : Value → α → Prop} (h : Reads read Is)
      (hnull : ∀ a, ¬Is .null a) (name : String) (x : Option α) :
      field F [name] none (fun path => Form.optional (read path)) = .ok x ↔
        Value.Given (F.lookup name) none (Value.OrNull Is) x :=
    field_single_eq_ok_iff (reads_optional h hnull)
  have hbelow := hread reads_object nofun "include" entry.below
  have hlimit := hread reads_positive nofun "limit" entry.options.limit
  have hoffset := @field_single_eq_ok_iff _ _ _ reads_natural F "offset" 0 entry.options.offset
  have horderBy := @field_orderBy_eq_ok_iff F entry.options.orderBy
  have horder := hread (reads_oneOrMany reads_direction) nofun "order" entry.options.order
  have hselect := hread reads_texts nofun "select" entry.options.select
  have hexclude := hread reads_texts nofun "exclude" entry.options.exclude
  constructor
  · intro h
    obtain ⟨⟨below, limit, offset, orderBy, order, select, exclude, u⟩, hall, hentry⟩ := Except.bind_eq_ok h
    cases hentry
    simp only [both_eq_ok] at hall
    obtain ⟨h₁, h₂, h₃, h₄, h₅, h₆, h₇, hnames⟩ := hall
    exact ⟨⟨hbelow.mp h₁, hlimit.mp h₂, hoffset.mp h₃, horderBy.mp h₄, horder.mp h₅, hselect.mp h₆, hexclude.mp h₇⟩,
      unexpected_eq_ok_iff.mp hnames⟩
  · rintro ⟨h, hnames⟩
    unfold readFields
    rw [hbelow.mpr h.below, hlimit.mpr h.limit, hoffset.mpr h.offset, horderBy.mpr h.orderBy, horder.mpr h.order,
      hselect.mpr h.select, hexclude.mpr h.exclude, unexpected_eq_ok_iff.mpr hnames]
    rfl

theorem forM_wholeText (h : F.HasKnownNames) :
    (F.columns.forM fun name => (wholeText [] name).map fun _ => ()) = .ok () := by
  refine Except.forM_ok fun c hc => ?_
  have hwhole : ∀ c ∈ "order_by" :: known, wholeText [] c = .ok c := fun c hc =>
    if_neg ((by decide +kernel : ∀ c ∈ "order_by" :: known, ¬Text.hasHalf c = true) c hc)
  have hmem : c ∈ "order_by" :: known := by
    rcases h c hc with hknown | ⟨rfl, -⟩
    · exact List.mem_cons_of_mem _ hknown
    · exact List.mem_cons_self
  rw [hwhole c hmem]
  rfl

theorem read_eq_ok_iff :
    Entry.read F = .ok entry ↔ F.HasKnownNames ∧ F.Gives entry ∧ entry.options.orderFits = true := by
  constructor
  · intro h
    obtain ⟨hfields, hfits⟩ := read_eq_ok h
    obtain ⟨hgives, hnames⟩ := readFields_eq_ok_iff.mp hfields
    exact ⟨hnames, hgives, hfits⟩
  · rintro ⟨hnames, hgives, hfits⟩
    rw [Entry.read, forM_wholeText hnames, readFields_eq_ok_iff.mpr ⟨hgives, hnames⟩]
    exact if_pos hfits

end Entry

theorem Options.orderFits_iff (o : Options) : o.orderFits = true ↔
    ∀ ds, o.order = some ds → ds.length = 1 ∨ ∃ cs, o.orderBy = some cs ∧ ds.length = cs.length := by
  rw [orderFits]
  cases o.order with
  | none => simp
  | some ds =>
    cases ds with
    | nil => cases o.orderBy <;> simp
    | cons d ds => cases ds <;> cases o.orderBy <;> simp

/-! ## The grammar -/

/-- An object with options: all its names are known, its values have the shapes that they should, and the directions,
if there are any, are one for all columns or one for each. -/
structure Row.IsOptions (F : Row) : Prop where
  names : ∀ c ∈ F.columns, c ∈ ["include", "limit", "offset", "orderBy", "order", "select", "exclude"] ∨
    (c = "order_by" ∧ F.lookup "orderBy" = none)
  below : ∀ v, F.lookup "include" = some v → v = .null ∨ ∃ fields, v = .object fields
  limit : ∀ v, F.lookup "limit" = some v → v = .null ∨ ∃ i : Int, v = .int i ∧ 0 < i
  offset : ∀ v, F.lookup "offset" = some v → ∃ i : Int, v = .int i ∧ 0 ≤ i
  orderBy : ∀ v, F.orderedBy = some v → v = .null ∨ ∃ cs, v.Says cs
  order : ∀ v, F.lookup "order" = some v → v = .null ∨ ∃ ss, v.Says ss ∧ ∀ s ∈ ss, s = "asc" ∨ s = "desc"
  select : ∀ v, F.lookup "select" = some v → v = .null ∨ ∃ cs, v = .texts cs
  exclude : ∀ v, F.lookup "exclude" = some v → v = .null ∨ ∃ cs, v = .texts cs
  fits : ∀ v ss, F.lookup "order" = some v → v.Says ss →
    ss.length = 1 ∨ ∃ w cs, F.orderedBy = some w ∧ w.Says cs ∧ ss.length = cs.length

/-- The direction that an object asks for at a place of its order: ascending if there is none, the only one, or the one
that stands there. -/
structure Row.Directs (F : Row) (i : Nat) (d : Direction) : Prop where
  absent : F.lookup "order" = none ∨ F.lookup "order" = some .null → d = .asc
  empty : ∀ v, F.lookup "order" = some v → v.Says [] → d = .asc
  shared : ∀ v s, F.lookup "order" = some v → v.Says [s] → Direction.Named s d
  each : ∀ v ss, F.lookup "order" = some v → v.Says ss → 2 ≤ ss.length → ∃ s, ss[i]? = some s ∧ Direction.Named s d

section Grammar

variable {α : Type} {Is : Value → α → Prop} {v? : Option Value} {v : Value} {ss : List String}

theorem Value.not_says_null : ¬Value.Says .null ss := by
  simp [Says, texts]

theorem Value.Says.unique {ss' : List String} (h : v.Says ss) (h' : v.Says ss') : ss = ss' :=
  reads_columns.unique h h'

/-- A value is given just if it is there and not null. -/
theorem Value.given_some {a : α} : Value.Given v? none (Value.OrNull Is) (some a) ↔ ∃ v, v? = some v ∧ Is v a := by
  cases v? <;> simp [Given, OrNull]

/-- What was written is given, also if there was nothing to write. -/
theorem Value.given_map {x : Option α} {write : α → Value} (h : ∀ a, x = some a → Is (write a) a) :
    Value.Given (x.map write) none (Value.OrNull Is) x := by
  cases x with
  | none => rfl
  | some a => exact .inr ⟨a, h a rfl, rfl⟩

theorem Value.exists_given :
    (∃ x, Value.Given v? none (Value.OrNull Is) x) ↔ ∀ v, v? = some v → v = .null ∨ ∃ a, Is v a := by
  cases v? with
  | none => simp [Given]
  | some v =>
    simp only [Given, OrNull, Option.some.injEq, forall_eq']
    constructor
    · rintro ⟨x, ⟨hnull, -⟩ | ⟨a, ha, -⟩⟩
      · exact .inl hnull
      · exact .inr ⟨a, ha⟩
    · rintro (hnull | ⟨a, ha⟩)
      · exact ⟨none, .inl ⟨hnull, rfl⟩⟩
      · exact ⟨some a, .inr ⟨a, ha, rfl⟩⟩

theorem Direction.exists_named : (∃ ds, List.Forall₂ Named ss ds) ↔ ∀ s ∈ ss, s = "asc" ∨ s = "desc" := by
  induction ss with
  | nil => exact ⟨fun _ s hs => absurd hs List.not_mem_nil, fun _ => ⟨[], .nil⟩⟩
  | cons s ss ih =>
    rw [List.forall_mem_cons, ← ih]
    constructor
    · intro ⟨_, hds⟩
      cases hds with
      | cons hd hrest => exact ⟨hd.imp And.left And.left, _, hrest⟩
    · rintro ⟨rfl | rfl, ds, hds⟩
      · exact ⟨.asc :: ds, .cons (.inl ⟨rfl, rfl⟩) hds⟩
      · exact ⟨.desc :: ds, .cons (.inr ⟨rfl, rfl⟩) hds⟩

variable {F : Row} {entry : Entry}

namespace Row.Gives

theorem order_eq (h : F.Gives entry) (hv : F.lookup "order" = some v) (hss : v.Says ss) :
    ∃ ds, entry.options.order = some ds ∧ List.Forall₂ Direction.Named ss ds := by
  have horder := h.order
  rw [hv] at horder
  rcases horder with ⟨rfl, -⟩ | ⟨ds, ⟨ss', hss', hds⟩, heq⟩
  · exact absurd hss Value.not_says_null
  · obtain rfl := hss.unique hss'
    exact ⟨ds, heq, hds⟩

theorem orderBy_eq (h : F.Gives entry) (hv : F.orderedBy = some v) (hss : v.Says ss) :
    entry.options.orderBy = some ss := by
  have horderBy := h.orderBy
  rw [hv] at horderBy
  rcases horderBy with ⟨rfl, -⟩ | ⟨cs, hcs, heq⟩
  · exact absurd hss Value.not_says_null
  · rw [heq, hss.unique hcs]

end Row.Gives

/-- The directions fit the columns in an object just if they do in the options that it gives. -/
theorem Row.Gives.orderFits_iff (h : F.Gives entry) : entry.options.orderFits = true ↔
    ∀ v ss, F.lookup "order" = some v → v.Says ss →
      ss.length = 1 ∨ ∃ w cs, F.orderedBy = some w ∧ w.Says cs ∧ ss.length = cs.length := by
  rw [Options.orderFits_iff]
  constructor
  · intro hfits v ss hv hss
    obtain ⟨ds, hds, hnamed⟩ := h.order_eq hv hss
    rw [hnamed.length_eq]
    refine (hfits ds hds).imp_right ?_
    rintro ⟨cs, hcs, hlength⟩
    obtain ⟨w, hw, hsays⟩ := Value.given_some.mp (hcs ▸ h.orderBy)
    exact ⟨w, cs, hw, hsays, hlength⟩
  · intro hfits ds hds
    obtain ⟨v, hv, ss, hss, hnamed⟩ := Value.given_some.mp (hds ▸ h.order)
    rw [← hnamed.length_eq]
    refine (hfits v ss hv hss).imp_right ?_
    rintro ⟨w, cs, hw, hsays, hlength⟩
    exact ⟨cs, h.orderBy_eq hw hsays, hlength⟩

/-- An object with options is one that is read. -/
theorem Row.isOptions_iff : F.IsOptions ↔ ∃ entry, Entry.read F = .ok entry := by
  have hpositive (v : Value) : (∃ n, ∃ i : Int, v = .int i ∧ 0 < i ∧ i.toNat = n) ↔ ∃ i : Int, v = .int i ∧ 0 < i :=
    ⟨fun ⟨_, i, hi, hpos, _⟩ => ⟨i, hi, hpos⟩, fun ⟨i, hi, hpos⟩ => ⟨_, i, hi, hpos, rfl⟩⟩
  have hnamed (v : Value) : (∃ ds, ∃ ss, v.Says ss ∧ List.Forall₂ Direction.Named ss ds) ↔
      ∃ ss, v.Says ss ∧ ∀ s ∈ ss, s = "asc" ∨ s = "desc" := by
    simp only [← Direction.exists_named]
    exact ⟨fun ⟨ds, ss, hss, hds⟩ => ⟨ss, hss, ds, hds⟩, fun ⟨ss, hss, ds, hds⟩ => ⟨ds, ss, hss, hds⟩⟩
  have hoffset : (∃ n, Value.Given (F.lookup "offset") 0 (fun v n => ∃ i : Int, v = .int i ∧ 0 ≤ i ∧ i.toNat = n) n) ↔
      ∀ v, F.lookup "offset" = some v → ∃ i : Int, v = .int i ∧ 0 ≤ i := by
    cases F.lookup "offset" with
    | none => simp [Value.Given]
    | some v => simp [Value.Given]
  simp only [Entry.read_eq_ok_iff]
  constructor
  · intro h
    obtain ⟨below, hbelow⟩ := Value.exists_given.mpr h.below
    obtain ⟨limit, hlimit⟩ := Value.exists_given.mpr fun v hv => (h.limit v hv).imp_right (hpositive v).mpr
    obtain ⟨offset, hoffset⟩ := hoffset.mpr h.offset
    obtain ⟨orderBy, horderBy⟩ := Value.exists_given.mpr h.orderBy
    obtain ⟨order, horder⟩ := Value.exists_given.mpr fun v hv => (h.order v hv).imp_right (hnamed v).mpr
    obtain ⟨select, hselect⟩ := Value.exists_given.mpr h.select
    obtain ⟨exclude, hexclude⟩ := Value.exists_given.mpr h.exclude
    have hgives : F.Gives ⟨⟨limit, offset, orderBy, order, select, exclude⟩, below⟩ :=
      ⟨hbelow, hlimit, hoffset, horderBy, horder, hselect, hexclude⟩
    exact ⟨_, h.names, hgives, hgives.orderFits_iff.mpr h.fits⟩
  · rintro ⟨entry, hnames, h, hfits⟩
    exact ⟨hnames, Value.exists_given.mp ⟨_, h.below⟩,
      fun v hv => (Value.exists_given.mp ⟨_, h.limit⟩ v hv).imp_right (hpositive v).mp, hoffset.mp ⟨_, h.offset⟩,
      Value.exists_given.mp ⟨_, h.orderBy⟩,
      fun v hv => (Value.exists_given.mp ⟨_, h.order⟩ v hv).imp_right (hnamed v).mp,
      Value.exists_given.mp ⟨_, h.select⟩, Value.exists_given.mp ⟨_, h.exclude⟩, h.orderFits_iff.mp hfits⟩

end Grammar

/-! ## Orders -/

namespace Options

variable {o : Options} {columns : List String}

theorem length_directions (h : o.orderFits = true) (hcolumns : o.orderBy = some columns) :
    (o.directions columns).length = columns.length := by
  have hfits := o.orderFits_iff.mp h
  rw [directions]
  split
  · exact List.length_map _
  · exact List.length_map _
  · exact List.length_map _
  · next ds _ hone hds =>
    rcases hfits ds hds with hlength | ⟨cs, hcs, hlength⟩
    · obtain ⟨d, rfl⟩ := List.length_eq_one_iff.mp hlength
      exact absurd rfl (hone d)
    · rw [hcolumns] at hcs
      cases hcs
      exact hlength

/-- No column of an order is lost. -/
theorem map_fst_ordering (h : o.orderFits = true) : o.ordering.map Prod.fst = o.orderBy.getD [] := by
  rw [ordering]
  cases hcolumns : o.orderBy with
  | none => rfl
  | some columns => exact List.map_fst_zip (Nat.le_of_eq (length_directions h hcolumns).symm)

theorem direction_of_ordering {i : Nat} {c : String} {d : Direction} (h : o.ordering[i]? = some (c, d)) :
    ∃ columns, (o.directions columns)[i]? = some d := by
  rw [ordering] at h
  split at h
  · cases h
  · next columns _ => exact ⟨columns, (List.getElem?_zip_eq_some.mp h).2⟩

end Options

theorem Row.Gives.directs {F : Row} {entry : Entry} (h : F.Gives entry) {i : Nat} {c : String} {d : Direction}
    (hd : entry.options.ordering[i]? = some (c, d)) : F.Directs i d := by
  obtain ⟨columns, hcolumns⟩ := Options.direction_of_ordering hd
  have hconst {d' : Direction} (hi : (columns.map fun _ => d')[i]? = some d) : d' = d := by
    obtain ⟨_, -, rfl⟩ := Option.map_eq_some_iff.mp (List.getElem?_map .. ▸ hi)
    rfl
  rw [Options.directions] at hcolumns
  refine ⟨fun hnone => ?_, fun v hv hss => ?_, fun v s hv hss => ?_, fun v ss hv hss hlength => ?_⟩
  · have hnone : entry.options.order = none := by
      have horder := h.order
      rcases hnone with hnone | hnull
      · rw [hnone] at horder
        exact horder
      · rw [hnull] at horder
        rcases horder with ⟨-, heq⟩ | ⟨_, ⟨_, hss, -⟩, -⟩
        · exact heq
        · exact absurd hss Value.not_says_null
    rw [hnone] at hcolumns
    exact (hconst hcolumns).symm
  · obtain ⟨ds, hds, hnamed⟩ := h.order_eq hv hss
    cases hnamed
    rw [hds] at hcolumns
    exact (hconst hcolumns).symm
  · obtain ⟨ds, hds, hnamed⟩ := h.order_eq hv hss
    cases hnamed with
    | cons hd hrest =>
      cases hrest
      rw [hds] at hcolumns
      rwa [← hconst hcolumns]
  · obtain ⟨ds, hds, hnamed⟩ := h.order_eq hv hss
    have hplace : ds[i]? = some d := by
      obtain ⟨d₁, d₂, rest, rfl⟩ : ∃ d₁ d₂ rest, ds = d₁ :: d₂ :: rest := by
        rw [hnamed.length_eq] at hlength
        match ds, hlength with
        | d₁ :: d₂ :: rest, _ => exact ⟨d₁, d₂, rest, rfl⟩
      rwa [hds] at hcolumns
    obtain ⟨hi, rfl⟩ := List.getElem?_eq_some_iff.mp hplace
    have hi' : i < ss.length := hnamed.length_eq ▸ hi
    exact ⟨ss[i], List.getElem?_eq_getElem hi', hnamed.get hi' hi⟩

/-- Options are read from the objects of the grammar and from no others.  An order has all the columns that it was
given, in their order, each with the direction that was given for it. -/
theorem Entry.ofValue_accepts (F : Row) :
    ((∃ entry, Entry.ofValue (.object F) = .ok entry) ↔ F.IsOptions) ∧
      ∀ entry, Entry.ofValue (.object F) = .ok entry → F.Gives entry ∧
        entry.options.ordering.map Prod.fst = entry.options.orderBy.getD [] ∧
        ∀ i c d, entry.options.ordering[i]? = some (c, d) → F.Directs i d := by
  refine ⟨Row.isOptions_iff.symm, fun entry h => ?_⟩
  obtain ⟨-, hgives, hfits⟩ := Entry.read_eq_ok_iff.mp h
  exact ⟨hgives, Options.map_fst_ordering hfits, fun i c d hd => hgives.directs hd⟩

/-- Two columns under the other spelling share a direction; three directions for them are not accepted. -/
theorem Entry.ofValue_accepts_shared :
    (∃ entry, Entry.ofValue (.object [("order_by", .texts ["title", "id"]), ("order", .text "desc")]) = .ok entry ∧
      entry.options.ordering.map Prod.fst = ["title", "id"] ∧
      Row.Directs [("order_by", .texts ["title", "id"]), ("order", .text "desc")] 1 .desc) ∧
    ¬Row.IsOptions [("order_by", .texts ["title", "id"]), ("order", .texts ["asc", "desc", "asc"])] := by
  constructor
  · obtain ⟨-, hshared⟩ :=
      Entry.ofValue_accepts [("order_by", .texts ["title", "id"]), ("order", .text "desc")]
    obtain ⟨-, hcolumns, hdirects⟩ := hshared _ rfl
    exact ⟨_, rfl, hcolumns, hdirects 1 "id" .desc rfl⟩
  · rw [← (Entry.ofValue_accepts _).1]
    rintro ⟨entry, hentry⟩
    cases hentry

end RelatedRows

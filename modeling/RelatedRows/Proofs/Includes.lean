import RelatedRows.Include.Request
import RelatedRows.Proofs.Entries

/-!
# Options that include something else

What an options object includes below is read apart from its other fields.

* `Entry.read_mapBelow`: two options objects that differ in what they include only are read alike.
* `Row.mapIncluded f`, `withoutIncludes`: an options object with another include, and with none.
-/

namespace RelatedRows

open Form

/-! ## Options with other includes -/

theorem Form.both_map_left {α β γ : Type} (f : α → γ) (x : Checked α) (y : Checked β) :
    both (x.map f) y = (both x y).map fun a => (f a.1, a.2) := by
  cases x <;> cases y <;> rfl

namespace Entry

/-- The entry with something else included. -/
def mapBelow (f : Option Row → Option Row) (entry : Entry) : Entry :=
  { entry with below := f entry.below }

variable {F F' : Row} {f : Option Row → Option Row}

/-- Fields other than what is included are read as before. -/
theorem readFields_mapBelow (hunexpected : unexpected F' = unexpected F)
    (hlookup : ∀ c, c ≠ "include" → F'.lookup c = F.lookup c) (hinclude : includeOf F' = (includeOf F).map f) :
    readFields F' = (readFields F).map (mapBelow f) := by
  have hsame {α : Type} (names : List String) (hnames : "include" ∉ names) (default : α)
      (read : List Step → Value → Checked α) : field F' names default read = field F names default read :=
    field_congr (fun c hc => hlookup c fun h => hnames (h ▸ hc)) default read
  unfold includeOf at hinclude
  unfold readFields
  rw [hsame ["limit"] (by decide), hsame ["offset"] (by decide), hsame ["orderBy", "order_by"] (by decide),
    hsame ["order"] (by decide), hsame ["select"] (by decide), hsame ["exclude"] (by decide), hunexpected, hinclude]
  simp only [both_map_left]
  generalize both (field F ["include"] none fun p => Form.optional (object p)) _ = all
  cases all <;> rfl

theorem read_mapBelow
    (hnames : (F'.columns.forM fun name => (wholeText [] name).map fun _ => ()) =
      F.columns.forM fun name => (wholeText [] name).map fun _ => ())
    (hunexpected : unexpected F' = unexpected F) (hlookup : ∀ c, c ≠ "include" → F'.lookup c = F.lookup c)
    (hinclude : includeOf F' = (includeOf F).map f) : Entry.read F' = (Entry.read F).map (mapBelow f) := by
  unfold Entry.read
  rw [hnames, readFields_mapBelow hunexpected hlookup hinclude]
  cases F.columns.forM fun name => (wholeText [] name).map fun _ => () with
  | error e => rfl
  | ok u =>
    cases readFields F with
    | error e => rfl
    | ok entry =>
      show (if entry.options.orderFits then _ else _) = Except.map _ (if entry.options.orderFits then _ else _)
      split <;> rfl

end Entry

/-! ## Options that include less -/

@[simp] theorem Value.mapFields_object (f : Row → Row) (fields : Row) :
    (object fields).mapFields f = object (f fields) := rfl

/-- The fields of an options object, with something else in what it includes. -/
def Row.mapIncluded (f : Row → Row) (options : Row) : Row :=
  options.map fun o => if o.1 = "include" then (o.1, o.2.mapFields f) else o

namespace Row

variable (f : Row → Row) (F : Row)

theorem columns_mapIncluded : (F.mapIncluded f).columns = F.columns := by
  simp only [columns, mapIncluded, List.map_map]
  refine List.map_congr_left fun o _ => ?_
  simp only [Function.comp]
  split <;> rfl

theorem lookup_mapIncluded (c : String) :
    (F.mapIncluded f).lookup c = if c = "include" then (F.lookup c).map (Value.mapFields f) else F.lookup c := by
  induction F with
  | nil => simp [mapIncluded]
  | cons o F ih =>
    obtain ⟨d, v⟩ := o
    simp only [mapIncluded] at ih
    simp only [mapIncluded, List.map_cons]
    by_cases hc : c = d
    · subst hc
      by_cases hinclude : c = "include" <;> simp [hinclude]
    · by_cases hd : d = "include"
      · rw [if_pos hd, lookup_cons_of_ne hc, lookup_cons_of_ne hc, ih]
      · rw [if_neg hd, lookup_cons_of_ne hc, lookup_cons_of_ne hc, ih]

theorem includeOf_mapIncluded : Entry.includeOf (F.mapIncluded f) = (Entry.includeOf F).map (Option.map f) := by
  have hlookup := lookup_mapIncluded f F "include"
  rw [if_pos rfl] at hlookup
  cases hF : F.lookup "include" with
  | none =>
    rw [hF] at hlookup
    rw [Entry.below_eq_none hF, Entry.below_eq_none hlookup]
    rfl
  | some v =>
    rw [hF] at hlookup
    rw [Entry.includeOf_of_some hF, Entry.includeOf_of_some hlookup]
    cases v <;> rfl

end Row

theorem Entry.unexpected_congr {F F' : Row}
    (hcolumns : F'.columns.filter (isUnexpected F) = F.columns.filter (isUnexpected F))
    (hlookup : F'.lookup "orderBy" = F.lookup "orderBy") : unexpected F' = unexpected F := by
  have hname : isUnexpected F' = isUnexpected F := by
    funext name
    rw [isUnexpected, isUnexpected, hlookup]
  rw [unexpected, unexpected, hname, hcolumns]

theorem Entry.read_mapIncluded (f : Row → Row) (F : Row) :
    Entry.read (F.mapIncluded f) = (Entry.read F).map (Entry.mapBelow (Option.map f)) := by
  have hlookup : ∀ c, c ≠ "include" → (F.mapIncluded f).lookup c = F.lookup c := by
    intro c hc
    rw [Row.lookup_mapIncluded, if_neg hc]
  refine read_mapBelow (by rw [Row.columns_mapIncluded]) ?_ hlookup (Row.includeOf_mapIncluded f F)
  exact unexpected_congr (by rw [Row.columns_mapIncluded]) (hlookup _ (by decide))

/-! ## Options without includes -/

section WithoutIncludes

variable (F : Row)

/-- A field is dropped if it is what is included, and may be that. -/
theorem withoutIncludes_cons (d : String) (v : Value) :
    (d = "include" ∧ v.isIncludable = true ∧ withoutIncludes ((d, v) :: F) = withoutIncludes F) ∨
      ((d = "include" → v.isIncludable = false) ∧ withoutIncludes ((d, v) :: F) = (d, v) :: withoutIncludes F) := by
  by_cases h : d = "include" ∧ v.isIncludable = true
  · exact .inl ⟨h.1, h.2, List.filter_cons_of_neg (by simp [h])⟩
  · have hkeep : d = "include" → v.isIncludable = false := fun hd => by simpa [hd] using h
    exact .inr ⟨hkeep, List.filter_cons_of_pos (by simpa [imp_iff_not_or] using hkeep)⟩

theorem lookup_withoutIncludes_of_ne {c : String} (hc : c ≠ "include") :
    (withoutIncludes F).lookup c = F.lookup c := by
  induction F with
  | nil => rfl
  | cons o F ih =>
    obtain ⟨d, v⟩ := o
    rcases withoutIncludes_cons F d v with ⟨rfl, -, heq⟩ | ⟨-, heq⟩
    · rw [heq, ih, Row.lookup_cons_of_ne hc]
    · rw [heq, List.lookup_cons, List.lookup_cons, ih]

/-- A name that a row has once has no value once this one is gone. -/
theorem lookup_withoutIncludes (hF : F.columns.Nodup) :
    (withoutIncludes F).lookup "include" = (F.lookup "include").filter fun v => !v.isIncludable := by
  induction F with
  | nil => rfl
  | cons o F ih =>
    obtain ⟨d, v⟩ := o
    obtain ⟨hd, hrest⟩ := List.nodup_cons.mp hF
    rcases withoutIncludes_cons F d v with ⟨rfl, hv, heq⟩ | ⟨hv, heq⟩
    · rw [heq, ih hrest, Row.lookup_eq_none.mpr hd, List.lookup_cons_self]
      simp [Option.filter, hv]
    · rw [heq]
      by_cases hinclude : d = "include"
      · subst hinclude
        rw [List.lookup_cons_self, List.lookup_cons_self]
        simp [Option.filter, hv]
      · rw [Row.lookup_cons_of_ne (Ne.symm hinclude), Row.lookup_cons_of_ne (Ne.symm hinclude), ih hrest]

theorem includeOf_withoutIncludes (hF : F.columns.Nodup) :
    Entry.includeOf (withoutIncludes F) = (Entry.includeOf F).map fun _ => none := by
  have hlookup := lookup_withoutIncludes F hF
  cases hv : F.lookup "include" with
  | none =>
    rw [hv] at hlookup
    rw [Entry.below_eq_none hv, Entry.below_eq_none hlookup]
    rfl
  | some v =>
    rw [hv] at hlookup
    rw [Entry.includeOf_of_some hv]
    cases v with
    | null => rw [Entry.below_eq_none hlookup]; rfl
    | object below => rw [Entry.below_eq_none hlookup]; rfl
    | _ => rw [Entry.includeOf_of_some hlookup]; rfl

theorem columns_withoutIncludes (p : String → Bool) (hp : p "include" = false) :
    (withoutIncludes F).columns.filter p = F.columns.filter p := by
  induction F with
  | nil => rfl
  | cons o F ih =>
    obtain ⟨d, v⟩ := o
    simp only [Row.columns] at ih ⊢
    rcases withoutIncludes_cons F d v with ⟨rfl, -, heq⟩ | ⟨-, heq⟩
    · rw [heq, ih, List.map_cons, List.filter_cons_of_neg (by simp [hp])]
    · rw [heq, List.map_cons, List.map_cons, List.filter_cons, List.filter_cons, ih]

/-- A check of all names does not miss one that passes it. -/
theorem forM_withoutIncludes {ε : Type} (check : String → Except ε Unit) (hcheck : check "include" = .ok ()) :
    (withoutIncludes F).columns.forM check = F.columns.forM check := by
  induction F with
  | nil => rfl
  | cons o F ih =>
    obtain ⟨d, v⟩ := o
    have hcons (names : List String) : (d :: names).forM check = check d >>= fun _ => names.forM check := rfl
    simp only [Row.columns] at ih ⊢
    rcases withoutIncludes_cons F d v with ⟨rfl, -, heq⟩ | ⟨-, heq⟩
    · rw [heq, ih, List.map_cons, hcons, hcheck]
      rfl
    · rw [heq, List.map_cons, List.map_cons, hcons, hcons, ih]

theorem Entry.read_withoutIncludes (hF : F.columns.Nodup) :
    Entry.read (withoutIncludes F) = (Entry.read F).map (Entry.mapBelow fun _ => none) := by
  refine read_mapBelow (forM_withoutIncludes F _ ?_) ?_ (fun c hc => lookup_withoutIncludes_of_ne F hc)
    (includeOf_withoutIncludes F hF)
  · decide +kernel
  · exact unexpected_congr (columns_withoutIncludes F _ rfl) (lookup_withoutIncludes_of_ne F (by decide))

end WithoutIncludes

end RelatedRows

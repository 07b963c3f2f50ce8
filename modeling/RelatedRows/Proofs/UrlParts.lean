import Mathlib.Data.List.TakeWhile
import RelatedRows.Proofs.PercentCodes
import RelatedRows.Proofs.Results
import RelatedRows.Url.Split

/-!
# Parts read back

What a URL is cut into is joined to a text that is cut into the same parts.

* `Text.splitAtFirst_append`: a text is cut at its first separator.
* `Url.Normal`: the parts that a URL with a rooted path can have; `Url.normal_of_split`: its parts are such.
* `Url.split_join`: such parts are found again in the text that they are joined to.
-/

namespace RelatedRows

open Text (Letter)

/-! ## Cutting texts -/

namespace Text

variable {α : Type} [DecidableEq α] {sep : α} {a b xs : List α}

theorem cut_append (h : sep ∉ a) (b : List α) : cut sep (a ++ sep :: b) = some (a, b) := by
  have ha : ∀ c ∈ a, decide (c ≠ sep) = true := fun c hc => decide_eq_true fun heq => h (heq ▸ hc)
  rw [cut, List.takeWhile_append_of_pos ha, List.dropWhile_append_of_pos ha]
  simp

theorem cut_of_not_mem (h : sep ∉ a) : cut sep a = none := by
  have ha : ∀ c ∈ a, decide (c ≠ sep) = true := fun c hc => decide_eq_true fun heq => h (heq ▸ hc)
  rw [cut, List.dropWhile_eq_nil_iff.mpr ha]

/-- A text holds no separator, or it is cut at the first one. -/
theorem cut_eq (sep : α) (xs : List α) :
    (sep ∉ xs ∧ cut sep xs = none) ∨ ∃ a b, xs = a ++ sep :: b ∧ sep ∉ a ∧ cut sep xs = some (a, b) := by
  by_cases h : sep ∈ xs
  · obtain ⟨a, b, rfl, ha⟩ := List.eq_append_cons_of_mem h
    exact .inr ⟨a, b, rfl, ha, cut_append ha b⟩
  · exact .inl ⟨h, cut_of_not_mem h⟩

theorem not_mem_splitAtFirst (sep : α) (xs : List α) : sep ∉ (splitAtFirst sep xs).1 := by
  rw [splitAtFirst]
  rcases cut_eq sep xs with ⟨h, hcut⟩ | ⟨a, b, -, ha, hcut⟩
  · rw [hcut]
    exact h
  · rw [hcut]
    exact ha

theorem mem_of_splitAtFirst {x : α} (hx : x ∈ (splitAtFirst sep xs).1 ∨ x ∈ (splitAtFirst sep xs).2) : x ∈ xs := by
  rw [splitAtFirst] at hx
  rcases cut_eq sep xs with ⟨-, hcut⟩ | ⟨a, b, rfl, -, hcut⟩
  · rw [hcut] at hx
    exact hx.resolve_right List.not_mem_nil
  · rw [hcut] at hx
    exact List.mem_append.mpr (hx.imp_right (List.mem_cons_of_mem sep))

/-- What stands behind a separator, unless nothing does. -/
theorem splitAtFirst_append (h : sep ∉ a) (b : List α) :
    splitAtFirst sep (a ++ if b.isEmpty then [] else sep :: b) = (a, b) := by
  cases b with
  | nil =>
    rw [splitAtFirst]
    simp [cut_of_not_mem h]
  | cons c b =>
    rw [splitAtFirst]
    simp [cut_append h]

end Text

namespace Url

/-! ## Parts -/

/-- A path that is empty or starts with one slash only. -/
def IsRooted (path : List Letter) : Prop :=
  path = [] ∨ ∃ rest, path = .char '/' :: rest ∧ rest.head? ≠ some (.char '/')

/-- A scheme that is missing or written in small letters. -/
def IsLowered (scheme : List Letter) : Prop :=
  scheme = [] ∨ (isScheme scheme = true ∧ scheme.map Letter.toLower = scheme)

/-- Parts that a URL may be cut into. -/
structure Normal (u : Url) : Prop where
  scheme : IsLowered u.scheme
  authority : ∀ l ∈ u.authority, endsAuthority l = false
  checked : checkAuthority u.authority = .ok ()
  path : IsRooted u.path
  pathEnds : .char '#' ∉ u.path ∧ .char '?' ∉ u.path
  queryEnds : .char '#' ∉ u.query
  kept : ∀ l, l ∈ u.authority ∨ l ∈ u.path ∨ l ∈ u.query ∨ l ∈ u.fragment → isDropped l = false

/-- What a URL ends in, behind its path. -/
def tail (u : Url) : List Letter :=
  (if u.query.isEmpty then [] else .char '?' :: u.query) ++ (if u.fragment.isEmpty then [] else .char '#' :: u.fragment)

/-- What stands behind the scheme of a URL. -/
def behindScheme (u : Url) : List Letter :=
  (if u.showsAuthority then .char '/' :: .char '/' :: u.authority ++ rooted u.path else u.path) ++ u.tail

theorem join_eq (u : Url) : u.join = (if u.scheme.isEmpty then [] else u.scheme ++ [.char ':']) ++ u.behindScheme := by
  simp only [join, behindScheme, tail, List.append_assoc]

variable {u : Url}

/-- What follows a path is a delimiter. -/
theorem head_tail (u : Url) : u.tail = [] ∨ ∃ c rest, u.tail = .char c :: rest ∧ (c = '?' ∨ c = '#') := by
  rw [tail]
  cases u.query with
  | nil =>
    cases u.fragment with
    | nil => exact .inl rfl
    | cons l ls => exact .inr ⟨'#', l :: ls, rfl, .inr rfl⟩
  | cons l ls => exact .inr ⟨'?', _, rfl, .inl rfl⟩

theorem head_path_tail (h : u.Normal) :
    u.path ++ u.tail = [] ∨ ∃ c rest, u.path ++ u.tail = .char c :: rest ∧ (c = '/' ∨ c = '?' ∨ c = '#') := by
  rcases h.path with hpath | ⟨rest, hpath, -⟩
  · rw [hpath, List.nil_append]
    exact u.head_tail.imp_right fun ⟨c, rest, htail, hc⟩ => ⟨c, rest, htail, .inr hc⟩
  · rw [hpath]
    exact .inr ⟨'/', _, rfl, .inl rfl⟩

theorem path_tail_ne (h : u.Normal) (rest : List Letter) : u.path ++ u.tail ≠ .char '/' :: .char '/' :: rest := by
  have htail (rest : List Letter) : u.tail ≠ .char '/' :: rest := by
    rcases u.head_tail with hnil | ⟨c, ls, hcons, hc⟩
    · simp [hnil]
    · rintro heq
      rw [hcons] at heq
      obtain ⟨heq, -⟩ := List.cons_eq_cons.mp heq
      obtain rfl := Letter.char.inj heq
      exact absurd hc (by decide)
  rcases h.path with hpath | ⟨ls, hpath, hsingle⟩
  · rw [hpath, List.nil_append]
    exact htail _
  · rw [hpath]
    cases ls with
    | nil => exact fun heq => htail rest (List.cons_eq_cons.mp heq).2
    | cons l ls =>
      rintro heq
      obtain ⟨-, heq⟩ := List.cons_eq_cons.mp heq
      obtain ⟨rfl, -⟩ := List.cons_eq_cons.mp heq
      exact hsingle rfl

theorem splitAuthority_append {authority rest : List Letter} (hauthority : ∀ l ∈ authority, endsAuthority l = false)
    (hrest : rest = [] ∨ ∃ l ls, rest = l :: ls ∧ endsAuthority l = true) :
    splitAuthority (.char '/' :: .char '/' :: authority ++ rest) = (authority, rest) := by
  have hall : ∀ l ∈ authority, (!endsAuthority l) = true := fun l hl => by simp [hauthority l hl]
  show ((authority ++ rest).takeWhile _, (authority ++ rest).dropWhile _) = _
  rw [List.takeWhile_append_of_pos hall, List.dropWhile_append_of_pos hall]
  rcases hrest with rfl | ⟨l, ls, rfl, hl⟩
  · simp
  · simp [hl]

theorem splitAuthority_of_ne {ls : List Letter} (h : ∀ rest, ls ≠ .char '/' :: .char '/' :: rest) :
    splitAuthority ls = ([], ls) := by
  unfold splitAuthority
  split
  · next rest => exact absurd rfl (h rest)
  · rfl

theorem rooted_path (h : u.Normal) : rooted u.path = u.path := by
  rcases h.path with hpath | ⟨rest, hpath, -⟩
  · rw [hpath]
    rfl
  · rw [hpath]
    rfl

/-- The authority is found again, also one that is not written because it is empty. -/
theorem splitAuthority_behindScheme (h : u.Normal) :
    splitAuthority u.behindScheme = (u.authority, u.path ++ u.tail) := by
  rw [behindScheme]
  split
  · rw [rooted_path h, List.append_assoc]
    refine splitAuthority_append h.authority ((head_path_tail h).imp_right ?_)
    rintro ⟨c, rest, heq, rfl | rfl | rfl⟩
    all_goals exact ⟨_, rest, heq, rfl⟩
  · next hhidden =>
    have hauthority : u.authority = [] := by
      by_contra hne
      exact hhidden (by simp [showsAuthority, hne])
    rw [hauthority]
    exact splitAuthority_of_ne (path_tail_ne h)

/-! ## Schemes -/

/-- A scheme is made of characters that a scheme may have. -/
theorem exists_of_isScheme {scheme : List Letter} (h : isScheme scheme = true) :
    ∀ l ∈ scheme, ∃ c, l = .char c ∧ isSchemeChar c = true := by
  cases scheme with
  | nil => exact fun l hl => absurd hl List.not_mem_nil
  | cons l ls =>
    rw [isScheme, Bool.and_eq_true] at h
    obtain ⟨c, rfl, hc⟩ := Letter.is_iff.mp h.1
    refine List.forall_mem_cons.mpr ⟨⟨c, rfl, ?_⟩, fun l hl => Letter.is_iff.mp (List.all_eq_true.mp h.2 l hl)⟩
    simp [isSchemeChar, Char.isAlphanum, hc]

theorem splitScheme_append {scheme : List Letter} (h : isScheme scheme = true) (rest : List Letter) :
    splitScheme (scheme ++ .char ':' :: rest) = (scheme.map Letter.toLower, rest) := by
  have hcolon : .char ':' ∉ scheme := by
    intro hmem
    obtain ⟨c, heq, hc⟩ := exists_of_isScheme h _ hmem
    rw [← Letter.char.inj heq] at hc
    exact absurd hc (by decide)
  rw [splitScheme, Text.cut_append hcolon]
  exact if_pos h

theorem splitScheme_of_head {ls : List Letter} (h : ls = [] ∨ ∃ c rest, ls = .char c :: rest ∧ c.isAlpha = false) :
    splitScheme ls = ([], ls) := by
  rw [splitScheme]
  rcases Text.cut_eq (.char ':') ls with ⟨-, hcut⟩ | ⟨a, b, hls, -, hcut⟩
  · rw [hcut]
  · have hscheme : ¬isScheme a = true := by
      cases a with
      | nil => decide
      | cons d ds =>
        rcases h with rfl | ⟨c, rest, rfl, hc⟩
        · cases hls
        · obtain ⟨rfl, -⟩ := List.cons_eq_cons.mp hls
          simp [isScheme, Letter.is, Letter.char?, hc]
    rw [hcut]
    exact if_neg hscheme

theorem head_behindScheme (h : u.Normal) :
    u.behindScheme = [] ∨ ∃ c rest, u.behindScheme = .char c :: rest ∧ (c = '/' ∨ c = '?' ∨ c = '#') := by
  rw [behindScheme]
  split
  · exact .inr ⟨'/', _, rfl, .inl rfl⟩
  · exact head_path_tail h

/-- What stands behind the scheme does not look like one. -/
theorem splitScheme_join (h : u.Normal) : splitScheme u.join = (u.scheme, u.behindScheme) := by
  rw [join_eq]
  rcases h.scheme with hnone | ⟨hscheme, hlower⟩
  · rw [hnone]
    refine splitScheme_of_head ((head_behindScheme h).imp_right ?_)
    rintro ⟨c, rest, heq, rfl | rfl | rfl⟩
    all_goals exact ⟨_, rest, heq, by decide⟩
  · have hne : ¬u.scheme.isEmpty = true := fun hempty => by
      rw [List.isEmpty_iff.mp hempty] at hscheme
      cases hscheme
    rw [if_neg hne, List.append_assoc, List.singleton_append, splitScheme_append hscheme, hlower]

/-! ## Characters that are left out -/

theorem isDropped_eq_false {p : Char → Bool} (hp : p '\t' = false ∧ p '\r' = false ∧ p '\n' = false) {l : Letter}
    (h : l.is p = true) : isDropped l = false := by
  obtain ⟨c, rfl, hc⟩ := Letter.is_iff.mp h
  by_contra hdropped
  simp only [isDropped, Bool.not_eq_false, Bool.or_eq_true, decide_eq_true_eq, Letter.char.injEq] at hdropped
  rcases hdropped with (rfl | rfl) | rfl
  · exact absurd hc (by simp [hp.1])
  · exact absurd hc (by simp [hp.2.1])
  · exact absurd hc (by simp [hp.2.2])

theorem not_blank_of_isAlpha {c : Char} (h : c.isAlpha = true) : isControlOrBlank (.char c) = false := by
  have hlt (d : Char) (hd : ' ' < d) (hc : d ≤ c) : isControlOrBlank (.char c) = false :=
    decide_eq_false fun hle => absurd (Char.le_trans hc hle) (Char.not_le.mpr hd)
  rcases (isAlpha_iff c).mp h with ⟨h, -⟩ | ⟨h, -⟩
  · exact hlt 'A' (by decide) h
  · exact hlt 'a' (by decide) h

theorem head_join (h : u.Normal) : u.join = [] ∨ ∃ l rest, u.join = l :: rest ∧ isControlOrBlank l = false := by
  rw [join_eq]
  rcases h.scheme with hnone | ⟨hscheme, -⟩
  · rw [hnone]
    refine (head_behindScheme h).imp_right ?_
    rintro ⟨c, rest, heq, rfl | rfl | rfl⟩
    all_goals exact ⟨_, rest, heq, by decide⟩
  · cases hls : u.scheme with
    | nil =>
      rw [hls] at hscheme
      cases hscheme
    | cons l ls =>
      rw [hls, isScheme, Bool.and_eq_true] at hscheme
      obtain ⟨c, rfl, hc⟩ := Letter.is_iff.mp hscheme.1
      exact .inr ⟨.char c, _, rfl, not_blank_of_isAlpha hc⟩

theorem forall_mem_marked {p : Letter → Prop} {mark : Letter} {ls : List Letter} (hmark : p mark)
    (hls : ∀ l ∈ ls, p l) : ∀ l ∈ if ls.isEmpty then [] else mark :: ls, p l := by
  split
  · exact fun l hl => absurd hl List.not_mem_nil
  · exact List.forall_mem_cons.mpr ⟨hmark, hls⟩

theorem kept_join (h : u.Normal) : ∀ l ∈ u.join, isDropped l = false := by
  have hscheme : ∀ l ∈ u.scheme, isDropped l = false := by
    rcases h.scheme with hnone | ⟨hscheme, -⟩
    · simp [hnone]
    · intro l hl
      obtain ⟨c, rfl, hc⟩ := exists_of_isScheme hscheme l hl
      exact isDropped_eq_false (by decide) (Letter.is_iff.mpr ⟨c, rfl, hc⟩)
  have htail : ∀ l ∈ u.tail, isDropped l = false := by
    refine List.forall_mem_append.mpr ⟨?_, ?_⟩
    · exact forall_mem_marked (by decide) fun l hl => h.kept l (.inr (.inr (.inl hl)))
    · exact forall_mem_marked (by decide) fun l hl => h.kept l (.inr (.inr (.inr hl)))
  have hpath : ∀ l ∈ u.path, isDropped l = false := fun l hl => h.kept l (.inr (.inl hl))
  have hbehind : ∀ l ∈ u.behindScheme, isDropped l = false := by
    rw [behindScheme, rooted_path h]
    refine List.forall_mem_append.mpr ⟨?_, htail⟩
    split
    · refine List.forall_mem_cons.mpr ⟨by decide, List.forall_mem_cons.mpr ⟨by decide, ?_⟩⟩
      exact List.forall_mem_append.mpr ⟨fun l hl => h.kept l (.inl hl), hpath⟩
    · exact hpath
  rw [join_eq]
  refine List.forall_mem_append.mpr ⟨?_, hbehind⟩
  split
  · exact fun l hl => absurd hl List.not_mem_nil
  · exact List.forall_mem_append.mpr ⟨hscheme, List.forall_mem_singleton.mpr (by decide)⟩

/-- Nothing of a text that was joined is left out when it is cut again. -/
theorem cleaned_join (h : u.Normal) : (u.join.dropWhile isControlOrBlank).filter (!isDropped ·) = u.join := by
  have hhead : u.join.dropWhile isControlOrBlank = u.join := by
    rcases head_join h with heq | ⟨l, rest, heq, hl⟩
    · rw [heq]
      rfl
    · rw [heq, List.dropWhile_cons_of_neg (by simp [hl])]
  rw [hhead]
  exact List.filter_eq_self.mpr fun l hl => by simp [kept_join h l hl]

/-! ## Parts read back -/

theorem splitAtFirst_path_tail (h : u.Normal) :
    Text.splitAtFirst (.char '#') (u.path ++ u.tail) =
      (u.path ++ if u.query.isEmpty then [] else .char '?' :: u.query, u.fragment) := by
  have hbefore : .char '#' ∉ u.path ++ if u.query.isEmpty then [] else .char '?' :: u.query := by
    intro hmem
    rcases List.mem_append.mp hmem with hmem | hmem
    · exact h.pathEnds.1 hmem
    · split at hmem
      · cases hmem
      · rcases List.mem_cons.mp hmem with hmem | hmem
        · cases hmem
        · exact h.queryEnds hmem
  rw [tail, ← List.append_assoc, Text.splitAtFirst_append hbefore]

/-- The parts of a URL are found again in the text that they are joined to. -/
theorem split_join (h : u.Normal) : split u.join = .ok u := by
  rw [split, cleaned_join h, splitScheme_join h]
  dsimp only
  rw [splitAuthority_behindScheme h]
  dsimp only
  rw [h.checked, splitAtFirst_path_tail h]
  dsimp only
  rw [Text.splitAtFirst_append h.pathEnds.2]
  rfl

/-! ## Parts of a text -/

theorem toNat_of_isSchemeChar {c : Char} (h : isSchemeChar c = true) : c.toNat < 0x80 := by
  simp only [isSchemeChar, Bool.or_eq_true, decide_eq_true_eq] at h
  rcases h with ((h | rfl) | rfl) | rfl
  · exact toNat_of_isAlphanum h
  all_goals decide

theorem toLower_of_isSchemeChar {c : Char} (h : isSchemeChar c = true) :
    isSchemeChar c.toLower = true ∧ (c.isAlpha = true → c.toLower.isAlpha = true) ∧ c.toLower.toLower = c.toLower := by
  have hall : ∀ n < 0x80, isSchemeChar (Char.ofNat n) = true →
      isSchemeChar (Char.ofNat n).toLower = true ∧
        ((Char.ofNat n).isAlpha = true → (Char.ofNat n).toLower.isAlpha = true) ∧
          (Char.ofNat n).toLower.toLower = (Char.ofNat n).toLower := by
    decide +kernel
  have hc := hall c.toNat (toNat_of_isSchemeChar h)
  rw [Char.ofNat_toNat] at hc
  exact hc h

theorem isLowered_map {scheme : List Letter} (h : isScheme scheme = true) : IsLowered (scheme.map Letter.toLower) := by
  have hchars := exists_of_isScheme h
  refine .inr ⟨?_, ?_⟩
  · cases scheme with
    | nil => cases h
    | cons l ls =>
      obtain ⟨⟨c, rfl, hc⟩, hls⟩ := List.forall_mem_cons.mp hchars
      rw [isScheme, Bool.and_eq_true] at h
      rw [List.map_cons, isScheme, Bool.and_eq_true, List.all_map, List.all_eq_true]
      refine ⟨(toLower_of_isSchemeChar hc).2.1 h.1, fun l hl => ?_⟩
      obtain ⟨d, rfl, hd⟩ := hls l hl
      exact (toLower_of_isSchemeChar hd).1
  · rw [List.map_map]
    refine List.map_congr_left fun l hl => ?_
    obtain ⟨c, rfl, hc⟩ := hchars l hl
    exact congrArg Letter.char (toLower_of_isSchemeChar hc).2.2

theorem isLowered_splitScheme (ls : List Letter) : IsLowered (splitScheme ls).1 := by
  rw [splitScheme]
  split
  · split_ifs with hscheme
    · exact isLowered_map hscheme
    · exact .inl rfl
  · exact .inl rfl

theorem mem_of_splitScheme {ls : List Letter} {l : Letter} (hl : l ∈ (splitScheme ls).2) : l ∈ ls := by
  rw [splitScheme] at hl
  rcases Text.cut_eq (.char ':') ls with ⟨-, hcut⟩ | ⟨a, b, rfl, -, hcut⟩
  · rwa [hcut] at hl
  · rw [hcut] at hl
    dsimp only at hl
    split_ifs at hl
    · exact List.mem_append_right a (List.mem_cons_of_mem _ hl)
    · exact hl

theorem ends_splitAuthority (ls : List Letter) : ∀ l ∈ (splitAuthority ls).1, endsAuthority l = false := by
  unfold splitAuthority
  split
  · exact fun l hl => by simpa using List.mem_takeWhile_imp hl
  · exact fun l hl => absurd hl List.not_mem_nil

theorem mem_of_splitAuthority {ls : List Letter} {l : Letter}
    (hl : l ∈ (splitAuthority ls).1 ∨ l ∈ (splitAuthority ls).2) : l ∈ ls := by
  unfold splitAuthority at hl
  split at hl
  · refine List.mem_cons_of_mem _ (List.mem_cons_of_mem _ ?_)
    rcases hl with hl | hl
    · exact (List.takeWhile_sublist _).subset hl
    · exact (List.dropWhile_sublist _).subset hl
  · exact hl.resolve_left List.not_mem_nil

/-- What a text is cut into are parts of a URL, if the path is rooted. -/
theorem normal_of_split {text : List Letter} (h : split text = .ok u) (hpath : IsRooted u.path) : u.Normal := by
  rw [split] at h
  obtain ⟨_, hchecked, h⟩ := Except.bind_eq_ok h
  cases h
  have hkept : ∀ l ∈ (text.dropWhile isControlOrBlank).filter (!isDropped ·), isDropped l = false :=
    fun l hl => by simpa using (List.mem_filter.mp hl).2
  refine
    { scheme := isLowered_splitScheme _
      authority := ends_splitAuthority _
      checked := hchecked
      path := hpath
      pathEnds := ⟨fun hl => ?_, Text.not_mem_splitAtFirst _ _⟩
      queryEnds := fun hl => ?_
      kept := fun l hl => hkept l (mem_of_splitScheme (mem_of_splitAuthority ?_)) }
  · exact Text.not_mem_splitAtFirst _ _ (Text.mem_of_splitAtFirst (.inl hl))
  · exact Text.not_mem_splitAtFirst _ _ (Text.mem_of_splitAtFirst (.inr hl))
  · rcases hl with hl | hl | hl | hl
    · exact .inl hl
    · exact .inr (Text.mem_of_splitAtFirst (.inl (Text.mem_of_splitAtFirst (.inl hl))))
    · exact .inr (Text.mem_of_splitAtFirst (.inl (Text.mem_of_splitAtFirst (.inr hl))))
    · exact .inr (Text.mem_of_splitAtFirst (.inr hl))

end Url

end RelatedRows

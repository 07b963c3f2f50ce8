import Mathlib.Tactic.SplitIfs
import RelatedRows.Proofs.Results
import RelatedRows.Url.Query

/-!
# Parameters read back

A list of named values that is written as a query is read from it again.

* `Url.feed`: the characters that some bytes complete, one byte after the other.
* `Url.feed_utf8`: the bytes of a character complete this character.
* `Url.decode_of_encode`: a text is decoded from its code.
* `Text.split_intercalate`: parts that were joined by a separator are found again.
* `Url.parameters_of_encodeParameters`: so are the parameters of a query.
* `Url.error?_encodeParameters`: a list is written unless there is half of a pair in it.
-/

namespace RelatedRows

open Text (Letter LoneHalves)

namespace Url

/-! ## Bytes -/

/-- The characters that bytes complete, and the character that the last of them leave unfinished. -/
def feed : Option Partial → List Nat → List Letter × Option Partial
  | pending, [] => ([], pending)
  | pending, b :: bs =>
    ((nextByte pending b).1 ++ (feed (nextByte pending b).2 bs).1, (feed (nextByte pending b).2 bs).2)

theorem hexByte?_hexDigit {b : Nat} (h : b < 256) :
    hexByte? (.char (hexDigit (b / 16))) (.char (hexDigit (b % 16))) = some b := by
  have hdigit : ∀ n < 16, Text.hexDigit? (hexDigit n) = some n := by decide +kernel
  have hboth : hexByte? (.char (hexDigit (b / 16))) (.char (hexDigit (b % 16))) = some (b / 16 * 16 + b % 16) := by
    simp [hexByte?, Letter.char?, hdigit (b / 16) (by omega), hdigit (b % 16) (by omega)]
  rw [hboth, Nat.div_add_mod']

theorem decodeFrom_encodeByte {b : Nat} (h : b < 256) (pending : Option Partial) (rest : List Letter) :
    decodeFrom pending (encodeByte b ++ rest) =
      (nextByte pending b).1 ++ decodeFrom (nextByte pending b).2 rest := by
  show decodeFrom pending (.char '%' :: .char (hexDigit (b / 16)) :: .char (hexDigit (b % 16)) :: rest) = _
  rw [decodeFrom, hexByte?_hexDigit h]

theorem decodeFrom_flatMap {bs : List Nat} (h : ∀ b ∈ bs, b < 256) (pending : Option Partial) (rest : List Letter) :
    decodeFrom pending (bs.flatMap encodeByte ++ rest) =
      (feed pending bs).1 ++ decodeFrom (feed pending bs).2 rest := by
  induction bs generalizing pending with
  | nil => rfl
  | cons b bs ih =>
    obtain ⟨hb, hbs⟩ := List.forall_mem_cons.mp h
    rw [List.flatMap_cons, List.append_assoc, decodeFrom_encodeByte hb, ih hbs, feed, List.append_assoc]

/-! ## Characters -/

theorem nextByte_last {p : Partial} {b : Nat} (hlow : p.low ≤ b) (hhigh : b ≤ p.high) (hmissing : p.missing = 0) :
    nextByte (some p) b = ([.char (Char.ofNat (p.value * 0x40 + (b - 0x80)))], none) := by
  simp [nextByte, hlow, hhigh, hmissing]

theorem nextByte_more {p : Partial} {b missing : Nat} (hlow : p.low ≤ b) (hhigh : b ≤ p.high)
    (hmissing : p.missing = missing + 1) :
    nextByte (some p) b = ([], some ⟨p.value * 0x40 + (b - 0x80), missing, 0x80, 0xbf⟩) := by
  simp [nextByte, hlow, hhigh, hmissing]

/-- The bytes behind the first one each give six bits. -/
theorem feed_last {p : Partial} {n : Nat} (hlow : p.low ≤ 0x80 + n % 0x40) (hhigh : 0x80 + n % 0x40 ≤ p.high)
    (hmissing : p.missing = 0) (hvalue : p.value = n / 0x40) :
    feed (some p) [0x80 + n % 0x40] = ([.char (Char.ofNat n)], none) := by
  have hn : n / 0x40 * 0x40 + (0x80 + n % 0x40 - 0x80) = n := by omega
  rw [feed, nextByte_last hlow hhigh hmissing, hvalue, hn]
  rfl

theorem feed_lastTwo {p : Partial} {n : Nat} (hlow : p.low ≤ 0x80 + n / 0x40 % 0x40)
    (hhigh : 0x80 + n / 0x40 % 0x40 ≤ p.high) (hmissing : p.missing = 1) (hvalue : p.value = n / 0x1000) :
    feed (some p) [0x80 + n / 0x40 % 0x40, 0x80 + n % 0x40] = ([.char (Char.ofNat n)], none) := by
  rw [feed, nextByte_more hlow hhigh hmissing, feed_last (by simp) (by simp; omega) rfl (by simp; omega)]
  rfl

theorem feed_lastThree {p : Partial} {n : Nat} (hlow : p.low ≤ 0x80 + n / 0x1000 % 0x40)
    (hhigh : 0x80 + n / 0x1000 % 0x40 ≤ p.high) (hmissing : p.missing = 2) (hvalue : p.value = n / 0x40000) :
    feed (some p) [0x80 + n / 0x1000 % 0x40, 0x80 + n / 0x40 % 0x40, 0x80 + n % 0x40] =
      ([.char (Char.ofNat n)], none) := by
  rw [feed, nextByte_more hlow hhigh hmissing, feed_lastTwo (by simp) (by simp; omega) rfl (by simp; omega)]
  rfl

theorem firstByte_of_two {b : Nat} (h : 0xc2 ≤ b ∧ b ≤ 0xdf) : firstByte b = ([], some ⟨b - 0xc0, 0, 0x80, 0xbf⟩) := by
  rw [firstByte, if_neg (by omega), if_pos h]

theorem firstByte_of_three {b : Nat} (h : 0xe1 ≤ b ∧ b ≤ 0xef) (hne : b ≠ 0xed) :
    firstByte b = ([], some ⟨b - 0xe0, 1, 0x80, 0xbf⟩) := by
  rw [firstByte, if_neg (by omega), if_neg (by omega), if_neg (by omega), if_neg hne, if_pos h]

theorem firstByte_of_four {b : Nat} (h : 0xf1 ≤ b ∧ b ≤ 0xf3) : firstByte b = ([], some ⟨b - 0xf0, 2, 0x80, 0xbf⟩) := by
  rw [firstByte, if_neg (by omega), if_neg (by omega), if_neg (by omega), if_neg (by omega), if_neg (by omega),
    if_neg (by omega), if_neg (by omega), if_pos h]

theorem feed_first {b : Nat} {p : Partial} (h : firstByte b = ([], some p)) (bs : List Nat) :
    feed none (b :: bs) = feed (some p) bs := by
  have hnext : nextByte none b = ([], some p) := h
  rw [feed, hnext]
  rfl

/-- The first byte keeps the second one from those that would give a code of fewer bytes, or half of a pair. -/
theorem feed_three {n : Nat} (hlow : 0x800 ≤ n) (hhigh : n < 0x10000) (hhalf : n < 0xd800 ∨ 0xdfff < n) :
    feed none [0xe0 + n / 0x1000, 0x80 + n / 0x40 % 0x40, 0x80 + n % 0x40] = ([.char (Char.ofNat n)], none) := by
  by_cases hzero : n / 0x1000 = 0
  · have hfirst : firstByte (0xe0 + n / 0x1000) = ([], some ⟨0, 1, 0xa0, 0xbf⟩) := by rw [hzero]; rfl
    rw [feed_first hfirst, feed_lastTwo (by simp; omega) (by simp; omega) rfl hzero.symm]
  · by_cases hd : n / 0x1000 = 0xd
    · have hfirst : firstByte (0xe0 + n / 0x1000) = ([], some ⟨0xd, 1, 0x80, 0x9f⟩) := by rw [hd]; rfl
      rw [feed_first hfirst, feed_lastTwo (by simp) (by simp; omega) rfl hd.symm]
    · rw [feed_first (firstByte_of_three (by omega) (by omega)), feed_lastTwo (by simp) (by simp; omega) rfl (by simp)]

theorem feed_four {n : Nat} (hlow : 0x10000 ≤ n) (hhigh : n < 0x110000) :
    feed none [0xf0 + n / 0x40000, 0x80 + n / 0x1000 % 0x40, 0x80 + n / 0x40 % 0x40, 0x80 + n % 0x40] =
      ([.char (Char.ofNat n)], none) := by
  by_cases hzero : n / 0x40000 = 0
  · have hfirst : firstByte (0xf0 + n / 0x40000) = ([], some ⟨0, 2, 0x90, 0xbf⟩) := by rw [hzero]; rfl
    rw [feed_first hfirst, feed_lastThree (by simp; omega) (by simp; omega) rfl hzero.symm]
  · by_cases hfour : n / 0x40000 = 4
    · have hfirst : firstByte (0xf0 + n / 0x40000) = ([], some ⟨4, 2, 0x80, 0x8f⟩) := by rw [hfour]; rfl
      rw [feed_first hfirst, feed_lastThree (by simp) (by simp; omega) rfl hfour.symm]
    · rw [feed_first (firstByte_of_four (by omega)), feed_lastThree (by simp) (by simp; omega) rfl (by simp)]

theorem valid_toNat (c : Char) : c.toNat < 0xd800 ∨ 0xdfff < c.toNat ∧ c.toNat < 0x110000 :=
  c.valid

theorem code_lt (c : Char) : c.toNat < 0x110000 := by
  have hvalid := valid_toNat c
  omega

/-- The bytes of a character complete this character and nothing else. -/
theorem feed_utf8 (c : Char) : feed none (Text.utf8 c.toNat) = ([.char c], none) := by
  have hvalid := valid_toNat c
  have hc : Char.ofNat c.toNat = c := Char.ofNat_toNat c
  rw [Text.utf8]
  split_ifs with hone htwo hthree
  · have hnext : nextByte none c.toNat = ([.char (Char.ofNat c.toNat)], none) := if_pos hone
    rw [feed, hnext, hc]
    rfl
  · rw [feed_first (firstByte_of_two (by omega)), feed_last (by simp) (by simp; omega) rfl (by simp), hc]
  · rw [feed_three (by omega) (by omega) (by omega), hc]
  · rw [feed_four (by omega) (by omega), hc]

theorem utf8_lt {n : Nat} (h : n < 0x110000) : ∀ b ∈ Text.utf8 n, b < 256 := by
  rw [Text.utf8]
  split_ifs <;> simp <;> omega

/-! ## Texts -/

theorem isUnreserved_hexDigit {n : Nat} (h : n < 16) : isUnreserved (hexDigit n) = true := by
  have hall : ∀ n < 16, isUnreserved (hexDigit n) = true := by decide +kernel
  exact hall n h

theorem isAlpha_iff (c : Char) : c.isAlpha = true ↔ ('A' ≤ c ∧ c ≤ 'Z') ∨ ('a' ≤ c ∧ c ≤ 'z') := by
  have hupper : c.isUpper = decide ('A' ≤ c ∧ c ≤ 'Z') := rfl
  have hlower : c.isLower = (decide ('a' ≤ c) && decide (c ≤ 'z')) := rfl
  have halpha : c.isAlpha = (c.isUpper || c.isLower) := rfl
  simp [halpha, hupper, hlower]

theorem toNat_of_isAlphanum {c : Char} (h : c.isAlphanum = true) : c.toNat < 0x80 := by
  have hle (d : Char) (hd : d.toNat < 0x80) (hc : c ≤ d) : c.toNat < 0x80 := Nat.lt_of_le_of_lt hc hd
  have hdigit : c.isDigit = (decide ('0' ≤ c) && decide (c ≤ '9')) := rfl
  rw [Char.isAlphanum, Bool.or_eq_true, isAlpha_iff, hdigit, Bool.and_eq_true, decide_eq_true_eq,
    decide_eq_true_eq] at h
  rcases h with (⟨-, h⟩ | ⟨-, h⟩) | ⟨-, h⟩
  · exact hle 'Z' (by decide) h
  · exact hle 'z' (by decide) h
  · exact hle '9' (by decide) h

theorem toNat_of_isUnreserved {c : Char} (h : isUnreserved c = true) : c.toNat < 0x80 := by
  simp only [isUnreserved, Bool.or_eq_true, decide_eq_true_eq] at h
  rcases h with (((h | rfl) | rfl) | rfl) | rfl
  · exact toNat_of_isAlphanum h
  all_goals decide

/-- The letters that codes are written with. -/
def InCode (l : Letter) : Prop :=
  l = .char '+' ∨ l = .char '%' ∨ l.is isUnreserved = true

/-- The code of a byte has no reserved characters but the percent sign. -/
theorem mem_encodeByte {b : Nat} (hb : b < 256) {l : Letter} (hl : l ∈ encodeByte b) :
    l = .char '%' ∨ l.is isUnreserved = true := by
  simp only [encodeByte, List.mem_cons, List.not_mem_nil, or_false] at hl
  rcases hl with rfl | rfl | rfl
  · exact .inl rfl
  · exact .inr (isUnreserved_hexDigit (by omega))
  · exact .inr (isUnreserved_hexDigit (by omega))

theorem mem_encodeChar {c : Char} {l : Letter} (hl : l ∈ encodeChar c) : InCode l := by
  rw [encodeChar] at hl
  split_ifs at hl with hunreserved hblank
  · rw [List.mem_singleton.mp hl]
    exact .inr (.inr hunreserved)
  · exact .inl (List.mem_singleton.mp hl)
  · obtain ⟨b, hb, hl⟩ := List.mem_flatMap.mp hl
    exact .inr (mem_encodeByte (utf8_lt (code_lt c) b hb) hl)

/-- What a plus sign is read as. -/
def ofPlus (l : Letter) : Letter :=
  if l = .char '+' then .char ' ' else l

theorem decodeFrom_plain {c : Char} (hc : c ≠ '%') (hascii : c.toNat < 0x80) (rest : List Letter) :
    decodeFrom none (.char c :: rest) = .char c :: decodeFrom none rest := by
  have hnext : nextByte none (Letter.char c).code = ([.char c], none) :=
    (if_pos hascii).trans (by rw [Letter.code, Char.ofNat_toNat])
  rw [decodeFrom, if_pos (show (Letter.char c).code < 0x80 from hascii), hnext]
  · rfl
  · exact fun a b _ h _ => hc (Letter.char.inj h)

theorem decodeFrom_encodeChar (c : Char) (rest : List Letter) :
    decodeFrom none ((encodeChar c).map ofPlus ++ rest) = .char c :: decodeFrom none rest := by
  rw [encodeChar]
  split_ifs with hunreserved hblank
  · have hplus : ofPlus (.char c) = .char c := if_neg fun h => by simp [Letter.char.inj h, isUnreserved] at hunreserved
    rw [List.map_singleton, hplus]
    exact decodeFrom_plain (fun h => by simp [h, isUnreserved] at hunreserved) (toNat_of_isUnreserved hunreserved) rest
  · rw [hblank]
    exact decodeFrom_plain (by decide) (by decide) rest
  · have hplus : ((Text.utf8 c.toNat).flatMap encodeByte).map ofPlus = (Text.utf8 c.toNat).flatMap encodeByte := by
      refine (List.map_congr_left fun l hl => if_neg ?_).trans (List.map_id _)
      rintro rfl
      obtain ⟨b, hb, hl⟩ := List.mem_flatMap.mp hl
      rcases mem_encodeByte (utf8_lt (code_lt c) b hb) hl with hpercent | hunreserved
      · exact absurd hpercent (by decide)
      · exact absurd hunreserved (by decide)
    rw [hplus, decodeFrom_flatMap (utf8_lt (code_lt c)), feed_utf8]
    rfl

theorem decode_flatMap_encodeChar (cs : List Char) : decode (cs.flatMap encodeChar) = cs.map .char := by
  show decodeFrom none ((cs.flatMap encodeChar).map ofPlus) = cs.map .char
  induction cs with
  | nil => rfl
  | cons c cs ih =>
    rw [List.flatMap_cons, List.map_append, decodeFrom_encodeChar, ih]
    rfl

end Url

/-- A text without halves is made of characters. -/
theorem Text.exists_map_char {ls : List Letter} (h : ls.any Letter.isHalf = false) :
    ∃ cs : List Char, ls = cs.map .char := by
  refine ⟨ls.filterMap Letter.char?, ?_⟩
  induction ls with
  | nil => rfl
  | cons l ls ih =>
    rw [List.any_cons, Bool.or_eq_false_iff] at h
    cases l with
    | char c => exact congrArg (Letter.char c :: ·) (ih h.2)
    | half n => cases h.1

theorem Text.filterMap_map_char (cs : List Char) : (cs.map Letter.char).filterMap Letter.char? = cs := by
  rw [List.filterMap_map]
  exact List.filterMap_some

namespace Url

theorem error?_encode (ls : List Letter) : Except.error? (encode ls) = Text.loneHalves? ls := by
  rw [encode]
  cases Text.loneHalves? ls <;> rfl

theorem encode_eq_ok {ls code : List Letter} (h : encode ls = .ok code) :
    ∃ cs : List Char, ls = cs.map .char ∧ code = cs.flatMap encodeChar := by
  unfold encode at h
  split at h
  next => cases h
  next hwhole =>
    cases h
    obtain ⟨cs, rfl⟩ := Text.exists_map_char ((Text.loneHalves?_eq_none_iff ls).mp hwhole)
    exact ⟨cs, rfl, by rw [Text.filterMap_map_char]⟩

/-- A text is decoded from its code. -/
theorem decode_of_encode {ls code : List Letter} (h : encode ls = .ok code) : decode code = ls := by
  obtain ⟨cs, rfl, rfl⟩ := encode_eq_ok h
  exact decode_flatMap_encodeChar cs

theorem inCode_of_encode {ls code : List Letter} (h : encode ls = .ok code) : ∀ l ∈ code, InCode l := by
  obtain ⟨cs, -, rfl⟩ := encode_eq_ok h
  intro l hl
  obtain ⟨c, -, hl⟩ := List.mem_flatMap.mp hl
  exact mem_encodeChar hl

/-! ## Parameters -/

/-- Separators are no part of a code. -/
theorem not_inCode {c : Char} (h : c ≠ '+' ∧ c ≠ '%' ∧ isUnreserved c = false) : ¬InCode (.char c) := by
  rintro (hc | hc | hc)
  · exact h.1 (Letter.char.inj hc)
  · exact h.2.1 (Letter.char.inj hc)
  · have hc' : isUnreserved c = true := hc
    rw [h.2.2] at hc'
    cases hc'

theorem parameter_append {name value : List Letter} (h : .char '=' ∉ name) :
    parameter (name ++ .char '=' :: value) = (decode name, decode value) := by
  have hname : ∀ l ∈ name, decide (l ≠ .char '=') = true := fun l hl => decide_eq_true fun heq => h (heq ▸ hl)
  rw [parameter, List.takeWhile_append_of_pos hname, List.dropWhile_append_of_pos hname]
  simp

variable {p : Parameter} {part : List Letter}

theorem encodeParameter_eq_ok (h : encodeParameter p = .ok part) :
    ∃ name value, encode p.1 = .ok name ∧ encode p.2 = .ok value ∧ part = name ++ .char '=' :: value := by
  obtain ⟨name, hname, h⟩ := Except.bind_eq_ok h
  obtain ⟨value, hvalue, h⟩ := Except.bind_eq_ok h
  cases h
  exact ⟨name, value, hname, hvalue, rfl⟩

theorem parameter_of_encodeParameter (h : encodeParameter p = .ok part) : parameter part = p := by
  obtain ⟨name, value, hname, hvalue, rfl⟩ := encodeParameter_eq_ok h
  rw [parameter_append fun hmem => not_inCode (by decide) (inCode_of_encode hname _ hmem), decode_of_encode hname,
    decode_of_encode hvalue]

/-- The letters that a parameter is written with. -/
theorem inCode_of_encodeParameter (h : encodeParameter p = .ok part) : ∀ l ∈ part, l = .char '=' ∨ InCode l := by
  obtain ⟨name, value, hname, hvalue, rfl⟩ := encodeParameter_eq_ok h
  refine List.forall_mem_append.mpr ⟨fun l hl => .inr (inCode_of_encode hname l hl),
    List.forall_mem_cons.mpr ⟨.inl rfl, fun l hl => .inr (inCode_of_encode hvalue l hl)⟩⟩

theorem not_mem_encodeParameter (h : encodeParameter p = .ok part) : .char '&' ∉ part := by
  intro hmem
  rcases inCode_of_encodeParameter h _ hmem with heq | hcode
  · cases heq
  · exact not_inCode (by decide) hcode

/-- The halves that keep a parameter from being written, those of the name before those of the value. -/
def halvesOf? (p : Parameter) : Option LoneHalves :=
  (Text.loneHalves? p.1).or (Text.loneHalves? p.2)

theorem error?_encodeParameter (p : Parameter) : Except.error? (encodeParameter p) = halvesOf? p := by
  rw [halvesOf?, ← error?_encode, ← error?_encode, encodeParameter]
  cases encode p.1 with
  | error h => rfl
  | ok name => cases encode p.2 <;> rfl

end Url

namespace Text

variable {α : Type} [DecidableEq α] {sep : α}

theorem split_of_not_mem {xs : List α} (h : sep ∉ xs) : split sep xs = [xs] := by
  induction xs with
  | nil => rfl
  | cons x xs ih =>
    obtain ⟨hx, hxs⟩ := not_or.mp (mt List.mem_cons.mpr h)
    rw [split, ih hxs]
    exact if_neg fun heq => hx heq.symm

theorem split_append {part : List α} (h : sep ∉ part) (rest : List α) :
    split sep (part ++ sep :: rest) = part :: split sep rest := by
  induction part with
  | nil =>
    rw [List.nil_append, split]
    split
    · next hnil => exact absurd hnil (split_ne_nil sep rest)
    · next heq => rw [if_pos rfl, heq]
  | cons x part ih =>
    obtain ⟨hx, hpart⟩ := not_or.mp (mt List.mem_cons.mpr h)
    rw [List.cons_append, split, ih hpart]
    exact if_neg fun heq => hx heq.symm

/-- Parts that were joined by a separator are found again. -/
theorem split_intercalate {parts : List (List α)} (hne : parts ≠ []) (h : ∀ part ∈ parts, sep ∉ part) :
    split sep ([sep].intercalate parts) = parts := by
  induction parts with
  | nil => exact absurd rfl hne
  | cons part parts ih =>
    obtain ⟨hpart, hparts⟩ := List.forall_mem_cons.mp h
    cases parts with
    | nil =>
      rw [List.intercalate_singleton, split_of_not_mem hpart]
    | cons next parts =>
      rw [List.intercalate_cons_cons, List.append_assoc, List.singleton_append, split_append hpart,
        ih (List.cons_ne_nil _ _) hparts]

omit [DecidableEq α] in
theorem mem_intercalate {parts : List (List α)} {x : α} (hx : x ∈ [sep].intercalate parts) :
    x = sep ∨ ∃ part ∈ parts, x ∈ part := by
  induction parts with
  | nil => exact absurd hx List.not_mem_nil
  | cons part parts ih =>
    cases parts with
    | nil =>
      rw [List.intercalate_singleton] at hx
      exact .inr ⟨part, List.mem_cons_self, hx⟩
    | cons next parts =>
      simp only [List.intercalate_cons_cons, List.mem_append, List.mem_singleton] at hx
      rcases hx with (hx | hx) | hx
      · exact .inr ⟨part, List.mem_cons_self, hx⟩
      · exact .inl hx
      · obtain hsep | ⟨other, hother, hx⟩ := ih hx
        · exact .inl hsep
        · exact .inr ⟨other, List.mem_cons_of_mem _ hother, hx⟩

end Text

namespace Url

variable {ps : List Parameter} {query : List Letter}

theorem encodeParameters_eq_ok (h : encodeParameters ps = .ok query) :
    ∃ parts, List.Forall₂ (fun p part => encodeParameter p = .ok part) ps parts ∧
      query = [.char '&'].intercalate parts := by
  obtain ⟨parts, hparts, h⟩ := Except.bind_eq_ok h
  cases h
  exact ⟨parts, Except.mapM_eq_ok_iff.mp hparts, rfl⟩

/-- The letters that a query is written with. -/
theorem inCode_of_encodeParameters (h : encodeParameters ps = .ok query) :
    ∀ l ∈ query, l = .char '&' ∨ l = .char '=' ∨ InCode l := by
  obtain ⟨parts, hparts, rfl⟩ := encodeParameters_eq_ok h
  intro l hl
  rcases Text.mem_intercalate hl with rfl | ⟨part, hpart, hl⟩
  · exact .inl rfl
  · obtain ⟨p, -, hp⟩ := Except.exists_of_forall₂_right hparts hpart
    exact .inr (inCode_of_encodeParameter hp l hl)

theorem map_parameter {parts : List (List Letter)}
    (h : List.Forall₂ (fun p part => encodeParameter p = .ok part) ps parts) : parts.map parameter = ps := by
  induction h with
  | nil => rfl
  | cons hp _ ih => rw [List.map_cons, parameter_of_encodeParameter hp, ih]

/-- Every part of a query that was written is a parameter, and a query without parameters has one empty part. -/
theorem parameters_of_encodeParameters (h : encodeParameters ps = .ok query) : parameters query = ps := by
  obtain ⟨parts, hparts, rfl⟩ := encodeParameters_eq_ok h
  by_cases hne : parts = []
  · subst hne
    cases hparts
    rfl
  · have hsplit : Text.split (.char '&') ([.char '&'].intercalate parts) = parts := by
      refine Text.split_intercalate hne fun part hpart => ?_
      obtain ⟨p, -, hp⟩ := Except.exists_of_forall₂_right hparts hpart
      exact not_mem_encodeParameter hp
    have hfilter : parts.filter (!·.isEmpty) = parts := by
      refine List.filter_eq_self.mpr fun part hpart => ?_
      obtain ⟨p, -, hp⟩ := Except.exists_of_forall₂_right hparts hpart
      obtain ⟨name, value, -, -, rfl⟩ := encodeParameter_eq_ok hp
      simp
    rw [parameters, hsplit, hfilter, map_parameter hparts]

/-- The first parameter with half of a pair keeps a list from being written. -/
theorem error?_encodeParameters (ps : List Parameter) :
    Except.error? (encodeParameters ps) = ps.findSome? halvesOf? := by
  rw [← Except.error?_mapM fun p _ => error?_encodeParameter p, encodeParameters]
  cases ps.mapM encodeParameter <;> rfl

end Url

end RelatedRows

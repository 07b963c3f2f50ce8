import RelatedRows.Deploy.Address
import RelatedRows.Proofs.UrlParts

/-!
# Addresses without a parameter

The address of the database loses the parameter `sslmode` and nothing else, unless half of a pair keeps the others from
being written.

* `Url.Encodable`: the parameters that an address keeps can be written, by `Url.exists_encode_iff`.
* `split_sanitize`: the parts of what is left of an address.
* `sanitize_keeps`: they are the parts of the address but for the query, which holds the other parameters in order, and
  nothing is left to be removed.
* `not_sanitize_keeps_halved`: with half of a pair in a parameter nothing is left.
-/

namespace RelatedRows

open Text (Letter)

namespace Url

/-- No half of a pair is in a parameter that an address keeps. -/
def Encodable (u : Url) : Prop :=
  ∀ p ∈ u.keptParameters, p.1.any Letter.isHalf = false ∧ p.2.any Letter.isHalf = false

instance (u : Url) : Decidable u.Encodable :=
  inferInstanceAs (Decidable (∀ p ∈ u.keptParameters, _))

variable {u v : Url} {query : List Letter}

theorem encodable_iff : u.Encodable ↔ u.keptParameters.findSome? halvesOf? = none := by
  simp only [Encodable, List.findSome?_eq_none_iff, halvesOf?, Option.or_eq_none_iff, Text.loneHalves?_eq_none_iff]

theorem exists_encode_iff : (∃ query, encodeParameters u.keptParameters = .ok query) ↔ u.Encodable := by
  rw [encodable_iff, ← error?_encodeParameters]
  cases encodeParameters u.keptParameters <;> simp [Except.error?]

/-- A URL without a query keeps no parameters. -/
theorem keptParameters_of_empty (h : u.query = []) : u.keptParameters = [] := by
  rw [keptParameters, h]
  rfl

theorem query_of_empty (h : u.query = []) (hquery : encodeParameters u.keptParameters = .ok query) : query = [] := by
  rw [keptParameters_of_empty h] at hquery
  exact (Except.ok.inj hquery).symm

/-- The parameters of a query that was written are those that it was written from. -/
theorem keptParameters_of_encode (h : encodeParameters u.keptParameters = .ok query) :
    parameters query = u.keptParameters ∧ { u with query }.keptParameters = u.keptParameters := by
  have hparameters := parameters_of_encodeParameters h
  refine ⟨hparameters, ?_⟩
  show (parameters query).filter _ = u.keptParameters
  rw [hparameters, keptParameters, List.filter_filter]
  simp only [Bool.and_self]

/-- A query that is written anew has nothing in it that ends a query or is left out. -/
theorem normal_of_encode (h : u.Normal) (hquery : encodeParameters u.keptParameters = .ok query) :
    { u with query }.Normal where
  scheme := h.scheme
  authority := h.authority
  checked := h.checked
  path := h.path
  pathEnds := h.pathEnds
  queryEnds := fun hl => by
    rcases inCode_of_encodeParameters hquery _ hl with hl | hl | hl
    · cases hl
    · cases hl
    · exact not_inCode (by decide) hl
  kept := fun l hl => by
    rcases hl with hl | hl | hl | hl
    · exact h.kept l (.inl hl)
    · exact h.kept l (.inr (.inl hl))
    · rcases inCode_of_encodeParameters hquery _ hl with rfl | rfl | rfl | rfl | hl
      · decide
      · decide
      · decide
      · decide
      · exact isDropped_eq_false (by decide) hl
    · exact h.kept l (.inr (.inr (.inr hl)))

/-- A part of a query is empty or one of its parameters. -/
theorem parameter_mem {query part : List Letter} (h : part ∈ Text.split (.char '&') query) :
    part = [] ∨ parameter part ∈ parameters query := by
  by_cases hpart : part = []
  · exact .inl hpart
  · exact .inr (List.mem_map_of_mem (List.mem_filter.mpr ⟨h, by simpa using hpart⟩))

/-- No part of the query is spelled in any way that is read as the name. -/
theorem parameter_ne {part : List Letter} (hkept : parameters query = u.keptParameters)
    (h : part ∈ Text.split (.char '&') query) : (parameter part).1 ≠ Text.letters "sslmode" := by
  rcases parameter_mem h with rfl | hmem
  · decide
  · rw [hkept] at hmem
    exact of_decide_eq_true (List.mem_filter.mp hmem).2

end Url

variable {url : List Letter} {u : Url} {query : List Letter}

theorem sanitize_of_split (h : Url.split url = .ok u) (hquery : Url.encodeParameters u.keptParameters = .ok query) :
    sanitize url = .ok (if u.query.isEmpty then url else { u with query }.join) := by
  rw [sanitize, h]
  show (if u.query.isEmpty then _ else _) = _
  rw [hquery]
  exact (apply_ite Except.ok _ _ _).symm

/-- The halves that stop an address from being written are the first ones in its parameters. -/
theorem sanitize_of_halves {halves : Text.LoneHalves} (h : Url.split url = .ok u)
    (hhalves : u.keptParameters.findSome? Url.halvesOf? = some halves) :
    sanitize url = .error (.notEncodable halves) := by
  have hempty : ¬u.query.isEmpty = true := by
    intro hempty
    rw [Url.keptParameters_of_empty (List.isEmpty_iff.mp hempty)] at hhalves
    cases hhalves
  have herror : Url.encodeParameters u.keptParameters = .error halves :=
    Except.error?_eq_some.mp ((Url.error?_encodeParameters _).trans hhalves)
  rw [sanitize, h]
  show (if u.query.isEmpty then _ else _) = _
  rw [if_neg hempty, herror]
  rfl

/-- An address is sanitized if it can be split and its parameters can be written. -/
theorem exists_sanitize_iff :
    (∃ ls, sanitize url = .ok ls) ↔ ∃ u, Url.split url = .ok u ∧ u.Encodable := by
  cases hsplit : Url.split url with
  | error e => simp [sanitize, hsplit, Except.mapError, bind, Except.bind]
  | ok u =>
    cases hquery : Url.encodeParameters u.keptParameters with
    | ok query =>
      have hu : u.Encodable := Url.exists_encode_iff.mp ⟨query, hquery⟩
      simp [sanitize_of_split hsplit hquery, hu]
    | error halves =>
      have hhalves : u.keptParameters.findSome? Url.halvesOf? = some halves :=
        (Url.error?_encodeParameters _).symm.trans (Except.error?_eq_some.mpr hquery)
      have hu : ¬u.Encodable := by simp [Url.encodable_iff, hhalves]
      simp [sanitize_of_halves hsplit hhalves, hu]

theorem split_sanitize (h : Url.split url = .ok u) (hpath : Url.IsRooted u.path)
    (hquery : Url.encodeParameters u.keptParameters = .ok query) :
    Url.split (if u.query.isEmpty then url else { u with query }.join) = .ok { u with query } := by
  split_ifs with hempty
  · have hnone : u.query = [] := List.isEmpty_iff.mp hempty
    rw [h, Url.query_of_empty hnone hquery, ← hnone]
  · exact Url.split_join (Url.normal_of_encode (Url.normal_of_split h hpath) hquery)

/-- What is left of an address has the same scheme, authority, path and fragment and the same parameters in the same
order without those of the name `sslmode`, of which no spelling is left, and it is left as it is the next time.  There
is nothing left if half of a pair is in a parameter that is kept; the first such halves are reported. -/
theorem sanitize_keeps (h : Url.split url = .ok u) (hpath : Url.IsRooted u.path) :
    (u.Encodable → ∃ ls v, sanitize url = .ok ls ∧ Url.split ls = .ok v ∧
      v.scheme = u.scheme ∧ v.authority = u.authority ∧ v.path = u.path ∧ v.fragment = u.fragment ∧
      Url.parameters v.query = (Url.parameters u.query).filter (·.1 ≠ Text.letters "sslmode") ∧
      (∀ part ∈ Text.split (.char '&') v.query, (Url.parameter part).1 ≠ Text.letters "sslmode") ∧
      sanitize ls = .ok ls) ∧
    (¬u.Encodable → ∃ halves, u.keptParameters.findSome? Url.halvesOf? = some halves ∧
      sanitize url = .error (.notEncodable halves)) := by
  refine ⟨fun hu => ?_, fun hu => ?_⟩
  · obtain ⟨query, hquery⟩ := Url.exists_encode_iff.mpr hu
    obtain ⟨hparameters, hkept⟩ := Url.keptParameters_of_encode hquery
    have hsplit := split_sanitize h hpath hquery
    refine ⟨_, _, sanitize_of_split h hquery, hsplit, rfl, rfl, rfl, rfl, hparameters,
      fun part hpart => Url.parameter_ne hparameters hpart, ?_⟩
    -- The second time the parts are written that the first time wrote, unless there was no query to write.
    rw [sanitize_of_split hsplit (by rw [hkept, hquery])]
    by_cases hempty : u.query.isEmpty = true
    · rw [Url.query_of_empty (List.isEmpty_iff.mp hempty) hquery]
      rfl
    · rw [if_neg hempty, ite_self]
  · rw [Url.encodable_iff] at hu
    obtain ⟨halves, hhalves⟩ := Option.ne_none_iff_exists'.mp hu
    exact ⟨halves, hhalves, sanitize_of_halves h hhalves⟩

/-- An address with a reserved character in its password, an empty value, a name that is repeated, and the parameter
twice, once in code.  Halves of pairs are where nothing has to be written. -/
def escapedAddress : List Letter :=
  Text.letters "Postgresql://u:p%40w@db:5432/app?a=1&ssl%6Dode=x&b=&sslmode=" ++
    .half 0x4ff :: Text.letters "&a=1#top" ++ [.half 0x4fe]

def escapedParts : Url where
  scheme := Text.letters "postgresql"
  authority := Text.letters "u:p%40w@db:5432"
  path := Text.letters "/app"
  query := Text.letters "a=1&ssl%6Dode=x&b=&sslmode=" ++ .half 0x4ff :: Text.letters "&a=1"
  fragment := Text.letters "top" ++ [.half 0x4fe]

def keptAddress : List Letter :=
  Text.letters "postgresql://u:p%40w@db:5432/app?a=1&b=&a=1#top" ++ [.half 0x4fe]

/-- Both spellings are gone, and the other parameters are where they were. -/
theorem sanitize_keeps_escaped :
    Url.split escapedAddress = .ok escapedParts ∧ Url.IsRooted escapedParts.path ∧ escapedParts.Encodable ∧
      sanitize escapedAddress = .ok keptAddress ∧ sanitize keptAddress = .ok keptAddress := by
  have hsplit : Url.split escapedAddress = .ok escapedParts := by decide +kernel
  have hpath : Url.IsRooted escapedParts.path := .inr ⟨Text.letters "app", by decide +kernel, by decide +kernel⟩
  have hu : escapedParts.Encodable := by decide +kernel
  obtain ⟨ls, -, hls, -, -, -, -, -, -, -, hagain⟩ := (sanitize_keeps hsplit hpath).1 hu
  have hkept : sanitize escapedAddress = .ok keptAddress := by decide +kernel
  obtain rfl := Except.ok.inj (hls.symm.trans hkept)
  exact ⟨hsplit, hpath, hu, hkept, hagain⟩

/-- An address with half of a pair in a value. -/
def halvedAddress : List Letter :=
  Text.letters "postgresql://h/db?a=" ++ [.half 0x4ff]

def halvedParts : Url where
  scheme := Text.letters "postgresql"
  authority := Text.letters "h"
  path := Text.letters "/db"
  query := Text.letters "a=" ++ [.half 0x4ff]
  fragment := []

/-- Not every address that can be split can be sanitized. -/
theorem not_sanitize_keeps_halved :
    ¬∀ (url : List Letter) (u : Url), Url.split url = .ok u → Url.IsRooted u.path →
      ∃ ls v, sanitize url = .ok ls ∧ Url.split ls = .ok v ∧
        v.scheme = u.scheme ∧ v.authority = u.authority ∧ v.path = u.path ∧ v.fragment = u.fragment ∧
        Url.parameters v.query = (Url.parameters u.query).filter (·.1 ≠ Text.letters "sslmode") ∧
        (∀ part ∈ Text.split (.char '&') v.query, (Url.parameter part).1 ≠ Text.letters "sslmode") ∧
        sanitize ls = .ok ls := by
  intro h
  have hsplit : Url.split halvedAddress = .ok halvedParts := by decide +kernel
  have hpath : Url.IsRooted halvedParts.path := .inr ⟨Text.letters "db", by decide +kernel, by decide +kernel⟩
  have hfails : sanitize halvedAddress = .error (.notEncodable ⟨0xdcff, 0, 1⟩) := by decide +kernel
  obtain ⟨ls, -, hls, -⟩ := h halvedAddress halvedParts hsplit hpath
  rw [hfails] at hls
  cases hls

end RelatedRows

import RelatedRows.Proofs.Scanning

/-!
# Links of loads

Whatever a store answers, a load links rows to rows that were found.

* `Linking.Sound`, `Dialogue.Sound`: the links of a finished load, and of a load however it goes on, lead to found rows.
* `PlanNode.sound_load`: all loads are sound.
-/

namespace RelatedRows

def Linking.Sound (l : Linking) : Prop :=
  ∀ row link, l.link row = .ok link → ∀ i ∈ link.positions, i < l.found.length

/-- Whatever the answers are, the links lead to found rows. -/
def Dialogue.Sound : Load → Prop
  | .done r => ∀ l, r = .ok l → l.Sound
  | .ask _ next => ∀ a, (next a).Sound

theorem Linking.Sound.attachment {l : Linking} (h : l.Sound) {rows : List Row} {a : Attachment}
    (ha : l.attachment rows = .ok a) : a.Sound := by
  obtain ⟨links, hlinks, ha⟩ := Except.bind_eq_ok ha
  cases ha
  intro link hlink i hi
  obtain ⟨row, -, hrow⟩ := Except.exists_of_mem_mapM hlinks hlink
  exact h row link hrow i hi

theorem Linking.found_attachment {l : Linking} {rows : List Row} {a : Attachment} (ha : l.attachment rows = .ok a) :
    a.found = l.found := by
  obtain ⟨links, -, ha⟩ := Except.bind_eq_ok ha
  cases ha
  rfl

namespace Stitch

theorem lt_of_mem_entries {rows : List KeyedRow} {k : List Atom} {i : Nat} (h : (k, i) ∈ entries rows) :
    i < rows.length := by
  obtain ⟨⟨r, j⟩, hr, hk⟩ := List.mem_filterMap.mp h
  obtain ⟨key, -, hkey⟩ := Option.map_eq_some_iff.mp hk
  cases hkey
  exact (List.getElem?_eq_some_iff.mp (List.mem_zipIdx_iff_getElem?.mp hr)).1

theorem lt_of_lookup_firstEntries {rows : List KeyedRow} {k : List Atom} {i : Nat}
    (h : (Index.firstEntries (entries rows)).lookup k = some i) : i < rows.length := by
  rw [lookup_firstEntries] at h
  obtain ⟨es, es', heq, -⟩ := List.lookup_eq_some_iff.mp h
  exact lt_of_mem_entries (heq ▸ List.mem_append_right es List.mem_cons_self)

theorem sound_linkBy {columns : List String} {found : List Row} {link : Option (List Atom) → Link}
    (h : ∀ k, ∀ i ∈ (link k).positions, i < found.length) : (linkBy columns found link).Sound := by
  intro row l hl
  obtain ⟨k, -, rfl⟩ := Except.map_eq_ok hl
  exact h _

section Loads

variable {n : PlanNode}

theorem sound_linkOne (found : List KeyedRow) : (linkOne n found).Sound := by
  unfold linkOne
  refine sound_linkBy fun k i hi => ?_
  rw [List.length_map]
  rw [Link.positions, Option.mem_toList] at hi
  obtain ⟨key, -, hkey⟩ := Option.bind_eq_some_iff.mp hi
  exact lt_of_lookup_firstEntries hkey

theorem sound_linkMany (found : List KeyedRow) : (linkMany n found).Sound := by
  unfold linkMany
  refine sound_linkBy fun k i hi => ?_
  rw [List.length_map]
  have hmem := n.step.options.window_subset _ hi
  cases k with
  | none => cases hmem
  | some key =>
    rw [Option.bind_some, lookup_groups] at hmem
    obtain ⟨e, he, rfl⟩ := List.mem_map.mp hmem
    exact lt_of_mem_entries (List.mem_filter.mp he).1

theorem mem_arrange {index : List (List Atom × Nat)} {targets : List (Option RowKey)} {i : Nat}
    (h : i ∈ arrange n index targets) : ∃ k, index.lookup k = some i := by
  have hpositions : i ∈ targets.filterMap fun k => k.bind fun k => index.lookup k.identity := by
    have hwindow := n.step.options.window_subset _ h
    split at hwindow
    · have hsorted := mem_stableSort.mp hwindow
      split at hsorted
      · exact List.mem_eraseDups.mp hsorted
      · exact hsorted
    · split at hwindow
      · exact List.mem_eraseDups.mp hwindow
      · exact hwindow
  obtain ⟨k, -, hk⟩ := List.mem_filterMap.mp hpositions
  obtain ⟨key, -, hkey⟩ := Option.bind_eq_some_iff.mp hk
  exact ⟨key.identity, hkey⟩

theorem sound_linkJoined {joins targets : List KeyedRow} {l : Linking} (h : linkJoined n joins targets = .ok l) :
    l.Sound := by
  obtain ⟨sources, -, h⟩ := Except.bind_eq_ok h
  cases h
  refine sound_linkBy fun k i hi => ?_
  rw [List.length_map]
  obtain ⟨key, hkey⟩ := mem_arrange hi
  exact lt_of_lookup_firstEntries hkey

end Loads

end Stitch

theorem Dialogue.Ends.sound {P : Linking → Prop} {d : Load} (h : d.Ends P) (hP : ∀ l, P l → l.Sound) : d.Sound := by
  induction d with
  | done r => exact fun l hl => hP l (h l hl)
  | ask q next ih => exact fun a => ih a (h a)

theorem PlanNode.EndsIn.sound {n : PlanNode} {l : Linking} (h : n.EndsIn l) : l.Sound := by
  cases h with
  | noOne | noMany =>
    rintro row link ⟨⟩ i hi
    cases hi
  | one hkind found => exact Stitch.sound_linkOne found
  | many hkind found => exact Stitch.sound_linkMany found
  | joined hkind hl => exact Stitch.sound_linkJoined hl

theorem PlanNode.sound_load (g : Graph) (n : PlanNode) (rows : List Row) : (n.load g rows).Sound :=
  ends_load.sound fun _ => EndsIn.sound

end RelatedRows

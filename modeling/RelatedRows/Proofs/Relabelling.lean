import RelatedRows.Proofs.Scanning

/-!
# Found rows in another order

Which position a found row has does not show: links may lead to other positions, as long as the same rows stand there
and different ones stay different.

* `Attachment.Alike`, `Linking.Alike`: attachments and finished loads whose links lead to the same rows.
* `Attachment.Alike.attached`, `Loaded.Alike.settle`: they attach the same rows, below as well.
* `Plan.nest_alike`: stores whose loads are alike yield the same stitched rows.
-/

namespace RelatedRows

theorem Link.positions_relabel (σ : Nat → Nat) (l : Link) : (l.relabel σ).positions = l.positions.map σ := by
  cases l with
  | one p => cases p <;> rfl
  | many ps => rfl

theorem Link.relabel_id (l : Link) : l.relabel id = l := by
  cases l with
  | one p => exact congrArg Link.one Option.map_id_apply
  | many ps => exact congrArg Link.many (List.map_id ps)

theorem Link.value_relabel {σ : Nat → Nat} {found found' : List Row} {l : Link}
    (h : ∀ i ∈ l.positions, found'[σ i]? = found[i]?) : (l.relabel σ).value found' = l.value found := by
  cases l with
  | one p =>
    cases p with
    | none => rfl
    | some i => exact congrArg (Value.ofOption Value.object) (h i (by simp [positions]))
  | many ps =>
    have hrows : (ps.map σ).filterMap (found'[·]?) = ps.filterMap (found[·]?) := by
      rw [List.filterMap_map]
      exact List.filterMap_congr h
    exact congrArg (fun rows : List Row => Value.list (rows.map .object)) hrows

/-! ## Attachments -/

namespace Attachment

/-- The links of the one lead to the rows that those of the other lead to, at other positions. -/
structure Relabels (σ : Nat → Nat) (a a' : Attachment) : Prop where
  links : a'.links = a.links.map (Link.relabel σ)
  found : ∀ i ∈ a.positions, a'.found[σ i]? = a.found[i]?
  injective : ∀ i ∈ a.positions, ∀ j ∈ a.positions, σ i = σ j → i = j

def Alike (a a' : Attachment) : Prop :=
  ∃ σ, a.Relabels σ a'

variable {a a' : Attachment} {σ : Nat → Nat}

namespace Relabels

theorem positions_eq (h : a.Relabels σ a') : a'.positions = a.positions.map σ := by
  have hall : a'.links.flatMap Link.positions = (a.links.flatMap Link.positions).map σ := by
    rw [h.links, List.flatMap_map, List.map_flatMap]
    exact List.flatMap_congr fun l _ => l.positions_relabel σ
  have hinjective : ∀ i ∈ a.links.flatMap Link.positions, ∀ j ∈ a.links.flatMap Link.positions, σ i = σ j → i = j := by
    intro i hi j hj
    exact h.injective i (List.mem_eraseDups.mpr hi) j (List.mem_eraseDups.mpr hj)
  rw [Attachment.positions, hall, eraseDups_map hinjective]
  rfl

theorem attached_eq (h : a.Relabels σ a') : a'.attached = a.attached := by
  rw [attached, h.positions_eq, List.filterMap_map]
  exact List.filterMap_congr h.found

theorem value_eq (h : a.Relabels σ a') {l : Link} (hl : l ∈ a.links) :
    (l.relabel σ).value a'.found = l.value a.found :=
  Link.value_relabel fun i hi => h.found i (mem_positions.mpr ⟨l, hl, hi⟩)

theorem attachTo_eq (h : a.Relabels σ a') (key : String) (rows : List Row) :
    a'.attachTo key rows = a.attachTo key rows := by
  have hvalues : a'.links.map (Link.value a'.found) = a.links.map (Link.value a.found) := by
    rw [h.links, List.map_map]
    exact List.map_congr_left fun l hl => h.value_eq hl
  rw [Attachment.attachTo_eq, Attachment.attachTo_eq, column, column, hvalues]

theorem map (h : a.Relabels σ a') (f : Row → Row) : (a.map f).Relabels σ (a'.map f) where
  links := h.links
  found i hi := by
    show (a'.found.map f)[σ i]? = (a.found.map f)[i]?
    rw [List.getElem?_map, List.getElem?_map, h.found i hi]
  injective := h.injective

theorem lookup_zip_eq (h : a.Relabels σ a') (rows : List Row) {i : Nat} (hi : i ∈ a.positions) :
    (a'.positions.zip rows).lookup (σ i) = (a.positions.zip rows).lookup i := by
  rw [h.positions_eq]
  have hinjective : ∀ j ∈ a.positions, σ i = σ j → i = j := fun j hj => h.injective i hi j hj
  clear hi
  generalize a.positions = ps at hinjective
  induction ps generalizing rows with
  | nil => rfl
  | cons j ps ih =>
    cases rows with
    | nil => rfl
    | cons row rows =>
      have hrest := ih rows fun j' hj' => hinjective j' (List.mem_cons_of_mem _ hj')
      rw [List.map_cons, List.zip_cons_cons, List.zip_cons_cons, List.lookup_cons, List.lookup_cons, hrest]
      by_cases hij : i = j
      · simp [hij]
      · have hne : σ i ≠ σ j := fun heq => hij (hinjective j List.mem_cons_self heq)
        rw [beq_eq_false_iff_ne.mpr hij, beq_eq_false_iff_ne.mpr hne]

theorem complete (h : a.Relabels σ a') (rows : List Row) : (a.complete rows).Relabels σ (a'.complete rows) where
  links := h.links
  found i hi := by
    simp only [Attachment.complete, List.getElem?_mapIdx, h.lookup_zip_eq rows hi, h.found i hi]
  injective := h.injective

end Relabels

namespace Alike

theorem attached (h : a.Alike a') : a'.attached = a.attached := by
  obtain ⟨σ, h⟩ := h
  exact h.attached_eq

end Alike

end Attachment

/-! ## Finished loads -/

namespace Linking

/-- Some row is linked to the found row at a position. -/
def Linked (l : Linking) (i : Nat) : Prop :=
  ∃ row link, l.link row = .ok link ∧ i ∈ link.positions

structure Relabels (σ : Nat → Nat) (l l' : Linking) : Prop where
  link : ∀ row, l'.link row = (l.link row).map (Link.relabel σ)
  found : ∀ i, l.Linked i → l'.found[σ i]? = l.found[i]?
  injective : ∀ i j, l.Linked i → l.Linked j → σ i = σ j → i = j

def Alike (l l' : Linking) : Prop :=
  ∃ σ, l.Relabels σ l'

variable {l l' : Linking}

theorem Alike.refl (l : Linking) : l.Alike l := by
  refine ⟨id, fun row => ?_, fun _ _ => rfl, fun _ _ _ _ h => h⟩
  cases l.link row with
  | error f => rfl
  | ok link => exact congrArg Except.ok link.relabel_id.symm

theorem Alike.attachTo (h : l.Alike l') (key : String) (rows : List Row) :
    l'.attachTo key rows = l.attachTo key rows := by
  obtain ⟨σ, h⟩ := h
  induction rows with
  | nil => rfl
  | cons row rows ih =>
    rw [Linking.attachTo, Linking.attachTo, h.link row, ih]
    cases hlink : l.link row with
    | error f => rfl
    | ok link =>
      have hvalue : (link.relabel σ).value l'.found = link.value l.found :=
        Link.value_relabel fun i hi => h.found i ⟨row, link, hlink, hi⟩
      simp only [Except.map, hvalue]

theorem mapM_relabel {σ : Nat → Nat} (h : ∀ row, l'.link row = (l.link row).map (Link.relabel σ)) (rows : List Row) :
    rows.mapM l'.link = (rows.mapM l.link).map (List.map (Link.relabel σ)) := by
  induction rows with
  | nil => rfl
  | cons row rows ih =>
    rw [List.mapM_cons, List.mapM_cons, h row, ih]
    cases l.link row with
    | error f => rfl
    | ok link =>
      cases rows.mapM l.link with
      | error f => rfl
      | ok links => rfl

theorem Alike.attachment (h : l.Alike l') (rows : List Row) :
    Except.Agree Attachment.Alike (l.attachment rows) (l'.attachment rows) := by
  obtain ⟨σ, h⟩ := h
  unfold Linking.attachment
  rw [mapM_relabel h.link]
  cases hlinks : rows.mapM l.link with
  | error f => exact .error f
  | ok links =>
    have hlinked : ∀ i ∈ (Attachment.mk l.found links).positions, l.Linked i := by
      intro i hi
      obtain ⟨link, hlink, hi⟩ := Attachment.mem_positions.mp hi
      obtain ⟨row, -, hrow⟩ := Except.exists_of_mem_mapM hlinks hlink
      exact ⟨row, link, hrow, hi⟩
    refine .ok ⟨σ, rfl, fun i hi => h.found i (hlinked i hi), fun i hi j hj => ?_⟩
    exact h.injective i j (hlinked i hi) (hlinked j hj)

end Linking

/-! ## Levels -/

/-- One node with attachments that are alike. -/
def Loaded.Alike (n n' : Loaded) : Prop :=
  n.1 = n'.1 ∧ n.2.Alike n'.2

theorem Loaded.Alike.settle {n n' : Loaded} (h : n.Alike n') (below rows : List Row) :
    n'.settle below rows = n.settle below rows := by
  obtain ⟨hnode, σ, hσ⟩ := h
  rw [Loaded.settle, Loaded.settle, ← hnode]
  exact ((hσ.complete below).map n.1.trim).attachTo_eq n.1.key rows

theorem settleAll_alike {ns ns' : List Loaded} (h : List.Forall₂ Loaded.Alike ns ns') (rows : List Row)
    (below : List (List Row)) : settleAll rows ns' below = settleAll rows ns below := by
  induction h generalizing rows below with
  | nil => rfl
  | cons hn _ ih =>
    cases below with
    | nil => rfl
    | cons rs below =>
      simp only [settleAll, List.zip_cons_cons, List.foldl_cons, hn.settle]
      exact ih _ below

section Levels

variable {answer answer' : BatchQuery → Answer} {g : Graph}

/-- Whatever the rows, a node is loaded alike with two stores. -/
def PlanNode.LoadsAlike (answer answer' : BatchQuery → Answer) (g : Graph) (n : PlanNode) : Prop :=
  ∀ rows, Except.Agree Linking.Alike ((n.load g rows).eval answer) ((n.load g rows).eval answer')

theorem rowsAfter_alike {r r' : Except Fault Linking} (h : Except.Agree Linking.Alike r r') (key : String)
    (rows : List Row) : rowsAfter key rows r' = rowsAfter key rows r := by
  cases h with
  | ok h => exact h.attachTo key rows
  | error f => rfl

theorem evalNodes_alike {ns : List PlanNode} (h : ∀ n ∈ ns, n.LoadsAlike answer answer' g) (rows : List Row) :
    (evalNodes answer' g ns rows).2 = (evalNodes answer g ns rows).2 ∧
      List.Forall₂ (Except.Agree Loaded.Alike) (evalNodes answer g ns rows).1 (evalNodes answer' g ns rows).1 := by
  induction ns generalizing rows with
  | nil => exact ⟨rfl, .nil⟩
  | cons n ns ih =>
    have hn := h n List.mem_cons_self rows
    have hrest := ih fun m hm => h m (List.mem_cons_of_mem _ hm)
    simp only [evalNodes, rowsAfter_alike hn]
    refine ⟨(hrest _).1, .cons ?_ (hrest _).2⟩
    exact (hn.bind fun l l' hl => hl.attachment rows).map fun a a' ha => ⟨rfl, ha⟩

theorem nestBelow_alike {ns : List PlanNode} {as as' : List Attachment}
    (h : ∀ n ∈ ns, ∀ rows, n.nest answer' g rows = n.nest answer g rows) (has : List.Forall₂ Attachment.Alike as as') :
    nestBelow answer' g ns as' = nestBelow answer g ns as := by
  induction has generalizing ns with
  | nil => cases ns <;> rfl
  | cons ha _ ih =>
    cases ns with
    | nil => rfl
    | cons n ns =>
      rw [nestBelow, nestBelow, h n List.mem_cons_self, ha.attached, ih fun m hm => h m (List.mem_cons_of_mem _ hm)]

/-- Stores whose loads are alike yield the same stitched rows. -/
theorem Plan.nest_alike {p : Plan} (h : ∀ q ∈ p.levels, ∀ n ∈ q.nodes, n.LoadsAlike answer answer' g)
    (rows : List Row) : p.nest answer' g rows = p.nest answer g rows := by
  induction p using Plan.induction generalizing rows with
  | step p ih =>
    have hnest : ∀ n ∈ p.nodes, ∀ rows, n.nest answer' g rows = n.nest answer g rows := by
      intro n hn rows
      cases n with
      | leaf s => rfl
      | branch s q => exact ih s q hn (fun r hr => h r (levels_subset hn hr)) rows
    obtain ⟨entity, depth, ns, pruned⟩ := p
    have hself : ∀ n ∈ ns, n.LoadsAlike answer answer' g := h _ (mem_levels_self _)
    obtain ⟨hafter, hloaded⟩ := evalNodes_alike hself rows
    have hall : Except.Agree (List.Forall₂ Loaded.Alike) ((evalNodes answer g ns rows).1.mapM id)
        ((evalNodes answer' g ns rows).1.mapM id) := Except.Agree.mapM hloaded
    show nestLevel answer' g ns rows _ = nestLevel answer g ns rows _
    unfold nestLevel
    split
    · rfl
    · rw [hafter]
      generalize (evalNodes answer g ns rows).1.mapM id = r at hall
      generalize (evalNodes answer' g ns rows).1.mapM id = r' at hall
      cases hall with
      | error f => rfl
      | @ok loaded loaded' hns =>
        have has : List.Forall₂ Attachment.Alike (loaded.map (·.2)) (loaded'.map (·.2)) := by
          rw [List.forall₂_map_left_iff, List.forall₂_map_right_iff]
          exact hns.imp fun _ _ hn => hn.2
        have hbelow : nestBelow answer' g ns (loaded'.map (·.2)) = nestBelow answer g ns (loaded.map (·.2)) :=
          nestBelow_alike hnest has
        show nestBelow answer' g ns (loaded'.map (·.2)) >>= _ = nestBelow answer g ns (loaded.map (·.2)) >>= _
        rw [hbelow]
        refine congrArg _ (funext fun below => ?_)
        exact congrArg Except.ok (settleAll_alike hns _ below)

end Levels

end RelatedRows

import RelatedRows.Proofs.Mirrors
import RelatedRows.Proofs.Settling

/-!
# Objects of a finished level

Once everything below a level is done, its objects already refer to finished objects; all that is left is to trim what
has been attached.  The rows that the objects hold then are those that are written when rows are finished.

* `ObjectLevel.Nests.getElem?_trim`, `ObjectLevel.Nests.grows_trim`: what trimming does to objects.
* `ObjectLevel.Nests.map_row_trim`: the rows of the objects of a level that is finished.
-/

namespace RelatedRows

open Objects

variable {labels : Labels} {os : Objects} {place as : List Nat} {nodes : List PlanNode} {rows : List Row}
  {loaded : List Loaded} {base : Nat → Nat} {i : Nat} {n : Loaded}

namespace Objects

theorem length_trimAll (nodes : List PlanNode) (as : List Nat) (os : Objects) :
    (nodes.foldl (trim as) os).length = os.length := by
  have hmodify : ∀ (bs : List Nat) (f : Object → Object) (os : Objects),
      (bs.foldl (fun os b => os.modify b f) os).length = os.length := by
    intro bs f
    induction bs with
    | nil => exact fun _ => rfl
    | cons b bs ih => exact fun os => (ih _).trans (List.length_modify ..)
  induction nodes generalizing os with
  | nil => rfl
  | cons n nodes ih => exact (ih _).trans (hmodify ..)

end Objects

namespace ObjectLevel.Nests

theorem getElem?_nodes (h : Nests labels os place nodes as rows loaded base) (hn : loaded[i]? = some n) :
    nodes[i]? = some n.1 := by
  rw [← h.nodes_eq, List.getElem?_map, hn, Option.map_some]

theorem exists_loaded (h : Nests labels os place nodes as rows loaded base) {m : PlanNode} (hm : nodes[i]? = some m) :
    ∃ n, loaded[i]? = some n ∧ n.1 = m := by
  rw [← h.nodes_eq, List.getElem?_map] at hm
  exact Option.map_eq_some_iff.mp hm

theorem attached_eq (h : Nests labels os place nodes as rows loaded base) (hn : loaded[i]? = some n) :
    os.attached n.1.key as = n.2.positions.map (base i + ·) :=
  Objects.attached_eq (h.attaches i n hn).refer

/-- What the node of a level has attached belongs right below the level. -/
theorem at_of_attached (h : Nests labels os place nodes as rows loaded base) {m : PlanNode} (hm : nodes[i]? = some m)
    {b : Nat} (hb : b ∈ os.attached m.key as) : labels.At (place ++ [i]) b := by
  obtain ⟨n, hn, rfl⟩ := h.exists_loaded hm
  rw [h.attached_eq hn] at hb
  obtain ⟨j, hj, rfl⟩ := List.mem_map.mp hb
  have hattaches := h.attaches i n hn
  exact hattaches.found j (hattaches.position_lt hj)

/-- Trimming changes what has been attached, and nothing else. -/
theorem getElem?_trim (h : Nests labels os place nodes as rows loaded base) (a : Nat) :
    ((∀ m ∈ nodes, a ∉ os.attached m.key as) → (nodes.foldl (trim as) os)[a]? = os[a]?) ∧
      ∀ m ∈ nodes, a ∈ os.attached m.key as → (nodes.foldl (trim as) os)[a]? = os[a]?.map (Object.keep m.keeps) := by
  refine getElem?_foldl_trim (fun m hm b hb hmem => ?_) ?_ a
  · obtain ⟨i, hi⟩ := List.mem_iff_getElem?.mp hm
    exact (h.holders.placed b hmem).not_below i (h.at_of_attached hi hb)
  · refine List.pairwise_iff_getElem.mpr fun i j hi hj hij b hb hb' => ?_
    have hplace := (h.at_of_attached (List.getElem?_eq_getElem hi) hb).unique
      (h.at_of_attached (List.getElem?_eq_getElem hj) hb')
    exact absurd (List.cons.inj (List.append_cancel_left hplace)).1 (Nat.ne_of_lt hij)

/-- Only what belongs right below the level is trimmed. -/
theorem getElem?_trim_of_not (h : Nests labels os place nodes as rows loaded base) {a : Nat}
    (ha : ∀ i, ¬labels.At (place ++ [i]) a) : (nodes.foldl (trim as) os)[a]? = os[a]? := by
  refine (h.getElem?_trim a).1 fun m hm hmem => ?_
  obtain ⟨i, hi⟩ := List.mem_iff_getElem?.mp hm
  exact ha i (h.at_of_attached hi hmem)

theorem getElem?_trim_self (h : Nests labels os place nodes as rows loaded base) {a : Nat} (ha : a ∈ as) :
    (nodes.foldl (trim as) os)[a]? = os[a]? :=
  h.getElem?_trim_of_not (h.holders.placed a ha).not_below

theorem grows_trim (h : Nests labels os place nodes as rows loaded base) (hos : Placed labels os) :
    Grows place labels os labels (nodes.foldl (trim as) os) := by
  refine .of_changed hos (length_trimAll ..) fun a o' ho' => ?_
  obtain ⟨hother, hmine⟩ := h.getElem?_trim a
  by_cases hnone : ∀ m ∈ nodes, a ∉ os.attached m.key as
  · exact .inl ((hother hnone).symm.trans ho')
  · obtain ⟨m, hm, hmem⟩ : ∃ m ∈ nodes, a ∈ os.attached m.key as := by
      by_contra hno
      exact hnone fun m hm hmem => hno ⟨m, hm, hmem⟩
    obtain ⟨i, hi⟩ := List.mem_iff_getElem?.mp hm
    rw [hmine m hm hmem] at ho'
    obtain ⟨o, ho, rfl⟩ := Option.map_eq_some_iff.mp ho'
    exact .inr ⟨[i], o, h.at_of_attached hi hmem, ho, fun f hf => .inl (List.mem_filter.mp hf).1⟩

/-- The row of an attached object is trimmed. -/
theorem getElem?_rows_trim (h : Nests labels os place nodes as rows loaded base) (hos : Placed labels os)
    (hn : loaded[i]? = some n) {j : Nat} (hj : j ∈ n.2.positions) (depth : Nat) :
    ((nodes.foldl (trim as) os).rows depth)[base i + j]? = ((os.rows depth)[base i + j]?).map n.1.trim := by
  have hattaches := h.attaches i n hn
  have hat := hattaches.found j (hattaches.position_lt hj)
  obtain ⟨o, ho⟩ := hos.exists_of_at hat
  have hmem : base i + j ∈ os.attached n.1.key as := by
    rw [h.attached_eq hn]
    exact List.mem_map_of_mem hj
  have ho' := (h.getElem?_trim (base i + j)).2 n.1 (List.mem_of_getElem? (h.getElem?_nodes hn)) hmem
  rw [ho, Option.map_some] at ho'
  cases depth with
  | zero =>
    rw [getElem?_rows_zero, getElem?_rows_zero, ho, ho', Option.map_some, Option.map_some, Option.map_some,
      Object.row_keep]
    rfl
  | succ depth =>
    -- the objects below are not trimmed with this level
    have hbelow : o.row ((nodes.foldl (trim as) os).rows depth) = o.row (os.rows depth) := by
      refine Object.row_congr fun f hf b hb => ?_
      obtain ⟨k, hk⟩ := hos.at_below hat ho hf hb
      refine hos.getElem?_rows_congr (fun rest c hc => h.getElem?_trim_of_not fun l hl => ?_) depth hk
      have hlen := congrArg List.length (hc.unique hl)
      simp at hlen
    rw [getElem?_rows_succ, getElem?_rows_succ, ho, ho', Option.map_some, Option.map_some, Option.map_some,
      Object.row_keep, hbelow]
    rfl

/-- A link leads to the rows that are written in its place once the rows below are finished. -/
theorem value_link (h : Nests labels os place nodes as rows loaded base) (hos : Placed labels os)
    (hn : loaded[i]? = some n) {depth : Nat} {link : Link} (hlink : link ∈ n.2.links) :
    (link.relabel (base i + ·)).value ((nodes.foldl (trim as) os).rows depth) =
      link.value ((n.2.complete ((n.2.positions.map (base i + ·)).map (os.row depth))).map n.1.trim).found := by
  refine Link.value_relabel fun j hj => ?_
  have hattaches := h.attaches i n hn
  have hposition : j ∈ n.2.positions := Attachment.mem_positions.mpr ⟨link, hlink, hj⟩
  have hlt := hattaches.position_lt hposition
  have hidx : n.2.positions[n.2.positions.idxOf j]? = some j := List.getElem?_idxOf hposition
  have hlen : ((n.2.positions.map (base i + ·)).map (os.row depth)).length = n.2.positions.length := by
    rw [List.length_map, List.length_map]
  obtain ⟨o, ho⟩ := hos.exists_of_at (hattaches.found j hlt)
  have hrow : (os.rows depth)[base i + j]? = some (os.row depth (base i + j)) := by
    cases depth with
    | zero => rw [Objects.row, getElem?_rows_zero, ho]; rfl
    | succ depth => rw [Objects.row, getElem?_rows_succ, ho]; rfl
  rw [h.getElem?_rows_trim hos hn hposition, Attachment.map, List.getElem?_map,
    Attachment.getElem?_complete hlen hposition hlt, List.getElem?_map, List.getElem?_map, hidx, hrow]
  rfl

theorem length_links (h : Nests labels os place nodes as rows loaded base) (hn : n ∈ loaded) :
    n.2.links.length = as.length := by
  obtain ⟨i, hi⟩ := List.mem_iff_getElem?.mp hn
  exact (h.attaches i n hi).refer.length_eq.symm

/-- The cell of a node in an object of a finished level holds what the node writes when the rows are finished. -/
theorem lookup_of_mem_cellsAt (h : Nests labels os place nodes as rows loaded base) (hos : Placed labels os)
    {depth : Nat} {belows : List (List Row)}
    (hbelows : ∀ (i : Nat) n below, loaded[i]? = some n → belows[i]? = some below →
      (n.2.positions.map (base i + ·)).map (os.row depth) = below)
    {k a : Nat} {o : Object} (ha : as[k]? = some a) (ho : os[a]? = some o) {e : String × Value}
    (he : e ∈ cellsAt ((loaded.zip belows).map fun c => Loaded.column c.1 c.2) k) :
    ∃ cell, o.lookup e.1 = some cell ∧ e.2 = cell.value ((nodes.foldl (trim as) os).rows depth) := by
  obtain ⟨c, hc, rfl⟩ := List.mem_map.mp he
  obtain ⟨⟨n, below⟩, hn, rfl⟩ := List.mem_map.mp hc
  obtain ⟨i, hi⟩ := List.mem_iff_getElem?.mp hn
  obtain ⟨hn, hbelow⟩ := List.getElem?_zip_eq_some.mp hi
  have hcell := getElem?_of_forall₂ (h.attaches i n hn).refer k
  rw [ha] at hcell
  generalize hlink : n.2.links[k]? = link? at hcell
  cases hcell with
  | @some _ link hcell =>
    obtain ⟨o', list, ho', hlookup⟩ := hcell
    cases ho.symm.trans ho'
    refine ⟨_, hlookup, ?_⟩
    show (((n.2.complete below).map n.1.trim).links.map (Link.value _))[k]?.getD .null = _
    have hlinks : ((n.2.complete below).map n.1.trim).links[k]? = some link := hlink
    rw [List.getElem?_map, hlinks, Option.map_some, Option.getD_some, Cell.value_ofLink,
      h.value_link hos hn (List.mem_of_getElem? hlink), hbelows i n below hn hbelow]

/-- The rows of the objects of a finished level: those that are written when the rows of the level are finished. -/
theorem map_row_trim (h : Nests labels os place nodes as rows loaded base) (hos : Placed labels os) {depth : Nat}
    {belows : List (List Row)} (hlen : belows.length = loaded.length)
    (hbelows : ∀ (i : Nat) n below, loaded[i]? = some n → belows[i]? = some below →
      (n.2.positions.map (base i + ·)).map (os.row depth) = below) :
    as.map ((nodes.foldl (trim as) os).row (depth + 1)) = settleAll rows loaded belows := by
  obtain ⟨table, hrows⟩ := h.rows_eq
  have hlength : rows.length = as.length := by rw [hrows, List.length_map]
  have hcolumns := Loaded.length_columns (fun n hn => (h.length_links hn).trans hlength.symm) belows
  rw [settleAll_eq]
  refine List.ext_getElem? fun k => ?_
  rw [getElem?_writeColumns hcolumns, hrows, List.getElem?_map, List.getElem?_map, Option.map_map]
  cases ha : as[k]? with
  | none => rfl
  | some a =>
    have hmem := List.mem_of_getElem? ha
    obtain ⟨o, ho⟩ := hos.exists_of_at (h.holders.placed a hmem)
    have hkeys : (cellsAt ((loaded.zip belows).map fun c => Loaded.column c.1 c.2) k).map Prod.fst =
        nodes.map PlanNode.key := by
      rw [map_fst_cellsAt, Loaded.map_fst_columns hlen, ← h.nodes_eq, List.map_map]
      rfl
    rw [Option.map_some, Option.map_some, Function.comp, ho, Option.getD_some,
      row_succ ((h.getElem?_trim_self hmem).trans ho)]
    exact congrArg some (Object.setAll_row (h.holders.tidy a hmem o ho) hkeys fun e he =>
      h.lookup_of_mem_cellsAt hos hbelows ha ho he).symm

end ObjectLevel.Nests

end RelatedRows

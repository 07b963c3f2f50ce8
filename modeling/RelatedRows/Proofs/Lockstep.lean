import Mathlib.Algebra.Order.BigOperators.Group.List
import Mathlib.Algebra.Order.Group.Nat
import RelatedRows.Proofs.Finishing
import RelatedRows.Proofs.Schedules

/-!
# Runs on objects in step with runs on rows

Whatever step is taken next, on both sides it can be taken or not, calls the store with the same query, and leaves
objects that hold the rows of the other side.

* `ObjectLevel.Loads.linked`: linking is the step of a load that writes into objects.
* `ObjectLevel.Loads.ofLoads`, `ObjectLevel.Nests.ofBelow`: how a level goes on after its loads, and after the levels
  below it.
* `ObjectLevel.Mirrors.step`: every step.
-/

namespace RelatedRows

open Objects

variable {labels labels' : Labels} {os os' : Objects} {place as : List Nat}

/-! ## Lists that are related place by place -/

structure Pointwise {α β : Type} (R : Nat → α → β → Prop) (xs : List α) (ys : List β) : Prop where
  length_eq : xs.length = ys.length
  rel : ∀ (i : Nat) x y, xs[i]? = some x → ys[i]? = some y → R i x y

namespace Pointwise

variable {α β γ δ ε : Type} {R : Nat → α → β → Prop} {S : Nat → γ → δ → Prop} {xs : List α} {ys : List β} {x : α}
  {y : β}

theorem tail (h : Pointwise R (x :: xs) (y :: ys)) : Pointwise (fun i => R (i + 1)) xs ys where
  length_eq := Nat.succ.inj h.length_eq
  rel i a b ha hb := h.rel (i + 1) a b ha hb

theorem cons (hhead : R 0 x y) (htail : Pointwise (fun i => R (i + 1)) xs ys) : Pointwise R (x :: xs) (y :: ys) where
  length_eq := congrArg (· + 1) htail.length_eq
  rel i a b ha hb := by
    cases i with
    | zero =>
      cases ha
      cases hb
      exact hhead
    | succ i => exact htail.rel i a b ha hb

theorem exists_left (h : Pointwise R xs ys) {i : Nat} (hy : ys[i]? = some y) : ∃ x, R i x y := by
  have hi : i < xs.length := h.length_eq ▸ (List.getElem?_eq_some_iff.mp hy).1
  exact ⟨_, h.rel i _ y (List.getElem?_eq_getElem hi) hy⟩

/-- Both lists of results are complete or neither is. -/
theorem mapM_option (h : Pointwise R xs ys) (f : α → Option γ) (f' : β → Option δ)
    (hR : ∀ i x y, R i x y → Option.Rel (S i) (f x) (f' y)) :
    Option.Rel (fun rs rs' => rs.length = xs.length ∧ Pointwise S rs rs') (xs.mapM f) (ys.mapM f') := by
  induction xs generalizing ys R S with
  | nil =>
    rw [List.length_eq_zero_iff.mp h.length_eq.symm]
    exact .some ⟨rfl, rfl, nofun⟩
  | cons x xs ih =>
    cases ys with
    | nil => cases h.length_eq
    | cons y ys =>
      have hhead := hR 0 x y (h.rel 0 x y rfl rfl)
      have hrest := ih h.tail fun i => hR (i + 1)
      rw [List.mapM_cons, List.mapM_cons]
      generalize f x = r, f' y = r' at hhead
      generalize xs.mapM f = rs, ys.mapM f' = rs' at hrest
      cases hhead with
      | none => exact .none
      | some hr =>
        cases hrest with
        | none => exact .none
        | some hrs => exact .some ⟨congrArg (· + 1) hrs.1, .cons hr hrs.2⟩

/-- Both lists of results have the same first failure. -/
theorem mapM_except {rs : List (Except ε γ)} {rs' : List (Except ε δ)}
    (h : Pointwise (fun i => Except.Agree (S i)) rs rs') :
    Except.Agree (fun zs zs' => zs.length = rs.length ∧ Pointwise S zs zs') (rs.mapM id) (rs'.mapM id) := by
  induction rs generalizing rs' S with
  | nil =>
    rw [List.length_eq_zero_iff.mp h.length_eq.symm]
    exact .ok ⟨rfl, rfl, nofun⟩
  | cons r rs ih =>
    cases rs' with
    | nil => cases h.length_eq
    | cons r' rs' =>
      rw [List.mapM_cons, List.mapM_cons]
      refine (h.rel 0 r r' rfl rfl).bind fun z z' hz => (ih h.tail).bind fun zs zs' hzs => ?_
      exact .ok ⟨congrArg (· + 1) hzs.1, .cons hz hzs.2⟩

end Pointwise

/-- A number for each place of a list. -/
theorem exists_forall_getElem? {α : Type} {P : Nat → α → Nat → Prop} {xs : List α}
    (h : ∀ (i : Nat) x, xs[i]? = some x → ∃ b, P i x b) :
    ∃ f : Nat → Nat, ∀ (i : Nat) x, xs[i]? = some x → P i x (f i) := by
  have hall : ∀ i, ∃ b, ∀ x, xs[i]? = some x → P i x b := by
    intro i
    cases hx : xs[i]? with
    | none => exact ⟨0, fun _ hnone => by cases hnone⟩
    | some x =>
      obtain ⟨b, hb⟩ := h i x hx
      refine ⟨b, fun y hy => ?_⟩
      cases hy
      exact hb
  choose f hf using hall
  exact ⟨f, hf⟩

/-! ## Linking -/

namespace Objects.Linked

variable {l : Linking} {base a i : Nat} {key key' : String} {keys : List String} {r : Except Fault Unit × Objects}
  {o : Object}

/-- Linking leads to the rows that were found, which belong right below the objects that are linked. -/
theorem grows (hr : Linked l base key as os r) (hlen : r.2.length = os.length) (hos : Placed labels os)
    (hplaced : ∀ a ∈ as, labels.At place a)
    (hfound : ∀ j, j < l.found.length → labels.At (place ++ [i]) (base + j)) : Grows place labels os labels r.2 := by
  refine .of_changed hos hlen fun a o' ho' => ?_
  by_cases ha : a ∈ as
  · rcases hr.written a ha with heq | ⟨o, list, link, ho, hlink, hset⟩
    · exact .inl (heq.symm.trans ho')
    · cases hset.symm.trans ho'
      refine .inr ⟨[], o, by rw [List.append_nil]; exact hplaced a ha, ho, fun f hf => ?_⟩
      rcases Object.mem_set hf with rfl | hf
      · refine .inr fun b hb => ?_
        rw [Cell.addresses_ofLink, Link.positions_relabel] at hb
        obtain ⟨j, hj, rfl⟩ := List.mem_map.mp hb
        rw [List.append_nil]
        exact ⟨i, hfound j (hlink j hj)⟩
      · exact .inl hf
  · exact .inl ((hr.same a ha).symm.trans ho')

theorem holders (hr : Linked l base key as os r) (h : Holders labels os place keys as) (hkey : key ∈ keys) :
    Holders labels r.2 place keys as where
  nodup := h.nodup
  placed := h.placed
  tidy a ha o' ho' := by
    rcases hr.written a ha with heq | ⟨o, list, link, ho, -, hset⟩
    · exact h.tidy a ha o' (heq.symm.trans ho')
    · cases hset.symm.trans ho'
      exact (h.tidy a ha o ho).set hkey _

/-- Linking under one key does not write under others. -/
theorem lookup_of_ne (hr : Linked l base key as os r) (ha : a ∈ as) (hne : key' ≠ key) (ho : os[a]? = some o) :
    ∃ o', r.2[a]? = some o' ∧ o'.lookup key' = o.lookup key' := by
  rcases hr.written a ha with heq | ⟨o', list, link, ho', -, hset⟩
  · exact ⟨o, heq.trans ho, rfl⟩
  · cases ho.symm.trans ho'
    exact ⟨_, hset, Object.lookup_set_of_ne hne⟩

end Objects.Linked

/-! ## Loads -/

namespace ObjectLevel

variable {nodes : List PlanNode} {tasks : List ObjectTask} {rows : List Row} {tasks' : List Task} {i : Nat}
  {n : PlanNode}

/-- A load goes on, and objects do not change. -/
theorem Loads.set_task (h : Loads labels os place nodes as tasks rows tasks') (hn : nodes[i]? = some n)
    {t : ObjectTask} {t' : Task} (ht : ObjectTask.Mirrors labels os (place ++ [i]) as n.key t t') :
    Loads labels os place nodes as (tasks.set i t) rows (tasks'.set i t') where
  distinct := h.distinct
  holders := h.holders
  bottom := h.bottom
  flat := h.flat
  rows_eq := h.rows_eq
  length_eq := by rw [List.length_set, h.length_eq]
  length_eq' := by rw [List.length_set, h.length_eq']
  mirrors j m u u' hm hu hu' := by
    by_cases hij : i = j
    · subst hij
      have hi := (List.getElem?_eq_some_iff.mp hn).1
      rw [List.getElem?_set_self (h.length_eq ▸ hi)] at hu
      rw [List.getElem?_set_self (h.length_eq' ▸ hi)] at hu'
      cases hn.symm.trans hm
      cases hu
      cases hu'
      exact ht
    · rw [List.getElem?_set_ne hij] at hu hu'
      exact h.mirrors j m u u' hm hu hu'

/-- Objects are made of the rows that a load has found. -/
theorem Loads.extend (h : Loads labels os place nodes as tasks rows tasks') (hos : Placed labels os) (i : Nat)
    (found : List Row) :
    Loads (labels.extend (place ++ [i]) found) (os ++ found.map Object.ofRow) place nodes as tasks rows tasks' := by
  have hold : ∀ place' a, labels.At place' a → (os ++ found.map Object.ofRow)[a]? = os[a]? := fun place' a ha =>
    List.getElem?_append_left (hos.length_eq ▸ ha.lt_length)
  have hself : ∀ a ∈ as, (os ++ found.map Object.ofRow)[a]? = os[a]? := fun a ha => hold _ a (h.holders.placed a ha)
  refine ⟨h.distinct, ⟨h.holders.nodup, fun a ha => (h.holders.placed a ha).extend, fun a ha o ho => ?_⟩,
    fun rest a ha => ?_, fun j a o ha ho => ?_, ?_, h.length_eq, h.length_eq', fun j m t t' hm ht ht' => ?_⟩
  · exact h.holders.tidy a ha o ((hself a ha).symm.trans ho)
  · rcases Labels.at_extend_iff.mp ha with ha | ⟨-, -, heq⟩
    · exact h.bottom rest a ha
    · rw [List.append_cancel_left heq]
      exact Nat.le_refl 1
  · rcases Labels.at_extend_iff.mp ha with ha | ⟨hge, -, -⟩
    · exact h.flat j a o ha ((hold _ a ha).symm.trans ho)
    · rw [List.getElem?_append_right (hos.length_eq ▸ hge)] at ho
      obtain ⟨row, -, rfl⟩ := List.mem_map.mp (List.mem_of_getElem? ho)
      exact Object.flat_ofRow row
  · rw [← h.rows_eq]
    exact List.map_congr_left fun a ha =>
      hos.row_congr (fun rest b hb => hold _ b hb) 1 (h.holders.placed a ha)
  · exact (h.mirrors j m t t' hm ht ht').congr (fun b hb => hb.extend) (fun b hb => hold _ b hb)
      fun a ha o ho => ⟨o, (hself a ha).trans ho, rfl⟩

/-- The objects of a level can be linked to what a load has found. -/
theorem Loads.linkable (h : Loads labels os place nodes as tasks rows tasks') (hos : Placed labels os) {l : Linking}
    {base : Nat} (hfound : ∀ j row, l.found[j]? = some row →
      labels.At (place ++ [i]) (base + j) ∧ os[base + j]? = some (.ofRow row)) : Linkable l base as os where
  nodup := h.holders.nodup
  exist a ha := hos.exists_of_at (h.holders.placed a ha)
  apart a ha o ho f hf b hb hmem := by
    obtain ⟨j, hj⟩ := hos.at_below (h.holders.placed a ha) ho hf hb
    exact (h.holders.placed b hmem).not_below j hj
  found j row hrow :=
    ⟨fun hmem => (h.holders.placed _ hmem).not_below i (hfound j row hrow).1, (hfound j row hrow).2⟩

/-- The objects of a level are linked to what the load of a node has found. -/
theorem Loads.linked (h : Loads labels os place nodes as tasks rows tasks') (hos : Placed labels os)
    (hn : nodes[i]? = some n) {l : Linking} (hl : l.Sound) {base : Nat}
    (hfound : ∀ j row, l.found[j]? = some row →
      labels.At (place ++ [i]) (base + j) ∧ os[base + j]? = some (.ofRow row)) :
    Grows place labels os labels (linkAll l base n.key as os).2 ∧
      Loads labels (linkAll l base n.key as os).2 place nodes as
        (tasks.set i (.finished (linkAll l base n.key as os).1)) (l.attachTo n.key rows)
        (tasks'.set i (.finished (l.attachment rows))) := by
  have hlinked := (h.linkable hos hfound).linked n.key hl
  have hlen := length_linkAll l base n.key as os
  generalize linkAll l base n.key as os = r at hlinked hlen ⊢
  have hkey : n.key ∈ nodes.map PlanNode.key := List.mem_map_of_mem (List.mem_of_getElem? hn)
  have hat : ∀ j, j < l.found.length → labels.At (place ++ [i]) (base + j) := fun j hj =>
    (hfound j _ (List.getElem?_eq_getElem hj)).1
  have hbelow : ∀ j b, labels.At (place ++ [j]) b → r.2[b]? = os[b]? := fun j b hb =>
    hlinked.same b fun hmem => (h.holders.placed b hmem).not_below j hb
  have hrows := hlinked.rows
  have hresult := hlinked.result
  have hrefer := hlinked.refer
  rw [h.rows_eq] at hrows hresult hrefer
  have hloads : Loads labels r.2 place nodes as (tasks.set i .waiting) (l.attachTo n.key rows)
      (tasks'.set i .waiting) := by
    refine ⟨h.distinct, hlinked.holders h.holders hkey, h.bottom,
      fun j a o ha ho => h.flat j a o ha ((hbelow j a ha).symm.trans ho), hrows, by rw [List.length_set, h.length_eq],
      by rw [List.length_set, h.length_eq'], fun j m t t' hm ht ht' => ?_⟩
    by_cases hij : i = j
    · subst hij
      have hi := (List.getElem?_eq_some_iff.mp hn).1
      rw [List.getElem?_set_self (h.length_eq ▸ hi)] at ht
      rw [List.getElem?_set_self (h.length_eq' ▸ hi)] at ht'
      cases ht
      cases ht'
      exact .waiting
    · rw [List.getElem?_set_ne hij] at ht ht'
      have hne : m.key ≠ n.key := fun heq => hij (h.distinct.eq_of_key hn hm heq)
      exact (h.mirrors j m t t' hm ht ht').congr (fun b hb => hb) (hbelow j) fun a ha o ho =>
        hlinked.lookup_of_ne ha hne ho
  refine ⟨hlinked.grows hlen hos h.holders.placed hat, ?_⟩
  rw [← List.set_set, ← List.set_set (l := tasks')]
  refine hloads.set_task hn ?_
  rw [hresult]
  cases hatt : l.attachment rows with
  | error f => exact .failed f
  | ok att =>
    have hfoundEq : att.found = l.found := Linking.found_attachment hatt
    refine .linked ⟨hl.attachment hatt, fun j hj => hat j (hfoundEq ▸ hj), hrefer att hatt⟩ fun j row hrow => ?_
    obtain ⟨hplaced, ho⟩ := hfound j row (hfoundEq ▸ hrow)
    exact (hbelow i _ hplaced).trans ho

/-- The load of a node attaches what it has found. -/
theorem Loads.attach (h : Loads labels os place nodes as tasks rows tasks') (hos : Placed labels os)
    (hn : nodes[i]? = some n) {l : Linking} (hl : l.Sound) :
    ∃ labels', Grows place labels os labels' (os.attach l n.key as).2 ∧
      Loads labels' (os.attach l n.key as).2 place nodes as (tasks.set i (.finished (os.attach l n.key as).1))
        (l.attachTo n.key rows) (tasks'.set i (.finished (l.attachment rows))) := by
  have hextends := Grows.extend hos place [i] l.found
  have hloads := h.extend hos i l.found
  have hfound : ∀ j row, l.found[j]? = some row →
      (labels.extend (place ++ [i]) l.found).At (place ++ [i]) (os.length + j) ∧
        (os ++ l.found.map Object.ofRow)[os.length + j]? = some (.ofRow row) := by
    intro j row hrow
    refine ⟨?_, getElem?_append_ofRow os hrow⟩
    rw [← hos.length_eq]
    exact labels.at_extend _ (List.getElem?_eq_some_iff.mp hrow).1
  obtain ⟨hgrows, hloads⟩ := hloads.linked hextends.placed hn hl hfound
  exact ⟨_, hextends.trans hos hgrows, hloads⟩

/-- A load goes on as the load does that it stands for. -/
theorem Loads.step {σ : Type} (exec : Executor σ) (g : Graph) (s : Shared σ)
    (h : Loads labels os place nodes as tasks rows tasks') (hos : Placed labels os) {t : ObjectTask} {t' : Task}
    (hn : nodes[i]? = some n) (ht : tasks[i]? = some t) (ht' : tasks'[i]? = some t') :
    Option.Rel (fun r r' => r.2.1 = r'.2.2 ∧ ∃ labels', Grows place labels os labels' r.2.2 ∧
        Loads labels' r.2.2 place nodes as (tasks.set i r.1) r'.2.1 (tasks'.set i r'.1))
      (t.step exec g n as s os) (t'.step exec g n rows s) := by
  have hstays : ∀ {u u'}, ObjectTask.Mirrors labels os (place ++ [i]) as n.key u u' →
      ∃ labels', Grows place labels os labels' os ∧
        Loads labels' os place nodes as (tasks.set i u) rows (tasks'.set i u') :=
    fun hu => ⟨labels, .refl place hos, h.set_task hn hu⟩
  cases h.mirrors i n t t' hn ht ht' with
  | waiting =>
    rw [ObjectTask.step, Task.step, h.rows_eq]
    exact .some ⟨rfl, hstays (.running (n.sound_load g rows))⟩
  | @running load hload =>
    cases load with
    | ask q next =>
      rw [ObjectTask.step, Task.step]
      split
      · exact .none
      · exact .some ⟨rfl, hstays (.calling hload)⟩
    | done r =>
      cases r with
      | error f => exact .some ⟨rfl, hstays (.failed f)⟩
      | ok l => exact .some ⟨rfl, h.attach hos hn (hload l rfl)⟩
  | @calling q next hnext =>
    rw [ObjectTask.step, Task.step]
    exact .some ⟨rfl, hstays (.running (hnext _))⟩
  | failed f => exact .none
  | linked _ _ => exact .none

/-! ## Levels begin -/

/-- A level begins with objects that refer to nothing, and nothing is below it. -/
theorem Mirrors.start {l : Level} (hdistinct : NodesDistinct l.nodes) (hnodup : as.Nodup)
    (hplaced : ∀ a ∈ as, labels.At place a) (hbottom : ∀ rest a, labels.At (place ++ rest) a → rest = [])
    (hflat : ∀ a ∈ as, ∀ o, os[a]? = some o → o.Flat) (hrows : ∀ depth, as.map (os.row depth) = l.rows) :
    Mirrors labels os place as (start l.nodes as) l.start := by
  have hidle : (as.isEmpty || l.nodes.isEmpty) = l.isIdle := by
    rw [Level.isIdle, ← hrows 0, List.isEmpty_map]
  rw [ObjectLevel.start, Level.start, hidle]
  split
  · exact .finished hplaced 0 fun d _ => hrows d
  · refine .loading rfl ⟨hdistinct, ⟨hnodup, hplaced, fun a ha o ho => (hflat a ha o ho).tidy _⟩, fun rest a ha => ?_,
      fun i a o ha _ => ?_, hrows 1, List.length_map .., List.length_map .., fun i n t t' hn ht ht' => ?_⟩
    · rw [hbottom rest a ha]
      exact Nat.zero_le 1
    · cases hbottom [i] a ha
    · rw [List.getElem?_map, hn] at ht ht'
      cases ht
      cases ht'
      exact .waiting

/-- The level below a node begins with the objects that the node has attached. -/
theorem Loads.nested (h : Loads labels os place nodes as tasks rows tasks') (hn : nodes[i]? = some n)
    {att : Attachment} {base : Nat} (hattaches : Attaches labels os (place ++ [i]) as n.key att base)
    (hfound : ∀ j row, att.found[j]? = some row → os[base + j]? = some (.ofRow row)) (path : List String) :
    Mirrors labels os (place ++ [i]) (att.positions.map (base + ·)) (nested os as n)
      (Loaded.below path (n, att)).start := by
  have hnodes : (Loaded.below path (n, att)).nodes = (n.nested?.map (·.nodes)).getD [] := by
    cases n <;> rfl
  have hrows : (Loaded.below path (n, att)).rows = att.attached := by
    cases n <;> rfl
  rw [ObjectLevel.nested, Objects.attached_eq hattaches.refer, ← hnodes]
  refine Mirrors.start ?_ ?_ ?_ ?_ ?_ ?_
  · rw [hnodes]
    exact h.distinct.nested (List.mem_of_getElem? hn)
  · exact (nodup_eraseDups _).map fun j k hjk => Nat.add_left_cancel hjk
  · intro a ha
    obtain ⟨j, hj, rfl⟩ := List.mem_map.mp ha
    exact hattaches.found j (hattaches.position_lt hj)
  · intro rest a ha
    rw [List.append_assoc] at ha
    have hlen := h.bottom _ a ha
    rw [List.length_append, List.length_singleton] at hlen
    exact List.length_eq_zero_iff.mp (by omega)
  · intro a ha o ho
    obtain ⟨j, hj, rfl⟩ := List.mem_map.mp ha
    exact h.flat i _ o (hattaches.found j (hattaches.position_lt hj)) ho
  · intro depth
    rw [hrows, Attachment.attached_eq hattaches.sound, List.map_map]
    refine List.map_congr_left fun j hj => ?_
    have hrow := List.getElem?_eq_getElem (hattaches.position_lt hj)
    rw [Function.comp, row_of_flat (hfound j _ hrow), hrow, Option.getD_some]

/-! ## Levels after their loads -/

theorem Loads.row_eq (h : Loads labels os place nodes as tasks rows tasks') :
    rows = as.map fun a => Object.row (os.rows 0) ((os[a]?).getD []) := by
  rw [← h.rows_eq]
  refine List.map_congr_left fun a _ => ?_
  rw [Objects.row, getElem?_rows_succ]
  cases os[a]? <;> rfl

/-- The load of a node has ended with an attachment. -/
def Attached (labels : Labels) (os : Objects) (place : List Nat) (nodes : List PlanNode) (as : List Nat) (i : Nat)
    (att : Attachment) (base : Nat) : Prop :=
  ∃ n, nodes[i]? = some n ∧ Attaches labels os (place ++ [i]) as n.key att base ∧
    ∀ j row, att.found[j]? = some row → os[base + j]? = some (.ofRow row)

/-- All loads of a level have ended with attachments. -/
theorem Loads.nesting {l : Level} (h : Loads labels os place l.nodes as tasks l.rows tasks') {atts : List Attachment}
    {base : Nat → Nat} (hlen : atts.length = l.nodes.length)
    (hatts : ∀ (i : Nat) att, atts[i]? = some att → Attached labels os place l.nodes as i att (base i)) :
    Mirrors labels os place as (.nesting l.nodes as (l.nodes.map (ObjectLevel.nested os as)))
      (.nesting l.path l.rows (l.nodes.zip atts) ((l.nodes.zip atts).map fun n => (Loaded.below l.path n).start)) := by
  have hzip : (l.nodes.zip atts).length = l.nodes.length := by rw [List.length_zip, hlen, Nat.min_self]
  have hattached : ∀ (i : Nat) n att, (l.nodes.zip atts)[i]? = some (n, att) → l.nodes[i]? = some n ∧
      Attaches labels os (place ++ [i]) as n.key att (base i) ∧
      ∀ j row, att.found[j]? = some row → os[base i + j]? = some (.ofRow row) := by
    intro i n att hn
    obtain ⟨hnode, hatt⟩ := List.getElem?_zip_eq_some.mp hn
    obtain ⟨m, hm, hattaches, hfound⟩ := hatts i att hatt
    cases hnode.symm.trans hm
    exact ⟨hnode, hattaches, hfound⟩
  refine .nesting ⟨List.map_fst_zip (by omega), h.distinct.level, h.holders, ⟨_, h.row_eq⟩, fun i n hn =>
    (hattached i n.1 n.2 hn).2.1⟩ (by rw [List.length_map, hzip]) (List.length_map ..) fun i n b b' hn hb hb' => ?_
  obtain ⟨n, att⟩ := n
  obtain ⟨hnode, hattaches, hfound⟩ := hattached i n att hn
  rw [List.getElem?_map, hnode] at hb
  rw [List.getElem?_map, hn] at hb'
  cases hb
  cases hb'
  exact h.nested hnode hattaches hfound l.path

/-- A level goes on after its loads as the level does that it stands for. -/
theorem Loads.ofLoads {l : Level} (h : Loads labels os place l.nodes as tasks l.rows tasks') :
    Option.Rel (fun results results' => Mirrors labels os place as (ObjectLevel.ofLoads l.nodes as os results)
      (.ofLoads l results')) (tasks.mapM ObjectTask.result?) (tasks'.mapM Task.result?) := by
  have htasks : Pointwise (fun i t t' => ∃ n, l.nodes[i]? = some n ∧
      ObjectTask.Mirrors labels os (place ++ [i]) as n.key t t') tasks tasks' := by
    refine ⟨h.length_eq.trans h.length_eq'.symm, fun i t t' ht ht' => ?_⟩
    have hi : i < l.nodes.length := h.length_eq ▸ (List.getElem?_eq_some_iff.mp ht).1
    exact ⟨_, List.getElem?_eq_getElem hi, h.mirrors i _ t t' (List.getElem?_eq_getElem hi) ht ht'⟩
  have hended : ∀ i t t', (∃ n, l.nodes[i]? = some n ∧ ObjectTask.Mirrors labels os (place ++ [i]) as n.key t t') →
      Option.Rel (Except.Agree fun (_ : Unit) att => ∃ base, Attached labels os place l.nodes as i att base) t.result?
        t'.result? := by
    rintro i t t' ⟨n, hn, ht⟩
    cases ht with
    | failed f => exact .some (.error f)
    | linked hattaches hfound => exact .some (.ok ⟨_, n, hn, hattaches, hfound⟩)
    | _ => exact .none
  have hresults := htasks.mapM_option _ _ hended
  generalize tasks.mapM ObjectTask.result? = results, tasks'.mapM Task.result? = results' at hresults
  cases hresults with
  | none => exact .none
  | @some results results' hresults =>
    obtain ⟨hlen, hresults⟩ := hresults
    have hlen' : results'.length = l.nodes.length := hresults.length_eq.symm.trans (hlen.trans h.length_eq)
    have hall := hresults.mapM_except
    refine .some ?_
    rw [ObjectLevel.ofLoads]
    generalize results.mapM id = units at hall
    cases hatts : results'.mapM id with
    | error f =>
      rw [hatts] at hall
      cases hall with
      | error =>
        rw [ofLoads_of_error hlen' hatts]
        exact .failed f
    | ok atts =>
      rw [hatts] at hall
      cases hall with
      | ok hall =>
        rw [ofLoads_of_ok hlen' hatts]
        have hattsLen : atts.length = l.nodes.length := (Except.length_of_mapM hatts).trans hlen'
        obtain ⟨base, hbase⟩ := exists_forall_getElem? fun i att hatt => (hall.2.exists_left hatt).choose_spec
        exact h.nesting hattsLen hbase

/-! ## Levels after those below them -/

/-- The level below a node has ended with some rows. -/
def Ended (os : Objects) (loaded : List Loaded) (base : Nat → Nat) (i : Nat) (below : List Row) (depth : Nat) : Prop :=
  ∀ n, loaded[i]? = some n → ∀ d, depth ≤ d → (n.2.positions.map (base i + ·)).map (os.row d) = below

/-- All levels below a level have ended with rows. -/
theorem Nests.finished {loaded : List Loaded} {base : Nat → Nat} (h : Nests labels os place nodes as rows loaded base)
    (hos : Placed labels os) {belows : List (List Row)} (hlen : belows.length = loaded.length)
    (hended : ∀ (i : Nat) below, belows[i]? = some below → ∃ depth, Ended os loaded base i below depth) :
    Mirrors labels (nodes.foldl (trim as) os) place as (.finished (.ok as))
      (.finished (.ok (settleAll rows loaded belows))) := by
  obtain ⟨depth, hdepth⟩ := exists_forall_getElem? hended
  have hdeepest : ∀ i, i < belows.length → depth i ≤ ((List.range belows.length).map depth).sum := fun i hi =>
    List.le_sum_of_mem (List.mem_map_of_mem (List.mem_range.mpr hi))
  refine .finished h.holders.placed (((List.range belows.length).map depth).sum + 1) fun d hd => ?_
  obtain ⟨d, rfl⟩ : ∃ d', d = d' + 1 := ⟨d - 1, by omega⟩
  refine h.map_row_trim hos hlen fun i n below hn hbelow => hdepth i below hbelow n hn d ?_
  have hi := hdeepest i (List.getElem?_eq_some_iff.mp hbelow).1
  omega

/-- A level goes on after those below it as the level does that it stands for. -/
theorem Nests.ofBelow {loaded : List Loaded} {base : Nat → Nat} (h : Nests labels os place nodes as rows loaded base)
    (hos : Placed labels os) {below : List ObjectLevel} {below' : List LevelState} (hlen : below.length = loaded.length)
    (hlen' : below'.length = loaded.length) (hbelow : ∀ (i : Nat) n b b', loaded[i]? = some n → below[i]? = some b →
      below'[i]? = some b' → Mirrors labels os (place ++ [i]) (n.2.positions.map (base i + ·)) b b')
    (path : List String) :
    Option.Rel (fun results results' => Grows place labels os labels (ObjectLevel.ofBelow nodes as os results).2 ∧
        Mirrors labels (ObjectLevel.ofBelow nodes as os results).2 place as (ObjectLevel.ofBelow nodes as os results).1
          (.ofBelow path rows loaded results'))
      (below.mapM ObjectLevel.result?) (below'.mapM LevelState.result?) := by
  have hlevels : Pointwise (fun i b b' => ∃ n, loaded[i]? = some n ∧
      Mirrors labels os (place ++ [i]) (n.2.positions.map (base i + ·)) b b') below below' := by
    refine ⟨hlen.trans hlen'.symm, fun i b b' hb hb' => ?_⟩
    have hi : i < loaded.length := hlen ▸ (List.getElem?_eq_some_iff.mp hb).1
    exact ⟨_, List.getElem?_eq_getElem hi, hbelow i _ b b' (List.getElem?_eq_getElem hi) hb hb'⟩
  have hended : ∀ i b b', (∃ n, loaded[i]? = some n ∧
      Mirrors labels os (place ++ [i]) (n.2.positions.map (base i + ·)) b b') →
      Option.Rel (Except.Agree fun (_ : List Nat) rs => ∃ depth, Ended os loaded base i rs depth) b.result?
        b'.result? := by
    rintro i b b' ⟨n, hn, hb⟩
    cases hb with
    | failed f => exact .some (.error f)
    | finished hplaced depth hrows =>
      refine .some (.ok ⟨depth, fun m hm => ?_⟩)
      cases hn.symm.trans hm
      exact hrows
    | _ => exact .none
  have hresults := hlevels.mapM_option _ _ hended
  generalize below.mapM ObjectLevel.result? = results, below'.mapM LevelState.result? = results' at hresults
  cases hresults with
  | none => exact .none
  | @some results results' hresults =>
    obtain ⟨hresultsLen, hresults⟩ := hresults
    have hall := hresults.mapM_except
    refine .some ?_
    rw [ObjectLevel.ofBelow, LevelState.ofBelow, LoadedLevel.finish]
    generalize results.mapM id = ass, results'.mapM id = belows at hall
    cases hall with
    | error f => exact ⟨.refl place hos, .failed f⟩
    | @ok ass belows hall =>
      have hbelowsLen : belows.length = loaded.length :=
        hall.2.length_eq.symm.trans (hall.1.trans (hresultsLen.trans hlen))
      refine ⟨h.grows_trim hos, h.finished hos hbelowsLen fun i rs hrs => ?_⟩
      exact (hall.2.exists_left hrs).choose_spec

/-! ## Steps -/

section Steps

variable {σ : Type} (exec : Executor σ) (g : Graph)

/-- What a step of a level on objects and one of a level on rows come to. -/
def InStep (labels : Labels) (os : Objects) (place as : List Nat) (r : ObjectLevel × Shared σ × Objects)
    (r' : LevelState × Shared σ) : Prop :=
  r.2.1 = r'.2 ∧ ∃ labels', Grows place labels os labels' r.2.2 ∧ Mirrors labels' r.2.2 place as r.1 r'.1

theorem Loads.step_level {l : Level} (h : Loads labels os place l.nodes as tasks l.rows tasks') (hos : Placed labels os)
    (i : Nat) (s : Shared σ) :
    Option.Rel (InStep labels os place as) (ObjectLevel.step exec g [i] (.loading l.nodes as tasks) s os)
      (LevelState.step exec g [i] (.loading l tasks') s) := by
  rw [ObjectLevel.step, LevelState.step]
  cases hn : l.nodes[i]? with
  | none => exact .none
  | some n =>
    have hi : i < l.nodes.length := (List.getElem?_eq_some_iff.mp hn).1
    have ht := List.getElem?_eq_getElem (h.length_eq.symm ▸ hi : i < tasks.length)
    have ht' := List.getElem?_eq_getElem (h.length_eq'.symm ▸ hi : i < tasks'.length)
    have hstep := h.step exec g s hos hn ht ht'
    rw [ht, ht']
    simp only [Option.bind_eq_bind, Option.bind_some]
    generalize ObjectTask.step exec g n as s os _ = r, Task.step exec g n l.rows s _ = r' at hstep
    cases hstep with
    | none => exact .none
    | some hr =>
      obtain ⟨hshared, labels', hgrows, hloads⟩ := hr
      exact .some ⟨hshared, labels', hgrows, .loading rfl hloads⟩

/-- A level goes on after a step of one below it. -/
theorem Nests.step_below {loaded : List Loaded} {base : Nat → Nat} (h : Nests labels os place nodes as rows loaded base)
    (hos : Placed labels os) {below : List ObjectLevel} {below' : List LevelState} (hlen : below.length = loaded.length)
    (hlen' : below'.length = loaded.length) (hbelow : ∀ (i : Nat) n b b', loaded[i]? = some n → below[i]? = some b →
      below'[i]? = some b' → Mirrors labels os (place ++ [i]) (n.2.positions.map (base i + ·)) b b')
    (path : List String) {n : Loaded} (hn : loaded[i]? = some n) (hgrows : Grows (place ++ [i]) labels os labels' os')
    {b : ObjectLevel} {b' : LevelState}
    (hb : Mirrors labels' os' (place ++ [i]) (n.2.positions.map (base i + ·)) b b') :
    Mirrors labels' os' place as (.nesting nodes as (below.set i b)) (.nesting path rows loaded (below'.set i b')) := by
  refine .nesting (h.congr (fun a => hgrows.at_of_at) (fun j a => hgrows.at_of_at) fun a ha =>
    hgrows.getElem?_above hos (h.holders.placed a ha)) (by rw [List.length_set, hlen]) (by rw [List.length_set, hlen'])
    fun j m c c' hm hc hc' => ?_
  by_cases hij : i = j
  · subst hij
    have hi := (List.getElem?_eq_some_iff.mp hn).1
    rw [List.getElem?_set_self (hlen.symm ▸ hi)] at hc
    rw [List.getElem?_set_self (hlen'.symm ▸ hi)] at hc'
    cases hn.symm.trans hm
    cases hc
    cases hc'
    exact hb
  · rw [List.getElem?_set_ne hij] at hc hc'
    exact (hbelow j m c c' hm hc hc').congr (hgrows.beside hos hij) hos

/-- A level goes on as the level does that it stands for when one below it goes on so. -/
theorem Nests.step_nesting {loaded : List Loaded} {base : Nat → Nat}
    (h : Nests labels os place nodes as rows loaded base) (hos : Placed labels os) {below : List ObjectLevel}
    {below' : List LevelState} (hlen : below.length = loaded.length) (hlen' : below'.length = loaded.length)
    (hbelow : ∀ (i : Nat) n b b', loaded[i]? = some n → below[i]? = some b → below'[i]? = some b' →
      Mirrors labels os (place ++ [i]) (n.2.positions.map (base i + ·)) b b')
    (path : List String) (i : Nat) (rest : List Nat) (s : Shared σ)
    (hstep : ∀ n b b', loaded[i]? = some n → below[i]? = some b → below'[i]? = some b' →
      Option.Rel (InStep labels os (place ++ [i]) (n.2.positions.map (base i + ·))) (b.step exec g rest s os)
        (b'.step exec g rest s)) :
    Option.Rel (InStep labels os place as) (ObjectLevel.step exec g (i :: rest) (.nesting nodes as below) s os)
      (LevelState.step exec g (i :: rest) (.nesting path rows loaded below') s) := by
  rw [ObjectLevel.step, LevelState.step]
  cases hn : loaded[i]? with
  | none =>
    have hi := List.getElem?_eq_none_iff.mp hn
    rw [List.getElem?_eq_none (hlen ▸ hi), List.getElem?_eq_none (hlen' ▸ hi)]
    exact .none
  | some n =>
    have hi := (List.getElem?_eq_some_iff.mp hn).1
    have hb := List.getElem?_eq_getElem (hlen.symm ▸ hi : i < below.length)
    have hb' := List.getElem?_eq_getElem (hlen'.symm ▸ hi : i < below'.length)
    have hstep := hstep n _ _ hn hb hb'
    rw [hb, hb']
    simp only [Option.bind_eq_bind, Option.bind_some]
    generalize ObjectLevel.step exec g rest _ s os = r, LevelState.step exec g rest _ s = r' at hstep
    cases hstep with
    | none => exact .none
    | some hr =>
      obtain ⟨hshared, labels', hgrows, hmirrors⟩ := hr
      exact .some ⟨hshared, labels', hgrows.of_below, h.step_below hos hlen hlen' hbelow path hn hgrows hmirrors⟩

/-- Whatever step is taken, on both sides it can be taken or not, and comes to the same. -/
theorem Mirrors.step {lvl : ObjectLevel} {st : LevelState} (h : Mirrors labels os place as lvl st)
    (hos : Placed labels os) (at_ : List Nat) (s : Shared σ) :
    Option.Rel (InStep labels os place as) (lvl.step exec g at_ s os) (st.step exec g at_ s) := by
  induction at_ generalizing place as lvl st with
  | nil =>
    cases h with
    | loading hnodes h =>
      subst hnodes
      rw [ObjectLevel.step, LevelState.step]
      have hnext := h.ofLoads
      generalize List.mapM ObjectTask.result? _ = results, List.mapM Task.result? _ = results' at hnext
      cases hnext with
      | none => exact .none
      | some hnext => exact .some ⟨rfl, labels, .refl place hos, hnext⟩
    | @nesting _ _ _ _ path _ _ _ _ h hlen hlen' hbelow =>
      rw [ObjectLevel.step, LevelState.step]
      have hnext := h.ofBelow hos hlen hlen' hbelow path
      generalize List.mapM ObjectLevel.result? _ = results, List.mapM LevelState.result? _ = results' at hnext
      cases hnext with
      | none => exact .none
      | some hnext => exact .some ⟨rfl, labels, hnext⟩
    | failed f => exact .none
    | finished _ _ _ => exact .none
  | cons i rest ih =>
    cases h with
    | loading hnodes h =>
      subst hnodes
      cases rest with
      | nil => exact h.step_level exec g hos i s
      | cons j rest => exact .none
    | @nesting _ _ _ _ path _ _ _ _ h hlen hlen' hbelow =>
      exact h.step_nesting exec g hos hlen hlen' hbelow path i rest s fun n b b' hn hb hb' =>
        ih (hbelow i n b b' hn hb hb')
    | failed f => cases rest <;> exact .none
    | finished _ _ _ => cases rest <;> exact .none

end Steps

end ObjectLevel

end RelatedRows

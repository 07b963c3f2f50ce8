import RelatedRows.Proofs.Asked

/-!
# Transcripts

A node sees nothing of a store but the answers to its own queries.  So what is asked of any store, even of one that
answers the same query differently every time, follows from what each node hears.

* `Executor.heard`: the answers to the queries of the node at a path, in the course of a run.
* `Dialogue.puts`, `Dialogue.result?`: the queries and the result of a load, given the answers.
* `PlanNode.attachHearing`: what a node attaches, given the answers.
* `Session.Replays`: a stretch of a run whose queries follow from what is heard in it.
* `replays_loadNodes`: so do the loads of a level.
-/

namespace RelatedRows

/-- What the nodes at all paths are answered, in turn. -/
abbrev Heard := List String → List Answer

/-! ## Stores that change -/

namespace Executor

variable {σ : Type} (exec : Executor σ)

/-- The state of a store after some queries. -/
def after (store : σ) (asked : List Asked) : σ :=
  asked.foldl (fun store a => (exec store (.batch a.2)).2) store

/-- The answers to those of some queries that the node at a path puts. -/
def heard : σ → List Asked → Heard
  | _, [], _ => []
  | store, a :: asked, path =>
    let (answer, store) := exec store (.batch a.2)
    if a.1 = path then answer :: heard store asked path else heard store asked path

/-- An answer that a store has for a query in one of its states. -/
def Answers (q : BatchQuery) (answer : Answer) : Prop :=
  ∃ store, (exec store (.batch q)).1 = answer

variable {exec} {store : σ} {asked asked' : List Asked} {path : List String}

theorem after_append : exec.after store (asked ++ asked') = exec.after (exec.after store asked) asked' :=
  List.foldl_append

theorem heard_append :
    exec.heard store (asked ++ asked') path =
      exec.heard store asked path ++ exec.heard (exec.after store asked) asked' path := by
  induction asked generalizing store with
  | nil => rfl
  | cons a asked ih =>
    simp only [List.cons_append, heard, ih]
    split <;> rfl

theorem heard_of_notAt (h : ∀ a ∈ asked, a.1 ≠ path) : exec.heard store asked path = [] := by
  induction asked generalizing store with
  | nil => rfl
  | cons a asked ih =>
    simp only [heard, if_neg (h a List.mem_cons_self)]
    exact ih fun b hb => h b (List.mem_cons_of_mem _ hb)

end Executor

/-! ## Loads that are answered -/

namespace Dialogue

variable {α : Type}

/-- The queries of a dialogue that gets some answers, one after the other. -/
def puts : Dialogue α → List Answer → List BatchQuery
  | .done _, _ => []
  | .ask q _, [] => [q]
  | .ask q next, a :: as => q :: (next a).puts as

/-- The result of a dialogue, if there are answers enough. -/
def result? : Dialogue α → List Answer → Option α
  | .done r, _ => some r
  | .ask _ _, [] => none
  | .ask _ next, a :: as => (next a).result? as

/-- The answers are all that a dialogue asks for, each of them possible. -/
inductive Hears (possible : BatchQuery → Answer → Prop) : Dialogue α → List Answer → Prop
  | done (r : α) : Hears possible (.done r) []
  | ask {q : BatchQuery} {next : Answer → Dialogue α} {a : Answer} {as : List Answer} (ha : possible q a)
    (hnext : Hears possible (next a) as) : Hears possible (.ask q next) (a :: as)

/-- The result of a load links rows by the columns that the load links them by. -/
theorem LinksBy.link_congr {columns : List String} {d : Load} (hd : d.LinksBy columns) {as : List Answer} {l : Linking}
    (hl : d.result? as = some (.ok l)) :
    ∀ a b : Row, a.spelling columns = b.spelling columns → l.link a = l.link b := by
  induction d generalizing as with
  | done r => exact hd l (Option.some.inj hl)
  | ask q next ih =>
    cases as with
    | nil => cases hl
    | cons a as => exact ih a (hd a) hl

end Dialogue

namespace PlanNode

variable (g : Graph) (n : PlanNode)

/-- What a node attaches to rows when it is answered; a load without an answer is called off. -/
def attachHearing (as : List Answer) (rows : List Row) : Except Fault Attachment :=
  match (n.load g rows).result? as with
  | some r => r >>= (·.attachment rows)
  | none => .error .cancelled

variable {g n}

theorem attachHearing_congr {as : List Answer} {rows rows' : List Row}
    (h : rows.map (Row.spelling n.step.relation.sourceKey) = rows'.map (Row.spelling n.step.relation.sourceKey)) :
    n.attachHearing g as rows = n.attachHearing g as rows' := by
  rw [attachHearing, attachHearing, load_congr h]
  cases hresult : (n.load g rows').result? as with
  | none => rfl
  | some r =>
    cases r with
    | error f => rfl
    | ok l => exact l.attachment_congr (linksBy_load.link_congr hresult) h

end PlanNode

/-! ## Stretches of a run -/

namespace Session

variable {σ : Type} (exec : Executor σ)

/-- A session goes on by some queries to a store. -/
structure Asks (s s' : Session σ) (put : List Asked) : Prop where
  asked : s'.asked = s.asked ++ put
  store : s'.store = exec.after s.store put

/-- From one session to another, queries are put by nodes at certain paths only.  Which ones, and whatever else is true
of the stretch, follows from what these nodes hear in it. -/
def Replays (paths : List String → Prop) (puts : Heard → List Asked) (facts : Heard → Prop) (s s' : Session σ) :
    Prop :=
  ∃ asked, s.Asks exec s' asked ∧ (∀ a ∈ asked, paths a.1) ∧
    ∀ heard : Heard, (∀ path, paths path → heard path = exec.heard s.store asked path) →
      asked = puts heard ∧ facts heard

variable {exec} {s s' s'' : Session σ} {paths paths' : List String → Prop} {puts puts' : Heard → List Asked}
  {facts facts' : Heard → Prop}

namespace Replays

/-- Nothing is asked. -/
theorem of_asks_nil (h : s.Asks exec s' []) (hputs : ∀ heard, puts heard = []) (hfacts : ∀ heard, facts heard) :
    s.Replays exec paths puts facts s' := by
  refine ⟨[], h, ?_, fun heard _ => ⟨(hputs heard).symm, hfacts heard⟩⟩
  exact fun a ha => absurd ha List.not_mem_nil

/-- There is something to hear by which all that is said of a stretch is true. -/
theorem exists_facts (h : s.Replays exec paths puts facts s') : ∃ heard, facts heard := by
  obtain ⟨asked, -, -, hfacts⟩ := h
  exact ⟨exec.heard s.store asked, (hfacts _ fun _ _ => rfl).2⟩

theorem mono (h : s.Replays exec paths puts facts s') (hpaths : ∀ path, paths path → paths' path)
    (hputs : ∀ heard, facts heard → puts heard = puts' heard) (hfacts : ∀ heard, facts heard → facts' heard) :
    s.Replays exec paths' puts' facts' s' := by
  obtain ⟨asked, hasks, hat, hall⟩ := h
  refine ⟨asked, hasks, fun a ha => hpaths _ (hat a ha), fun heard hheard => ?_⟩
  obtain ⟨hasked, hf⟩ := hall heard fun path hpath => hheard path (hpaths path hpath)
  exact ⟨hasked.trans (hputs heard hf), hfacts heard hf⟩

/-- What is recorded besides the queries does not matter. -/
theorem of_asked_eq (h : s'.Replays exec paths puts facts s'') (hasked : s'.asked = s.asked)
    (hstore : s'.store = s.store) : s.Replays exec paths puts facts s'' := by
  obtain ⟨asked, hasks, hat, hall⟩ := h
  refine ⟨asked, ⟨?_, ?_⟩, hat, ?_⟩
  · rw [hasks.asked, hasked]
  · rw [hasks.store, hstore]
  · rwa [← hstore]

/-- Nodes at other paths do not notice each other. -/
theorem trans (h : s.Replays exec paths puts facts s') (h' : s'.Replays exec paths' puts' facts' s'')
    (hapart : ∀ path, paths path → ¬paths' path) :
    s.Replays exec (fun path => paths path ∨ paths' path) (fun heard => puts heard ++ puts' heard)
      (fun heard => facts heard ∧ facts' heard) s'' := by
  obtain ⟨asked, hasks, hat, hall⟩ := h
  obtain ⟨asked', hasks', hat', hall'⟩ := h'
  refine ⟨asked ++ asked', ⟨?_, ?_⟩, fun a ha => ?_, fun heard hheard => ?_⟩
  · rw [hasks'.asked, hasks.asked, List.append_assoc]
  · rw [hasks'.store, hasks.store, Executor.after_append]
  · rcases List.mem_append.mp ha with ha | ha
    · exact .inl (hat a ha)
    · exact .inr (hat' a ha)
  · have hfirst : ∀ path, paths path → heard path = exec.heard s.store asked path := by
      intro path hpath
      have hnone : exec.heard (exec.after s.store asked) asked' path = [] :=
        Executor.heard_of_notAt fun a ha heq => hapart path hpath (heq ▸ hat' a ha)
      rw [hheard path (.inl hpath), Executor.heard_append, hnone, List.append_nil]
    have hsecond : ∀ path, paths' path → heard path = exec.heard s'.store asked' path := by
      intro path hpath
      have hnone : exec.heard s.store asked path = [] :=
        Executor.heard_of_notAt fun a ha heq => hapart path (heq ▸ hat a ha) hpath
      rw [hheard path (.inr hpath), Executor.heard_append, hnone, List.nil_append, hasks.store]
    obtain ⟨hasked, hf⟩ := hall heard hfirst
    obtain ⟨hasked', hf'⟩ := hall' heard hsecond
    exact ⟨congrArg₂ (· ++ ·) hasked hasked', hf, hf'⟩

end Replays

end Session

/-! ## Loads in a run -/

section Runs

variable {σ α : Type} (exec : Executor σ) (g : Graph)

open Session

/-- A dialogue that is run hears the answers to its own queries, and ends as they say. -/
theorem Dialogue.hears_run (path : List String) (step : Inclusion) (d : Dialogue α) (s : Session σ) :
    ∃ as, d.Hears exec.Answers as ∧ d.result? as = some (d.run exec path step s).1 ∧
      s.Asks exec (d.run exec path step s).2 ((d.puts as).map (path, ·)) ∧
      exec.heard s.store ((d.puts as).map (path, ·)) path = as := by
  induction d generalizing s with
  | done r => exact ⟨[], .done r, rfl, ⟨(List.append_nil _).symm, rfl⟩, rfl⟩
  | ask q next ih =>
    let answer := (exec s.store (.batch q)).1
    let s' := (s.record [.query path step q]).called (exec s.store (.batch q)).2
    have hs' : s'.asked = s.asked ++ [(path, q)] := s.asked_record [.query path step q]
    obtain ⟨as, hhears, hresult, hasks, hheard⟩ := ih answer s'
    refine ⟨answer :: as, .ask ⟨s.store, rfl⟩ hhears, hresult, ⟨?_, hasks.store⟩, ?_⟩
    · refine hasks.asked.trans ?_
      rw [hs', List.append_assoc]
      rfl
    · simp only [puts, List.map_cons, Executor.heard, if_true]
      exact congrArg (answer :: ·) hheard

theorem Dialogue.replays_run (path : List String) (step : Inclusion) (d : Dialogue α) (s : Session σ) :
    s.Replays exec (· = path) (fun heard => (d.puts (heard path)).map (path, ·))
      (fun heard => d.Hears exec.Answers (heard path) ∧ d.result? (heard path) = some (d.run exec path step s).1)
      (d.run exec path step s).2 := by
  obtain ⟨as, hhears, hresult, hasks, hheard⟩ := d.hears_run exec path step s
  refine ⟨_, hasks, fun a ha => ?_, fun heard hpath => ?_⟩
  · obtain ⟨q, -, rfl⟩ := List.mem_map.mp ha
    rfl
  · have has : heard path = as := (hpath path rfl).trans hheard
    show _ = (d.puts (heard path)).map _ ∧ d.Hears _ (heard path) ∧ d.result? (heard path) = _
    rw [has]
    exact ⟨rfl, hhears, hresult⟩

theorem replays_loadNodes (path : List String) {ns : List PlanNode} (hapart : ns.Pairwise PlanNode.Apart)
    (hkeys : (ns.map PlanNode.key).Nodup) (rows : List Row) (s : Session σ) :
    s.Replays exec (fun p => ∃ n ∈ ns, p = path ++ [n.key])
      (fun heard => ns.flatMap fun n =>
        ((n.load g rows).puts (heard (path ++ [n.key]))).map (path ++ [n.key], ·))
      (fun heard => (∀ n ∈ ns, (n.load g rows).Hears exec.Answers (heard (path ++ [n.key]))) ∧
        (loadNodes exec g path ns rows s).1 =
          ns.map fun n => (n.attachHearing g (heard (path ++ [n.key])) rows).map (n, ·))
      (loadNodes exec g path ns rows s).2.2 := by
  induction ns generalizing rows s with
  | nil =>
    exact .of_asks_nil ⟨(List.append_nil _).symm, rfl⟩ (fun _ => rfl) fun _ =>
      ⟨fun n hn => absurd hn List.not_mem_nil, rfl⟩
  | cons n ns ih =>
    rw [List.pairwise_cons] at hapart
    rw [List.map_cons, List.nodup_cons] at hkeys
    have hnode := (n.load g rows).replays_run exec (path ++ [n.key]) n.step s
    let run := (n.load g rows).run exec (path ++ [n.key]) n.step s
    let after := rowsAfter n.key rows run.1
    have hrest := ih hapart.2 hkeys.2 after run.2
    have hspelling : ∀ m ∈ ns, after.map (Row.spelling m.step.relation.sourceKey) =
        rows.map (Row.spelling m.step.relation.sourceKey) :=
      fun m hm => spelling_rowsAfter (hapart.1 m hm).1 rows run.1
    have hother : ∀ p, p = path ++ [n.key] → ¬∃ m ∈ ns, p = path ++ [m.key] := by
      rintro p rfl ⟨m, hm, heq⟩
      have hkey : n.key = m.key := by simpa using heq
      exact hkeys.1 (hkey ▸ List.mem_map_of_mem hm)
    refine (hnode.trans hrest hother).mono ?_ ?_ ?_
    · rintro p (rfl | ⟨m, hm, rfl⟩)
      · exact ⟨n, List.mem_cons_self, rfl⟩
      · exact ⟨m, List.mem_cons_of_mem _ hm, rfl⟩
    · intro heard _
      rw [List.flatMap_cons]
      refine congrArg _ (List.flatMap_congr fun m hm => ?_)
      rw [PlanNode.load_congr (hspelling m hm)]
    · rintro heard ⟨⟨hhears, hresult⟩, hhears', hloaded⟩
      refine ⟨List.forall_mem_cons.mpr ⟨hhears, fun m hm => ?_⟩, ?_⟩
      · rw [← PlanNode.load_congr (hspelling m hm)]
        exact hhears' m hm
      · have hhead : (run.1 >>= (·.attachment rows)) = n.attachHearing g (heard (path ++ [n.key])) rows := by
          rw [PlanNode.attachHearing, hresult]
        show ((run.1 >>= (·.attachment rows)).map (n, ·) :: (loadNodes exec g path ns after run.2).1) = _
        rw [hloaded, hhead, List.map_cons]
        refine congrArg _ (List.map_congr_left fun m hm => ?_)
        rw [PlanNode.attachHearing_congr (hspelling m hm)]

end Runs

end RelatedRows

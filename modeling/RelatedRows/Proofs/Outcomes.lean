import RelatedRows.Proofs.Entries
import RelatedRows.Proofs.Reports
import RelatedRows.Proofs.Surfacing

/-!
# Outcomes of requests

How a request for rows may end, over any database and in any environment.

* `Listing.Tells`: rejections that the client is told of; `tells_of_compile`: there are no others for a known entity.
* `Bookshelf.keysApart_of_compile`: no plan for the bookshelf writes into the columns that it is stitched by.
* `Executor.Tabular`: a database with scalars in its columns.
* `Listing.Outcome`: the ways in which a request may end; `answer_outcome`: it ends in one of them.
-/

namespace RelatedRows

/-! ## Rejections -/

namespace Listing

/-- A rejection that the client is told of as a bad request. -/
def Tells (err : Rejection) : Prop :=
  ∃ detail, reject err = .refused 400 detail

theorem tells_vetColumns {e : Entity} {key : Option String} {columns : List Value} {err : Rejection}
    (h : vetColumns e key columns = .error err) : Tells err := by
  unfold vetColumns at h
  split at h
  · cases h
    exact ⟨_, rfl⟩
  · cases h

section Compile

variable {g : Graph} {deeper : Option LevelCompiler} {err : Rejection}

/-- The compiler of the levels below only rejects what clients are told of. -/
def TellsBelow (deeper : Option LevelCompiler) : Prop :=
  ∀ compileLevel, deeper = some compileLevel → ∀ entity depth path spec err,
    compileLevel entity depth path spec = .error err → Tells err

variable (hg : ∀ r ∈ g.relations, ∃ e, g.entity? r.target = some e) (hdeeper : TellsBelow deeper)

include hdeeper

theorem tells_compileOptions {depth : Nat} {path : List String} {step : Inclusion} {entry : Entry}
    (h : compileOptions deeper depth path step entry = .error err) : Tells err := by
  rw [compileOptions_eq] at h
  split at h
  · cases h
  · split at h
    · cases h
    · next compileLevel =>
      cases hnested : compileLevel step.relation.target (depth + 1) (path ++ [step.key])
          (.object (entry.below.getD [])) with
      | error err' =>
        rw [hnested] at h
        cases h
        exact hdeeper compileLevel rfl _ _ _ _ _ hnested
      | ok nested =>
        rw [hnested] at h
        cases h

include hg

theorem tells_compileEntry {entity : String} {depth : Nat} {path : List String} {field : String × Value}
    (h : compileEntry g deeper entity depth path field = .error err) : Tells err := by
  unfold compileEntry at h
  dsimp only at h
  split at h
  · cases h
    exact ⟨_, rfl⟩
  next relation hrelation =>
  split at h
  · cases h
  · cases h
  · cases h
  · split at h
    · cases h
      exact ⟨_, rfl⟩
    next entry hread =>
    split at h
    · next hnone =>
      obtain ⟨e, he⟩ := hg relation (Graph.mem_of_lookup? hrelation)
      rw [hnone] at he
      cases he
    next target htarget =>
    cases hvet : vetColumns target field.1 (entry.options.columns.map .text) with
    | error err' =>
      rw [hvet] at h
      cases h
      exact tells_vetColumns hvet
    | ok u =>
      rw [hvet] at h
      exact tells_compileOptions hdeeper h
  · cases h
    exact ⟨_, rfl⟩

theorem tells_compileSpec {entity : String} {depth : Nat} {path : List String} {spec : Value}
    (h : compileSpec g deeper entity depth path spec = .error err) : Tells err := by
  unfold compileSpec at h
  split at h
  · cases h
  · next fields =>
    cases hfields : fields.mapM (compileEntry g deeper entity depth path) with
    | ok cs =>
      rw [hfields] at h
      cases h
    | error err' =>
      rw [hfields] at h
      cases h
      rw [← Except.mapM_id_map] at hfields
      obtain ⟨field, -, hfield⟩ := List.mem_map.mp (Except.mem_of_mapM_id hfields)
      exact tells_compileEntry hg hdeeper hfield
  · cases h
    exact ⟨_, rfl⟩

omit hdeeper

theorem tells_compileLevel (below : Nat) : TellsBelow (some (compileLevel g below)) := by
  induction below with
  | zero =>
    rintro _ ⟨⟩ entity depth path spec err h
    exact tells_compileSpec hg (fun _ hl => by cases hl) h
  | succ below ih =>
    rintro _ ⟨⟩ entity depth path spec err h
    exact tells_compileSpec hg ih h

/-- For a known entity and with room for at least one level, every rejection is told. -/
theorem tells_of_compile {entity : String} {e : Entity} {spec : Value} {maxDepth : Int} (hdepth : 1 ≤ maxDepth)
    (he : g.entity? entity = some e) (h : compile g entity spec maxDepth = .error err) : Tells err := by
  unfold compile at h
  rw [if_neg (by omega), he] at h
  exact tells_compileLevel hg _ _ rfl _ _ _ _ _ h

end Compile

theorem exists_of_requestOrder {e : Entity} {r : PageRequest} {err : Rejection} (h : requestOrder e r = .error err) :
    ∃ c, r.orderBy = some c ∧ c ≠ "" ∧ vetColumns e none [.text c] = .error err := by
  unfold requestOrder at h
  split at h
  · cases h
  · cases h
  · next c hne horder =>
    refine ⟨c, horder, hne, ?_⟩
    cases hvet : vetColumns e none [.text c] with
    | error err' =>
      rw [hvet] at h
      cases h
      rfl
    | ok u =>
      rw [hvet] at h
      cases h

end Listing

/-! ## Plans for the bookshelf -/

namespace Bookshelf

theorem targets_graph : ∀ r ∈ graph.relations, ∃ e, graph.entity? r.target = some e :=
  fun _ hr => (Graph.entity?_of_build build_graph hr).2

theorem names_graph : ∀ r ∈ graph.relations, ∀ r' ∈ graph.relations, r.source = r'.source → r.name ∉ r'.sourceKey := by
  decide +kernel

/-- No relation of the bookshelf has the name of a column that rows are stitched by. -/
theorem keysApart_of_compile {entity : String} {spec : Value} {maxDepth : Int} {p : Plan}
    (hp : compile graph entity spec maxDepth = .ok p) : ∀ q ∈ p.levels, q.KeysApart := by
  have hnotMem : ∀ q ∈ p.levels, ∀ n ∈ q.nodes, ∀ m ∈ q.nodes, n.key ∉ m.step.relation.sourceKey := by
    intro q hq n hn m hm
    have hnamed := named_of_compile hp q hq n hn
    obtain ⟨hsource, hname⟩ := Graph.source_of_lookup? hnamed
    have hfits := (fits_of_compile hp).2 q hq m hm
    rw [← hname]
    exact names_graph _ (Graph.mem_of_lookup? hnamed) _ hfits.mem (hsource.trans hfits.source.symm)
  exact fun q hq => List.pairwise_of_forall_mem_list fun n hn m hm => ⟨hnotMem q hq n hn m hm, hnotMem q hq m hm n hn⟩

end Bookshelf

/-! ## Databases -/

/-- A database answers every query by rows of distinct columns with scalars in them, or by a failure, and no call is
called off. -/
def Executor.Tabular {σ : Type} (exec : Executor σ) : Prop :=
  ∀ store q, (∃ f, (exec store q).1 = .error f ∧ f.kind ≠ .cancelled) ∨
    ∃ rows, (exec store q).1 = .ok (.rows rows) ∧
      ∀ row ∈ rows, row.columns.Nodup ∧ ∀ field ∈ row, field.2.isScalar = true

theorem Row.allAt_of_forall {row : Row} (h : ∀ field ∈ row, field.2.isScalar = true) (columns : List String) :
    row.AllAt Value.isScalar columns := by
  intro c _
  rw [get]
  cases hlookup : row.lookup c with
  | none => rfl
  | some v => exact h _ (Row.mem_of_lookup hlookup)

theorem Executor.Tabular.among {σ : Type} {exec : Executor σ} (h : exec.Tabular) (uses : List (String × List String)) :
    RepliesAmong exec.Answers uses := by
  rintro q _ ⟨store, rfl⟩
  rcases h store (.batch q) with hfail | ⟨rows, hrows, hall⟩
  · exact .inl hfail
  · exact .inr ⟨rows, hrows, fun use _ _ row hrow => Row.allAt_of_forall (hall row hrow).2 _⟩

/-! ## Relations of a page -/

/-- An empty plan attaches nothing. -/
theorem stitchRowsPaced_of_isEmpty {σ : Type} (exec : Executor σ) (g : Graph) {p : Plan} (hp : p.isEmpty = true)
    (rows : List Row) (s : Session σ) {concurrency : Nat} (hc : 1 ≤ concurrency) :
    (stitchRowsPaced exec g concurrency p rows s).1 = .ok rows := by
  obtain ⟨m, hreaches, hresult, -⟩ := reaches_stitchRowsPaced exec g p rows s hc
  have hstart : (p.level [] rows).start = .finished (.ok rows) := by
    rw [Level.start, if_pos]
    · rfl
    · exact Bool.or_eq_true_iff.mpr (.inr hp)
  have hroot : m.root = .finished (.ok rows) := by
    refine hreaches.preserves (I := fun m => m.root = .finished (.ok rows)) (fun place a b ha hstep => ?_) hstart
    obtain ⟨⟨root, shared⟩, hlevel, -⟩ := Option.map_eq_some_iff.mp hstep
    rw [ha] at hlevel
    rcases place with _ | ⟨i, _ | ⟨j, place⟩⟩ <;> cases hlevel
  rw [Machine.root_of_result? hresult] at hroot
  injection hroot

namespace Listing

/-- What becomes of a page of rows over which the loader has run, with the answers that it was given. -/
inductive Attached (settings : Settings) (rows : List Row) (run : Except Fault (List Row)) (given : Transcript)
    (result : Except Refusal Value) : Prop
  /-- No query fails: the list of the stitched rows. -/
  | stitched {rows' : List Row} (hall : ∀ f, ¬given.Fails f) (hrun : run = .ok rows')
    (hresult : result = .ok (.rows rows'))
  /-- One fails under a strict policy: an error of the server. -/
  | aborted {f : StitchFailure} {details : Row} (hstrict : settings.strict = true) (hfails : given.Fails f.cause)
    (hresult : result = .error (.refused 500 (.object
      (("error", .text "include-stitch-failed") :: ("message", .text f.message) :: details))))
  /-- One fails under any other policy: just the rows of the page, with a report beside them. -/
  | degraded {f : StitchFailure} {details : Row} (hstrict : settings.strict = false) (hfails : given.Fails f.cause)
    (hresult : result = .ok (.object [("data", .rows rows),
      ("includeError", .object (("message", .text f.message) :: details))]))

/-- How the answer of the policy is told to the client. -/
def told (settings : Settings) : Except PolicyError Report → Except Refusal Value
  | .ok report => .ok report.payload
  | .error (.aborted f) => .error (abort settings.debug f)
  | .error (.fault f) => .error (.fault f)

theorem attached_conclude (settings : Settings) (rows : List Row) {run : Except Fault (List Row)} {given : Transcript}
    (h : given.Decides run) :
    Attached settings rows run given (told settings (Policy.conclude settings rows run).1) := by
  have hanswers := Policy.answers_conclude settings rows run
  cases hrun : run with
  | ok rows' =>
    rw [hrun] at h hanswers
    refine .stitched (fun f hf => ?_) rfl ?_
    · obtain ⟨fault, hfault⟩ := h.felt f hf
      cases hfault
    · rw [(hanswers.stitched rows').mpr rfl]
      rfl
  | error fault =>
    obtain ⟨entity, relation, depth, f, rfl, hf⟩ := h.heard fault hrun
    rw [hrun] at hanswers
    cases hstrict : settings.strict with
    | true =>
      rw [hanswers.aborted ⟨entity, relation, depth, f⟩ rfl hstrict]
      exact .aborted (f := ⟨entity, relation, depth, f⟩) hstrict hf rfl
    | false =>
      obtain ⟨report, details, hreport, -, -, hpayload, -⟩ := hanswers.degraded ⟨entity, relation, depth, f⟩ rfl hstrict
      rw [hreport]
      exact .degraded (f := ⟨entity, relation, depth, f⟩) hstrict hf (congrArg Except.ok hpayload)

section Include

variable {σ : Type} {exec : Executor σ} {settings : Settings} {entity : String} {spec : Value} {p : Plan}
  {rows : List Row}

/-- The loader runs over the page, and its result is concluded; there is nothing to run for an empty plan. -/
theorem attached_includeRelated (hexec : exec.Tabular)
    (hp : compile Bookshelf.graph entity spec settings.maxDepth = .ok p) (hc : 1 ≤ settings.concurrency)
    (hrows : ∀ row ∈ rows, row.columns.Nodup ∧ ∀ field ∈ row, field.2.isScalar = true)
    (s : Session (σ × Transcript)) (hs : ∀ f, ¬s.store.2.Fails f) :
    ∃ given, (includeRelated exec.recorded settings p (.rows rows) s).session.store.2 = s.store.2 ++ given ∧
      (∃ asked : List BatchQuery,
        (includeRelated exec.recorded settings p (.rows rows) s).queries = asked.map .batch) ∧
      Attached settings rows
        (stitchPaced exec.recorded Bookshelf.graph settings.concurrency p.entity p (.rows rows) s).1 given
        (includeRelated exec.recorded settings p (.rows rows) s).result := by
  have hcolumns : ∀ row ∈ rows, row.columns.Nodup := fun row hrow => (hrows row hrow).1
  rw [stitchPaced_rows hc rfl hcolumns]
  by_cases hempty : p.isEmpty = true
  · rw [includeRelated, if_pos hempty, stitchRowsPaced_of_isEmpty exec.recorded _ hempty rows s (by omega)]
    refine ⟨[], (List.append_nil _).symm, ⟨[], rfl⟩, .stitched (fun f hf => ?_) rfl rfl⟩
    obtain ⟨q, hq⟩ := hf
    exact absurd hq List.not_mem_nil
  · have hscalar : p.Scalar rows := fun row hrow n _ => Row.allAt_of_forall (hrows row hrow).2 _
    obtain ⟨given, hgiven, hdecides⟩ := decides_stitchRowsPaced
      (fun r => Graph.consistent_of_build Bookshelf.build_graph) (fits_of_compile hp).2 (hexec.among p.keyUses)
      (Bookshelf.keysApart_of_compile hp) hscalar (show 1 ≤ settings.concurrency.toNat by omega) s hs
    obtain ⟨hsession, hresult⟩ := Policy.stitch_rows Bookshelf.graph exec.recorded settings
      (Bool.eq_false_iff.mpr hempty) hcolumns s
    rw [stitchPaced_rows hc rfl hcolumns] at hsession hresult
    rw [includeRelated, if_neg hempty]
    refine ⟨given, ?_, ⟨_, rfl⟩, ?_⟩
    · rw [← hgiven, ← hsession]
    · have hattached := attached_conclude settings rows hdecides
      rw [← hresult] at hattached
      exact hattached

end Include

/-! ## Whole requests -/

/-- Nothing has been asked of the store. -/
structure Untouched {σ : Type} (s : Session σ) (given : Transcript) (reply : Reply σ) : Prop where
  queries : reply.queries = []
  given : given = []
  session : reply.session = s

/-- How a request ends that a page of rows was asked for. -/
inductive Served {σ : Type} (exec : Executor σ) (settings : Settings) (p : Plan) (q : PageQuery) (s : Session σ)
    (given : Transcript) (reply : Reply σ) : Prop
  /-- The page fails: its failure is passed on, and nothing else is asked. -/
  | pageFailed {f : Failure} (hgiven : given = [(.page q, .error f)]) (hqueries : reply.queries = [.page q])
    (hresult : reply.result = .error (.store f))
  /-- The page comes first, and whatever belongs to its rows is asked for after it. -/
  | page {rows : List Row} {includes : Transcript} {asked : List BatchQuery}
    (hgiven : given = (.page q, .ok (.rows rows)) :: includes)
    (hqueries : reply.queries = .page q :: asked.map .batch)
    (hattached : Attached settings rows
      (stitchPaced exec Bookshelf.graph settings.concurrency p.entity p (.rows rows) (listPage exec q s).2).1 includes
      reply.result)

/-- How a request for rows of an entity ends. -/
inductive Outcome {σ : Type} (exec : Executor σ) (settings : Settings) (entity : String) (r : PageRequest)
    (s : Session σ) (given : Transcript) (reply : Reply σ) : Prop
  | unknownEntity (hentity : Bookshelf.graph.entity? entity = none)
    (hresult : reply.result = .error (.refused 404 (.text s!"Unknown entity '{entity}'.")))
    (huntouched : Untouched s given reply)
  | badInclude {e : Entity} {err : Rejection} {detail : Value} (hentity : Bookshelf.graph.entity? entity = some e)
    (hplan : compile Bookshelf.graph entity (.ofOption .object r.included) settings.maxDepth = .error err)
    (hdetail : reject err = .refused 400 detail) (hresult : reply.result = .error (.refused 400 detail))
    (huntouched : Untouched s given reply)
  /-- The request could be compiled, but may not be ordered by the column that it names. -/
  | badOrder {e : Entity} {p : Plan} {c : String} {err : Rejection} {detail : Value}
    (hentity : Bookshelf.graph.entity? entity = some e)
    (hplan : compile Bookshelf.graph entity (.ofOption .object r.included) settings.maxDepth = .ok p)
    (horder : r.orderBy = some c) (hname : c ≠ "") (hvet : vetColumns e none [.text c] = .error err)
    (hdetail : reject err = .refused 400 detail) (hresult : reply.result = .error (.refused 400 detail))
    (huntouched : Untouched s given reply)
  | served {e : Entity} {p : Plan} {ordering : OrderBy} (hentity : Bookshelf.graph.entity? entity = some e)
    (hplan : compile Bookshelf.graph entity (.ofOption .object r.included) settings.maxDepth = .ok p)
    (horder : requestOrder e r = .ok ordering)
    (hserved : Served exec settings p (pageQuery entity e.primaryKey ordering r.limit r.offset) s given reply)

section Answer

variable {σ : Type} {exec : Executor σ} {settings : Settings} {entity : String} {r : PageRequest} {s : Session σ}

theorem compile_eq (g : Graph) (settings : Settings) (entity : String) (spec : Value) :
    (Policy.compile g settings entity spec).1 = compile g entity spec settings.maxDepth := by
  unfold Policy.compile
  cases compile g entity spec settings.maxDepth <;> rfl

theorem answer_of_unknown (exec : Executor σ) (s : Session σ) (hentity : Bookshelf.graph.entity? entity = none) :
    answer exec settings entity r s =
      { result := .error (.refused 404 (.text s!"Unknown entity '{entity}'.")), session := s } := by
  rw [answer, hentity]
  rfl

theorem answer_of_rejected (exec : Executor σ) (s : Session σ) {e : Entity} {err : Rejection}
    (hentity : Bookshelf.graph.entity? entity = some e)
    (h : compile Bookshelf.graph entity (.ofOption .object r.included) settings.maxDepth = .error err ∨
      ∃ p, compile Bookshelf.graph entity (.ofOption .object r.included) settings.maxDepth = .ok p ∧
        requestOrder e r = .error err) :
    ∃ records, answer exec settings entity r s = { result := .error (reject err), records, session := s } := by
  rw [← compile_eq] at h
  unfold answer
  rcases h with hplan | ⟨p, hplan, horder⟩
  · simp only [hentity, hplan]
    exact ⟨_, rfl⟩
  · simp only [hentity, hplan, horder]
    exact ⟨_, rfl⟩

/-- A request that compiles is answered with a page and what belongs to it. -/
theorem answer_of_compile (exec : Executor σ) (s : Session σ) {e : Entity} {p : Plan} {ordering : OrderBy}
    {q : PageQuery} (hentity : Bookshelf.graph.entity? entity = some e)
    (hplan : compile Bookshelf.graph entity (.ofOption .object r.included) settings.maxDepth = .ok p)
    (horder : requestOrder e r = .ok ordering) (hq : pageQuery entity e.primaryKey ordering r.limit r.offset = q) :
    (∀ f, (listPage exec q s).1 = .error f →
      (answer exec settings entity r s).result = .error (.store f) ∧
        (answer exec settings entity r s).queries = [.page q] ∧
        (answer exec settings entity r s).session = (listPage exec q s).2) ∧
    ∀ page, (listPage exec q s).1 = .ok page →
      (answer exec settings entity r s).result = (includeRelated exec settings p page (listPage exec q s).2).result ∧
        (answer exec settings entity r s).queries =
          .page q :: (includeRelated exec settings p page (listPage exec q s).2).queries ∧
        (answer exec settings entity r s).session =
          (includeRelated exec settings p page (listPage exec q s).2).session := by
  rw [← compile_eq] at hplan
  unfold answer
  simp only [hentity, hplan, horder, hq]
  constructor
  · intro f hf
    simp only [hf]
    exact ⟨trivial, trivial, trivial⟩
  · intro page hpage
    simp only [hpage]
    exact ⟨trivial, trivial, trivial⟩

theorem served_answer (hexec : exec.Tabular) (hc : 1 ≤ settings.concurrency) {e : Entity} {p : Plan}
    {ordering : OrderBy} (hentity : Bookshelf.graph.entity? entity = some e)
    (hplan : compile Bookshelf.graph entity (.ofOption .object r.included) settings.maxDepth = .ok p)
    (horder : requestOrder e r = .ok ordering) :
    Served exec settings p (pageQuery entity e.primaryKey ordering r.limit r.offset) s
      (transcript exec settings entity r s) (answer exec settings entity r s) := by
  rw [← answer_recorded, transcript]
  generalize hq : pageQuery entity e.primaryKey ordering r.limit r.offset = q
  obtain ⟨hfailed, hanswered⟩ := answer_of_compile exec.recorded s.recording hentity hplan horder hq
  have hpage : (listPage exec.recorded q s.recording).1 = (exec s.store (.page q)).1 := rfl
  have hrecord : (listPage exec.recorded q s.recording).2.store.2 = [(.page q, (exec s.store (.page q)).1)] := rfl
  rcases hexec s.store (.page q) with ⟨f, hf, -⟩ | ⟨rows, hrows, hall⟩
  · obtain ⟨hresult, hqueries, hsession⟩ := hfailed f (hpage.trans hf)
    refine .pageFailed ?_ hqueries hresult
    rw [hsession, hrecord, hf]
  · obtain ⟨hresult, hqueries, hsession⟩ := hanswered _ (hpage.trans hrows)
    rw [hrows] at hrecord
    have hnone : ∀ f, ¬(listPage exec.recorded q s.recording).2.store.2.Fails f := by
      intro f hf
      rw [hrecord, Transcript.fails_single] at hf
      cases hf
    obtain ⟨given, hgiven, ⟨asked, hasked⟩, hattached⟩ := attached_includeRelated hexec hplan hc hall _ hnone
    have hrun := stitchPaced_map exec.shadows_recorded Bookshelf.graph settings.concurrency p.entity p (.rows rows)
      (listPage exec.recorded q s.recording).2
    rw [← hresult, ← congrArg Prod.fst hrun] at hattached
    refine .page ?_ (hqueries.trans (congrArg _ hasked)) hattached
    rw [hsession, hgiven, hrecord]
    rfl

/-- With room for one level and one permit, a request ends in one of the ways that are listed. -/
theorem outcome_answer (hexec : exec.Tabular) (hdepth : 1 ≤ settings.maxDepth) (hc : 1 ≤ settings.concurrency) :
    Outcome exec settings entity r s (transcript exec settings entity r s) (answer exec settings entity r s) := by
  cases hentity : Bookshelf.graph.entity? entity with
  | none =>
    rw [transcript, answer_of_unknown exec.recorded s.recording hentity, answer_of_unknown exec s hentity]
    exact .unknownEntity hentity rfl ⟨rfl, rfl, rfl⟩
  | some e =>
    cases hplan : compile Bookshelf.graph entity (.ofOption .object r.included) settings.maxDepth with
    | error err =>
      obtain ⟨detail, hdetail⟩ := tells_of_compile Bookshelf.targets_graph hdepth hentity hplan
      obtain ⟨_, hrecorded⟩ := answer_of_rejected exec.recorded s.recording hentity (.inl hplan)
      obtain ⟨_, hreply⟩ := answer_of_rejected exec s hentity (.inl hplan)
      rw [transcript, hrecorded, hreply, hdetail]
      exact .badInclude hentity hplan hdetail rfl ⟨rfl, rfl, rfl⟩
    | ok p =>
      cases horder : requestOrder e r with
      | error err =>
        obtain ⟨c, hc, hname, hvet⟩ := exists_of_requestOrder horder
        obtain ⟨detail, hdetail⟩ := tells_vetColumns hvet
        obtain ⟨_, hrecorded⟩ := answer_of_rejected exec.recorded s.recording hentity (.inr ⟨p, hplan, horder⟩)
        obtain ⟨_, hreply⟩ := answer_of_rejected exec s hentity (.inr ⟨p, hplan, horder⟩)
        rw [transcript, hrecorded, hreply, hdetail]
        exact .badOrder hentity hplan hc hname hvet hdetail rfl ⟨rfl, rfl, rfl⟩
      | ok ordering => exact .served hentity hplan horder (served_answer hexec hc hentity hplan horder)

/-- Nothing escapes but what a client is told and a failure of the page. -/
theorem Outcome.escapes {given : Transcript} {reply : Reply σ} (h : Outcome exec settings entity r s given reply)
    {err : Refusal} (herr : reply.result = .error err) :
    (∃ status detail, err = .refused status detail) ∨ ∃ f, err = .store f := by
  cases h with
  | unknownEntity _ hresult => exact .inl ⟨_, _, Except.error.inj (herr.symm.trans hresult)⟩
  | badInclude _ _ _ hresult => exact .inl ⟨_, _, Except.error.inj (herr.symm.trans hresult)⟩
  | badOrder _ _ _ _ _ _ hresult => exact .inl ⟨_, _, Except.error.inj (herr.symm.trans hresult)⟩
  | served _ _ _ hserved =>
    cases hserved with
    | pageFailed _ _ hresult => exact .inr ⟨_, Except.error.inj (herr.symm.trans hresult)⟩
    | page _ _ hattached =>
      cases hattached with
      | stitched _ _ hresult => cases herr.symm.trans hresult
      | aborted _ _ hresult => exact .inl ⟨_, _, Except.error.inj (herr.symm.trans hresult)⟩
      | degraded _ _ hresult => cases herr.symm.trans hresult

end Answer

end Listing

/-- In every environment and over every database, a request for rows ends in one of the ways that are listed, by the
answers that the database gives in its course; nothing else escapes. -/
theorem Listing.answer_outcome {σ : Type} {exec : Executor σ} (hexec : exec.Tabular) (env : Env) (entity : String)
    (r : PageRequest) (s : Session σ) :
    (answer exec.recorded (.ofEnv env) entity r s.recording).map Prod.fst = answer exec (.ofEnv env) entity r s ∧
      Outcome exec (.ofEnv env) entity r s (transcript exec (.ofEnv env) entity r s)
        (answer exec (.ofEnv env) entity r s) ∧
      ∀ err, (answer exec (.ofEnv env) entity r s).result = .error err →
        (∃ status detail, err = .refused status detail) ∨ ∃ f, err = .store f := by
  have houtcome : Outcome exec (.ofEnv env) entity r s (transcript exec (.ofEnv env) entity r s) _ :=
    outcome_answer hexec (Settings.maxDepth_ofEnv_pos env) (Settings.concurrency_ofEnv_pos env)
  exact ⟨answer_recorded exec (.ofEnv env) entity r s, houtcome, fun _ => houtcome.escapes⟩

namespace Bookshelf

theorem tabular_booksOnly : (Executor.ofFunction booksOnly).Tabular := by
  intro store q
  by_cases h : q.table = "books"
  · exact .inr ⟨[[("id", .int 1), ("author_id", .int 1)]], if_pos h, by decide⟩
  · exact .inl ⟨⟨.timeout, "no answer"⟩, if_neg h, by decide⟩

/-- Asks for books with their tags. -/
def taggedBooks : PageRequest where
  included := some [("tags", .bool true)]

end Bookshelf

/-- The books come without their tags; a bound of no levels at all is no bound. -/
theorem Listing.answer_outcome_bookshelf :
    Outcome (.ofFunction Bookshelf.booksOnly) (.ofEnv [("INCLUDE_MAX_DEPTH", "0")]) "books" Bookshelf.taggedBooks
        { store := () } (transcript (.ofFunction Bookshelf.booksOnly) (.ofEnv [("INCLUDE_MAX_DEPTH", "0")]) "books"
          Bookshelf.taggedBooks { store := () })
        (answer (.ofFunction Bookshelf.booksOnly) (.ofEnv [("INCLUDE_MAX_DEPTH", "0")]) "books"
          Bookshelf.taggedBooks { store := () }) ∧
      (answer (.ofFunction Bookshelf.booksOnly) (.ofEnv [("INCLUDE_MAX_DEPTH", "0")]) "books"
        Bookshelf.taggedBooks { store := () }).result =
        .ok (.object [("data", .rows [[("id", .int 1), ("author_id", .int 1)]]),
          ("includeError", .object [("message", .text "Loading 'tags' on 'books' (depth 0) failed: no answer")])]) :=
  ⟨(answer_outcome Bookshelf.tabular_booksOnly [("INCLUDE_MAX_DEPTH", "0")] "books" Bookshelf.taggedBooks
    { store := () }).2.1, by decide +kernel⟩

end RelatedRows

import RelatedRows.Deploy.Policy
import RelatedRows.Proofs.Failures
import RelatedRows.Proofs.ObjectRuns
import RelatedRows.Proofs.Requests
import RelatedRows.Proofs.ShownRows

/-!
# Reports under the failure policy

A deployment decides what becomes of a failure, and nothing else.

* `Policy.Answers`: how the result of a run of the loader is answered under some settings.
* `Policy.stitch_rows`: stitching under a policy is a run of the loader and the answer to it.
-/

namespace RelatedRows

/-! ## Answers -/

/-- How the result of a run of the loader over some rows is answered. -/
structure Policy.Answers (settings : Settings) (rows : List Row) (run : Except Fault (List Row))
    (reply : Except PolicyError Report) : Prop where
  stitched : ∀ rows', reply = .ok ⟨rows', .stitched, none⟩ ↔ run = .ok rows'
  /-- A failure of the store is reported beside the rows that were given, in detail only if debugging is on. -/
  degraded : ∀ f : StitchFailure, run = .error f.fault → settings.strict = false →
    ∃ (report : Report) (details : Row), reply = .ok report ∧ report.outcome = .partiallyStitched ∧ report.rows = rows ∧
      report.payload =
        .object [("data", .rows rows), ("includeError", .object (("message", .text f.fault.message) :: details))] ∧
      details.columns = if settings.debug then ["entity", "relation", "depth", "cause", "stack"] else []
  aborted : ∀ f : StitchFailure, run = .error f.fault → settings.strict = true → reply = .error (.aborted f)
  passed : ∀ fault, (∀ f : StitchFailure, fault ≠ f.fault) → run = .error fault → reply = .error (.fault fault)

section Policy

variable {σ : Type} {g : Graph} {exec : Executor σ} {p : Plan} {rows : List Row} {settings : Settings}

variable (g exec settings) in
/-- Stitching under a policy is a run of the loader, whose result is answered. -/
theorem Policy.stitch_rows (hp : p.isEmpty = false) (hrows : ∀ row ∈ rows, row.columns.Nodup) (s : Session σ) :
    (stitch g settings exec p (.rows rows) s).2.2 =
        (stitchPaced exec g settings.concurrency p.entity p (.rows rows) s).2 ∧
      (stitch g settings exec p (.rows rows) s).1 =
        (conclude settings rows (stitchPaced exec g settings.concurrency p.entity p (.rows rows) s).1).1 := by
  have hshown : (rows.map RootRow.ofRow).map (·.shown) = rows := by
    rw [List.map_map]
    exact (List.map_congr_left fun row hrow => RootRow.shown_ofRow (hrows row hrow)).trans (List.map_id rows)
  simp only [stitch, stitchPaced, hp, Bool.false_eq_true, if_false]
  by_cases hc : 1 ≤ settings.concurrency
  · rw [rootRows_rows hc rfl]
    simp only [hshown]
    exact ⟨trivial, trivial⟩
  · have hnone : rootRows settings.concurrency p.entity p (.rows rows) = .error .noPermits := if_pos (by omega)
    rw [hnone]
    exact ⟨rfl, rfl⟩

theorem Policy.answers_conclude (settings : Settings) (rows : List Row) (run : Except Fault (List Row)) :
    Answers settings rows run (conclude settings rows run).1 where
  stitched := by
    intro rows'
    cases run with
    | ok stitched => simp [conclude]
    | error fault =>
      cases fault with
      | query entity relation depth cause =>
        simp only [conclude, onFailure]
        split <;> simp
      | _ => simp [conclude]
  degraded := by
    rintro f rfl hstrict
    refine ⟨⟨rows, .partiallyStitched, some (f.describe settings.debug)⟩, (f.describe settings.debug).tail, ?_, rfl,
      rfl, rfl, ?_⟩
    · simp only [conclude, StitchFailure.fault, onFailure, hstrict, Bool.false_eq_true, if_false]
    · rw [StitchFailure.describe]
      cases settings.debug <;> rfl
  aborted := by
    rintro f rfl hstrict
    simp only [conclude, StitchFailure.fault, onFailure, if_pos hstrict]
  passed := by
    rintro fault hother rfl
    cases fault with
    | query entity relation depth cause => exact absurd rfl (hother ⟨entity, relation, depth, cause⟩)
    | _ => rfl

/-- One run of the loader is behind the replies under all settings, and settings only decide how its result is
answered.  It is a run on objects, and no run on objects writes to those of the caller. -/
theorem Policy.stitch_atomic {entity : String} {spec : Value} {maxDepth : Int} (hspec : spec.hasDistinctNames = true)
    (hp : RelatedRows.compile g entity spec maxDepth = .ok p) (hne : p.isEmpty = false) (exec : Executor σ)
    (settings : Settings) {own : List Row} (hown : ∀ row ∈ own, row.columns.Nodup) (given : List Nat) (s : Session σ) :
    ∃ run s', stitchPaced exec g settings.concurrency p.entity p (.rows (rowsAt own given)) s = (run, s') ∧
      (∀ strict debug,
        (stitch g { settings with strict, debug } exec p (.rows (rowsAt own given)) s).2.2 = s' ∧
          Answers { settings with strict, debug } (rowsAt own given) run
            (stitch g { settings with strict, debug } exec p (.rows (rowsAt own given)) s).1) ∧
      (∀ permits schedule m,
        (ObjectMachine.start p (own.map .ofRow) given permits s.store).run exec g schedule = some m →
          m.objects.take own.length = own.map .ofRow) ∧
      (1 ≤ settings.concurrency → ∃ schedule m m',
        (ObjectMachine.start p (own.map .ofRow) given settings.concurrency.toNat s.store).run exec g schedule = some m ∧
          m.Matches own m' ∧ m'.result? = some run ∧ m'.shared.store = s'.store) := by
  have hrows : ∀ row ∈ rowsAt own given, row.columns.Nodup := by
    intro row hrow
    obtain ⟨a, -, rfl⟩ := List.mem_map.mp hrow
    cases ha : own[a]? with
    | none => exact List.nodup_nil
    | some row => exact hown row (List.mem_of_getElem? ha)
  have hdistinct : NodesDistinct p.nodes := nodesDistinct_of_levels (keysDistinct_of_compile hspec hp)
  generalize hload : stitchPaced exec g settings.concurrency p.entity p (.rows (rowsAt own given)) s = load
  obtain ⟨run, s'⟩ := load
  refine ⟨run, s', rfl, fun strict debug => ?_, fun permits schedule m => ObjectMachine.untouched_of_run hdistinct,
    fun hc => ?_⟩
  · have hstitch := stitch_rows g exec { settings with strict, debug } hne hrows s
    rw [hload] at hstitch
    rw [hstitch.1, hstitch.2]
    exact ⟨rfl, answers_conclude _ _ _⟩
  · obtain ⟨m', hreaches, hresult, hstore⟩ := reaches_stitchRowsPaced exec g p (rowsAt own given) s
      (show 1 ≤ settings.concurrency.toNat by omega)
    rw [← stitchPaced_rows hc rfl hrows, hload] at hresult hstore
    obtain ⟨schedule, m, hrun, hmatches⟩ := ObjectMachine.exists_run hdistinct hreaches
    exact ⟨schedule, m, m', hrun, hmatches, hresult, hstore⟩

end Policy

/-- The books have been found when their tags cannot be loaded; what is reported is the author as given. -/
theorem Policy.stitch_atomic_bookshelf :
    (∃ report, (stitch Bookshelf.graph {} (.ofFunction Bookshelf.booksOnly) Bookshelf.plan
        (.rows [[("id", .int 1)]]) { store := () }).1 = .ok report ∧ report.outcome = .partiallyStitched ∧
        report.rows = [[("id", .int 1)]]) ∧
      (stitch Bookshelf.graph { strict := true } (.ofFunction Bookshelf.booksOnly) Bookshelf.plan
        (.rows [[("id", .int 1)]]) { store := () }).1 =
          .error (.aborted ⟨"books", "tags", 1, ⟨.timeout, "no answer"⟩⟩) := by
  have hown : ∀ row ∈ ([[("id", .int 1)]] : List Row), row.columns.Nodup := by decide
  obtain ⟨run, s', hload, hreplies, -, -⟩ := stitch_atomic (by decide) Bookshelf.compile_request rfl
    (.ofFunction Bookshelf.booksOnly) {} hown [0] { store := () }
  have hrun : run = .error (.query "books" "tags" 1 ⟨.timeout, "no answer"⟩) :=
    (congrArg Prod.fst hload).symm.trans (by decide +kernel)
  refine ⟨?_, (hreplies true false).2.aborted ⟨"books", "tags", 1, ⟨.timeout, "no answer"⟩⟩ hrun rfl⟩
  obtain ⟨report, details, hreply, houtcome, hrows, -⟩ :=
    (hreplies false false).2.degraded ⟨"books", "tags", 1, ⟨.timeout, "no answer"⟩⟩ hrun rfl
  exact ⟨report, hreply, houtcome, hrows⟩

end RelatedRows

import RelatedRows.Proofs.Shadows
import RelatedRows.Web.Listing

/-!
# Records of answers

What a store answers in the course of a run can be written down by a store that keeps a record beside its state.  A run
does not notice: it is the run over the store without the record.

* `Listing.answer_map`: a request is answered alike over a store and over one that stands for it.
* `Executor.recorded`: a store with a record of all that it has answered.
-/

namespace RelatedRows

section Maps

variable {σ τ : Type} {φ : τ → σ} {exec : Executor σ} {exec' : Executor τ} (h : exec'.Shadows exec φ)

def Listing.Reply.map (φ : τ → σ) (reply : Listing.Reply τ) : Listing.Reply σ where
  result := reply.result
  records := reply.records
  queries := reply.queries
  session := reply.session.map φ

include h

theorem Policy.stitch_map (g : Graph) (settings : Settings) (p : Plan) (rows : Value) (s : Session τ) :
    stitch g settings exec p rows (s.map φ) =
      ((stitch g settings exec' p rows s).1, (stitch g settings exec' p rows s).2.1,
        (stitch g settings exec' p rows s).2.2.map φ) := by
  unfold stitch
  dsimp only
  cases rootRows (if p.isEmpty then 1 else settings.concurrency) p.entity p rows with
  | error f => rfl
  | ok roots =>
    simp only [stitchRowsPaced_map h]
    rfl

theorem Listing.listPage_map (q : PageQuery) (s : Session τ) :
    listPage exec q (s.map φ) = ((listPage exec' q s).1, (listPage exec' q s).2.map φ) := by
  have hcall : exec (s.map φ).store (.page q) = _ := h s.store (.page q)
  simp only [listPage, hcall]
  rfl

theorem Listing.includeRelated_map (settings : Settings) (p : Plan) (page : Value) (s : Session τ) :
    includeRelated exec settings p page (s.map φ) = (includeRelated exec' settings p page s).map φ := by
  unfold includeRelated
  split
  · rfl
  · simp only [Policy.stitch_map h]
    rfl

/-- Requests are answered alike over both stores, after the same queries. -/
theorem Listing.answer_map (settings : Settings) (entity : String) (r : PageRequest) (s : Session τ) :
    answer exec settings entity r (s.map φ) = (answer exec' settings entity r s).map φ := by
  unfold answer
  cases Bookshelf.graph.entity? entity with
  | none => rfl
  | some e =>
    dsimp only
    cases (Policy.compile Bookshelf.graph settings entity (.ofOption .object r.included)).1 with
    | error err => rfl
    | ok p =>
      cases requestOrder e r with
      | error err => rfl
      | ok ordering =>
        simp only [listPage_map h]
        cases (listPage exec' (pageQuery entity e.primaryKey ordering r.limit r.offset) s).1 with
        | error f => rfl
        | ok page =>
          simp only [includeRelated_map h]
          rfl

end Maps

/-! ## Keeping a record -/

/-- What a store has answered, in order. -/
abbrev Transcript := List (Query × Answer)

/-- A store that also keeps a record of its answers. -/
def Executor.recorded {σ : Type} (exec : Executor σ) : Executor (σ × Transcript) := fun s q =>
  let (answer, store) := exec s.1 q
  (answer, store, s.2 ++ [(q, answer)])

theorem Executor.shadows_recorded {σ : Type} (exec : Executor σ) : exec.recorded.Shadows exec Prod.fst :=
  fun _ _ => rfl

/-- A session that begins to keep a record. -/
def Session.recording {σ : Type} (s : Session σ) : Session (σ × Transcript) :=
  s.map (·, [])

/-- All that a store answers in the course of a request. -/
def Listing.transcript {σ : Type} (exec : Executor σ) (settings : Settings) (entity : String) (r : PageRequest)
    (s : Session σ) : Transcript :=
  (answer exec.recorded settings entity r s.recording).session.store.2

/-- What is answered in the course of a request does not depend on a record that is kept of it. -/
theorem Listing.answer_recorded {σ : Type} (exec : Executor σ) (settings : Settings) (entity : String)
    (r : PageRequest) (s : Session σ) :
    (answer exec.recorded settings entity r s.recording).map Prod.fst = answer exec settings entity r s :=
  (answer_map exec.shadows_recorded settings entity r s.recording).symm

end RelatedRows

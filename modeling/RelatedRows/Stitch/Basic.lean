import RelatedRows.Stitch.Level
import RelatedRows.Stitch.RootRow

/-!
# Stitching

`stitch g exec concurrency entity plan rows` attaches to each of the rows what the plan asks for.  The plan must have
been made for the entity of the rows, and at least one call to the store must be allowed at a time.
-/

namespace RelatedRows

variable {σ : Type}

/-- Checks what stitching is called with and reads the root rows. -/
def rootRows (concurrency : Int) (entity : String) (p : Plan) (rows : Value) : Except Fault (List RootRow) :=
  if concurrency < 1 then .error .noPermits
  else if p.entity ≠ entity then .error (.otherPlan p.entity entity)
  else Stitch.items rows >>= fun items => items.mapM Value.rootRow

def stitch (g : Graph) (exec : Executor σ) (concurrency : Int) (entity : String) (p : Plan) (rows : Value)
    (s : Session σ) : Except Fault (List Row) × Session σ :=
  match rootRows concurrency entity p rows with
  | .error f => (.error f, s)
  | .ok roots =>
    let (rows, s) := stitchRows exec g p (roots.map (·.row)) s
    (rows.map (RootRow.completeAll roots), s)

end RelatedRows

import RelatedRows.Deploy.Policy
import RelatedRows.Web.Bookshelf
import RelatedRows.Web.PageRequest

/-!
# Listing records

`answer` answers a page request for an entity of the bookshelf.  The request is compiled before anything is asked of
the database; then the page of root rows is fetched, and only then are relations attached to it.

* `relations`: what can be included on an entity.
* `listPage`: one page of the rows of a table, in a given order with the primary key behind it.
-/

namespace RelatedRows

/-- Why a request has no answer. -/
inductive Refusal where
  /-- The client is told: a status and what is wrong. -/
  | refused (status : Nat) (detail : Value)
  /-- The store failed on the page itself. -/
  | store (f : Failure)
  | fault (f : Fault)
  | rejected (e : Rejection)
deriving DecidableEq

namespace Listing

def unknownEntity (entity : String) : Refusal :=
  .refused 404 (.text s!"Unknown entity '{entity}'.")

def relations (entity : String) : Except Refusal Value :=
  match Bookshelf.graph.entity? entity with
  | none => .error (unknownEntity entity)
  | some e => .ok (.object [("entity", .text entity), ("primaryKey", .texts e.primaryKey),
      ("relations", .list ((Bookshelf.graph.relationsOf entity).map fun r => .object r.describe))])

/-! ## The page of root rows -/

def pageQuery (entity : String) (primaryKey : List String) (ordering : OrderBy) (limit offset : Int) : PageQuery where
  table := entity
  ordering := OrderBy.merge [ordering, ascending primaryKey]
  limit := limit
  offset := offset

variable {σ : Type}

def listPage (exec : Executor σ) (q : PageQuery) (s : Session σ) : Answer × Session σ :=
  let (answer, store) := exec s.store (.page q)
  (answer, s.called store)

/-! ## Requests -/

/-- What a client is told about a request that cannot be compiled. -/
def reject (e : Rejection) : Refusal :=
  let told (word entity : String) (key : Value) : Refusal :=
    .refused 400 (.object [("error", .text word), ("message", .text e.message), ("entity", .text entity), ("key", key)])
  match e with
  | .unknownRelation entity key => told "unknown-relation" entity (.text key)
  | .invalid entity key _ => told "invalid-include" entity (.ofOption .text key)
  | e => .rejected e

/-- What a client is told when stitching was aborted. -/
def abort (debug : Bool) (f : StitchFailure) : Refusal :=
  .refused 500 (.object ([("error", .text "include-stitch-failed"), ("message", .text f.message)] ++
    if debug then [("entity", .text f.entity), ("relation", .text f.relation), ("depth", .ofNat f.depth)] else []))

/-- The order that a request asks for; a name without characters asks for none. -/
def requestOrder (e : Entity) (r : PageRequest) : Except Rejection OrderBy :=
  match r.orderBy with
  | none | some "" => .ok []
  | some c => do
    vetColumns e none [.text c]
    return [(c, r.order)]

/-- What a request is answered with, the records that were logged, the queries in order, and the session afterwards. -/
structure Reply (σ : Type) where
  result : Except Refusal Value
  records : List LogRecord := []
  queries : List Query := []
  session : Session σ

/-- The answer once the page is there. -/
def includeRelated (exec : Executor σ) (settings : Settings) (p : Plan) (page : Value) (s : Session σ) : Reply σ :=
  if p.isEmpty then { result := .ok page, session := s }
  else
    let (result, records, s') := Policy.stitch Bookshelf.graph settings exec p page s
    let result := match result with
      | .ok report => .ok report.payload
      | .error (.aborted f) => .error (abort settings.debug f)
      | .error (.fault f) => .error (.fault f)
    { result, records, queries := (s'.queriesAfter s).map .batch, session := s' }

def answer (exec : Executor σ) (settings : Settings) (entity : String) (r : PageRequest) (s : Session σ) : Reply σ :=
  match Bookshelf.graph.entity? entity with
  | none => { result := .error (unknownEntity entity), session := s }
  | some e =>
    let (compiled, pruned) := Policy.compile Bookshelf.graph settings entity (.ofOption .object r.included)
    match compiled with
    | .error err => { result := .error (reject err), records := pruned, session := s }
    | .ok p =>
      match requestOrder e r with
      | .error err => { result := .error (reject err), records := pruned, session := s }
      | .ok ordering =>
        let query := pageQuery entity e.primaryKey ordering r.limit r.offset
        let (answer, s) := listPage exec query s
        match answer with
        | .error f => { result := .error (.store f), records := pruned, queries := [.page query], session := s }
        | .ok page =>
          let reply := includeRelated exec settings p page s
          { reply with records := pruned ++ reply.records, queries := .page query :: reply.queries }

end Listing

end RelatedRows

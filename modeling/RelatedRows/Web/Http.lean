import RelatedRows.Json.Encoding
import RelatedRows.Json.Reader
import RelatedRows.Web.Listing

/-!
# The service over HTTP

Four routes answer requests: two greetings, the relations of an entity, and the rows of an entity.  Four more paths are
kept for a description of the service.  A path may end in a line end, and one that fits a route but for slashes at its
end is sent there.

* `Route.ofPath?`: the route of a path.
* `respond`: the response to a request.
-/

namespace RelatedRows.Http

inductive Route where
  | root
  | health
  | list (entity : String)
  | relations (entity : String)
  /-- A description of the service; nothing is described so far. -/
  | description
deriving DecidableEq, Repr

def Route.methods : Route → List String
  | .list _ => ["POST"]
  | .description => ["GET", "HEAD"]
  | _ => ["GET"]

def descriptionPaths : List String :=
  ["/openapi.json", "/docs", "/docs/oauth2-redirect", "/redoc"]

/-- The entity in a path of the form `/v1/entity/last`. -/
def entityOf? (last : String) (path : List Char) : Option String :=
  match Text.split '/' path with
  | [[], version, entity, l] =>
    if version = "v1".toList ∧ entity ≠ [] ∧ l = last.toList then some (String.ofList entity) else none
  | _ => none

/-- The route of a path without a line end. -/
def Route.ofExactPath? (path : List Char) : Option Route :=
  if path = "/".toList then some .root
  else if path = "/health".toList then some .health
  else if descriptionPaths.contains (String.ofList path) then some .description
  else ((entityOf? "list" path).map .list).or ((entityOf? "relations" path).map .relations)

def Route.ofPath? (path : List Char) : Option Route :=
  (ofExactPath? path).or (if path.getLast? = some '\n' then ofExactPath? path.dropLast else none)

/-- The path with the slashes at its end taken away, or with one put there. -/
def otherSlash (path : List Char) : List Char :=
  if path.getLast? = some '/' then Text.dropRight (· = '/') path else path ++ ['/']

def isRedirected (path : List Char) : Bool :=
  path ≠ ['/'] && (Route.ofPath? (otherSlash path)).isSome

/-- What comes with a request. -/
inductive Body where
  | absent
  | value (v : Value)
  | text (s : String)

structure Request where
  method : String
  path : String
  body : Body := .absent

structure Response where
  status : Nat
  body : Value
deriving DecidableEq

/-- Why a response cannot be sent. -/
inductive Unwritable where
  /-- It holds a number that has no place on the line. -/
  | number
  /-- Its text holds halves of pairs. -/
  | halves (h : Text.LoneHalves)
deriving DecidableEq, Repr

def Unwritable.message : Unwritable → String
  | .number => "Out of range float values are not JSON compliant"
  | .halves h => h.message

/-- Why a request has no response at all. -/
inductive Crash where
  | service (e : Refusal)
  | unwritable (e : Unwritable)
deriving DecidableEq

/-- A response that says what went wrong. -/
def told (status : Nat) (detail : Value) : Response :=
  ⟨status, .object [("detail", detail)]⟩

/-! ## Bodies -/

/-- What is wrong with a body. -/
inductive BadBody where
  | unreadable (fault : Json.ReadFault)
  | notParsed

/-- Reads a body in the encoding that its bytes suggest; an empty text is no body. -/
def readBody : Body → Except BadBody (Option Value)
  | .absent => .ok none
  | .value v => .ok (some v)
  | .text s =>
    if s.isEmpty then .ok none
    else
      match (Json.decode? (Text.letters s)).map Json.read with
      | none => .error .notParsed
      | some (.ok v) => .ok (some v)
      | some (.error fault) => .error (if fault.cause.isLimit then .notParsed else .unreadable fault)

def BadBody.response : BadBody → Response
  | .unreadable fault => told 422 (.list [.object [("type", .text "json_invalid"),
      ("loc", .list [.text "body", .ofNat fault.position]), ("msg", .text "JSON decode error"), ("input", .object []),
      ("ctx", .object [("error", .text fault.cause.message)])]])
  | .notParsed => told 400 (.text "There was an error parsing the body")

/-- The part of a value that a path leads to. -/
def follow : List Form.Step → Value → Value
  | [], v => v
  | .field name :: path, v => follow path ((v.field? name).getD .null)
  | .index n :: path, .list vs => follow path (vs[n]?.getD .null)
  | .index _ :: _, _ => .null

/-- An issue with a body, with the part of it that is concerned. -/
def showIssue (body : Value) (i : Form.Issue) : Value :=
  .object ([("type", .text i.defect.code), ("loc", .list (.text "body" :: i.path.map Form.Step.value)),
    ("msg", .text i.defect.message), ("input", follow i.path body)] ++
    match i.defect.bound with
    | [] => []
    | bound => [("ctx", .object bound)])

/-! ## Responses -/

mutual
def isWritable : Value → Bool
  | .number (.real (.finite ..)) => true
  | .number (.real _) => false
  | .list items => areWritable items
  | .object fields => fieldsWritable fields
  | _ => true

def areWritable : List Value → Bool
  | [] => true
  | v :: vs => isWritable v && areWritable vs

def fieldsWritable : List (String × Value) → Bool
  | [] => true
  | (_, v) :: rest => isWritable v && fieldsWritable rest
end

def write (r : Response) : Except Crash Response :=
  if !isWritable r.body then .error (.unwritable .number)
  else
    match Text.loneHalves? (Text.letters (Json.compact r.body)) with
    | some h => .error (.unwritable (.halves h))
    | none => .ok r

/-- Fields with such a name are kept from clients. -/
def isHidden (name : String) : Bool :=
  "_sa".toList.isPrefixOf name.toList

mutual
/-- The value without hidden fields. -/
def visible : Value → Value
  | .list items => .list (visibleItems items)
  | .object fields => .object (visibleFields fields)
  | v => v

def visibleItems : List Value → List Value
  | [] => []
  | v :: vs => visible v :: visibleItems vs

def visibleFields : List (String × Value) → List (String × Value)
  | [] => []
  | (name, v) :: rest => if isHidden name then visibleFields rest else (name, visible v) :: visibleFields rest
end

def ofResult : Except Refusal Value → Except Crash Response
  | .ok v => write ⟨200, visible v⟩
  | .error (.refused status detail) => write (told status detail)
  | .error e => .error (.service e)

/-- The response to a body with issues. -/
def ofIssues (body : Value) (issues : List Form.Issue) : Except Crash Response :=
  write (told 422 (visible (.list (issues.map (showIssue body)))))

section Respond

variable {σ : Type}

/-- A response, the queries that led to it, and the session afterwards. -/
structure Exchange (σ : Type) where
  response : Except Crash Response
  queries : List Query := []
  session : Session σ

def respondList (exec : Executor σ) (settings : Settings) (entity : String) (body : Body) (s : Session σ) :
    Exchange σ :=
  match readBody body with
  | .error bad => { response := .ok bad.response, session := s }
  | .ok body =>
    match PageRequest.ofBody body with
    | .error issues => { response := ofIssues (body.getD .null) issues, session := s }
    | .ok request =>
      let reply := Listing.answer exec settings entity request s
      { response := ofResult reply.result, queries := reply.queries, session := reply.session }

def respond (exec : Executor σ) (settings : Settings) (r : Request) (s : Session σ) : Exchange σ :=
  match Route.ofPath? r.path.toList with
  | none =>
    let response : Response := if isRedirected r.path.toList then ⟨307, .null⟩ else told 404 (.text "Not Found")
    { response := .ok response, session := s }
  | some route =>
    if !route.methods.contains r.method then { response := .ok (told 405 (.text "Method Not Allowed")), session := s }
    else
      match route with
      | .root => { response := .ok ⟨200, .object [("message", .text "include-stitch api")]⟩, session := s }
      | .health => { response := .ok ⟨200, .object [("status", .text "ok")]⟩, session := s }
      | .description => { response := .ok ⟨200, .null⟩, session := s }
      | .relations entity => { response := ofResult (Listing.relations entity), session := s }
      | .list entity => respondList exec settings entity r.body s

end Respond

end RelatedRows.Http

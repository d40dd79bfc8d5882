import DocstringEditor.Server.MediaType
import DocstringEditor.Wire.Request

namespace DocstringEditor.Server

open Json (Reader ReadError)

structure HttpRequest where
  method : String
  path : String
  contentType : Option String := none
  body : Text := []

structure HttpResponse where
  status : Nat
  body : Option Json := none

inductive Endpoint
  | health
  | backends
  | resolve
  | clean
  | docstringEdit
  deriving DecidableEq, Repr

namespace Endpoint

def all : List Endpoint := [health, backends, resolve, clean, docstringEdit]

def path : Endpoint → String
  | health => "/v1/health"
  | backends => "/v1/backends"
  | resolve => "/v1/resolve"
  | clean => "/v1/clean"
  | docstringEdit => "/v1/docstring/edit"

def ofPath? (path : Text) : Option Endpoint := all.find? (·.path.toList = path)

end Endpoint

def pathOf (target : String) : Text := target.toList.takeWhile fun c => c ≠ '?' && c ≠ '#'

def scalar (accepts : Json → Bool) : Reader Json := fun t => do
  match Json.skipSpace t with
  | '[' :: _ | '{' :: _ => throw .mismatch
  | t =>
    let (v, t) ← Json.value 0 t
    if accepts v then return (v, t) else throw .mismatch

def isString : Json → Bool
  | .string _ => true
  | _ => false

def isBool : Json → Bool
  | .bool _ => true
  | _ => false

def strings : Reader Json := fun t =>
  match Json.skipSpace t with
  | '[' :: t =>
    (Json.items (scalar isString) (t.length + 1) true t).map fun (vs, t) => (.array vs, t)
  | t => scalar (fun _ => false) t

/-- Reads a request. Its own fields have to be of the right type, and may occur only once, as soon
as they come by; fields of the query are looked at when all has been read. -/
def requestBody (own : List (String × Reader Json)) (t : Text) : Except ReadError Json := do
  let value (seen : List String) (name : String) : Except ReadError (Reader Json) :=
    match own.lookup name with
    | none => .ok (Json.value (Json.maxDepth - 1))
    | some read => if name ∈ seen then .error .mismatch else .ok read
  match Json.skipSpace t with
  | '{' :: t => return .object (← Json.fields value (t.length + 1) true [] t).1
  | '[' :: _ => throw .mismatch
  | t =>
    let _ ← Json.value 0 t
    throw .mismatch

def decodeBody {α : Type} (own : List (String × Reader Json)) (decode : Json.Decoder α) (t : Text) :
    Except ReadError α := do
  (decode (← requestBody own t)).mapError fun _ => .mismatch

def errorResponse (e : RequestError) : HttpResponse :=
  { status := if e.isInternal then 500 else 400
    body := some (.object [("error", .ofString e.message)]) }

/-- The response where a task panics, with what the pool of tasks says about it. -/
def panicResponse (report : String) : HttpResponse :=
  { status := 500
    body := some (.object [("error", .ofString ("resolver task failed: " ++ report))]) }

def answerWith {α β : Type} (report : String) (run : α → Except (Halt RequestError) β)
    (encode : β → Json) (r : Except ReadError α) : HttpResponse :=
  match r with
  | .error .malformed => { status := 400 }
  | .error .mismatch => { status := 422 }
  | .ok a =>
    match run a with
    | .ok b => { status := 200, body := some (encode b) }
    | .error (.error e) => errorResponse e
    | .error .panic => panicResponse report

def isJsonType (contentType : Option String) : Bool :=
  (contentType.bind fun t => MediaType.ofText? t.toList).any MediaType.isJson

def post (run : Text → HttpResponse) (r : HttpRequest) : HttpResponse :=
  if r.method ≠ "POST" then { status := 405 }
  else if !isJsonType r.contentType then { status := 415 }
  else run r.body

def get (body : Json) (r : HttpRequest) : HttpResponse :=
  if r.method = "GET" then { status := 200, body := some body }
  else if r.method = "HEAD" then { status := 200 }
  else { status := 405 }

def respond (parse : Analysis.Parse) (report : String) (r : HttpRequest) : HttpResponse :=
  match Endpoint.ofPath? (pathOf r.path) with
  | none => { status := 404 }
  | some .health => get (.object [("status", .ofString "ok")]) r
  | some .backends => get backendsJson r
  | some .resolve =>
    post (answerWith report (fun q => (q.resolve parse).mapError .error) ResolveAnswer.toJson ∘
      decodeBody [] Json.Decoder.query) r
  | some .clean =>
    post (answerWith report (fun c => (c.run parse).mapError .error) CleanAnswer.toJson ∘
      decodeBody [("skip", strings)] Json.Decoder.cleanRequest) r
  | some .docstringEdit =>
    post (answerWith report (·.run parse) DocstringAnswer.toJson ∘
      decodeBody [("docstring", scalar isString), ("on_new_line", scalar isBool)]
        Json.Decoder.docstringRequest) r

end DocstringEditor.Server

/-
  Scriptlet.Service.Message

  Requests and responses of the service: content types, paths, queries and
  routes.
-/
import Scriptlet.Json

namespace Scriptlet

/-- A request. The path has its query behind it. -/
structure Request where
  method : Bytes
  path : Bytes
  contentType : Bytes
  body : Bytes
deriving DecidableEq, Repr

/-- The body of a response. -/
inductive Body where
  | json (j : Json)
  | plain (s : Bytes)

structure Response where
  status : Nat
  body : Body

/-! ## Content types -/

namespace ContentType

/-- A content type without the name of its vendor: what stands behind the plus
    sign is the type. -/
def withoutVendor (t : Bytes) : Bytes :=
  match Bytes.cut 43 t with
  | (_, none) => t
  | (front, some suffix) =>
    if front.contains 59 then front.takeWhile (· != 59)
    else
      match Bytes.cut 47 t with
      | (_, none) => t
      | (kind, some _) => kind ++ [47] ++ suffix.takeWhile (· != 59)

def isBlank (b : UInt8) : Bool := b == 32 || b == 9 || b == 10 || b == 13

/-- A content type without the blanks around it. -/
def trim (t : Bytes) : Bytes := ((t.dropWhile isBlank).reverse.dropWhile isBlank).reverse

/-- The type without its vendor and its parameters. -/
def essence (t : Bytes) : Bytes := (withoutVendor (Bytes.lower (trim t))).takeWhile (· != 59)

/-- Whether a body of this type is JSON. -/
def isJson (t : Bytes) : Bool := Bytes.endsWith (essence t) (text "json")

/-- The type of forms. -/
def form : Bytes := text "application/x-www-form-urlencoded"

/-- Whether a body of this type is a form. -/
def isForm (t : Bytes) : Bool := Bytes.startsWith (essence t) form

/-- Whether the fields of a form of this type are read, which takes the type as
    it stands, in lower case and without a vendor. -/
def hasFields (t : Bytes) : Bool := Bytes.startsWith (trim t) form

end ContentType

/-! ## Queries -/

namespace Query

/-- A part of a query with its escapes replaced: a plus sign is a blank, and a
    percent sign with two hexadecimal digits is a byte. -/
def decode : Bytes → Bytes
  | [] => []
  | 37 :: a :: b :: rest =>
    match hexDigit a, hexDigit b with
    | some x, some y => UInt8.ofNat (16 * x + y) :: decode rest
    -- :: A percent sign that is no escape stands for itself.
    | _, _ => 37 :: decode (a :: b :: rest)
  | b :: rest => (if b == 43 then 32 else b) :: decode rest
where
  hexDigit (b : UInt8) : Option Nat :=
    if Bytes.isDigit b then some (b.toNat - 48)
    else if 97 ≤ b && b ≤ 102 then some (b.toNat - 87)
    else if 65 ≤ b && b ≤ 70 then some (b.toNat - 55)
    else none

/-- The parameters of a query in order. -/
def parameters (query : Bytes) : List (Bytes × Bytes) :=
  (Bytes.split 38 query).map fun part =>
    let (key, value) := Bytes.cut 61 part
    (decode key, decode (value.getD []))

/-- The number of the first parameter with a name, or a default where it is
    missing or no integer. -/
def int (query name : Bytes) (default : Int) : Int :=
  match (parameters query).lookup name with
  | some value => (Numeral.readInt64 value).toOption.getD default
  | none => default

end Query

/-! ## Routes -/

/-- What a path leads to. -/
inductive Route where
  | health
  | run
  | parse
  | tokens
  | runs
  | runById (id : Bytes)
deriving DecidableEq, Repr

namespace Route

/-- The method of a route. -/
def method : Route → Bytes
  | .health | .runs | .runById _ => text "GET"
  | .run | .parse | .tokens => text "POST"

/-- A path in the form in which paths are compared: without case and without
    slashes at its end. -/
def normal (path : Bytes) : Bytes :=
  let p := Bytes.lower path
  if 1 < p.length then (p.reverse.dropWhile (· == 47)).reverse else p

/-- The paths without parameters. -/
def fixed : List (Bytes × Route) :=
  [(text "/api/health", .health), (text "/api/run", .run), (text "/api/parse", .parse),
   (text "/api/tokens", .tokens), (text "/api/runs", .runs)]

/-- The route of a path. An id keeps its case. -/
def find? (path : Bytes) : Option Route :=
  let p := normal path
  match fixed.lookup p with
  | some r => some r
  | none =>
    let base := text "/api/runs/"
    let id := p.drop base.length
    -- An id is one part of a path, so it holds no slash.
    if p.startsWith base && !id.isEmpty && !id.contains 47 then
      some (.runById ((path.drop base.length).take id.length))
    else none

end Route

namespace Request

/-- The methods that a request may have. -/
def methods : List Bytes :=
  [text "GET", text "HEAD", text "POST", text "PUT", text "DELETE", text "CONNECT", text "OPTIONS",
   text "TRACE", text "PATCH"]

/-- Splits a path at its first double slash. -/
def cutSlashes : Bytes → Option (Bytes × Bytes)
  | [] => none
  | b :: rest =>
    if Bytes.startsWith (b :: rest) (text "//") then some ([], rest.drop 1)
    else (cutSlashes rest).map fun (front, back) => (b :: front, back)

/-- Whether a scheme stands somewhere in a path. -/
def hasScheme : Bytes → Bool
  | [] => false
  | b :: rest => Bytes.startsWith (b :: rest) (text "://") || hasScheme rest

/-- A path without the scheme and the host in front of it. -/
def withoutHost (path : Bytes) : Bytes :=
  match cutSlashes path with
  | some (scheme, rest) =>
    if hasScheme path && !scheme.contains 47 then
      let rest := rest.dropWhile fun b => b != 47 && b != 63 && b != 35
      if rest.isEmpty then text "/" else rest
    else path
  | none => path

/-- The path before the query, and the query before the mark of a fragment. -/
def target (r : Request) : Bytes × Bytes :=
  let (path, query) := Bytes.cut 63 (Bytes.cut 35 (withoutHost r.path)).1
  (path, query.getD [])

/-- The last field of a form with a name, whatever its case, or else nothing. -/
def formField (r : Request) (name : Bytes) : Bytes :=
  let fields := if ContentType.hasFields r.contentType then Query.parameters r.body else []
  ((fields.reverse.find? fun f => Json.fold f.1 == name).map Prod.snd).getD []

/-- Whether a route takes the request: its method is the one of the route, or
    asks for the head of what `GET` would give. -/
def suits (r : Request) (route : Route) : Bool :=
  r.method == route.method || (r.method == text "HEAD" && route.method == text "GET")

end Request

namespace Response

/-- A path as it stands in a message, marks of tags and quotes escaped. -/
def escape (path : Bytes) : Bytes :=
  path.flatMap fun b =>
    if b == 60 then text "&lt;"
    else if b == 62 then text "&gt;"
    else if b == 38 then text "&amp;"
    else if b == 39 then text "&#39;"
    else if b == 34 then text "&#34;"
    else [b]

/-- A response that is an error message. -/
def error (status : Nat) (message : Bytes) : Response :=
  ⟨status, .json (.object [(text "error", .str message)])⟩

/-- No route has the path. -/
def notFound (method path : Bytes) : Response :=
  error 404 (text "Cannot " ++ method ++ text " " ++ escape path)

/-- A route has the path, and not for the method. -/
def notAllowed : Response := error 405 (text "Method Not Allowed")

/-- The response without its body. -/
def headOnly (r : Response) : Response := { r with body := .plain [] }

end Response

end Scriptlet

import AgenticExecution.Models
import AgenticExecution.Text
import AgenticExecution.Library.FixedWindow

set_option autoImplicit false

/-! # The rate limiter and the API key check

`RateLimitMiddleware` stands in front of the application. It counts the `/api` requests of a bucket in
the fixed minute they arrive in and answers those over the limit itself. The bucket is named by the
`X-API-Key` header, whatever it holds, or else by the address of the client; `require_api_key` looks at
the same header later, inside the application. -/

namespace AgenticExecution

/-- Header names and values are bytes. -/
abbrev Bytes := List UInt8

/-- The bytes of an ASCII literal. -/
def ascii (s : String) : Bytes := s.toList.map fun c => UInt8.ofNat c.toNat

/-- `value.decode("latin-1")`: a byte is the character with its number. -/
def latin1 (value : Bytes) : String := String.ofList (value.map fun b => Char.ofNat b.toNat)

/-- What the middleware and the key check read of an ASGI scope. -/
structure Scope where
  type : String := "http"
  path : String := ""
  headers : List (Bytes × Bytes) := []
  /-- Host and port. -/
  client : Option (String × Nat) := none
  /-- The decoded query string. -/
  queryParams : List (String × String) := []
  deriving DecidableEq

/-- `_header`: the first header of the name. -/
def header (scope : Scope) (name : Bytes) : Option String :=
  (scope.headers.find? fun h => h.1 = name).map fun h => latin1 h.2

/-- An answer with a status, a `detail` text and headers. -/
structure ErrorResponse where
  statusCode : Nat
  detail : String
  headers : List (String × String)
  deriving DecidableEq

/-- The settings of the HTTP layer. -/
structure HttpSettings where
  apiKey : Option String := none
  apiKeys : String := ""
  rateLimitPerMinute : Int := 0

/-- `Settings.configured_api_keys`. -/
def HttpSettings.configuredApiKeys (settings : HttpSettings) : List String :=
  let single :=
    match settings.apiKey with
    | some key => if key = "" then [] else [strip key]
    | none => []
  let parts := (settings.apiKeys.toList.splitOn ',').map fun part => strip (String.ofList part)
  (single ++ parts.filter fun key => key ≠ "").filter fun key => key ≠ ""

/-! ## require_api_key -/

/-- `a or b` for strings that may be missing. -/
def orElse (a b : Option String) : Option String :=
  match a with
  | some s => if s = "" then b else some s
  | none => b

/-- `query_params.get(name)`: the last value counts. -/
def Scope.queryParam (scope : Scope) (name : String) : Option String :=
  ((scope.queryParams.filter fun p => p.1 = name).getLast?).map Prod.snd

/-- The key a request carries, as `require_api_key` looks for it. -/
def Scope.provided (scope : Scope) : Option String :=
  let auth := (header scope (ascii "authorization")).getD ""
  orElse (orElse (header scope (ascii "x-api-key")) (scope.queryParam "api_key"))
    (if "bearer ".toList.isPrefixOf (lower auth).toList then
      some (strip (String.ofList (auth.toList.drop 7)))
    else none)

/-- `require_api_key`. -/
def requireApiKey (settings : HttpSettings) (scope : Scope) : Except ErrorResponse Unit :=
  let keys := settings.configuredApiKeys
  if keys = [] then .ok ()
  else if scope.provided.any fun key => keys.contains key then .ok ()
  else
    .error
      { statusCode := 401
        detail := "Invalid or missing API key"
        headers := [("WWW-Authenticate", "Bearer")] }

/-! ## RateLimitMiddleware -/

/-- A request and the time it arrives at. -/
structure Arrival where
  scope : Scope
  now : Time
  deriving DecidableEq

/-- What the middleware does with a request. -/
inductive Handled
  | passedOn
  | answered (response : ErrorResponse)
  deriving DecidableEq

/-- `scope.get("client")[0]`, the address of the client. -/
def Scope.address (scope : Scope) : Option String := scope.client.map Prod.fst

/-- The bucket a request is counted in. -/
def Scope.bucketKey (scope : Scope) : String :=
  match orElse (header scope (ascii "x-api-key")) scope.address with
  | some key => key
  | none => "anon"

/-- The requests the middleware counts. -/
def Scope.isApi (scope : Scope) : Bool :=
  scope.type = "http" && "/api".toList.isPrefixOf scope.path.toList

/-- `int(now // 60)`. -/
def Arrival.window (a : Arrival) : Int := ⌊a.now / 60⌋

/-- `60 - int(now % 60)`. -/
def Arrival.retryAfter (a : Arrival) : Int := 60 - ⌊a.now - 60 * a.window⌋

/-- The answer to a request over the limit. -/
def Arrival.tooMany (a : Arrival) : ErrorResponse where
  statusCode := 429
  detail := "Rate limit exceeded"
  headers := [("Retry-After", toString a.retryAfter)]

namespace RateLimit

/-- The dictionary `_counts`. -/
abbrev Counts := Counters String Int

/-- `_counts.get(key, (window, 0))`. -/
def get (counts : Counts) (key : String) (window : Int) : Int × Nat :=
  match counts.find? key with
  | some entry => (entry.window, entry.count)
  | none => (window, 0)

/-- `RateLimitMiddleware.__call__`, with the dictionary it leaves. -/
def call (limit : Int) (counts : Counts) (a : Arrival) : Handled × Counts :=
  if a.scope.type ≠ "http" then (.passedOn, counts)
  else if limit ≤ 0 ∨ ¬ "/api".toList.isPrefixOf a.scope.path.toList then (.passedOn, counts)
  else
    let key := a.scope.bucketKey
    let window := a.window
    let (windowStart, count) := get counts key window
    let (windowStart, count) := if windowStart ≠ window then (window, 0) else (windowStart, count)
    let count := count + 1
    let counts := counts.upsert { key := key, window := windowStart, count := count }
    let counts :=
      if 10000 < counts.rows.length then counts.filter fun entry => entry.window = window else counts
    (if limit < count then .answered a.tooMany else .passedOn, counts)

/-- What becomes of requests served one after another. -/
def run (limit : Int) (counts : Counts) : List Arrival → List (Arrival × Handled)
  | [] => []
  | a :: rest => (a, (call limit counts a).1) :: run limit (call limit counts a).2 rest

/-- What becomes of the requests a process serves from its start on. -/
def serve (limit : Int) (arrivals : List Arrival) : List (Arrival × Handled) :=
  run limit Table.empty arrivals

end RateLimit

/-- Requests in the order they arrive in, by a clock that does not go back. -/
structure Traffic where
  arrivals : List Arrival
  ordered : arrivals.Pairwise fun a b => a.now ≤ b.now

end AgenticExecution

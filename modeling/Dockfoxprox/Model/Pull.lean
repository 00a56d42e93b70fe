import Dockfoxprox.Model.Challenge
import Dockfoxprox.Model.Http

/-! `upstream_pull_request` and `fetch_token` of `docker.rs`: up to three requests to upstream,
between which a Bearer challenge is exchanged for a token. What upstream and the token endpoint
answer to the requests of a call is an input. -/

namespace Dockfoxprox

/-- A registry of the configuration. -/
structure DockerRegistry where
  url : String
  username : Option String
  password : Option String

structure TokenKey where
  registry : String
  scope : String
deriving DecidableEq

/-- What a pull uses of other crates: `percent_encoding`, the text of a status code and of a body,
and the decoder of a `TokenResponse`, with its `token` and its `access_token`. -/
structure PullCrates where
  percentEncode : String → String
  statusText : ℕ → String
  bodyText : Bytes → String
  decodeToken : Bytes → Except String (Option String × Option String)

/-- The content of an `Authorization` header. -/
inductive Authorization where
  | bearer (token : String)
  | basic (user pass : String)
deriving DecidableEq

structure PullRequest where
  method : Method
  url : String
  accept : Option String
  authorization : Option Authorization
deriving DecidableEq

/-- A response of upstream, with its `WWW-Authenticate` header as far as it is text. -/
structure PullResponse where
  status : ℕ
  wwwAuthenticate : Option String
deriving DecidableEq

/-- A request to the token endpoint. -/
structure TokenRequest where
  url : String
  authorization : Option Authorization
deriving DecidableEq

structure TokenAnswer where
  status : ℕ
  body : Except String Bytes

/-- What upstream and the token endpoint do in answer to the requests of a call, by their number;
an error stands for a request that could not be sent. -/
structure Upstream where
  answer : ℕ → Except String PullResponse
  token : ℕ → Except String TokenAnswer

inductive PullOutcome where
  | ok (resp : PullResponse)
  | error (e : DockerError)
  | panicked
deriving DecidableEq

/-- The token cache, the locals of a pull and what it has sent. -/
structure Pull where
  tokens : DashMap TokenKey String
  token : Option String
  hadCached : Bool
  sent : List (PullRequest × Except String PullResponse) := []
  tokensAsked : List TokenRequest := []

/-- What a pull is called with: the registries of the configuration and its arguments. -/
structure PullCall where
  registries : List DockerRegistry
  upstreamHost : String
  name : String
  method : Method
  subPath : String
  accept : Option String

namespace PullCall

variable (call : PullCall)

def registryForHost : Option DockerRegistry :=
  call.registries.find? fun r => r.url = call.upstreamHost

def url : String := "https://" ++ call.upstreamHost ++ "/v2/" ++ call.name ++ "/" ++ call.subPath

def tokenKey : TokenKey := ⟨call.upstreamHost, "repository:" ++ call.name ++ ":pull"⟩

def basicCreds : Option (String × String) :=
  call.registryForHost.bind fun r =>
    match r.username, r.password with
    | some u, some p => some (u, p)
    | _, _ => none

/-- A token if there is one, and else the configured credentials. -/
def request (token : Option String) : PullRequest where
  method := call.method
  url := call.url
  accept := call.accept
  authorization :=
    match token with
    | some t => some (.bearer t)
    | none => call.basicCreds.map fun c => .basic c.1 c.2

/-- The realm with `service` and `scope` appended to its query. -/
def tokenUrl (crates : PullCrates) (ch : BearerChallenge) : String :=
  let sep := if ch.realm.toList.contains '?' then "&" else "?"
  let (url, sep) :=
    match ch.service with
    | some s => (ch.realm ++ sep ++ "service=" ++ crates.percentEncode s, "&")
    | none => (ch.realm, sep)
  match ch.scope with
  | some s => url ++ sep ++ "scope=" ++ crates.percentEncode s
  | none => url

def tokenRequest (crates : PullCrates) (ch : BearerChallenge) : TokenRequest where
  url := tokenUrl crates ch
  authorization := call.basicCreds.map fun c => .basic c.1 c.2

end PullCall

/-- Whether a status is a success, `StatusCode::is_success`. -/
def isSuccess (status : ℕ) : Bool := 200 ≤ status && status < 300

/-- What `fetch_token` makes of the answer of the token endpoint. -/
def fetchToken (crates : PullCrates) (answer : Except String TokenAnswer) :
    Except DockerError String :=
  match answer with
  | .error e => .error (.upstream ("token request: " ++ e))
  | .ok resp =>
    if !isSuccess resp.status then
      let body := match resp.body with
        | .ok b => crates.bodyText b
        | .error _ => ""
      .error (.upstream ("token endpoint " ++ crates.statusText resp.status ++ ": " ++ body))
    else
      match resp.body.bind crates.decodeToken with
      | .error e => .error (.upstream ("decode token response: " ++ e))
      | .ok (token, accessToken) =>
        match token.or accessToken with
        | none => .error (.upstream "token response missing token field")
        | some t => .ok t

namespace Pull

variable (crates : PullCrates) (up : Upstream) (call : PullCall)

/-- A request is sent with the token of the loop. -/
def send (attempt : ℕ) (x : Pull) : Pull :=
  { x with sent := x.sent ++ [(call.request x.token, up.answer attempt)] }

/-- The cached token did not work: evict it. -/
def evictCached (x : Pull) : Pull :=
  if x.hadCached then { x with tokens := x.tokens.erase call.tokenKey, hadCached := false } else x

/-- One turn of the loop; `none` means another one. -/
def turn (attempt : ℕ) (x : Pull) : Pull × Option PullOutcome :=
  let x := send up call attempt x
  match up.answer attempt with
  | .error e =>
    (x, some (.error (.upstream ("send to " ++ call.upstreamHost ++ ": " ++ e))))
  | .ok resp =>
    if resp.status ≠ 401 then (x, some (.ok resp))
    else
      let x := evictCached call x
      match resp.wwwAuthenticate with
      | none => (x, some (.ok resp))
      | some www =>
        match parseBearerChallenge www with
        | none => (x, some .panicked)
        | some none => (x, some (.ok resp))
        | some (some ch) =>
          let x := { x with tokensAsked := x.tokensAsked ++ [call.tokenRequest crates ch] }
          match fetchToken crates (up.token attempt) with
          | .error e => (x, some (.error e))
          | .ok fresh =>
            ({ x with tokens := x.tokens.insert call.tokenKey fresh, token := some fresh }, none)

/-- The loop over the attempts that are left. -/
def loop : List ℕ → Pull → Pull × PullOutcome
  | [], x => (x, .error (.upstream "exceeded auth retry budget"))
  | attempt :: rest, x =>
    match turn crates up call attempt x with
    | (x, some outcome) => (x, outcome)
    | (x, none) => loop rest x

/-- A pull before its first request. -/
def start (tokens : DashMap TokenKey String) : Pull where
  tokens := tokens
  token := tokens.lookup call.tokenKey
  hadCached := (tokens.lookup call.tokenKey).isSome

end Pull

/-- Send a pull request to upstream, with up to two more after a challenge. -/
def upstreamPullRequest (crates : PullCrates) (up : Upstream) (call : PullCall)
    (tokens : DashMap TokenKey String) : Pull × PullOutcome :=
  Pull.loop crates up call [0, 1, 2] (Pull.start call tokens)

end Dockfoxprox

import Dockfoxprox.Model.Pull

/-! `upstream_pull_request` one await point at a time. Any number of pulls share the token cache,
and between two steps of one the others move. What upstream and the token endpoint answer is an
input of the step that waits for it. -/

namespace Dockfoxprox

/-- Where a pull is: it has yet to look into the token cache, or it waits for an answer. -/
inductive PullStage where
  | start
  | sending (attempt : ℕ)
  | fetching (attempt : ℕ) (ch : BearerChallenge)
  | done (outcome : PullOutcome)

/-- A pull with its locals, and its requests so far with their answers. -/
structure PullTask where
  call : PullCall
  token : Option String := none
  hadCached : Bool := false
  sent : List (PullRequest × Except String PullResponse) := []
  asked : List (TokenRequest × Except String TokenAnswer) := []
  stage : PullStage := .start

/-- What a step may get from outside: an answer of upstream or of the token endpoint. -/
structure PullInput where
  answer : Except String PullResponse := .error ""
  token : Except String TokenAnswer := .error ""

namespace PullTask

variable (crates : PullCrates)

/-- The request that waits for its answer. -/
def request (t : PullTask) : PullRequest := t.call.request t.token

def tokenRequest (t : PullTask) (ch : BearerChallenge) : TokenRequest :=
  t.call.tokenRequest crates ch

/-- The look into the token cache before the loop. -/
def begin (tokens : DashMap TokenKey String) (t : PullTask) : PullTask :=
  { t with
    token := tokens.lookup t.call.tokenKey
    hadCached := (tokens.lookup t.call.tokenKey).isSome
    stage := .sending 0 }

/-- The head of the loop, `for attempt in 0..3u32`. -/
def attemptStage (attempt : ℕ) : PullStage :=
  if attempt < 3 then .sending attempt
  else .done (.error (.upstream "exceeded auth retry budget"))

/-- Upstream has answered: a status other than 401 ends the pull; after a 401 the cached token is
evicted, and a Bearer challenge sends the pull to the token endpoint. -/
def answered (tokens : DashMap TokenKey String) (attempt : ℕ)
    (answer : Except String PullResponse) (t : PullTask) : DashMap TokenKey String × PullTask :=
  let t := { t with sent := t.sent ++ [(t.request, answer)] }
  match answer with
  | .error e =>
    (tokens, { t with
      stage := .done (.error (.upstream ("send to " ++ t.call.upstreamHost ++ ": " ++ e))) })
  | .ok resp =>
    if resp.status ≠ 401 then (tokens, { t with stage := .done (.ok resp) })
    else
      let tokens := if t.hadCached then tokens.erase t.call.tokenKey else tokens
      let t := { t with hadCached := false }
      match resp.wwwAuthenticate with
      | none => (tokens, { t with stage := .done (.ok resp) })
      | some www =>
        match parseBearerChallenge www with
        | none => (tokens, { t with stage := .done .panicked })
        | some none => (tokens, { t with stage := .done (.ok resp) })
        | some (some ch) => (tokens, { t with stage := .fetching attempt ch })

/-- The token endpoint has answered. -/
def fetched (tokens : DashMap TokenKey String) (attempt : ℕ) (ch : BearerChallenge)
    (answer : Except String TokenAnswer) (t : PullTask) : DashMap TokenKey String × PullTask :=
  let t := { t with asked := t.asked ++ [(t.tokenRequest crates ch, answer)] }
  match fetchToken crates answer with
  | .error e => (tokens, { t with stage := .done (.error e) })
  | .ok fresh =>
    (tokens.insert t.call.tokenKey fresh,
      { t with token := some fresh, stage := attemptStage (attempt + 1) })

/-- The next step of a pull; one that is over does not move. -/
def next (tokens : DashMap TokenKey String) (inp : PullInput) (t : PullTask) :
    Option (DashMap TokenKey String × PullTask) :=
  match t.stage with
  | .start => some (tokens, t.begin tokens)
  | .sending attempt => some (t.answered tokens attempt inp.answer)
  | .fetching attempt ch => some (t.fetched crates tokens attempt ch inp.token)
  | .done _ => none

/-- The requests of a pull so far, with the one on its way. -/
def requests (t : PullTask) : List PullRequest :=
  t.sent.map Prod.fst ++
    match t.stage with
    | .sending _ => [t.request]
    | _ => []

def tokenRequests (t : PullTask) : List TokenRequest :=
  t.asked.map Prod.fst ++
    match t.stage with
    | .fetching _ ch => [t.tokenRequest crates ch]
    | _ => []

end PullTask

/-- The token cache and the pulls made so far. -/
structure PullSys where
  tokens : DashMap TokenKey String
  tasks : List PullTask

/-- A proxy that has just been started. -/
def PullSys.init : PullSys := ⟨∅, []⟩

inductive PullEvent where
  | call (call : PullCall)
  | step (i : ℕ) (inp : PullInput)

def PullSys.step (crates : PullCrates) (s : PullSys) : PullEvent → Option PullSys
  | .call call => some { s with tasks := s.tasks ++ [{ call }] }
  | .step i inp =>
    match s.tasks[i]? with
    | none => none
    | some t => (t.next crates s.tokens inp).map fun r => ⟨r.1, s.tasks.set i r.2⟩

end Dockfoxprox

import Dockfoxprox.Lib.MapSum
import Dockfoxprox.Model.Pull

/-! Which tokens a pull leaves in the cache. The first 401 takes the cached token out; a later one
does so only by a fresh token that replaces it, so a token fetched by the call stays cached where
upstream rejects it and no other follows. -/

namespace Dockfoxprox

/-- Attempt `i` is answered with a 401. -/
def Upstream.Unauthorized (up : Upstream) (i : ℕ) : Prop :=
  ∃ resp, up.answer i = .ok resp ∧ resp.status = 401

/-- The answer to attempt `i` is a 401 with a Bearer challenge that gets a token. -/
def Upstream.RenewsWith (up : Upstream) (crates : PullCrates) (i : ℕ) (t : String) : Prop :=
  ∃ resp www ch, up.answer i = .ok resp ∧ resp.status = 401 ∧ resp.wwwAuthenticate = some www ∧
    parseBearerChallenge www = some (some ch) ∧ fetchToken crates (up.token i) = .ok t

def Upstream.Renews (up : Upstream) (crates : PullCrates) (i : ℕ) : Prop :=
  ∃ t, up.RenewsWith crates i t

/-- The answer to attempt `i` is a 401, and no token follows it: there is no challenge, it is not
a Bearer challenge, or the token endpoint fails. -/
def Upstream.Spurns (up : Upstream) (crates : PullCrates) (i : ℕ) : Prop :=
  up.Unauthorized i ∧ ¬ up.Renews crates i

/-- The token endpoint hands out each token once, and never one that is cached already. -/
structure Upstream.FreshTokens (up : Upstream) (crates : PullCrates) (cached : Option String) :
    Prop where
  new (i : ℕ) (t : String) : up.RenewsWith crates i t → cached ≠ some t
  once (i j : ℕ) (t : String) : up.RenewsWith crates i t → up.RenewsWith crates j t → i = j

namespace Pull

def Rejected (x : Pull) (t : String) : Prop :=
  ∃ req resp, (req, .ok resp) ∈ x.sent ∧ req.authorization = some (.bearer t) ∧ resp.status = 401

/-- No token that upstream rejected is cached for the call. -/
def Clean (call : PullCall) (x : Pull) : Prop :=
  ∀ t, x.tokens.lookup call.tokenKey = some t → ¬ x.Rejected t

variable {crates : PullCrates} {up : Upstream} {call : PullCall} {x : Pull} {i n : ℕ} {t : String}

@[simp] theorem evictCached_hadCached : (evictCached call x).hadCached = false := by
  unfold evictCached
  split <;> simp_all

@[simp] theorem evictCached_sent : (evictCached call x).sent = x.sent := by
  unfold evictCached
  split <;> rfl

theorem evictCached_of_not (h : x.hadCached = false) : evictCached call x = x := by
  simp [evictCached, h]

theorem send_rejected : (send up call i x).Rejected t ↔
    x.Rejected t ∨ (x.token = some t ∧ up.Unauthorized i) := by
  constructor
  · rintro ⟨req, resp, hmem, hauth, hstatus⟩
    rcases List.mem_append.mp hmem with hold | hnew
    · exact .inl ⟨req, resp, hold, hauth, hstatus⟩
    · obtain ⟨rfl, hans⟩ := Prod.mk.inj (List.mem_singleton.mp hnew)
      refine .inr ⟨?_, resp, hans.symm, hstatus⟩
      cases htoken : x.token with
      | some u => simpa [PullCall.request, htoken] using hauth
      | none => simp [PullCall.request, htoken] at hauth
  · rintro (⟨req, resp, hmem, h⟩ | ⟨htoken, resp, hans, hstatus⟩)
    · exact ⟨req, resp, List.mem_append_left _ hmem, h⟩
    · refine ⟨call.request x.token, resp, ?_, by simp [PullCall.request, htoken], hstatus⟩
      simp [send, hans]

/-- What one turn does: the answer passes the 401 check, or it renews the token, or it is a 401
that no token follows. -/
theorem turn_spec (crates : PullCrates) (up : Upstream) (call : PullCall) (i : ℕ) (x : Pull) :
    (¬ up.Unauthorized i ∧ ∃ outcome, turn crates up call i x = (send up call i x, some outcome)) ∨
    (∃ t asked, up.RenewsWith crates i t ∧ turn crates up call i x =
      ({ evictCached call (send up call i x) with
          tokens := (evictCached call (send up call i x)).tokens.insert call.tokenKey t
          token := some t, tokensAsked := asked }, none)) ∨
    (up.Spurns crates i ∧ ∃ asked outcome, turn crates up call i x =
      ({ evictCached call (send up call i x) with tokensAsked := asked }, some outcome)) := by
  cases hans : up.answer i with
  | error e =>
    refine .inl ⟨by simp [Upstream.Unauthorized, hans], ?_⟩
    exact ⟨_, by simp only [turn, hans]; rfl⟩
  | ok resp =>
    by_cases hstatus : resp.status = 401
    swap
    · refine .inl ⟨by simp [Upstream.Unauthorized, hans, hstatus], ?_⟩
      exact ⟨_, by simp only [turn, hans, ne_eq, if_pos hstatus]; rfl⟩
    have spurned (hno : ∀ t, ¬ up.RenewsWith crates i t) : up.Spurns crates i :=
      ⟨⟨resp, hans, hstatus⟩, fun ⟨t, ht⟩ => hno t ht⟩
    cases hwww : resp.wwwAuthenticate with
    | none =>
      refine .inr (.inr ⟨spurned (by simp [Upstream.RenewsWith, hans, hwww]), ?_⟩)
      exact ⟨(evictCached call (send up call i x)).tokensAsked, _,
        by simp only [turn, hans, hstatus, hwww, ne_eq, not_true, if_false]; rfl⟩
    | some www =>
      match hch : parseBearerChallenge www with
      | none =>
        refine .inr (.inr ⟨spurned (by simp [Upstream.RenewsWith, hans, hwww, hch]), ?_⟩)
        exact ⟨(evictCached call (send up call i x)).tokensAsked, _,
          by simp only [turn, hans, hstatus, hwww, hch, ne_eq, not_true, if_false]; rfl⟩
      | some none =>
        refine .inr (.inr ⟨spurned (by simp [Upstream.RenewsWith, hans, hwww, hch]), ?_⟩)
        exact ⟨(evictCached call (send up call i x)).tokensAsked, _,
          by simp only [turn, hans, hstatus, hwww, hch, ne_eq, not_true, if_false]; rfl⟩
      | some (some ch) =>
        cases hfetch : fetchToken crates (up.token i) with
        | error e =>
          refine .inr (.inr ⟨spurned (by simp [Upstream.RenewsWith, hfetch]), ?_⟩)
          exact ⟨_, _, by
            simp only [turn, hans, hstatus, hwww, hch, hfetch, ne_eq, not_true, if_false]; rfl⟩
        | ok fresh =>
          refine .inr (.inl ⟨fresh, (evictCached call (send up call i x)).tokensAsked ++
            [call.tokenRequest crates ch], ⟨resp, www, ch, hans, hstatus, hwww, hch, hfetch⟩, ?_⟩)
          simp only [turn, hans, hstatus, hwww, hch, hfetch, ne_eq, not_true, if_false]

/-- The loop before attempt `i`: its token is the cached one, and neither that token nor one
still to be fetched has been rejected. -/
structure Ready (crates : PullCrates) (up : Upstream) (call : PullCall) (i : ℕ) (x : Pull) :
    Prop where
  cached : x.tokens.lookup call.tokenKey = x.token
  accepted (t : String) : x.token = some t → ¬ x.Rejected t
  unseen (j : ℕ) (t : String) : i ≤ j → up.RenewsWith crates j t →
    x.token ≠ some t ∧ ¬ x.Rejected t

theorem Ready.start (tokens : DashMap TokenKey String)
    (h : up.FreshTokens crates (tokens.lookup call.tokenKey)) :
    Ready crates up call 0 (start call tokens) where
  cached := rfl
  accepted _ _ := by simp [Rejected, Pull.start]
  unseen j t _ hj := ⟨h.new j t hj, by simp [Rejected, Pull.start]⟩

/-- A renewed token is the cached one, and has not been rejected. -/
theorem Ready.renew {cached : Option String} (hf : up.FreshTokens crates cached)
    (h : Ready crates up call i x) (ht : up.RenewsWith crates i t) (asked : List TokenRequest) :
    Ready crates up call (i + 1) { evictCached call (send up call i x) with
      tokens := (evictCached call (send up call i x)).tokens.insert call.tokenKey t
      token := some t, tokensAsked := asked } := by
  have rejected {u : String} : Rejected { evictCached call (send up call i x) with
      tokens := (evictCached call (send up call i x)).tokens.insert call.tokenKey t
      token := some t, tokensAsked := asked } u ↔ (send up call i x).Rejected u := by
    simp [Rejected]
  have fresh {j : ℕ} {u : String} (hj : i ≤ j) (hu : up.RenewsWith crates j u) :
      ¬ (send up call i x).Rejected u := by
    obtain ⟨hne, hnot⟩ := h.unseen j u hj hu
    rw [send_rejected]
    rintro (hold | ⟨htoken, -⟩)
    · exact hnot hold
    · exact hne htoken
  refine ⟨by simp, ?_, ?_⟩
  · intro u hu
    obtain rfl := Option.some.inj hu
    rw [rejected]
    exact fresh le_rfl ht
  · intro j u hj hu
    refine ⟨?_, by rw [rejected]; exact fresh (Nat.le_of_succ_le hj) hu⟩
    intro heq
    obtain rfl := Option.some.inj heq
    have := hf.once i j t ht hu
    omega

/-- The loop ends with a clean cache where the answer is no 401. -/
theorem Ready.clean_of_passes (h : Ready crates up call i x) (hp : ¬ up.Unauthorized i) :
    Clean call (send up call i x) := by
  intro t ht
  rw [send_rejected]
  have htoken : x.token = some t := by rw [← h.cached]; exact ht
  rintro (hold | ⟨-, hun⟩)
  · exact h.accepted t htoken hold
  · exact hp hun

/-- Where a 401 ends the loop the cache is clean just when nothing was cached or it was the token
that was cached when the call began. -/
theorem Ready.clean_iff_of_spurns (h : Ready crates up call i x) (hs : up.Unauthorized i)
    (asked : List TokenRequest) :
    Clean call { evictCached call (send up call i x) with tokensAsked := asked } ↔
      x.hadCached = true ∨ x.token = none := by
  cases hc : x.hadCached with
  | true => simp [Clean, evictCached, send, hc]
  | false =>
    rw [evictCached_of_not (by exact hc)]
    cases htoken : x.token with
    | none =>
      have hnone := h.cached.trans htoken
      simp [Clean, send, hnone]
    | some t =>
      have ht := h.cached.trans htoken
      refine iff_of_false ?_ (by simp)
      intro hclean
      exact hclean t ht (send_rejected.mpr (.inr ⟨htoken, hs⟩))

/-- From a fetched token on, the cache ends up clean unless an attempt that the earlier ones
renewed is spurned. -/
theorem Ready.loop_clean_iff {cached : Option String} (hf : up.FreshTokens crates cached)
    (n : ℕ) (h : Ready crates up call i x) (hc : x.hadCached = false) (hsome : x.token ≠ none) :
    Clean call (loop crates up call (List.range' i n) x).1 ↔
      ∀ k, i ≤ k → k < i + n → (∀ j, i ≤ j → j < k → up.Renews crates j) →
        ¬ up.Spurns crates k := by
  induction n generalizing i x with
  | zero =>
    refine iff_of_true ?_ (by omega)
    intro t ht
    exact h.accepted t (h.cached.symm.trans ht)
  | succ n ih =>
    rw [List.range'_succ]
    obtain ⟨hp, outcome, heq⟩ | ⟨t, asked, ht, heq⟩ | ⟨hs, asked, outcome, heq⟩ :=
      turn_spec crates up call i x
    · simp only [loop, heq]
      refine iff_of_true (h.clean_of_passes hp) ?_
      intro k hk _ hrenews hspurns
      obtain rfl | hlt := Nat.eq_or_lt_of_le hk
      · exact hp hspurns.1
      · obtain ⟨t, resp, -, -, hans, hstatus, -⟩ := hrenews i le_rfl hlt
        exact hp ⟨resp, hans, hstatus⟩
    · simp only [loop, heq]
      rw [ih (h.renew hf ht asked) evictCached_hadCached (by simp)]
      constructor
      · intro hall k hk hlt hrenews
        obtain rfl | hik := Nat.eq_or_lt_of_le hk
        · exact fun hspurns => hspurns.2 ⟨t, ht⟩
        · exact hall k hik (by omega) fun j hj hjk => hrenews j (by omega) hjk
      · intro hall k hk hlt hrenews
        refine hall k (by omega) (by omega) fun j hj hjk => ?_
        obtain rfl | hij := Nat.eq_or_lt_of_le hj
        · exact ⟨t, ht⟩
        · exact hrenews j hij hjk
    · simp only [loop, heq]
      rw [h.clean_iff_of_spurns hs.1 asked]
      refine iff_of_false (by simp [hc, hsome]) ?_
      intro hall
      exact hall i le_rfl (by omega) (by omega) hs

/-- A loop sends one request for each attempt at most. -/
theorem loop_sent_length (crates : PullCrates) (up : Upstream) (call : PullCall)
    (attempts : List ℕ) (x : Pull) :
    (loop crates up call attempts x).1.sent.length ≤ x.sent.length + attempts.length := by
  induction attempts generalizing x with
  | nil => exact le_rfl
  | cons i rest ih =>
    have hsend : (send up call i x).sent.length = x.sent.length + 1 := by simp [send]
    rw [List.length_cons]
    obtain ⟨-, outcome, heq⟩ | ⟨t, asked, -, heq⟩ | ⟨-, asked, outcome, heq⟩ :=
      turn_spec crates up call i x
    · simp only [loop, heq]
      omega
    · simp only [loop, heq]
      refine (ih _).trans ?_
      simp only [evictCached_sent]
      omega
    · simp only [loop, heq, evictCached_sent]
      omega

end Pull

/-- A pull sends three requests at most, and leaves no token cached that upstream rejected just
when no request with a token it fetched itself is answered with a 401 that no token follows. -/
theorem upstream_pull_clean_iff (crates : PullCrates) (up : Upstream) (call : PullCall)
    (tokens : DashMap TokenKey String)
    (hf : up.FreshTokens crates (tokens.lookup call.tokenKey)) :
    (upstreamPullRequest crates up call tokens).1.sent.length ≤ 3 ∧
    (Pull.Clean call (upstreamPullRequest crates up call tokens).1 ↔
      ∀ i, 0 < i → i < 3 → (∀ j < i, up.Renews crates j) → ¬ up.Spurns crates i) := by
  have hready := Pull.Ready.start tokens hf
  refine ⟨Pull.loop_sent_length crates up call [0, 1, 2] (Pull.start call tokens), ?_⟩
  have hlater : [0, 1, 2] = 0 :: List.range' 1 2 := rfl
  rw [upstreamPullRequest, hlater]
  have first (hno : ¬ up.Renews crates 0) {i : ℕ} (hi : 0 < i)
      (hrenews : ∀ j < i, up.Renews crates j) : ¬ up.Spurns crates i :=
    absurd (hrenews 0 hi) hno
  obtain ⟨hp, outcome, heq⟩ | ⟨t, asked, ht, heq⟩ | ⟨hs, asked, outcome, heq⟩ :=
    Pull.turn_spec crates up call 0 (Pull.start call tokens)
  · simp only [Pull.loop, heq]
    refine iff_of_true (hready.clean_of_passes hp) fun i hi _ => first ?_ hi
    rintro ⟨t, resp, -, -, hans, hstatus, -⟩
    exact hp ⟨resp, hans, hstatus⟩
  · simp only [Pull.loop, heq]
    rw [(hready.renew hf ht asked).loop_clean_iff hf 2 Pull.evictCached_hadCached (by simp)]
    constructor
    · intro hall i hi hlt hrenews
      exact hall i hi hlt fun j _ hj => hrenews j hj
    · intro hall i hi hlt hrenews
      refine hall i hi hlt fun j hj => ?_
      obtain rfl | hpos := Nat.eq_zero_or_pos j
      · exact ⟨t, ht⟩
      · exact hrenews j hpos hj
  · simp only [Pull.loop, heq]
    refine iff_of_true ?_ fun i hi _ => first hs.2 hi
    rw [hready.clean_iff_of_spurns hs.1 asked]
    cases hc : tokens.lookup call.tokenKey with
    | some c => exact .inl (by simp [Pull.start, hc])
    | none => exact .inr hc

/-! A registry that hands out a token and then answers 401 without a challenge. -/

def bareToken : Bytes := utf8 "\x7b\"token\":\"t\"\x7d"

def bareCrates : PullCrates where
  percentEncode s := s
  statusText _ := "200 OK"
  bodyText _ := "\x7b\"token\":\"t\"\x7d"
  decodeToken body := if body = bareToken then .ok (some "t", none) else .error "expected value"

def bareUpstream : Upstream where
  answer i :=
    .ok ⟨401, if i = 0 then some "Bearer realm=\"https://ghcr.io/token\"" else none⟩
  token _ := .ok ⟨200, .ok bareToken⟩

def bareCall : PullCall where
  registries := []
  upstreamHost := "ghcr.io"
  name := "a/b"
  method := .get
  subPath := "manifests/latest"
  accept := none

/-- One that answers the second time. -/
def kindUpstream : Upstream where
  answer i :=
    .ok (if i = 0 then ⟨401, some "Bearer realm=\"https://ghcr.io/token\""⟩ else ⟨200, none⟩)
  token _ := .ok ⟨200, .ok bareToken⟩

/-- Tokens are fresh where only the first answer has a challenge. -/
theorem freshTokens_of_first {up : Upstream}
    (h : ∀ i resp, up.answer (i + 1) = .ok resp → resp.wwwAuthenticate = none) :
    up.FreshTokens bareCrates none := by
  have first {i : ℕ} {t : String} (hi : up.RenewsWith bareCrates i t) : i = 0 := by
    obtain ⟨resp, www, ch, hans, -, hwww, -⟩ := hi
    cases i with
    | zero => rfl
    | succ i =>
      rw [h i resp hans] at hwww
      cases hwww
  refine ⟨by simp, fun i j t hi hj => ?_⟩
  rw [first hi, first hj]

theorem bareUpstream_fresh : bareUpstream.FreshTokens bareCrates none := by
  refine freshTokens_of_first fun i resp h => ?_
  cases h
  rfl

theorem kindUpstream_fresh : kindUpstream.FreshTokens bareCrates none := by
  refine freshTokens_of_first fun i resp h => ?_
  cases h
  rfl

/-- The token that the kind registry hands out is kept, and it has not been rejected. The other
one spurns it. -/
theorem upstream_pull_clean_iff_bare :
    (upstreamPullRequest bareCrates kindUpstream bareCall ∅).1.tokens.lookup bareCall.tokenKey =
        some "t" ∧
      Pull.Clean bareCall (upstreamPullRequest bareCrates kindUpstream bareCall ∅).1 ∧
    (upstreamPullRequest bareCrates bareUpstream bareCall ∅).1.sent.length ≤ 3 ∧
    (Pull.Clean bareCall (upstreamPullRequest bareCrates bareUpstream bareCall ∅).1 ↔
      ∀ i, 0 < i → i < 3 → (∀ j < i, bareUpstream.Renews bareCrates j) →
        ¬ bareUpstream.Spurns bareCrates i) := by
  have hkind := (upstream_pull_clean_iff bareCrates kindUpstream bareCall ∅ kindUpstream_fresh).2
  refine ⟨by rfl, hkind.mpr fun i hi _ _ hspurns => ?_,
    upstream_pull_clean_iff bareCrates bareUpstream bareCall ∅ bareUpstream_fresh⟩
  obtain ⟨resp, hans, hstatus⟩ := hspurns.1
  cases i with
  | zero => exact Nat.lt_irrefl 0 hi
  | succ i =>
    cases hans
    cases hstatus

/-- The call returns the second 401, and the token it rejects stays cached. -/
theorem pull_keeps_rejected_token :
    bareUpstream.FreshTokens bareCrates none ∧
    (upstreamPullRequest bareCrates bareUpstream bareCall ∅).2 = .ok ⟨401, none⟩ ∧
    (upstreamPullRequest bareCrates bareUpstream bareCall ∅).1.tokens.lookup bareCall.tokenKey =
      some "t" ∧
    (upstreamPullRequest bareCrates bareUpstream bareCall ∅).1.Rejected "t" ∧
    ¬ Pull.Clean bareCall (upstreamPullRequest bareCrates bareUpstream bareCall ∅).1 := by
  have hlookup : (upstreamPullRequest bareCrates bareUpstream bareCall ∅).1.tokens.lookup
      bareCall.tokenKey = some "t" := by rfl
  have hrejected :
      (upstreamPullRequest bareCrates bareUpstream bareCall ∅).1.Rejected "t" := by
    refine ⟨bareCall.request (some "t"), ⟨401, none⟩, ?_, by rfl, by rfl⟩
    exact List.mem_cons_of_mem _ List.mem_cons_self
  exact ⟨bareUpstream_fresh, by rfl, hlookup, hrejected, fun h => h "t" hlookup hrejected⟩

end Dockfoxprox

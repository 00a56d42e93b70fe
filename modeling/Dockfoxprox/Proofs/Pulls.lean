import Dockfoxprox.Lib.Provenance
import Dockfoxprox.Model.Pulls
import Dockfoxprox.Proofs.Pull

/-! Pulls beside each other. They meet only in the token cache: once a pull has looked into it,
what it sends and how it ends is what it would do alone. A token in the cache was handed out
for the host and the repository it is cached for, so that no interleaving carries a token or a
password to another host. -/

namespace Dockfoxprox

open Machine

/-- The locals of two pulls agree; their caches may differ. -/
structure Pull.Agree (x y : Pull) : Prop where
  token : x.token = y.token
  hadCached : x.hadCached = y.hadCached
  sent : x.sent = y.sent
  tokensAsked : x.tokensAsked = y.tokensAsked

structure Pull.Alike (p q : Pull × PullOutcome) : Prop extends Pull.Agree p.1 q.1 where
  outcome : p.2 = q.2

namespace Pull

variable {crates : PullCrates} {up : Upstream} {call : PullCall} {x y : Pull}

theorem Alike.trans {p q r : Pull × PullOutcome} (h : Alike p q) (h' : Alike q r) : Alike p r :=
  ⟨⟨h.token.trans h'.token, h.hadCached.trans h'.hadCached, h.sent.trans h'.sent,
    h.tokensAsked.trans h'.tokensAsked⟩, h.outcome.trans h'.outcome⟩

/-- A turn of the loop does not depend on the cache. -/
theorem Agree.turn (h : Agree x y) (crates : PullCrates) (up : Upstream) (call : PullCall)
    (i : ℕ) :
    Agree (turn crates up call i x).1 (turn crates up call i y).1 ∧
      (turn crates up call i x).2 = (turn crates up call i y).2 := by
  obtain ⟨m, token, hadCached, sent, asked⟩ := x
  obtain ⟨m', token', hadCached', sent', asked'⟩ := y
  obtain ⟨h₁, h₂, h₃, h₄⟩ := h
  dsimp only at h₁ h₂ h₃ h₄
  subst h₁ h₂ h₃ h₄
  have hsend : Agree (send up call i ⟨m, token, hadCached, sent, asked⟩)
      (send up call i ⟨m', token, hadCached, sent, asked⟩) := ⟨rfl, rfl, rfl, rfl⟩
  have hevict : Agree (evictCached call (send up call i ⟨m, token, hadCached, sent, asked⟩))
      (evictCached call (send up call i ⟨m', token, hadCached, sent, asked⟩)) := by
    cases hadCached <;> exact ⟨rfl, rfl, rfl, rfl⟩
  unfold Pull.turn
  cases up.answer i with
  | error e => exact ⟨hsend, rfl⟩
  | ok resp =>
    dsimp only
    split
    · exact ⟨hsend, rfl⟩
    · cases resp.wwwAuthenticate with
      | none => exact ⟨hevict, rfl⟩
      | some www =>
        dsimp only
        cases parseBearerChallenge www with
        | none => exact ⟨hevict, rfl⟩
        | some parsed =>
          cases parsed with
          | none => exact ⟨hevict, rfl⟩
          | some ch =>
            have hasked := congrArg (· ++ [call.tokenRequest crates ch]) hevict.tokensAsked
            dsimp only at hasked ⊢
            cases fetchToken crates (up.token i) with
            | error e => exact ⟨⟨hevict.token, hevict.hadCached, hevict.sent, hasked⟩, rfl⟩
            | ok fresh => exact ⟨⟨rfl, hevict.hadCached, hevict.sent, hasked⟩, rfl⟩

theorem Agree.loop (h : Agree x y) (attempts : List ℕ) :
    Alike (loop crates up call attempts x) (loop crates up call attempts y) := by
  induction attempts generalizing x y with
  | nil => exact ⟨h, rfl⟩
  | cons i rest ih =>
    obtain ⟨hagree, hout⟩ := h.turn crates up call i
    unfold Pull.loop
    generalize Pull.turn crates up call i x = p at hagree hout
    generalize Pull.turn crates up call i y = q at hagree hout
    obtain ⟨x', ox⟩ := p
    obtain ⟨y', oy⟩ := q
    cases hout
    cases ox with
    | none => exact ih hagree
    | some outcome => exact ⟨hagree, rfl⟩

/-- A turn sends one request. -/
theorem turn_sent (crates : PullCrates) (up : Upstream) (call : PullCall) (x : Pull) (i : ℕ) :
    (turn crates up call i x).1.sent = x.sent ++ [(call.request x.token, up.answer i)] := by
  obtain ⟨-, outcome, heq⟩ | ⟨t, asked, -, heq⟩ | ⟨-, asked, outcome, heq⟩ :=
    turn_spec crates up call i x
  · rw [heq]
    rfl
  · rw [heq]
    exact evictCached_sent
  · rw [heq]
    exact evictCached_sent

theorem turn_asked (crates : PullCrates) (up : Upstream) (call : PullCall) (x : Pull) (i : ℕ) :
    x.tokensAsked <+: (turn crates up call i x).1.tokensAsked := by
  have hevict : (evictCached call (send up call i x)).tokensAsked = x.tokensAsked := by
    unfold evictCached
    split <;> rfl
  unfold turn
  cases up.answer i with
  | error e => exact List.prefix_refl _
  | ok resp =>
    dsimp only
    split
    · exact List.prefix_refl _
    · cases resp.wwwAuthenticate with
      | none => exact (hevict ▸ List.prefix_refl _)
      | some www =>
        dsimp only
        cases parseBearerChallenge www with
        | none => exact (hevict ▸ List.prefix_refl _)
        | some parsed =>
          cases parsed with
          | none => exact (hevict ▸ List.prefix_refl _)
          | some ch =>
            dsimp only
            cases fetchToken crates (up.token i) with
            | error e => exact (hevict ▸ List.prefix_append _ _)
            | ok fresh => exact (hevict ▸ List.prefix_append _ _)

/-- What a turn leaves is the beginning of what the loop leaves. -/
theorem loop_cons_prefix (crates : PullCrates) (up : Upstream) (call : PullCall) (i : ℕ) (x : Pull)
    {rest : List ℕ}
    (hrest : ∀ x, x.sent <+: (loop crates up call rest x).1.sent ∧
      x.tokensAsked <+: (loop crates up call rest x).1.tokensAsked) :
    x.sent ++ [(call.request x.token, up.answer i)] <+:
        (loop crates up call (i :: rest) x).1.sent ∧
      x.tokensAsked <+: (loop crates up call (i :: rest) x).1.tokensAsked := by
  have hsent := turn_sent crates up call x i
  have hasked := turn_asked crates up call x i
  unfold loop
  generalize turn crates up call i x = p at hsent hasked
  obtain ⟨y, outcome⟩ := p
  dsimp only at hsent hasked
  rw [← hsent]
  cases outcome with
  | none => exact ⟨(hrest y).1, hasked.trans (hrest y).2⟩
  | some outcome => exact ⟨List.prefix_refl _, hasked⟩

/-- The loop only adds to what was sent and asked for before it. -/
theorem loop_prefix (crates : PullCrates) (up : Upstream) (call : PullCall) (attempts : List ℕ)
    (x : Pull) :
    x.sent <+: (loop crates up call attempts x).1.sent ∧
      x.tokensAsked <+: (loop crates up call attempts x).1.tokensAsked := by
  induction attempts generalizing x with
  | nil => exact ⟨List.prefix_refl _, List.prefix_refl _⟩
  | cons i rest ih =>
    have hcons := loop_cons_prefix crates up call i x ih
    exact ⟨(List.prefix_append _ _).trans hcons.1, hcons.2⟩

end Pull

/-- The answers a pull got so far are those of `up`. -/
structure Upstream.Gave (up : Upstream) (t : PullTask) : Prop where
  answer : ∀ k p, t.sent[k]? = some p → up.answer k = p.2
  token : ∀ k p, t.asked[k]? = some p → up.token k = p.2

namespace PullTask

variable {crates : PullCrates} {up : Upstream} {tokens tokens' : DashMap TokenKey String}
  {t t' : PullTask} {inp : PullInput}

/-- The requests of a pull are numbered by its attempts, of which there are three. -/
def Counted (t : PullTask) : Prop :=
  match t.stage with
  | .start => t.sent = [] ∧ t.asked = []
  | .sending n => n < 3 ∧ t.sent.length = n ∧ t.asked.length = n
  | .fetching n _ => n < 3 ∧ t.sent.length = n + 1 ∧ t.asked.length = n
  | .done _ => t.sent.length ≤ 3 ∧ t.asked.length ≤ 3

/-- The locals of a pull, over some cache. -/
def locals (tokens : DashMap TokenKey String) (t : PullTask) : Pull where
  tokens := tokens
  token := t.token
  hadCached := t.hadCached
  sent := t.sent
  tokensAsked := t.asked.map Prod.fst

/-- How a pull goes on from where it is when no other moves. -/
def resume (crates : PullCrates) (up : Upstream) (tokens : DashMap TokenKey String)
    (t : PullTask) : Pull × PullOutcome :=
  match t.stage with
  | .start => upstreamPullRequest crates up t.call tokens
  | .sending n => Pull.loop crates up t.call (List.range' n (3 - n)) (t.locals tokens)
  | .fetching n ch =>
    let x := t.locals tokens
    let x := { x with tokensAsked := x.tokensAsked ++ [t.tokenRequest crates ch] }
    match fetchToken crates (up.token n) with
    | .error e => (x, .error e)
    | .ok fresh =>
      Pull.loop crates up t.call (List.range' (n + 1) (3 - (n + 1)))
        { x with tokens := x.tokens.insert t.call.tokenKey fresh, token := some fresh }
  | .done outcome => (t.locals tokens, outcome)

/-- Under way, a pull goes on in the same way over any cache. -/
theorem resume_alike (crates : PullCrates) (up : Upstream) (hst : t.stage ≠ .start)
    (tokens tokens' : DashMap TokenKey String) :
    Pull.Alike (t.resume crates up tokens) (t.resume crates up tokens') := by
  have hlocals : Pull.Agree (t.locals tokens) (t.locals tokens') := ⟨rfl, rfl, rfl, rfl⟩
  unfold resume
  cases hstage : t.stage with
  | start => exact absurd hstage hst
  | sending n => exact hlocals.loop _
  | fetching n ch =>
    dsimp only
    cases fetchToken crates (up.token n) with
    | error e => exact ⟨⟨rfl, rfl, rfl, rfl⟩, rfl⟩
    | ok fresh =>
      dsimp only
      apply Pull.Agree.loop
      exact ⟨rfl, rfl, rfl, rfl⟩
  | done outcome => exact ⟨hlocals, rfl⟩

/-- The loop over the attempts that are left takes its first turn. -/
theorem loop_attempts {n : ℕ} (hn : n < 3) (crates : PullCrates) (up : Upstream) (call : PullCall)
    (x : Pull) : Pull.loop crates up call (List.range' n (3 - n)) x =
      match Pull.turn crates up call n x with
      | (x, some outcome) => (x, outcome)
      | (x, none) => Pull.loop crates up call (List.range' (n + 1) (3 - (n + 1))) x := by
  obtain ⟨m, hm⟩ : ∃ m, 3 - n = m + 1 := ⟨2 - n, by omega⟩
  rw [hm, List.range'_succ, show 3 - (n + 1) = m by omega]
  rfl

theorem send_locals (n : ℕ) (tokens : DashMap TokenKey String) :
    Pull.send up t.call n (t.locals tokens) =
      ({ t with sent := t.sent ++ [(t.request, up.answer n)] } : PullTask).locals tokens := rfl

theorem evictCached_locals (resp : PullResponse) (tokens : DashMap TokenKey String) :
    Pull.evictCached t.call
        (({ t with sent := t.sent ++ [(t.request, .ok resp)] } : PullTask).locals tokens) =
      ({ t with hadCached := false, sent := t.sent ++ [(t.request, .ok resp)] } : PullTask).locals
        (if t.hadCached then tokens.erase t.call.tokenKey else tokens) := by
  unfold Pull.evictCached locals
  cases t.hadCached <;> rfl

/-- The answer of upstream takes a pull on along its own loop. -/
theorem resume_answered (crates : PullCrates) (up : Upstream) {n : ℕ}
    (hst : t.stage = .sending n) (hn : n < 3)
    (tokens : DashMap TokenKey String) :
    (t.answered tokens n (up.answer n)).2.resume crates up (t.answered tokens n (up.answer n)).1 =
        t.resume crates up tokens := by
  have hgoes : t.resume crates up tokens =
      Pull.loop crates up t.call (List.range' n (3 - n)) (t.locals tokens) := by
    simp only [resume, hst]
  rw [hgoes, loop_attempts hn]
  unfold answered Pull.turn
  rw [send_locals]
  cases up.answer n with
  | error e => rfl
  | ok resp =>
    dsimp only
    by_cases hstatus : resp.status = 401
    · simp only [hstatus, ne_eq, not_true, if_false]
      rw [evictCached_locals]
      cases resp.wwwAuthenticate with
      | none => rfl
      | some www =>
        dsimp only
        cases parseBearerChallenge www with
        | none => rfl
        | some parsed =>
          cases parsed with
          | none => rfl
          | some ch =>
            unfold resume
            dsimp only
            cases fetchToken crates (up.token n) with
            | error e => rfl
            | ok fresh => rfl
    · simp only [ne_eq, hstatus, not_false_eq_true, if_true]
      rfl

/-- So does the answer of the token endpoint. -/
theorem resume_fetched (crates : PullCrates) (up : Upstream) {n : ℕ} {ch : BearerChallenge}
    (hst : t.stage = .fetching n ch)
    (tokens : DashMap TokenKey String) :
    (t.fetched crates tokens n ch (up.token n)).2.resume crates up
        (t.fetched crates tokens n ch (up.token n)).1 = t.resume crates up tokens := by
  have hasked (answer : Except String TokenAnswer) (stage : PullStage)
      (tokens : DashMap TokenKey String) (token : Option String) :
      ({ t with token, asked := t.asked ++ [(t.tokenRequest crates ch, answer)], stage } :
        PullTask).locals tokens =
      { t.locals tokens with
        token, tokensAsked := (t.locals tokens).tokensAsked ++ [t.tokenRequest crates ch] } := by
    simp [locals]
  unfold fetched resume
  rw [hst]
  dsimp only
  cases fetchToken crates (up.token n) with
  | error e =>
    dsimp only
    rw [hasked]
    rfl
  | ok fresh =>
    dsimp only [attemptStage]
    by_cases hnext : n + 1 < 3
    · simp only [hnext, if_true]
      rw [hasked]
      rfl
    · obtain hleft : 3 - (n + 1) = 0 := by omega
      simp only [hnext, if_false, hleft]
      rw [hasked]
      rfl

/-- The answer of upstream ends a pull or, if it is a 401 with a Bearer challenge, sends it to
the token endpoint. At most the token of the pull's own key leaves the cache. -/
structure Answered (tokens tokens' : DashMap TokenKey String) (n : ℕ)
    (answer : Except String PullResponse) (t t' : PullTask) : Prop where
  call : t'.call = t.call
  token : t'.token = t.token
  sent : t'.sent = t.sent ++ [(t.request, answer)]
  asked : t'.asked = t.asked
  cache : tokens' = tokens ∨ tokens' = tokens.erase t.call.tokenKey
  stage : (∃ outcome, t'.stage = .done outcome) ∨
    ∃ resp www ch, answer = .ok resp ∧ resp.status = 401 ∧ resp.wwwAuthenticate = some www ∧
      parseBearerChallenge www = some (some ch) ∧ t'.stage = .fetching n ch

theorem answered_spec (tokens : DashMap TokenKey String) (n : ℕ)
    (answer : Except String PullResponse) (t : PullTask) :
    Answered tokens (t.answered tokens n answer).1 n answer t (t.answered tokens n answer).2 := by
  have hcache : (if t.hadCached then tokens.erase t.call.tokenKey else tokens) = tokens ∨
      (if t.hadCached then tokens.erase t.call.tokenKey else tokens) =
        tokens.erase t.call.tokenKey := by
    cases t.hadCached
    · exact .inl rfl
    · exact .inr rfl
  unfold answered
  cases answer with
  | error e => exact ⟨rfl, rfl, rfl, rfl, .inl rfl, .inl ⟨_, rfl⟩⟩
  | ok resp =>
    dsimp only
    by_cases hstatus : resp.status = 401
    · simp only [hstatus, ne_eq, not_true, if_false]
      cases hwww : resp.wwwAuthenticate with
      | none => exact ⟨rfl, rfl, rfl, rfl, hcache, .inl ⟨_, rfl⟩⟩
      | some www =>
        dsimp only
        cases hparse : parseBearerChallenge www with
        | none => exact ⟨rfl, rfl, rfl, rfl, hcache, .inl ⟨_, rfl⟩⟩
        | some parsed =>
          cases parsed with
          | none => exact ⟨rfl, rfl, rfl, rfl, hcache, .inl ⟨_, rfl⟩⟩
          | some ch =>
            exact ⟨rfl, rfl, rfl, rfl, hcache, .inr ⟨resp, www, ch, rfl, hstatus, hwww, hparse, rfl⟩⟩
    · simp only [ne_eq, hstatus, not_false_eq_true, if_true]
      exact ⟨rfl, rfl, rfl, rfl, .inl rfl, .inl ⟨_, rfl⟩⟩

/-- The answer of the token endpoint ends a pull or is the token of its next request. -/
structure Fetched (crates : PullCrates) (tokens tokens' : DashMap TokenKey String) (n : ℕ)
    (ch : BearerChallenge) (answer : Except String TokenAnswer) (t t' : PullTask) : Prop where
  call : t'.call = t.call
  sent : t'.sent = t.sent
  asked : t'.asked = t.asked ++ [(t.tokenRequest crates ch, answer)]
  outcome : (t'.token = t.token ∧ tokens' = tokens ∧ ∃ outcome, t'.stage = .done outcome) ∨
    ∃ fresh, fetchToken crates answer = .ok fresh ∧ t'.token = some fresh ∧
      tokens' = tokens.insert t.call.tokenKey fresh ∧ t'.stage = attemptStage (n + 1)

theorem fetched_spec (crates : PullCrates) (tokens : DashMap TokenKey String) (n : ℕ)
    (ch : BearerChallenge) (answer : Except String TokenAnswer) (t : PullTask) :
    Fetched crates tokens (t.fetched crates tokens n ch answer).1 n ch answer t
      (t.fetched crates tokens n ch answer).2 := by
  unfold fetched
  cases hfetch : fetchToken crates answer with
  | error e => exact ⟨rfl, rfl, rfl, .inl ⟨rfl, rfl, _, rfl⟩⟩
  | ok fresh => exact ⟨rfl, rfl, rfl, .inr ⟨fresh, hfetch, rfl, rfl, rfl⟩⟩

/-- What a step of a pull can be. -/
theorem next_cases (hs : t.next crates tokens inp = some (tokens', t')) :
    (t.stage = .start ∧ tokens' = tokens ∧ t' = t.begin tokens) ∨
    (∃ n, t.stage = .sending n ∧ t.answered tokens n inp.answer = (tokens', t') ∧
      Answered tokens tokens' n inp.answer t t') ∨
    ∃ n ch, t.stage = .fetching n ch ∧ t.fetched crates tokens n ch inp.token = (tokens', t') ∧
      Fetched crates tokens tokens' n ch inp.token t t' := by
  unfold next at hs
  cases hst : t.stage with
  | start =>
    rw [hst] at hs
    obtain ⟨rfl, rfl⟩ := Prod.mk.inj (Option.some.inj hs)
    exact .inl ⟨rfl, rfl, rfl⟩
  | sending n =>
    rw [hst] at hs
    have hspec := answered_spec tokens n inp.answer t
    rw [Option.some.inj hs] at hspec
    exact .inr (.inl ⟨n, rfl, Option.some.inj hs, hspec⟩)
  | fetching n ch =>
    rw [hst] at hs
    have hspec := fetched_spec crates tokens n ch inp.token t
    rw [Option.some.inj hs] at hspec
    exact .inr (.inr ⟨n, ch, rfl, Option.some.inj hs, hspec⟩)
  | done outcome =>
    rw [hst] at hs
    cases hs

theorem attemptStage_ne_start (n : ℕ) : attemptStage n ≠ .start := by
  unfold attemptStage
  split <;> simp

theorem next_ne_start (hs : t.next crates tokens inp = some (tokens', t')) :
    t'.stage ≠ .start ∧ t'.call = t.call := by
  obtain ⟨-, rfl, rfl⟩ | ⟨n, -, -, hspec⟩ | ⟨n, ch, -, -, hspec⟩ := next_cases hs
  · exact ⟨by simp [PullTask.begin], rfl⟩
  · obtain ⟨outcome, hst⟩ | ⟨resp, www, ch, -, -, -, -, hst⟩ := hspec.stage
    · exact ⟨by simp [hst], hspec.call⟩
    · exact ⟨by simp [hst], hspec.call⟩
  · obtain ⟨-, -, outcome, hst⟩ | ⟨fresh, -, -, -, hst⟩ := hspec.outcome
    · exact ⟨by simp [hst], hspec.call⟩
    · exact ⟨hst ▸ attemptStage_ne_start (n + 1), hspec.call⟩

theorem Counted.next (h : t.Counted) (hs : t.next crates tokens inp = some (tokens', t')) :
    t'.Counted := by
  unfold Counted at h
  obtain ⟨hst, rfl, rfl⟩ | ⟨n, hst, -, hspec⟩ | ⟨n, ch, hst, -, hspec⟩ := next_cases hs
  · simp only [hst] at h
    simp [Counted, PullTask.begin, h.1, h.2]
  · simp only [hst] at h
    have hsent : t'.sent.length = t.sent.length + 1 := by simp [hspec.sent]
    have hasked : t'.asked.length = t.asked.length := by simp [hspec.asked]
    obtain ⟨outcome, hst'⟩ | ⟨resp, www, ch, -, -, -, -, hst'⟩ := hspec.stage
    · simp only [Counted, hst']
      omega
    · simp only [Counted, hst']
      omega
  · simp only [hst] at h
    have hsent : t'.sent.length = t.sent.length := by simp [hspec.sent]
    have hasked : t'.asked.length = t.asked.length + 1 := by simp [hspec.asked]
    obtain ⟨-, -, outcome, hst'⟩ | ⟨fresh, -, -, -, hst'⟩ := hspec.outcome
    · simp only [Counted, hst']
      omega
    · unfold attemptStage at hst'
      split at hst' <;> simp only [Counted, hst'] <;> omega

/-- A record with one more answer. -/
theorem get_of_concat {α : Type*} {l l' : List α} {a : α} {n : ℕ} (h : l' = l ++ [a])
    (hn : l.length = n) : (∀ (k : ℕ) p, l[k]? = some p → l'[k]? = some p) ∧ l'[n]? = some a := by
  subst h hn
  refine ⟨fun k p hp => ?_, by simp⟩
  rw [List.getElem?_append_left (List.getElem?_eq_some_iff.mp hp).1]
  exact hp

/-- A step keeps the course of a pull, as long as no other moves. -/
theorem resume_next (h : t.Counted) (hs : t.next crates tokens inp = some (tokens', t'))
    (hup : up.Gave t') :
    up.Gave t ∧ t'.resume crates up tokens' = t.resume crates up tokens := by
  unfold Counted at h
  obtain ⟨hst, rfl, rfl⟩ | ⟨n, hst, he, hspec⟩ | ⟨n, ch, hst, he, hspec⟩ := next_cases hs
  · simp only [hst] at h
    refine ⟨⟨hup.answer, hup.token⟩, ?_⟩
    have hstart : (t.begin tokens').locals tokens' = Pull.start t.call tokens' := by
      simp [locals, Pull.start, PullTask.begin, h.1, h.2]
    simp only [resume, hst, upstreamPullRequest, ← hstart]
    rfl
  · simp only [hst] at h
    obtain ⟨hn, hsent, -⟩ := h
    have hold := get_of_concat hspec.sent hsent
    have hans : up.answer n = inp.answer := hup.answer n _ hold.2
    have hnext := resume_answered crates up hst hn tokens
    rw [hans, he] at hnext
    exact ⟨⟨fun k p hp => hup.answer k p (hold.1 k p hp), hspec.asked ▸ hup.token⟩, hnext⟩
  · simp only [hst] at h
    obtain ⟨hn, -, hasked⟩ := h
    have hold := get_of_concat hspec.asked hasked
    have hans : up.token n = inp.token := hup.token n _ hold.2
    have hnext := resume_fetched crates up hst tokens
    rw [hans, he] at hnext
    exact ⟨⟨hspec.sent ▸ hup.answer, fun k p hp => hup.token k p (hold.1 k p hp)⟩, hnext⟩

/-- What a pull has sent so far is the beginning of what it sends in all. -/
theorem requests_resume (crates : PullCrates) (up : Upstream)
    (tokens : DashMap TokenKey String) (hst : t.stage ≠ .start) (hn : t.Counted) :
    t.requests <+: (t.resume crates up tokens).1.sent.map Prod.fst ∧
      t.tokenRequests crates <+: (t.resume crates up tokens).1.tokensAsked := by
  unfold Counted at hn
  unfold requests tokenRequests resume
  cases hstage : t.stage with
  | start => exact absurd hstage hst
  | sending n =>
    simp only [hstage] at hn
    obtain ⟨m, hm⟩ : ∃ m, 3 - n = m + 1 := ⟨2 - n, by omega⟩
    have hloop := Pull.loop_cons_prefix crates up t.call n (t.locals tokens)
      (Pull.loop_prefix crates up t.call (List.range' (n + 1) m))
    dsimp only
    rw [hm, List.range'_succ, List.append_nil]
    have hsent := hloop.1.map Prod.fst
    rw [List.map_append] at hsent
    exact ⟨hsent, hloop.2⟩
  | fetching n ch =>
    dsimp only
    rw [List.append_nil]
    cases fetchToken crates (up.token n) with
    | error e => exact ⟨List.prefix_refl _, List.prefix_refl _⟩
    | ok fresh =>
      have hloop := Pull.loop_prefix crates up t.call
        (List.range' (n + 1) (3 - (n + 1)))
        { t.locals tokens with
          tokens := (t.locals tokens).tokens.insert t.call.tokenKey fresh
          token := some fresh
          tokensAsked := (t.locals tokens).tokensAsked ++ [t.tokenRequest crates ch] }
      exact ⟨hloop.1.map Prod.fst, hloop.2⟩
  | done outcome => simp [locals]

end PullTask

namespace PullSys

variable {crates : PullCrates} {s s' : PullSys} {e : PullEvent} {i : ℕ}

/-- What a step of the system does to the pulls: one is added or one moves. -/
theorem step_cases (hs : s.step crates e = some s') :
    (∃ call, e = .call call ∧ s' = { s with tasks := s.tasks ++ [{ call }] }) ∨
    ∃ i inp t t', e = .step i inp ∧ s.tasks[i]? = some t ∧
      t.next crates s.tokens inp = some (s'.tokens, t') ∧ s'.tasks = s.tasks.set i t' := by
  cases e with
  | call call =>
    obtain rfl := Option.some.inj hs
    exact .inl ⟨call, rfl, rfl⟩
  | step i inp =>
    simp only [step] at hs
    cases ht : s.tasks[i]? with
    | none =>
      rw [ht] at hs
      cases hs
    | some t =>
      rw [ht] at hs
      obtain ⟨⟨tokens, t'⟩, hnext, rfl⟩ := Option.map_eq_some_iff.mp hs
      exact .inr ⟨i, inp, t, t', rfl, ht, hnext, rfl⟩

/-- Pull `i` goes on as it would have gone on alone from its first step. -/
def Course (crates : PullCrates) (visited : List (PullSys × PullEvent)) (i : ℕ) (t : PullTask) :
    Prop :=
  ∃ m inp, (m, .step i inp) ∈ visited ∧ (∃ t₀, m.tasks[i]? = some t₀ ∧ t₀.stage = .start) ∧
    ∀ up, up.Gave t → Pull.Alike (t.resume crates up m.tokens)
      (upstreamPullRequest crates up t.call m.tokens)

theorem Course.mono {visited : List (PullSys × PullEvent)} {t : PullTask}
    (h : Course crates visited i t) (later : List (PullSys × PullEvent)) :
    Course crates (visited ++ later) i t := by
  obtain ⟨m, inp, hm, hrest⟩ := h
  exact ⟨m, inp, List.mem_append_left _ hm, hrest⟩

/-- Each pull that has looked into the cache keeps its course. -/
def AsAlone (crates : PullCrates) (visited : List (PullSys × PullEvent)) (s : PullSys) : Prop :=
  ∀ i t, s.tasks[i]? = some t →
    t.Counted ∧ (t.stage ≠ .start → Course crates visited i t)

theorem AsAlone.step {visited : List (PullSys × PullEvent)} (h : AsAlone crates visited s)
    (hs : s.step crates e = some s') : AsAlone crates (visited ++ visits s e) s' := by
  intro k u hu
  have hkept (hu : s.tasks[k]? = some u) :
      u.Counted ∧ (u.stage ≠ .start → Course crates (visited ++ visits s e) k u) :=
    ⟨(h k u hu).1, fun hst => ((h k u hu).2 hst).mono _⟩
  obtain ⟨call, rfl, rfl⟩ | ⟨i, inp, t, t', rfl, ht, hnext, htasks⟩ := step_cases hs
  · rcases getElem?_of_concat hu with hu | ⟨-, rfl⟩
    · exact hkept hu
    · exact ⟨⟨rfl, rfl⟩, fun hst => absurd rfl hst⟩
  rw [htasks] at hu
  rcases getElem?_of_set hu with ⟨rfl, rfl⟩ | ⟨-, hu⟩
  swap
  · exact hkept hu
  obtain ⟨hcounted, halone⟩ := h k t ht
  refine ⟨hcounted.next hnext, fun hst' => ?_⟩
  have hcall := (PullTask.next_ne_start hnext).2
  by_cases hst : t.stage = .start
  · -- its first step
    refine ⟨s, inp, List.mem_append_right _ List.mem_cons_self, ⟨t, ht, hst⟩, fun up hup => ?_⟩
    obtain ⟨-, hresume⟩ := PullTask.resume_next hcounted hnext hup
    have hstart : t.resume crates up s.tokens = upstreamPullRequest crates up t.call s.tokens := by
      simp only [PullTask.resume, hst]
    rw [hcall, ← hstart, ← hresume]
    exact PullTask.resume_alike crates up hst' _ _
  · obtain ⟨m, inp', hm, hfirst, hsame⟩ := halone hst
    refine ⟨m, inp', List.mem_append_left _ hm, hfirst, fun up hup => ?_⟩
    obtain ⟨hgave, hresume⟩ := PullTask.resume_next hcounted hnext hup
    have hon := (PullTask.resume_alike crates up hst' m.tokens s'.tokens).trans
      (hresume ▸ PullTask.resume_alike crates up hst s.tokens m.tokens)
    exact hcall ▸ hon.trans (hsame up hgave)

end PullSys

/-- Between the requests of any number of other pulls, a pull does what it would do alone: from
the cache it found at its first step it makes the same requests of upstream and of the token
endpoint, and comes back with the same outcome. -/
theorem pull_as_if_alone (crates : PullCrates) {events : List PullEvent} {s : PullSys}
    (hr : run (PullSys.step crates) .init events = some s) {i : ℕ} {t : PullTask}
    (ht : s.tasks[i]? = some t) (hst : t.stage ≠ .start) :
    ∃ pre inp post m, events = pre ++ .step i inp :: post ∧
      run (PullSys.step crates) .init pre = some m ∧
      (∃ t₀, m.tasks[i]? = some t₀ ∧ t₀.stage = .start) ∧
      ∀ up, up.Gave t →
        t.requests <+: (upstreamPullRequest crates up t.call m.tokens).1.sent.map Prod.fst ∧
        t.tokenRequests crates <+: (upstreamPullRequest crates up t.call m.tokens).1.tokensAsked ∧
        ∀ outcome, t.stage = .done outcome →
          (upstreamPullRequest crates up t.call m.tokens).2 = outcome ∧
          (upstreamPullRequest crates up t.call m.tokens).1.sent = t.sent ∧
          (upstreamPullRequest crates up t.call m.tokens).1.tokensAsked = t.tokenRequests crates := by
  have hinv := run_trace (I := PullSys.AsAlone crates)
    (fun _ _ _ _ h hs => h.step hs) (h := []) (s := .init) (by
      intro i t ht
      cases ht) hr
  obtain ⟨hcounted, halone⟩ := hinv i t ht
  obtain ⟨m, inp, hm, hfirst, hsame⟩ := halone hst
  obtain ⟨pre, post, hes, hpre⟩ := exists_of_mem_visits hm
  refine ⟨pre, inp, post, m, hes, hpre, hfirst, fun up hup => ?_⟩
  have halike := hsame up hup
  have hbegin := t.requests_resume crates up m.tokens hst hcounted
  rw [halike.sent, halike.tokensAsked] at hbegin
  refine ⟨hbegin.1, hbegin.2, fun outcome hdone => ?_⟩
  have hresume : t.resume crates up m.tokens = (t.locals m.tokens, outcome) := by
    simp only [PullTask.resume, hdone]
  rw [hresume] at halike
  refine ⟨halike.outcome.symm, halike.sent.symm, halike.tokensAsked.symm.trans ?_⟩
  simp [PullTask.locals, PullTask.tokenRequests, hdone]

/-- Two pulls for one repository: each is sent to the token endpoint, the second takes its token
out of the cache of the first, and upstream spurns it. -/
def pullsBeside : List PullEvent :=
  [.call bareCall, .step 0 {}, .step 0 { answer := bareUpstream.answer 0 }, .call bareCall,
    .step 0 { token := bareUpstream.token 0 }, .step 1 {},
    .step 0 { answer := .ok ⟨200, none⟩ }, .step 1 { answer := bareUpstream.answer 1 }]

theorem pull_as_if_alone_beside :
    ∃ s t, run (PullSys.step bareCrates) .init pullsBeside = some s ∧ s.tasks[1]? = some t ∧
      t.stage = .done (.ok ⟨401, none⟩) ∧
      ∃ pre inp post m, pullsBeside = pre ++ .step 1 inp :: post ∧
        run (PullSys.step bareCrates) .init pre = some m ∧
        ∀ up, up.Gave t →
          (upstreamPullRequest bareCrates up t.call m.tokens).2 = .ok ⟨401, none⟩ := by
  have hrun : (run (PullSys.step bareCrates) .init pullsBeside).bind (fun s => s.tasks[1]?.map
      PullTask.stage) = some (.done (.ok ⟨401, none⟩)) := by rfl
  obtain ⟨s, hr, hs⟩ := Option.bind_eq_some_iff.mp hrun
  obtain ⟨t, ht, hdone⟩ := Option.map_eq_some_iff.mp hs
  obtain ⟨pre, inp, post, m, hes, hpre, -, halone⟩ :=
    pull_as_if_alone bareCrates hr ht (by rw [hdone]; simp)
  exact ⟨s, t, hr, ht, hdone, pre, inp, post, m, hes, hpre,
    fun up hup => ((halone up hup).2.2 _ hdone).1⟩

end Dockfoxprox

import Dockfoxprox.Proofs.Pulls

/-! Where credentials go. The token cache is shared by the pulls for all registries, and a token
is sent on by pulls that never saw the challenge it was issued for. Each token stays with the
host and the repository whose challenge it answered, and the configured password of a registry
goes to that registry and to the realms it names. -/

namespace Dockfoxprox

open Machine

namespace PullTask

variable {crates : PullCrates} {tokens tokens' : DashMap TokenKey String} {t t' : PullTask}
  {inp : PullInput} {k : ℕ} {ch : BearerChallenge} {tok : String}

/-- The host answered request `k` with a Bearer challenge. -/
def Challenged (t : PullTask) (k : ℕ) (ch : BearerChallenge) : Prop :=
  ∃ req resp www, t.sent[k]? = some (req, .ok resp) ∧ resp.status = 401 ∧
    resp.wwwAuthenticate = some www ∧ parseBearerChallenge www = some (some ch)

/-- The token endpoint handed the token out for a challenge of the host. -/
def Obtained (crates : PullCrates) (t : PullTask) (tok : String) : Prop :=
  ∃ k ch answer, t.Challenged k ch ∧ t.asked[k]? = some (t.tokenRequest crates ch, answer) ∧
    fetchToken crates answer = .ok tok

/-- A later stage of the same pull. -/
structure Grows (t t' : PullTask) : Prop where
  call : t'.call = t.call
  sent : t.sent <+: t'.sent
  asked : t.asked <+: t'.asked

theorem grows_next (hs : t.next crates tokens inp = some (tokens', t')) : Grows t t' := by
  obtain ⟨-, rfl, rfl⟩ | ⟨n, -, -, hspec⟩ | ⟨n, ch, -, -, hspec⟩ := next_cases hs
  · exact ⟨rfl, List.prefix_refl _, List.prefix_refl _⟩
  · exact ⟨hspec.call, hspec.sent ▸ List.prefix_append _ _, hspec.asked ▸ List.prefix_refl _⟩
  · exact ⟨hspec.call, hspec.sent ▸ List.prefix_refl _, hspec.asked ▸ List.prefix_append _ _⟩

theorem get_of_prefix {α : Type*} {l l' : List α} {a : α} (h : l <+: l') (hk : l[k]? = some a) :
    l'[k]? = some a := by
  obtain ⟨later, rfl⟩ := h
  rw [List.getElem?_append_left (List.getElem?_eq_some_iff.mp hk).1]
  exact hk

theorem Challenged.mono (h : t.Challenged k ch) (hg : Grows t t') : t'.Challenged k ch := by
  obtain ⟨req, resp, www, hsent, hrest⟩ := h
  exact ⟨req, resp, www, get_of_prefix hg.sent hsent, hrest⟩

theorem Obtained.mono (h : t.Obtained crates tok) (hg : Grows t t') : t'.Obtained crates tok := by
  obtain ⟨k, ch, answer, hch, hasked, hfetch⟩ := h
  refine ⟨k, ch, answer, hch.mono hg, ?_, hfetch⟩
  rw [tokenRequest, hg.call]
  exact get_of_prefix hg.asked hasked

theorem attemptStage_ne_fetching (n m : ℕ) (ch : BearerChallenge) :
    attemptStage n ≠ .fetching m ch := by
  unfold attemptStage
  split <;> simp

theorem Counted.requests (h : t.Counted) :
    t.requests.length ≤ 3 ∧ (t.tokenRequests crates).length ≤ 3 := by
  unfold Counted at h
  unfold PullTask.requests tokenRequests
  cases hst : t.stage with
  | start => simp only [hst] at h; simp [h.1, h.2]
  | sending n =>
    simp only [hst] at h
    simp only [List.length_append, List.length_map, List.length_singleton, List.length_nil]
    omega
  | fetching n ch =>
    simp only [hst] at h
    simp only [List.length_append, List.length_map, List.length_singleton, List.length_nil]
    omega
  | done outcome =>
    simp only [hst] at h
    simpa using h

/-- A token that has just been fetched answers the challenge the pull was at. -/
theorem Fetched.obtained {n : ℕ} {answer : Except String TokenAnswer}
    (h : Fetched crates tokens tokens' n ch answer t t') (hn : t.asked.length = n)
    (hch : t.Challenged n ch) (hfetch : fetchToken crates answer = .ok tok) :
    t'.Obtained crates tok := by
  refine ⟨n, ch, answer, ?_, ?_, hfetch⟩
  · obtain ⟨req, resp, www, hsent, hrest⟩ := hch
    exact ⟨req, resp, www, h.sent ▸ hsent, hrest⟩
  · rw [tokenRequest, h.call]
    exact (get_of_concat h.asked hn).2

end PullTask

namespace PullSys

variable {crates : PullCrates} {s s' : PullSys} {e : PullEvent} {key : TokenKey} {tok : String}

/-- Some pull for this host and repository obtained the token. -/
def Granted (crates : PullCrates) (s : PullSys) (key : TokenKey) (tok : String) : Prop :=
  ∃ t ∈ s.tasks, t.call.tokenKey = key ∧ t.Obtained crates tok

/-- The key of the cache tells hosts and repositories apart. -/
theorem tokenKey_inj {c c' : PullCall} (h : c.tokenKey = c'.tokenKey) :
    c.upstreamHost = c'.upstreamHost ∧ c.name = c'.name := by
  obtain ⟨hhost, hscope⟩ := TokenKey.mk.inj h
  refine ⟨hhost, String.toList_inj.mp ?_⟩
  have := congrArg String.toList hscope
  simpa [String.toList_append] using this

/-- What a pull holds and sends is accounted for. -/
structure Backed (crates : PullCrates) (s : PullSys) (t : PullTask) : Prop where
  counted : t.Counted
  token : ∀ tok, t.token = some tok → s.Granted crates t.call.tokenKey tok
  sent : ∀ p ∈ t.sent, ∃ token, p.1 = t.call.request token ∧
    ∀ tok, token = some tok → s.Granted crates t.call.tokenKey tok
  asked : ∀ p ∈ t.asked, ∃ k ch, t.Challenged k ch ∧ p.1 = t.call.tokenRequest crates ch
  fetching : ∀ n ch, t.stage = .fetching n ch → t.Challenged n ch

/-- No token is cached or held but for the host and the repository it was obtained for. -/
structure Confined (crates : PullCrates) (s : PullSys) : Prop where
  cached : ∀ key tok, s.tokens.lookup key = some tok → s.Granted crates key tok
  task : ∀ t ∈ s.tasks, s.Backed crates t

theorem Backed.mono {t : PullTask} (h : s.Backed crates t)
    (hg : ∀ key tok, s.Granted crates key tok → s'.Granted crates key tok) :
    s'.Backed crates t where
  counted := h.counted
  token tok htok := hg _ _ (h.token tok htok)
  sent p hp := by
    obtain ⟨token, hreq, htok⟩ := h.sent p hp
    exact ⟨token, hreq, fun tok he => hg _ _ (htok tok he)⟩
  asked := h.asked
  fetching := h.fetching

theorem granted_step (hs : s.step crates e = some s') (h : s.Granted crates key tok) :
    s'.Granted crates key tok := by
  obtain ⟨t, hmem, hkey, hobtained⟩ := h
  obtain ⟨call, rfl, rfl⟩ | ⟨i, inp, u, u', rfl, hu, hnext, htasks⟩ := step_cases hs
  · exact ⟨t, List.mem_append_left _ hmem, hkey, hobtained⟩
  obtain ⟨k, hk, rfl⟩ := List.mem_iff_getElem.mp hmem
  by_cases hik : i = k
  · subst hik
    obtain ⟨hlt, rfl⟩ := List.getElem?_eq_some_iff.mp hu
    have hg := PullTask.grows_next hnext
    refine ⟨u', ?_, hg.call ▸ hkey, hobtained.mono hg⟩
    rw [htasks]
    exact List.mem_set hk u'
  · refine ⟨_, ?_, hkey, hobtained⟩
    rw [htasks]
    exact List.mem_iff_getElem.mpr ⟨k, by simpa using hk, List.getElem_set_ne hik _⟩

theorem Backed.fresh (call : PullCall) : s.Backed crates { call } where
  counted := ⟨rfl, rfl⟩
  token tok h := by cases h
  sent p h := by cases h
  asked p h := by cases h
  fetching n ch h := by cases h

/-- What a step leaves in the cache was obtained for its key. -/
theorem cached_next (h : s.Confined crates) {t t' : PullTask} {inp : PullInput} (ht : t ∈ s.tasks)
    (ht' : t' ∈ s'.tasks) (hnext : t.next crates s.tokens inp = some (s'.tokens, t'))
    (hg : ∀ key tok, s.Granted crates key tok → s'.Granted crates key tok)
    (hlookup : s'.tokens.lookup key = some tok) : s'.Granted crates key tok := by
  have hb := h.task t ht
  have hcounted := hb.counted
  unfold PullTask.Counted at hcounted
  obtain ⟨-, htokens, -⟩ | ⟨n, -, -, hspec⟩ | ⟨n, ch, hst, -, hspec⟩ := PullTask.next_cases hnext
  · exact hg _ _ (h.cached key tok (htokens ▸ hlookup))
  · rcases hspec.cache with htokens | htokens
    · exact hg _ _ (h.cached key tok (htokens ▸ hlookup))
    · rw [htokens, MapSum.lookup_erase_apply] at hlookup
      split at hlookup
      · cases hlookup
      · exact hg _ _ (h.cached key tok hlookup)
  · simp only [hst] at hcounted
    obtain ⟨-, htokens, -⟩ | ⟨fresh, hfetch, -, htokens, -⟩ := hspec.outcome
    · exact hg _ _ (h.cached key tok (htokens ▸ hlookup))
    · rw [htokens, MapSum.lookup_insert_apply] at hlookup
      split at hlookup
      · rename_i hkey
        obtain rfl := Option.some.inj hlookup
        exact ⟨t', ht', hspec.call ▸ hkey.symm,
          hspec.obtained hcounted.2.2 (hb.fetching n ch hst) hfetch⟩
      · exact hg _ _ (h.cached key tok hlookup)

/-- What the pull that moves holds and sends is accounted for as well. -/
theorem Backed.next (h : s.Confined crates) {t t' : PullTask} {inp : PullInput} (ht : t ∈ s.tasks)
    (ht' : t' ∈ s'.tasks) (hnext : t.next crates s.tokens inp = some (s'.tokens, t'))
    (hg : ∀ key tok, s.Granted crates key tok → s'.Granted crates key tok) :
    s'.Backed crates t' := by
  have hb := h.task t ht
  have hgrows := PullTask.grows_next hnext
  have hcounted := hb.counted
  unfold PullTask.Counted at hcounted
  have hkept (p : PullRequest × Except String PullResponse) (hp : p ∈ t.sent) :
      ∃ token, p.1 = t'.call.request token ∧
        ∀ tok, token = some tok → s'.Granted crates t'.call.tokenKey tok := by
    obtain ⟨token, hreq, htok⟩ := hb.sent p hp
    rw [hgrows.call]
    exact ⟨token, hreq, fun tok he => hg _ _ (htok tok he)⟩
  have hasked (p : TokenRequest × Except String TokenAnswer) (hp : p ∈ t.asked) :
      ∃ k ch, t'.Challenged k ch ∧ p.1 = t'.call.tokenRequest crates ch := by
    obtain ⟨k, ch, hch, hreq⟩ := hb.asked p hp
    rw [hgrows.call]
    exact ⟨k, ch, hch.mono hgrows, hreq⟩
  have hheld (he : t'.token = t.token) (tok : String) (htok : t'.token = some tok) :
      s'.Granted crates t'.call.tokenKey tok := by
    rw [hgrows.call]
    exact hg _ _ (hb.token tok (he ▸ htok))
  obtain ⟨hst, htokens, rfl⟩ | ⟨n, hst, -, hspec⟩ | ⟨n, ch, hst, -, hspec⟩ :=
    PullTask.next_cases hnext
  · refine ⟨hb.counted.next hnext, fun tok htok => ?_, hkept, hasked, nofun⟩
    exact hg _ _ (h.cached _ tok htok)
  · simp only [hst] at hcounted
    refine ⟨hb.counted.next hnext, hheld hspec.token, fun p hp => ?_, hspec.asked ▸ hasked,
      fun m ch hst' => ?_⟩
    · rcases List.mem_append.mp (hspec.sent ▸ hp) with hp | hp
      · exact hkept p hp
      · obtain rfl := List.mem_singleton.mp hp
        exact ⟨t.token, by rw [hspec.call]; rfl, fun tok he => hheld hspec.token tok
          (hspec.token.trans he)⟩
    · obtain ⟨outcome, hdone⟩ | ⟨resp, www, ch', hans, hstatus, hwww, hparse, hfetching⟩ :=
        hspec.stage
      · cases hdone.symm.trans hst'
      · obtain ⟨rfl, rfl⟩ := PullStage.fetching.inj (hfetching.symm.trans hst')
        exact ⟨t.request, resp, www, hans ▸ (PullTask.get_of_concat hspec.sent hcounted.2.1).2,
          hstatus, hwww, hparse⟩
  · simp only [hst] at hcounted
    have hch := hb.fetching n ch hst
    refine ⟨hb.counted.next hnext, fun tok htok => ?_, hspec.sent ▸ hkept, fun p hp => ?_,
      fun m ch' hst' => ?_⟩
    · obtain ⟨he, -, -⟩ | ⟨fresh, hfetch, htoken, -, -⟩ := hspec.outcome
      · exact hheld he tok htok
      · obtain rfl := Option.some.inj (htoken.symm.trans htok)
        exact ⟨t', ht', rfl, hspec.obtained hcounted.2.2 hch hfetch⟩
    · rcases List.mem_append.mp (hspec.asked ▸ hp) with hp | hp
      · exact hasked p hp
      · obtain rfl := List.mem_singleton.mp hp
        exact ⟨n, ch, hch.mono hgrows, by rw [hspec.call]; rfl⟩
    · obtain ⟨-, -, outcome, hdone⟩ | ⟨fresh, -, -, -, hnext'⟩ := hspec.outcome
      · cases hdone.symm.trans hst'
      · exact absurd (hnext'.symm.trans hst') (PullTask.attemptStage_ne_fetching _ _ _)

theorem Confined.step (h : s.Confined crates) (hs : s.step crates e = some s') :
    s'.Confined crates := by
  have hg (key : TokenKey) (tok : String) : s.Granted crates key tok → s'.Granted crates key tok :=
    granted_step hs
  have hkept (t : PullTask) (ht : t ∈ s.tasks) : s'.Backed crates t := (h.task t ht).mono hg
  obtain ⟨call, rfl, rfl⟩ | ⟨i, inp, t, t', rfl, ht, hnext, htasks⟩ := step_cases hs
  · refine ⟨fun key tok hk => hg _ _ (h.cached key tok hk), fun u hu => ?_⟩
    rcases List.mem_append.mp hu with hu | hu
    · exact hkept u hu
    · obtain rfl := List.mem_singleton.mp hu
      exact Backed.fresh call
  · have hmem := List.mem_of_getElem? ht
    have hmem' : t' ∈ s'.tasks := by
      rw [htasks]
      exact List.mem_set (List.getElem?_eq_some_iff.mp ht).1 t'
    refine ⟨fun key tok hk => cached_next h hmem hmem' hnext hg hk, ?_⟩
    rw [htasks]
    exact forall_mem_set hkept (Backed.next h hmem hmem' hnext hg)

/-- Every request of a pull is one of its call, with no token or one that was obtained for it. -/
theorem Backed.requests {t : PullTask} (h : s.Backed crates t) :
    ∀ req ∈ t.requests, ∃ token, req = t.call.request token ∧
      ∀ tok, token = some tok → s.Granted crates t.call.tokenKey tok := by
  intro req hreq
  rcases List.mem_append.mp hreq with hreq | hreq
  · obtain ⟨p, hp, rfl⟩ := List.mem_map.mp hreq
    exact h.sent p hp
  · cases hst : t.stage with
    | sending n =>
      rw [hst] at hreq
      obtain rfl := List.mem_singleton.mp hreq
      exact ⟨t.token, rfl, h.token⟩
    | start => simp [hst] at hreq
    | fetching n ch => simp [hst] at hreq
    | done outcome => simp [hst] at hreq

theorem Backed.tokenRequests {t : PullTask} (h : s.Backed crates t) :
    ∀ req ∈ t.tokenRequests crates, ∃ k ch, t.Challenged k ch ∧
      req = t.call.tokenRequest crates ch := by
  intro req hreq
  rcases List.mem_append.mp hreq with hreq | hreq
  · obtain ⟨p, hp, rfl⟩ := List.mem_map.mp hreq
    exact h.asked p hp
  · cases hst : t.stage with
    | fetching n ch =>
      rw [hst] at hreq
      obtain rfl := List.mem_singleton.mp hreq
      exact ⟨n, ch, h.fetching n ch hst, rfl⟩
    | start => simp [hst] at hreq
    | sending n => simp [hst] at hreq
    | done outcome => simp [hst] at hreq

theorem Confined.init (crates : PullCrates) : PullSys.init.Confined crates where
  cached key tok h := by cases h
  task t h := by cases h

/-- Where an `Authorization` header of a pull may go: the password of a registry to the registry
itself, and to the realms that its own challenges name, whatever host these are at; a token to the
registry and the repository for which it was obtained. -/
def Allowed (crates : PullCrates) (s : PullSys) (t : PullTask) (url : String) :
    Option Authorization → Prop
  | none => True
  | some (.basic user pass) =>
    (∃ r ∈ t.call.registries,
      r.url = t.call.upstreamHost ∧ r.username = some user ∧ r.password = some pass) ∧
    (url = t.call.url ∨ ∃ k ch, t.Challenged k ch ∧ url = PullCall.tokenUrl crates ch)
  | some (.bearer tok) => url = t.call.url ∧ ∃ t' ∈ s.tasks,
      t'.call.upstreamHost = t.call.upstreamHost ∧ t'.call.name = t.call.name ∧
        t'.Obtained crates tok

/-- The configured credentials of a call are those of the registry with its host. -/
theorem allowed_basicCreds (s : PullSys) {t : PullTask} {url : String}
    (hurl : url = t.call.url ∨ ∃ k ch, t.Challenged k ch ∧ url = PullCall.tokenUrl crates ch) :
    s.Allowed crates t url (t.call.basicCreds.map fun c => .basic c.1 c.2) := by
  unfold PullCall.basicCreds PullCall.registryForHost
  cases hfind : t.call.registries.find? fun r => r.url = t.call.upstreamHost with
  | none => trivial
  | some r =>
    have hmem := List.mem_of_find?_eq_some hfind
    have hhost : r.url = t.call.upstreamHost := by simpa using List.find?_some hfind
    obtain ⟨host, username, password⟩ := r
    cases username with
    | none => trivial
    | some user =>
      cases password with
      | none => trivial
      | some pass => exact ⟨⟨_, hmem, hhost, rfl, rfl⟩, hurl⟩

theorem allowed_request {t : PullTask} {token : Option String}
    (h : ∀ tok, token = some tok → s.Granted crates t.call.tokenKey tok) :
    s.Allowed crates t t.call.url (t.call.request token).authorization := by
  cases token with
  | none => exact allowed_basicCreds s (.inl rfl)
  | some tok =>
    obtain ⟨t', ht', hkey, hobtained⟩ := h tok rfl
    obtain ⟨hhost, hname⟩ := tokenKey_inj hkey
    exact ⟨rfl, t', ht', hhost, hname, hobtained⟩

end PullSys

end Dockfoxprox

import Dockfoxprox.Proofs.Redis

/-! Eviction spills against concurrent writers. A spill that no value-changing
command overtakes between its fetch and its insert leaves every value as it was,
so the store behaves as the plain map its commands describe. One that is
overtaken puts the older value back. -/

namespace Dockfoxprox

open MapSum Machine

/-- What a spill step must not do: change the value of a key or bring a key back. -/
def SpillKeepsValues (s : RedisSys) (e : RedisEvent) (s' : RedisSys) : Prop :=
  e.isSpill = true → s'.st.denotes = s.st.denotes ∧
    ∀ k, s.st.redisEntries.lookup k = none → s'.st.redisEntries.lookup k = none

/-- The event on a plain map: only commands change it. -/
def RedisEvent.onMap (e : RedisEvent) (m : Bytes → Option Bytes) : Bytes → Option Bytes :=
  match e with
  | .command c => c.onMap m
  | _ => m

/-- No command that changes the value of a key runs while a spill of that key is
between its fetch and its insert. -/
def SpillUndisturbed (s : RedisSys) (e : RedisEvent) (_ : RedisSys) : Prop :=
  ∀ key ∈ s.spill.window, e.onMap s.st.denotes key = s.st.denotes key

instance (s : RedisSys) (e : RedisEvent) (s' : RedisSys) : Decidable (SpillUndisturbed s e s') :=
  inferInstanceAs (Decidable (∀ key ∈ s.spill.window, e.onMap s.st.denotes key = s.st.denotes key))

/-- The value the spill in progress is about to put back. -/
def Spill.Fresh (m : Bytes → Option Bytes) : Spill → Prop
  | .idle => True
  | .fetched key _ _ value _ | .written key _ _ value _ => m key = some value

structure SpillInv (s : RedisSys) : Prop where
  wf : s.Wf
  fresh : s.spill.Fresh s.st.denotes

theorem Spill.fresh_of_window {m m' : Bytes → Option Bytes} {p : Spill} (h : p.Fresh m)
    (hm : ∀ key, p.window = some key → m' key = m key) : p.Fresh m' := by
  cases p with
  | idle => trivial
  | fetched key size t value id => exact (hm key rfl).trans h
  | written key size t value id => exact (hm key rfl).trans h

/-- One event without GETs acts on the values as on a plain map. -/
theorem SpillInv.step {s s' : RedisSys} {e : RedisEvent} (h : SpillInv s)
    (hg : e.isGet = false) (hc : SpillUndisturbed s e s') (hs : s.step e = some s') :
    SpillInv s' ∧ s'.st.denotes = e.onMap s.st.denotes ∧ SpillKeepsValues s e s' := by
  have hwf := RedisSys.step_wf h.wf hs
  cases e with
  | command c =>
    simp only [RedisSys.step, Option.some.injEq] at hs
    subst hs
    refine ⟨⟨hwf, Spill.fresh_of_window h.fresh fun key hk => ?_⟩, c.denotes s.st, by
      intro hsp; simp [RedisEvent.isSpill] at hsp⟩
    rw [c.denotes]
    exact hc key hk
  | get key => simp [RedisEvent.isGet] at hg
  | getStep i => simp [RedisEvent.isGet] at hg
  | unlink i =>
    simp only [RedisSys.step] at hs
    split at hs
    · cases hs
    · rename_i id hi
      cases hs
      have hd := denotes_unlink h.wf.st hi
      exact ⟨⟨hwf, Spill.fresh_of_window h.fresh fun key _ => congrFun hd key⟩, hd, by
        intro hsp; simp [RedisEvent.isSpill] at hsp⟩
  | spillFetch key size t =>
    simp only [RedisSys.step] at hs
    split at hs
    · rename_i value id _ hf
      cases hs
      refine ⟨⟨hwf, ?_⟩, rfl, fun _ => ⟨rfl, fun _ hk => hk⟩⟩
      unfold State.spillFetch at hf
      split at hf
      · rename_i hk; cases hf; simp [Spill.Fresh, State.denotes, hk]
      · cases hf
    · cases hs; exact ⟨h, rfl, fun _ => ⟨rfl, fun _ hk => hk⟩⟩
    · cases hs
  | spillWrite =>
    simp only [RedisSys.step] at hs
    split at hs
    · rename_i key size t value id hp
      cases hs
      have hsp := h.wf.spill
      have hfr := h.fresh
      rw [hp] at hsp hfr
      have hd := denotes_writeFile hsp value
      refine ⟨⟨hwf, ?_⟩, hd, fun _ => ⟨hd, fun _ hk => hk⟩⟩
      rw [hd]
      exact hfr
    · cases hs
  | spillFail leftover =>
    have hsp := h.wf.spill
    simp only [RedisSys.step] at hs
    split at hs
    · rename_i id part hp
      cases hs
      rw [hp] at hsp
      have hd := denotes_writeFile hsp part
      exact ⟨⟨hwf, trivial⟩, hd, fun _ => ⟨hd, fun _ hk => hk⟩⟩
    · cases hs; exact ⟨⟨hwf, trivial⟩, rfl, fun _ => ⟨rfl, fun _ hk => hk⟩⟩
    · cases hs
  | spillInsert =>
    simp only [RedisSys.step] at hs
    split at hs
    · rename_i key size t value id hp
      cases hs
      have hsp := h.wf.spill
      have hfr := h.fresh
      rw [hp] at hsp hfr
      have hd : (s.st.spillInsert key size t id).denotes = s.st.denotes := by
        rw [denotes_spillInsert hsp.2]
        exact Function.update_eq_self_iff.mpr hfr.symm
      refine ⟨⟨hwf, trivial⟩, hd, fun _ => ⟨hd, fun k hk => ?_⟩⟩
      have hne : k ≠ key := by
        rintro rfl
        simp only [Spill.Fresh, State.denotes, hk] at hfr
        cases hfr
      simpa only [State.spillInsert, lookup_insert_apply, if_neg hne] using hk
    · cases hs

/-- The commands of a run, on a plain map. -/
def mapAfter (m : Bytes → Option Bytes) (events : List RedisEvent) : Bytes → Option Bytes :=
  events.foldl (fun m e => e.onMap m) m

theorem mapAfter_cons (m : Bytes → Option Bytes) (e : RedisEvent) (events : List RedisEvent) :
    mapAfter m (e :: events) = mapAfter (e.onMap m) events := rfl

theorem mapAfter_append (m : Bytes → Option Bytes) (as bs : List RedisEvent) :
    mapAfter m (as ++ bs) = mapAfter (mapAfter m as) bs := List.foldl_append

/-- A key holds the value of its last SET, unless it was removed since. -/
theorem mapAfter_cases (events : List RedisEvent) (m : Bytes → Option Bytes) (k : Bytes) :
    mapAfter m events k = none ∨ mapAfter m events k = m k ∨
      ∃ w, RedisEvent.command (.set k w) ∈ events ∧ mapAfter m events k = some w := by
  induction events generalizing m with
  | nil => exact Or.inr (Or.inl rfl)
  | cons e events ih =>
    rw [mapAfter_cons]
    rcases ih (e.onMap m) with h | h | ⟨w, hw, h⟩
    · exact Or.inl h
    · cases e with
      | command c =>
        cases c with
        | set k' v =>
          by_cases hk : k = k'
          · subst hk
            exact Or.inr (Or.inr ⟨v, by simp, by
              simpa [RedisEvent.onMap, Command.onMap] using h⟩)
          · exact Or.inr (Or.inl (by simpa [RedisEvent.onMap, Command.onMap, hk] using h))
        | del keys =>
          by_cases hk : k ∈ keys
          · exact Or.inl (by simpa [RedisEvent.onMap, Command.onMap, hk] using h)
          · exact Or.inr (Or.inl (by simpa [RedisEvent.onMap, Command.onMap, hk] using h))
        | flushAll => exact Or.inl h
      | _ => exact Or.inr (Or.inl h)
    · exact Or.inr (Or.inr ⟨w, List.mem_cons_of_mem e hw, h⟩)

/-- The commands that take a key away. -/
def Command.Removes (k : Bytes) : Command → Prop
  | .set _ _ => False
  | .del keys => k ∈ keys
  | .flushAll => True

theorem denotes_eq_mapAfter {s t : RedisSys} {events : List RedisEvent} (h : SpillInv s)
    (hg : ∀ e ∈ events, e.isGet = false) (hc : Along RedisSys.step SpillUndisturbed s events)
    (hr : run RedisSys.step s events = some t) : t.st.denotes = mapAfter s.st.denotes events := by
  induction events generalizing s with
  | nil => rw [run_nil, Option.some.injEq] at hr; subst hr; rfl
  | cons e events ih =>
    obtain ⟨m, hm, hr⟩ := run_cons.mp hr
    obtain ⟨hce, hc⟩ := hc m hm
    obtain ⟨hi, hd, -⟩ := h.step (hg e (by simp)) hce hm
    rw [ih hi (fun e' he => hg e' (by simp [he])) hc hr, hd]
    rfl

/-- In every run of one pass's spills with SET, DEL and FLUSHALL commands in which no
command changes a key while its spill is between fetch and insert, no spill step
changes a value; a GET after a SET replies with that value, a later one or nil; and
a key once removed stays away until it is SET again. -/
theorem spill_never_loses_update (s : RedisSys) (hwf : s.Wf) (hidle : s.spill = .idle)
    (events : List RedisEvent) (hg : ∀ e ∈ events, e.isGet = false)
    (hc : Along RedisSys.step SpillUndisturbed s events) :
    Along RedisSys.step SpillKeepsValues s events ∧
    ∀ t, run RedisSys.step s events = some t →
      (∀ pre post k v, events = pre ++ .command (.set k v) :: post →
        t.st.getReply k = none ∨ t.st.getReply k = some v ∨
          ∃ w, .command (.set k w) ∈ post ∧ t.st.getReply k = some w) ∧
      (∀ pre post k c, events = pre ++ .command c :: post → c.Removes k →
        (∀ w, RedisEvent.command (.set k w) ∉ post) → t.st.getReply k = none) := by
  have h0 : SpillInv s := ⟨hwf, by rw [hidle]; trivial⟩
  refine ⟨?_, fun t ht => ?_⟩
  · have hc' : Along RedisSys.step (fun s e s' => e.isGet = false ∧ SpillUndisturbed s e s') s
        events := along_mono (fun s e s' he hce => ⟨hg e he, hce⟩) hc
    exact along_of_invariant (fun s e s' hi hce hs => ⟨(hi.step hce.1 hce.2 hs).1,
      (hi.step hce.1 hce.2 hs).2.2⟩) h0 hc'
  · have hd := denotes_eq_mapAfter h0 hg hc ht
    refine ⟨fun pre post k v he => ?_, fun pre post k c he hrem hno => ?_⟩
    · rw [getReply_eq_denotes, hd, he, mapAfter_append]
      have := mapAfter_cases post ((RedisEvent.command (.set k v)).onMap
        (mapAfter s.st.denotes pre)) k
      simpa [RedisEvent.onMap, Command.onMap, mapAfter] using this
    · rw [getReply_eq_denotes, hd, he, mapAfter_append]
      have hnone : (RedisEvent.command c).onMap (mapAfter s.st.denotes pre) k = none := by
        cases c with
        | set k' v => exact absurd hrem id
        | del keys => simp only [Command.Removes] at hrem; simp [RedisEvent.onMap, Command.onMap, hrem]
        | flushAll => rfl
      rcases mapAfter_cases post ((RedisEvent.command c).onMap (mapAfter s.st.denotes pre)) k
        with h | h | ⟨w, hw, -⟩
      · exact h
      · exact h.trans hnone
      · exact absurd hw (hno w)

/-- A fresh proxy, before its first Redis command. -/
def redisStart : RedisSys := ⟨State.new ⟨4096, none, 4096⟩ 0, [], .idle⟩

theorem redisStart_wf : redisStart.Wf := ⟨RedisWf.new _ _, trivial⟩

/-- A large value is SET and spilled while another key is SET. -/
def quietSpill : List RedisEvent :=
  [.command (.set [107] (List.replicate 1025 97)), .spillFetch [107] 1025 0,
    .command (.set [108] [98]), .spillWrite, .spillInsert]

theorem spill_never_loses_update_quiet :
    Along RedisSys.step SpillUndisturbed redisStart quietSpill ∧
    Along RedisSys.step SpillKeepsValues redisStart quietSpill :=
  ⟨by decide +kernel, (spill_never_loses_update redisStart redisStart_wf rfl quietSpill
    (by decide) (by decide +kernel)).1⟩

/-- The same run with the second SET on the key being spilled: the insert of the
spill puts the first value back. -/
theorem spill_reverts_racing_set :
    ¬ Along RedisSys.step SpillKeepsValues redisStart
      [.command (.set [107] (List.replicate 1025 97)), .spillFetch [107] 1025 0,
        .command (.set [107] [98]), .spillWrite, .spillInsert] := by
  intro h
  have h5 := ((((h _ rfl).2 _ rfl).2 _ rfl).2 _ rfl).2 _ rfl
  have hk := congrFun (h5.1 rfl).1 [107]
  revert hk
  decide +kernel

end Dockfoxprox

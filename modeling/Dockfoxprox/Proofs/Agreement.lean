import Dockfoxprox.Proofs.Scan

/-! What the local tables of a pass that runs alone still say of the maps: every Redis
candidate describes the entry under its key, a blob counted as large is large, and what a
spill holds between two steps is in the map. -/

namespace Dockfoxprox

open MapSum

theorem popOldest_spec {h : List Candidate} {i : ℕ} {c : Candidate} {rest : List Candidate}
    (hp : popOldest h i = some (c, rest)) :
    h[i]? = some c ∧ rest = h.eraseIdx i ∧ ∀ x ∈ h, c.lastAccessTime ≤ x.lastAccessTime := by
  unfold popOldest at hp
  split at hp
  · cases hp
  · split at hp
    · rename_i hi hle
      cases hp
      exact ⟨hi, rfl, hle⟩
    · cases hp

theorem popOldest_mem {h : List Candidate} {i : ℕ} {c : Candidate} {rest : List Candidate}
    (hp : popOldest h i = some (c, rest)) : c ∈ h ∧ ∀ x ∈ rest, x ∈ h := by
  obtain ⟨hi, rfl, -⟩ := popOldest_spec hp
  exact ⟨List.mem_of_getElem? hi, fun x hx => List.mem_of_mem_eraseIdx hx⟩

/-- What is not popped stays. -/
theorem mem_of_popOldest {h : List Candidate} {i : ℕ} {c x : Candidate} {rest : List Candidate}
    (hp : popOldest h i = some (c, rest)) (hx : x ∈ h) : x = c ∨ x ∈ rest := by
  obtain ⟨hi, rfl, -⟩ := popOldest_spec hp
  exact mem_eraseIdx hi hx

namespace Pass

/-- What the pass holds between two steps of a spill is still what the maps hold. -/
def Holds (s : State) : Phase → Prop
  | .spillWrite _ r held | .spillInsert _ r held =>
    s.blobs.lookup r =
      some (.inMemory held.id held.content held.mediaType held.lastAccessed) ∧
        memoryTierThreshold < held.content.length
  | .redisWrite key size _ value id | .redisInsert key size _ value id =>
    (∃ t, s.redisEntries.lookup key = some (.inMemory value id t)) ∧ value.length = size ∧
      memoryTierThreshold < size
  | .begin | .scanBlobs | .scanManifests | .scanRedis => False
  | _ => True

/-- The local tables agree with the maps as far as the accumulators depend on it. -/
structure Agrees (s : State) (p : Pass) : Prop where
  candidates : CandidatesFit p s.redisEntries
  tiers : ∀ d bb, p.blobs.lookup d = some bb → bb.tier = .largeMem → ∀ id content mt t,
    s.blobs.lookup d = some (.inMemory id content mt t) → memoryTierThreshold < content.length
  holds : Holds s p.phase

variable {fromSlice : Bytes → Option Json} {s s' : State} {p p' : Pass} {c : Choice} {a : Act}

theorem mem_popped {pool pool' : Pool} {cand x : Candidate} {rest : List Candidate} {i : ℕ}
    (hpop : popOldest (p.heap pool) i = some (cand, rest))
    (hx : x ∈ (p.popped pool rest).heap pool') : x ∈ p.heap pool' := by
  by_cases hp : pool' = pool
  · subst hp
    exact (popOldest_mem hpop).2 x (by simpa using hx)
  · simpa [hp] using hx

/-- Fewer candidates for fewer entries. -/
theorem CandidatesFit.mono {m m' : DashMap Bytes RedisEntry} (h : CandidatesFit p m)
    (hh : ∀ pool key t size, .redis key t size ∈ p'.heap pool → .redis key t size ∈ p.heap pool)
    (hm : ∀ k e, m'.lookup k = some e → m.lookup k = some e) : CandidatesFit p' m' :=
  fun pool key t size hk e he => h pool key t size (hh pool key t size hk) e (hm key e he)

/-- Agreement after a step that adds no candidate, no Redis entry and no large blob. -/
theorem Agrees.mono (h : Agrees s p)
    (hh : ∀ pool key t size, .redis key t size ∈ p'.heap pool → .redis key t size ∈ p.heap pool)
    (hm : ∀ k e, s'.redisEntries.lookup k = some e → s.redisEntries.lookup k = some e)
    (ht : ∀ d bb', p'.blobs.lookup d = some bb' → ∃ bb, p.blobs.lookup d = some bb ∧
      bb'.tier = bb.tier)
    (hb : ∀ d id content mt t, s'.blobs.lookup d = some (.inMemory id content mt t) →
      s.blobs.lookup d = some (.inMemory id content mt t))
    (hp : Holds s' p'.phase) : Agrees s' p' := by
  refine ⟨h.candidates.mono hh hm, fun d bb' hd hl id content mt t hc => ?_, hp⟩
  obtain ⟨bb, hbb, htier⟩ := ht d bb' hd
  exact h.tiers d bb hbb (htier ▸ hl) id content mt t (hb d id content mt t hc)

theorem lookup_setBk {r : Digest} {bb bb' : BlobBk} (hb : p.blobs.lookup r = some bb)
    (ht : bb'.tier = bb.tier) (d : Digest) (x : BlobBk)
    (hx : (p.setBk r bb').blobs.lookup d = some x) :
    ∃ y, p.blobs.lookup d = some y ∧ x.tier = y.tier := by
  rw [setBk_blobs, lookup_insert_apply] at hx
  split at hx
  · rename_i hd
    subst hd
    cases hx
    exact ⟨bb, hb, ht⟩
  · exact ⟨x, hx, rfl⟩

theorem lookup_of_erase {α β : Type} [DecidableEq α] {m : DashMap α β} {r k : α} {v : β}
    (h : (m.erase r).lookup k = some v) : m.lookup k = some v := by
  rw [lookup_erase_apply] at h
  split at h
  · cases h
  · exact h

theorem Scanned.agrees (hs : Scanned fromSlice s p) : Agrees s p := by
  refine ⟨hs.candidates, fun d bb hd hl id content mt t hc => ?_, by rw [hs.phase]; trivial⟩
  have h := hs.bks d
  rw [hd, hc, Option.map_some, Option.map_some, Option.some.injEq, Prod.mk.injEq] at h
  by_contra hlen
  rw [hl, blobTier, if_neg hlen] at h
  cases h.1

/-- A spill leaves an on-disk entry that only its own new candidate describes. -/
theorem CandidatesFit.moveRedis {m : DashMap Bytes RedisEntry} {key value : Bytes}
    {size t id t' : ℕ} (h : CandidatesFit p m) (he : m.lookup key = some (.inMemory value id t'))
    (hlen : value.length = size) (hlarge : memoryTierThreshold < size)
    (hh : p'.heap = (p.push .disk (.redis key t size)).heap) :
    CandidatesFit p' (m.insert key (.onDisk size id t)) := by
  intro pool k u n hk e hlook
  rw [hh] at hk
  rw [lookup_insert_apply] at hlook
  split at hlook
  · rename_i hkey
    subst hkey
    cases hlook
    rcases mem_push hk with ⟨rfl, hc⟩ | hk
    · cases hc
      rfl
    · have hd := h pool k u n hk _ he
      cases pool with
      | smallMemory =>
        obtain ⟨hn, hle⟩ := hd
        omega
      | largeMemory => trivial
      | disk => exact False.elim hd
  · rename_i hkey
    rcases mem_push hk with ⟨-, hc⟩ | hk
    · cases hc
      exact absurd rfl hkey
    · exact h pool k u n hk e hlook

/-- Agreement after a step that leaves the heaps, the table and the maps it is about. -/
theorem Agrees.frame (h : Agrees s p) (hh : p'.heap = p.heap) (ht : p'.blobs = p.blobs)
    (hb : s'.blobs = s.blobs) (hr : s'.redisEntries = s.redisEntries) (hp : Holds s p'.phase) :
    Agrees s' p' := by
  refine h.mono (fun pool key t size hk => hh ▸ hk) (fun k e he => hr ▸ he)
    (fun d bb hd => ⟨bb, ht ▸ hd, rfl⟩) (fun d id content mt t hc => hb ▸ hc) ?_
  unfold Holds at *
  rw [hb, hr]
  exact hp

theorem Agrees.inert (h : Agrees s p) (ha : a.inert) {ph : Phase} (hp : Holds s ph) :
    Agrees (a.apply s) (p.goto ph) :=
  h.frame rfl rfl ((a.apply_blobs s).trans (Act.onBlobs_inert ha _))
    ((a.apply_redisEntries s).trans (Act.onRedis_inert ha _)) hp

theorem Agrees.step (h : Agrees s p) (hs : Step fromSlice s p c a p') :
    Agrees (a.apply s) p' := by
  have hholds := h.holds
  cases hs with
  | begin hp => rw [hp] at hholds; exact hholds.elim
  | scanBlobs hp => rw [hp] at hholds; exact hholds.elim
  | scanManifests hp => rw [hp] at hholds; exact hholds.elim
  | scanRedis hp => rw [hp] at hholds; exact hholds.elim
  | stopLoop hp ha => exact h.inert rfl trivial
  | stale hp ha hpop hst =>
    exact h.mono (fun _ _ _ _ hk => mem_popped hpop hk) (fun _ _ he => he)
      (fun d bb hd => ⟨bb, hd, rfl⟩) (fun _ _ _ _ _ hc => hc) (by rw [popped_phase, hp]; trivial)
  | dropRedis hp hb ha hpop he =>
    refine h.mono (fun _ _ _ _ hk => mem_popped hpop hk) (fun k e he => ?_)
      (fun d bb hd => ⟨bb, hd, rfl⟩) (fun _ _ _ _ _ hc => ?_) ?_
    · rw [Act.apply_redisEntries] at he
      exact lookup_of_erase he
    · rwa [Act.apply_blobs] at hc
    · rw [credit_phase, popped_phase, hp]
      trivial
  | dropManifest hp hl ha hpop hm =>
    refine h.mono (fun _ _ _ _ hk => mem_popped hpop hk) (fun k e he => ?_)
      (fun d bb hd => ⟨bb, hd, rfl⟩) (fun _ _ _ _ _ hc => ?_) trivial
    · rwa [Act.apply_redisEntries] at he
    · rwa [Act.apply_blobs] at hc
  | spillManifest hp ha hpop hm =>
    refine h.mono (fun _ _ _ _ hk => mem_popped hpop hk) (fun k e he => ?_)
      (fun d bb hd => ⟨bb, hd, rfl⟩) (fun _ _ _ _ _ hc => ?_) trivial
    · rwa [Act.apply_redisEntries] at he
    · rwa [Act.apply_blobs] at hc
  | @fetchRedis hp key t size rest value id ha hpop hf =>
    refine h.mono (fun _ _ _ _ hk => mem_popped hpop hk) (fun _ _ he => he)
      (fun d bb hd => ⟨bb, hd, rfl⟩) (fun _ _ _ _ _ hc => hc) ?_
    -- the popped candidate describes the entry it fetches
    unfold State.spillFetch at hf
    split at hf
    · rename_i v i t' hl
      cases hf
      obtain ⟨hlen, hlarge⟩ := h.candidates _ _ _ _ (popOldest_mem hpop).1 _ hl
      exact ⟨⟨t', hl⟩, hlen, hlarge⟩
    · cases hf
  | spillEnd hp ht =>
    refine h.mono (fun pool key t size hk => ?_) (fun _ _ he => he)
      (fun d bb hd => ⟨bb, hd, rfl⟩) (fun _ _ _ _ _ hc => hc) trivial
    rcases mem_push hk with ⟨-, hc⟩ | hk
    · cases hc
    · exact hk
  | spillMissing hp ht hb => exact h.inert rfl trivial
  | spillKeep hp ht hb hk =>
    exact h.mono (fun _ _ _ _ hk => hk) (fun _ _ he => he) (lookup_setBk hb (by simp))
      (fun _ _ _ _ _ hc => hc) trivial
  | spillFetch hp ht hb hu htier hl =>
    exact h.mono (fun _ _ _ _ hk => hk) (fun _ _ he => he) (lookup_setBk hb (by simp))
      (fun _ _ _ _ _ hc => hc) ⟨hl, h.tiers _ _ hb htier _ _ _ _ hl⟩
  | spillWrite hp hw => rw [hp] at hholds; exact h.inert rfl hholds
  | spillInsert hp =>
    refine h.mono (fun _ _ _ _ hk => hk) (fun k e he => ?_) (fun d bb hd => ⟨bb, hd, rfl⟩)
      (fun d id content mt t hc => ?_) trivial
    · rwa [Act.apply_redisEntries] at he
    · rw [Act.apply_blobs, Act.onBlobs, lookup_insert_apply] at hc
      split at hc
      · cases hc
      · exact hc
  | redisWrite hp hw => rw [hp] at hholds; exact h.inert rfl hholds
  | redisInsert hp =>
    rw [hp] at hholds
    obtain ⟨⟨t', hl⟩, hlen, hlarge⟩ := hholds
    refine ⟨?_, ?_, trivial⟩
    · rw [Act.apply_redisEntries]
      exact h.candidates.moveRedis hl hlen hlarge rfl
    · rw [Act.apply_blobs]
      exact h.tiers
  | writeFailed hp hw => exact h.inert (Act.inert_leftover ..) trivial
  | retainTags hp => exact h.inert rfl trivial
  | cascadeEnd hp => exact h.inert rfl trivial
  | cascadeMissing hp hb => exact h.inert rfl trivial
  | cascadeKeep hp hb hk =>
    exact h.mono (fun _ _ _ _ hk => hk) (fun _ _ he => he) (lookup_setBk hb (by simp))
      (fun _ _ _ _ _ hc => hc) trivial
  | @cascadeDrop old r todo bb blob hp hb hr ht hl =>
    refine h.mono (fun _ _ _ _ hk => hk) (fun k e he => ?_) (lookup_setBk hb (by simp))
      (fun d id content mt t hc => ?_) ?_
    · rwa [Act.apply_redisEntries] at he
    · rw [Act.apply_blobs] at hc
      exact lookup_of_erase hc
    · cases blob <;> trivial
  | cascadeUnlink hp => exact h.inert (Act.inert_unlink ..) trivial
  | sweepEnd hp => exact h.inert rfl trivial
  | sweepKeep hp hd hk => exact h.inert rfl trivial
  | @sweepDrop todo r bb blob hp hd hb hr ht hl =>
    refine h.mono (fun _ _ _ _ hk => hk) (fun k e he => ?_) (fun d bb hd => ⟨bb, hd, rfl⟩)
      (fun d id content mt t hc => ?_) ?_
    · rwa [Act.apply_redisEntries] at he
    · rw [Act.apply_blobs] at hc
      exact lookup_of_erase hc
    · cases blob <;> trivial
  | sweepUnlink hp => exact h.inert (Act.inert_unlink ..) trivial
  | publish hp => exact h.inert rfl trivial
  | storeEnd hp => exact h.inert rfl trivial
  | store hp => exact h.frame rfl rfl rfl rfl trivial

end Pass

end Dockfoxprox

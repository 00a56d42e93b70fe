import Dockfoxprox.Proofs.Budgets
import Dockfoxprox.Proofs.Lru

/-! Where the candidates of a pass are cached. A manifest may be a candidate of all three heaps, so
that a drop through one leaves it in the others, and a spill may leave a blob in memory that another
manifest shares. A pass that does neither has in each heap what is cached in its pool, and nothing
else. -/

namespace Dockfoxprox

open MapSum Machine

/-- The tier of the blobs for which a manifest is in a pool. In the small one every manifest is. -/
def Pool.tier : Pool → Option BlobTier
  | .smallMemory => none
  | .largeMemory => some .largeMem
  | .disk => some .disk

namespace State

section
variable (fromSlice : Bytes → Option Json)

/-- An item is cached in a pool: a manifest in the map that references a blob there, or a Redis
entry there. -/
def CachedIn (s : State) (pool : Pool) : Item → Prop
  | .manifest d => ∃ m, s.manifests.lookup d = some m ∧
      ∀ tier ∈ pool.tier, m.touches fromSlice s.blobs tier
  | .redis key => ∃ e, s.redisEntries.lookup key = some e ∧ redisPool e = pool

/-- No other manifest references a large blob in memory that this one references. -/
def OwnsLarge (s : State) (d : Digest) : Prop :=
  ∀ m ∈ s.manifests.lookup d, ∀ r ∈ referencedDigests fromSlice m.content,
    tierIn s.blobs r = some .largeMem →
      ∀ e ∈ s.manifests.entries, r ∈ referencedDigests fromSlice e.2.content → e.1 = d

instance (s : State) (d : Digest) : Decidable (s.OwnsLarge fromSlice d) :=
  inferInstanceAs (Decidable (∀ m ∈ s.manifests.lookup d,
    ∀ r ∈ referencedDigests fromSlice m.content, tierIn s.blobs r = some .largeMem →
      ∀ e ∈ s.manifests.entries, r ∈ referencedDigests fromSlice e.2.content → e.1 = d))

end

variable {fromSlice : Bytes → Option Json} {s s' : State} {pool : Pool}

theorem OwnsLarge.only {d d' r : Digest} {m m' : Manifest} (h : s.OwnsLarge fromSlice d)
    (hm : s.manifests.lookup d = some m) (hr : r ∈ referencedDigests fromSlice m.content)
    (ht : tierIn s.blobs r = some .largeMem) (hm' : s.manifests.lookup d' = some m')
    (hr' : r ∈ referencedDigests fromSlice m'.content) : d' = d :=
  h m hm r hr ht ⟨d', m'⟩ (mem_entries.mpr hm') hr'

/-- What is large and in memory was so before. -/
theorem Keeps.tierIn (hk : s.Keeps s') {r : Digest}
    (h : tierIn s'.blobs r = some .largeMem) : tierIn s.blobs r = some .largeMem := by
  obtain ⟨b', hb', ht⟩ := Option.map_eq_some_iff.mp h
  obtain ⟨b, hb, hbec⟩ := hk.blobs r b' hb'
  rcases hbec with rfl | ⟨_, _, _, _, -, -, rfl⟩
  · rw [Dockfoxprox.tierIn, hb, Option.map_some, ht]
  · cases ht

theorem Keeps.ownsLarge (hk : s.Keeps s') {d : Digest} (h : s.OwnsLarge fromSlice d) :
    s'.OwnsLarge fromSlice d := by
  rintro m' hm' r hr ht ⟨d₂, m₂'⟩ he hr₂
  obtain ⟨m, hm, heq, -⟩ := hk.manifests d m' hm'
  obtain ⟨m₂, hm₂, heq₂, -⟩ := hk.manifests d₂ m₂' (mem_entries.mp he)
  rw [heq] at hr
  dsimp only at hr₂
  rw [heq₂] at hr₂
  exact h.only hm hr (hk.tierIn ht) hm₂ hr₂

theorem touches_iff {m : Manifest} {tier : BlobTier} :
    m.touches fromSlice s.blobs tier ↔
      ∃ r ∈ referencedDigests fromSlice m.content, tierIn s.blobs r = some tier := by
  simp [Manifest.touches]

/-- What is in the large pool was there before. -/
theorem Keeps.cachedIn_large (hk : s.Keeps s') {i : Item}
    (h : s'.CachedIn fromSlice .largeMemory i) : s.CachedIn fromSlice .largeMemory i := by
  cases i with
  | manifest d =>
    obtain ⟨m', hm', htouch⟩ := h
    obtain ⟨m, hm, heq, -⟩ := hk.manifests d m' hm'
    obtain ⟨r, hr, ht⟩ := touches_iff.mp (htouch .largeMem rfl)
    rw [heq] at hr
    exact ⟨m, hm, fun tier htier => by cases htier; exact touches_iff.mpr ⟨r, hr, hk.tierIn ht⟩⟩
  | redis key =>
    obtain ⟨e', he', hpool⟩ := h
    obtain ⟨e, he, hbec⟩ := hk.redis key e' he'
    rcases hbec with rfl | ⟨_, _, _, -, -, rfl⟩
    · exact ⟨e', he, hpool⟩
    · cases hpool

theorem CachedIn.present {x : Candidate} (h : s.CachedIn fromSlice pool x.item) : x.Present s := by
  cases x with
  | manifest t d => exact ⟨h.choose, h.choose_spec.1⟩
  | redis key t size => exact ⟨h.choose, h.choose_spec.1⟩

/-- An act takes an item out of a pool only by dropping it, by dropping a blob that it references,
or by moving such a blob or the item itself out of memory. -/
theorem CachedIn.act {a : Act} {i : Item} (h : s.CachedIn fromSlice pool i)
    (hdrop : a.drops ≠ some i) (hspill : a.spills ≠ some i)
    (hblob : ∀ r, a = .dropBlob r → refsTo fromSlice s.manifests r = 0)
    (hmove : ∀ r b, a = .moveBlob r b → tierIn s.blobs r = some .largeMem ∧
      (pool = .largeMemory → ∀ d m, i = .manifest d → s.manifests.lookup d = some m →
        r ∉ referencedDigests fromSlice m.content)) :
    (a.apply s).CachedIn fromSlice pool i := by
  cases i with
  | manifest d =>
    obtain ⟨m, hm, htouch⟩ := h
    have hm' : ∃ m', (a.apply s).manifests.lookup d = some m' ∧ m'.content = m.content := by
      rw [Act.apply_manifests]
      cases a with
      | markEvicted d' =>
        simp only [Act.onManifests]
        split
        · rename_i m' hl
          rw [lookup_insert_apply]
          split
          · rename_i hd
            subst hd
            obtain rfl := Option.some.inj (hl.symm.trans hm)
            exact ⟨_, rfl, rfl⟩
          · exact ⟨m, hm, rfl⟩
        · exact ⟨m, hm, rfl⟩
      | dropManifest d' =>
        have hd : d ≠ d' := fun heq => hdrop (by rw [heq]; rfl)
        exact ⟨m, by rwa [Act.onManifests, lookup_erase_apply, if_neg hd], rfl⟩
      | _ => exact ⟨m, hm, rfl⟩
    obtain ⟨m', hm', hcontent⟩ := hm'
    refine ⟨m', hm', fun tier htier => ?_⟩
    obtain ⟨r, hr, ht⟩ := touches_iff.mp (htouch tier htier)
    refine touches_iff.mpr ⟨r, by rwa [hcontent], ?_⟩
    rw [Act.apply_blobs]
    cases a with
    | dropBlob r' =>
      have hne : r ≠ r' := by
        rintro rfl
        exact refsTo_eq_zero.mp (hblob r rfl) d m hm hr
      rwa [Act.onBlobs, tierIn, lookup_erase_apply, if_neg hne]
    | moveBlob r' b =>
      obtain ⟨hlarge, hfree⟩ := hmove r' b rfl
      have hne : r ≠ r' := by
        rintro rfl
        obtain rfl := Option.some.inj (ht.symm.trans hlarge)
        cases pool with
        | smallMemory => cases htier
        | largeMemory => exact hfree rfl d m rfl hm hr
        | disk => cases htier
      rwa [Act.onBlobs, tierIn, lookup_insert_apply, if_neg hne]
    | _ => exact ht
  | redis key =>
    obtain ⟨e, he, hpool⟩ := h
    refine ⟨e, ?_, hpool⟩
    rw [Act.apply_redisEntries]
    cases a with
    | moveRedis key' size t id =>
      have hkey : key ≠ key' := fun heq => hspill (by rw [heq]; rfl)
      rwa [Act.onRedis, lookup_insert_apply, if_neg hkey]
    | dropRedis key' =>
      have hkey : key ≠ key' := fun heq => hdrop (by rw [heq]; rfl)
      rwa [Act.onRedis, lookup_erase_apply, if_neg hkey]
    | _ => exact he

end State

/-- Two candidates of one entry are the same. -/
theorem Candidate.Fits.eq {s : State} {x y : Candidate} (hx : x.Fits s) (hy : y.Fits s)
    (hp : x.Present s) (hi : x.item = y.item) : x = y := by
  cases x with
  | manifest t d =>
    cases y with
    | manifest t' d' =>
      cases hi
      obtain ⟨m, hm⟩ := hp
      rw [← hx m hm, ← hy m hm]
    | redis => cases hi
  | redis key t size =>
    cases y with
    | manifest => cases hi
    | redis key' t' size' =>
      cases hi
      obtain ⟨e, he⟩ := hp
      obtain ⟨rfl, rfl⟩ := hx e he
      obtain ⟨rfl, rfl⟩ := hy e he
      rfl

namespace Pass

variable {fromSlice : Bytes → Option Json} {s s₀ : State} {p p' : Pass} {c : Choice} {a : Act}

/-- What a heap without repetitions has left once a candidate is popped. -/
theorem of_mem_rest {h rest : List Candidate} {x y : Candidate} {i : ℕ} (hn : h.Nodup)
    (hpop : popOldest h i = some (x, rest)) (hy : y ∈ rest) : y ∈ h ∧ y ≠ x := by
  obtain ⟨hi, herase, -⟩ := popOldest_spec hpop
  obtain ⟨hlt, rfl⟩ := List.getElem?_eq_some_iff.mp hi
  rw [herase, ← hn.erase_getElem] at hy
  exact (hn.mem_erase_iff.mp hy).symm

/-- While the counts are exact, a blob that is dropped has no reference. -/
theorem Step.unreferenced (hc : CountsAre fromSlice (· = ·) s p) (hal : Alone fromSlice s₀ s p)
    (hs : Step fromSlice s p c a p') {r : Digest} (ha : a = .dropBlob r) :
    refsTo fromSlice s.manifests r = 0 := by
  have hni : ¬ a.inert := by rw [ha]; exact Bool.false_ne_true
  have hc' := hc.step (fun u n k hu => by omega) hal.agrees hs
  cases hs with
  | @cascadeDrop old r' todo bb blob hp hb hr ht hl =>
    cases ha
    have hf : (afterCascade old todo blob) ≠ .failed := by
      intro hfailed
      cases blob <;> cases hfailed
    have heq := (hc' hf r _ (AList.lookup_insert _)).1
    rw [BlobBk.unref_refs, hr, refsLeft, Act.apply_manifests] at heq
    exact (Nat.add_eq_zero_iff.mp heq.symm).1
  | @sweepDrop todo r' bb blob hp hd hb hr ht hl =>
    cases ha
    have heq := (hc (fun hf => by rw [hp] at hf; cases hf) r bb hb).1
    rw [hr, refsLeft] at heq
    exact (Nat.add_eq_zero_iff.mp heq.symm).1
  | writeFailed => exact absurd (Act.inert_leftover ..) hni
  | cascadeUnlink | sweepUnlink => exact absurd (Act.inert_unlink ..) hni
  | _ => cases ha

/-- Only a spill moves a blob: the one it holds. -/
theorem Step.moveBlob_inv (hs : Step fromSlice s p c a p') {r : Digest} {b : Blob}
    (ha : a = .moveBlob r b) : ∃ sp held, p.phase = .spillInsert sp r held := by
  have hni : ¬ a.inert := by rw [ha]; exact Bool.false_ne_true
  cases hs with
  | @spillInsert sp r' held hp => cases ha; exact ⟨sp, held, hp⟩
  | writeFailed => exact absurd (Act.inert_leftover ..) hni
  | cascadeUnlink | sweepUnlink => exact absurd (Act.inert_unlink ..) hni
  | _ => cases ha

theorem Agrees.tier_held (h : Agrees s p) {r : Digest} {held : HeldBlob}
    (hh : p.phase.held = some (r, held)) : tierIn s.blobs r = some .largeMem := by
  obtain ⟨hl, hlarge⟩ := h.held hh
  rw [tierIn, hl, Option.map_some, blobTier, if_pos hlarge]

/-- A large blob in memory is tracked as such. -/
theorem Alone.tracked_large (h : Alone fromSlice s₀ s p) {r : Digest}
    (ht : tierIn s.blobs r = some .largeMem) :
    (∃ bb, p.blobs.lookup r = some bb ∧ bb.tier = .largeMem) ∧
      ∃ id content mt t, s.blobs.lookup r = some (.inMemory id content mt t) := by
  have htracked := h.tiers r
  rw [h.keeps.tierIn ht, Option.map_eq_some_iff] at htracked
  refine ⟨htracked, ?_⟩
  obtain ⟨b, hb, htb⟩ := Option.map_eq_some_iff.mp ht
  cases b with
  | inMemory id content mt t => exact ⟨id, content, mt, t, hb⟩
  | onDisk => cases htb

/-! ### The spill of a manifest that shares no large blob in memory -/

section
variable (fromSlice)

/-- The spill of a manifest has yet to visit every large blob of it in memory, none of which another
manifest references. -/
structure Spilling (s : State) (p : Pass) (d : Digest) (m : Manifest) : Prop where
  stored : s.manifests.lookup d = some m
  evicted : m.evicted = true
  visits : ∀ r ∈ p.phase.toSpill, r ∈ referencedDigests fromSlice m.content
  left : ∀ r ∈ referencedDigests fromSlice m.content, tierIn s.blobs r = some .largeMem →
    r ∈ p.phase.toSpill
  owns : s.OwnsLarge fromSlice d
  touches : m.touches fromSlice s.blobs .largeMem ∨ m.touches fromSlice s.blobs .disk

end

theorem Spilling.unevicted {d r : Digest} {m : Manifest} (h : Spilling fromSlice s p d m)
    (hr : r ∈ referencedDigests fromSlice m.content) (ht : tierIn s.blobs r = some .largeMem) :
    unevictedTo fromSlice s.manifests r = 0 := by
  refine unevictedTo_eq_zero.mpr fun d' m' hm' hev hr' => ?_
  obtain rfl := h.owns.only h.stored hr ht hm' hr'
  obtain rfl := Option.some.inj (hm'.symm.trans h.stored)
  rw [h.evicted] at hev
  cases hev

/-- A step of the spill that leaves the blobs alone. -/
theorem Spilling.frame {d : Digest} {m : Manifest} (h : Spilling fromSlice s p d m)
    (hm : a.onManifests s.manifests = s.manifests) (hb : a.onBlobs s.blobs = s.blobs)
    (hsub : ∀ r ∈ p'.phase.toSpill, r ∈ p.phase.toSpill)
    (hleft : ∀ r ∈ p.phase.toSpill, tierIn s.blobs r = some .largeMem → r ∈ p'.phase.toSpill) :
    Spilling fromSlice (a.apply s) p' d m := by
  have hm' : (a.apply s).manifests = s.manifests := by rw [Act.apply_manifests, hm]
  have hb' : (a.apply s).blobs = s.blobs := by rw [Act.apply_blobs, hb]
  refine ⟨by rw [hm', h.stored], h.evicted, fun r hr => h.visits r (hsub r hr), fun r hr ht => ?_,
    ?_, by rw [hb']; exact h.touches⟩
  · rw [hb'] at ht
    exact hleft r (h.left r hr ht) ht
  · unfold State.OwnsLarge
    rw [hm', hb']
    exact h.owns

/-- The spill of a held blob. -/
theorem Spilling.insert {sp : ManifestSpill} {r d : Digest} {held : HeldBlob} {m : Manifest}
    (h : Spilling fromSlice s p d m) (hp : p.phase = .spillInsert sp r held)
    (hp' : p'.phase = .spillBlobs sp) {b : Blob} (hb : (blobTier b).1 = .disk)
    (hk : s.Keeps ((Act.moveBlob r b).apply s)) :
    Spilling fromSlice ((Act.moveBlob r b).apply s) p' d m := by
  have hvisit : p.phase.toSpill = r :: sp.todo := by rw [hp]; rfl
  have hvisit' : p'.phase.toSpill = sp.todo := by rw [hp']; rfl
  have hdisk : tierIn ((Act.moveBlob r b).apply s).blobs r = some .disk := by
    rw [Act.apply_blobs, Act.onBlobs, tierIn, AList.lookup_insert, Option.map_some, hb]
  have hr : r ∈ referencedDigests fromSlice m.content :=
    h.visits r (by rw [hvisit]; exact List.mem_cons_self)
  refine ⟨by rw [Act.apply_manifests]; exact h.stored, h.evicted, fun r' hr' => ?_,
    fun r' hr' ht => ?_, hk.ownsLarge h.owns, .inr (State.touches_iff.mpr ⟨r, hr, hdisk⟩)⟩
  · rw [hvisit'] at hr'
    exact h.visits r' (by rw [hvisit]; exact List.mem_cons_of_mem r hr')
  · have hmem := h.left r' hr' (hk.tierIn ht)
    rw [hvisit, List.mem_cons] at hmem
    rw [hvisit']
    refine hmem.resolve_left ?_
    rintro rfl
    rw [hdisk] at ht
    cases ht

/-- The step lemma of a spill. A visit that leaves a large blob in memory sees an unevicted
reference, which must be one of those the spill has yet to visit. -/
theorem Spilling.step {t : ℕ} {d : Digest} {m : Manifest} (h : Spilling fromSlice s p d m)
    (hal : Alone fromSlice s₀ s p) (hc : CountsAre fromSlice (· = ·) s p)
    (hs : Step fromSlice s p c a p') (hf : p'.phase ≠ .failed)
    (hh : p.phase.Handles (.manifest t d)) (hh' : p'.phase.Handles (.manifest t d)) :
    Spilling fromSlice (a.apply s) p' d m := by
  have hc' := hc.step (fun u n k hu => by omega) hal.agrees hs
  have hk := hal.keeps_step hs
  cases hs with
  | spillMissing hp ht hb =>
    refine h.frame rfl rfl (fun r hr => ?_) fun r hr hlarge => ?_
    · rw [hp, Phase.toSpill, ht]
      exact List.mem_cons_of_mem _ hr
    · rw [hp, Phase.toSpill, ht, List.mem_cons] at hr
      refine hr.resolve_left ?_
      rintro rfl
      obtain ⟨⟨bb, hbb, -⟩, -⟩ := hal.tracked_large hlarge
      rw [hb] at hbb
      cases hbb
  | @spillKeep sp r rest bb hp ht hb hkeep =>
    refine h.frame rfl rfl (fun r' hr => ?_) fun r' hr hlarge => ?_
    · rw [hp, Phase.toSpill, ht]
      exact List.mem_cons_of_mem _ hr
    · have hvisit : p.phase.toSpill = r :: rest := by rw [hp, Phase.toSpill, ht]
      rw [hvisit, List.mem_cons] at hr
      rcases hr with rfl | hr
      · obtain ⟨⟨bb', hbb', htier⟩, id, content, mt, u, hmem⟩ := hal.tracked_large hlarge
        obtain rfl := Option.some.inj (hb.symm.trans hbb')
        have hne : (bb.unevict sp.old).unevictedRefs ≠ 0 :=
          fun h0 => hkeep h0 htier id content mt u hmem
        have heq := (hc' hf r' _ (AList.lookup_insert _)).2
        have hnone := h.unevicted (h.visits r' (by rw [hvisit]; exact List.mem_cons_self)) hlarge
        rw [unevictedLeft, Act.apply_manifests] at heq
        simp only [Act.onManifests, hnone, goto_phase, Phase.pendingUnevicted, zero_add] at heq
        have hcount : rest.count r' ≠ 0 := fun h0 => hne (by rw [heq, h0, ite_self])
        exact List.count_pos_iff.mp (Nat.pos_of_ne_zero hcount)
      · exact hr
  | spillFetch hp ht =>
    exact h.frame rfl rfl (fun r hr => by rw [hp, Phase.toSpill, ht]; exact hr) fun r hr _ => by
      rwa [hp, Phase.toSpill, ht] at hr
  | spillWrite hp =>
    exact h.frame rfl rfl (fun r hr => by rw [hp]; exact hr) fun r hr _ => by rw [hp] at hr; exact hr
  | spillInsert hp => exact h.insert hp rfl rfl hk
  | writeFailed => exact absurd rfl hf
  | spillEnd => exact hh'.elim
  | redisWrite hp | redisInsert hp => rw [hp] at hh; cases hh
  | _ hp => rw [hp] at hh; exact hh.elim

/-! ### The heaps -/

section
variable (fromSlice)

/-- What is in a heap is cached in its pool, and what is in hand is in the large heap no more. -/
structure Placed (s : State) (p : Pass) : Prop where
  heaps : ∀ pool, ∀ y ∈ p.heap pool, s.CachedIn fromSlice pool y.item
  nodup : (p.heap .largeMemory).Nodup
  apart : p.phase ≠ .failed → ∀ y, p.phase.Handles y → y ∉ p.heap .largeMemory
  spilling : p.phase ≠ .failed → ∀ t d, p.phase.Handles (.manifest t d) →
    ∃ m, Spilling fromSlice s p d m

end

/-- A step takes nothing out of a pool that the heap of the pool keeps. -/
theorem Placed.keeps_heap (h : Placed fromSlice s p) (hal : Alone fromSlice s₀ s p)
    (hc : CountsAre fromSlice (· = ·) s p) (hs : Step fromSlice s p c a p') {pool : Pool}
    {y : Candidate} (hy : y ∈ p.heap pool) (hdrop : a.drops ≠ some y.item) :
    (a.apply s).CachedIn fromSlice pool y.item := by
  have hcached := h.heaps pool y hy
  have hapart {z : Candidate} (hz : p.phase.Handles z) (hi : y.item = z.item)
      (hl : pool = .largeMemory) : False := by
    subst hl
    obtain rfl := (hal.timely.heaps _ y hy).eq (hal.timely.hand hs.not_failed z hz) hcached.present hi
    exact h.apart hs.not_failed y hz hy
  refine hcached.act hdrop (fun hspill => ?_) (fun r ha => hs.unreferenced hc hal ha)
    fun r b ha => ?_
  · obtain ⟨key, size, t, id, ha⟩ : ∃ key size t id, a = .moveRedis key size t id := by
      cases a <;> first | cases hspill | exact ⟨_, _, _, _, rfl⟩
    obtain ⟨value, hp⟩ := hs.moveRedis_inv ha
    have hholds := hal.agrees.holds
    rw [hp] at hholds
    obtain ⟨⟨u, he⟩, rfl, hlarge⟩ := hholds
    have hi : y.item = .redis key := by
      rw [ha] at hspill
      exact (Option.some.inj hspill).symm
    rw [hi] at hcached
    obtain ⟨e, he', hpool⟩ := hcached
    obtain rfl := Option.some.inj (he.symm.trans he')
    refine hapart (z := .redis key t value.length) (by rw [hp]; rfl) hi ?_
    rw [← hpool, redisPool, redisValueBucket, if_pos hlarge]
  · obtain ⟨sp, held, hp⟩ := hs.moveBlob_inv ha
    have hhand : p.phase.Handles (.manifest sp.lastAccesses sp.digest) := by rw [hp]; rfl
    obtain ⟨m, hsp⟩ := h.spilling hs.not_failed _ _ hhand
    have htier := hal.agrees.tier_held (by rw [hp]; rfl : p.phase.held = some (r, held))
    refine ⟨htier, fun hl d m' hi hm' hr' => ?_⟩
    have hr := hsp.visits r (by rw [hp]; exact List.mem_cons_self)
    have hd := hsp.owns.only hsp.stored hr htier hm' hr'
    exact hapart hhand (by rw [hi, hd]; rfl) hl

/-- What a spill has finished is on disk, and no longer large in memory. -/
theorem Placed.finished (h : Placed fromSlice s p) (hs : Step fromSlice s p c a p')
    (hf : p'.phase ≠ .failed) {z : Candidate} (hz : p.phase.Handles z)
    (hz' : ¬ p'.phase.Handles z) :
    (a.apply s).CachedIn fromSlice .disk z.item ∧
      ¬ (a.apply s).CachedIn fromSlice .largeMemory z.item := by
  cases hs with
  | @spillEnd sp hp ht =>
    rw [hp] at hz
    obtain rfl : z = .manifest sp.lastAccesses sp.digest := hz
    obtain ⟨m, hsp⟩ := h.spilling (by rw [hp]; nofun) _ _ (by rw [hp]; rfl)
    have hnone : ¬ m.touches fromSlice s.blobs .largeMem := by
      rw [State.touches_iff]
      rintro ⟨r, hr, htier⟩
      have hmem := hsp.left r hr htier
      rw [hp, Phase.toSpill, ht] at hmem
      cases hmem
    refine ⟨⟨m, hsp.stored, fun tier htier => ?_⟩, ?_⟩
    · cases htier
      exact hsp.touches.resolve_left hnone
    · rintro ⟨m', hm', htouch⟩
      obtain rfl := Option.some.inj (hsp.stored.symm.trans hm')
      exact hnone (htouch _ rfl)
  | @redisInsert key size t value id hp =>
    rw [hp] at hz
    obtain rfl : z = .redis key t size := hz
    have he : ((Act.moveRedis key size t id).apply s).redisEntries.lookup key =
        some (.onDisk size id t) := by
      rw [Act.apply_redisEntries, Act.onRedis, AList.lookup_insert]
    refine ⟨⟨_, he, rfl⟩, ?_⟩
    rintro ⟨e, he', hpool⟩
    obtain rfl := Option.some.inj (he.symm.trans he')
    cases hpool
  | writeFailed => exact absurd rfl hf
  | _ hp => rw [hp] at hz; first | exact hz.elim | exact absurd hz hz'

/-- The spill of a manifest begins with all of its references. -/
theorem Placed.begin_spill (h : Placed fromSlice s p) (hs : Step fromSlice s p c a p') {d : Digest}
    (ha : a = .markEvicted d) (hk : s.Keeps (a.apply s)) (hown : s.OwnsLarge fromSlice d) :
    ∃ m, Spilling fromSlice (a.apply s) p' d m := by
  have hni : ¬ a.inert := by rw [ha]; exact Bool.false_ne_true
  cases hs with
  | @spillManifest hp t d rest m harm hpop hm =>
    cases ha
    obtain ⟨m', hm', htouch⟩ := h.heaps _ _ (popOldest_mem hpop).1
    obtain rfl := Option.some.inj (hm.symm.trans hm')
    refine ⟨{ m with evicted := true }, ?_, rfl, fun r hr => hr, fun r hr _ => hr,
      hk.ownsLarge hown, .inl ?_⟩
    · simp only [Act.apply_manifests, Act.onManifests, hm, AList.lookup_insert]
    · rw [Act.apply_blobs]
      exact htouch .largeMem rfl
  | writeFailed => exact absurd (Act.inert_leftover ..) hni
  | cascadeUnlink | sweepUnlink => exact absurd (Act.inert_unlink ..) hni
  | _ => cases ha

theorem nodup_popped {pool : Pool} {z : Candidate} {rest : List Candidate} {i : ℕ}
    (hn : (p.heap .largeMemory).Nodup) (hpop : popOldest (p.heap pool) i = some (z, rest)) :
    ((p.popped pool rest).heap .largeMemory).Nodup := by
  by_cases hpool : Pool.largeMemory = pool
  · subst hpool
    rw [popped_heap, Function.update_self, (popOldest_spec hpop).2.1]
    exact hn.sublist (List.eraseIdx_sublist ..)
  · rwa [popped_heap, Function.update_of_ne hpool]

/-- The step lemma of the heaps: a pass that drops the last candidate of an entry, and spills a
manifest that owns its large blobs, keeps each heap to what is cached in its pool. -/
theorem Placed.step (h : Placed fromSlice s p) (hal : Alone fromSlice s₀ s p)
    (hc : CountsAre fromSlice (· = ·) s p) (hs : Step fromSlice s p c a p')
    (hf : p'.phase ≠ .failed)
    (hlast : ∀ i, a.drops = some i → ∀ pool, ∀ y ∈ p'.heap pool, y.item ≠ i)
    (howns : ∀ d, a = .markEvicted d → s.OwnsLarge fromSlice d) :
    Placed fromSlice (a.apply s) p' := by
  have hkeep {pool : Pool} {y : Candidate} (hy' : y ∈ p'.heap pool) (hy : y ∈ p.heap pool) :
      (a.apply s).CachedIn fromSlice pool y.item :=
    h.keeps_heap hal hc hs hy fun hd => hlast _ hd pool y hy' rfl
  have hk := hal.keeps_step hs
  cases hs.turn hal.agrees with
  | quiet hm hr hh hj hj' =>
    have hold (y : Candidate) (hy : p'.phase.Handles y) : p.phase.Handles y :=
      (hj' y hy).resolve_right fun hbad => hf hbad.1
    refine ⟨fun pool y hy => hkeep hy (hh ▸ hy), hh ▸ h.nodup, fun _ y hy => ?_, fun _ t d hy => ?_⟩
    · rw [hh]
      exact h.apart hs.not_failed y (hold y hy)
    · obtain ⟨m, hsp⟩ := h.spilling hs.not_failed t d (hold _ hy)
      exact ⟨m, hsp.step hal hc hs hf (hold _ hy) hy⟩
  | stale hp ha hpop hz =>
    have hidle (y : Candidate) : ¬ p.phase.Handles y := by rw [hp]; exact id
    exact ⟨fun pool y hy => hkeep hy (mem_popped hpop hy), nodup_popped h.nodup hpop,
      fun _ y hy => absurd hy (hidle y), fun _ t d hy => absurd hy (hidle _)⟩
  | drop hp ha hl hpop hx hh hj =>
    exact ⟨fun pool y hy => hkeep hy (mem_popped hpop (hh ▸ hy)), hh ▸ nodup_popped h.nodup hpop,
      fun _ y hy => absurd hy (hj y), fun _ t d hy => absurd hy (hj _)⟩
  | @start z rest _ _ hp ha hpop hx hh hj hf' =>
    refine ⟨fun pool y hy => hkeep hy (mem_popped hpop (hh ▸ hy)), hh ▸ nodup_popped h.nodup hpop,
      fun _ y hy hmem => ?_, fun _ t d hy => ?_⟩
    · obtain rfl := (hj y).mp hy
      rw [hh, popped_heap, Function.update_self] at hmem
      exact (of_mem_rest h.nodup hpop hmem).2 rfl
    · obtain rfl := (hj _).mp hy
      exact h.begin_spill hs rfl hk (howns d rfl)
  | @finish z _ _ hj hf' ha hh hj' =>
    have hz := (hj z).mpr rfl
    refine ⟨fun pool y hy => ?_, ?_, fun _ y hy => absurd hy (hj' y), fun _ t d hy =>
      absurd hy (hj' _)⟩
    · rcases mem_push (hh ▸ hy) with ⟨rfl, rfl⟩ | hold
      · exact (h.finished hs hf hz (hj' _)).1
      · exact hkeep hy hold
    · rw [hh, push_heap, Function.update_of_ne (by decide)]
      exact h.nodup

/-! ### The start of the loop -/

theorem nodup_scanned (s : State) (pool : Pool) : ((scanned fromSlice s).heap pool).Nodup := by
  have hredis := AList.nodupKeys s.redisEntries
  have hmanifests := AList.nodupKeys s.manifests
  rw [List.nodupKeys_iff_pairwise] at hredis hmanifests
  rw [scanned_heap, List.nodup_append, List.nodup_reverse, List.nodup_reverse]
  refine ⟨List.pairwise_filterMap.mpr (hredis.imp ?_),
    List.pairwise_filterMap.mpr (hmanifests.imp ?_), ?_⟩
  · rintro ⟨k, e⟩ ⟨k', e'⟩ hne b hb b' hb' rfl
    have hb' := (redisCandidate_key hb').2
    rw [(redisCandidate_key hb).2] at hb'
    exact hne (Candidate.redis.inj hb').1
  · rintro ⟨d, m⟩ ⟨d', m'⟩ hne b hb b' hb' rfl
    have hb' := manifestCandidate_digest hb'
    rw [manifestCandidate_digest hb] at hb'
    exact hne (Candidate.manifest.inj hb').2
  · intro y hy z hz hyz
    obtain ⟨e, -, he⟩ := List.mem_filterMap.mp (List.mem_reverse.mp hy)
    obtain ⟨m, -, hm⟩ := List.mem_filterMap.mp (List.mem_reverse.mp hz)
    rw [(redisCandidate_key he).2, manifestCandidate_digest hm] at hyz
    cases hyz

/-- The scans make a candidate of what is cached in its pool. -/
theorem Wanted.cachedIn {pool : Pool} {y : Candidate} (h : Wanted fromSlice s.blobs s pool y) :
    s.CachedIn fromSlice pool y.item := by
  rcases h with ⟨key, e, he, hc⟩ | ⟨d, m, hm, hc⟩
  · obtain ⟨hpool, rfl⟩ := redisCandidate_key hc
    exact ⟨e, he, hpool⟩
  · obtain rfl := manifestCandidate_digest hc
    refine ⟨m, hm, fun tier htier => ?_⟩
    cases pool <;> cases htier <;> simpa [manifestCandidate] using hc

theorem Placed.start (s : State) :
    Placed fromSlice (Act.countRun.apply s) (scanned fromSlice s) :=
  ⟨fun _ _ hy => (scanned_wanted.mp hy).cachedIn, nodup_scanned s _, fun _ _ hy => hy.elim,
    fun _ _ _ hy => hy.elim⟩

end Pass

end Dockfoxprox

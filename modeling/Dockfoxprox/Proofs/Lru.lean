import Dockfoxprox.Proofs.Collection
import Dockfoxprox.Proofs.Pools

/-! The order in which a pass evicts. What the loop takes from a heap is as old as
everything else in it, and everything the maps still have at the end was in its heap all
along, so nothing goes before something older of its pool. -/

namespace Dockfoxprox

open MapSum Machine

def Act.drops : Act → Option Item
  | .dropManifest d => some (.manifest d)
  | .dropRedis key => some (.redis key)
  | _ => none

/-- The Redis entry an act has spilled. -/
def Act.spills : Act → Option Item
  | .moveRedis key _ _ _ => some (.redis key)
  | _ => none

/-- The candidate a spill works on, if there is one. -/
def Phase.hand : Phase → Option Candidate
  | .spillBlobs sp | .spillWrite sp _ _ | .spillInsert sp _ _ =>
    some (.manifest sp.lastAccesses sp.digest)
  | .redisWrite key size t _ _ | .redisInsert key size t _ _ => some (.redis key t size)
  | _ => none

/-- The candidates the pass has collected and not done with, in its heaps and in hand. -/
def Pass.candidates (p : Pass) : List Candidate :=
  p.heap .smallMemory ++ p.heap .largeMemory ++ p.heap .disk ++ p.phase.hand.toList

def Pass.Has (p : Pass) (y : Candidate) : Prop :=
  (∃ pool, y ∈ p.heap pool) ∨ p.phase.hand = some y

theorem Pass.mem_candidates {p : Pass} {y : Candidate} : y ∈ p.candidates ↔ p.Has y := by
  simp only [candidates, Has, List.mem_append, Option.mem_toList]
  refine or_congr_left ⟨?_, ?_⟩
  · rintro ((h | h) | h) <;> exact ⟨_, h⟩
  · rintro ⟨pool, h⟩
    cases pool with
    | smallMemory => exact .inl (.inl h)
    | largeMemory => exact .inl (.inr h)
    | disk => exact .inr h

theorem Candidate.Fits.accessTime {s : State} {x : Candidate} (h : x.Fits s) (hx : x.Present s) :
    s.accessTime x.item = some x.lastAccessTime := by
  cases x with
  | manifest t d =>
    obtain ⟨m, hm⟩ := hx
    simp [State.accessTime, item, hm, h m hm, lastAccessTime]
  | redis key t size =>
    obtain ⟨e, he⟩ := hx
    simp [State.accessTime, item, he, (h e he).1, lastAccessTime]

theorem State.Keeps.accessTime {s s' : State} (h : s.Keeps s') {y : Item} {t : ℕ}
    (ht : s'.accessTime y = some t) : s.accessTime y = some t := by
  cases y with
  | manifest d =>
    obtain ⟨m', hm', rfl⟩ := Option.map_eq_some_iff.mp ht
    obtain ⟨m, hm, heq, -⟩ := h.manifests d m' hm'
    have htime : m'.lastUsed = m.lastUsed := by rw [heq]
    simp only [State.accessTime, hm, Option.map_some, htime]
  | redis key =>
    obtain ⟨e', he', rfl⟩ := Option.map_eq_some_iff.mp ht
    obtain ⟨e, he, hbec⟩ := h.redis key e' he'
    simp only [State.accessTime, he, Option.map_some, hbec.same.1]

namespace Pass

variable {fromSlice : Bytes → Option Json} {s s' s₀ : State} {p p' : Pass} {c : Choice} {a : Act}

/-- What the maps have for a heap is no older than what the heap pops. -/
theorem Alone.popped_le (h : Alone fromSlice s₀ s p) (hp : p.phase = .loop) {pool : Pool}
    {x y : Candidate} {rest : List Candidate} {i : ℕ}
    (hpop : popOldest (p.heap pool) i = some (x, rest)) (hw : Wanted fromSlice s₀.blobs s pool y)
    (hpool : pool ≠ .largeMemory ∨ ∃ key t size, y = .redis key t size) :
    x.lastAccessTime ≤ y.lastAccessTime :=
  (popOldest_spec hpop).2.2 y (h.mem_heap (fun z hz => by rw [hp] at hz; exact hz) hw hpool)

/-- A manifest that needed the disk when the pass began is a candidate of the disk heap. -/
theorem wanted_needsDisk (hk : s₀.Keeps s) {y : Item} (h : s₀.NeedsDisk fromSlice y)
    (hy : s.InSmallPool y) : ∃ x, x.item = y ∧ Wanted fromSlice s₀.blobs s .disk x := by
  cases y with
  | redis key => exact h.elim
  | manifest d =>
    obtain ⟨m₀, hm₀, r, hr, id, size, mt, t, hb⟩ := h
    obtain ⟨m, hm⟩ := hy
    obtain ⟨m', hm', heq, -⟩ := hk.manifests d m hm
    obtain rfl : m₀ = m' := Option.some.inj (hm₀.symm.trans hm')
    have hc : m.content = m₀.content := by rw [heq]
    have htouch : m.touches fromSlice s₀.blobs .disk = true := by
      refine List.any_eq_true.mpr ⟨r, hc ▸ hr, ?_⟩
      simp [tierIn, hb, blobTier]
    exact ⟨.manifest m.lastUsed d, rfl, .inr ⟨d, m, hm, by simp [manifestCandidate, htouch]⟩⟩

/-- What a step drops it has popped. -/
theorem Step.of_drops (hs : Step fromSlice s p c a p') {x : Item} (hx : a.drops = some x) :
    ∃ pool y rest, p.phase = .loop ∧ p.arm s.config = some pool ∧
      popOldest (p.heap pool) c.pick = some (y, rest) ∧ y.Present s ∧ y.item = x := by
  have hinert {a : Act} (ha : a.inert) (hx : a.drops = some x) : False := by
    cases a <;> simp [Act.drops, Act.inert] at ha hx
  cases hs with
  | @dropRedis hp pool b key t size rest e hb ha hpop he =>
    cases hx
    exact ⟨pool, _, rest, hp, ha, hpop, ⟨e, he⟩, rfl⟩
  | @dropManifest hp pool t d rest m hl ha hpop hm =>
    cases hx
    exact ⟨pool, _, rest, hp, ha, hpop, ⟨m, hm⟩, rfl⟩
  | writeFailed => exact (hinert (Act.inert_leftover ..) hx).elim
  | cascadeUnlink => exact (hinert (Act.inert_unlink ..) hx).elim
  | sweepUnlink => exact (hinert (Act.inert_unlink ..) hx).elim
  | _ => cases hx

/-- The entry being spilled is as old as every large entry still in memory. -/
def SpillsOldest (s : State) (p : Pass) : Prop :=
  ∀ key t size, p.phase ≠ .failed → p.phase.Handles (.redis key t size) →
    ∀ y ty, s.InLargePool y → s.accessTime y = some ty → t ≤ ty

/-- A value still in memory was there before. -/
theorem keeps_inMemory (hk : s.Keeps s') {key value : Bytes} {id t : ℕ}
    (h : s'.redisEntries.lookup key = some (.inMemory value id t)) :
    s.redisEntries.lookup key = some (.inMemory value id t) := by
  obtain ⟨e, he, hbec⟩ := hk.redis key _ h
  rcases hbec with rfl | ⟨_, _, _, -, -, hbad⟩
  · exact he
  · cases hbad

theorem keeps_inLargePool (hk : s.Keeps s') {y : Item} (h : s'.InLargePool y) :
    s.InLargePool y := by
  cases y with
  | manifest d => exact h
  | redis key =>
    obtain ⟨value, id, t, he, hl⟩ := h
    exact ⟨value, id, t, keeps_inMemory hk he, hl⟩

theorem SpillsOldest.step (h : SpillsOldest s p) (hal : Alone fromSlice s₀ s p)
    (hs : Step fromSlice s p c a p') : SpillsOldest (a.apply s) p' := by
  have hk := hal.keeps_step hs
  intro key t size hf hh y ty hy hty
  have hy' := keeps_inLargePool hk hy
  have hty' := hk.accessTime hty
  cases hs.turn hal.agrees with
  | quiet _ _ _ _ hj' =>
    exact h key t size hs.not_failed ((hj' _ hh).resolve_right fun hr => hf hr.1) y ty hy' hty'
  | stale hp => rw [popped_phase, hp] at hh; exact hh.elim
  | drop _ _ _ _ _ _ hj => exact absurd hh (hj _)
  | start hp ha hpop hx _ hj =>
    obtain rfl := (hj _).mp hh
    obtain ⟨key', t', size', rfl, ht', hw⟩ := @wanted_large fromSlice s s₀.blobs y hy'
    obtain rfl : t' = ty := Option.some.inj (ht'.symm.trans hty')
    exact hal.popped_le hp hpop hw (.inr ⟨_, _, _, rfl⟩)
  | finish _ _ _ _ hj' => exact absurd hh (hj' _)

theorem spillsOldest_of_run {choices : List Choice}
    (hr : run (Pass.step fromSlice) (s₀, .start) choices = some (s, p))
    (hend : p.phase.scanning = false) : SpillsOldest s p := by
  obtain ⟨_, _, _, _, rest, -, hr⟩ := run_scanned hr hend
  exact (run_keeps (I := fun s p => Alone fromSlice s₀ s p ∧ SpillsOldest s p)
    (fun _ _ _ _ _ hi hs => ⟨hi.1.step hs, hi.2.step hi.1 hs⟩)
    ⟨.start s₀, fun _ _ _ _ hh => hh.elim⟩ hr).2

/-! ### After the disk arm -/

/-- Once both memory arms are closed nothing is spilled any more. -/
structure Settled (s₁ s : State) (p : Pass) : Prop where
  small : p.Closed s.config .smallMemory
  large : p.Closed s.config .largeMemory
  free : ∀ x, ¬ p.phase.Handles x
  disk : ∀ y, s.OnDisk y → s₁.OnDisk y

theorem Settled.step {s₁ : State} (h : Settled s₁ s p) (hal : Alone fromSlice s₀ s p)
    (hs : Step fromSlice s p c a p') (hscan : p.phase.scanning = false)
    (hfit : Pool.usage .largeMemory p.acc < 2 ^ 64) : Settled s₁ (a.apply s) p' := by
  have ht := hs.turn hal.agrees
  have hfit' : Pool.usage .smallMemory p.acc < 2 ^ 64 := by
    simp only [Pool.usage] at hfit ⊢
    omega
  have hsmall := h.small.step hs ht hscan (by decide) hfit'
  have hlarge := h.large.step hs ht hscan (by decide) hfit
  have hfree : ∀ x, ¬ p'.phase.Handles x := by
    intro x hx
    cases ht with
    | quiet _ _ _ _ hj' =>
      rcases hj' x hx with hx | ⟨-, y, hy⟩
      · exact h.free x hx
      · exact h.free y hy
    | stale hp => rw [popped_phase, hp] at hx; exact hx
    | drop _ _ _ _ _ _ hj => exact hj x hx
    | start _ ha => exact arm_open ha h.large
    | finish _ _ _ _ hj' => exact hj' x hx
  refine ⟨by rwa [Act.apply_config], by rwa [Act.apply_config], hfree, fun y hy => h.disk y ?_⟩
  cases y with
  | manifest d => exact hy.elim
  | redis key =>
    obtain ⟨size, id, t, he⟩ := hy
    rw [Act.apply_redisEntries] at he
    cases ht with
    | quiet _ hr => exact ⟨size, id, t, by rwa [hr] at he⟩
    | stale => exact ⟨size, id, t, he⟩
    | @drop _ x =>
      cases x with
      | manifest => exact ⟨size, id, t, he⟩
      | redis => exact ⟨size, id, t, lookup_of_erase he⟩
    | start _ ha => exact (arm_open ha h.large).elim
    | finish hj => exact (h.free _ ((hj _).mpr rfl)).elim

theorem Wanted.accessTime {blobs : DashMap Digest Blob} {pool : Pool} {x : Candidate}
    (h : Wanted fromSlice blobs s pool x) : s.accessTime x.item = some x.lastAccessTime := by
  rcases h with ⟨key, e, he, hc⟩ | ⟨d, m, hm, hc⟩
  · rw [(redisCandidate_key hc).2]
    simp [Candidate.item, State.accessTime, he, Candidate.lastAccessTime]
  · rw [manifestCandidate_digest hc]
    simp [Candidate.item, State.accessTime, hm, Candidate.lastAccessTime]

theorem keeps_inSmallPool (hk : s.Keeps s') {y : Item} (h : s'.InSmallPool y) :
    s.InSmallPool y := by
  cases y with
  | manifest d =>
    obtain ⟨m', hm'⟩ := h
    obtain ⟨m, hm, -⟩ := hk.manifests d m' hm'
    exact ⟨m, hm⟩
  | redis key =>
    obtain ⟨value, id, t, he, hl⟩ := h
    exact ⟨value, id, t, keeps_inMemory hk he, hl⟩

/-- The item a step drops is as old as anything its heap was to take. -/
theorem Alone.dropped_le (h : Alone fromSlice s₀ s p) (hs : Step fromSlice s p c a p')
    {x y : Item} {tx ty : ℕ} (hx : s₀.accessTime x = some tx) (hy : s₀.accessTime y = some ty)
    (hd : a.drops = some x) {pool : Pool} (ha : p.arm s.config = some pool)
    (hpool : pool ≠ .largeMemory)
    (hw : ∃ z, z.item = y ∧ Wanted fromSlice s₀.blobs s pool z) : tx ≤ ty := by
  obtain ⟨pool', w, rest, hp, ha', hpop, hpres, rfl⟩ := hs.of_drops hd
  obtain rfl : pool = pool' := Option.some.inj (ha.symm.trans ha')
  obtain ⟨z, rfl, hw⟩ := hw
  have hfit : w.Fits s := h.timely.heaps _ _ (popOldest_mem hpop).1
  have hle := h.popped_le hp hpop hw (.inl hpool)
  have htx := Option.some.inj (hx.symm.trans (h.keeps.accessTime (hfit.accessTime hpres)))
  have hty := Option.some.inj (hy.symm.trans (h.keeps.accessTime hw.accessTime))
  rwa [htx, hty]

end Pass

/-- A pass that runs alone evicts in the order of the recorded access times: what the small
pool drops is as old as every manifest and small Redis entry that stays, what is spilled as
every large Redis entry that stays in memory, and what the disk pool drops as everything on
disk that stays. -/
theorem evict_least_recently_used (fromSlice : Bytes → Option Json) {s₀ s₁ s' : State}
    {p₁ p₂ p' : Pass} {before after : List Choice} {c : Choice} {a : Act}
    (hr₁ : run (Pass.step fromSlice) (s₀, .start) before = some (s₁, p₁))
    (hn : Pass.next fromSlice s₁ p₁ c = some (a, p₂))
    (hr₂ : run (Pass.step fromSlice) (a.apply s₁, p₂) after = some (s', p')) {x y : Item}
    {tx ty : ℕ} (hx : s₀.accessTime x = some tx) (hy : s₀.accessTime y = some ty) :
    (a.drops = some x → p₁.arm s₁.config = some .smallMemory → s'.InSmallPool y → tx ≤ ty) ∧
    (a.spills = some x → s'.InLargePool y → tx ≤ ty) ∧
    (a.drops = some x → p₁.arm s₁.config = some .disk →
      (s₁.OnDisk y ∧ s'.OnDisk y ∨ s₀.NeedsDisk fromSlice y ∧ s'.InSmallPool y) → tx ≤ ty) ∧
    (Pool.largeMemory.usage s₀.bytesIn < 2 ^ 64 → a.drops = some x →
      p₁.arm s₁.config = some .disk → s'.OnDisk y → tx ≤ ty) := by
  have hs := Pass.step_of_next hn
  have hrun : run (Pass.step fromSlice) (s₁, p₁) (c :: after) = some (s', p') :=
    run_cons.mpr ⟨_, Pass.step_eq_some.mpr ⟨a, p₂, hn, rfl⟩, hr₂⟩
  have hkeep (hal : Pass.Alone fromSlice s₀ s₁ p₁) : s₁.Keeps s' :=
    (Pass.run_keeps (I := fun s p => Pass.Alone fromSlice s₀ s p ∧ s₁.Keeps s)
      (fun _ _ _ _ _ hi hs => ⟨hi.1.step hs, hi.2.trans (hi.1.keeps_step hs)⟩)
      ⟨hal, .refl s₁⟩ hrun).2
  have hloop (hd : a.drops = some x) : p₁.phase = .loop := by
    obtain ⟨_, _, _, hp, -⟩ := hs.of_drops hd
    exact hp
  have halone (hd : a.drops = some x) : Pass.Alone fromSlice s₀ s₁ p₁ :=
    .of_run hr₁ (by rw [hloop hd]; rfl)
  refine ⟨fun hd ha hstay => ?_, fun hsp hstay => ?_, fun hd ha hstay => ?_,
    fun hfit hd ha hstay => ?_⟩
  · have hal := halone hd
    exact hal.dropped_le hs hx hy hd ha (by decide)
      (Pass.wanted_small (Pass.keeps_inSmallPool (hkeep hal) hstay))
  · have hspill : ∃ key size t id, a = .moveRedis key size t id ∧ x = .redis key := by
      cases a <;> cases hsp
      exact ⟨_, _, _, _, rfl, rfl⟩
    obtain ⟨key, size, t, id, rfl, rfl⟩ := hspill
    obtain ⟨value, hp⟩ := hs.moveRedis_inv rfl
    have hscan : p₁.phase.scanning = false := by rw [hp]; rfl
    have hal : Pass.Alone fromSlice s₀ s₁ p₁ := .of_run hr₁ hscan
    have hstay₁ := Pass.keeps_inLargePool (hkeep hal) hstay
    obtain ⟨_, ty', _, rfl, hty', -⟩ := @Pass.wanted_large fromSlice s₁ s₀.blobs y hstay₁
    obtain rfl := Option.some.inj (hy.symm.trans (hal.keeps.accessTime hty'))
    have hhand : p₁.phase.Handles (.redis key t size) := by rw [hp]; rfl
    have hpres : (Candidate.redis key t size).Present s₁ := by
      have hholds := hal.agrees.holds
      rw [hp] at hholds
      obtain ⟨⟨u, he⟩, -⟩ := hholds
      exact ⟨_, he⟩
    have htx := hal.keeps.accessTime ((hal.timely.hand hs.not_failed _ hhand).accessTime hpres)
    obtain rfl := Option.some.inj (hx.symm.trans htx)
    exact Pass.spillsOldest_of_run hr₁ hscan key tx size hs.not_failed hhand _ _ hstay₁ hty'
  · have hal := halone hd
    refine hal.dropped_le hs hx hy hd ha (by decide) ?_
    rcases hstay with ⟨hdisk, -⟩ | ⟨hneed, hstay⟩
    · exact Pass.wanted_disk hdisk
    · exact Pass.wanted_needsDisk hal.keeps hneed
        (Pass.keeps_inSmallPool (hkeep hal) hstay)
  · have hal := halone hd
    have hscan : p₁.phase.scanning = false := by rw [hloop hd]; rfl
    have husage := Pass.usage_of_run hr₁ hscan (by decide : Pool.largeMemory ≠ .disk)
    have hsettled : Pass.Settled s₁ s₁ p₁ :=
      ⟨Pass.arm_small_closed ha (by decide), Pass.arm_large_closed ha,
        fun z hz => by rw [hloop hd] at hz; exact hz, fun _ h => h⟩
    have hend := Pass.run_keeps (I := fun s p => Pass.Alone fromSlice s₀ s p ∧
        p.phase.scanning = false ∧ Pool.largeMemory.usage p.acc ≤ Pool.largeMemory.usage s₀.bytesIn ∧
        Pass.Settled s₁ s p)
      (fun _ _ _ _ _ ⟨hal, hsc, hu, hset⟩ hs => ⟨hal.step hs, hs.scanning hsc,
        (hs.usage_le hsc (by decide)).trans hu, hset.step hal hs hsc (hu.trans_lt hfit)⟩)
      ⟨hal, hscan, husage, hsettled⟩ hrun
    exact hal.dropped_le hs hx hy hd ha (by decide) (Pass.wanted_disk (hend.2.2.2.disk y hstay))

/-- Two small Redis entries, one used at 1 and one at 2, and room for one of them. -/
def twoKeys : State :=
  State.insertRedis { (State.new ⟨1000, some 4, 1000⟩ 1).insertRedis [97] [1] with now := 2 } [98] [2]

def twoLarge : State :=
  State.insertRedis
    { (State.new ⟨1500, none, 10000⟩ 1).insertRedis [97] (List.replicate 1025 1) with now := 2 } [98]
    (List.replicate 1025 2)

def twoOnDisk : State :=
  { State.new ⟨1000, none, 5⟩ 1 with
    redisEntries := AList.insert [98] (.onDisk 4 1 2) (AList.insert [97] (.onDisk 4 0 1) ∅)
    files := AList.insert 1 [2, 2, 2, 2] (AList.insert 0 [1, 1, 1, 1] ∅)
    nextId := 2 }

/-- A pass is at `x` after `n` steps, then takes the step `r` and is at `y` after `m` more. -/
def SplitsAt (s : State) (n : ℕ) (x : State × Pass) (r : Act × Pass) (m : ℕ) (y : State × Pass) :
    Prop :=
  run (Pass.step imageJson) (s, .start) (List.replicate n {}) = some x ∧
    Pass.next imageJson x.1 x.2 {} = some r ∧
    run (Pass.step imageJson) (r.1.apply x.1, r.2) (List.replicate m {}) = some y

theorem exists_splitsAt {β : Type} {s : State} {n m : ℕ}
    {f : State × Pass → Act × Pass → State × Pass → β} {b : β}
    (h : ((run (Pass.step imageJson) (s, .start) (List.replicate n {})).bind fun x =>
      (Pass.next imageJson x.1 x.2 {}).bind fun r =>
        (run (Pass.step imageJson) (r.1.apply x.1, r.2) (List.replicate m {})).map (f x r)) =
      some b) : ∃ x r y, SplitsAt s n x r m y ∧ f x r y = b := by
  obtain ⟨x, hx, h⟩ := Option.bind_eq_some_iff.mp h
  obtain ⟨r, hr, h⟩ := Option.bind_eq_some_iff.mp h
  obtain ⟨y, hy, h⟩ := Option.map_eq_some_iff.mp h
  exact ⟨x, r, y, ⟨hx, hr, hy⟩, h⟩

/-- The older one goes, from the small pool, from memory to disk, and from disk. -/
theorem evict_least_recently_used_twoKeys :
    (∃ x r y, SplitsAt twoKeys 4 x r 10 y ∧ r.1 = .dropRedis [97] ∧ y.2.phase = .done ∧
      y.1.InSmallPool (.redis [98]) ∧ 1 ≤ 2) ∧
    (∃ x r y, SplitsAt twoLarge 6 x r 10 y ∧ r.1 = .moveRedis [97] 1025 1 0 ∧ y.2.phase = .done ∧
      y.1.InLargePool (.redis [98]) ∧ 1 ≤ 2) ∧
    ∃ x r y, SplitsAt twoOnDisk 4 x r 10 y ∧ r.1 = .dropRedis [97] ∧ y.2.phase = .done ∧
      y.1.OnDisk (.redis [98]) ∧ 1 ≤ 2 := by
  refine ⟨?_, ?_, ?_⟩
  · obtain ⟨x, r, y, ⟨hx, hr, hy⟩, hend⟩ := exists_splitsAt (s := twoKeys) (n := 4) (m := 10)
      (f := fun x r y => (r.1, x.2.arm x.1.config, y.2.phase, y.1.redisEntries.lookup [98]))
      (b := (.dropRedis [97], some .smallMemory, .done, some (.inMemory [2] 1 2))) (by decide +kernel)
    simp only [Prod.mk.injEq] at hend
    obtain ⟨hact, harm, hdone, hl⟩ := hend
    have hstay : y.1.InSmallPool (.redis [98]) := ⟨[2], 1, 2, hl, by decide⟩
    have hle := (evict_least_recently_used imageJson hx hr hy
      (by decide +kernel : twoKeys.accessTime (.redis [97]) = some 1)
      (by decide +kernel : twoKeys.accessTime (.redis [98]) = some 2)).1 (by rw [hact]; rfl) harm hstay
    exact ⟨x, r, y, ⟨hx, hr, hy⟩, hact, hdone, hstay, hle⟩
  · obtain ⟨x, r, y, ⟨hx, hr, hy⟩, hend⟩ := exists_splitsAt (s := twoLarge) (n := 6) (m := 10)
      (f := fun _ r y => (r.1, y.2.phase, y.1.redisEntries.lookup [98]))
      (b := (.moveRedis [97] 1025 1 0, .done, some (.inMemory (List.replicate 1025 2) 1 2)))
      (by decide +kernel)
    simp only [Prod.mk.injEq] at hend
    obtain ⟨hact, hdone, hl⟩ := hend
    have hstay : y.1.InLargePool (.redis [98]) :=
      ⟨List.replicate 1025 2, 1, 2, hl, by rw [List.length_replicate]; decide⟩
    have hle := (evict_least_recently_used imageJson hx hr hy
      (by decide +kernel : twoLarge.accessTime (.redis [97]) = some 1)
      (by decide +kernel : twoLarge.accessTime (.redis [98]) = some 2)).2.1 (by rw [hact]; rfl) hstay
    exact ⟨x, r, y, ⟨hx, hr, hy⟩, hact, hdone, hstay, hle⟩
  · obtain ⟨x, r, y, ⟨hx, hr, hy⟩, hend⟩ := exists_splitsAt (s := twoOnDisk) (n := 4) (m := 10)
      (f := fun x r y => (r.1, x.2.arm x.1.config, y.2.phase, y.1.redisEntries.lookup [98]))
      (b := (.dropRedis [97], some .disk, .done, some (.onDisk 4 1 2))) (by decide +kernel)
    simp only [Prod.mk.injEq] at hend
    obtain ⟨hact, harm, hdone, hl⟩ := hend
    have hstay : y.1.OnDisk (.redis [98]) := ⟨4, 1, 2, hl⟩
    have hle := (evict_least_recently_used imageJson hx hr hy
      (by decide +kernel : twoOnDisk.accessTime (.redis [97]) = some 1)
      (by decide +kernel : twoOnDisk.accessTime (.redis [98]) = some 2)).2.2.2 (by decide +kernel)
      (by rw [hact]; rfl) harm hstay
    exact ⟨x, r, y, ⟨hx, hr, hy⟩, hact, hdone, hstay, hle⟩

end Dockfoxprox

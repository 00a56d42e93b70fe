import Dockfoxprox.Proofs.Leaks

/-! The sizes that an eviction pass records for the Redis values it spills, while clients
replace values. The size comes from the candidate of the scan and the bytes from the entry
found when the candidate is popped. -/

namespace Dockfoxprox

open MapSum Tiered

/-- The value that a step of the loop takes from the map to spill it, with the size that its
candidate has. -/
def Phase.fetched : Phase → Phase → Option (Bytes × ℕ)
  | .loop, .redisWrite _ size _ value _ => some (value, size)
  | _, _ => none

namespace Pass

/-- Candidates of the large heap stand for large values, and a spill under way holds as many
bytes as its candidate says. -/
structure Sizes (p : Pass) : Prop where
  heap : ∀ key t size, .redis key t size ∈ p.heap .largeMemory → memoryTierThreshold < size
  phase : ∀ key size t value id, p.phase = .redisWrite key size t value id ∨
    p.phase = .redisInsert key size t value id → value.length = size ∧ memoryTierThreshold < size

theorem Sizes.start : Sizes start := by
  constructor
  · intro key t size h
    cases h
  · rintro key size t value id (h | h) <;> cases h

section
variable {fromSlice : Bytes → Option Json} {s : State} {p p' : Pass} {c : Choice} {a : Act}

/-- A step after which no spill of a Redis value is under way. -/
theorem Sizes.of_heap (h : Sizes p)
    (hh : ∀ key t size, .redis key t size ∈ p'.heap .largeMemory →
      .redis key t size ∈ p.heap .largeMemory)
    (hp : ∀ key size t value id, p'.phase ≠ .redisWrite key size t value id ∧
      p'.phase ≠ .redisInsert key size t value id) : Sizes p' := by
  constructor
  · exact fun key t size hm => h.heap key t size (hh key t size hm)
  · rintro key size t value id (hph | hph)
    · exact absurd hph (hp key size t value id).1
    · exact absurd hph (hp key size t value id).2

/-- A large candidate of the scan stands for a large value. -/
theorem Sizes.scanRedisEntry (h : ∀ key t size, .redis key t size ∈ p.heap .largeMemory →
    memoryTierThreshold < size) (k : Bytes) (e : RedisEntry) (key : Bytes) (t size : ℕ)
    (hm : .redis key t size ∈ (scanRedisEntry p k e).heap .largeMemory) :
    memoryTierThreshold < size := by
  have hpush {pool : Pool} {size' : ℕ} (t' : ℕ)
      (hl : pool = .largeMemory → memoryTierThreshold < size')
      (hm : .redis key t size ∈ ((p.count .smallRedisMemory k.length).push pool
        (.redis k t' size')).heap .largeMemory) : memoryTierThreshold < size := by
    rcases mem_push hm with ⟨hpool, hc⟩ | hm
    · cases hc
      exact hl hpool.symm
    · exact h key t size hm
  unfold Pass.scanRedisEntry at hm
  cases e with
  | onDisk size' id t' =>
    have hl : Pool.disk = .largeMemory → memoryTierThreshold < size' := by simp
    exact hpush t' hl hm
  | inMemory value id t' =>
    simp only at hm
    split at hm
    · have hl : Pool.largeMemory = .largeMemory → memoryTierThreshold < value.length := fun _ => ‹_›
      exact hpush t' hl hm
    · have hl : Pool.smallMemory = .largeMemory → memoryTierThreshold < value.length := by simp
      exact hpush t' hl hm

theorem Sizes.step (h : Sizes p) (hs : Step fromSlice s p c a p')
    (hf : ∀ f ∈ p.phase.fetched p'.phase, f.1.length = f.2) : Sizes p' := by
  cases hs with
  | begin hp => exact h.of_heap (fun _ _ _ hm => hm) (by simp)
  | scanBlobs hp =>
    refine h.of_heap (fun key t size hm => ?_) (by simp)
    have hall : (s.blobs.foldl scanBlob p).heap = p.heap :=
      foldl_rule (P := fun q : Pass => q.heap = p.heap) s.blobs (fun _ _ _ hq => hq) rfl
    simpa [hall] using hm
  | scanManifests hp =>
    refine h.of_heap (fun key t size hm => ?_) (by simp)
    refine foldl_rule (P := fun q : Pass => ∀ key t size, .redis key t size ∈ q.heap .largeMemory →
      .redis key t size ∈ p.heap .largeMemory) s.manifests (fun q e _ hq key t size hm => ?_)
      (fun _ _ _ hm => hm) key t size hm
    exact hq key t size (redis_mem_scanManifest hm)
  | scanRedis hp =>
    constructor
    · intro key t size hm
      refine foldl_rule (P := fun q : Pass => ∀ key t size, .redis key t size ∈ q.heap .largeMemory →
        memoryTierThreshold < size) s.redisEntries (fun q e _ hq => ?_) h.heap key t size hm
      exact Sizes.scanRedisEntry hq e.1 e.2
    · rintro key size t value id (hph | hph) <;> cases hph
  | fetchRedis hp ha hpop hfetch =>
    constructor
    · exact fun key t size hm => h.heap key t size (mem_popped hpop hm)
    · rintro key size t value id (hph | hph)
      · have hlen : value.length = size := hf (value, size) (by rw [hp, hph]; rfl)
        cases hph
        exact ⟨hlen, h.heap _ _ _ (popOldest_mem hpop).1⟩
      · cases hph
  | redisWrite hp hw =>
    constructor
    · exact h.heap
    · rintro key size t value id (hph | hph)
      · cases hph
      · cases hph
        exact h.phase _ _ _ _ _ (.inl hp)
  | redisInsert hp =>
    refine h.of_heap (fun key t size hm => ?_) (by simp)
    rw [goto_heap] at hm
    rcases mem_push hm with ⟨hc, -⟩ | hm
    · cases hc
    · exact hm
  | spillEnd hp ht =>
    refine h.of_heap (fun key t size hm => ?_) (by simp)
    rw [goto_heap] at hm
    exact redis_mem_push hm
  | stale hp ha hpop hst =>
    exact h.of_heap (fun key t size hm => mem_popped hpop hm) (by simp [hp])
  | dropRedis hp hb ha hpop he =>
    exact h.of_heap (fun key t size hm => mem_popped hpop hm) (by simp [hp])
  | dropManifest hp hl ha hpop hm =>
    exact h.of_heap (fun key t size hm => mem_popped hpop hm) (by simp)
  | spillManifest hp ha hpop hm =>
    exact h.of_heap (fun key t size hm => mem_popped hpop hm) (by simp)
  | @cascadeDrop old r todo bb blob hp hb hr ht hl =>
    refine h.of_heap (fun key t size hm => hm) ?_
    cases blob <;> simp [afterCascade]
  | @sweepDrop todo d bb blob hp hd hb hr ht hl =>
    refine h.of_heap (fun key t size hm => hm) ?_
    cases blob <;> simp [afterSweep]
  | _ => exact h.of_heap (fun _ _ _ hm => hm) (by simp)

end

end Pass

theorem DiskSized.hit {s : State} {created : DashMap ℕ Bytes} {d : Digest} {b : Blob} {now : ℕ}
    (h : DiskSized s created) (hb : s.blobs.lookup d = some b) :
    DiskSized { s with blobs := s.blobs.insert d (b.touch now) } created := by
  intro id size hq
  refine h id size (State.mem_diskSizes.mpr ?_)
  rcases State.mem_diskSizes.mp hq with ⟨d', b', hd, hs⟩ | hr
  · simp only [lookup_insert_apply] at hd
    split at hd
    · cases hd
      refine .inl ⟨d, b, hb, ?_⟩
      cases b <;> exact hs
    · exact .inl ⟨d', b', hd, hs⟩
  · exact .inr hr

namespace CacheSys

/-- Each Redis entry on disk has the size of its file, and what the pass spills is larger
than the threshold. -/
structure Measured (x : CacheSys) : Prop where
  sized : ∀ key size id t, x.st.redisEntries.lookup key = some (.onDisk size id t) →
    ∃ content, x.st.files.lookup id = some content ∧ content.length = size
  large : ∀ key size t value id, x.pass.phase = .redisWrite key size t value id ∨
    x.pass.phase = .redisInsert key size t value id → memoryTierThreshold < value.length

/-- A value that the pass takes from the map to spill it is as long as the candidate of the
scan says. -/
def FetchesRecorded (x : CacheSys) (_ : CacheEvent) (x' : CacheSys) : Prop :=
  ∀ f ∈ x.pass.phase.fetched x'.pass.phase, f.1.length = f.2

instance (x x' : CacheSys) (e : CacheEvent) : Decidable (FetchesRecorded x e x') :=
  inferInstanceAs (Decidable (∀ f ∈ x.pass.phase.fetched x'.pass.phase, f.1.length = f.2))

/-- The invariant behind `Measured`. -/
structure SizesOk (x : CacheSys) : Prop where
  inv : Inv x.store
  sized : DiskSized x.st x.created
  pass : x.pass.Sizes

variable {password : Option Bytes} {fromSlice : Bytes → Option Json} {x x' : CacheSys}
  {e : CacheEvent}

theorem SizesOk.measured (h : x.SizesOk) : x.Measured := by
  constructor
  · intro key size id t hk
    have hslot : x.st.slot (.inr key) = some (.disk id) := State.slot_redis hk
    obtain ⟨b, hfile, hcreated⟩ := h.inv.filed (.inr key) id hslot
    obtain ⟨v, hv, hlen⟩ := h.sized id size (State.mem_diskSizes.mpr (.inr ⟨key, _, hk, rfl⟩))
    obtain rfl : b = v := Option.some.inj (hcreated.symm.trans hv)
    exact ⟨b, hfile, hlen⟩
  · intro key size t value id hp
    obtain ⟨hlen, hlarge⟩ := h.pass.phase key size t value id hp
    omega

/-- A hit stores an access time, also into a blob that a spill holds. -/
theorem sizes_touch {p : Pass} (h : p.Sizes) (d : Digest) (b : Blob) (now : ℕ) :
    (p.goto (p.phase.touch d b now)).Sizes := by
  refine ⟨h.heap, fun key size t value id hp => h.phase key size t value id ?_⟩
  revert hp
  cases hph : p.phase <;> simp [Phase.touch]

theorem SizesOk.step (h : x.SizesOk) (hc : x.FetchesRecorded e x')
    (hs : x.step password fromSlice e = some x') : x'.SizesOk := by
  have hinv : Inv x'.store := CacheSys.step_keeps (fun z op z' hz hop => hz.step hop) h.inv hs
  refine ⟨hinv, ?_, ?_⟩
  · cases e with
    | tick now => cases hs; exact h.sized
    | hit d =>
      simp only [CacheSys.step, CacheSys.hit] at hs
      split at hs <;> cases hs
      exact h.sized.hit ‹_›
    | storeBlob d content mt => cases hs; exact h.sized.storeBlob d content mt
    | storeManifest d content mt => cases hs; exact h.sized
    | connect cmds => cases hs; exact h.sized
    | conn i =>
      simp only [CacheSys.step] at hs
      split at hs <;> cases hs
      exact (DiskSized.connRule x.created).step password _ h.sized
    | unlink i =>
      obtain ⟨s', hu, rfl⟩ := Option.map_eq_some_iff.mp hs
      unfold State.runUnlink at hu
      split at hu <;> cases hu
      exact h.sized
    | evict c =>
      obtain ⟨⟨a, p'⟩, hn, rfl⟩ := Option.map_eq_some_iff.mp hs
      refine h.sized.evict h.inv (fun key size t value id hp => ?_) (Pass.step_of_next hn)
      exact (h.pass.phase key size t value id (.inr hp)).1
    | nextPass =>
      simp only [CacheSys.step] at hs
      split at hs <;> cases hs
      exact h.sized
  · cases e with
    | hit d =>
      simp only [CacheSys.step, CacheSys.hit] at hs
      split at hs <;> cases hs
      exact sizes_touch h.pass d _ _
    | conn i =>
      simp only [CacheSys.step] at hs
      split at hs <;> cases hs
      exact h.pass
    | unlink i =>
      obtain ⟨s', -, rfl⟩ := Option.map_eq_some_iff.mp hs
      exact h.pass
    | evict c =>
      obtain ⟨⟨a, p'⟩, hn, rfl⟩ := Option.map_eq_some_iff.mp hs
      exact h.pass.step (Pass.step_of_next hn) hc
    | nextPass =>
      simp only [CacheSys.step] at hs
      split at hs <;> cases hs
      exact .start
    | _ => cases hs; exact h.pass

/-- In every state a server reaches, Redis entries on disk have the sizes of their files and
only large values are spilled, as long as each value that the pass takes to spill it is as
long as its candidate says. -/
theorem spilled_sizes_of_recorded (password : Option Bytes) (fromSlice : Bytes → Option Json)
    {s : State} (h : s.Intact) (hsize : DiskSized s s.files) (events : List CacheEvent)
    (hc : Machine.Along (CacheSys.step password fromSlice) FetchesRecorded (.init s) events) :
    Machine.Along (CacheSys.step password fromSlice) (fun _ _ x => x.Measured) (.init s) events := by
  have h0 : (CacheSys.init s).SizesOk := ⟨h.inv, hsize, .start⟩
  refine Machine.along_of_invariant (fun x e x' hx hf hs => ?_) h0 hc
  have hx' := hx.step hf hs
  exact ⟨hx', hx'.measured⟩

/-- A client sets a large value that a pass then spills, another client a small one. -/
def quietSpill : List CacheEvent :=
  [.connect [[utf8 "SET", [107], List.replicate 1025 97]], .conn 0] ++
    List.replicate 4 (.evict {}) ++ [.connect [[utf8 "SET", [108], [98]]], .conn 1] ++
    List.replicate 3 (.evict {})

theorem spilled_sizes_of_recorded_quiet :
    Machine.Along (CacheSys.step none fun _ => none) (fun _ _ x => x.Measured)
      (.init (State.new ⟨0, none, 5000⟩ 0)) quietSpill :=
  spilled_sizes_of_recorded none _ (State.Intact.new _ _) (by simp [DiskSized, State.diskSizes,
    State.new]) quietSpill (by decide +kernel)

/-- A SET between the scan and the spill of its key: one byte is spilled and counted as 1025. -/
theorem spill_records_stale_size :
    (Machine.run (CacheSys.step none fun _ => none) (.init (State.new ⟨0, none, 5000⟩ 0))
      ([.connect [[utf8 "SET", [107], List.replicate 1025 97], [utf8 "SET", [107], [98]]],
        .conn 0] ++ List.replicate 4 (.evict {}) ++ [.conn 0] ++
        List.replicate 3 (.evict {}))).map (fun x => (x.st.redisEntries.lookup [107],
          x.st.files.lookup 1)) =
      some (some (.onDisk 1025 1 0), some [98]) := by
  decide +kernel

end CacheSys

end Dockfoxprox

import Dockfoxprox.Proofs.Collection
import Dockfoxprox.Proofs.EvictUsage
import Dockfoxprox.Proofs.Serial

/-! Files and the entries on disk in runs without interleaving. As long as no upload goes
over a blob on disk, the files left once the unlink tasks have run are those of the entries
on disk, and their bytes are what `recompute_usage` counts for the disk. -/

namespace Dockfoxprox

open MapSum Tiered

/-! ### What a pass knows of the maps while nothing else touches them -/

namespace Pass

/-- The scans saw the maps as they are, and after them the tables agree with the maps. -/
def Steady (fromSlice : Bytes → Option Json) (s : State) (p : Pass) : Prop :=
  match p.phase with
  | .begin => p = start
  | .scanBlobs => ∃ n, p = scan₀ { s with now := n }
  | .scanManifests => ∃ n, p = scan₁ { s with now := n }
  | .scanRedis => ∃ n, p = scan₂ fromSlice { s with now := n }
  | .done | .failed => True
  | _ => Agrees s p

variable {fromSlice : Bytes → Option Json} {s s' : State} {p p' : Pass} {c : Choice} {a : Act}

theorem Agrees.steady (h : Agrees s p) : Steady fromSlice s p := by
  have hh := h.holds
  unfold Steady
  split
  iterate 4
    rename_i hp
    rw [hp] at hh
    exact hh.elim
  iterate 2 trivial
  exact h

theorem Steady.of_idle (h : Steady fromSlice s p) (hi : p.phase = .begin ∨ p.ended) :
    Steady fromSlice s' p := by
  unfold Steady at h ⊢
  rcases hi with hp | hp
  · rw [hp] at h ⊢
    exact h
  · rcases of_decide_eq_true hp with hp | hp <;> rw [hp] <;> trivial

theorem Steady.frame (h : Steady fromSlice s p) (hb : s'.blobs = s.blobs)
    (hm : s'.manifests = s.manifests) (hr : s'.redisEntries = s.redisEntries) :
    Steady fromSlice s' p := by
  unfold Steady at h ⊢
  split at h
  · exact h
  · exact h
  · obtain ⟨n, h⟩ := h
    refine ⟨n, h.trans ?_⟩
    simp only [scan₁, scan₀, hb]
  · obtain ⟨n, h⟩ := h
    refine ⟨n, h.trans ?_⟩
    simp only [scan₂, scan₁, scan₀, hb, hm]
  · trivial
  · trivial
  · exact h.frame rfl rfl hb hr h.holds

/-- What a spill holds is still in the map. -/
theorem Steady.holds (h : Steady fromSlice s p) {g : Hold Owner Bytes} (hg : p.phase.hold = some g) :
    Holds s p.phase := by
  unfold Steady at h
  split at h
  case h_7 => exact h.holds
  all_goals
    rename_i hp
    rw [hp] at hg
    cases hg

/-- A Redis spill holds as many bytes as its candidate says. -/
theorem Steady.redisInsert_length (h : Steady fromSlice s p) (key : Bytes) (size t : ℕ)
    (value : Bytes) (id : ℕ) (hp : p.phase = .redisInsert key size t value id) :
    value.length = size := by
  have hh := h.holds (g := ⟨.inr key, id, value, true⟩) (by rw [hp]; rfl)
  rw [hp] at hh
  exact hh.2.1

theorem Steady.step (h : Steady fromSlice s p) (hs : Step fromSlice s p c a p') :
    Steady fromSlice (a.apply s) p' := by
  have hs' := hs
  unfold Steady at h
  cases hs with
  | begin hp =>
    rw [hp] at h
    subst h
    exact ⟨s.now, rfl⟩
  | scanBlobs hp =>
    rw [hp] at h
    obtain ⟨n, rfl⟩ := h
    exact ⟨n, rfl⟩
  | scanManifests hp =>
    rw [hp] at h
    obtain ⟨n, rfl⟩ := h
    exact ⟨n, rfl⟩
  | scanRedis hp =>
    rw [hp] at h
    obtain ⟨n, rfl⟩ := h
    have hag : Agrees { s with now := n } (scanned fromSlice { s with now := n }) :=
      (scanned_spec _).agrees
    have hag' : Agrees s (scanned fromSlice { s with now := n }) :=
      hag.frame rfl rfl rfl rfl hag.holds
    exact hag'.steady
  | writeFailed hp hw =>
    have hag : Agrees s p := by
      rcases hp with ⟨sp, r, held, hp, -⟩ | ⟨key, size, t, value, hp⟩
      · rw [hp] at h
        exact h
      · rw [hp] at h
        exact h
    exact (hag.step hs').steady
  | _ hp =>
    rw [hp] at h
    exact (Agrees.step h hs').steady

end Pass

/-! ### The sizes of the entries on disk -/

/-- The id and the size of a blob on disk. -/
def Blob.diskSize : Blob → Option (ℕ × ℕ)
  | .onDisk id size _ _ => some (id, size)
  | .inMemory _ _ _ _ => none

def RedisEntry.diskSize : RedisEntry → Option (ℕ × ℕ)
  | .onDisk size id _ => some (id, size)
  | .inMemory _ _ _ => none

def State.diskSizes (s : State) : List (ℕ × ℕ) :=
  s.blobs.entries.filterMap (fun e => e.2.diskSize) ++
    s.redisEntries.entries.filterMap fun e => e.2.diskSize

theorem State.mem_diskSizes {s : State} {q : ℕ × ℕ} : q ∈ s.diskSizes ↔
    (∃ d b, s.blobs.lookup d = some b ∧ b.diskSize = some q) ∨
      ∃ k e, s.redisEntries.lookup k = some e ∧ e.diskSize = some q := by
  simp only [diskSizes, List.mem_append, List.mem_filterMap, Sigma.exists, mem_entries]

theorem State.slot_of_diskSizes {s : State} {id size : ℕ} (h : (id, size) ∈ s.diskSizes) :
    ∃ o, s.slot o = some (.disk id) := by
  rcases mem_diskSizes.mp h with ⟨d, b, hb, hq⟩ | ⟨k, e, he, hq⟩
  · cases b <;> cases hq
    exact ⟨.inl d, slot_blob hb⟩
  · cases e <;> cases hq
    exact ⟨.inr k, slot_redis he⟩

/-- Each entry on disk has the size of what was written when it was created. -/
def DiskSized (s : State) (created : DashMap ℕ Bytes) : Prop :=
  ∀ id size, (id, size) ∈ s.diskSizes → ∃ v, created.lookup id = some v ∧ v.length = size

namespace DiskSized

variable {s s' : State} {created : DashMap ℕ Bytes}

/-- Sizes stay right when no entry on disk is new. -/
theorem of_le (h : DiskSized s created)
    (hb : ∀ d b q, s'.blobs.lookup d = some b → b.diskSize = some q → s.blobs.lookup d = some b)
    (hr : ∀ k e q, s'.redisEntries.lookup k = some e → e.diskSize = some q →
      s.redisEntries.lookup k = some e) : DiskSized s' created := by
  intro id size hq
  refine h id size (State.mem_diskSizes.mpr ?_)
  rcases State.mem_diskSizes.mp hq with ⟨d, b, hd, hs⟩ | ⟨k, e, hk, hs⟩
  · exact .inl ⟨d, b, hb d b _ hd hs, hs⟩
  · exact .inr ⟨k, e, hr k e _ hk hs, hs⟩

/-- A value in memory under a key adds no size. -/
theorem lookup_insert_mem {m : DashMap Bytes RedisEntry} {k k' value : Bytes} {id t : ℕ}
    {e : RedisEntry} {q : ℕ × ℕ} (h : (m.insert k (.inMemory value id t)).lookup k' = some e)
    (hq : e.diskSize = some q) : m.lookup k' = some e := by
  rw [lookup_insert_apply] at h
  split at h
  · cases h
    cases hq
  · exact h

theorem connRule (created : DashMap ℕ Bytes) : ConnRule fun s => DiskSized s created where
  set s k v h := by
    obtain ⟨u, hs⟩ := s.insertRedis_eq k v
    rw [hs]
    exact h.of_le (fun _ _ _ hb _ => hb) fun k' e q he hq => lookup_insert_mem he hq
  del s k h := by
    obtain ⟨u, hs⟩ := s.removeRedis_eq k
    rw [hs]
    exact h.of_le (fun _ _ _ hb _ => hb) fun k' e q he _ => Pass.lookup_of_erase he
  flush s h := by
    refine h.of_le (fun _ _ _ hb _ => hb) fun k' e q he _ => ?_
    simp [State.flushRedis] at he
  touch s k value id t hl h :=
    h.of_le (fun _ _ _ hb _ => hb) fun k' e q he hq => lookup_insert_mem he hq

theorem storeBlob (h : DiskSized s created) (d : Digest) (content : Bytes) (mt : String) :
    DiskSized (s.storeBlob d content mt) created := by
  obtain ⟨u, hs⟩ := storeBlob_eq s d content mt
  rw [hs]
  refine h.of_le (fun d' b q hb hq => ?_) fun _ _ _ he _ => he
  simp only [lookup_insert_apply] at hb
  split at hb
  · cases hb
    cases hq
  · exact hb

end DiskSized

/-- A step of a pass that creates an entry on disk, and every other one. -/
inductive Pass.Creates (p : Pass) : Act → Prop
  | blob {sp : ManifestSpill} {r : Digest} {held : HeldBlob}
      (hp : p.phase = .spillInsert sp r held) :
    Creates p (.moveBlob r (.onDisk held.id held.content.length held.mediaType held.lastAccessed))
  | redis {key value : Bytes} {size t id : ℕ} (hp : p.phase = .redisInsert key size t value id) :
    Creates p (.moveRedis key size t id)
  | nothing {a : Act} (hc : p.phase.creates = none) (hb : ∀ d b, a ≠ .moveBlob d b)
      (hr : ∀ key size t id, a ≠ .moveRedis key size t id) : Creates p a

theorem Pass.Step.creates {fromSlice : Bytes → Option Json} {s : State} {p p' : Pass} {c : Choice}
    {a : Act} (hs : Pass.Step fromSlice s p c a p') : p.Creates a := by
  cases hs with
  | spillInsert hp => exact .blob hp
  | redisInsert hp => exact .redis hp
  | @writeFailed id leftover hp hw =>
    have hc : p.phase.creates = none := by
      rcases hp with ⟨sp, r, held, hp, -⟩ | ⟨key, size, t, value, hp⟩ <;> rw [hp] <;> rfl
    cases leftover <;> exact .nothing hc nofun nofun
  | cascadeUnlink hp | sweepUnlink hp =>
    unfold unlink
    split <;> exact .nothing (by rw [hp]; rfl) nofun nofun
  | _ hp => exact .nothing (by rw [hp]; rfl) nofun nofun

/-- Sizes that were right stay so when a file is created under an id that none of them has,
and so is the size of what it was created with. -/
theorem sized_insert {Q Q' : ℕ → ℕ → Prop} {created : DashMap ℕ Bytes} {i : ℕ} {w : Bytes}
    (h : ∀ id size, Q id size → ∃ v, created.lookup id = some v ∧ v.length = size)
    (hne : ∀ id size, Q id size → id ≠ i)
    (hnew : ∀ id size, Q' id size → (id = i ∧ size = w.length) ∨ Q id size) (id size : ℕ)
    (hq : Q' id size) : ∃ v, (created.insert i w).lookup id = some v ∧ v.length = size := by
  rcases hnew id size hq with ⟨rfl, rfl⟩ | hold
  · exact ⟨w, AList.lookup_insert created, rfl⟩
  · obtain ⟨v, hv, hlen⟩ := h id size hold
    exact ⟨v, (AList.lookup_insert_ne (hne id size hold)).trans hv, hlen⟩

/-- The entry a spill creates has the size of the bytes it wrote. -/
theorem DiskSized.publish {s s' : State} {ph : Phase} {created : DashMap ℕ Bytes}
    {g : Hold Owner Bytes} (h : DiskSized s created) (hi : Inv (cacheStore s ph created))
    (hg : ph.hold = some g)
    (hnew : ∀ id size, (id, size) ∈ s'.diskSizes →
      (id = g.id ∧ size = g.value.length) ∨ (id, size) ∈ s.diskSizes) :
    DiskSized s' (created.insert g.id g.value) := by
  refine sized_insert h (fun id size hold => ?_) hnew
  obtain ⟨o, ho⟩ := State.slot_of_diskSizes hold
  exact hi.held_ne_disk hg ho

theorem DiskSized.evict {fromSlice : Bytes → Option Json} {s : State} {p p' : Pass} {c : Choice}
    {a : Act} {created : DashMap ℕ Bytes} (h : DiskSized s created)
    (hi : Inv (cacheStore s p.phase created))
    (hlen : ∀ key size t value id, p.phase = .redisInsert key size t value id → value.length = size)
    (hs : Pass.Step fromSlice s p c a p') : DiskSized (a.apply s) (p.phase.record created) := by
  cases hs.creates with
  | @blob sp r held hp =>
    have hrec : p.phase.record created = created.insert held.id held.content := by rw [hp]; rfl
    rw [hrec]
    refine h.publish (g := ⟨.inl r, held.id, held.content, true⟩) hi (by rw [hp]; rfl)
      fun id size hq => ?_
    rcases State.mem_diskSizes.mp hq with ⟨d, b, hb, hsz⟩ | ⟨k, e, he, hsz⟩
    · simp only [Act.apply_blobs, Act.onBlobs, lookup_insert_apply] at hb
      split at hb
      · cases hb
        cases hsz
        exact .inl ⟨rfl, rfl⟩
      · exact .inr (State.mem_diskSizes.mpr (.inl ⟨d, b, hb, hsz⟩))
    · exact .inr (State.mem_diskSizes.mpr (.inr ⟨k, e, by simpa [Act.onRedis] using he, hsz⟩))
  | @redis key value size t id hp =>
    have hrec : p.phase.record created = created.insert id value := by rw [hp]; rfl
    rw [hrec]
    refine h.publish (g := ⟨.inr key, id, value, true⟩) hi (by rw [hp]; rfl) fun i n hq => ?_
    rcases State.mem_diskSizes.mp hq with ⟨d, b, hb, hsz⟩ | ⟨k, e, he, hsz⟩
    · exact .inr (State.mem_diskSizes.mpr (.inl ⟨d, b, by simpa [Act.onBlobs] using hb, hsz⟩))
    · simp only [Act.apply_redisEntries, Act.onRedis, lookup_insert_apply] at he
      split at he
      · cases he
        cases hsz
        exact .inl ⟨rfl, (hlen _ _ _ _ _ hp).symm⟩
      · exact .inr (State.mem_diskSizes.mpr (.inr ⟨k, e, he, hsz⟩))
  | nothing hc hb hr =>
    have hrec : p.phase.record created = created := by simp only [Phase.record, hc]
    rw [hrec]
    refine h.of_le (fun d b q hl _ => ?_) fun k e q hl _ => ?_
    · rw [Act.apply_blobs] at hl
      cases a with
      | moveBlob d b => exact absurd rfl (hb d b)
      | dropBlob d => exact Pass.lookup_of_erase hl
      | _ => exact hl
    · rw [Act.apply_redisEntries] at hl
      cases a with
      | moveRedis key size t id => exact absurd rfl (hr key size t id)
      | dropRedis key => exact Pass.lookup_of_erase hl
      | _ => exact hl

/-! ### Runs -/

namespace SerialSys

/-- Every file is accounted for and every size is right. -/
structure Clean (fromSlice : Bytes → Option Json) (x : SerialSys) (created : DashMap ℕ Bytes) :
    Prop where
  good : x.Good created
  accounted : Accounted (x.store created)
  steady : Pass.Steady fromSlice x.st x.pass
  sized : DiskSized x.st created

variable {fromSlice : Bytes → Option Json} {x x' : SerialSys} {e : SerialEvent}
  {created : DashMap ℕ Bytes}

theorem Clean.steady_step (h : x.Clean fromSlice created) (hs : x.step fromSlice e = some x') :
    Pass.Steady fromSlice x'.st x'.pass := by
  cases e with
  | tick now => cases hs; exact h.steady.frame rfl rfl rfl
  | storeBlob d content mt =>
    simp only [SerialSys.step] at hs
    split at hs <;> cases hs
    exact h.steady.of_idle (idle_iff.mp ‹_›).1
  | storeManifest d content mt =>
    simp only [SerialSys.step] at hs
    split at hs <;> cases hs
    exact h.steady.of_idle (idle_iff.mp ‹_›).1
  | command args =>
    simp only [SerialSys.step] at hs
    split at hs <;> cases hs
    rename_i hc
    exact h.steady.of_idle (idle_iff.mp hc.1).1
  | getStep =>
    simp only [SerialSys.step] at hs
    split at hs <;> cases hs
    rename_i hp
    exact h.steady.of_idle (h.good.apart.2 (by simp [hp]))
  | unlink i =>
    obtain ⟨s', hu, rfl⟩ := Option.map_eq_some_iff.mp hs
    unfold State.runUnlink at hu
    split at hu <;> cases hu
    exact h.steady.frame rfl rfl rfl
  | evict pick =>
    simp only [SerialSys.step] at hs
    split at hs
    · obtain ⟨⟨a, p'⟩, hn, rfl⟩ := Option.map_eq_some_iff.mp hs
      exact h.steady.step (Pass.step_of_next hn)
    · cases hs
  | nextPass =>
    simp only [SerialSys.step] at hs
    split at hs <;> cases hs
    rfl

theorem Clean.sized_step (h : x.Clean fromSlice created) (hs : x.step fromSlice e = some x') :
    DiskSized x'.st (x.record e created) := by
  cases e with
  | tick now => cases hs; exact h.sized
  | storeBlob d content mt =>
    simp only [SerialSys.step] at hs
    split at hs <;> cases hs
    exact h.sized.storeBlob d content mt
  | storeManifest d content mt =>
    simp only [SerialSys.step] at hs
    split at hs <;> cases hs
    exact h.sized
  | command args =>
    simp only [SerialSys.step] at hs
    split at hs <;> cases hs
    exact (DiskSized.connRule created).dispatch none _ args h.sized
  | getStep =>
    simp only [SerialSys.step] at hs
    split at hs <;> cases hs
    exact (DiskSized.connRule created).get _ h.sized
  | unlink i =>
    obtain ⟨s', hu, rfl⟩ := Option.map_eq_some_iff.mp hs
    unfold State.runUnlink at hu
    split at hu <;> cases hu
    exact h.sized
  | evict pick =>
    simp only [SerialSys.step] at hs
    split at hs
    · obtain ⟨⟨a, p'⟩, hn, rfl⟩ := Option.map_eq_some_iff.mp hs
      exact h.sized.evict h.good.inv h.steady.redisInsert_length (Pass.step_of_next hn)
    · cases hs
  | nextPass =>
    simp only [SerialSys.step] at hs
    split at hs <;> cases hs
    exact h.sized

theorem Clean.step (h : x.Clean fromSlice created) (hc : x.Calm e x')
    (hs : x.step fromSlice e = some x') : x'.Clean fromSlice (x.record e created) := by
  have hacc : Settled (x'.store (x.record e created)) ∧ Accounted (x'.store (x.record e created)) :=
    step_keeps (Q := fun y => Settled y ∧ Accounted y) h.good.apart
      (fun y op y' hop ha ht hy => ⟨hy.1.step ha hop, hy.2.step hy.1 (ht hc) hop⟩)
      ⟨h.good.settled, h.accounted⟩ hs
  exact ⟨h.good.step hs, hacc.2, h.steady_step hs, h.sized_step hs⟩

end SerialSys

/-! ### The bytes of the files -/

/-- The files are those of the entries on disk, each of them of one entry, and their bytes
are the disk usage recomputed from the maps. -/
structure State.NoLeak (s : State) : Prop where
  unique : s.diskIds.Nodup
  exact : ∀ id, (∃ b, s.files.lookup id = some b) ↔ id ∈ s.diskIds
  bytes : ((total (fun _ b => b.length) s.files : ℕ) : BitVec 64) =
    s.recomputed .blobDisk + s.recomputed .redisDisk

theorem filterMap_sublist_map {α β : Type} {f : α → Option β} {g : α → β}
    (h : ∀ x y, f x = some y → g x = y) (l : List α) : (l.filterMap f).Sublist (l.map g) := by
  induction l with
  | nil => exact .slnil
  | cons x l ih =>
    cases hx : f x with
    | none =>
      rw [List.filterMap_cons_none hx]
      exact ih.cons _
    | some y =>
      rw [List.filterMap_cons_some hx, ← h x y hx]
      exact ih.cons_cons _

/-- A sum over a map whose entries count what `f` says or nothing. -/
theorem total_eq_filterMap {α β : Type} {c : α → β → ℕ} {f : β → Option (ℕ × ℕ)}
    (h : ∀ k v, c k v = ((f v).map Prod.snd).getD 0) (m : DashMap α β) :
    total c m = ((m.entries.filterMap fun e => f e.2).map Prod.snd).sum := by
  unfold total
  induction m.entries with
  | nil => rfl
  | cons e es ih =>
    rw [List.map_cons, List.sum_cons, ih, h]
    cases hf : f e.2 with
    | none => simp [hf]
    | some q => simp [hf]

namespace State

variable {s : State}

theorem diskIds_sublist (s : State) : s.diskIds.Sublist s.ids := by
  refine List.Sublist.append (filterMap_sublist_map (fun e id h => ?_) _)
    (filterMap_sublist_map (fun e id h => ?_) _)
  · obtain ⟨d, b⟩ := e
    cases b <;> cases h
    rfl
  · obtain ⟨k, e⟩ := e
    cases e <;> cases h
    rfl

theorem diskSizes_fst (s : State) : s.diskSizes.map Prod.fst = s.diskIds := by
  have hb (b : Blob) : b.diskSize.map Prod.fst = b.diskId := by cases b <;> rfl
  have hr (e : RedisEntry) : e.diskSize.map Prod.fst = diskId e := by cases e <;> rfl
  simp only [diskSizes, diskIds, List.map_append, List.map_filterMap, hb, hr]

theorem diskSizes_sum (s : State) :
    (s.diskSizes.map Prod.snd).sum = s.bytesIn .blobDisk + s.bytesIn .redisDisk := by
  have hm (b : Bucket) (hb : b ≠ .manifestMemory) (k : Digest) (m : Manifest) :
      manifestCharge m b = ((none : Option (ℕ × ℕ)).map Prod.snd).getD 0 := by
    simp [manifestCharge, charge, hb]
  have hbb (k : Digest) (b : Blob) : blobCharge b .blobDisk = (b.diskSize.map Prod.snd).getD 0 := by
    cases b with
    | onDisk id size mt t => simp [blobCharge, charge, blobBucket, Blob.diskSize]
    | inMemory id content mt t =>
      simp only [blobCharge, charge, blobBucket, Blob.diskSize]
      split <;> simp
  have hbr (k : Digest) (b : Blob) :
      blobCharge b .redisDisk = ((none : Option (ℕ × ℕ)).map Prod.snd).getD 0 := by
    cases b with
    | onDisk id size mt t => simp [blobCharge, charge, blobBucket]
    | inMemory id content mt t =>
      simp only [blobCharge, charge, blobBucket]
      split <;> simp
  have hrb (k : Bytes) (e : RedisEntry) :
      redisCharge k e .blobDisk = ((none : Option (ℕ × ℕ)).map Prod.snd).getD 0 := by
    cases e with
    | onDisk size id t => simp [redisCharge, charge, redisValueBucket]
    | inMemory value id t =>
      simp only [redisCharge, charge, redisValueBucket]
      split <;> simp
  have hrr (k : Bytes) (e : RedisEntry) :
      redisCharge k e .redisDisk = (e.diskSize.map Prod.snd).getD 0 := by
    cases e with
    | onDisk size id t => simp [redisCharge, charge, redisValueBucket, RedisEntry.diskSize]
    | inMemory value id t =>
      simp only [redisCharge, charge, redisValueBucket, RedisEntry.diskSize]
      split <;> simp
  simp only [bytesIn, Pi.add_apply, total_apply, total_eq_filterMap (hm .blobDisk (by decide)),
    total_eq_filterMap (hm .redisDisk (by decide)), total_eq_filterMap hbb, total_eq_filterMap hbr,
    total_eq_filterMap hrb, total_eq_filterMap hrr, diskSizes, List.map_append, List.sum_append]
  simp

end State

/-- A state to start from whose files are all in use and whose sizes are right. -/
structure State.Tight (s : State) : Prop extends s.Intact where
  owned : ∀ id b, s.files.lookup id = some b → id ∈ s.diskIds
  sized : DiskSized s s.files

theorem State.Tight.new (config : Config) (now : ℕ) : (State.new config now).Tight := by
  refine ⟨.new config now, fun id b hb => ?_, fun id size hq => ?_⟩
  · simp [State.new] at hb
  · simp [State.new, State.diskSizes] at hq

theorem SerialSys.Clean.init (fromSlice : Bytes → Option Json) {s : State} (h : s.Tight) :
    (SerialSys.init s).Clean fromSlice s.files := by
  refine ⟨.init h.toIntact, fun id v hv => .inl ?_, rfl, h.sized⟩
  exact State.mem_diskIds.mp (h.owned id v hv)

/-- Nothing is left behind once the unlink tasks have run and no pass is under way. -/
theorem SerialSys.Clean.noLeak {fromSlice : Bytes → Option Json} {x : SerialSys}
    {created : DashMap ℕ Bytes} (h : x.Clean fromSlice created) (hu : x.st.unlinks = [])
    (hp : x.pass.phase = .begin ∨ x.pass.ended) : x.st.NoLeak := by
  have hinv := h.good.inv
  have hhold := hold_of_idle hp
  have hunlink : x.pass.phase.unlinking = none := by
    rcases hp with hp | hp
    · rw [hp]
      rfl
    · rcases of_decide_eq_true hp with hp | hp <;> rw [hp] <;> rfl
  have hnodup : x.st.diskIds.Nodup :=
    (State.diskIds_sublist x.st).nodup (State.nodup_ids.mpr hinv.distinct)
  have hfiled {id b} (hb : x.st.files.lookup id = some b) : ∃ o, x.st.slot o = some (.disk id) := by
    rcases h.accounted id b hb with ho | hd | ⟨g, hg, -⟩
    · exact ho
    · simp [SerialSys.store, cacheStore, hu, hunlink] at hd
    · rw [show (x.store created).held = none from hhold] at hg
      cases hg
  have hlen {id size b} (hq : (id, size) ∈ x.st.diskSizes) (hb : x.st.files.lookup id = some b) :
      b.length = size := by
    obtain ⟨o, ho⟩ := State.slot_of_diskSizes hq
    obtain ⟨v, hv, hcreated⟩ := hinv.filed o id ho
    obtain ⟨w, hw, hsize⟩ := h.sized id size hq
    have hbv : b = v := Option.some.inj (hb.symm.trans hv)
    have hwv : w = v := Option.some.inj (hw.symm.trans hcreated)
    rw [hbv, ← hwv, hsize]
  have hexact (id : ℕ) : (∃ b, x.st.files.lookup id = some b) ↔ id ∈ x.st.diskIds := by
    rw [State.mem_diskIds]
    constructor
    · rintro ⟨b, hb⟩
      exact hfiled hb
    · rintro ⟨o, ho⟩
      obtain ⟨v, hv, -⟩ := hinv.filed o id ho
      exact ⟨v, hv⟩
  -- the files and the entries on disk list the same ids with the same lengths
  have hperm : (x.st.files.entries.map fun e => (e.1, e.2.length)).Perm x.st.diskSizes := by
    rw [List.perm_ext_iff_of_nodup]
    · rintro ⟨id, size⟩
      simp only [List.mem_map, Sigma.exists, mem_entries, Prod.mk.injEq]
      constructor
      · rintro ⟨i, b, hb, rfl, rfl⟩
        obtain ⟨o, ho⟩ := hfiled hb
        have hmem : i ∈ x.st.diskSizes.map Prod.fst := by
          rw [State.diskSizes_fst, State.mem_diskIds]
          exact ⟨o, ho⟩
        obtain ⟨⟨j, n⟩, hq, rfl⟩ := List.mem_map.mp hmem
        rwa [hlen hq hb]
      · intro hq
        obtain ⟨o, ho⟩ := State.slot_of_diskSizes hq
        obtain ⟨v, hv, -⟩ := hinv.filed o id ho
        exact ⟨id, v, hv, rfl, hlen hq hv⟩
    · refine List.Nodup.of_map Prod.fst ?_
      rw [List.map_map]
      exact x.st.files.keys_nodup
    · refine List.Nodup.of_map Prod.fst ?_
      rwa [State.diskSizes_fst]
  have hsum : total (fun _ b => b.length) x.st.files = (x.st.diskSizes.map Prod.snd).sum := by
    rw [← (hperm.map Prod.snd).sum_eq, List.map_map]
    rfl
  refine ⟨hnodup, hexact, ?_⟩
  rw [hsum, State.diskSizes_sum, recomputed_eq]
  simp [toUsage]

/-- In every run in which no upload goes over a blob on disk, no file is left behind. -/
theorem no_leak_of_calm (fromSlice : Bytes → Option Json) {s : State} (h : s.Tight)
    {es : List SerialEvent} {x : SerialSys}
    (hr : Machine.run (SerialSys.step fromSlice) (.init s) es = some x)
    (hc : Machine.Along (SerialSys.step fromSlice) SerialSys.Calm (.init s) es)
    (hu : x.st.unlinks = []) (hp : x.pass.phase = .begin ∨ x.pass.ended) : x.st.NoLeak := by
  obtain ⟨created, hx⟩ : ∃ created, x.Clean fromSlice created := by
    refine Machine.run_invariant (I := fun y : SerialSys => ∃ created, y.Clean fromSlice created)
      (fun y e y' hy hcalm hs => ?_) ⟨s.files, .init fromSlice h⟩ hc hr
    obtain ⟨created, hy⟩ := hy
    exact ⟨_, hy.step hcalm hs⟩
  exact hx.noLeak hu hp

/-- A layer and the manifest that names it, and a whole pass, which spills the layer. -/
def pushAndSpill : List SerialEvent :=
  [.storeBlob layer (List.replicate 1025 1) "", .storeManifest image imageBody ""] ++
    List.replicate 20 (.evict 0)

theorem no_leak_of_calm_push :
    ∃ x, Machine.run (SerialSys.step imageJson) (.init (State.new ⟨1000, some 10000, 10000⟩ 0))
      pushAndSpill = some x ∧ x.st.diskIds = [0] ∧ x.st.NoLeak := by
  have hrun : ((Machine.run (SerialSys.step imageJson)
      (.init (State.new ⟨1000, some 10000, 10000⟩ 0)) pushAndSpill).map
        fun x => (x.st.diskIds, x.st.unlinks, x.pass.ended)) = some ([0], [], true) := by
    decide +kernel
  obtain ⟨x, hr, hx⟩ := Option.map_eq_some_iff.mp hrun
  obtain ⟨hids, hx⟩ := Prod.mk.inj hx
  obtain ⟨hu, hend⟩ := Prod.mk.inj hx
  refine ⟨x, hr, hids, no_leak_of_calm imageJson (State.Tight.new _ _) hr ?_ hu (.inr hend)⟩
  decide +kernel

/-- The layer is pushed again after the pass: its file stays and belongs to no entry. -/
theorem file_leaks_after_push :
    ¬ ∀ (fromSlice : Bytes → Option Json) (s : State) (es : List SerialEvent) (x : SerialSys),
      s.Tight → Machine.run (SerialSys.step fromSlice) (.init s) es = some x →
      x.st.unlinks = [] → (x.pass.phase = .begin ∨ x.pass.ended) → x.st.NoLeak := by
  intro h
  have hrun : ((Machine.run (SerialSys.step imageJson)
      (.init (State.new ⟨1000, some 10000, 10000⟩ 0))
      (pushAndSpill ++ [.storeBlob layer (List.replicate 1025 1) ""])).map
        fun x => (x.st.diskIds, x.st.unlinks, x.pass.ended, (x.st.files.lookup 0).isSome)) =
      some ([], [], true, true) := by
    decide +kernel
  obtain ⟨x, hr, hx⟩ := Option.map_eq_some_iff.mp hrun
  obtain ⟨hids, hx⟩ := Prod.mk.inj hx
  obtain ⟨hu, hx⟩ := Prod.mk.inj hx
  obtain ⟨hend, hfile⟩ := Prod.mk.inj hx
  have hleak := h _ _ _ x (State.Tight.new _ _) hr hu (.inr hend)
  have hmem := (hleak.exact 0).mp (Option.isSome_iff_exists.mp hfile)
  rw [hids] at hmem
  cases hmem

end Dockfoxprox

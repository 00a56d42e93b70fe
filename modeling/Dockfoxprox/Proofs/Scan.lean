import Dockfoxprox.Proofs.Eviction

/-! What the three scans of a pass leave in its tables: the reference counts are the
occurrences of a digest in the manifests, the accumulators the bytes of each bucket, and
every candidate describes the entry it was made from. -/

namespace Dockfoxprox

open MapSum

section
variable (fromSlice : Bytes → Option Json)

/-- How often one manifest names a digest. -/
def manifestRefs (d : Digest) (m : Manifest) : ℕ := (referencedDigests fromSlice m.content).count d

/-- How often the manifests name a digest. -/
def refsTo (manifests : DashMap Digest Manifest) (d : Digest) : ℕ :=
  total (fun _ => manifestRefs fromSlice d) manifests

end

variable {fromSlice : Bytes → Option Json}

theorem manifestRefs_eq_zero {d : Digest} {m : Manifest} :
    manifestRefs fromSlice d m = 0 ↔ d ∉ referencedDigests fromSlice m.content :=
  List.count_eq_zero

theorem refsTo_erase (ms : DashMap Digest Manifest) (d dm : Digest) :
    refsTo fromSlice ms d =
      share (fun _ => manifestRefs fromSlice d) ms dm + refsTo fromSlice (ms.erase dm) d :=
  total_eq_erase _ _ _

theorem refsTo_eq_zero {ms : DashMap Digest Manifest} {d : Digest} :
    refsTo fromSlice ms d = 0 ↔
      ∀ dm m, ms.lookup dm = some m → d ∉ referencedDigests fromSlice m.content := by
  unfold refsTo total
  rw [List.sum_eq_zero_iff_forall_eq_nat]
  simp only [List.mem_map, forall_exists_index, and_imp]
  constructor
  · intro h dm m hm
    exact manifestRefs_eq_zero.mp (h _ ⟨dm, m⟩ (mem_entries.mpr hm) rfl)
  · rintro h x ⟨dm, m⟩ he rfl
    exact manifestRefs_eq_zero.mpr (h dm m (mem_entries.mp he))

/-- The scans of the pass are not over. -/
def Phase.scanning : Phase → Bool
  | .begin | .scanBlobs | .scanManifests | .scanRedis => true
  | _ => false

def Phase.looping : Phase → Bool
  | .loop | .spillBlobs _ | .spillWrite _ _ _ | .spillInsert _ _ _ | .redisWrite _ _ _ _ _
  | .redisInsert _ _ _ _ _ | .retainTags _ _ | .cascade _ _ | .cascadeUnlink _ _ _ => true
  | _ => false

namespace BlobBk

/-- The entry of a blob once one more reference to it is counted. -/
def counted (evicted : Bool) (bb : BlobBk) : BlobBk :=
  { bb with
    refs := (bb.refs + 1) % 2 ^ 32
    unevictedRefs := if evicted then bb.unevictedRefs else (bb.unevictedRefs + 1) % 2 ^ 32 }

variable {evicted : Bool}

@[simp] theorem counted_tier (n : ℕ) (bb : BlobBk) : ((counted evicted)^[n] bb).tier = bb.tier := by
  induction n with
  | zero => rfl
  | succ n ih => rw [Function.iterate_succ_apply']; exact ih

@[simp] theorem counted_lastAccessed (n : ℕ) (bb : BlobBk) :
    ((counted evicted)^[n] bb).lastAccessed = bb.lastAccessed := by
  induction n with
  | zero => rfl
  | succ n ih => rw [Function.iterate_succ_apply']; exact ih

theorem counted_refs {bb : BlobBk} {k : ℕ} (h : bb.refs = k % 2 ^ 32) (n : ℕ) :
    ((counted evicted)^[n] bb).refs = (k + n) % 2 ^ 32 := by
  induction n with
  | zero => exact h
  | succ n ih =>
    rw [Function.iterate_succ_apply', counted, ih]
    simp only
    omega

theorem counted_unevictedRefs {bb : BlobBk} {k : ℕ} (h : bb.unevictedRefs = k % 2 ^ 32) (n : ℕ) :
    ((counted evicted)^[n] bb).unevictedRefs = (k + if evicted then 0 else n) % 2 ^ 32 := by
  induction n with
  | zero => rw [ite_self]; exact h
  | succ n ih =>
    rw [Function.iterate_succ_apply', counted, ih]
    cases evicted
    · simp only [Bool.false_eq_true, if_false]
      omega
    · rfl

end BlobBk

namespace Pass

/-! ### The blob table -/

theorem scanBlobs_lookup (m : DashMap Digest Blob) (p : Pass) (d : Digest) :
    (m.foldl scanBlob p).blobs.lookup d =
      ((m.lookup d).map fun b => ⟨(blobTier b).1, 0, 0, b.lastAccessed⟩).or (p.blobs.lookup d) := by
  refine foldl_lookup (fun p d => p.blobs.lookup d)
    (fun _ b => ⟨(blobTier b).1, 0, 0, b.lastAccessed⟩) (fun p k v k' => ?_) m p d
  simp only [scanBlob, setBk_blobs, count_blobs, lookup_insert_apply]

/-- Two tables that differ at most in their reference counts. -/
def SameBks (t t' : DashMap Digest BlobBk) : Prop :=
  ∀ d, (t'.lookup d).map (fun bb => (bb.tier, bb.lastAccessed)) =
    (t.lookup d).map fun bb => (bb.tier, bb.lastAccessed)

/-- The counts of a table are `n` as the `u32` counters hold it. -/
def RefsAre (t : DashMap Digest BlobBk) (n : Digest → ℕ) : Prop :=
  ∀ d bb, t.lookup d = some bb → bb.refs = n d % 2 ^ 32

theorem SameBks.trans {t₁ t₂ t₃ : DashMap Digest BlobBk} (h : SameBks t₁ t₂)
    (h' : SameBks t₂ t₃) : SameBks t₁ t₃ := fun d => (h' d).trans (h d)

theorem SameBks.lookup {t t' : DashMap Digest BlobBk} (h : SameBks t t') {d : Digest} {bb : BlobBk}
    (hb : t.lookup d = some bb) :
    ∃ bb', t'.lookup d = some bb' ∧ bb'.lastAccessed = bb.lastAccessed := by
  have hs := h d
  rw [hb, Option.map_some, Option.map_eq_some_iff] at hs
  obtain ⟨bb', hbb', he⟩ := hs
  exact ⟨bb', hbb', (Prod.mk.inj he).2⟩

/-- A new entry for a tracked blob with the tier and the access time of the old one. -/
theorem SameBks.insert {t : DashMap Digest BlobBk} {r : Digest} {bb bb' : BlobBk}
    (hb : t.lookup r = some bb) (ht : bb'.tier = bb.tier)
    (hl : bb'.lastAccessed = bb.lastAccessed) : SameBks t (t.insert r bb') := by
  intro d
  rw [lookup_insert_apply]
  split
  · rename_i h
    subst h
    simp [hb, ht, hl]
  · rfl

theorem countRefs_cons (evicted : Bool) (t : DashMap Digest BlobBk) (l k : Bool) (r : Digest)
    (rest : List Digest) :
    countRefs evicted (t, l, k) (r :: rest) =
      match t.lookup r with
      | none => countRefs evicted (t, l, k) rest
      | some bb => countRefs evicted
          (t.insert r (bb.counted evicted), l || bb.tier = .largeMem, k || bb.tier = .disk) rest := by
  simp only [countRefs]
  cases t.lookup r with
  | none => rfl
  | some bb => cases evicted <;> rfl

/-- The references of a manifest are counted where they are tracked. -/
theorem countRefs_lookup (evicted : Bool) (rs : List Digest) (t : DashMap Digest BlobBk)
    (l k : Bool) (d : Digest) :
    (countRefs evicted (t, l, k) rs).1.lookup d =
      (t.lookup d).map fun bb => (BlobBk.counted evicted)^[rs.count d] bb := by
  induction rs generalizing t l k with
  | nil => cases h : t.lookup d <;> simp [countRefs, h]
  | cons r rest ih =>
    rw [countRefs_cons]
    cases hb : t.lookup r with
    | none =>
      simp only [ih]
      by_cases hd : d = r
      · subst hd
        simp [hb]
      · rw [List.count_cons_of_ne (Ne.symm hd)]
    | some bb =>
      simp only [ih, lookup_insert_apply]
      by_cases hd : d = r
      · subst hd
        simp [hb]
      · rw [if_neg hd, List.count_cons_of_ne (Ne.symm hd)]

theorem countRefs_same (evicted : Bool) (rs : List Digest) (t : DashMap Digest BlobBk) (l k : Bool) :
    SameBks t (countRefs evicted (t, l, k) rs).1 := by
  intro d
  rw [countRefs_lookup, Option.map_map]
  congr 1
  funext bb
  simp

theorem countRefs_spec (evicted : Bool) (rs : List Digest) (t : DashMap Digest BlobBk)
    (l k : Bool) (n : Digest → ℕ) (h : RefsAre t n) :
    SameBks t (countRefs evicted (t, l, k) rs).1 ∧
      RefsAre (countRefs evicted (t, l, k) rs).1 (n + fun d => rs.count d) := by
  refine ⟨countRefs_same evicted rs t l k, fun d bb' hd => ?_⟩
  rw [countRefs_lookup, Option.map_eq_some_iff] at hd
  obtain ⟨bb, hb, rfl⟩ := hd
  rw [BlobBk.counted_refs (h d bb hb)]
  rfl

theorem scanManifest_blobs (p : Pass) (d : Digest) (m : Manifest) :
    (scanManifest fromSlice p d m).blobs = (countRefs m.evicted (p.blobs, false, false)
      (referencedDigests fromSlice m.content)).1 := by
  simp only [scanManifest, count_blobs]
  split <;> split <;> rfl

theorem scanManifests_spec (ms : DashMap Digest Manifest) {p : Pass} {n : Digest → ℕ}
    (h : RefsAre p.blobs n) :
    SameBks p.blobs (ms.foldl (scanManifest fromSlice) p).blobs ∧
      RefsAre (ms.foldl (scanManifest fromSlice) p).blobs (n + refsTo fromSlice ms) := by
  have hrefs : refsTo fromSlice ms = total (fun _ m d => manifestRefs fromSlice d m) ms := by
    funext d
    rw [total_apply]
    rfl
  rw [hrefs]
  refine foldl_total (R := fun (q : Pass) n => SameBks p.blobs q.blobs ∧ RefsAre q.blobs n)
    (fun q n d m hq => ?_) ms ⟨fun _ => rfl, h⟩
  obtain ⟨h1, h2⟩ := countRefs_spec m.evicted (referencedDigests fromSlice m.content) q.blobs
    false false n hq.2
  rw [scanManifest_blobs]
  exact ⟨hq.1.trans h1, h2⟩

/-! ### The accumulators -/

/-- The accumulators are `n` as `u64` hold it. -/
def AccIs (p : Pass) (n : Bucket → ℕ) : Prop := ∀ b, p.acc b = n b % 2 ^ 64

theorem AccIs.count {p : Pass} {n : Bucket → ℕ} (h : AccIs p n) (b : Bucket) (k : ℕ) :
    AccIs (p.count b k) (n + charge (b, k)) := by
  intro b'
  have h' := h b'
  by_cases hb : b' = b
  · subst hb
    simp [charge, h']
  · simp [charge, hb, h']

theorem AccIs.push {p : Pass} {n : Bucket → ℕ} (h : AccIs p n) (pool : Pool) (c : Candidate) :
    AccIs (p.push pool c) n := h

theorem blobTier_bucket (b : Blob) : ((blobTier b).1.bucket, (blobTier b).2) = blobBucket b := by
  cases b with
  | onDisk id size mt t => rfl
  | inMemory id content mt t =>
    simp only [blobTier, blobBucket]
    split <;> rfl

theorem AccIs.scanBlob {p : Pass} {n : Bucket → ℕ} (h : AccIs p n) (d : Digest) (b : Blob) :
    AccIs (p.scanBlob d b) (n + blobCharge b) := by
  have hc := h.count (blobTier b).1.bucket (blobTier b).2
  rw [blobTier_bucket] at hc
  exact hc

theorem AccIs.scanManifest {p : Pass} {n : Bucket → ℕ} (h : AccIs p n) (d : Digest)
    (m : Manifest) : AccIs (scanManifest fromSlice p d m) (n + manifestCharge m) := by
  unfold Pass.scanManifest
  apply AccIs.count
  split <;> split <;> exact h

theorem AccIs.scanRedisEntry {p : Pass} {n : Bucket → ℕ} (h : AccIs p n) (k : Bytes)
    (e : RedisEntry) : AccIs (scanRedisEntry p k e) (n + redisCharge k e) := by
  have hk := h.count .smallRedisMemory k.length
  have hv (b : Bucket) (v : ℕ) (pool : Pool) (c : Candidate) :
      AccIs (((p.count .smallRedisMemory k.length).push pool c).count b v)
        (n + (charge (b, v) + charge (.smallRedisMemory, k.length))) := by
    rw [add_comm (charge (b, v)), ← add_assoc]
    exact (hk.push pool c).count b v
  unfold Pass.scanRedisEntry redisCharge redisValueBucket
  cases e with
  | onDisk size id t => exact hv _ _ _ _
  | inMemory value id t =>
    simp only
    split
    · exact hv _ _ _ _
    · exact hv _ _ _ _

/-! ### The candidates -/

/-- What a Redis candidate of a heap says about the entry under its key. A large candidate
whose entry has gone to disk meanwhile is stale. -/
def Describes (pool : Pool) (size : ℕ) (e : RedisEntry) : Prop :=
  match pool, e with
  | .smallMemory, .inMemory value _ _ => value.length = size ∧ size ≤ memoryTierThreshold
  | .smallMemory, .onDisk _ _ _ => False
  | .largeMemory, .inMemory value _ _ => value.length = size ∧ memoryTierThreshold < size
  | .largeMemory, .onDisk _ _ _ => True
  | .disk, .inMemory _ _ _ => False
  | .disk, .onDisk size' _ _ => size' = size

/-- Every Redis candidate describes the entry under its key, if there is one. -/
def CandidatesFit (p : Pass) (entries : DashMap Bytes RedisEntry) : Prop :=
  ∀ pool key t size, .redis key t size ∈ p.heap pool → ∀ e, entries.lookup key = some e →
    Describes pool size e

/-- No heap has a Redis candidate yet. -/
def NoRedis (p : Pass) : Prop := ∀ pool key t size, .redis key t size ∉ p.heap pool

theorem mem_push {p : Pass} {pool pool' : Pool} {c c' : Candidate}
    (h : c' ∈ (p.push pool c).heap pool') : (pool' = pool ∧ c' = c) ∨ c' ∈ p.heap pool' := by
  by_cases hp : pool' = pool
  · subst hp
    simp only [push_heap, Function.update_self, List.mem_cons] at h
    rcases h with h | h
    · exact .inl ⟨rfl, h⟩
    · exact .inr h
  · exact .inr (by simpa [hp] using h)

theorem redis_mem_push {p : Pass} {pool pool' : Pool} {t t' size : ℕ} {d : Digest} {key : Bytes}
    (h : .redis key t size ∈ (p.push pool (.manifest t' d)).heap pool') :
    .redis key t size ∈ p.heap pool' := by
  rcases mem_push h with ⟨-, hc⟩ | h
  · cases hc
  · exact h

/-- The scan of a manifest adds no Redis candidate. -/
theorem redis_mem_scanManifest {p : Pass} {d : Digest} {m : Manifest} {pool : Pool} {key : Bytes}
    {t size : ℕ} (h : .redis key t size ∈ (scanManifest fromSlice p d m).heap pool) :
    .redis key t size ∈ p.heap pool := by
  unfold Pass.scanManifest at h
  simp only [count_heap] at h
  split at h <;> split at h
  · exact redis_mem_push (redis_mem_push (redis_mem_push h))
  · exact redis_mem_push (redis_mem_push h)
  · exact redis_mem_push (redis_mem_push h)
  · exact redis_mem_push h

theorem NoRedis.scanManifest {p : Pass} (h : NoRedis p) (d : Digest) (m : Manifest) :
    NoRedis (scanManifest fromSlice p d m) :=
  fun pool key t size hm => h pool key t size (redis_mem_scanManifest hm)

/-- The candidate the scan makes of one entry. -/
theorem mem_scanRedisEntry {p : Pass} {k key : Bytes} {e : RedisEntry} {pool : Pool} {t size : ℕ}
    (h : .redis key t size ∈ (scanRedisEntry p k e).heap pool) :
    .redis key t size ∈ p.heap pool ∨ key = k ∧ Describes pool size e := by
  have hpush {pool' : Pool} {t' size' : ℕ} (hd : Describes pool' size' e)
      (h : .redis key t size ∈ ((p.count .smallRedisMemory k.length).push pool'
        (.redis k t' size')).heap pool) :
      .redis key t size ∈ p.heap pool ∨ key = k ∧ Describes pool size e := by
    rcases mem_push h with ⟨rfl, hc⟩ | hm
    · cases hc
      exact .inr ⟨rfl, hd⟩
    · exact .inl hm
  unfold Pass.scanRedisEntry at h
  cases e with
  | onDisk size' id t' =>
    have hd : Describes .disk size' (.onDisk size' id t') := rfl
    exact hpush hd h
  | inMemory value id t' =>
    simp only at h
    split at h
    · have hd : Describes .largeMemory value.length (.inMemory value id t') := ⟨rfl, ‹_›⟩
      exact hpush hd h
    · have hd : Describes .smallMemory value.length (.inMemory value id t') := ⟨rfl, not_lt.mp ‹_›⟩
      exact hpush hd h

theorem scanRedis_candidates (m : DashMap Bytes RedisEntry) {p : Pass} (h : NoRedis p) :
    CandidatesFit (m.foldl scanRedisEntry p) m := by
  have hall : ∀ pool key t size, .redis key t size ∈ (m.foldl scanRedisEntry p).heap pool →
      ∃ e, m.lookup key = some e ∧ Describes pool size e := by
    refine foldl_rule (P := fun (q : Pass) => ∀ pool key t size, .redis key t size ∈ q.heap pool →
      ∃ e, m.lookup key = some e ∧ Describes pool size e) m ?_ ?_
    · rintro q ⟨k, e⟩ he hq pool key t size hm
      rcases mem_scanRedisEntry hm with hm | ⟨rfl, hd⟩
      · exact hq pool key t size hm
      · exact ⟨e, mem_entries.mp he, hd⟩
    · intro pool key t size hm
      exact absurd hm (h pool key t size)
  intro pool key t size hm e he
  obtain ⟨e', he', hd⟩ := hall pool key t size hm
  obtain rfl : e' = e := Option.some.inj (he'.symm.trans he)
  exact hd

/-! ### The scans in sequence -/

section
variable (fromSlice)

/-- The pass about to scan, the blobs scanned, the manifests scanned, and the pass at the
start of its loop. -/
def scan₀ (s : State) : Pass := { start with now := s.now, phase := .scanBlobs }

def scan₁ (s : State) : Pass := (s.blobs.foldl scanBlob (scan₀ s)).goto .scanManifests

def scan₂ (s : State) : Pass :=
  (s.manifests.foldl (scanManifest fromSlice) (scan₁ s)).goto .scanRedis

def scanned (s : State) : Pass := (s.redisEntries.foldl scanRedisEntry (scan₂ fromSlice s)).goto .loop

/-- What a pass knows of the state when its loop begins. -/
structure Scanned (s : State) (p : Pass) : Prop where
  now : p.now = s.now
  phase : p.phase = .loop
  bks : ∀ d, (p.blobs.lookup d).map (fun bb => (bb.tier, bb.lastAccessed)) =
    (s.blobs.lookup d).map fun b => ((blobTier b).1, b.lastAccessed)
  refs : RefsAre p.blobs (refsTo fromSlice s.manifests)
  acc : AccIs p s.bytesIn
  candidates : CandidatesFit p s.redisEntries

end

@[simp] theorem scanManifest_now (p : Pass) (d : Digest) (m : Manifest) :
    (scanManifest fromSlice p d m).now = p.now := by
  simp only [scanManifest, count_now]
  split <;> split <;> rfl

@[simp] theorem scanRedisEntry_now (p : Pass) (k : Bytes) (e : RedisEntry) :
    (scanRedisEntry p k e).now = p.now := by
  unfold scanRedisEntry
  cases e with
  | onDisk size id t => rfl
  | inMemory value id t => simp only; split <;> rfl

@[simp] theorem scanRedisEntry_blobs (p : Pass) (k : Bytes) (e : RedisEntry) :
    (scanRedisEntry p k e).blobs = p.blobs := by
  unfold scanRedisEntry
  cases e with
  | onDisk size id t => rfl
  | inMemory value id t => simp only; split <;> rfl

theorem scan₁_lookup (s : State) (d : Digest) :
    (scan₁ s).blobs.lookup d =
      (s.blobs.lookup d).map fun b => ⟨(blobTier b).1, 0, 0, b.lastAccessed⟩ := by
  simp only [scan₁, goto_blobs, scanBlobs_lookup]
  exact Option.or_none

theorem scan₁_refs (s : State) : RefsAre (scan₁ s).blobs 0 := by
  intro d bb hd
  rw [scan₁_lookup, Option.map_eq_some_iff] at hd
  obtain ⟨b, -, rfl⟩ := hd
  rfl

theorem scanned_blobs (s : State) : (scanned fromSlice s).blobs = (scan₂ fromSlice s).blobs :=
  foldl_rule (P := fun q : Pass => q.blobs = (scan₂ fromSlice s).blobs) _
    (fun q e _ hq => (scanRedisEntry_blobs q e.1 e.2).trans hq) rfl

theorem scanned_now (s : State) : (scanned fromSlice s).now = s.now := by
  have h₁ : (scan₁ s).now = s.now :=
    foldl_rule (P := fun q : Pass => q.now = s.now) s.blobs (fun q e _ hq => hq) rfl
  have h₂ : (scan₂ fromSlice s).now = s.now :=
    foldl_rule (P := fun q : Pass => q.now = s.now) s.manifests
      (fun q e _ hq => (scanManifest_now q e.1 e.2).trans hq) h₁
  exact foldl_rule (P := fun q : Pass => q.now = s.now) s.redisEntries
    (fun q e _ hq => (scanRedisEntry_now q e.1 e.2).trans hq) h₂

theorem scanned_acc (s : State) : AccIs (scanned fromSlice s) s.bytesIn := by
  have h₀ : AccIs (scan₀ s) 0 := fun b => rfl
  have h₁ : AccIs (scan₁ s) (0 + total (fun _ => blobCharge) s.blobs) :=
    foldl_total (fun q n d b hq => hq.scanBlob d b) s.blobs h₀
  have h₂ : AccIs (scan₂ fromSlice s) (0 + total (fun _ => blobCharge) s.blobs +
      total (fun _ => manifestCharge) s.manifests) :=
    foldl_total (fun q n d m hq => hq.scanManifest d m) s.manifests h₁
  have h₃ : AccIs (scanned fromSlice s) (0 + total (fun _ => blobCharge) s.blobs +
      total (fun _ => manifestCharge) s.manifests + total redisCharge s.redisEntries) :=
    foldl_total (fun q n k e hq => hq.scanRedisEntry k e) s.redisEntries h₂
  rw [zero_add, add_comm (total (fun _ => blobCharge) s.blobs)] at h₃
  exact h₃

theorem scanned_spec (s : State) : Scanned fromSlice s (scanned fromSlice s) := by
  obtain ⟨hsame, hrefs⟩ := @scanManifests_spec fromSlice s.manifests (scan₁ s) 0 (scan₁_refs s)
  refine ⟨scanned_now s, rfl, fun d => ?_, ?_, scanned_acc s, ?_⟩
  · rw [scanned_blobs]
    refine (hsame d).trans ?_
    rw [scan₁_lookup, Option.map_map]
    rfl
  · rw [scanned_blobs, ← zero_add (refsTo fromSlice s.manifests)]
    exact hrefs
  · have h₁ : NoRedis (scan₁ s) :=
      foldl_rule (P := NoRedis) s.blobs (fun q e _ hq => hq) (by simp [NoRedis, scan₀, start])
    have h₂ : NoRedis (scan₂ fromSlice s) :=
      foldl_rule (P := NoRedis) s.manifests (fun q e _ hq => hq.scanManifest e.1 e.2) h₁
    exact scanRedis_candidates s.redisEntries h₂

theorem Step.scanning {s : State} {p p' : Pass} {c : Choice} {a : Act}
    (hs : Step fromSlice s p c a p') (h : p.phase.scanning = false) :
    p'.phase.scanning = false := by
  cases hs with
  | begin hp => rw [hp] at h; cases h
  | scanBlobs hp => rw [hp] at h; cases h
  | scanManifests hp => rw [hp] at h; cases h
  | scanRedis hp => rw [hp] at h; cases h
  | stale hp => exact h
  | dropRedis hp => exact h
  | @cascadeDrop old r todo bb blob => cases blob <;> rfl
  | @sweepDrop todo r bb blob => cases blob <;> rfl
  | _ => rfl

/-- The loop is entered after the scans only. -/
theorem Step.looping {s : State} {p p' : Pass} {c : Choice} {a : Act} (hs : Step fromSlice s p c a p')
    (h : p'.phase.looping) (hscan : p.phase.scanning = false) : p.phase.looping := by
  cases hs with
  | begin hp => cases h
  | scanBlobs hp => cases h
  | scanManifests hp => cases h
  | scanRedis hp => rw [hp] at hscan; cases hscan
  | writeFailed => cases h
  | @sweepDrop todo r bb blob => cases blob <;> cases h
  | stopLoop => cases h
  | sweepEnd => cases h
  | sweepKeep => cases h
  | sweepUnlink => cases h
  | publish => cases h
  | storeEnd => cases h
  | store => cases h
  | _ hp => rw [hp]; rfl

/-- A pass that is over its scans has gone through them. -/
theorem run_scanned {s s' : State} {p' : Pass} {choices : List Choice}
    (hr : Machine.run (step fromSlice) (s, start) choices = some (s', p'))
    (hend : p'.phase.scanning = false) :
    ∃ c₀ c₁ c₂ c₃ rest, choices = c₀ :: c₁ :: c₂ :: c₃ :: rest ∧
      Machine.run (step fromSlice) (Act.countRun.apply s, scanned fromSlice s) rest =
        some (s', p') := by
  match choices, hr with
  | [], hr => cases hr; cases hend
  | [_], hr => cases hr; cases hend
  | [_, _], hr => cases hr; cases hend
  | [_, _, _], hr => cases hr; cases hend
  | c₀ :: c₁ :: c₂ :: c₃ :: rest, hr => exact ⟨c₀, c₁, c₂, c₃, rest, rfl, hr⟩

/-- A pass that has returned has gone through its scans. -/
theorem run_start {s s' : State} {p' : Pass} {choices : List Choice}
    (hr : Machine.run (step fromSlice) (s, start) choices = some (s', p'))
    (hend : p'.phase = .done ∨ p'.phase = .failed) :
    ∃ c₀ c₁ c₂ c₃ rest, choices = c₀ :: c₁ :: c₂ :: c₃ :: rest ∧
      Machine.run (step fromSlice) (Act.countRun.apply s, scanned fromSlice s) rest =
        some (s', p') :=
  run_scanned hr (by rcases hend with h | h <;> rw [h] <;> rfl)

/-- What the scans meet anyway holds along a pass if it holds from the start of its loop. -/
theorem along_scanned {P : State × Pass → Choice → State × Pass → Prop}
    (hP : ∀ x c x', x.2.phase.scanning → P x c x') {s : State} {choices : List Choice} :
    Machine.Along (step fromSlice) P (s, start) choices ↔
      Machine.Along (step fromSlice) P (Act.countRun.apply s, scanned fromSlice s)
        (choices.drop 4) := by
  have hcons (x' : State × Pass) {x : State × Pass} {c : Choice} {cs : List Choice}
      (hs : step fromSlice x c = some x') (hx : x.2.phase.scanning) :
      Machine.Along (step fromSlice) P x (c :: cs) ↔ Machine.Along (step fromSlice) P x' cs := by
    constructor
    · intro h
      exact (h x' hs).2
    · intro h y hy
      obtain rfl : x' = y := Option.some.inj (hs.symm.trans hy)
      exact ⟨hP _ _ _ hx, h⟩
  match choices with
  | [] => exact Iff.rfl
  | [_] => rw [hcons (Act.countRun.apply s, scan₀ s) rfl rfl]; exact Iff.rfl
  | [_, _] =>
    rw [hcons (Act.countRun.apply s, scan₀ s) rfl rfl, hcons (Act.countRun.apply s, scan₁ s) rfl rfl]
    exact Iff.rfl
  | [_, _, _] =>
    rw [hcons (Act.countRun.apply s, scan₀ s) rfl rfl, hcons (Act.countRun.apply s, scan₁ s) rfl rfl,
      hcons (Act.countRun.apply s, scan₂ fromSlice s) rfl rfl]
    exact Iff.rfl
  | _ :: _ :: _ :: _ :: _ =>
    rw [hcons (Act.countRun.apply s, scan₀ s) rfl rfl, hcons (Act.countRun.apply s, scan₁ s) rfl rfl,
      hcons (Act.countRun.apply s, scan₂ fromSlice s) rfl rfl,
      hcons (Act.countRun.apply s, scanned fromSlice s) rfl rfl]
    exact Iff.rfl

/-- What holds along a pass holds along its loop. -/
theorem along_loop {P : State × Pass → Choice → State × Pass → Prop} {s : State}
    {c₀ c₁ c₂ c₃ : Choice} {rest : List Choice}
    (h : Machine.Along (step fromSlice) P (s, start) (c₀ :: c₁ :: c₂ :: c₃ :: rest)) :
    Machine.Along (step fromSlice) P (Act.countRun.apply s, scanned fromSlice s) rest :=
  ((((h _ rfl).2 _ rfl).2 _ rfl).2 _ rfl).2

theorem along_start {Q : State → Pass → Act → Prop} (hidle : ∀ s p, Q s p .idle)
    (hrun : ∀ s p, Q s p .countRun) {s : State} {c₀ c₁ c₂ c₃ : Choice} {rest : List Choice} :
    Machine.Along (step fromSlice) (OnAct fromSlice Q) (s, start) (c₀ :: c₁ :: c₂ :: c₃ :: rest) ↔
      Machine.Along (step fromSlice) (OnAct fromSlice Q)
        (Act.countRun.apply s, scanned fromSlice s) rest := by
  refine along_scanned fun x c x' hx a p' hn => ?_
  unfold next at hn
  cases hp : x.2.phase <;> rw [hp] at hn hx <;> cases hx <;> cases hn <;>
    first | exact hidle _ _ | exact hrun _ _

end Pass

end Dockfoxprox

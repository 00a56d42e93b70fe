import Dockfoxprox.Proofs.Scan

/-! The table of the blobs and the three heaps as the scans of a pass leave them, each by
the entries it was made from. -/

namespace Dockfoxprox

open MapSum

def RedisEntry.lastAccessed : RedisEntry → ℕ
  | .inMemory _ _ t => t
  | .onDisk _ _ t => t

/-- The tier a blob is counted in. -/
def tierIn (blobs : DashMap Digest Blob) (d : Digest) : Option BlobTier :=
  (blobs.lookup d).map fun b => (blobTier b).1

section
variable (fromSlice : Bytes → Option Json)

/-- How often the manifests that are not flagged evicted name a digest. -/
def unevictedTo (manifests : DashMap Digest Manifest) (d : Digest) : ℕ :=
  total (fun _ m => if m.evicted then 0 else manifestRefs fromSlice d m) manifests

/-- Whether a manifest references a blob of a tier. -/
def Manifest.touches (m : Manifest) (blobs : DashMap Digest Blob) (tier : BlobTier) : Bool :=
  (referencedDigests fromSlice m.content).any fun r => tierIn blobs r = some tier

/-- The candidate a manifest makes for a heap. -/
def manifestCandidate (blobs : DashMap Digest Blob) (pool : Pool) (d : Digest) (m : Manifest) :
    Option Candidate :=
  let wanted : Bool :=
    match pool with
    | .smallMemory => true
    | .largeMemory => m.touches fromSlice blobs .largeMem
    | .disk => m.touches fromSlice blobs .disk
  if wanted then some (.manifest m.lastUsed d) else none

end

/-- The heap a Redis entry is a candidate of. -/
def redisPool (e : RedisEntry) : Pool :=
  match (redisValueBucket e).1 with
  | .redisDisk => .disk
  | .largeRedisMemory => .largeMemory
  | _ => .smallMemory

def redisCandidate (pool : Pool) (key : Bytes) (e : RedisEntry) : Option Candidate :=
  if redisPool e = pool then some (.redis key e.lastAccessed (redisValueBucket e).2) else none

namespace Pass

variable {fromSlice : Bytes → Option Json}

/-- The table of the blobs at the start of the loop. -/
theorem scanned_lookup (s : State) (d : Digest) :
    (scanned fromSlice s).blobs.lookup d =
      (s.blobs.lookup d).map fun b => ⟨(blobTier b).1, refsTo fromSlice s.manifests d % 2 ^ 32,
        unevictedTo fromSlice s.manifests d % 2 ^ 32, b.lastAccessed⟩ := by
  let counts : Digest → Manifest → Digest → ℕ × ℕ := fun _ m d =>
    (manifestRefs fromSlice d m, if m.evicted then 0 else manifestRefs fromSlice d m)
  let Counted : Pass → (Digest → ℕ × ℕ) → Prop := fun q n => ∀ d, q.blobs.lookup d =
    (s.blobs.lookup d).map fun b =>
      ⟨(blobTier b).1, (n d).1 % 2 ^ 32, (n d).2 % 2 ^ 32, b.lastAccessed⟩
  have hstart : Counted (scan₁ s) 0 := scan₁_lookup s
  have hend : Counted (scan₂ fromSlice s) (0 + total counts s.manifests) := by
    refine foldl_total (R := Counted) (fun q n dm m hq d => ?_) s.manifests hstart
    rw [scanManifest_blobs, countRefs_lookup, hq d, Option.map_map]
    congr 1
    funext b
    refine BlobBk.mk.injEq .. ▸ ⟨?_, ?_, ?_, ?_⟩
    · exact BlobBk.counted_tier ..
    · exact BlobBk.counted_refs rfl _
    · exact BlobBk.counted_unevictedRefs rfl _
    · exact BlobBk.counted_lastAccessed ..
  rw [scanned_blobs, hend d, zero_add, total_apply, total_prod]
  rfl

/-- The table knows the tiers of the blobs it was made from. -/
def TiersAre (blobs : DashMap Digest Blob) (t : DashMap Digest BlobBk) : Prop :=
  ∀ d, (t.lookup d).map BlobBk.tier = tierIn blobs d

theorem SameBks.tiersAre {blobs : DashMap Digest Blob} {t t' : DashMap Digest BlobBk}
    (hs : SameBks t t') (h : TiersAre blobs t) : TiersAre blobs t' := by
  intro d
  have hd := congrArg (Option.map Prod.fst) (hs d)
  rw [Option.map_map, Option.map_map] at hd
  exact hd.trans (h d)

/-- What the scan of one manifest tells of the tiers it references. -/
theorem countRefs_flags {blobs : DashMap Digest Blob} (evicted : Bool) (rs : List Digest)
    {t : DashMap Digest BlobBk} (l k : Bool) (h : TiersAre blobs t) :
    (countRefs evicted (t, l, k) rs).2 =
      (l || rs.any fun r => tierIn blobs r = some .largeMem,
        k || rs.any fun r => tierIn blobs r = some .disk) := by
  induction rs generalizing t l k with
  | nil => simp [countRefs]
  | cons r rest ih =>
    have hr := h r
    rw [countRefs_cons]
    cases hb : t.lookup r with
    | none =>
      rw [hb] at hr
      simp only [ih l k h, List.any_cons, ← hr]
      simp
    | some bb =>
      rw [hb] at hr
      have hins : TiersAre blobs (t.insert r (bb.counted evicted)) :=
        (@SameBks.insert t r bb (bb.counted evicted) hb rfl rfl).tiersAre h
      simp only [ih _ _ hins, List.any_cons, ← hr, Option.map_some, Option.some.injEq,
        Bool.or_assoc]

theorem scanManifest_heap {blobs : DashMap Digest Blob} {p : Pass} (h : TiersAre blobs p.blobs)
    (d : Digest) (m : Manifest) (pool : Pool) :
    (scanManifest fromSlice p d m).heap pool =
      (manifestCandidate fromSlice blobs pool d m).toList ++ p.heap pool := by
  have hflags := countRefs_flags m.evicted (referencedDigests fromSlice m.content) false false h
  simp only [Bool.false_or] at hflags
  simp only [scanManifest, hflags, count_heap, manifestCandidate, Manifest.touches]
  cases pool <;> split <;> split <;> simp_all

theorem scanManifest_same (p : Pass) (d : Digest) (m : Manifest) :
    SameBks p.blobs (scanManifest fromSlice p d m).blobs := by
  rw [scanManifest_blobs]
  exact countRefs_same _ _ _ _ _

theorem scanRedisEntry_heap (p : Pass) (key : Bytes) (e : RedisEntry) (pool : Pool) :
    (scanRedisEntry p key e).heap pool =
      (redisCandidate pool key e).toList ++ p.heap pool := by
  unfold scanRedisEntry redisCandidate redisPool redisValueBucket
  cases e with
  | onDisk size id t => cases pool <;> simp [RedisEntry.lastAccessed]
  | inMemory value id t =>
    by_cases hl : value.length > memoryTierThreshold
    · cases pool <;> simp [RedisEntry.lastAccessed, hl]
    · cases pool <;> simp [RedisEntry.lastAccessed, hl]

theorem scan₁_tiers (s : State) : TiersAre s.blobs (scan₁ s).blobs := by
  intro d
  rw [scan₁_lookup, Option.map_map]
  rfl

theorem scan₁_heap (s : State) (pool : Pool) : (scan₁ s).heap pool = [] :=
  foldl_rule (P := fun q : Pass => q.heap pool = []) s.blobs (fun _ _ _ hq => hq) rfl

/-- The heaps at the start of the loop. -/
theorem scanned_heap (s : State) (pool : Pool) :
    (scanned fromSlice s).heap pool =
      (s.redisEntries.entries.filterMap fun e => redisCandidate pool e.1 e.2).reverse ++
        (s.manifests.entries.filterMap
          fun e => manifestCandidate fromSlice s.blobs pool e.1 e.2).reverse := by
  have hm := foldl_collect (P := fun q : Pass => TiersAre s.blobs q.blobs)
    (fun q : Pass => q.heap pool) (manifestCandidate fromSlice s.blobs pool)
    (f := scanManifest fromSlice)
    (fun q d m hq => ⟨(scanManifest_same q d m).tiersAre hq, scanManifest_heap hq d m pool⟩)
    s.manifests (scan₁_tiers s)
  have hr := foldl_collect (P := fun _ : Pass => True) (fun q : Pass => q.heap pool)
    (redisCandidate pool) (f := scanRedisEntry)
    (fun q k e _ => ⟨trivial, scanRedisEntry_heap q k e pool⟩) s.redisEntries
    (g := scan₂ fromSlice s) trivial
  refine hr.2.trans ?_
  congr 1
  refine hm.2.trans ?_
  rw [scan₁_heap, List.append_nil]

theorem mem_scanned_heap {s : State} {pool : Pool} {c : Candidate} :
    c ∈ (scanned fromSlice s).heap pool ↔
      (∃ k e, s.redisEntries.lookup k = some e ∧ redisCandidate pool k e = some c) ∨
        ∃ d m, s.manifests.lookup d = some m ∧
          manifestCandidate fromSlice s.blobs pool d m = some c := by
  simp only [scanned_heap, List.mem_append, List.mem_reverse, List.mem_filterMap, Sigma.exists,
    mem_entries]

end Pass

end Dockfoxprox

import Dockfoxprox.Model.Redis

/-! `evict` of `eviction.rs`: one eviction pass. The pass is a state machine over its
local variables, the shared state being read and changed at each step. A scan is one
step, and so is each loop iteration up to its first await point, each file operation,
each insertion or removal of a map entry and each final counter store. A `Choice` gives
what the source leaves open: which of several equally old candidates a heap pops, the
order of the sweep over a `HashMap`, and the outcome of file operations. -/

namespace Dockfoxprox

/-- Blobs younger than this are never deleted, `BLOB_GRACE_SECONDS`. -/
def blobGraceSeconds : ℕ := 5 * 3600

/-- An `EvictionCandidate`. -/
inductive Candidate where
  | manifest (lastAccesses : ℕ) (digest : Digest)
  | redis (key : Bytes) (lastAccessed size : ℕ)
deriving DecidableEq

def Candidate.lastAccessTime : Candidate → ℕ
  | .manifest t _ => t
  | .redis _ t _ => t

/-- The three candidate heaps. -/
inductive Pool where
  | smallMemory
  | largeMemory
  | disk
deriving DecidableEq

inductive BlobTier where
  | smallMem
  | largeMem
  | disk
deriving DecidableEq

/-- The accumulator a tier is counted in. -/
def BlobTier.bucket : BlobTier → Bucket
  | .smallMem => .smallBlobMemory
  | .largeMem => .largeBlobMemory
  | .disk => .blobDisk

/-- Per-blob bookkeeping for a single eviction pass. -/
structure BlobBk where
  tier : BlobTier
  refs : ℕ
  unevictedRefs : ℕ
  lastAccessed : ℕ
deriving DecidableEq

/-- One reference of the blob stops counting as unevicted, unless it did already. -/
def BlobBk.unevict (bb : BlobBk) (old : Bool) : BlobBk :=
  if old then bb else { bb with unevictedRefs := bb.unevictedRefs - 1 }

/-- One reference of the blob goes away. -/
def BlobBk.unref (bb : BlobBk) (old : Bool) : BlobBk :=
  { bb.unevict old with refs := (bb.unevict old).refs - 1 }

def blobTier : Blob → BlobTier × ℕ
  | .inMemory _ content _ _ =>
    if content.length > memoryTierThreshold then (.largeMem, content.length)
    else (.smallMem, content.length)
  | .onDisk _ size _ _ => (.disk, size)

/-- The in-memory blob whose `Arc` a spill holds. -/
structure HeldBlob where
  id : ℕ
  content : Bytes
  mediaType : String
  lastAccessed : ℕ
deriving DecidableEq

/-- The spill of a manifest's large blobs: the candidate, whether the manifest was
flagged evicted before, and the references still to visit. -/
structure ManifestSpill where
  digest : Digest
  lastAccesses : ℕ
  old : Bool
  todo : List Digest
deriving DecidableEq

/-- The step the pass is about to take. -/
inductive Phase where
  | begin
  | scanBlobs
  | scanManifests
  | scanRedis
  | loop
  | spillBlobs (sp : ManifestSpill)
  | spillWrite (sp : ManifestSpill) (r : Digest) (held : HeldBlob)
  | spillInsert (sp : ManifestSpill) (r : Digest) (held : HeldBlob)
  | redisWrite (key : Bytes) (size lastAccessed : ℕ) (value : Bytes) (id : ℕ)
  | redisInsert (key : Bytes) (size lastAccessed : ℕ) (value : Bytes) (id : ℕ)
  | retainTags (digest : Digest) (manifest : Manifest)
  | cascade (old : Bool) (todo : List Digest)
  | cascadeUnlink (id : ℕ) (old : Bool) (todo : List Digest)
  | sweep (todo : List Digest)
  | sweepUnlink (id : ℕ) (todo : List Digest)
  | publish
  | store (left : List Bucket)
  | done
  | failed
deriving DecidableEq

/-- The local variables of `evict`. The accumulators are `u64`. -/
structure Pass where
  now : ℕ
  acc : Bucket → ℕ
  heap : Pool → List Candidate
  blobs : DashMap Digest BlobBk
  phase : Phase

/-- A pass that has yet to run. -/
def Pass.start : Pass := ⟨0, fun _ => 0, fun _ => [], ∅, .begin⟩

/-- What a step of the pass does to the shared state. -/
inductive Act where
  | idle
  | countRun
  | markEvicted (digest : Digest)
  | writeFile (id : ℕ) (content : Bytes)
  | moveBlob (digest : Digest) (blob : Blob)
  | moveRedis (key : Bytes) (size lastAccessed id : ℕ)
  | dropRedis (key : Bytes)
  | dropManifest (digest : Digest)
  | retainTags (digest : Digest)
  | dropBlob (digest : Digest)
  | removeFile (id : ℕ)
  | publish (small large disk : ℕ)
  | store (b : Bucket) (n : ℕ)
deriving DecidableEq

def Act.apply (s : State) : Act → State
  | .idle => s
  | .countRun => { s with metrics.evictionRuns := s.metrics.evictionRuns + 1 }
  | .markEvicted d =>
    match s.manifests.lookup d with
    | some m => { s with manifests := s.manifests.insert d { m with evicted := true } }
    | none => s
  | .writeFile id content => s.writeFile id content
  | .moveBlob d blob =>
    { s.insertBlob d blob with
      metrics.evictionBlobsToDisk := s.metrics.evictionBlobsToDisk + 1 }
  | .moveRedis key size t id =>
    { s.spillInsert key size t id with
      metrics.evictionRedisEntries := s.metrics.evictionRedisEntries + 1 }
  | .dropRedis key =>
    { (s.removeRedis key).2 with
      metrics.evictionRedisEntries := s.metrics.evictionRedisEntries + 1 }
  | .dropManifest d =>
    { (s.removeManifest d).2 with
      metrics.evictionManifestsDeleted := s.metrics.evictionManifestsDeleted + 1 }
  | .retainTags d => { s with tags := MapSum.retain (fun _ d' => d' ≠ d) s.tags }
  | .dropBlob d =>
    { (s.removeBlob d).2 with
      metrics.evictionBlobsDeleted := s.metrics.evictionBlobsDeleted + 1 }
  | .removeFile id => s.removeFile id
  | .publish small large disk =>
    { s with
      metrics.oldestSmallMemoryTouchTime := small
      metrics.oldestLargeMemoryTouchTime := large
      metrics.oldestDiskTouchTime := disk }
  | .store b n => { s with usage := Function.update s.usage b n }

/-- The outcome of `write_blob_to_disk`; a failed write may leave any file behind. -/
inductive WriteResult where
  | ok
  | failed (leftover : Option Bytes)

structure Choice where
  pick : ℕ := 0
  write : WriteResult := .ok
  unlinked : Bool := true

/-- Pop from a `BinaryHeap`: any candidate than which none is older. -/
def popOldest (h : List Candidate) (i : ℕ) : Option (Candidate × List Candidate) :=
  match h[i]? with
  | none => none
  | some c =>
    if ∀ c' ∈ h, c.lastAccessTime ≤ c'.lastAccessTime then some (c, h.eraseIdx i) else none

/-- The access time of the next candidate a heap would pop, or `now`. -/
def oldestTouch (now : ℕ) (h : List Candidate) : ℕ :=
  ((h.map Candidate.lastAccessTime).min?).getD now

namespace Pass

/-- The accumulator update `+=`. -/
@[simps] def count (p : Pass) (b : Bucket) (n : ℕ) : Pass :=
  { p with acc := Function.update p.acc b ((p.acc b + n) % 2 ^ 64) }

/-- The accumulator update by `saturating_sub`. -/
@[simps] def credit (p : Pass) (b : Bucket) (n : ℕ) : Pass :=
  { p with acc := Function.update p.acc b (p.acc b - n) }

/-- The accumulator update by `saturating_add`. -/
@[simps] def debit (p : Pass) (b : Bucket) (n : ℕ) : Pass :=
  { p with acc := Function.update p.acc b (min (p.acc b + n) (2 ^ 64 - 1)) }

@[simps] def push (p : Pass) (pool : Pool) (c : Candidate) : Pass :=
  { p with heap := Function.update p.heap pool (c :: p.heap pool) }

/-- The pass once `rest` is left of a heap. -/
@[simps] def popped (p : Pass) (pool : Pool) (rest : List Candidate) : Pass :=
  { p with heap := Function.update p.heap pool rest }

@[simps] def goto (p : Pass) (phase : Phase) : Pass := { p with phase := phase }

@[simps] def setBk (p : Pass) (r : Digest) (bb : BlobBk) : Pass := { p with blobs := p.blobs.insert r bb }

def scanBlob (p : Pass) (d : Digest) (b : Blob) : Pass :=
  (p.count (blobTier b).1.bucket (blobTier b).2).setBk d ⟨(blobTier b).1, 0, 0, b.lastAccessed⟩

/-- The references of one manifest: the table with the reference counts (`u32`) raised,
and whether one of them is in large memory or on disk. -/
def countRefs (evicted : Bool) :
    DashMap Digest BlobBk × Bool × Bool → List Digest → DashMap Digest BlobBk × Bool × Bool
  | acc, [] => acc
  | (blobs, large, disk), r :: rest =>
    match blobs.lookup r with
    | none => countRefs evicted (blobs, large, disk) rest
    | some bb =>
      let bb := { bb with refs := (bb.refs + 1) % 2 ^ 32 }
      let bb := if evicted then bb else { bb with unevictedRefs := (bb.unevictedRefs + 1) % 2 ^ 32 }
      countRefs evicted
        (blobs.insert r bb, large || bb.tier = .largeMem, disk || bb.tier = .disk) rest

section
variable (fromSlice : Bytes → Option Json)

def scanManifest (p : Pass) (d : Digest) (m : Manifest) : Pass :=
  let (blobs, someInLargeMemory, someOnDisk) :=
    countRefs m.evicted (p.blobs, false, false) (referencedDigests fromSlice m.content)
  let p := { p with blobs := blobs }
  let p := p.push .smallMemory (.manifest m.lastUsed d)
  let p := if someInLargeMemory then p.push .largeMemory (.manifest m.lastUsed d) else p
  let p := if someOnDisk then p.push .disk (.manifest m.lastUsed d) else p
  p.count .manifestMemory m.content.length

/-- The key always stays in memory and counts against the small pool. -/
def scanRedisEntry (p : Pass) (key : Bytes) (e : RedisEntry) : Pass :=
  let p := p.count .smallRedisMemory key.length
  match e with
  | .inMemory value _ t =>
    if value.length > memoryTierThreshold then
      (p.push .largeMemory (.redis key t value.length)).count .largeRedisMemory value.length
    else (p.push .smallMemory (.redis key t value.length)).count .smallRedisMemory value.length
  | .onDisk size _ t => (p.push .disk (.redis key t size)).count .redisDisk size

/-- Three quarters of a limit. -/
def target (limit : ℕ) : ℕ := limit - limit / 4

/-- The arm the loop takes: the first budget over its target whose heap has a candidate. -/
def arm (p : Pass) (c : Config) : Option Pool :=
  if (p.acc .smallBlobMemory + p.acc .smallRedisMemory + p.acc .manifestMemory) % 2 ^ 64
      > target c.smallMemoryLimit ∧ p.heap .smallMemory ≠ [] then some .smallMemory
  else if (p.acc .largeBlobMemory + p.acc .largeRedisMemory + p.acc .manifestMemory
      + p.acc .smallBlobMemory + p.acc .smallRedisMemory) % 2 ^ 64
      > target c.memoryLimit ∧ p.heap .largeMemory ≠ [] then some .largeMemory
  else if (p.acc .blobDisk + p.acc .redisDisk) % 2 ^ 64 > target c.diskLimit
      ∧ p.heap .disk ≠ [] then some .disk
  else none

/-- A small or on-disk Redis candidate is dropped. -/
def dropRedis (p : Pass) (s : State) (b : Bucket) (key : Bytes) (size : ℕ) : Act × Pass :=
  if (s.removeRedis key).1 then (.dropRedis key, p.credit b size) else (.idle, p)

def spillManifest (p : Pass) (s : State) (t : ℕ) (d : Digest) : Act × Pass :=
  match s.manifests.lookup d with
  | none => (.idle, p)
  | some m =>
    (.markEvicted d, p.goto (.spillBlobs ⟨d, t, m.evicted, referencedDigests fromSlice m.content⟩))

def spillRedis (p : Pass) (s : State) (key : Bytes) (t size : ℕ) : Act × Pass :=
  match s.spillFetch key with
  | none => (.idle, p)
  | some (value, id) => (.idle, p.goto (.redisWrite key size t value id))

def dropManifest (p : Pass) (s : State) (d : Digest) : Act × Pass :=
  match (s.removeManifest d).1 with
  | none => (.idle, p)
  | some m => (.dropManifest d, (p.credit .manifestMemory m.content.length).goto (.retainTags d m))

/-- One loop iteration on a popped candidate, up to its first await point. -/
def evictOne (p : Pass) (s : State) : Pool → Candidate → Act × Pass
  | .smallMemory, .manifest _ d => p.dropManifest s d
  | .smallMemory, .redis key _ size => p.dropRedis s .smallRedisMemory key size
  | .largeMemory, .manifest t d => p.spillManifest fromSlice s t d
  | .largeMemory, .redis key t size => p.spillRedis s key t size
  | .disk, .manifest _ d => p.dropManifest s d
  | .disk, .redis key _ size => p.dropRedis s .redisDisk key size

/-- One reference of a manifest that gives up its unevicted references. -/
def spillBlob (p : Pass) (s : State) (sp : ManifestSpill) (r : Digest) : Pass :=
  match p.blobs.lookup r with
  | none => p.goto (.spillBlobs sp)
  | some bb =>
    let bb := bb.unevict sp.old
    let p := (p.setBk r bb).goto (.spillBlobs sp)
    if bb.unevictedRefs ≠ 0 ∨ bb.tier ≠ .largeMem then p
    else match s.blobs.lookup r with
      | some (.inMemory id content mt t) => p.goto (.spillWrite sp r ⟨id, content, mt, t⟩)
      | _ => p

/-- One reference of a dropped manifest. -/
def cascadeBlob (p : Pass) (s : State) (old : Bool) (r : Digest) (todo : List Digest) :
    Act × Pass :=
  match p.blobs.lookup r with
  | none => (.idle, p.goto (.cascade old todo))
  | some bb =>
    let bb := bb.unref old
    let p := (p.setBk r bb).goto (.cascade old todo)
    if bb.refs ≠ 0 ∨ bb.lastAccessed > p.now - blobGraceSeconds then (.idle, p)
    else match (s.removeBlob r).1 with
      | none => (.idle, p)
      | some blob =>
        let p := p.credit (blobBucket blob).1 (blobBucket blob).2
        match blob with
        | .inMemory _ _ _ _ => (.dropBlob r, p)
        | .onDisk id _ _ _ => (.dropBlob r, p.goto (.cascadeUnlink id old todo))

/-- One entry of the unreferenced sweep. The accumulators are left as they are. -/
def sweepBlob (p : Pass) (s : State) (d : Digest) (todo : List Digest) : Act × Pass :=
  let p := p.goto (.sweep todo)
  match p.blobs.lookup d with
  | none => (.idle, p)
  | some bb =>
    if bb.refs ≠ 0 ∨ p.now - bb.lastAccessed < blobGraceSeconds then (.idle, p)
    else match (s.removeBlob d).1 with
      | none => (.idle, p)
      | some (.inMemory _ _ _ _) => (.dropBlob d, p)
      | some (.onDisk id _ _ _) => (.dropBlob d, p.goto (.sweepUnlink id todo))

/-- A file write that leads to `next` when it succeeds and ends the pass otherwise. -/
def write (p : Pass) (c : Choice) (id : ℕ) (content : Bytes) (next : Phase) : Act × Pass :=
  match c.write with
  | .ok => (.writeFile id content, p.goto next)
  | .failed (some part) => (.writeFile id part, p.goto .failed)
  | .failed none => (.idle, p.goto .failed)

/-- The removal of a file; a failure is only logged. -/
def unlink (c : Choice) (id : ℕ) : Act := if c.unlinked then .removeFile id else .idle

/-- The counters the pass stores at its end, in order. -/
def finalStores : List Bucket :=
  [.smallBlobMemory, .largeBlobMemory, .blobDisk, .smallRedisMemory, .largeRedisMemory, .redisDisk]

/-- The next step of the pass: what it does to the shared state, and the pass after it. -/
def next (s : State) (p : Pass) (c : Choice) : Option (Act × Pass) :=
  match p.phase with
  | .begin => some (.countRun, { p with now := s.now, phase := .scanBlobs })
  | .scanBlobs => some (.idle, (s.blobs.foldl scanBlob p).goto .scanManifests)
  | .scanManifests => some (.idle, (s.manifests.foldl (scanManifest fromSlice) p).goto .scanRedis)
  | .scanRedis => some (.idle, (s.redisEntries.foldl scanRedisEntry p).goto .loop)
  | .loop =>
    match p.arm s.config with
    | none => some (.idle, p.goto (.sweep p.blobs.keys))
    | some pool =>
      match popOldest (p.heap pool) c.pick with
      | none => none
      | some (candidate, rest) =>
        some (evictOne fromSlice (p.popped pool rest) s pool candidate)
  | .spillBlobs sp =>
    match sp.todo with
    | [] => some (.idle, (p.push .disk (.manifest sp.lastAccesses sp.digest)).goto .loop)
    | r :: rest => some (.idle, p.spillBlob s { sp with todo := rest } r)
  | .spillWrite sp r held => some (p.write c held.id held.content (.spillInsert sp r held))
  | .spillInsert sp r held =>
    let size := held.content.length
    some (.moveBlob r (.onDisk held.id size held.mediaType held.lastAccessed),
      ((p.credit .largeBlobMemory size).debit .blobDisk size).goto (.spillBlobs sp))
  | .redisWrite key size t value id => some (p.write c id value (.redisInsert key size t value id))
  | .redisInsert key size t _ id =>
    some (.moveRedis key size t id,
      (((p.credit .largeRedisMemory size).debit .redisDisk size).push .disk
        (.redis key t size)).goto .loop)
  | .retainTags d m =>
    some (.retainTags d, p.goto (.cascade m.evicted (referencedDigests fromSlice m.content)))
  | .cascade old todo =>
    match todo with
    | [] => some (.idle, p.goto .loop)
    | r :: rest => some (p.cascadeBlob s old r rest)
  | .cascadeUnlink id old todo => some (unlink c id, p.goto (.cascade old todo))
  | .sweep todo =>
    match todo with
    | [] => some (.idle, p.goto .publish)
    | _ :: _ =>
      match todo[c.pick]? with
      | none => none
      | some d => some (p.sweepBlob s d (todo.eraseIdx c.pick))
  | .sweepUnlink id todo => some (unlink c id, p.goto (.sweep todo))
  | .publish =>
    some (.publish (oldestTouch p.now (p.heap .smallMemory)) (oldestTouch p.now (p.heap .largeMemory))
      (oldestTouch p.now (p.heap .disk)), p.goto (.store finalStores))
  | .store left =>
    match left with
    | [] => some (.idle, p.goto .done)
    | b :: rest => some (.store b (p.acc b), p.goto (.store rest))
  | .done => none
  | .failed => none

/-- One step of the pass on the shared state. -/
def step (sp : State × Pass) (c : Choice) : Option (State × Pass) :=
  (next fromSlice sp.1 sp.2 c).map fun r => (r.1.apply sp.1, r.2)

end

end Pass

end Dockfoxprox

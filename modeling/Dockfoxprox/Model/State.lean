import Dockfoxprox.Lib.MapSum
import Dockfoxprox.Model.Digest
import Mathlib.Data.BitVec
import Mathlib.Logic.Function.Basic

/-! `state.rs`: the shared state of the proxy and the operations that insert,
replace and remove cache entries. A `DashMap` is a finite map, an `AtomicI64` a
64-bit word with wrapping arithmetic, and the atomics inside a shared entry are
fields of the entry. Beside the source's fields, the state holds the files under
`<data_folder>/blobs` by the id whose `cache_path` they sit at, and the unlink
tasks that were spawned and have not run yet. -/

namespace Dockfoxprox

abbrev DashMap (α β : Type) := AList fun _ : α => β

/-- Boundary between small and large items, `MEMORY_TIER_THRESHOLD`. -/
def memoryTierThreshold : ℕ := 1024

structure Manifest where
  content : Bytes
  mediaType : String
  lastUsed : ℕ
  evicted : Bool
deriving DecidableEq

inductive Blob where
  | onDisk (id size : ℕ) (mediaType : String) (lastAccessed : ℕ)
  | inMemory (id : ℕ) (content : Bytes) (mediaType : String) (lastAccessed : ℕ)
deriving DecidableEq

def Blob.lastAccessed : Blob → ℕ
  | .onDisk _ _ _ t => t
  | .inMemory _ _ _ t => t

def Blob.touch (now : ℕ) : Blob → Blob
  | .onDisk id size mt _ => .onDisk id size mt now
  | .inMemory id content mt _ => .inMemory id content mt now

def Blob.id : Blob → ℕ
  | .onDisk id _ _ _ => id
  | .inMemory id _ _ _ => id

/-- The id of a blob whose content sits on disk. -/
def Blob.diskId : Blob → Option ℕ
  | .onDisk id _ _ _ => some id
  | .inMemory _ _ _ _ => none

inductive RedisEntry where
  | inMemory (value : Bytes) (id lastAccessed : ℕ)
  | onDisk (size id lastAccessed : ℕ)
deriving DecidableEq

def RedisEntry.id : RedisEntry → ℕ
  | .inMemory _ id _ => id
  | .onDisk _ id _ => id

/-- The seven usage counters of `State`. -/
inductive Bucket where
  | manifestMemory
  | smallBlobMemory
  | largeBlobMemory
  | smallRedisMemory
  | largeRedisMemory
  | blobDisk
  | redisDisk
deriving DecidableEq

/-- The values of the seven `AtomicI64` counters. -/
abbrev Usage := Bucket → BitVec 64

/-- Limits of the configuration, in bytes. -/
structure Config where
  memoryLimit : ℕ
  smallMemoryLimitOpt : Option ℕ
  diskLimit : ℕ

/-- The effective small-items budget, `Config::small_memory_limit`. -/
def Config.smallMemoryLimit (c : Config) : ℕ := c.smallMemoryLimitOpt.getD (c.memoryLimit / 8)

/-- Counters and gauges that an eviction pass writes. -/
structure Metrics where
  evictionRuns : ℕ := 0
  evictionBlobsToDisk : ℕ := 0
  evictionBlobsDeleted : ℕ := 0
  evictionManifestsDeleted : ℕ := 0
  evictionRedisEntries : ℕ := 0
  oldestSmallMemoryTouchTime : ℕ := 0
  oldestLargeMemoryTouchTime : ℕ := 0
  oldestDiskTouchTime : ℕ := 0

structure State where
  manifests : DashMap Digest Manifest
  blobs : DashMap Digest Blob
  tags : DashMap (String × String) Digest
  redisEntries : DashMap Bytes RedisEntry
  config : Config
  now : ℕ
  usage : Usage
  metrics : Metrics
  nextId : ℕ
  files : DashMap ℕ Bytes
  unlinks : List ℕ

/-- A fresh state, as `State::new` builds it. -/
def State.new (config : Config) (now : ℕ) : State where
  manifests := ∅
  blobs := ∅
  tags := ∅
  redisEntries := ∅
  config := config
  now := now
  usage := fun _ => 0
  metrics :=
    { oldestSmallMemoryTouchTime := now
      oldestLargeMemoryTouchTime := now
      oldestDiskTouchTime := now }
  nextId := 0
  files := ∅
  unlinks := []

/-- The bucket a blob is charged to and its byte size. -/
def blobBucket : Blob → Bucket × ℕ
  | .inMemory _ content _ _ =>
    if content.length > memoryTierThreshold then (.largeBlobMemory, content.length)
    else (.smallBlobMemory, content.length)
  | .onDisk _ size _ _ => (.blobDisk, size)

/-- The bucket the value of a Redis entry is charged to and its byte size. -/
def redisValueBucket : RedisEntry → Bucket × ℕ
  | .inMemory value _ _ =>
    if value.length > memoryTierThreshold then (.largeRedisMemory, value.length)
    else (.smallRedisMemory, value.length)
  | .onDisk size _ _ => (.redisDisk, size)

/-- The last `n` hexadecimal digits of a number. -/
def hexDigits : ℕ → ℕ → List Char
  | 0, _ => []
  | n + 1, id => hexDigits n (id / 16) ++ [Nat.digitChar (id % 16)]

/-- The path `cache_path` joins, by its components. -/
def cachePath (dataFolder : String) (id : ℕ) : List String :=
  let hex := hexDigits 16 id
  let shard := hex.drop 14
  [dataFolder, "blobs", String.ofList shard, String.ofList hex]

namespace State

def fetchAdd (s : State) (b : Bucket) (n : BitVec 64) : State :=
  { s with usage := Function.update s.usage b (s.usage b + n) }

def fetchSub (s : State) (b : Bucket) (n : BitVec 64) : State :=
  { s with usage := Function.update s.usage b (s.usage b - n) }

/-- Insert a blob, moving the charge of a replaced one out of its bucket. -/
def insertBlob (s : State) (digest : Digest) (blob : Blob) : State :=
  let s := s.fetchAdd (blobBucket blob).1 (blobBucket blob).2
  let old := s.blobs.lookup digest
  let s := { s with blobs := s.blobs.insert digest blob }
  match old with
  | some old => s.fetchSub (blobBucket old).1 (blobBucket old).2
  | none => s

/-- Remove a blob; the object on disk stays. -/
def removeBlob (s : State) (digest : Digest) : Option Blob × State :=
  match s.blobs.lookup digest with
  | none => (none, s)
  | some b =>
    (some b, fetchSub { s with blobs := s.blobs.erase digest } (blobBucket b).1 (blobBucket b).2)

def insertManifest (s : State) (digest : Digest) (m : Manifest) : State :=
  let oldLen : BitVec 64 := (s.manifests.lookup digest).elim 0 fun o => (o.content.length : BitVec 64)
  fetchAdd { s with manifests := s.manifests.insert digest m } .manifestMemory
    (m.content.length - oldLen)

def removeManifest (s : State) (digest : Digest) : Option Manifest × State :=
  match s.manifests.lookup digest with
  | none => (none, s)
  | some m =>
    (some m, fetchSub { s with manifests := s.manifests.erase digest } .manifestMemory
      m.content.length)

/-- The unlink task a removed entry leaves behind. -/
def spawnUnlink (s : State) : RedisEntry → State
  | .onDisk _ id _ => { s with unlinks := s.unlinks ++ [id] }
  | .inMemory _ _ _ => s

/-- Insert or replace a Redis entry. The key is charged to the small pool when it
is new in the map. -/
def insertRedis (s : State) (key value : Bytes) : State :=
  let entry := RedisEntry.inMemory value s.nextId s.now
  let s := { s with nextId := s.nextId + 1 }
  let s := s.fetchAdd (redisValueBucket entry).1 (redisValueBucket entry).2
  let old := s.redisEntries.lookup key
  let s := { s with redisEntries := s.redisEntries.insert key entry }
  match old with
  | some old => (s.fetchSub (redisValueBucket old).1 (redisValueBucket old).2).spawnUnlink old
  | none => s.fetchAdd .smallRedisMemory key.length

/-- Remove a Redis entry by key, telling whether it existed. -/
def removeRedis (s : State) (key : Bytes) : Bool × State :=
  match s.redisEntries.lookup key with
  | none => (false, s)
  | some v =>
    let s := { s with redisEntries := s.redisEntries.erase key }
    let s := s.fetchSub (redisValueBucket v).1 (redisValueBucket v).2
    (true, (s.fetchSub .smallRedisMemory key.length).spawnUnlink v)

/-- The id of an entry whose value sits on disk. -/
def diskId : RedisEntry → Option ℕ
  | .onDisk _ id _ => some id
  | .inMemory _ _ _ => none

/-- Drop every Redis entry, zero the three counters and spawn the unlinks. -/
def flushRedis (s : State) : State :=
  let delete := s.redisEntries.entries.filterMap fun e => diskId e.2
  { s with
    redisEntries := ∅
    usage := fun b =>
      if b = .smallRedisMemory ∨ b = .largeRedisMemory ∨ b = .redisDisk then 0 else s.usage b
    unlinks := s.unlinks ++ delete }

/-- Write a file under `blobs`, at the path of an id. -/
def writeFile (s : State) (id : ℕ) (content : Bytes) : State :=
  { s with files := s.files.insert id content }

/-- Remove the file of an id; a missing one is ignored. -/
def removeFile (s : State) (id : ℕ) : State := { s with files := s.files.erase id }

end State

end Dockfoxprox

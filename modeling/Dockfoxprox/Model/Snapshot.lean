import Dockfoxprox.Model.Usage

/-! `snapshot.rs`: what `save` writes and what `load` makes of it. A save goes through the
blobs and the Redis entries one at a time, with an await point at every file it writes, so
it is a machine of its own. The encoder is `ciborium`, a parameter that decodes what it
encodes. -/

namespace Dockfoxprox

def snapshotVersion : ℕ := 2

/-- Entries up to this size go into the snapshot itself, `SNAPSHOT_INLINE_THRESHOLD`. -/
def snapshotInlineThreshold : ℕ := 1024

structure TagEntry where
  repo : String
  reference : String
  digest : String
deriving DecidableEq

structure ManifestEntry where
  digest : String
  mediaType : String
  lastUsed : ℕ
  content : Bytes
  evicted : Bool
deriving DecidableEq

structure BlobEntry where
  digest : String
  mediaType : String
  size : ℕ
  lastAccessed : ℕ
  id : ℕ
  content : Option Bytes
deriving DecidableEq

structure RedisEntryEntry where
  key : Bytes
  id : ℕ
  value : Option Bytes
  lastAccessed : ℕ
  size : ℕ
deriving DecidableEq

structure Snapshot where
  version : ℕ
  tags : List TagEntry
  manifests : List ManifestEntry
  blobs : List BlobEntry
  redisEntries : List RedisEntryEntry
  nextId : ℕ
deriving DecidableEq

/-- `ciborium` on snapshots, over the type of the buffers it writes. -/
structure Cbor (Buf : Type) where
  encode : Snapshot → Buf
  decode : Buf → Except String Snapshot
  decode_encode : ∀ snap, decode (encode snap) = .ok snap

/-! What a save makes of each entry. -/

def Manifest.entry (d : Digest) (m : Manifest) : ManifestEntry :=
  ⟨d.toText, m.mediaType, m.lastUsed, m.content, m.evicted⟩

def tagEntry (ref : String × String) (d : Digest) : TagEntry := ⟨ref.1, ref.2, d.toText⟩

/-- Small blobs in memory are inlined; all others go without their content. -/
def Blob.entry (d : Digest) : Blob → BlobEntry
  | .onDisk id size mt t => ⟨d.toText, mt, size, t, id, none⟩
  | .inMemory id content mt t =>
    ⟨d.toText, mt, content.length, t, id,
      if content.length ≤ snapshotInlineThreshold then some content else none⟩

/-- The file a save writes for a blob. -/
def Blob.spill : Blob → Option (ℕ × Bytes)
  | .onDisk _ _ _ _ => none
  | .inMemory id content _ _ =>
    if content.length ≤ snapshotInlineThreshold then none else some (id, content)

def RedisEntry.entry (key : Bytes) : RedisEntry → RedisEntryEntry
  | .onDisk size id t => ⟨key, id, none, t, size⟩
  | .inMemory value id t =>
    ⟨key, id, if value.length ≤ snapshotInlineThreshold then some value else none, t, value.length⟩

/-- The file a save writes for a Redis entry. -/
def RedisEntry.spill : RedisEntry → Option (ℕ × Bytes)
  | .onDisk _ _ _ => none
  | .inMemory value id _ =>
    if value.length ≤ snapshotInlineThreshold then none else some (id, value)

/-- Write the file of a spilled entry. -/
def State.spill (s : State) (f : Option (ℕ × Bytes)) : State :=
  f.elim s fun f => s.writeFile f.1 f.2

/-- An iteration over a `DashMap` that others may change: the keys it held at the start and
the keys that came up so far. A key that stays in the map comes up once, and one that is
inserted or removed meanwhile may come up or not. -/
structure Iter (κ : Type) where
  present : List κ
  seen : List κ
deriving DecidableEq

namespace Iter

variable {κ α : Type} [DecidableEq κ]

def start (m : DashMap κ α) : Iter κ := ⟨m.keys, []⟩

def visit (it : Iter κ) (m : DashMap κ α) (k : κ) : Option (α × Iter κ) :=
  if k ∈ it.seen then none else (m.lookup k).map fun v => (v, { it with seen := k :: it.seen })

/-- What may still come up. -/
def unseen (it : Iter κ) (m : DashMap κ α) : List α :=
  m.entries.filterMap fun e => if e.1 ∈ it.seen then none else some e.2

/-- Nothing is left to come up. -/
def finished (it : Iter κ) (m : DashMap κ α) : Bool :=
  ∀ k ∈ it.present, k ∈ it.seen ∨ m.lookup k = none

end Iter

/-- The step a save is about to take. -/
inductive SavePhase where
  | blobs (it : Iter Digest)
  | manifests
  | tags
  | redis (it : Iter Bytes)
  | write (snap : Snapshot)
  | rename
  | done
deriving DecidableEq

/-- The local variables of `save`. No step reads `record`, which has the entries the save
has come to and the contents of the files they were in. -/
structure Save where
  phase : SavePhase
  blobs : List BlobEntry
  manifests : List ManifestEntry
  tags : List TagEntry
  redis : List RedisEntryEntry
  record : State

/-- A save of `s` that has yet to look at its first entry. -/
def Save.start (s : State) : Save :=
  ⟨.blobs (.start s.blobs), [], [], [], [], .new s.config s.now⟩

/-- The files `snapshot.cbor` and `snapshot.cbor.tmp`. -/
structure SnapshotFiles (Buf : Type) where
  path : Option Buf
  tmp : Option Buf

inductive SaveEvent where
  | blob (digest : Digest)
  | redis (key : Bytes)
  | next
deriving DecidableEq

namespace Save

/-- The contents of the file behind an id go on record with the entry. -/
def keep (record s : State) (id : Option ℕ) : DashMap ℕ Bytes :=
  match id.bind fun id => (s.files.lookup id).map fun b => (id, b) with
  | some (id, b) => record.files.insert id b
  | none => record.files

/-- The next blob: its entry, after its file is written if it is large and in memory. -/
def visitBlob (s : State) (sv : Save) (it : Iter Digest) (d : Digest) : Option (State × Save) :=
  (it.visit s.blobs d).map fun (b, it) =>
    (s.spill b.spill,
      { sv with
        phase := .blobs it
        blobs := sv.blobs ++ [b.entry d]
        record :=
          { sv.record with
            blobs := sv.record.blobs.insert d b
            files := keep sv.record s b.diskId } })

/-- The next Redis entry. -/
def visitRedis (s : State) (sv : Save) (it : Iter Bytes) (k : Bytes) : Option (State × Save) :=
  (it.visit s.redisEntries k).map fun (e, it) =>
    (s.spill e.spill,
      { sv with
        phase := .redis it
        redis := sv.redis ++ [e.entry k]
        record :=
          { sv.record with
            redisEntries := sv.record.redisEntries.insert k e
            files := keep sv.record s (State.diskId e) } })

/-- The snapshot, once all entries are collected. -/
def snapshot (sv : Save) (nextId : ℕ) : Snapshot :=
  ⟨snapshotVersion, sv.tags, sv.manifests, sv.blobs, sv.redis, nextId⟩

variable {Buf : Type} (cbor : Cbor Buf)

/-- One step of `save` on the shared state, the snapshot files and its local variables. -/
def step (x : State × SnapshotFiles Buf × Save) (e : SaveEvent) :
    Option (State × SnapshotFiles Buf × Save) :=
  let (s, disk, sv) := x
  match sv.phase, e with
  | .blobs it, .blob d => (visitBlob s sv it d).map fun r => (r.1, disk, r.2)
  | .blobs it, .next =>
    if it.finished s.blobs then some (s, disk, { sv with phase := .manifests }) else none
  | .manifests, .next =>
    some (s, disk, { sv with
      phase := .tags
      manifests := s.manifests.entries.map fun e => e.2.entry e.1
      record := { sv.record with manifests := s.manifests } })
  | .tags, .next =>
    some (s, disk, { sv with
      phase := .redis (.start s.redisEntries)
      tags := s.tags.entries.map fun e => tagEntry e.1 e.2
      record := { sv.record with tags := s.tags } })
  | .redis it, .redis k => (visitRedis s sv it k).map fun r => (r.1, disk, r.2)
  | .redis it, .next =>
    if it.finished s.redisEntries then
      some (s, disk, { sv with
        phase := .write (sv.snapshot s.nextId)
        record := { sv.record with nextId := s.nextId } })
    else none
  | .write snap, .next =>
    some (s, { disk with tmp := some (cbor.encode snap) }, { sv with phase := .rename })
  | .rename, .next =>
    some (s, { path := disk.tmp, tmp := none }, { sv with phase := .done })
  | _, _ => none

end Save

/-! Loading. -/

/-- The error of a read: `NotFound` or another one. -/
inductive ReadError where
  | notFound
  | other (e : String)
deriving DecidableEq

inductive LoadError where
  | missing
  | other (e : String)
deriving DecidableEq

namespace State

/-- Entries whose digest does not parse are skipped. -/
def loadManifest (s : State) (m : ManifestEntry) : State :=
  match Digest.fromStr m.digest with
  | none => s
  | some d =>
    { s with manifests := s.manifests.insert d ⟨m.content, m.mediaType, m.lastUsed, m.evicted⟩ }

/-- A blob without content is loaded only if its file is there with the right size. -/
def loadBlob (s : State) (b : BlobEntry) : State :=
  match Digest.fromStr b.digest, b.content with
  | none, _ => s
  | some d, some content =>
    { s with blobs := s.blobs.insert d (.inMemory b.id content b.mediaType b.lastAccessed) }
  | some d, none =>
    match s.files.lookup b.id with
    | none => s
    | some file =>
      if file.length = b.size then
        { s with blobs := s.blobs.insert d (.onDisk b.id b.size b.mediaType b.lastAccessed) }
      else s

def loadTag (s : State) (t : TagEntry) : State :=
  match Digest.fromStr t.digest with
  | none => s
  | some d => { s with tags := s.tags.insert (t.repo, t.reference) d }

/-- The file of a Redis entry is not looked at. -/
def loadRedis (s : State) (r : RedisEntryEntry) : State :=
  match r.value with
  | some value =>
    { s with redisEntries := s.redisEntries.insert r.key (.inMemory value r.id r.lastAccessed) }
  | none =>
    { s with redisEntries := s.redisEntries.insert r.key (.onDisk r.size r.id r.lastAccessed) }

/-- The four loops of `load`. -/
def loadEntries (s : State) (snap : Snapshot) : State :=
  let s := snap.manifests.foldl loadManifest s
  let s := snap.blobs.foldl loadBlob s
  let s := snap.tags.foldl loadTag s
  snap.redisEntries.foldl loadRedis s

/-- `load` of the snapshot file as it is: what it contains, if it is there. -/
def load {Buf : Type} (cbor : Cbor Buf) (s : State) (path : Option Buf) : Except LoadError State :=
  match path with
  | none => .error .missing
  | some buf =>
    match cbor.decode buf with
    | .error e => .error (.other ("decode cbor: " ++ e))
    | .ok snap =>
      if snap.version ≠ snapshotVersion then
        .error (.other ("snapshot version " ++ toString snap.version ++ " != expected " ++
          toString snapshotVersion))
      else .ok { (s.loadEntries snap).recomputeUsage with nextId := snap.nextId }

/-- `load` with the outcome of its read of the snapshot file. -/
def loadRead {Buf : Type} (cbor : Cbor Buf) (s : State) : Except ReadError Buf →
    Except LoadError State
  | .ok buf => s.load cbor (some buf)
  | .error .notFound => s.load cbor none
  | .error (.other e) => .error (.other ("read snapshot: " ++ e))

/-- What `wipe_cache` leaves of the state, once the files are removed. -/
def wipeCache (s : State) : State :=
  let s := { s with blobs := ∅, manifests := ∅, tags := ∅, redisEntries := ∅ }
  { s.recomputeUsage with nextId := 0 }

end State

end Dockfoxprox

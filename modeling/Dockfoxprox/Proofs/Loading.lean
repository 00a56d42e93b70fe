import Dockfoxprox.Model.Snapshot
import Dockfoxprox.Proofs.Cache
import Dockfoxprox.Proofs.Digest

/-! What `load` makes of a snapshot whose files are in place: the entries that were put on
record, each in the tier it was saved to and with the bytes it had. -/

namespace Dockfoxprox

open MapSum Tiered

/-- A blob after a save and a load: large ones in memory have gone to disk. -/
def Blob.saved : Blob → Blob
  | .onDisk id size mt t => .onDisk id size mt t
  | .inMemory id content mt t =>
    if content.length ≤ snapshotInlineThreshold then .inMemory id content mt t
    else .onDisk id content.length mt t

def RedisEntry.saved : RedisEntry → RedisEntry
  | .onDisk size id t => .onDisk size id t
  | .inMemory value id t =>
    if value.length ≤ snapshotInlineThreshold then .inMemory value id t
    else .onDisk value.length id t

namespace State

/-- The bytes a blob denotes: its content or that of its file. -/
def blobBytes (s : State) : Blob → Option Bytes
  | .inMemory _ content _ _ => some content
  | .onDisk id _ _ _ => s.files.lookup id

def redisBytes (s : State) : RedisEntry → Option Bytes
  | .inMemory value _ _ => some value
  | .onDisk _ id _ => s.files.lookup id

end State

/-- `t` has what `s` has: the same tags and manifests, the same blobs and Redis entries with
the same bytes, small ones of them in memory if they were and large ones on disk, the same
next id, and counters that are right. -/
structure Restores (s t : State) : Prop where
  tags : ∀ ref, t.tags.lookup ref = s.tags.lookup ref
  manifests : ∀ d, t.manifests.lookup d = s.manifests.lookup d
  blobs : ∀ d, t.blobs.lookup d = (s.blobs.lookup d).map Blob.saved
  blobBytes : ∀ d b, s.blobs.lookup d = some b →
    ∃ bytes, s.blobBytes b = some bytes ∧ t.blobBytes b.saved = some bytes
  redis : ∀ k, t.redisEntries.lookup k = (s.redisEntries.lookup k).map RedisEntry.saved
  redisBytes : ∀ k e, s.redisEntries.lookup k = some e →
    ∃ bytes, s.redisBytes e = some bytes ∧ t.redisBytes e.saved = some bytes
  nextId : t.nextId = s.nextId
  usage : t.usage = t.recomputed

/-! What `load` takes from each entry. -/

def ManifestEntry.loaded (m : ManifestEntry) : Option (Digest × Manifest) :=
  (Digest.fromStr m.digest).map fun d => (d, ⟨m.content, m.mediaType, m.lastUsed, m.evicted⟩)

def TagEntry.loaded (t : TagEntry) : Option ((String × String) × Digest) :=
  (Digest.fromStr t.digest).map fun d => ((t.repo, t.reference), d)

def BlobEntry.loaded (files : DashMap ℕ Bytes) (b : BlobEntry) : Option (Digest × Blob) :=
  (Digest.fromStr b.digest).bind fun d =>
    match b.content with
    | some content => some (d, .inMemory b.id content b.mediaType b.lastAccessed)
    | none =>
      match files.lookup b.id with
      | none => none
      | some file =>
        if file.length = b.size then some (d, .onDisk b.id b.size b.mediaType b.lastAccessed)
        else none

def RedisEntryEntry.loaded (r : RedisEntryEntry) : Option (Bytes × RedisEntry) :=
  match r.value with
  | some value => some (r.key, .inMemory value r.id r.lastAccessed)
  | none => some (r.key, .onDisk r.size r.id r.lastAccessed)

namespace State

variable (s : State)

theorem foldl_loadManifest (l : List ManifestEntry) : l.foldl loadManifest s =
    { s with manifests := l.foldl (fun m e => put m e.loaded) s.manifests } := by
  induction l generalizing s with
  | nil => rfl
  | cons e l ih =>
    have he : s.loadManifest e = { s with manifests := put s.manifests e.loaded } := by
      unfold loadManifest ManifestEntry.loaded
      cases Digest.fromStr e.digest <;> rfl
    rw [List.foldl_cons, List.foldl_cons, he, ih]

theorem foldl_loadBlob (l : List BlobEntry) : l.foldl loadBlob s =
    { s with blobs := l.foldl (fun m e => put m (e.loaded s.files)) s.blobs } := by
  induction l generalizing s with
  | nil => rfl
  | cons e l ih =>
    have he : s.loadBlob e = { s with blobs := put s.blobs (e.loaded s.files) } := by
      unfold loadBlob BlobEntry.loaded
      cases Digest.fromStr e.digest with
      | none => rfl
      | some d =>
        cases e.content with
        | some content => rfl
        | none =>
          simp only [Option.bind_some]
          cases s.files.lookup e.id with
          | none => rfl
          | some file =>
            simp only
            split <;> rfl
    rw [List.foldl_cons, List.foldl_cons, he, ih]

theorem foldl_loadTag (l : List TagEntry) : l.foldl loadTag s =
    { s with tags := l.foldl (fun m e => put m e.loaded) s.tags } := by
  induction l generalizing s with
  | nil => rfl
  | cons e l ih =>
    have he : s.loadTag e = { s with tags := put s.tags e.loaded } := by
      unfold loadTag TagEntry.loaded
      cases Digest.fromStr e.digest <;> rfl
    rw [List.foldl_cons, List.foldl_cons, he, ih]

theorem foldl_loadRedis (l : List RedisEntryEntry) : l.foldl loadRedis s =
    { s with redisEntries := l.foldl (fun m e => put m e.loaded) s.redisEntries } := by
  induction l generalizing s with
  | nil => rfl
  | cons e l ih =>
    have he : s.loadRedis e = { s with redisEntries := put s.redisEntries e.loaded } := by
      unfold loadRedis RedisEntryEntry.loaded
      cases e.value <;> rfl
    rw [List.foldl_cons, List.foldl_cons, he, ih]

end State

/-! Snapshots of a record. -/

/-- The file a save writes for a value in memory. -/
def spillSlot : Slot Bytes → Option (ℕ × Bytes)
  | .disk _ => none
  | .mem id v => if v.length ≤ snapshotInlineThreshold then none else some (id, v)

/-- The file that an entry of the record is in once it is saved, with its content. -/
def State.backing (r : State) : Slot Bytes → Option (ℕ × Bytes)
  | .disk id => (r.files.lookup id).map fun b => (id, b)
  | .mem id v => spillSlot (.mem id v)

/-- The record has the files of its entries on disk, the blobs among them at their size. -/
structure State.Filed (r : State) : Prop where
  blobs : ∀ d id size mt t, r.blobs.lookup d = some (.onDisk id size mt t) →
    ∃ b, r.files.lookup id = some b ∧ b.length = size
  redis : ∀ k size id t, r.redisEntries.lookup k = some (.onDisk size id t) →
    ∃ b, r.files.lookup id = some b

/-- A snapshot of what is on record, over files that back its entries. -/
structure Snapshot.Holds (snap : Snapshot) (r : State) (files : DashMap ℕ Bytes) : Prop where
  version : snap.version = snapshotVersion
  manifests : snap.manifests = r.manifests.entries.map fun e => e.2.entry e.1
  tags : snap.tags = r.tags.entries.map fun e => tagEntry e.1 e.2
  blobs : ∀ be, be ∈ snap.blobs ↔ ∃ d b, r.blobs.lookup d = some b ∧ be = b.entry d
  redis : ∀ re, re ∈ snap.redisEntries ↔ ∃ k e, r.redisEntries.lookup k = some e ∧ re = e.entry k
  nextId : snap.nextId = r.nextId
  filed : r.Filed
  files : ∀ o x id bytes, r.slot o = some x → r.backing x = some (id, bytes) →
    files.lookup id = some bytes

section
variable {r : State} {files : DashMap ℕ Bytes}

theorem Manifest.loaded_entry (d : Digest) (m : Manifest) : (m.entry d).loaded = some (d, m) := by
  simp [Manifest.entry, ManifestEntry.loaded, Digest.fromStr_toText]

theorem loaded_tagEntry (ref : String × String) (d : Digest) :
    (tagEntry ref d).loaded = some (ref, d) := by
  simp [tagEntry, TagEntry.loaded, Digest.fromStr_toText]

/-- A blob on record loads as it was saved. -/
theorem Blob.loaded_entry {d : Digest} {b : Blob} (hf : r.Filed) (hb : r.blobs.lookup d = some b)
    (hfile : ∀ id bytes, r.backing b.slot = some (id, bytes) → files.lookup id = some bytes) :
    (b.entry d).loaded files = some (d, b.saved) := by
  cases b with
  | onDisk id size mt t =>
    obtain ⟨bytes, hbytes, hlen⟩ := hf.blobs d id size mt t hb
    have hfiles := hfile id bytes (by simp [State.backing, Blob.slot, hbytes])
    simp [Blob.entry, BlobEntry.loaded, Digest.fromStr_toText, hfiles, hlen, Blob.saved]
  | inMemory id content mt t =>
    by_cases hl : content.length ≤ snapshotInlineThreshold
    · simp [Blob.entry, BlobEntry.loaded, Digest.fromStr_toText, hl, Blob.saved]
    · have hfiles := hfile id content (by simp [State.backing, spillSlot, Blob.slot, hl])
      simp [Blob.entry, BlobEntry.loaded, Digest.fromStr_toText, hl, hfiles, Blob.saved]

theorem RedisEntry.loaded_entry (k : Bytes) (e : RedisEntry) :
    (e.entry k).loaded = some (k, e.saved) := by
  cases e with
  | onDisk size id t => rfl
  | inMemory value id t =>
    by_cases hl : value.length ≤ snapshotInlineThreshold
    · simp [RedisEntry.entry, RedisEntryEntry.loaded, RedisEntry.saved, hl]
    · simp [RedisEntry.entry, RedisEntryEntry.loaded, RedisEntry.saved, hl]

theorem Blob.bytes_saved {s t : State} {d : Digest} {b : Blob} (hf : s.Filed)
    (hb : s.blobs.lookup d = some b)
    (hfile : ∀ id bytes, s.backing b.slot = some (id, bytes) → t.files.lookup id = some bytes) :
    ∃ bytes, s.blobBytes b = some bytes ∧ t.blobBytes b.saved = some bytes := by
  cases b with
  | onDisk id size mt u =>
    obtain ⟨bytes, hbytes, -⟩ := hf.blobs d id size mt u hb
    exact ⟨bytes, hbytes, hfile id bytes (by simp [State.backing, Blob.slot, hbytes])⟩
  | inMemory id content mt u =>
    refine ⟨content, rfl, ?_⟩
    by_cases hl : content.length ≤ snapshotInlineThreshold
    · simp [Blob.saved, hl, State.blobBytes]
    · simpa [Blob.saved, hl, State.blobBytes] using
        hfile id content (by simp [State.backing, spillSlot, Blob.slot, hl])

theorem RedisEntry.bytes_saved {s t : State} {k : Bytes} {e : RedisEntry} (hf : s.Filed)
    (he : s.redisEntries.lookup k = some e)
    (hfile : ∀ id bytes, s.backing e.slot = some (id, bytes) → t.files.lookup id = some bytes) :
    ∃ bytes, s.redisBytes e = some bytes ∧ t.redisBytes e.saved = some bytes := by
  cases e with
  | onDisk size id u =>
    obtain ⟨bytes, hbytes⟩ := hf.redis k size id u he
    exact ⟨bytes, hbytes, hfile id bytes (by simp [State.backing, RedisEntry.slot, hbytes])⟩
  | inMemory value id u =>
    refine ⟨value, rfl, ?_⟩
    by_cases hl : value.length ≤ snapshotInlineThreshold
    · simp [RedisEntry.saved, hl, State.redisBytes]
    · simpa [RedisEntry.saved, hl, State.redisBytes] using
        hfile id value (by simp [State.backing, spillSlot, RedisEntry.slot, hl])

/-- A map that is put together from the entries `f` makes of those of another map. -/
theorem lookup_foldl_entries {α β γ : Type} [DecidableEq α] (m : DashMap α β) {l : List γ}
    {f : γ → Option (α × β)} {enc : α → β → γ}
    (hl : ∀ c, c ∈ l ↔ ∃ k v, m.lookup k = some v ∧ c = enc k v)
    {g : β → β} (hf : ∀ k v, m.lookup k = some v → f (enc k v) = some (k, g v)) (k : α) :
    (l.foldl (fun acc c => put acc (f c)) ∅).lookup k = (m.lookup k).map g := by
  refine lookup_foldl_put (m := fun k => (m.lookup k).map g) (fun c hc k' v' hv => ?_) ?_
  · obtain ⟨k₀, v₀, hk₀, rfl⟩ := (hl c).mp hc
    rw [hf k₀ v₀ hk₀] at hv
    cases hv
    simp [hk₀]
  · cases hk : m.lookup k with
    | none => exact .inl (by simp)
    | some v => exact .inr ⟨enc k v, (hl _).mpr ⟨k, v, hk, rfl⟩, g v, hf k v hk⟩

/-- The four loops, one map each. -/
theorem State.loadEntries_eq (s : State) (snap : Snapshot) : s.loadEntries snap =
    { s with
      manifests := snap.manifests.foldl (fun m e => put m e.loaded) s.manifests
      blobs := snap.blobs.foldl (fun m e => put m (e.loaded s.files)) s.blobs
      tags := snap.tags.foldl (fun m e => put m e.loaded) s.tags
      redisEntries := snap.redisEntries.foldl (fun m e => put m e.loaded) s.redisEntries } := by
  simp only [loadEntries, foldl_loadManifest, foldl_loadBlob, foldl_loadTag, foldl_loadRedis]

/-- A snapshot that holds what is on record is loaded as that. -/
theorem Snapshot.Holds.load {Buf : Type} (cbor : Cbor Buf) {snap : Snapshot}
    (h : snap.Holds r files) (config : Config) (now : ℕ) :
    ∃ t, State.load cbor { State.new config now with files := files } (some (cbor.encode snap)) =
      .ok t ∧ Restores r t ∧ t.files = files ∧ t.unlinks = [] := by
  let s : State := { State.new config now with files := files }
  refine ⟨{ (s.loadEntries snap).recomputeUsage with nextId := snap.nextId }, ?_, ?_, ?_, ?_⟩
  · simp only [State.load, cbor.decode_encode, h.version, ne_eq, not_true_eq_false, if_false, s]
  · have hman (c : ManifestEntry) : c ∈ snap.manifests ↔
        ∃ d m, r.manifests.lookup d = some m ∧ c = m.entry d := by
      simp only [h.manifests, List.mem_map, Sigma.exists, mem_entries, eq_comm]
    have htag (c : TagEntry) : c ∈ snap.tags ↔
        ∃ ref d, r.tags.lookup ref = some d ∧ c = tagEntry ref d := by
      simp only [h.tags, List.mem_map, Sigma.exists, mem_entries, eq_comm]
    rw [State.loadEntries_eq]
    constructor
    · intro ref
      exact (lookup_foldl_entries r.tags htag (g := id) (fun ref d _ => loaded_tagEntry ref d)
        ref).trans Option.map_id_apply
    · intro d
      exact (lookup_foldl_entries r.manifests hman (g := id)
        (fun d m _ => Manifest.loaded_entry d m) d).trans Option.map_id_apply
    · exact lookup_foldl_entries r.blobs h.blobs fun d b hb =>
        Blob.loaded_entry h.filed hb (fun id bytes => h.files _ _ id bytes (State.slot_blob hb))
    · exact fun d b hb =>
        Blob.bytes_saved h.filed hb (fun id bytes => h.files _ _ id bytes (State.slot_blob hb))
    · exact lookup_foldl_entries r.redisEntries h.redis fun k e _ => RedisEntry.loaded_entry k e
    · exact fun k e he => RedisEntry.bytes_saved h.filed he
        (fun id bytes => h.files _ _ id bytes (State.slot_redis he))
    · exact h.nextId
    · rfl
  · rw [State.loadEntries_eq]
    rfl
  · rw [State.loadEntries_eq]
    rfl

end

end Dockfoxprox

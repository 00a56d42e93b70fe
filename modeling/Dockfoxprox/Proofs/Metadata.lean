import Dockfoxprox.Proofs.Saving

/-! Which entries on disk are backed after a load. A blob is loaded only with its file, a Redis
entry without a look at it. -/

namespace Dockfoxprox

open MapSum

/-- There is a file of that id and that many bytes. -/
def FileOfSize (files : DashMap ℕ Bytes) (id size : ℕ) : Prop :=
  ∃ file, files.lookup id = some file ∧ file.length = size

/-- The length of a file, 0 if there is none. -/
def fileSize (files : DashMap ℕ Bytes) (id : ℕ) : ℕ := (files.lookup id).elim 0 List.length

theorem FileOfSize.fileSize {files : DashMap ℕ Bytes} {id size : ℕ} (h : FileOfSize files id size) :
    fileSize files id = size := by
  obtain ⟨file, hf, rfl⟩ := h
  simp [Dockfoxprox.fileSize, hf]

namespace State

/-- The metadata is no lie: every entry on disk has a file of the size it records. -/
structure MetadataTrue (s : State) : Prop where
  blobs : ∀ d id size mt t, s.blobs.lookup d = some (.onDisk id size mt t) → FileOfSize s.files id size
  redis : ∀ k size id t, s.redisEntries.lookup k = some (.onDisk size id t) →
    FileOfSize s.files id size

/-- The bytes in the files of the blobs on disk. -/
def blobFileBytes (s : State) : ℕ :=
  total (fun _ b => match b with
    | .onDisk id _ _ _ => fileSize s.files id
    | .inMemory _ _ _ _ => 0) s.blobs

def redisFileBytes (s : State) : ℕ :=
  total (fun _ e => match e with
    | .onDisk _ id _ => fileSize s.files id
    | .inMemory _ _ _ => 0) s.redisEntries

/-- Values in memory are charged to no disk bucket. -/
theorem blobCharge_inMemory {id : ℕ} {content : Bytes} {mt : String} {t : ℕ} {b : Bucket}
    (hb : b = .blobDisk ∨ b = .redisDisk) : blobCharge (.inMemory id content mt t) b = 0 := by
  obtain rfl | rfl := hb <;> by_cases hl : content.length > memoryTierThreshold <;>
    simp [blobCharge, blobBucket, charge, hl]

theorem redisCharge_inMemory {k value : Bytes} {id t : ℕ} {b : Bucket}
    (hb : b = .blobDisk ∨ b = .redisDisk) : redisCharge k (.inMemory value id t) b = 0 := by
  obtain rfl | rfl := hb <;> by_cases hl : value.length > memoryTierThreshold <;>
    simp [redisCharge, redisValueBucket, charge, hl]

/-- The disk counters then count the bytes of files. -/
theorem MetadataTrue.bytesIn {s : State} (h : s.MetadataTrue) :
    s.bytesIn .blobDisk = s.blobFileBytes ∧ s.bytesIn .redisDisk = s.redisFileBytes := by
  have hzero {α β : Type} (f : α → β → Bucket → ℕ) (c : Bucket) (m : DashMap α β)
      (hf : ∀ k v, f k v c = 0) : total f m c = 0 := by
    rw [total_apply]
    simp [total, hf]
  have hblobs : total (fun _ => blobCharge) s.blobs .blobDisk = s.blobFileBytes := by
    rw [total_apply]
    refine total_eq_of_entries fun d b hb => ?_
    cases b with
    | onDisk id size mt t => simp [blobCharge, blobBucket, charge, (h.blobs _ _ _ _ _ hb).fileSize]
    | inMemory id content mt t => exact blobCharge_inMemory (.inl rfl)
  have hredis : total redisCharge s.redisEntries .redisDisk = s.redisFileBytes := by
    rw [total_apply]
    refine total_eq_of_entries fun k e he => ?_
    cases e with
    | onDisk size id t =>
      simp [redisCharge, redisValueBucket, charge, (h.redis _ _ _ _ he).fileSize]
    | inMemory value id t => exact redisCharge_inMemory (.inr rfl)
  constructor
  · have hr : total redisCharge s.redisEntries .blobDisk = 0 := by
      refine hzero _ _ _ fun k e => ?_
      cases e with
      | onDisk size id t => rfl
      | inMemory value id t => exact redisCharge_inMemory (.inl rfl)
    have hm : total (fun _ => manifestCharge) s.manifests .blobDisk = 0 :=
      hzero _ _ _ fun _ _ => rfl
    simp only [State.bytesIn, Pi.add_apply, hm, hblobs, hr, zero_add, add_zero]
  · have hb : total (fun _ => blobCharge) s.blobs .redisDisk = 0 := by
      refine hzero _ _ _ fun d b => ?_
      cases b with
      | onDisk id size mt t => rfl
      | inMemory id content mt t => exact blobCharge_inMemory (.inr rfl)
    have hm : total (fun _ => manifestCharge) s.manifests .redisDisk = 0 :=
      hzero _ _ _ fun _ _ => rfl
    simp only [State.bytesIn, Pi.add_apply, hm, hb, hredis, zero_add]

end State

/-- Of the entries of a key in the snapshot the last one is inline or has its file. -/
def Snapshot.RedisFiled (snap : Snapshot) (files : DashMap ℕ Bytes) : Prop :=
  ∀ pre r post, snap.redisEntries = pre ++ r :: post → (∀ r' ∈ post, r'.key ≠ r.key) →
    r.value = none → FileOfSize files r.id r.size

theorem blobs_loaded {snap : Snapshot} {s : State} (hs : s.blobs = ∅) {d : Digest} {id size : ℕ}
    {mt : String} {t : ℕ} (h : (s.loadEntries snap).blobs.lookup d = some (.onDisk id size mt t)) :
    FileOfSize s.files id size := by
  rw [State.loadEntries_eq, hs] at h
  obtain ⟨_, e, _, -, he, -⟩ := lookup_foldl_put_iff.mp h
  obtain ⟨d', -, he⟩ := Option.bind_eq_some_iff.mp he
  split at he
  · cases he
  · split at he
    · cases he
    · rename_i file hf
      split at he <;> cases he
      exact ⟨file, hf, ‹_›⟩

/-- The key an entry is loaded under is its own. -/
theorem RedisEntryEntry.loaded_key {r : RedisEntryEntry} {p : Bytes × RedisEntry}
    (h : r.loaded = some p) : p.1 = r.key := by
  unfold RedisEntryEntry.loaded at h
  split at h <;> cases h <;> rfl

theorem redis_loaded {snap : Snapshot} {s : State} (hs : s.redisEntries = ∅) :
    (∀ k size id t, (s.loadEntries snap).redisEntries.lookup k = some (.onDisk size id t) →
      FileOfSize s.files id size) ↔ snap.RedisFiled s.files := by
  rw [State.loadEntries_eq, hs]
  constructor
  · intro h pre r post hr hlast hv
    refine h r.key r.size r.id r.lastAccessed (lookup_foldl_put_iff.mpr ⟨pre, r, post, hr, ?_, ?_⟩)
    · simp [RedisEntryEntry.loaded, hv]
    · exact fun r' hr' w hw => hlast r' hr' (RedisEntryEntry.loaded_key hw).symm
  · intro h k size id t hk
    obtain ⟨pre, r, post, hr, hv, hlast⟩ := lookup_foldl_put_iff.mp hk
    obtain rfl := RedisEntryEntry.loaded_key hv
    unfold RedisEntryEntry.loaded at hv
    split at hv <;> cases hv
    refine h pre r post hr (fun r' hr' hkey => ?_) ‹_›
    cases hval : r'.value with
    | some value => exact hlast r' hr' _ (by rw [RedisEntryEntry.loaded, hval, hkey])
    | none => exact hlast r' hr' _ (by rw [RedisEntryEntry.loaded, hval, hkey])

/-- After a load of a snapshot of the current version, over any files, every entry on disk has a
file of its size if and only if the Redis entries of the snapshot do; the disk counters then
count the bytes of these files. -/
theorem load_metadata_true_iff {Buf : Type} (cbor : Cbor Buf) (config : Config) (now : ℕ)
    (files : DashMap ℕ Bytes) (buf : Buf) (snap : Snapshot) (hdec : cbor.decode buf = .ok snap)
    (hv : snap.version = snapshotVersion) :
    ∃ t, State.load cbor { State.new config now with files := files } (some buf) = .ok t ∧
      t.files = files ∧ (t.MetadataTrue ↔ snap.RedisFiled files) ∧
      (t.MetadataTrue → t.usage .blobDisk = (t.blobFileBytes : BitVec 64) ∧
        t.usage .redisDisk = (t.redisFileBytes : BitVec 64)) := by
  let s : State := { State.new config now with files := files }
  have hfiles : (s.loadEntries snap).files = files := by rw [State.loadEntries_eq]
  refine ⟨{ (s.loadEntries snap).recomputeUsage with nextId := snap.nextId }, ?_, hfiles, ?_,
    fun ht => ?_⟩
  · simp only [State.load, hdec, hv, ne_eq, not_true_eq_false, if_false, s]
  · rw [show snap.RedisFiled files ↔ _ from (redis_loaded (s := s) rfl).symm]
    have hkeep {id size : ℕ} (h : FileOfSize s.files id size) :
        FileOfSize (s.loadEntries snap).files id size := by rwa [hfiles]
    refine ⟨fun ht k size id t hk => ?_, fun hr =>
      ⟨fun d id size mt t hb => hkeep (blobs_loaded rfl hb),
        fun k size id t hk => hkeep (hr k size id t hk)⟩⟩
    have hf : FileOfSize (s.loadEntries snap).files id size := ht.redis k size id t hk
    rwa [hfiles] at hf
  · have husage (b : Bucket) : (s.loadEntries snap).recomputeUsage.usage b =
        ((s.loadEntries snap).bytesIn b : BitVec 64) :=
      congrFun (recomputed_eq (s.loadEntries snap)) b
    have hbytes := ht.bytesIn
    exact ⟨(husage .blobDisk).trans (congrArg _ hbytes.1),
      (husage .redisDisk).trans (congrArg _ hbytes.2)⟩

/-- A snapshot of one Redis entry whose value of 2000 bytes is on disk. -/
def oneEntrySnapshot : Snapshot :=
  ⟨snapshotVersion, [], [], [], [⟨utf8 "k", 5, none, 7, 2000⟩], 6⟩

theorem oneEntrySnapshot_filed {files : DashMap ℕ Bytes} :
    oneEntrySnapshot.RedisFiled files ↔ FileOfSize files 5 2000 := by
  constructor
  · exact fun h => h [] _ [] rfl nofun rfl
  · intro h pre r post hr _ _
    have hmem : r ∈ oneEntrySnapshot.redisEntries := by rw [hr]; simp
    obtain rfl := List.mem_singleton.mp hmem
    exact h

theorem load_metadata_true_iff_filed :
    ∃ t, State.load plainCbor
        { State.new ⟨1, none, 1⟩ 9 with
          files := (∅ : DashMap ℕ Bytes).insert 5 (List.replicate 2000 97) }
        (some (plainCbor.encode oneEntrySnapshot)) = .ok t ∧ t.MetadataTrue := by
  obtain ⟨t, ht, -, hiff, -⟩ := load_metadata_true_iff plainCbor ⟨1, none, 1⟩ 9
    ((∅ : DashMap ℕ Bytes).insert 5 (List.replicate 2000 97)) (plainCbor.encode oneEntrySnapshot)
    oneEntrySnapshot rfl rfl
  refine ⟨t, ht, hiff.mpr (oneEntrySnapshot_filed.mpr ⟨_, AList.lookup_insert _, ?_⟩)⟩
  exact List.length_replicate

/-- Without the file the entry is loaded all the same and counted. -/
theorem load_keeps_missing_file :
    ∃ t, State.load plainCbor (State.new ⟨1, none, 1⟩ 9)
        (some (plainCbor.encode oneEntrySnapshot)) = .ok t ∧
      t.redisEntries.lookup (utf8 "k") = some (.onDisk 2000 5 7) ∧ t.files.lookup 5 = none ∧
      t.usage .redisDisk = 2000 ∧ ¬ t.MetadataTrue := by
  have hload : ∃ t, State.load plainCbor (State.new ⟨1, none, 1⟩ 9)
        (some (plainCbor.encode oneEntrySnapshot)) = .ok t ∧
      t.redisEntries.lookup (utf8 "k") = some (.onDisk 2000 5 7) ∧ t.files.lookup 5 = none ∧
      t.usage .redisDisk = 2000 := ⟨_, rfl, by decide +kernel⟩
  obtain ⟨t, ht, hk, hf, hu⟩ := hload
  refine ⟨t, ht, hk, hf, hu, fun h => ?_⟩
  obtain ⟨file, hfile, -⟩ := h.redis _ _ _ _ hk
  rw [hf] at hfile
  cases hfile

end Dockfoxprox

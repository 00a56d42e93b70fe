import Dockfoxprox.Proofs.Leaks
import Dockfoxprox.Proofs.Loading

/-! What a save has on record at each of its steps, and that loading what it wrote gives
back the state it was started on. -/

namespace Dockfoxprox

open MapSum Tiered

/-- What a save needs of the state it looks at: ids belong to one entry each, no unlink task
is after the id of an entry, and the entries on disk have their files. -/
structure State.Sound (s : State) : Prop where
  distinct : ∀ o o' x x', s.slot o = some x → s.slot o' = some x' → x.id = x'.id → o = o'
  live : ∀ id ∈ s.unlinks, ∀ o x, s.slot o = some x → x.id ≠ id
  filed : s.Filed

/-- The store while no pass runs. -/
def State.restStore (s : State) : Store Owner Bytes := cacheStore s .begin ∅

/-- What is on record is backed by files that nothing is about to remove or to rewrite. -/
structure Recorded (r s : State) : Prop where
  distinct : ∀ o o' x x', r.slot o = some x → r.slot o' = some x' → x.id = x'.id → o = o'
  claimed : ∀ o x, r.slot o = some x → Claimed s.restStore o x.id
  backed : ∀ o x id v, r.slot o = some x → r.backing x = some (id, v) → Kept s.restStore o id v

theorem Blob.spill_eq (b : Blob) : b.spill = spillSlot b.slot := by
  cases b <;> rfl

theorem RedisEntry.spill_eq (e : RedisEntry) : e.spill = spillSlot e.slot := by
  cases e <;> rfl

theorem spillSlot_eq_some {x : Slot Bytes} {id : ℕ} {v : Bytes} (h : spillSlot x = some (id, v)) :
    x = .mem id v := by
  cases x with
  | disk i => cases h
  | mem i w =>
    simp only [spillSlot] at h
    split at h <;> cases h
    rfl

theorem State.backing_id {r : State} {x : Slot Bytes} {id : ℕ} {v : Bytes}
    (h : r.backing x = some (id, v)) : x.id = id := by
  cases x with
  | disk i =>
    obtain ⟨b, -, hb⟩ := Option.map_eq_some_iff.mp h
    cases hb
    rfl
  | mem i w =>
    cases spillSlot_eq_some (x := .mem i w) h
    rfl

section
variable {r r' s : State} {o : Owner} {x : Slot Bytes}

/-- Writing the file of a slot in memory. -/
theorem writeFile_store {id : ℕ} {v : Bytes} (ho : s.slot o = some (.mem id v)) (ph : Phase)
    (created : DashMap ℕ Bytes) :
    Tiered.Step (cacheStore s ph created) (.persist o)
      (cacheStore (s.writeFile id v) ph created) := by
  have hf (i : ℕ) (hi : i ≠ id) : (s.files.insert id v).lookup i = s.files.lookup i :=
    AList.lookup_insert_ne hi
  exact Step.persist (s := cacheStore s ph created) ho (AList.lookup_insert s.files) hf

/-- A spill of a save leaves the store as it is or writes the file of a slot in memory. -/
theorem spill_store (ho : s.slot o = some x) (ph : Phase) (created : DashMap ℕ Bytes) :
    s.spill (spillSlot x) = s ∨
      Tiered.Step (cacheStore s ph created) (.persist o)
        (cacheStore (s.spill (spillSlot x)) ph created) := by
  cases hx : spillSlot x with
  | none => exact .inl rfl
  | some f =>
    rw [spillSlot_eq_some hx] at ho
    exact .inr (writeFile_store ho ph created)

theorem spill_slot (f : Option (ℕ × Bytes)) : (s.spill f).slot = s.slot := by
  cases f <;> rfl

/-- The files of slots on disk stay as they are when a save spills. -/
theorem spill_files (hs : s.Sound) (ho : s.slot o = some x) {o' : Owner} {id : ℕ}
    (ho' : s.slot o' = some (.disk id)) :
    (s.spill (spillSlot x)).files.lookup id = s.files.lookup id := by
  cases hx : spillSlot x with
  | none => rfl
  | some f =>
    rw [spillSlot_eq_some hx] at ho
    have hne : id ≠ f.1 := by
      intro he
      obtain rfl := hs.distinct o' o _ _ ho' ho he
      cases ho'.symm.trans ho
    exact AList.lookup_insert_ne hne

theorem State.Sound.spill (hs : s.Sound) (ho : s.slot o = some x) :
    (s.spill (spillSlot x)).Sound := by
  have hblobs : (s.spill (spillSlot x)).blobs = s.blobs := by cases spillSlot x <;> rfl
  have hredis : (s.spill (spillSlot x)).redisEntries = s.redisEntries := by
    cases spillSlot x <;> rfl
  have hul : (s.spill (spillSlot x)).unlinks = s.unlinks := by cases spillSlot x <;> rfl
  refine ⟨?_, ?_, ?_, ?_⟩
  · rw [spill_slot]
    exact hs.distinct
  · rw [spill_slot, hul]
    exact hs.live
  · intro d id size mt t hd
    rw [hblobs] at hd
    have hdisk : s.slot (.inl d) = some (.disk id) := slot_blob hd
    rw [spill_files hs ho hdisk]
    exact hs.filed.blobs d id size mt t hd
  · intro k size id t hk
    rw [hredis] at hk
    have hdisk : s.slot (.inr k) = some (.disk id) := slot_redis hk
    rw [spill_files hs ho hdisk]
    exact hs.filed.redis k size id t hk

theorem Recorded.spill (h : Recorded r s) (ho : s.slot o = some x) :
    Recorded r (s.spill (spillSlot x)) := by
  rcases spill_store ho .begin ∅ with heq | hstep
  · rwa [heq]
  · exact ⟨h.distinct, fun o' x' hx' => (h.claimed o' x' hx').persist hstep,
      fun o' x' id v hx' hb => (h.backed o' x' id v hx' hb).persist hstep⟩

/-- A slot of the state keeps the file it is saved in. -/
theorem kept_of_slot (hs : s.Sound) (ho : s.slot o = some x) {id : ℕ} {v : Bytes}
    (hb : s.backing x = some (id, v)) : Kept (s.spill (spillSlot x)).restStore o id v := by
  have hid := State.backing_id hb
  have hlive : ∀ f, id ∉ (s.spill f).unlinks := by
    intro f hi
    have hi : id ∈ s.unlinks := by cases f <;> exact hi
    exact hs.live id hi o x ho hid
  refine ⟨?_, ?_, ?_, ?_⟩
  · cases x with
    | disk i =>
      obtain ⟨b, hfile, hb⟩ := Option.map_eq_some_iff.mp hb
      cases hb
      exact hfile
    | mem i w =>
      have hb : spillSlot (.mem i w) = some (id, v) := hb
      simp [hb, State.spill, State.restStore, cacheStore, State.writeFile]
  · rintro (hi | hi)
    · exact hlive _ hi
    · cases hi
  · intro o' x' ho' hid'
    have ho' : s.slot o' = some x' := by rwa [← spill_slot (spillSlot x)]
    exact hs.distinct o' o x' x ho' ho (hid'.trans hid.symm)
  · intro w hw
    have hw : s.slot o = some (.mem id w) := by rwa [← spill_slot (spillSlot x)]
    cases ho.symm.trans hw
    cases spillSlot_eq_some (x := .mem id w) hb
    rfl

/-- An entry that is not on record shares no file with one that is. -/
theorem Recorded.ne_disk (h : Recorded r s) (ho : s.slot o = some x) (hnew : r.slot o = none)
    {o' : Owner} {id : ℕ} (ho' : r.slot o' = some (.disk id)) : x ≠ .disk id := by
  rintro rfl
  obtain rfl := h.claimed o' _ ho' o _ ho rfl
  cases hnew.symm.trans ho'

/-- The save comes to an entry: it is written if it has to be, and goes on record. -/
theorem Recorded.visit (h : Recorded r s) (hs : s.Sound) (ho : s.slot o = some x)
    (hnew : r.slot o = none) (hslot : r'.slot o = some x)
    (hne : ∀ o', o' ≠ o → r'.slot o' = r.slot o')
    (hdisk : ∀ id, x = .disk id → r'.files.lookup id = s.files.lookup id)
    (hfiles : ∀ id, x ≠ .disk id → r'.files.lookup id = r.files.lookup id) :
    Recorded r' (s.spill (spillSlot x)) := by
  have hspill := h.spill ho
  -- a slot on record is the new one or an old one, with another id
  have hcase {o' x'} (hx' : r'.slot o' = some x') :
      (o' = o ∧ x' = x) ∨ (o' ≠ o ∧ r.slot o' = some x' ∧ x'.id ≠ x.id) := by
    by_cases he : o' = o
    · subst he
      exact .inl ⟨rfl, Option.some.inj (hx'.symm.trans hslot)⟩
    · rw [hne o' he] at hx'
      refine .inr ⟨he, hx', fun hid => ?_⟩
      exact he (h.claimed o' x' hx' o x ho hid.symm).symm
  refine ⟨fun o₁ o₂ x₁ x₂ h₁ h₂ hid => ?_, fun o' x' hx' => ?_, fun o' x' id v hx' hb => ?_⟩
  · rcases hcase h₁ with ⟨rfl, rfl⟩ | ⟨-, h₁, n₁⟩ <;> rcases hcase h₂ with ⟨rfl, rfl⟩ | ⟨-, h₂, n₂⟩
    · rfl
    · exact absurd hid.symm n₂
    · exact absurd hid n₁
    · exact h.distinct _ _ _ _ h₁ h₂ hid
  · rcases hcase hx' with ⟨rfl, rfl⟩ | ⟨-, hx', -⟩
    · intro o₂ x₂ ho₂ hid
      have ho₂ : s.slot o₂ = some x₂ := by rwa [← spill_slot (spillSlot x')]
      exact hs.distinct o₂ o' x₂ x' ho₂ ho hid
    · exact hspill.claimed o' x' hx'
  · rcases hcase hx' with ⟨rfl, rfl⟩ | ⟨-, hx', hid⟩
    · refine kept_of_slot hs ho ?_
      cases x' with
      | disk i => simpa [State.backing, hdisk i rfl] using hb
      | mem i w => exact hb
    · refine hspill.backed o' x' id v hx' ?_
      cases x' with
      | disk i => simpa [State.backing, hfiles i (fun he => hid (by rw [he]))] using hb
      | mem i w => exact hb

end

/-! The steps of a save. -/

namespace Iter

variable {κ α : Type} [DecidableEq κ] {it it' : Iter κ} {m : DashMap κ α} {k : κ} {v : α}

theorem of_visit (h : it.visit m k = some (v, it')) :
    k ∉ it.seen ∧ m.lookup k = some v ∧ it' = { it with seen := k :: it.seen } := by
  unfold visit at h
  split at h
  · cases h
  · obtain ⟨w, hw, he⟩ := Option.map_eq_some_iff.mp h
    cases he
    exact ⟨‹_›, hw, rfl⟩

end Iter

namespace Save

/-- The file of an entry goes on record as it is. -/
theorem keep_lookup {r s : State} {od : Option ℕ}
    (hf : ∀ id, od = some id → ∃ b, s.files.lookup id = some b) (i : ℕ) :
    (keep r s od).lookup i = if od = some i then s.files.lookup i else r.files.lookup i := by
  cases od with
  | none => rfl
  | some id =>
    obtain ⟨b, hb⟩ := hf id rfl
    simp only [keep, Option.bind_some, hb, Option.map_some, lookup_insert_apply,
      Option.some.injEq, eq_comm (a := id)]
    split
    · rename_i he
      rw [he, hb]
    · rfl

/-- The lists of a save are those of its record, and the record is backed. -/
structure Ok (s : State) (sv : Save) : Prop where
  recorded : Recorded sv.record s
  filed : sv.record.Filed
  blobs : ∀ be, be ∈ sv.blobs ↔ ∃ d b, sv.record.blobs.lookup d = some b ∧ be = b.entry d
  redis : ∀ re, re ∈ sv.redis ↔ ∃ k e, sv.record.redisEntries.lookup k = some e ∧ re = e.entry k
  manifests : sv.manifests = sv.record.manifests.entries.map fun e => e.2.entry e.1
  tags : sv.tags = sv.record.tags.entries.map fun e => tagEntry e.1 e.2

/-- How far a save is. -/
def Progress {Buf : Type} (cbor : Cbor Buf) (disk : SnapshotFiles Buf) (sv : Save) : Prop :=
  match sv.phase with
  | .blobs it =>
    (∀ d, d ∈ it.seen ↔ ∃ b, sv.record.blobs.lookup d = some b) ∧ sv.record.redisEntries = ∅
  | .manifests | .tags => sv.record.redisEntries = ∅
  | .redis it => ∀ k, k ∈ it.seen ↔ ∃ e, sv.record.redisEntries.lookup k = some e
  | .write snap => snap = sv.snapshot sv.record.nextId
  | .rename => disk.tmp = some (cbor.encode (sv.snapshot sv.record.nextId))
  | .done => disk.path = some (cbor.encode (sv.snapshot sv.record.nextId))

theorem Ok.start (s : State) : (Save.start s).Ok s := by
  refine ⟨⟨?_, ?_, ?_⟩, ⟨?_, ?_⟩, ?_, ?_, rfl, rfl⟩
  · rintro (d | k) o' x x' hx <;> cases hx
  · rintro (d | k) x hx <;> cases hx
  · rintro (d | k) x id v hx <;> cases hx
  · intro d id size mt t hd
    cases hd
  · intro k size id t hk
    cases hk
  · intro be
    simp [Save.start, State.new]
  · intro re
    simp [Save.start, State.new]

/-- Only the two maps and the files of the record matter, and the lists. -/
theorem Ok.frame {s : State} {sv sv' : Save} (h : sv.Ok s)
    (hblobs : sv'.record.blobs = sv.record.blobs)
    (hredis : sv'.record.redisEntries = sv.record.redisEntries)
    (hfiles : sv'.record.files = sv.record.files) (hbl : sv'.blobs = sv.blobs)
    (hrl : sv'.redis = sv.redis)
    (hman : sv'.manifests = sv'.record.manifests.entries.map fun e => e.2.entry e.1)
    (htags : sv'.tags = sv'.record.tags.entries.map fun e => tagEntry e.1 e.2) : sv'.Ok s := by
  have hslot := State.slot_congr hblobs hredis
  have hback : sv'.record.backing = sv.record.backing := by
    funext x
    cases x <;> simp only [State.backing, hfiles]
  refine ⟨⟨?_, ?_, ?_⟩, ⟨?_, ?_⟩, ?_, ?_, hman, htags⟩
  · rw [hslot]
    exact h.recorded.distinct
  · rw [hslot]
    exact h.recorded.claimed
  · rw [hslot, hback]
    exact h.recorded.backed
  · rw [hblobs, hfiles]
    exact h.filed.blobs
  · rw [hredis, hfiles]
    exact h.filed.redis
  · rw [hbl, hblobs]
    exact h.blobs
  · rw [hrl, hredis]
    exact h.redis

/-- The lists of a save once an entry is added to a map of its record. -/
theorem mem_visited {α β γ : Type} [DecidableEq α] {m : DashMap α β} {l : List γ} {enc : α → β → γ}
    (h : ∀ c, c ∈ l ↔ ∃ k v, m.lookup k = some v ∧ c = enc k v) {k : α} (hk : m.lookup k = none)
    (v : β) (c : γ) :
    c ∈ l ++ [enc k v] ↔ ∃ k' v', (m.insert k v).lookup k' = some v' ∧ c = enc k' v' := by
  simp only [List.mem_append, List.mem_singleton, h, lookup_insert_apply]
  constructor
  · rintro (⟨k', v', hk', rfl⟩ | rfl)
    · have hne : k' ≠ k := by
        rintro rfl
        cases hk.symm.trans hk'
      exact ⟨k', v', by rw [if_neg hne, hk'], rfl⟩
    · exact ⟨k, v, by simp, rfl⟩
  · rintro ⟨k', v', hk', rfl⟩
    split at hk'
    · rename_i he
      cases hk'
      exact .inr (by rw [he])
    · exact .inl ⟨k', v', hk', rfl⟩

/-- A blob on record, with the file it is in. -/
def addBlob (s : State) (sv : Save) (it : Iter Digest) (d : Digest) (b : Blob) : Save :=
  { sv with
    phase := .blobs { it with seen := d :: it.seen }
    blobs := sv.blobs ++ [b.entry d]
    record :=
      { sv.record with
        blobs := sv.record.blobs.insert d b
        files := keep sv.record s b.diskId } }

def addRedis (s : State) (sv : Save) (it : Iter Bytes) (k : Bytes) (e : RedisEntry) : Save :=
  { sv with
    phase := .redis { it with seen := k :: it.seen }
    redis := sv.redis ++ [e.entry k]
    record :=
      { sv.record with
        redisEntries := sv.record.redisEntries.insert k e
        files := keep sv.record s (State.diskId e) } }

/-- All that a step of a save can do. -/
inductive Move {Buf : Type} (cbor : Cbor Buf) (s : State) (disk : SnapshotFiles Buf) (sv : Save) :
    State × SnapshotFiles Buf × Save → Prop
  | blob {it : Iter Digest} {d : Digest} {b : Blob} (hp : sv.phase = .blobs it) (hd : d ∉ it.seen)
      (hb : s.blobs.lookup d = some b) :
    Move cbor s disk sv (s.spill (spillSlot b.slot), disk, addBlob s sv it d b)
  | blobsEnd {it : Iter Digest} (hp : sv.phase = .blobs it) (hf : it.finished s.blobs) :
    Move cbor s disk sv (s, disk, { sv with phase := .manifests })
  | manifests (hp : sv.phase = .manifests) :
    Move cbor s disk sv (s, disk, { sv with
      phase := .tags
      manifests := s.manifests.entries.map fun e => e.2.entry e.1
      record := { sv.record with manifests := s.manifests } })
  | tags (hp : sv.phase = .tags) :
    Move cbor s disk sv (s, disk, { sv with
      phase := .redis (.start s.redisEntries)
      tags := s.tags.entries.map fun e => tagEntry e.1 e.2
      record := { sv.record with tags := s.tags } })
  | redis {it : Iter Bytes} {k : Bytes} {e : RedisEntry} (hp : sv.phase = .redis it)
      (hk : k ∉ it.seen) (he : s.redisEntries.lookup k = some e) :
    Move cbor s disk sv (s.spill (spillSlot e.slot), disk, addRedis s sv it k e)
  | redisEnd {it : Iter Bytes} (hp : sv.phase = .redis it) (hf : it.finished s.redisEntries) :
    Move cbor s disk sv (s, disk, { sv with
      phase := .write (sv.snapshot s.nextId)
      record := { sv.record with nextId := s.nextId } })
  | write {snap : Snapshot} (hp : sv.phase = .write snap) :
    Move cbor s disk sv
      (s, { disk with tmp := some (cbor.encode snap) }, { sv with phase := .rename })
  | rename (hp : sv.phase = .rename) :
    Move cbor s disk sv (s, { path := disk.tmp, tmp := none }, { sv with phase := .done })

section
variable {Buf : Type} {cbor : Cbor Buf} {s s' : State} {disk disk' : SnapshotFiles Buf}
  {sv sv' : Save}

theorem move_of_step {e : SaveEvent} {y : State × SnapshotFiles Buf × Save}
    (h : Save.step cbor (s, disk, sv) e = some y) : Move cbor s disk sv y := by
  unfold Save.step at h
  simp only at h
  split at h
  · rename_i it d hp
    obtain ⟨⟨s', sv'⟩, hv, rfl⟩ := Option.map_eq_some_iff.mp h
    obtain ⟨⟨b, it'⟩, hv, he⟩ := Option.map_eq_some_iff.mp hv
    obtain ⟨hd, hb, rfl⟩ := Iter.of_visit hv
    cases he
    simp only [Blob.spill_eq]
    exact .blob hp hd hb
  · split at h <;> cases h
    exact .blobsEnd ‹_› ‹_›
  · cases h
    exact .manifests ‹_›
  · cases h
    exact .tags ‹_›
  · rename_i it k hp
    obtain ⟨⟨s', sv'⟩, hv, rfl⟩ := Option.map_eq_some_iff.mp h
    obtain ⟨⟨e, it'⟩, hv, he⟩ := Option.map_eq_some_iff.mp hv
    obtain ⟨hk, he', rfl⟩ := Iter.of_visit hv
    cases he
    simp only [RedisEntry.spill_eq]
    exact .redis hp hk he'
  · split at h <;> cases h
    exact .redisEnd ‹_› ‹_›
  · cases h
    exact .write ‹_›
  · cases h
    exact .rename ‹_›
  · cases h

section
variable {it : Iter Digest} {d : Digest} {b : Blob}

theorem addBlob_slot (o : Owner) : (addBlob s sv it d b).record.slot o =
    if o = .inl d then some b.slot else sv.record.slot o := by
  cases o with
  | inl d' =>
    simp only [addBlob, State.slot, lookup_insert_apply, Sum.inl.injEq]
    split <;> rfl
  | inr k => rfl

theorem addBlob_files (hf : s.Filed) (hd : s.blobs.lookup d = some b) (i : ℕ) :
    (addBlob s sv it d b).record.files.lookup i =
      if b.diskId = some i then s.files.lookup i else sv.record.files.lookup i := by
  refine keep_lookup (fun id hid => ?_) i
  cases b with
  | inMemory i c mt u => cases hid
  | onDisk i size mt u =>
    cases hid
    obtain ⟨v, hv, -⟩ := hf.blobs d _ size mt u hd
    exact ⟨v, hv⟩

theorem Ok.addBlob (h : sv.Ok s) (hs : s.Sound) (hd : s.blobs.lookup d = some b)
    (hnew : sv.record.blobs.lookup d = none) (it : Iter Digest) :
    (addBlob s sv it d b).Ok (s.spill (spillSlot b.slot)) := by
  have ho := State.slot_blob hd
  have hn : sv.record.slot (.inl d) = none := by simp [State.slot, hnew]
  refine ⟨?_, ⟨fun d' id size mt u hd' => ?_, fun k size id u hk => ?_⟩, ?_, h.redis, h.manifests,
    h.tags⟩
  · refine h.recorded.visit hs ho hn ?_ (fun o hne => ?_) (fun id hid => ?_) fun id hid => ?_
    · rw [addBlob_slot, if_pos rfl]
    · rw [addBlob_slot, if_neg hne]
    · rw [addBlob_files hs.filed hd, if_pos (Blob.slot_eq_disk.mp hid)]
    · rw [addBlob_files hs.filed hd, if_neg fun he => hid (Blob.slot_eq_disk.mpr he)]
  · simp only [Save.addBlob, lookup_insert_apply] at hd'
    split at hd'
    · cases hd'
      rw [addBlob_files hs.filed hd, if_pos (Blob.slot_eq_disk.mp rfl)]
      exact hs.filed.blobs d id size mt u hd
    · have ho' : sv.record.slot (.inl d') = some (.disk id) := State.slot_blob hd'
      have hne := h.recorded.ne_disk ho hn ho'
      rw [addBlob_files hs.filed hd, if_neg fun he => hne (Blob.slot_eq_disk.mpr he)]
      exact h.filed.blobs d' id size mt u hd'
  · have hk : sv.record.redisEntries.lookup k = some (.onDisk size id u) := hk
    have ho' : sv.record.slot (.inr k) = some (.disk id) := State.slot_redis hk
    have hne := h.recorded.ne_disk ho hn ho'
    rw [addBlob_files hs.filed hd, if_neg fun he => hne (Blob.slot_eq_disk.mpr he)]
    exact h.filed.redis k size id u hk
  · exact mem_visited h.blobs hnew b

end

section
variable {it : Iter Bytes} {k : Bytes} {e : RedisEntry}

theorem addRedis_slot (o : Owner) : (addRedis s sv it k e).record.slot o =
    if o = .inr k then some e.slot else sv.record.slot o := by
  cases o with
  | inl d => rfl
  | inr k' =>
    simp only [addRedis, State.slot, lookup_insert_apply, Sum.inr.injEq]
    split <;> rfl

theorem addRedis_files (hf : s.Filed) (hk : s.redisEntries.lookup k = some e) (i : ℕ) :
    (addRedis s sv it k e).record.files.lookup i =
      if State.diskId e = some i then s.files.lookup i else sv.record.files.lookup i := by
  refine keep_lookup (fun id hid => ?_) i
  cases e with
  | inMemory v i u => cases hid
  | onDisk size i u =>
    cases hid
    exact hf.redis k size _ u hk

theorem Ok.addRedis (h : sv.Ok s) (hs : s.Sound) (hk : s.redisEntries.lookup k = some e)
    (hnew : sv.record.redisEntries.lookup k = none) (it : Iter Bytes) :
    (addRedis s sv it k e).Ok (s.spill (spillSlot e.slot)) := by
  have ho := State.slot_redis hk
  have hn : sv.record.slot (.inr k) = none := by simp [State.slot, hnew]
  refine ⟨?_, ⟨fun d id size mt u hd => ?_, fun k' size id u hk' => ?_⟩, h.blobs, ?_, h.manifests,
    h.tags⟩
  · refine h.recorded.visit hs ho hn ?_ (fun o hne => ?_) (fun id hid => ?_) fun id hid => ?_
    · rw [addRedis_slot, if_pos rfl]
    · rw [addRedis_slot, if_neg hne]
    · rw [addRedis_files hs.filed hk, if_pos (RedisEntry.slot_eq_disk.mp hid)]
    · rw [addRedis_files hs.filed hk, if_neg fun he => hid (RedisEntry.slot_eq_disk.mpr he)]
  · have hd : sv.record.blobs.lookup d = some (.onDisk id size mt u) := hd
    have ho' : sv.record.slot (.inl d) = some (.disk id) := State.slot_blob hd
    have hne := h.recorded.ne_disk ho hn ho'
    rw [addRedis_files hs.filed hk, if_neg fun he => hne (RedisEntry.slot_eq_disk.mpr he)]
    exact h.filed.blobs d id size mt u hd
  · simp only [Save.addRedis, lookup_insert_apply] at hk'
    split at hk'
    · cases hk'
      rw [addRedis_files hs.filed hk, if_pos (RedisEntry.slot_eq_disk.mp rfl)]
      exact hs.filed.redis k size id u hk
    · have ho' : sv.record.slot (.inr k') = some (.disk id) := State.slot_redis hk'
      have hne := h.recorded.ne_disk ho hn ho'
      rw [addRedis_files hs.filed hk, if_neg fun he => hne (RedisEntry.slot_eq_disk.mpr he)]
      exact h.filed.redis k' size id u hk'
  · exact mem_visited h.redis hnew e

end

/-- What is not on record yet, by what has come up. -/
theorem lookup_eq_none {κ α : Type} [DecidableEq κ] {seen : List κ} {m : DashMap κ α}
    (h : ∀ k, k ∈ seen ↔ ∃ v, m.lookup k = some v) {k : κ} (hk : k ∉ seen) : m.lookup k = none := by
  cases hm : m.lookup k with
  | none => rfl
  | some v => exact absurd ((h k).mpr ⟨v, hm⟩) hk

theorem mem_seen {κ α : Type} [DecidableEq κ] {seen : List κ} {m : DashMap κ α}
    (h : ∀ k, k ∈ seen ↔ ∃ v, m.lookup k = some v) (k : κ) (v : α) (k' : κ) :
    k' ∈ k :: seen ↔ ∃ w, (m.insert k v).lookup k' = some w := by
  rw [List.mem_cons, lookup_insert_apply]
  split
  · simp [*]
  · simp [*]

/-- A step of a save keeps its lists and its record in order. -/
theorem Ok.step {y : State × SnapshotFiles Buf × Save} (h : sv.Ok s) (hs : s.Sound)
    (hp : sv.Progress cbor disk) (hm : Move cbor s disk sv y) :
    y.1.Sound ∧ y.2.2.Ok y.1 ∧ y.2.2.Progress cbor y.2.1 := by
  unfold Progress at hp
  cases hm with
  | @blob it d b hph hd hb =>
    rw [hph] at hp
    have hnew := lookup_eq_none hp.1 hd
    exact ⟨hs.spill (State.slot_blob hb), h.addBlob hs hb hnew it, mem_seen hp.1 d b, hp.2⟩
  | @redis it k e hph hk he =>
    rw [hph] at hp
    have hnew := lookup_eq_none hp hk
    exact ⟨hs.spill (State.slot_redis he), h.addRedis hs he hnew it, mem_seen hp k e⟩
  | blobsEnd hph hf =>
    rw [hph] at hp
    exact ⟨hs, h.frame rfl rfl rfl rfl rfl h.manifests h.tags, hp.2⟩
  | manifests hph =>
    rw [hph] at hp
    exact ⟨hs, h.frame rfl rfl rfl rfl rfl rfl h.tags, hp⟩
  | tags hph =>
    rw [hph] at hp
    refine ⟨hs, h.frame rfl rfl rfl rfl rfl h.manifests rfl, fun k => ?_⟩
    have hr : sv.record.redisEntries = ∅ := hp
    simp [Iter.start, hr]
  | redisEnd hph hf => exact ⟨hs, h.frame rfl rfl rfl rfl rfl h.manifests h.tags, rfl⟩
  | write hph =>
    rw [hph] at hp
    have htmp := congrArg (fun snap => some (cbor.encode snap)) hp
    exact ⟨hs, h.frame rfl rfl rfl rfl rfl h.manifests h.tags, htmp⟩
  | rename hph =>
    rw [hph] at hp
    exact ⟨hs, h.frame rfl rfl rfl rfl rfl h.manifests h.tags, hp⟩

/-- Once it is done, the snapshot holds what is on record. -/
theorem Ok.holds (h : sv.Ok s) : (sv.snapshot sv.record.nextId).Holds sv.record s.files where
  version := rfl
  manifests := h.manifests
  tags := h.tags
  blobs := h.blobs
  redis := h.redis
  nextId := rfl
  filed := h.filed
  files o x id v hx hb := (h.recorded.backed o x id v hx hb).file

/-! A save that nothing else runs beside. -/

/-- The maps are still those of `s₀`, and so is what is on record of them. -/
structure Follows (s₀ s : State) (sv : Save) : Prop where
  blobs : s.blobs = s₀.blobs
  manifests : s.manifests = s₀.manifests
  tags : s.tags = s₀.tags
  redis : s.redisEntries = s₀.redisEntries
  nextId : s.nextId = s₀.nextId
  files : ∀ o id, s₀.slot o = some (.disk id) → s.files.lookup id = s₀.files.lookup id
  recordBlobs : ∀ d b, sv.record.blobs.lookup d = some b → s₀.blobs.lookup d = some b
  recordRedis : ∀ k e, sv.record.redisEntries.lookup k = some e → s₀.redisEntries.lookup k = some e
  recordFiles : ∀ o id, sv.record.slot o = some (.disk id) →
    sv.record.files.lookup id = s₀.files.lookup id

/-- What of `s₀` is on record by now. -/
def Covers (s₀ : State) (sv : Save) : Prop :=
  match sv.phase with
  | .blobs it => it.present = s₀.blobs.keys
  | .manifests => ∀ d, sv.record.blobs.lookup d = s₀.blobs.lookup d
  | .tags => (∀ d, sv.record.blobs.lookup d = s₀.blobs.lookup d) ∧
      sv.record.manifests = s₀.manifests
  | .redis it => (∀ d, sv.record.blobs.lookup d = s₀.blobs.lookup d) ∧
      sv.record.manifests = s₀.manifests ∧ sv.record.tags = s₀.tags ∧
      it.present = s₀.redisEntries.keys
  | .write _ | .rename | .done => (∀ d, sv.record.blobs.lookup d = s₀.blobs.lookup d) ∧
      sv.record.manifests = s₀.manifests ∧ sv.record.tags = s₀.tags ∧
      (∀ k, sv.record.redisEntries.lookup k = s₀.redisEntries.lookup k) ∧
      sv.record.nextId = s₀.nextId

theorem Follows.start (s : State) : (Save.start s).Follows s s := by
  refine ⟨rfl, rfl, rfl, rfl, rfl, fun _ _ _ => rfl, ?_, ?_, ?_⟩
  · intro d b hd
    cases hd
  · intro k e hk
    cases hk
  · rintro (d | k) id hx <;> cases hx

theorem Follows.frame {s₀ : State} {sv' : Save} (h : sv.Follows s₀ s)
    (hblobs : sv'.record.blobs = sv.record.blobs)
    (hredis : sv'.record.redisEntries = sv.record.redisEntries)
    (hfiles : sv'.record.files = sv.record.files) : sv'.Follows s₀ s := by
  have hslot := State.slot_congr hblobs hredis
  refine ⟨h.blobs, h.manifests, h.tags, h.redis, h.nextId, h.files, ?_, ?_, ?_⟩
  · rw [hblobs]
    exact h.recordBlobs
  · rw [hredis]
    exact h.recordRedis
  · rw [hslot, hfiles]
    exact h.recordFiles

theorem Follows.slot {s₀ : State} (h : sv.Follows s₀ s) : s.slot = s₀.slot :=
  State.slot_congr h.blobs h.redis

/-- An entry is written out if it has to be and goes on record. -/
theorem Follows.visit {s₀ : State} {sv' : Save} {o : Owner} {x : Slot Bytes}
    (h : sv.Follows s₀ s) (hok : sv.Ok s) (hs : s.Sound) (ho : s.slot o = some x)
    (hnew : sv.record.slot o = none)
    (hslot : ∀ o', sv'.record.slot o' = if o' = o then some x else sv.record.slot o')
    (hdisk : ∀ id, x = .disk id → sv'.record.files.lookup id = s.files.lookup id)
    (hfiles : ∀ id, x ≠ .disk id → sv'.record.files.lookup id = sv.record.files.lookup id)
    (hblobs : ∀ d b, sv'.record.blobs.lookup d = some b → s₀.blobs.lookup d = some b)
    (hredis : ∀ k e, sv'.record.redisEntries.lookup k = some e →
      s₀.redisEntries.lookup k = some e) :
    sv'.Follows s₀ (s.spill (spillSlot x)) := by
  refine ⟨?_, ?_, ?_, ?_, ?_, fun o' id ho' => ?_, hblobs, hredis, fun o' id ho' => ?_⟩
  · rw [← h.blobs]
    cases spillSlot x <;> rfl
  · rw [← h.manifests]
    cases spillSlot x <;> rfl
  · rw [← h.tags]
    cases spillSlot x <;> rfl
  · rw [← h.redis]
    cases spillSlot x <;> rfl
  · rw [← h.nextId]
    cases spillSlot x <;> rfl
  · rw [spill_files hs ho (h.slot ▸ ho')]
    exact h.files o' id ho'
  · rw [hslot] at ho'
    split at ho'
    · cases ho'
      rw [hdisk id rfl]
      exact h.files o id (h.slot ▸ ho)
    · rw [hfiles id (hok.recorded.ne_disk ho hnew ho')]
      exact h.recordFiles o' id ho'

/-- What has come up by the end of an iteration is all there is. -/
theorem lookup_of_finished {κ α : Type} [DecidableEq κ] {it : Iter κ} {m r : DashMap κ α}
    (hpres : it.present = m.keys) (hf : it.finished m)
    (hseen : ∀ k, k ∈ it.seen ↔ ∃ v, r.lookup k = some v)
    (hsub : ∀ k v, r.lookup k = some v → m.lookup k = some v) (k : κ) :
    r.lookup k = m.lookup k := by
  cases hm : m.lookup k with
  | none =>
    cases hr : r.lookup k with
    | none => rfl
    | some v => cases hm.symm.trans (hsub k v hr)
  | some v =>
    have hk : k ∈ it.present := by
      rw [hpres, ← AList.mem_keys, ← AList.lookup_isSome, hm]
      rfl
    rcases of_decide_eq_true hf k hk with hk | hk
    · obtain ⟨w, hw⟩ := (hseen k).mp hk
      rw [hw, ← hm, hsub k w hw]
    · cases hk.symm.trans hm

theorem Follows.step {s₀ : State} {y : State × SnapshotFiles Buf × Save} (h : sv.Follows s₀ s)
    (hc : sv.Covers s₀) (hok : sv.Ok s) (hs : s.Sound) (hp : sv.Progress cbor disk)
    (hm : Move cbor s disk sv y) : y.2.2.Follows s₀ y.1 ∧ y.2.2.Covers s₀ := by
  unfold Progress at hp
  unfold Covers at hc
  cases hm with
  | @blob it d b hph hd hb =>
    rw [hph] at hp hc
    have hnew := lookup_eq_none hp.1 hd
    refine ⟨h.visit hok hs (State.slot_blob hb) ?_ addBlob_slot ?_ ?_ ?_ h.recordRedis, hc⟩
    · simp [State.slot, hnew]
    · intro id hid
      rw [addBlob_files hs.filed hb, if_pos (Blob.slot_eq_disk.mp hid)]
    · intro id hid
      rw [addBlob_files hs.filed hb, if_neg fun he => hid (Blob.slot_eq_disk.mpr he)]
    · intro d' b' hb'
      simp only [addBlob, lookup_insert_apply] at hb'
      split at hb'
      · rename_i he
        cases hb'
        rw [he, ← h.blobs, hb]
      · exact h.recordBlobs d' b' hb'
  | @redis it k e hph hk he =>
    rw [hph] at hp hc
    have hnew := lookup_eq_none hp hk
    refine ⟨h.visit hok hs (State.slot_redis he) ?_ addRedis_slot ?_ ?_ h.recordBlobs ?_, hc⟩
    · simp [State.slot, hnew]
    · intro id hid
      rw [addRedis_files hs.filed he, if_pos (RedisEntry.slot_eq_disk.mp hid)]
    · intro id hid
      rw [addRedis_files hs.filed he, if_neg fun h => hid (RedisEntry.slot_eq_disk.mpr h)]
    · intro k' e' he'
      simp only [addRedis, lookup_insert_apply] at he'
      split at he'
      · rename_i hk'
        cases he'
        rw [hk', ← h.redis, he]
      · exact h.recordRedis k' e' he'
  | blobsEnd hph hf =>
    rw [hph] at hp hc
    rw [h.blobs] at hf
    exact ⟨h.frame rfl rfl rfl, lookup_of_finished hc hf hp.1 h.recordBlobs⟩
  | manifests hph =>
    rw [hph] at hc
    exact ⟨h.frame rfl rfl rfl, hc, h.manifests⟩
  | tags hph =>
    rw [hph] at hc
    exact ⟨h.frame rfl rfl rfl, hc.1, hc.2, h.tags, congrArg AList.keys h.redis⟩
  | redisEnd hph hf =>
    rw [hph] at hp hc
    rw [h.redis] at hf
    exact ⟨h.frame rfl rfl rfl, hc.1, hc.2.1, hc.2.2.1,
      lookup_of_finished hc.2.2.2 hf hp h.recordRedis, h.nextId⟩
  | write hph =>
    rw [hph] at hc
    exact ⟨h.frame rfl rfl rfl, hc⟩
  | rename hph =>
    rw [hph] at hc
    exact ⟨h.frame rfl rfl rfl, hc⟩

end

end Save

/-- What a state has on disk, by the sizes of its files. -/
theorem DiskSized.filed {s : State} (h : DiskSized s s.files) : s.Filed := by
  constructor
  · intro d id size mt t hd
    exact h id size (State.mem_diskSizes.mpr (.inl ⟨d, _, hd, rfl⟩))
  · intro k size id t hk
    obtain ⟨b, hb, -⟩ := h id size (State.mem_diskSizes.mpr (.inr ⟨k, _, hk, rfl⟩))
    exact ⟨b, hb⟩

/-- A state with the same entries and the same files behind them is restored as well. -/
theorem Restores.congr {r s t : State} (h : Restores r t)
    (htags : r.tags = s.tags) (hman : r.manifests = s.manifests)
    (hblobs : ∀ d, r.blobs.lookup d = s.blobs.lookup d)
    (hredis : ∀ k, r.redisEntries.lookup k = s.redisEntries.lookup k) (hid : r.nextId = s.nextId)
    (hfiles : ∀ o id, r.slot o = some (.disk id) → r.files.lookup id = s.files.lookup id) :
    Restores s t := by
  refine ⟨?_, ?_, ?_, fun d b hd => ?_, ?_, fun k e he => ?_, h.nextId.trans hid, h.usage⟩
  · rw [← htags]
    exact h.tags
  · rw [← hman]
    exact h.manifests
  · intro d
    rw [← hblobs]
    exact h.blobs d
  · rw [← hblobs] at hd
    have hb : r.blobBytes b = s.blobBytes b := by
      cases b with
      | inMemory id content mt u => rfl
      | onDisk id size mt u => exact hfiles (.inl d) id (State.slot_blob hd)
    rw [← hb]
    exact h.blobBytes d b hd
  · intro k
    rw [← hredis]
    exact h.redis k
  · rw [← hredis] at he
    have hb : r.redisBytes e = s.redisBytes e := by
      cases e with
      | inMemory value id u => rfl
      | onDisk size id u => exact hfiles (.inr k) id (State.slot_redis he)
    rw [← hb]
    exact h.redisBytes k e he

/-- A completed save of a state at rest is loaded as that state. -/
theorem load_of_save {Buf : Type} (cbor : Cbor Buf) {s s' : State} {disk disk' : SnapshotFiles Buf}
    {sv : Save} {events : List SaveEvent} (hids : s.ids.Nodup) (hsized : DiskSized s s.files)
    (hquiet : s.unlinks = [])
    (hr : Machine.run (Save.step cbor) (s, disk, .start s) events = some (s', disk', sv))
    (hdone : sv.phase = .done) (config : Config) (now : ℕ) :
    ∃ t, State.load cbor { State.new config now with files := s'.files } disk'.path = .ok t ∧
      Restores s t := by
  let I (y : State × SnapshotFiles Buf × Save) : Prop :=
    (y.1.Sound ∧ y.2.2.Ok y.1 ∧ y.2.2.Progress cbor y.2.1) ∧ y.2.2.Follows s y.1 ∧ y.2.2.Covers s
  have hstart : I (s, disk, .start s) := by
    have hsound : s.Sound := by
      refine ⟨State.nodup_ids.mp hids, ?_, hsized.filed⟩
      rw [hquiet]
      exact fun id hi => absurd hi (by simp)
    refine ⟨⟨hsound, .start s, fun d => ?_, rfl⟩, .start s, rfl⟩
    simp [Iter.start, Save.start, State.new]
  have hend : I (s', disk', sv) := by
    refine Machine.run_invariant (C := fun _ _ _ => True) (I := I) (fun y e y' hy _ hs => ?_) hstart
      (Machine.along_true _ _) hr
    obtain ⟨⟨hsound, hok, hp⟩, hfol, hcov⟩ := hy
    have hm := Save.move_of_step hs
    exact ⟨hok.step hsound hp hm, hfol.step hcov hok hsound hp hm⟩
  obtain ⟨⟨-, hok, hp⟩, hfol, hcov⟩ := hend
  simp only [Save.Progress, hdone] at hp
  simp only [Save.Covers, hdone] at hcov
  obtain ⟨t, ht, hres, -, -⟩ := hok.holds.load cbor config now
  obtain ⟨hblobs, hman, htags, hredis, hid⟩ := hcov
  rw [hp]
  exact ⟨t, ht, hres.congr htags hman hblobs hredis hid hfol.recordFiles⟩

/-- Snapshots as their own encoding, and a file that is not one. -/
def plainCbor : Cbor (Option Snapshot) where
  encode := some
  decode := fun buf => buf.elim (.error "eof") .ok
  decode_encode _ := rfl

def smallDigest : Digest := ⟨List.replicate 32 21, rfl⟩

def largeDigest : Digest := ⟨List.replicate 32 22, rfl⟩

/-- A small blob and a large one in memory, a Redis value on disk and a tag. -/
def mixedState : State :=
  { State.new ⟨0, none, 5000⟩ 7 with
    manifests := AList.insert smallDigest ⟨[123, 125], "application/json", 3, false⟩ ∅
    blobs := AList.insert largeDigest (.inMemory 1 (List.replicate 1025 97) "text/plain" 5)
      (AList.insert smallDigest (.inMemory 0 [97] "text/plain" 4) ∅)
    tags := AList.insert ("app", "latest") smallDigest ∅
    redisEntries := AList.insert [107] (.onDisk 2 2 6) ∅
    nextId := 3
    files := AList.insert 2 [120, 121] ∅ }

def mixedSave : List SaveEvent :=
  [.blob largeDigest, .blob smallDigest, .next, .next, .next, .redis [107], .next, .next, .next]

theorem load_of_save_mixed :
    ∃ y t, Machine.run (Save.step plainCbor) (mixedState, ⟨none, none⟩, .start mixedState)
      mixedSave = some y ∧ State.load plainCbor { State.new ⟨0, none, 0⟩ 9 with files := y.1.files }
        y.2.1.path = .ok t ∧ Restores mixedState t := by
  have hrun : ((Machine.run (Save.step plainCbor) (mixedState, ⟨none, none⟩, .start mixedState)
      mixedSave).map fun y => y.2.2.phase) = some .done := by decide +kernel
  obtain ⟨⟨s', disk', sv⟩, hr, hdone⟩ := Option.map_eq_some_iff.mp hrun
  have hsized : DiskSized mixedState mixedState.files := by
    intro id size hq
    have hq : (id, size) = (2, 2) := by
      have hd : mixedState.diskSizes = [(2, 2)] := by decide +kernel
      simpa [hd] using hq
    cases hq
    exact ⟨[120, 121], by decide +kernel, rfl⟩
  obtain ⟨t, ht, hres⟩ := load_of_save plainCbor (by decide +kernel) hsized rfl hr hdone
    ⟨0, none, 0⟩ 9
  exact ⟨_, t, hr, ht, hres⟩

end Dockfoxprox

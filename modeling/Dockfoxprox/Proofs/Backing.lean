import Dockfoxprox.Proofs.Cache

/-! The entries on disk and the files behind them, for uploads, connections, unlink tasks
and eviction passes in any interleaving. -/

namespace Dockfoxprox

open MapSum Tiered

namespace State

/-- The ids of all entries of `blobs` and `redis_entries`. -/
def ids (s : State) : List ℕ :=
  s.blobs.entries.map (fun e => e.2.id) ++ s.redisEntries.entries.map fun e => e.2.id

def diskIds (s : State) : List ℕ :=
  s.blobs.entries.filterMap (fun e => e.2.diskId) ++
    s.redisEntries.entries.filterMap fun e => diskId e.2

/-- A state to start a server from: ids belong to one entry each and are not given out
again, the entries on disk have files, and no unlink task is left over. -/
structure Intact (s : State) : Prop where
  distinct : s.ids.Nodup
  below : ∀ id ∈ s.ids, id < s.nextId
  filed : ∀ id ∈ s.diskIds, ∃ b, s.files.lookup id = some b
  quiet : s.unlinks = []

theorem Intact.new (config : Config) (now : ℕ) : (State.new config now).Intact := by
  refine ⟨?_, ?_, ?_, rfl⟩ <;> simp [State.new, ids, diskIds]

end State

@[simp] theorem Blob.slot_id (b : Blob) : b.slot.id = b.id := by
  cases b <;> rfl

@[simp] theorem RedisEntry.slot_id (e : RedisEntry) : e.slot.id = e.id := by
  cases e <;> rfl

theorem Blob.slot_eq_disk {b : Blob} {id : ℕ} : b.slot = .disk id ↔ b.diskId = some id := by
  cases b <;> simp [Blob.slot, Blob.diskId]

theorem RedisEntry.slot_eq_disk {e : RedisEntry} {id : ℕ} :
    e.slot = .disk id ↔ State.diskId e = some id := by
  cases e <;> simp [RedisEntry.slot, State.diskId]

namespace State

variable {s : State} {id : ℕ}

theorem exists_slot {P : Slot Bytes → Prop} : (∃ o x, s.slot o = some x ∧ P x) ↔
    (∃ d b, s.blobs.lookup d = some b ∧ P b.slot) ∨
      ∃ k e, s.redisEntries.lookup k = some e ∧ P e.slot := by
  constructor
  · rintro ⟨o, x, hx, hP⟩
    cases o with
    | inl d =>
      obtain ⟨b, hb, rfl⟩ := Option.map_eq_some_iff.mp hx
      exact .inl ⟨d, b, hb, hP⟩
    | inr k =>
      obtain ⟨e, he, rfl⟩ := Option.map_eq_some_iff.mp hx
      exact .inr ⟨k, e, he, hP⟩
  · rintro (⟨d, b, hb, hP⟩ | ⟨k, e, he, hP⟩)
    · exact ⟨.inl d, b.slot, slot_blob hb, hP⟩
    · exact ⟨.inr k, e.slot, slot_redis he, hP⟩

theorem mem_ids : id ∈ s.ids ↔ ∃ o x, s.slot o = some x ∧ x.id = id := by
  simp only [exists_slot, ids, List.mem_append, List.mem_map, Sigma.exists, mem_entries,
    Blob.slot_id, RedisEntry.slot_id]

theorem mem_diskIds : id ∈ s.diskIds ↔ ∃ o, s.slot o = some (.disk id) := by
  have h : (∃ o, s.slot o = some (.disk id)) ↔ ∃ o x, s.slot o = some x ∧ x = .disk id := by simp
  rw [h, exists_slot]
  simp only [diskIds, List.mem_append, List.mem_filterMap, Sigma.exists, mem_entries,
    Blob.slot_eq_disk, RedisEntry.slot_eq_disk]

theorem nodup_ids : s.ids.Nodup ↔
    ∀ o o' x x', s.slot o = some x → s.slot o' = some x' → x.id = x'.id → o = o' := by
  rw [ids, List.nodup_append, List.nodup_map_iff_inj_on s.blobs.nodupKeys.nodup,
    List.nodup_map_iff_inj_on s.redisEntries.nodupKeys.nodup]
  simp only [Sigma.forall, mem_entries, List.forall_mem_map]
  constructor
  · rintro ⟨hb, hr, hbr⟩ o o' x x' hx hx' hid
    cases o with
    | inl d =>
      obtain ⟨b, hd, rfl⟩ := Option.map_eq_some_iff.mp hx
      cases o' with
      | inl d' =>
        obtain ⟨b', hd', rfl⟩ := Option.map_eq_some_iff.mp hx'
        have he := hb d b hd d' b' hd' (by simpa using hid)
        simpa using congrArg Sigma.fst he
      | inr k =>
        obtain ⟨e, he, rfl⟩ := Option.map_eq_some_iff.mp hx'
        exact absurd (by simpa using hid) (hbr d b hd k e he)
    | inr k =>
      obtain ⟨e, he, rfl⟩ := Option.map_eq_some_iff.mp hx
      cases o' with
      | inl d =>
        obtain ⟨b, hd, rfl⟩ := Option.map_eq_some_iff.mp hx'
        exact absurd (by simpa using hid.symm) (hbr d b hd k e he)
      | inr k' =>
        obtain ⟨e', he', rfl⟩ := Option.map_eq_some_iff.mp hx'
        have heq := hr k e he k' e' he' (by simpa using hid)
        simpa using congrArg Sigma.fst heq
  · intro h
    refine ⟨fun d b hd d' b' hd' hid => ?_, fun k e he k' e' he' hid => ?_,
      fun d b hd k e he hid => ?_⟩
    · cases h _ _ _ _ (slot_blob hd) (slot_blob hd') (by simpa using hid)
      rw [hd, Option.some.injEq] at hd'
      rw [hd']
    · cases h _ _ _ _ (slot_redis he) (slot_redis he') (by simpa using hid)
      rw [he, Option.some.injEq] at he'
      rw [he']
    · cases h _ _ _ _ (slot_blob hd) (slot_redis he) (by simpa using hid)

/-- A server starts with its store in order. -/
theorem Intact.inv (h : s.Intact) : Inv (cacheStore s .begin s.files) := by
  have hquiet {id} : ¬ (cacheStore s .begin s.files).doomed id := by
    rintro (hi | hi)
    · rw [h.quiet] at hi
      cases hi
    · cases hi
  refine ⟨⟨fun o x hx => h.below _ (mem_ids.mpr ⟨o, x, hx, rfl⟩), nodup_ids.mp h.distinct,
    fun id hi => absurd hi hquiet, nofun⟩, fun o id hx => ?_, nofun⟩
  obtain ⟨b, hb⟩ := h.filed id (mem_diskIds.mpr ⟨o, hx⟩)
  exact ⟨b, hb, hb⟩

end State

/-- In every state a server reaches, each entry on disk has its file, with the bytes that
were written when the entry was created, and no file removal that is pending or under way
is after the id of an entry. -/
theorem disk_entries_backed (password : Option Bytes) (fromSlice : Bytes → Option Json)
    {s : State} (h : s.Intact) {events : List CacheEvent} {x : CacheSys}
    (hr : Machine.run (CacheSys.step password fromSlice) (.init s) events = some x) :
    (∀ id ∈ x.st.diskIds, ∃ b, x.created.lookup id = some b ∧ x.st.files.lookup id = some b) ∧
      ∀ id, id ∈ x.st.unlinks ∨ x.pass.phase.unlinking = some id → id ∉ x.st.ids := by
  have hinv : Inv x.store := by
    refine Machine.run_invariant (C := fun _ _ _ => True) (I := fun y => Inv y.store)
      (fun y e y' hy _ hs => ?_) h.inv (Machine.along_true _ _) hr
    exact CacheSys.step_keeps (fun z op z' hz hop => hz.step hop) hy hs
  constructor
  · intro id hid
    obtain ⟨o, ho⟩ := State.mem_diskIds.mp hid
    obtain ⟨b, hfile, hcreated⟩ := hinv.filed o id ho
    exact ⟨b, hcreated, hfile⟩
  · intro id hdoomed hid
    obtain ⟨o, y, ho, hy⟩ := State.mem_ids.mp hid
    exact (hinv.doomed id hdoomed).2 o y ho hy

/-- A large value is set, spilled by a pass, and being read back. -/
def spilledRead : List CacheEvent :=
  [.connect [[utf8 "SET", [107], List.replicate 1025 97], [utf8 "GET", [107]]], .conn 0] ++
    List.replicate 7 (.evict {}) ++ [.conn 0, .conn 0]

theorem disk_entries_backed_spilled :
    ∃ x, Machine.run (CacheSys.step none fun _ => none) (.init (State.new ⟨0, none, 5000⟩ 0))
      spilledRead = some x ∧ x.st.diskIds = [0] ∧
      ∃ b, x.created.lookup 0 = some b ∧ x.st.files.lookup 0 = some b := by
  have hrun : ((Machine.run (CacheSys.step none fun _ => none) (.init (State.new ⟨0, none, 5000⟩ 0))
      spilledRead).map fun x => x.st.diskIds) = some [0] := by decide +kernel
  obtain ⟨x, hr, hx⟩ := Option.map_eq_some_iff.mp hrun
  have h := (disk_entries_backed none _ (State.Intact.new _ _) hr).1 0 (by rw [hx]; simp)
  exact ⟨x, hr, hx, h⟩

end Dockfoxprox

import Dockfoxprox.Lib.Machine
import Dockfoxprox.Model.Redis

/-! What the Redis operations do to the map, the files and the spawned unlinks,
and the invariant that every interleaving keeps: ids are distinct and below
`next_id`, every on-disk entry has its file, and no unlink that is still to run
names the id of an entry or of the spill in progress. -/

namespace Dockfoxprox

open MapSum

namespace State

/-- The ids whose files an operation that drops `e` has to unlink. -/
def oldIds (e : Option RedisEntry) : List ℕ := (e.bind diskId).toList

section
variable (s : State) (k v : Bytes)

/-- All of `insert_redis` but the counters. -/
theorem insertRedis_eq : ∃ u, s.insertRedis k v =
    { s with
      redisEntries := s.redisEntries.insert k (.inMemory v s.nextId s.now)
      nextId := s.nextId + 1
      unlinks := s.unlinks ++ oldIds (s.redisEntries.lookup k)
      usage := u } := by
  refine ⟨(s.insertRedis k v).usage, ?_⟩
  simp only [insertRedis, fetchAdd]
  cases h : s.redisEntries.lookup k with
  | none => simp [oldIds]
  | some old => cases old <;> simp [oldIds, diskId, fetchSub, spawnUnlink]

/-- All of `remove_redis` but the counters. -/
theorem removeRedis_eq : ∃ u, (s.removeRedis k).2 =
    { s with
      redisEntries := s.redisEntries.erase k
      unlinks := s.unlinks ++ oldIds (s.redisEntries.lookup k)
      usage := u } := by
  refine ⟨(s.removeRedis k).2.usage, ?_⟩
  simp only [removeRedis]
  cases h : s.redisEntries.lookup k with
  | none =>
    have hk : s.redisEntries.erase k = s.redisEntries :=
      AList.ext (List.kerase_of_notMem_keys (AList.lookup_eq_none.mp h))
    simp [oldIds, hk]
  | some e => cases e <;> simp [oldIds, diskId, fetchSub, spawnUnlink]

@[simp] theorem insertRedis_entries :
    (s.insertRedis k v).redisEntries = s.redisEntries.insert k (.inMemory v s.nextId s.now) := by
  obtain ⟨u, h⟩ := s.insertRedis_eq k v
  rw [h]

@[simp] theorem insertRedis_files : (s.insertRedis k v).files = s.files := by
  obtain ⟨u, h⟩ := s.insertRedis_eq k v
  rw [h]

@[simp] theorem insertRedis_nextId : (s.insertRedis k v).nextId = s.nextId + 1 := by
  obtain ⟨u, h⟩ := s.insertRedis_eq k v
  rw [h]

@[simp] theorem insertRedis_unlinks :
    (s.insertRedis k v).unlinks = s.unlinks ++ oldIds (s.redisEntries.lookup k) := by
  obtain ⟨u, h⟩ := s.insertRedis_eq k v
  rw [h]

@[simp] theorem removeRedis_entries :
    (s.removeRedis k).2.redisEntries = s.redisEntries.erase k := by
  obtain ⟨u, h⟩ := s.removeRedis_eq k
  rw [h]

@[simp] theorem removeRedis_files : (s.removeRedis k).2.files = s.files := by
  obtain ⟨u, h⟩ := s.removeRedis_eq k
  rw [h]

@[simp] theorem removeRedis_nextId : (s.removeRedis k).2.nextId = s.nextId := by
  obtain ⟨u, h⟩ := s.removeRedis_eq k
  rw [h]

@[simp] theorem removeRedis_unlinks :
    (s.removeRedis k).2.unlinks = s.unlinks ++ oldIds (s.redisEntries.lookup k) := by
  obtain ⟨u, h⟩ := s.removeRedis_eq k
  rw [h]

end

theorem mem_oldIds {e : Option RedisEntry} {id : ℕ} :
    id ∈ oldIds e ↔ ∃ size t, e = some (.onDisk size id t) := by
  cases e with
  | none => simp [oldIds]
  | some e => cases e <;> simp [oldIds, diskId, eq_comm]

theorem mem_flush_unlinks {s : State} {id : ℕ} :
    id ∈ s.flushRedis.unlinks ↔ id ∈ s.unlinks ∨
      ∃ k size t, s.redisEntries.lookup k = some (.onDisk size id t) := by
  simp only [flushRedis, List.mem_append, List.mem_filterMap]
  apply or_congr_right
  constructor
  · rintro ⟨⟨k, e⟩, he, hd⟩
    cases e with
    | inMemory value id' t => simp [diskId] at hd
    | onDisk size id' t =>
      simp only [diskId, Option.some.injEq] at hd
      subst hd
      exact ⟨k, size, t, mem_entries.mp he⟩
  · rintro ⟨k, size, t, h⟩
    exact ⟨⟨k, .onDisk size id t⟩, mem_entries.mpr h, rfl⟩

end State

/-- Ids, files and unlinks of the Redis entries agree. -/
structure RedisWf (s : State) : Prop where
  below : ∀ k e, s.redisEntries.lookup k = some e → e.id < s.nextId
  distinct : ∀ k k' e e', s.redisEntries.lookup k = some e → s.redisEntries.lookup k' = some e' →
    e.id = e'.id → k = k'
  present : ∀ k size id t, s.redisEntries.lookup k = some (.onDisk size id t) →
    (s.files.lookup id).isSome
  pending : ∀ id ∈ s.unlinks, id < s.nextId ∧ ∀ k e, s.redisEntries.lookup k = some e → e.id ≠ id

/-- What a spill holds between its fetch and its insert: an id that no unlink will
remove and that no entry carries but the one it was fetched from. -/
structure Held (s : State) (key value : Bytes) (id : ℕ) : Prop where
  below : id < s.nextId
  kept : id ∉ s.unlinks
  unique : ∀ k e, s.redisEntries.lookup k = some e → e.id = id →
    k = key ∧ ∃ t, e = .inMemory value id t

/-- The spill of the pass, with what it holds. -/
def SpillWf (s : State) : Spill → Prop
  | .idle => True
  | .fetched key _ _ value id => Held s key value id
  | .written key _ _ value id => Held s key value id ∧ s.files.lookup id = some value

structure RedisSys.Wf (s : RedisSys) : Prop where
  st : RedisWf s.st
  spill : SpillWf s.st s.spill

theorem RedisWf.new (config : Config) (now : ℕ) : RedisWf (State.new config now) := by
  constructor <;> simp [State.new]

section
variable {s : State}

theorem RedisWf.insertRedis (h : RedisWf s) (k v : Bytes) : RedisWf (s.insertRedis k v) := by
  constructor
  · intro k' e he
    simp only [State.insertRedis_entries, lookup_insert_apply, State.insertRedis_nextId] at he ⊢
    split at he
    · cases he; exact Nat.lt_succ_self _
    · exact Nat.lt_succ_of_lt (h.below k' e he)
  · intro k1 k2 e1 e2 h1 h2 hid
    simp only [State.insertRedis_entries, lookup_insert_apply] at h1 h2
    split at h1 <;> split at h2
    · rename_i a b; rw [a, b]
    · cases h1
      have := h.below _ _ h2
      simp only [RedisEntry.id] at hid this
      omega
    · cases h2
      have := h.below _ _ h1
      simp only [RedisEntry.id] at hid this
      omega
    · exact h.distinct _ _ _ _ h1 h2 hid
  · intro k' size id t he
    simp only [State.insertRedis_entries, lookup_insert_apply, State.insertRedis_files] at he ⊢
    split at he
    · cases he
    · exact h.present _ _ _ _ he
  · intro id hid
    simp only [State.insertRedis_unlinks, List.mem_append, State.mem_oldIds] at hid
    simp only [State.insertRedis_nextId, State.insertRedis_entries, lookup_insert_apply]
    rcases hid with hid | ⟨size, t, hid⟩
    · obtain ⟨hlt, hne⟩ := h.pending id hid
      refine ⟨by omega, fun k' e he => ?_⟩
      split at he
      · cases he; exact Nat.ne_of_gt hlt
      · exact hne k' e he
    · have hlt := h.below _ _ hid
      simp only [RedisEntry.id] at hlt
      refine ⟨by omega, fun k' e he => ?_⟩
      split at he
      · cases he; exact Nat.ne_of_gt hlt
      · rename_i hk
        intro hid'
        exact hk (h.distinct k' k e _ he hid (by simpa [RedisEntry.id] using hid'))

theorem RedisWf.removeRedis (h : RedisWf s) (k : Bytes) : RedisWf (s.removeRedis k).2 := by
  constructor
  · intro k' e he
    simp only [State.removeRedis_entries, lookup_erase_apply, State.removeRedis_nextId] at he ⊢
    split at he
    · cases he
    · exact h.below k' e he
  · intro k1 k2 e1 e2 h1 h2 hid
    simp only [State.removeRedis_entries, lookup_erase_apply] at h1 h2
    split at h1 <;> split at h2
    · cases h1
    · cases h1
    · cases h2
    · exact h.distinct _ _ _ _ h1 h2 hid
  · intro k' size id t he
    simp only [State.removeRedis_entries, lookup_erase_apply, State.removeRedis_files] at he ⊢
    split at he
    · cases he
    · exact h.present _ _ _ _ he
  · intro id hid
    simp only [State.removeRedis_unlinks, List.mem_append, State.mem_oldIds] at hid
    simp only [State.removeRedis_nextId, State.removeRedis_entries, lookup_erase_apply]
    rcases hid with hid | ⟨size, t, hid⟩
    · obtain ⟨hlt, hne⟩ := h.pending id hid
      refine ⟨hlt, fun k' e he => ?_⟩
      split at he
      · cases he
      · exact hne k' e he
    · refine ⟨h.below _ _ hid, fun k' e he => ?_⟩
      split at he
      · cases he
      · rename_i hk
        intro hid'
        exact hk (h.distinct k' k e _ he hid (by simpa [RedisEntry.id] using hid'))

theorem RedisWf.flushRedis (h : RedisWf s) : RedisWf s.flushRedis := by
  constructor
  · intro k e he; simp [State.flushRedis] at he
  · intro k k' e e' he; simp [State.flushRedis] at he
  · intro k size id t he; simp [State.flushRedis] at he
  · intro id hid
    refine ⟨?_, fun k e he => by simp [State.flushRedis] at he⟩
    rcases State.mem_flush_unlinks.mp hid with hid | ⟨k, size, t, hk⟩
    · exact (h.pending id hid).1
    · exact h.below _ _ hk

/-- Storing a new access time into an entry in memory. -/
theorem RedisWf.touch (h : RedisWf s) {k v : Bytes} {id t t' : ℕ}
    (hk : s.redisEntries.lookup k = some (.inMemory v id t)) :
    RedisWf { s with redisEntries := s.redisEntries.insert k (.inMemory v id t') } := by
  have hid : ∀ k' e, (s.redisEntries.insert k (.inMemory v id t')).lookup k' = some e →
      ∃ e', s.redisEntries.lookup k' = some e' ∧ e'.id = e.id := by
    intro k' e he
    rw [lookup_insert_apply] at he
    split at he
    · rename_i hkk; subst hkk; cases he; exact ⟨_, hk, rfl⟩
    · exact ⟨e, he, rfl⟩
  constructor
  · intro k' e he
    obtain ⟨e', he', hi⟩ := hid k' e he
    exact hi ▸ h.below k' e' he'
  · intro k1 k2 e1 e2 h1 h2 hi
    obtain ⟨e1', h1', i1⟩ := hid k1 e1 h1
    obtain ⟨e2', h2', i2⟩ := hid k2 e2 h2
    exact h.distinct k1 k2 e1' e2' h1' h2' (by rw [i1, i2, hi])
  · intro k' size id' t'' he
    simp only [lookup_insert_apply] at he
    split at he
    · cases he
    · exact h.present _ _ _ _ he
  · intro i hi
    obtain ⟨hlt, hne⟩ := h.pending i hi
    refine ⟨hlt, fun k' e he => ?_⟩
    obtain ⟨e', he', hi'⟩ := hid k' e he
    exact hi' ▸ hne k' e' he'

/-- An unlink task runs: its file belongs to no entry. -/
theorem RedisWf.unlink (h : RedisWf s) {i id : ℕ} (hi : s.unlinks[i]? = some id) :
    RedisWf { s.removeFile id with unlinks := s.unlinks.eraseIdx i } := by
  have hne := (h.pending id (List.mem_of_getElem? hi)).2
  constructor
  · exact h.below
  · exact h.distinct
  · intro k size id' t he
    have : id' ≠ id := hne k _ he
    simpa [State.removeFile, lookup_erase_apply, this] using h.present k size id' t he
  · intro j hj
    exact h.pending j (List.mem_of_mem_eraseIdx hj)

theorem RedisWf.writeFile (h : RedisWf s) (id : ℕ) (b : Bytes) : RedisWf (s.writeFile id b) := by
  constructor
  · exact h.below
  · exact h.distinct
  · intro k size id' t he
    simp only [State.writeFile, lookup_insert_apply]
    split
    · rfl
    · exact h.present k size id' t he
  · exact h.pending

theorem RedisWf.spillInsert (h : RedisWf s) {key value : Bytes} {id : ℕ}
    (hh : Held s key value id) (hf : s.files.lookup id = some value) (size t : ℕ) :
    RedisWf (s.spillInsert key size t id) := by
  constructor
  · intro k e he
    simp only [State.spillInsert, lookup_insert_apply] at he
    split at he
    · cases he; exact hh.below
    · exact h.below k e he
  · intro k1 k2 e1 e2 h1 h2 hid
    simp only [State.spillInsert, lookup_insert_apply] at h1 h2
    split at h1 <;> split at h2
    · rename_i a b; rw [a, b]
    · rename_i a b; cases h1
      exact absurd (hh.unique k2 e2 h2 hid.symm).1 b
    · rename_i a b; cases h2
      exact absurd (hh.unique k1 e1 h1 hid).1 a
    · exact h.distinct _ _ _ _ h1 h2 hid
  · intro k size' id' t' he
    simp only [State.spillInsert, lookup_insert_apply] at he ⊢
    split at he
    · cases he; rw [hf]; rfl
    · exact h.present _ _ _ _ he
  · intro i hi
    obtain ⟨hlt, hne⟩ := h.pending i hi
    refine ⟨hlt, fun k e he => ?_⟩
    simp only [State.spillInsert, lookup_insert_apply] at he
    split at he
    · cases he
      rintro rfl
      exact hh.kept hi
    · exact hne k e he

variable {key value : Bytes} {id : ℕ}

theorem Held.of_fetch (h : RedisWf s) (hf : s.spillFetch key = some (value, id)) :
    Held s key value id := by
  unfold State.spillFetch at hf
  split at hf
  · rename_i v i t hk
    cases hf
    refine ⟨h.below _ _ hk, fun hu => (h.pending id hu).2 key _ hk rfl, fun k e he hi => ?_⟩
    obtain rfl := h.distinct k key e _ he hk hi
    rw [he] at hk
    exact ⟨rfl, t, Option.some.inj hk⟩
  · cases hf

/-- A spill keeps its hold when the id of no entry of its own is unlinked and the
entries that stay are among those before. -/
theorem Held.mono {s' : State} (hh : Held s key value id) (hn : s.nextId ≤ s'.nextId)
    (hu : ∀ i ∈ s'.unlinks, i ∈ s.unlinks ∨
      ∃ k size t, s.redisEntries.lookup k = some (.onDisk size i t))
    (he : ∀ k e, s'.redisEntries.lookup k = some e → s.redisEntries.lookup k = some e ∨
      e.id = s.nextId ∨ ∃ v i t t', s.redisEntries.lookup k = some (.inMemory v i t) ∧
        e = .inMemory v i t') : Held s' key value id := by
  refine ⟨hh.below.trans_le hn, fun hi => ?_, fun k e hk hid => ?_⟩
  · rcases hu id hi with hi | ⟨k, size, t, hk⟩
    · exact hh.kept hi
    · obtain ⟨-, t', ht⟩ := hh.unique k _ hk rfl
      cases ht
  · rcases he k e hk with hold | hnew | ⟨v, i, t, t', hold, rfl⟩
    · exact hh.unique k e hold hid
    · have := hh.below
      omega
    · obtain ⟨hkey, t'', ht⟩ := hh.unique k (.inMemory v i t) hold hid
      cases ht
      exact ⟨hkey, t', rfl⟩

theorem Held.insertRedis (hh : Held s key value id) (k v : Bytes) :
    Held (s.insertRedis k v) key value id := by
  apply hh.mono
  · simp
  · intro i hi
    simp only [State.insertRedis_unlinks, List.mem_append, State.mem_oldIds] at hi
    rcases hi with hi | ⟨size, t, hi⟩
    · exact Or.inl hi
    · exact Or.inr ⟨k, size, t, hi⟩
  · intro k' e he
    simp only [State.insertRedis_entries, lookup_insert_apply] at he
    split at he
    · cases he; exact Or.inr (Or.inl rfl)
    · exact Or.inl he

theorem Held.removeRedis (hh : Held s key value id) (k : Bytes) :
    Held (s.removeRedis k).2 key value id := by
  apply hh.mono
  · simp
  · intro i hi
    simp only [State.removeRedis_unlinks, List.mem_append, State.mem_oldIds] at hi
    rcases hi with hi | ⟨size, t, hi⟩
    · exact Or.inl hi
    · exact Or.inr ⟨k, size, t, hi⟩
  · intro k' e he
    simp only [State.removeRedis_entries, lookup_erase_apply] at he
    split at he
    · cases he
    · exact Or.inl he

theorem Held.flushRedis (hh : Held s key value id) : Held s.flushRedis key value id := by
  apply hh.mono
  · exact le_refl s.nextId
  · exact fun i hi => State.mem_flush_unlinks.mp hi
  · intro k e he
    simp [State.flushRedis] at he

end

/-! The two parts of the invariant under one command, one GET step and one event. -/

theorem Command.wf {s : State} (h : RedisWf s) (c : Command) : RedisWf (c.apply s) := by
  cases c with
  | set k v => exact h.insertRedis k v
  | flushAll => exact h.flushRedis
  | del keys =>
    simp only [Command.apply]
    induction keys generalizing s with
    | nil => exact h
    | cons k keys ih => exact ih (h.removeRedis k)

theorem Command.held {s : State} {key value : Bytes} {id : ℕ} (hh : Held s key value id)
    (c : Command) : Held (c.apply s) key value id := by
  cases c with
  | set k v => exact hh.insertRedis k v
  | flushAll => exact hh.flushRedis
  | del keys =>
    simp only [Command.apply]
    induction keys generalizing s with
    | nil => exact hh
    | cons k keys ih => exact ih (hh.removeRedis k)

theorem Command.files (s : State) (c : Command) : (c.apply s).files = s.files := by
  cases c with
  | set k v => exact s.insertRedis_files k v
  | flushAll => rfl
  | del keys =>
    simp only [Command.apply]
    induction keys generalizing s with
    | nil => rfl
    | cons k keys ih => exact (ih _).trans (s.removeRedis_files k)

theorem Get.wf {s : State} (h : RedisWf s) (g : Get) : RedisWf (g.step s).1 := by
  cases g with
  | start key =>
    simp only [Get.step]
    split
    · exact h
    · rename_i hk; exact h.touch hk
    · exact h
  | cloned key id =>
    simp only [Get.step]
    split <;> exact h
  | loaded key value => exact h.insertRedis key value
  | failed key => exact h.removeRedis key
  | done reply => exact h

theorem Get.held {s : State} {key value : Bytes} {id : ℕ} (hh : Held s key value id) (g : Get) :
    Held (g.step s).1 key value id := by
  cases g with
  | start k =>
    simp only [Get.step]
    split
    · exact hh
    · rename_i v i t hk
      refine hh.mono (le_refl _) (fun j hj => Or.inl hj) (fun k' e he => ?_)
      rw [lookup_insert_apply] at he
      split at he
      · rename_i hkk; subst hkk; cases he
        exact Or.inr (Or.inr ⟨v, i, t, s.now, hk, rfl⟩)
      · exact Or.inl he
    · exact hh
  | cloned k i =>
    simp only [Get.step]
    split <;> exact hh
  | loaded k v => exact hh.insertRedis k v
  | failed k => exact hh.removeRedis k
  | done reply => exact hh

theorem Get.files (s : State) (g : Get) : (g.step s).1.files = s.files := by
  cases g with
  | start key => simp only [Get.step]; split <;> rfl
  | cloned key id => simp only [Get.step]; split <;> rfl
  | loaded key value => exact s.insertRedis_files key value
  | failed key => exact s.removeRedis_files key
  | done reply => rfl

/-- A step that keeps every hold and every file keeps what the spill knows. -/
theorem SpillWf.mono {s s' : State} {p : Spill} (h : SpillWf s p)
    (hh : ∀ key value id, Held s key value id → Held s' key value id)
    (hf : s'.files = s.files) : SpillWf s' p := by
  cases p with
  | idle => trivial
  | fetched key size t value id => exact hh _ _ _ h
  | written key size t value id => exact ⟨hh _ _ _ h.1, by rw [hf]; exact h.2⟩

/-- Every event of every interleaving keeps the invariant. -/
theorem RedisSys.step_wf {s s' : RedisSys} {e : RedisEvent} (h : s.Wf) (hs : s.step e = some s') :
    s'.Wf := by
  cases e with
  | command c =>
    simp only [RedisSys.step, Option.some.injEq] at hs
    subst hs
    exact ⟨c.wf h.st, h.spill.mono (fun _ _ _ hh => c.held hh) (c.files s.st)⟩
  | get key =>
    simp only [RedisSys.step, Option.some.injEq] at hs
    subst hs
    exact ⟨h.st, h.spill⟩
  | getStep i =>
    simp only [RedisSys.step] at hs
    split at hs
    · cases hs
    · rename_i g _
      cases hs
      exact ⟨g.wf h.st, h.spill.mono (fun _ _ _ hh => g.held hh) (g.files s.st)⟩
  | unlink i =>
    simp only [RedisSys.step] at hs
    split at hs
    · cases hs
    · rename_i id hi
      cases hs
      refine ⟨h.st.unlink hi, ?_⟩
      have keep {key value : Bytes} {id' : ℕ} (hh : Held s.st key value id') :
          Held { s.st.removeFile id with unlinks := s.st.unlinks.eraseIdx i } key value id' :=
        hh.mono (le_refl _) (fun j hj => Or.inl (List.mem_of_mem_eraseIdx hj))
          (fun k e he => Or.inl he)
      have hsp := h.spill
      cases hp : s.spill with
      | idle => trivial
      | fetched key size t value id' => rw [hp] at hsp; exact keep hsp
      | written key size t value id' =>
        rw [hp] at hsp
        refine ⟨keep hsp.1, ?_⟩
        -- the file being unlinked is not the one just written
        have hne : id' ≠ id := fun he => hsp.1.kept (he ▸ List.mem_of_getElem? hi)
        simpa [State.removeFile, lookup_erase_apply, hne] using hsp.2
  | spillFetch key size t =>
    simp only [RedisSys.step] at hs
    split at hs
    · rename_i hf; cases hs; exact ⟨h.st, Held.of_fetch h.st hf⟩
    · cases hs; exact h
    · cases hs
  | spillWrite =>
    simp only [RedisSys.step] at hs
    split at hs
    · rename_i key size t value id hp
      cases hs
      have hsp := h.spill
      rw [hp] at hsp
      exact ⟨h.st.writeFile id value, ⟨hsp.below, hsp.kept, hsp.unique⟩,
        by simp [State.writeFile]⟩
    · cases hs
  | spillFail leftover =>
    simp only [RedisSys.step] at hs
    split at hs
    · cases hs; exact ⟨h.st.writeFile _ _, trivial⟩
    · cases hs; exact ⟨h.st, trivial⟩
    · cases hs
  | spillInsert =>
    simp only [RedisSys.step] at hs
    split at hs
    · rename_i key size t value id hp
      cases hs
      have hsp := h.spill
      rw [hp] at hsp
      exact ⟨h.st.spillInsert hsp.1 hsp.2 size t, trivial⟩
    · cases hs

theorem RedisSys.run_wf {s t : RedisSys} {events : List RedisEvent} (h : s.Wf)
    (hr : Machine.run RedisSys.step s events = some t) : t.Wf :=
  Machine.run_invariant (fun _ _ _ hi _ hs => RedisSys.step_wf hi hs) h
    (Machine.along_true s events) hr

/-! The value a key denotes, under each operation. -/

def Command.onMap (c : Command) (m : Bytes → Option Bytes) : Bytes → Option Bytes :=
  match c with
  | .set key value => Function.update m key (some value)
  | .del keys => fun k => if k ∈ keys then none else m k
  | .flushAll => fun _ => none

theorem denotes_insertRedis (s : State) (k v : Bytes) :
    (s.insertRedis k v).denotes = Function.update s.denotes k (some v) := by
  funext k'
  by_cases h : k' = k
  · subst h; simp [State.denotes]
  · simp [State.denotes, h]

theorem denotes_removeRedis (s : State) (k k' : Bytes) :
    (s.removeRedis k).2.denotes k' = if k' = k then none else s.denotes k' := by
  by_cases h : k' = k
  · subst h; simp [State.denotes]
  · simp [State.denotes, h]

theorem Command.denotes (s : State) (c : Command) : (c.apply s).denotes = c.onMap s.denotes := by
  cases c with
  | set k v => exact denotes_insertRedis s k v
  | flushAll => funext k; simp [Command.apply, Command.onMap, State.flushRedis, State.denotes]
  | del keys =>
    funext k
    simp only [Command.apply, Command.onMap]
    induction keys generalizing s with
    | nil => simp
    | cons a keys ih =>
      rw [List.foldl_cons, ih, denotes_removeRedis]
      by_cases ha : k = a <;> by_cases hk : k ∈ keys <;> simp [ha, hk]

/-- A GET that runs alone replies with the value the key denotes. -/
theorem getReply_eq_denotes (s : State) (key : Bytes) : s.getReply key = s.denotes key := by
  unfold State.getReply State.denotes
  cases hk : s.redisEntries.lookup key with
  | none =>
    have h1 : Get.step s (.start key) = (s, .done none) := by simp only [Get.step, hk]
    rw [h1]
    rfl
  | some e =>
    cases e with
    | inMemory value id t =>
      have h1 : Get.step s (.start key) =
          ({ s with redisEntries := s.redisEntries.insert key (.inMemory value id s.now) },
            .done (some value)) := by simp only [Get.step, hk]
      rw [h1]
      rfl
    | onDisk size id t =>
      have h1 : Get.step s (.start key) = (s, .cloned key id) := by simp only [Get.step, hk]
      rw [h1]
      cases hf : s.files.lookup id <;> simp only [Get.step, hf]

theorem denotes_unlink {s : State} (h : RedisWf s) {i id : ℕ} (hi : s.unlinks[i]? = some id) :
    State.denotes { s.removeFile id with unlinks := s.unlinks.eraseIdx i } = s.denotes := by
  funext k
  have hne := (h.pending id (List.mem_of_getElem? hi)).2 k
  simp only [State.denotes, State.removeFile]
  cases hk : s.redisEntries.lookup k with
  | none => rfl
  | some e =>
    cases e with
    | inMemory value id' t => rfl
    | onDisk size id' t =>
      have : id' ≠ id := hne _ hk
      simp [this]

/-- Writing to the path of a held id changes no value. -/
theorem denotes_writeFile {s : State} {key value : Bytes} {id : ℕ} (hh : Held s key value id)
    (b : Bytes) : (s.writeFile id b).denotes = s.denotes := by
  funext k
  simp only [State.denotes, State.writeFile]
  cases hk : s.redisEntries.lookup k with
  | none => rfl
  | some e =>
    cases e with
    | inMemory value id' t => rfl
    | onDisk size id' t =>
      have : id' ≠ id := by
        rintro rfl
        obtain ⟨-, t', ht⟩ := hh.unique k _ hk rfl
        cases ht
      simp [this]

/-- The spill's insert makes its key denote the bytes it wrote. -/
theorem denotes_spillInsert {s : State} {key value : Bytes} {id : ℕ}
    (hf : s.files.lookup id = some value) (size t : ℕ) :
    (s.spillInsert key size t id).denotes = Function.update s.denotes key (some value) := by
  funext k
  by_cases h : k = key
  · subst h; simp [State.denotes, State.spillInsert, hf]
  · simp [State.denotes, State.spillInsert, h]

end Dockfoxprox

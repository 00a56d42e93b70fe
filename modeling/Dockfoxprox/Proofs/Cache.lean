import Dockfoxprox.Lib.Tiered
import Dockfoxprox.Model.Cache
import Dockfoxprox.Proofs.Eviction

/-! The blobs and the Redis entries as one two-tier store that shares one id space, and
every operation of the cache as an operation of that store. -/

namespace Dockfoxprox

open MapSum Tiered

/-- Who an id belongs to: a blob or a Redis key. -/
abbrev Owner := Digest ⊕ Bytes

def Blob.slot : Blob → Slot Bytes
  | .onDisk id _ _ _ => .disk id
  | .inMemory id content _ _ => .mem id content

def RedisEntry.slot : RedisEntry → Slot Bytes
  | .onDisk _ id _ => .disk id
  | .inMemory value id _ => .mem id value

def State.slot (s : State) : Owner → Option (Slot Bytes)
  | .inl d => (s.blobs.lookup d).map Blob.slot
  | .inr k => (s.redisEntries.lookup k).map RedisEntry.slot

theorem State.slot_blob {s : State} {d : Digest} {b : Blob} (h : s.blobs.lookup d = some b) :
    s.slot (.inl d) = some b.slot := by
  simp [slot, h]

theorem State.slot_redis {s : State} {k : Bytes} {e : RedisEntry}
    (h : s.redisEntries.lookup k = some e) : s.slot (.inr k) = some e.slot := by
  simp [slot, h]

theorem State.slot_congr {s s' : State} (hb : s'.blobs = s.blobs)
    (hr : s'.redisEntries = s.redisEntries) : s'.slot = s.slot := by
  funext o
  cases o <;> simp only [slot, hb, hr]

/-- The value a spill of the pass holds. -/
def Phase.hold : Phase → Option (Hold Owner Bytes)
  | .spillWrite _ r held => some ⟨.inl r, held.id, held.content, false⟩
  | .spillInsert _ r held => some ⟨.inl r, held.id, held.content, true⟩
  | .redisWrite key _ _ value id => some ⟨.inr key, id, value, false⟩
  | .redisInsert key _ _ value id => some ⟨.inr key, id, value, true⟩
  | _ => none

/-- The file the pass is about to remove. -/
def Phase.unlinking : Phase → Option ℕ
  | .cascadeUnlink id _ _ => some id
  | .sweepUnlink id _ => some id
  | _ => none

/-- The two-tier store of a state, of the step a pass is about to take, and of the history
of the entries created on disk. -/
def cacheStore (s : State) (ph : Phase) (created : DashMap ℕ Bytes) : Store Owner Bytes where
  slot := s.slot
  next := s.nextId
  file := fun id => s.files.lookup id
  doomed := fun id => id ∈ s.unlinks ∨ ph.unlinking = some id
  held := ph.hold
  published := fun id => created.lookup id

section
variable (s : State) (ph : Phase) (created : DashMap ℕ Bytes)

theorem slot_disk_redis {k : Bytes} {id : ℕ} :
    s.slot (.inr k) = some (.disk id) ↔ id ∈ State.oldIds (s.redisEntries.lookup k) := by
  rw [State.mem_oldIds]
  simp only [State.slot, Option.map_eq_some_iff]
  constructor
  · rintro ⟨e, he, hd⟩
    cases e with
    | inMemory value i t => cases hd
    | onDisk size i t => cases hd; exact ⟨size, t, he⟩
  · rintro ⟨size, t, he⟩
    exact ⟨_, he, rfl⟩

theorem insertRedis_store (k v : Bytes) :
    Step (cacheStore s ph created) (.put true (.inr k) v)
      (cacheStore (s.insertRedis k v) ph created) := by
  obtain ⟨u, hs⟩ := s.insertRedis_eq k v
  rw [hs]
  refine Step.put ?_ ?_ ?_
  · simp [State.slot, RedisEntry.slot, cacheStore]
  · intro o ho
    cases o with
    | inl d => rfl
    | inr k' =>
      have hk : k' ≠ k := fun he => ho (he ▸ rfl)
      simp [State.slot, cacheStore, hk]
  · intro id
    simp only [cacheStore, List.mem_append, slot_disk_redis, true_and]
    exact or_right_comm

theorem removeRedis_store (k : Bytes) :
    Step (cacheStore s ph created) (.drop fun o => o = .inr k)
      (cacheStore (s.removeRedis k).2 ph created) := by
  obtain ⟨u, hs⟩ := s.removeRedis_eq k
  rw [hs]
  refine Step.drop ?_ ?_ ?_
  · rintro o rfl
    simp [State.slot]
  · intro o ho
    cases o with
    | inl d => rfl
    | inr k' =>
      have hk : k' ≠ k := fun he => ho (he ▸ rfl)
      simp [State.slot, cacheStore, hk]
  · intro id
    simp only [cacheStore, List.mem_append, exists_eq_left, slot_disk_redis]
    exact or_right_comm

theorem flushRedis_store :
    Step (cacheStore s ph created) (.drop fun o => o.isRight) (cacheStore s.flushRedis ph created) := by
  refine Step.drop ?_ ?_ ?_
  · rintro o ho
    cases o with
    | inl d => cases ho
    | inr k => simp [State.slot, State.flushRedis]
  · intro o ho
    cases o with
    | inl d => rfl
    | inr k => exact absurd rfl ho
  · intro id
    have hex : (∃ o : Owner, o.isRight = true ∧ s.slot o = some (.disk id)) ↔
        ∃ k size t, s.redisEntries.lookup k = some (.onDisk size id t) := by
      simp [slot_disk_redis, State.mem_oldIds]
    simp only [cacheStore, State.mem_flush_unlinks, hex]
    exact or_right_comm

theorem storeBlob_store (d : Digest) (content : Bytes) (mt : String) :
    Step (cacheStore s ph created) (.put false (.inl d) content)
      (cacheStore (s.storeBlob d content mt) ph created) := by
  obtain ⟨u, hs⟩ := storeBlob_eq s d content mt
  rw [hs]
  refine Step.put ?_ ?_ ?_
  · simp [State.slot, Blob.slot, cacheStore]
  · intro o ho
    cases o with
    | inl d' =>
      have hd : d' ≠ d := fun he => ho (he ▸ rfl)
      simp [State.slot, cacheStore, hd]
    | inr k => rfl
  · intro id
    simp [cacheStore]

theorem runUnlink_store {s' : State} {i : ℕ} (h : s.runUnlink i = some s') :
    ∃ id, Step (cacheStore s ph created) (.remove id) (cacheStore s' ph created) := by
  unfold State.runUnlink at h
  split at h
  · cases h
  · rename_i id hi
    cases h
    refine ⟨id, Step.remove (.inl (List.mem_of_getElem? hi)) ?_ ?_ ?_ ?_⟩
    · simp [State.removeFile]
    · intro j hj
      simp [State.removeFile, cacheStore, hj]
    · rintro j (hj | hj)
      · exact .inl (List.mem_of_mem_eraseIdx hj)
      · exact .inr hj
    · rintro j hj (hu | hu)
      · obtain ⟨n, hn⟩ := List.mem_iff_getElem?.mp hu
        have hne : n ≠ i := by
          rintro rfl
          exact hj (Option.some.inj (hn.symm.trans hi))
        exact .inl (List.mem_eraseIdx_iff_getElem?.mpr ⟨n, hne, hn⟩)
      · exact .inr hu

/-- The store does not show access times, counters, manifests or tags. -/
theorem cacheStore_congr {s s' : State} {ph ph' : Phase} {created created' : DashMap ℕ Bytes}
    (hslot : s'.slot = s.slot) (hn : s'.nextId = s.nextId) (hf : s'.files = s.files)
    (hu : s'.unlinks = s.unlinks) (hh : ph'.hold = ph.hold) (hul : ph'.unlinking = ph.unlinking)
    (hc : created' = created) : cacheStore s' ph' created' = cacheStore s ph created := by
  unfold cacheStore
  rw [hslot, hn, hf, hu, hh, hul, hc]

end

/-- A pass that has not begun or has ended holds nothing and removes nothing. -/
theorem cacheStore_start {p : Pass} (h : p.phase = .begin ∨ p.ended) (s : State)
    (created : DashMap ℕ Bytes) :
    cacheStore s Pass.start.phase created = cacheStore s p.phase created := by
  rcases h with h | h
  · rw [h]
    rfl
  · have hp : p.phase = .done ∨ p.phase = .failed := of_decide_eq_true h
    rcases hp with hp | hp <;> rw [hp] <;> rfl

/-- The acts that leave ids and files alone. -/
def Act.still : Act → Bool
  | .idle | .countRun | .markEvicted _ | .dropManifest _ | .retainTags _ | .publish _ _ _
  | .store _ _ => true
  | _ => false

theorem Act.store_still {a : Act} (h : a.still) {s : State} {ph ph' : Phase}
    {created : DashMap ℕ Bytes} (hh : ph'.hold = ph.hold) (hu : ph'.unlinking = ph.unlinking)
    (hc : ph.creates = none) :
    cacheStore (a.apply s) ph' (ph.record created) = cacheStore s ph created := by
  have hrec : ph.record created = created := by simp only [Phase.record, hc]
  cases a with
  | markEvicted d =>
    simp only [Act.apply]
    split <;> exact cacheStore_congr rfl rfl rfl rfl hh hu hrec
  | dropManifest d =>
    obtain ⟨u, hs⟩ := removeManifest_eq s d
    simp only [Act.apply, hs]
    exact cacheStore_congr rfl rfl rfl rfl hh hu hrec
  | idle | countRun | retainTags | publish | store =>
    exact cacheStore_congr rfl rfl rfl rfl hh hu hrec
  | _ => cases h

namespace Pass

variable {fromSlice : Bytes → Option Json} {s : State} {p p' : Pass} {c : Choice} {a : Act}

/-- What a step of the pass is on the store: nothing, or one operation that puts nothing in,
drops slots only while nothing is held and is tidy as long as file operations succeed. -/
inductive StoreStep (c : Choice) (x x' : Store Owner Bytes) : Prop
  | still (h : x' = x)
  | op (o : Tiered.Op Owner Bytes) (hs : Tiered.Step x o x') (hp : ∀ tidy k v, o ≠ .put tidy k v)
      (ha : o.Alone x) (ht : c.write = .ok → c.unlinked → o.Tidy x)

theorem dropRedis_store (key : Bytes) {ph ph' : Phase} (hh : ph.hold = none)
    (hh' : ph'.hold = none) (hu : ph'.unlinking = ph.unlinking) (hc : ph.creates = none)
    (created : DashMap ℕ Bytes) :
    StoreStep c (cacheStore s ph created)
      (cacheStore ((Act.dropRedis key).apply s) ph' (ph.record created)) := by
  have heq : cacheStore ((Act.dropRedis key).apply s) ph' (ph.record created) =
      cacheStore (s.removeRedis key).2 ph created :=
    cacheStore_congr rfl rfl rfl rfl (hh'.trans hh.symm) hu (by simp only [Phase.record, hc])
  rw [heq]
  exact .op _ (removeRedis_store s ph created key) nofun hh (fun _ _ => trivial)

/-- The removal of a blob dooms its file, which the pass goes on to remove. -/
theorem dropBlob_store {d : Digest} {b : Blob} (hl : s.blobs.lookup d = some b) {ph ph' : Phase}
    (hh : ph.hold = none) (hh' : ph'.hold = none) (hu : ph.unlinking = none)
    (hu' : ∀ id, ph'.unlinking = some id ↔ b.slot = .disk id) (hc : ph.creates = none)
    (created : DashMap ℕ Bytes) :
    StoreStep c (cacheStore s ph created)
      (cacheStore ((Act.dropBlob d).apply s) ph' (ph.record created)) := by
  obtain ⟨u, hs⟩ := removeBlob_eq s d
  have hrec : ph.record created = created := by simp only [Phase.record, hc]
  refine .op (.drop fun o => o = .inl d) ?_ nofun hh (fun _ _ => trivial)
  have heq : cacheStore ((Act.dropBlob d).apply s) ph' (ph.record created) =
      { cacheStore s ph created with
        slot := State.slot { s with blobs := s.blobs.erase d }
        doomed := fun id => id ∈ s.unlinks ∨ ph'.unlinking = some id } := by
    simp only [Act.apply, hs, hrec, cacheStore, hh, hh']
    rfl
  rw [heq]
  refine .drop ?_ ?_ ?_
  · rintro o rfl
    simp [State.slot]
  · intro o ho
    cases o with
    | inl d' =>
      have hd : d' ≠ d := fun he => ho (he ▸ rfl)
      simp [State.slot, cacheStore, hd]
    | inr k => rfl
  · intro id
    simp [cacheStore, hu, hu', State.slot, hl]

theorem unlink_store {id : ℕ} {ph ph' : Phase} (hh : ph'.hold = ph.hold)
    (hu : ph.unlinking = some id) (hu' : ph'.unlinking = none) (hc : ph.creates = none)
    (created : DashMap ℕ Bytes) :
    StoreStep c (cacheStore s ph created)
      (cacheStore ((unlink c id).apply s) ph' (ph.record created)) := by
  have hrec : ph.record created = created := by simp only [Phase.record, hc]
  have hle : ∀ i, i ∈ s.unlinks ∨ ph'.unlinking = some i → i ∈ s.unlinks ∨ ph.unlinking = some i := by
    rintro i (hi | hi)
    · exact .inl hi
    · rw [hu'] at hi
      cases hi
  unfold unlink
  split
  · refine .op (.remove id) ?_ (by simp) trivial (fun _ _ => trivial)
    have heq : cacheStore ((Act.removeFile id).apply s) ph' (ph.record created) =
        { cacheStore s ph created with
          file := fun i => (s.files.erase id).lookup i
          doomed := fun i => i ∈ s.unlinks ∨ ph'.unlinking = some i } := by
      simp only [Act.apply, State.removeFile, cacheStore, hrec, hh]
      rfl
    rw [heq]
    refine .remove (.inr hu) (by simp) (fun i hi => ?_) hle fun i hi hd => ?_
    · simp [cacheStore, hi]
    · rcases hd with hd | hd
      · exact .inl hd
      · exact absurd (Option.some.inj (hu.symm.trans hd)).symm hi
  · rename_i hn
    refine .op .forget ?_ (by simp) trivial (fun _ hy => absurd hy hn)
    have heq : cacheStore (Act.idle.apply s) ph' (ph.record created) =
        { cacheStore s ph created with doomed := fun i => i ∈ s.unlinks ∨ ph'.unlinking = some i } := by
      simp only [Act.apply, cacheStore, hrec, hh]
    rw [heq]
    exact .forget hle

theorem hold_store {id : ℕ} {k : Owner} {v : Bytes} (hk : s.slot k = some (.mem id v))
    {ph ph' : Phase} (hh : ph.hold = none) (hh' : ph'.hold = some ⟨k, id, v, false⟩)
    (hu : ph'.unlinking = ph.unlinking) (hc : ph.creates = none) (created : DashMap ℕ Bytes) :
    StoreStep c (cacheStore s ph created)
      (cacheStore (Act.idle.apply s) ph' (ph.record created)) := by
  have hrec : ph.record created = created := by simp only [Phase.record, hc]
  refine .op (.hold k) ?_ nofun trivial (fun _ _ => trivial)
  have heq : cacheStore (Act.idle.apply s) ph' (ph.record created) =
      { cacheStore s ph created with held := some ⟨k, id, v, false⟩ } := by
    simp only [Act.apply, cacheStore, hrec, hh', hu]
  rw [heq]
  exact .hold hh hk

theorem write_store {id : ℕ} {k : Owner} {v : Bytes} {ph ph' : Phase}
    (hh : ph.hold = some ⟨k, id, v, false⟩) (hh' : ph'.hold = some ⟨k, id, v, true⟩)
    (hu : ph'.unlinking = ph.unlinking) (hc : ph.creates = none) (created : DashMap ℕ Bytes) :
    StoreStep c (cacheStore s ph created)
      (cacheStore ((Act.writeFile id v).apply s) ph' (ph.record created)) := by
  have hrec : ph.record created = created := by simp only [Phase.record, hc]
  refine .op .write ?_ nofun trivial (fun _ _ => trivial)
  have heq : cacheStore ((Act.writeFile id v).apply s) ph' (ph.record created) =
      { cacheStore s ph created with
        file := fun i => (s.files.insert id v).lookup i
        held := some ⟨k, id, v, true⟩ } := by
    simp only [Act.apply, State.writeFile, cacheStore, hrec, hh', hu]
    rfl
  rw [heq]
  refine .write hh (by simp) fun i hi => ?_
  simp [cacheStore, hi]

theorem spoil_store {id : ℕ} {k : Owner} {v : Bytes} {ph ph' : Phase} {leftover : Option Bytes}
    (hw : c.write = .failed leftover) (hh : ph.hold = some ⟨k, id, v, false⟩)
    (hh' : ph'.hold = none) (hu : ph'.unlinking = ph.unlinking) (hc : ph.creates = none)
    (created : DashMap ℕ Bytes) :
    StoreStep c (cacheStore s ph created)
      (cacheStore ((leftover.elim Act.idle (.writeFile id)).apply s) ph' (ph.record created)) := by
  have hrec : ph.record created = created := by simp only [Phase.record, hc]
  refine .op .spoil ?_ nofun trivial fun hok => ?_
  · cases leftover with
    | none =>
      have heq : cacheStore (Act.idle.apply s) ph' (ph.record created) =
          { cacheStore s ph created with file := fun i => s.files.lookup i, held := none } := by
        simp only [Act.apply, cacheStore, hrec, hh', hu]
      simp only [Option.elim_none, heq]
      exact .spoil hh fun _ _ => rfl
    | some part =>
      have heq : cacheStore ((Act.writeFile id part).apply s) ph' (ph.record created) =
          { cacheStore s ph created with
            file := fun i => (s.files.insert id part).lookup i
            held := none } := by
        simp only [Act.apply, State.writeFile, cacheStore, hrec, hh', hu]
        rfl
      simp only [Option.elim_some, heq]
      refine .spoil hh fun i hi => ?_
      simp [cacheStore, hi]
  · rw [hw] at hok
    cases hok

/-- The insert of a spill, over whatever sits under its key by now. -/
theorem publish_store (k : Owner) (id : ℕ) (v : Bytes) {ph ph' : Phase}
    (hh : ph.hold = some ⟨k, id, v, true⟩) (hh' : ph'.hold = none)
    (hu : ph'.unlinking = ph.unlinking) (hc : ph.creates = some (id, v))
    (hk : (a.apply s).slot k = some (.disk id)) (hne : ∀ k', k' ≠ k → (a.apply s).slot k' = s.slot k')
    (hn : (a.apply s).nextId = s.nextId) (hf : (a.apply s).files = s.files)
    (hul : (a.apply s).unlinks = s.unlinks) (created : DashMap ℕ Bytes) :
    StoreStep c (cacheStore s ph created)
      (cacheStore (a.apply s) ph' (ph.record created)) := by
  refine .op .publish ?_ nofun trivial (fun _ _ => trivial)
  have heq : cacheStore (a.apply s) ph' (ph.record created) =
      { cacheStore s ph created with
        slot := (a.apply s).slot
        held := none
        published := fun i => (created.insert id v).lookup i } := by
    simp only [cacheStore, Phase.record, hc, hh', hu, hn, hf, hul]
  rw [heq]
  refine .publish hh hk hne (by simp) fun i hi => ?_
  simp [cacheStore, hi]

theorem spillFetch_slot {key value : Bytes} {id : ℕ} (h : s.spillFetch key = some (value, id)) :
    s.slot (.inr key) = some (.mem id value) := by
  unfold State.spillFetch at h
  split at h
  · rename_i he
    cases h
    exact State.slot_redis he
  · cases h

/-- Every step of the pass is one of these. -/
theorem Step.onStore (hs : Step fromSlice s p c a p') (created : DashMap ℕ Bytes) :
    StoreStep c (cacheStore s p.phase created)
      (cacheStore (a.apply s) p'.phase (p.phase.record created)) := by
  have hstill {ph'} (ha : a.still) (hh : ph'.hold = p.phase.hold)
      (hu : ph'.unlinking = p.phase.unlinking) (hc : p.phase.creates = none) :
      StoreStep c (cacheStore s p.phase created)
        (cacheStore (a.apply s) ph' (p.phase.record created)) :=
    .still (Act.store_still ha hh hu hc)
  cases hs with
  | begin hp | scanBlobs hp | scanManifests hp | scanRedis hp | stopLoop hp _
  | stale hp _ _ _ | dropManifest hp _ _ _ _ | spillManifest hp _ _ _ | spillEnd hp _
  | spillMissing hp _ _ | spillKeep hp _ _ _ | retainTags hp | cascadeEnd hp
  | cascadeMissing hp _ | cascadeKeep hp _ _ | sweepEnd hp | sweepKeep hp _ _ | publish hp
  | storeEnd hp | store hp =>
    refine hstill rfl ?_ ?_ ?_ <;> simp [hp, Phase.hold, Phase.unlinking, Phase.creates]
  | dropRedis hp hb ha hpop he =>
    refine dropRedis_store _ ?_ ?_ rfl ?_ created <;> simp [hp, Phase.hold, Phase.creates]
  | fetchRedis hp ha hpop hf =>
    rw [hp]
    refine hold_store (spillFetch_slot hf) ?_ ?_ ?_ ?_ created <;> rfl
  | @spillFetch sp r rest bb id content mt t hp ht hb hu htier hl =>
    have hk : s.slot (.inl r) = some (.mem id content) := State.slot_blob hl
    rw [hp]
    refine hold_store hk ?_ ?_ ?_ ?_ created <;> rfl
  | @spillWrite sp r held hp hw =>
    rw [hp]
    refine write_store (k := .inl r) ?_ ?_ ?_ ?_ created <;> rfl
  | @redisWrite key size t value id hp hw =>
    rw [hp]
    refine write_store (k := .inr key) ?_ ?_ ?_ ?_ created <;> rfl
  | @spillInsert sp r held hp =>
    obtain ⟨u, hi⟩ := insertBlob_eq s r
      (.onDisk held.id held.content.length held.mediaType held.lastAccessed)
    rw [hp]
    refine publish_store (.inl r) held.id held.content ?_ ?_ ?_ ?_ ?_ ?_ ?_ ?_ ?_ created
    iterate 4 rfl
    · simp [State.slot, Act.onBlobs, Blob.slot]
    · intro o ho
      cases o with
      | inl d =>
        have hd : d ≠ r := fun he => ho (he ▸ rfl)
        simp [State.slot, Act.onBlobs, hd]
      | inr k => simp [State.slot, Act.onRedis]
    all_goals simp only [Act.apply, hi]
  | @redisInsert key size t value id hp =>
    rw [hp]
    refine publish_store (.inr key) id value ?_ ?_ ?_ ?_ ?_ ?_ ?_ ?_ ?_ created
    iterate 4 rfl
    · simp [State.slot, Act.onRedis, RedisEntry.slot]
    · intro o ho
      cases o with
      | inl d => simp [State.slot, Act.onBlobs]
      | inr k =>
        have hk : k ≠ key := fun he => ho (he ▸ rfl)
        simp [State.slot, Act.onRedis, hk]
    all_goals rfl
  | writeFailed hp hw =>
    rcases hp with ⟨sp, r, held, hp, rfl⟩ | ⟨key, size, t, value, hp⟩
    · rw [hp]
      refine spoil_store (k := .inl r) (v := held.content) hw ?_ ?_ ?_ ?_ created <;> rfl
    · rw [hp]
      refine spoil_store (k := .inr key) (v := value) hw ?_ ?_ ?_ ?_ created <;> rfl
  | @cascadeDrop old r todo bb blob hp hb hr ht hl =>
    rw [hp]
    refine dropBlob_store hl rfl ?_ rfl (fun id => ?_) rfl created
    all_goals cases blob <;> simp [afterCascade, Phase.hold, Phase.unlinking, Blob.slot]
  | @sweepDrop todo d bb blob hp hd hb hr ht hl =>
    rw [hp]
    refine dropBlob_store hl rfl ?_ rfl (fun id => ?_) rfl created
    all_goals cases blob <;> simp [afterSweep, Phase.hold, Phase.unlinking, Blob.slot]
  | cascadeUnlink hp => rw [hp]; refine unlink_store ?_ ?_ ?_ ?_ created <;> rfl
  | sweepUnlink hp => rw [hp]; refine unlink_store ?_ ?_ ?_ ?_ created <;> rfl

end Pass

/-- An access to a value in memory. -/
theorem touch_store (s : State) (ph : Phase) (created : DashMap ℕ Bytes) {k value : Bytes}
    {id t : ℕ} (he : s.redisEntries.lookup k = some (.inMemory value id t)) :
    cacheStore { s with redisEntries := s.redisEntries.insert k (.inMemory value id s.now) }
      ph created = cacheStore s ph created := by
  refine cacheStore_congr ?_ rfl rfl rfl rfl rfl rfl
  funext o
  cases o with
  | inl d => rfl
  | inr k' =>
    by_cases hk : k' = k
    · subst hk
      simp [State.slot, he, RedisEntry.slot]
    · simp [State.slot, hk]

/-! What every change that a connection makes to the state keeps. -/

structure ConnRule (P : State → Prop) : Prop where
  set : ∀ s k v, P s → P (s.insertRedis k v)
  del : ∀ s k, P s → P (s.removeRedis k).2
  flush : ∀ s, P s → P s.flushRedis
  touch : ∀ s k value id t, s.redisEntries.lookup k = some (.inMemory value id t) → P s →
    P { s with redisEntries := s.redisEntries.insert k (.inMemory value id s.now) }

namespace ConnRule

variable {P : State → Prop} {s : State}

theorem delete (h : ConnRule P) (keys : List Bytes) (hs : P s) : P (s.delete keys).2 := by
  induction keys generalizing s with
  | nil => exact hs
  | cons k keys ih => exact ih (h.del s k hs)

theorem get (h : ConnRule P) (g : Get) (hs : P s) : P (g.step s).1 := by
  cases g with
  | start key =>
    simp only [Get.step]
    split
    · exact hs
    · exact h.touch s key _ _ _ ‹_› hs
    · exact hs
  | cloned key id =>
    simp only [Get.step]
    split <;> exact hs
  | loaded key value => exact h.set s key value hs
  | failed key => exact h.del s key hs
  | done reply => exact hs

theorem authedCommand (h : ConnRule P) (c : Conn) (args : List Bytes) (hs : P s) :
    P (c.authedCommand s args).1 := by
  unfold Conn.authedCommand
  split
  · split <;> exact hs
  · split
    · exact h.set s _ _ hs
    · exact hs
  · exact h.delete _ hs
  · exact hs
  · exact h.flush s hs
  all_goals exact hs

theorem dispatch (h : ConnRule P) (password : Option Bytes) (c : Conn) (args : List Bytes)
    (hs : P s) : P (c.dispatch password s args).1 := by
  unfold Conn.dispatch
  split
  · split <;> exact hs
  iterate 4 exact hs
  split
  · exact h.authedCommand c args hs
  · exact hs

theorem step (h : ConnRule P) (password : Option Bytes) (c : Conn) (hs : P s) :
    P (c.step password s).1 := by
  unfold Conn.step
  split
  · exact hs
  · exact h.get _ hs
  · split
    · exact hs
    · exact hs
    · exact h.dispatch password _ _ hs

/-- On the store, a connection puts values in, tidily, and drops them. -/
theorem of_ops {Q : Store Owner Bytes → Prop} (ph : Phase) (created : DashMap ℕ Bytes)
    (hput : ∀ x k v x', Q x → Tiered.Step x (.put true k v) x' → Q x')
    (hdrop : ∀ x K x', Q x → Tiered.Step x (.drop K) x' → Q x') :
    ConnRule fun s => Q (cacheStore s ph created) where
  set s k v hs := hput _ _ _ _ hs (insertRedis_store s ph created k v)
  del s k hs := hdrop _ _ _ hs (removeRedis_store s ph created k)
  flush s hs := hdrop _ _ _ hs (flushRedis_store s ph created)
  touch s k value id t he hs := by
    rwa [touch_store s ph created he]

end ConnRule

/-! The two-tier store along the runs of `CacheSys`. -/

namespace CacheSys

def store (x : CacheSys) : Store Owner Bytes := cacheStore x.st x.pass.phase x.created

theorem hit_store {x x' : CacheSys} {d : Digest} (h : x.hit d = some x') : x'.store = x.store := by
  unfold CacheSys.hit at h
  split at h
  · cases h
  · rename_i b hb
    cases h
    refine cacheStore_congr ?_ rfl rfl rfl ?_ ?_ rfl
    · funext o
      cases o with
      | inl d' =>
        by_cases hd : d' = d
        · subst hd
          cases b <;> simp [State.slot, hb, Blob.slot, Blob.touch]
        · simp [State.slot, hd]
      | inr k => rfl
    · have hheld (held : HeldBlob) : (held.touch x.st.now b).id = held.id ∧
          (held.touch x.st.now b).content = held.content := by
        unfold HeldBlob.touch
        split
        · split <;> exact ⟨rfl, rfl⟩
        · exact ⟨rfl, rfl⟩
      cases hp : x.pass.phase with
      | spillWrite sp r held | spillInsert sp r held =>
        by_cases hr : r = d <;> simp [Phase.touch, Phase.hold, hr, hheld held]
      | _ => simp [Phase.touch]
    · cases hp : x.pass.phase <;> simp [Phase.touch, Phase.unlinking]

variable {password : Option Bytes} {fromSlice : Bytes → Option Json} {x x' : CacheSys}
  {e : CacheEvent}

/-- What every operation of the store keeps is kept by every step of the system. -/
theorem step_keeps {Q : Store Owner Bytes → Prop}
    (hQ : ∀ y op y', Q y → Tiered.Step y op y' → Q y') (h : Q x.store)
    (hs : x.step password fromSlice e = some x') : Q x'.store := by
  have hrule : ConnRule fun s => Q (cacheStore s x.pass.phase x.created) :=
    .of_ops _ _ (fun _ _ _ _ hy hs => hQ _ _ _ hy hs) (fun _ _ _ hy hs => hQ _ _ _ hy hs)
  cases e with
  | tick now => cases hs; exact h
  | hit d => rwa [hit_store hs]
  | storeBlob d content mt =>
    cases hs
    exact hQ _ _ _ h (storeBlob_store x.st x.pass.phase x.created d content mt)
  | storeManifest d content mt => cases hs; exact h
  | connect cmds => cases hs; exact h
  | conn i =>
    simp only [CacheSys.step] at hs
    split at hs
    · cases hs
    · cases hs
      exact hrule.step password _ h
  | unlink i =>
    obtain ⟨s', hu, rfl⟩ := Option.map_eq_some_iff.mp hs
    obtain ⟨id, hstep⟩ := runUnlink_store x.st x.pass.phase x.created hu
    exact hQ _ _ _ h hstep
  | evict c =>
    obtain ⟨⟨a, p'⟩, hn, rfl⟩ := Option.map_eq_some_iff.mp hs
    rcases (Pass.step_of_next hn).onStore x.created with heq | ⟨op, hstep, -, -, -⟩
    · exact (congrArg Q heq).mpr h
    · exact hQ _ _ _ h hstep
  | nextPass =>
    simp only [CacheSys.step] at hs
    split at hs
    · rename_i hend
      cases hs
      have heq : cacheStore x.st Pass.start.phase x.created = x.store :=
        cacheStore_start (.inr hend) x.st x.created
      exact (congrArg Q heq).mpr h
    · cases hs

end CacheSys

end Dockfoxprox

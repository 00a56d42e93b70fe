import Dockfoxprox.Model.Node
import Dockfoxprox.Proofs.Saving

/-! What a restart relies on. The sizes of the blobs on disk are those of their files, which
is what `load` checks. What a save has on record keeps its files while detached tasks go on.
And a snapshot that holds what is on record starts a server with its store in order. -/

namespace Dockfoxprox

open MapSum Tiered

/-- Each blob on disk has the size of what was written when it was created. -/
def BlobSized (s : State) (created : DashMap ℕ Bytes) : Prop :=
  ∀ d id size mt t, s.blobs.lookup d = some (.onDisk id size mt t) →
    ∃ v, created.lookup id = some v ∧ v.length = size

namespace BlobSized

variable {s s' : State} {created : DashMap ℕ Bytes}

theorem of_blobs (h : BlobSized s created) (hb : s'.blobs = s.blobs) : BlobSized s' created := by
  intro d id size mt t hd
  rw [hb] at hd
  exact h d id size mt t hd

theorem connRule (created : DashMap ℕ Bytes) : ConnRule fun s => BlobSized s created where
  set s k v h := by
    obtain ⟨u, hs⟩ := s.insertRedis_eq k v
    rw [hs]
    exact h
  del s k h := by
    obtain ⟨u, hs⟩ := s.removeRedis_eq k
    rw [hs]
    exact h
  flush s h := h
  touch s k value id t hl h := h

theorem storeBlob (h : BlobSized s created) (d : Digest) (content : Bytes) (mt : String) :
    BlobSized (s.storeBlob d content mt) created := by
  obtain ⟨u, hs⟩ := storeBlob_eq s d content mt
  rw [hs]
  intro d' id size mt' t hd
  simp only [lookup_insert_apply] at hd
  split at hd
  · cases hd
  · exact h d' id size mt' t hd

theorem hit {x x' : CacheSys} {d : Digest} (h : BlobSized x.st x.created)
    (hs : x.hit d = some x') : BlobSized x'.st x'.created := by
  unfold CacheSys.hit at hs
  split at hs <;> cases hs
  rename_i b hb
  intro d' id size mt t hd
  simp only [lookup_insert_apply] at hd
  split at hd
  · cases b with
    | onDisk i n m u =>
      cases hd
      exact h d _ _ _ u hb
    | inMemory i c m u => cases hd
  · exact h d' id size mt t hd

/-- A spill files what it wrote under an id that no blob on disk has. -/
theorem record {ph : Phase} {g : Hold Owner Bytes} (h : BlobSized s created)
    (hi : Inv (cacheStore s ph created)) (hg : ph.hold = some g)
    (hb : ∀ d id size mt t, s'.blobs.lookup d = some (.onDisk id size mt t) →
      (id = g.id ∧ size = g.value.length) ∨ s.blobs.lookup d = some (.onDisk id size mt t)) :
    BlobSized s' (created.insert g.id g.value) := by
  intro d id size mt t hd
  let Q (s : State) (id size : ℕ) : Prop := ∃ d mt t, s.blobs.lookup d = some (.onDisk id size mt t)
  refine sized_insert (Q := Q s) (fun id size hq => ?_) (fun id size hq => ?_)
    (fun id size (hq : Q s' id size) => ?_) id size ⟨d, mt, t, hd⟩
  · obtain ⟨d, mt, t, hd⟩ := hq
    exact h d id size mt t hd
  · obtain ⟨d, mt, t, hd⟩ := hq
    exact hi.held_ne_disk hg (k := .inl d) (State.slot_blob hd)
  · obtain ⟨d, mt, t, hd⟩ := hq
    exact (hb d id size mt t hd).imp_right fun hd => ⟨d, mt, t, hd⟩

theorem evict {fromSlice : Bytes → Option Json} {p p' : Pass} {c : Choice} {a : Act}
    (h : BlobSized s created) (hi : Inv (cacheStore s p.phase created))
    (hs : Pass.Step fromSlice s p c a p') : BlobSized (a.apply s) (p.phase.record created) := by
  cases hs.creates with
  | @blob sp r held hp =>
    have hrec : p.phase.record created = created.insert held.id held.content := by rw [hp]; rfl
    rw [hrec]
    refine h.record (g := ⟨.inl r, held.id, held.content, true⟩) hi (by rw [hp]; rfl)
      fun d id size mt t hd => ?_
    simp only [Act.apply_blobs, Act.onBlobs, lookup_insert_apply] at hd
    split at hd
    · cases hd
      exact .inl ⟨rfl, rfl⟩
    · exact .inr hd
  | @redis key value size t id hp =>
    have hrec : p.phase.record created = created.insert id value := by rw [hp]; rfl
    rw [hrec]
    refine h.record (g := ⟨.inr key, id, value, true⟩) hi (by rw [hp]; rfl)
      fun d i n mt t hd => ?_
    rw [Act.apply_blobs] at hd
    exact .inr hd
  | nothing hc hb hr =>
    have hrec : p.phase.record created = created := by simp only [Phase.record, hc]
    rw [hrec]
    intro d id size mt t hl
    rw [Act.apply_blobs] at hl
    refine h d id size mt t ?_
    cases a with
    | moveBlob d b => exact absurd rfl (hb d b)
    | dropBlob d => exact Pass.lookup_of_erase hl
    | _ => exact hl

theorem step {password : Option Bytes} {fromSlice : Bytes → Option Json} {x x' : CacheSys}
    {e : CacheEvent} (h : BlobSized x.st x.created) (hi : Inv x.store)
    (hs : x.step password fromSlice e = some x') : BlobSized x'.st x'.created := by
  cases e with
  | tick now => cases hs; exact h
  | hit d => exact h.hit hs
  | storeBlob d content mt => cases hs; exact h.storeBlob d content mt
  | storeManifest d content mt => cases hs; exact h
  | connect cmds => cases hs; exact h
  | conn i =>
    simp only [CacheSys.step] at hs
    split at hs <;> cases hs
    exact (connRule x.created).step password _ h
  | unlink i =>
    obtain ⟨s', hu, rfl⟩ := Option.map_eq_some_iff.mp hs
    unfold State.runUnlink at hu
    split at hu <;> cases hu
    exact h
  | evict c =>
    obtain ⟨⟨a, p'⟩, hn, rfl⟩ := Option.map_eq_some_iff.mp hs
    exact h.evict hi (Pass.step_of_next hn)
  | nextPass =>
    simp only [CacheSys.step] at hs
    split at hs <;> cases hs
    exact h

end BlobSized

/-! ### Detached tasks beside a save -/

/-- What a detached task does to the store: nothing, or an operation that gives up no file. -/
def Mildly (s s' : State) : Prop :=
  s'.restStore = s.restStore ∨ ∃ op : Tiered.Op Owner Bytes, op.Mild ∧
    Tiered.Step s.restStore op s'.restStore

theorem CacheSys.step_detached {password : Option Bytes} {fromSlice : Bytes → Option Json}
    {x x' : CacheSys} {e : CacheEvent} (hd : e.detached) (hp : x.pass.phase = .begin)
    (hs : x.step password fromSlice e = some x') :
    x'.pass.phase = .begin ∧ Mildly x.st x'.st := by
  cases e with
  | tick now => cases hs; exact ⟨hp, .inl rfl⟩
  | hit d =>
    have hstore := hit_store hs
    have hp' : x'.pass.phase = .begin := by
      simp only [CacheSys.step, CacheSys.hit] at hs
      split at hs <;> cases hs
      simp [Pass.goto, hp, Phase.touch]
    simp only [CacheSys.store, hp, hp'] at hstore
    refine ⟨hp', .inl ?_⟩
    -- the two stores differ in the history only
    exact congrArg (fun y : Store Owner Bytes =>
      { y with published := fun id => (∅ : DashMap ℕ Bytes).lookup id }) hstore
  | storeBlob d content mt =>
    cases hs
    have hstep := storeBlob_store x.st .begin ∅ d content mt
    exact ⟨hp, .inr ⟨.put false (.inl d) content, rfl, hstep⟩⟩
  | storeManifest d content mt => cases hs; exact ⟨hp, .inl rfl⟩
  | unlink i =>
    obtain ⟨s', hu, rfl⟩ := Option.map_eq_some_iff.mp hs
    obtain ⟨id, hstep⟩ := runUnlink_store x.st .begin ∅ hu
    exact ⟨hp, .inr ⟨.remove id, trivial, hstep⟩⟩
  | connect cmds => cases hd
  | conn i => cases hd
  | evict c => cases hd
  | nextPass => cases hd

/-- What is on record with ids that were given out stays backed. -/
theorem Recorded.mildly {r s s' : State} (h : Recorded r s)
    (hb : ∀ o x, r.slot o = some x → x.id < s.nextId) (hm : Mildly s s') :
    Recorded r s' ∧ ∀ o x, r.slot o = some x → x.id < s'.nextId := by
  rcases hm with heq | ⟨op, hmild, hstep⟩
  · refine ⟨⟨h.distinct, ?_, ?_⟩, fun o x hx => ?_⟩
    · rw [heq]
      exact h.claimed
    · rw [heq]
      exact h.backed
    · have hn : s'.nextId = s.nextId := congrArg Store.next heq
      rw [hn]
      exact hb o x hx
  · refine ⟨⟨h.distinct, fun o x hx => ?_, fun o x id v hx hv => ?_⟩, fun o x hx => ?_⟩
    · exact (h.claimed o x hx).step (hb o x hx) hmild hstep
    · exact (h.backed o x id v hx hv).step (State.backing_id hv ▸ hb o x hx) hmild hstep
    · exact Nat.lt_of_lt_of_le (hb o x hx) hstep.next_le

/-- A store in order is what a save needs. -/
theorem State.Sound.of_inv {s : State} {ph : Phase} {created : DashMap ℕ Bytes}
    (h : Inv (cacheStore s ph created)) (hb : BlobSized s created) : s.Sound := by
  refine ⟨h.distinct, fun id hi o x hx => (h.doomed id (.inl hi)).2 o x hx, ?_, ?_⟩
  · intro d id size mt t hd
    have ho : s.slot (.inl d) = some (.disk id) := slot_blob hd
    obtain ⟨v, hfile, hcreated⟩ := h.filed (.inl d) id ho
    obtain ⟨w, hw, hlen⟩ := hb d id size mt t hd
    obtain rfl : v = w := Option.some.inj (hcreated.symm.trans hw)
    exact ⟨v, hfile, hlen⟩
  · intro k size id t hk
    have ho : s.slot (.inr k) = some (.disk id) := slot_redis hk
    obtain ⟨v, hfile, -⟩ := h.filed (.inr k) id ho
    exact ⟨v, hfile⟩

/-! ### After a load -/

/-- A snapshot of a record whose ids are distinct and below its next id. -/
structure Durable (r : State) (snap : Snapshot) (files : DashMap ℕ Bytes) : Prop
    extends snap.Holds r files where
  distinct : ∀ o o' x x', r.slot o = some x → r.slot o' = some x' → x.id = x'.id → o = o'
  below : ∀ o x, r.slot o = some x → x.id < r.nextId

def savedSlot : Slot Bytes → Slot Bytes
  | .disk id => .disk id
  | .mem id v => if v.length ≤ snapshotInlineThreshold then .mem id v else .disk id

@[simp] theorem savedSlot_id (x : Slot Bytes) : (savedSlot x).id = x.id := by
  cases x with
  | disk id => rfl
  | mem id v =>
    simp only [savedSlot]
    split <;> rfl

theorem Blob.saved_slot (b : Blob) : b.saved.slot = savedSlot b.slot := by
  cases b with
  | onDisk id size mt t => rfl
  | inMemory id content mt t =>
    by_cases hl : content.length ≤ snapshotInlineThreshold <;>
      simp [Blob.saved, Blob.slot, savedSlot, hl]

theorem RedisEntry.saved_slot (e : RedisEntry) : e.saved.slot = savedSlot e.slot := by
  cases e with
  | onDisk size id t => rfl
  | inMemory value id t =>
    by_cases hl : value.length ≤ snapshotInlineThreshold <;>
      simp [RedisEntry.saved, RedisEntry.slot, savedSlot, hl]

section
variable {r t : State} {snap : Snapshot}

theorem Restores.slot (h : Restores r t) (o : Owner) : t.slot o = (r.slot o).map savedSlot := by
  cases o with
  | inl d =>
    simp only [State.slot, h.blobs, Option.map_map]
    congr 1
    exact funext Blob.saved_slot
  | inr k =>
    simp only [State.slot, h.redis, Option.map_map]
    congr 1
    exact funext RedisEntry.saved_slot

/-- What is on disk after a load was saved to its file. -/
theorem Snapshot.Holds.file_of_disk {files : DashMap ℕ Bytes} (h : snap.Holds r files) {o : Owner}
    {x : Slot Bytes} {id : ℕ} (ho : r.slot o = some x) (hx : savedSlot x = .disk id) :
    ∃ v, files.lookup id = some v := by
  cases x with
  | disk i =>
    cases hx
    have hfile : ∃ v, r.files.lookup id = some v := by
      cases o with
      | inl d =>
        obtain ⟨b, hb, hd⟩ := Option.map_eq_some_iff.mp ho
        cases b <;> cases hd
        obtain ⟨v, hv, -⟩ := h.filed.blobs d _ _ _ _ hb
        exact ⟨v, hv⟩
      | inr k =>
        obtain ⟨e, he, hd⟩ := Option.map_eq_some_iff.mp ho
        cases e <;> cases hd
        exact h.filed.redis k _ _ _ he
    obtain ⟨v, hv⟩ := hfile
    exact ⟨v, h.files o _ id v ho (by simp [State.backing, hv])⟩
  | mem i v =>
    simp only [savedSlot] at hx
    split at hx <;> cases hx
    rename_i hl
    exact ⟨v, h.files o _ id v ho (by simp [State.backing, spillSlot, hl])⟩

theorem Durable.intact (h : Durable r snap t.files) (hres : Restores r t) (hu : t.unlinks = []) :
    t.Intact := by
  have hslot {o x} (hx : t.slot o = some x) : ∃ y, r.slot o = some y ∧ savedSlot y = x :=
    Option.map_eq_some_iff.mp ((hres.slot o).symm.trans hx)
  refine ⟨State.nodup_ids.mpr fun o o' x x' hx hx' hid => ?_, fun id hid => ?_, fun id hid => ?_,
    hu⟩
  · obtain ⟨y, hy, rfl⟩ := hslot hx
    obtain ⟨y', hy', rfl⟩ := hslot hx'
    exact h.distinct o o' y y' hy hy' (by simpa using hid)
  · obtain ⟨o, x, hx, rfl⟩ := State.mem_ids.mp hid
    obtain ⟨y, hy, rfl⟩ := hslot hx
    rw [savedSlot_id, hres.nextId]
    exact h.below o y hy
  · obtain ⟨o, ho⟩ := State.mem_diskIds.mp hid
    obtain ⟨y, hy, hd⟩ := hslot ho
    exact h.file_of_disk hy hd

theorem Durable.blobSized (h : Durable r snap t.files) (hres : Restores r t) :
    BlobSized t t.files := by
  intro d id size mt u hd
  rw [hres.blobs] at hd
  obtain ⟨b, hb, hsaved⟩ := Option.map_eq_some_iff.mp hd
  have ho := State.slot_blob hb
  cases b with
  | onDisk i n m v =>
    cases hsaved
    obtain ⟨bytes, hbytes, hlen⟩ := h.filed.blobs d _ _ _ _ hb
    exact ⟨bytes, h.files _ _ id bytes ho (by simp [State.backing, Blob.slot, hbytes]), hlen⟩
  | inMemory i content m v =>
    simp only [Blob.saved] at hsaved
    split at hsaved <;> cases hsaved
    rename_i hl
    have hback : r.backing (Blob.slot (.inMemory id content mt u)) = some (id, content) := by
      simp [State.backing, spillSlot, Blob.slot, hl]
    exact ⟨content, h.files _ _ id content ho hback, rfl⟩

end

end Dockfoxprox

import Dockfoxprox.Model.Blobs
import Dockfoxprox.Proofs.Provenance
import Dockfoxprox.Proofs.Tiers
import Dockfoxprox.Proofs.Uploads

/-! What is cached through all lives of a server. A save puts the values of the store on
record, and a load takes them from there, so every value has its source in some life. -/

namespace Dockfoxprox

open MapSum Tiered

section
variable {r s t : State}

/-- Where ids are owned, each blob has one of its own. -/
theorem State.OwnBlobIds.of_owned {ph : Phase} {created : DashMap ℕ Bytes}
    (h : Owned (cacheStore s ph created)) : s.OwnBlobIds := by
  refine ⟨fun d d' b b' hb hb' hid => ?_, fun d b hb k e he hid => ?_, fun d b hb hmem => ?_⟩
  · have hsame := h.distinct (.inl d) (.inl d') _ _ (slot_blob hb) (slot_blob hb')
      (by rw [Blob.slot_id, Blob.slot_id, hid])
    exact Sum.inl.inj hsame
  · have hsame := h.distinct (.inr k) (.inl d) _ _ (slot_redis he) (slot_blob hb)
      (by rw [RedisEntry.slot_id, Blob.slot_id, hid])
    cases hsame
  · exact (h.doomed b.id (.inl hmem)).2 (.inl d) b.slot (slot_blob hb) (Blob.slot_id b)

theorem State.Bare.value (h : s.Bare) (o : Owner) : s.value o = none := by
  cases o with
  | inl d => simp [State.value, h.blobs]
  | inr k => simp [State.value, State.denotes, h.redis]

/-- What is restored stands for the same bytes. -/
theorem Restores.value (h : Restores r t) (o : Owner) : t.value o = r.value o := by
  cases o with
  | inl d =>
    simp only [State.value, h.blobs]
    cases hb : r.blobs.lookup d with
    | none => rfl
    | some b =>
      obtain ⟨bytes, hr, ht⟩ := h.blobBytes d b hb
      simp [hr, ht]
  | inr k =>
    have hdenotes (u : State) : u.denotes k = (u.redisEntries.lookup k).bind u.redisBytes := by
      unfold State.denotes
      cases u.redisEntries.lookup k with
      | none => rfl
      | some e => cases e <;> rfl
    simp only [State.value, hdenotes, h.redis]
    cases he : r.redisEntries.lookup k with
    | none => rfl
    | some e =>
      obtain ⟨bytes, hr, ht⟩ := h.redisBytes k e he
      simp [hr, ht]

end

namespace Save

variable {Buf : Type} {cbor : Cbor Buf} {s : State} {disk : SnapshotFiles Buf} {sv : Save}
  {y : State × SnapshotFiles Buf × Save}

/-- What an entry adds to the record is the value of its owner. -/
theorem record_value {r r' : State} {o₀ : Owner} {x : Slot Bytes} (h : Recorded r s)
    (ho : s.slot o₀ = some x) (hslot : ∀ o, r'.slot o = if o = o₀ then some x else r.slot o)
    (hdisk : ∀ id, x = .disk id → r'.files.lookup id = s.files.lookup id)
    (hrest : ∀ id, x ≠ .disk id → r'.files.lookup id = r.files.lookup id)
    {o : Owner} {v : Bytes} (hv : r'.value o = some v) :
    s.value o = some v ∨ r.value o = some v := by
  rw [State.value_eq r' .begin ∅] at hv
  rw [State.value_eq s .begin ∅, State.value_eq r .begin ∅]
  unfold Store.value at *
  simp only [cacheStore, hslot] at hv ⊢
  by_cases he : o = o₀
  · subst he
    rw [ho]
    rw [if_pos rfl] at hv
    refine .inl ?_
    cases x with
    | mem id w => exact hv
    | disk id => exact (hdisk id rfl).symm.trans hv
  · rw [if_neg he] at hv
    refine .inr ?_
    cases hr : r.slot o with
    | none => simp [hr] at hv
    | some z =>
      rw [hr] at hv
      cases z with
      | mem id w => exact hv
      | disk id =>
        have hne : x ≠ .disk id := by
          rintro rfl
          exact he (h.claimed o _ hr o₀ _ ho rfl).symm
        exact (hrest id hne).symm.trans hv

theorem Move.record_value (hm : Move cbor s disk sv y) (h : sv.Ok s) (hs : s.Sound) {o : Owner}
    {v : Bytes} (hv : y.2.2.record.value o = some v) :
    s.value o = some v ∨ sv.record.value o = some v := by
  cases hm with
  | @blob it d b hp hd hb =>
    refine Save.record_value h.recorded (State.slot_blob hb) addBlob_slot (fun id hid => ?_)
      (fun id hid => ?_) hv
    · rw [addBlob_files hs.filed hb, if_pos (Blob.slot_eq_disk.mp hid)]
    · rw [addBlob_files hs.filed hb, if_neg fun he => hid (Blob.slot_eq_disk.mpr he)]
  | @redis it k e hp hk he =>
    refine Save.record_value h.recorded (State.slot_redis he) addRedis_slot (fun id hid => ?_)
      (fun id hid => ?_) hv
    · rw [addRedis_files hs.filed he, if_pos (RedisEntry.slot_eq_disk.mp hid)]
    · rw [addRedis_files hs.filed he, if_neg fun hk => hid (RedisEntry.slot_eq_disk.mpr hk)]
  | _ => exact .inr hv

end Save

namespace CacheSys

variable {H H' : Owner → Bytes → Prop}

theorem Sourced.init {s : State} (h : ∀ o v, s.value o = some v → H o v) :
    (CacheSys.init s).Sourced H := by
  refine ⟨⟨fun o v hv => h o v ?_, fun g hg => by cases hg⟩, fun c hc => by cases hc⟩
  exact (s.value_eq .begin s.files o).trans hv

/-- Operations of the store while the connections are at rest. -/
theorem Sourced.of_ops {x x' : CacheSys} (h : x.Sourced H) (hi : Inv x.store)
    (hH : ∀ o v, H o v → H' o v) (ho : Ops H' x.store x'.store) (hc : x'.conns = x.conns) :
    x'.Sourced H' := by
  refine ⟨ho.sourced hi (h.store.mono hH), fun c hmem g hg => ?_⟩
  exact (h.gets c (hc ▸ hmem) g hg).ops ho hH

/-- A wipe removes files of no entry. -/
theorem Sourced.removeFile {x : CacheSys} (h : x.Sourced H) (hb : x.st.Bare) (id : ℕ) :
    ({ x with st := x.st.removeFile id } : CacheSys).Sourced H := by
  have hbare : (x.st.removeFile id).Bare := ⟨hb.blobs, hb.manifests, hb.tags, hb.redis⟩
  refine ⟨⟨fun o v hv => ?_, h.store.held⟩, fun c hc g hg => ?_⟩
  · have hnone := (State.value_eq _ x.pass.phase x.created o).symm.trans (hbare.value o)
    cases hnone.symm.trans hv
  · have hsrc := h.gets c hc g hg
    cases g with
    | cloned key i =>
      refine ⟨⟨hsrc.1.below, hsrc.1.slot, hsrc.1.held⟩, fun v hv => hsrc.2 v ?_⟩
      have hv : (x.st.files.erase id).lookup i = some v := hv
      by_cases he : i = id
      · subst he
        simp at hv
      · exact (AList.lookup_erase_ne he).symm.trans hv
    | _ => exact hsrc

end CacheSys

namespace Node

variable {Buf : Type}

/-- What an event of a life stores, and under what. -/
def puts (x : Node Buf) : NodeEvent Buf → List (Owner × Bytes)
  | .run e => x.sys.puts e
  | _ => []

/-- The values of the cache, of the record of a save and of the last completed one were put
under the digests and keys they have. -/
structure Sourced (H : Owner → Bytes → Prop) (x : Node Buf) : Prop where
  sys : x.sys.Sourced H
  record : ∀ sv, x.life = .saving sv → ∀ o v, sv.record.value o = some v → H o v
  saved : ∀ r, x.saved = some r → ∀ o v, r.value o = some v → H o v

section
variable {cbor : Cbor Buf} {password : Option Bytes} {fromSlice : Bytes → Option Json}
  {x x' : Node Buf} {e : NodeEvent Buf} {H H' : Owner → Bytes → Prop}

theorem Sourced.mono (h : x.Sourced H) (hH : ∀ o v, H o v → H' o v) : x.Sourced H' where
  sys := ⟨h.sys.store.mono hH, fun c hc g hg => (h.sys.gets c hc g hg).ops .refl hH⟩
  record sv hl o v hv := hH o v (h.record sv hl o v hv)
  saved r hr o v hv := hH o v (h.saved r hr o v hv)

/-- A process that starts over from a bare state. -/
theorem Sourced.bare (h : x.Sourced H) {s : State} (hs : s.Bare) (hsys : x'.sys = .init s)
    (hsaved : x'.saved = x.saved) (hl : ∀ sv, x'.life ≠ .saving sv) : x'.Sourced H where
  sys := by
    rw [hsys]
    refine .init fun o v hv => ?_
    rw [hs.value o] at hv
    cases hv
  record sv hsv := absurd hsv (hl sv)
  saved r hr := h.saved r (hsaved ▸ hr)

theorem Sourced.off (h : x.Sourced H) (y : Node Buf) (hy : y.saved = x.saved)
    (files : DashMap ℕ Bytes) : (y.off files).Sourced H :=
  h.bare ⟨rfl, rfl, rfl, rfl⟩ rfl hy fun sv hsv => by cases hsv

/-- A load takes its values from what the last completed save had on record. -/
theorem Sourced.boot (h : x.Sourced H) (hw : x.Wf cbor) (hl : x.life = .down) (config : Config)
    (now : ℕ) : (x.boot cbor config now).Sourced H := by
  have hw' := hw.boot hl config now
  have hbare : ({ State.new config now with files := x.files } : State).Bare := ⟨rfl, rfl, rfl, rfl⟩
  rw [boot_eq] at hw' ⊢
  split at hw'
  · obtain ⟨-, -, r, ⟨hsaved, -⟩, hres⟩ := hw'
    refine ⟨.init fun o v hv => ?_, fun sv hsv => (by cases hsv), h.saved⟩
    exact h.saved r hsaved o v ((hres.value o).symm.trans hv)
  · exact h.bare hbare rfl rfl fun sv hsv => by cases hsv
  · exact h.bare hbare rfl rfl fun sv hsv => by cases hsv

theorem Sourced.shutdown (h : x.Sourced H) (hp : x.sys.pass.phase = .begin ∨ x.sys.pass.ended) :
    ({ x with
      sys := { x.sys with pass := .start, conns := [] }
      life := .saving (.start x.sys.st) } : Node Buf).Sourced H where
  sys := by
    have hstore := cacheStore_start hp x.sys.st x.sys.created
    refine ⟨(congrArg (Tiered.Sourced H) hstore).mpr h.sys.store, fun c hc => by cases hc⟩
  record sv hsv o v hv := by
    cases hsv
    have hbare : (Save.start x.sys.st).record.Bare := ⟨rfl, rfl, rfl, rfl⟩
    cases (hbare.value o).symm.trans hv
  saved := h.saved

theorem Sourced.save {sv : Save} {e : SaveEvent} (h : x.Sourced H) (hw : x.Saving cbor sv)
    (hl : x.life = .saving sv) (hs : x.save cbor sv e = some x') : x'.Sourced H := by
  obtain ⟨⟨s, disk, sv'⟩, hstep, rfl⟩ := Option.map_eq_some_iff.mp hs
  have hm := Save.move_of_step hstep
  have hrecord (o : Owner) (v : Bytes) (hv : sv'.record.value o = some v) : H o v := by
    rcases hm.record_value hw.ok (.of_inv hw.inv hw.sized) hv with hv | hv
    · exact h.sys.value hv
    · exact h.record sv hl o v hv
  refine ⟨?_, fun sv'' hsv => ?_, fun r hr => ?_⟩
  · rcases hm.store x.sys.pass.phase x.sys.created with heq | ⟨o, hop⟩
    · rw [show s = x.sys.st from heq]
      exact ⟨h.sys.store, h.sys.gets⟩
    · refine h.sys.of_ops hw.inv (fun o v hv => hv) ?_ rfl
      exact Ops.single hop nofun
  · cases hsv
    exact hrecord
  · simp only at hr
    split at hr
    · cases hr
      exact hrecord
    · exact h.saved r hr

/-- Every step keeps the sources, when what it stores counts as one. -/
theorem Sourced.step (h : x.Sourced H) (hw : x.Wf cbor) (hH : ∀ o v, H o v → H' o v)
    (hputs : ∀ o v, (o, v) ∈ x.puts e → H' o v) (hs : x.step cbor password fromSlice e = some x') :
    x'.Sourced H' := by
  have hrun {e : CacheEvent} {sys : CacheSys} (hx : x.Serving)
      (hputs : ∀ o v, (o, v) ∈ x.sys.puts e → H' o v)
      (hs : x.sys.step password fromSlice e = some sys) :
      ({ x with sys := sys } : Node Buf).Sourced H' :=
    ⟨h.sys.step hx.inv hH hputs hs, (h.mono hH).record, (h.mono hH).saved⟩
  cases e with
  | boot config now =>
    simp only [Node.step] at hs
    split at hs <;> cases hs
    exact (h.boot hw ‹_› config now).mono hH
  | removeSnapshot ok =>
    simp only [Node.step] at hs
    split at hs
    · cases hs
      cases ok with
      | false => exact (h.mono hH).off x rfl x.files
      | true => exact ⟨(h.mono hH).sys, fun sv hsv => (by cases hsv), (h.mono hH).saved⟩
    · cases hs
      exact ⟨(h.mono hH).sys, fun sv hsv => (by cases hsv), (h.mono hH).saved⟩
    · cases hs
  | wipeFile id =>
    simp only [Node.step] at hs
    split at hs <;> cases hs
    rename_i hl
    simp only [Wf, hl] at hw
    exact ⟨(h.mono hH).sys.removeFile hw.1 id, (h.mono hH).record, (h.mono hH).saved⟩
  | wiped ok =>
    simp only [Node.step] at hs
    split at hs
    · rename_i other hl
      split at hs <;> cases hs
      refine (h.mono hH).bare x.sys.st.wipeCache_cold.toBare rfl rfl fun sv hsv => ?_
      cases other <;> cases hsv
    · cases hs
  | run e =>
    simp only [Node.step] at hs
    split at hs
    · rename_i hl
      obtain ⟨sys, hsys, rfl⟩ := Option.map_eq_some_iff.mp hs
      exact hrun ((wf_up hl).mp hw).1 hputs hsys
    · rename_i sv hl
      split at hs
      · obtain ⟨sys, hsys, rfl⟩ := Option.map_eq_some_iff.mp hs
        exact hrun ((wf_saving hl).mp hw).toServing hputs hsys
      · cases hs
    · cases hs
  | tag ref d =>
    have htag : ({ x with sys := { x.sys with st :=
        { x.sys.st with tags := x.sys.st.tags.insert ref d } } } : Node Buf).Sourced H' :=
      ⟨⟨(h.mono hH).sys.store, (h.mono hH).sys.gets⟩, (h.mono hH).record, (h.mono hH).saved⟩
    simp only [Node.step] at hs
    split at hs <;> cases hs <;> exact htag
  | shutdown =>
    simp only [Node.step] at hs
    split at hs
    · split at hs <;> cases hs
      exact (h.mono hH).shutdown ‹_›
    · cases hs
  | save e =>
    simp only [Node.step] at hs
    split at hs
    · rename_i sv hl
      exact ((h.mono hH).save ((wf_saving hl).mp hw) hl hs)
    · cases hs
  | crash file tmp =>
    simp only [Node.step] at hs
    split at hs <;> cases hs
    exact (h.mono hH).off { x with disk.tmp := tmp.or x.disk.tmp } rfl _

/-! ### Boots that could not read the snapshot -/

/-- The snapshot did not load, and the life goes on with a wipe. -/
def rejecting (x : Node Buf) : Bool :=
  match x.life with
  | .wiping true | .wiped _ => true
  | _ => false

section
variable (cbor)

/-- The snapshot file would load, were it read. -/
def stale (x : Node Buf) : Bool :=
  match x.disk.path with
  | none => false
  | some buf =>
    match cbor.decode buf with
    | .ok snap => snap.version = snapshotVersion
    | .error _ => false

/-- A life that could not read a snapshot which would load does not end, or go on, before it has
removed it. -/
def Disposes (x : Node Buf) : DiskEvent Buf → Prop
  | .node (.crash _ _) | .node (.removeSnapshot false) => x.rejecting → x.stale cbor = false
  | _ => True

instance (x : Node Buf) (e : DiskEvent Buf) : Decidable (x.Disposes cbor e) :=
  match e with
  | .node (.crash _ _) | .node (.removeSnapshot false) =>
    inferInstanceAs (Decidable (x.rejecting → x.stale cbor = false))
  | .node (.boot _ _) | .node (.removeSnapshot true) | .node (.wipeFile _) | .node (.wiped _)
  | .node (.run _) | .node (.tag _ _) | .node .shutdown | .node (.save _) | .unread _ _ _ =>
    isTrue trivial

/-- Such a life is in order but for the snapshot. -/
def Unread (x : Node Buf) : Prop :=
  x.rejecting ∧ ({ x with disk.path := none } : Node Buf).Wf cbor

end

def diskPuts (x : Node Buf) : DiskEvent Buf → List (Owner × Bytes)
  | .node e => x.puts e
  | .unread _ _ _ => []

theorem noSnapshot_of_not_stale (h : x.stale cbor = false) : x.NoSnapshot cbor := by
  intro buf hbuf snap hsnap hv
  rw [stale, hbuf] at h
  simp [hsnap, hv] at h

theorem Unread.wf (h : x.Unread cbor) (hno : x.NoSnapshot cbor) : x.Wf cbor := by
  obtain ⟨hr, hw⟩ := h
  cases hl : x.life with
  | wiping other =>
    simp only [Wf, hl] at hw ⊢
    exact ⟨hw.1, hw.2.1, hno⟩
  | wiped ok =>
    simp only [Wf, hl] at hw ⊢
    exact ⟨hw.1, hw.2.1, hw.2.2.1, hw.2.2.2.1, hno⟩
  | _ =>
    rw [rejecting, hl] at hr
    cases hr

/-- The process over such a snapshot does what it would do without one. -/
theorem Unread.step (h : x.Unread cbor) (hs : x.step cbor password fromSlice e = some x')
    (hcrash : ∀ file tmp, e ≠ .crash file tmp) (hremove : e ≠ .removeSnapshot false) :
    ∃ y, ({ x with disk.path := none } : Node Buf).step cbor password fromSlice e = some y ∧
      (y = x' ∨ x'.rejecting ∧ y = { x' with disk.path := none }) := by
  obtain ⟨hr, -⟩ := h
  unfold rejecting at hr
  split at hr <;> rename_i hl <;> try cases hr
  · cases e with
    | wipeFile id =>
      simp only [Node.step, hl] at hs ⊢
      cases hs
      exact ⟨_, rfl, .inr ⟨rfl, rfl⟩⟩
    | wiped ok =>
      simp only [Node.step, hl] at hs ⊢
      split at hs <;> cases hs
      rename_i hok
      exact ⟨_, if_pos hok, .inr ⟨rfl, rfl⟩⟩
    | crash file tmp => exact absurd rfl (hcrash file tmp)
    | _ => simp [Node.step, hl] at hs
  · cases e with
    | removeSnapshot ok =>
      cases ok with
      | false => exact absurd rfl hremove
      | true =>
        simp only [Node.step, hl] at hs ⊢
        cases hs
        exact ⟨_, rfl, .inl rfl⟩
    | crash file tmp => exact absurd rfl (hcrash file tmp)
    | _ => simp [Node.step, hl] at hs

/-- The step lemma of the lives with failed reads. -/
theorem Sourced.diskStep {e : DiskEvent Buf} (h : x.Sourced H) (hw : x.Wf cbor ∨ x.Unread cbor)
    (hH : ∀ o v, H o v → H' o v) (hputs : ∀ o v, (o, v) ∈ x.diskPuts e → H' o v)
    (hd : x.Disposes cbor e) (hs : x.diskStep cbor password fromSlice e = some x') :
    x'.Sourced H' ∧ (x'.Wf cbor ∨ x'.Unread cbor) := by
  have hwf {e : NodeEvent Buf} (hw : x.Wf cbor) (hputs : ∀ o v, (o, v) ∈ x.puts e → H' o v)
      (hs : x.step cbor password fromSlice e = some x') :
      x'.Sourced H' ∧ (x'.Wf cbor ∨ x'.Unread cbor) :=
    ⟨h.step hw hH hputs hs, .inl (hw.step hs)⟩
  cases e with
  | unread config now e =>
    simp only [Node.diskStep] at hs
    split at hs <;> cases hs
    have hbare : ({ State.new config now with files := x.files } : State).Bare :=
      ⟨rfl, rfl, rfl, rfl⟩
    refine ⟨(h.mono hH).bare hbare rfl rfl fun sv hsv => (by cases hsv), .inr ⟨rfl, hbare, rfl, ?_⟩⟩
    exact fun buf hbuf => by cases hbuf
  | node e =>
    rcases hw with hw | hu
    · exact hwf hw hputs hs
    · by_cases hend : (∃ file tmp, e = .crash file tmp) ∨ e = .removeSnapshot false
      · have hstale : x.stale cbor = false := by
          rcases hend with ⟨file, tmp, rfl⟩ | rfl <;> exact hd hu.1
        exact hwf (hu.wf (noSnapshot_of_not_stale hstale)) hputs hs
      · push Not at hend
        obtain ⟨y, hy, heq⟩ := hu.step hs hend.1 hend.2
        have hsrc : ({ x with disk.path := none } : Node Buf).Sourced H :=
          ⟨h.sys, h.record, h.saved⟩
        have hsrc' := hsrc.step hu.2 hH hputs hy
        have hwf' := hu.2.step hy
        rcases heq with rfl | ⟨hr, rfl⟩
        · exact ⟨hsrc', .inl hwf'⟩
        · exact ⟨⟨hsrc'.sys, hsrc'.record, hsrc'.saved⟩, .inr ⟨hr, hwf'⟩⟩

/-- What the steps of a history of lives have stored. -/
theorem Sourced.run {files : DashMap ℕ Bytes} {path : Option Buf}
    (hpath : ∀ buf, path = some buf → cbor.Unloadable buf) {events : List (DiskEvent Buf)}
    (hd : Machine.Along (Node.diskStep cbor password fromSlice) (fun x e _ => x.Disposes cbor e)
      (.init files path) events)
    (hr : Machine.run (Node.diskStep cbor password fromSlice) (.init files path) events = some x) :
    (x.Wf cbor ∨ x.Unread cbor) ∧ x.Sourced fun o v =>
      (o, v) ∈ Machine.trace (Node.diskStep cbor password fromSlice) diskPuts (.init files path)
        events := by
  have hinit : (Node.init files path).Sourced fun _ _ => False :=
    ⟨.init fun o v hv => (by cases (State.Bare.value ⟨rfl, rfl, rfl, rfl⟩ o).symm.trans hv),
      fun sv hsv => (by cases hsv), fun r hr => (by cases hr)⟩
  refine Machine.run_trace_along (h := [])
    (I := fun h (y : Node Buf) => (y.Wf cbor ∨ y.Unread cbor) ∧ y.Sourced fun o v => (o, v) ∈ h)
    (fun h y e y' hy hd hs => ?_) ⟨.inl (.init hpath), hinit.mono fun o v ho => ho.elim⟩ hd hr
  exact (hy.2.diskStep hy.1 (fun o v ho => List.mem_append_left _ ho)
    (fun o v ho => List.mem_append_right _ ho) hd hs).symm

/-- A blob is cached only while its cache is in order. -/
theorem Wf.serving (h : x.Wf cbor) {d : Digest} {b : Blob} (hb : x.sys.st.blobs.lookup d = some b) :
    x.Serving := by
  have hbare (hx : x.sys.st.Bare) : x.Serving := by
    rw [hx.blobs] at hb
    cases hb
  unfold Wf at h
  split at h
  · exact hbare h.1
  · obtain ⟨hsys, hu, r, ⟨-, snap, -, hdur⟩, hres⟩ := h
    exact .of_init hsys (hdur.intact hres hu).inv (hdur.blobSized hres)
  · exact hbare h.1
  · exact hbare h.2.1.toBare
  · exact h.1
  · exact h.toServing

theorem Unread.serving (h : x.Unread cbor) {d : Digest} {b : Blob}
    (hb : x.sys.st.blobs.lookup d = some b) : x.Serving := by
  obtain ⟨hinv, hsized⟩ := h.2.serving hb
  exact ⟨hinv, hsized⟩

end

end Node

/-- In every state of every history of lives, no other entry and no file removal has the id of a
blob. -/
theorem blobs_own_ids {Buf : Type} (cbor : Cbor Buf) (password : Option Bytes)
    (fromSlice : Bytes → Option Json) {files : DashMap ℕ Bytes} {path : Option Buf}
    (hpath : ∀ buf, path = some buf → cbor.Unloadable buf) {events : List (NodeEvent Buf)}
    {x : Node Buf}
    (hr : Machine.run (Node.step cbor password fromSlice) (.init files path) events = some x) :
    x.sys.st.OwnBlobIds := by
  have hwf : x.Wf cbor := (Node.Wf.init hpath).run hr
  have hown {d : Digest} {b : Blob} (hb : x.sys.st.blobs.lookup d = some b) :
      x.sys.st.OwnBlobIds := .of_owned (hwf.serving hb).inv.toOwned
  exact ⟨fun d d' b b' hb => (hown hb).distinct d d' b b' hb, fun d b hb => (hown hb).apart d b hb,
    fun d b hb => (hown hb).kept d b hb⟩

/-- In every state of every history of lives and crashes, a digest or a key stands for bytes
that an upload, a fill or a SET has stored under it, and a GET that is about to reply has a
value that a SET has stored under its key. A life that could not read a snapshot is taken to remove
it. -/
theorem values_stored_under_key {Buf : Type} (cbor : Cbor Buf) (password : Option Bytes)
    (fromSlice : Bytes → Option Json) {files : DashMap ℕ Bytes} {path : Option Buf}
    (hpath : ∀ buf, path = some buf → cbor.Unloadable buf) {events : List (DiskEvent Buf)}
    (hd : Machine.Along (Node.diskStep cbor password fromSlice) (fun x e _ => x.Disposes cbor e)
      (.init files path) events) {x : Node Buf}
    (hr : Machine.run (Node.diskStep cbor password fromSlice) (.init files path) events = some x) :
    (∀ o v, x.sys.st.value o = some v →
      (o, v) ∈ Machine.trace (Node.diskStep cbor password fromSlice) Node.diskPuts
        (.init files path) events) ∧
      ∀ c ∈ x.sys.conns, ∀ g key v, c.phase = .getting g → g.key = some key →
        (g.step x.sys.st).2 = .done (some v) →
        (.inr key, v) ∈ Machine.trace (Node.diskStep cbor password fromSlice) Node.diskPuts
          (.init files path) events := by
  obtain ⟨-, hsrc⟩ := Node.Sourced.run hpath hd hr
  constructor
  · intro o v hv
    exact hsrc.sys.value hv
  · intro c hc g key v hg hk hv
    exact (hsrc.sys.gets c hc g hg).reply hsrc.sys.store hk hv

/-- A life that cannot read the snapshot of the one before and removes it, then one that is saved,
and one in which a client asks for its large value. -/
def thirdRead : List (DiskEvent (Option Snapshot)) :=
  secondLife.map .node ++ [.node (.crash none none), .unread ⟨0, none, 5000⟩ 2 "Interrupted",
    .node (.wipeFile 0), .node (.wipeFile 1), .node (.wiped true), .node (.removeSnapshot true),
    .node (.crash none none)] ++ secondLife.map .node ++
  [.node (.removeSnapshot true), .node (.run (.connect [[utf8 "GET", [107]]])),
    .node (.run (.conn 0)), .node (.run (.conn 0)), .node (.run (.conn 0))]

theorem values_stored_under_key_thirdRead :
    ∃ x, Machine.run (Node.diskStep plainCbor none fun _ => none) (.init ∅ none) thirdRead =
        some x ∧
      x.sys.conns.map Conn.phase = [.getting (.loaded [107] (List.replicate 1025 98))] ∧
      (.inr [107], List.replicate 1025 98) ∈ Machine.trace
        (Node.diskStep plainCbor none fun _ => none) Node.diskPuts (.init ∅ none) thirdRead := by
  have hrun : ((Machine.run (Node.diskStep plainCbor none fun _ => none) (.init ∅ none)
      thirdRead).map fun x => x.sys.conns.map Conn.phase) =
      some [.getting (.loaded [107] (List.replicate 1025 98))] := by decide +kernel
  have hd : Machine.Along (Node.diskStep plainCbor none fun _ => none)
      (fun x e _ => x.Disposes plainCbor e) (.init ∅ none) thirdRead := by decide +kernel
  obtain ⟨x, hr, hx⟩ := Option.map_eq_some_iff.mp hrun
  obtain ⟨c, hc, hphase⟩ : ∃ c ∈ x.sys.conns,
      c.phase = .getting (.loaded [107] (List.replicate 1025 98)) :=
    List.mem_map.mp (hx ▸ List.mem_singleton.mpr rfl)
  have h := (values_stored_under_key plainCbor none _ (fun _ hbuf => by cases hbuf) hd hr).2 c hc _
    [107] (List.replicate 1025 98) hphase rfl rfl
  exact ⟨x, hr, hx, h⟩

def Blob.mediaType : Blob → String
  | .onDisk _ _ mt _ => mt
  | .inMemory _ _ mt _ => mt

def hitHeaders (b : Blob) (d : Digest) (len : ℕ) : List (String × String) :=
  [("content-type", b.mediaType), ("docker-content-digest", d.toText),
    ("content-length", Nat.repr len)]

/-- In every state of every history of lives and crashes in which what was stored hashed to
its digest, a cached blob is served as a whole: GET and HEAD agree on the headers, and the
body has the announced length and hashes to the digest, from whichever tier it comes, if its media
type makes a header. A life that could not read a snapshot is taken to remove it. -/
theorem blob_hits_whole {Buf : Type} (crates : Crates) (streams : Streams) (cbor : Cbor Buf)
    (password : Option Bytes) (fromSlice : Bytes → Option Json) {files : DashMap ℕ Bytes}
    {path : Option Buf} (hpath : ∀ buf, path = some buf → cbor.Unloadable buf)
    {events : List (DiskEvent Buf)}
    (hstored : ∀ d content mt, .node (.run (.storeBlob d content mt)) ∈ events →
      crates.sha256 content = d)
    (hd : Machine.Along (Node.diskStep cbor password fromSlice) (fun x e _ => x.Disposes cbor e)
      (.init files path) events) {x : Node Buf}
    (hr : Machine.run (Node.diskStep cbor password fromSlice) (.init files path) events = some x)
    {d : Digest} {b : Blob} (hb : x.sys.st.blobs.lookup d = some b)
    (hok : streams.headerOk b.mediaType) (host : String) :
    ∃ frames, crates.sha256 frames.flatten = d ∧
      (getHeadBlob streams x.sys.st host d.toText false).2 =
        .response ⟨200, hitHeaders b d frames.flatten.length, frames⟩ ∧
      (getHeadBlob streams x.sys.st host d.toText true).2 =
        .response ⟨200, hitHeaders b d frames.flatten.length, []⟩ := by
  obtain ⟨hw, hsrc⟩ := Node.Sourced.run hpath hd hr
  have hserving := hw.elim (·.serving hb) (·.serving hb)
  have hgenuine {v : Bytes} (hv : x.sys.st.value (.inl d) = some v) : crates.sha256 v = d := by
    obtain ⟨e, he, y, hout⟩ := Machine.mem_trace (hsrc.sys.value hv)
    rcases e with ⟨e⟩ | _
    · cases e with
      | run e =>
        cases e with
        | storeBlob d' content mt =>
          cases List.mem_singleton.mp hout
          exact hstored d v mt he
        | conn i =>
          exact absurd hout (y.sys.not_mem_puts_conn i)
        | _ => cases hout
      | _ => cases hout
    · cases hout
  cases b with
  | inMemory id content mt t =>
    have hv : x.sys.st.value (.inl d) = some content := by
      simp [State.value, hb, State.blobBytes]
    have hok : streams.headerOk mt := hok
    refine ⟨[content], by simpa using hgenuine hv, ?_, ?_⟩ <;>
      simp [getHeadBlob, Digest.fromStr_toText, hb, serveBlobBytes, blobResponse, hok, hitHeaders,
        Blob.mediaType]
  | onDisk id size mt t =>
    have ho : x.sys.store.slot (.inl d) = some (.disk id) := State.slot_blob hb
    obtain ⟨content, hfile, hcreated⟩ := hserving.inv.filed _ _ ho
    obtain ⟨w, hw, hlen⟩ := hserving.sized d id size mt t hb
    obtain rfl : content = w := Option.some.inj (hcreated.symm.trans hw)
    have hfile : x.sys.st.files.lookup id = some content := hfile
    have hv : x.sys.st.value (.inl d) = some content := by
      simp [State.value, hb, State.blobBytes, hfile]
    have hok : streams.headerOk mt := hok
    refine ⟨streams.frames content, ?_, ?_, ?_⟩
    · rw [streams.frames_flatten]
      exact hgenuine hv
    all_goals simp [getHeadBlob, Digest.fromStr_toText, hb, serveDiskBlob, blobResponse, hok, hfile,
      hitHeaders, Blob.mediaType, streams.frames_flatten, hlen]

/-- SHA-256 of 1025 times the letter `b`. -/
def longDigest : Digest :=
  ⟨[0xc2, 0xbc, 0xb9, 0x16, 0x2c, 0xf4, 0x8e, 0xbc, 0x84, 0x13, 0xbb, 0xb9, 0x3b, 0x31, 0xcd, 0x79,
    0x09, 0x13, 0x8e, 0x22, 0xe8, 0xfd, 0x44, 0x03, 0xf3, 0x68, 0xe7, 0xd9, 0x5d, 0x4a, 0x5f, 0xa2],
    rfl⟩

def longCrates : Crates :=
  { tableCrates with
    sha256 := fun content =>
      if content = List.replicate 1025 98 then longDigest else tableCrates.sha256 content }

/-- A first life that stores a large blob and is saved, and the start of the second one. -/
def blobLives : List (DiskEvent (Option Snapshot)) :=
  [.node (.boot ⟨0, none, 5000⟩ 1), .node (.wiped true),
    .node (.run (.storeBlob longDigest (List.replicate 1025 98) "text/plain")), .node .shutdown,
    .node (.save (.blob longDigest)), .node (.save .next), .node (.save .next), .node (.save .next),
    .node (.save .next), .node (.save .next), .node (.save .next), .node (.crash none none),
    .node (.boot ⟨0, none, 5000⟩ 2), .node (.removeSnapshot true)]

theorem blob_hits_whole_blobLives :
    ∃ x, Machine.run (Node.diskStep plainCbor none fun _ => none) (.init ∅ none) blobLives =
        some x ∧
      x.sys.st.blobs.lookup longDigest = some (.onDisk 0 1025 "text/plain" 1) ∧
      ∃ frames, longCrates.sha256 frames.flatten = longDigest ∧
        (getHeadBlob plainStreams x.sys.st "self" longDigest.toText false).2 =
          .response ⟨200, hitHeaders (.onDisk 0 1025 "text/plain" 1) longDigest
            frames.flatten.length, frames⟩ := by
  have hrun : ((Machine.run (Node.diskStep plainCbor none fun _ => none) (.init ∅ none)
      blobLives).map fun x => x.sys.st.blobs.lookup longDigest) =
      some (some (.onDisk 0 1025 "text/plain" 1)) := by decide +kernel
  obtain ⟨x, hr, hx⟩ := Option.map_eq_some_iff.mp hrun
  have hstored (d : Digest) (content : Bytes) (mt : String)
      (h : .node (.run (.storeBlob d content mt)) ∈ blobLives) :
      longCrates.sha256 content = d := by
    simp only [blobLives, List.mem_cons, DiskEvent.node.injEq, NodeEvent.run.injEq,
      CacheEvent.storeBlob.injEq, reduceCtorEq, List.not_mem_nil, or_false, false_or] at h
    rw [h.1, h.2.1]
    simp only [longCrates, if_true]
  have hd : Machine.Along (Node.diskStep plainCbor none fun _ => none)
      (fun x e _ => x.Disposes plainCbor e) (.init ∅ none) blobLives := by decide +kernel
  obtain ⟨frames, hsum, hget, -⟩ := blob_hits_whole longCrates plainStreams plainCbor none _
    (fun _ hbuf => by cases hbuf) hstored hd hr hx rfl "self"
  exact ⟨x, hr, hx, frames, hsum, hget⟩

end Dockfoxprox

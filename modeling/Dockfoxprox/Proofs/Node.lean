import Dockfoxprox.Proofs.Restart

/-! Every life over a data folder starts cold or with what the last completed save had on
record, and in every state of every life the ids own their files. The invariant says, for
each step the process may be about to take, which snapshot file there can be: one that loads
is there only between the end of a save and the end of the load that follows it. -/

namespace Dockfoxprox

open MapSum Tiered

structure State.Bare (s : State) : Prop where
  blobs : s.blobs = ∅
  manifests : s.manifests = ∅
  tags : s.tags = ∅
  redis : s.redisEntries = ∅

/-- A cache that starts cold: nothing in it, nothing counted, and no id given out. -/
structure State.Cold (s : State) : Prop extends s.Bare where
  usage : s.usage = fun _ => 0
  nextId : s.nextId = 0

/-- A snapshot file that does not load. -/
def Cbor.Unloadable {Buf : Type} (cbor : Cbor Buf) (buf : Buf) : Prop :=
  ∀ snap, cbor.decode buf = .ok snap → snap.version ≠ snapshotVersion

theorem Cbor.Unloadable.load {Buf : Type} {cbor : Cbor Buf} {buf : Buf} (h : cbor.Unloadable buf)
    (s : State) : ∃ e, s.load cbor (some buf) = .error (.other e) := by
  unfold State.load
  simp only
  cases hd : cbor.decode buf with
  | error e => exact ⟨_, rfl⟩
  | ok snap =>
    simp only [ne_eq, h snap hd, not_false_eq_true, if_true]
    exact ⟨_, rfl⟩

namespace State

variable {s : State}

theorem Bare.slot (h : s.Bare) (o : Owner) : s.slot o = none := by
  cases o <;> simp [State.slot, h.blobs, h.redis]

theorem Bare.ids (h : s.Bare) : s.ids = [] := by
  simp [State.ids, h.blobs, h.redis]

theorem Bare.inv (h : s.Bare) (hu : s.unlinks = []) : Inv (cacheStore s .begin s.files) := by
  refine Inv.empty h.slot (fun id hi => ?_) rfl
  rcases hi with hi | hi
  · rw [hu] at hi
    cases hi
  · cases hi

theorem Bare.blobSized (h : s.Bare) (created : DashMap ℕ Bytes) : BlobSized s created := by
  intro d id size mt t hd
  rw [h.blobs] at hd
  cases hd

theorem wipeCache_cold (s : State) : s.wipeCache.Cold :=
  ⟨⟨rfl, rfl, rfl, rfl⟩, rfl, rfl⟩

end State

/-- Past the loops, all that is to be saved is on record. -/
def Save.collected (sv : Save) : Bool :=
  match sv.phase with
  | .write _ | .rename | .done => true
  | _ => false

/-- The ids on record were given out. -/
structure Save.Bounded (s : State) (sv : Save) : Prop where
  below : ∀ o x, sv.record.slot o = some x → x.id < s.nextId
  final : sv.collected → ∀ o x, sv.record.slot o = some x → x.id < sv.record.nextId

namespace Save

variable {Buf : Type} {cbor : Cbor Buf} {s : State} {disk : SnapshotFiles Buf} {sv : Save}
  {y : State × SnapshotFiles Buf × Save}

/-- A step of a save writes the file of a slot in memory, or no file. -/
theorem Move.store (hm : Move cbor s disk sv y) (ph : Phase) (created : DashMap ℕ Bytes) :
    y.1 = s ∨
      ∃ o, Tiered.Step (cacheStore s ph created) (.persist o) (cacheStore y.1 ph created) := by
  cases hm with
  | @blob it d b hp hd hb =>
    exact (spill_store (State.slot_blob hb) ph created).imp_right fun h => ⟨_, h⟩
  | @redis it k e hp hk he =>
    exact (spill_store (State.slot_redis he) ph created).imp_right fun h => ⟨_, h⟩
  | _ => exact .inl rfl

theorem Move.frame (hm : Move cbor s disk sv y) :
    y.1.blobs = s.blobs ∧ y.1.nextId = s.nextId := by
  cases hm with
  | @blob it d b hp hd hb => cases spillSlot b.slot <;> exact ⟨rfl, rfl⟩
  | @redis it k e hp hk he => cases spillSlot e.slot <;> exact ⟨rfl, rfl⟩
  | _ => exact ⟨rfl, rfl⟩

/-- Only the last step touches the snapshot file. -/
theorem Move.path (hm : Move cbor s disk sv y) (hd : y.2.2.phase ≠ .done) :
    sv.phase ≠ .done ∧ y.2.1.path = disk.path := by
  cases hm with
  | rename hp => exact absurd rfl hd
  | _ hp =>
    rw [hp]
    exact ⟨by simp, rfl⟩

theorem Bounded.step (h : sv.Bounded s) (hb : ∀ o x, s.slot o = some x → x.id < s.nextId)
    (hm : Move cbor s disk sv y) : y.2.2.Bounded y.1 := by
  have hnext := hm.frame.2
  cases hm with
  | @blob it d b hp hd hl =>
    have ho := State.slot_blob hl
    refine ⟨fun o x hx => ?_, fun hc => by cases hc⟩
    rw [addBlob_slot] at hx
    rw [hnext]
    split at hx
    · cases hx
      exact hb _ _ ho
    · exact h.below o x hx
  | @redis it k e hp hk he =>
    have ho := State.slot_redis he
    refine ⟨fun o x hx => ?_, fun hc => by cases hc⟩
    rw [addRedis_slot] at hx
    rw [hnext]
    split at hx
    · cases hx
      exact hb _ _ ho
    · exact h.below o x hx
  | blobsEnd hp hf => exact ⟨h.below, fun hc => by cases hc⟩
  | manifests hp => exact ⟨h.below, fun hc => by cases hc⟩
  | tags hp => exact ⟨h.below, fun hc => by cases hc⟩
  | redisEnd hp hf => exact ⟨h.below, fun _ => h.below⟩
  | write hp => exact ⟨h.below, fun _ => h.final (by simp [collected, hp])⟩
  | rename hp => exact ⟨h.below, fun _ => h.final (by simp [collected, hp])⟩

end Save

namespace Node

variable {Buf : Type}

theorem boot_eq {cbor : Cbor Buf} (x : Node Buf) (config : Config) (now : ℕ) :
    x.boot cbor config now =
      match ({ State.new config now with files := x.files } : State).load cbor x.disk.path with
      | .ok t => { x with sys := .init t, life := .loaded }
      | .error .missing => { x with
          sys := .init { State.new config now with files := x.files }
          life := .wiping false }
      | .error (.other _) => { x with
          sys := .init { State.new config now with files := x.files }
          life := .wiping true } := by
  unfold Node.boot bootRead
  cases x.disk.path <;> rfl

/-- There is no snapshot file, or it does not load. -/
def NoSnapshot (cbor : Cbor Buf) (x : Node Buf) : Prop :=
  ∀ buf, x.disk.path = some buf → cbor.Unloadable buf

/-- The snapshot file has what the last completed save had on record. -/
def Stored (cbor : Cbor Buf) (x : Node Buf) (r : State) : Prop :=
  x.saved = some r ∧ ∃ snap, x.disk.path = some (cbor.encode snap) ∧ Durable r snap x.files

/-- The cache is in order. -/
structure Serving (x : Node Buf) : Prop where
  inv : Inv x.sys.store
  sized : BlobSized x.sys.st x.sys.created

/-- So it is while a save runs beside detached tasks. -/
structure Saving (cbor : Cbor Buf) (x : Node Buf) (sv : Save) : Prop extends x.Serving where
  idle : x.sys.pass.phase = .begin
  ok : sv.Ok x.sys.st
  progress : sv.Progress cbor x.disk
  bounded : sv.Bounded x.sys.st
  fresh : sv.phase ≠ .done → x.NoSnapshot cbor
  saved : sv.phase = .done → x.saved = some sv.record

def Wf (cbor : Cbor Buf) (x : Node Buf) : Prop :=
  match x.life with
  | .down => x.sys.st.Bare ∧ (x.NoSnapshot cbor ∨ ∃ r, x.Stored cbor r)
  | .loaded => x.sys = .init x.sys.st ∧ x.sys.st.unlinks = [] ∧
      ∃ r, x.Stored cbor r ∧ Restores r x.sys.st
  | .wiping _ => x.sys.st.Bare ∧ x.sys.st.unlinks = [] ∧ x.NoSnapshot cbor
  | .wiped ok => x.sys = .init x.sys.st ∧ x.sys.st.Cold ∧ x.sys.st.unlinks = [] ∧
      (ok → x.files = ∅) ∧ x.NoSnapshot cbor
  | .up => x.Serving ∧ x.NoSnapshot cbor
  | .saving sv => x.Saving cbor sv

section
variable {cbor : Cbor Buf} {x x' : Node Buf}

theorem wf_up (hl : x.life = .up) : x.Wf cbor ↔ x.Serving ∧ x.NoSnapshot cbor := by
  simp only [Wf, hl]

theorem wf_saving {sv : Save} (hl : x.life = .saving sv) : x.Wf cbor ↔ x.Saving cbor sv := by
  simp only [Wf, hl]

theorem Wf.init {files : DashMap ℕ Bytes} {path : Option Buf}
    (hpath : ∀ buf, path = some buf → cbor.Unloadable buf) : (Node.init files path).Wf cbor :=
  ⟨⟨rfl, rfl, rfl, rfl⟩, .inl hpath⟩

/-- What a crash finds: no snapshot that loads, or a stored one with no file being written. -/
theorem Wf.durable (h : x.Wf cbor) :
    x.NoSnapshot cbor ∨ x.writing = [] ∧ ∃ r, x.Stored cbor r := by
  unfold Wf at h
  unfold writing
  split at h <;> rename_i hl <;> rw [hl]
  · exact h.2.imp id fun h => ⟨rfl, h⟩
  · obtain ⟨-, -, r, hr, -⟩ := h
    exact .inr ⟨rfl, r, hr⟩
  · exact .inl h.2.2
  · exact .inl h.2.2.2.2
  · exact .inl h.2
  · rename_i sv
    by_cases hd : sv.phase = .done
    · have hp := h.progress
      simp only [Save.Progress, hd] at hp
      have hdur : Durable sv.record (sv.snapshot sv.record.nextId) x.files :=
        { toHolds := h.ok.holds
          distinct := h.ok.recorded.distinct
          below := h.bounded.final (by simp [Save.collected, hd]) }
      exact .inr ⟨by simp [Save.writing, hd], sv.record, h.saved hd, _, hp, hdur⟩
    · exact .inl (h.fresh hd)

/-- The process stops; what it was writing may be left in any state. -/
theorem Wf.off (h : x.Wf cbor) {files : DashMap ℕ Bytes} (hf : x.writing = [] → files = x.files)
    (hsaved : x'.saved = x.saved) (hpath : x'.disk.path = x.disk.path) :
    (x'.off files).Wf cbor := by
  refine ⟨⟨rfl, rfl, rfl, rfl⟩, ?_⟩
  rcases h.durable with hno | ⟨hw, r, hs, snap, hp, hdur⟩
  · exact .inl fun buf hbuf => hno buf (hpath.symm.trans hbuf)
  · refine .inr ⟨r, hsaved.trans hs, snap, hpath.trans hp, ?_⟩
    rw [hf hw] at *
    exact hdur

theorem Wf.boot (h : x.Wf cbor) (hl : x.life = .down) (config : Config) (now : ℕ) :
    (x.boot cbor config now).Wf cbor := by
  simp only [Wf, hl] at h
  have hbare : ({ State.new config now with files := x.files } : State).Bare := ⟨rfl, rfl, rfl, rfl⟩
  rcases h.2 with hno | ⟨r, hs, snap, hp, hdur⟩
  · cases hpath : x.disk.path with
    | none =>
      have hload : ({ State.new config now with files := x.files } : State).load cbor x.disk.path =
          .error .missing := by rw [hpath]; rfl
      simp only [boot_eq, hload]
      exact ⟨hbare, rfl, hno⟩
    | some buf =>
      obtain ⟨e, he⟩ := (hno buf hpath).load { State.new config now with files := x.files }
      rw [← hpath] at he
      simp only [boot_eq, he]
      exact ⟨hbare, rfl, hno⟩
  · obtain ⟨t, ht, hres, hfiles, hu⟩ := hdur.load cbor config now
    rw [← hp] at ht
    simp only [boot_eq, ht]
    have hdur' : Durable r snap t.files := by
      rw [hfiles]
      exact hdur
    exact ⟨rfl, hu, r, ⟨hs, snap, hp, hdur'⟩, hres⟩

theorem Serving.run {password : Option Bytes} {fromSlice : Bytes → Option Json} {e : CacheEvent}
    {sys : CacheSys} (h : x.Serving) (hs : x.sys.step password fromSlice e = some sys) :
    ({ x with sys := sys } : Node Buf).Serving :=
  ⟨CacheSys.step_keeps (fun _ _ _ hy hop => hy.step hop) h.inv hs, h.sized.step h.inv hs⟩

theorem Saving.run {password : Option Bytes} {fromSlice : Bytes → Option Json} {e : CacheEvent}
    {sys : CacheSys} {sv : Save} (h : x.Saving cbor sv) (hd : e.detached)
    (hs : x.sys.step password fromSlice e = some sys) :
    ({ x with sys := sys } : Node Buf).Saving cbor sv := by
  obtain ⟨hidle, hmild⟩ := CacheSys.step_detached hd h.idle hs
  obtain ⟨hrec, hbelow⟩ := h.ok.recorded.mildly h.bounded.below hmild
  exact
    { toServing := h.toServing.run hs
      idle := hidle
      ok := { h.ok with recorded := hrec }
      progress := h.progress
      bounded := ⟨hbelow, h.bounded.final⟩
      fresh := h.fresh
      saved := h.saved }

/-- A tag touches neither an id nor a file. -/
theorem Serving.tag (h : x.Serving) (ref : String × String) (d : Digest) :
    ({ x with sys := { x.sys with st := { x.sys.st with tags := x.sys.st.tags.insert ref d } } } :
      Node Buf).Serving :=
  ⟨h.inv, h.sized⟩

theorem Saving.tag {sv : Save} (h : x.Saving cbor sv) (ref : String × String) (d : Digest) :
    ({ x with sys := { x.sys with st := { x.sys.st with tags := x.sys.st.tags.insert ref d } } } :
      Node Buf).Saving cbor sv where
  toServing := h.toServing.tag ref d
  idle := h.idle
  ok :=
    { h.ok with
      recorded := ⟨h.ok.recorded.distinct, h.ok.recorded.claimed, h.ok.recorded.backed⟩ }
  progress := h.progress
  bounded := ⟨h.bounded.below, h.bounded.final⟩
  fresh := h.fresh
  saved := h.saved

/-- A save starts once no pass is under way. -/
theorem Serving.shutdown (h : x.Serving) (hno : x.NoSnapshot cbor)
    (hp : x.sys.pass.phase = .begin ∨ x.sys.pass.ended) :
    ({ x with
      sys := { x.sys with pass := .start, conns := [] }
      life := .saving (.start x.sys.st) } : Node Buf).Saving cbor (.start x.sys.st) where
  inv := by
    have hstore := cacheStore_start hp x.sys.st x.sys.created
    exact (congrArg Tiered.Inv hstore).mpr h.inv
  sized := h.sized
  idle := rfl
  ok := .start x.sys.st
  progress := ⟨fun d => by simp [Iter.start, Save.start, State.new], rfl⟩
  bounded := by
    refine ⟨?_, ?_⟩
    · rintro (d | k) y hy <;> cases hy
    · intro hc
      cases hc
  fresh _ := hno
  saved hd := by cases hd

/-- A step of a save, beside which nothing else moves. -/
theorem Saving.save {sv : Save} {e : SaveEvent} (h : x.Saving cbor sv)
    (hs : x.save cbor sv e = some x') : ∃ sv', x'.life = .saving sv' ∧ x'.Saving cbor sv' := by
  obtain ⟨⟨s, disk, sv'⟩, hstep, rfl⟩ := Option.map_eq_some_iff.mp hs
  have hm := Save.move_of_step hstep
  obtain ⟨hblobs, hnext⟩ := hm.frame
  obtain ⟨-, hok, hprog⟩ := h.ok.step (.of_inv h.inv h.sized) h.progress hm
  refine ⟨sv', rfl, ?_⟩
  exact
    { inv := by
        rcases hm.store x.sys.pass.phase x.sys.created with heq | ⟨o, hop⟩
        · exact (congrArg (fun s => Inv (cacheStore s _ _)) heq).mpr h.inv
        · exact h.inv.step hop
      sized := h.sized.of_blobs hblobs
      idle := h.idle
      ok := hok
      progress := hprog
      bounded := h.bounded.step h.inv.below hm
      fresh := fun hd => by
        obtain ⟨hph, hpath⟩ := hm.path hd
        intro buf hbuf
        exact h.fresh hph buf (hpath.symm.trans hbuf)
      saved := fun hd => if_pos hd }

/-- A life goes on from a load or a wipe with its cache in order. -/
theorem Serving.of_init (hsys : x.sys = .init x.sys.st)
    (hinv : Tiered.Inv (cacheStore x.sys.st .begin x.sys.st.files))
    (hsized : BlobSized x.sys.st x.sys.st.files) : x.Serving := by
  constructor
  · rw [CacheSys.store, hsys]
    exact hinv
  · rw [hsys]
    exact hsized

/-- Every step keeps the invariant. -/
theorem Wf.step {password : Option Bytes} {fromSlice : Bytes → Option Json} {e : NodeEvent Buf}
    (h : x.Wf cbor) (hs : x.step cbor password fromSlice e = some x') : x'.Wf cbor := by
  cases e with
  | boot config now =>
    simp only [Node.step] at hs
    split at hs <;> cases hs
    exact h.boot ‹_› config now
  | removeSnapshot ok =>
    simp only [Node.step] at hs
    split at hs
    · rename_i hl
      cases hs
      cases ok with
      | false => exact h.off (fun _ => rfl) rfl rfl
      | true =>
        simp only [Wf, hl] at h
        obtain ⟨hsys, hu, r, ⟨-, snap, -, hdur⟩, hres⟩ := h
        have hserving : x.Serving := .of_init hsys (hdur.intact hres hu).inv (hdur.blobSized hres)
        exact ⟨⟨hserving.inv, hserving.sized⟩, fun buf hbuf => by cases hbuf⟩
    · rename_i hl
      cases hs
      simp only [Wf, hl] at h
      obtain ⟨hsys, hcold, hu, -, hno⟩ := h
      have hserving : x.Serving := .of_init hsys (hcold.inv hu) (hcold.blobSized _)
      refine ⟨⟨hserving.inv, hserving.sized⟩, fun buf hbuf => ?_⟩
      cases ok with
      | false => exact hno buf hbuf
      | true => cases hbuf
    · cases hs
  | wipeFile id =>
    simp only [Node.step] at hs
    split at hs <;> cases hs
    rename_i hl
    simp only [Wf, hl] at h ⊢
    obtain ⟨hbare, hu, hno⟩ := h
    exact ⟨⟨hbare.blobs, hbare.manifests, hbare.tags, hbare.redis⟩, hu, hno⟩
  | wiped ok =>
    simp only [Node.step] at hs
    split at hs
    · rename_i other hl
      split at hs <;> cases hs
      rename_i hok
      simp only [Wf, hl] at h
      obtain ⟨-, hu, hno⟩ := h
      have hcold := x.sys.st.wipeCache_cold
      have hul : x.sys.st.wipeCache.unlinks = [] := hu
      cases other with
      | false => exact ⟨.of_init rfl (hcold.inv hul) (hcold.blobSized _), hno⟩
      | true =>
        refine ⟨rfl, hcold, hul, fun ht => ?_, hno⟩
        exact AList.ext (List.map_eq_nil_iff.mp (hok ht))
    · cases hs
  | run e =>
    simp only [Node.step] at hs
    split at hs
    · rename_i hl
      obtain ⟨sys, hsys, rfl⟩ := Option.map_eq_some_iff.mp hs
      obtain ⟨hserving, hno⟩ := (wf_up hl).mp h
      refine (wf_up ?_).mpr ⟨hserving.run hsys, hno⟩
      exact hl
    · rename_i sv hl
      split at hs
      · rename_i hd
        obtain ⟨sys, hsys, rfl⟩ := Option.map_eq_some_iff.mp hs
        refine (wf_saving ?_).mpr (((wf_saving hl).mp h).run hd hsys)
        exact hl
      · cases hs
    · cases hs
  | tag ref d =>
    simp only [Node.step] at hs
    split at hs
    · rename_i hl
      cases hs
      obtain ⟨hserving, hno⟩ := (wf_up hl).mp h
      refine (wf_up ?_).mpr ⟨hserving.tag ref d, hno⟩
      exact hl
    · rename_i sv hl
      cases hs
      refine (wf_saving ?_).mpr (((wf_saving hl).mp h).tag ref d)
      exact hl
    · cases hs
  | shutdown =>
    simp only [Node.step] at hs
    split at hs
    · rename_i hl
      split at hs <;> cases hs
      obtain ⟨hserving, hno⟩ := (wf_up hl).mp h
      exact hserving.shutdown hno ‹_›
    · cases hs
  | save e =>
    simp only [Node.step] at hs
    split at hs
    · rename_i sv hl
      obtain ⟨sv', hl', h'⟩ := ((wf_saving hl).mp h).save hs
      exact (wf_saving hl').mpr h'
    · cases hs
  | crash file tmp =>
    simp only [Node.step] at hs
    split at hs <;> cases hs
    rename_i hc
    refine h.off (fun hw => ?_) rfl rfl
    cases file with
    | none => rfl
    | some f =>
      have hf := hc.1 f rfl
      rw [hw] at hf
      cases hf

theorem Wf.run {password : Option Bytes} {fromSlice : Bytes → Option Json}
    {events : List (NodeEvent Buf)} (h : x.Wf cbor)
    (hr : Machine.run (Node.step cbor password fromSlice) x events = some x') : x'.Wf cbor :=
  Machine.run_invariant (C := fun _ _ _ => True) (fun _ _ _ hy _ hs => hy.step hs) h
    (Machine.along_true _ _) hr

/-- Whatever the process is about to do, each id belongs to one entry and was given out. -/
theorem Wf.ids (h : x.Wf cbor) :
    x.sys.st.ids.Nodup ∧ ∀ id ∈ x.sys.st.ids, id < x.sys.st.nextId := by
  have hbare (hb : x.sys.st.Bare) :
      x.sys.st.ids.Nodup ∧ ∀ id ∈ x.sys.st.ids, id < x.sys.st.nextId := by
    simp [hb.ids]
  have hserving (hx : x.Serving) :
      x.sys.st.ids.Nodup ∧ ∀ id ∈ x.sys.st.ids, id < x.sys.st.nextId := by
    refine ⟨State.nodup_ids.mpr hx.inv.distinct, fun id hid => ?_⟩
    obtain ⟨o, y, hy, rfl⟩ := State.mem_ids.mp hid
    exact hx.inv.below o y hy
  unfold Wf at h
  split at h
  · exact hbare h.1
  · obtain ⟨-, hu, r, ⟨-, snap, -, hdur⟩, hres⟩ := h
    have hintact := hdur.intact hres hu
    exact ⟨hintact.distinct, hintact.below⟩
  · exact hbare h.1
  · exact hbare h.2.1.toBare
  · exact hserving h.1
  · exact hserving h.toServing

/-- The step ends a wipe whose `remove_dir_all` returned an error. -/
def wipeFailed (x : Node Buf) : NodeEvent Buf → Bool
  | .wiped ok => !ok
  | .removeSnapshot _ => match x.life with | .wiped ok => !ok | _ => false
  | _ => false

/-- What a step that ends `load_or_wipe` leaves. -/
theorem Wf.started {password : Option Bytes} {fromSlice : Bytes → Option Json}
    {e : NodeEvent Buf} (h : x.Wf cbor) (hs : x.step cbor password fromSlice e = some x')
    (hl : x.life ≠ .up) (hl' : x'.life = .up) :
    (x'.sys.st.Cold ∧ (¬ x.wipeFailed e → x'.files = ∅)) ∨
      ∃ r, x'.saved = some r ∧ Restores r x'.sys.st := by
  cases e with
  | boot config now =>
    simp only [Node.step] at hs
    split at hs <;> cases hs
    rw [boot_eq] at hl'
    split at hl' <;> cases hl'
  | removeSnapshot ok =>
    simp only [Node.step] at hs
    split at hs
    · rename_i hload
      simp only [Wf, hload] at h
      obtain ⟨-, -, r, ⟨hsaved, -⟩, hres⟩ := h
      cases hs
      cases ok with
      | false => cases hl'
      | true => exact .inr ⟨r, hsaved, hres⟩
    · rename_i ok' hwiped
      simp only [Wf, hwiped] at h
      obtain ⟨-, hcold, -, hfiles, -⟩ := h
      cases hs
      refine .inl ⟨hcold, fun hf => hfiles ?_⟩
      simpa [wipeFailed, hwiped] using hf
    · cases hs
  | wipeFile id =>
    simp only [Node.step] at hs
    split at hs <;> cases hs
    exact absurd hl' hl
  | wiped ok =>
    simp only [Node.step] at hs
    split at hs
    · split at hs <;> cases hs
      rename_i hok
      refine .inl ⟨x.sys.st.wipeCache_cold, fun hf => ?_⟩
      have ht : ok = true := by simpa [wipeFailed] using hf
      exact AList.ext (List.map_eq_nil_iff.mp (hok ht))
    · cases hs
  | run e =>
    simp only [Node.step] at hs
    split at hs
    · exact absurd ‹_› hl
    · split at hs
      · obtain ⟨sys, -, rfl⟩ := Option.map_eq_some_iff.mp hs
        exact absurd hl' hl
      · cases hs
    · cases hs
  | tag ref d =>
    simp only [Node.step] at hs
    split at hs <;> cases hs <;> exact absurd hl' hl
  | shutdown =>
    simp only [Node.step] at hs
    cases hs
  | save e =>
    simp only [Node.step] at hs
    split at hs
    · obtain ⟨r, -, rfl⟩ := Option.map_eq_some_iff.mp hs
      cases hl'
    · cases hs
  | crash file tmp =>
    simp only [Node.step] at hs
    split at hs <;> cases hs
    cases hl'

end

end Node

/-- In every state of every history of lives and crashes, the ids of the blobs and the Redis
entries are pairwise distinct and were given out, and with 64-bit ids no two of them have one
path. -/
theorem ids_own_files {Buf : Type} (cbor : Cbor Buf) (password : Option Bytes)
    (fromSlice : Bytes → Option Json) {files : DashMap ℕ Bytes} {path : Option Buf}
    (hpath : ∀ buf, path = some buf → cbor.Unloadable buf) {events : List (NodeEvent Buf)}
    {x : Node Buf}
    (hr : Machine.run (Node.step cbor password fromSlice) (.init files path) events = some x) :
    x.sys.st.ids.Nodup ∧ (∀ id ∈ x.sys.st.ids, id < x.sys.st.nextId) ∧
      ∀ dataFolder, x.sys.st.nextId ≤ 2 ^ 64 →
        (x.sys.st.ids.map (cachePath dataFolder)).Nodup := by
  obtain ⟨hnodup, hlt⟩ := ((Node.Wf.init hpath).run hr).ids
  refine ⟨hnodup, hlt, fun dataFolder hbound => ?_⟩
  refine List.Nodup.map_on (fun a ha b hb hab => ?_) hnodup
  exact cachePath_inj (Nat.lt_of_lt_of_le (hlt a ha) hbound) (Nat.lt_of_lt_of_le (hlt b hb) hbound)
    hab

def keptDigest : Digest := ⟨List.replicate 32 31, rfl⟩

/-- A first life that stores a blob and a large value, is saved and ends, and the load of the
second life. -/
def secondLife : List (NodeEvent (Option Snapshot)) :=
  [.boot ⟨0, none, 5000⟩ 1, .wiped true, .run (.storeBlob keptDigest [97] "text/plain"),
    .run (.connect [[utf8 "SET", [107], List.replicate 1025 98]]), .run (.conn 0), .shutdown,
    .save (.blob keptDigest), .save .next, .save .next, .save .next, .save (.redis [107]),
    .save .next, .save .next, .save .next, .crash none none, .boot ⟨0, none, 5000⟩ 2]

theorem ids_own_files_secondLife :
    ∃ x, Machine.run (Node.step plainCbor none fun _ => none) (.init ∅ none) secondLife = some x ∧
      x.sys.st.ids = [0, 1] ∧ (x.sys.st.ids.map (cachePath "data")).Nodup := by
  have hrun : ((Machine.run (Node.step plainCbor none fun _ => none) (.init ∅ none)
      secondLife).map fun x => (x.sys.st.ids, x.sys.st.nextId)) = some ([0, 1], 2) := by
    decide +kernel
  obtain ⟨x, hr, hx⟩ := Option.map_eq_some_iff.mp hrun
  obtain ⟨hids, hnext⟩ := Prod.mk.inj hx
  have h := (ids_own_files plainCbor none _ (fun _ hbuf => by cases hbuf) hr).2.2 "data"
    (by rw [hnext]; decide)
  exact ⟨x, hr, hids, h⟩

/-- In every history of lives and crashes over a folder that has no snapshot to load at first,
each `load_or_wipe` that completes leaves a cold cache, without a file unless removing the
files failed, or what the last completed save had on record. -/
theorem starts_cold_or_restored {Buf : Type} (cbor : Cbor Buf) (password : Option Bytes)
    (fromSlice : Bytes → Option Json) {files : DashMap ℕ Bytes} {path : Option Buf}
    (hpath : ∀ buf, path = some buf → cbor.Unloadable buf) {events : List (NodeEvent Buf)}
    {x x' : Node Buf} {e : NodeEvent Buf}
    (hr : Machine.run (Node.step cbor password fromSlice) (.init files path) events = some x)
    (hs : x.step cbor password fromSlice e = some x') (hl : x.life ≠ .up) (hl' : x'.life = .up) :
    (x'.sys.st.Cold ∧ (¬ x.wipeFailed e → x'.files = ∅)) ∨
      ∃ r, x'.saved = some r ∧ Restores r x'.sys.st :=
  ((Node.Wf.init hpath).run hr).started hs hl hl'

theorem starts_cold_or_restored_secondLife :
    ∃ x x' r, Machine.run (Node.step plainCbor none fun _ => none) (.init ∅ none) secondLife =
      some x ∧ x.step plainCbor none (fun _ => none) (.removeSnapshot true) = some x' ∧
      x'.saved = some r ∧ Restores r x'.sys.st ∧ x'.sys.st.ids = [0, 1] := by
  have hrun : ((Machine.run (Node.step plainCbor none fun _ => none) (.init ∅ none)
      secondLife).map fun x => (x.sys.st.ids, match x.life with | .loaded => true | _ => false)) =
      some ([0, 1], true) := by decide +kernel
  obtain ⟨x, hr, hx⟩ := Option.map_eq_some_iff.mp hrun
  obtain ⟨hids, hlife⟩ := Prod.mk.inj hx
  have hl : x.life = .loaded := by
    split at hlife
    · assumption
    · cases hlife
  have hs : x.step plainCbor none (fun _ => none) (.removeSnapshot true) =
      some { x with life := .up, disk.path := none } := by
    simp only [Node.step, hl, if_true]
  rcases starts_cold_or_restored plainCbor none _ (fun _ hbuf => by cases hbuf) hr hs
    (by rw [hl]; simp) rfl with hcold | ⟨r, hsaved, hres⟩
  · have hempty : x.sys.st.ids = [] := hcold.1.toBare.ids
    rw [hids] at hempty
    cases hempty
  · exact ⟨x, _, r, hr, hs, hsaved, hres, hids⟩

end Dockfoxprox

import Dockfoxprox.Model.Blobs
import Dockfoxprox.Proofs.Leaks

/-! A blob is served alike from memory and from disk. What a blob stands for, its bytes and
its media type, is kept by every step of eviction passes that run alone, and it is all that
a response depends on. -/

namespace Dockfoxprox

open MapSum

/-- The bytes and the media type that a blob stands for. -/
def Blob.Shows (files : DashMap ℕ Bytes) : Blob → Bytes × String → Prop
  | .inMemory _ content mt _, v => v = (content, mt)
  | .onDisk id size mt _, v => files.lookup id = some v.1 ∧ size = v.1.length ∧ v.2 = mt

def Blob.shown (files : DashMap ℕ Bytes) : Blob → Option (Bytes × String)
  | .inMemory _ content mt _ => some (content, mt)
  | .onDisk id _ mt _ => (files.lookup id).map fun content => (content, mt)

namespace State

def shown (s : State) (d : Digest) : Option (Bytes × String) :=
  (s.blobs.lookup d).bind (Blob.shown s.files)

/-- Every blob on disk has a file that holds as many bytes as the entry says. -/
def BlobsFiled (s : State) : Prop :=
  ∀ d id size mt t, s.blobs.lookup d = some (.onDisk id size mt t) →
    ∃ content, s.files.lookup id = some content ∧ content.length = size

/-- No other blob, no Redis entry and no file removal in waiting has the id of a blob. -/
structure OwnBlobIds (s : State) : Prop where
  distinct : ∀ d d' b b', s.blobs.lookup d = some b → s.blobs.lookup d' = some b' →
    b.id = b'.id → d = d'
  apart : ∀ d b, s.blobs.lookup d = some b → ∀ k e, s.redisEntries.lookup k = some e → e.id ≠ b.id
  kept : ∀ d b, s.blobs.lookup d = some b → b.id ∉ s.unlinks

end State

@[simp] theorem BlobReply.body_joined (r : BlobReply) : r.joined.body = r.body := by
  cases r with
  | response r => simp [BlobReply.joined, BlobReply.body]
  | _ => rfl

/-- The reply for a blob depends on what it stands for alone. -/
theorem getHeadBlob_joined (streams : Streams) {s : State} {text : String} {d : Digest} {b : Blob}
    {v : Bytes × String} (ht : Digest.fromStr text = some d) (hb : s.blobs.lookup d = some b)
    (hv : b.Shows s.files v) (host : String) (head : Bool) :
    (getHeadBlob streams s host text head).2.joined =
      blobResponse streams v.2 d v.1.length [if head then [] else v.1] := by
  have hjoin (mt : String) (len : ℕ) (frames : List Bytes) :
      (blobResponse streams mt d len frames).joined =
        blobResponse streams mt d len [frames.flatten] := by
    unfold blobResponse
    split <;> rfl
  simp only [getHeadBlob, ht, hb]
  cases b with
  | inMemory id content mt t =>
    obtain rfl : v = (content, mt) := hv
    simp only [serveBlobBytes, hjoin]
    cases head <;> simp
  | onDisk id size mt t =>
    obtain ⟨hfile, rfl, rfl⟩ := hv
    cases head with
    | true => simp [serveDiskBlob, hjoin]
    | false => simp [serveDiskBlob, hfile, hjoin, streams.frames_flatten]

theorem Blob.Shows.of_files {files files' : DashMap ℕ Bytes} {b : Blob} {v : Bytes × String}
    (h : b.Shows files v) (hf : files'.lookup b.id = files.lookup b.id) : b.Shows files' v := by
  cases b with
  | inMemory id content mt t => exact h
  | onDisk id size mt t => exact ⟨hf.trans h.1, h.2⟩

/-- No id is new in a state that a pass leaves. -/
theorem State.OwnBlobIds.mono {s s' : State} (h : s.OwnBlobIds)
    (hb : ∀ d b', s'.blobs.lookup d = some b' → ∃ b, s.blobs.lookup d = some b ∧ b.id = b'.id)
    (hr : ∀ k e', s'.redisEntries.lookup k = some e' →
      ∃ e, s.redisEntries.lookup k = some e ∧ e.id = e'.id)
    (hu : ∀ id ∈ s'.unlinks, id ∈ s.unlinks ∨ ∃ k e, s.redisEntries.lookup k = some e ∧ e.id = id) :
    s'.OwnBlobIds := by
  constructor
  · intro d d' b b' hd hd' hid
    obtain ⟨b₀, h₀, i₀⟩ := hb d b hd
    obtain ⟨b₁, h₁, i₁⟩ := hb d' b' hd'
    exact h.distinct d d' b₀ b₁ h₀ h₁ (by rw [i₀, i₁, hid])
  · intro d b hd k e he
    obtain ⟨b₀, h₀, i₀⟩ := hb d b hd
    obtain ⟨e₀, h₁, i₁⟩ := hr k e he
    rw [← i₀, ← i₁]
    exact h.apart d b₀ h₀ k e₀ h₁
  · intro d b hd hmem
    obtain ⟨b₀, h₀, i₀⟩ := hb d b hd
    rcases hu _ hmem with hold | ⟨k, e, he, hid⟩
    · exact h.kept d b₀ h₀ (i₀ ▸ hold)
    · exact h.apart d b₀ h₀ k e he (by rw [hid, i₀])

namespace Pass

/-- What passes that run alone keep of the blobs, `v` being what they stood for. -/
structure Told (fromSlice : Bytes → Option Json) (v : Digest → Option (Bytes × String)) (s : State)
    (p : Pass) : Prop where
  steady : Steady fromSlice s p
  own : s.OwnBlobIds
  doomed : ∀ d b, s.blobs.lookup d = some b → p.phase.unlinking ≠ some b.id
  shows : ∀ d b, s.blobs.lookup d = some b → ∃ w, v d = some w ∧ b.Shows s.files w
  written : ∀ sp r held, p.phase = .spillInsert sp r held →
    s.files.lookup held.id = some held.content

variable {fromSlice : Bytes → Option Json} {v : Digest → Option (Bytes × String)} {s s' : State}
  {p p' : Pass} {c : Choice} {a : Act}

theorem Told.frame (h : Told fromSlice v s p) (hb : s'.blobs = s.blobs)
    (hr : s'.redisEntries = s.redisEntries) (hf : s'.files = s.files) (hu : s'.unlinks = s.unlinks)
    (hst : Steady fromSlice s' p') (hun : p'.phase.unlinking = none)
    (hw : ∀ sp r held, p'.phase ≠ .spillInsert sp r held) : Told fromSlice v s' p' := by
  refine ⟨hst, ?_, fun d b _ => by simp [hun], ?_, fun sp r held hp => absurd hp (hw sp r held)⟩
  · refine h.own.mono (fun d b hd => ⟨b, hb ▸ hd, rfl⟩) (fun k e he => ⟨e, hr ▸ he, rfl⟩)
      fun id hid => .inl (hu ▸ hid)
  · rw [hb, hf]
    exact h.shows

theorem still_frame {a : Act} (h : a.still) (s : State) :
    (a.apply s).blobs = s.blobs ∧ (a.apply s).redisEntries = s.redisEntries ∧
      (a.apply s).files = s.files ∧ (a.apply s).unlinks = s.unlinks := by
  cases a with
  | markEvicted d =>
    simp only [Act.apply]
    split <;> exact ⟨rfl, rfl, rfl, rfl⟩
  | dropManifest d =>
    obtain ⟨u, hs⟩ := removeManifest_eq s d
    simp only [Act.apply, hs, and_self]
  | idle | countRun | retainTags | publish | store => exact ⟨rfl, rfl, rfl, rfl⟩
  | _ => cases h

theorem Told.still (h : Told fromSlice v s p) (ha : a.still)
    (hst : Steady fromSlice (a.apply s) p') (hun : p'.phase.unlinking = none)
    (hw : ∀ sp r held, p'.phase ≠ .spillInsert sp r held) : Told fromSlice v (a.apply s) p' := by
  obtain ⟨hb, hr, hf, hu⟩ := still_frame ha s
  exact h.frame hb hr hf hu hst hun hw

/-- A file is written under an id that belongs to no blob on disk. -/
theorem Told.writeFile (h : Told fromSlice v s p) {id : ℕ} {content : Bytes}
    (hid : ∀ d b, s.blobs.lookup d = some b → b.id = id → ∃ c mt t, b = .inMemory id c mt t)
    (hst : Steady fromSlice ((Act.writeFile id content).apply s) p')
    (hun : p'.phase.unlinking = none)
    (hw : ∀ sp r held, p'.phase = .spillInsert sp r held → held.id = id ∧ held.content = content) :
    Told fromSlice v ((Act.writeFile id content).apply s) p' := by
  refine ⟨hst, ?_, fun d b _ => by simp [hun], fun d b hd => ?_, fun sp r held hp => ?_⟩
  · exact h.own.mono (fun d b hd => ⟨b, hd, rfl⟩) (fun k e he => ⟨e, he, rfl⟩) fun _ hi => .inl hi
  · obtain ⟨w, hvw, hsh⟩ := h.shows d b hd
    refine ⟨w, hvw, ?_⟩
    by_cases hbid : b.id = id
    · obtain ⟨c, mt, t, rfl⟩ := hid d b hd hbid
      exact hsh
    · exact hsh.of_files (AList.lookup_insert_ne hbid)
  · obtain ⟨rfl, rfl⟩ := hw sp r held hp
    exact AList.lookup_insert s.files

/-- The file of an id that belongs to no blob is removed. -/
theorem Told.removeFile (h : Told fromSlice v s p) {id : ℕ}
    (hid : ∀ d b, s.blobs.lookup d = some b → b.id ≠ id)
    (hst : Steady fromSlice (s.removeFile id) p') (hun : p'.phase.unlinking = none)
    (hw : ∀ sp r held, p'.phase ≠ .spillInsert sp r held) :
    Told fromSlice v (s.removeFile id) p' := by
  refine ⟨hst, ?_, fun d b _ => by simp [hun], fun d b hd => ?_,
    fun sp r held hp => absurd hp (hw sp r held)⟩
  · exact h.own.mono (fun d b hd => ⟨b, hd, rfl⟩) (fun k e he => ⟨e, he, rfl⟩) fun _ hi => .inl hi
  · obtain ⟨w, hvw, hsh⟩ := h.shows d b hd
    exact ⟨w, hvw, hsh.of_files (AList.lookup_erase_ne (hid d b hd))⟩

/-- A blob is removed, and the pass goes on to remove its file. -/
theorem Told.dropBlob (h : Told fromSlice v s p) {r : Digest} {blob : Blob}
    (hl : s.blobs.lookup r = some blob)
    (hst : Steady fromSlice ((Act.dropBlob r).apply s) p')
    (hun : ∀ id, p'.phase.unlinking = some id → blob.id = id)
    (hw : ∀ sp r held, p'.phase ≠ .spillInsert sp r held) :
    Told fromSlice v ((Act.dropBlob r).apply s) p' := by
  have hmem : ∀ d b, ((Act.dropBlob r).apply s).blobs.lookup d = some b →
      s.blobs.lookup d = some b ∧ d ≠ r := by
    intro d b hd
    rw [Act.apply_blobs, Act.onBlobs, lookup_erase_apply] at hd
    split at hd
    · cases hd
    · exact ⟨hd, ‹_›⟩
  obtain ⟨u, hs⟩ := removeBlob_eq s r
  have hfiles : ((Act.dropBlob r).apply s).files = s.files := by simp only [Act.apply, hs]
  have hunl : ((Act.dropBlob r).apply s).unlinks = s.unlinks := by simp only [Act.apply, hs]
  refine ⟨hst, ?_, fun d b hd hph => ?_, fun d b hd => ?_, fun sp r held hp => absurd hp (hw sp r held)⟩
  · refine h.own.mono (fun d b hd => ⟨b, (hmem d b hd).1, rfl⟩) (fun k e he => ⟨e, ?_, rfl⟩)
      fun id hid => .inl (hunl ▸ hid)
    simpa [Act.onRedis] using he
  · obtain ⟨hold, hne⟩ := hmem d b hd
    exact hne (h.own.distinct d r b blob hold hl (hun b.id hph).symm)
  · rw [hfiles]
    exact h.shows d b (hmem d b hd).1

theorem Told.step (h : Told fromSlice v s p) (hw : c.write = .ok)
    (hs : Step fromSlice s p c a p') : Told fromSlice v (a.apply s) p' := by
  have hst := h.steady.step hs
  cases hs with
  | @dropRedis hp pool b key t size rest e hb ha hpop he =>
    obtain ⟨u, hr⟩ := s.removeRedis_eq key
    refine ⟨hst, h.own.mono (fun d b hd => ⟨b, ?_, rfl⟩) (fun k e' he' => ⟨e', ?_, rfl⟩)
      (fun id hid => ?_), fun d b _ => by simp [hp, Phase.unlinking], ?_, ?_⟩
    · simpa [Act.onBlobs] using hd
    · rw [Act.apply_redisEntries] at he'
      exact lookup_of_erase he'
    · simp only [Act.apply, hr, List.mem_append, State.mem_oldIds] at hid
      rcases hid with hid | ⟨n, t', hold⟩
      · exact .inl hid
      · exact .inr ⟨key, _, hold, rfl⟩
    · simpa [Act.apply, hr] using h.shows
    · intro sp r held hph
      rw [credit_phase, popped_phase, hp] at hph
      cases hph
  | @redisWrite key size t value id hp hwr =>
    have hh := h.steady.holds (g := ⟨.inr key, id, value, false⟩) (by rw [hp]; rfl)
    rw [hp] at hh
    obtain ⟨⟨t', hl⟩, -⟩ := hh
    exact h.writeFile (fun d b hd hid => absurd hid.symm (h.own.apart d b hd key _ hl)) hst rfl
      (by simp)
  | @spillWrite sp r held hp hwr =>
    have hh := h.steady.holds (g := ⟨.inl r, held.id, held.content, false⟩) (by rw [hp]; rfl)
    rw [hp] at hh
    obtain ⟨hl, -⟩ := hh
    refine h.writeFile (fun d b hd hid => ?_) hst rfl fun sp' r' held' hph => ?_
    · obtain rfl := h.own.distinct d r b _ hd hl hid
      rw [hl, Option.some.injEq] at hd
      exact ⟨_, _, _, hd.symm⟩
    · cases hph
      exact ⟨rfl, rfl⟩
  | @spillInsert sp r held hp =>
    have hh := h.steady.holds (g := ⟨.inl r, held.id, held.content, true⟩) (by rw [hp]; rfl)
    rw [hp] at hh
    obtain ⟨hl, -⟩ := hh
    obtain ⟨u, hi⟩ := insertBlob_eq s r
      (.onDisk held.id held.content.length held.mediaType held.lastAccessed)
    refine ⟨hst, h.own.mono (fun d b hd => ?_) (fun k e he => ⟨e, ?_, rfl⟩) (fun id hid => .inl ?_),
      fun d b _ => by simp [Phase.unlinking], fun d b hd => ?_, by simp⟩
    · rw [Act.apply_blobs, Act.onBlobs, lookup_insert_apply] at hd
      split at hd
      · rename_i hdr
        cases hd
        exact ⟨.inMemory held.id held.content held.mediaType held.lastAccessed, by rw [hdr, hl], rfl⟩
      · exact ⟨b, hd, rfl⟩
    · simpa [Act.onRedis] using he
    · simpa [Act.apply, hi] using hid
    · rw [Act.apply_blobs, Act.onBlobs, lookup_insert_apply] at hd
      have hfiles : ((Act.moveBlob r (.onDisk held.id held.content.length held.mediaType
          held.lastAccessed)).apply s).files = s.files := by simp only [Act.apply, hi]
      rw [hfiles]
      split at hd
      · rename_i hdr
        cases hd
        obtain ⟨w, hv, rfl⟩ := h.shows r _ hl
        exact ⟨_, hdr ▸ hv, h.written sp r held hp, rfl, rfl⟩
      · exact h.shows d b hd
  | @redisInsert key size t value id hp =>
    have hh := h.steady.holds (g := ⟨.inr key, id, value, true⟩) (by rw [hp]; rfl)
    rw [hp] at hh
    obtain ⟨⟨t', hl⟩, -⟩ := hh
    refine ⟨hst, h.own.mono (fun d b hd => ⟨b, hd, rfl⟩) (fun k e he => ?_) (fun _ hi => .inl hi),
      fun d b _ => by simp [Phase.unlinking], h.shows, by simp⟩
    rw [Act.apply_redisEntries, Act.onRedis, lookup_insert_apply] at he
    split at he
    · rename_i hk
      cases he
      exact ⟨.inMemory value id t', by rw [hk, hl], rfl⟩
    · exact ⟨e, he, rfl⟩
  | writeFailed hp hwr => rw [hw] at hwr; cases hwr
  | @cascadeDrop old r todo bb blob hp hb hr ht hl =>
    refine h.dropBlob hl hst (fun id hid => ?_) ?_
    all_goals cases blob <;> simp_all [afterCascade, Phase.unlinking, Blob.id]
  | @sweepDrop todo d bb blob hp hd hb hr ht hl =>
    refine h.dropBlob hl hst (fun id hid => ?_) ?_
    all_goals cases blob <;> simp_all [afterSweep, Phase.unlinking, Blob.id]
  | cascadeUnlink hp | sweepUnlink hp =>
    unfold Pass.unlink at hst ⊢
    by_cases hc : c.unlinked = true
    · rw [if_pos hc] at hst ⊢
      refine h.removeFile (fun d b hd hid => h.doomed d b hd ?_) hst rfl (by simp)
      rw [hp, hid]
      rfl
    · rw [if_neg hc] at hst ⊢
      exact h.still rfl hst rfl (by simp)
  | stale hp _ _ _ => exact h.still rfl hst (by simp [hp, Phase.unlinking]) (by simp [hp])
  | _ hp => exact h.still rfl hst rfl (by simp)

theorem Told.start (h : s.OwnBlobIds) (hf : s.BlobsFiled) : Told fromSlice s.shown s .start := by
  refine ⟨rfl, h, fun d b _ => by simp [Pass.start, Phase.unlinking], fun d b hd => ?_,
    by simp [Pass.start]⟩
  cases b with
  | inMemory id content mt t => exact ⟨(content, mt), by simp [State.shown, hd, Blob.shown], rfl⟩
  | onDisk id size mt t =>
    obtain ⟨content, hfile, hlen⟩ := hf d id size mt t hd
    exact ⟨(content, mt), by simp [State.shown, hd, Blob.shown, hfile], hfile, hlen.symm, rfl⟩

end Pass

namespace CacheSys

variable {password : Option Bytes} {fromSlice : Bytes → Option Json}
  {v : Digest → Option (Bytes × String)} {x x' : CacheSys} {e : CacheEvent}

theorem told_step (h : Pass.Told fromSlice v x.st x.pass) (he : e.OfPasses)
    (hs : x.step password fromSlice e = some x') : Pass.Told fromSlice v x'.st x'.pass := by
  cases e with
  | tick now =>
    cases hs
    exact ⟨h.steady.frame rfl rfl rfl, ⟨h.own.distinct, h.own.apart, h.own.kept⟩, h.doomed, h.shows,
      h.written⟩
  | unlink i =>
    obtain ⟨s', hu, rfl⟩ := Option.map_eq_some_iff.mp hs
    unfold State.runUnlink at hu
    split at hu <;> cases hu
    rename_i id hi
    have hid : ∀ d b, x.st.blobs.lookup d = some b → b.id ≠ id :=
      fun d b hd hb => h.own.kept d b hd (hb ▸ List.mem_of_getElem? hi)
    refine ⟨h.steady.frame rfl rfl rfl, ?_, h.doomed, fun d b hd => ?_, fun sp r held hp => ?_⟩
    · exact h.own.mono (fun d b hd => ⟨b, hd, rfl⟩) (fun k e he => ⟨e, he, rfl⟩)
        fun _ hj => .inl (List.mem_of_mem_eraseIdx hj)
    · obtain ⟨w, hv, hsh⟩ := h.shows d b hd
      exact ⟨w, hv, hsh.of_files (AList.lookup_erase_ne (hid d b hd))⟩
    · have hh := h.steady.holds (g := ⟨.inl r, held.id, held.content, true⟩) (by rw [hp]; rfl)
      rw [hp] at hh
      have hne : held.id ≠ id := hid r _ hh.1
      exact (AList.lookup_erase_ne hne).trans (h.written sp r held hp)
  | evict c =>
    obtain ⟨⟨a, p'⟩, hn, rfl⟩ := Option.map_eq_some_iff.mp hs
    exact h.step he (Pass.step_of_next hn)
  | nextPass =>
    simp only [CacheSys.step] at hs
    split at hs <;> cases hs
    exact h.frame rfl rfl rfl rfl rfl rfl (by simp [Pass.start])
  | _ => cases he

end CacheSys

/-- Eviction passes do not change how a blob that stays is served, and the length announced
is always that of the body. -/
theorem blob_replies_kept (streams : Streams) (password : Option Bytes)
    (fromSlice : Bytes → Option Json) {s : State} (hids : s.OwnBlobIds) (hf : s.BlobsFiled)
    {events : List CacheEvent} (hev : ∀ e ∈ events, e.OfPasses) {x : CacheSys}
    (hr : Machine.run (CacheSys.step password fromSlice) (.init s) events = some x)
    {text : String} {d : Digest} (ht : Digest.fromStr text = some d) (hd : d ∈ x.st.blobs)
    (host : String) :
    (∀ head, (getHeadBlob streams x.st host text head).2.joined =
      (getHeadBlob streams s host text head).2.joined) ∧
    ∀ head r, (getHeadBlob streams x.st host text head).2 = .response r →
      r.headers.lookup "content-length" =
        some (Nat.repr (getHeadBlob streams x.st host text false).2.body.length) := by
  have h₀ : Pass.Told fromSlice s.shown s .start := .start hids hf
  have htold : Pass.Told fromSlice s.shown x.st x.pass :=
    Machine.run_invariant_of_mem (I := fun y => Pass.Told fromSlice s.shown y.st y.pass)
      (fun _ _ _ hy he hs => CacheSys.told_step hy he hs) h₀ hev hr
  obtain ⟨b, hb⟩ := Option.isSome_iff_exists.mp (AList.lookup_isSome.mpr hd)
  obtain ⟨w, hw, hshows⟩ := htold.shows d b hb
  have hold : ∃ b₀, s.blobs.lookup d = some b₀ ∧ b₀.Shows s.files w := by
    obtain ⟨b₀, hb₀, -⟩ := Option.bind_eq_some_iff.mp hw
    obtain ⟨w', hw', hsh⟩ := h₀.shows d b₀ hb₀
    obtain rfl : w = w' := Option.some.inj (hw.symm.trans hw')
    exact ⟨b₀, hb₀, hsh⟩
  obtain ⟨b₀, hb₀, hshows₀⟩ := hold
  refine ⟨fun head => ?_, fun head r hreply => ?_⟩
  · rw [getHeadBlob_joined streams ht hb hshows, getHeadBlob_joined streams ht hb₀ hshows₀]
  · have hjoin := getHeadBlob_joined streams ht hb hshows host head
    have hget := congrArg BlobReply.body (getHeadBlob_joined streams ht hb hshows host false)
    rw [hreply] at hjoin
    unfold blobResponse at hjoin hget
    split at hjoin
    · rename_i hok
      simp only [BlobReply.joined, BlobReply.response.injEq] at hjoin
      have hbody : (getHeadBlob streams x.st host text false).2.body = w.1 := by
        rw [BlobReply.body_joined, if_pos hok] at hget
        simpa only [BlobReply.body, Bool.false_eq_true, if_false, List.flatten_cons,
          List.flatten_nil, List.append_nil] using hget
      obtain ⟨-, hheaders, -⟩ := StreamedResponse.mk.inj hjoin
      rw [hbody, hheaders]
      simp [List.lookup_cons]
    · cases hjoin

/-- Any text in a header and files in one frame. -/
def plainStreams : Streams := ⟨fun _ => true, fun content => [content], by simp⟩

def largeContent : Bytes := List.replicate 1025 98

/-- A large blob in memory that a manifest refers to, and a blob on disk. -/
def tieredState (id : ℕ) : State :=
  { imageState ⟨0, some 10000, 10000⟩ with
    blobs := AList.insert orphan (.onDisk id 1 "" 99999)
      (AList.insert layer (.inMemory 0 largeContent "" 5) ∅)
    files := AList.insert id [97] ∅ }

theorem tieredState_lookup {id : ℕ} {d : Digest} {b : Blob}
    (h : (tieredState id).blobs.lookup d = some b) :
    d = orphan ∧ b = .onDisk id 1 "" 99999 ∨
      d = layer ∧ b = .inMemory 0 largeContent "" 5 := by
  rw [tieredState, lookup_insert_apply, lookup_insert_apply] at h
  split at h
  · cases h
    exact .inl ⟨‹_›, rfl⟩
  · split at h
    · cases h
      exact .inr ⟨‹_›, rfl⟩
    · cases h

theorem tieredState_filed (id : ℕ) : (tieredState id).BlobsFiled := by
  intro d i size mt t h
  rcases tieredState_lookup h with ⟨-, hb⟩ | ⟨-, hb⟩
  · cases hb
    exact ⟨[97], AList.lookup_insert ∅, rfl⟩
  · cases hb

theorem tieredState_ownBlobIds : (tieredState 1).OwnBlobIds := by
  refine ⟨fun d d' b b' h h' hid => ?_, fun d b h k e he => ?_, fun d b h hu => by cases hu⟩
  · rcases tieredState_lookup h with ⟨rfl, rfl⟩ | ⟨rfl, rfl⟩ <;>
      rcases tieredState_lookup h' with ⟨rfl, rfl⟩ | ⟨rfl, rfl⟩ <;>
      simp_all [Blob.id]
  · cases he

theorem blob_replies_kept_spilled :
    ∃ x, Machine.run (CacheSys.step none imageJson) (.init (tieredState 1))
        (List.replicate 21 (.evict {})) = some x ∧
      x.st.blobs.lookup layer = some (.onDisk 0 1025 "" 5) ∧
      ∀ head, (getHeadBlob plainStreams x.st "self" layerText head).2.joined =
        (getHeadBlob plainStreams (tieredState 1) "self" layerText head).2.joined := by
  have hrun : ((Machine.run (CacheSys.step none imageJson) (.init (tieredState 1))
      (List.replicate 21 (.evict {}))).map fun x => x.st.blobs.lookup layer) =
        some (some (.onDisk 0 1025 "" 5)) := by decide +kernel
  obtain ⟨x, hr, hx⟩ := Option.map_eq_some_iff.mp hrun
  have hev : ∀ e ∈ List.replicate 21 (CacheEvent.evict {}), e.OfPasses := by
    intro e he
    rw [List.eq_of_mem_replicate he]
    rfl
  have hd : layer ∈ x.st.blobs := AList.lookup_isSome.mp (by rw [hx]; rfl)
  exact ⟨x, hr, hx, (blob_replies_kept plainStreams none imageJson tieredState_ownBlobIds
    (tieredState_filed 1) hev hr (by decide +kernel) hd "self").1⟩

/-- Two entries with one id: the spill of one blob writes over the file of the other. -/
theorem shared_id_changes_reply :
    (tieredState 0).BlobsFiled ∧
    (getHeadBlob plainStreams (tieredState 0) "self" orphan.toText false).2.body = [97] ∧
    ∃ x, Machine.run (CacheSys.step none imageJson) (.init (tieredState 0))
        (List.replicate 21 (.evict {})) = some x ∧ x.pass.phase = .done ∧ orphan ∈ x.st.blobs ∧
      (getHeadBlob plainStreams x.st "self" orphan.toText false).2.body =
        largeContent := by
  have hrun : ((Machine.run (CacheSys.step none imageJson) (.init (tieredState 0))
      (List.replicate 21 (.evict {}))).map fun x => (decide (x.pass.phase = .done),
        (x.st.blobs.lookup orphan).isSome,
        (getHeadBlob plainStreams x.st "self" orphan.toText false).2.body)) =
        some (true, true, largeContent) := by decide +kernel
  obtain ⟨x, hr, hx⟩ := Option.map_eq_some_iff.mp hrun
  simp only [Prod.mk.injEq, decide_eq_true_eq] at hx
  exact ⟨tieredState_filed 0, by decide +kernel, x, hr, hx.1, AList.lookup_isSome.mp hx.2.1, hx.2.2⟩

end Dockfoxprox

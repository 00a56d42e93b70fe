import Dockfoxprox.Lib.Machine
import Dockfoxprox.Model.Eviction
import Dockfoxprox.Proofs.Redis
import Dockfoxprox.Proofs.State
import Dockfoxprox.Proofs.Usage

/-! The steps of an eviction pass by what they do. `Pass.Step` lists every outcome of
`Pass.next` with what the pass has read before it, and every invariant of the pass is a
case analysis of it. -/

namespace Dockfoxprox

open MapSum

theorem mem_eraseIdx {α : Type} {l : List α} {i : ℕ} {y x : α} (hy : l[i]? = some y) (hx : x ∈ l) :
    x = y ∨ x ∈ l.eraseIdx i := by
  obtain ⟨j, hj⟩ := List.mem_iff_getElem?.mp hx
  by_cases hij : j = i
  · subst hij
    exact .inl (Option.some.inj (hj.symm.trans hy))
  · exact .inr (List.mem_eraseIdx_iff_getElem?.mpr ⟨j, hij, hj⟩)

namespace Act

/-! The maps after an act. -/

def onManifests (a : Act) (m : DashMap Digest Manifest) : DashMap Digest Manifest :=
  match a with
  | .markEvicted d =>
    match m.lookup d with
    | some x => m.insert d { x with evicted := true }
    | none => m
  | .dropManifest d => m.erase d
  | _ => m

def onBlobs (a : Act) (m : DashMap Digest Blob) : DashMap Digest Blob :=
  match a with
  | .moveBlob d b => m.insert d b
  | .dropBlob d => m.erase d
  | _ => m

def onRedis (a : Act) (m : DashMap Bytes RedisEntry) : DashMap Bytes RedisEntry :=
  match a with
  | .moveRedis key size t id => m.insert key (.onDisk size id t)
  | .dropRedis key => m.erase key
  | _ => m

/-- The four maps, the configuration and the clock after an act. -/
theorem apply_eq (a : Act) (s : State) : ∃ tags u metrics files unlinks, a.apply s =
    { s with
      manifests := a.onManifests s.manifests
      blobs := a.onBlobs s.blobs
      tags := tags
      redisEntries := a.onRedis s.redisEntries
      usage := u
      metrics := metrics
      files := files
      unlinks := unlinks } := by
  cases a with
  | markEvicted d =>
    simp only [apply, onManifests]
    cases s.manifests.lookup d <;> exact ⟨_, _, _, _, _, rfl⟩
  | moveBlob d b =>
    obtain ⟨u, h⟩ := insertBlob_eq s d b
    simp only [apply, h]
    exact ⟨_, _, _, _, _, rfl⟩
  | dropRedis key =>
    obtain ⟨u, h⟩ := s.removeRedis_eq key
    simp only [apply, h]
    exact ⟨_, _, _, _, _, rfl⟩
  | dropManifest d =>
    obtain ⟨u, h⟩ := removeManifest_eq s d
    simp only [apply, h]
    exact ⟨_, _, _, _, _, rfl⟩
  | dropBlob d =>
    obtain ⟨u, h⟩ := removeBlob_eq s d
    simp only [apply, h]
    exact ⟨_, _, _, _, _, rfl⟩
  | _ => exact ⟨_, _, _, _, _, rfl⟩

variable (a : Act) (s : State)

@[simp] theorem apply_manifests : (a.apply s).manifests = a.onManifests s.manifests := by
  obtain ⟨_, _, _, _, _, h⟩ := a.apply_eq s
  rw [h]

@[simp] theorem apply_blobs : (a.apply s).blobs = a.onBlobs s.blobs := by
  obtain ⟨_, _, _, _, _, h⟩ := a.apply_eq s
  rw [h]

@[simp] theorem apply_redisEntries : (a.apply s).redisEntries = a.onRedis s.redisEntries := by
  obtain ⟨_, _, _, _, _, h⟩ := a.apply_eq s
  rw [h]

@[simp] theorem apply_config : (a.apply s).config = s.config := by
  obtain ⟨_, _, _, _, _, h⟩ := a.apply_eq s
  rw [h]

/-- The acts that leave the maps and the counters alone. -/
def inert : Act → Bool
  | .idle | .countRun | .writeFile _ _ | .retainTags _ | .removeFile _ | .publish _ _ _ => true
  | _ => false

variable {a}

theorem inert_unlink (c : Choice) (id : ℕ) : (Pass.unlink c id).inert := by
  unfold Pass.unlink
  split <;> rfl

theorem inert_leftover (id : ℕ) (leftover : Option Bytes) :
    (leftover.elim Act.idle (.writeFile id)).inert := by
  cases leftover <;> rfl

theorem onManifests_inert (h : a.inert) (m : DashMap Digest Manifest) : a.onManifests m = m := by
  cases a <;> first | rfl | cases h

theorem onBlobs_inert (h : a.inert) (m : DashMap Digest Blob) : a.onBlobs m = m := by
  cases a <;> first | rfl | cases h

theorem onRedis_inert (h : a.inert) (m : DashMap Bytes RedisEntry) : a.onRedis m = m := by
  cases a <;> first | rfl | cases h

theorem usage_inert (h : a.inert) : (a.apply s).usage = s.usage := by
  cases a <;> first | rfl | cases h

end Act

namespace BlobBk

@[simp] theorem unevict_tier (bb : BlobBk) (old : Bool) : (bb.unevict old).tier = bb.tier := by
  cases old <;> rfl

@[simp] theorem unevict_refs (bb : BlobBk) (old : Bool) : (bb.unevict old).refs = bb.refs := by
  cases old <;> rfl

@[simp] theorem unevict_lastAccessed (bb : BlobBk) (old : Bool) :
    (bb.unevict old).lastAccessed = bb.lastAccessed := by
  cases old <;> rfl

@[simp] theorem unref_tier (bb : BlobBk) (old : Bool) : (bb.unref old).tier = bb.tier := by
  simp [unref]

@[simp] theorem unref_refs (bb : BlobBk) (old : Bool) : (bb.unref old).refs = bb.refs - 1 := by
  simp [unref]

@[simp] theorem unref_lastAccessed (bb : BlobBk) (old : Bool) :
    (bb.unref old).lastAccessed = bb.lastAccessed := by
  simp [unref]

end BlobBk

namespace Pass

/-- A popped candidate the loop has no use for any more. -/
def Stale (s : State) (pool : Pool) : Candidate → Prop
  | .manifest _ d => s.manifests.lookup d = none
  | .redis key _ _ =>
    if pool = .largeMemory then s.spillFetch key = none else s.redisEntries.lookup key = none

/-- The accumulator a dropped Redis candidate is taken out of. -/
def DropsFrom (pool : Pool) (b : Bucket) : Prop :=
  pool = .smallMemory ∧ b = .smallRedisMemory ∨ pool = .disk ∧ b = .redisDisk

/-- Where the cascade goes on after it removed a blob. -/
def afterCascade (old : Bool) (todo : List Digest) : Blob → Phase
  | .inMemory _ _ _ _ => .cascade old todo
  | .onDisk id _ _ _ => .cascadeUnlink id old todo

/-- Where the sweep goes on after it removed a blob. -/
def afterSweep (todo : List Digest) : Blob → Phase
  | .inMemory _ _ _ _ => .sweep todo
  | .onDisk id _ _ _ => .sweepUnlink id todo

variable (fromSlice : Bytes → Option Json)

inductive Step (s : State) (p : Pass) (c : Choice) : Act → Pass → Prop
  | begin (hp : p.phase = .begin) :
    Step s p c .countRun { p with now := s.now, phase := .scanBlobs }
  | scanBlobs (hp : p.phase = .scanBlobs) :
    Step s p c .idle ((s.blobs.foldl scanBlob p).goto .scanManifests)
  | scanManifests (hp : p.phase = .scanManifests) :
    Step s p c .idle ((s.manifests.foldl (scanManifest fromSlice) p).goto .scanRedis)
  | scanRedis (hp : p.phase = .scanRedis) :
    Step s p c .idle ((s.redisEntries.foldl scanRedisEntry p).goto .loop)
  | stopLoop (hp : p.phase = .loop) (ha : p.arm s.config = none) :
    Step s p c .idle (p.goto (.sweep p.blobs.keys))
  | stale (hp : p.phase = .loop) {pool cand rest} (ha : p.arm s.config = some pool)
      (hpop : popOldest (p.heap pool) c.pick = some (cand, rest)) (hs : Stale s pool cand) :
    Step s p c .idle (p.popped pool rest)
  | dropRedis (hp : p.phase = .loop) {pool b key t size rest e} (hb : DropsFrom pool b)
      (ha : p.arm s.config = some pool)
      (hpop : popOldest (p.heap pool) c.pick = some (.redis key t size, rest))
      (he : s.redisEntries.lookup key = some e) :
    Step s p c (.dropRedis key) ((p.popped pool rest).credit b size)
  | dropManifest (hp : p.phase = .loop) {pool t d rest m} (hl : pool ≠ .largeMemory)
      (ha : p.arm s.config = some pool)
      (hpop : popOldest (p.heap pool) c.pick = some (.manifest t d, rest))
      (hm : s.manifests.lookup d = some m) :
    Step s p c (.dropManifest d)
      (((p.popped pool rest).credit .manifestMemory m.content.length).goto (.retainTags d m))
  | spillManifest (hp : p.phase = .loop) {t d rest m} (ha : p.arm s.config = some .largeMemory)
      (hpop : popOldest (p.heap .largeMemory) c.pick = some (.manifest t d, rest))
      (hm : s.manifests.lookup d = some m) :
    Step s p c (.markEvicted d) ((p.popped .largeMemory rest).goto
      (.spillBlobs ⟨d, t, m.evicted, referencedDigests fromSlice m.content⟩))
  | fetchRedis (hp : p.phase = .loop) {key t size rest value id}
      (ha : p.arm s.config = some .largeMemory)
      (hpop : popOldest (p.heap .largeMemory) c.pick = some (.redis key t size, rest))
      (hf : s.spillFetch key = some (value, id)) :
    Step s p c .idle ((p.popped .largeMemory rest).goto (.redisWrite key size t value id))
  | spillEnd {sp} (hp : p.phase = .spillBlobs sp) (ht : sp.todo = []) :
    Step s p c .idle ((p.push .disk (.manifest sp.lastAccesses sp.digest)).goto .loop)
  | spillMissing {sp r rest} (hp : p.phase = .spillBlobs sp) (ht : sp.todo = r :: rest)
      (hb : p.blobs.lookup r = none) :
    Step s p c .idle (p.goto (.spillBlobs { sp with todo := rest }))
  | spillKeep {sp r rest bb} (hp : p.phase = .spillBlobs sp) (ht : sp.todo = r :: rest)
      (hb : p.blobs.lookup r = some bb)
      (hk : (bb.unevict sp.old).unevictedRefs = 0 → bb.tier = .largeMem →
        ∀ id content mt t, s.blobs.lookup r ≠ some (.inMemory id content mt t)) :
    Step s p c .idle
      ((p.setBk r (bb.unevict sp.old)).goto (.spillBlobs { sp with todo := rest }))
  | spillFetch {sp r rest bb id content mt t} (hp : p.phase = .spillBlobs sp)
      (ht : sp.todo = r :: rest) (hb : p.blobs.lookup r = some bb)
      (hu : (bb.unevict sp.old).unevictedRefs = 0) (htier : bb.tier = .largeMem)
      (hl : s.blobs.lookup r = some (.inMemory id content mt t)) :
    Step s p c .idle ((p.setBk r (bb.unevict sp.old)).goto
      (.spillWrite { sp with todo := rest } r ⟨id, content, mt, t⟩))
  | spillWrite {sp r held} (hp : p.phase = .spillWrite sp r held) (hw : c.write = .ok) :
    Step s p c (.writeFile held.id held.content) (p.goto (.spillInsert sp r held))
  | spillInsert {sp r held} (hp : p.phase = .spillInsert sp r held) :
    Step s p c
      (.moveBlob r (.onDisk held.id held.content.length held.mediaType held.lastAccessed))
      (((p.credit .largeBlobMemory held.content.length).debit .blobDisk held.content.length).goto
        (.spillBlobs sp))
  | redisWrite {key size t value id} (hp : p.phase = .redisWrite key size t value id)
      (hw : c.write = .ok) :
    Step s p c (.writeFile id value) (p.goto (.redisInsert key size t value id))
  | redisInsert {key size t value id} (hp : p.phase = .redisInsert key size t value id) :
    Step s p c (.moveRedis key size t id)
      ((((p.credit .largeRedisMemory size).debit .redisDisk size).push .disk
        (.redis key t size)).goto .loop)
  | writeFailed {id leftover} (hp : (∃ sp r held, p.phase = .spillWrite sp r held ∧ held.id = id) ∨
        ∃ key size t value, p.phase = .redisWrite key size t value id)
      (hw : c.write = .failed leftover) :
    Step s p c (leftover.elim .idle (.writeFile id)) (p.goto .failed)
  | retainTags {d m} (hp : p.phase = .retainTags d m) :
    Step s p c (.retainTags d)
      (p.goto (.cascade m.evicted (referencedDigests fromSlice m.content)))
  | cascadeEnd {old} (hp : p.phase = .cascade old []) : Step s p c .idle (p.goto .loop)
  | cascadeMissing {old r todo} (hp : p.phase = .cascade old (r :: todo))
      (hb : p.blobs.lookup r = none) :
    Step s p c .idle (p.goto (.cascade old todo))
  | cascadeKeep {old r todo bb} (hp : p.phase = .cascade old (r :: todo))
      (hb : p.blobs.lookup r = some bb)
      (hk : bb.refs - 1 = 0 → bb.lastAccessed ≤ p.now - blobGraceSeconds →
        s.blobs.lookup r = none) :
    Step s p c .idle ((p.setBk r (bb.unref old)).goto (.cascade old todo))
  | cascadeDrop {old r todo bb blob} (hp : p.phase = .cascade old (r :: todo))
      (hb : p.blobs.lookup r = some bb) (hr : bb.refs - 1 = 0)
      (ht : bb.lastAccessed ≤ p.now - blobGraceSeconds) (hl : s.blobs.lookup r = some blob) :
    Step s p c (.dropBlob r) (((p.setBk r (bb.unref old)).credit (blobBucket blob).1
      (blobBucket blob).2).goto (afterCascade old todo blob))
  | cascadeUnlink {id old todo} (hp : p.phase = .cascadeUnlink id old todo) :
    Step s p c (unlink c id) (p.goto (.cascade old todo))
  | sweepEnd (hp : p.phase = .sweep []) : Step s p c .idle (p.goto .publish)
  | sweepKeep {todo d} (hp : p.phase = .sweep todo) (hd : todo[c.pick]? = some d)
      (hk : ∀ bb, p.blobs.lookup d = some bb → bb.refs = 0 →
        blobGraceSeconds ≤ p.now - bb.lastAccessed → s.blobs.lookup d = none) :
    Step s p c .idle (p.goto (.sweep (todo.eraseIdx c.pick)))
  | sweepDrop {todo d bb blob} (hp : p.phase = .sweep todo) (hd : todo[c.pick]? = some d)
      (hb : p.blobs.lookup d = some bb) (hr : bb.refs = 0)
      (ht : blobGraceSeconds ≤ p.now - bb.lastAccessed) (hl : s.blobs.lookup d = some blob) :
    Step s p c (.dropBlob d) (p.goto (afterSweep (todo.eraseIdx c.pick) blob))
  | sweepUnlink {id todo} (hp : p.phase = .sweepUnlink id todo) :
    Step s p c (unlink c id) (p.goto (.sweep todo))
  | publish (hp : p.phase = .publish) :
    Step s p c (.publish (oldestTouch p.now (p.heap .smallMemory))
      (oldestTouch p.now (p.heap .largeMemory)) (oldestTouch p.now (p.heap .disk)))
      (p.goto (.store finalStores))
  | storeEnd (hp : p.phase = .store []) : Step s p c .idle (p.goto .done)
  | store {b rest} (hp : p.phase = .store (b :: rest)) :
    Step s p c (.store b (p.acc b)) (p.goto (.store rest))

variable {fromSlice} {s : State} {p p' : Pass} {c : Choice} {a : Act}

theorem evictOne_step {pool : Pool} {cand : Candidate} {rest : List Candidate}
    (hp : p.phase = .loop) (ha : p.arm s.config = some pool)
    (hpop : popOldest (p.heap pool) c.pick = some (cand, rest))
    (h : evictOne fromSlice (p.popped pool rest) s pool cand = (a, p')) :
    Step fromSlice s p c a p' := by
  have hdropM {t d} (hl : pool ≠ .largeMemory) (hc : cand = .manifest t d)
      (hd : (p.popped pool rest).dropManifest s d = (a, p')) : Step fromSlice s p c a p' := by
    subst hc
    simp only [Pass.dropManifest, removeManifest_fst] at hd
    split at hd <;> cases hd
    · exact .stale hp ha hpop ‹_›
    · exact .dropManifest hp hl ha hpop ‹_›
  have hdropR {key t size b} (hb : DropsFrom pool b) (hc : cand = .redis key t size)
      (hd : (p.popped pool rest).dropRedis s b key size = (a, p')) : Step fromSlice s p c a p' := by
    subst hc
    have hl : pool ≠ .largeMemory := by rcases hb with ⟨rfl, -⟩ | ⟨rfl, -⟩ <;> decide
    simp only [Pass.dropRedis, removeRedis_fst] at hd
    cases he : s.redisEntries.lookup key with
    | none =>
      simp only [he] at hd
      cases hd
      exact .stale hp ha hpop (by simp [Stale, hl, he])
    | some e =>
      simp only [he] at hd
      cases hd
      exact .dropRedis hp hb ha hpop he
  cases pool with
  | smallMemory =>
    cases cand with
    | manifest t d => exact hdropM (by decide) rfl h
    | redis key t size => exact hdropR (.inl ⟨rfl, rfl⟩) rfl h
  | largeMemory =>
    cases cand with
    | manifest t d =>
      simp only [evictOne, Pass.spillManifest] at h
      split at h <;> cases h
      · exact .stale hp ha hpop ‹_›
      · exact .spillManifest hp ha hpop ‹_›
    | redis key t size =>
      simp only [evictOne, Pass.spillRedis] at h
      split at h <;> cases h
      · exact .stale hp ha hpop ‹_›
      · exact .fetchRedis hp ha hpop ‹_›
  | disk =>
    cases cand with
    | manifest t d => exact hdropM (by decide) rfl h
    | redis key t size => exact hdropR (.inr ⟨rfl, rfl⟩) rfl h

theorem spillBlob_step {sp : ManifestSpill} {r : Digest} {rest : List Digest}
    (hp : p.phase = .spillBlobs sp) (ht : sp.todo = r :: rest) :
    Step fromSlice s p c .idle (p.spillBlob s { sp with todo := rest } r) := by
  unfold Pass.spillBlob
  cases hb : p.blobs.lookup r with
  | none => exact .spillMissing hp ht hb
  | some bb =>
    simp only [BlobBk.unevict_tier]
    split
    · rename_i hk
      refine .spillKeep hp ht hb fun hu htier => ?_
      rcases hk with hk | hk
      · exact absurd hu hk
      · exact absurd htier hk
    · rename_i hk
      simp only [not_or, not_not] at hk
      cases hl : s.blobs.lookup r with
      | none => exact .spillKeep hp ht hb (fun _ _ _ _ _ _ => by simp [hl])
      | some blob =>
        cases blob with
        | inMemory id content mt t => exact .spillFetch hp ht hb hk.1 hk.2 hl
        | onDisk id size mt t => exact .spillKeep hp ht hb (fun _ _ _ _ _ _ => by simp [hl])

theorem cascadeBlob_step {old : Bool} {r : Digest} {todo : List Digest}
    (hp : p.phase = .cascade old (r :: todo)) (h : p.cascadeBlob s old r todo = (a, p')) :
    Step fromSlice s p c a p' := by
  unfold Pass.cascadeBlob at h
  cases hb : p.blobs.lookup r with
  | none =>
    simp only [hb] at h
    cases h
    exact .cascadeMissing hp hb
  | some bb =>
    simp only [hb, BlobBk.unref_refs, BlobBk.unref_lastAccessed, goto_now, setBk_now,
      removeBlob_fst] at h
    split at h
    · rename_i hk
      cases h
      refine .cascadeKeep hp hb fun hr ht => ?_
      omega
    · rename_i hk
      simp only [not_or, not_not, not_lt] at hk
      cases hl : s.blobs.lookup r with
      | none =>
        simp only [hl] at h
        cases h
        exact .cascadeKeep hp hb fun _ _ => hl
      | some blob =>
        simp only [hl] at h
        have hd : Step fromSlice s p c _ _ := .cascadeDrop hp hb hk.1 hk.2 hl
        cases blob <;> cases h <;> exact hd

theorem sweepBlob_step {d : Digest} {todo : List Digest} (hp : p.phase = .sweep todo)
    (hd : todo[c.pick]? = some d) (h : p.sweepBlob s d (todo.eraseIdx c.pick) = (a, p')) :
    Step fromSlice s p c a p' := by
  unfold Pass.sweepBlob at h
  simp only [goto_blobs, goto_now, removeBlob_fst] at h
  cases hb : p.blobs.lookup d with
  | none =>
    simp only [hb] at h
    cases h
    exact .sweepKeep hp hd fun bb hbb => by simp [hb] at hbb
  | some bb =>
    simp only [hb] at h
    split at h
    · rename_i hk
      cases h
      refine .sweepKeep hp hd fun bb' hbb hr ht => ?_
      rw [hb, Option.some.injEq] at hbb
      subst hbb
      omega
    · rename_i hk
      simp only [not_or, not_not, not_lt] at hk
      cases hl : s.blobs.lookup d with
      | none =>
        simp only [hl] at h
        cases h
        exact .sweepKeep hp hd fun _ _ _ _ => hl
      | some blob =>
        simp only [hl] at h
        have hs : Step fromSlice s p c _ _ := .sweepDrop hp hd hb hk.1 hk.2 hl
        cases blob <;> cases h <;> exact hs

theorem write_step {id : ℕ} {content : Bytes} {ph : Phase}
    (hp : (∃ sp r held, p.phase = .spillWrite sp r held ∧ held.id = id) ∨
      ∃ key size t value, p.phase = .redisWrite key size t value id)
    (hok : c.write = .ok → Step fromSlice s p c (.writeFile id content) (p.goto ph))
    (h : p.write c id content ph = (a, p')) : Step fromSlice s p c a p' := by
  unfold Pass.write at h
  split at h
  · cases h
    exact hok ‹_›
  · cases h
    exact .writeFailed hp ‹_›
  · cases h
    exact .writeFailed hp ‹_›

/-- Every step of the pass is one of the outcomes listed. -/
theorem step_of_next (h : next fromSlice s p c = some (a, p')) : Step fromSlice s p c a p' := by
  unfold next at h
  split at h
  case h_1 hp => cases h; exact .begin hp
  case h_2 hp => cases h; exact .scanBlobs hp
  case h_3 hp => cases h; exact .scanManifests hp
  case h_4 hp => cases h; exact .scanRedis hp
  case h_5 hp =>
    split at h
    · cases h
      exact .stopLoop hp ‹_›
    · split at h
      · cases h
      · exact evictOne_step hp ‹_› ‹_› (Option.some.inj h)
  case h_6 sp hp =>
    split at h
    · cases h
      exact .spillEnd hp ‹_›
    · cases h
      exact spillBlob_step hp ‹_›
  case h_7 sp r held hp =>
    exact write_step (.inl ⟨sp, r, held, hp, rfl⟩) (.spillWrite hp) (Option.some.inj h)
  case h_8 sp r held hp => cases h; exact .spillInsert hp
  case h_9 key size t value id hp =>
    exact write_step (.inr ⟨key, size, t, value, hp⟩) (.redisWrite hp) (Option.some.inj h)
  case h_10 hp => cases h; exact .redisInsert hp
  case h_11 hp => cases h; exact .retainTags hp
  case h_12 old todo hp =>
    split at h
    · cases h
      exact .cascadeEnd hp
    · exact cascadeBlob_step hp (Option.some.inj h)
  case h_13 hp => cases h; exact .cascadeUnlink hp
  case h_14 todo hp =>
    split at h
    · cases h
      exact .sweepEnd hp
    · split at h
      · cases h
      · exact sweepBlob_step hp ‹_› (Option.some.inj h)
  case h_15 hp => cases h; exact .sweepUnlink hp
  case h_16 hp => cases h; exact .publish hp
  case h_17 left hp =>
    split at h
    · cases h
      exact .storeEnd hp
    · cases h
      exact .store hp
  case h_18 => cases h
  case h_19 => cases h

/-- Only the insert of a Redis spill goes past `State`'s operations. -/
theorem Step.moveRedis_inv {key : Bytes} {size t id : ℕ} (hs : Step fromSlice s p c a p')
    (ha : a = .moveRedis key size t id) : ∃ value, p.phase = .redisInsert key size t value id := by
  have hni : ¬ a.inert := by rw [ha]; exact Bool.false_ne_true
  cases hs with
  | @redisInsert _ _ _ value _ hp => cases ha; exact ⟨value, hp⟩
  | writeFailed hp hw => exact absurd (Act.inert_leftover ..) hni
  | cascadeUnlink hp => exact absurd (Act.inert_unlink ..) hni
  | sweepUnlink hp => exact absurd (Act.inert_unlink ..) hni
  | _ => cases ha

theorem step_eq_some {x x' : State × Pass} :
    step fromSlice x c = some x' ↔
      ∃ a p', next fromSlice x.1 x.2 c = some (a, p') ∧ (a.apply x.1, p') = x' := by
  simp only [step, Option.map_eq_some_iff, Prod.exists]

/-- A step whose act meets `Q` in the state before it. -/
def OnAct (fromSlice : Bytes → Option Json) (Q : State → Pass → Act → Prop) (x : State × Pass)
    (c : Choice) (_ : State × Pass) : Prop :=
  ∀ a p', next fromSlice x.1 x.2 c = some (a, p') → Q x.1 x.2 a

theorem onAct_iff {Q : State → Pass → Act → Prop} {x x' : State × Pass}
    (hn : next fromSlice x.1 x.2 c = some (a, p')) : OnAct fromSlice Q x c x' ↔ Q x.1 x.2 a := by
  constructor
  · intro h
    exact h a p' hn
  · intro h b q hb
    rw [hn] at hb
    cases hb
    exact h

instance {Q : State → Pass → Act → Prop} [∀ s p a, Decidable (Q s p a)] (x : State × Pass)
    (c : Choice) (x' : State × Pass) : Decidable (OnAct fromSlice Q x c x') :=
  match h : next fromSlice x.1 x.2 c with
  | none => isTrue fun a p' hn => by rw [h] at hn; cases hn
  | some _ => decidable_of_iff _ (onAct_iff h).symm

/-- What every step of a pass keeps holds after any run of it alone. -/
theorem run_keeps {I : State → Pass → Prop}
    (hstep : ∀ s p c a p', I s p → Step fromSlice s p c a p' → I (a.apply s) p') {s' : State}
    {choices : List Choice} (h : I s p)
    (hr : Machine.run (step fromSlice) (s, p) choices = some (s', p')) : I s' p' := by
  refine Machine.run_invariant (C := fun _ _ _ => True) (I := fun x => I x.1 x.2)
    (fun x c x' hi _ hs => ?_) h (Machine.along_true _ _) hr
  obtain ⟨a, q, hn, rfl⟩ := step_eq_some.mp hs
  exact hstep _ _ c a q hi (step_of_next hn)

end Pass

end Dockfoxprox

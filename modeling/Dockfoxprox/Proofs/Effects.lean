import Dockfoxprox.Proofs.Scan

/-! The steps of a pass by what they do to the manifests, the blobs and the table of the
blobs. Most of them leave all three alone; the rest give up a reference, move or remove a
blob, or flag or remove a manifest. What garbage collection keeps true follows from this
list. -/

namespace Dockfoxprox

open MapSum

/-- The acts that change neither a manifest nor a blob. -/
def Act.keepsContent : Act → Bool
  | .markEvicted _ | .moveBlob _ _ | .dropManifest _ | .dropBlob _ => false
  | _ => true

theorem Act.onManifests_keeps {a : Act} (h : a.keepsContent) (m : DashMap Digest Manifest) :
    a.onManifests m = m := by
  cases a <;> first | rfl | cases h

theorem Act.onBlobs_keeps {a : Act} (h : a.keepsContent) (m : DashMap Digest Blob) :
    a.onBlobs m = m := by
  cases a <;> first | rfl | cases h

theorem Act.keepsContent_of_inert {a : Act} (h : a.inert) : a.keepsContent := by
  cases a <;> first | rfl | cases h

/-- How far the scans of the pass have come: the blobs are not scanned yet, their
references are not counted yet, or both are done. -/
inductive Stage where
  | unscanned
  | uncounted
  | counted

def Phase.stage : Phase → Stage
  | .begin | .scanBlobs => .unscanned
  | .scanManifests => .uncounted
  | _ => .counted

/-- The blob a spill holds, with its digest. -/
def Phase.held : Phase → Option (Digest × HeldBlob)
  | .spillWrite _ r held | .spillInsert _ r held => some (r, held)
  | _ => none

section
variable (fromSlice : Bytes → Option Json)

/-- The references of a dropped manifest the cascade has not visited yet. -/
def Phase.pending (d : Digest) : Phase → ℕ
  | .retainTags _ m => manifestRefs fromSlice d m
  | .cascade _ todo | .cascadeUnlink _ _ todo => todo.count d
  | _ => 0

namespace Pass

/-- The table, the time of the pass and the references left to visit stay, and no other
blob is held. -/
structure Still (p p' : Pass) : Prop where
  now : p'.now = p.now
  blobs : p'.blobs = p.blobs
  pending : ∀ d bb, p.blobs.lookup d = some bb →
    p'.phase.pending fromSlice d = p.phase.pending fromSlice d
  held : p'.phase.held = none ∨ p'.phase.held = p.phase.held

inductive Effect (s : State) (p : Pass) : Act → Pass → Prop
  | still {a p'} (ha : a.keepsContent) (hs : Still fromSlice p p') : Effect s p a p'
  | markEvicted {dm p'} (hs : Still fromSlice p p') : Effect s p (.markEvicted dm) p'
  | dropManifest {dm m p'} (hm : s.manifests.lookup dm = some m)
      (hp : ∀ d, p.phase.pending fromSlice d = 0) (hn : p'.now = p.now) (ht : p'.blobs = p.blobs)
      (hph : p'.phase = .retainTags dm m) : Effect s p (.dropManifest dm) p'
  | unevict {r bb old ph} (hb : p.blobs.lookup r = some bb)
      (hp : ∀ d, ph.pending fromSlice d = p.phase.pending fromSlice d)
      (hh : ∀ r' held, ph.held = some (r', held) → r' = r ∧
        s.blobs.lookup r = some (.inMemory held.id held.content held.mediaType held.lastAccessed)) :
    Effect s p .idle ((p.setBk r (bb.unevict old)).goto ph)
  | moveBlob {r held p'} (hh : p.phase.held = some (r, held)) (hs : Still fromSlice p p') :
    Effect s p (.moveBlob r (.onDisk held.id held.content.length held.mediaType held.lastAccessed))
      p'
  | unref {old r todo bb} (hp : p.phase = .cascade old (r :: todo))
      (hb : p.blobs.lookup r = some bb) :
    Effect s p .idle ((p.setBk r (bb.unref old)).goto (.cascade old todo))
  | cascadeDrop {old r todo bb p'} (hp : p.phase = .cascade old (r :: todo))
      (hb : p.blobs.lookup r = some bb) (hr : bb.refs - 1 = 0)
      (ht : bb.lastAccessed ≤ p.now - blobGraceSeconds)
      (hs : Still fromSlice ((p.setBk r (bb.unref old)).goto (.cascade old todo)) p') :
    Effect s p (.dropBlob r) p'
  | sweepDrop {todo r bb p'} (hp : p.phase = .sweep todo) (hb : p.blobs.lookup r = some bb)
      (hr : bb.refs = 0) (ht : blobGraceSeconds ≤ p.now - bb.lastAccessed)
      (hs : Still fromSlice p p') : Effect s p (.dropBlob r) p'

end Pass

end

namespace Pass

variable {fromSlice : Bytes → Option Json} {s : State} {p p' : Pass} {c : Choice} {a : Act}

theorem scanRedis_blobs (m : DashMap Bytes RedisEntry) (p : Pass) :
    (m.foldl scanRedisEntry p).blobs = p.blobs :=
  foldl_rule (P := fun q : Pass => q.blobs = p.blobs) m
    (fun q e _ hq => (scanRedisEntry_blobs q e.1 e.2).trans hq) rfl

theorem scanRedis_now (m : DashMap Bytes RedisEntry) (p : Pass) :
    (m.foldl scanRedisEntry p).now = p.now :=
  foldl_rule (P := fun q : Pass => q.now = p.now) m
    (fun q e _ hq => (scanRedisEntry_now q e.1 e.2).trans hq) rfl

/-- A step between two phases with no reference left to visit. -/
theorem Still.of_zero (hn : p'.now = p.now) (ht : p'.blobs = p.blobs)
    (hp : ∀ d, p.phase.pending fromSlice d = 0) (hp' : ∀ d, p'.phase.pending fromSlice d = 0)
    (hh : p'.phase.held = none ∨ p'.phase.held = p.phase.held) : Still fromSlice p p' :=
  ⟨hn, ht, fun d _ _ => (hp' d).trans (hp d).symm, hh⟩

/-- Every step after the two scans has one of these effects. -/
theorem Step.effect (hs : Step fromSlice s p c a p') (hst : p.phase.stage = .counted) :
    Effect fromSlice s p a p' := by
  have hzero (hp : ∀ d, p.phase.pending fromSlice d = 0) {a : Act} {q : Pass} (ha : a.inert)
      (hn : q.now = p.now) (ht : q.blobs = p.blobs) (hq : ∀ d, q.phase.pending fromSlice d = 0)
      (hh : q.phase.held = none) : Effect fromSlice s p a q :=
    .still (Act.keepsContent_of_inert ha) (.of_zero hn ht hp hq (.inl hh))
  cases hs with
  | begin hp => rw [hp] at hst; cases hst
  | scanBlobs hp => rw [hp] at hst; cases hst
  | scanManifests hp => rw [hp] at hst; cases hst
  | scanRedis hp =>
    exact hzero (fun _ => by rw [hp]; rfl) rfl (scanRedis_now ..) (scanRedis_blobs ..)
      (fun _ => rfl) rfl
  | stale hp ha hpop hst => exact .still rfl ⟨rfl, rfl, fun _ _ _ => rfl, .inr rfl⟩
  | dropRedis hp hb ha hpop he => exact .still rfl ⟨rfl, rfl, fun _ _ _ => rfl, .inr rfl⟩
  | dropManifest hp hl ha hpop hm =>
    exact .dropManifest hm (fun _ => by rw [hp]; rfl) rfl rfl rfl
  | spillManifest hp ha hpop hm =>
    exact .markEvicted (.of_zero rfl rfl (fun _ => by rw [hp]; rfl) (fun _ => rfl) (.inl rfl))
  | spillKeep hp ht hb hk => exact .unevict hb (fun _ => by rw [hp]; rfl) (fun _ _ hh => by cases hh)
  | spillFetch hp ht hb hu htier hl =>
    refine .unevict hb (fun _ => by rw [hp]; rfl) fun r' held hh => ?_
    cases hh
    exact ⟨rfl, hl⟩
  | spillWrite hp hw =>
    exact .still rfl (.of_zero rfl rfl (fun _ => by rw [hp]; rfl) (fun _ => rfl)
      (.inr (by rw [hp]; rfl)))
  | spillInsert hp =>
    exact .moveBlob (by rw [hp]; rfl)
      (.of_zero rfl rfl (fun _ => by rw [hp]; rfl) (fun _ => rfl) (.inl rfl))
  | redisInsert hp =>
    exact .still rfl (.of_zero rfl rfl (fun _ => by rw [hp]; rfl) (fun _ => rfl) (.inl rfl))
  | writeFailed hp hw =>
    refine hzero (fun _ => ?_) (Act.inert_leftover ..) rfl rfl (fun _ => rfl) rfl
    rcases hp with ⟨sp, r, held, hp, -⟩ | ⟨key, size, t, value, hp⟩ <;> rw [hp] <;> rfl
  | retainTags hp => exact .still rfl ⟨rfl, rfl, fun _ _ _ => by rw [hp]; rfl, .inl rfl⟩
  | cascadeEnd hp => exact hzero (fun _ => by rw [hp]; rfl) rfl rfl rfl (fun _ => rfl) rfl
  | @cascadeMissing old r todo hp hb =>
    refine .still rfl ⟨rfl, rfl, fun d bb hd => ?_, .inl rfl⟩
    have hne : r ≠ d := by rintro rfl; rw [hb] at hd; cases hd
    rw [hp]
    exact (List.count_cons_of_ne hne).symm
  | cascadeKeep hp hb hk => exact .unref hp hb
  | @cascadeDrop old r todo bb blob hp hb hr ht hl =>
    cases blob with
    | inMemory id content mt t =>
      exact .cascadeDrop hp hb hr ht ⟨rfl, rfl, fun _ _ _ => rfl, .inl rfl⟩
    | onDisk id size mt t =>
      exact .cascadeDrop hp hb hr ht ⟨rfl, rfl, fun _ _ _ => rfl, .inl rfl⟩
  | cascadeUnlink hp =>
    exact .still (Act.keepsContent_of_inert (Act.inert_unlink ..))
      ⟨rfl, rfl, fun _ _ _ => by rw [hp]; rfl, .inl rfl⟩
  | @sweepDrop todo r bb blob hp hd hb hr ht hl =>
    have hz : ∀ d, p.phase.pending fromSlice d = 0 := fun _ => by rw [hp]; rfl
    cases blob with
    | inMemory id content mt t =>
      exact .sweepDrop hp hb hr ht (.of_zero rfl rfl hz (fun _ => rfl) (.inl rfl))
    | onDisk id size mt t =>
      exact .sweepDrop hp hb hr ht (.of_zero rfl rfl hz (fun _ => rfl) (.inl rfl))
  | sweepUnlink hp =>
    exact hzero (fun _ => by rw [hp]; rfl) (Act.inert_unlink ..) rfl rfl (fun _ => rfl) rfl
  | store hp =>
    exact .still rfl (.of_zero rfl rfl (fun _ => by rw [hp]; rfl) (fun _ => rfl) (.inl rfl))
  | _ hp => exact hzero (fun _ => by rw [hp]; rfl) rfl rfl rfl (fun _ => rfl) rfl

/-- The table changes in its counts only. -/
theorem Effect.same (h : Effect fromSlice s p a p') : SameBks p.blobs p'.blobs := by
  have hset {r : Digest} {bb bb' : BlobBk} (hb : p.blobs.lookup r = some bb)
      (ht : bb'.tier = bb.tier) (hl : bb'.lastAccessed = bb.lastAccessed) :
      SameBks p.blobs (p.setBk r bb').blobs := SameBks.insert hb ht hl
  cases h with
  | still ha hs => rw [hs.blobs]; exact fun _ => rfl
  | markEvicted hs => rw [hs.blobs]; exact fun _ => rfl
  | dropManifest hm hp hn ht hph => rw [ht]; exact fun _ => rfl
  | unevict hb hp hh => exact hset hb (by simp) (by simp)
  | moveBlob hh hs => rw [hs.blobs]; exact fun _ => rfl
  | unref hp hb => exact hset hb (by simp) (by simp)
  | cascadeDrop hp hb hr ht hs => rw [hs.blobs]; exact hset hb (by simp) (by simp)
  | sweepDrop hp hb hr ht hs => rw [hs.blobs]; exact fun _ => rfl

theorem Effect.now (h : Effect fromSlice s p a p') : p'.now = p.now := by
  cases h with
  | still ha hs => exact hs.now
  | markEvicted hs => exact hs.now
  | dropManifest hm hp hn ht hph => exact hn
  | unevict => rfl
  | moveBlob hh hs => exact hs.now
  | unref => rfl
  | cascadeDrop hp hb hr ht hs => exact hs.now
  | sweepDrop hp hb hr ht hs => exact hs.now

end Pass

end Dockfoxprox

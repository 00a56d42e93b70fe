import Dockfoxprox.Proofs.Budgets
import Dockfoxprox.Proofs.Reordered

/-! The loops of two passes on reordered states, in lockstep. They start with the same
candidates, read the same entries and pop the same candidate, so each step does the same to
both states. -/

namespace Dockfoxprox

open MapSum Machine

namespace Pass

variable {fromSlice : Bytes → Option Json} {s s₁ s₂ s₀ : State} {p p' q q' : Pass}
  {c c₁ c₂ : Choice} {a b : Act}

/-- The loop ends when no arm has anything to do, -/
theorem Step.of_arm_none (hs : Step fromSlice s p c a p') (hp : p.phase = .loop)
    (ha : p.arm s.config = none) : a = .idle ∧ p' = p.goto (.sweep p.blobs.keys) := by
  cases hs with
  | stopLoop => exact ⟨rfl, rfl⟩
  | stale _ harm | dropRedis _ _ harm | dropManifest _ _ harm | spillManifest _ harm
  | fetchRedis _ harm => rw [harm] at ha; cases ha
  | writeFailed hp' =>
    rcases hp' with ⟨_, _, _, hp', -⟩ | ⟨_, _, _, _, hp'⟩ <;> rw [hp'] at hp <;> cases hp
  | _ hp' => rw [hp'] at hp; cases hp

/-- and otherwise only at a failed write. -/
theorem Step.looping_or_failed (hs : Step fromSlice s p c a p') (hl : p.phase.looping)
    (ha : ¬ (p.phase = .loop ∧ p.arm s.config = none)) :
    p'.phase.looping ∨ p'.phase = .failed := by
  cases hs with
  | stopLoop hp harm => exact absurd ⟨hp, harm⟩ ha
  | writeFailed => exact .inr rfl
  | begin hp | scanBlobs hp | scanManifests hp | sweepEnd hp | sweepKeep hp | sweepDrop hp
  | sweepUnlink hp | publish hp | storeEnd hp | store hp => rw [hp] at hl; cases hl
  | stale hp => exact .inl hl
  | dropRedis hp => exact .inl hl
  | @cascadeDrop old r todo bb blob => cases blob <;> exact .inl rfl
  | _ => exact .inl rfl

/-- The scans of reordered states give twins. -/
theorem scanned_twin (h : s₁.Reordered s₂) :
    (scanned fromSlice s₁).Twin (scanned fromSlice s₂) := by
  refine ⟨?_, funext fun b => ?_, rfl, fun pool => ?_, fun d => ?_⟩
  · rw [scanned_now, scanned_now, h.now]
  · rw [scanned_acc, scanned_acc, h.toSameMaps.bytesIn]
  · have htier : tierIn s₂.blobs = tierIn s₁.blobs := by
      funext d
      rw [tierIn, tierIn, h.blobs]
    have htouch (m : Manifest) (tier : BlobTier) :
        m.touches fromSlice s₂.blobs tier = m.touches fromSlice s₁.blobs tier := by
      rw [Manifest.touches, Manifest.touches, htier]
    have hcand : manifestCandidate fromSlice s₂.blobs = manifestCandidate fromSlice s₁.blobs := by
      funext pool d m
      cases pool <;> simp only [manifestCandidate, htouch]
    rw [scanned_heap, scanned_heap, hcand]
    have hr := ((entries_perm h.redis).filterMap fun e => redisCandidate pool e.1 e.2)
    have hm := ((entries_perm h.manifests).filterMap
      fun e => manifestCandidate fromSlice s₁.blobs pool e.1 e.2)
    exact ((List.reverse_perm _).trans (hr.trans (List.reverse_perm _).symm)).append
      ((List.reverse_perm _).trans (hm.trans (List.reverse_perm _).symm))
  · rw [scanned_lookup, scanned_lookup, h.blobs, refsTo, refsTo, unevictedTo, unevictedTo,
      total_congr _ h.manifests, total_congr _ h.manifests]

/-- What a step does and where it leads, the same for both passes. -/
def SameStep (r₁ r₂ : Act × Pass) : Prop := r₂.1 = r₁.1 ∧ r₁.2.Twin r₂.2

theorem Twin.evictOne (h : p.Twin q) (hs : s₁.SameMaps s₂) (pool : Pool) (x : Candidate) :
    SameStep (evictOne fromSlice p s₁ pool x) (evictOne fromSlice q s₂ pool x) := by
  have hdropM (d : Digest) : SameStep (p.dropManifest s₁ d) (q.dropManifest s₂ d) := by
    simp only [dropManifest, removeManifest_fst, hs.manifests]
    cases s₁.manifests.lookup d with
    | none => exact ⟨rfl, h⟩
    | some m => exact ⟨rfl, (h.credit _ _).goto _⟩
  have hdropR (b : Bucket) (key : Bytes) (size : ℕ) :
      SameStep (p.dropRedis s₁ b key size) (q.dropRedis s₂ b key size) := by
    simp only [dropRedis, removeRedis_fst, hs.redis]
    split
    · exact ⟨rfl, h.credit _ _⟩
    · exact ⟨rfl, h⟩
  have hspillM (t : ℕ) (d : Digest) :
      SameStep (p.spillManifest fromSlice s₁ t d) (q.spillManifest fromSlice s₂ t d) := by
    simp only [spillManifest, hs.manifests]
    cases s₁.manifests.lookup d with
    | none => exact ⟨rfl, h⟩
    | some m => exact ⟨rfl, h.goto _⟩
  have hspillR (key : Bytes) (t size : ℕ) :
      SameStep (p.spillRedis s₁ key t size) (q.spillRedis s₂ key t size) := by
    simp only [spillRedis, State.spillFetch, hs.redis]
    split
    · exact ⟨rfl, h⟩
    · exact ⟨rfl, h.goto _⟩
  cases pool <;> cases x <;> first | exact hdropM _ | exact hdropR .. | exact hspillM .. | exact hspillR ..

theorem Twin.spillBlob (h : p.Twin q) (hs : s₁.SameMaps s₂) (sp : ManifestSpill) (r : Digest) :
    (p.spillBlob s₁ sp r).Twin (q.spillBlob s₂ sp r) := by
  simp only [Pass.spillBlob, h.blobs, hs.blobs]
  cases p.blobs.lookup r with
  | none => exact h.goto _
  | some bb =>
    have hset := (h.setBk r (bb.unevict sp.old)).goto (.spillBlobs sp)
    simp only
    split
    · exact hset
    · split
      · exact hset.goto _
      · exact hset

theorem Twin.cascadeBlob (h : p.Twin q) (hs : s₁.SameMaps s₂) (old : Bool) (r : Digest)
    (todo : List Digest) :
    SameStep (p.cascadeBlob s₁ old r todo) (q.cascadeBlob s₂ old r todo) := by
  simp only [Pass.cascadeBlob, removeBlob_fst, h.blobs, hs.blobs, goto_now, setBk_now, h.now]
  cases p.blobs.lookup r with
  | none => exact ⟨rfl, h.goto _⟩
  | some bb =>
    have hset := (h.setBk r (bb.unref old)).goto (.cascade old todo)
    simp only
    split
    · exact ⟨rfl, hset⟩
    · split
      · exact ⟨rfl, hset⟩
      · rename_i blob hl
        have hcredit := hset.credit (blobBucket blob).1 (blobBucket blob).2
        cases blob with
        | inMemory id content mt t => exact ⟨rfl, hcredit⟩
        | onDisk id size mt t => exact ⟨rfl, hcredit.goto _⟩

theorem Twin.write (h : p.Twin q) (hw₁ : c₁.write = .ok) (hw₂ : c₂.write = .ok) (id : ℕ)
    (content : Bytes) (ph : Phase) :
    SameStep (p.write c₁ id content ph) (q.write c₂ id content ph) := by
  simp only [Pass.write, hw₁, hw₂]
  exact ⟨rfl, h.goto _⟩

end Pass

/-- The file a phase is about to remove. -/
def Phase.unlinks : Phase → Option ℕ
  | .cascadeUnlink id _ _ | .sweepUnlink id _ => some id
  | _ => none

namespace Pass

/-- Every write succeeds, and the removal of a file does as `removed` tells. -/
structure AsPlanned (removed : ℕ → Bool) (x : State × Pass) (c : Choice) (_ : State × Pass) :
    Prop where
  write : c.write = .ok
  unlinked : ∀ id ∈ x.2.phase.unlinks, c.unlinked = removed id

variable {fromSlice : Bytes → Option Json} {s s₁ s₂ s₀ : State} {p p' q q' : Pass}
  {c c₁ c₂ : Choice} {a b : Act} {removed : ℕ → Bool} {x₁ x₂ : State × Pass}

/-- The step lemma of the lockstep. -/
theorem Twin.next (h : p.Twin q) (hs : s₁.SameMaps s₂) (hl : p.phase.looping)
    (hgo : ¬ (p.phase = .loop ∧ p.arm s₁.config = none))
    (huniq : ∀ pool, ∀ x ∈ p.heap pool, ∀ y ∈ p.heap pool,
      x.lastAccessTime = y.lastAccessTime → x = y)
    (hc₁ : AsPlanned removed (s₁, p) c₁ x₁) (hc₂ : AsPlanned removed (s₂, q) c₂ x₂)
    (h₁ : next fromSlice s₁ p c₁ = some (a, p')) (h₂ : next fromSlice s₂ q c₂ = some (b, q')) :
    SameStep (a, p') (b, q') := by
  have hof {r₁ r₂ : Act × Pass} (h : SameStep r₁ r₂) (h₁ : some r₁ = some (a, p'))
      (h₂ : some r₂ = some (b, q')) : SameStep (a, p') (b, q') := by
    cases h₁
    cases h₂
    exact h
  have hact {act₁ act₂ : Act} {r₁ r₂ : Pass} (he : act₂ = act₁) (h : r₁.Twin r₂)
      (h₁ : some (act₁, r₁) = some (a, p')) (h₂ : some (act₂, r₂) = some (b, q')) :
      SameStep (a, p') (b, q') := hof ⟨he, h⟩ h₁ h₂
  have hunlink (id : ℕ) (hu : p.phase.unlinks = some id) : unlink c₂ id = unlink c₁ id := by
    rw [unlink, unlink, hc₁.unlinked id hu, hc₂.unlinked id (by rw [h.phase, hu]; rfl)]
  unfold Pass.next at h₁ h₂
  rw [h.phase] at h₂
  cases hp : p.phase with
  | loop =>
    simp only [hp, hs.config, h.arm] at h₁ h₂
    cases ha : p.arm s₁.config with
    | none => exact absurd ⟨hp, ha⟩ hgo
    | some pool =>
      simp only [ha] at h₁ h₂
      split at h₁
      · cases h₁
      · split at h₂
        · cases h₂
        · rename_i _ x r₁ hx _ y r₂ hy
          obtain ⟨rfl, hr⟩ := popOldest_perm (h.heap pool) (huniq pool) hx hy
          exact hof ((h.popped pool hr).evictOne hs pool y) h₁ h₂
  | spillBlobs sp =>
    simp only [hp] at h₁ h₂
    cases ht : sp.todo with
    | nil =>
      simp only [ht] at h₁ h₂
      exact hact rfl ((h.push _ _).goto _) h₁ h₂
    | cons r rest =>
      simp only [ht] at h₁ h₂
      exact hact rfl (h.spillBlob hs _ r) h₁ h₂
  | spillWrite sp r held =>
    simp only [hp] at h₁ h₂
    exact hof (h.write hc₁.write hc₂.write _ _ _) h₁ h₂
  | spillInsert sp r held =>
    simp only [hp] at h₁ h₂
    exact hact rfl (((h.credit _ _).debit _ _).goto _) h₁ h₂
  | redisWrite key size t value id =>
    simp only [hp] at h₁ h₂
    exact hof (h.write hc₁.write hc₂.write _ _ _) h₁ h₂
  | redisInsert key size t value id =>
    simp only [hp] at h₁ h₂
    exact hact rfl ((((h.credit _ _).debit _ _).push _ _).goto _) h₁ h₂
  | retainTags d m =>
    simp only [hp] at h₁ h₂
    exact hact rfl (h.goto _) h₁ h₂
  | cascade old todo =>
    simp only [hp] at h₁ h₂
    cases todo with
    | nil => exact hact rfl (h.goto _) h₁ h₂
    | cons r todo => exact hof (h.cascadeBlob hs old r todo) h₁ h₂
  | cascadeUnlink id old todo =>
    simp only [hp] at h₁ h₂
    exact hact (hunlink id (by rw [hp]; rfl)) (h.goto _) h₁ h₂
  | _ =>
    rw [hp] at hl
    cases hl

/-- Two passes on reordered states, in their loops. -/
structure Paired (s₀ : State) (x₁ x₂ : State × Pass) : Prop where
  states : x₁.1.Reordered x₂.1
  twin : x₁.2.Twin x₂.2
  agrees : Agrees x₁.1 x₁.2
  candidates : x₁.2.Candidates fun y => y.Present s₀ ∧ y.Fits s₀
  looping : x₁.2.phase.looping

/-- The loop ends with the next step. -/
def Stops (x : State × Pass) : Prop := x.2.phase = .loop ∧ x.2.arm x.1.config = none

theorem Paired.start (h : s₁.Reordered s₂) : Paired s₁
    (Act.countRun.apply s₁, scanned fromSlice s₁) (Act.countRun.apply s₂, scanned fromSlice s₂) := by
  refine ⟨h.apply .countRun, scanned_twin h, (Alone.start s₁).agrees, ⟨fun pool x hx => ?_,
    fun _ x hx => hx.elim⟩, rfl⟩
  exact ⟨(scanned_wanted.mp hx).present, (scanned_timely s₁).heaps pool x hx⟩

theorem Paired.step (hdist : s₀.DistinctTimes) {x₁' x₂' : State × Pass} (h : Paired s₀ x₁ x₂)
    (hgo : ¬ Stops x₁) (hc₁ : AsPlanned removed x₁ c₁ x₁') (hc₂ : AsPlanned removed x₂ c₂ x₂')
    (h₁ : Pass.step fromSlice x₁ c₁ = some x₁') (h₂ : Pass.step fromSlice x₂ c₂ = some x₂') :
    Paired s₀ x₁' x₂' := by
  obtain ⟨a, p', hn₁, rfl⟩ := step_eq_some.mp h₁
  obtain ⟨b, q', hn₂, rfl⟩ := step_eq_some.mp h₂
  have hst := step_of_next hn₁
  have huniq (pool : Pool) (x : Candidate) (hx : x ∈ x₁.2.heap pool) (y : Candidate)
      (hy : y ∈ x₁.2.heap pool) (ht : x.lastAccessTime = y.lastAccessTime) : x = y := by
    obtain ⟨hpx, hfx⟩ := h.candidates.1 pool x hx
    obtain ⟨hpy, hfy⟩ := h.candidates.1 pool y hy
    exact Candidate.eq_of_time hdist hpx hfx hpy hfy ht
  obtain ⟨hact, htwin⟩ := h.twin.next h.states.toSameMaps h.looping hgo huniq hc₁ hc₂ hn₁ hn₂
  obtain rfl : b = a := hact
  exact ⟨h.states.apply b, htwin, h.agrees.step hst,
    h.candidates.turn hst.not_failed (hst.turn h.agrees),
    (hst.looping_or_failed h.looping hgo).resolve_right (hst.not_failed_of_ok hc₁.write)⟩

/-- Two passes come out of their loops as twins, on reordered states. -/
theorem Paired.run (hdist : s₀.DistinctTimes) {x₁' x₂' : State × Pass} (h : Paired s₀ x₁ x₂)
    {choices₁ choices₂ : List Choice}
    (hc₁ : Along (Pass.step fromSlice) (AsPlanned removed) x₁ choices₁)
    (hc₂ : Along (Pass.step fromSlice) (AsPlanned removed) x₂ choices₂)
    (hr₁ : Machine.run (Pass.step fromSlice) x₁ choices₁ = some x₁')
    (hr₂ : Machine.run (Pass.step fromSlice) x₂ choices₂ = some x₂')
    (hd₁ : x₁'.2.phase = .done) (hd₂ : x₂'.2.phase = .done) :
    ∃ y₁ y₂ rest₁ rest₂, Paired s₀ y₁ y₂ ∧ Stops y₁ ∧
      Along (Pass.step fromSlice) (AsPlanned removed) y₁ rest₁ ∧
      Along (Pass.step fromSlice) (AsPlanned removed) y₂ rest₂ ∧
      Machine.run (Pass.step fromSlice) y₁ rest₁ = some x₁' ∧
      Machine.run (Pass.step fromSlice) y₂ rest₂ = some x₂' := by
  refine run_lockstep (L := fun x => x.2.phase.looping) (T := Stops) (fun x y hxy => ?_)
    (fun x y c c' x' y' hxy hgo hc hc' => hxy.step hdist hgo hc hc') h hc₁ hc₂ hr₁ hr₂ ?_ ?_
  · exact ⟨hxy.looping, by rw [hxy.twin.phase]; exact hxy.looping⟩
  · rw [hd₁]
    nofun
  · rw [hd₂]
    nofun

end Pass

end Dockfoxprox

import Dockfoxprox.Proofs.EvictRace
import Dockfoxprox.Proofs.Lru
import Dockfoxprox.Proofs.Tags

/-! Two states that hold the same in maps of another order, and the passes on them. With
distinct access times each heap has one oldest candidate, so both loops take the same
steps. -/

namespace Dockfoxprox

open MapSum

/-- The states hold the same, in maps that may enumerate it in another order. -/
structure State.Reordered (s₁ s₂ : State) : Prop extends s₁.SameMaps s₂ where
  tags : ∀ t, s₂.tags.lookup t = s₁.tags.lookup t
  files : ∀ id, s₂.files.lookup id = s₁.files.lookup id
  usage : s₂.usage = s₁.usage
  now : s₂.now = s₁.now
  unlinks : s₂.unlinks = s₁.unlinks

/-- No two manifests or Redis entries have one access time. -/
def State.DistinctTimes (s : State) : Prop :=
  ∀ x y t, s.accessTime x = some t → s.accessTime y = some t → x = y

namespace Act

def onFiles (a : Act) (files : DashMap ℕ Bytes) : DashMap ℕ Bytes :=
  match a with
  | .writeFile id content => files.insert id content
  | .removeFile id => files.erase id
  | _ => files

def onUnlinks (a : Act) (entries : DashMap Bytes RedisEntry) (unlinks : List ℕ) : List ℕ :=
  match a with
  | .dropRedis key => unlinks ++ State.oldIds (entries.lookup key)
  | _ => unlinks

/-- The clock, the files and the spawned unlinks after an act. -/
theorem apply_rest (a : Act) (s : State) : (a.apply s).now = s.now ∧
    (a.apply s).files = a.onFiles s.files ∧
    (a.apply s).unlinks = a.onUnlinks s.redisEntries s.unlinks := by
  cases a with
  | markEvicted d =>
    simp only [apply]
    cases s.manifests.lookup d <;> exact ⟨rfl, rfl, rfl⟩
  | moveBlob d b =>
    obtain ⟨u, h⟩ := insertBlob_eq s d b
    simp only [apply, onFiles, onUnlinks, h, and_self]
  | dropRedis key =>
    obtain ⟨u, h⟩ := s.removeRedis_eq key
    simp only [apply, onFiles, onUnlinks, h, and_self]
  | dropManifest d =>
    obtain ⟨u, h⟩ := removeManifest_eq s d
    simp only [apply, onFiles, onUnlinks, h, and_self]
  | dropBlob d =>
    obtain ⟨u, h⟩ := removeBlob_eq s d
    simp only [apply, onFiles, onUnlinks, h, and_self]
  | _ => exact ⟨rfl, rfl, rfl⟩

end Act

namespace State.Reordered

variable {s₁ s₂ : State}

theorem usage_apply (h : s₁.Reordered s₂) (a : Act) : (a.apply s₂).usage = (a.apply s₁).usage := by
  have hu := h.usage
  cases a with
  | markEvicted d =>
    simp only [Act.apply, h.manifests]
    cases s₁.manifests.lookup d <;> exact hu
  | moveBlob d b =>
    have hl := share_congr (f := fun _ => blobCharge) (h.blobs d)
    show (s₂.insertBlob d b).usage = (s₁.insertBlob d b).usage
    rw [insertBlob_usage, insertBlob_usage, hl, hu]
  | dropBlob d =>
    have hl := share_congr (f := fun _ => blobCharge) (h.blobs d)
    show (s₂.removeBlob d).2.usage = (s₁.removeBlob d).2.usage
    rw [removeBlob_usage, removeBlob_usage, hl, hu]
  | dropManifest d =>
    have hl := share_congr (f := fun _ => manifestCharge) (h.manifests d)
    show (s₂.removeManifest d).2.usage = (s₁.removeManifest d).2.usage
    rw [removeManifest_usage, removeManifest_usage, hl, hu]
  | dropRedis k =>
    have hl := share_congr (f := redisCharge) (h.redis k)
    show (s₂.removeRedis k).2.usage = (s₁.removeRedis k).2.usage
    rw [removeRedis_usage, removeRedis_usage, hl, hu]
  | store b n => exact congrArg (Function.update · b n) hu
  | _ => exact hu

/-- An act leaves reordered states reordered. -/
theorem apply (h : s₁.Reordered s₂) (a : Act) : (a.apply s₁).Reordered (a.apply s₂) := by
  obtain ⟨hnow₁, hfiles₁, hunlinks₁⟩ := a.apply_rest s₁
  obtain ⟨hnow₂, hfiles₂, hunlinks₂⟩ := a.apply_rest s₂
  refine { config := ?_, manifests := fun d => ?_, blobs := fun d => ?_, redis := fun k => ?_,
           tags := fun t => ?_, files := fun id => ?_, usage := h.usage_apply a,
           now := hnow₂.trans (h.now.trans hnow₁.symm), unlinks := ?_ }
  · rw [Act.apply_config, Act.apply_config, h.config]
  · rw [Act.apply_manifests, Act.apply_manifests]
    cases a with
    | markEvicted d' =>
      simp only [Act.onManifests, h.manifests]
      cases s₁.manifests.lookup d' <;> simp only [lookup_insert_apply, h.manifests]
    | dropManifest d' => simp only [Act.onManifests, lookup_erase_apply, h.manifests]
    | _ => exact h.manifests d
  · rw [Act.apply_blobs, Act.apply_blobs]
    cases a <;> simp only [Act.onBlobs, lookup_insert_apply, lookup_erase_apply, h.blobs]
  · rw [Act.apply_redisEntries, Act.apply_redisEntries]
    cases a <;> simp only [Act.onRedis, lookup_insert_apply, lookup_erase_apply, h.redis]
  · rw [Act.apply_tags, Act.apply_tags]
    cases a <;> simp only [Act.onTags, lookup_retain_apply, h.tags]
  · rw [hfiles₁, hfiles₂]
    cases a <;> simp only [Act.onFiles, lookup_insert_apply, lookup_erase_apply, h.files]
  · rw [hunlinks₁, hunlinks₂]
    cases a <;> simp only [Act.onUnlinks, h.unlinks, h.redis]

end State.Reordered

namespace Candidate

/-- With distinct access times a candidate is told by its time. -/
theorem eq_of_time {s : State} (hd : s.DistinctTimes) {x y : Candidate} (hx : x.Present s)
    (hfx : x.Fits s) (hy : y.Present s) (hfy : y.Fits s)
    (ht : x.lastAccessTime = y.lastAccessTime) : x = y := by
  have hitem : x.item = y.item :=
    hd _ _ _ (hfx.accessTime hx) (ht ▸ hfy.accessTime hy)
  cases x with
  | manifest t d =>
    cases y with
    | manifest t' d' =>
      cases hitem
      cases ht
      rfl
    | redis key' t' size' => cases hitem
  | redis key t size =>
    cases y with
    | manifest t' d' => cases hitem
    | redis key' t' size' =>
      cases hitem
      cases ht
      obtain ⟨e, he⟩ := hx
      rw [← (hfx e he).2, ← (hfy e he).2]

end Candidate

/-- Heaps with the same candidates pop the same one where no two of them are equally old. -/
theorem popOldest_perm {h₁ h₂ r₁ r₂ : List Candidate} {x y : Candidate} {i j : ℕ}
    (hperm : h₂.Perm h₁)
    (huniq : ∀ x ∈ h₁, ∀ y ∈ h₁, x.lastAccessTime = y.lastAccessTime → x = y)
    (hx : popOldest h₁ i = some (x, r₁)) (hy : popOldest h₂ j = some (y, r₂)) :
    y = x ∧ r₂.Perm r₁ := by
  obtain ⟨hi, rfl, hlex⟩ := popOldest_spec hx
  obtain ⟨hj, rfl, hley⟩ := popOldest_spec hy
  have hxmem := List.mem_of_getElem? hi
  have hymem := List.mem_of_getElem? hj
  obtain rfl : y = x := by
    refine huniq y (hperm.mem_iff.mp hymem) x hxmem (Nat.le_antisymm ?_ ?_)
    · exact hley x (hperm.mem_iff.mpr hxmem)
    · exact hlex y (hperm.mem_iff.mp hymem)
  exact ⟨rfl, hperm.eraseIdx_of_getElem?_eq (hj.trans hi.symm)⟩

namespace Pass

variable {fromSlice : Bytes → Option Json} {s s₁ s₂ s₀ : State} {p p' q q' : Pass} {c c' : Choice}
  {a : Act}

/-- The candidates of a pass, those in its heaps and the one in hand. -/
def Candidates (Q : Candidate → Prop) (p : Pass) : Prop :=
  (∀ pool x, x ∈ p.heap pool → Q x) ∧ (p.phase ≠ .failed → ∀ x, p.phase.Handles x → Q x)

/-- A turn of the loop makes no new candidate. -/
theorem Candidates.turn {Q : Candidate → Prop} (h : p.Candidates Q) (hf : p.phase ≠ .failed)
    (ht : Turn s p a p') : p'.Candidates Q := by
  cases ht with
  | quiet hm hr hh hj hj' =>
    exact ⟨fun pool x hx => h.1 pool x (hh ▸ hx),
      fun hf' x hx => h.2 hf x ((hj' x hx).resolve_right fun hr => hf' hr.1)⟩
  | stale hp ha hpop hs =>
    refine ⟨fun pool x hx => h.1 pool x (mem_popped hpop hx), fun _ x hx => ?_⟩
    rw [popped_phase, hp] at hx
    exact hx.elim
  | drop hp ha hl hpop hx hh hj =>
    exact ⟨fun pool x hx => h.1 pool x (mem_popped hpop (hh ▸ hx)), fun _ x hx => absurd hx (hj x)⟩
  | start hp ha hpop hx hh hj hf' =>
    refine ⟨fun pool x hx => h.1 pool x (mem_popped hpop (hh ▸ hx)), fun _ y hy => ?_⟩
    obtain rfl := (hj y).mp hy
    exact h.1 _ _ (popOldest_mem hpop).1
  | finish hj hf ha hh hj' =>
    refine ⟨fun pool y hy => ?_, fun _ y hy => absurd hy (hj' y)⟩
    rw [hh] at hy
    rcases mem_push hy with ⟨-, rfl⟩ | hy
    · exact h.2 hf y ((hj y).mpr rfl)
    · exact h.1 pool y hy

/-- The passes have the same local variables but for the order of the heaps and the table. -/
structure Twin (p q : Pass) : Prop where
  now : q.now = p.now
  acc : q.acc = p.acc
  phase : q.phase = p.phase
  heap : ∀ pool, (q.heap pool).Perm (p.heap pool)
  blobs : ∀ d, q.blobs.lookup d = p.blobs.lookup d

namespace Twin

theorem goto (h : p.Twin q) (ph : Phase) : (p.goto ph).Twin (q.goto ph) :=
  ⟨h.now, h.acc, rfl, h.heap, h.blobs⟩

theorem credit (h : p.Twin q) (b : Bucket) (n : ℕ) : (p.credit b n).Twin (q.credit b n) :=
  ⟨h.now, congrArg (fun acc : Bucket → ℕ => Function.update acc b (acc b - n)) h.acc, h.phase,
    h.heap, h.blobs⟩

theorem debit (h : p.Twin q) (b : Bucket) (n : ℕ) : (p.debit b n).Twin (q.debit b n) :=
  ⟨h.now, congrArg (fun acc : Bucket → ℕ => Function.update acc b (min (acc b + n) (2 ^ 64 - 1)))
    h.acc, h.phase, h.heap, h.blobs⟩

theorem setBk (h : p.Twin q) (r : Digest) (bb : BlobBk) : (p.setBk r bb).Twin (q.setBk r bb) :=
  ⟨h.now, h.acc, h.phase, h.heap, fun d => by simp only [setBk_blobs, lookup_insert_apply, h.blobs]⟩

theorem popped (h : p.Twin q) (pool : Pool) {r₁ r₂ : List Candidate} (hr : r₂.Perm r₁) :
    (p.popped pool r₁).Twin (q.popped pool r₂) := by
  refine ⟨h.now, h.acc, h.phase, fun pool' => ?_, h.blobs⟩
  by_cases hp : pool' = pool
  · subst hp
    simpa using hr
  · simpa [hp] using h.heap pool'

theorem push (h : p.Twin q) (pool : Pool) (x : Candidate) : (p.push pool x).Twin (q.push pool x) :=
  h.popped pool ((h.heap pool).cons x)

theorem arm (h : p.Twin q) (config : Config) : q.arm config = p.arm config := by
  have hnil (pool : Pool) : q.heap pool = [] ↔ p.heap pool = [] := by
    rw [← List.length_eq_zero_iff, (h.heap pool).length_eq, List.length_eq_zero_iff]
  simp only [Pass.arm, h.acc, ne_eq, hnil]

end Twin

end Pass

end Dockfoxprox

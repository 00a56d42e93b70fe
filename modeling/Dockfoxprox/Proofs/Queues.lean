import Dockfoxprox.Proofs.Agreement
import Dockfoxprox.Proofs.Candidates
import Dockfoxprox.Proofs.Effects

/-! The heaps of a pass that runs alone. A turn of the loop takes a candidate, drops its
entry or works on it until it is a candidate of the disk heap. Every entry still in the maps
is then in each heap it is a candidate of, unless the large heap has let go of it, and every
candidate tells the access time of its entry. -/

namespace Dockfoxprox

open MapSum

/-- The candidate a spill works on. A pass that failed may have lost any. -/
def Phase.Handles (c : Candidate) : Phase → Prop
  | .spillBlobs sp | .spillWrite sp _ _ | .spillInsert sp _ _ =>
    c = .manifest sp.lastAccesses sp.digest
  | .redisWrite key size t _ _ | .redisInsert key size t _ _ => c = .redis key t size
  | .failed => True
  | _ => False

/-- A Redis entry that is still what it was, or has been spilled since. -/
def RedisEntry.Becomes (e e' : RedisEntry) : Prop :=
  e' = e ∨ ∃ value id t, e = .inMemory value id t ∧ memoryTierThreshold < value.length ∧
    e' = .onDisk value.length id t

/-- A blob that is still what it was, or has been spilled since. -/
def Blob.Becomes (b b' : Blob) : Prop :=
  b' = b ∨ ∃ id content mt t, b = .inMemory id content mt t ∧
    memoryTierThreshold < content.length ∧ b' = .onDisk id content.length mt t

/-- What is in the maps was there before: no entry is new, and the access times are those
that were recorded. -/
structure State.Keeps (s s' : State) : Prop where
  config : s'.config = s.config
  manifests : ∀ d m', s'.manifests.lookup d = some m' →
    ∃ m, s.manifests.lookup d = some m ∧ m' = { m with evicted := m'.evicted } ∧
      (m.evicted = true → m'.evicted = true)
  blobs : ∀ d b', s'.blobs.lookup d = some b' → ∃ b, s.blobs.lookup d = some b ∧ b.Becomes b'
  redis : ∀ key e', s'.redisEntries.lookup key = some e' →
    ∃ e, s.redisEntries.lookup key = some e ∧ e.Becomes e'

theorem RedisEntry.Becomes.trans {e e' e'' : RedisEntry} (h : e.Becomes e') (h' : e'.Becomes e'') :
    e.Becomes e'' := by
  rcases h' with rfl | ⟨value, id, t, rfl, hl, rfl⟩
  · exact h
  · rcases h with h | ⟨_, _, _, -, -, h⟩
    · exact .inr ⟨value, id, t, h.symm, hl, rfl⟩
    · cases h

theorem RedisEntry.Becomes.same {e e' : RedisEntry} (h : e.Becomes e') :
    e'.lastAccessed = e.lastAccessed ∧ (redisValueBucket e').2 = (redisValueBucket e).2 := by
  rcases h with rfl | ⟨value, id, t, rfl, hl, rfl⟩
  · exact ⟨rfl, rfl⟩
  · exact ⟨rfl, by simp [redisValueBucket, hl]⟩

theorem Blob.Becomes.trans {b b' b'' : Blob} (h : b.Becomes b') (h' : b'.Becomes b'') :
    b.Becomes b'' := by
  rcases h' with rfl | ⟨id, content, mt, t, rfl, hl, rfl⟩
  · exact h
  · rcases h with h | ⟨_, _, _, _, -, -, h⟩
    · exact .inr ⟨id, content, mt, t, h.symm, hl, rfl⟩
    · cases h

theorem State.Keeps.refl (s : State) : s.Keeps s :=
  ⟨rfl, fun _ m' h => ⟨m', h, rfl, id⟩, fun _ b' h => ⟨b', h, .inl rfl⟩,
    fun _ e' h => ⟨e', h, .inl rfl⟩⟩

theorem State.Keeps.trans {s s' s'' : State} (h : s.Keeps s') (h' : s'.Keeps s'') :
    s.Keeps s'' := by
  refine ⟨h'.config.trans h.config, fun d m'' hm => ?_, fun d b'' hb => ?_, fun k e'' he => ?_⟩
  · obtain ⟨m', hm', heq', hev'⟩ := h'.manifests d m'' hm
    obtain ⟨m, hm, heq, hev⟩ := h.manifests d m' hm'
    refine ⟨m, hm, ?_, fun hm => hev' (hev hm)⟩
    rw [heq', heq]
  · obtain ⟨b', hb', hbec'⟩ := h'.blobs d b'' hb
    obtain ⟨b, hb, hbec⟩ := h.blobs d b' hb'
    exact ⟨b, hb, hbec.trans hbec'⟩
  · obtain ⟨e', he', hbec'⟩ := h'.redis k e'' he
    obtain ⟨e, he, hbec⟩ := h.redis k e' he'
    exact ⟨e, he, hbec.trans hbec'⟩

namespace Candidate

def Present (s : State) : Candidate → Prop
  | .manifest _ d => ∃ m, s.manifests.lookup d = some m
  | .redis key _ _ => ∃ e, s.redisEntries.lookup key = some e

/-- A candidate tells the access time of its entry, and of a Redis entry its size. -/
def Fits (s : State) : Candidate → Prop
  | .manifest t d => ∀ m, s.manifests.lookup d = some m → m.lastUsed = t
  | .redis key t size => ∀ e, s.redisEntries.lookup key = some e →
      e.lastAccessed = t ∧ (redisValueBucket e).2 = size

/-- A manifest that is flagged evicted, if it is still there. -/
def Flagged (s : State) : Candidate → Prop
  | .manifest _ d => ∀ m, s.manifests.lookup d = some m → m.evicted = true
  | .redis _ _ _ => True

/-- What the loop does to the entry of a candidate it drops, -/
def dropAct : Candidate → Act
  | .manifest _ d => .dropManifest d
  | .redis key _ _ => .dropRedis key

/-- and to one it starts to spill. -/
def startAct : Candidate → Act
  | .manifest _ d => .markEvicted d
  | .redis _ _ _ => .idle

theorem Fits.keeps {s s' : State} (hk : s.Keeps s') {x : Candidate} (h : x.Fits s) :
    x.Fits s' := by
  cases x with
  | manifest t d =>
    intro m' hm'
    obtain ⟨m, hm, heq, -⟩ := hk.manifests d m' hm'
    rw [heq]
    exact h m hm
  | redis key t size =>
    intro e' he'
    obtain ⟨e, he, hbec⟩ := hk.redis key e' he'
    rw [hbec.same.1, hbec.same.2]
    exact h e he

theorem Flagged.keeps {s s' : State} (hk : s.Keeps s') {x : Candidate} (h : x.Flagged s) :
    x.Flagged s' := by
  cases x with
  | manifest t d =>
    intro m' hm'
    obtain ⟨m, hm, -, hev⟩ := hk.manifests d m' hm'
    exact hev (h m hm)
  | redis key t size => trivial

end Candidate

namespace Pass

variable {fromSlice : Bytes → Option Json} {s s' : State} {p p' : Pass} {c : Choice} {a : Act}

/-- What a step does to the heaps, with the manifests and the Redis entries. -/
inductive Turn (s : State) (p : Pass) : Act → Pass → Prop
  | quiet {a : Act} {p' : Pass} (hm : a.onManifests s.manifests = s.manifests)
      (hr : a.onRedis s.redisEntries = s.redisEntries) (hh : p'.heap = p.heap)
      (hj : ∀ x, p.phase.Handles x → p'.phase.Handles x)
      (hj' : ∀ x, p'.phase.Handles x →
        p.phase.Handles x ∨ p'.phase = .failed ∧ ∃ y, p.phase.Handles y) : Turn s p a p'
  | stale {pool x rest i} (hp : p.phase = .loop) (ha : p.arm s.config = some pool)
      (hpop : popOldest (p.heap pool) i = some (x, rest)) (hs : Stale s pool x) :
      Turn s p .idle (p.popped pool rest)
  | drop {pool x rest i} {p' : Pass} (hp : p.phase = .loop) (ha : p.arm s.config = some pool)
      (hl : pool ≠ .largeMemory) (hpop : popOldest (p.heap pool) i = some (x, rest))
      (hx : x.Present s) (hh : p'.heap = (p.popped pool rest).heap)
      (hj : ∀ y, ¬ p'.phase.Handles y) : Turn s p x.dropAct p'
  | start {x rest i} {p' : Pass} (hp : p.phase = .loop) (ha : p.arm s.config = some .largeMemory)
      (hpop : popOldest (p.heap .largeMemory) i = some (x, rest)) (hx : x.Present s)
      (hh : p'.heap = (p.popped .largeMemory rest).heap)
      (hj : ∀ y, p'.phase.Handles y ↔ y = x) (hf : p'.phase ≠ .failed) : Turn s p x.startAct p'
  | finish {x} {a : Act} {p' : Pass} (hj : ∀ y, p.phase.Handles y ↔ y = x) (hf : p.phase ≠ .failed)
      (ha : (∃ t d, x = .manifest t d ∧ a = .idle) ∨ ∃ key t size id value u,
        x = .redis key t size ∧ a = .moveRedis key size t id ∧
          s.redisEntries.lookup key = some (.inMemory value id u) ∧
            memoryTierThreshold < value.length)
      (hh : p'.heap = (p.push .disk x).heap) (hj' : ∀ y, ¬ p'.phase.Handles y) : Turn s p a p'

theorem Agrees.counted (h : Agrees s p) : p.phase.stage = .counted := by
  have hholds := h.holds
  cases hp : p.phase <;> rw [hp] at hholds <;> first | rfl | exact hholds.elim

theorem Agrees.held (h : Agrees s p) {r : Digest} {held : HeldBlob}
    (hh : p.phase.held = some (r, held)) : s.blobs.lookup r =
      some (.inMemory held.id held.content held.mediaType held.lastAccessed) ∧
        memoryTierThreshold < held.content.length := by
  have hholds := h.holds
  cases hp : p.phase <;> rw [hp] at hholds hh <;> cases hh <;> exact hholds

theorem Turn.inert {a : Act} (ha : a.inert) (hh : p'.heap = p.heap)
    (hj : ∀ x, p.phase.Handles x → p'.phase.Handles x)
    (hj' : ∀ x, p'.phase.Handles x →
      p.phase.Handles x ∨ p'.phase = .failed ∧ ∃ y, p.phase.Handles y) : Turn s p a p' :=
  .quiet (Act.onManifests_inert ha _) (Act.onRedis_inert ha _) hh hj hj'

theorem Step.turn (h : Agrees s p) (hs : Step fromSlice s p c a p') : Turn s p a p' := by
  have hholds := h.holds
  have hsame {a : Act} {q : Pass} (ha : a.inert) (hh : q.heap = p.heap)
      (hj : ∀ x, p.phase.Handles x ↔ q.phase.Handles x) : Turn s p a q :=
    .inert ha hh (fun x => (hj x).mp) fun x hx => .inl ((hj x).mpr hx)
  cases hs with
  | begin hp => rw [hp] at hholds; exact hholds.elim
  | scanBlobs hp => rw [hp] at hholds; exact hholds.elim
  | scanManifests hp => rw [hp] at hholds; exact hholds.elim
  | scanRedis hp => rw [hp] at hholds; exact hholds.elim
  | stale hp ha hpop hs => exact .stale hp ha hpop hs
  | @dropRedis hp pool b key t size rest e hb ha hpop he =>
    have hl : pool ≠ .largeMemory := by rcases hb with ⟨rfl, -⟩ | ⟨rfl, -⟩ <;> decide
    exact @Turn.drop s p pool (.redis key t size) rest _ _ hp ha hl hpop ⟨e, he⟩ rfl
      fun y => by simp [hp, Phase.Handles]
  | @dropManifest hp pool t d rest m hl ha hpop hm =>
    exact @Turn.drop s p pool (.manifest t d) rest _ _ hp ha hl hpop ⟨m, hm⟩ rfl
      fun y => by simp [Phase.Handles]
  | @spillManifest hp t d rest m ha hpop hm =>
    exact @Turn.start s p (.manifest t d) rest _ _ hp ha hpop ⟨m, hm⟩ rfl
      (fun y => Iff.rfl) nofun
  | @fetchRedis hp key t size rest value id ha hpop hf =>
    have he : (Candidate.redis key t size).Present s := by
      unfold State.spillFetch at hf
      split at hf
      · exact ⟨_, ‹_›⟩
      · cases hf
    exact @Turn.start s p (.redis key t size) rest _ _ hp ha hpop he rfl (fun y => Iff.rfl) nofun
  | @spillEnd sp hp ht =>
    exact .finish (x := .manifest sp.lastAccesses sp.digest) (fun y => by rw [hp]; rfl)
      (by rw [hp]; nofun) (.inl ⟨_, _, rfl, rfl⟩) rfl fun y hy => hy
  | @redisInsert key size t value id hp =>
    rw [hp] at hholds
    obtain ⟨⟨u, hl⟩, rfl, hlarge⟩ := hholds
    exact .finish (x := .redis key t value.length) (fun y => by rw [hp]; rfl) (by rw [hp]; nofun)
      (.inr ⟨key, t, _, id, value, u, rfl, rfl, hl, hlarge⟩) rfl fun y hy => hy
  | spillInsert hp =>
    exact .quiet rfl rfl rfl (fun x hx => by rwa [hp] at hx) fun x hx => .inl (by rwa [hp])
  | @cascadeDrop old r todo bb blob hp hb hr ht hl =>
    cases blob <;>
      exact .quiet rfl rfl rfl (fun x hx => by rw [hp] at hx; exact hx) fun x hx => .inl
        (by rw [hp]; exact hx)
  | @sweepDrop todo r bb blob hp hd hb hr ht hl =>
    cases blob <;>
      exact .quiet rfl rfl rfl (fun x hx => by rw [hp] at hx; exact hx) fun x hx => .inl
        (by rw [hp]; exact hx)
  | store hp =>
    exact .quiet rfl rfl rfl (fun x hx => by rwa [hp] at hx) fun x hx => .inl (by rwa [hp])
  | writeFailed hp hw =>
    refine .inert (Act.inert_leftover ..) rfl (fun _ _ => trivial) fun _ _ => .inr ⟨rfl, ?_⟩
    rcases hp with ⟨_, _, _, hp, -⟩ | ⟨_, _, _, _, hp⟩ <;> rw [hp] <;> exact ⟨_, rfl⟩
  | cascadeUnlink hp => exact hsame (Act.inert_unlink ..) rfl fun x => by rw [hp]; rfl
  | sweepUnlink hp => exact hsame (Act.inert_unlink ..) rfl fun x => by rw [hp]; rfl
  | _ hp => exact hsame rfl rfl fun x => by rw [hp]; rfl

/-- The candidates of the heaps, and the one in hand, say what their entries do. -/
structure Timely (s : State) (p : Pass) : Prop where
  heaps : ∀ pool x, x ∈ p.heap pool → x.Fits s
  hand : p.phase ≠ .failed → ∀ x, p.phase.Handles x → x.Fits s

theorem Step.keeps_blobs (h : Agrees s p) (hs : Step fromSlice s p c a p') (d : Digest) (b' : Blob)
    (hb : (a.onBlobs s.blobs).lookup d = some b') :
    ∃ b, s.blobs.lookup d = some b ∧ b.Becomes b' := by
  have hsame (h : s.blobs.lookup d = some b') : ∃ b, s.blobs.lookup d = some b ∧ b.Becomes b' :=
    ⟨b', h, .inl rfl⟩
  cases hs.effect h.counted with
  | still ha _ => exact hsame (by rwa [Act.onBlobs_keeps ha] at hb)
  | @moveBlob r held _ hh hs =>
    have hheld := h.held hh
    simp only [Act.onBlobs, lookup_insert_apply] at hb
    split at hb
    · rename_i hd
      subst hd
      cases hb
      exact ⟨_, hheld.1, .inr ⟨_, _, _, _, rfl, hheld.2, rfl⟩⟩
    · exact hsame hb
  | cascadeDrop => exact hsame (lookup_of_erase hb)
  | sweepDrop => exact hsame (lookup_of_erase hb)
  | _ => exact hsame hb

theorem Turn.keeps (ht : Timely s p) (h : Turn s p a p')
    (hb : ∀ d b', (a.onBlobs s.blobs).lookup d = some b' →
      ∃ b, s.blobs.lookup d = some b ∧ b.Becomes b') : s.Keeps (a.apply s) := by
  have hsameM {d m'} (h : s.manifests.lookup d = some m') : ∃ m, s.manifests.lookup d = some m ∧
      m' = { m with evicted := m'.evicted } ∧ (m.evicted = true → m'.evicted = true) :=
    ⟨m', h, rfl, id⟩
  have hsameR {k e'} (h : s.redisEntries.lookup k = some e') :
      ∃ e, s.redisEntries.lookup k = some e ∧ e.Becomes e' := ⟨e', h, .inl rfl⟩
  refine ⟨a.apply_config s, fun d m' hm => ?_, fun d b' hd => hb d b' (by rwa [← a.apply_blobs s]),
    fun k e' he => ?_⟩
  · rw [Act.apply_manifests] at hm
    cases h with
    | quiet hmm => exact hsameM (by rwa [hmm] at hm)
    | stale => exact hsameM hm
    | @drop _ x =>
      cases x with
      | manifest t d' => exact hsameM (lookup_of_erase hm)
      | redis key t size => exact hsameM hm
    | @start x _ _ _ _ _ _ hx =>
      cases x with
      | manifest t d' =>
        obtain ⟨m, hl⟩ := hx
        simp only [Candidate.startAct, Act.onManifests, hl, lookup_insert_apply] at hm
        split at hm
        · rename_i hd
          subst hd
          cases hm
          exact ⟨m, hl, rfl, fun _ => rfl⟩
        · exact hsameM hm
      | redis key t size => exact hsameM hm
    | finish _ _ ha =>
      rcases ha with ⟨t, d', -, rfl⟩ | ⟨key, t, size, id, value, u, -, rfl, -, -⟩ <;>
        exact hsameM hm
  · rw [Act.apply_redisEntries] at he
    cases h with
    | quiet _ hr => exact hsameR (by rwa [hr] at he)
    | stale => exact hsameR he
    | @drop _ x =>
      cases x with
      | manifest t d' => exact hsameR he
      | redis key t size => exact hsameR (lookup_of_erase he)
    | @start x => cases x <;> exact hsameR he
    | finish hj hf ha =>
      rcases ha with ⟨t, d', -, rfl⟩ | ⟨key, t, size, id, value, u, rfl, rfl, hl, hlarge⟩
      · exact hsameR he
      · obtain ⟨rfl, rfl⟩ := ht.hand hf _ ((hj _).mpr rfl) _ hl
        simp only [Act.onRedis, lookup_insert_apply] at he
        split at he
        · rename_i hk
          subst hk
          cases he
          refine ⟨_, hl, .inr ⟨value, id, u, rfl, hlarge, ?_⟩⟩
          simp [RedisEntry.lastAccessed, redisValueBucket, hlarge]
        · exact hsameR he

theorem Step.not_failed (hs : Step fromSlice s p c a p') : p.phase ≠ .failed := by
  cases hs with
  | writeFailed hp hw =>
    rcases hp with ⟨_, _, _, hp, -⟩ | ⟨_, _, _, _, hp⟩ <;> rw [hp] <;> nofun
  | _ hp => rw [hp]; nofun

theorem Timely.turn (h : Timely s p) (hf : p.phase ≠ .failed) (ht : Turn s p a p')
    (hk : s.Keeps (a.apply s)) : Timely (a.apply s) p' := by
  have hsub {pool : Pool} {rest : List Candidate} {i : ℕ} {x : Candidate}
      (hpop : popOldest (p.heap pool) i = some (x, rest)) (hh : p'.heap = (p.popped pool rest).heap)
      (pool' : Pool) (y : Candidate) (hy : y ∈ p'.heap pool') : y.Fits (a.apply s) := by
    rw [hh] at hy
    exact (h.heaps pool' y (mem_popped hpop hy)).keeps hk
  cases ht with
  | quiet hm hr hh hj hj' =>
    exact ⟨fun pool x hx => (h.heaps pool x (hh ▸ hx)).keeps hk,
      fun hf' x hx => (h.hand hf x ((hj' x hx).resolve_right fun hr => hf' hr.1)).keeps hk⟩
  | stale hp ha hpop hs =>
    refine ⟨hsub hpop rfl, fun _ x hx => ?_⟩
    rw [popped_phase, hp] at hx
    exact hx.elim
  | drop hp ha hl hpop hx hh hj => exact ⟨hsub hpop hh, fun _ x hx => absurd hx (hj x)⟩
  | start hp ha hpop hx hh hj hf' =>
    refine ⟨hsub hpop hh, fun _ y hy => ?_⟩
    obtain rfl := (hj y).mp hy
    exact (h.heaps _ _ (popOldest_mem hpop).1).keeps hk
  | finish hj hf ha hh hj' =>
    refine ⟨fun pool y hy => ?_, fun _ y hy => absurd hy (hj' y)⟩
    rw [hh] at hy
    rcases mem_push hy with ⟨-, rfl⟩ | hy
    · exact (h.hand hf y ((hj y).mpr rfl)).keeps hk
    · exact (h.heaps pool y hy).keeps hk

section
variable (fromSlice)

/-- An entry in the maps makes a candidate for a heap. -/
def Wanted (blobs : DashMap Digest Blob) (s : State) (pool : Pool) (x : Candidate) : Prop :=
  (∃ key e, s.redisEntries.lookup key = some e ∧ redisCandidate pool key e = some x) ∨
    ∃ d m, s.manifests.lookup d = some m ∧ manifestCandidate fromSlice blobs pool d m = some x

/-- Every entry is in the heaps it is a candidate for. The large heap has let go of what
is being spilled and of what the disk heap has got. -/
def Queued (blobs : DashMap Digest Blob) (s : State) (p : Pass) : Prop :=
  ∀ pool x, Wanted fromSlice blobs s pool x → x ∈ p.heap pool ∨
    pool = .largeMemory ∧ x.Flagged s ∧ (p.phase.Handles x ∨ x ∈ p.heap .disk)

end

variable {blobs : DashMap Digest Blob}

theorem redisCandidate_key {pool : Pool} {key : Bytes} {e : RedisEntry} {x : Candidate}
    (h : redisCandidate pool key e = some x) :
    redisPool e = pool ∧ x = .redis key e.lastAccessed (redisValueBucket e).2 := by
  unfold redisCandidate at h
  split at h
  · exact ⟨‹_›, (Option.some.inj h).symm⟩
  · cases h

theorem manifestCandidate_digest {pool : Pool} {d : Digest} {m : Manifest} {x : Candidate}
    (h : manifestCandidate fromSlice blobs pool d m = some x) : x = .manifest m.lastUsed d := by
  simp only [manifestCandidate, Option.ite_none_right_eq_some] at h
  exact (Option.some.inj h.2).symm

theorem Wanted.present {pool : Pool} {x : Candidate} (h : Wanted fromSlice blobs s pool x) :
    x.Present s := by
  rcases h with ⟨key, e, he, hc⟩ | ⟨d, m, hm, hc⟩
  · rw [(redisCandidate_key hc).2]
    exact ⟨e, he⟩
  · rw [manifestCandidate_digest hc]
    exact ⟨m, hm⟩

/-- The loop has no use for a popped candidate that no entry makes any more. -/
theorem Stale.not_wanted {pool pool' : Pool} {x : Candidate} (hs : Stale s pool x)
    (hpool : pool' = pool ∨ pool = .disk) : ¬ Wanted fromSlice blobs s pool' x := by
  intro h
  have hx := h.present
  cases x with
  | manifest t d =>
    obtain ⟨m, hm⟩ := hx
    rw [Stale, hm] at hs
    cases hs
  | redis key t size =>
    obtain ⟨e, he⟩ := hx
    simp only [Stale] at hs
    split at hs
    · rename_i hl
      subst hl
      obtain rfl : pool' = .largeMemory := hpool.resolve_right (by decide)
      rcases h with ⟨key', e', he', hc⟩ | ⟨d, m, hm, hc⟩
      · obtain ⟨hp, hx⟩ := redisCandidate_key hc
        cases hx
        obtain rfl : e = e' := Option.some.inj (he.symm.trans he')
        cases e with
        | inMemory value id u => simp [State.spillFetch, he] at hs
        | onDisk n id u => cases hp
      · cases manifestCandidate_digest hc
    · rw [he] at hs
      cases hs

theorem mem_popped_of_ne {pool pool' : Pool} {x y : Candidate} {rest : List Candidate} {i : ℕ}
    (hpop : popOldest (p.heap pool) i = some (x, rest)) (hy : y ∈ p.heap pool')
    (hne : pool' = pool → y ≠ x) : y ∈ (p.popped pool rest).heap pool' := by
  by_cases hp : pool' = pool
  · subst hp
    rw [popped_heap, Function.update_self]
    exact (mem_of_popOldest hpop hy).resolve_left (hne rfl)
  · rwa [popped_heap, Function.update_of_ne hp]

theorem mem_push_disk {pool : Pool} {x y : Candidate} (hy : y ∈ p.heap pool) :
    y ∈ (p.push .disk x).heap pool := by
  by_cases hp : pool = .disk
  · subst hp
    rw [push_heap, Function.update_self]
    exact List.mem_cons_of_mem x hy
  · rwa [push_heap, Function.update_of_ne hp]

/-- An entry that the loop drops or flags makes no other candidate than before. -/
theorem Wanted.act {x y : Candidate} {pool : Pool} (ha : a = x.dropAct ∨ a = x.startAct)
    (h : Wanted fromSlice blobs (a.apply s) pool y) : Wanted fromSlice blobs s pool y := by
  unfold Wanted at h
  rw [Act.apply_manifests, Act.apply_redisEntries] at h
  rcases h with ⟨key, e, he, hc⟩ | ⟨d, m, hm, hc⟩
  · refine .inl ⟨key, e, ?_, hc⟩
    rcases ha with rfl | rfl <;> cases x <;> first | exact lookup_of_erase he | exact he
  · rcases ha with rfl | rfl
    · cases x with
      | manifest t d' => exact .inr ⟨d, m, lookup_of_erase hm, hc⟩
      | redis key t size => exact .inr ⟨d, m, hm, hc⟩
    · cases x with
      | manifest t d' =>
        simp only [Candidate.startAct, Act.onManifests] at hm
        split at hm
        · rename_i m' hm'
          rw [lookup_insert_apply] at hm
          split at hm
          · rename_i hd
            subst hd
            cases hm
            exact .inr ⟨d, m', hm', hc⟩
          · exact .inr ⟨d, m, hm, hc⟩
        · exact .inr ⟨d, m, hm, hc⟩
      | redis key t size => exact .inr ⟨d, m, hm, hc⟩

theorem not_present_dropAct {x : Candidate} : ¬ x.Present (x.dropAct.apply s) := by
  cases x with
  | manifest t d => simp [Candidate.Present, Candidate.dropAct, Act.onManifests]
  | redis key t size => simp [Candidate.Present, Candidate.dropAct, Act.onRedis]

theorem flagged_startAct {x : Candidate} (hx : x.Present s) : x.Flagged (x.startAct.apply s) := by
  cases x with
  | manifest t d =>
    obtain ⟨m, hm⟩ := hx
    intro m' hm'
    simp only [Candidate.startAct, Act.apply_manifests, Act.onManifests, hm,
      AList.lookup_insert, Option.some.injEq] at hm'
    rw [← hm']
  | redis key t size => trivial

theorem Queued.turn (h : Queued fromSlice blobs s p) (ht : Turn s p a p')
    (hk : s.Keeps (a.apply s)) : Queued fromSlice blobs (a.apply s) p' := by
  intro pool y hw
  have hflag : y.Flagged s → y.Flagged (a.apply s) := Candidate.Flagged.keeps hk
  cases ht with
  | quiet hm hr hh hj hj' =>
    have hw' : Wanted fromSlice blobs s pool y := by
      unfold Wanted at hw ⊢
      rwa [Act.apply_manifests, Act.apply_redisEntries, hm, hr] at hw
    rw [hh]
    exact (h pool y hw').imp_right fun ⟨hl, hf, hy⟩ => ⟨hl, hflag hf, hy.imp_left (hj y)⟩
  | stale hp ha hpop hs =>
    rcases h pool y hw with hy | ⟨hl, hf, hy⟩
    · refine .inl (mem_popped_of_ne hpop hy fun hpool => ?_)
      rintro rfl
      exact hs.not_wanted (.inl hpool) hw
    · refine .inr ⟨hl, hf, hy.imp_right fun hy => mem_popped_of_ne hpop hy fun hpool => ?_⟩
      rintro rfl
      exact hs.not_wanted (.inr hpool.symm) hw
  | @drop _ x _ _ _ hp ha hl hpop hx hh hj =>
    have hne : y ≠ x := by
      rintro rfl
      exact not_present_dropAct hw.present
    rw [hh]
    rcases h pool y (hw.act (.inl rfl)) with hy | ⟨hl, hf, hy⟩
    · exact .inl (mem_popped_of_ne hpop hy fun _ => hne)
    · rw [hp] at hy
      exact .inr ⟨hl, hflag hf, .inr (mem_popped_of_ne hpop (hy.resolve_left id) fun _ => hne)⟩
  | @start x _ _ _ hp ha hpop hx hh hj hf' =>
    by_cases hyx : pool = .largeMemory ∧ y = x
    · obtain ⟨rfl, rfl⟩ := hyx
      exact .inr ⟨rfl, flagged_startAct hx, .inl ((hj y).mpr rfl)⟩
    · rw [hh]
      rcases h pool y (hw.act (.inr rfl)) with hy | ⟨hl, hf, hy⟩
      · exact .inl (mem_popped_of_ne hpop hy fun hpool heq => hyx ⟨hpool, heq⟩)
      · rw [hp] at hy
        exact .inr ⟨hl, hflag hf,
          .inr (mem_popped_of_ne hpop (hy.resolve_left id) fun hd => by cases hd)⟩
  | @finish x _ _ hj hf ha hh hj' =>
    have hmem : x ∈ p'.heap .disk := by
      rw [hh, push_heap, Function.update_self]
      exact List.mem_cons_self
    have hold (hw' : Wanted fromSlice blobs s pool y) : y ∈ p'.heap pool ∨
        pool = .largeMemory ∧ y.Flagged (a.apply s) ∧ (p'.phase.Handles y ∨ y ∈ p'.heap .disk) := by
      rcases h pool y hw' with hy | ⟨hl, hf, hy⟩
      · rw [hh]
        exact .inl (mem_push_disk hy)
      · refine .inr ⟨hl, hflag hf, .inr ?_⟩
        rcases hy with hy | hy
        · obtain rfl := (hj y).mp hy
          exact hmem
        · rw [hh]
          exact mem_push_disk hy
    rcases ha with ⟨t, d, -, rfl⟩ | ⟨key, t, size, id, value, u, rfl, rfl, hl, hlarge⟩
    · exact hold hw
    · rcases hw with ⟨key', e, he, hc⟩ | hw
      · simp only [Act.apply_redisEntries, Act.onRedis, lookup_insert_apply] at he
        split at he
        · rename_i hkey
          subst hkey
          cases he
          obtain ⟨rfl, rfl⟩ := redisCandidate_key hc
          exact .inl hmem
        · exact hold (.inl ⟨key', e, he, hc⟩)
      · rw [Act.apply_manifests] at hw
        exact hold (.inr hw)

/-! ### The start of the loop and a whole run -/

theorem scanned_wanted {pool : Pool} {x : Candidate} :
    x ∈ (scanned fromSlice s).heap pool ↔ Wanted fromSlice s.blobs s pool x :=
  mem_scanned_heap

theorem scanned_timely (s : State) : Timely s (scanned fromSlice s) := by
  refine ⟨fun pool x hx => ?_, fun _ x hx => hx.elim⟩
  rcases mem_scanned_heap.mp hx with ⟨key, e, he, hc⟩ | ⟨d, m, hm, hc⟩
  · rw [(redisCandidate_key hc).2]
    intro e' he'
    obtain rfl : e = e' := Option.some.inj (he.symm.trans he')
    exact ⟨rfl, rfl⟩
  · rw [manifestCandidate_digest hc]
    intro m' hm'
    obtain rfl : m = m' := Option.some.inj (hm.symm.trans hm')
    rfl

theorem scanned_tiers (s : State) : TiersAre s.blobs (scanned fromSlice s).blobs := by
  intro d
  rw [scanned_lookup, Option.map_map]
  rfl

section
variable (fromSlice)

/-- A pass on its own that began in `s₀` and is over its scans. -/
structure Alone (s₀ s : State) (p : Pass) : Prop where
  agrees : Agrees s p
  keeps : s₀.Keeps s
  timely : Timely s p
  queued : Queued fromSlice s₀.blobs s p
  tiers : TiersAre s₀.blobs p.blobs

end

variable {s₀ : State}

theorem Alone.start (s : State) :
    Alone fromSlice s (Act.countRun.apply s) (scanned fromSlice s) := by
  have hag : Agrees s (scanned fromSlice s) := (scanned_spec s).agrees
  have hk : s.Keeps (Act.countRun.apply s) := ⟨rfl, fun _ m h => ⟨m, h, rfl, id⟩,
    fun _ b h => ⟨b, h, .inl rfl⟩, fun _ e h => ⟨e, h, .inl rfl⟩⟩
  exact ⟨hag.frame rfl rfl rfl rfl hag.holds, hk,
    ⟨fun pool x hx => ((scanned_timely s).heaps pool x hx).keeps hk, fun _ x hx => hx.elim⟩,
    fun pool x hw => .inl (scanned_wanted.mpr hw), scanned_tiers s⟩

theorem Alone.keeps_step (h : Alone fromSlice s₀ s p) (hs : Step fromSlice s p c a p') :
    s.Keeps (a.apply s) :=
  (hs.turn h.agrees).keeps h.timely (hs.keeps_blobs h.agrees)

theorem Alone.step (h : Alone fromSlice s₀ s p) (hs : Step fromSlice s p c a p') :
    Alone fromSlice s₀ (a.apply s) p' := by
  have ht := hs.turn h.agrees
  have hk := h.keeps_step hs
  exact ⟨h.agrees.step hs, h.keeps.trans hk, h.timely.turn hs.not_failed ht hk, h.queued.turn ht hk,
    (hs.effect h.agrees.counted).same.tiersAre h.tiers⟩

/-- A pass that runs alone. -/
theorem Alone.of_run {choices : List Choice}
    (hr : Machine.run (Pass.step fromSlice) (s₀, .start) choices = some (s', p'))
    (hend : p'.phase.scanning = false) : Alone fromSlice s₀ s' p' := by
  obtain ⟨_, _, _, _, rest, -, hr⟩ := run_scanned hr hend
  exact run_keeps (fun _ _ _ _ _ hi hs => hi.step hs) (Alone.start s₀) hr

end Pass

end Dockfoxprox

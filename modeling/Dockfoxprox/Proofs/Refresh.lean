import Dockfoxprox.Model.Cache
import Dockfoxprox.Proofs.Lru
import Dockfoxprox.Proofs.ReadBack
import Dockfoxprox.Proofs.Tags

/-! Refreshes that a pass does not see. A candidate is a copy of an access time, made when the
pass scanned the maps. On a pop `evict` checks that the entry is there, not that it has the time of
the candidate, so that what a client refreshed meanwhile is evicted for the time it had before. -/

namespace Dockfoxprox

open MapSum Machine

/-! ### A pass beside the clients -/

/-- The item whose access time a step of a manifest request sets. -/
def ManifestReq.refreshes (crates : Crates) (s : State) (inp : ManifestInput) :
    ManifestReq → Option Item
  | .lookup _ d => if (s.manifests.lookup d).isSome then some (.manifest d) else none
  | .fetch _ d =>
    match inp.answer with
    | .ok resp => if resp.isSuccess ∧ resp.body.isOk then some (.manifest d) else none
    | .error _ => none
  | .putInsert _ body => some (.manifest (crates.sha256 body))
  | _ => none

def Command.refreshes : Command → Option Item
  | .set key _ => some (.redis key)
  | _ => none

def Get.refreshes (s : State) : Get → Option Item
  | .start key =>
    match s.redisEntries.lookup key with
    | some (.inMemory _ _ _) => some (.redis key)
    | _ => none
  | .loaded key _ => some (.redis key)
  | _ => none

/-- The state, the pass, the manifest requests and the GETs. -/
structure RefreshSys where
  st : State
  pass : Pass
  reqs : List ManifestReq
  gets : List Get

def RefreshSys.init (s : State) : RefreshSys := ⟨s, .start, [], []⟩

inductive RefreshEvent where
  | tick (now : ℕ)
  | request (r : Request)
  | step (i : ℕ) (inp : ManifestInput)
  | command (c : Command)
  | get (key : Bytes)
  | getStep (i : ℕ)
  | unlink (i : ℕ)
  | hit (digest : Digest)
  | storeBlob (digest : Digest) (content : Bytes) (mediaType : String)
  | evict (c : Choice)

namespace RefreshSys

def hit (x : RefreshSys) (d : Digest) : Option RefreshSys :=
  match x.st.blobs.lookup d with
  | none => none
  | some b =>
    some { x with
      st := { x.st with blobs := x.st.blobs.insert d (b.touch x.st.now) }
      pass := x.pass.goto (x.pass.phase.touch d b x.st.now) }

variable (crates : Crates) (fromSlice : Bytes → Option Json)

def step (x : RefreshSys) : RefreshEvent → Option RefreshSys
  | .tick now => some { x with st := { x.st with now := now } }
  | .request r => some { x with reqs := x.reqs ++ [.start r] }
  | .step i inp =>
    match x.reqs[i]? with
    | none => none
    | some q =>
      some { x with
        st := (x.st.manifestStep crates inp q).1
        reqs := x.reqs.set i (x.st.manifestStep crates inp q).2 }
  | .command c => some { x with st := c.apply x.st }
  | .get key => some { x with gets := x.gets ++ [.start key] }
  | .getStep i =>
    match x.gets[i]? with
    | none => none
    | some g =>
      some { x with
        st := (g.step x.st).1
        gets := x.gets.set i (g.step x.st).2 }
  | .unlink i => (x.st.runUnlink i).map fun s => { x with st := s }
  | .hit d => x.hit d
  | .storeBlob d content mt => some { x with st := x.st.storeBlob d content mt }
  | .evict c =>
    (Pass.next fromSlice x.st x.pass c).map fun r =>
      { x with
        st := r.1.apply x.st
        pass := r.2 }

/-- The item whose access time a step of a client sets. -/
def refreshes (x : RefreshSys) : RefreshEvent → Option Item
  | .step i inp => x.reqs[i]?.bind fun q => q.refreshes crates x.st inp
  | .command c => c.refreshes
  | .getStep i => x.gets[i]?.bind fun g => g.refreshes x.st
  | _ => none

end RefreshSys

/-! ### What a pass evicts, and for which candidate -/

/-- The candidate that the next step pops, or that it goes on with. -/
def Pass.candidate (s : State) (p : Pass) (c : Choice) : Option Candidate :=
  match p.phase with
  | .loop => (p.arm s.config).bind fun pool => (popOldest (p.heap pool) c.pick).map Prod.fst
  | ph => ph.hand

/-- A drop, or a part of a spill: the flag of a manifest, a blob of it, a Redis entry. -/
def Act.evicts : Act → Bool
  | .markEvicted _ | .moveBlob _ _ | .moveRedis _ _ _ _ | .dropRedis _ | .dropManifest _ => true
  | _ => false

namespace RefreshSys

variable (fromSlice : Bytes → Option Json)

/-- The candidate for which a step drops or spills something. -/
def evictsFor (x : RefreshSys) : RefreshEvent → Option Candidate
  | .evict c =>
    match Pass.next fromSlice x.st x.pass c with
    | some (a, _) => if a.evicts then x.pass.candidate x.st c else none
    | none => none
  | _ => none

/-- What a step drops or spills has no newer access time than its candidate. -/
def NotNewer (x : RefreshSys) (e : RefreshEvent) : Prop :=
  ∀ y ∈ x.evictsFor fromSlice e, ∀ t ∈ x.st.accessTime y.item, t ≤ y.lastAccessTime

instance (x : RefreshSys) (e : RefreshEvent) : Decidable (x.NotNewer fromSlice e) :=
  inferInstanceAs (Decidable (∀ y ∈ x.evictsFor fromSlice e, ∀ t ∈ x.st.accessTime y.item,
    t ≤ y.lastAccessTime))

/-- The step is not of a client that refreshes an item at a later time than a candidate tells which
the pass has of the item, in a heap or in hand. -/
def Calm (crates : Crates) (x : RefreshSys) (e : RefreshEvent) : Prop :=
  ∀ i ∈ x.refreshes crates e, ∀ y ∈ x.pass.candidates, y.item = i → x.st.now ≤ y.lastAccessTime

instance (crates : Crates) (x : RefreshSys) (e : RefreshEvent) : Decidable (x.Calm crates e) :=
  inferInstanceAs (Decidable (∀ i ∈ x.refreshes crates e, ∀ y ∈ x.pass.candidates, y.item = i →
    x.st.now ≤ y.lastAccessTime))

end RefreshSys

/-! ### What the clients do to the access times -/

/-- The access time of the item, if there is one, is set to `now`; every other stays, or goes with
its entry. -/
def State.Sets (s : State) (i : Option Item) (s' : State) : Prop :=
  ∀ j, ∀ t ∈ s'.accessTime j, if i = some j then t = s.now else s.accessTime j = some t

namespace State.Sets

variable {s s' : State}

theorem manifest {d : Digest} {m : Manifest} (hm : s'.manifests = s.manifests.insert d m)
    (hr : s'.redisEntries = s.redisEntries) (ht : m.lastUsed = s.now) :
    s.Sets (some (.manifest d)) s' := by
  intro j t hj
  cases j with
  | manifest d' =>
    rw [accessTime, hm, lookup_insert_apply] at hj
    by_cases hd : d' = d
    · subst hd
      rw [if_pos rfl] at hj ⊢
      exact (Option.some.inj hj).symm.trans ht
    · rw [if_neg hd] at hj
      rw [if_neg fun h => hd (Item.manifest.inj (Option.some.inj h)).symm]
      exact hj
  | redis key => simpa [accessTime, hr] using hj

theorem redis {key : Bytes} {e : RedisEntry} (hm : s'.manifests = s.manifests)
    (hr : s'.redisEntries = s.redisEntries.insert key e) (ht : e.lastAccessed = s.now) :
    s.Sets (some (.redis key)) s' := by
  intro j t hj
  cases j with
  | manifest d => simpa [accessTime, hm] using hj
  | redis key' =>
    rw [accessTime, hr, lookup_insert_apply] at hj
    by_cases hk : key' = key
    · subst hk
      rw [if_pos rfl] at hj ⊢
      exact (Option.some.inj hj).symm.trans ht
    · rw [if_neg hk] at hj
      rw [if_neg fun h => hk (Item.redis.inj (Option.some.inj h)).symm]
      exact hj

theorem none (hm : s'.manifests = s.manifests)
    (hr : ∀ k e, s'.redisEntries.lookup k = some e → s.redisEntries.lookup k = some e) :
    s.Sets none s' := by
  intro j t hj
  rw [if_neg nofun]
  cases j with
  | manifest d => rwa [accessTime, hm] at hj
  | redis key =>
    obtain ⟨e, he, rfl⟩ := Option.map_eq_some_iff.mp hj
    simp [accessTime, hr key e he]

end State.Sets

theorem manifestStep_sets (crates : Crates) (s : State) (inp : ManifestInput) (q : ManifestReq) :
    s.Sets (q.refreshes crates s inp) (s.manifestStep crates inp q).1 := by
  have hnone : s.Sets none s := .none rfl fun _ _ => id
  cases q with
  | lookup r d =>
    simp only [ManifestReq.refreshes, State.manifestStep, State.lookupManifest]
    cases hm : s.manifests.lookup d with
    | none =>
      simp only [Option.isSome_none, Bool.false_eq_true, if_false]
      split <;> exact hnone
    | some m => exact .manifest rfl rfl rfl
  | fetch r d =>
    simp only [ManifestReq.refreshes, State.manifestStep]
    cases inp.answer with
    | error e => exact hnone
    | ok resp =>
      simp only [State.fetchManifest]
      cases resp.isSuccess with
      | false => exact hnone
      | true =>
        cases resp.body with
        | error e => exact hnone
        | ok body => exact .manifest rfl rfl rfl
  | putInsert r body => exact .manifest rfl rfl rfl
  | _ => exact .none rfl fun _ _ => id

theorem removeRedis_manifests (s : State) (key : Bytes) :
    (s.removeRedis key).2.manifests = s.manifests := by
  obtain ⟨u, h⟩ := s.removeRedis_eq key
  rw [h]

theorem del_spec (keys : List Bytes) (s : State) :
    (Command.apply s (.del keys)).manifests = s.manifests ∧
      ∀ k e, (Command.apply s (.del keys)).redisEntries.lookup k = some e →
        s.redisEntries.lookup k = some e := by
  induction keys generalizing s with
  | nil => exact ⟨rfl, fun _ _ => id⟩
  | cons key keys ih =>
    obtain ⟨hm, hr⟩ := ih (s.removeRedis key).2
    refine ⟨hm.trans (removeRedis_manifests s key), fun k e he => ?_⟩
    have he' := hr k e he
    rw [State.removeRedis_entries] at he'
    exact Pass.lookup_of_erase he'

theorem command_manifests (s : State) (c : Command) : (c.apply s).manifests = s.manifests := by
  cases c with
  | set key value =>
    obtain ⟨u, h⟩ := s.insertRedis_eq key value
    simp only [Command.apply, h]
  | del keys => exact (del_spec keys s).1
  | flushAll => rfl

theorem get_manifests (s : State) (g : Get) : (g.step s).1.manifests = s.manifests := by
  cases g with
  | start key =>
    simp only [Get.step]
    split <;> rfl
  | cloned key id =>
    simp only [Get.step]
    split <;> rfl
  | loaded key value =>
    obtain ⟨u, h⟩ := s.insertRedis_eq key value
    simp only [Get.step, h]
  | failed key => exact removeRedis_manifests s key
  | done reply => rfl

theorem command_sets (s : State) (c : Command) : s.Sets c.refreshes (c.apply s) := by
  cases c with
  | set key value => exact .redis (command_manifests s _) (s.insertRedis_entries key value) rfl
  | del keys => exact .none (del_spec keys s).1 (del_spec keys s).2
  | flushAll => exact .none rfl fun k e he => by cases he

theorem get_sets (s : State) (g : Get) : s.Sets (g.refreshes s) (g.step s).1 := by
  have hnone : s.Sets none s := .none rfl fun _ _ => id
  cases g with
  | start key =>
    simp only [Get.refreshes, Get.step]
    cases s.redisEntries.lookup key with
    | none => exact hnone
    | some e =>
      cases e with
      | inMemory value id t => exact .redis rfl rfl rfl
      | onDisk size id t => exact hnone
  | cloned key id =>
    simp only [Get.refreshes, Get.step]
    split <;> exact hnone
  | loaded key value => exact .redis (get_manifests s _) (s.insertRedis_entries key value) rfl
  | failed key =>
    refine .none (get_manifests s _) fun k e he => Pass.lookup_of_erase (r := key) ?_
    rwa [← State.removeRedis_entries]
  | done reply => exact hnone

/-! ### What the pass does to the access times and the candidates -/

/-- A step sets the access time of a spilled Redis entry only, to that of its candidate. -/
theorem Act.accessTime {a : Act} {s : State} {j : Item} {t : ℕ}
    (ht : (a.apply s).accessTime j = some t) :
    (∃ key size id, a = .moveRedis key size t id ∧ j = .redis key) ∨
      (∀ key size u id, a = .moveRedis key size u id → j ≠ .redis key) ∧
        s.accessTime j = some t := by
  cases j with
  | manifest d =>
    refine .inr ⟨fun _ _ _ _ _ => Item.noConfusion, ?_⟩
    rw [State.accessTime, Act.apply_manifests] at ht
    cases a with
    | markEvicted d' =>
      cases hm : s.manifests.lookup d' with
      | none =>
        rw [onManifests, hm] at ht
        exact ht
      | some m =>
        simp only [onManifests, hm, lookup_insert_apply] at ht
        split at ht
        · rename_i hd
          subst hd
          rw [State.accessTime, hm]
          exact ht
        · exact ht
    | dropManifest d' =>
      obtain ⟨m, hm, rfl⟩ := Option.map_eq_some_iff.mp ht
      simp [State.accessTime, Pass.lookup_of_erase hm]
    | _ => exact ht
  | redis key =>
    rw [State.accessTime, Act.apply_redisEntries] at ht
    cases a with
    | moveRedis key' size u id =>
      simp only [onRedis, lookup_insert_apply] at ht
      split at ht
      · rename_i hk
        subst hk
        cases ht
        exact .inl ⟨key, size, id, rfl, rfl⟩
      · rename_i hk
        refine .inr ⟨fun key'' _ _ _ heq hj => hk ?_, ht⟩
        rw [Item.redis.inj hj, (Act.moveRedis.inj heq).1]
    | dropRedis key' =>
      obtain ⟨e, he, rfl⟩ := Option.map_eq_some_iff.mp ht
      refine .inr ⟨fun _ _ _ _ => Act.noConfusion, ?_⟩
      simp [State.accessTime, Pass.lookup_of_erase he]
    | _ => exact .inr ⟨fun _ _ _ _ => Act.noConfusion, ht⟩

namespace Pass

variable {fromSlice : Bytes → Option Json} {s : State} {p p' : Pass} {c : Choice} {a : Act}

theorem mem_scanManifest {d : Digest} {m : Manifest} {pool : Pool} {y : Candidate}
    (hy : y ∈ (scanManifest fromSlice p d m).heap pool) :
    y ∈ p.heap pool ∨ y = .manifest m.lastUsed d := by
  unfold Pass.scanManifest at hy
  simp only [count_heap] at hy
  have hpush {q : Pass} {pool' : Pool}
      (hy : y ∈ (q.push pool' (.manifest m.lastUsed d)).heap pool) :
      y ∈ q.heap pool ∨ y = .manifest m.lastUsed d :=
    (mem_push hy).elim (fun h => .inr h.2) .inl
  split at hy <;> split at hy
  · exact (hpush hy).elim (fun hy => (hpush hy).elim hpush .inr) .inr
  · exact (hpush hy).elim hpush .inr
  · exact (hpush hy).elim hpush .inr
  · exact hpush hy

/-- What is in the heaps, or in hand, after a step was so before it, or was just collected. -/
inductive Collects (s : State) (p : Pass) (y : Candidate) : Prop
  | had (h : p.Has y)
  | manifest (hp : p.phase = .scanManifests) {d : Digest} {m : Manifest}
      (hm : s.manifests.lookup d = some m) (hy : y = .manifest m.lastUsed d)
  | redis (hp : p.phase = .scanRedis) {key : Bytes} {e : RedisEntry} {size : ℕ}
      (he : s.redisEntries.lookup key = some e) (hy : y = .redis key e.lastAccessed size)

theorem Step.collects (hs : Step fromSlice s p c a p') {y : Candidate} (hy : p'.Has y) :
    Collects s p y := by
  have hkeep {q : Pass} (hy : q.Has y) (hh : ∀ pool, y ∈ q.heap pool → p.Has y)
      (hq : q.phase.hand = some y → p.Has y) : Collects s p y := by
    rcases hy with ⟨pool, hy⟩ | hy
    · exact .had (hh pool hy)
    · exact .had (hq hy)
  have hheap (pool : Pool) (hy : y ∈ p.heap pool) : p.Has y := .inl ⟨pool, hy⟩
  have hpopped {pool pool' : Pool} {x : Candidate} {rest : List Candidate} {i : ℕ}
      (hpop : popOldest (p.heap pool) i = some (x, rest))
      (hy : y ∈ (p.popped pool rest).heap pool') : p.Has y := .inl ⟨pool', mem_popped hpop hy⟩
  cases hs with
  | scanBlobs hp =>
    have hsame : (s.blobs.foldl scanBlob p).heap = p.heap :=
      foldl_rule (P := fun q : Pass => q.heap = p.heap) s.blobs (fun _ _ _ hq => hq) rfl
    refine hkeep hy (fun pool hy => ?_) fun hh => by cases hh
    rw [goto_heap, hsame] at hy
    exact hheap pool hy
  | scanManifests hp =>
    rcases hy with ⟨pool, hy⟩ | hy
    · have hall : ∀ z ∈ (s.manifests.foldl (scanManifest fromSlice) p).heap pool,
          z ∈ p.heap pool ∨ ∃ d m, s.manifests.lookup d = some m ∧ z = .manifest m.lastUsed d := by
        refine foldl_rule (P := fun q : Pass => ∀ z ∈ q.heap pool, z ∈ p.heap pool ∨
          ∃ d m, s.manifests.lookup d = some m ∧ z = .manifest m.lastUsed d) s.manifests
          (fun q e he hq z hz => ?_) fun z hz => .inl hz
        rcases mem_scanManifest hz with hz | hz
        · exact hq z hz
        · exact .inr ⟨e.1, e.2, mem_entries.mp he, hz⟩
      rcases hall y hy with hy | ⟨d, m, hm, hy⟩
      · exact .had (hheap pool hy)
      · exact .manifest hp hm hy
    · cases hy
  | scanRedis hp =>
    rcases hy with ⟨pool, hy⟩ | hy
    · have hall : ∀ z ∈ (s.redisEntries.foldl scanRedisEntry p).heap pool, z ∈ p.heap pool ∨
          ∃ k e size, s.redisEntries.lookup k = some e ∧ z = .redis k e.lastAccessed size := by
        refine foldl_rule (P := fun q : Pass => ∀ z ∈ q.heap pool, z ∈ p.heap pool ∨
          ∃ k e size, s.redisEntries.lookup k = some e ∧ z = .redis k e.lastAccessed size)
          s.redisEntries (fun q e he hq z hz => ?_) fun z hz => .inl hz
        rw [scanRedisEntry_heap, List.mem_append, Option.mem_toList] at hz
        rcases hz with hz | hz
        · exact .inr ⟨e.1, e.2, _, mem_entries.mp he, (redisCandidate_key hz).2⟩
        · exact hq z hz
      rcases hall y hy with hy | ⟨k, e, size, he, hy⟩
      · exact .had (hheap pool hy)
      · exact .redis hp he hy
    · cases hy
  | stale hp ha hpop =>
    refine hkeep hy (fun _ => hpopped hpop) fun hh => ?_
    rw [popped_phase, hp] at hh
    cases hh
  | dropRedis hp hb ha hpop =>
    refine hkeep hy (fun _ => hpopped hpop) fun hh => ?_
    rw [credit_phase, popped_phase, hp] at hh
    cases hh
  | dropManifest hp hl ha hpop => exact hkeep hy (fun _ => hpopped hpop) fun hh => by cases hh
  | spillManifest hp ha hpop =>
    refine hkeep hy (fun _ => hpopped hpop) fun hh => ?_
    cases hh
    exact hheap _ (popOldest_mem hpop).1
  | fetchRedis hp ha hpop =>
    refine hkeep hy (fun _ => hpopped hpop) fun hh => ?_
    cases hh
    exact hheap _ (popOldest_mem hpop).1
  | spillEnd hp =>
    refine hkeep hy (fun pool hy => ?_) fun hh => by cases hh
    rcases mem_push hy with ⟨-, rfl⟩ | hy
    · exact .inr (by rw [hp]; rfl)
    · exact hheap pool hy
  | redisInsert hp =>
    refine hkeep hy (fun pool hy => ?_) fun hh => by cases hh
    rcases mem_push hy with ⟨-, rfl⟩ | hy
    · exact .inr (by rw [hp]; rfl)
    · exact hheap pool hy
  | spillMissing hp => exact hkeep hy hheap fun hh => .inr (by rw [hp]; exact hh)
  | spillKeep hp => exact hkeep hy hheap fun hh => .inr (by rw [hp]; exact hh)
  | spillFetch hp => exact hkeep hy hheap fun hh => .inr (by rw [hp]; exact hh)
  | spillWrite hp => exact hkeep hy hheap fun hh => .inr (by rw [hp]; exact hh)
  | spillInsert hp => exact hkeep hy hheap fun hh => .inr (by rw [hp]; exact hh)
  | redisWrite hp => exact hkeep hy hheap fun hh => .inr (by rw [hp]; exact hh)
  | @cascadeDrop _ _ _ _ blob => cases blob <;> exact hkeep hy hheap fun hh => by cases hh
  | @sweepDrop _ _ _ blob => cases blob <;> exact hkeep hy hheap fun hh => by cases hh
  | _ => exact hkeep hy hheap fun hh => by cases hh

end Pass

/-! ### Every candidate tells the time its item had when it was collected, or a later one -/

/-- The scan that collects the item is over. -/
def Phase.collected : Phase → Item → Bool
  | .begin, _ | .scanBlobs, _ | .scanManifests, _ => false
  | .scanRedis, .redis _ => false
  | _, _ => true

theorem Phase.collected_of_scanned {ph : Phase} (h : ph.scanning = false) (j : Item) :
    ph.collected j = true := by
  cases ph <;> first | rfl | cases h

@[simp] theorem Phase.collected_touch (ph : Phase) (d : Digest) (b : Blob) (now : ℕ) (j : Item) :
    (ph.touch d b now).collected j = ph.collected j := by
  cases ph <;> rfl

@[simp] theorem Phase.hand_touch (ph : Phase) (d : Digest) (b : Blob) (now : ℕ) :
    (ph.touch d b now).hand = ph.hand := by
  cases ph <;> rfl

section

variable {fromSlice : Bytes → Option Json} {s : State} {p p' : Pass} {c : Choice} {a : Act}

/-- What a step collects, by the scan it is. -/
theorem Pass.Step.collected_iff (hs : Pass.Step fromSlice s p c a p') (j : Item) :
    p'.phase.collected j ↔ p.phase.collected j ∨
      (p.phase = .scanManifests ∧ ∃ d, j = .manifest d) ∨
        p.phase = .scanRedis ∧ ∃ key, j = .redis key := by
  have hpast (h : p.phase.scanning = false) : p'.phase.collected j ↔ p.phase.collected j ∨
      (p.phase = .scanManifests ∧ ∃ d, j = .manifest d) ∨
        p.phase = .scanRedis ∧ ∃ key, j = .redis key :=
    iff_of_true (Phase.collected_of_scanned (hs.scanning h) j)
      (.inl (Phase.collected_of_scanned h j))
  cases hs with
  | begin hp => simp [hp, Phase.collected]
  | scanBlobs hp => simp [hp, Phase.collected]
  | scanManifests hp => cases j <;> simp [hp, Phase.collected]
  | scanRedis hp => cases j <;> simp [hp, Phase.collected]
  | writeFailed hp hw =>
    refine hpast ?_
    rcases hp with ⟨_, _, _, hp, -⟩ | ⟨_, _, _, _, hp⟩ <;> rw [hp] <;> rfl
  | _ hp => exact hpast (by rw [hp]; rfl)

end

namespace RefreshSys

/-- With the time that each item had when it was collected: all candidates of the item tell it, and
the item has no newer one. -/
structure Inv (seen : Item → ℕ) (x : RefreshSys) : Prop where
  has : ∀ y, x.pass.Has y → x.pass.phase.collected y.item ∧ y.lastAccessTime = seen y.item
  time : ∀ y, x.pass.Has y → ∀ t, x.st.accessTime y.item = some t → t ≤ y.lastAccessTime

variable {crates : Crates} {fromSlice : Bytes → Option Json} {seen : Item → ℕ} {x x' : RefreshSys}
  {e : RefreshEvent}

/-- A step of a client, which leaves the pass alone. -/
theorem Inv.client (h : x.Inv seen) {i : Option Item} (hs : x.st.Sets i x'.st)
    (hc : ∀ j ∈ i, ∀ y ∈ x.pass.candidates, y.item = j → x.st.now ≤ y.lastAccessTime)
    (hp : x'.pass = x.pass) : x'.Inv seen := by
  refine ⟨hp ▸ h.has, fun y hy t ht => ?_⟩
  rw [hp] at hy
  have hset := hs y.item t ht
  by_cases hi : i = some y.item
  · rw [if_pos hi] at hset
    exact hset.trans_le (hc y.item hi y (Pass.mem_candidates.mpr hy) rfl)
  · rw [if_neg hi] at hset
    exact h.time y hy t hset

/-- A step that leaves both maps alone. -/
theorem Inv.frame (h : x.Inv seen) (hp : ∀ y, x'.pass.Has y → x.pass.Has y)
    (hph : ∀ j, x'.pass.phase.collected j = x.pass.phase.collected j)
    (hm : x'.st.manifests = x.st.manifests) (hr : x'.st.redisEntries = x.st.redisEntries) :
    x'.Inv seen := by
  refine ⟨fun y hy => ?_, fun y hy t ht => h.time y (hp y hy) t ?_⟩
  · rw [hph]
    exact h.has y (hp y hy)
  · cases hj : y.item with
    | manifest d => rwa [hj, State.accessTime, hm] at ht
    | redis key => rwa [hj, State.accessTime, hr] at ht

theorem Inv.evict (h : x.Inv seen) {c : Choice} {a : Act} {p' : Pass}
    (hn : Pass.next fromSlice x.st x.pass c = some (a, p')) :
    ∃ seen', Inv seen' { x with
      st := a.apply x.st
      pass := p' } := by
  have hs := Pass.step_of_next hn
  -- what the step collects is seen at the time it has now
  refine ⟨fun j => if x.pass.phase.collected j then seen j else (x.st.accessTime j).getD 0,
    fun y hy => ?_, fun y hy t ht => ?_⟩ <;> dsimp only at *
  · cases hs.collects hy with
    | had hy =>
      obtain ⟨hc, ht⟩ := h.has y hy
      exact ⟨(hs.collected_iff _).mpr (.inl hc), by rw [if_pos hc, ht]⟩
    | @manifest hp d m hm hy =>
      subst hy
      refine ⟨(hs.collected_iff _).mpr (.inr (.inl ⟨hp, d, rfl⟩)), ?_⟩
      rw [if_neg (by rw [hp]; exact Bool.false_ne_true)]
      simp [Candidate.item, State.accessTime, hm, Candidate.lastAccessTime]
    | @redis hp key e size he hy =>
      subst hy
      refine ⟨(hs.collected_iff _).mpr (.inr (.inr ⟨hp, key, rfl⟩)), ?_⟩
      rw [if_neg (by rw [hp]; exact Bool.false_ne_true)]
      simp [Candidate.item, State.accessTime, he, Candidate.lastAccessTime]
  · rcases Act.accessTime ht with ⟨key, size, id, rfl, hj⟩ | ⟨-, ht⟩
    · obtain ⟨value, hp⟩ := hs.moveRedis_inv rfl
      obtain ⟨-, htime⟩ := h.has (.redis key t size) (.inr (by rw [hp]; rfl))
      cases hs.collects hy with
      | had hy => exact (htime.trans (hj ▸ (h.has y hy).2).symm).le
      | manifest hp' => rw [hp] at hp'; cases hp'
      | redis hp' => rw [hp] at hp'; cases hp'
    · cases hs.collects hy with
      | had hy => exact h.time y hy t ht
      | @manifest hp d m hm hy =>
        subst hy
        simp only [Candidate.item, State.accessTime, hm, Option.map_some, Option.some.injEq] at ht
        exact ht.ge
      | @redis hp key e size he hy =>
        subst hy
        simp only [Candidate.item, State.accessTime, he, Option.map_some, Option.some.injEq] at ht
        exact ht.ge

theorem Inv.init (s : State) : (RefreshSys.init s).Inv fun _ => 0 := by
  have hnone (y : Candidate) (hy : (RefreshSys.init s).pass.Has y) : False := by
    rcases hy with ⟨pool, hy⟩ | hy
    · exact absurd hy List.not_mem_nil
    · cases hy
  exact ⟨fun y hy => (hnone y hy).elim, fun y hy => (hnone y hy).elim⟩

/-- The step lemma: a calm client makes no item newer than its candidates. -/
theorem Inv.step (h : x.Inv seen) (hc : x.Calm crates e)
    (hs : RefreshSys.step crates fromSlice x e = some x') : ∃ seen', x'.Inv seen' := by
  cases e with
  | tick now => cases hs; exact ⟨seen, h.has, h.time⟩
  | request r => cases hs; exact ⟨seen, h.has, h.time⟩
  | step i inp =>
    simp only [RefreshSys.step] at hs
    split at hs
    · cases hs
    · rename_i q hq
      cases hs
      have hcalm : ∀ j ∈ q.refreshes crates x.st inp, ∀ y ∈ x.pass.candidates, y.item = j →
          x.st.now ≤ y.lastAccessTime := by
        simpa only [Calm, RefreshSys.refreshes, hq, Option.bind_some] using hc
      exact ⟨seen, h.client (manifestStep_sets crates x.st inp q) hcalm rfl⟩
  | command c => cases hs; exact ⟨seen, h.client (command_sets x.st c) hc rfl⟩
  | get key => cases hs; exact ⟨seen, h.has, h.time⟩
  | getStep i =>
    simp only [RefreshSys.step] at hs
    split at hs
    · cases hs
    · rename_i g hg
      cases hs
      have hcalm : ∀ j ∈ g.refreshes x.st, ∀ y ∈ x.pass.candidates, y.item = j →
          x.st.now ≤ y.lastAccessTime := by
        simpa only [Calm, RefreshSys.refreshes, hg, Option.bind_some] using hc
      exact ⟨seen, h.client (get_sets x.st g) hcalm rfl⟩
  | unlink i =>
    obtain ⟨s', hu, rfl⟩ := Option.map_eq_some_iff.mp hs
    unfold State.runUnlink at hu
    split at hu
    · cases hu
    · cases hu
      exact ⟨seen, h.has, h.time⟩
  | hit d =>
    simp only [RefreshSys.step, RefreshSys.hit] at hs
    split at hs
    · cases hs
    · cases hs
      refine ⟨seen, h.frame (fun y hy => ?_) (fun j => Phase.collected_touch ..) rfl rfl⟩
      simpa only [Pass.Has, Pass.goto_heap, Pass.goto_phase, Phase.hand_touch] using hy
  | storeBlob d content mt =>
    cases hs
    obtain ⟨u, hst⟩ := storeBlob_eq x.st d content mt
    exact ⟨seen, h.frame (fun _ => id) (fun _ => rfl) (by rw [hst]) (by rw [hst])⟩
  | evict c =>
    obtain ⟨⟨a, p'⟩, hn, rfl⟩ := Option.map_eq_some_iff.mp hs
    exact h.evict hn

theorem candidate_has {c : Choice} {y : Candidate} {s : State} {p : Pass}
    (h : p.candidate s c = some y) : p.Has y := by
  unfold Pass.candidate at h
  split at h
  · obtain ⟨pool, -, h⟩ := Option.bind_eq_some_iff.mp h
    obtain ⟨⟨z, rest⟩, hpop, rfl⟩ := Option.map_eq_some_iff.mp h
    exact .inl ⟨pool, (popOldest_mem hpop).1⟩
  · exact .inr h

theorem evictsFor_has {y : Candidate} (h : x.evictsFor fromSlice e = some y) : x.pass.Has y := by
  cases e with
  | evict c =>
    simp only [evictsFor] at h
    split at h
    · exact candidate_has ((Option.ite_none_right_eq_some ..).mp h).2
    · cases h
  | _ => cases h

theorem Inv.notNewer (h : x.Inv seen) : x.NotNewer fromSlice e :=
  fun y hy t ht => h.time y (evictsFor_has hy) t ht

end RefreshSys

/-! ### A manifest that was PUT -/

/-- The PUT has stored a manifest under the digest, which it names in its 201. -/
def ManifestReq.HasPut (d : Digest) : ManifestReq → Prop
  | .putTag _ d' | .putDigest _ d' => d' = d
  | .done reply => ∃ name, reply = .ok (manifestCreated name d)
  | _ => False

theorem not_hasPut_error {d : Digest} {e : DockerError} :
    ¬ (ManifestReq.done (.error e)).HasPut d := by
  rintro ⟨name, hname⟩
  cases hname

theorem not_hasPut_status {d : Digest} {resp : Response} (hs : resp.status ≠ 201) :
    ¬ (ManifestReq.done (.ok resp)).HasPut d := by
  rintro ⟨name, hname⟩
  cases hname
  exact hs rfl

theorem not_hasPut_served {m : Manifest} {head : Bool} {d d' : Digest} :
    ¬ (ManifestReq.done (.ok (serveManifest m head d'))).HasPut d :=
  not_hasPut_status (by simp [serveManifest])

theorem not_hasPut_startManifest {s : State} {r : Request} {d : Digest} :
    ¬ (s.startManifest r).HasPut d := by
  have hresolve : ¬ (s.resolveReference r).HasPut d := by
    unfold State.resolveReference
    split
    · exact id
    · split
      · split
        · exact id
        · exact not_hasPut_error
      · exact id
  unfold State.startManifest
  split
  · exact hresolve
  · exact hresolve
  · split
    · exact not_hasPut_error
    · exact id
  · exact not_hasPut_error

/-- An answer that is no success is handed on with its own status. -/
theorem not_hasPut_returned {crates : Crates} {resp : UpstreamResponse} {d : Digest}
    (h : resp.isSuccess = false) :
    ¬ (ManifestReq.done (.ok (upstreamReturned crates resp))).HasPut d := by
  refine not_hasPut_status fun hs => ?_
  have hstatus : resp.status = 201 := hs
  rw [UpstreamResponse.isSuccess, hstatus] at h
  cases h

/-- A request comes to name the digest in a 201 by storing a manifest under it. -/
theorem hasPut_manifestStep {crates : Crates} {s : State} {inp : ManifestInput} {q : ManifestReq}
    {d : Digest} (h : (s.manifestStep crates inp q).2.HasPut d) :
    q.HasPut d ∨ (s.manifestStep crates inp q).1.Stored d := by
  cases q with
  | start r => exact absurd h not_hasPut_startManifest
  | resolve r =>
    refine absurd h ?_
    simp only [State.manifestStep, State.resolveTag]
    split
    · exact not_hasPut_error
    · split
      · exact not_hasPut_returned (by simp_all)
      · split
        · exact not_hasPut_error
        · exact id
  | lookup r d' =>
    refine absurd h ?_
    simp only [State.manifestStep, State.lookupManifest]
    split
    · exact not_hasPut_served
    · split
      · exact not_hasPut_error
      · exact id
  | fetch r d' =>
    refine absurd h ?_
    simp only [State.manifestStep]
    cases inp.answer with
    | error e => exact not_hasPut_error
    | ok resp =>
      simp only [State.fetchManifest]
      split
      · exact not_hasPut_returned (by simp_all)
      · split
        · exact not_hasPut_error
        · exact not_hasPut_served
  | putBody r =>
    refine absurd h ?_
    simp only [State.manifestStep, State.putBody]
    split
    · exact not_hasPut_error
    · exact id
  | putInsert r body =>
    right
    obtain rfl : crates.sha256 body = d := by
      simp only [State.manifestStep, State.putInsert] at h
      split at h <;> exact h
    have hm : ∃ m, (s.manifestStep crates inp (.putInsert r body)).1.manifests =
        s.manifests.insert (crates.sha256 body) m := ⟨_, rfl⟩
    obtain ⟨m, hm⟩ := hm
    rw [State.Stored, hm, AList.lookup_insert]
    rfl
  | putTag r d' => exact .inl h
  | putDigest r d' =>
    obtain ⟨name, hname⟩ := h
    have hheaders := congrArg Response.headers (Except.ok.inj hname)
    simp only [manifestCreated, List.cons.injEq, Prod.mk.injEq] at hheaders
    exact .inl (Digest.toText_inj hheaders.2.1.2)
  | done reply => exact .inl h

namespace RefreshSys

variable {crates : Crates} {fromSlice : Bytes → Option Json} {x x' : RefreshSys} {e : RefreshEvent}
  {i : ℕ} {d : Digest}

def replyTo (x : RefreshSys) (i : ℕ) : Option Reply :=
  match x.reqs[i]? with
  | some (.done reply) => some reply
  | _ => none

def HasPut (x : RefreshSys) (i : ℕ) (d : Digest) : Prop := ∃ q, x.reqs[i]? = some q ∧ q.HasPut d

theorem hasPut_of_replyTo {name : String}
    (h : x.replyTo i = some (.ok (manifestCreated name d))) : x.HasPut i d := by
  unfold replyTo at h
  split at h
  · rename_i reply hq
    cases h
    exact ⟨.done (.ok (manifestCreated name d)), hq, name, rfl⟩
  · cases h

/-- Of the clients' steps none takes a manifest away, and the one that stores it lets the PUT name
its digest. -/
theorem client_hasPut (hs : RefreshSys.step crates fromSlice x e = some x')
    (he : ∀ c, e ≠ .evict c) : (x.st.Stored d → x'.st.Stored d) ∧
      (x'.HasPut i d → x.HasPut i d ∨ x'.st.Stored d) := by
  have hkeep (hm : x'.st.manifests = x.st.manifests) (hr : x'.reqs = x.reqs) :
      (x.st.Stored d → x'.st.Stored d) ∧ (x'.HasPut i d → x.HasPut i d ∨ x'.st.Stored d) := by
    unfold State.Stored HasPut
    rw [hm, hr]
    exact ⟨id, .inl⟩
  cases e with
  | request r =>
    cases hs
    refine ⟨id, ?_⟩
    rintro ⟨q, hq, hput⟩
    rcases getElem?_of_concat hq with hq | ⟨-, rfl⟩
    · exact .inl ⟨q, hq, hput⟩
    · exact hput.elim
  | step j inp =>
    simp only [RefreshSys.step] at hs
    split at hs
    · cases hs
    · rename_i q hj
      cases hs
      refine ⟨(manifestStep_effect crates x.st inp q).stored, ?_⟩
      rintro ⟨q', hq', hput⟩
      rcases getElem?_of_set hq' with ⟨rfl, rfl⟩ | ⟨-, hq'⟩
      · exact (hasPut_manifestStep hput).imp_left fun hput => ⟨q, hj, hput⟩
      · exact .inl ⟨q', hq', hput⟩
  | command c => cases hs; exact hkeep (command_manifests x.st c) rfl
  | getStep j =>
    simp only [RefreshSys.step] at hs
    split at hs
    · cases hs
    · rename_i g hg
      cases hs
      exact hkeep (get_manifests x.st g) rfl
  | unlink j =>
    obtain ⟨s', hu, rfl⟩ := Option.map_eq_some_iff.mp hs
    unfold State.runUnlink at hu
    split at hu
    · cases hu
    · cases hu
      exact hkeep rfl rfl
  | hit d =>
    simp only [RefreshSys.step, RefreshSys.hit] at hs
    split at hs
    · cases hs
    · cases hs
      exact hkeep rfl rfl
  | storeBlob d content mt =>
    cases hs
    obtain ⟨u, hst⟩ := storeBlob_eq x.st d content mt
    exact hkeep (by rw [hst]) rfl
  | evict c => exact absurd rfl (he c)
  | _ => cases hs; exact hkeep rfl rfl

/-- A pass drops a manifest for a candidate of its digest. -/
theorem evictsFor_of_dropManifest {c : Choice} {p' : Pass}
    (hn : Pass.next fromSlice x.st x.pass c = some (.dropManifest d, p')) :
    ∃ t, x.evictsFor fromSlice (.evict c) = some (.manifest t d) ∧
      (x.st.accessTime (.manifest d)).isSome := by
  obtain ⟨pool, y, rest, hp, ha, hpop, hpres, hitem⟩ := (Pass.step_of_next hn).of_drops rfl
  cases y with
  | manifest t d' =>
    cases hitem
    obtain ⟨m, hm⟩ := hpres
    refine ⟨t, ?_, by simp [State.accessTime, hm]⟩
    simp [evictsFor, hn, Act.evicts, Pass.candidate, hp, ha, hpop]
  | redis key t size => cases hitem

end RefreshSys

/-- What a pass drops or spills beside its clients is never newer than the candidate it popped, if
no client refreshes an item between its scan and its pop. In such a run a manifest that was
acknowledged with 201 is stored, or has been dropped, after it was PUT, for a candidate that tells
its access time or a later one. -/
theorem stale_candidates_skipped_of_calm (crates : Crates) (fromSlice : Bytes → Option Json)
    {s : State} {events : List RefreshEvent} {x : RefreshSys}
    (hr : run (RefreshSys.step crates fromSlice) (.init s) events = some x)
    (hcalm : Along (RefreshSys.step crates fromSlice) (fun x e _ => x.Calm crates e) (.init s)
      events) :
    Along (RefreshSys.step crates fromSlice) (fun x e _ => x.NotNewer fromSlice e) (.init s) events ∧
    ∀ i name d, x.replyTo i = some (.ok (manifestCreated name d)) → x.st.Stored d ∨
      ∃ pre c post z t n, events = pre ++ .evict c :: post ∧
        run (RefreshSys.step crates fromSlice) (.init s) pre = some z ∧ z.HasPut i d ∧
        z.evictsFor fromSlice (.evict c) = some (.manifest t d) ∧
        z.st.accessTime (.manifest d) = some n ∧ n ≤ t := by
  have hnotNewer : Along (RefreshSys.step crates fromSlice) (fun x e _ => x.NotNewer fromSlice e)
      (.init s) events := by
    refine along_of_invariant (I := fun x : RefreshSys => ∃ seen, x.Inv seen)
      (fun x e x' hi hc hs => ?_) ⟨_, .init s⟩ hcalm
    obtain ⟨seen, hi⟩ := hi
    exact ⟨hi.step hc hs, hi.notNewer⟩
  refine ⟨hnotNewer, fun i name d hi => ?_⟩
  by_contra hgone
  rw [not_or] at hgone
  obtain ⟨hlost, hnone⟩ := hgone
  -- else each step keeps the manifest of a PUT that has stored it
  have hall : Along (RefreshSys.step crates fromSlice) (fun x e x' => x.NotNewer fromSlice e →
      (x.HasPut i d → x.st.Stored d) → x'.HasPut i d → x'.st.Stored d) (.init s) events := by
    by_contra hnot
    obtain ⟨pre, e, post, z, z', rfl, hpre, hs, -, hstep⟩ := exists_of_not_along hr hnot
    simp only [Classical.not_imp] at hstep
    obtain ⟨hnew, hput, hput', hlost⟩ := hstep
    cases e with
    | evict c =>
      obtain ⟨⟨a, p'⟩, hn, rfl⟩ := Option.map_eq_some_iff.mp hs
      have hdrop : a = .dropManifest d := by
        by_contra hne
        exact hlost (Act.stored (hput hput') hne)
      subst hdrop
      obtain ⟨t, hev, htime⟩ := RefreshSys.evictsFor_of_dropManifest hn
      obtain ⟨n, hn⟩ := Option.isSome_iff_exists.mp htime
      exact hnone ⟨pre, c, post, z, t, n, rfl, hpre, hput', hev, hn, hnew _ hev n hn⟩
    | _ =>
      obtain ⟨hkeep, hback⟩ := RefreshSys.client_hasPut (i := i) (d := d) hs nofun
      exact hlost ((hback hput').elim (fun h => hkeep (hput h)) id)
  have hkept := run_invariant (I := fun x : RefreshSys => x.HasPut i d → x.st.Stored d)
    (fun _ _ _ hi hc _ => hc.1 hc.2 hi) (by rintro ⟨q, hq, -⟩; cases hq)
    (along_and hall hnotNewer) hr
  exact hlost (hkept (RefreshSys.hasPut_of_replyTo hi))

/-! One manifest that was last used long ago, and no room for it. A PUT of the same body makes it
new, before the pass collects it or just after. -/

def oldLetter : State :=
  (State.new ⟨0, none, 0⟩ 100).insertManifest letterDigest ⟨utf8 "a", "", 3, false⟩

def letterPut : List RefreshEvent :=
  [.request (manifestRequest .put "self" "latest"), .step 0 {}, .step 0 { body := .ok (utf8 "a") },
    .step 0 {}, .step 0 {}, .step 0 {}]

/-- The first `n` steps of the pass, the PUT, and the rest of the pass. -/
def putAfter (n : ℕ) : List RefreshEvent :=
  List.replicate n (.evict {}) ++ letterPut ++ List.replicate (17 - n) (.evict {})

/-- The candidate the manifest is dropped for tells the time of the PUT. -/
theorem stale_candidates_skipped_of_calm_before :
    ∃ x, run (RefreshSys.step tableCrates imageJson) (.init oldLetter) (putAfter 0) = some x ∧
      x.replyTo 0 = some (.ok (manifestCreated "app" letterDigest)) ∧
      ∃ pre c post z t n, putAfter 0 = pre ++ .evict c :: post ∧
        run (RefreshSys.step tableCrates imageJson) (.init oldLetter) pre = some z ∧
        z.HasPut 0 letterDigest ∧
        z.evictsFor imageJson (.evict c) = some (.manifest t letterDigest) ∧
        z.st.accessTime (.manifest letterDigest) = some n ∧ n ≤ t := by
  have hrun : ((run (RefreshSys.step tableCrates imageJson) (.init oldLetter) (putAfter 0)).map
      fun x => (x.replyTo 0, x.st.manifests.lookup letterDigest)) =
      some (some (.ok (manifestCreated "app" letterDigest)), none) := by decide +kernel
  obtain ⟨x, hx, hend⟩ := Option.map_eq_some_iff.mp hrun
  obtain ⟨hreply, hgone⟩ := Prod.mk.inj hend
  have hlost : ¬ x.st.Stored letterDigest := by simp [State.Stored, hgone]
  have h := (stale_candidates_skipped_of_calm tableCrates imageJson hx (by decide +kernel)).2 0 "app"
    letterDigest hreply
  exact ⟨x, hx, hreply, h.resolve_left hlost⟩

/-- The PUT is answered with 201 at 100, and the manifest goes for the candidate of time 3. -/
theorem refreshed_manifest_dropped :
    ∃ x, run (RefreshSys.step tableCrates imageJson) (.init oldLetter) (putAfter 4) = some x ∧
      x.pass.phase = .done ∧ x.replyTo 0 = some (.ok (manifestCreated "app" letterDigest)) ∧
      ¬ x.st.Stored letterDigest ∧
      Along (RefreshSys.step tableCrates imageJson)
        (fun x e _ => ∀ y ∈ x.evictsFor imageJson e, y = .manifest 3 letterDigest)
        (.init oldLetter) (putAfter 4) ∧
      ¬ Along (RefreshSys.step tableCrates imageJson) (fun x e _ => x.NotNewer imageJson e)
        (.init oldLetter) (putAfter 4) := by
  have hrun : ((run (RefreshSys.step tableCrates imageJson) (.init oldLetter) (putAfter 4)).map
      fun x => (x.pass.phase, x.replyTo 0, x.st.manifests.lookup letterDigest)) =
      some (.done, some (.ok (manifestCreated "app" letterDigest)), none) := by decide +kernel
  obtain ⟨x, hx, hend⟩ := Option.map_eq_some_iff.mp hrun
  simp only [Prod.mk.injEq] at hend
  obtain ⟨hdone, hreply, hgone⟩ := hend
  refine ⟨x, hx, hdone, hreply, ?_, by decide +kernel, by decide +kernel⟩
  simp [State.Stored, hgone]

end Dockfoxprox

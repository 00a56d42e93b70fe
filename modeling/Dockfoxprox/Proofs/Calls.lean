import Dockfoxprox.Lib.Machine
import Dockfoxprox.Model.Calls
import Dockfoxprox.Proofs.Usage
import Mathlib.Algebra.BigOperators.Group.List.Basic
import Mathlib.Tactic.Abel

/-! Usage accounting under interleaved calls. The invariant is that the counters
plus what every call in flight still owes them are the bytes in the maps. -/

namespace Dockfoxprox

open MapSum

/-- What a call still has to add to the counters before it returns. -/
def Call.pending : Call → Usage
  | .insertBlobMap _ b => -toUsage (blobCharge b)
  | .insertBlobOld old | .removeBlobOld old => -toUsage (blobCharge old)
  | .insertManifestAdd new old => Pi.single .manifestMemory ((new : BitVec 64) - old)
  | .removeManifestOld m => -toUsage (manifestCharge m)
  | .insertRedisMap _ e | .insertRedisOld e => -toUsage (charge (redisValueBucket e))
  | .insertRedisKey k => toUsage (charge (.smallRedisMemory, k.length))
  | .removeRedisValue k v => -toUsage (redisCharge k v)
  | .removeRedisKey k _ => -toUsage (charge (.smallRedisMemory, k.length))
  | .start _ | .insertRedisCharge _ _ | .done => 0

@[simp] theorem spawnUnlink_usage (s : State) (e : RedisEntry) :
    (s.spawnUnlink e).usage = s.usage := by cases e <;> rfl

@[simp] theorem spawnUnlink_bytesIn (s : State) (e : RedisEntry) :
    (s.spawnUnlink e).bytesIn = s.bytesIn := by cases e <;> rfl

@[simp] theorem fetchAdd_bytesIn (s : State) (b : Bucket) (n : BitVec 64) :
    (s.fetchAdd b n).bytesIn = s.bytesIn := rfl

@[simp] theorem fetchSub_bytesIn (s : State) (b : Bucket) (n : BitVec 64) :
    (s.fetchSub b n).bytesIn = s.bytesIn := rfl

theorem toUsage_bucket (c : Bucket × ℕ) : toUsage (charge c) = Pi.single c.1 (c.2 : BitVec 64) :=
  toUsage_charge c.1 c.2

/-- The counters and what a call owes them move by exactly the bytes that a step moves in the
maps. -/
def Balances (s s' : State) (owed owed' : Usage) : Prop :=
  s'.usage + owed' + toUsage s.bytesIn = s.usage + owed + toUsage s'.bytesIn

namespace Balances

variable {s s' : State} {owed owed' : Usage}

/-- A step on the counters alone. -/
theorem counted (hb : s'.bytesIn = s.bytesIn) (hu : s'.usage + owed' = s.usage + owed) :
    Balances s s' owed owed' := by
  rw [Balances, hb, hu]

/-- A step that takes an entry out of its map, whose bytes it owes from then on. -/
theorem removed {old : Bucket → ℕ} (hu : s'.usage = s.usage) (hb : s.bytesIn = old + s'.bytesIn) :
    Balances s s' 0 (-toUsage old) := by
  rw [Balances, hu, hb, toUsage_add]
  abel

/-- A step that puts an entry into its map, in the place of another one or of none. -/
theorem inserted {old new : Bucket → ℕ} (hu : s'.usage = s.usage)
    (hb : s'.bytesIn + old = s.bytesIn + new) (ho : owed' + toUsage old = owed + toUsage new) :
    Balances s s' owed owed' := by
  have hbytes := congrArg toUsage hb
  rw [toUsage_add, toUsage_add] at hbytes
  rw [Balances, hu, eq_sub_of_add_eq hbytes, eq_sub_of_add_eq ho]
  abel

end Balances

/-- The first step of a call. -/
theorem Op.start_balances (s : State) (op : Op) :
    Balances s ((Call.start op).step s).1 0 ((Call.start op).step s).2.pending := by
  cases op with
  | insertBlob d b =>
    refine .counted rfl ?_
    simp only [Call.step, Call.pending, fetchAdd_usage, blobCharge, toUsage_bucket]
    abel
  | removeBlob d =>
    have hb := bytesIn_erase_blob s d
    simp only [Call.step]
    cases hl : s.blobs.lookup d with
    | none => exact .counted rfl rfl
    | some b =>
      rw [share, hl, Option.elim_some] at hb
      exact .removed rfl hb
  | insertManifest d m =>
    refine .inserted rfl (bytesIn_insert_manifest s d m) ?_
    rw [share]
    cases hl : s.manifests.lookup d with
    | none =>
      simp [Call.step, Call.pending, hl, manifestCharge, toUsage_bucket]
    | some old =>
      simp [Call.step, Call.pending, hl, manifestCharge, toUsage_bucket, Pi.single_sub]
  | removeManifest d =>
    have hb := bytesIn_erase_manifest s d
    simp only [Call.step]
    cases hl : s.manifests.lookup d with
    | none => exact .counted rfl rfl
    | some m =>
      rw [share, hl, Option.elim_some] at hb
      exact .removed rfl hb
  | insertRedis k v => exact .counted rfl rfl
  | removeRedis k =>
    have hb := bytesIn_erase_redis s k
    simp only [Call.step]
    cases hl : s.redisEntries.lookup k with
    | none => exact .counted rfl rfl
    | some e =>
      rw [share, hl, Option.elim_some] at hb
      exact .removed rfl hb

/-- The step that puts a blob into the map. -/
theorem Call.insertBlobMap_balances (s : State) (d : Digest) (b : Blob) :
    Balances s ((Call.insertBlobMap d b).step s).1 (-toUsage (blobCharge b))
      ((Call.insertBlobMap d b).step s).2.pending := by
  refine .inserted rfl (bytesIn_insert_blob s d b) ?_
  rw [share]
  cases hl : s.blobs.lookup d with
  | none =>
    simp [Call.step, Call.pending, hl]
  | some old => simp [Call.step, Call.pending, hl]

/-- The step that puts a Redis entry into the map. The key was charged when the entry it replaces
was inserted. -/
theorem Call.insertRedisMap_balances (s : State) (k : Bytes) (e : RedisEntry) :
    Balances s ((Call.insertRedisMap k e).step s).1 (-toUsage (charge (redisValueBucket e)))
      ((Call.insertRedisMap k e).step s).2.pending := by
  refine .inserted rfl (bytesIn_insert_redis s k e) ?_
  rw [share]
  cases hl : s.redisEntries.lookup k with
  | none =>
    simp [Call.step, Call.pending, hl, redisCharge, toUsage_add]
  | some old => simp [Call.step, Call.pending, hl, redisCharge, toUsage_add]

/-- The step lemma of the balance. -/
theorem Call.step_balance (s : State) (c : Call) :
    Balances s (c.step s).1 c.pending (c.step s).2.pending := by
  cases c with
  | start op => exact Op.start_balances s op
  | insertBlobMap d b => exact insertBlobMap_balances s d b
  | insertRedisMap k e => exact insertRedisMap_balances s k e
  | insertBlobOld old | removeBlobOld old =>
    refine .counted rfl ?_
    simp only [Call.step, Call.pending, fetchSub_usage, blobCharge, toUsage_bucket]
    abel
  | insertManifestAdd new old =>
    refine .counted rfl ?_
    simp only [Call.step, Call.pending, fetchAdd_usage]
    abel
  | removeManifestOld m =>
    refine .counted rfl ?_
    simp only [Call.step, Call.pending, fetchSub_usage, manifestCharge, toUsage_bucket]
    abel
  | insertRedisCharge k e =>
    refine .counted rfl ?_
    simp only [Call.step, Call.pending, fetchAdd_usage, toUsage_bucket]
    abel
  | insertRedisOld old =>
    refine .counted (spawnUnlink_bytesIn _ old) ?_
    simp only [Call.step, Call.pending, spawnUnlink_usage, fetchSub_usage, toUsage_bucket]
    abel
  | insertRedisKey k =>
    refine .counted rfl ?_
    simp only [Call.step, Call.pending, fetchAdd_usage, toUsage_bucket]
    abel
  | removeRedisValue k v =>
    refine .counted rfl ?_
    simp only [Call.step, Call.pending, fetchSub_usage, redisCharge, toUsage_add, toUsage_bucket]
    abel
  | removeRedisKey k v =>
    refine .counted (spawnUnlink_bytesIn _ v) ?_
    simp only [Call.step, Call.pending, spawnUnlink_usage, fetchSub_usage, toUsage_bucket]
    abel
  | done => exact .counted rfl rfl

/-- The counters and everything the calls in flight owe them are the bytes in the maps. -/
def InFlight.Balanced (s : InFlight) : Prop :=
  s.state.usage + (s.calls.map Call.pending).sum = toUsage s.state.bytesIn

/-- Replacing one element moves its summand out of a sum over the list and the new one in. -/
theorem sum_map_set {α M : Type*} [AddCommMonoid M] (f : α → M) {calls : List α} {i : ℕ} {c : α}
    (h : calls[i]? = some c) (c' : α) :
    ((calls.set i c').map f).sum + f c = (calls.map f).sum + f c' := by
  induction calls generalizing i with
  | nil => simp at h
  | cons a as ih =>
    cases i with
    | zero =>
      simp only [List.getElem?_cons_zero, Option.some.injEq] at h
      subst h
      simp only [List.set_cons_zero, List.map_cons, List.sum_cons]
      abel
    | succ i =>
      simp only [List.getElem?_cons_succ] at h
      simp only [List.set_cons_succ, List.map_cons, List.sum_cons]
      rw [add_assoc, ih h, add_assoc]

theorem InFlight.step_balanced {s s' : InFlight} {e : CallEvent} (hb : s.Balanced)
    (h : s.step e = some s') : s'.Balanced := by
  cases e with
  | start op =>
    simp only [InFlight.step, Option.some.injEq] at h
    subst h
    simpa [InFlight.Balanced, Call.pending] using hb
  | step i =>
    simp only [InFlight.step] at h
    cases hc : s.calls[i]? with
    | none => simp [hc] at h
    | some c =>
      simp only [hc, Option.some.injEq] at h
      subst h
      have h1 := Call.step_balance s.state c
      have h2 := sum_map_set Call.pending hc (c.step s.state).2
      unfold InFlight.Balanced at hb ⊢
      rw [Balances, ← hb] at h1
      simp only
      rw [eq_sub_of_add_eq h2]
      have h3 := eq_sub_of_add_eq' h1.symm
      rw [h3]
      abel

/-- Once every call has returned, the counters are what `recompute_usage` counts. -/
theorem usage_exact_at_quiescence (s : State) (h : s.usage = s.recomputed)
    (events : List CallEvent) (t : InFlight)
    (hr : Machine.run InFlight.step ⟨s, []⟩ events = some t) (hq : ∀ c ∈ t.calls, c = .done) :
    t.state.usage = t.state.recomputed := by
  have h0 : InFlight.Balanced ⟨s, []⟩ := by
    simp [InFlight.Balanced, h, recomputed_eq]
  have hb := Machine.run_invariant (fun _ _ _ hi _ hs => InFlight.step_balanced hi hs) h0
    (Machine.along_true _ _) hr
  have hz : (t.calls.map Call.pending).sum = 0 := by
    apply List.sum_eq_zero
    intro p hp
    obtain ⟨c, hc, rfl⟩ := List.mem_map.mp hp
    rw [hq c hc]
    rfl
  rw [InFlight.Balanced, hz, add_zero] at hb
  rw [hb, recomputed_eq]

/-- Two SETs of one key and its removal, all three in flight at once. -/
def racingCalls : List CallEvent :=
  [.start (.insertRedis [107] [97]), .start (.insertRedis [107] [98, 99]),
    .start (.removeRedis [107]), .step 0, .step 1, .step 1, .step 0, .step 1, .step 2, .step 0,
    .step 2, .step 1, .step 0, .step 2]

theorem usage_exact_at_quiescence_racing :
    ∃ t, Machine.run InFlight.step ⟨State.new ⟨8, none, 8⟩ 0, []⟩ racingCalls = some t ∧
      t.state.redisEntries.lookup [107] = some (.inMemory [97] 0 0) ∧
      t.state.usage = t.state.recomputed :=
  ⟨_, rfl, by decide +kernel,
    usage_exact_at_quiescence (State.new ⟨8, none, 8⟩ 0) rfl racingCalls _ rfl
      (by decide +kernel)⟩

/-- The steps of one call, with no other in flight, make up the whole operation. -/
theorem Call.steps_eq_apply (s : State) (op : Op) :
    ∃ n, (fun p : State × Call => p.2.step p.1)^[n] (s, .start op) = (op.apply s, .done) := by
  cases op with
  | insertBlob d b =>
    cases h : s.blobs.lookup d with
    | none => exact ⟨2, by simp [Call.step, Op.apply, State.insertBlob, State.fetchAdd, h]⟩
    | some old => exact ⟨3, by simp [Call.step, Op.apply, State.insertBlob, State.fetchAdd, h]⟩
  | removeBlob d =>
    cases h : s.blobs.lookup d with
    | none => exact ⟨1, by simp [Call.step, Op.apply, State.removeBlob, h]⟩
    | some b => exact ⟨2, by simp [Call.step, Op.apply, State.removeBlob, h]⟩
  | insertManifest d m =>
    exact ⟨2, by simp [Call.step, Op.apply, State.insertManifest]⟩
  | removeManifest d =>
    cases h : s.manifests.lookup d with
    | none => exact ⟨1, by simp [Call.step, Op.apply, State.removeManifest, h]⟩
    | some m => exact ⟨2, by simp [Call.step, Op.apply, State.removeManifest, h]⟩
  | insertRedis k v =>
    cases h : s.redisEntries.lookup k with
    | none => exact ⟨4, by simp [Call.step, Op.apply, State.insertRedis, State.fetchAdd, h]⟩
    | some old => exact ⟨4, by simp [Call.step, Op.apply, State.insertRedis, State.fetchAdd, h]⟩
  | removeRedis k =>
    cases h : s.redisEntries.lookup k with
    | none => exact ⟨1, by simp [Call.step, Op.apply, State.removeRedis, h]⟩
    | some v => exact ⟨3, by simp [Call.step, Op.apply, State.removeRedis, h]⟩

/-- An operation that runs alone moves the counters by the bytes it moves in the maps. -/
theorem Op.apply_balance (s : State) (op : Op) :
    (op.apply s).usage + toUsage s.bytesIn = s.usage + toUsage (op.apply s).bytesIn := by
  obtain ⟨n, hn⟩ := Call.steps_eq_apply s op
  have hall (n : ℕ) : ∀ x, (fun p : State × Call => p.2.step p.1)^[n] (s, .start op) = x →
      x.1.usage + x.2.pending + toUsage s.bytesIn = s.usage + toUsage x.1.bytesIn := by
    induction n with
    | zero => rintro x rfl; simp [Call.pending]
    | succ n ih =>
      rintro x rfl
      rw [Function.iterate_succ_apply']
      generalize hy : (fun p : State × Call => p.2.step p.1)^[n] (s, .start op) = y
      have hb := Call.step_balance y.1 y.2
      have hi := ih y hy
      rw [eq_sub_of_add_eq hb, eq_sub_of_add_eq hi]
      abel
  have h := hall n _ hn
  simpa [Call.pending] using h

end Dockfoxprox

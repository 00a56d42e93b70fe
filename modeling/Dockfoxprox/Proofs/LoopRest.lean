import Dockfoxprox.Model.EvictLoop
import Dockfoxprox.Proofs.Calls
import Dockfoxprox.Proofs.Collection
import Dockfoxprox.Proofs.EvictLoop
import Dockfoxprox.Proofs.Termination
import Mathlib.Data.Prod.Lex

/-! The eviction loop comes to rest. A spill wakes the loop that made it, through `insert_blob`, so
a pass may be followed by another one. Each spill takes a blob out of memory though, and only
calls put one there; so the calls return, and after finitely many passes the loop waits. -/

namespace Dockfoxprox

open MapSum Machine

/-- The loop is not cancelled and no write of a pass fails. -/
def LoopEvent.Succeeds : LoopEvent → Prop
  | .evict c => c.write = .ok
  | .cancel => False
  | _ => True

namespace LoopSys

/-- The steps of the calls under way and of the loop itself, but for the timer that starts a round
every 30 s, which never stops. -/
def Own (x : LoopSys) : LoopEvent → Prop
  | .call i => ∃ c, x.calls[i]? = some c ∧ c ≠ .done
  | .notify | .wake | .load | .evict _ | .cooled => True
  | _ => False

/-- No call moves during a pass, which may hold the guard of an entry that the call needs while it
writes the file of a spill. -/
def Unblocked (x : LoopSys) (e : LoopEvent) : Prop :=
  ∀ i p, e = .call i → x.phase ≠ .evicting p

/-- All calls have returned, the loop has been told of every insert, and it waits. -/
structure AtRest (x : LoopSys) : Prop where
  phase : x.phase = .waiting
  calls : ∀ c ∈ x.calls, c = .done
  returning : x.returning = 0
  notified : x.notified = false

end LoopSys

/-! The blobs in memory. -/

/-- A blob in memory counts. -/
def Blob.resident (_ : Digest) : Blob → ℕ
  | .inMemory _ _ _ _ => 1
  | .onDisk _ _ _ _ => 0

def State.residents (s : State) : ℕ := total Blob.resident s.blobs

/-- A spill under way whose blob is no longer in memory. -/
def Phase.lost (s : State) : Phase → ℕ
  | .spillWrite _ r _ | .spillInsert _ r _ => 1 - share Blob.resident s.blobs r
  | _ => 0

namespace Act

variable {a : Act} {s : State}

theorem residents_le (ha : a.notifies = false) : (a.apply s).residents ≤ s.residents := by
  unfold State.residents
  rw [apply_blobs]
  cases a with
  | moveBlob d b => cases ha
  | dropBlob d =>
    rw [total_eq_erase Blob.resident s.blobs d]
    exact Nat.le_add_left ..
  | _ => exact le_refl _

theorem residents_moveBlob (r : Digest) (id size : ℕ) (mt : String) (t : ℕ) :
    ((Act.moveBlob r (.onDisk id size mt t)).apply s).residents + share Blob.resident s.blobs r =
      s.residents := by
  unfold State.residents
  rw [apply_blobs]
  exact total_insert_add_share Blob.resident s.blobs r (.onDisk id size mt t)

/-- No act adds a reference. -/
theorem references_le (fromSlice : Bytes → Option Json) (a : Act) (s : State) :
    (a.apply s).references fromSlice ≤ s.references fromSlice := by
  unfold State.references
  rw [apply_manifests]
  cases a with
  | markEvicted d =>
    simp only [onManifests]
    cases hm : s.manifests.lookup d with
    | none => exact le_refl _
    | some m =>
      have h := total_insert_add_share
        (fun (_ : Digest) (m : Manifest) => (referencedDigests fromSlice m.content).length)
        s.manifests d { m with evicted := true }
      rw [share, hm, Option.elim_some] at h
      exact (Nat.add_right_cancel h).le
  | dropManifest d =>
    rw [total_eq_erase _ s.manifests d]
    exact Nat.le_add_left ..
  | _ => exact le_refl _

end Act

theorem Phase.touch_ne_failed {ph : Phase} {d : Digest} {b : Blob} {now : ℕ}
    (h : ph ≠ .failed) : ph.touch d b now ≠ .failed := by
  cases ph with
  | failed => exact absurd rfl h
  | _ => nofun

theorem share_resident_le (m : DashMap Digest Blob) (d : Digest) : share Blob.resident m d ≤ 1 := by
  unfold share
  cases m.lookup d with
  | none => exact Nat.zero_le 1
  | some b =>
    cases b with
    | inMemory => exact le_refl 1
    | onDisk => exact Nat.zero_le 1

namespace Pass

variable {fromSlice : Bytes → Option Json} {s : State} {p p' : Pass} {c : Choice} {a : Act}

def spillsLeft (s : State) (p : Pass) : ℕ := s.residents + p.phase.lost s

/-- A spill takes a blob out of memory, or it is the one that no longer finds its blob there. -/
theorem Step.spillsLeft_le (hs : Step fromSlice s p c a p') :
    p'.spillsLeft (a.apply s) + a.notifies.toNat ≤ p.spillsLeft s := by
  have hplain (ha : a.notifies = false) (hp' : p'.phase.lost (a.apply s) = 0) :
      p'.spillsLeft (a.apply s) + a.notifies.toNat ≤ p.spillsLeft s := by
    rw [spillsLeft, hp', ha]
    exact (Act.residents_le ha).trans (Nat.le_add_right ..)
  cases hs with
  | @spillInsert sp r held hp =>
    have hmove := @Act.residents_moveBlob s r held.id held.content.length held.mediaType
      held.lastAccessed
    have hone := share_resident_le s.blobs r
    simp only [spillsLeft, hp, Phase.lost, goto_phase, Act.notifies, Bool.toNat_true]
    omega
  | @spillFetch sp r rest bb id content mt t hp ht hb hu htier hl =>
    refine hplain rfl ?_
    simp only [goto_phase, Phase.lost, share, Act.apply, hl, Option.elim_some, Blob.resident]
  | spillWrite hp =>
    simp only [spillsLeft, hp, goto_phase, Phase.lost, Act.notifies, Bool.toNat_false]
    exact le_refl _
  | stale hp | dropRedis hp =>
    refine hplain rfl ?_
    simp only [popped_phase, credit_phase, hp, Phase.lost]
  | @writeFailed id leftover hp hw => cases leftover <;> exact hplain rfl rfl
  | @cascadeDrop old r todo bb blob => cases blob <;> exact hplain rfl rfl
  | @sweepDrop todo r bb blob => cases blob <;> exact hplain rfl rfl
  | cascadeUnlink hp | sweepUnlink hp =>
    refine hplain ?_ rfl
    unfold unlink
    split <;> rfl
  | _ => exact hplain rfl rfl

/-! A pass comes to an end, whoever disturbed it before. -/

theorem setBk_length {r : Digest} {bb bb' : BlobBk} (h : p.blobs.lookup r = some bb) :
    (p.setBk r bb').blobs.keys.length = p.blobs.keys.length := by
  have hmem : r ∈ p.blobs.keys := AList.lookup_isSome.mp (by rw [h]; rfl)
  have hpos := List.length_pos_of_mem hmem
  rw [setBk_blobs, AList.keys_insert, List.length_cons, List.length_erase_of_mem hmem]
  omega

/-- The table gets no new entry after the scans. -/
theorem Step.table_length (hs : Step fromSlice s p c a p') (hscan : p.phase.scanning = false) :
    p'.blobs.keys.length = p.blobs.keys.length := by
  cases hs with
  | scanBlobs hp | scanManifests hp | scanRedis hp => rw [hp] at hscan; cases hscan
  | spillKeep hp ht hb | spillFetch hp ht hb | cascadeKeep hp hb | cascadeDrop hp hb =>
    exact setBk_length hb
  | _ => rfl

/-- The steps that are left to a pass that is over its scans. -/
def workLeft (fromSlice : Bytes → Option Json) (s : State) (p : Pass) : ℕ :=
  p.work fromSlice (s.references fromSlice) p.blobs.keys.length

theorem Step.workLeft_lt (hs : Step fromSlice s p c a p') (hscan : p.phase.scanning = false) :
    p'.workLeft fromSlice (a.apply s) < p.workLeft fromSlice s := by
  have hlt := hs.work_lt (fun d m hm => s.length_le_references hm) (le_refl _) hscan
  rw [workLeft, hs.table_length hscan]
  exact (p'.work_mono (Act.references_le fromSlice a s)).trans_lt hlt

end Pass

def Phase.scansLeft : Phase → ℕ
  | .begin => 4
  | .scanBlobs => 3
  | .scanManifests => 2
  | .scanRedis => 1
  | _ => 0

theorem Phase.scansLeft_eq {ph : Phase} (h : ph.scanning = false) : ph.scansLeft = 0 := by
  cases ph <;> first | rfl | cases h

theorem Pass.Step.scansLeft {fromSlice : Bytes → Option Json} {s : State} {p p' : Pass}
    {c : Choice} {a : Act} (hs : Step fromSlice s p c a p') (hscan : p.phase.scanning) :
    p'.phase.scansLeft < p.phase.scansLeft := by
  cases hs with
  | begin hp | scanBlobs hp | scanManifests hp | scanRedis hp =>
    rw [hp]
    exact Nat.lt_succ_self _
  | writeFailed hp hw =>
    rcases hp with ⟨_, _, _, hp, -⟩ | ⟨_, _, _, _, hp⟩ <;> rw [hp] at hscan <;> cases hscan
  | _ hp => rw [hp] at hscan; cases hscan

/-- The steps a call has before it. -/
def Call.left : Call → ℕ
  | .start _ => 4
  | .insertRedisCharge _ _ => 3
  | .insertBlobMap _ _ | .insertRedisMap _ _ | .removeRedisValue _ _ => 2
  | .done => 0
  | _ => 1

theorem Call.left_step (s : State) {c : Call} (h : c ≠ .done) : (c.step s).2.left < c.left := by
  cases c with
  | start op =>
    cases op with
    | removeBlob d =>
      simp only [step]
      cases s.blobs.lookup d <;> simp [left]
    | removeManifest d =>
      simp only [step]
      cases s.manifests.lookup d <;> simp [left]
    | removeRedis key =>
      simp only [step]
      cases s.redisEntries.lookup key <;> simp [left]
    | _ => simp [step, left]
  | insertBlobMap d b =>
    simp only [step]
    cases s.blobs.lookup d <;> simp [left]
  | insertRedisMap key e =>
    simp only [step]
    cases s.redisEntries.lookup key <;> simp [left]
  | done => exact absurd rfl h
  | _ => simp [step, left]

namespace LoopPhase

/-- How far the loop is from its wait, -/
def rank : LoopPhase → ℕ
  | .stopped | .waiting => 0
  | .cooldown => 1
  | .evicting p => p.phase.scansLeft + 2
  | .loading todo _ => todo.length + 7

/-- how many blobs in memory it may still spill, -/
def spillsLeft (s : State) : LoopPhase → ℕ
  | .evicting p => p.spillsLeft s
  | _ => s.residents

/-- and the steps of its pass. -/
def workLeft (fromSlice : Bytes → Option Json) (s : State) : LoopPhase → ℕ
  | .evicting p => p.workLeft fromSlice s
  | _ => 0

end LoopPhase

namespace LoopSys

variable {fromSlice : Bytes → Option Json} {x y : LoopSys} {e : LoopEvent}

/-- What is left to do: the calls, the spills, the permit, the way to the wait and the pass, each
of them worth more than all after it. A step of a call counts twice, for it may leave the
notification of an insert to be sent. -/
def left (fromSlice : Bytes → Option Json) (x : LoopSys) : ℕ ×ₗ ℕ ×ₗ ℕ ×ₗ ℕ ×ₗ ℕ :=
  toLex (2 * (x.calls.map Call.left).sum + x.returning, toLex (x.phase.spillsLeft x.st,
    toLex (x.notified.toNat, toLex (x.phase.rank, x.phase.workLeft fromSlice x.st))))

/-- A step of the loop, which leaves the calls alone. -/
theorem left_lt (hcalls : y.calls = x.calls) (hret : y.returning = x.returning)
    (hspills : y.phase.spillsLeft y.st ≤ x.phase.spillsLeft x.st)
    (h : y.phase.spillsLeft y.st = x.phase.spillsLeft x.st →
      y.notified.toNat ≤ x.notified.toNat ∧ (y.notified.toNat = x.notified.toNat →
        y.phase.rank < x.phase.rank ∨ y.phase.rank = x.phase.rank ∧
          y.phase.workLeft fromSlice y.st < x.phase.workLeft fromSlice x.st)) :
    y.left fromSlice < x.left fromSlice := by
  refine Prod.Lex.toLex_lt_toLex.mpr (.inr ⟨by rw [hcalls, hret], ?_⟩)
  refine Prod.Lex.toLex_lt_toLex'.mpr ⟨hspills, fun heq => ?_⟩
  obtain ⟨hnot, hrest⟩ := h heq
  refine Prod.Lex.toLex_lt_toLex'.mpr ⟨hnot, fun heq => ?_⟩
  exact Prod.Lex.toLex_lt_toLex.mpr (hrest heq)

/-- The loop goes on to a phase that is nearer to its wait. -/
theorem left_lt_of_rank {ph : LoopPhase} (hspills : ph.spillsLeft x.st ≤ x.phase.spillsLeft x.st)
    (hrank : ph.rank < x.phase.rank) :
    left fromSlice { x with phase := ph } < x.left fromSlice :=
  left_lt rfl rfl hspills fun _ => ⟨le_refl _, fun _ => .inl hrank⟩

theorem left_lt_of_load (hs : x.load = some y) : y.left fromSlice < x.left fromSlice := by
  unfold load at hs
  split at hs
  · rename_i sum hx
    obtain rfl := Option.some.inj hs
    split
    · exact left_lt_of_rank (by rw [hx]; exact le_refl _) (by rw [hx]; exact Nat.lt_succ_self 6)
    · refine left_lt_of_rank (by rw [hx]; exact le_refl _) ?_
      rw [hx]
      exact Nat.one_lt_succ_succ 5
  · rename_i pool b todo sum hx
    obtain rfl := Option.some.inj hs
    refine left_lt_of_rank (by rw [hx]; exact le_refl _) ?_
    rw [hx]
    exact Nat.lt_succ_self _
  · cases hs

/-- The pass returns. -/
theorem left_lt_of_returned {p : Pass} {ph : LoopPhase} (hx : x.phase = .evicting p)
    (hspills : ph.spillsLeft x.st = x.st.residents) (hrank : ph.rank < 2) :
    left fromSlice { x with phase := ph } < x.left fromSlice := by
  refine left_lt_of_rank ?_ ?_
  · rw [hspills, hx]
    exact Nat.le_add_right ..
  · rw [hx]
    exact Nat.lt_add_left _ hrank

theorem left_lt_of_evict {c : Choice} (hs : x.evict fromSlice c = some y) :
    y.left fromSlice < x.left fromSlice := by
  unfold evict at hs
  split at hs
  · rename_i p hx
    split at hs
    · obtain rfl := Option.some.inj hs
      exact left_lt_of_returned hx rfl (Nat.lt_succ_self 1)
    · split at hs
      · obtain rfl := Option.some.inj hs
        exact left_lt_of_returned hx rfl Nat.two_pos
      · obtain ⟨⟨a, p'⟩, hn, rfl⟩ := Option.map_eq_some_iff.mp hs
        have hst := Pass.step_of_next hn
        have hle := hst.spillsLeft_le
        refine left_lt rfl rfl ?_ fun heq => ?_
        · rw [hx]
          exact (Nat.le_add_right ..).trans hle
        · rw [hx] at heq ⊢
          -- a spill would have lowered what is left of them
          have hquiet : a.notifies = false := by
            cases ha : a.notifies with
            | false => rfl
            | true =>
              have heq : p'.spillsLeft (a.apply x.st) = p.spillsLeft x.st := heq
              rw [ha, heq] at hle
              exact absurd hle (Nat.not_succ_le_self _)
          refine ⟨by simp only [hquiet, Bool.or_false, le_refl], fun _ => ?_⟩
          cases hscan : p.phase.scanning with
          | true => exact .inl (Nat.add_lt_add_right (hst.scansLeft hscan) 2)
          | false =>
            have hzero : p'.phase.scansLeft = p.phase.scansLeft := by
              rw [Phase.scansLeft_eq hscan, Phase.scansLeft_eq (hst.scanning hscan)]
            exact .inr ⟨congrArg (· + 2) hzero, hst.workLeft_lt hscan⟩
  · cases hs

/-- The step lemma: there is less left to do. -/
theorem left_lt_of_step (he : x.Own e) (hs : x.step fromSlice e = some y) :
    y.left fromSlice < x.left fromSlice := by
  cases e with
  | call i =>
    obtain ⟨c, hi, hne⟩ := he
    simp only [step, hi] at hs
    obtain rfl := Option.some.inj hs
    have hset := sum_map_set Call.left hi (c.step x.st).2
    have hlt := Call.left_step x.st hne
    have hone := Bool.toNat_le (c.inserting && !(c.step x.st).2.inserting)
    refine Prod.Lex.toLex_lt_toLex.mpr (.inl ?_)
    dsimp only
    omega
  | notify =>
    simp only [step] at hs
    split at hs
    · cases hs
    · obtain rfl := Option.some.inj hs
      refine Prod.Lex.toLex_lt_toLex.mpr (.inl ?_)
      dsimp only
      omega
  | wake =>
    simp only [step] at hs
    split at hs
    · rename_i hx
      split at hs
      · rename_i hnot
        obtain rfl := Option.some.inj hs
        refine left_lt rfl rfl (by rw [hx]; exact le_refl _) fun _ => ⟨by simp, fun h => ?_⟩
        rw [hnot] at h
        exact absurd h Nat.zero_ne_one
      · cases hs
    · cases hs
  | load => exact left_lt_of_load hs
  | evict c => exact left_lt_of_evict hs
  | cooled =>
    simp only [step] at hs
    split at hs
    · rename_i hx
      obtain rfl := Option.some.inj hs
      exact left_lt_of_rank (by rw [hx]; exact le_refl _) (by rw [hx]; decide)
    · cases hs
  | _ => exact he.elim

/-! The loop can go on until it rests. -/

/-- The loop has not ended, nor is it about to with a pass that failed. -/
def Going (x : LoopSys) : Prop :=
  match x.phase with
  | .stopped => False
  | .evicting p => p.phase ≠ .failed
  | _ => True

theorem Going.step (h : x.Going) (he : e.Succeeds) (hs : x.step fromSlice e = some y) :
    y.Going := by
  unfold Going at h ⊢
  cases e with
  | call i =>
    simp only [LoopSys.step] at hs
    split at hs
    · cases hs
    · obtain rfl := Option.some.inj hs
      exact h
  | notify =>
    simp only [LoopSys.step] at hs
    split at hs
    · cases hs
    · obtain rfl := Option.some.inj hs
      exact h
  | wake =>
    simp only [LoopSys.step] at hs
    split at hs
    · split at hs
      · obtain rfl := Option.some.inj hs
        trivial
      · cases hs
    · cases hs
  | backstop | cooled =>
    simp only [LoopSys.step] at hs
    split at hs
    · obtain rfl := Option.some.inj hs
      trivial
    · cases hs
  | load =>
    simp only [LoopSys.step, load] at hs
    split at hs
    · rename_i sum hx
      obtain rfl := Option.some.inj hs
      cases x.st.config.exceeded sum with
      | true => exact fun hf => by cases hf
      | false => trivial
    · obtain rfl := Option.some.inj hs
      trivial
    · cases hs
  | evict c =>
    simp only [LoopSys.step, evict] at hs
    split at hs
    · split at hs
      · obtain rfl := Option.some.inj hs
        trivial
      · rename_i p hx hdone
        rw [hx] at h
        rw [if_neg h] at hs
        obtain ⟨r, hn, rfl⟩ := Option.map_eq_some_iff.mp hs
        exact (Pass.step_of_next hn).not_failed_of_ok he
    · cases hs
  | hit k =>
    obtain rfl := Option.some.inj hs
    rcases x.phase.hit_cases x.st k with hsame | ⟨p, d, b, hx, hheld⟩
    · simpa only [hsame] using h
    · rw [hx] at h
      simpa only [hheld, Pass.goto_phase] using Phase.touch_ne_failed h
  | cancel => exact he.elim
  | _ =>
    obtain rfl := Option.some.inj hs
    exact h

/-- Unless it rests, there is a step to take, a pass going before the calls. -/
theorem Going.exists_own (h : x.Going) (fromSlice : Bytes → Option Json) :
    x.AtRest ∨
      ∃ e y, x.Own e ∧ x.Unblocked e ∧ e.Succeeds ∧ x.step fromSlice e = some y := by
  have hgo {e : LoopEvent} (he : x.Own e) (hfree : x.Unblocked e) (hok : e.Succeeds)
      (hs : (x.step fromSlice e).isSome) : x.AtRest ∨
        ∃ e y, x.Own e ∧ x.Unblocked e ∧ e.Succeeds ∧ x.step fromSlice e = some y := by
    obtain ⟨y, hy⟩ := Option.isSome_iff_exists.mp hs
    exact .inr ⟨e, y, he, hfree, hok, hy⟩
  unfold Going at h
  by_cases hpass : ∃ p, x.phase = .evicting p
  · obtain ⟨p, hx⟩ := hpass
    rw [hx] at h
    have hfree (c : Choice) : x.Unblocked (.evict c) := fun i q he => by cases he
    by_cases hdone : p.phase = .done
    · refine hgo (e := .evict {}) trivial (hfree _) rfl ?_
      simp only [LoopSys.step, evict, hx, if_pos hdone]
      rfl
    · obtain ⟨pick, hn⟩ := @Pass.exists_next fromSlice x.st p hdone h .ok true
      obtain ⟨r, hn⟩ := Option.isSome_iff_exists.mp hn
      refine hgo (e := .evict ⟨pick, .ok, true⟩) trivial (hfree _) rfl ?_
      simp only [LoopSys.step, evict, hx, if_neg hdone, if_neg h, hn, Option.map_some]
      rfl
  · have hfree (e : LoopEvent) : x.Unblocked e := fun i p _ hx => hpass ⟨p, hx⟩
    by_cases hcalls : ∀ c ∈ x.calls, c = .done
    · by_cases hret : x.returning = 0
      · cases hx : x.phase with
        | stopped =>
          rw [hx] at h
          exact h.elim
        | waiting =>
          cases hnot : x.notified with
          | false => exact .inl ⟨hx, hcalls, hret, hnot⟩
          | true =>
            refine hgo (e := .wake) trivial (hfree _) trivial ?_
            simp only [LoopSys.step, hx, hnot, if_true]
            rfl
        | loading todo sum =>
          refine hgo (e := .load) trivial (hfree _) trivial ?_
          cases todo with
          | nil =>
            simp only [LoopSys.step, load, hx]
            rfl
          | cons l todo =>
            simp only [LoopSys.step, load, hx]
            rfl
        | evicting p => exact absurd ⟨p, hx⟩ hpass
        | cooldown =>
          refine hgo (e := .cooled) trivial (hfree _) trivial ?_
          simp only [LoopSys.step, hx]
          rfl
      · refine hgo (e := .notify) trivial (hfree _) trivial ?_
        simp only [LoopSys.step, if_neg hret]
        rfl
    · push Not at hcalls
      obtain ⟨c, hc, hne⟩ := hcalls
      obtain ⟨i, hi⟩ := List.mem_iff_getElem?.mp hc
      refine hgo (e := .call i) ⟨c, hi, hne⟩ (hfree _) trivial ?_
      simp only [LoopSys.step, hi]
      rfl

end LoopSys

/-- Left to themselves, the calls and the loop do not go on for ever from any state, although a
pass may wake the loop again, unless the timer of the loop starts rounds; and after a run in which
no write failed and the loop was not cancelled, they can go on until it rests, no call moving
during a pass. -/
theorem evict_loop_comes_to_rest (fromSlice : Bytes → Option Json) (s : State)
    {es : List LoopEvent} {t : LoopSys} (hok : ∀ e ∈ es, e.Succeeds)
    (hr : run (LoopSys.step fromSlice) (.init s) es = some t) :
    (∀ f : ℕ → LoopSys, ∃ n, ∀ e, (f n).Own e → (f n).step fromSlice e ≠ some (f (n + 1))) ∧
    ∃ es' y, Along (LoopSys.step fromSlice) (fun x e _ => x.Own e ∧ x.Unblocked e ∧ e.Succeeds)
      t es' ∧ run (LoopSys.step fromSlice) t es' = some y ∧ y.AtRest := by
  constructor
  · intro f
    obtain ⟨n, hn⟩ := WellFounded.not_rel_apply_succ (r := (· < ·)) fun n => (f n).left fromSlice
    exact ⟨n, fun e he hs => hn (LoopSys.left_lt_of_step he hs)⟩
  · have hinit : (LoopSys.init s).Going := trivial
    have hgoing : t.Going := run_invariant_of_mem (E := LoopEvent.Succeeds)
      (fun x e x' hx he hs => LoopSys.Going.step hx he hs) hinit hok hr
    refine run_to_end (μ := LoopSys.left fromSlice) (I := LoopSys.Going) (fun x hx => ?_) hgoing
    refine (hx.exists_own fromSlice).imp_right ?_
    rintro ⟨e, y, he, hfree, hse, hs⟩
    exact ⟨e, y, hs, ⟨he, hfree, hse⟩, hx.step hse hs, LoopSys.left_lt_of_step he hs⟩

instance (e : LoopEvent) : Decidable e.Succeeds :=
  match e with
  | .evict ⟨_, .ok, _⟩ => isTrue rfl
  | .evict ⟨_, .failed _, _⟩ => isFalse nofun
  | .cancel => isFalse id
  | .tick _ | .hit _ | .start _ | .call _ | .notify | .flush | .wake | .backstop | .load
  | .cooled => isTrue trivial

/-- A blob and its manifest go in. The pass that they cause is about to write the file of the blob
when the blob is read and a second one comes in. -/
def settingLoop : List LoopEvent :=
  [.start (.insertBlob layer (.inMemory 0 (List.replicate 1025 97) "" 0)), .call 0, .call 0,
    .call 0, .notify, .start (.insertManifest image ⟨imageBody, "", 0, false⟩), .call 1, .call 1,
    .notify, .wake] ++ List.replicate 11 .load ++ List.replicate 6 (.evict {}) ++
    [.hit (.blob layer), .start (.insertBlob orphan (.inMemory 1 [3] "" 0))]

theorem evict_loop_comes_to_rest_setting :
    ∃ t es' y, run (LoopSys.step imageJson) (.init (State.new ⟨1000, none, 10000⟩ 1)) settingLoop =
      some t ∧ run (LoopSys.step imageJson) t es' = some y ∧ y.AtRest := by
  have hok : ∀ e ∈ settingLoop, e.Succeeds := by decide +kernel
  have hsome : (run (LoopSys.step imageJson) (.init (State.new ⟨1000, none, 10000⟩ 1))
      settingLoop).isSome := by decide +kernel
  obtain ⟨t, hr⟩ := Option.isSome_iff_exists.mp hsome
  obtain ⟨es', y, -, hr', hrest⟩ := (evict_loop_comes_to_rest imageJson _ hok hr).2
  exact ⟨t, es', y, hr, hr', hrest⟩

end Dockfoxprox

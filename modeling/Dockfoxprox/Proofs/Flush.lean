import Dockfoxprox.Model.Flush
import Dockfoxprox.Proofs.Calls

/-! Usage accounting when FLUSHALL runs between the steps of other commands. A counter is
balanced when what it reads and what the calls in flight still owe it are the bytes of its
bucket. Every step keeps that but those of a FLUSHALL: its removals are made up for by its
stores of 0, and each store decides anew whether the counter is balanced. -/

namespace Dockfoxprox

open MapSum

namespace FlushSys

/-- What a command still has to add to the counters before it returns. A FLUSHALL adds
nothing: it sets them. -/
def owes : KeyedCall → Usage
  | .call c _ => c.pending
  | _ => 0

def owed (s : FlushSys) : Usage := (s.calls.map owes).sum

/-- A FLUSHALL that has yet to set the counter to zero. -/
def Due (b : Bucket) : KeyedCall → Prop
  | .retain _ _ => True
  | .store bs _ => b ∈ bs
  | _ => False

def Zeroes (b : Bucket) (s : FlushSys) (e : FlushEvent) : Prop :=
  ∃ i bs delete, e = .step i ∧ s.calls[i]? = some (.store (b :: bs) delete)

/-- The bytes left in the map are what the calls in flight still owe the counter. -/
def Settled (b : Bucket) (s : FlushSys) : Prop := s.owed b = toUsage s.state.bytesIn b

def Balanced (b : Bucket) (s : FlushSys) : Prop :=
  s.state.usage b + s.owed b = toUsage s.state.bytesIn b

end FlushSys

open FlushSys

theorem bytesIn_touch {s : State} {k v : Bytes} {id t t' : ℕ}
    (h : s.redisEntries.lookup k = some (.inMemory v id t)) :
    State.bytesIn { s with redisEntries := s.redisEntries.insert k (.inMemory v id t') } =
      s.bytesIn := by
  have hb := bytesIn_insert_redis s k (.inMemory v id t')
  simp only [share, h, Option.elim_some] at hb
  exact add_right_cancel hb

section
variable {n : ℕ} (shard : Bytes → Fin n)

/-- A step of a command that will not set the counter to zero moves the counter and what
the command owes it by the bytes it moves in the map. -/
theorem KeyedCall.step_balance (s : State) (c : KeyedCall) (b : Bucket) (hc : ¬ Due b c) :
    (c.step shard s).1.usage b + owes (c.step shard s).2 b + toUsage s.bytesIn b =
      s.usage b + owes c b + toUsage (c.step shard s).1.bytesIn b := by
  cases c with
  | get key =>
    simp only [KeyedCall.step]
    split
    · rfl
    · rename_i h
      simp only [bytesIn_touch h]
      rfl
    · rfl
  | read key id =>
    simp only [KeyedCall.step]
    split
    · rfl
    · rfl
  | call c keys =>
    by_cases hd : c = .done
    · subst hd
      cases keys with
      | nil => rfl
      | cons k keys => rfl
    · have hs : (KeyedCall.call c keys).step shard s = ((c.step s).1, .call (c.step s).2 keys) := by
        cases c with
        | done => exact absurd rfl hd
        | _ => rfl
      rw [hs]
      exact congrFun (Call.step_balance s c) b
  | retain i delete => exact absurd trivial hc
  | store bs delete =>
    cases bs with
    | nil => rfl
    | cons b' bs =>
      have hne : b ≠ b' := fun h => hc (h ▸ List.mem_cons_self)
      simp only [KeyedCall.step, State.storeZero, Function.update_of_ne hne]
      rfl

theorem owed_set {calls : List KeyedCall} {i : ℕ} {c : KeyedCall} (h : calls[i]? = some c)
    (c' : KeyedCall) (b : Bucket) :
    ((calls.set i c').map owes).sum b + owes c b = (calls.map owes).sum b + owes c' b := by
  have hs : ((calls.set i c').map owes).sum + owes c = (calls.map owes).sum + owes c' :=
    sum_map_set owes h c'
  exact congrFun hs b

/-- While a FLUSHALL has yet to set the counter to zero nothing is said about it; from then
on it is balanced if the store that came last left it so. -/
def Decided (b : Bucket) (s : FlushSys) (p : Prop) : Prop :=
  (∀ c ∈ s.calls, ¬ Due b c) → (s.Balanced b ↔ p)

theorem FlushSys.step_decided {b : Bucket} (hb : b ∈ flushedBuckets) {s s' : FlushSys} {p : Prop}
    {e : FlushEvent} (hi : Decided b s p) (h : s.step shard e = some s') :
    Decided b s' (Zeroes b s e ∧ Settled b s ∨ ¬ Zeroes b s e ∧ p) := by
  cases e with
  | command c =>
    simp only [FlushSys.step, Option.some.injEq] at h
    subst h
    intro hd
    have hz : ¬ Zeroes b s (.command c) := by simp [Zeroes]
    have hold := hi fun c' hc' => hd c' (List.mem_append_left _ hc')
    have ho : owes c.start = 0 := by
      cases c with
      | _ => rfl
    simpa [hz, FlushSys.Balanced, owed, ho] using hold
  | unlink i =>
    simp only [FlushSys.step] at h
    cases hl : s.state.unlinks[i]? with
    | none => simp [hl] at h
    | some id =>
      simp only [hl, Option.some.injEq] at h
      subst h
      intro hd
      have hz : ¬ Zeroes b s (.unlink i) := by simp [Zeroes]
      simp only [hz, false_and, not_false_eq_true, true_and, false_or]
      exact hi hd
  | step i =>
    simp only [FlushSys.step] at h
    cases hc : s.calls[i]? with
    | none => simp [hc] at h
    | some c =>
      simp only [hc, Option.some.injEq] at h
      subst h
      intro hd
      have hset := owed_set hc (c.step shard s.state).2 b
      have hlt : i < s.calls.length := (List.getElem?_eq_some_iff.mp hc).1
      have hnext : ¬ Due b (c.step shard s.state).2 := hd _ (List.mem_set hlt _)
      have hz : Zeroes b s (.step i) ↔ ∃ bs delete, c = .store (b :: bs) delete := by
        simp [Zeroes, hc]
      by_cases hdue : Due b c
      · -- the FLUSHALL was the last that had to set this counter, and has just done so
        cases c with
        | get key => exact absurd hdue id
        | read key id => exact absurd hdue (fun h => h)
        | call c keys => exact absurd hdue id
        | retain j delete =>
          refine absurd ?_ hnext
          simp only [KeyedCall.step]
          split
          · trivial
          · exact hb
        | store bs delete =>
          cases bs with
          | nil => cases hdue
          | cons b' bs =>
            obtain rfl : b = b' := (List.mem_cons.mp hdue).resolve_right hnext
            have hzero : Zeroes b s (.step i) := hz.mpr ⟨bs, delete, rfl⟩
            simp only [hzero, true_and, not_true_eq_false, false_and, or_false]
            simp only [KeyedCall.step, owes, Pi.zero_apply, add_zero] at hset
            simp only [FlushSys.Balanced, Settled, owed, KeyedCall.step, State.storeZero,
              Function.update_self, zero_add, hset]
            rfl
      · have hno : ¬ Zeroes b s (.step i) := by
          rw [hz]
          rintro ⟨bs, delete, rfl⟩
          exact hdue List.mem_cons_self
        have hothers : ∀ c' ∈ s.calls, ¬ Due b c' := by
          intro c' hc'
          obtain ⟨j, hj⟩ := List.mem_iff_getElem?.mp hc'
          by_cases hij : i = j
          · subst hij
            obtain rfl : c = c' := Option.some.inj (hc.symm.trans hj)
            exact hdue
          · refine hd c' (List.mem_iff_getElem?.mpr ⟨j, ?_⟩)
            rw [List.getElem?_set_ne hij]
            exact hj
        have hbal := KeyedCall.step_balance shard s.state c b hdue
        have hold := hi hothers
        simp only [hno, false_and, not_false_eq_true, true_and, false_or]
        rw [← hold]
        simp only [FlushSys.Balanced, owed]
        rw [← sub_eq_zero, ← sub_eq_zero (a := s.state.usage b + _)]
        have hdiff : (c.step shard s.state).1.usage b +
            ((s.calls.set i (c.step shard s.state).2).map owes).sum b -
              toUsage (c.step shard s.state).1.bytesIn b =
            s.state.usage b + (s.calls.map owes).sum b - toUsage s.state.bytesIn b := by
          grind
        rw [hdiff]

/-- When all commands have returned, the Redis counters are what `recompute_usage` counts if
and only if each of them was settled when a FLUSHALL last set it to zero. -/
theorem flush_exact_iff (s : State) (h : ∀ b ∈ flushedBuckets, s.usage b = s.recomputed b)
    (events : List FlushEvent) (t : FlushSys)
    (hr : Machine.run (FlushSys.step shard) ⟨s, []⟩ events = some t) (hq : t.Quiescent) :
    (∀ b ∈ flushedBuckets, t.state.usage b = t.state.recomputed b) ↔
      ∀ b ∈ flushedBuckets,
        Machine.AfterLast (FlushSys.step shard) (Zeroes b) (Settled b) True ⟨s, []⟩ events := by
  refine forall₂_congr fun b hb => ?_
  have h0 : Decided b ⟨s, []⟩ True := by
    intro _
    simp [FlushSys.Balanced, owed, h b hb, recomputed_eq]
  have hstep : ∀ x p e x', Decided b x p → FlushSys.step shard x e = some x' →
      Decided b x' (Zeroes b x e ∧ Settled b x ∨ ¬ Zeroes b x e ∧ p) :=
    fun _ _ _ _ hi hs => FlushSys.step_decided shard hb hi hs
  have ht := Machine.run_afterLast hstep h0 hr
  have hnone : ∀ c ∈ t.calls, ¬ Due b c := by
    intro c hc hd
    rw [hq c hc] at hd
    exact hd
  have hz : t.owed = 0 := by
    apply List.sum_eq_zero
    intro p hp
    obtain ⟨c, hc, rfl⟩ := List.mem_map.mp hp
    rw [hq c hc]
    rfl
  rw [← ht hnone, FlushSys.Balanced, hz, recomputed_eq, Pi.zero_apply, add_zero]

end

def oneShard : Bytes → Fin 1 := fun _ => 0

/-- A FLUSHALL between the first step of a SET and its charge, with a GET in flight. -/
def quietFlush : List FlushEvent :=
  [.command (.set [107] [97]), .step 0, .step 0, .step 0, .step 0, .command (.set [108] [98]),
    .step 1, .command (.get [107]), .command .flushAll, .step 3, .step 2, .step 3, .step 3,
    .step 3, .step 3, .step 1, .step 3, .step 1, .step 1]

theorem flush_exact_iff_quiet :
    ∃ t, Machine.run (FlushSys.step oneShard) ⟨State.new ⟨8, none, 8⟩ 0, []⟩ quietFlush = some t ∧
      t.Quiescent ∧ ∀ b ∈ flushedBuckets, Machine.AfterLast (FlushSys.step oneShard) (Zeroes b)
        (Settled b) True ⟨State.new ⟨8, none, 8⟩ 0, []⟩ quietFlush :=
  ⟨_, rfl, by decide +kernel,
    (flush_exact_iff oneShard (State.new ⟨8, none, 8⟩ 0) (by decide) quietFlush _ rfl
      (by decide +kernel)).mp (by decide +kernel)⟩

/-- A FLUSHALL between the charge of a SET and its insertion erases the charge. -/
theorem flush_erases_straddling_charge :
    ∃ t, Machine.run (FlushSys.step oneShard) ⟨State.new ⟨8, none, 8⟩ 0, []⟩
        [.command (.set [107] [97]), .step 0, .step 0, .command .flushAll, .step 1, .step 1,
          .step 1, .step 1, .step 1, .step 1, .step 0, .step 0] = some t ∧
      t.Quiescent ∧ t.state.usage .smallRedisMemory = 1 ∧
      t.state.recomputed .smallRedisMemory = 2 :=
  ⟨_, rfl, by decide +kernel, by decide +kernel, by decide +kernel⟩

end Dockfoxprox

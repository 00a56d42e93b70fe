import Mathlib.Data.List.MinMax
import Dockfoxprox.Proofs.Pools

/-! A pass that runs alone comes to an end. Every step lowers a bound on the steps that are
left: a popped candidate is worth more than the work on it and the candidate it may put into
the disk heap, and nothing else makes work. -/

namespace Dockfoxprox

open MapSum Machine

def State.references (fromSlice : Bytes → Option Json) (s : State) : ℕ :=
  total (fun _ m => (referencedDigests fromSlice m.content).length) s.manifests

theorem State.length_le_references {fromSlice : Bytes → Option Json} (s : State) {d : Digest}
    {m : Manifest} (hm : s.manifests.lookup d = some m) :
    (referencedDigests fromSlice m.content).length ≤ s.references fromSlice := by
  have hs := total_eq_erase (fun (_ : Digest) m => (referencedDigests fromSlice m.content).length)
    s.manifests d
  rw [share, hm, Option.elim_some] at hs
  rw [State.references]
  exact hs ▸ Nat.le_add_right _ _

/-- The steps a candidate may cost, for manifests with so many references. -/
def Pool.weight (refs : ℕ) : Pool → ℕ
  | .smallMemory | .disk => 2 * refs + 3
  | .largeMemory => 5 * refs + 6

theorem Pool.weight_mono {refs refs' : ℕ} (h : refs ≤ refs') (pool : Pool) :
    pool.weight refs ≤ pool.weight refs' := by
  cases pool <;> simp only [Pool.weight] <;> omega

section
variable (fromSlice : Bytes → Option Json)

/-- The steps from a phase to the end of the pass if no more candidate is popped. -/
def Phase.stepsLeft (refs blobs : ℕ) : Phase → ℕ
  | .begin | .scanBlobs | .scanManifests | .scanRedis | .done | .failed => 0
  | .loop => 2 * blobs + 10
  | .spillBlobs sp => 2 * blobs + 3 * sp.todo.length + Pool.disk.weight refs + 11
  | .spillWrite sp _ _ => 2 * blobs + 3 * sp.todo.length + Pool.disk.weight refs + 13
  | .spillInsert sp _ _ => 2 * blobs + 3 * sp.todo.length + Pool.disk.weight refs + 12
  | .redisWrite _ _ _ _ _ => 2 * blobs + Pool.disk.weight refs + 12
  | .redisInsert _ _ _ _ _ => 2 * blobs + Pool.disk.weight refs + 11
  | .retainTags _ m => 2 * blobs + 2 * (referencedDigests fromSlice m.content).length + 12
  | .cascade _ todo => 2 * blobs + 2 * todo.length + 11
  | .cascadeUnlink _ _ todo => 2 * blobs + 2 * todo.length + 12
  | .sweep todo => 2 * todo.length + 9
  | .sweepUnlink _ todo => 2 * todo.length + 10
  | .publish => 8
  | .store left => left.length + 1

namespace Pass

/-- What the candidates may cost. -/
def heapSteps (refs : ℕ) (p : Pass) : ℕ :=
  (p.heap .smallMemory).length * Pool.smallMemory.weight refs +
    (p.heap .largeMemory).length * Pool.largeMemory.weight refs +
      (p.heap .disk).length * Pool.disk.weight refs

/-- A bound on the steps left, where no manifest has more than `refs` references and the table no
more than `blobs` entries. -/
def work (refs blobs : ℕ) (p : Pass) : ℕ :=
  p.heapSteps refs + p.phase.stepsLeft fromSlice refs blobs

/-- A bound on the steps left of a pass that began in `s₀`. -/
def stepsLeft (s₀ : State) (p : Pass) : ℕ :=
  p.heapSteps (s₀.references fromSlice) +
    p.phase.stepsLeft fromSlice (s₀.references fromSlice) s₀.blobs.keys.length

variable {fromSlice} {s s' s₀ : State} {p p' : Pass} {c : Choice} {a : Act} {pool : Pool}
  {x : Candidate} {rest : List Candidate} {i refs blobs : ℕ}

theorem heapSteps_popped (hpop : popOldest (p.heap pool) i = some (x, rest)) :
    (p.popped pool rest).heapSteps refs + pool.weight refs = p.heapSteps refs := by
  obtain ⟨hi, rfl, -⟩ := popOldest_spec hpop
  obtain ⟨hlt, -⟩ := List.getElem?_eq_some_iff.mp hi
  have hlen := List.length_eraseIdx_add_one hlt
  cases pool <;> simp [heapSteps, ← hlen, add_one_mul] <;> omega

theorem heapSteps_push (x : Candidate) :
    (p.push pool x).heapSteps refs = p.heapSteps refs + pool.weight refs := by
  cases pool <;> simp [heapSteps, add_one_mul] <;> omega

theorem references_le (h : Alone fromSlice s₀ s p) {d : Digest} {m : Manifest}
    (hm : s.manifests.lookup d = some m) :
    (referencedDigests fromSlice m.content).length ≤ s₀.references fromSlice := by
  obtain ⟨m₀, hm₀, heq, -⟩ := h.keeps.manifests d m hm
  rw [heq]
  exact @State.length_le_references fromSlice s₀ d m₀ hm₀

/-- The table has no entry but for the blobs of the start. -/
theorem table_length_le (h : Alone fromSlice s₀ s p) :
    p.blobs.keys.length ≤ s₀.blobs.keys.length := by
  refine (List.subperm_of_subset p.blobs.keys_nodup fun d hd => ?_).length_le
  have ht := congrArg Option.isSome (h.tiers d)
  rw [Option.isSome_map, tierIn, Option.isSome_map, AList.lookup_isSome.mpr hd] at ht
  exact AList.lookup_isSome.mp ht.symm

/-- A step that pops nothing takes one of the steps left, -/
theorem work_lt_of_heap (hh : p'.heap = p.heap)
    (hlt : p'.phase.stepsLeft fromSlice refs blobs < p.phase.stepsLeft fromSlice refs blobs) :
    work fromSlice refs blobs p' < work fromSlice refs blobs p := by
  simp only [work, heapSteps, hh]
  omega

/-- and one that pops a candidate has its steps to spend, -/
theorem work_lt_of_popped (hpop : popOldest (p.heap pool) i = some (x, rest))
    (hh : p'.heap = (p.popped pool rest).heap)
    (hlt : p'.phase.stepsLeft fromSlice refs blobs <
      p.phase.stepsLeft fromSlice refs blobs + pool.weight refs) :
    work fromSlice refs blobs p' < work fromSlice refs blobs p := by
  have hpopped := @heapSteps_popped p pool x rest i refs hpop
  have hsame : p'.heapSteps refs = (p.popped pool rest).heapSteps refs := by
    simp only [heapSteps, hh]
  simp only [work]
  omega

/-- which a new candidate has to be paid with. -/
theorem work_lt_of_push (hh : p'.heap = (p.push pool x).heap)
    (hlt : p'.phase.stepsLeft fromSlice refs blobs + pool.weight refs <
      p.phase.stepsLeft fromSlice refs blobs) :
    work fromSlice refs blobs p' < work fromSlice refs blobs p := by
  have hpush := @heapSteps_push p pool refs x
  have hsame : p'.heapSteps refs = (p.push pool x).heapSteps refs := by simp only [heapSteps, hh]
  simp only [work]
  omega

/-- The step lemma of the bound. -/
theorem Step.work_lt (hs : Step fromSlice s p c a p')
    (hrefs : ∀ d m, s.manifests.lookup d = some m →
      (referencedDigests fromSlice m.content).length ≤ refs)
    (hlen : p.blobs.keys.length ≤ blobs) (hscan : p.phase.scanning = false) :
    work fromSlice refs blobs p' < work fromSlice refs blobs p := by
  have hweight (pool : Pool) : 0 < pool.weight refs := by
    cases pool <;> exact Nat.succ_pos _
  cases hs with
  | begin hp => rw [hp] at hscan; cases hscan
  | scanBlobs hp => rw [hp] at hscan; cases hscan
  | scanManifests hp => rw [hp] at hscan; cases hscan
  | scanRedis hp => rw [hp] at hscan; cases hscan
  | stopLoop hp ha =>
    refine work_lt_of_heap rfl ?_
    simp only [goto_phase, hp, Phase.stepsLeft]
    omega
  | @stale hp pool cand rest ha hpop hs =>
    exact work_lt_of_popped hpop rfl (Nat.lt_add_of_pos_right (hweight pool))
  | @dropRedis hp pool b key t size rest e hb ha hpop he =>
    exact work_lt_of_popped hpop rfl (Nat.lt_add_of_pos_right (hweight pool))
  | @dropManifest hp pool t d rest m hl ha hpop hm =>
    have hrefs := hrefs d m hm
    have hpool : pool.weight refs = 2 * refs + 3 := by
      cases pool <;> first | rfl | exact absurd rfl hl
    refine work_lt_of_popped hpop rfl ?_
    simp only [goto_phase, hp, hpool, Phase.stepsLeft]
    omega
  | @spillManifest hp t d rest m ha hpop hm =>
    have hrefs := hrefs d m hm
    refine work_lt_of_popped hpop rfl ?_
    simp only [goto_phase, hp, Phase.stepsLeft, Pool.weight]
    omega
  | fetchRedis hp ha hpop hf =>
    refine work_lt_of_popped hpop rfl ?_
    simp only [goto_phase, hp, Phase.stepsLeft, Pool.weight]
    omega
  | @spillEnd sp hp ht =>
    refine @work_lt_of_push _ _ _ .disk (.manifest sp.lastAccesses sp.digest) _ _ rfl ?_
    simp only [goto_phase, hp, ht, Phase.stepsLeft, List.length_nil]
    omega
  | @redisInsert key size t value id hp =>
    refine @work_lt_of_push _ _ _ .disk (.redis key t size) _ _ rfl ?_
    simp only [goto_phase, hp, Phase.stepsLeft]
    omega
  | @cascadeDrop old r todo bb blob hp =>
    refine work_lt_of_heap rfl ?_
    cases blob <;> simp only [goto_phase, afterCascade, hp, Phase.stepsLeft, List.length_cons] <;>
      omega
  | @sweepKeep todo d hp hd hk =>
    have hlen := List.length_eraseIdx_add_one (List.getElem?_eq_some_iff.mp hd).1
    refine work_lt_of_heap rfl ?_
    simp only [goto_phase, hp, Phase.stepsLeft]
    omega
  | @sweepDrop todo d bb blob hp hd hb hr ht hl =>
    have hlen := List.length_eraseIdx_add_one (List.getElem?_eq_some_iff.mp hd).1
    refine work_lt_of_heap rfl ?_
    cases blob <;> simp only [goto_phase, afterSweep, hp, Phase.stepsLeft] <;> omega
  | writeFailed hp hw =>
    refine work_lt_of_heap rfl ?_
    rcases hp with ⟨_, _, _, hp, -⟩ | ⟨_, _, _, _, hp⟩ <;>
      simp only [goto_phase, hp, Phase.stepsLeft] <;> omega
  | spillMissing hp ht | spillKeep hp ht | spillFetch hp ht =>
    refine work_lt_of_heap rfl ?_
    simp only [goto_phase, hp, ht, Phase.stepsLeft, List.length_cons]
    omega
  | publish hp =>
    refine work_lt_of_heap rfl ?_
    rw [hp]
    exact Nat.lt_succ_self 7
  | _ hp =>
    refine work_lt_of_heap rfl ?_
    simp only [goto_phase, hp, Phase.stepsLeft, List.length_cons, List.length_nil]
    omega

/-- A pass that runs alone has the references and the blobs of its start at most. -/
theorem Step.stepsLeft_lt (h : Alone fromSlice s₀ s p) (hs : Step fromSlice s p c a p') :
    stepsLeft fromSlice s₀ p' < stepsLeft fromSlice s₀ p := by
  refine hs.work_lt (fun d m hm => references_le h hm) (table_length_le h) ?_
  have hst := h.agrees.counted
  have hholds := h.agrees.holds
  cases hp : p.phase with
  | begin | scanBlobs | scanManifests => rw [hp] at hst; cases hst
  | scanRedis => rw [hp] at hholds; exact hholds.elim
  | _ => rfl

theorem work_mono {refs' : ℕ} (h : refs ≤ refs') (p : Pass) :
    work fromSlice refs blobs p ≤ work fromSlice refs' blobs p := by
  have hpool (pool : Pool) : (p.heap pool).length * pool.weight refs ≤
      (p.heap pool).length * pool.weight refs' :=
    Nat.mul_le_mul_left _ (Pool.weight_mono h pool)
  have hheap : p.heapSteps refs ≤ p.heapSteps refs' :=
    Nat.add_le_add (Nat.add_le_add (hpool _) (hpool _)) (hpool _)
  have hdisk := Pool.weight_mono h .disk
  refine Nat.add_le_add hheap ?_
  cases p.phase <;> simp only [Phase.stepsLeft, le_refl] <;> omega

/-- The steps of a pass that began in `s`, four of them for the scans. -/
theorem run_bounded {choices : List Choice}
    (hr : run (Pass.step fromSlice) (s, .start) choices = some (s', p')) :
    choices.length ≤ 4 + stepsLeft fromSlice s (scanned fromSlice s) := by
  have hlength {rest : List Choice} (hr : run (Pass.step fromSlice)
      (Act.countRun.apply s, scanned fromSlice s) rest = some (s', p')) :
      rest.length ≤ stepsLeft fromSlice s (scanned fromSlice s) := by
    have hle := run_length_le (I := fun x => Alone fromSlice s x.1 x.2)
      (μ := fun x => stepsLeft fromSlice s x.2) (fun x c x' hi hs => ?_) (.start s) hr
    · exact (Nat.le_add_right _ _).trans hle
    · obtain ⟨a, q, hn, rfl⟩ := step_eq_some.mp hs
      have hst := step_of_next hn
      exact ⟨hi.step hst, hst.stepsLeft_lt hi⟩
  match choices, hr with
  | [], _ | [_], _ | [_, _], _ | [_, _, _], _ => simp only [List.length_cons, List.length_nil]; omega
  | _ :: _ :: _ :: _ :: rest, hr =>
    have hle := hlength hr
    simp only [List.length_cons]
    omega

/-! ### No step is missing -/

theorem exists_oldest {h : List Candidate} (hne : h ≠ []) :
    ∃ i x rest, popOldest h i = some (x, rest) := by
  obtain ⟨x, hx⟩ := Option.ne_none_iff_exists'.mp
    (mt (List.argmin_eq_none (f := Candidate.lastAccessTime)).mp hne)
  obtain ⟨i, hi⟩ := List.mem_iff_getElem?.mp (List.argmin_mem hx)
  refine ⟨i, x, h.eraseIdx i, ?_⟩
  unfold popOldest
  rw [hi]
  exact if_pos fun y hy => List.le_of_mem_argmin hy hx

/-- A pass that has not returned has a next step. -/
theorem exists_next (hd : p.phase ≠ .done) (hf : p.phase ≠ .failed) (w : WriteResult)
    (unlinked : Bool) : ∃ pick, (next fromSlice s p ⟨pick, w, unlinked⟩).isSome := by
  unfold next
  cases hp : p.phase with
  | done => exact absurd hp hd
  | failed => exact absurd hp hf
  | loop =>
    cases ha : p.arm s.config with
    | none => exact ⟨0, rfl⟩
    | some pool =>
      obtain ⟨i, x, rest, hi⟩ := exists_oldest fun hnil => arm_open ha (.inr hnil)
      exact ⟨i, by simp [hi]⟩
  | sweep todo =>
    cases todo with
    | nil => exact ⟨0, rfl⟩
    | cons d rest => exact ⟨0, rfl⟩
  | spillBlobs sp =>
    simp only
    cases sp.todo <;> exact ⟨0, rfl⟩
  | cascade old todo => cases todo <;> exact ⟨0, rfl⟩
  | store left => cases left <;> exact ⟨0, rfl⟩
  | _ => exact ⟨0, rfl⟩

/-- Only a failed write makes the pass fail. -/
theorem Step.not_failed_of_ok (hs : Step fromSlice s p c a p') (hw : c.write = .ok) :
    p'.phase ≠ .failed := by
  have hf := hs.not_failed
  cases hs with
  | writeFailed hp hwf => rw [hw] at hwf; cases hwf
  | stale hp => exact hf
  | dropRedis hp => exact hf
  | @cascadeDrop old r todo bb blob => cases blob <;> exact fun h => by cases h
  | @sweepDrop todo r bb blob => cases blob <;> exact fun h => by cases h
  | _ => exact fun h => by cases h

/-- Where no write fails, the pass does not either. -/
theorem not_failed_of_run {choices : List Choice}
    (hw : Along (Pass.step fromSlice) (fun _ c _ => c.write = .ok) (s, .start) choices)
    (hr : run (Pass.step fromSlice) (s, .start) choices = some (s', p')) :
    p'.phase ≠ .failed := by
  refine run_invariant (C := fun _ c _ => c.write = .ok)
    (I := fun x : State × Pass => x.2.phase ≠ .failed) (fun x c x' _ hc hs => ?_)
    (fun h => by cases h) hw hr
  obtain ⟨a, q, hn, rfl⟩ := step_eq_some.mp hs
  exact (step_of_next hn).not_failed_of_ok hc

end Pass

end

end Dockfoxprox

import Dockfoxprox.Proofs.Placement

/-! The touch times a pass publishes, which are those of what its heaps have left. While the heaps
have what is cached in the pools and nothing else, they are the times of the oldest cached
candidates. -/

namespace Dockfoxprox

open MapSum Machine

/-- A pass with a history that no step reads: every candidate that was collected or pushed for a
heap. -/
structure LoggedPass where
  st : State
  pass : Pass
  ever : Pool → List Candidate

def LoggedPass.init (s : State) : LoggedPass := ⟨s, .start, fun _ => []⟩

def LoggedPass.step (fromSlice : Bytes → Option Json) (x : LoggedPass) (c : Choice) :
    Option LoggedPass :=
  (Pass.next fromSlice x.st x.pass c).map fun r =>
    ⟨r.1.apply x.st, r.2, fun pool => r.2.heap pool ++ x.ever pool⟩

def State.touchTime (s : State) : Pool → ℕ
  | .smallMemory => s.metrics.oldestSmallMemoryTouchTime
  | .largeMemory => s.metrics.oldestLargeMemoryTouchTime
  | .disk => s.metrics.oldestDiskTouchTime

/-- The manifest an act begins to spill. -/
def Act.marked : Act → Option Digest
  | .markEvicted d => some d
  | _ => none

section
variable (fromSlice : Bytes → Option Json)

/-- The published time of a pool is the least access time of its candidates that are still cached
in it, or `now` when there is none. -/
def LoggedPass.TouchRight (x : LoggedPass) (pool : Pool) : Prop :=
  (∀ y ∈ x.ever pool, x.st.CachedIn fromSlice pool y.item →
    ∃ t, x.st.accessTime y.item = some t ∧ x.st.touchTime pool ≤ t) ∧
  ((∃ y ∈ x.ever pool, x.st.CachedIn fromSlice pool y.item ∧
      x.st.accessTime y.item = some (x.st.touchTime pool)) ∨
    x.st.touchTime pool = x.pass.now ∧
      ∀ y ∈ x.ever pool, ¬ x.st.CachedIn fromSlice pool y.item)

namespace Pass

/-- The step drops no entry of which the pass has another candidate. -/
def DropsLast (x : State × Pass) (c : Choice) : Prop :=
  ∀ r ∈ next fromSlice x.1 x.2 c, ∀ i ∈ r.1.drops, ∀ y ∈ r.2.candidates, y.item ≠ i

/-- The step begins no spill of a manifest that shares a large blob in memory. -/
def SpillsOwn (x : State × Pass) (c : Choice) : Prop :=
  ∀ r ∈ next fromSlice x.1 x.2 c, ∀ d ∈ r.1.marked, x.1.OwnsLarge fromSlice d

def Tidy (x : State × Pass) (c : Choice) (_ : State × Pass) : Prop :=
  DropsLast fromSlice x c ∧ SpillsOwn fromSlice x c

instance (x : State × Pass) (c : Choice) (x' : State × Pass) : Decidable (Tidy fromSlice x c x') :=
  inferInstanceAs (Decidable
    ((∀ r ∈ next fromSlice x.1 x.2 c, ∀ i ∈ r.1.drops, ∀ y ∈ r.2.candidates, y.item ≠ i) ∧
      ∀ r ∈ next fromSlice x.1 x.2 c, ∀ d ∈ r.1.marked, x.1.OwnsLarge fromSlice d))

/-- A candidate of a heap is still in it, unless the pass has spilled it or is at it. -/
def Knows (s : State) (p : Pass) (pool : Pool) (y : Candidate) : Prop :=
  y ∈ p.heap pool ∨ pool = .largeMemory ∧
    (p.phase.Handles y ∨ ¬ s.CachedIn fromSlice .largeMemory y.item)

/-- What a pass on its own keeps of its heaps while it is tidy. -/
structure Orderly (s₀ s : State) (p : Pass) : Prop where
  alone : Alone fromSlice s₀ s p
  counts : CountsAre fromSlice (· = ·) s p
  placed : Placed fromSlice s p

end Pass

end

/-! ### What the heaps know -/

theorem Candidate.Present.keeps {s s' : State} (hk : s.Keeps s') {x : Candidate}
    (h : x.Present s') : x.Present s := by
  cases x with
  | manifest t d =>
    obtain ⟨m', hm'⟩ := h
    obtain ⟨m, hm, -⟩ := hk.manifests d m' hm'
    exact ⟨m, hm⟩
  | redis key t size =>
    obtain ⟨e', he'⟩ := h
    obtain ⟨e, he, -⟩ := hk.redis key e' he'
    exact ⟨e, he⟩

namespace Pass

variable {fromSlice : Bytes → Option Json} {s s₀ : State} {p p' : Pass} {c : Choice} {a : Act}
  {pool : Pool} {y : Candidate}

theorem not_stale_of_cachedIn {z : Candidate} (h : s.CachedIn fromSlice pool z.item) :
    ¬ Stale s pool z := by
  intro hs
  cases z with
  | manifest t d =>
    obtain ⟨m, hm, -⟩ := h
    rw [Stale, hm] at hs
    cases hs
  | redis key t size =>
    obtain ⟨e, he, hpool⟩ := h
    simp only [Stale] at hs
    split at hs
    · rename_i hl
      subst hl
      cases e with
      | inMemory value id u => simp [State.spillFetch, he] at hs
      | onDisk n id u => cases hpool
    · rw [he] at hs
      cases hs

theorem Orderly.step (h : Orderly fromSlice s₀ s p) (ht : Tidy fromSlice (s, p) c (a.apply s, p'))
    (hn : next fromSlice s p c = some (a, p')) (hf : p'.phase ≠ .failed) :
    Orderly fromSlice s₀ (a.apply s) p' := by
  have hs := step_of_next hn
  refine ⟨h.alone.step hs, h.counts.step (fun u n k hu => by omega) h.alone.agrees hs,
    h.placed.step h.alone h.counts hs hf (fun i hi pool y hy => ?_) fun d ha => ?_⟩
  · exact ht.1 _ hn i hi y (mem_candidates.mpr (.inl ⟨pool, hy⟩))
  · exact ht.2 _ hn d (by rw [ha]; rfl)

/-- The step lemma of what the heaps know. -/
theorem Orderly.knows (h : Orderly fromSlice s₀ s p) (hs : Step fromSlice s p c a p')
    (hf : p'.phase ≠ .failed) (hk : Knows fromSlice s p pool y) (hy : y.Present (a.apply s)) :
    Knows fromSlice (a.apply s) p' pool y := by
  have hgone (hl : ¬ s.CachedIn fromSlice .largeMemory y.item) :
      ¬ (a.apply s).CachedIn fromSlice .largeMemory y.item :=
    mt (h.alone.keeps_step hs).cachedIn_large hl
  have hidle (hp : p.phase = .loop) : ¬ p.phase.Handles y := by rw [hp]; exact id
  cases hs.turn h.alone.agrees with
  | quiet hm hr hh hj hj' =>
    exact hk.imp (fun hmem => by rwa [hh]) fun ⟨hl, hout⟩ => ⟨hl, hout.imp (hj y) hgone⟩
  | stale hp ha hpop hz =>
    exact absurd hz (not_stale_of_cachedIn (h.placed.heaps _ _ (popOldest_mem hpop).1))
  | drop hp ha hl hpop hx hh hj =>
    refine hk.imp (fun hmem => ?_) fun ⟨hl, hout⟩ =>
      ⟨hl, .inr (hgone (hout.resolve_left (hidle hp)))⟩
    rw [hh]
    refine mem_popped_of_ne hpop hmem fun _ => ?_
    rintro rfl
    exact not_present_dropAct hy
  | @start z rest _ _ hp ha hpop hx hh hj hf' =>
    rcases hk with hmem | ⟨hl, hout⟩
    · by_cases hz : pool = .largeMemory ∧ y = z
      · exact .inr ⟨hz.1, .inl ((hj y).mpr hz.2)⟩
      · rw [Knows, hh]
        exact .inl (mem_popped_of_ne hpop hmem fun hl heq => hz ⟨hl, heq⟩)
    · exact .inr ⟨hl, .inr (hgone (hout.resolve_left (hidle hp)))⟩
  | @finish z _ _ hj hf' ha hh hj' =>
    rcases hk with hmem | ⟨hl, hout⟩
    · rw [Knows, hh]
      exact .inl (mem_push_disk hmem)
    · refine .inr ⟨hl, .inr ?_⟩
      rcases hout with hhand | hout
      · exact (h.placed.finished hs hf hhand (hj' y)).2
      · exact hgone hout

end Pass

namespace LoggedPass

section
variable (fromSlice : Bytes → Option Json)

/-- The history has what is in the heaps, and the heaps know what is in the history. -/
structure Logged (x : LoggedPass) : Prop where
  logged : ∀ pool, ∀ y ∈ x.pass.heap pool, y ∈ x.ever pool
  kept : ∀ pool, ∀ y ∈ x.ever pool, y.Present x.st → x.pass.Knows fromSlice x.st pool y

end

variable {fromSlice : Bytes → Option Json} {s₀ : State} {x x' : LoggedPass} {c : Choice}
  {choices : List Choice}

theorem Logged.step (h : x.Logged fromSlice) (ho : Pass.Orderly fromSlice s₀ x.st x.pass)
    (hs : LoggedPass.step fromSlice x c = some x') (hf : x'.pass.phase ≠ .failed) :
    x'.Logged fromSlice := by
  obtain ⟨⟨a, p'⟩, hn, rfl⟩ := Option.map_eq_some_iff.mp hs
  have hstep := Pass.step_of_next hn
  refine ⟨fun pool y => List.mem_append_left _, fun pool y hy hp => ?_⟩
  rcases List.mem_append.mp hy with hmem | hold
  · exact .inl hmem
  · exact ho.knows hstep hf (h.kept pool y hold (hp.keeps (ho.alone.keeps_step hstep))) hp

/-! ### The start of the loop -/

theorem mem_scan₂_heap {s : State} {pool : Pool} {y : Candidate}
    (hy : y ∈ (Pass.scan₂ fromSlice s).heap pool) : y ∈ (Pass.scanned fromSlice s).heap pool := by
  refine foldl_rule (P := fun q : Pass => y ∈ q.heap pool) s.redisEntries (fun q e _ hq => ?_) hy
  rw [Pass.scanRedisEntry_heap]
  exact List.mem_append_right _ hq

/-- A pass that is over its scans has logged the heaps they made. -/
theorem run_begun {choices : List Choice}
    (hr : run (LoggedPass.step fromSlice) (.init s₀) choices = some x)
    (hend : x.pass.phase.scanning = false) :
    ∃ b rest, b.st = Act.countRun.apply s₀ ∧ b.pass = Pass.scanned fromSlice s₀ ∧
      (∀ pool y, y ∈ b.ever pool ↔ y ∈ b.pass.heap pool) ∧
      run (LoggedPass.step fromSlice) b rest = some x ∧
      ∀ P, Along (LoggedPass.step fromSlice) P (.init s₀) choices →
        Along (LoggedPass.step fromSlice) P b rest := by
  match choices, hr with
  | [], hr => cases hr; cases hend
  | [_], hr => cases hr; cases hend
  | [_, _], hr => cases hr; cases hend
  | [_, _, _], hr => cases hr; cases hend
  | _ :: _ :: _ :: _ :: rest, hr =>
    refine ⟨_, rest, rfl, rfl, fun pool y => ⟨fun hy => ?_, List.mem_append_left _⟩, hr,
      fun P ha => ((((ha _ rfl).2 _ rfl).2 _ rfl).2 _ rfl).2⟩
    have hscan : y ∈ (Pass.scanned fromSlice s₀).heap pool ++
        ((Pass.scan₂ fromSlice s₀).heap pool ++
          ((Pass.scan₁ s₀).heap pool ++ ((Pass.scan₀ s₀).heap pool ++ []))) := hy
    simp only [List.mem_append, Pass.scan₁_heap, Pass.scan₀, Pass.start, List.not_mem_nil,
      or_false] at hscan
    exact hscan.elim id mem_scan₂_heap

theorem Logged.begun {b : LoggedPass} (hever : ∀ pool y, y ∈ b.ever pool ↔ y ∈ b.pass.heap pool) :
    b.Logged fromSlice :=
  ⟨fun pool y => (hever pool y).mpr, fun pool y hy _ => .inl ((hever pool y).mp hy)⟩

end LoggedPass

/-! ### What is published -/

theorem oldestTouch_spec (now : ℕ) (h : List Candidate) : (h = [] ∧ oldestTouch now h = now) ∨
    (∃ x ∈ h, x.lastAccessTime = oldestTouch now h) ∧
      ∀ y ∈ h, oldestTouch now h ≤ y.lastAccessTime := by
  cases hmin : (h.map Candidate.lastAccessTime).min? with
  | none =>
    rw [List.min?_eq_none_iff, List.map_eq_nil_iff] at hmin
    subst hmin
    exact .inl ⟨rfl, rfl⟩
  | some t =>
    rw [List.min?_eq_some_iff] at hmin
    obtain ⟨hmem, hle⟩ := hmin
    obtain ⟨x, hx, rfl⟩ := List.mem_map.mp hmem
    have heq : oldestTouch now h = x.lastAccessTime := by
      rw [oldestTouch, List.min?_eq_some_iff.mpr ⟨hmem, hle⟩, Option.getD_some]
    rw [heq]
    exact .inr ⟨⟨x, hx, rfl⟩, fun y hy => hle _ (List.mem_map_of_mem hy)⟩

/-- The pass is past its publication. -/
def Phase.published : Phase → Bool
  | .store _ | .done => true
  | _ => false

/-- The touch times, once published, are those of the heaps. -/
def Pass.Published (s : State) (p : Pass) : Prop :=
  p.phase.published → ∀ pool, s.touchTime pool = oldestTouch p.now (p.heap pool)

theorem Pass.Published.step {fromSlice : Bytes → Option Json} {s : State} {p p' : Pass} {c : Choice}
    {a : Act} (h : Pass.Published s p) (hs : Pass.Step fromSlice s p c a p') :
    Pass.Published (a.apply s) p' := by
  intro hpub pool
  cases hs with
  | publish => cases pool <;> rfl
  | storeEnd hp => exact h (by rw [hp]; rfl) pool
  | store hp =>
    refine Eq.trans ?_ (h (by rw [hp]; rfl) pool)
    cases pool <;> rfl
  | @cascadeDrop _ _ _ _ blob => cases blob <;> cases hpub
  | @sweepDrop _ _ _ blob => cases blob <;> cases hpub
  | stale hp => rw [Pass.popped_phase, hp] at hpub; cases hpub
  | dropRedis hp => rw [Pass.credit_phase, Pass.popped_phase, hp] at hpub; cases hpub
  | _ => cases hpub

namespace LoggedPass

variable {fromSlice : Bytes → Option Json} {s₀ : State} {x : LoggedPass} {choices : List Choice}

/-- What is still cached of a pool's candidates is what its heap has left. -/
theorem Logged.cachedIn_iff (h : x.Logged fromSlice) (ho : Pass.Orderly fromSlice s₀ x.st x.pass)
    (hidle : ∀ y, ¬ x.pass.phase.Handles y) (pool : Pool) (y : Candidate) :
    y ∈ x.ever pool ∧ x.st.CachedIn fromSlice pool y.item ↔ y ∈ x.pass.heap pool := by
  constructor
  · rintro ⟨hy, hc⟩
    rcases h.kept pool y hy hc.present with hmem | ⟨rfl, hout⟩
    · exact hmem
    · exact absurd hc (hout.resolve_left (hidle y))
  · exact fun hy => ⟨h.logged pool y hy, ho.placed.heaps pool y hy⟩

theorem Logged.touchRight (h : x.Logged fromSlice) (ho : Pass.Orderly fromSlice s₀ x.st x.pass)
    (hidle : ∀ y, ¬ x.pass.phase.Handles y) {pool : Pool}
    (ht : x.st.touchTime pool = oldestTouch x.pass.now (x.pass.heap pool)) :
    x.TouchRight fromSlice pool := by
  have hcached := h.cachedIn_iff ho hidle pool
  have htime {y : Candidate} (hy : y ∈ x.pass.heap pool) :
      x.st.accessTime y.item = some y.lastAccessTime :=
    (ho.alone.timely.heaps pool y hy).accessTime (ho.placed.heaps pool y hy).present
  rcases oldestTouch_spec x.pass.now (x.pass.heap pool) with ⟨hnil, hnow⟩ | ⟨⟨z, hz, hzt⟩, hle⟩
  · have hnone (y : Candidate) (hy : y ∈ x.ever pool) :
        ¬ x.st.CachedIn fromSlice pool y.item := by
      intro hc
      have hmem := (hcached y).mp ⟨hy, hc⟩
      rw [hnil] at hmem
      exact List.not_mem_nil hmem
    exact ⟨fun y hy hc => absurd hc (hnone y hy), .inr ⟨ht.trans hnow, hnone⟩⟩
  · rw [← ht] at hzt hle
    refine ⟨fun y hy hc => ?_, .inl ?_⟩
    · have hmem := (hcached y).mp ⟨hy, hc⟩
      exact ⟨_, htime hmem, hle y hmem⟩
    · obtain ⟨hy, hc⟩ := (hcached z).mpr hz
      exact ⟨z, hy, hc, by rw [htime hz, hzt]⟩

theorem map_step (x : LoggedPass) (c : Choice) : (LoggedPass.step fromSlice x c).map
    (fun x => (x.st, x.pass)) = Pass.step fromSlice (x.st, x.pass) c := by
  rw [LoggedPass.step, Option.map_map]
  rfl

/-- The history is beside the pass, which runs as it does without it. -/
theorem exists_run {s' : State} {p' : Pass}
    (hr : run (Pass.step fromSlice) (s₀, .start) choices = some (s', p')) :
    ∃ x, run (LoggedPass.step fromSlice) (.init s₀) choices = some x ∧ x.st = s' ∧ x.pass = p' := by
  have hmap : (run (LoggedPass.step fromSlice) (.init s₀) choices).map (fun x => (x.st, x.pass)) =
      run (Pass.step fromSlice) (s₀, .start) choices := run_map map_step (.init s₀) choices
  rw [hr] at hmap
  obtain ⟨x, hx, heq⟩ := Option.map_eq_some_iff.mp hmap
  cases heq
  exact ⟨x, hx, rfl, rfl⟩

/-- The run lemma: past its scans a tidy pass is orderly, and so is its history. -/
theorem of_run (hr : run (LoggedPass.step fromSlice) (.init s₀) choices = some x)
    (hrefs : ∀ d, (s₀.blobs.lookup d).isSome → refsTo fromSlice s₀.manifests d < 2 ^ 32)
    (htidy : Along (Pass.step fromSlice) (Pass.Tidy fromSlice) (s₀, .start) choices)
    (hend : x.pass.phase.scanning = false) (hf : x.pass.phase ≠ .failed) :
    Pass.Orderly fromSlice s₀ x.st x.pass ∧ x.Logged fromSlice ∧ Pass.Published x.st x.pass := by
  obtain ⟨b, rest, hst, hp, hever, hr, halong⟩ := run_begun hr hend
  have htidy := halong _ (along_map (v := fun x => (x.st, x.pass)) map_step htidy)
  revert hf
  refine run_invariant (I := fun x : LoggedPass => x.pass.phase ≠ .failed →
    Pass.Orderly fromSlice s₀ x.st x.pass ∧ x.Logged fromSlice ∧ Pass.Published x.st x.pass)
    (fun x c x' hi ht hs hf => ?_) (fun _ => ?_) htidy hr
  · obtain ⟨⟨a, p'⟩, hn, rfl⟩ := Option.map_eq_some_iff.mp hs
    have hstep := Pass.step_of_next hn
    obtain ⟨ho, hlog, hpub⟩ := hi hstep.not_failed
    exact ⟨ho.step ht hn hf, hlog.step ho hs hf, hpub.step hstep⟩
  · refine ⟨?_, .begun hever, fun hpub => ?_⟩
    · rw [hst, hp]
      exact ⟨.start s₀, .start s₀ fun d hd => ⟨Nat.mod_eq_of_lt (hrefs d hd),
        Nat.mod_eq_of_lt ((unevictedTo_le _ d).trans_lt (hrefs d hd))⟩, .start s₀⟩
    · rw [hp] at hpub
      cases hpub

end LoggedPass

/-- A pass on its own that drops no entry of which it has another candidate, and begins no spill of
a manifest that shares a large blob in memory, publishes for each pool the access time of its oldest
candidate still cached there, or `now` when there is none. -/
theorem published_touch_times_of_tidy (fromSlice : Bytes → Option Json) {s₀ s' : State} {p' : Pass}
    {choices : List Choice}
    (hrefs : ∀ d, (s₀.blobs.lookup d).isSome → refsTo fromSlice s₀.manifests d < 2 ^ 32)
    (hr : run (Pass.step fromSlice) (s₀, .start) choices = some (s', p'))
    (hdone : p'.phase = .done)
    (htidy : Along (Pass.step fromSlice) (Pass.Tidy fromSlice) (s₀, .start) choices) :
    ∃ x, run (LoggedPass.step fromSlice) (.init s₀) choices = some x ∧ x.st = s' ∧ x.pass = p' ∧
      ∀ pool, x.TouchRight fromSlice pool := by
  obtain ⟨x, hx, rfl, rfl⟩ := LoggedPass.exists_run hr
  have hscan : x.pass.phase.scanning = false := by rw [hdone]; rfl
  obtain ⟨ho, hlog, hpub⟩ := LoggedPass.of_run hx hrefs htidy hscan (by rw [hdone]; nofun)
  exact ⟨x, hx, rfl, rfl, fun pool => hlog.touchRight ho (fun y => by rw [hdone]; exact id)
    (hpub (by rw [hdone]; rfl) pool)⟩

/-- A small key over the small budget, and a manifest over the memory budget. -/
def keyAndImage : State :=
  ({ (State.new ⟨1400, some 1000, 5000⟩ 2).insertRedis [97] (List.replicate 800 1) with
    now := 100000 }.insertBlob layer (.inMemory 0 (List.replicate 1025 97) "" 5)).insertManifest image
      ⟨imageBody, "", 3, false⟩

/-- The key goes, and the layer of the manifest is spilled. -/
theorem published_touch_times_of_tidy_spilled :
    ∃ s' p', run (Pass.step imageJson) (keyAndImage, .start) (List.replicate 21 {}) =
        some (s', p') ∧ p'.phase = .done ∧ s'.redisEntries.lookup [97] = none ∧
      tierIn s'.blobs layer = some .disk ∧
      ∃ x, run (LoggedPass.step imageJson) (.init keyAndImage) (List.replicate 21 {}) = some x ∧
        x.st = s' ∧ x.pass = p' ∧ ∀ pool, x.TouchRight imageJson pool := by
  have hrun : ((run (Pass.step imageJson) (keyAndImage, .start) (List.replicate 21 {})).map
      fun x => (x.2.phase, x.1.redisEntries.lookup [97], tierIn x.1.blobs layer)) =
      some (.done, none, some .disk) := by decide +kernel
  have htidy : Along (Pass.step imageJson) (Pass.Tidy imageJson) (keyAndImage, .start)
      (List.replicate 21 {}) := by decide +kernel
  have hrefs : ∀ d ∈ keyAndImage.blobs.keys,
      refsTo imageJson keyAndImage.manifests d < 2 ^ 32 := by decide +kernel
  obtain ⟨⟨s', p'⟩, hr, hend⟩ := Option.map_eq_some_iff.mp hrun
  simp only [Prod.mk.injEq] at hend
  obtain ⟨hdone, hgone, htier⟩ := hend
  exact ⟨s', p', hr, hdone, hgone, htier, published_touch_times_of_tidy imageJson
    (fun d hd => hrefs d (AList.mem_keys.mp (AList.lookup_isSome.mp hd))) hr hdone htidy⟩

/-- A manifest whose only layer is on disk, where nothing may stay. -/
def diskImage : State :=
  ((State.new ⟨10000, none, 0⟩ 100000).insertBlob layer (.onDisk 0 100 "" 5)).insertManifest image
    ⟨imageBody, "", 3, false⟩

/-- The disk heap's pop drops the manifest, and the time of the small pool stays that of its other
candidate, though nothing is cached any more. -/
theorem dropped_manifest_published :
    ∃ x, run (LoggedPass.step imageJson) (.init diskImage) (List.replicate 20 {}) = some x ∧
      x.pass.phase = .done ∧ x.st.manifests.lookup image = none ∧
      ¬ x.TouchRight imageJson .smallMemory := by
  have hrun : ((run (LoggedPass.step imageJson) (.init diskImage) (List.replicate 20 {})).map
      fun x => (x.pass.phase, x.st.manifests.lookup image, x.st.touchTime .smallMemory, x.pass.now,
        decide (∀ y ∈ x.ever .smallMemory, y = .manifest 3 image))) =
      some (.done, none, 3, 100000, true) := by decide +kernel
  obtain ⟨x, hr, hend⟩ := Option.map_eq_some_iff.mp hrun
  simp only [Prod.mk.injEq, decide_eq_true_eq] at hend
  obtain ⟨hdone, hgone, htime, hnow, hever⟩ := hend
  refine ⟨x, hr, hdone, hgone, fun hright => ?_⟩
  rcases hright.2 with ⟨y, hy, hc, -⟩ | ⟨hsame, -⟩
  · rw [hever y hy] at hc
    obtain ⟨m, hm, -⟩ := hc
    rw [hgone] at hm
    cases hm
  · rw [htime, hnow] at hsame
    cases hsame

/-- Of two manifests over one layer the first spills it. The second stays in the large heap, whose
pool has nothing any more. -/
example : ((run (Pass.step imageJson) (sharedLayer true 5000, .start) (List.replicate 20 {})).map
    fun x => (x.2.phase, tierIn x.1.blobs layer, x.1.touchTime .largeMemory)) =
      some (.done, some .disk, 4) := by
  decide +kernel

end Dockfoxprox

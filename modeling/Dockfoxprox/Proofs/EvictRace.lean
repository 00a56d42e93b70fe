import Dockfoxprox.Proofs.EvictUsage

/-! A map operation that runs while a pass is between its scans and its return, on an
entry the pass does not touch. The pass goes on as it would have, and the two runs differ
in that entry and by the charge of the operation; a final store of a counter erases the
charge from it. -/

namespace Dockfoxprox

open MapSum Machine

/-- The digest whose entry in `state.blobs` the next step looks up or changes. -/
def Pass.blobTouched (p : Pass) (c : Choice) : Option Digest :=
  match p.phase with
  | .spillBlobs sp =>
    match sp.todo with
    | [] => none
    | r :: _ =>
      match p.blobs.lookup r with
      | none => none
      | some bb =>
        if (bb.unevict sp.old).unevictedRefs ≠ 0 ∨ bb.tier ≠ .largeMem then none else some r
  | .spillInsert _ r _ => some r
  | .cascade _ (r :: _) =>
    match p.blobs.lookup r with
    | none => none
    | some bb =>
      if bb.refs - 1 ≠ 0 ∨ bb.lastAccessed > p.now - blobGraceSeconds then none else some r
  | .sweep todo =>
    match todo[c.pick]? with
    | none => none
    | some d =>
      match p.blobs.lookup d with
      | none => none
      | some bb =>
        if bb.refs ≠ 0 ∨ p.now - bb.lastAccessed < blobGraceSeconds then none else some d
  | _ => none

/-- The key whose entry in `state.redis_entries` the next step looks up or changes. -/
def Pass.redisTouched (p : Pass) (config : Config) (c : Choice) : Option Bytes :=
  match p.phase with
  | .loop =>
    match p.arm config with
    | none => none
    | some pool =>
      match popOldest (p.heap pool) c.pick with
      | some (.redis key _ _, _) => some key
      | _ => none
  | .redisInsert key _ _ _ _ => some key
  | _ => none

/-- The blob an operation inserts or removes. -/
def Op.blobKey : Op → Option Digest
  | .insertBlob d _ | .removeBlob d => some d
  | _ => none

/-- The Redis entry an operation inserts or removes. -/
def Op.redisKey : Op → Option Bytes
  | .insertRedis k _ | .removeRedis k => some k
  | _ => none

/-- An insert or remove of a blob or of a Redis entry. -/
def Op.onEntry : Op → Bool
  | .insertManifest _ _ | .removeManifest _ => false
  | _ => true

/-- The signed byte charge of an operation in each bucket, as the counters hold it. -/
def Op.charge (op : Op) (s : State) : Usage := toUsage (op.apply s).bytesIn - toUsage s.bytesIn

/-- Two states that differ at most in the entry of an operation and by `δ` in the counters. -/
structure SameBut (op : Op) (δ : Usage) (s₁ s₂ : State) : Prop where
  manifests : s₁.manifests = s₂.manifests
  config : s₁.config = s₂.config
  blobs : ∀ d, op.blobKey ≠ some d → s₁.blobs.lookup d = s₂.blobs.lookup d
  redis : ∀ k, op.redisKey ≠ some k → s₁.redisEntries.lookup k = s₂.redisEntries.lookup k
  usage : s₁.usage = s₂.usage + δ

theorem SameBut.of_op {op : Op} (h : op.onEntry) (s : State) :
    SameBut op (op.charge s) (op.apply s) s := by
  have hu : (op.apply s).usage = s.usage + op.charge s := by
    rw [Op.charge, eq_sub_of_add_eq (Op.apply_balance s op)]
    abel
  have hne {α : Type} {x y : α} (h : some x ≠ some y) : y ≠ x := fun he => h (congrArg some he.symm)
  cases op with
  | insertBlob d b =>
    obtain ⟨u, he⟩ := insertBlob_eq s d b
    refine ⟨?_, ?_, fun x hx => ?_, fun k hk => ?_, hu⟩ <;> simp only [Op.apply, he]
    exact AList.lookup_insert_ne (hne hx)
  | removeBlob d =>
    obtain ⟨u, he⟩ := removeBlob_eq s d
    refine ⟨?_, ?_, fun x hx => ?_, fun k hk => ?_, hu⟩ <;> simp only [Op.apply, he]
    exact AList.lookup_erase_ne (hne hx)
  | insertRedis k v =>
    obtain ⟨u, he⟩ := s.insertRedis_eq k v
    refine ⟨?_, ?_, fun x hx => ?_, fun k' hk => ?_, hu⟩ <;> simp only [Op.apply, he]
    exact AList.lookup_insert_ne (hne hk)
  | removeRedis k =>
    obtain ⟨u, he⟩ := s.removeRedis_eq k
    refine ⟨?_, ?_, fun x hx => ?_, fun k' hk => ?_, hu⟩ <;> simp only [Op.apply, he]
    exact AList.lookup_erase_ne (hne hk)
  | insertManifest d m => cases h
  | removeManifest d => cases h

/-! What the operations of a pass add to the counters, by the entry they replace. -/

theorem insertBlob_usage (s : State) (d : Digest) (b : Blob) :
    (s.insertBlob d b).usage =
      s.usage + toUsage (blobCharge b) - toUsage (share (fun _ => blobCharge) s.blobs d) := by
  obtain ⟨u, he⟩ := insertBlob_eq s d b
  have hb := Op.apply_balance s (.insertBlob d b)
  have hB := congrArg toUsage (bytesIn_insert_blob s d b)
  rw [toUsage_add, toUsage_add] at hB
  have hB' : toUsage (Op.apply s (.insertBlob d b)).bytesIn =
      toUsage (State.bytesIn { s with blobs := s.blobs.insert d b }) := by
    simp only [Op.apply, he]
    rfl
  rw [hB', eq_sub_of_add_eq hB] at hb
  exact (eq_sub_of_add_eq hb).trans (by abel)

theorem removeBlob_usage (s : State) (d : Digest) :
    (s.removeBlob d).2.usage = s.usage - toUsage (share (fun _ => blobCharge) s.blobs d) := by
  obtain ⟨u, he⟩ := removeBlob_eq s d
  have hb := Op.apply_balance s (.removeBlob d)
  have hB := congrArg toUsage (bytesIn_erase_blob s d)
  rw [toUsage_add] at hB
  have hB' : toUsage (Op.apply s (.removeBlob d)).bytesIn =
      toUsage (State.bytesIn { s with blobs := s.blobs.erase d }) := by
    simp only [Op.apply, he]
    rfl
  rw [hB', hB] at hb
  exact (eq_sub_of_add_eq hb).trans (by abel)

theorem removeManifest_usage (s : State) (d : Digest) :
    (s.removeManifest d).2.usage =
      s.usage - toUsage (share (fun _ => manifestCharge) s.manifests d) := by
  obtain ⟨u, he⟩ := removeManifest_eq s d
  have hb := Op.apply_balance s (.removeManifest d)
  have hB := congrArg toUsage (bytesIn_erase_manifest s d)
  rw [toUsage_add] at hB
  have hB' : toUsage (Op.apply s (.removeManifest d)).bytesIn =
      toUsage (State.bytesIn { s with manifests := s.manifests.erase d }) := by
    simp only [Op.apply, he]
    rfl
  rw [hB', hB] at hb
  exact (eq_sub_of_add_eq hb).trans (by abel)

theorem removeRedis_usage (s : State) (k : Bytes) :
    (s.removeRedis k).2.usage = s.usage - toUsage (share redisCharge s.redisEntries k) := by
  obtain ⟨u, he⟩ := s.removeRedis_eq k
  have hb := Op.apply_balance s (.removeRedis k)
  have hB := congrArg toUsage (bytesIn_erase_redis s k)
  rw [toUsage_add] at hB
  have hB' : toUsage (Op.apply s (.removeRedis k)).bytesIn =
      toUsage (State.bytesIn { s with redisEntries := s.redisEntries.erase k }) := by
    simp only [Op.apply, he]
    rfl
  rw [hB', hB] at hb
  exact (eq_sub_of_add_eq hb).trans (by abel)

namespace Act

def blobKey : Act → Option Digest
  | .moveBlob d _ | .dropBlob d => some d
  | _ => none

def redisKey : Act → Option Bytes
  | .moveRedis k _ _ _ | .dropRedis k => some k
  | _ => none

/-- What is left of a difference of the counters after an act. -/
def erases : Act → Usage → Usage
  | .store b _, δ => Function.update δ b 0
  | _, δ => δ

end Act

section
variable {fromSlice : Bytes → Option Json} {op : Op} {δ : Usage} {s₁ s₂ : State} {p : Pass}
  {c : Choice}

theorem SameBut.evictOne (h : SameBut op δ s₁ s₂) (q : Pass) (pool : Pool) (cand : Candidate)
    (hr : ∀ key t size, cand = .redis key t size → op.redisKey ≠ some key) :
    Pass.evictOne fromSlice q s₁ pool cand = Pass.evictOne fromSlice q s₂ pool cand := by
  cases cand with
  | manifest t d =>
    cases pool <;>
      simp only [Pass.evictOne, Pass.dropManifest, Pass.spillManifest, removeManifest_fst, h.manifests]
  | redis key t size =>
    have hl := h.redis key (hr key t size rfl)
    cases pool <;>
      simp only [Pass.evictOne, Pass.dropRedis, Pass.spillRedis, State.spillFetch, removeRedis_fst, hl]

/-- The next step of the pass does not depend on an entry it does not touch. -/
theorem SameBut.next (h : SameBut op δ s₁ s₂) (hscan : p.phase.scanning = false)
    (hb : ∀ d, p.blobTouched c = some d → op.blobKey ≠ some d)
    (hr : ∀ k, p.redisTouched s₂.config c = some k → op.redisKey ≠ some k) :
    Pass.next fromSlice s₁ p c = Pass.next fromSlice s₂ p c := by
  unfold Pass.next
  unfold Pass.blobTouched at hb
  unfold Pass.redisTouched at hr
  cases hp : p.phase with
  | begin => simp [hp, Phase.scanning] at hscan
  | scanBlobs => simp [hp, Phase.scanning] at hscan
  | scanManifests => simp [hp, Phase.scanning] at hscan
  | scanRedis => simp [hp, Phase.scanning] at hscan
  | loop =>
    simp only [hp, h.config] at hr ⊢
    cases ha : p.arm s₂.config with
    | none => rfl
    | some pool =>
      simp only [ha] at hr ⊢
      cases hpop : popOldest (p.heap pool) c.pick with
      | none => rfl
      | some x =>
        obtain ⟨cand, rest⟩ := x
        simp only [hpop] at hr ⊢
        refine congrArg some (h.evictOne _ pool cand fun key t size hc => hr key ?_)
        rw [hc]
  | spillBlobs sp =>
    simp only [hp] at hb ⊢
    cases ht : sp.todo with
    | nil => rfl
    | cons r rest =>
      simp only [ht, Pass.spillBlob] at hb ⊢
      cases hbb : p.blobs.lookup r with
      | none => rfl
      | some bb =>
        simp only [hbb, BlobBk.unevict_tier] at hb ⊢
        split
        · rfl
        · rename_i hk
          rw [h.blobs r (hb r (by rw [if_neg hk]))]
  | cascade old todo =>
    cases todo with
    | nil => rfl
    | cons r todo =>
      simp only [hp, Pass.cascadeBlob, removeBlob_fst] at hb ⊢
      cases hbb : p.blobs.lookup r with
      | none => rfl
      | some bb =>
        simp only [hbb, BlobBk.unref_refs, BlobBk.unref_lastAccessed, Pass.goto_now,
          Pass.setBk_now] at hb ⊢
        split
        · rfl
        · rename_i hk
          rw [h.blobs r (hb r (by rw [if_neg hk]))]
  | sweep todo =>
    cases todo with
    | nil => rfl
    | cons r todo =>
      simp only [hp, Pass.sweepBlob, removeBlob_fst, Pass.goto_blobs, Pass.goto_now] at hb ⊢
      cases hd : (r :: todo)[c.pick]? with
      | none => rfl
      | some d =>
        simp only [hd] at hb ⊢
        cases hbb : p.blobs.lookup d with
        | none => rfl
        | some bb =>
          simp only [hbb] at hb ⊢
          split
          · rfl
          · rename_i hk
            rw [h.blobs d (hb d (by rw [if_neg hk]))]
  | _ => rfl

/-- An act is on an entry its step touches. -/
theorem Pass.Step.touched {a : Act} {p' : Pass} {s : State} (hs : Pass.Step fromSlice s p c a p') :
    (∀ d, a.blobKey = some d → p.blobTouched c = some d) ∧
      ∀ k, a.redisKey = some k → p.redisTouched s.config c = some k := by
  have hni {a : Act} (ha : a.inert) : (∀ d, a.blobKey = some d → p.blobTouched c = some d) ∧
      ∀ k, a.redisKey = some k → p.redisTouched s.config c = some k := by
    cases a <;> first | cases ha; done | simp [Act.blobKey, Act.redisKey]
  cases hs with
  | spillInsert hp =>
    refine ⟨fun d hd => ?_, fun _ => nofun⟩
    cases hd
    simp [Pass.blobTouched, hp]
  | @cascadeDrop old r todo bb blob hp hb hr ht hl =>
    refine ⟨fun d hd => ?_, fun _ => nofun⟩
    cases hd
    simp [Pass.blobTouched, hp, hb, hr, ht]
  | @sweepDrop todo r bb blob hp hd' hb hr ht hl =>
    refine ⟨fun d hd => ?_, fun _ => nofun⟩
    cases hd
    simp [Pass.blobTouched, hp, hd', hb, hr, ht]
  | dropRedis hp hb ha hpop he =>
    refine ⟨fun _ => nofun, fun k hk => ?_⟩
    cases hk
    simp [Pass.redisTouched, hp, ha, hpop]
  | redisInsert hp =>
    refine ⟨fun _ => nofun, fun k hk => ?_⟩
    cases hk
    simp [Pass.redisTouched, hp]
  | writeFailed hp hw => exact hni (Act.inert_leftover ..)
  | cascadeUnlink hp => exact hni (Act.inert_unlink ..)
  | sweepUnlink hp => exact hni (Act.inert_unlink ..)
  | _ => exact ⟨fun _ => nofun, fun _ => nofun⟩

theorem share_congr {α β M : Type} [DecidableEq α] [AddCommMonoid M] {f : α → β → M}
    {m m' : DashMap α β} {k : α} (h : m.lookup k = m'.lookup k) : share f m k = share f m' k := by
  unfold share
  rw [h]

/-- An act on another entry keeps two states equal but for theirs. -/
theorem SameBut.apply (h : SameBut op δ s₁ s₂) {a : Act}
    (hb : ∀ d, a.blobKey = some d → op.blobKey ≠ some d)
    (hr : ∀ k, a.redisKey = some k → op.redisKey ≠ some k) :
    SameBut op (a.erases δ) (a.apply s₁) (a.apply s₂) := by
  refine ⟨?_, ?_, fun d hd => ?_, fun k hk => ?_, ?_⟩
  · rw [Act.apply_manifests, Act.apply_manifests, h.manifests]
  · rw [Act.apply_config, Act.apply_config, h.config]
  · rw [Act.apply_blobs, Act.apply_blobs]
    have hl := h.blobs d hd
    cases a <;> simp only [Act.onBlobs, lookup_insert_apply, lookup_erase_apply, hl]
  · rw [Act.apply_redisEntries, Act.apply_redisEntries]
    have hl := h.redis k hk
    cases a <;> simp only [Act.onRedis, lookup_insert_apply, lookup_erase_apply, hl]
  · have hu := h.usage
    cases a with
    | markEvicted d =>
      simp only [Act.apply, h.manifests]
      cases s₂.manifests.lookup d <;> exact hu
    | moveBlob d b =>
      have hl := share_congr (f := fun _ => blobCharge) (h.blobs d (hb d rfl))
      show (s₁.insertBlob d b).usage = (s₂.insertBlob d b).usage + δ
      rw [insertBlob_usage, insertBlob_usage, hl, hu]
      abel
    | dropBlob d =>
      have hl := share_congr (f := fun _ => blobCharge) (h.blobs d (hb d rfl))
      show (s₁.removeBlob d).2.usage = (s₂.removeBlob d).2.usage + δ
      rw [removeBlob_usage, removeBlob_usage, hl, hu]
      abel
    | dropManifest d =>
      show (s₁.removeManifest d).2.usage = (s₂.removeManifest d).2.usage + δ
      rw [removeManifest_usage, removeManifest_usage, h.manifests, hu]
      abel
    | dropRedis k =>
      have hl := share_congr (f := redisCharge) (h.redis k (hr k rfl))
      show (s₁.removeRedis k).2.usage = (s₂.removeRedis k).2.usage + δ
      rw [removeRedis_usage, removeRedis_usage, hl, hu]
      abel
    | store b n =>
      funext b'
      by_cases hbb : b' = b
      · subst hbb
        simp [Act.apply, Act.erases]
      · simp [Act.apply, Act.erases, hbb, hu]
    | _ => exact hu

end

/-- The step touches neither the blob nor the Redis entry of the operation. -/
def Untouched (op : Op) (x : State × Pass) (c : Choice) (_ : State × Pass) : Prop :=
  (op.blobKey = none ∨ x.2.blobTouched c ≠ op.blobKey) ∧
    (op.redisKey = none ∨ x.2.redisTouched x.1.config c ≠ op.redisKey)

instance (op : Op) (x : State × Pass) (c : Choice) (x' : State × Pass) :
    Decidable (Untouched op x c x') :=
  inferInstanceAs (Decidable (_ ∧ _))

/-- The step stores no counter in which `δ` is not zero. -/
def KeepsCharge (δ : Usage) (_ : State) (_ : Pass) : Act → Prop
  | .store b _ => δ b = 0
  | _ => True

instance (δ : Usage) (s : State) (p : Pass) (a : Act) : Decidable (KeepsCharge δ s p a) :=
  match a with
  | .store b _ => inferInstanceAs (Decidable (δ b = 0))
  | .idle | .countRun | .markEvicted _ | .writeFile _ _ | .moveBlob _ _ | .moveRedis _ _ _ _
  | .dropRedis _ | .dropManifest _ | .retainTags _ | .dropBlob _ | .removeFile _
  | .publish _ _ _ => isTrue trivial

theorem Act.erases_eq {δ : Usage} {a : Act} {s : State} {p : Pass} (h : KeepsCharge δ s p a) :
    a.erases δ = δ := by
  cases a with
  | store b n => exact Function.update_eq_self_iff.mpr (Eq.symm h)
  | _ => rfl

/-- The run of a pass on two states equal but for one entry. -/
theorem SameBut.run {fromSlice : Bytes → Option Json} {op : Op} {δ : Usage} {s₁ s₂ s₂' : State}
    {p p' : Pass} {choices : List Choice} (h : SameBut op δ s₁ s₂)
    (hscan : p.phase.scanning = false)
    (hun : Along (Pass.step fromSlice) (Untouched op) (s₂, p) choices)
    (hr : Machine.run (Pass.step fromSlice) (s₂, p) choices = some (s₂', p')) :
    ∃ s₁' δ', Machine.run (Pass.step fromSlice) (s₁, p) choices = some (s₁', p') ∧
      SameBut op δ' s₁' s₂' ∧ (∀ b, δ' b = δ b ∨ δ' b = 0) ∧
      (δ' = δ ↔
        Along (Pass.step fromSlice) (Pass.OnAct fromSlice (KeepsCharge δ)) (s₂, p) choices) := by
  induction choices generalizing s₁ s₂ p δ with
  | nil =>
    cases hr
    exact ⟨s₁, δ, rfl, h, fun b => .inl rfl, fun _ => trivial, fun _ => rfl⟩
  | cons c cs ih =>
    obtain ⟨m, hm, hr⟩ := run_cons.mp hr
    obtain ⟨⟨hb, hk⟩, hun⟩ := hun m hm
    obtain ⟨a, q, hn, rfl⟩ := Pass.step_eq_some.mp hm
    have hst := Pass.step_of_next hn
    have hb' (d : Digest) (hd : p.blobTouched c = some d) : op.blobKey ≠ some d := by
      rintro he
      rw [he] at hb
      exact hb.elim nofun fun hne => hne hd
    have hk' (k : Bytes) (hd : p.redisTouched s₂.config c = some k) : op.redisKey ≠ some k := by
      rintro he
      rw [he] at hk
      exact hk.elim nofun fun hne => hne hd
    have hap := h.apply (a := a) (fun d hd => hb' d (hst.touched.1 d hd))
      (fun k hd => hk' k (hst.touched.2 k hd))
    obtain ⟨s₁', δ', hr', hsame, hle, hiff⟩ := ih hap (hst.scanning hscan) hun hr
    have hstep : Pass.step fromSlice (s₁, p) c = some (a.apply s₁, q) :=
      Pass.step_eq_some.mpr ⟨a, q, (h.next hscan hb' hk').trans hn, rfl⟩
    refine ⟨s₁', δ', run_cons.mpr ⟨_, hstep, hr'⟩, hsame, fun b => ?_, ?_⟩
    · rcases hle b with hb | hb
      · cases a with
        | store b' n =>
          by_cases hbb : b = b'
          · exact .inr (by rw [hb, Act.erases, hbb, Function.update_self])
          · exact .inl (by rw [hb, Act.erases, Function.update_of_ne hbb])
        | _ => exact .inl hb
      · exact .inr hb
    · by_cases hkeep : KeepsCharge δ s₂ p a
      · rw [Act.erases_eq hkeep] at hiff
        rw [hiff]
        constructor
        · intro hal x hx
          obtain rfl := Option.some.inj (hm.symm.trans hx)
          exact ⟨(Pass.onAct_iff hn).mpr hkeep, hal⟩
        · intro hal
          exact (hal _ hm).2
      · -- the store zeroes a counter that carried a charge, and no later step restores it
        have hne : δ' ≠ δ := by
          rintro rfl
          cases a with
          | store b n =>
            rcases hle b with hb | hb
            · rw [Act.erases, Function.update_self] at hb
              exact hkeep hb
            · exact hkeep hb
          | _ => exact hkeep trivial
        refine ⟨fun he => absurd he hne, fun hal => ?_⟩
        exact absurd ((Pass.onAct_iff hn).mp (hal _ hm).1) hkeep

/-- An insert or remove of an entry the rest of the pass does not touch: the counters at
the end are those of the pass without it plus its signed byte charge, if and only if the
pass stores none of the counters it charges afterwards. -/
theorem concurrent_charge_kept_iff (fromSlice : Bytes → Option Json) (op : Op) (hop : op.onEntry)
    (s : State) (p : Pass) (hscan : p.phase.scanning = false) (choices : List Choice)
    (s₂ : State) (p' : Pass)
    (hr : Machine.run (Pass.step fromSlice) (s, p) choices = some (s₂, p'))
    (hun : Along (Pass.step fromSlice) (Untouched op) (s, p) choices) :
    ∃ s₁, Machine.run (Pass.step fromSlice) (op.apply s, p) choices = some (s₁, p') ∧
      ((∀ b, s₁.usage b = s₂.usage b + op.charge s b) ↔ Along (Pass.step fromSlice)
        (Pass.OnAct fromSlice (KeepsCharge (op.charge s))) (s, p) choices) := by
  obtain ⟨s₁, δ', hr', hsame, -, hiff⟩ := (SameBut.of_op hop s).run hscan hun hr
  refine ⟨s₁, hr', ?_⟩
  rw [← hiff]
  constructor
  · intro hall
    have hu : s₁.usage = s₂.usage + op.charge s := funext hall
    rw [hsame.usage] at hu
    exact add_left_cancel hu
  · rintro rfl b
    rw [hsame.usage]
    rfl

/-- The proxy with one key and a pass on it that has done its scans. -/
def scannedKey : State × Pass :=
  (Act.countRun.apply (oneKey ⟨100, none, 100⟩),
    Pass.scanned (fun _ => none) (oneKey ⟨100, none, 100⟩))

/-- The same pass when it has stored the blob counters. -/
def lateKey : State × Pass :=
  (Machine.run (Pass.step fun _ => none) scannedKey (List.replicate 6 {})).getD scannedKey

/-- An upload that completes then. -/
def lateUpload : Op := .insertBlob ⟨List.replicate 32 4, rfl⟩ (.inMemory 9 [1, 2, 3] "" 0)

theorem concurrent_charge_kept_iff_late :
    ∃ s₁ s₂ p',
      Machine.run (Pass.step fun _ => none) lateKey (List.replicate 4 {}) = some (s₂, p') ∧
      p'.phase = .done ∧
      Machine.run (Pass.step fun _ => none) (lateUpload.apply lateKey.1, lateKey.2)
        (List.replicate 4 {}) = some (s₁, p') ∧
      ∀ b, s₁.usage b = s₂.usage b + lateUpload.charge lateKey.1 b := by
  have hdone : ((Machine.run (Pass.step fun _ => none) lateKey (List.replicate 4 {})).map
      fun x => x.2.phase) = some .done := by decide +kernel
  obtain ⟨⟨s₂, p'⟩, hr, hp⟩ := Option.map_eq_some_iff.mp hdone
  obtain ⟨s₁, hr₁, hiff⟩ := concurrent_charge_kept_iff (fun _ => none) lateUpload rfl lateKey.1
    lateKey.2 (by decide +kernel) (List.replicate 4 {}) s₂ p' hr (by decide +kernel)
  exact ⟨s₁, s₂, p', hr, hp, hr₁, hiff.mpr (by decide +kernel)⟩

/-- A key that is SET right after the scans: the final store of the counter loses its two
bytes. -/
theorem concurrent_set_loses_charge :
    Machine.run (Pass.step fun _ => none) (oneKey ⟨100, none, 100⟩, .start)
      (List.replicate 4 {}) = some scannedKey ∧
    Along (Pass.step fun _ => none) (Untouched (.insertRedis [108] [98])) scannedKey
      (List.replicate 10 {}) ∧
    ∃ s₁ p₁ s₂ p₂,
      Machine.run (Pass.step fun _ => none) scannedKey (List.replicate 10 {}) = some (s₂, p₂) ∧
      Machine.run (Pass.step fun _ => none)
        (Op.apply scannedKey.1 (.insertRedis [108] [98]), scannedKey.2) (List.replicate 10 {}) =
          some (s₁, p₁) ∧
      p₁.phase = .done ∧ p₂.phase = .done ∧
      s₁.usage .smallRedisMemory ≠
        s₂.usage .smallRedisMemory + Op.charge (.insertRedis [108] [98]) scannedKey.1
          .smallRedisMemory := by
  refine ⟨rfl, by decide +kernel, ?_⟩
  have h₂ : ((Machine.run (Pass.step fun _ => none) scannedKey (List.replicate 10 {})).map
      fun x => (x.2.phase, x.1.usage .smallRedisMemory)) = some (.done, 2) := by decide +kernel
  have h₁ : ((Machine.run (Pass.step fun _ => none)
      (Op.apply scannedKey.1 (.insertRedis [108] [98]), scannedKey.2) (List.replicate 10 {})).map
      fun x => (x.2.phase, x.1.usage .smallRedisMemory)) = some (.done, 2) := by decide +kernel
  have hc : Op.charge (.insertRedis [108] [98]) scannedKey.1 .smallRedisMemory = 2 := by
    decide +kernel
  obtain ⟨⟨s₂, p₂⟩, hr₂, hp₂⟩ := Option.map_eq_some_iff.mp h₂
  obtain ⟨⟨s₁, p₁⟩, hr₁, hp₁⟩ := Option.map_eq_some_iff.mp h₁
  simp only [Prod.mk.injEq] at hp₁ hp₂
  refine ⟨s₁, p₁, s₂, p₂, hr₂, hr₁, hp₁.1, hp₂.1, ?_⟩
  rw [hp₁.2, hp₂.2, hc]
  decide

end Dockfoxprox

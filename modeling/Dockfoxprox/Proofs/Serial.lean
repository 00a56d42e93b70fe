import Dockfoxprox.Proofs.Backing

/-! Runs in which uploads, commands and passes do not interleave. A spill then always finds
in the map what it took from it, and the two-tier store moves by operations that are alone
and, but for uploads over a blob on disk, tidy. -/

namespace Dockfoxprox

open MapSum Tiered

/-- No upload goes over a blob that is on disk. -/
def SerialSys.Calm (x : SerialSys) (e : SerialEvent) (_ : SerialSys) : Prop :=
  match e with
  | .storeBlob d _ _ => (x.st.blobs.lookup d).bind Blob.diskId = none
  | _ => True

instance SerialSys.decidableCalm (x : SerialSys) (e : SerialEvent) (x' : SerialSys) :
    Decidable (x.Calm e x') :=
  match e with
  | .storeBlob d _ _ => inferInstanceAs (Decidable ((x.st.blobs.lookup d).bind Blob.diskId = none))
  | .tick _ | .storeManifest _ _ _ | .command _ | .getStep | .unlink _ | .evict _ | .nextPass =>
    isTrue trivial

/-- The history of the entries created on disk, after a step. -/
def SerialSys.record (x : SerialSys) (e : SerialEvent) (created : DashMap ℕ Bytes) :
    DashMap ℕ Bytes :=
  match e with
  | .evict _ => x.pass.phase.record created
  | _ => created

namespace SerialSys

def store (x : SerialSys) (created : DashMap ℕ Bytes) : Store Owner Bytes :=
  cacheStore x.st x.pass.phase created

/-- While a command is served no pass is under way. -/
def Apart (x : SerialSys) : Prop :=
  x.conn.authed ∧ (x.conn.phase ≠ .ready → x.pass.phase = .begin ∨ x.pass.ended)

variable {fromSlice : Bytes → Option Json} {x x' : SerialSys} {e : SerialEvent}

theorem hold_of_idle (h : x.pass.phase = .begin ∨ x.pass.ended) : x.pass.phase.hold = none := by
  rcases h with h | h
  · rw [h]
    rfl
  · rcases of_decide_eq_true h with h | h <;> rw [h] <;> rfl

theorem idle_iff : x.idle ↔ (x.pass.phase = .begin ∨ x.pass.ended) ∧ x.conn.phase = .ready := by
  simp [idle]

theorem dispatch_authed {c : Conn} (ha : c.authed) (s : State) {args : List Bytes}
    (hk : (Verb.of (cmdOf args)).keyed) : c.dispatch none s args = c.authedCommand s args := by
  unfold Conn.dispatch
  split
  iterate 5
    rename_i hv
    rw [hv] at hk
    cases hk
  rw [if_pos ha]

theorem authedCommand_authed (c : Conn) (s : State) (args : List Bytes) :
    (c.authedCommand s args).2.authed = c.authed := by
  unfold Conn.authedCommand
  split
  · split <;> rfl
  · split <;> rfl
  all_goals rfl

theorem getStep_authed (c : Conn) (s : State) (g : Get) : (c.getStep s g).2.authed = c.authed := by
  unfold Conn.getStep
  split <;> rfl

theorem Apart.step (h : x.Apart) (hs : x.step fromSlice e = some x') : x'.Apart := by
  cases e with
  | tick now => cases hs; exact h
  | storeBlob d content mt =>
    simp only [SerialSys.step] at hs
    split at hs <;> cases hs
    exact h
  | storeManifest d content mt =>
    simp only [SerialSys.step] at hs
    split at hs <;> cases hs
    exact h
  | command args =>
    simp only [SerialSys.step] at hs
    split at hs <;> cases hs
    rename_i hc
    obtain ⟨hi, hk⟩ := hc
    rw [dispatch_authed h.1 _ hk]
    exact ⟨(authedCommand_authed _ _ _).trans h.1, fun _ => (idle_iff.mp hi).1⟩
  | getStep =>
    simp only [SerialSys.step] at hs
    split at hs <;> cases hs
    rename_i hp
    exact ⟨(getStep_authed _ _ _).trans h.1, fun _ => h.2 (by simp [hp])⟩
  | unlink i =>
    obtain ⟨s', hu, rfl⟩ := Option.map_eq_some_iff.mp hs
    exact h
  | evict pick =>
    simp only [SerialSys.step] at hs
    split at hs
    · rename_i hready
      obtain ⟨r, hn, rfl⟩ := Option.map_eq_some_iff.mp hs
      exact ⟨h.1, fun hne => absurd hready hne⟩
    · cases hs
  | nextPass =>
    simp only [SerialSys.step] at hs
    split at hs <;> cases hs
    exact ⟨h.1, fun _ => .inl rfl⟩

/-- What the operations that are alone keep, tidy ones as long as the step is calm, is kept
by every step. -/
theorem step_keeps {Q : Store Owner Bytes → Prop} {created : DashMap ℕ Bytes} (hx : x.Apart)
    (hQ : ∀ y op y', Tiered.Step y op y' → op.Alone y → (x.Calm e x' → op.Tidy y) → Q y → Q y')
    (h : Q (x.store created)) (hs : x.step fromSlice e = some x') :
    Q (x'.store (x.record e created)) := by
  have hrule : ConnRule fun s => Q (cacheStore s x.pass.phase created) ∧
      (cacheStore s x.pass.phase created).held = none := by
    refine .of_ops (Q := fun y => Q y ∧ y.held = none) _ _ (fun y k v y' hy hop => ?_)
      fun y K y' hy hop => ?_
    · refine ⟨hQ _ _ _ hop hy.2 (fun _ => .inl rfl) hy.1, ?_⟩
      cases hop
      exact hy.2
    · refine ⟨hQ _ _ _ hop hy.2 (fun _ => trivial) hy.1, ?_⟩
      cases hop
      exact hy.2
  cases e with
  | tick now => cases hs; exact h
  | storeBlob d content mt =>
    simp only [SerialSys.step] at hs
    split at hs <;> cases hs
    rename_i hi
    have hh := hold_of_idle (idle_iff.mp hi).1
    refine hQ _ _ _ (storeBlob_store x.st x.pass.phase created d content mt) hh
      (fun hcalm => .inr fun id hslot => ?_) h
    obtain ⟨b, hb, hd⟩ := Option.map_eq_some_iff.mp hslot
    cases b with
    | onDisk i size mt' t => simp [SerialSys.Calm, hb, Blob.diskId] at hcalm
    | inMemory i content mt' t => cases hd
  | storeManifest d content mt =>
    simp only [SerialSys.step] at hs
    split at hs <;> cases hs
    exact h
  | command args =>
    simp only [SerialSys.step] at hs
    split at hs <;> cases hs
    rename_i hc
    exact (hrule.dispatch none _ args ⟨h, hold_of_idle (idle_iff.mp hc.1).1⟩).1
  | getStep =>
    simp only [SerialSys.step] at hs
    split at hs <;> cases hs
    rename_i g hp
    exact (hrule.get g ⟨h, hold_of_idle (hx.2 (by simp [hp]))⟩).1
  | unlink i =>
    obtain ⟨s', hu, rfl⟩ := Option.map_eq_some_iff.mp hs
    obtain ⟨id, hop⟩ := runUnlink_store x.st x.pass.phase created hu
    exact hQ _ _ _ hop trivial (fun _ => trivial) h
  | evict pick =>
    simp only [SerialSys.step] at hs
    split at hs
    · obtain ⟨⟨a, p'⟩, hn, rfl⟩ := Option.map_eq_some_iff.mp hs
      rcases (Pass.step_of_next hn).onStore created with heq | ⟨op, hop, -, halone, htidy⟩
      · exact (congrArg Q heq).mpr h
      · exact hQ _ _ _ hop halone (fun _ => htidy rfl rfl) h
    · cases hs
  | nextPass =>
    simp only [SerialSys.step] at hs
    split at hs <;> cases hs
    rename_i hend
    have heq : cacheStore x.st Pass.start.phase created = x.store created :=
      cacheStore_start (.inr hend) x.st created
    exact (congrArg Q heq).mpr h

/-- The store is in order and no hold is disturbed. -/
structure Good (x : SerialSys) (created : DashMap ℕ Bytes) : Prop where
  apart : x.Apart
  inv : Inv (x.store created)
  settled : Settled (x.store created)

theorem Good.init {s : State} (h : s.Intact) : (SerialSys.init s).Good s.files :=
  ⟨⟨rfl, nofun⟩, h.inv, nofun⟩

theorem Good.step {created : DashMap ℕ Bytes} (h : x.Good created)
    (hs : x.step fromSlice e = some x') : x'.Good (x.record e created) := by
  have hkeep : Inv (x'.store (x.record e created)) ∧ Settled (x'.store (x.record e created)) :=
    step_keeps (Q := fun y => Inv y ∧ Settled y) h.apart
      (fun y op y' hop ha _ hy => ⟨hy.1.step hop, hy.2.step ha hop⟩) ⟨h.inv, h.settled⟩ hs
  exact ⟨h.apart.step hs, hkeep.1, hkeep.2⟩

end SerialSys

end Dockfoxprox

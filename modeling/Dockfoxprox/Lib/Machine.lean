import Mathlib.Data.Nat.Notation
import Mathlib.Order.WellFounded
import Mathlib.Tactic.Common

/-! Runs of a partial step function `step : σ → ε → Option σ`, driven by a list
of events. An interleaving of several processes is such a list, an event naming
the process that moves and the input it gets. An event the state does not admit
gives `none`, so a theorem about every run ranges over the admissible ones. -/

namespace Machine

variable {σ τ ε : Type*}

/-- The state reached from `s` along the events, if each of them is admitted. -/
def run (step : σ → ε → Option σ) : σ → List ε → Option σ
  | s, [] => some s
  | s, e :: es => (step s e).bind fun s' => run step s' es

/-- `P` holds of every step of the run from `s`: of the state before it, of its
event and of the state after it. -/
def Along (step : σ → ε → Option σ) (P : σ → ε → σ → Prop) : σ → List ε → Prop
  | _, [] => True
  | s, e :: es => ∀ s', step s e = some s' → P s e s' ∧ Along step P s' es

variable {step : σ → ε → Option σ}

@[simp] theorem run_nil (s : σ) : run step s [] = some s := rfl

theorem run_cons {s s' : σ} {e : ε} {es : List ε} :
    run step s (e :: es) = some s' ↔ ∃ m, step s e = some m ∧ run step m es = some s' := by
  simp only [run, Option.bind_eq_some_iff]

theorem along_mono {P Q : σ → ε → σ → Prop} {s : σ} {es : List ε}
    (hPQ : ∀ s e s', e ∈ es → P s e s' → Q s e s') (h : Along step P s es) :
    Along step Q s es := by
  induction es generalizing s with
  | nil => trivial
  | cons e es ih =>
    intro m hm
    exact ⟨hPQ s e m (by simp) (h m hm).1,
      ih (fun s e' s' he => hPQ s e' s' (by simp [he])) (h m hm).2⟩

theorem along_and {P Q : σ → ε → σ → Prop} {s : σ} {es : List ε} (hP : Along step P s es)
    (hQ : Along step Q s es) : Along step (fun s e s' => P s e s' ∧ Q s e s') s es := by
  induction es generalizing s with
  | nil => trivial
  | cons e es ih =>
    intro m hm
    exact ⟨⟨(hP m hm).1, (hQ m hm).1⟩, ih (hP m hm).2 (hQ m hm).2⟩

/-- A run with a step that violates `P` splits at that step. -/
theorem exists_of_not_along {P : σ → ε → σ → Prop} {s t : σ} {es : List ε}
    (hr : run step s es = some t) (h : ¬ Along step P s es) :
    ∃ pre e post m n, es = pre ++ e :: post ∧ run step s pre = some m ∧ step m e = some n ∧
      run step n post = some t ∧ ¬ P m e n := by
  induction es generalizing s with
  | nil => exact absurd trivial h
  | cons e es ih =>
    obtain ⟨m, hm, hr⟩ := run_cons.mp hr
    by_cases hp : P s e m
    · have h' : ¬ Along step P m es := by
        intro ha
        apply h
        intro m' hm'
        obtain rfl : m = m' := Option.some.inj (hm.symm.trans hm')
        exact ⟨hp, ha⟩
      obtain ⟨pre, e', post, a, b, rfl, ha, hb, hpost, hn⟩ := ih hr h'
      exact ⟨e :: pre, e', post, a, b, rfl, run_cons.mpr ⟨m, hm, ha⟩, hb, hpost, hn⟩
    · exact ⟨[], e, es, s, m, rfl, rfl, hm, hr, hp⟩

/-- A decidable step property is decidable along a run, by running it. -/
instance decidableAlong {P : σ → ε → σ → Prop} [∀ s e s', Decidable (P s e s')] :
    ∀ s es, Decidable (Along step P s es)
  | _, [] => isTrue trivial
  | s, e :: es =>
    match h : step s e with
    | none => isTrue fun s' hs => by rw [h] at hs; cases hs
    | some m =>
      have : Decidable (Along step P m es) := decidableAlong m es
      decidable_of_iff (P s e m ∧ Along step P m es)
        ⟨fun hp m' hm => by rw [h] at hm; cases hm; exact hp, fun hp => hp m h⟩

/-- The invariant rule: what the steps meeting `C` preserve holds at the end of
every run whose steps all meet `C`. -/
theorem run_invariant {C : σ → ε → σ → Prop} {I : σ → Prop}
    (hstep : ∀ s e s', I s → C s e s' → step s e = some s' → I s')
    {s s' : σ} {es : List ε} (h : I s) (hc : Along step C s es)
    (hr : run step s es = some s') : I s' := by
  induction es generalizing s with
  | nil => rw [run_nil, Option.some.injEq] at hr; subst hr; exact h
  | cons e es ih =>
    obtain ⟨m, hm, hr⟩ := run_cons.mp hr
    obtain ⟨hce, hc⟩ := hc m hm
    exact ih (hstep s e m h hce hm) hc hr

/-- The projection rule: what each step of a machine shows is a step of another one, and so
is what its run shows. -/
theorem run_map {step' : τ → ε → Option τ} {v : σ → τ}
    (hv : ∀ s e, (step s e).map v = step' (v s) e) (s : σ) (es : List ε) :
    (run step s es).map v = run step' (v s) es := by
  induction es generalizing s with
  | nil => rfl
  | cons e es ih =>
    rw [run, run, ← hv, Option.map_bind, Option.bind_map]
    congr 1
    funext m
    exact ih m

/-- What the steps of the other machine satisfy, the shown steps do. -/
theorem along_map {step' : τ → ε → Option τ} {v : σ → τ} {P : τ → ε → τ → Prop}
    (hv : ∀ s e, (step s e).map v = step' (v s) e) {s : σ} {es : List ε}
    (h : Along step' P (v s) es) : Along step (fun s e s' => P (v s) e (v s')) s es := by
  induction es generalizing s with
  | nil => trivial
  | cons e es ih =>
    intro m hm
    obtain ⟨hP, hrest⟩ := h (v m) (by rw [← hv, hm, Option.map_some])
    exact ⟨hP, ih hrest⟩

/-- A run is no longer than a measure that each of its steps lowers. -/
theorem run_length_le {I : σ → Prop} {μ : σ → ℕ}
    (hstep : ∀ s e s', I s → step s e = some s' → I s' ∧ μ s' < μ s) {s s' : σ} {es : List ε}
    (h : I s) (hr : run step s es = some s') : es.length + μ s' ≤ μ s := by
  induction es generalizing s with
  | nil =>
    rw [run_nil, Option.some.injEq] at hr
    subst hr
    exact Nat.le_of_eq (Nat.zero_add _)
  | cons e es ih =>
    obtain ⟨m, hm, hr⟩ := run_cons.mp hr
    obtain ⟨hi, hlt⟩ := hstep s e m h hm
    have hle := ih hi hr
    rw [List.length_cons]
    omega

/-- The progress rule: if every state that is not final has a step that lowers a measure, the
machine can go on to a final one. -/
theorem run_to_end {α : Type*} [Preorder α] [WellFoundedLT α] {μ : σ → α} {I F : σ → Prop}
    {P : σ → ε → σ → Prop}
    (hgo : ∀ s, I s → F s ∨ ∃ e s', step s e = some s' ∧ P s e s' ∧ I s' ∧ μ s' < μ s) {s : σ}
    (h : I s) : ∃ es t, Along step P s es ∧ run step s es = some t ∧ F t := by
  generalize hm : μ s = m
  induction m using WellFoundedLT.induction generalizing s with
  | ind m ih =>
    rcases hgo s h with hF | ⟨e, s', hs, hP, hI, hlt⟩
    · exact ⟨[], s, trivial, rfl, hF⟩
    · obtain ⟨es, t, halong, hr, hF⟩ := ih (μ s') (hm ▸ hlt) hI rfl
      refine ⟨e :: es, t, fun s'' hs'' => ?_, run_cons.mpr ⟨s', hs, hr⟩, hF⟩
      obtain rfl := Option.some.inj (hs.symm.trans hs'')
      exact ⟨hP, halong⟩

/-- The lockstep rule: two runs that leave `L` go in step, as long as the step lemma
has it, up to states where both may stop. -/
theorem run_lockstep {C : σ → ε → σ → Prop} {R : σ → σ → Prop} {L T : σ → Prop}
    (hL : ∀ x y, R x y → L x ∧ L y)
    (hstep : ∀ x y e f x' y', R x y → ¬ T x → C x e x' → C y f y' → step x e = some x' →
      step y f = some y' → R x' y')
    {x y x' y' : σ} {es fs : List ε} (h : R x y) (hx : Along step C x es)
    (hy : Along step C y fs) (hrx : run step x es = some x') (hry : run step y fs = some y')
    (hx' : ¬ L x') (hy' : ¬ L y') :
    ∃ m n es' fs', R m n ∧ T m ∧ Along step C m es' ∧ Along step C n fs' ∧
      run step m es' = some x' ∧ run step n fs' = some y' := by
  induction es generalizing x y fs with
  | nil =>
    rw [run_nil, Option.some.injEq] at hrx
    exact absurd (hrx ▸ (hL x y h).1) hx'
  | cons e es ih =>
    by_cases hT : T x
    · exact ⟨x, y, e :: es, fs, h, hT, hx, hy, hrx, hry⟩
    · obtain ⟨m, hm, hrx⟩ := run_cons.mp hrx
      obtain ⟨hc, hx⟩ := hx m hm
      match fs, hy, hry with
      | [], _, hry =>
        rw [run_nil, Option.some.injEq] at hry
        exact absurd (hry ▸ (hL x y h).2) hy'
      | f :: fs, hy, hry =>
        obtain ⟨n, hn, hry⟩ := run_cons.mp hry
        obtain ⟨hd, hy⟩ := hy n hn
        exact ih (hstep x y e f m n h hT hc hd hm hn) hx hy hrx hry

/-- The simulation rule: a machine that can answer each step of another one with one of its own
can follow its runs. -/
theorem run_simulates {τ δ : Type*} {step' : τ → δ → Option τ} {R : σ → τ → Prop}
    {Q : ε → δ → Prop}
    (hstep : ∀ s t e d s', R s t → Q e d → step s e = some s' → ∃ t', step' t d = some t' ∧ R s' t')
    {s s' : σ} {t : τ} {es : List ε} {ds : List δ} (h : R s t) (hes : List.Forall₂ Q es ds)
    (hr : run step s es = some s') : ∃ t', run step' t ds = some t' ∧ R s' t' := by
  induction hes generalizing s t with
  | nil =>
    rw [run_nil, Option.some.injEq] at hr
    exact ⟨t, rfl, hr ▸ h⟩
  | cons he _ ih =>
    obtain ⟨m, hm, hr⟩ := run_cons.mp hr
    obtain ⟨n, hn, hmn⟩ := hstep _ _ _ _ m h he hm
    obtain ⟨t', ht', hR⟩ := ih hmn hr
    exact ⟨t', run_cons.mpr ⟨n, hn, ht'⟩, hR⟩

theorem run_append (s : σ) (es fs : List ε) :
    run step s (es ++ fs) = (run step s es).bind fun m => run step m fs := by
  induction es generalizing s with
  | nil => rfl
  | cons e es ih => simp only [List.cons_append, run, ih, Option.bind_assoc]

/-- The refinement rule: where each step of a machine is a run of another one, so are its runs.
The relation of the two may look at the events still to come. -/
theorem run_refines {δ : Type*} {step' : τ → δ → Option τ} {v : ε → List δ}
    {R : List ε → σ → τ → Prop}
    (hstep : ∀ e es s s' t, R (e :: es) s t → step s e = some s' →
      ∃ t', run step' t (v e) = some t' ∧ R es s' t')
    {s s' : σ} {t : τ} {es : List ε} (h : R es s t) (hr : run step s es = some s') :
    ∃ t', run step' t (es.flatMap v) = some t' ∧ R [] s' t' := by
  induction es generalizing s t with
  | nil =>
    rw [run_nil, Option.some.injEq] at hr
    exact ⟨t, rfl, hr ▸ h⟩
  | cons e es ih =>
    obtain ⟨m, hm, hr⟩ := run_cons.mp hr
    obtain ⟨n, hn, hmn⟩ := hstep e es s m t h hm
    obtain ⟨t', ht', hR⟩ := ih hmn hr
    refine ⟨t', ?_, hR⟩
    rw [List.flatMap_cons, run_append, hn]
    exact ht'

/-- A property of the events alone holds along the run. -/
theorem along_of_mem {E : ε → Prop} {s : σ} {es : List ε} (h : ∀ e ∈ es, E e) :
    Along step (fun _ e _ => E e) s es := by
  induction es generalizing s with
  | nil => trivial
  | cons e es ih =>
    exact fun m _ => ⟨h e List.mem_cons_self, ih fun e' he => h e' (List.mem_cons_of_mem e he)⟩

/-- The invariant rule for runs over events of one kind. -/
theorem run_invariant_of_mem {E : ε → Prop} {I : σ → Prop}
    (hstep : ∀ s e s', I s → E e → step s e = some s' → I s') {s s' : σ} {es : List ε} (h : I s)
    (he : ∀ e ∈ es, E e) (hr : run step s es = some s') : I s' :=
  run_invariant (C := fun _ e _ => E e) hstep h (along_of_mem he) hr

/-- The same for a property of the steps: it holds of every step of such a run
once the invariant implies it at one step. -/
theorem along_of_invariant {C P : σ → ε → σ → Prop} {I : σ → Prop}
    (hstep : ∀ s e s', I s → C s e s' → step s e = some s' → I s' ∧ P s e s')
    {s : σ} {es : List ε} (h : I s) (hc : Along step C s es) : Along step P s es := by
  induction es generalizing s with
  | nil => trivial
  | cons e es ih =>
    intro m hm
    obtain ⟨hce, hc⟩ := hc m hm
    obtain ⟨hi, hp⟩ := hstep s e m h hce hm
    exact ⟨hp, ih hi hc⟩

/-- A property of states that a step keeps exactly when it meets `C` holds after every
step of a run if and only if all the steps meet `C`. -/
theorem along_state_iff {C : σ → ε → σ → Prop} {I : σ → Prop}
    (hstep : ∀ s e s', I s → step s e = some s' → (I s' ↔ C s e s')) {s : σ} {es : List ε}
    (h : I s) : Along step (fun _ _ s' => I s') s es ↔ Along step C s es := by
  induction es generalizing s with
  | nil => exact Iff.rfl
  | cons e es ih =>
    constructor
    · intro ha m hm
      obtain ⟨hi, ha⟩ := ha m hm
      exact ⟨(hstep s e m h hm).mp hi, (ih hi).mp ha⟩
    · intro ha m hm
      obtain ⟨hc, ha⟩ := ha m hm
      have hi := (hstep s e m h hm).mpr hc
      exact ⟨hi, (ih hi).mpr ha⟩

/-- A property that a step keeps exactly when it meets `P` holds at the end of a run if and
only if it held at its start and all the steps meet `P`. -/
theorem run_iff_along {P : σ → ε → σ → Prop} {I Q : σ → Prop}
    (hstep : ∀ s e s', I s → step s e = some s' → I s' ∧ (Q s' ↔ Q s ∧ P s e s'))
    {s s' : σ} {es : List ε} (h : I s) (hr : run step s es = some s') :
    Q s' ↔ Q s ∧ Along step P s es := by
  induction es generalizing s with
  | nil => rw [run_nil, Option.some.injEq] at hr; subst hr; simp [Along]
  | cons e es ih =>
    obtain ⟨m, hm, hr⟩ := run_cons.mp hr
    obtain ⟨hi, hQ⟩ := hstep s e m h hm
    rw [ih hi hr, hQ, and_assoc]
    refine and_congr_right fun _ => ?_
    constructor
    · intro ha n hn
      obtain rfl : m = n := Option.some.inj (hm.symm.trans hn)
      exact ha
    · exact fun ha => ha m hm

/-- What every process of a list satisfies and the one that moves still satisfies. -/
theorem forall_mem_set {α : Type*} {P : α → Prop} {l : List α} {i : ℕ} {x : α}
    (h : ∀ y ∈ l, P y) (hx : P x) : ∀ y ∈ l.set i x, P y := by
  intro y hy
  rcases List.mem_or_eq_of_mem_set hy with hy | rfl
  · exact h y hy
  · exact hx

/-- Two lists of processes that go together, in each of which one moves. -/
theorem forall₂_set {α β : Type*} {R : α → β → Prop} {l : List α} {m : List β}
    (h : List.Forall₂ R l m) (i : ℕ) {x : α} {y : β} (hxy : R x y) :
    List.Forall₂ R (l.set i x) (m.set i y) := by
  induction h generalizing i with
  | nil => exact .nil
  | cons hab hrest ih =>
    cases i with
    | zero => exact .cons hxy hrest
    | succ i => exact .cons hab (ih i)

/-- The process at a place of a list in which one has moved: that one, or as it was. -/
theorem getElem?_of_set {α : Type*} {l : List α} {i k : ℕ} {a b : α}
    (h : (l.set i a)[k]? = some b) : (k = i ∧ b = a) ∨ k ≠ i ∧ l[k]? = some b := by
  obtain rfl | hne := eq_or_ne i k
  · obtain ⟨hlt, hb⟩ := List.getElem?_eq_some_iff.mp h
    rw [List.getElem_set_self] at hb
    exact .inl ⟨rfl, hb.symm⟩
  · exact .inr ⟨hne.symm, by rwa [List.getElem?_set_ne hne] at h⟩

/-- The process at a place of a list to which one was added. -/
theorem getElem?_of_concat {α : Type*} {l : List α} {k : ℕ} {a b : α}
    (h : (l ++ [a])[k]? = some b) : l[k]? = some b ∨ k = l.length ∧ b = a := by
  obtain hlt | hge := Nat.lt_or_ge k l.length
  · exact .inl (by rwa [List.getElem?_append_left hlt] at h)
  · rw [List.getElem?_append_right hge, List.getElem?_singleton, Option.ite_none_right_eq_some] at h
    obtain ⟨hk, hb⟩ := h
    exact .inr ⟨by omega, (Option.some.inj hb).symm⟩

theorem along_true (s : σ) (es : List ε) : Along step (fun _ _ _ => True) s es := by
  induction es generalizing s with
  | nil => trivial
  | cons e es ih => exact fun m _ => ⟨trivial, ih m⟩

/-- A run whose every step raises a measure by `0` exactly when it is good ends
with the measure it began with if and only if all its steps are good. -/
theorem along_iff_measure {P : σ → ε → σ → Prop} {I : σ → Prop} {μ : σ → ℕ}
    (hstep : ∀ s e s', I s → step s e = some s' → I s' ∧ μ s ≤ μ s' ∧ (μ s' = μ s ↔ P s e s'))
    {s s' : σ} {es : List ε} (h : I s) (hr : run step s es = some s') :
    μ s ≤ μ s' ∧ (μ s' = μ s ↔ Along step P s es) := by
  induction es generalizing s with
  | nil => rw [run_nil, Option.some.injEq] at hr; subst hr; simp [Along]
  | cons e es ih =>
    obtain ⟨m, hm, hr⟩ := run_cons.mp hr
    obtain ⟨hi, hle, hP⟩ := hstep s e m h hm
    obtain ⟨hle', hA⟩ := ih hi hr
    refine ⟨Nat.le_trans hle hle', ?_⟩
    constructor
    · intro heq
      have hsm : μ m = μ s := Nat.le_antisymm (heq ▸ hle') hle
      intro n hn
      obtain rfl : m = n := Option.some.inj (hm.symm.trans hn)
      exact ⟨hP.mp hsm, hA.mp (heq.trans hsm.symm)⟩
    · intro hal
      obtain ⟨hp, hal⟩ := hal m hm
      rw [hA.mpr hal, hP.mpr hp]

/-- What the steps of a run leave of a property that some of them decide anew: the last
step that meets `R` leaves `C` of its state, and where none does it is still `p`. -/
def AfterLast (step : σ → ε → Option σ) (R : σ → ε → Prop) (C : σ → Prop) :
    Prop → σ → List ε → Prop
  | p, _, [] => p
  | p, s, e :: es =>
    ∀ s', step s e = some s' → AfterLast step R C (R s e ∧ C s ∨ ¬ R s e ∧ p) s' es

/-- What every step carries on, the steps that meet `R` starting it anew from `C`, holds
at the end of a run of what the last of these steps left. -/
theorem run_afterLast {R : σ → ε → Prop} {C : σ → Prop} {I : σ → Prop → Prop}
    (hstep : ∀ s p e s', I s p → step s e = some s' → I s' (R s e ∧ C s ∨ ¬ R s e ∧ p))
    {p : Prop} {s s' : σ} {es : List ε} (h : I s p) (hr : run step s es = some s') :
    I s' (AfterLast step R C p s es) := by
  induction es generalizing s p with
  | nil => rw [run_nil, Option.some.injEq] at hr; subst hr; exact h
  | cons e es ih =>
    obtain ⟨m, hm, hr⟩ := run_cons.mp hr
    have heq : AfterLast step R C p s (e :: es) ↔
        AfterLast step R C (R s e ∧ C s ∨ ¬ R s e ∧ p) m es := by
      constructor
      · exact fun ha => ha m hm
      · intro ha m' hm'
        obtain rfl : m = m' := Option.some.inj (hm.symm.trans hm')
        exact ha
    rw [propext heq]
    exact ih (hstep s p e m h hm) hr

end Machine

import Dockfoxprox.Lib.Machine
import Dockfoxprox.Lib.Tiered

/-! Where values come from. The history of a run is what its steps put out, and a property
of the state and of the history so far is carried along the run. In a two-tier store every
value was once put under the key it is found under, whatever way it has taken between memory
and files since, and however the operations of others came in between. -/

namespace Machine

variable {σ ε α : Type*}

/-- What the steps of a run put out, in order. -/
def trace (step : σ → ε → Option σ) (out : σ → ε → List α) : σ → List ε → List α
  | _, [] => []
  | s, e :: es => out s e ++ (step s e).elim [] fun m => trace step out m es

/-- The invariant rule with the history of the run, whose steps meet a condition. -/
theorem run_trace_along {step : σ → ε → Option σ} {out : σ → ε → List α} {I : List α → σ → Prop}
    {C : σ → ε → σ → Prop}
    (hstep : ∀ h s e s', I h s → C s e s' → step s e = some s' → I (h ++ out s e) s') {h : List α}
    {s s' : σ} {es : List ε} (hi : I h s) (hc : Along step C s es) (hr : run step s es = some s') :
    I (h ++ trace step out s es) s' := by
  induction es generalizing h s with
  | nil =>
    rw [run_nil, Option.some.injEq] at hr
    subst hr
    rwa [trace, List.append_nil]
  | cons e es ih =>
    obtain ⟨m, hm, hr⟩ := run_cons.mp hr
    obtain ⟨hce, hc⟩ := hc m hm
    have hnext := ih (hstep h s e m hi hce hm) hc hr
    rwa [List.append_assoc, show out s e ++ trace step out m es = trace step out s (e :: es) by
      rw [trace, hm, Option.elim_some]] at hnext

theorem run_trace {step : σ → ε → Option σ} {out : σ → ε → List α} {I : List α → σ → Prop}
    (hstep : ∀ h s e s', I h s → step s e = some s' → I (h ++ out s e) s') {h : List α} {s s' : σ}
    {es : List ε} (hi : I h s) (hr : run step s es = some s') :
    I (h ++ trace step out s es) s' :=
  run_trace_along (C := fun _ _ _ => True) (fun h s e s' hi _ hs => hstep h s e s' hi hs) hi
    (along_true s es) hr

/-- What was put out was put out by one of the events. -/
theorem mem_trace {step : σ → ε → Option σ} {out : σ → ε → List α} {s : σ} {es : List ε} {a : α}
    (h : a ∈ trace step out s es) : ∃ e ∈ es, ∃ m, a ∈ out m e := by
  induction es generalizing s with
  | nil => cases h
  | cons e es ih =>
    rcases List.mem_append.mp h with h | h
    · exact ⟨e, List.mem_cons_self, s, h⟩
    · cases hm : step s e with
      | none =>
        rw [hm] at h
        cases h
      | some m =>
        rw [hm] at h
        obtain ⟨e', he', hout⟩ := ih h
        exact ⟨e', List.mem_cons_of_mem e he', hout⟩

/-- The history of the events of a run, each with the state it met. -/
def visits (s : σ) (e : ε) : List (σ × ε) := [(s, e)]

theorem exists_of_mem_visits {step : σ → ε → Option σ} {s m : σ} {es : List ε} {e : ε}
    (h : (m, e) ∈ trace step visits s es) :
    ∃ pre post, es = pre ++ e :: post ∧ run step s pre = some m := by
  induction es generalizing s with
  | nil => cases h
  | cons e' es ih =>
    rcases List.mem_append.mp h with h | h
    · obtain ⟨rfl, rfl⟩ := Prod.mk.inj (List.mem_singleton.mp h)
      exact ⟨[], es, rfl, rfl⟩
    · cases hn : step s e' with
      | none =>
        rw [hn] at h
        cases h
      | some n =>
        rw [hn] at h
        obtain ⟨pre, post, rfl, hr⟩ := ih h
        exact ⟨e' :: pre, post, rfl, run_cons.mpr ⟨n, hn, hr⟩⟩

end Machine

namespace Tiered

variable {κ β : Type*} {s s' : Store κ β} {op : Op κ β} {H H' : κ → β → Prop}

/-- Every value in the store, and the one on its way to disk, was put under its key. -/
structure Sourced (H : κ → β → Prop) (s : Store κ β) : Prop where
  value : ∀ k v, s.value k = some v → H k v
  held : ∀ g, s.held = some g → H g.key g.value

theorem Sourced.mono (h : Sourced H s) (hH : ∀ k v, H k v → H' k v) : Sourced H' s :=
  ⟨fun k v hv => hH k v (h.value k v hv), fun g hg => hH _ _ (h.held g hg)⟩

theorem value_of_mem {k : κ} {id : ℕ} {v : β} (hk : s.slot k = some (.mem id v)) :
    s.value k = some v := by
  simp only [Store.value, hk]

/-- A value was there before an operation, was put by it, or was held. -/
theorem value_origin (hi : Inv s) (hs : Step s op s') {k : κ} {v : β} (hv : s'.value k = some v) :
    s.value k = some v ∨ (∃ tidy, op = .put tidy k v) ∨
      ∃ g, s.held = some g ∧ g.key = k ∧ g.value = v := by
  -- what became of a key whose slot and whose file stay
  have hkept (hk : s'.slot k = s.slot k)
      (hf : ∀ id, s.slot k = some (.disk id) → s'.file id = s.file id) : s.value k = some v :=
    (value_congr hk hf).symm.trans hv
  cases hs with
  | @put tidy k₀ w slot doomed hk hne hd =>
    by_cases he : k = k₀
    · subst he
      have hw : some w = some v := by simpa only [Store.value, hk] using hv
      obtain rfl := Option.some.inj hw
      exact .inr (.inl ⟨tidy, rfl⟩)
    · exact .inl (hkept (hne k he) fun _ _ => rfl)
  | @drop K slot doomed hk hne hd =>
    by_cases he : K k
    · simp only [Store.value, hk k he] at hv
      cases hv
    · exact .inl (hkept (hne k he) fun _ _ => rfl)
  | hold h0 hk => exact .inl hv
  | write hh hf hne => exact .inl (hkept rfl fun i hk => hne i (hi.held_ne_disk hh hk))
  | spoil hh hne => exact .inl (hkept rfl fun i hk => hne i (hi.held_ne_disk hh hk))
  | @publish k₀ id w slot published hh hk hne hp hpne =>
    by_cases he : k = k₀
    · subst he
      have hw : s.file id = some v := by simpa only [Store.value, hk] using hv
      obtain rfl : w = v := Option.some.inj ((hi.wrote _ hh rfl).symm.trans hw)
      exact .inr (.inr ⟨_, hh, rfl, rfl⟩)
    · exact .inl (hkept (hne k he) fun _ _ => rfl)
  | persist hk hf hne => exact .inl (hkept rfl fun i hd => hne i (hi.mem_ne_disk hk hd))
  | remove hd hf hne hle hge =>
    exact .inl (hkept rfl fun i hk => hne i ((hi.doomed _ hd).2 k _ hk))
  | forget hle => exact .inl hv

/-- Values keep their sources when what is put is put under its key. -/
theorem Sourced.step (h : Sourced H s) (hi : Inv s) (hs : Step s op s')
    (hput : ∀ tidy k v, op = .put tidy k v → H k v) : Sourced H s' := by
  constructor
  · intro k v hv
    rcases value_origin hi hs hv with hold | ⟨tidy, rfl⟩ | ⟨g, hg, rfl, rfl⟩
    · exact h.value k v hold
    · exact hput tidy k v rfl
    · exact h.held g hg
  · intro g hg
    cases hs with
    | hold h0 hk =>
      cases hg
      exact h.value _ _ (value_of_mem hk)
    | write hh hf hne =>
      have hold := h.held _ hh
      cases hg
      exact hold
    | spoil hh hne => cases hg
    | publish hh hk hne hp hpne => cases hg
    | put hk hne hd => exact h.held g hg
    | drop hk hne hd => exact h.held g hg
    | persist hk hf hne => exact h.held g hg
    | remove hd hf hne hle hge => exact h.held g hg
    | forget hle => exact h.held g hg

/-- An id whose file nobody will write again: whoever still reads it finds what is in it now,
or nothing. -/
structure Spent (s : Store κ β) (id : ℕ) : Prop where
  below : id < s.next
  slot : ∀ k v, s.slot k ≠ some (.mem id v)
  held : ∀ g, s.held = some g → g.id ≠ id

/-- The id of a slot on disk is spent. -/
theorem Owned.spent (h : Owned s) {k : κ} {id : ℕ} (hk : s.slot k = some (.disk id)) :
    Spent s id where
  below := h.below k _ hk
  slot := fun _ _ hk' => h.mem_ne_disk hk' hk rfl
  held := fun _ hg he => h.held_ne_disk hg hk he.symm

theorem Spent.step {id : ℕ} (h : Spent s id) (hs : Step s op s') :
    Spent s' id ∧ ∀ v, s'.file id = some v → s.file id = some v := by
  cases hs with
  | @put tidy k w slot doomed hk hne hd =>
    refine ⟨⟨Nat.lt_succ_of_lt h.below, fun k' v hx => ?_, h.held⟩, fun v hv => hv⟩
    by_cases he : k' = k
    · subst he
      have hid : s.next = id := by simpa using congrArg (Option.map Slot.id) (hk.symm.trans hx)
      exact absurd h.below (by omega)
    · exact h.slot k' v ((hne k' he).symm.trans hx)
  | @drop K slot doomed hk hne hd =>
    refine ⟨⟨h.below, fun k v hx => ?_, h.held⟩, fun v hv => hv⟩
    by_cases he : K k
    · cases (hk k he).symm.trans hx
    · exact h.slot k v ((hne k he).symm.trans hx)
  | @hold k i v h0 hk =>
    refine ⟨⟨h.below, h.slot, fun g hg => ?_⟩, fun v hv => hv⟩
    cases hg
    rintro rfl
    exact h.slot k v hk
  | write hh hf hne =>
    refine ⟨⟨h.below, h.slot, fun g hg => ?_⟩, fun v hv => ?_⟩
    · have hold := h.held _ hh
      cases hg
      exact hold
    · exact (hne id (Ne.symm (h.held _ hh))).symm.trans hv
  | spoil hh hne =>
    refine ⟨⟨h.below, h.slot, fun g hg => by cases hg⟩, fun v hv => ?_⟩
    exact (hne id (Ne.symm (h.held _ hh))).symm.trans hv
  | @publish k i w slot published hh hk hne hp hpne =>
    refine ⟨⟨h.below, fun k' v hx => ?_, fun g hg => by cases hg⟩, fun v hv => hv⟩
    by_cases he : k' = k
    · subst he
      cases hk.symm.trans hx
    · exact h.slot k' v ((hne k' he).symm.trans hx)
  | @persist k i w file hk hf hne =>
    refine ⟨⟨h.below, h.slot, h.held⟩, fun v hv => ?_⟩
    have hid : id ≠ i := by
      rintro rfl
      exact h.slot k w hk
    exact (hne id hid).symm.trans hv
  | @remove i file doomed hd hf hne hle hge =>
    refine ⟨⟨h.below, h.slot, h.held⟩, fun v hv => ?_⟩
    by_cases hid : id = i
    · subst hid
      cases hf.symm.trans hv
    · exact (hne id hid).symm.trans hv
  | forget hle => exact ⟨⟨h.below, h.slot, h.held⟩, fun v hv => hv⟩

/-- Operations one after another, that put what `H` allows. -/
inductive Ops (H : κ → β → Prop) (s : Store κ β) : Store κ β → Prop
  | refl : Ops H s s
  | tail {s' s'' : Store κ β} {op : Op κ β} (h : Ops H s s') (hs : Step s' op s'')
    (hput : ∀ tidy k v, op = .put tidy k v → H k v) : Ops H s s''

theorem Ops.single (hs : Step s op s') (hput : ∀ tidy k v, op = .put tidy k v → H k v) :
    Ops H s s' :=
  .tail .refl hs hput

theorem Ops.trans {s'' : Store κ β} (h : Ops H s s') (h' : Ops H s' s'') : Ops H s s'' := by
  induction h' with
  | refl => exact h
  | tail _ hs hput ih => exact .tail ih hs hput

theorem Ops.inv (h : Ops H s s') (hi : Inv s) : Inv s' := by
  induction h with
  | refl => exact hi
  | tail _ hs _ ih => exact ih.step hs

theorem Ops.sourced (h : Ops H s s') (hi : Inv s) (hsrc : Sourced H s) : Sourced H s' := by
  induction h with
  | refl => exact hsrc
  | tail h hs hput ih => exact ih.step (h.inv hi) hs hput

theorem Ops.spent (h : Ops H s s') {id : ℕ} (hsp : Spent s id) :
    Spent s' id ∧ ∀ v, s'.file id = some v → s.file id = some v := by
  induction h with
  | refl => exact ⟨hsp, fun v hv => hv⟩
  | tail h hs hput ih =>
    obtain ⟨hsp', hf⟩ := ih.1.step hs
    exact ⟨hsp', fun v hv => ih.2 v (hf v hv)⟩

end Tiered

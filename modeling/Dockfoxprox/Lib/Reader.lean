import Mathlib.Data.List.Forall2
import Mathlib.Data.Nat.Notation
import Mathlib.Tactic.Common

/-! Readers that take symbols off the front of a stream and may fail. A reader accepts
a relation between results and renderings when it succeeds on exactly the streams that
begin with a rendering of its result, and leaves what follows the rendering unread. -/

/-- A reader of values of `α` from a stream of symbols `σ`, failing with `ε`. -/
abbrev Reader (σ ε α : Type) := StateT (List σ) (Except ε) α

namespace Reader

variable {σ ε α β : Type}

/-- A stream cut after its first `x`, or at its end when there is none. -/
def cutAfter [DecidableEq σ] (x : σ) : List σ → List σ × List σ
  | [] => ([], [])
  | y :: ys => if y = x then ([y], ys) else (y :: (cutAfter x ys).1, (cutAfter x ys).2)

/-- The symbols up to and including the first `x`, or all of them when there is none. -/
def readUntil [DecidableEq σ] (x : σ) : Reader σ ε (List σ) := fun s => .ok (cutAfter x s)

/-- Exactly `n` symbols; a stream that ends before them fails with `e`. -/
def readExact (e : ε) (n : ℕ) : Reader σ ε (List σ) := fun s =>
  if s.length < n then .error e else .ok (s.take n, s.drop n)

/-- The same reader `n` times in a row. -/
def times (p : Reader σ ε α) : ℕ → Reader σ ε (List α)
  | 0 => pure []
  | n + 1 => do
    let a ← p
    let as ← times p n
    pure (a :: as)

/-- `p` succeeds on exactly the streams that begin with an `R`-rendering of its result. -/
def Accepts (p : Reader σ ε α) (R : α → List σ → Prop) : Prop :=
  ∀ s a rest, p s = .ok (a, rest) ↔ ∃ u, R a u ∧ s = u ++ rest

theorem bind_eq_ok {p : Reader σ ε α} {f : α → Reader σ ε β} {s rest : List σ} {b : β} :
    (p >>= f) s = .ok (b, rest) ↔ ∃ a m, p s = .ok (a, m) ∧ f a m = .ok (b, rest) := by
  constructor
  · intro h
    cases hp : p s with
    | error e => simp [bind, StateT.bind, Except.bind, hp] at h
    | ok r => exact ⟨r.1, r.2, rfl, by simpa [bind, StateT.bind, Except.bind, hp] using h⟩
  · rintro ⟨a, m, hp, hf⟩
    simpa [bind, StateT.bind, Except.bind, hp] using hf

theorem pure_eq_ok {a b : α} {s rest : List σ} :
    (pure a : Reader σ ε α) s = .ok (b, rest) ↔ a = b ∧ s = rest := by
  change Except.ok (a, s) = Except.ok (b, rest) ↔ _
  simp

theorem throw_ne_ok {e : ε} {a : α} {s rest : List σ} :
    (throw e : Reader σ ε α) s ≠ .ok (a, rest) := by
  intro h
  cases h

theorem bind_eq_error {p : Reader σ ε α} {f : α → Reader σ ε β} {s : List σ} {e : ε} :
    (p >>= f) s = .error e ↔ p s = .error e ∨ ∃ a m, p s = .ok (a, m) ∧ f a m = .error e := by
  cases hp : p s with
  | error e' => simp [bind, StateT.bind, Except.bind, hp]
  | ok r =>
    obtain ⟨a, m⟩ := r
    simp [bind, StateT.bind, Except.bind, hp]

/-- A reader repeated fails where one of its turns does. -/
theorem times_eq_error {p : Reader σ ε α} {n : ℕ} {s : List σ} {e : ε} :
    times p n s = .error e ↔
      ∃ k < n, ∃ as m, times p k s = .ok (as, m) ∧ p m = .error e := by
  induction n generalizing s with
  | zero =>
    constructor
    · intro h
      cases h
    · rintro ⟨k, hk, -⟩
      exact absurd hk (Nat.not_lt_zero k)
  | succ n ih =>
    rw [times, bind_eq_error]
    constructor
    · rintro (h | ⟨a, m, ha, h⟩)
      · exact ⟨0, Nat.succ_pos n, [], s, rfl, h⟩
      · obtain h | ⟨as, m', -, h⟩ := bind_eq_error.mp h
        · obtain ⟨k, hk, as, m', has, hm'⟩ := ih.mp h
          refine ⟨k + 1, Nat.succ_lt_succ hk, a :: as, m', ?_, hm'⟩
          exact bind_eq_ok.mpr ⟨a, m, ha, bind_eq_ok.mpr ⟨as, m', has, rfl⟩⟩
        · cases h
    · rintro ⟨k, hk, as, m, has, hm⟩
      cases k with
      | zero =>
        cases has
        exact .inl hm
      | succ k =>
        obtain ⟨a, m', ha, h⟩ := bind_eq_ok.mp has
        obtain ⟨as', m'', has', h⟩ := bind_eq_ok.mp h
        cases h
        exact .inr ⟨a, m', ha,
          bind_eq_error.mpr (.inl (ih.mpr ⟨k, Nat.lt_of_succ_lt_succ hk, as', m, has', hm⟩))⟩

namespace Accepts

variable {p : Reader σ ε α} {R : α → List σ → Prop}

theorem of_iff {S : α → List σ → Prop} (h : Accepts p R) (hRS : ∀ a u, R a u ↔ S a u) :
    Accepts p S := by
  intro s a rest
  simpa only [hRS] using h s a rest

theorem pure (a : α) : Accepts (pure a : Reader σ ε α) fun b u => b = a ∧ u = [] := by
  intro s b rest
  rw [pure_eq_ok]
  constructor
  · rintro ⟨rfl, rfl⟩
    exact ⟨[], ⟨rfl, rfl⟩, rfl⟩
  · rintro ⟨u, ⟨rfl, rfl⟩, rfl⟩
    exact ⟨rfl, rfl⟩

/-- One reader after another. -/
theorem bind {f : α → Reader σ ε β} {S : α → β → List σ → Prop} (hp : Accepts p R)
    (hf : ∀ a, Accepts (f a) (S a)) :
    Accepts (p >>= f) fun b u => ∃ a v w, R a v ∧ S a b w ∧ u = v ++ w := by
  intro s b rest
  rw [bind_eq_ok]
  constructor
  · rintro ⟨a, m, hpa, hfa⟩
    obtain ⟨v, hv, rfl⟩ := (hp s a m).mp hpa
    obtain ⟨w, hw, rfl⟩ := (hf a m b rest).mp hfa
    exact ⟨v ++ w, ⟨a, v, w, hv, hw, rfl⟩, by simp⟩
  · rintro ⟨u, ⟨a, v, w, hv, hw, rfl⟩, rfl⟩
    refine ⟨a, w ++ rest, (hp _ a _).mpr ⟨v, hv, by simp⟩, (hf a _ b rest).mpr ⟨w, hw, rfl⟩⟩

/-- A reader repeated: one rendering for each result, in order. -/
theorem times (hp : Accepts p R) (n : ℕ) :
    Accepts (Reader.times p n) fun as u =>
      as.length = n ∧ ∃ us, List.Forall₂ R as us ∧ u = us.flatten := by
  induction n with
  | zero =>
    refine (Accepts.pure []).of_iff fun as u => ?_
    constructor
    · rintro ⟨rfl, rfl⟩
      exact ⟨rfl, [], .nil, rfl⟩
    · rintro ⟨hn, us, hus, rfl⟩
      obtain rfl := List.length_eq_zero_iff.mp hn
      cases hus
      exact ⟨rfl, rfl⟩
  | succ n ih =>
    refine (hp.bind fun a => ih.bind fun as => Accepts.pure (a :: as)).of_iff fun as u => ?_
    constructor
    · rintro ⟨a, v, w, hv, ⟨bs, x, y, ⟨hlen, us, hus, rfl⟩, ⟨rfl, rfl⟩, rfl⟩, rfl⟩
      exact ⟨by simp [hlen], v :: us, .cons hv hus, by simp⟩
    · rintro ⟨hlen, us, hus, rfl⟩
      cases hus with
      | nil => simp at hlen
      | @cons a v bs us hv hus =>
        exact ⟨a, v, us.flatten, hv,
          ⟨bs, us.flatten, [], ⟨by simpa using hlen, us, hus, rfl⟩, ⟨rfl, rfl⟩, by simp⟩, by simp⟩

end Accepts

/-- A longer stream changes nothing: what was read stays, with more left unread, and so does an
error, unless it is one of `E`, those a reader meets at the end of its stream. -/
structure Steady (E : ε → Prop) (p : Reader σ ε α) : Prop where
  ok : ∀ {s a rest}, p s = .ok (a, rest) → ∀ more, p (s ++ more) = .ok (a, rest ++ more)
  error : ∀ {s e}, p s = .error e → ¬ E e → ∀ more, p (s ++ more) = .error e

namespace Steady

variable {E : ε → Prop} {p : Reader σ ε α}

theorem pure (a : α) : Steady E (pure a : Reader σ ε α) where
  ok h more := by
    obtain ⟨rfl, rfl⟩ := pure_eq_ok.mp h
    rfl
  error h := by cases h

theorem throw (e : ε) : Steady E (throw e : Reader σ ε α) where
  ok h := absurd h throw_ne_ok
  error h _ _ := h

theorem readExact {e : ε} (he : E e) (n : ℕ) : Steady E (readExact e n : Reader σ ε (List σ)) where
  ok {s a rest} h more := by
    unfold Reader.readExact at h ⊢
    split at h
    · cases h
    · rename_i hlen
      obtain ⟨rfl, rfl⟩ := Prod.mk.inj (Except.ok.inj h)
      have hle : n ≤ s.length := Nat.le_of_not_lt hlen
      rw [if_neg (by rw [List.length_append]; omega), List.take_append_of_le_length hle,
        List.drop_append_of_le_length hle]
  error {s e'} h hne := by
    unfold Reader.readExact at h
    split at h
    · obtain rfl := Except.error.inj h
      exact absurd he hne
    · cases h

theorem bind {f : α → Reader σ ε β} (hp : Steady E p) (hf : ∀ a, Steady E (f a)) :
    Steady E (p >>= f) where
  ok h more := by
    obtain ⟨a, m, ha, hb⟩ := bind_eq_ok.mp h
    exact bind_eq_ok.mpr ⟨a, m ++ more, hp.ok ha more, (hf a).ok hb more⟩
  error h hne more := by
    rcases bind_eq_error.mp h with h | ⟨a, m, ha, hb⟩
    · exact bind_eq_error.mpr (.inl (hp.error h hne more))
    · exact bind_eq_error.mpr (.inr ⟨a, m ++ more, hp.ok ha more, (hf a).error hb hne more⟩)

theorem times (hp : Steady E p) (n : ℕ) : Steady E (Reader.times p n) := by
  induction n with
  | zero => exact .pure []
  | succ n ih => exact hp.bind fun a => ih.bind fun as => .pure (a :: as)

end Steady

theorem accepts_readExact (e : ε) (n : ℕ) :
    Accepts (readExact e n : Reader σ ε (List σ)) fun a u => u = a ∧ a.length = n := by
  intro s a rest
  unfold readExact
  constructor
  · intro h
    split at h
    · cases h
    · cases h
      exact ⟨s.take n, ⟨rfl, by simp; omega⟩, by simp⟩
  · rintro ⟨u, ⟨rfl, rfl⟩, rfl⟩
    simp

section
variable [DecidableEq σ] {x : σ}

/-- A stream without `x` up to its first one. -/
theorem cutAfter_append {line : List σ} (h : x ∉ line) (rest : List σ) :
    cutAfter x (line ++ x :: rest) = (line ++ [x], rest) := by
  induction line with
  | nil => simp [cutAfter]
  | cons y line ih =>
    rw [List.mem_cons, not_or] at h
    simp [cutAfter, Ne.symm h.1, ih h.2]

/-- A cut at an `x` stays where it is. -/
theorem cutAfter_more {s : List σ} (h : (cutAfter x s).1.getLast? = some x) (more : List σ) :
    cutAfter x (s ++ more) = ((cutAfter x s).1, (cutAfter x s).2 ++ more) := by
  induction s with
  | nil => cases h
  | cons y ys ih =>
    by_cases hy : y = x
    · simp [cutAfter, hy]
    · simp only [cutAfter, if_neg hy] at h
      have hys : (cutAfter x ys).1.getLast? = some x := by
        rw [List.getLast?_cons] at h
        cases hc : (cutAfter x ys).1.getLast? with
        | none =>
          rw [hc] at h
          exact absurd (Option.some.inj h) hy
        | some z =>
          rw [hc] at h
          exact h
      simp only [List.cons_append, cutAfter, if_neg hy, ih hys]

/-- What was read and what is left make up the stream, and `x` is read only at the end. -/
theorem cutAfter_inv (s : List σ) :
    (cutAfter x s).1 ++ (cutAfter x s).2 = s ∧ x ∉ (cutAfter x s).1.dropLast ∧
      ((cutAfter x s).1 = [] → s = []) := by
  induction s with
  | nil => simp [cutAfter]
  | cons y ys ih =>
    by_cases hy : y = x
    · simp [cutAfter, hy]
    · obtain ⟨happ, hx, hnil⟩ := ih
      refine ⟨by simp [cutAfter, hy, happ], ?_, by simp [cutAfter, hy]⟩
      simp only [cutAfter, if_neg hy]
      cases hc : (cutAfter x ys).1 with
      | nil => simp
      | cons z zs =>
        rw [hc] at hx
        simp only [List.dropLast_cons_cons, List.mem_cons, not_or]
        exact ⟨Ne.symm hy, hx⟩

end

end Reader

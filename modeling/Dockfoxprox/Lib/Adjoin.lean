import Mathlib.Tactic.Common

/-! Lists that take in, one after the other, the elements they do not have yet. What a list has
is judged by a relation `r`, and the first of several related elements is the one that stays. -/

namespace Adjoin

variable {α : Type*} (r : α → α → Bool)

/-- Put `x` behind a list, unless something there is related to it. -/
def adjoin (out : List α) (x : α) : List α := if out.any fun e => r e x then out else out ++ [x]

/-- No element is related to one behind it. -/
def Distinct (l : List α) : Prop := l.Pairwise fun e x => r e x = false

variable {r} {out xs : List α} {x : α}

theorem adjoin_cases (r : α → α → Bool) (out : List α) (x : α) :
    ((∃ e ∈ out, r e x) ∧ adjoin r out x = out) ∨
      (∀ e ∈ out, r e x = false) ∧ adjoin r out x = out ++ [x] := by
  unfold adjoin
  by_cases hany : out.any fun e => r e x
  · exact .inl ⟨List.any_eq_true.mp hany, if_pos hany⟩
  · refine .inr ⟨fun e he => ?_, if_neg hany⟩
    exact Bool.eq_false_iff.mpr fun hr => hany (List.any_eq_true.mpr ⟨e, he, hr⟩)

theorem adjoin_of_mem (h : ∃ e ∈ out, r e x) : adjoin r out x = out :=
  if_pos (List.any_eq_true.mpr h)

theorem Distinct.adjoin (h : Distinct r out) (x : α) : Distinct r (adjoin r out x) := by
  obtain ⟨-, hsame⟩ | ⟨hnew, hput⟩ := adjoin_cases r out x
  · rwa [hsame]
  · rw [hput]
    refine List.pairwise_append.mpr ⟨h, List.pairwise_singleton _ _, fun e he y hy => ?_⟩
    rw [List.mem_singleton.mp hy]
    exact hnew e he

theorem Distinct.foldl (h : Distinct r out) (xs : List α) :
    Distinct r (xs.foldl (Adjoin.adjoin r) out) := by
  induction xs generalizing out with
  | nil => exact h
  | cons x xs ih => exact ih (h.adjoin x)

theorem mem_adjoin {y : α} (h : y ∈ adjoin r out x) : y ∈ out ∨ y = x := by
  obtain ⟨-, hsame⟩ | ⟨-, hput⟩ := adjoin_cases r out x
  · exact .inl (hsame ▸ h)
  · rw [hput] at h
    simpa using h

theorem mem_foldl {y : α} (h : y ∈ xs.foldl (adjoin r) out) : y ∈ out ∨ y ∈ xs := by
  induction xs generalizing out with
  | nil => exact .inl h
  | cons x xs ih =>
    obtain hy | hy := ih h
    · obtain hy | rfl := mem_adjoin hy
      · exact .inl hy
      · exact .inr List.mem_cons_self
    · exact .inr (List.mem_cons_of_mem x hy)

/-- Behind the list stand those elements of `xs` that nothing in it is related to, without the
later ones of related elements. -/
theorem foldl_eq (out xs : List α) : xs.foldl (adjoin r) out =
    out ++ (xs.filter fun x => !out.any fun e => r e x).eraseDupsBy fun x e => r e x := by
  induction xs generalizing out with
  | nil => simp
  | cons x xs ih =>
    rw [List.foldl_cons, ih, List.filter_cons, adjoin]
    by_cases hany : out.any fun e => r e x
    · simp only [hany, if_true, Bool.not_true, Bool.false_eq_true, if_false]
    · rw [if_neg hany, if_pos (by simp [hany]), List.eraseDupsBy_cons, List.append_assoc,
        List.singleton_append, List.filter_filter]
      congr 3
      apply List.filter_congr
      intro y _
      simp [List.any_append, Bool.and_comm]

theorem prefix_foldl (out xs : List α) : out <+: xs.foldl (adjoin r) out := by
  rw [foldl_eq]
  exact List.prefix_append _ _

theorem exists_mem_foldl (hrefl : ∀ x, r x x) {x : α} (hx : x ∈ xs) :
    ∃ e ∈ xs.foldl (adjoin r) out, r e x := by
  induction xs generalizing out with
  | nil => cases hx
  | cons y xs ih =>
    obtain rfl | hx := List.mem_cons.mp hx
    · -- `x` itself is there, or what kept it out
      have hmem : ∃ e ∈ adjoin r out x, r e x := by
        obtain ⟨hold, hsame⟩ | ⟨-, hput⟩ := adjoin_cases r out x
        · rwa [hsame]
        · rw [hput]
          exact ⟨x, by simp, hrefl x⟩
      obtain ⟨e, he, hr⟩ := hmem
      exact ⟨e, (prefix_foldl _ xs).subset he, hr⟩
    · exact ih hx

theorem foldl_of_mem (h : ∀ x ∈ xs, ∃ e ∈ out, r e x) : xs.foldl (adjoin r) out = out := by
  induction xs with
  | nil => rfl
  | cons x xs ih =>
    rw [List.foldl_cons, adjoin_of_mem (h x List.mem_cons_self)]
    exact ih fun y hy => h y (List.mem_cons_of_mem x hy)

theorem foldl_of_distinct (h : Distinct r (out ++ xs)) : xs.foldl (adjoin r) out = out ++ xs := by
  induction xs generalizing out with
  | nil => rw [List.append_nil, List.foldl_nil]
  | cons x xs ih =>
    have hput : adjoin r out x = out ++ [x] := by
      obtain ⟨⟨e, he, hr⟩, -⟩ | ⟨-, hput⟩ := adjoin_cases r out x
      · rw [(List.pairwise_append.mp h).2.2 e he x List.mem_cons_self] at hr
        cases hr
      · exact hput
    have happend : out ++ x :: xs = out ++ [x] ++ xs := by simp
    rw [List.foldl_cons, hput, happend]
    exact ih (happend ▸ h)

/-- To take in a result again changes nothing. -/
theorem foldl_foldl (hrefl : ∀ x, r x x) (h : Distinct r out) (xs : List α) :
    (xs.foldl (adjoin r) out).foldl (adjoin r) out = xs.foldl (adjoin r) out := by
  obtain ⟨new, hnew⟩ := prefix_foldl (r := r) out xs
  have hd := h.foldl xs
  rw [← hnew] at hd ⊢
  rw [List.foldl_append, foldl_of_mem fun x hx => ⟨x, hx, hrefl x⟩, foldl_of_distinct hd]

end Adjoin

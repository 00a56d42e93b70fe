import Mathlib.Algebra.BigOperators.Group.List.Basic
import Mathlib.Algebra.Group.Pi.Basic
import Mathlib.Algebra.Group.Prod
import Mathlib.Data.List.AList
import Mathlib.Data.List.Induction

/-! Sums over the entries of a finite map and how the map operations change
them. Nothing here depends on the order in which a map lists its entries. -/

namespace MapSum

open List

variable {α β M : Type*}

/-- Keep the entries that satisfy `p`. -/
def retain (p : α → β → Bool) (m : AList fun _ : α => β) : AList fun _ : α => β :=
  ⟨m.entries.filter fun e => p e.1 e.2, m.nodupKeys.sublist filter_sublist⟩

/-- The sum of `f` over the entries of a map. -/
def total [AddCommMonoid M] (f : α → β → M) (m : AList fun _ : α => β) : M :=
  (m.entries.map fun e => f e.1 e.2).sum

/-- A loop over the entries of a map whose every iteration moves `R` on by the
contribution of one entry moves it on by their sum. -/
theorem foldl_total [AddCommMonoid M] {γ : Type*} {R : γ → M → Prop} {f : γ → α → β → γ}
    {c : α → β → M} (hf : ∀ g x k v, R g x → R (f g k v) (x + c k v))
    (m : AList fun _ : α => β) {g : γ} {x : M} (h : R g x) : R (m.foldl f g) (x + total c m) := by
  unfold AList.foldl total
  induction m.entries generalizing g x with
  | nil => simpa using h
  | cons e es ih =>
    rw [foldl_cons, map_cons, sum_cons, ← add_assoc]
    exact ih (hf g x e.1 e.2 h)

/-- The sum of functions, at one point. -/
theorem total_apply [AddCommMonoid M] {ι : Type*} (f : α → β → ι → M) (m : AList fun _ : α => β)
    (i : ι) : total f m i = total (fun k v => f k v i) m := by
  unfold total
  induction m.entries with
  | nil => rfl
  | cons e es ih => simp only [map_cons, sum_cons, Pi.add_apply, ih]

theorem total_mono {f g : α → β → ℕ} (h : ∀ k v, f k v ≤ g k v) (m : AList fun _ : α => β) :
    total f m ≤ total g m := by
  unfold total
  induction m.entries with
  | nil => rfl
  | cons e es ih =>
    simp only [map_cons, sum_cons]
    exact Nat.add_le_add (h e.1 e.2) ih

/-- Two sums in one loop. -/
theorem total_prod {N : Type*} [AddCommMonoid M] [AddCommMonoid N] (f : α → β → M) (g : α → β → N)
    (m : AList fun _ : α => β) :
    total (fun k v => (f k v, g k v)) m = (total f m, total g m) := by
  unfold total
  induction m.entries with
  | nil => rfl
  | cons e es ih => simp only [map_cons, sum_cons, ih, Prod.mk_add_mk]

/-- A loop over the entries of a map keeps what each iteration keeps. -/
theorem foldl_rule {γ : Type*} {P : γ → Prop} {f : γ → α → β → γ} (m : AList fun _ : α => β)
    (hf : ∀ g e, e ∈ m.entries → P g → P (f g e.1 e.2)) {g : γ} (h : P g) : P (m.foldl f g) := by
  unfold AList.foldl
  generalize m.entries = es at hf
  induction es generalizing g with
  | nil => exact h
  | cons e es ih => exact ih (hf g e (by simp) h) fun g e' he => hf g e' (by simp [he])

/-- A loop whose iterations put what they make of their entries before what `look` lists. -/
theorem foldl_collect {γ δ : Type*} {P : γ → Prop} (look : γ → List δ) (w : α → β → Option δ)
    {f : γ → α → β → γ} (hf : ∀ g k v, P g → P (f g k v) ∧ look (f g k v) = (w k v).toList ++ look g)
    (m : AList fun _ : α => β) {g : γ} (h : P g) :
    P (m.foldl f g) ∧
      look (m.foldl f g) = (m.entries.filterMap fun e => w e.1 e.2).reverse ++ look g := by
  unfold AList.foldl
  induction m.entries generalizing g with
  | nil => exact ⟨h, rfl⟩
  | cons e es ih =>
    obtain ⟨hP, hlook⟩ := hf g e.1 e.2 h
    rw [foldl_cons]
    refine ⟨(ih hP).1, (ih hP).2.trans ?_⟩
    rw [hlook]
    cases hw : w e.1 e.2 with
    | none => simp only [filterMap_cons, hw, Option.toList_none, nil_append]
    | some x =>
      simp only [filterMap_cons, hw, Option.toList_some, reverse_cons, append_assoc]

variable [DecidableEq α]

theorem mem_entries {m : AList fun _ : α => β} {k : α} {v : β} :
    (⟨k, v⟩ : Sigma fun _ : α => β) ∈ m.entries ↔ m.lookup k = some v :=
  AList.mem_lookup_iff.symm

theorem lookup_insert_apply (m : AList fun _ : α => β) (k k' : α) (v : β) :
    (m.insert k v).lookup k' = if k' = k then some v else m.lookup k' := by
  by_cases h : k' = k
  · subst h; simp
  · rw [if_neg h, AList.lookup_insert_ne h]

theorem lookup_erase_apply (m : AList fun _ : α => β) (k k' : α) :
    (m.erase k).lookup k' = if k' = k then none else m.lookup k' := by
  by_cases h : k' = k
  · subst h; simp
  · rw [if_neg h, AList.lookup_erase_ne h]

theorem lookup_of_retain {p : α → β → Bool} {m : AList fun _ : α => β} {k : α} {v : β}
    (h : (retain p m).lookup k = some v) : m.lookup k = some v ∧ p k v := by
  obtain ⟨hm, hp⟩ := mem_filter.mp (mem_entries.mpr h)
  exact ⟨mem_entries.mp hm, hp⟩

theorem lookup_retain {p : α → β → Bool} {m : AList fun _ : α => β} {k : α} {v : β}
    (h : m.lookup k = some v) (hp : p k v) : (retain p m).lookup k = some v :=
  mem_entries.mp (mem_filter.mpr ⟨mem_entries.mpr h, hp⟩)

theorem lookup_retain_apply (p : α → β → Bool) (m : AList fun _ : α => β) (k : α) :
    (retain p m).lookup k = (m.lookup k).filter (p k) := by
  cases h : m.lookup k with
  | none =>
    cases hr : (retain p m).lookup k with
    | none => rfl
    | some v => rw [(lookup_of_retain hr).1] at h; cases h
  | some v =>
    by_cases hp : p k v
    · rw [lookup_retain h hp, Option.filter_some, if_pos hp]
    · rw [Option.filter_some, if_neg hp]
      cases hr : (retain p m).lookup k with
      | none => rfl
      | some w =>
        obtain ⟨hm, hw⟩ := lookup_of_retain hr
        rw [h, Option.some.injEq] at hm
        subst hm
        exact absurd hw hp

/-- Maps that tell the same are the same up to the order of their entries. -/
theorem entries_perm {m m' : AList fun _ : α => β} (h : ∀ k, m.lookup k = m'.lookup k) :
    m.entries.Perm m'.entries :=
  lookup_ext m.nodupKeys m'.nodupKeys fun k v => by rw [← AList.lookup, h k, AList.lookup]

theorem total_congr [AddCommMonoid M] (f : α → β → M) {m m' : AList fun _ : α => β}
    (h : ∀ k, m.lookup k = m'.lookup k) : total f m = total f m' :=
  ((entries_perm h).map _).sum_eq

/-- A loop that sets what it computes from each entry under its key. -/
theorem foldl_lookup {γ δ : Type*} {f : γ → α → β → γ} (look : γ → α → Option δ) (w : α → β → δ)
    (hf : ∀ g k v k', look (f g k v) k' = if k' = k then some (w k v) else look g k')
    (m : AList fun _ : α => β) (g : γ) (k : α) :
    look (m.foldl f g) k = ((m.lookup k).map (w k)).or (look g k) := by
  unfold AList.foldl AList.lookup
  have hn := m.nodupKeys
  generalize m.entries = es at hn
  induction es generalizing g with
  | nil => rfl
  | cons e es ih =>
    obtain ⟨k', v⟩ := e
    obtain ⟨hk, hn⟩ := nodupKeys_cons.mp hn
    rw [foldl_cons, ih _ hn, hf]
    by_cases h : k = k'
    · subst h
      rw [dlookup_cons_eq, dlookup_eq_none.mpr hk]
      simp
    · rw [dlookup_cons_ne _ _ h, if_neg h]

/-- Insert an entry if there is one. -/
def put (m : AList fun _ : α => β) : Option (α × β) → AList fun _ : α => β
  | some (k, v) => m.insert k v
  | none => m

/-- A loop that puts entries into a map, each of which `m` has. -/
theorem lookup_foldl_put {γ : Type*} {f : γ → Option (α × β)} {l : List γ} {m : α → Option β}
    (hsound : ∀ e ∈ l, ∀ k v, f e = some (k, v) → m k = some v) {k : α}
    {g : AList fun _ : α => β}
    (h : g.lookup k = m k ∨ ∃ e ∈ l, ∃ v, f e = some (k, v)) :
    (l.foldl (fun g e => put g (f e)) g).lookup k = m k := by
  induction l generalizing g with
  | nil =>
    rcases h with h | ⟨e, he, -⟩
    · exact h
    · cases he
  | cons e l ih =>
    rw [foldl_cons]
    refine ih (fun e' he' => hsound e' (mem_cons_of_mem e he')) ?_
    have hsame (hne : ∀ v, f e ≠ some (k, v)) : (put g (f e)).lookup k = g.lookup k := by
      cases hf : f e with
      | none => rfl
      | some p =>
        have hk : k ≠ p.1 := fun he => hne p.2 (by rw [hf, he])
        exact AList.lookup_insert_ne hk
    by_cases he : ∃ v, f e = some (k, v)
    · obtain ⟨v, hv⟩ := he
      refine .inl ?_
      rw [hv, hsound e mem_cons_self k v hv]
      exact AList.lookup_insert g
    · have hne : ∀ v, f e ≠ some (k, v) := fun v hv => he ⟨v, hv⟩
      rcases h with h | ⟨e', hmem, v, hv⟩
      · exact .inl ((hsame hne).trans h)
      · rcases mem_cons.mp hmem with rfl | hmem
        · exact absurd ⟨v, hv⟩ he
        · exact .inr ⟨e', hmem, v, hv⟩

/-- The last entry for a key is the one that a loop of puts leaves under it. -/
theorem lookup_foldl_put_iff {γ : Type*} {f : γ → Option (α × β)} {l : List γ} {k : α} {v : β} :
    (l.foldl (fun g e => put g (f e)) ∅).lookup k = some v ↔
      ∃ pre e post, l = pre ++ e :: post ∧ f e = some (k, v) ∧
        ∀ e' ∈ post, ∀ w, f e' ≠ some (k, w) := by
  induction l using List.reverseRecOn with
  | nil =>
    constructor
    · intro h
      cases h
    · rintro ⟨pre, e, post, h, -⟩
      cases pre <;> cases h
  | append_singleton l e ih =>
    rw [foldl_append, foldl_cons, foldl_nil]
    constructor
    · intro h
      by_cases he : ∃ w, f e = some (k, w)
      · obtain ⟨w, hw⟩ := he
        rw [hw, put, AList.lookup_insert] at h
        cases h
        exact ⟨l, e, [], rfl, hw, nofun⟩
      · have hl : (l.foldl (fun g e => put g (f e)) ∅).lookup k = some v := by
          cases hf : f e with
          | none => rwa [hf] at h
          | some p =>
            have hk : k ≠ p.1 := fun hk => he ⟨p.2, by rw [hf, hk]⟩
            rwa [hf, put, AList.lookup_insert_ne hk] at h
        obtain ⟨pre, e', post, rfl, hv, hpost⟩ := ih.mp hl
        refine ⟨pre, e', post ++ [e], by simp, hv, fun x hx => ?_⟩
        obtain hx | hx := mem_append.mp hx
        · exact hpost x hx
        · obtain rfl := mem_singleton.mp hx
          exact fun w hw => he ⟨w, hw⟩
    · rintro ⟨pre, e', post, heq, hv, hpost⟩
      obtain rfl | ⟨post, x, rfl⟩ := post.eq_nil_or_concat
      · obtain ⟨rfl, he⟩ := append_inj' heq rfl
        cases he
        rw [hv]
        exact AList.lookup_insert _
      · rw [concat_eq_append] at heq hpost
        rw [← cons_append, ← append_assoc] at heq
        obtain ⟨rfl, he⟩ := append_inj' heq rfl
        cases he
        have hl := ih.mpr ⟨pre, e', post, rfl, hv, fun y hy => hpost y (mem_append_left _ hy)⟩
        cases hf : f e with
        | none => rwa [put]
        | some p =>
          have hk : k ≠ p.1 := fun hk => hpost e (by simp) p.2 (by rw [hf, hk])
          rw [put, AList.lookup_insert_ne hk]
          exact hl

/-- Functions that agree on the entries of a map have the same sum. -/
theorem total_eq_of_entries [AddCommMonoid M] {f g : α → β → M} {m : AList fun _ : α => β}
    (h : ∀ k v, m.lookup k = some v → f k v = g k v) : total f m = total g m :=
  congrArg sum (map_congr_left fun e he => h e.1 e.2 (mem_entries.mp he))

section
variable [AddCommMonoid M] (f : α → β → M) (m : AList fun _ : α => β)

/-- What one key contributes to the sum. -/
def share (k : α) : M := (m.lookup k).elim 0 (f k)

theorem total_eq_erase (k : α) : total f m = share f m k + total f (m.erase k) := by
  by_cases h : k ∈ m
  · obtain ⟨v, l, r, hl, he, hk⟩ := exists_of_kerase (AList.mem_keys.mp h)
    have hv : m.lookup k = some v := by
      rw [← mem_entries, he]
      simp
    have hr : (m.erase k).entries = l ++ r := hk
    simp only [total, share, hv, hr, Option.elim_some, he, map_append, map_cons, sum_append,
      sum_cons]
    rw [← add_assoc, ← add_assoc, add_comm (f k v)]
  · have hn : m.lookup k = none := AList.lookup_eq_none.mpr h
    have he : (m.erase k).entries = m.entries := kerase_of_notMem_keys h
    simp only [share, hn, Option.elim_none, zero_add, total, he]

theorem total_insert (k : α) (v : β) :
    total f (m.insert k v) = f k v + total f (m.erase k) := by
  simp only [total, AList.entries_insert, map_cons, sum_cons]
  rfl

/-- Replacing an entry moves its old contribution out and the new one in. -/
theorem total_insert_add_share (k : α) (v : β) :
    total f (m.insert k v) + share f m k = total f m + f k v := by
  rw [total_insert, total_eq_erase f m k, add_assoc, add_comm (total f (m.erase k)), add_comm]

end

end MapSum

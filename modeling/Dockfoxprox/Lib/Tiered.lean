import Mathlib.Data.Nat.Notation
import Mathlib.Tactic.Common

/-! Two-tier stores. Every slot of the store carries an id of its own, and its value is in
memory or in the file of that id. A value moves to disk in three steps: it is taken hold
of, its file is written, and the slot is published. Files that are no longer wanted are
doomed first and removed later. The invariant says that the slots on disk keep their
files through any interleaving of these steps. -/

namespace Tiered

variable {κ β : Type*}

inductive Slot (β : Type*) where
  | mem (id : ℕ) (value : β)
  | disk (id : ℕ)

def Slot.id : Slot β → ℕ
  | .mem id _ => id
  | .disk id => id

@[simp] theorem Slot.id_mem (id : ℕ) (v : β) : (Slot.mem id v).id = id := rfl

@[simp] theorem Slot.id_disk (id : ℕ) : (Slot.disk id : Slot β).id = id := rfl

/-- A value on its way to disk: where it was taken from, and whether its file is written. -/
structure Hold (κ β : Type*) where
  key : κ
  id : ℕ
  value : β
  written : Bool

/-- `published` is a history: the value each slot had when it moved to disk. -/
structure Store (κ β : Type*) where
  slot : κ → Option (Slot β)
  next : ℕ
  file : ℕ → Option β
  doomed : ℕ → Prop
  held : Option (Hold κ β)
  published : ℕ → Option β

inductive Op (κ β : Type*) where
  | put (tidy : Bool) (k : κ) (v : β)
  | drop (K : κ → Prop)
  | hold (k : κ)
  | write
  | spoil
  | publish
  | persist (k : κ)
  | remove (id : ℕ)
  | forget

/-- What the operations do. A `put` takes a fresh id, and dooms the file of the slot it
replaces if it is `tidy`. A failed write may leave anything in its file. A slot in memory
may have its value copied to its file. -/
inductive Step (s : Store κ β) : Op κ β → Store κ β → Prop
  | put {tidy : Bool} {k : κ} {v : β} {slot : κ → Option (Slot β)} {doomed : ℕ → Prop}
      (hk : slot k = some (.mem s.next v)) (hne : ∀ k', k' ≠ k → slot k' = s.slot k')
      (hd : ∀ id, doomed id ↔ s.doomed id ∨ tidy ∧ s.slot k = some (.disk id)) :
    Step s (.put tidy k v) { s with slot := slot, next := s.next + 1, doomed := doomed }
  | drop {K : κ → Prop} {slot : κ → Option (Slot β)} {doomed : ℕ → Prop}
      (hk : ∀ k, K k → slot k = none) (hne : ∀ k, ¬ K k → slot k = s.slot k)
      (hd : ∀ id, doomed id ↔ s.doomed id ∨ ∃ k, K k ∧ s.slot k = some (.disk id)) :
    Step s (.drop K) { s with slot := slot, doomed := doomed }
  | hold {k : κ} {id : ℕ} {v : β} (h0 : s.held = none) (hk : s.slot k = some (.mem id v)) :
    Step s (.hold k) { s with held := some ⟨k, id, v, false⟩ }
  | write {k : κ} {id : ℕ} {v : β} {file : ℕ → Option β} (hh : s.held = some ⟨k, id, v, false⟩)
      (hf : file id = some v) (hne : ∀ i, i ≠ id → file i = s.file i) :
    Step s .write { s with file := file, held := some ⟨k, id, v, true⟩ }
  | spoil {k : κ} {id : ℕ} {v : β} {file : ℕ → Option β} (hh : s.held = some ⟨k, id, v, false⟩)
      (hne : ∀ i, i ≠ id → file i = s.file i) :
    Step s .spoil { s with file := file, held := none }
  | publish {k : κ} {id : ℕ} {v : β} {slot : κ → Option (Slot β)} {published : ℕ → Option β}
      (hh : s.held = some ⟨k, id, v, true⟩) (hk : slot k = some (.disk id))
      (hne : ∀ k', k' ≠ k → slot k' = s.slot k') (hp : published id = some v)
      (hpne : ∀ i, i ≠ id → published i = s.published i) :
    Step s .publish { s with slot := slot, held := none, published := published }
  | persist {k : κ} {id : ℕ} {v : β} {file : ℕ → Option β} (hk : s.slot k = some (.mem id v))
      (hf : file id = some v) (hne : ∀ i, i ≠ id → file i = s.file i) :
    Step s (.persist k) { s with file := file }
  | remove {id : ℕ} {file : ℕ → Option β} {doomed : ℕ → Prop} (hd : s.doomed id)
      (hf : file id = none) (hne : ∀ i, i ≠ id → file i = s.file i)
      (hle : ∀ i, doomed i → s.doomed i) (hge : ∀ i, i ≠ id → s.doomed i → doomed i) :
    Step s (.remove id) { s with file := file, doomed := doomed }
  | forget {doomed : ℕ → Prop} (hle : ∀ i, doomed i → s.doomed i) :
    Step s .forget { s with doomed := doomed }

/-- What a held value has to itself: an id that no file removal is after, and that no slot
carries but the one it was taken from. -/
structure HoldOk (s : Store κ β) (h : Hold κ β) : Prop where
  below : h.id < s.next
  kept : ¬ s.doomed h.id
  unique : ∀ k x, s.slot k = some x → x.id = h.id → k = h.key ∧ x = .mem h.id h.value

/-- Who owns which id, whatever the files hold. -/
structure Owned (s : Store κ β) : Prop where
  below : ∀ k x, s.slot k = some x → x.id < s.next
  distinct : ∀ k k' x x', s.slot k = some x → s.slot k' = some x' → x.id = x'.id → k = k'
  doomed : ∀ id, s.doomed id → id < s.next ∧ ∀ k x, s.slot k = some x → x.id ≠ id
  held : ∀ h, s.held = some h → HoldOk s h

structure Inv (s : Store κ β) : Prop extends Owned s where
  filed : ∀ k id, s.slot k = some (.disk id) → ∃ v, s.file id = some v ∧ s.published id = some v
  wrote : ∀ h, s.held = some h → h.written → s.file h.id = some h.value

section
variable {s : Store κ β}

/-- Ids are owned as before when files come and go, a file is written out and a removal is
done with. -/
theorem Owned.of_slots {s' : Store κ β} (h : Owned s) (hs : s'.slot = s.slot)
    (hn : s'.next = s.next) (hd : ∀ id, s'.doomed id → s.doomed id)
    (hh : ∀ g, s'.held = some g → ∃ b, s.held = some { g with written := b }) : Owned s' := by
  refine ⟨?_, ?_, fun id hi => ?_, fun g hg => ?_⟩
  · rw [hs, hn]
    exact h.below
  · rw [hs]
    exact h.distinct
  · rw [hs, hn]
    exact h.doomed id (hd id hi)
  · obtain ⟨b, hb⟩ := hh g hg
    obtain ⟨hlt, hkept, huniq⟩ := h.held _ hb
    refine ⟨hn ▸ hlt, fun hi => hkept (hd _ hi), ?_⟩
    rw [hs]
    exact huniq

theorem Owned.put {tidy : Bool} {k : κ} {v : β} {slot : κ → Option (Slot β)} {doomed : ℕ → Prop}
    (h : Owned s) (hk : slot k = some (.mem s.next v)) (hne : ∀ k', k' ≠ k → slot k' = s.slot k')
    (hd : ∀ id, doomed id ↔ s.doomed id ∨ tidy ∧ s.slot k = some (.disk id)) :
    Owned { s with slot := slot, next := s.next + 1, doomed := doomed } := by
  -- a slot after the step is the new one, with the fresh id, or an old one
  have hcase {k' x} (hx : slot k' = some x) :
      (k' = k ∧ x = .mem s.next v) ∨ (k' ≠ k ∧ s.slot k' = some x) := by
    by_cases he : k' = k
    · subst he
      rw [hk] at hx
      exact .inl ⟨rfl, (Option.some.inj hx).symm⟩
    · exact .inr ⟨he, hne k' he ▸ hx⟩
  constructor
  · intro k' x hx
    rcases hcase hx with ⟨-, rfl⟩ | ⟨-, hx⟩
    · exact Nat.lt_succ_self _
    · exact Nat.lt_succ_of_lt (h.below k' x hx)
  · intro k1 k2 x1 x2 h1 h2 hid
    rcases hcase h1 with ⟨rfl, rfl⟩ | ⟨-, h1⟩ <;> rcases hcase h2 with ⟨rfl, rfl⟩ | ⟨-, h2⟩
    · rfl
    · exact absurd (h.below _ _ h2) (by simp [← hid])
    · exact absurd (h.below _ _ h1) (by simp [hid])
    · exact h.distinct _ _ _ _ h1 h2 hid
  · intro id hi
    rcases (hd id).mp hi with hi | ⟨-, hi⟩
    · obtain ⟨hlt, hfree⟩ := h.doomed id hi
      refine ⟨Nat.lt_succ_of_lt hlt, fun k' x hx => ?_⟩
      rcases hcase hx with ⟨-, rfl⟩ | ⟨-, hx⟩
      · exact Nat.ne_of_gt hlt
      · exact hfree k' x hx
    · have hlt := h.below _ _ hi
      refine ⟨Nat.lt_succ_of_lt hlt, fun k' x hx => ?_⟩
      rcases hcase hx with ⟨-, rfl⟩ | ⟨hk', hx⟩
      · exact Nat.ne_of_gt hlt
      · exact fun he => hk' (h.distinct k' k x _ hx hi he)
  · intro g hg
    obtain ⟨hlt, hkept, huniq⟩ := h.held g hg
    refine ⟨Nat.lt_succ_of_lt hlt, fun hi => ?_, fun k' x hx hid => ?_⟩
    · rcases (hd g.id).mp hi with hi | ⟨-, hi⟩
      · exact hkept hi
      · cases (huniq k _ hi rfl).2
    · rcases hcase hx with ⟨-, rfl⟩ | ⟨-, hx⟩
      · exact absurd hlt (by simp [← hid])
      · exact huniq k' x hx hid

theorem Owned.drop {K : κ → Prop} {slot : κ → Option (Slot β)} {doomed : ℕ → Prop} (h : Owned s)
    (hk : ∀ k, K k → slot k = none) (hne : ∀ k, ¬ K k → slot k = s.slot k)
    (hd : ∀ id, doomed id ↔ s.doomed id ∨ ∃ k, K k ∧ s.slot k = some (.disk id)) :
    Owned { s with slot := slot, doomed := doomed } := by
  have hcase {k x} (hx : slot k = some x) : ¬ K k ∧ s.slot k = some x := by
    by_cases he : K k
    · rw [hk k he] at hx
      cases hx
    · exact ⟨he, hne k he ▸ hx⟩
  constructor
  · exact fun k x hx => h.below k x (hcase hx).2
  · exact fun k1 k2 x1 x2 h1 h2 hid => h.distinct _ _ _ _ (hcase h1).2 (hcase h2).2 hid
  · intro id hi
    rcases (hd id).mp hi with hi | ⟨k, hK, hi⟩
    · obtain ⟨hlt, hfree⟩ := h.doomed id hi
      exact ⟨hlt, fun k x hx => hfree k x (hcase hx).2⟩
    · refine ⟨h.below _ _ hi, fun k' x hx he => (hcase hx).1 ?_⟩
      rw [h.distinct k' k x _ (hcase hx).2 hi he]
      exact hK
  · intro g hg
    obtain ⟨hlt, hkept, huniq⟩ := h.held g hg
    refine ⟨hlt, fun hi => ?_, fun k x hx => huniq k x (hcase hx).2⟩
    rcases (hd g.id).mp hi with hi | ⟨k, -, hi⟩
    · exact hkept hi
    · cases (huniq k _ hi rfl).2

theorem Owned.hold {k : κ} {id : ℕ} {v : β} (h : Owned s) (hk : s.slot k = some (.mem id v)) :
    Owned { s with held := some ⟨k, id, v, false⟩ } := by
  refine ⟨h.below, h.distinct, h.doomed, fun g hg => ?_⟩
  cases hg
  refine ⟨h.below k _ hk, fun hi => (h.doomed id hi).2 k _ hk rfl, fun k' x hx hid => ?_⟩
  obtain rfl := h.distinct k' k x _ hx hk hid
  rw [hk] at hx
  exact ⟨rfl, (Option.some.inj hx).symm⟩

theorem Owned.publish {k : κ} {id : ℕ} {v : β} {slot : κ → Option (Slot β)}
    {published : ℕ → Option β} (h : Owned s) (hh : s.held = some ⟨k, id, v, true⟩)
    (hk : slot k = some (.disk id)) (hne : ∀ k', k' ≠ k → slot k' = s.slot k') :
    Owned { s with slot := slot, held := none, published := published } := by
  obtain ⟨hlt, hkept, huniq⟩ := h.held _ hh
  have hcase {k' x} (hx : slot k' = some x) :
      (k' = k ∧ x = .disk id) ∨ (k' ≠ k ∧ s.slot k' = some x) := by
    by_cases he : k' = k
    · subst he
      rw [hk] at hx
      exact .inl ⟨rfl, (Option.some.inj hx).symm⟩
    · exact .inr ⟨he, hne k' he ▸ hx⟩
  constructor
  · intro k' x hx
    rcases hcase hx with ⟨-, rfl⟩ | ⟨-, hx⟩
    · exact hlt
    · exact h.below k' x hx
  · intro k1 k2 x1 x2 h1 h2 hid
    rcases hcase h1 with ⟨rfl, rfl⟩ | ⟨n1, h1⟩ <;> rcases hcase h2 with ⟨rfl, rfl⟩ | ⟨n2, h2⟩
    · rfl
    · exact absurd (huniq k2 x2 h2 hid.symm).1 n2
    · exact absurd (huniq k1 x1 h1 hid).1 n1
    · exact h.distinct _ _ _ _ h1 h2 hid
  · intro i hi
    obtain ⟨hb, hfree⟩ := h.doomed i hi
    refine ⟨hb, fun k' x hx => ?_⟩
    rcases hcase hx with ⟨-, rfl⟩ | ⟨-, hx⟩
    · rintro rfl
      exact hkept hi
    · exact hfree k' x hx
  · exact fun g hg => by cases hg

/-- Every operation keeps ids owned. -/
theorem Owned.step {op : Op κ β} {s' : Store κ β} (h : Owned s) (hs : Step s op s') : Owned s' := by
  cases hs with
  | put hk hne hd => exact h.put hk hne hd
  | drop hk hne hd => exact h.drop hk hne hd
  | hold h0 hk => exact h.hold hk
  | write hh hf hne =>
    refine h.of_slots rfl rfl (fun _ hi => hi) fun g hg => ?_
    cases hg
    exact ⟨false, hh⟩
  | spoil hh hne => exact h.of_slots rfl rfl (fun _ hi => hi) fun g hg => by cases hg
  | publish hh hk hne hp hpne => exact h.publish hh hk hne
  | persist hk hf hne => exact h.of_slots rfl rfl (fun _ hi => hi) fun g hg => ⟨g.written, hg⟩
  | remove hd hf hne hle hge => exact h.of_slots rfl rfl hle fun g hg => ⟨g.written, hg⟩
  | forget hle => exact h.of_slots rfl rfl hle fun g hg => ⟨g.written, hg⟩

/-- The id of a held value is that of no slot on disk. -/
theorem Owned.held_ne_disk {g : Hold κ β} (h : Owned s) (hg : s.held = some g) {k : κ} {id : ℕ}
    (hk : s.slot k = some (.disk id)) : id ≠ g.id := by
  intro he
  cases ((h.held g hg).unique k _ hk he).2

/-- The id of a slot in memory is that of no slot on disk. -/
theorem Owned.mem_ne_disk (h : Owned s) {k k' : κ} {id id' : ℕ} {v : β}
    (hk : s.slot k = some (.mem id v)) (hk' : s.slot k' = some (.disk id')) : id' ≠ id := by
  intro he
  obtain rfl := h.distinct k' k _ _ hk' hk he
  rw [hk] at hk'
  cases hk'

/-- A store with nothing in it. -/
theorem Inv.empty (hs : ∀ k, s.slot k = none) (hd : ∀ id, ¬ s.doomed id) (hh : s.held = none) :
    Inv s := by
  refine ⟨⟨fun k x hk => ?_, fun k k' x x' hk => ?_, fun id hi => absurd hi (hd id), fun h hg => ?_⟩,
    fun k id hk => ?_, fun h hg => ?_⟩
  · cases (hs k).symm.trans hk
  · cases (hs k).symm.trans hk
  · cases hh.symm.trans hg
  · cases (hs k).symm.trans hk
  · cases hh.symm.trans hg

/-- Slots on disk keep their files when no file of theirs is touched. -/
theorem Inv.filed_of_files {s' : Store κ β} (h : Inv s) (hp : s'.published = s.published)
    (hs : ∀ k id, s'.slot k = some (.disk id) → s.slot k = some (.disk id))
    (hf : ∀ k id, s.slot k = some (.disk id) → s'.file id = s.file id) (k : κ) (id : ℕ)
    (hk : s'.slot k = some (.disk id)) : ∃ v, s'.file id = some v ∧ s'.published id = some v := by
  rw [hf k id (hs k id hk), hp]
  exact h.filed k id (hs k id hk)

/-- Every operation keeps the invariant. -/
theorem Inv.step {op : Op κ β} {s' : Store κ β} (h : Inv s) (hs : Step s op s') : Inv s' := by
  refine ⟨h.toOwned.step hs, ?_, ?_⟩
  · cases hs with
    | @put tidy k v slot doomed hk hne hd =>
      refine h.filed_of_files rfl (fun k' id hx => ?_) fun _ _ _ => rfl
      by_cases he : k' = k
      · subst he
        cases hk.symm.trans hx
      · exact (hne k' he).symm.trans hx
    | @drop K slot doomed hk hne hd =>
      refine h.filed_of_files rfl (fun k id hx => ?_) fun _ _ _ => rfl
      by_cases he : K k
      · cases (hk k he).symm.trans hx
      · exact (hne k he).symm.trans hx
    | hold h0 hk => exact h.filed
    | write hh hf hne =>
      exact h.filed_of_files rfl (fun _ _ hx => hx) fun k i hk => hne i (h.held_ne_disk hh hk)
    | spoil hh hne =>
      exact h.filed_of_files rfl (fun _ _ hx => hx) fun k i hk => hne i (h.held_ne_disk hh hk)
    | @publish k id v slot published hh hk hne hp hpne =>
      intro k' i hx
      by_cases he : k' = k
      · subst he
        obtain rfl : id = i := by simpa using hk.symm.trans hx
        exact ⟨v, h.wrote _ hh rfl, hp⟩
      · have hx : s.slot k' = some (.disk i) := (hne k' he).symm.trans hx
        obtain ⟨w, hw, hpw⟩ := h.filed k' i hx
        exact ⟨w, hw, (hpne i (h.held_ne_disk hh hx)).trans hpw⟩
    | persist hk hf hne =>
      exact h.filed_of_files rfl (fun _ _ hx => hx) fun k' i hk' => hne i (h.mem_ne_disk hk hk')
    | remove hd hf hne hle hge =>
      exact h.filed_of_files rfl (fun _ _ hx => hx) fun k i hk => hne i ((h.doomed _ hd).2 k _ hk)
    | forget hle => exact h.filed
  · cases hs with
    | put hk hne hd => exact h.wrote
    | drop hk hne hd => exact h.wrote
    | hold h0 hk =>
      intro g hg hw
      cases hg
      cases hw
    | write hh hf hne =>
      intro g hg hw
      cases hg
      exact hf
    | spoil hh hne => exact fun g hg => by cases hg
    | publish hh hk hne hp hpne => exact fun g hg => by cases hg
    | @persist k id v file hk hf hne =>
      intro g hg hw
      -- a held value with this id is the value of the slot
      by_cases he : id = g.id
      · obtain ⟨-, hx⟩ := (h.held g hg).unique k _ hk he
        cases hx
        exact hf
      · exact (hne _ (Ne.symm he)).trans (h.wrote g hg hw)
    | @remove id file doomed hd hf hne hle hge =>
      intro g hg hw
      have hi : g.id ≠ id := fun he => (h.held g hg).kept (he ▸ hd)
      exact (hne _ hi).trans (h.wrote g hg hw)
    | forget hle => exact h.wrote

end

/-! Values and leftover files, when a hold is not disturbed. -/

/-- The value a key stands for. -/
def Store.value (s : Store κ β) (k : κ) : Option β :=
  match s.slot k with
  | none => none
  | some (.mem _ v) => some v
  | some (.disk id) => s.file id

/-- What is held is what its slot still holds. -/
def Settled (s : Store κ β) : Prop :=
  ∀ h, s.held = some h → s.slot h.key = some (.mem h.id h.value)

/-- Slots come and go only while nothing is held. -/
def Op.Alone (s : Store κ β) : Op κ β → Prop
  | .put _ _ _ | .drop _ => s.held = none
  | _ => True

/-- Every file belongs to a slot on disk, is doomed, or is being written. -/
def Accounted (s : Store κ β) : Prop :=
  ∀ id v, s.file id = some v →
    (∃ k, s.slot k = some (.disk id)) ∨ s.doomed id ∨ ∃ h, s.held = some h ∧ h.id = id

/-- An operation that leaves no file behind. -/
def Op.Tidy (s : Store κ β) : Op κ β → Prop
  | .put tidy k _ => tidy ∨ ∀ id, s.slot k ≠ some (.disk id)
  | .spoil | .persist _ | .forget => False
  | _ => True

section
variable {s s' : Store κ β} {op : Op κ β}

theorem Settled.step (h : Settled s) (ha : op.Alone s) (hs : Step s op s') : Settled s' := by
  cases hs with
  | put hk hne hd =>
    intro g hg
    rw [show s.held = none from ha] at hg
    cases hg
  | drop hk hne hd =>
    intro g hg
    rw [show s.held = none from ha] at hg
    cases hg
  | hold h0 hk =>
    intro g hg
    cases hg
    exact hk
  | write hh hf hne =>
    intro g hg
    have hold := h _ hh
    cases hg
    exact hold
  | spoil hh hne => exact fun g hg => by cases hg
  | publish hh hk hne hp hpne => exact fun g hg => by cases hg
  | persist hk hf hne => exact h
  | remove hd hf hne hle hge => exact h
  | forget hle => exact h

/-- The values of keys whose slots stay and whose files stay. -/
theorem value_congr {k : κ} (hk : s'.slot k = s.slot k)
    (hf : ∀ id, s.slot k = some (.disk id) → s'.file id = s.file id) : s'.value k = s.value k := by
  unfold Store.value
  rw [hk]
  cases hs : s.slot k with
  | none => rfl
  | some x =>
    cases x with
    | mem id v => rfl
    | disk id => exact hf id hs

theorem value_drop {K : κ → Prop} (hs : Step s (.drop K) s') :
    (∀ k, K k → s'.value k = none) ∧ ∀ k, ¬ K k → s'.value k = s.value k := by
  cases hs with
  | drop hk hne hd =>
    refine ⟨fun k hK => ?_, fun k hK => value_congr (hne k hK) fun _ _ => rfl⟩
    simp only [Store.value, hk k hK]

/-- Every other operation leaves all values as they are. -/
theorem value_step (hi : Inv s) (hset : Settled s) (hs : Step s op s')
    (hp : ∀ tidy k v, op ≠ .put tidy k v) (hnd : ∀ K, op ≠ .drop K) (k : κ) :
    s'.value k = s.value k := by
  cases hs with
  | put hk hne hd => exact absurd rfl (hp _ _ _)
  | drop hk hne hd => exact absurd rfl (hnd _)
  | hold h0 hk => rfl
  | write hh hf hne => exact value_congr rfl fun i hk => hne i (hi.held_ne_disk hh hk)
  | spoil hh hne => exact value_congr rfl fun i hk => hne i (hi.held_ne_disk hh hk)
  | @publish k' id v slot published hh hk hne hp hpne =>
    by_cases he : k = k'
    · subst he
      have hold : s.slot k = some (.mem id v) := hset _ hh
      have hf : s.file id = some v := hi.wrote _ hh rfl
      simp only [Store.value, hk, hold, hf]
    · exact value_congr (hne k he) fun _ _ => rfl
  | @persist k' id v file hk hf hne =>
    exact value_congr rfl fun i hdisk => hne i (hi.mem_ne_disk hk hdisk)
  | remove hd hf hne hle hge =>
    exact value_congr rfl fun i hk => hne i ((hi.doomed _ hd).2 k _ hk)
  | forget hle => rfl

/-- A tidy operation accounts for every file it leaves. -/
theorem Accounted.step (h : Accounted s) (hset : Settled s) (ht : op.Tidy s) (hs : Step s op s') :
    Accounted s' := by
  cases hs with
  | @put tidy k v slot doomed hk hne hd =>
    intro id b hb
    rcases h id b hb with ⟨k', hk'⟩ | hdm | hh
    · by_cases he : k' = k
      · subst he
        rcases ht with ht | ht
        · exact .inr (.inl ((hd id).mpr (.inr ⟨ht, hk'⟩)))
        · exact absurd hk' (ht id)
      · exact .inl ⟨k', (hne k' he).trans hk'⟩
    · exact .inr (.inl ((hd id).mpr (.inl hdm)))
    · exact .inr (.inr hh)
  | @drop K slot doomed hk hne hd =>
    intro id b hb
    rcases h id b hb with ⟨k', hk'⟩ | hdm | hh
    · by_cases he : K k'
      · exact .inr (.inl ((hd id).mpr (.inr ⟨k', he, hk'⟩)))
      · exact .inl ⟨k', (hne k' he).trans hk'⟩
    · exact .inr (.inl ((hd id).mpr (.inl hdm)))
    · exact .inr (.inr hh)
  | hold h0 hk =>
    intro id b hb
    rcases h id b hb with hk | hdm | ⟨g, hg, -⟩
    · exact .inl hk
    · exact .inr (.inl hdm)
    · rw [h0] at hg
      cases hg
  | @write k i v file hh hf hne =>
    intro id b hb
    by_cases he : id = i
    · exact .inr (.inr ⟨_, rfl, he.symm⟩)
    · rcases h id b ((hne id he).symm.trans hb) with hk | hdm | ⟨g, hg, hgi⟩
      · exact .inl hk
      · exact .inr (.inl hdm)
      · rw [hh] at hg
        cases hg
        exact absurd hgi.symm he
  | spoil hh hne => exact ht.elim
  | @publish k i v slot published hh hk hne hp hpne =>
    intro id b hb
    rcases h id b hb with ⟨k', hk'⟩ | hdm | ⟨g, hg, hgi⟩
    · by_cases he : k' = k
      · subst he
        have hold := hset _ hh
        rw [hk'] at hold
        cases hold
      · exact .inl ⟨k', (hne k' he).trans hk'⟩
    · exact .inr (.inl hdm)
    · rw [hh] at hg
      cases hg
      exact .inl ⟨k, hgi ▸ hk⟩
  | persist hk hf hne => exact ht.elim
  | @remove i file doomed hd hf hne hle hge =>
    intro id b hb
    have he : id ≠ i := by
      rintro rfl
      cases hf.symm.trans hb
    rcases h id b ((hne id he).symm.trans hb) with hk | hdm | hh
    · exact .inl hk
    · exact .inr (.inl (hge id he hdm))
    · exact .inr (.inr hh)
  | forget hle => exact ht.elim

end

/-! What a copy of the store may rely on while the store goes on. -/

/-- No other key has a slot with the id. -/
def Claimed (s : Store κ β) (k : κ) (id : ℕ) : Prop :=
  ∀ k' x, s.slot k' = some x → x.id = id → k' = k

/-- The file of the id has the value and keeps it: nothing is about to remove or to rewrite
it. -/
structure Kept (s : Store κ β) (k : κ) (id : ℕ) (v : β) : Prop where
  file : s.file id = some v
  live : ¬ s.doomed id
  claimed : Claimed s k id
  value : ∀ w, s.slot k = some (.mem id w) → w = v

/-- The operations that give up no file but a doomed one. -/
def Op.Mild : Op κ β → Prop
  | .put tidy _ _ => tidy = false
  | .persist _ | .remove _ => True
  | _ => False

section
variable {s s' : Store κ β} {op : Op κ β} {k : κ} {id : ℕ} {v : β}

/-- Ids are never given back. -/
theorem Step.next_le (hs : Step s op s') : s.next ≤ s'.next := by
  cases hs with
  | put hk hne hd => exact Nat.le_succ _
  | _ => exact Nat.le_refl _

theorem Claimed.persist {k₀ : κ} (h : Claimed s k id) (hs : Step s (.persist k₀) s') :
    Claimed s' k id := by
  cases hs
  exact h

theorem Kept.persist {k₀ : κ} (h : Kept s k id v) (hs : Step s (.persist k₀) s') :
    Kept s' k id v := by
  cases hs with
  | @persist k₀ i w file hk hf hne =>
    refine ⟨?_, h.live, h.claimed, h.value⟩
    by_cases he : id = i
    · -- the slot is the key's own, and its value is the one in the file
      subst he
      obtain rfl := h.claimed k₀ _ hk rfl
      rw [h.value w hk] at hf
      exact hf
    · exact (hne id he).trans h.file

theorem Claimed.step (h : Claimed s k id) (hlt : id < s.next) (hm : op.Mild)
    (hs : Step s op s') : Claimed s' k id := by
  cases hs with
  | @put tidy k₀ v₀ slot doomed hk hne hd =>
    intro k' x hx hid
    by_cases he : k' = k₀
    · subst he
      cases hk.symm.trans hx
      exact absurd hlt (by simp [← hid])
    · exact h k' x ((hne k' he).symm.trans hx) hid
  | persist hk hf hne => exact h
  | remove hd hf hne hle hge => exact h
  | _ => exact hm.elim

theorem Kept.step (h : Kept s k id v) (hlt : id < s.next) (hm : op.Mild) (hs : Step s op s') :
    Kept s' k id v := by
  have hclaimed := h.claimed.step hlt hm hs
  cases hs with
  | @put tidy k₀ v₀ slot doomed hk hne hd =>
    refine ⟨h.file, fun hi => ?_, hclaimed, fun w hw => ?_⟩
    · rcases (hd id).mp hi with hi | ⟨ht, -⟩
      · exact h.live hi
      · cases ht.symm.trans hm
    · by_cases he : k = k₀
      · subst he
        cases hk.symm.trans hw
        exact absurd hlt (Nat.lt_irrefl _)
      · exact h.value w ((hne k he).symm.trans hw)
  | persist hk hf hne => exact h.persist (.persist hk hf hne)
  | @remove i file doomed hd hf hne hle hge =>
    have hi : id ≠ i := fun he => h.live (he ▸ hd)
    exact ⟨(hne id hi).trans h.file, fun hi => h.live (hle id hi), hclaimed, h.value⟩
  | _ => exact hm.elim

end

end Tiered

import Dockfoxprox.Proofs.Promotion

/-! Concurrent GETs of one key whose value is on disk, with no writer and no
eviction. The first reader to finish promotes the value and spawns the unlink of
the file. A reader that has cloned the on-disk entry and finds the file gone
removes the promoted entry and replies nil, so the readers are safe exactly when
that unlink waits for them. -/

namespace Dockfoxprox

open MapSum Machine

/-- Only GETs of `k` and unlink tasks run. -/
def RedisEvent.Reader (k : Bytes) : RedisEvent → Prop
  | .get key => key = k
  | .getStep _ | .unlink _ => True
  | _ => False

instance (k : Bytes) (e : RedisEvent) : Decidable (e.Reader k) :=
  match e with
  | .get key => inferInstanceAs (Decidable (key = k))
  | .getStep _ | .unlink _ => isTrue trivial
  | .command _ | .spillFetch _ _ _ | .spillWrite | .spillFail _ | .spillInsert => isFalse id

/-- No unlink runs while a GET that has cloned the on-disk entry of its id has yet to
read the file. -/
def UnlinkWaits (s : RedisSys) (e : RedisEvent) (_ : RedisSys) : Prop :=
  match e with
  | .unlink i => ∀ id ∈ s.st.unlinks[i]?, id ∉ s.gets.filterMap Get.reads
  | _ => True

instance (s : RedisSys) (e : RedisEvent) (s' : RedisSys) : Decidable (UnlinkWaits s e s') :=
  match e with
  | .unlink i => inferInstanceAs
      (Decidable (∀ id ∈ s.st.unlinks[i]?, id ∉ s.gets.filterMap Get.reads))
  | .command _ | .get _ | .getStep _ | .spillFetch _ _ _ | .spillWrite | .spillFail _
  | .spillInsert => isTrue trivial

/-- Where the value of `k` is while only readers run: still on disk, or promoted. -/
inductive Stored (k v : Bytes) (id : ℕ) (s : State) : Prop where
  | onDisk (size t : ℕ) (hk : s.redisEntries.lookup k = some (.onDisk size id t))
      (hf : s.files.lookup id = some v) (hu : id ∉ s.unlinks)
  | inMemory (i t : ℕ) (hk : s.redisEntries.lookup k = some (.inMemory v i t))

theorem Stored.denotes {k v : Bytes} {id : ℕ} {s : State} (h : Stored k v id s) :
    s.denotes k = some v := by
  cases h with
  | onDisk size t hk hf hu => simp [State.denotes, hk, hf]
  | inMemory i t hk => simp [State.denotes, hk]

/-- The stages a reader of `k` goes through when it finds the value. -/
def Get.Sees (k v : Bytes) (id : ℕ) (s : State) : Get → Prop
  | .start key => key = k
  | .cloned key i => key = k ∧ i = id ∧ s.files.lookup id = some v
  | .loaded key value => key = k ∧ value = v
  | .failed _ => False
  | .done reply => reply = some v

structure ReadersInv (k v : Bytes) (id : ℕ) (s : RedisSys) : Prop where
  stored : Stored k v id s.st
  sees : ∀ g ∈ s.gets, g.Sees k v id s.st

theorem Get.Sees.mono {k v : Bytes} {id : ℕ} {s s' : State} {g : Get} (h : g.Sees k v id s)
    (hf : g.reads = some id → s'.files.lookup id = s.files.lookup id) : g.Sees k v id s' := by
  cases g with
  | cloned key i =>
    obtain ⟨rfl, rfl, hv⟩ := h
    exact ⟨rfl, rfl, (hf rfl).trans hv⟩
  | _ => exact h

theorem Get.Sees.step {k v : Bytes} {id : ℕ} {s : State} {g : Get} (h : g.Sees k v id s)
    (hst : Stored k v id s) :
    Stored k v id (g.step s).1 ∧ (g.step s).2.Sees k v id (g.step s).1 := by
  cases g with
  | start key =>
    obtain rfl : key = k := h
    cases hst with
    | onDisk size t hk hf hu =>
      simp only [Get.step, hk]
      exact ⟨.onDisk size t hk hf hu, rfl, rfl, hf⟩
    | inMemory i t hk =>
      simp only [Get.step, hk]
      exact ⟨.inMemory i s.now (by simp), rfl⟩
  | cloned key i =>
    obtain ⟨rfl, rfl, hv⟩ := h
    simp only [Get.step, hv]
    exact ⟨hst, rfl, rfl⟩
  | loaded key value =>
    obtain ⟨rfl, rfl⟩ := h
    exact ⟨.inMemory s.nextId s.now (by simp [Get.step]), rfl⟩
  | failed key => exact absurd h (fun h => h)
  | done reply => exact ⟨hst, h⟩

theorem ReadersInv.step {k v : Bytes} {id : ℕ} {s s' : RedisSys} {e : RedisEvent}
    (h : ReadersInv k v id s) (hr : e.Reader k) (hc : UnlinkWaits s e s')
    (hs : s.step e = some s') : ReadersInv k v id s' := by
  cases e with
  | get key =>
    simp only [RedisSys.step, Option.some.injEq] at hs
    subst hs
    exact ⟨h.stored, List.forall_mem_append.mpr ⟨h.sees, List.forall_mem_singleton.mpr hr⟩⟩
  | getStep i =>
    simp only [RedisSys.step] at hs
    split at hs
    · cases hs
    · rename_i g hi
      cases hs
      obtain ⟨hst, hsee⟩ := (h.sees g (List.mem_of_getElem? hi)).step h.stored
      refine ⟨hst, forall_mem_set (fun g' hg' => ?_) hsee⟩
      exact (h.sees g' hg').mono fun _ => by rw [g.files]
  | unlink i =>
    simp only [RedisSys.step] at hs
    split at hs
    · cases hs
    · rename_i id' hi
      cases hs
      have hw : id' ∉ s.gets.filterMap Get.reads := hc id' hi
      refine ⟨?_, fun g hg => (h.sees g hg).mono fun hrd => ?_⟩
      · cases h.stored with
        | onDisk size t hk hf hu =>
          have hne : id ≠ id' := fun he => hu (he ▸ List.mem_of_getElem? hi)
          exact .onDisk size t hk (by simpa [State.removeFile, hne] using hf)
            (fun hm => hu (List.mem_of_mem_eraseIdx hm))
        | inMemory j t hk => exact .inMemory j t hk
      · have hne : id ≠ id' := by
          rintro rfl
          exact hw (List.mem_filterMap.mpr ⟨g, hg, hrd⟩)
        simp [State.removeFile, hne]
  | command c => exact absurd hr (fun h => h)
  | spillFetch key size t => exact absurd hr (fun h => h)
  | spillWrite => exact absurd hr (fun h => h)
  | spillFail leftover => exact absurd hr (fun h => h)
  | spillInsert => exact absurd hr (fun h => h)

/-- A reader whose file is gone: it can only come to reply nil. -/
structure Starved (j : ℕ) (id : ℕ) (s : RedisSys) : Prop where
  gone : s.st.files.lookup id = none
  reader : ∃ g, s.gets[j]? = some g ∧
    (g.reads = some id ∨ (∃ key, g = .failed key) ∨ g = .done none)

theorem Starved.step {j id : ℕ} {k : Bytes} {s s' : RedisSys} {e : RedisEvent}
    (h : Starved j id s) (hr : e.Reader k) (hs : s.step e = some s') : Starved j id s' := by
  obtain ⟨g, hg, hcase⟩ := h.reader
  cases e with
  | get key =>
    simp only [RedisSys.step, Option.some.injEq] at hs
    subst hs
    refine ⟨h.gone, g, ?_, hcase⟩
    have hj : j < s.gets.length := (List.getElem?_eq_some_iff.mp hg).1
    simpa only [List.getElem?_append_left hj] using hg
  | getStep i =>
    simp only [RedisSys.step] at hs
    split at hs
    · cases hs
    · rename_i g' hi
      cases hs
      refine ⟨by rw [g'.files]; exact h.gone, ?_⟩
      by_cases hij : i = j
      · subst hij
        obtain rfl : g' = g := Option.some.inj (hi.symm.trans hg)
        have hlt : i < s.gets.length := (List.getElem?_eq_some_iff.mp hg).1
        refine ⟨(g'.step s.st).2, by simp [hlt], ?_⟩
        rcases hcase with hrd | ⟨key, rfl⟩ | rfl
        · cases g' with
          | cloned key id' =>
            obtain rfl : id' = id := Option.some.inj hrd
            exact Or.inr (Or.inl ⟨key, by simp only [Get.step, h.gone]⟩)
          | _ => cases hrd
        · exact Or.inr (Or.inr rfl)
        · exact Or.inr (Or.inr rfl)
      · exact ⟨g, by simpa only [List.getElem?_set_ne hij] using hg, hcase⟩
  | unlink i =>
    simp only [RedisSys.step] at hs
    split at hs
    · cases hs
    · cases hs
      refine ⟨?_, g, hg, hcase⟩
      simp only [State.removeFile, lookup_erase_apply, h.gone, ite_self]
  | command c => exact absurd hr (fun h => h)
  | spillFetch key size t => exact absurd hr (fun h => h)
  | spillWrite => exact absurd hr (fun h => h)
  | spillFail leftover => exact absurd hr (fun h => h)
  | spillInsert => exact absurd hr (fun h => h)

/-- For every run of readers of `k` that all finish: each of them replies with the
stored value and `k` still has it, if and only if no unlink runs while a reader that
cloned the entry of its file has yet to read it. -/
theorem readers_keep_key_iff (s : RedisSys) (k v : Bytes) (size id t : ℕ)
    (hk : s.st.redisEntries.lookup k = some (.onDisk size id t))
    (hf : s.st.files.lookup id = some v) (hu : id ∉ s.st.unlinks) (hg : s.gets = [])
    (events : List RedisEvent) (hev : ∀ e ∈ events, e.Reader k) (s' : RedisSys)
    (hr : run RedisSys.step s events = some s') (hdone : ∀ g ∈ s'.gets, ∃ r, g = .done r) :
    ((∀ g ∈ s'.gets, g = .done (some v)) ∧ s'.st.denotes k = some v) ↔
      Along RedisSys.step UnlinkWaits s events := by
  constructor
  · intro hall
    by_contra hn
    obtain ⟨pre, e, post, m, n, rfl, hpre, he, hpost, hbad⟩ := exists_of_not_along hr hn
    -- the violating event is an unlink that overtakes a reader
    cases e with
    | unlink i =>
      simp only [UnlinkWaits, not_forall, not_not] at hbad
      obtain ⟨id', hi, hread⟩ := hbad
      obtain ⟨g, hgm, hgr⟩ := List.mem_filterMap.mp hread
      obtain ⟨j, hj, hjg⟩ := List.mem_iff_getElem.mp hgm
      have hi' : m.st.unlinks[i]? = some id' := hi
      simp only [RedisSys.step, hi', Option.some.injEq] at he
      have hst : Starved j id' n := by
        subst he
        exact ⟨by simp [State.removeFile], g, by simp [hj, hjg], Or.inl hgr⟩
      have hc : Along RedisSys.step (fun _ e _ => e.Reader k) n post :=
        along_mono (fun _ e _ he _ => hev e (by simp [he])) (along_true n post)
      have hend := run_invariant (fun _ e _ hi hc hs => Starved.step (e := e) hi hc hs) hst hc hpost
      obtain ⟨g', hg', hcase⟩ := hend.reader
      have hv := hall.1 g' (List.mem_of_getElem? hg')
      subst hv
      rcases hcase with h | ⟨key, h⟩ | h <;> cases h
    | _ => exact absurd trivial hbad
  · intro hc
    have h0 : ReadersInv k v id s := ⟨.onDisk size t hk hf hu, by rw [hg]; simp⟩
    have hc' := along_mono (Q := fun s e s' => e.Reader k ∧ UnlinkWaits s e s')
      (fun s e s' he h => ⟨hev e he, h⟩) hc
    have hend := run_invariant (fun _ _ _ hi hc hs => ReadersInv.step hi hc.1 hc.2 hs) h0 hc' hr
    refine ⟨fun g hgm => ?_, hend.stored.denotes⟩
    obtain ⟨r, rfl⟩ := hdone g hgm
    exact congrArg Get.done (hend.sees _ hgm)

/-- Two readers of the on-disk key; the unlink of its file runs when both have read it. -/
def orderlyReads : List RedisEvent :=
  [.get [107], .get [107], .getStep 0, .getStep 1, .getStep 0, .getStep 1, .getStep 0, .unlink 0,
    .getStep 1]

theorem readers_keep_key_iff_orderly :
    ∃ s', run RedisSys.step diskStart orderlyReads = some s' ∧
      (∀ g ∈ s'.gets, g = .done (some (List.replicate 1025 97))) ∧
      s'.st.denotes [107] = some (List.replicate 1025 97) := by
  refine ⟨_, rfl, (readers_keep_key_iff diskStart [107] (List.replicate 1025 97) 1025 0 0
    (by decide +kernel) (by decide +kernel) (by decide +kernel) rfl orderlyReads ?_ _ rfl
    ?_).mpr (by decide +kernel)⟩
  · decide
  · have hg : ∀ v, ∀ g ∈ [Get.done v, Get.done v], ∃ r, g = .done r := by simp
    exact hg (some (List.replicate 1025 97))

/-- The unlink of the first reader's promotion overtakes the second reader, which then
replies nil and removes the promoted value. -/
def overtakingUnlink : List RedisEvent :=
  [.get [107], .get [107], .getStep 0, .getStep 1, .getStep 0, .getStep 0, .unlink 0, .getStep 1,
    .getStep 1]

theorem overtaken_reader_loses_key :
    diskStart.st.redisEntries.lookup [107] = some (.onDisk 1025 0 0) ∧
    diskStart.st.files.lookup 0 = some (List.replicate 1025 97) ∧
    diskStart.st.unlinks = [] ∧ diskStart.gets = [] ∧
    (∀ e ∈ overtakingUnlink, e.Reader [107]) ∧
    ∃ s', run RedisSys.step diskStart overtakingUnlink = some s' ∧
      s'.gets = [.done (some (List.replicate 1025 97)), .done none] ∧
      s'.st.redisEntries.lookup [107] = none := by
  refine ⟨by decide +kernel, by decide +kernel, by decide +kernel, rfl, by decide, _, rfl, ?_, ?_⟩
  · decide +kernel
  · decide +kernel

end Dockfoxprox

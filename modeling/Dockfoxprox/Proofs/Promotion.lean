import Dockfoxprox.Proofs.Spill

/-! GETs of keys whose value is on disk. The promotion re-inserts by key after the
file was read, so it is harmless exactly as long as nothing changed the key in
between; and a reader that finds the file gone drops whatever entry the key has by
then, which is where concurrent readers can lose a key. -/

namespace Dockfoxprox

open MapSum Machine

/-- What the insert of a promotion must not do: change the value of its key or
bring an absent key back. -/
def PromotionKeepsValue (s : RedisSys) (e : RedisEvent) (s' : RedisSys) : Prop :=
  ∀ i key value, e = .getStep i → s.gets[i]? = some (.loaded key value) →
    s'.st.denotes key = s.st.denotes key ∧ (s.st.redisEntries.lookup key).isSome

/-- No command that changes the value of a key runs while a GET of that key is
between its clone of the on-disk entry and its insert. -/
def GetUndisturbed (s : RedisSys) (e : RedisEvent) (_ : RedisSys) : Prop :=
  ∀ key ∈ s.gets.filterMap Get.window, e.onMap s.st.denotes key = s.st.denotes key

instance (s : RedisSys) (e : RedisEvent) (s' : RedisSys) : Decidable (GetUndisturbed s e s') :=
  inferInstanceAs
    (Decidable (∀ key ∈ s.gets.filterMap Get.window, e.onMap s.st.denotes key = s.st.denotes key))

/-- The id whose file the next step of a GET reads. -/
def Get.reads : Get → Option ℕ
  | .cloned _ id => some id
  | _ => none

/-- The file a GET is about to read is there. -/
def ReadSucceeds (s : RedisSys) (e : RedisEvent) (_ : RedisSys) : Prop :=
  match e with
  | .getStep i => ∀ id ∈ s.gets[i]?.bind Get.reads, (s.st.files.lookup id).isSome
  | _ => True

instance (s : RedisSys) (e : RedisEvent) (s' : RedisSys) : Decidable (ReadSucceeds s e s') :=
  match e with
  | .getStep i => inferInstanceAs
      (Decidable (∀ id ∈ s.gets[i]?.bind Get.reads, (s.st.files.lookup id).isSome))
  | .command _ | .get _ | .unlink _ | .spillFetch _ _ _ | .spillWrite | .spillFail _
  | .spillInsert => isTrue trivial

/-- What a GET has seen of its key is still the value of the key. -/
def Get.Fresh (s : State) : Get → Prop
  | .cloned key id => ∀ v, s.files.lookup id = some v → s.denotes key = some v
  | .loaded key value => s.denotes key = some value
  | .failed _ => False
  | _ => True

structure GetInv (s : RedisSys) : Prop where
  wf : s.Wf
  fresh : ∀ g ∈ s.gets, g.Fresh s.st

/-- A step that keeps the value of the keys in a window and adds no file keeps a GET fresh. -/
theorem Get.Fresh.mono {s s' : State} {g : Get} (h : g.Fresh s)
    (hd : ∀ key, g.window = some key → s'.denotes key = s.denotes key)
    (hf : ∀ id v, s'.files.lookup id = some v → s.files.lookup id = some v) : g.Fresh s' := by
  cases g with
  | start key => trivial
  | cloned key id => exact fun v hv => (hd key rfl).trans (h v (hf id v hv))
  | loaded key value => exact (hd key rfl).trans h
  | failed key => exact h
  | done reply => trivial

/-- A step of a fresh GET whose read succeeds changes no value and leaves it fresh. -/
theorem Get.Fresh.step {s : State} {g : Get} (h : g.Fresh s)
    (hr : ∀ id ∈ g.reads, (s.files.lookup id).isSome) :
    (g.step s).1.denotes = s.denotes ∧ (g.step s).2.Fresh (g.step s).1 := by
  cases g with
  | start key =>
    simp only [Get.step]
    split
    · exact ⟨rfl, trivial⟩
    · rename_i v id t hk
      refine ⟨?_, trivial⟩
      funext k
      by_cases hkk : k = key
      · subst hkk; simp [State.denotes, hk]
      · simp [State.denotes, hkk]
    · rename_i size id t hk
      exact ⟨rfl, fun v hv => by simpa [State.denotes, hk] using hv⟩
  | cloned key id =>
    obtain ⟨v, hv⟩ := Option.isSome_iff_exists.mp (hr id rfl)
    simp only [Get.step, hv]
    exact ⟨trivial, h v hv⟩
  | loaded key value =>
    refine ⟨?_, trivial⟩
    change (s.insertRedis key value).denotes = s.denotes
    rw [denotes_insertRedis]
    exact Function.update_eq_self_iff.mpr (Eq.symm h)
  | failed key => exact absurd h id
  | done reply => exact ⟨rfl, trivial⟩

theorem GetInv.step {s s' : RedisSys} {e : RedisEvent} (h : GetInv s) (hsp : e.isSpill = false)
    (hc : GetUndisturbed s e s') (hrd : ReadSucceeds s e s') (hs : s.step e = some s') :
    GetInv s' ∧ PromotionKeepsValue s e s' := by
  have hwf := RedisSys.step_wf h.wf hs
  cases e with
  | command c =>
    simp only [RedisSys.step, Option.some.injEq] at hs
    subst hs
    refine ⟨⟨hwf, fun g hg => (h.fresh g hg).mono (fun key hk => ?_) (fun id v hv => ?_)⟩,
      fun i key value he => by cases he⟩
    · rw [c.denotes]
      exact hc key (List.mem_filterMap.mpr ⟨g, hg, hk⟩)
    · simpa only [c.files] using hv
  | get key =>
    simp only [RedisSys.step, Option.some.injEq] at hs
    subst hs
    refine ⟨⟨hwf, ?_⟩, fun i key value he => by cases he⟩
    exact List.forall_mem_append.mpr ⟨h.fresh, List.forall_mem_singleton.mpr trivial⟩
  | getStep i =>
    simp only [RedisSys.step] at hs
    split at hs
    · cases hs
    · rename_i g hi
      cases hs
      have hfr := h.fresh g (List.mem_of_getElem? hi)
      obtain ⟨hd, hf⟩ := hfr.step fun id hid => hrd id (by rw [hi]; exact hid)
      refine ⟨⟨hwf, forall_mem_set (fun g' hg' => ?_) hf⟩, fun j key value he hj => ?_⟩
      · refine (h.fresh g' hg').mono (fun key _ => congrFun hd key) (fun id v hv => ?_)
        simpa only [g.files] using hv
      · cases he
        rw [hi, Option.some.injEq] at hj
        subst hj
        refine ⟨congrFun hd key, ?_⟩
        cases hk : s.st.redisEntries.lookup key with
        | none => simp only [Get.Fresh, State.denotes, hk] at hfr; cases hfr
        | some e => rfl
  | unlink i =>
    simp only [RedisSys.step] at hs
    split at hs
    · cases hs
    · rename_i id hi
      cases hs
      have hd := denotes_unlink h.wf.st hi
      refine ⟨⟨hwf, fun g hg => (h.fresh g hg).mono (fun key _ => congrFun hd key)
        (fun id' v hv => ?_)⟩, fun i key value he => by cases he⟩
      simp only [State.removeFile, lookup_erase_apply] at hv
      split at hv
      · cases hv
      · exact hv
  | spillFetch key size t => simp [RedisEvent.isSpill] at hsp
  | spillWrite => simp [RedisEvent.isSpill] at hsp
  | spillFail leftover => simp [RedisEvent.isSpill] at hsp
  | spillInsert => simp [RedisEvent.isSpill] at hsp

/-- In every run of GETs with SET, DEL and FLUSHALL commands in which file reads
succeed and no command changes a key while a GET of it is between clone and insert,
no promotion changes the value of its key or revives an absent key. -/
theorem promotion_keeps_values (s : RedisSys) (hwf : s.Wf) (hgets : s.gets = [])
    (events : List RedisEvent) (hsp : ∀ e ∈ events, e.isSpill = false)
    (hread : Along RedisSys.step ReadSucceeds s events)
    (hc : Along RedisSys.step GetUndisturbed s events) :
    Along RedisSys.step PromotionKeepsValue s events := by
  have h0 : GetInv s := ⟨hwf, by rw [hgets]; simp⟩
  have hall := along_mono (Q := fun s e s' => e.isSpill = false ∧ GetUndisturbed s e s' ∧
    ReadSucceeds s e s') (fun s e s' he h => ⟨hsp e he, h⟩) (along_and hc hread)
  exact along_of_invariant (fun s e s' hi hce hs => hi.step hce.1 hce.2.1 hce.2.2 hs) h0 hall

/-- The events that put a large value on disk under key `k`. -/
def spilled : List RedisEvent :=
  [.command (.set [107] (List.replicate 1025 97)), .spillFetch [107] 1025 0, .spillWrite,
    .spillInsert]

/-- The fresh proxy after them. -/
def diskStart : RedisSys := (run RedisSys.step redisStart spilled).getD redisStart

theorem diskStart_wf : diskStart.Wf := by
  have hr : run RedisSys.step redisStart spilled = some diskStart := rfl
  exact RedisSys.run_wf redisStart_wf hr

/-- Two readers promote the value while another key is SET and deleted. -/
def quietReads : List RedisEvent :=
  [.get [107], .get [107], .getStep 0, .getStep 1, .command (.set [108] [98]), .getStep 0,
    .getStep 1, .getStep 0, .command (.del [[108]]), .getStep 1, .unlink 0]

theorem promotion_keeps_values_quiet :
    diskStart.st.denotes [107] = some (List.replicate 1025 97) ∧
    Along RedisSys.step PromotionKeepsValue diskStart quietReads :=
  ⟨by decide +kernel, promotion_keeps_values diskStart diskStart_wf rfl quietReads (by decide)
    (by decide +kernel) (by decide +kernel)⟩

/-- A SET that is acknowledged while a GET reads the file is overwritten by the
bytes read. -/
theorem promotion_reverts_racing_set :
    Along RedisSys.step ReadSucceeds diskStart
      [.get [107], .getStep 0, .getStep 0, .command (.set [107] [98]), .getStep 0] ∧
    ¬ Along RedisSys.step PromotionKeepsValue diskStart
      [.get [107], .getStep 0, .getStep 0, .command (.set [107] [98]), .getStep 0] := by
  refine ⟨by decide +kernel, fun h => ?_⟩
  have h5 := ((((h _ rfl).2 _ rfl).2 _ rfl).2 _ rfl).2 _ rfl
  have hk := (h5.1 0 [107] (List.replicate 1025 97) rfl rfl).1
  revert hk
  decide +kernel

end Dockfoxprox

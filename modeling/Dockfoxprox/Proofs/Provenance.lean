import Dockfoxprox.Lib.Provenance
import Dockfoxprox.Proofs.Conn
import Dockfoxprox.Proofs.Node

/-! Where the values of the cache come from. Whatever interleaving of SETs, promotions,
uploads, spills, saves, crashes and loads, a digest or a key stands for bytes that were stored
under that very digest or key, and so are the bytes a GET comes back with. -/

namespace Dockfoxprox

open MapSum Tiered

/-- The bytes that a digest or a key stands for. -/
def State.value (s : State) : Owner → Option Bytes
  | .inl d => (s.blobs.lookup d).bind s.blobBytes
  | .inr k => s.denotes k

theorem State.value_eq (s : State) (ph : Phase) (created : DashMap ℕ Bytes) (o : Owner) :
    s.value o = (cacheStore s ph created).value o := by
  cases o with
  | inl d =>
    unfold State.value Store.value
    simp only [cacheStore, slot]
    cases s.blobs.lookup d with
    | none => rfl
    | some b => cases b <;> rfl
  | inr k =>
    unfold State.value State.denotes Store.value
    simp only [cacheStore, slot]
    cases s.redisEntries.lookup k with
    | none => rfl
    | some e => cases e <;> rfl

/-- The value of a SET that the connection is about to execute, with its key. -/
def Conn.puts (c : Conn) : List (Owner × Bytes) :=
  match c.phase, c.input with
  | .ready, args :: _ =>
    if c.authed ∧ Verb.of (cmdOf args) = .set then
      match args with
      | _ :: key :: value :: _ => [(.inr key, value)]
      | _ => []
    else []
  | _, _ => []

/-- What an event stores, and under what. -/
def CacheSys.puts (x : CacheSys) : CacheEvent → List (Owner × Bytes)
  | .storeBlob d content _ => [(.inl d, content)]
  | .conn i => (x.conns[i]?).elim [] Conn.puts
  | _ => []

def Get.key : Get → Option Bytes
  | .start key | .cloned key _ | .loaded key _ | .failed key => some key
  | .done _ => none

/-- What a GET has read, or may still read, was put under its key. -/
def Get.Sourced (H : Owner → Bytes → Prop) (y : Store Owner Bytes) : Get → Prop
  | .cloned key id => Spent y id ∧ ∀ v, y.file id = some v → H (.inr key) v
  | .loaded key value => H (.inr key) value
  | _ => True

section
variable {H H' : Owner → Bytes → Prop} {s : State} {ph : Phase} {created : DashMap ℕ Bytes}

/-- The operations of a connection on the store put what its SET or its GET has to store. -/
theorem delete_ops (keys : List Bytes) :
    Ops H (cacheStore s ph created) (cacheStore (s.delete keys).2 ph created) := by
  induction keys generalizing s with
  | nil => exact .refl
  | cons k keys ih => exact (Ops.single (removeRedis_store s ph created k) nofun).trans ih

theorem Get.step_ops {g : Get} (hget : ∀ k v, g = .loaded k v → H (.inr k) v) :
    Ops H (cacheStore s ph created) (cacheStore (g.step s).1 ph created) := by
  cases g with
  | start key =>
    simp only [Get.step]
    split
    · exact .refl
    · rw [touch_store s ph created ‹_›]
      exact .refl
    · exact .refl
  | cloned key id =>
    simp only [Get.step]
    split <;> exact .refl
  | loaded key value =>
    refine Ops.single (insertRedis_store s ph created key value) fun tidy k v he => ?_
    cases he
    exact hget key value rfl
  | failed key => exact Ops.single (removeRedis_store s ph created key) fun tidy k v he => (by cases he)
  | done reply => exact .refl

theorem Conn.authedCommand_ops {c : Conn} {args : List Bytes}
    (hset : ∀ a key value rest, args = a :: key :: value :: rest → Verb.of (cmdOf args) = .set →
      H (.inr key) value) :
    Ops H (cacheStore s ph created) (cacheStore (c.authedCommand s args).1 ph created) := by
  unfold Conn.authedCommand
  split
  · split <;> exact .refl
  · rename_i hv
    split
    · refine Ops.single (insertRedis_store s ph created _ _) fun tidy k v he => ?_
      cases he
      exact hset _ _ _ _ rfl hv
    · exact .refl
  · exact delete_ops _
  · exact .refl
  · exact Ops.single (flushRedis_store s ph created) nofun
  all_goals exact .refl

theorem Conn.dispatch_ops {password : Option Bytes} {c : Conn} {args : List Bytes}
    (hset : c.authed → ∀ a key value rest, args = a :: key :: value :: rest →
      Verb.of (cmdOf args) = .set → H (.inr key) value) :
    Ops H (cacheStore s ph created) (cacheStore (c.dispatch password s args).1 ph created) := by
  unfold Conn.dispatch
  split
  · split <;> exact .refl
  iterate 4 exact .refl
  split
  · exact authedCommand_ops (hset ‹_›)
  · exact .refl

theorem Conn.step_ops (password : Option Bytes) {c : Conn} (hset : ∀ o v, (o, v) ∈ c.puts → H o v)
    (hget : ∀ k v, c.phase = .getting (.loaded k v) → H (.inr k) v) :
    Ops H (cacheStore s ph created) (cacheStore (c.step password s).1 ph created) := by
  unfold Conn.step
  split
  · exact .refl
  · rename_i g hp
    exact Get.step_ops fun k v hg => hget k v (hg ▸ hp)
  · rename_i hp
    split
    · exact .refl
    · exact .refl
    · rename_i args rest _ hin
      refine dispatch_ops fun hauth a key value more he hv => hset _ _ ?_
      subst he
      simp [Conn.puts, hp, hin, show c.authed = true from hauth, hv]

/-- A connection in the middle of a GET has just started it or goes on with it. -/
theorem Conn.getting_step (password : Option Bytes) {c : Conn} {g' : Get}
    (h : (c.step password s).2.phase = .getting g') :
    (∃ key, g' = .start key) ∨ ∃ g, c.phase = .getting g ∧ (g.step s).2 = g' := by
  cases hp : c.phase with
  | closed =>
    simp only [Conn.step, hp] at h
    cases h
  | getting g =>
    simp only [Conn.step, hp, Conn.getStep] at h
    refine .inr ⟨g, rfl, ?_⟩
    generalize (g.step s).2 = g'' at h
    cases g'' with
    | done r => cases h
    | _ => exact ConnPhase.getting.inj h
  | ready =>
    refine .inl ?_
    simp only [Conn.step, hp] at h
    split at h
    · cases h
    · cases h
    · rename_i args rest _ hin
      have hout := dispatch_outcome password s { c with input := rest, phase := .ready } args
      generalize (Conn.dispatch password s _ args).2 = c' at h hout
      cases hout with
      | replied b a hv hb => cases h
      | quit hv => cases h
      | getting key hv =>
        cases h
        exact ⟨key, rfl⟩

/-- While the store goes on, what a GET has read or may read keeps its source. -/
theorem Get.Sourced.ops {g : Get} {y y' : Store Owner Bytes} (h : g.Sourced H y)
    (ho : Ops H' y y') (hH : ∀ o v, H o v → H' o v) : g.Sourced H' y' := by
  cases g with
  | cloned key id =>
    obtain ⟨hspent, hfile⟩ := ho.spent h.1
    exact ⟨hspent, fun v hv => hH _ _ (h.2 v (hfile v hv))⟩
  | loaded key value => exact hH _ _ h
  | _ => trivial

/-- A GET takes its bytes from the entry or from the file of its key. -/
theorem Get.Sourced.step {g : Get} (h : g.Sourced H (cacheStore s ph created))
    (hi : Inv (cacheStore s ph created)) (hsrc : Tiered.Sourced H (cacheStore s ph created)) :
    (g.step s).2.Sourced H (cacheStore s ph created) := by
  cases g with
  | start key =>
    simp only [Get.step]
    split
    · trivial
    · trivial
    · rename_i size id t he
      have hk : (cacheStore s ph created).slot (.inr key) = some (.disk id) := State.slot_redis he
      refine ⟨hi.spent hk, fun v hv => hsrc.value (.inr key) v ?_⟩
      simpa only [Store.value, hk] using hv
  | cloned key id =>
    simp only [Get.step]
    split
    · exact h.2 _ ‹_›
    · trivial
  | _ => trivial

/-- So do the bytes it comes back with. -/
theorem Get.Sourced.reply {g : Get} (h : g.Sourced H (cacheStore s ph created))
    (hsrc : Tiered.Sourced H (cacheStore s ph created)) {key r : Bytes} (hk : g.key = some key)
    (hr : (g.step s).2 = .done (some r)) : H (.inr key) r := by
  cases g with
  | start k =>
    obtain rfl := Option.some.inj hk
    simp only [Get.step] at hr
    split at hr
    · cases hr
    · rename_i value id t he
      cases hr
      exact hsrc.value _ _ (value_of_mem (State.slot_redis he))
    · cases hr
  | cloned k id =>
    simp only [Get.step] at hr
    split at hr <;> cases hr
  | loaded k v =>
    obtain rfl := Option.some.inj hk
    cases hr
    exact h
  | failed k => cases hr
  | done reply => cases hk

end

namespace CacheSys

/-- Every value of the cache, and every value that a GET has read or may read, was put under
its digest or its key. -/
structure Sourced (H : Owner → Bytes → Prop) (x : CacheSys) : Prop where
  store : Tiered.Sourced H x.store
  gets : ∀ c ∈ x.conns, ∀ g, c.phase = .getting g → g.Sourced H x.store

variable {H H' : Owner → Bytes → Prop} {password : Option Bytes}
  {fromSlice : Bytes → Option Json} {x x' : CacheSys} {e : CacheEvent}

/-- Every step is a number of operations of the store, which put what the event stores or
what a GET has read. -/
theorem step_ops (h : x.Sourced H) (hH : ∀ o v, H o v → H' o v)
    (hputs : ∀ o v, (o, v) ∈ x.puts e → H' o v) (hs : x.step password fromSlice e = some x') :
    Ops H' x.store x'.store := by
  have hsame (heq : x'.store = x.store) : Ops H' x.store x'.store := heq ▸ .refl
  cases e with
  | tick now => cases hs; exact .refl
  | hit d => exact hsame (hit_store hs)
  | storeBlob d content mt =>
    cases hs
    refine Ops.single (storeBlob_store x.st x.pass.phase x.created d content mt) ?_
    intro tidy k v he
    cases he
    exact hputs _ _ (List.mem_singleton.mpr rfl)
  | storeManifest d content mt => cases hs; exact .refl
  | connect cmds => cases hs; exact .refl
  | conn i =>
    simp only [CacheSys.step] at hs
    split at hs
    · cases hs
    · rename_i c hc
      cases hs
      have hin : c ∈ x.conns := List.mem_of_getElem? hc
      refine Conn.step_ops password (fun o v ho => hputs o v ?_) fun k v hp => ?_
      · simpa only [CacheSys.puts, hc, Option.elim_some] using ho
      · exact hH _ _ (h.gets c hin _ hp)
  | unlink i =>
    obtain ⟨s', hu, rfl⟩ := Option.map_eq_some_iff.mp hs
    obtain ⟨id, hstep⟩ := runUnlink_store x.st x.pass.phase x.created hu
    exact Ops.single hstep fun tidy k v he => (by cases he)
  | evict c =>
    obtain ⟨⟨a, p'⟩, hn, rfl⟩ := Option.map_eq_some_iff.mp hs
    rcases (Pass.step_of_next hn).onStore x.created with heq | ⟨op, hstep, hp, -, -⟩
    · exact hsame heq
    · exact Ops.single hstep fun tidy k v he => absurd he (hp tidy k v)
  | nextPass =>
    simp only [CacheSys.step] at hs
    split at hs
    · cases hs
      exact hsame (cacheStore_start (.inr ‹_›) x.st x.created)
    · cases hs

/-- The connections after a step: as before, fresh, or the one that moved. -/
theorem conns_step (hs : x.step password fromSlice e = some x') {c' : Conn} (hc : c' ∈ x'.conns) :
    c' ∈ x.conns ∨ (∀ g, c'.phase ≠ .getting g) ∨
      ∃ c ∈ x.conns, c' = (c.step password x.st).2 := by
  cases e with
  | connect cmds =>
    cases hs
    rcases List.mem_append.mp hc with hc | hc
    · exact .inl hc
    · obtain rfl := List.mem_singleton.mp hc
      exact .inr (.inl fun g hg => by cases hg)
  | conn i =>
    simp only [CacheSys.step] at hs
    split at hs
    · cases hs
    · rename_i c hi
      cases hs
      rcases List.mem_or_eq_of_mem_set hc with hc | rfl
      · exact .inl hc
      · exact .inr (.inr ⟨c, List.mem_of_getElem? hi, rfl⟩)
  | hit d =>
    simp only [CacheSys.step, CacheSys.hit] at hs
    split at hs <;> cases hs
    exact .inl hc
  | unlink i =>
    obtain ⟨s', -, rfl⟩ := Option.map_eq_some_iff.mp hs
    exact .inl hc
  | evict c =>
    obtain ⟨r, -, rfl⟩ := Option.map_eq_some_iff.mp hs
    exact .inl hc
  | nextPass =>
    simp only [CacheSys.step] at hs
    split at hs <;> cases hs
    exact .inl hc
  | _ => cases hs; exact .inl hc

theorem Sourced.step (h : x.Sourced H) (hi : Inv x.store) (hH : ∀ o v, H o v → H' o v)
    (hputs : ∀ o v, (o, v) ∈ x.puts e → H' o v) (hs : x.step password fromSlice e = some x') :
    x'.Sourced H' := by
  have hops := step_ops h hH hputs hs
  refine ⟨hops.sourced hi (h.store.mono hH), fun c' hc' g' hg' => ?_⟩
  rcases conns_step hs hc' with hc | hidle | ⟨c, hc, rfl⟩
  · exact (h.gets c' hc g' hg').ops hops hH
  · exact absurd hg' (hidle g')
  · rcases Conn.getting_step password hg' with ⟨key, rfl⟩ | ⟨g, hg, rfl⟩
    · trivial
    · exact ((h.gets c hc g hg).step hi h.store).ops hops hH

/-- A connection stores nothing under a digest. -/
theorem not_mem_puts_conn (x : CacheSys) (i : ℕ) {d : Digest} {v : Bytes} :
    (.inl d, v) ∉ x.puts (.conn i) := by
  simp only [CacheSys.puts]
  cases x.conns[i]? with
  | none => simp
  | some c =>
    simp only [Option.elim_some, Conn.puts]
    split
    · split
      · split <;> simp
      · simp
    · simp

/-- What a digest or a key stands for. -/
theorem Sourced.value (h : x.Sourced H) {o : Owner} {v : Bytes} (hv : x.st.value o = some v) :
    H o v :=
  h.store.value o v ((x.st.value_eq x.pass.phase x.created o).symm.trans hv)

end CacheSys

end Dockfoxprox

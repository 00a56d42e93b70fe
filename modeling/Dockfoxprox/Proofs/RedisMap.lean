import Mathlib.Data.Finset.Card
import Mathlib.Data.Set.Card
import Dockfoxprox.Proofs.Conn
import Dockfoxprox.Proofs.Serial

/-! The Redis store as a plain map. Whatever tier a value is in, every reply is the one a
map from keys to values gives, if a pass may take keys out of it. -/

namespace Dockfoxprox

open MapSum Tiered

/-- A command served by a plain map: the reply and the map after it. -/
noncomputable def serve (m : Bytes → Option Bytes) (args : List Bytes) :
    Bytes × (Bytes → Option Bytes) :=
  match Verb.of (cmdOf args) with
  | .get =>
    match args with
    | [_, key] => (Conn.getBytes (m key), m)
    | _ => (writeError (utf8 "ERR wrong number of arguments for 'get'"), m)
  | .set =>
    match args with
    | _ :: key :: value :: _ => (writeSimple (utf8 "OK"), (Command.set key value).onMap m)
    | _ => (writeError (utf8 "ERR wrong number of arguments for 'set'"), m)
  | .del =>
    (writeInteger (args.tail.toFinset.filter fun k => (m k).isSome).card,
      (Command.del args.tail).onMap m)
  | .exists => (writeInteger (args.tail.countP fun k => (m k).isSome), m)
  | .flush => (writeSimple (utf8 "OK"), Command.flushAll.onMap m)
  | .dbsize => (writeInteger {k | (m k).isSome}.ncard, m)
  | _ => ([], m)

/-- What an event is on a plain map, with the replies it asks for. -/
inductive MapStep (m : Bytes → Option Bytes) :
    SerialEvent → List Bytes → (Bytes → Option Bytes) → Prop
  | command (args : List Bytes) : MapStep m (.command args) [(serve m args).1] (serve m args).2
  | evict (pick : ℕ) {m' : Bytes → Option Bytes} (h : ∀ k, m' k = none ∨ m' k = m k) :
    MapStep m (.evict pick) [] m'
  | other {e : SerialEvent} (hc : ∀ args, e ≠ .command args) (he : ∀ pick, e ≠ .evict pick) :
    MapStep m e [] m

inductive MapRun : (Bytes → Option Bytes) → List SerialEvent → List Bytes →
    (Bytes → Option Bytes) → Prop
  | nil (m : Bytes → Option Bytes) : MapRun m [] [] m
  | cons {m m₁ m' : Bytes → Option Bytes} {e : SerialEvent} {es : List SerialEvent}
      {r rs : List Bytes} (h : MapStep m e r m₁) (hs : MapRun m₁ es rs m') :
    MapRun m (e :: es) (r ++ rs) m'

namespace State

/-- Every key that has an entry has a value. -/
def Full (s : State) : Prop := ∀ k, (s.redisEntries.lookup k).isSome = (s.denotes k).isSome

variable {s : State}

theorem denotes_eq_value (s : State) (ph : Phase) (created : DashMap ℕ Bytes) (k : Bytes) :
    s.denotes k = (cacheStore s ph created).value (.inr k) := by
  unfold denotes Store.value
  simp only [cacheStore, slot]
  cases s.redisEntries.lookup k with
  | none => rfl
  | some e => cases e <;> rfl

theorem Full.of_inv {ph : Phase} {created : DashMap ℕ Bytes} (h : Inv (cacheStore s ph created)) :
    s.Full := by
  intro k
  unfold denotes
  cases he : s.redisEntries.lookup k with
  | none => rfl
  | some e =>
    cases e with
    | inMemory value id t => rfl
    | onDisk size id t =>
      obtain ⟨v, hv, -⟩ := h.filed (.inr k) id (by simp [cacheStore, slot, he, RedisEntry.slot])
      have hf : s.files.lookup id = some v := hv
      simp [hf]

theorem Full.removeRedis (h : s.Full) (k : Bytes) : (s.removeRedis k).2.Full := by
  intro k'
  rw [denotes_removeRedis, removeRedis_entries, lookup_erase_apply]
  split
  · rfl
  · exact h k'

theorem delete_denotes (s : State) (keys : List Bytes) (k : Bytes) :
    (s.delete keys).2.denotes k = if k ∈ keys then none else s.denotes k := by
  induction keys generalizing s with
  | nil => simp [delete]
  | cons a keys ih =>
    rw [delete, ih, denotes_removeRedis]
    by_cases ha : k = a <;> by_cases hk : k ∈ keys <;> simp [ha, hk]

/-- DEL counts each key that is there once. -/
theorem Full.delete_count (h : s.Full) (keys : List Bytes) :
    (s.delete keys).1 = (keys.toFinset.filter fun k => (s.denotes k).isSome).card := by
  induction keys generalizing s with
  | nil => rfl
  | cons a keys ih =>
    have hrest : (keys.toFinset.filter fun k => ((s.removeRedis a).2.denotes k).isSome) =
        (keys.toFinset.filter fun k => (s.denotes k).isSome).erase a := by
      ext k
      simp only [Finset.mem_filter, Finset.mem_erase, denotes_removeRedis]
      by_cases hk : k = a <;> simp [hk]
    have hcons : (s.delete (a :: keys)).1 =
        ((s.removeRedis a).2.delete keys).1 + (s.removeRedis a).1.toNat := rfl
    rw [hcons, ih (h.removeRedis a), hrest, removeRedis_fst, h a, List.toFinset_cons,
      Finset.filter_insert]
    by_cases ha : (s.denotes a).isSome
    · rw [if_pos ha, ha, ← Finset.erase_insert_eq_erase]
      exact Finset.card_erase_add_one (Finset.mem_insert_self a _)
    · have hnot : a ∉ keys.toFinset.filter fun k => (s.denotes k).isSome := by simp [ha]
      rw [if_neg ha, Finset.erase_eq_of_notMem hnot]
      simp [ha]

theorem Full.dbsize (h : s.Full) :
    s.redisEntries.entries.length = {k | (s.denotes k).isSome}.ncard := by
  have hset : {k | (s.denotes k).isSome} = (s.redisEntries.keys.toFinset : Set Bytes) := by
    ext k
    simp [← h k, AList.lookup_isSome, AList.mem_keys]
  rw [hset, Set.ncard_coe_finset, List.toFinset_card_of_nodup s.redisEntries.keys_nodup]
  simp [AList.keys, List.keys]

end State

theorem denotes_flushRedis (s : State) : s.flushRedis.denotes = fun _ => none := by
  funext k
  simp [State.flushRedis, State.denotes]

/-- A command behind the gate is answered at once as the plain map answers it, or is a GET
that goes on. -/
theorem authedCommand_serve {s : State} (h : s.Full) (c : Conn) {args : List Bytes}
    (hk : (Verb.of (cmdOf args)).keyed) :
    (c.authedCommand s args).1.denotes = (serve s.denotes args).2 ∧
      ((c.authedCommand s args).2 = c.reply (serve s.denotes args).1 ∨
        ∃ key, c.authedCommand s args = (s, { c with phase := .getting (.start key) }) ∧
          (serve s.denotes args).1 = Conn.getBytes (s.denotes key)) := by
  unfold Conn.authedCommand serve
  cases hv : Verb.of (cmdOf args) with
  | get =>
    match args with
    | [_, key] => exact ⟨rfl, .inr ⟨key, rfl, rfl⟩⟩
    | [] | [_] | _ :: _ :: _ :: _ => exact ⟨rfl, .inl rfl⟩
  | set =>
    match args with
    | _ :: key :: value :: _ => exact ⟨denotes_insertRedis s key value, .inl rfl⟩
    | [] | [_] | [_, _] => exact ⟨rfl, .inl rfl⟩
  | del =>
    refine ⟨funext (s.delete_denotes args.tail), .inl ?_⟩
    simp only [h.delete_count]
  | «exists» =>
    refine ⟨rfl, .inl ?_⟩
    simp only [State.existing, h _]
  | flush => exact ⟨denotes_flushRedis s, .inl rfl⟩
  | dbsize =>
    refine ⟨rfl, .inl ?_⟩
    simp only [h.dbsize]
  | _ =>
    rw [hv] at hk
    cases hk

/-- A GET in the middle of its steps that is to be answered with `r`. -/
def Get.Owes (s : State) (r : Option Bytes) : Get → Prop
  | .start key => s.denotes key = r
  | .cloned key id =>
    (∃ size t, s.redisEntries.lookup key = some (.onDisk size id t)) ∧ s.denotes key = r
  | .loaded key value => s.denotes key = some value ∧ r = some value
  | _ => False

/-- A step of a GET changes no value, and it leaves the reply owed or gives it. -/
theorem Get.Owes.step {s : State} {g : Get} {r : Option Bytes} (hf : s.Full) (h : g.Owes s r) :
    (g.step s).1.denotes = s.denotes ∧
      ((g.step s).2 = .done r ∨ (g.step s).2.Owes (g.step s).1 r) := by
  cases g with
  | start key =>
    have h : s.denotes key = r := h
    simp only [Get.step]
    cases he : s.redisEntries.lookup key with
    | none =>
      simp only [State.denotes, he] at h
      exact ⟨rfl, .inl (h ▸ rfl)⟩
    | some e =>
      cases e with
      | inMemory value id t =>
        have hr : some value = r := by rw [← h]; simp only [State.denotes, he]
        refine ⟨?_, .inl (congrArg Get.done hr)⟩
        funext k
        by_cases hk : k = key
        · subst hk
          simp [State.denotes, he]
        · simp [State.denotes, hk]
      | onDisk size id t => exact ⟨rfl, .inr ⟨⟨size, t, he⟩, h⟩⟩
  | cloned key id =>
    obtain ⟨⟨size, t, he⟩, hr⟩ := h
    have hfile : s.denotes key = s.files.lookup id := by simp only [State.denotes, he]
    have hsome := hf key
    rw [he, hfile] at hsome
    simp only [Get.step]
    cases hv : s.files.lookup id with
    | none =>
      rw [hv] at hsome
      cases hsome
    | some value =>
      rw [hv] at hfile
      exact ⟨rfl, .inr ⟨hfile, by rw [← hr, hfile]⟩⟩
  | loaded key value =>
    obtain ⟨hv, rfl⟩ := h
    refine ⟨?_, .inl rfl⟩
    simp only [Get.step, denotes_insertRedis, ← hv, Function.update_eq_self]
  | failed key => exact h.elim
  | done reply => exact h.elim

theorem Get.Owes.mono {s s' : State} {g : Get} {r : Option Bytes} (h : g.Owes s r)
    (he : s'.redisEntries = s.redisEntries) (hd : s'.denotes = s.denotes) : g.Owes s' r := by
  cases g with
  | start key => exact (congrFun hd key).trans h
  | cloned key id => exact ⟨he ▸ h.1, (congrFun hd key).trans h.2⟩
  | loaded key value => exact ⟨(congrFun hd key).trans h.1, h.2⟩
  | failed key => exact h
  | done reply => exact h

namespace SerialSys

variable {fromSlice : Bytes → Option Json} {x x' : SerialSys} {e : SerialEvent}
  {created : DashMap ℕ Bytes}

/-- The replies to commands that arrived and are still being served. -/
def Owes (x : SerialSys) (rs : List Bytes) : Prop :=
  x.conn.buf = [] ∧
    match x.conn.phase with
    | .ready => rs = []
    | .getting g => ∃ r, g.Owes x.st r ∧ rs = [Conn.getBytes r]
    | .closed => False

theorem Good.full (h : x.Good created) : x.st.Full := .of_inv h.inv

theorem Owes.mono {rs : List Bytes} (h : x.Owes rs) (hc : x'.conn = x.conn)
    (he : x'.st.redisEntries = x.st.redisEntries) (hd : x'.st.denotes = x.st.denotes) :
    x'.Owes rs := by
  unfold Owes at h ⊢
  rw [hc]
  refine ⟨h.1, ?_⟩
  cases hp : x.conn.phase with
  | ready => simpa [hp] using h.2
  | getting g =>
    have h2 := h.2
    rw [hp] at h2
    obtain ⟨r, hr, hrs⟩ := h2
    exact ⟨r, hr.mono he hd, hrs⟩
  | closed => simpa [hp] using h.2

/-- A connection that is ready owes nothing. -/
theorem Owes.ready {rs : List Bytes} (h : x.Owes rs) (hp : x.conn.phase = .ready) : rs = [] := by
  have h2 := h.2
  rwa [hp] at h2

theorem getStep_step {g : Get} (hp : x.conn.phase = .getting g) :
    x.step fromSlice .getStep =
      some { x with st := (x.conn.getStep x.st g).1, conn := (x.conn.getStep x.st g).2 } := by
  simp only [SerialSys.step, hp]

/-- A step of a GET gives the reply that is owed or owes it still, and it has less to do. -/
theorem Owes.getStep {rs : List Bytes} {g : Get} (h : x.Owes rs) (hf : x.st.Full)
    (hp : x.conn.phase = .getting g) (hs : x.step fromSlice .getStep = some x') :
    x'.st.denotes = x.st.denotes ∧ ∃ rs', x'.Owes rs' ∧ x'.conn.sent ++ rs' = x.conn.sent ++ rs ∧
      (x'.conn.phase = .ready ∨ ∃ g', x'.conn.phase = .getting g' ∧ g'.left < g.left) := by
  rw [getStep_step hp, Option.some.injEq] at hs
  subst hs
  obtain ⟨hbuf, h2⟩ := h
  rw [hp] at h2
  obtain ⟨r, hr, rfl⟩ := h2
  obtain ⟨hd, hnext⟩ := hr.step hf
  refine ⟨hd, ?_⟩
  rcases hnext with hdone | hnext
  · have hc : (x.conn.getStep x.st g).2 = x.conn.reply (Conn.getBytes r) := by
      simp only [Conn.getStep, hdone]
    refine ⟨[], ?_, ?_, .inl ?_⟩
    · simp [Owes, hc, Conn.reply, Conn.flush]
    · simp [hc, Conn.reply, Conn.flush, Conn.write, hbuf]
    · rw [hc]
      rfl
  · have hnot (q) : (g.step x.st).2 ≠ .done q := by
      intro hq
      rw [hq] at hnext
      exact hnext
    have hc : (x.conn.getStep x.st g).2 = { x.conn with phase := .getting (g.step x.st).2 } := by
      unfold Conn.getStep
      split
      · exact absurd ‹_› (hnot _)
      · rfl
    refine ⟨[Conn.getBytes r], ?_, ?_, .inr ⟨(g.step x.st).2, ?_, ?_⟩⟩
    · rw [Owes, hc]
      exact ⟨hbuf, r, hnext, rfl⟩
    · rw [hc]
    · rw [hc]
    · rcases g.left_step x.st with ⟨q, hq⟩ | hlt
      · exact absurd hq (hnot q)
      · exact hlt

theorem runUnlink_entries {s s' : State} {i : ℕ} (h : s.runUnlink i = some s') :
    s'.redisEntries = s.redisEntries := by
  unfold State.runUnlink at h
  split at h <;> cases h
  rfl

theorem Good.denotes_unlink {s' : State} {i : ℕ} (h : x.Good created)
    (hu : x.st.runUnlink i = some s') : s'.denotes = x.st.denotes := by
  obtain ⟨id, hop⟩ := runUnlink_store x.st x.pass.phase created hu
  funext k
  rw [State.denotes_eq_value s' x.pass.phase created, State.denotes_eq_value x.st x.pass.phase created]
  exact value_step h.inv h.settled hop (by simp) (by simp) _

/-- A step of a pass leaves every value as it is or takes it away. -/
theorem Good.denotes_evict {pick : ℕ} (h : x.Good created)
    (hs : x.step fromSlice (.evict pick) = some x') (k : Bytes) :
    x'.st.denotes k = none ∨ x'.st.denotes k = x.st.denotes k := by
  simp only [SerialSys.step] at hs
  split at hs
  · obtain ⟨⟨a, p'⟩, hn, rfl⟩ := Option.map_eq_some_iff.mp hs
    rw [State.denotes_eq_value _ p'.phase (x.pass.phase.record created),
      State.denotes_eq_value x.st x.pass.phase created]
    rcases (Pass.step_of_next hn).onStore created with heq | ⟨op, hop, hput, -, -⟩
    · exact .inr (congrArg (fun y => Store.value y (.inr k)) heq)
    · by_cases hdrop : ∃ K, op = .drop K
      · obtain ⟨K, rfl⟩ := hdrop
        by_cases hK : K (.inr k)
        · exact .inl ((value_drop hop).1 _ hK)
        · exact .inr ((value_drop hop).2 _ hK)
      · exact .inr (value_step h.inv h.settled hop hput (fun K hK => hdrop ⟨K, hK⟩) _)
  · cases hs

/-- A step of the server is the step of the plain map. -/
theorem step_refines {rs : List Bytes} (hg : x.Good created) (ho : x.Owes rs)
    (hs : x.step fromSlice e = some x') :
    ∃ new rs', MapStep x.st.denotes e new x'.st.denotes ∧ x'.Owes rs' ∧
      x'.conn.sent ++ rs' = x.conn.sent ++ rs ++ new := by
  cases e with
  | tick now =>
    cases hs
    exact ⟨[], rs, .other (by simp) (by simp), ho.mono rfl rfl rfl, by simp⟩
  | storeBlob d content mt =>
    simp only [SerialSys.step] at hs
    split at hs <;> cases hs
    obtain ⟨u, hst⟩ := storeBlob_eq x.st d content mt
    have hr : (x.st.storeBlob d content mt).redisEntries = x.st.redisEntries := by
      rw [hst]
    have hd : (x.st.storeBlob d content mt).denotes = x.st.denotes := by
      rw [hst]
      rfl
    refine ⟨[], rs, ?_, ho.mono rfl hr hd, by simp⟩
    rw [hd]
    exact .other (by simp) (by simp)
  | storeManifest d content mt =>
    simp only [SerialSys.step] at hs
    split at hs <;> cases hs
    exact ⟨[], rs, .other (by simp) (by simp), ho.mono rfl rfl rfl, by simp⟩
  | command args =>
    simp only [SerialSys.step] at hs
    split at hs <;> cases hs
    rename_i hc
    obtain ⟨hi, hk⟩ := hc
    obtain rfl := ho.ready (idle_iff.mp hi).2
    rw [dispatch_authed hg.apart.1 _ hk]
    obtain ⟨hd, hreply⟩ := authedCommand_serve hg.full x.conn hk
    have hm : MapStep x.st.denotes (.command args) [(serve x.st.denotes args).1]
        (x.conn.authedCommand x.st args).1.denotes := hd ▸ .command args
    rcases hreply with hreply | ⟨key, hget, hserve⟩
    · refine ⟨_, [], hm, ?_, ?_⟩
      · simp [Owes, hreply, Conn.reply, Conn.flush]
      · simp [hreply, Conn.reply, Conn.flush, Conn.write, ho.1]
    · refine ⟨_, [(serve x.st.denotes args).1], hm, ?_, ?_⟩
      · rw [Owes, hget]
        exact ⟨ho.1, x.st.denotes key, rfl, by rw [hserve]⟩
      · rw [hget]
        simp
  | getStep =>
    have hp : ∃ g, x.conn.phase = .getting g := by
      cases hp : x.conn.phase with
      | getting g => exact ⟨g, rfl⟩
      | ready => simp [SerialSys.step, hp] at hs
      | closed => simp [SerialSys.step, hp] at hs
    obtain ⟨g, hp⟩ := hp
    obtain ⟨hd, rs', ho', hsent, -⟩ := ho.getStep hg.full hp hs
    refine ⟨[], rs', ?_, ho', by rw [hsent, List.append_nil]⟩
    rw [hd]
    exact .other (by simp) (by simp)
  | unlink i =>
    obtain ⟨s', hu, rfl⟩ := Option.map_eq_some_iff.mp hs
    have hd := hg.denotes_unlink hu
    refine ⟨[], rs, ?_, ho.mono rfl (runUnlink_entries hu) hd, by simp⟩
    rw [hd]
    exact .other (by simp) (by simp)
  | evict pick =>
    have hm := hg.denotes_evict hs
    simp only [SerialSys.step] at hs
    split at hs
    · rename_i hready
      obtain ⟨r, hn, rfl⟩ := Option.map_eq_some_iff.mp hs
      obtain rfl := ho.ready hready
      refine ⟨[], [], .evict pick hm, ⟨ho.1, ?_⟩, by simp⟩
      simp [hready]
    · cases hs
  | nextPass =>
    simp only [SerialSys.step] at hs
    split at hs <;> cases hs
    exact ⟨[], rs, .other (by simp) (by simp), ho.mono rfl rfl rfl, by simp⟩

theorem run_refines {es : List SerialEvent} {rs : List Bytes} (hg : x.Good created)
    (ho : x.Owes rs) (hr : Machine.run (step fromSlice) x es = some x') :
    ∃ created' new rs', x'.Good created' ∧ MapRun x.st.denotes es new x'.st.denotes ∧
      x'.Owes rs' ∧ x'.conn.sent ++ rs' = x.conn.sent ++ rs ++ new := by
  induction es generalizing x created rs with
  | nil =>
    cases hr
    exact ⟨created, [], rs, hg, .nil _, ho, by simp⟩
  | cons e es ih =>
    obtain ⟨y, hs, hr⟩ := Machine.run_cons.mp hr
    obtain ⟨new, rs₁, hm, ho₁, hsent⟩ := step_refines hg ho hs
    obtain ⟨created', new', rs', hg', hm', ho', hsent'⟩ := ih (hg.step hs) ho₁ hr
    exact ⟨created', new ++ new', rs', hg', .cons hm hm', ho',
      by rw [hsent', hsent, List.append_assoc]⟩

/-- What a GET owes is sent within the steps it has left, and no value changes by it. -/
theorem Owes.answered (fromSlice : Bytes → Option Json) {n : ℕ} {rs : List Bytes} {g : Get}
    (hg : x.Good created) (ho : x.Owes rs) (hp : x.conn.phase = .getting g) (hl : g.left ≤ n) :
    ∃ m y, m ≤ n ∧ Machine.run (step fromSlice) x (List.replicate m .getStep) = some y ∧
      y.conn.phase = .ready ∧ y.conn.sent = x.conn.sent ++ rs ∧ y.st.denotes = x.st.denotes := by
  induction n generalizing x created rs g with
  | zero => cases g <;> cases hl
  | succ n ih =>
    obtain ⟨y, hs⟩ : ∃ y, x.step fromSlice .getStep = some y := ⟨_, getStep_step hp⟩
    obtain ⟨hd, rs', ho', hsent, hready | ⟨g', hp', hlt⟩⟩ := ho.getStep hg.full hp hs
    · refine ⟨1, y, Nat.succ_le_succ (Nat.zero_le n), ?_, hready, ?_, hd⟩
      · exact Machine.run_cons.mpr ⟨y, hs, rfl⟩
      · rw [← hsent, ho'.ready hready, List.append_nil]
    · obtain ⟨m, z, hm, hr, hz, hsent', hd'⟩ := ih (hg.step hs) ho' hp' (by omega)
      refine ⟨m + 1, z, Nat.succ_le_succ hm, ?_, hz, hsent'.trans hsent, hd'.trans hd⟩
      exact Machine.run_cons.mpr ⟨y, hs, hr⟩

end SerialSys

/-- The store refines a plain map. After every run, the command that is being served, if
any, is answered in at most three steps, and the replies are those that a plain map gives
along the same events, in which a pass may only take keys out. -/
theorem redis_refines_map (fromSlice : Bytes → Option Json) {s : State} (h : s.Intact)
    {es : List SerialEvent} {x : SerialSys}
    (hr : Machine.run (SerialSys.step fromSlice) (.init s) es = some x) :
    ∃ n y, n ≤ 3 ∧
      Machine.run (SerialSys.step fromSlice) x (List.replicate n .getStep) = some y ∧
      y.conn.phase = .ready ∧ MapRun s.denotes es y.conn.sent y.st.denotes := by
  have hstart : (SerialSys.init s).Owes [] := ⟨rfl, rfl⟩
  obtain ⟨created, new, rs, hg, hm, ho, hsent⟩ := SerialSys.run_refines (.init h) hstart hr
  have hnew : x.conn.sent ++ rs = new := by simpa [SerialSys.init] using hsent
  subst hnew
  have hm : MapRun s.denotes es (x.conn.sent ++ rs) x.st.denotes := hm
  cases hp : x.conn.phase with
  | ready =>
    obtain rfl := ho.ready hp
    exact ⟨0, x, Nat.zero_le 3, rfl, hp, by simpa using hm⟩
  | getting g =>
    have hl : g.left ≤ 3 := by cases g <;> simp [Get.left]
    obtain ⟨n, y, hn, hry, hready, hsy, hdy⟩ := ho.answered fromSlice hg hp hl
    rw [← hsy, ← hdy] at hm
    exact ⟨n, y, hn, hry, hready, hm⟩
  | closed =>
    have h2 := ho.2
    rw [hp] at h2
    exact h2.elim

/-- A large value is set, a whole pass spills it, and it is asked for. -/
def spilledGet : List SerialEvent :=
  .command [utf8 "SET", [107], List.replicate 1025 97] ::
    (List.replicate 17 (.evict 0) ++ [.command [utf8 "GET", [107]]])

theorem redis_refines_map_spilled :
    ∃ x, Machine.run (SerialSys.step fun _ => none) (.init (State.new ⟨0, none, 5000⟩ 0))
      spilledGet = some x ∧ x.st.diskIds = [0] ∧ x.conn.phase = .getting (.start [107]) ∧
      ∃ n y, n ≤ 3 ∧
        Machine.run (SerialSys.step fun _ => none) x (List.replicate n .getStep) = some y ∧
        y.conn.phase = .ready ∧
        MapRun (State.new ⟨0, none, 5000⟩ 0).denotes spilledGet y.conn.sent y.st.denotes := by
  have hrun : ((Machine.run (SerialSys.step fun _ => none) (.init (State.new ⟨0, none, 5000⟩ 0))
      spilledGet).map fun x => (x.st.diskIds, x.conn.phase)) =
      some ([0], .getting (.start [107])) := by decide +kernel
  obtain ⟨x, hr, hx⟩ := Option.map_eq_some_iff.mp hrun
  obtain ⟨hids, hp⟩ := Prod.mk.inj hx
  exact ⟨x, hr, hids, hp, redis_refines_map _ (State.Intact.new _ _) hr⟩

end Dockfoxprox

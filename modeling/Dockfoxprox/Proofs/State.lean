import Dockfoxprox.Model.Uploads

/-! What the operations of the state leave in the maps, whatever they do to the
counters. -/

namespace Dockfoxprox

@[simp] theorem removeRedis_fst (s : State) (key : Bytes) :
    (s.removeRedis key).1 = (s.redisEntries.lookup key).isSome := by
  unfold State.removeRedis
  cases s.redisEntries.lookup key <;> rfl

@[simp] theorem removeBlob_fst (s : State) (d : Digest) :
    (s.removeBlob d).1 = s.blobs.lookup d := by
  unfold State.removeBlob
  cases s.blobs.lookup d <;> rfl

@[simp] theorem removeManifest_fst (s : State) (d : Digest) :
    (s.removeManifest d).1 = s.manifests.lookup d := by
  unfold State.removeManifest
  cases s.manifests.lookup d <;> rfl

theorem erase_of_lookup_none {α β : Type} [DecidableEq α] {m : DashMap α β} {k : α}
    (h : m.lookup k = none) : m.erase k = m :=
  AList.ext (List.kerase_of_notMem_keys (AList.lookup_eq_none.mp h))

theorem insertBlob_eq (s : State) (d : Digest) (b : Blob) :
    ∃ u, s.insertBlob d b = { s with blobs := s.blobs.insert d b, usage := u } := by
  refine ⟨(s.insertBlob d b).usage, ?_⟩
  simp only [State.insertBlob, State.fetchAdd]
  cases s.blobs.lookup d <;> rfl

theorem storeBlob_eq (s : State) (d : Digest) (content : Bytes) (mt : String) :
    ∃ u, s.storeBlob d content mt =
      { s with
        blobs := s.blobs.insert d (.inMemory s.nextId content mt s.now)
        nextId := s.nextId + 1
        usage := u } :=
  insertBlob_eq { s with nextId := s.nextId + 1 } d (.inMemory s.nextId content mt s.now)

theorem removeBlob_eq (s : State) (d : Digest) :
    ∃ u, (s.removeBlob d).2 = { s with blobs := s.blobs.erase d, usage := u } := by
  refine ⟨(s.removeBlob d).2.usage, ?_⟩
  simp only [State.removeBlob]
  cases h : s.blobs.lookup d with
  | none => simp only [erase_of_lookup_none h]
  | some b => rfl

theorem insertManifest_eq (s : State) (d : Digest) (m : Manifest) :
    ∃ u, s.insertManifest d m = { s with manifests := s.manifests.insert d m, usage := u } :=
  ⟨_, rfl⟩

theorem removeManifest_eq (s : State) (d : Digest) :
    ∃ u, (s.removeManifest d).2 = { s with manifests := s.manifests.erase d, usage := u } := by
  refine ⟨(s.removeManifest d).2.usage, ?_⟩
  simp only [State.removeManifest]
  cases h : s.manifests.lookup d with
  | none => simp only [erase_of_lookup_none h]
  | some m => rfl

theorem digitChar_inj : ∀ a b : Fin 16, Nat.digitChar a = Nat.digitChar b → a = b := by
  decide +kernel

theorem hexDigits_inj {n a b : ℕ} (ha : a < 16 ^ n) (hb : b < 16 ^ n)
    (h : hexDigits n a = hexDigits n b) : a = b := by
  induction n generalizing a b with
  | zero => omega
  | succ n ih =>
    obtain ⟨hhi, hlo⟩ := List.append_inj' h rfl
    have hdiv : a / 16 = b / 16 := ih (by omega) (by omega) hhi
    have hmod : a % 16 = b % 16 := by
      have hd := digitChar_inj ⟨a % 16, by omega⟩ ⟨b % 16, by omega⟩ (List.singleton_inj.mp hlo)
      simpa using hd
    omega

/-- Two ids of 64 bits have one path only if they are the same. -/
theorem cachePath_inj {dataFolder : String} {a b : ℕ} (ha : a < 2 ^ 64) (hb : b < 2 ^ 64)
    (h : cachePath dataFolder a = cachePath dataFolder b) : a = b := by
  simp only [cachePath, List.cons.injEq, String.ofList_inj, and_true, true_and] at h
  exact hexDigits_inj (n := 16) ha hb h.2

end Dockfoxprox

import Dockfoxprox.Lib.Machine
import Dockfoxprox.Model.Manifests
import Dockfoxprox.Model.Router
import Dockfoxprox.Proofs.Uploads

/-! Every `Location` routes back. The last segment of one has no slash, so that the cuts from the
end of the path find it and the resource before it, and what is left is the name. -/

namespace Dockfoxprox

open Machine

theorem splitOnce_append {c : Char} {a b : List Char} (h : c ∉ a) :
    splitOnce c (a ++ c :: b) = some (a, b) := by
  induction a with
  | nil => simp [splitOnce]
  | cons x a ih =>
    obtain ⟨hx, ha⟩ := List.ne_and_not_mem_of_not_mem_cons h
    rw [List.cons_append, splitOnce, if_neg (Ne.symm hx), ih ha]
    rfl

theorem rsplitOnce_append {c : Char} {a b : List Char} (h : c ∉ b) :
    rsplitOnce c (a ++ c :: b) = some (a, b) := by
  have hrev : (a ++ c :: b).reverse = b.reverse ++ c :: a.reverse := by simp
  rw [rsplitOnce, hrev, splitOnce_append (by simpa using h)]
  simp

theorem digitChar_ne_slash : ∀ n < 16, Nat.digitChar n ≠ '/' := by decide

theorem toText_no_slash (d : Digest) : '/' ∉ d.toText.toList := by
  rw [Digest.toText, String.toList_append, List.mem_append, not_or]
  refine ⟨by decide, ?_⟩
  rw [String.toList_ofList, List.mem_flatMap]
  rintro ⟨b, -, hb⟩
  have hlt : b.toNat < 256 := b.toNat_lt
  rcases List.mem_cons.mp hb with heq | hb
  · exact digitChar_ne_slash _ (by omega) heq.symm
  · exact digitChar_ne_slash _ (by omega) (List.mem_singleton.mp hb).symm

/-- What stands between the name and the last slash. -/
def Resource.segment : Resource → String
  | .manifests => "/manifests"
  | .uploads => "/blobs/uploads"
  | .blobs => "/blobs"

theorem cutResource_append (resource : Resource) (name : List Char) {tail : List Char}
    (h : '/' ∉ tail) :
    cutResource (name ++ resource.segment.toList ++ '/' :: tail) = some (resource, name, tail) := by
  have hcut (rest tag : List Char) (htag : '/' ∉ tag) :
      rsplitOnce '/' (rest ++ '/' :: tag) = some (rest, tag) := rsplitOnce_append htag
  rw [cutResource, rsplitOnce_append h, Option.bind_some]
  cases resource with
  | manifests =>
    have htag := hcut name "manifests".toList (by decide)
    have hsegment : Resource.manifests.segment.toList = '/' :: "manifests".toList := rfl
    rw [hsegment]
    dsimp only
    rw [htag, Option.bind_some]
    dsimp only
    rw [String.ofList_toList, if_pos rfl]
  | uploads =>
    have htag := hcut (name ++ "/blobs".toList) "uploads".toList (by decide)
    have hsegment : Resource.uploads.segment.toList = "/blobs".toList ++ '/' :: "uploads".toList :=
      rfl
    have hname : (name ++ "/blobs".toList).dropSuffix? "/blobs".toList = some name :=
      List.dropSuffix?_eq_some_iff.mpr ⟨_, rfl, beq_self_eq_true _⟩
    rw [hsegment, ← List.append_assoc]
    dsimp only
    rw [htag, Option.bind_some]
    dsimp only
    rw [String.ofList_toList, if_neg (by decide), if_pos rfl, hname, Option.map_some]
  | blobs =>
    have htag := hcut name "blobs".toList (by decide)
    have hsegment : Resource.blobs.segment.toList = '/' :: "blobs".toList := rfl
    rw [hsegment]
    dsimp only
    rw [htag, Option.bind_some]
    dsimp only
    rw [String.ofList_toList, if_neg (by decide), if_neg (by decide), if_pos rfl]

/-- A path of the `self` registry is cut at the name and the last segment it was made of. -/
theorem cutPath_self (resource : Resource) (name : String) {tail : String}
    (h : '/' ∉ tail.toList) :
    cutPath ("/v2/self/" ++ name ++ resource.segment ++ "/" ++ tail) =
      .ok ⟨resource, "self", name, tail⟩ := by
  have hpath : ("/v2/self/" ++ name ++ resource.segment ++ "/" ++ tail).toList =
      "/v2/".toList ++ ("self".toList ++ '/' ::
        (name.toList ++ resource.segment.toList ++ '/' :: tail.toList)) := by
    simp
  have hpre (rest : List Char) : ("/v2/".toList ++ rest).dropPrefix? "/v2/".toList = some rest :=
    List.dropPrefix?_append_of_beq _ (beq_self_eq_true _)
  have hhost (rest : List Char) : splitOnce '/' ("self".toList ++ '/' :: rest) =
      some ("self".toList, rest) := splitOnce_append (by decide)
  have hvalid : validateHost "self" = .ok () := by decide
  have hne (rest : List Char) : ¬ ("self".toList = [] ∨
      name.toList ++ rest ++ '/' :: tail.toList = []) := by simp
  rw [cutPath, hpath]
  simp only [hpre, hhost, if_neg (hne _), cutResource_append resource name.toList h,
    String.ofList_toList, hvalid]

/-- Whoever asks for `path` is routed to this resource of the `self` registry. -/
def RoutesTo (base64Decode : String → Option Bytes) (config : RouterConfig) (path : String)
    (resource : Resource) (name tail : String) : Prop :=
  ∀ req : HttpRequest, req.path = path → checkAuth base64Decode config req = .ok () →
    handleRequestInner base64Decode config req =
      match resource.handler req.method with
      | some handler =>
        .ok (.handler handler ⟨req.method, "self", name, tail, req.query, req.contentType⟩)
      | none => .error (.methodNotAllowed req.method)

theorem routesTo_self (base64Decode : String → Option Bytes) (config : RouterConfig)
    (resource : Resource) (name : String) {tail : String} (h : '/' ∉ tail.toList) :
    RoutesTo base64Decode config ("/v2/self/" ++ name ++ resource.segment ++ "/" ++ tail) resource
      name tail := by
  intro req hpath hauth
  have hcut := cutPath_self resource name h
  rw [← hpath] at hcut
  have hversion : ¬ (req.path = "/v2" ∨ req.path = "/v2/") := by
    rintro (heq | heq)
    · rw [heq] at hcut
      cases hcut
    · rw [heq] at hcut
      cases hcut
  have hhost : aliasHost config "self" = "self" := rfl
  simp only [handleRequestInner, hauth, if_neg hversion, hcut, hhost, bind, Except.bind]
  cases resource.handler req.method <;> rfl

/-- A path as the handlers write it, with the slash before its last segment in a literal. -/
theorem routesTo_of_eq {base64Decode : String → Option Bytes} {config : RouterConfig}
    {resource : Resource} {name tail middle : String} (hm : middle = resource.segment ++ "/")
    (h : '/' ∉ tail.toList) :
    RoutesTo base64Decode config ("/v2/self/" ++ name ++ middle ++ tail) resource name tail := by
  have hself := routesTo_self base64Decode config resource name h
  rwa [hm, ← String.append_assoc]

/-- A response whose `Location` is the path of what its headers name: a blob or an upload. -/
def UploadLocated (crates : Crates) (name : String) (resp : Response) : Prop :=
  ∀ loc, ("Location", loc) ∈ resp.headers →
    (∃ got : Digest, ("Docker-Content-Digest", got.toText) ∈ resp.headers ∧
      loc = "/v2/self/" ++ name ++ "/blobs/" ++ got.toText) ∨
    ∃ uuid, ("Docker-Upload-UUID", crates.uuidText uuid) ∈ resp.headers ∧
      loc = uploadLocation crates name uuid

/-- A request that goes on with this name. -/
def UploadReq.Names (crates : Crates) (name : String) : UploadReq → Prop
  | .start r => r.name = name
  | .postBody n _ | .patchBody n _ _ | .patchLock n _ _ _ | .putBody n _ _ _ | .putLock n _ _ _ _
  | .putRemove n _ _ _ | .store n _ _ | .statusLock n _ _ => n = name
  | .done reply => ∀ resp, reply = .ok resp → UploadLocated crates name resp

section Uploads

variable {crates : Crates} {name : String}

theorem UploadReq.Names.refuse (status : ℕ) (msg : String) :
    (UploadReq.refuse status msg).Names crates name := by
  intro resp heq loc hloc
  cases heq
  simp [errorResponse] at hloc

theorem UploadReq.Names.error (e : DockerError) : (UploadReq.done (.error e)).Names crates name :=
  nofun

theorem UploadReq.Names.withBody {body : Except String Bytes} {k : Bytes → UploadReq}
    (h : ∀ chunk, (k chunk).Names crates name) :
    (UploadReq.withBody body k).Names crates name := by
  unfold UploadReq.withBody
  split
  · exact .error _
  · exact h _

theorem UploadReq.Names.accepted (uuid : Uuid) (range : String) :
    (UploadReq.respond (uploadAccepted crates name uuid range)).Names crates name := by
  intro resp heq loc hloc
  cases heq
  have hloc : loc = uploadLocation crates name uuid := by simpa [uploadAccepted] using hloc
  exact .inr ⟨uuid, by simp [uploadAccepted], hloc⟩

theorem UploadReq.Names.created (got : Digest) :
    (UploadReq.respond (blobCreated name got)).Names crates name := by
  intro resp heq loc hloc
  cases heq
  have hloc : loc = "/v2/self/" ++ name ++ "/blobs/" ++ got.toText := by
    simpa [blobCreated] using hloc
  exact .inl ⟨got, by simp [blobCreated], hloc⟩

theorem UploadReq.Names.status (u : Uploads) (uuid : Uuid) (upload : ℕ) :
    (UploadReq.respond (u.statusSection crates name uuid upload)).Names crates name := by
  intro resp heq loc hloc
  cases heq
  have hloc : loc = uploadLocation crates name uuid := by
    simpa [Uploads.statusSection] using hloc
  exact .inr ⟨uuid, by simp [Uploads.statusSection], hloc⟩

namespace Uploads

variable {u : Uploads}

theorem selfOnly_names {host : String} {method : Method} {k : Uploads × UploadReq}
    (h : k.2.Names crates name) : (u.selfOnly host method k).2.Names crates name := by
  unfold selfOnly
  split
  · exact .error _
  · exact h

theorem find_names {text : String} {k : Uuid → ℕ → UploadReq}
    (h : ∀ uuid upload, (k uuid upload).Names crates name) :
    (u.find crates text k).Names crates name := by
  unfold find
  split
  · exact .refuse _ _
  · split
    · exact .refuse _ _
    · exact h _ _

theorem start_names (u : Uploads) (fresh : Uuid) (r : Request) :
    (u.start crates fresh r).2.Names crates r.name := by
  unfold start
  split
  · refine selfOnly_names ?_
    split
    · split
      · exact .refuse _ _
      · exact rfl
    · exact .accepted _ _
  · exact selfOnly_names (find_names fun _ _ => rfl)
  · refine selfOnly_names ?_
    dsimp only
    repeat' split
    all_goals first | exact .refuse _ _ | exact rfl
  · refine selfOnly_names ?_
    split
    · exact .refuse _ _
    · intro resp heq loc hloc
      cases heq
      simp at hloc
  · exact selfOnly_names (find_names fun _ _ => rfl)
  · exact .error _

/-- A request keeps its name, up to the `Location` of its response. -/
theorem step_names (u : Uploads) (inp : Input) {r : UploadReq} (h : r.Names crates name) :
    (u.step crates inp r).2.Names crates name := by
  cases r with
  | start r =>
    obtain rfl : r.name = name := h
    exact start_names u inp.uuid r
  | postBody n expected =>
    obtain rfl : n = name := h
    refine .withBody fun body => ?_
    unfold postCheck
    split
    · exact .refuse _ _
    · exact rfl
  | patchBody n uuid upload => exact .withBody fun _ => h
  | patchLock n uuid upload chunk =>
    obtain rfl : n = name := h
    exact .accepted _ _
  | putBody n uuid expected upload => exact .withBody fun _ => h
  | putLock n uuid expected upload chunk =>
    simp only [step, putSection]
    split
    · exact .refuse _ _
    · exact h
  | putRemove n uuid got buf => exact h
  | store n got content =>
    obtain rfl : n = name := h
    exact .created got
  | statusLock n uuid upload =>
    obtain rfl : n = name := h
    exact .status u uuid upload
  | done reply => exact h

end Uploads

theorem UploadSys.step_names {s s' : UploadSys} {i : ℕ} {e : UploadEvent}
    (h : ∃ r, s.reqs[i]? = some r ∧ r.Names crates name) (hs : UploadSys.step crates s e = some s') :
    ∃ r, s'.reqs[i]? = some r ∧ r.Names crates name := by
  obtain ⟨r, hi, hname⟩ := h
  cases e with
  | request r' =>
    cases hs
    exact ⟨r, by rw [List.getElem?_append_left (List.getElem?_eq_some_iff.mp hi).1, hi], hname⟩
  | step j inp =>
    simp only [UploadSys.step] at hs
    split at hs
    · cases hs
    · rename_i r' hj
      cases hs
      obtain rfl | hne := eq_or_ne j i
      · obtain rfl : r = r' := Option.some.inj (hi.symm.trans hj)
        refine ⟨_, ?_, Uploads.step_names s.shared inp hname⟩
        exact List.getElem?_set_self (List.getElem?_eq_some_iff.mp hi).1
      · exact ⟨r, (List.getElem?_set_ne hne).trans hi, hname⟩
  | _ =>
    have hreqs : s'.reqs = s.reqs := by
      simp only [UploadSys.step] at hs
      repeat' split at hs
      all_goals cases hs
      all_goals rfl
    exact ⟨r, by rw [hreqs, hi], hname⟩

theorem UploadSys.run_names {s s' : UploadSys} {i : ℕ} {es : List UploadEvent}
    (h : ∃ r, s.reqs[i]? = some r ∧ r.Names crates name)
    (hr : run (UploadSys.step crates) s es = some s') :
    ∃ r, s'.reqs[i]? = some r ∧ r.Names crates name := by
  have hstep : ∀ (s : UploadSys) (e : UploadEvent) (s' : UploadSys),
      (∃ r, s.reqs[i]? = some r ∧ r.Names crates name) → True →
      UploadSys.step crates s e = some s' → ∃ r, s'.reqs[i]? = some r ∧ r.Names crates name :=
    fun _ _ _ h _ hs => UploadSys.step_names h hs
  exact run_invariant_of_mem hstep h (fun _ _ => trivial) hr

end Uploads

section Manifests

variable {crates : Crates} {name : String}

/-- A response whose `Location` is the path of the manifest its headers name. -/
def ManifestLocated (name : String) (resp : Response) : Prop :=
  ∀ loc, ("Location", loc) ∈ resp.headers →
    ∃ got : Digest, ("Docker-Content-Digest", got.toText) ∈ resp.headers ∧
      loc = "/v2/self/" ++ name ++ "/manifests/" ++ got.toText

def ManifestReq.Names (name : String) : ManifestReq → Prop
  | .start r | .resolve r | .lookup r _ | .fetch r _ | .putBody r | .putInsert r _ | .putTag r _
  | .putDigest r _ => r.name = name
  | .done reply => ∀ resp, reply = .ok resp → ManifestLocated name resp

theorem ManifestReq.Names.error (e : DockerError) : (ManifestReq.done (.error e)).Names name :=
  nofun

theorem ManifestReq.Names.returned (resp : UpstreamResponse) :
    (ManifestReq.done (.ok (upstreamReturned crates resp))).Names name := by
  intro resp' heq loc hloc
  cases heq
  simp [upstreamReturned, errorResponse] at hloc

theorem ManifestReq.Names.served (m : Manifest) (head : Bool) (digest : Digest) :
    (ManifestReq.done (.ok (serveManifest m head digest))).Names name := by
  intro resp heq loc hloc
  cases heq
  simp [serveManifest] at hloc

theorem ManifestReq.Names.created (digest : Digest) :
    (ManifestReq.done (.ok (manifestCreated name digest))).Names name := by
  intro resp heq loc hloc
  cases heq
  have hloc : loc = "/v2/self/" ++ name ++ "/manifests/" ++ digest.toText := by
    simpa [manifestCreated] using hloc
  exact ⟨digest, by simp [manifestCreated], hloc⟩

/-- A request keeps its name, up to the `Location` of its response. -/
theorem State.manifestStep_names (s : State) (inp : ManifestInput) {r : ManifestReq}
    (h : r.Names name) : (s.manifestStep crates inp r).2.Names name := by
  cases r with
  | start r =>
    simp only [manifestStep, startManifest, resolveReference]
    repeat' split
    all_goals first | exact h | exact .error _
  | resolve r =>
    simp only [manifestStep, resolveTag]
    repeat' split
    all_goals first | exact h | exact .error _ | exact .returned _
  | lookup r digest =>
    simp only [manifestStep, lookupManifest]
    repeat' split
    all_goals first | exact h | exact .error _ | exact .served _ _ _
  | fetch r digest =>
    simp only [manifestStep, fetchManifest]
    repeat' split
    all_goals first | exact .error _ | exact .returned _ | exact .served _ _ _
  | putBody r =>
    simp only [manifestStep, State.putBody]
    split
    · exact .error _
    · exact h
  | putInsert r body =>
    simp only [manifestStep, State.putInsert]
    split <;> exact h
  | putTag r digest => exact h
  | putDigest r digest =>
    obtain rfl : r.name = name := h
    exact .created digest
  | done reply => exact h

theorem ManifestSys.step_names {s s' : ManifestSys} {i : ℕ} {e : ManifestEvent}
    (h : ∃ r, s.reqs[i]? = some r ∧ r.Names name) (hs : ManifestSys.step crates s e = some s') :
    ∃ r, s'.reqs[i]? = some r ∧ r.Names name := by
  obtain ⟨r, hi, hname⟩ := h
  cases e with
  | tick now =>
    cases hs
    exact ⟨r, hi, hname⟩
  | request r' =>
    cases hs
    exact ⟨r, by rw [List.getElem?_append_left (List.getElem?_eq_some_iff.mp hi).1, hi], hname⟩
  | step j inp =>
    simp only [ManifestSys.step] at hs
    split at hs
    · cases hs
    · rename_i r' hj
      cases hs
      obtain rfl | hne := eq_or_ne j i
      · obtain rfl : r = r' := Option.some.inj (hi.symm.trans hj)
        refine ⟨_, ?_, @State.manifestStep_names crates _ s.st inp _ hname⟩
        exact List.getElem?_set_self (List.getElem?_eq_some_iff.mp hi).1
      · exact ⟨r, (List.getElem?_set_ne hne).trans hi, hname⟩

theorem ManifestSys.run_names {s s' : ManifestSys} {i : ℕ} {es : List ManifestEvent}
    (h : ∃ r, s.reqs[i]? = some r ∧ r.Names name)
    (hr : run (ManifestSys.step crates) s es = some s') :
    ∃ r, s'.reqs[i]? = some r ∧ r.Names name := by
  have hstep : ∀ (s : ManifestSys) (e : ManifestEvent) (s' : ManifestSys),
      (∃ r, s.reqs[i]? = some r ∧ r.Names name) → True →
      ManifestSys.step crates s e = some s' → ∃ r, s'.reqs[i]? = some r ∧ r.Names name :=
    fun _ _ _ h _ hs => ManifestSys.step_names h hs
  exact run_invariant_of_mem hstep h (fun _ _ => trivial) hr

end Manifests

/-- Every `Location` that an upload or a manifest request is answered with is routed back to the
`self` registry, to the name of the request and to the uuid or the digest that the response
names, whatever the path the request came by and whatever runs beside it. -/
theorem locations_route_back (crates : Crates)
    (huuid : ∀ uuid, '/' ∉ (crates.uuidText uuid).toList)
    (base64Decode : String → Option Bytes) (config : RouterConfig) (r : Request) (i : ℕ)
    (resp : Response) (loc : String) (hloc : ("Location", loc) ∈ resp.headers) :
    (∀ (s s' : UploadSys) (es : List UploadEvent), s.reqs[i]? = some (.start r) →
      run (UploadSys.step crates) s es = some s' → s'.reqs[i]? = some (.done (.ok resp)) →
        (∃ got : Digest, ("Docker-Content-Digest", got.toText) ∈ resp.headers ∧
          RoutesTo base64Decode config loc .blobs r.name got.toText) ∨
        ∃ uuid, ("Docker-Upload-UUID", crates.uuidText uuid) ∈ resp.headers ∧
          RoutesTo base64Decode config loc .uploads r.name (crates.uuidText uuid)) ∧
    (∀ (s s' : ManifestSys) (es : List ManifestEvent), s.reqs[i]? = some (.start r) →
      run (ManifestSys.step crates) s es = some s' → s'.reqs[i]? = some (.done (.ok resp)) →
        ∃ got : Digest, ("Docker-Content-Digest", got.toText) ∈ resp.headers ∧
          RoutesTo base64Decode config loc .manifests r.name got.toText) := by
  constructor
  · intro s s' es hi hrun hdone
    obtain ⟨r', hr', hname⟩ := UploadSys.run_names ⟨_, hi, rfl⟩ hrun
    obtain rfl := Option.some.inj (hr'.symm.trans hdone)
    obtain ⟨got, hgot, rfl⟩ | ⟨uuid, hu, rfl⟩ := hname resp rfl loc hloc
    · exact .inl ⟨got, hgot, routesTo_of_eq rfl (toText_no_slash got)⟩
    · exact .inr ⟨uuid, hu, routesTo_of_eq rfl (huuid uuid)⟩
  · intro s s' es hi hrun hdone
    obtain ⟨r', hr', hname⟩ := ManifestSys.run_names ⟨_, hi, rfl⟩ hrun
    obtain rfl := Option.some.inj (hr'.symm.trans hdone)
    obtain ⟨got, hgot, rfl⟩ := hname resp rfl loc hloc
    exact ⟨got, hgot, routesTo_of_eq rfl (toText_no_slash got)⟩

theorem ManifestSys.replyTo_eq_some {y : ManifestSys} {i : ℕ} {reply : Reply} :
    y.replyTo i = some reply ↔ y.reqs[i]? = some (.done reply) := by
  unfold replyTo
  split
  · rename_i r hr
    simp [hr]
  · rename_i hno
    exact iff_of_false (fun h => by cases h) (hno reply)

/-! An upload into a repository whose name is made of the words of the paths. -/

def nestedHttp : HttpRequest where
  method := .post
  path := "/v2/self/blobs/uploads//manifests/blobs/uploads/"

def nestedPost : Request where
  method := .post
  upstreamHost := "self"
  name := "blobs/uploads//manifests"
  tail := ""

def openRouter : RouterConfig := ⟨[], ∅⟩

/-- A manifest is put into the same repository. -/
def nestedPut : Request where
  method := .put
  upstreamHost := "self"
  name := "blobs/uploads//manifests"
  tail := "latest"

theorem locations_route_back_nested :
    handleRequestInner (fun _ => none) openRouter nestedHttp =
      .ok (.handler .postBlobUpload nestedPost) ∧
    RoutesTo (fun _ => none) openRouter
      ("/v2/self/blobs/uploads//manifests/blobs/uploads/" ++ uploadUuidText) .uploads
      "blobs/uploads//manifests" uploadUuidText ∧
    ∃ loc, RoutesTo (fun _ => none) openRouter loc .manifests "blobs/uploads//manifests"
      letterDigest.toText := by
  have hrun : ∃ t, run (UploadSys.step tableCrates) (.init freshState)
      [.request nestedPost, .step 0 { uuid := uploadUuid }] = some t ∧
      t.reqs[0]? = some (.respond (uploadAccepted tableCrates nestedPost.name uploadUuid "0-0")) :=
    ⟨_, rfl, rfl⟩
  obtain ⟨t, ht, hdone⟩ := hrun
  obtain ⟨s, hs, ht⟩ := run_cons.mp ht
  cases hs
  have htext : '/' ∉ uploadUuidText.toList := by decide
  have huuid : ∀ uuid, '/' ∉ (tableCrates.uuidText uuid).toList := fun _ => htext
  have h := (locations_route_back tableCrates huuid (fun _ => none) openRouter nestedPost 0
    (uploadAccepted tableCrates nestedPost.name uploadUuid "0-0") _ (List.mem_cons_self)).1 _ t _
    rfl ht hdone
  -- the other half, on a PUT of a manifest
  have hput : ((run (ManifestSys.step tableCrates) ⟨freshState, []⟩
      [.request nestedPut, .step 0 {}, .step 0 { body := .ok (utf8 "a") }, .step 0 {},
        .step 0 {}, .step 0 {}]).map fun y => y.replyTo 0) =
      some (some (.ok (manifestCreated nestedPut.name letterDigest))) := by decide +kernel
  obtain ⟨y, hy, hreply⟩ := Option.map_eq_some_iff.mp hput
  have hcreated := ManifestSys.replyTo_eq_some.mp hreply
  obtain ⟨y₀, hy₀, hy⟩ := run_cons.mp hy
  cases hy₀
  obtain ⟨got, hgot, hmanifest⟩ := (locations_route_back tableCrates huuid (fun _ => none) openRouter
    nestedPut 0 (manifestCreated nestedPut.name letterDigest) _ (List.mem_cons_self)).2 _ y _ rfl hy
    hcreated
  have htext : got.toText = letterDigest.toText := by simpa [manifestCreated] using hgot
  rw [htext] at hmanifest
  refine ⟨by rfl, ?_, _, hmanifest⟩
  obtain ⟨got, hgot, -⟩ | ⟨uuid, -, hroutes⟩ := h
  · simp [uploadAccepted] at hgot
  · exact hroutes

end Dockfoxprox

import Dockfoxprox.Model.Eviction
import Dockfoxprox.Model.Manifests

/-! Manifest requests beside eviction passes. A `put_manifest` stores the manifest first
and its tags after it, a pass removes a manifest first and the tags on it after that, and
the steps of all of them interleave. One pass runs at a time, any number after another. -/

namespace Dockfoxprox

structure TagSys where
  st : State
  pass : Pass
  reqs : List ManifestReq

/-- No request yet, and a pass that is about to begin. -/
def TagSys.init (s : State) : TagSys := ⟨s, .start, []⟩

inductive TagEvent where
  | tick (now : ℕ)
  | request (r : Request)
  | step (i : ℕ) (inp : ManifestInput)
  | evict (c : Choice)
  | nextPass

/-- A pass that has returned. -/
def Pass.ended (p : Pass) : Bool := p.phase = .done ∨ p.phase = .failed

def TagSys.step (crates : Crates) (fromSlice : Bytes → Option Json) (x : TagSys) :
    TagEvent → Option TagSys
  | .tick now => some { x with st := { x.st with now := now } }
  | .request r => some { x with reqs := x.reqs ++ [.start r] }
  | .step i inp =>
    match x.reqs[i]? with
    | none => none
    | some q =>
      some { x with
        st := (x.st.manifestStep crates inp q).1
        reqs := x.reqs.set i (x.st.manifestStep crates inp q).2 }
  | .evict c =>
    (Pass.next fromSlice x.st x.pass c).map fun r => { x with st := r.1.apply x.st, pass := r.2 }
  | .nextPass => if x.pass.ended then some { x with pass := .start } else none

/-- The digest a request has stored a manifest for and not yet tagged. -/
def ManifestReq.tagging : ManifestReq → Option Digest
  | .putTag _ d | .putDigest _ d => some d
  | _ => none

end Dockfoxprox

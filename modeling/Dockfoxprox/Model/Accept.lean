import Dockfoxprox.Model.Challenge

/-! The `Accept` header of an upstream manifest request in `docker.rs`. -/

namespace Dockfoxprox

/-- The constant `MANIFEST_ACCEPT_TYPES`. -/
def manifestAcceptTypes : List String := [
  "application/vnd.oci.image.index.v1+json",
  "application/vnd.oci.image.manifest.v1+json",
  "application/vnd.docker.distribution.manifest.list.v2+json",
  "application/vnd.docker.distribution.manifest.v2+json",
  "application/vnd.docker.distribution.manifest.v1+json",
  "application/vnd.docker.distribution.manifest.v1+prettyjws"]

def eqIgnoreAsciiCase (s t : String) : Bool := toAsciiLowercase s = toAsciiLowercase t

/-- A part of the header up to its first semicolon, `split(';').next().unwrap_or("").trim()`. -/
def mediaType (part : List Char) : String :=
  trim (String.ofList ((part.splitOn ';').head?.getD []))

/-- One part of the client's header. -/
def acceptPart (out : List String) (part : List Char) : List String :=
  let t := mediaType part
  if t = "" ∨ t = "*/*" then out
  else if out.any fun e => eqIgnoreAsciiCase e t then out
  else out ++ [t]

/-- The upstream `Accept`: the known types, and what else the client asks for. -/
def manifestAccept (clientAccept : Option String) : String :=
  let out := match clientAccept with
    | none => manifestAcceptTypes
    | some a => (a.toList.splitOn ',').foldl acceptPart manifestAcceptTypes
  ", ".intercalate out

end Dockfoxprox

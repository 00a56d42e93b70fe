import Dockfoxprox.Lib.Adjoin
import Dockfoxprox.Model.Accept
import Dockfoxprox.Proofs.Challenge
import Mathlib.Data.List.TakeWhile

/-! The `Accept` header of a manifest request: the known types with the client's own behind them,
none of them twice. -/

namespace Dockfoxprox

open Adjoin

/-- Neither nothing nor everything. -/
def isSpecific (t : String) : Bool := t ≠ "" ∧ t ≠ "*/*"

/-- What a client asks for: the parts of its header up to their parameters, trimmed, without
empty ones and wildcards. -/
def clientTypes (a : String) : List String :=
  ((a.toList.splitOn ',').map fun part => trim (String.ofList (part.takeWhile (· ≠ ';')))).filter
    isSpecific

example : clientTypes " text/X ; q=1,*/*,,a b;,TEXT/x" = ["text/X", "a b", "TEXT/x"] := by decide

/-- Those of them that are not known, each where it appears first. -/
def newTypes (a : String) : List String :=
  ((clientTypes a).filter fun t =>
    !manifestAcceptTypes.any fun e => eqIgnoreAsciiCase e t).eraseDupsBy eqIgnoreAsciiCase

/-- The pieces of a text between its separators `, `. -/
def splitCommaSpace : List Char → List (List Char)
  | [] => [[]]
  | ',' :: ' ' :: rest => [] :: splitCommaSpace rest
  | c :: rest => (splitCommaSpace rest).modifyHead (c :: ·)

theorem eqIgnoreAsciiCase_refl (s : String) : eqIgnoreAsciiCase s s := decide_eq_true rfl

theorem eqIgnoreAsciiCase_comm (s t : String) : eqIgnoreAsciiCase s t = eqIgnoreAsciiCase t s :=
  decide_eq_decide.mpr eq_comm

/-! The loop. -/

theorem head?_splitOn (c : Char) (s : List Char) :
    (s.splitOn c).head? = some (s.takeWhile (· ≠ c)) := by
  induction s with
  | nil => rfl
  | cons x xs ih =>
    rw [List.splitOn_cons_eq_if_modifyHead, List.takeWhile_cons]
    by_cases hx : x = c
    · simp [hx]
    · simp [hx, List.head?_modifyHead, ih]

theorem mediaType_eq (part : List Char) :
    mediaType part = trim (String.ofList (part.takeWhile (· ≠ ';'))) := by
  rw [mediaType, head?_splitOn, Option.getD_some]

theorem acceptPart_eq (out : List String) (part : List Char) : acceptPart out part =
    if isSpecific (mediaType part) then adjoin eqIgnoreAsciiCase out (mediaType part)
    else out := by
  simp only [acceptPart, adjoin, isSpecific, decide_eq_true_eq]
  by_cases h : mediaType part = "" ∨ mediaType part = "*/*"
  · rw [if_pos h, if_neg fun hne => h.elim hne.1 hne.2]
  · rw [if_neg h, if_pos (not_or.mp h)]

theorem foldl_acceptPart (parts : List (List Char)) (out : List String) :
    parts.foldl acceptPart out =
      ((parts.map mediaType).filter isSpecific).foldl (adjoin eqIgnoreAsciiCase) out := by
  induction parts generalizing out with
  | nil => rfl
  | cons part parts ih =>
    rw [List.foldl_cons, ih, acceptPart_eq, List.map_cons]
    by_cases h : isSpecific (mediaType part)
    · rw [if_pos h, List.filter_cons_of_pos h, List.foldl_cons]
    · rw [if_neg h, List.filter_cons_of_neg h]

/-- The types the header lists. -/
def acceptTypes (a : String) : List String :=
  (clientTypes a).foldl (adjoin eqIgnoreAsciiCase) manifestAcceptTypes

theorem manifestAccept_some (a : String) :
    manifestAccept (some a) = ", ".intercalate (acceptTypes a) := by
  simp only [manifestAccept, foldl_acceptPart, acceptTypes, clientTypes, funext mediaType_eq]

theorem acceptTypes_eq (a : String) : acceptTypes a = manifestAcceptTypes ++ newTypes a := by
  have hcomm : (fun t e => eqIgnoreAsciiCase e t) = eqIgnoreAsciiCase := by
    funext t e
    exact eqIgnoreAsciiCase_comm e t
  rw [acceptTypes, foldl_eq, newTypes, hcomm]

/-! The texts of media types. -/

/-- A text that comes back from a header it is put in. -/
structure IsMediaType (t : String) : Prop where
  comma : ',' ∉ t.toList
  semicolon : ';' ∉ t.toList
  trimmed : trim t = t
  nonempty : t ≠ ""
  specific : t ≠ "*/*"

theorem known_chars : ∀ t ∈ manifestAcceptTypes, isSpecific t ∧
    ∀ c ∈ t.toList, c ≠ ',' ∧ c ≠ ';' ∧ isWhitespace c = false ∧ c.toLower = c := by
  have hall : (manifestAcceptTypes.all fun t => isSpecific t && t.toList.all fun c =>
      c != ',' && (c != ';' && (!isWhitespace c && c.toLower == c))) = true := by decide +kernel
  simpa using hall

theorem isMediaType_known {t : String} (h : t ∈ manifestAcceptTypes) : IsMediaType t := by
  obtain ⟨hspecific, hchars⟩ := known_chars t h
  have hne := of_decide_eq_true hspecific
  exact ⟨fun hc => (hchars _ hc).1 rfl, fun hc => (hchars _ hc).2.1 rfl,
    trim_eq fun c hc => (hchars c hc).2.2.1, hne.1, hne.2⟩

theorem mem_trim {s : String} {c : Char} (h : c ∈ (trim s).toList) : c ∈ s.toList := by
  rw [trim, String.toList_ofList] at h
  exact (List.dropWhile_sublist _).subset ((List.rdropWhile_prefix _ _).subset h)

theorem trim_trim (s : String) : trim (trim s) = trim s := by
  have hdrop : ((s.toList.dropWhile isWhitespace).rdropWhile isWhitespace).dropWhile isWhitespace =
      (s.toList.dropWhile isWhitespace).rdropWhile isWhitespace := by
    obtain ⟨rest, hrest⟩ := List.rdropWhile_prefix isWhitespace (s.toList.dropWhile isWhitespace)
    have hhead := List.head?_dropWhile_not isWhitespace s.toList
    cases htrim : (s.toList.dropWhile isWhitespace).rdropWhile isWhitespace with
    | nil => rfl
    | cons c cs =>
      rw [← hrest, htrim] at hhead
      exact List.dropWhile_cons_of_neg (by simpa using hhead)
  unfold trim
  rw [String.toList_ofList, hdrop, List.rdropWhile_idempotent]

theorem trim_space_cons (t : List Char) :
    trim (String.ofList (' ' :: t)) = trim (String.ofList t) := by
  have hspace : isWhitespace ' ' := by decide
  rw [trim, trim, String.toList_ofList, String.toList_ofList, List.dropWhile_cons_of_pos hspace]

theorem notMem_splitOn {c : Char} {s p : List Char} (h : p ∈ s.splitOn c) : c ∉ p := by
  induction s generalizing p with
  | nil => simp_all
  | cons x xs ih =>
    rw [List.splitOn_cons_eq_if_modifyHead] at h
    split at h
    · obtain rfl | h := List.mem_cons.mp h
      · exact List.not_mem_nil
      · exact ih h
    · rename_i hx
      cases hxs : xs.splitOn c with
      | nil => exact absurd hxs (List.splitOn_ne_nil c xs)
      | cons q qs =>
        rw [hxs] at h ih
        obtain rfl | h := List.mem_cons.mp h
        · have hne : c ≠ x := fun heq => hx (by simp [heq])
          exact List.not_mem_cons_of_ne_of_not_mem hne (ih List.mem_cons_self)
        · exact ih (List.mem_cons_of_mem q h)

theorem isMediaType_client {a t : String} (h : t ∈ clientTypes a) : IsMediaType t := by
  obtain ⟨hmem, hask⟩ := List.mem_filter.mp h
  obtain ⟨part, hpart, rfl⟩ := List.mem_map.mp hmem
  have hspecific := of_decide_eq_true hask
  have hsub {c : Char} (hc : c ∈ (trim (String.ofList (part.takeWhile (· ≠ ';')))).toList) :
      c ∈ part.takeWhile (· ≠ ';') := by simpa using mem_trim hc
  refine ⟨fun hc => ?_, fun hc => ?_, trim_trim _, hspecific.1, hspecific.2⟩
  · exact notMem_splitOn hpart ((List.takeWhile_prefix _).subset (hsub hc))
  · exact absurd (List.mem_takeWhile_imp (hsub hc)) (by simp)

theorem isMediaType_accept {a t : String} (h : t ∈ acceptTypes a) : IsMediaType t := by
  obtain h | h := mem_foldl h
  · exact isMediaType_known h
  · exact isMediaType_client h

/-! The header as a text. -/

theorem splitCommaSpace_cons {c : Char} (h : c ≠ ',') (rest : List Char) :
    splitCommaSpace (c :: rest) = (splitCommaSpace rest).modifyHead (c :: ·) := by
  rw [splitCommaSpace]
  intro rest' heq
  exact absurd heq h

theorem splitCommaSpace_self {t : List Char} (h : ',' ∉ t) : splitCommaSpace t = [t] := by
  induction t with
  | nil => rfl
  | cons c t ih =>
    rw [List.mem_cons, not_or] at h
    rw [splitCommaSpace_cons (Ne.symm h.1), ih h.2]
    rfl

theorem splitCommaSpace_append {t : List Char} (h : ',' ∉ t) (rest : List Char) :
    splitCommaSpace (t ++ ',' :: ' ' :: rest) = t :: splitCommaSpace rest := by
  induction t with
  | nil => rfl
  | cons c t ih =>
    rw [List.mem_cons, not_or] at h
    rw [List.cons_append, splitCommaSpace_cons (Ne.symm h.1), ih h.2]
    rfl

theorem toList_intercalate_cons (t u : String) (ts : List String) :
    (", ".intercalate (t :: u :: ts)).toList =
      t.toList ++ ',' :: ' ' :: (", ".intercalate (u :: ts)).toList := by
  rw [String.intercalate_cons_cons, String.toList_append, String.toList_append, List.append_assoc]
  rfl

/-- Types without commas are the pieces of the header they are joined to. -/
theorem splitCommaSpace_intercalate {ts : List String} (hne : ts ≠ [])
    (h : ∀ t ∈ ts, ',' ∉ t.toList) :
    splitCommaSpace (", ".intercalate ts).toList = ts.map String.toList := by
  induction ts with
  | nil => exact absurd rfl hne
  | cons t ts ih =>
    cases ts with
    | nil =>
      rw [String.intercalate_singleton]
      exact splitCommaSpace_self (h t List.mem_cons_self)
    | cons u ts =>
      rw [toList_intercalate_cons, splitCommaSpace_append (h t List.mem_cons_self),
        ih (List.cons_ne_nil u ts) fun v hv => h v (List.mem_cons_of_mem t hv)]
      rfl

/-- Between the commas alone, all but the first have a space in front. -/
theorem splitOn_intercalate_cons {t : String} {ts : List String}
    (h : ∀ u ∈ t :: ts, ',' ∉ u.toList) :
    (", ".intercalate (t :: ts)).toList.splitOn ',' =
      t.toList :: ts.map fun u => ' ' :: u.toList := by
  induction ts generalizing t with
  | nil =>
    rw [String.intercalate_singleton]
    exact List.splitOn_eq_singleton (h t List.mem_cons_self)
  | cons u ts ih =>
    rw [toList_intercalate_cons,
      List.splitOn_append_cons_self_of_not_mem (h t List.mem_cons_self),
      List.splitOn_cons_eq_if_modifyHead, if_neg (by decide),
      ih fun v hv => h v (List.mem_cons_of_mem t hv)]
    rfl

theorem IsMediaType.of_part {t : String} (h : IsMediaType t) :
    trim (String.ofList (t.toList.takeWhile (· ≠ ';'))) = t := by
  have htake : t.toList.takeWhile (· ≠ ';') = t.toList :=
    List.takeWhile_eq_self_iff.mpr fun c hc =>
      decide_eq_true fun heq => h.semicolon (heq ▸ hc)
  rw [htake, String.ofList_toList, h.trimmed]

/-- A client that lists media types asks for them. -/
theorem clientTypes_intercalate {ts : List String} (hne : ts ≠ []) (h : ∀ t ∈ ts, IsMediaType t) :
    clientTypes (", ".intercalate ts) = ts := by
  obtain ⟨t, ts, rfl⟩ := List.exists_cons_of_ne_nil hne
  have hspace (u : String) : (' ' :: u.toList).takeWhile (· ≠ ';') =
      ' ' :: u.toList.takeWhile (· ≠ ';') := List.takeWhile_cons_of_pos (by decide)
  rw [clientTypes, splitOn_intercalate_cons fun u hu => (h u hu).comma, List.map_cons, List.map_map]
  have hmap : ts.map ((fun part => trim (String.ofList (part.takeWhile (· ≠ ';')))) ∘
      fun u => ' ' :: u.toList) = ts := by
    rw [List.map_congr_left fun u hu => ?_, List.map_id]
    rw [Function.comp_apply, hspace, trim_space_cons]
    exact (h u (List.mem_cons_of_mem t hu)).of_part
  rw [hmap, (h t List.mem_cons_self).of_part, List.filter_eq_self]
  intro u hu
  exact decide_eq_true ⟨(h u hu).nonempty, (h u hu).specific⟩

/-! The merge. -/

theorem distinct_known : Distinct eqIgnoreAsciiCase manifestAcceptTypes := by
  have hlower {t : String} (h : t ∈ manifestAcceptTypes) : toAsciiLowercase t = t := by
    rw [toAsciiLowercase, List.map_congr_left fun c hc => ((known_chars t h).2 c hc).2.2.2,
      List.map_id', String.ofList_toList]
  have hnodup : manifestAcceptTypes.Nodup := by simp [manifestAcceptTypes]
  exact hnodup.imp_of_mem fun hs ht hne => by
    rw [eqIgnoreAsciiCase, hlower hs, hlower ht]
    exact decide_eq_false hne

theorem distinct_accept (a : String) : Distinct eqIgnoreAsciiCase (acceptTypes a) :=
  distinct_known.foldl _

theorem acceptTypes_ne_nil (a : String) : acceptTypes a ≠ [] := by
  rw [acceptTypes_eq]
  exact List.cons_ne_nil _ _

/-- A header is the known types and then what else the client asks for, in order of first
appearance; no type is there twice up to case, all of the client's are there up to case, and the
header of a header is the header. -/
theorem manifestAccept_merges (a : String) :
    (splitCommaSpace (manifestAccept (some a)).toList).map String.ofList =
        manifestAcceptTypes ++ newTypes a ∧
      (manifestAcceptTypes ++ newTypes a).Pairwise (fun s t => eqIgnoreAsciiCase s t = false) ∧
      (∀ t ∈ clientTypes a, ∃ e ∈ manifestAcceptTypes ++ newTypes a, eqIgnoreAsciiCase e t) ∧
      manifestAccept (some (manifestAccept (some a))) = manifestAccept (some a) := by
  have hne := acceptTypes_ne_nil a
  have htypes : ∀ t ∈ acceptTypes a, IsMediaType t := fun t ht => isMediaType_accept ht
  rw [← acceptTypes_eq]
  refine ⟨?_, distinct_accept a, fun t ht => exists_mem_foldl eqIgnoreAsciiCase_refl ht, ?_⟩
  · have hid : String.ofList ∘ String.toList = id := funext fun _ => String.ofList_toList
    rw [manifestAccept_some, splitCommaSpace_intercalate hne fun t ht => (htypes t ht).comma,
      List.map_map, hid, List.map_id]
  · have hagain : acceptTypes (", ".intercalate (acceptTypes a)) = acceptTypes a := by
      rw [acceptTypes, clientTypes_intercalate hne htypes]
      exact foldl_foldl eqIgnoreAsciiCase_refl distinct_known _
    rw [manifestAccept_some a, manifestAccept_some, hagain]

end Dockfoxprox

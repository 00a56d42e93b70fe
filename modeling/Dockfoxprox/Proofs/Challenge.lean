import Dockfoxprox.Proofs.Scanner

/-! Challenge parameters come back from the text they were rendered to, whatever is in the
values. -/

namespace Dockfoxprox

/-- A value with every backslash and quote escaped by a backslash. -/
def escapeValue (v : String) : String :=
  String.ofList (v.toList.flatMap fun c => if c = '\\' ∨ c = '"' then ['\\', c] else [c])

def renderParam (p : String × String) : String := p.1 ++ ("=\"" ++ (escapeValue p.2 ++ "\""))

/-- A non-empty ASCII token without whitespace, comma, equals sign or quote. -/
structure IsToken (key : String) : Prop where
  nonempty : key ≠ ""
  ascii : ∀ c ∈ key.toList, c.toNat < 128
  plain : ∀ c ∈ key.toList, ¬ isWhitespace c ∧ c ≠ ',' ∧ c ≠ '=' ∧ c ≠ '"'

/-- Spaces and tabs. -/
def Blank (s : String) : Prop := ∀ c ∈ s.toList, c = ' ' ∨ c = '\t'

/-- The texts that render a list of parameters: they are joined by a comma with spaces and
tabs around it. -/
inductive Renders : List (String × String) → String → Prop
  | nil : Renders [] ""
  | single (p : String × String) : Renders [p] (renderParam p)
  | cons (p : String × String) {before after text : String} {ps : List (String × String)}
      (hbefore : Blank before) (hafter : Blank after) (hne : ps ≠ []) (h : Renders ps text) :
      Renders (p :: ps) (renderParam p ++ (before ++ "," ++ after ++ text))

def scannedParam (p : String × String) : String × String :=
  (toAsciiLowercase p.1, escapeValue p.2)

/-- The closing quote of an escaped value is the one behind it. -/
theorem quoteEnd_escape (v : String) (post : Bytes) :
    quoteEnd (utf8 (escapeValue v) ++ 34 :: post) = (utf8 (escapeValue v)).length := by
  rw [escapeValue, utf8_ofList]
  induction v.toList with
  | nil =>
    cases post <;> rfl
  | cons c cs ih =>
    rw [List.flatMap_cons, List.flatMap_append, List.append_assoc, List.length_append]
    by_cases hesc : c = '\\' ∨ c = '"'
    · have hc : String.utf8EncodeChar c = [UInt8.ofNat c.toNat] :=
        utf8EncodeChar_ascii (by obtain rfl | rfl := hesc <;> decide)
      have hb : String.utf8EncodeChar '\\' = [92] := by decide
      rw [if_pos hesc]
      simp only [List.flatMap_cons, List.flatMap_nil, hb, hc, List.append_nil,
        List.cons_append, List.nil_append, List.length_cons, List.length_nil]
      rw [quoteEnd, if_neg (by decide), if_pos rfl, ih]
      omega
    · rw [if_neg hesc, List.flatMap_cons, List.flatMap_nil, List.append_nil, quoteEnd_append, ih]
      intro b hb
      constructor
      · rintro rfl
        exact hesc (.inr (Char.toNat_inj.mp (mem_utf8EncodeChar (by decide) hb)))
      · rintro rfl
        exact hesc (.inl (Char.toNat_inj.mp (mem_utf8EncodeChar (by decide) hb)))

/-! One parameter. -/

variable {p : String × String}

theorem trim_eq {s : String} (h : ∀ c ∈ s.toList, isWhitespace c = false) : trim s = s := by
  have hd : s.toList.dropWhile isWhitespace = s.toList :=
    List.dropWhile_eq_self_iff.mpr fun hl => by simp [h _ (List.getElem_mem hl)]
  have hr : s.toList.rdropWhile isWhitespace = s.toList :=
    List.rdropWhile_eq_self_iff.mpr fun hl => by simp [h _ (List.getLast_mem hl)]
  rw [trim, hd, hr, String.ofList_toList]

theorem IsToken.trim {key : String} (h : IsToken key) : trim key = key :=
  trim_eq fun c hc => by simpa using (h.plain c hc).1

/-- The bytes of a key. -/
theorem IsToken.of_mem {key : String} (h : IsToken key) {b : UInt8} (hb : b ∈ utf8 key) :
    ∃ c ∈ key.toList, b = UInt8.ofNat c.toNat := by
  rw [utf8_eq, List.mem_flatMap] at hb
  obtain ⟨c, hc, hb⟩ := hb
  rw [utf8EncodeChar_ascii (h.ascii c hc)] at hb
  exact ⟨c, hc, List.mem_singleton.mp hb⟩

/-- A character of a key is no ASCII character that `plain` excludes. -/
theorem IsToken.ne {key : String} (h : IsToken key) {b : UInt8} (hb : b ∈ utf8 key) {x : Char}
    (hx : x.toNat < 128) (hno : ∀ c ∈ key.toList, c ≠ x) : b ≠ UInt8.ofNat x.toNat := by
  obtain ⟨c, hc, rfl⟩ := h.of_mem hb
  intro heq
  have hn := congrArg UInt8.toNat heq
  have hlt := h.ascii c hc
  rw [UInt8.toNat_ofNat', UInt8.toNat_ofNat', Nat.mod_eq_of_lt (by omega),
    Nat.mod_eq_of_lt (by omega)] at hn
  exact hno c hc (Char.toNat_inj.mp hn)

theorem IsToken.isKeyByte {key : String} (h : IsToken key) {b : UInt8} (hb : b ∈ utf8 key) :
    isKeyByte b := by
  have heq : b ≠ 61 := @IsToken.ne key h b hb '=' (by decide) fun c hc => (h.plain c hc).2.2.1
  have hcomma : b ≠ 44 := @IsToken.ne key h b hb ',' (by decide) fun c hc => (h.plain c hc).2.1
  simp [Dockfoxprox.isKeyByte, heq, hcomma]

theorem IsToken.not_separator {key : String} (h : IsToken key) {b : UInt8} (hb : b ∈ utf8 key) :
    isParamSeparator b = false := by
  have hcomma : b ≠ 44 := @IsToken.ne key h b hb ',' (by decide) fun c hc => (h.plain c hc).2.1
  have hspace : b ≠ 32 := @IsToken.ne key h b hb ' ' (by decide) fun c hc heq => by
    subst heq
    exact (h.plain _ hc).1 (by decide)
  have htab : b ≠ 9 := @IsToken.ne key h b hb '\t' (by decide) fun c hc heq => by
    subst heq
    exact (h.plain _ hc).1 (by decide)
  simp [isParamSeparator, hcomma, hspace, htab]

/-- The bytes of a rendered parameter. -/
theorem utf8_renderParam (p : String × String) :
    utf8 (renderParam p) = utf8 p.1 ++ (61 :: 34 :: (utf8 (escapeValue p.2) ++ [34])) := by
  have heq : utf8 "=\"" = [61, 34] := by decide
  have hq : utf8 "\"" = [34] := by decide
  rw [renderParam, utf8_append, utf8_append, utf8_append, heq, hq]
  rfl

theorem getElem?_append_cons (pre : Bytes) (b : UInt8) (rest : Bytes) :
    (pre ++ b :: rest)[pre.length]? = some b := by simp

/-- An escaped value in quotes is taken as it is, up to its closing quote. -/
theorem challengeValue_escape (pre : Bytes) (v : String) (post : Bytes) :
    challengeValue (pre ++ 34 :: (utf8 (escapeValue v) ++ 34 :: post)) pre.length =
      some (escapeValue v, pre.length + (utf8 (escapeValue v)).length + 2) := by
  have hopen : pre ++ 34 :: (utf8 (escapeValue v) ++ 34 :: post) =
      pre ++ [34] ++ (utf8 (escapeValue v) ++ 34 :: post) := by simp
  have hlen : pre.length + 1 = (pre ++ [34]).length := by simp
  rw [challengeValue, if_pos (getElem?_append_cons _ _ _), hopen, hlen]
  have hclose := @closeQuote_eq (pre ++ [34] ++ (utf8 (escapeValue v) ++ 34 :: post))
    ((pre ++ [34] ++ (utf8 (escapeValue v) ++ 34 :: post)).length + 1) (pre ++ [34]).length
    (by simp) (by omega)
  rw [List.drop_left, quoteEnd_escape] at hclose
  have hslice := @slice_append (pre ++ [34]) (34 :: post) (escapeValue v)
    fun b hb => by cases hb; rfl
  simp only [hclose, hslice, Option.bind_eq_bind, Option.bind_some]
  rw [if_pos (by simp only [List.length_append, List.length_cons, List.length_nil]; omega)]
  simp only [List.length_append, List.length_singleton]
  congr 2
  omega

/-- One turn of the loop: separators, a parameter, and whatever follows it. -/
theorem challengeParams_step {pre sep post : Bytes} {fuel : ℕ} {out : List (String × String)}
    (hsep : ∀ b ∈ sep, isParamSeparator b) (hp : IsToken p.1) :
    challengeParams (pre ++ (sep ++ (utf8 (renderParam p) ++ post))) (fuel + 1) pre.length out =
      challengeParams (pre ++ (sep ++ (utf8 (renderParam p) ++ post))) fuel
        (pre ++ (sep ++ utf8 (renderParam p))).length (out ++ [scannedParam p]) := by
  obtain ⟨bytes, hbytes⟩ : ∃ bytes, bytes = pre ++ (sep ++ (utf8 (renderParam p) ++ post)) :=
    ⟨_, rfl⟩
  rw [← hbytes]
  let value := 34 :: (utf8 (escapeValue p.2) ++ 34 :: post)
  have hsplit : bytes = pre ++ (sep ++ (utf8 p.1 ++ 61 :: value)) := by
    rw [hbytes, utf8_renderParam]
    simp [value]
  have hkey : bytes = pre ++ sep ++ (utf8 p.1 ++ 61 :: value) := by rw [hsplit, List.append_assoc]
  have heq : bytes = pre ++ sep ++ utf8 p.1 ++ 61 :: value := by
    rw [hkey]
    exact (List.append_assoc _ _ _).symm
  have hval : bytes = pre ++ sep ++ utf8 p.1 ++ [61] ++ value := by
    rw [heq, List.append_assoc _ [61], List.singleton_append]
  -- the key begins with a byte of its own
  have hstop : ∀ b, (utf8 p.1 ++ 61 :: value).head? = some b → isParamSeparator b = false := by
    intro b hb
    cases hk : utf8 p.1 with
    | nil =>
      rw [hk] at hb
      cases hb
      rfl
    | cons c cs =>
      rw [hk] at hb
      cases hb
      exact hp.not_separator (by rw [hk]; exact List.mem_cons_self)
  have hskip : advance isParamSeparator bytes (bytes.length + 1) pre.length =
      some (pre ++ sep).length := by
    rw [List.length_append, hsplit]
    exact advance_append hsep hstop (by omega)
  have hend : advance isKeyByte bytes (bytes.length + 1) (pre ++ sep).length =
      some (pre ++ sep ++ utf8 p.1).length := by
    rw [@List.length_append _ (pre ++ sep) (utf8 p.1), hkey]
    exact advance_append (fun b hb => hp.isKeyByte hb) (fun b hb => by cases hb; rfl) (by omega)
  have hget : bytes[(pre ++ sep ++ utf8 p.1).length]? = some 61 := by
    rw [heq]
    exact getElem?_append_cons _ _ _
  have hslice : slice bytes (pre ++ sep).length (pre ++ sep ++ utf8 p.1).length = some p.1 := by
    rw [@List.length_append _ (pre ++ sep) (utf8 p.1), hkey]
    exact slice_append p.1 fun b hb => by cases hb; rfl
  have hvalue : challengeValue bytes ((pre ++ sep ++ utf8 p.1).length + 1) =
      some (escapeValue p.2, (pre ++ (sep ++ utf8 (renderParam p))).length) := by
    have h := challengeValue_escape (pre ++ sep ++ utf8 p.1 ++ [61]) p.2 post
    rw [← hval, @List.length_append _ (pre ++ sep ++ utf8 p.1) [61], List.length_singleton] at h
    rw [h, utf8_renderParam]
    simp only [List.length_append, List.length_cons, List.length_nil]
    congr 2
    omega
  have hlt : pre.length < bytes.length := by
    rw [hsplit]
    simp only [List.length_append, List.length_cons]
    omega
  rw [challengeParams, if_pos hlt]
  simp only [hskip, hend, hget, hslice, hvalue, hp.trim, scannedParam, Option.bind_eq_bind,
    Option.bind_some, ne_eq, not_true_eq_false, if_false]

/-! All parameters. -/

theorem Blank.separator {s : String} (h : Blank s) : ∀ b ∈ utf8 s, isParamSeparator b := by
  intro b hb
  rw [utf8_eq, List.mem_flatMap] at hb
  obtain ⟨c, hc, hb⟩ := hb
  obtain rfl | rfl := h c hc
  · rw [utf8EncodeChar_ascii (by decide), List.mem_singleton] at hb
    subst hb
    rfl
  · rw [utf8EncodeChar_ascii (by decide), List.mem_singleton] at hb
    subst hb
    rfl

/-- At the end of the text the loop is done. -/
theorem challengeParams_end (bytes : Bytes) {fuel : ℕ} (h : 0 < fuel)
    (out : List (String × String)) :
    challengeParams bytes fuel bytes.length out = some out := by
  obtain ⟨fuel, rfl⟩ := Nat.exists_eq_succ_of_ne_zero h.ne'
  rw [challengeParams, if_neg (Nat.lt_irrefl _)]

theorem utf8_renderParam_pos (p : String × String) : 0 < (utf8 (renderParam p)).length := by
  rw [utf8_renderParam, List.length_append, List.length_cons]
  omega

/-- The rest of the loop, from the separators in front of a parameter on. -/
theorem Renders.challengeParams {ps : List (String × String)} {text : String}
    (h : Renders ps text) (hps : ∀ p ∈ ps, IsToken p.1) {pre sep : Bytes} {fuel : ℕ}
    {out : List (String × String)} (hsep : ∀ b ∈ sep, isParamSeparator b)
    (hnil : ps = [] → sep = [])
    (hfuel : (pre ++ (sep ++ utf8 text)).length < fuel + pre.length) :
    challengeParams (pre ++ (sep ++ utf8 text)) fuel pre.length out =
      some (out ++ ps.map scannedParam) := by
  induction h generalizing pre sep fuel out with
  | nil =>
    obtain rfl := hnil rfl
    have hpre : pre ++ ([] ++ utf8 "") = pre := by simp [utf8]
    rw [hpre] at hfuel ⊢
    rw [challengeParams_end _ (by omega), List.map_nil, List.append_nil]
  | single p =>
    have hpos := utf8_renderParam_pos p
    simp only [List.length_append] at hfuel
    obtain ⟨fuel, rfl⟩ : ∃ n, fuel = n + 1 := ⟨fuel - 1, by omega⟩
    have hstep := @challengeParams_step p pre sep [] fuel out hsep (hps p List.mem_cons_self)
    rw [List.append_nil] at hstep
    rw [hstep, challengeParams_end _ (by omega), List.map_cons, List.map_nil]
  | @cons p before after text ps hbefore hafter hne h ih =>
    have hpos := utf8_renderParam_pos p
    have hlen := hfuel
    rw [utf8_append] at hlen
    simp only [List.length_append] at hlen
    obtain ⟨fuel, rfl⟩ : ∃ n, fuel = n + 1 := ⟨fuel - 1, by omega⟩
    have hcomma : utf8 "," = [44] := by decide
    have hnext : ∀ b ∈ utf8 (before ++ "," ++ after), isParamSeparator b := by
      intro b hb
      rw [utf8_append, utf8_append, hcomma, List.mem_append, List.mem_append] at hb
      obtain (hb | hb) | hb := hb
      · exact hbefore.separator b hb
      · obtain rfl := List.mem_singleton.mp hb
        rfl
      · exact hafter.separator b hb
    have hstep := @challengeParams_step p pre sep (utf8 (before ++ "," ++ after ++ text)) fuel out
      hsep (hps p List.mem_cons_self)
    rw [← utf8_append] at hstep
    rw [hstep]
    have hbytes : pre ++ (sep ++ utf8 (renderParam p ++ (before ++ "," ++ after ++ text))) =
        pre ++ (sep ++ utf8 (renderParam p)) ++ (utf8 (before ++ "," ++ after) ++ utf8 text) := by
      rw [utf8_append, utf8_append (before ++ "," ++ after)]
      simp only [List.append_assoc]
    rw [hbytes] at hfuel ⊢
    rw [ih (fun q hq => hps q (List.mem_cons_of_mem p hq)) hnext (fun hnil => absurd hnil hne) (by
      simp only [List.length_append] at hfuel ⊢
      omega), List.map_cons, List.append_assoc]
    rfl

theorem iterChallengeParams_renders {ps : List (String × String)} {text : String}
    (h : Renders ps text) (hps : ∀ p ∈ ps, IsToken p.1) :
    iterChallengeParams text = some (ps.map scannedParam) := by
  have hall := @Renders.challengeParams ps text h hps [] [] ((utf8 text).length + 1) [] nofun
    (fun _ => rfl) (by simp)
  exact hall

/-! The challenge. -/

/-- The escaped value of the last pair whose key lowercases to `name`. -/
def lastParam (name : String) (ps : List (String × String)) : Option String :=
  (ps.filter fun p => toAsciiLowercase p.1 = name).getLast?.map fun p => escapeValue p.2

theorem lastParam_isSome {name : String} {ps : List (String × String)} :
    (lastParam name ps).isSome ↔ ∃ p ∈ ps, toAsciiLowercase p.1 = name := by
  rw [lastParam, Option.isSome_map, List.getLast?_isSome, Ne, List.filter_eq_nil_iff]
  simp

theorem lastParam_append (name : String) (ps : List (String × String)) (p : String × String) :
    lastParam name (ps ++ [p]) =
      if toAsciiLowercase p.1 = name then some (escapeValue p.2) else lastParam name ps := by
  unfold lastParam
  rw [List.filter_append]
  by_cases hn : toAsciiLowercase p.1 = name
  · simp [hn]
  · simp [hn]

/-- Each field is bound to the last pair of its key. -/
theorem foldl_set (ps : List (String × String)) :
    (ps.map scannedParam).foldl ChallengeFields.set {} =
      ⟨lastParam "realm" ps, lastParam "service" ps, lastParam "scope" ps⟩ := by
  induction ps using List.reverseRecOn with
  | nil => rfl
  | append_singleton ps p ih =>
    rw [List.map_append, List.foldl_append, ih]
    simp only [List.map_cons, List.map_nil, List.foldl_cons, List.foldl_nil, lastParam_append,
      ChallengeFields.set, scannedParam]
    by_cases hr : toAsciiLowercase p.1 = "realm"
    · simp [hr]
    · by_cases hs : toAsciiLowercase p.1 = "service"
      · simp [hs]
      · by_cases hc : toAsciiLowercase p.1 = "scope"
        · simp [hc]
        · simp [hr, hs, hc]

/-- A rendering begins with a character of a key and ends with a quote. -/
theorem Renders.ends {ps : List (String × String)} {text : String} (h : Renders ps text)
    (hps : ∀ p ∈ ps, IsToken p.1) (hne : ps ≠ []) :
    (∃ c cs, text.toList = c :: cs ∧ isWhitespace c = false) ∧ ∃ cs, text.toList = cs ++ ['"'] := by
  have hparam (p : String × String) (hp : IsToken p.1) :
      (∃ c cs, (renderParam p).toList = c :: cs ∧ isWhitespace c = false) ∧
        ∃ cs, (renderParam p).toList = cs ++ ['"'] := by
    constructor
    · cases hk : p.1.toList with
      | nil => exact absurd (String.toList_eq_nil_iff.mp hk) hp.nonempty
      | cons c cs =>
        refine ⟨c, cs ++ ("=\"" ++ (escapeValue p.2 ++ "\"")).toList, ?_, ?_⟩
        · rw [renderParam, String.toList_append, hk, List.cons_append]
        · simpa using (hp.plain c (by rw [hk]; exact List.mem_cons_self)).1
    · refine ⟨(p.1 ++ ("=\"" ++ escapeValue p.2)).toList, ?_⟩
      rw [renderParam, ← String.append_assoc, ← String.append_assoc, String.toList_append,
        String.append_assoc]
      rfl
  induction h with
  | nil => exact absurd rfl hne
  | single p => exact hparam p (hps p List.mem_cons_self)
  | @cons p before after text ps hbefore hafter hne' h ih =>
    obtain ⟨c, cs, hc, hw⟩ := (hparam p (hps p List.mem_cons_self)).1
    obtain ⟨ds, hd⟩ := (ih (fun q hq => hps q (List.mem_cons_of_mem p hq)) hne').2
    refine ⟨⟨c, cs ++ (before ++ "," ++ after ++ text).toList, ?_, hw⟩,
      (renderParam p ++ (before ++ "," ++ after)).toList ++ ds, ?_⟩
    · rw [String.toList_append, hc, List.cons_append]
    · rw [← String.append_assoc, String.toList_append, hd, List.append_assoc]

/-- A list without whitespace at its ends. -/
theorem trim_of_ends {s : String} {c : Char} {cs ds : List Char} {d : Char}
    (hstart : s.toList = c :: cs) (hc : isWhitespace c = false) (hend : s.toList = ds ++ [d])
    (hd : isWhitespace d = false) : trim s = s := by
  have hdrop : s.toList.dropWhile isWhitespace = s.toList := by
    rw [hstart, List.dropWhile_cons, hc]
    rfl
  have hrdrop : s.toList.rdropWhile isWhitespace = s.toList := by
    rw [hend, List.rdropWhile_concat_neg _ _ _ (by simp [hd])]
  rw [trim, hdrop, hrdrop, String.ofList_toList]

/-- Challenge parameters come back from any rendering in order, with lowercased keys and escaped
values; a Bearer challenge of them is read exactly when some key is `realm`, with every field
bound to the last pair of its key. -/
theorem challenge_params_round_trip {ps : List (String × String)} {text : String}
    (h : Renders ps text) (hps : ∀ p ∈ ps, IsToken p.1) :
    iterChallengeParams text = some (ps.map scannedParam) ∧
    parseBearerChallenge ("Bearer " ++ text) = some ((lastParam "realm" ps).map fun realm =>
      ⟨realm, lastParam "service" ps, lastParam "scope" ps⟩) ∧
    ((lastParam "realm" ps).isSome ↔ ∃ p ∈ ps, toAsciiLowercase p.1 = "realm") := by
  have hiter := iterChallengeParams_renders h hps
  refine ⟨hiter, ?_, lastParam_isSome⟩
  -- a header whose trimmed form is `Bearer` and then, up to whitespace, the parameters
  have hparse : ∀ t rest, (trim t).toList = "Bearer".toList ++ rest →
      trimStart (String.ofList rest) = text → parseBearerChallenge t =
        some ((lastParam "realm" ps).map fun realm =>
          ⟨realm, lastParam "service" ps, lastParam "scope" ps⟩) := by
    intro t rest ht hrest
    have hpre : ("Bearer".toList ++ rest).dropPrefix? "Bearer".toList = some rest :=
      List.dropPrefix?_append_of_beq _ (beq_self_eq_true _)
    rw [parseBearerChallenge, ht]
    simp only [hpre, Option.some_or, hrest, hiter, Option.bind_eq_bind, Option.bind_some,
      foldl_set]
  by_cases hne : ps = []
  · subst hne
    cases h
    exact hparse _ [] (by decide) (by decide)
  · obtain ⟨⟨c, cs, hc, hw⟩, ds, hd⟩ := h.ends hps hne
    refine hparse _ (' ' :: text.toList) ?_ ?_
    · rw [@trim_of_ends _ 'B' ("earer ".toList ++ text.toList) ("Bearer ".toList ++ ds) '"']
      · rw [String.toList_append]
        rfl
      · rw [String.toList_append]
        rfl
      · rfl
      · rw [String.toList_append, hd, List.append_assoc]
      · rfl
    · have hspace : isWhitespace ' ' = true := rfl
      rw [trimStart, String.toList_ofList, List.dropWhile_cons, if_pos hspace, hc,
        List.dropWhile_cons, if_neg (by simp [hw]), ← hc, String.ofList_toList]

/-- A value with a comma, a quote and a backslash at its end. -/
def trickyParams : List (String × String) := [("Realm", "a\"b,c=\\"), ("scope", "x y")]

theorem challenge_params_round_trip_tricky :
    iterChallengeParams "Realm=\"a\\\"b,c=\\\\\" , \tscope=\"x y\"" =
        some [("realm", "a\\\"b,c=\\\\"), ("scope", "x y")] ∧
      parseBearerChallenge "Bearer Realm=\"a\\\"b,c=\\\\\" , \tscope=\"x y\"" =
        some (some ⟨"a\\\"b,c=\\\\", none, some "x y"⟩) := by
  have hr : Renders trickyParams "Realm=\"a\\\"b,c=\\\\\" , \tscope=\"x y\"" :=
    @Renders.cons ("Realm", "a\"b,c=\\") " " " \t" _ _ (by simp [Blank]) (by simp [Blank])
      (by simp) (.single ("scope", "x y"))
  have hps : ∀ p ∈ trickyParams, IsToken p.1 := by
    intro p hp
    obtain rfl | rfl : p = ("Realm", "a\"b,c=\\") ∨ p = ("scope", "x y") := by
      simpa [trickyParams] using hp
    · exact ⟨by simp, by simp, by simp; decide⟩
    · exact ⟨by simp, by simp, by simp; decide⟩
  have h := challenge_params_round_trip hr hps
  exact ⟨h.1, h.2.1⟩

end Dockfoxprox

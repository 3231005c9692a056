import Rinha.Http.Picohttp

/-! What `phr_parse_request` accepts.

The method and the path are parts of the text, each with a space behind it
(`Shape`). Up to the headers' empty line there is no NUL, and no bytes behind it are
looked at (`phrParseRequest_takes`), so a request that is cut before it is refused
(`phrParseRequest_cut`). -/
namespace Rinha.Http

/-! ### Tokens -/

theorem parseToken_ok {nextChar : UInt8} {text token rest : List UInt8}
    (h : parseToken nextChar text = .ok (token, rest)) :
    text = token ++ rest ∧ rest.head? = some nextChar ∧
      ∀ b ∈ token, b ≠ nextChar ∧ tokenCharMap b = true := by
  induction text generalizing token with
  | nil => cases h
  | cons b text ih =>
    rw [parseToken] at h
    split at h
    · rename_i hb
      cases h
      exact ⟨rfl, by rw [hb]; rfl, nofun⟩
    · rename_i hb
      split at h
      · cases h
      · rename_i hmap
        split at h
        · rename_i token' rest' hrec
          cases h
          obtain ⟨htext, hhead, hall⟩ := ih hrec
          refine ⟨by rw [htext, List.cons_append], hhead, fun c hc => ?_⟩
          rcases List.mem_cons.mp hc with rfl | hc
          · exact ⟨hb, by simpa using hmap⟩
          · exact hall c hc
        · cases h

theorem advanceToken_ok {text token rest : List UInt8} (h : advanceToken text = .ok (token, rest)) :
    text = token ++ rest ∧ rest.head? = some 32 ∧ ∀ b ∈ token, 32 < b ∧ b ≠ 127 := by
  induction text generalizing token with
  | nil => cases h
  | cons b text ih =>
    rw [advanceToken] at h
    split at h
    · rename_i hb
      cases h
      exact ⟨rfl, by rw [hb]; rfl, nofun⟩
    · rename_i hb
      split at h
      · cases h
      · rename_i hctl
        split at h
        · rename_i token' rest' hrec
          cases h
          obtain ⟨htext, hhead, hall⟩ := ih hrec
          refine ⟨by rw [htext, List.cons_append], hhead, fun c hc => ?_⟩
          rcases List.mem_cons.mp hc with rfl | hc
          · have hctl' := not_or.mp hctl
            exact ⟨by have := hctl'.1; grind, hctl'.2⟩
          · exact hall c hc
        · cases h

theorem skipSpaces_ok {text rest : List UInt8} (h : skipSpaces text = .ok rest) :
    ∃ k, text = List.replicate k 32 ++ rest ∧ ∃ b, rest.head? = some b ∧ b ≠ 32 := by
  induction text with
  | nil => cases h
  | cons b text ih =>
    rw [skipSpaces] at h
    split at h
    · rename_i hb
      obtain ⟨k, hk, hrest⟩ := ih h
      exact ⟨k + 1, by rw [hb, hk, List.replicate_succ, List.cons_append], hrest⟩
    · rename_i hb
      cases h
      exact ⟨0, rfl, b, rfl, hb⟩

theorem parseHttpVersion_head {text rest : List UInt8} {v : Nat}
    (h : parseHttpVersion text = .ok (v, rest)) : text.head? = some 72 := by
  unfold parseHttpVersion at h
  split at h
  · cases h
  · split at h
    · cases h
    · cases h
    · rename_i b rest' hexpect
      cases text with
      | nil => cases hexpect
      | cons c text =>
        by_cases hc : c = 72
        · rw [hc]; rfl
        · simp [expectChars, expectChar, hc] at hexpect

/-- The method and the path of a request in its text. -/
structure Shape (r : Request) : Prop where
  method : ∃ t, r.methodText = r.method ++ 32 :: t
  method_ne : r.method ≠ []
  token : ∀ b ∈ r.method, b ≠ 32 ∧ tokenCharMap b = true
  /-- Behind the path come spaces and the H of the version. -/
  path : ∃ k t, r.pathText = r.path ++ 32 :: (List.replicate k 32 ++ 72 :: t)
  path_ne : r.path ≠ []
  printable : ∀ b ∈ r.path, 32 < b ∧ b ≠ 127

theorem head_tail {α : Type*} {l : List α} {a : α} (h : l.head? = some a) : l = a :: l.tail :=
  List.eq_cons_of_mem_head? (by rw [h]; rfl)

theorem parseRequest_shape {text : List UInt8} {maxHeaders : Nat} {r : Request}
    (h : parseRequest text maxHeaders = .ok r) : Shape r := by
  unfold parseRequest at h
  split at h
  · cases h
  split at h
  · cases h
  rename_i method rest hmethod
  split at h
  · cases h
  split at h
  · cases h
  rename_i path rest' hpath
  split at h
  · cases h
  rename_i versionText hspaces
  split at h
  · cases h
  rename_i hne
  split at h
  · cases h
  rename_i minorVersion rest'' hversion
  split at h
  · cases h
  split at h
  · cases h
  cases h
  obtain ⟨hmtext, hmhead, hmall⟩ := parseToken_ok hmethod
  obtain ⟨hptext, hphead, hpall⟩ := advanceToken_ok hpath
  obtain ⟨k, hk, _⟩ := skipSpaces_ok hspaces
  have hne' := not_or.mp hne
  refine ⟨⟨rest.tail, ?_⟩, hne'.1, hmall, ⟨k, versionText.tail, ?_⟩, hne'.2, hpall⟩
  · rw [← head_tail hmhead]
    exact hmtext
  · rw [← head_tail (parseHttpVersion_head hversion), ← hk, ← head_tail hphead]
    exact hptext

theorem phrParseRequest_shape {buf : List UInt8} {maxHeaders n : Nat} {r : Request}
    (h : phrParseRequest buf maxHeaders = .ok (r, n)) : Shape r := by
  unfold phrParseRequest at h
  split at h
  · cases h
  · rename_i r' hr
    cases h
    exact parseRequest_shape hr

/-! ### What a parser looks at -/

/-- The parser takes `used` and gives `out` of what is left, of which it sees the
first byte at most. -/
def Takes {α : Type*} (p : List UInt8 → Except Ret α) (used rest : List UInt8) (out : List UInt8 → α) : Prop :=
  0 ∉ used ∧ ∀ rest', rest'.head? = rest.head? → p (used ++ rest') = .ok (out rest')

/-- The parser takes `used`, and sees nothing of what is left. -/
def Ends {α : Type*} (p : List UInt8 → Except Ret α) (used : List UInt8) (out : List UInt8 → α) : Prop :=
  0 ∉ used ∧ ∀ rest, p (used ++ rest) = .ok (out rest)

theorem head?_append {u : List UInt8} (h : u ≠ []) (s s' : List UInt8) : (u ++ s).head? = (u ++ s').head? := by
  rw [List.head?_append_of_ne_nil _ h, List.head?_append_of_ne_nil _ h]

theorem parseToken_takes {nextChar : UInt8} {text token rest : List UInt8}
    (h : parseToken nextChar text = .ok (token, rest)) :
    text = token ++ rest ∧ rest.head? = some nextChar ∧ Takes (parseToken nextChar) token rest (token, ·) := by
  obtain ⟨htext, hhead, hall⟩ := parseToken_ok h
  refine ⟨htext, hhead, fun h0 => absurd (hall 0 h0).2 (by decide), fun rest' hrest' => ?_⟩
  rw [hhead] at hrest'
  clear htext h
  induction token with
  | nil =>
    rw [List.nil_append, List.eq_cons_of_mem_head? (Option.mem_def.mpr hrest'), parseToken, if_pos rfl]
  | cons b token ih =>
    obtain ⟨hb, hmap⟩ := hall b (List.mem_cons_self ..)
    rw [List.cons_append, parseToken, if_neg hb, if_neg (by rw [hmap]; decide),
      ih fun c hc => hall c (List.mem_cons_of_mem _ hc)]

theorem advanceToken_takes {text token rest : List UInt8} (h : advanceToken text = .ok (token, rest)) :
    text = token ++ rest ∧ rest.head? = some 32 ∧ Takes advanceToken token rest (token, ·) := by
  obtain ⟨htext, hhead, hall⟩ := advanceToken_ok h
  refine ⟨htext, hhead, fun h0 => absurd (hall 0 h0).1 (by decide), fun rest' hrest' => ?_⟩
  rw [hhead] at hrest'
  clear htext h
  induction token with
  | nil =>
    rw [List.nil_append, List.eq_cons_of_mem_head? (Option.mem_def.mpr hrest'), advanceToken, if_pos rfl]
  | cons b token ih =>
    obtain ⟨hb, h127⟩ := hall b (List.mem_cons_self ..)
    have hctl : ¬ (b < 32 ∨ b = 127) := by
      rw [not_or]
      exact ⟨by grind, h127⟩
    rw [List.cons_append, advanceToken, if_neg (by grind), if_neg hctl,
      ih fun c hc => hall c (List.mem_cons_of_mem _ hc)]

theorem skipSpaces_takes {text rest : List UInt8} (h : skipSpaces text = .ok rest) :
    ∃ used, text = used ++ rest ∧ Takes skipSpaces used rest id := by
  obtain ⟨k, hk, b, hb, hne⟩ := skipSpaces_ok h
  refine ⟨_, hk, fun h0 => absurd (List.eq_of_mem_replicate h0) (by decide), fun rest' hrest' => ?_⟩
  rw [hb] at hrest'
  clear hk h
  induction k with
  | zero =>
    rw [List.replicate_zero, List.nil_append, List.eq_cons_of_mem_head? (Option.mem_def.mpr hrest'), skipSpaces,
      if_neg hne]
    rfl
  | succ k ih =>
    rw [List.replicate_succ, List.cons_append, skipSpaces, if_pos rfl, ih]

theorem expectChars_iff {chs text rest : List UInt8} : expectChars chs text = .ok rest ↔ text = chs ++ rest := by
  induction chs generalizing text with
  | nil => simp [expectChars]
  | cons ch chs ih =>
    cases text with
    | nil => simp [expectChars, expectChar]
    | cons b text =>
      by_cases hb : b = ch
      · simp [expectChars, expectChar, hb, ih]
      · simp [expectChars, expectChar, hb]

theorem parseHttpVersion_takes {text rest : List UInt8} {v : Nat} (h : parseHttpVersion text = .ok (v, rest)) :
    ∃ used, used ≠ [] ∧ text = used ++ rest ∧ Takes parseHttpVersion used rest (v, ·) := by
  unfold parseHttpVersion at h
  split at h
  · cases h
  rename_i hlen
  split at h
  · cases h
  · cases h
  rename_i b rest' hexpect
  split at h
  · cases h
  rename_i hdigit
  cases h
  rw [expectChars_iff] at hexpect
  refine ⟨[72, 84, 84, 80, 47, 49, 46, b], by simp, hexpect, ?_, fun rest' hrest' => ?_⟩
  · have hb : b ≠ 0 := fun hb => hdigit (.inl (by rw [hb]; decide))
    simpa using hb.symm
  · have hrest : rest ≠ [] := by
      rintro rfl
      rw [hexpect] at hlen
      exact hlen (by simp)
    have hlong : ¬ ([72, 84, 84, 80, 47, 49, 46, b] ++ rest').length < 9 := by
      cases rest' with
      | nil => exact absurd (List.head?_eq_none_iff.mp hrest'.symm) hrest
      | cons c rest' => simp
    have hchars : expectChars [72, 84, 84, 80, 47, 49, 46] ([72, 84, 84, 80, 47, 49, 46, b] ++ rest') =
        .ok (b :: rest') := expectChars_iff.mpr rfl
    unfold parseHttpVersion
    rw [if_neg hlong, hchars]
    simp only [if_neg hdigit]

theorem foundCtl_ends {text rest : List UInt8} (h : foundCtl text = .ok rest) :
    ∃ used, used ≠ [] ∧ text = used ++ rest ∧ Ends foundCtl used id := by
  cases text with
  | nil => cases h
  | cons b text =>
    rw [foundCtl] at h
    split at h
    · rename_i hb
      cases text with
      | nil => cases h
      | cons c text =>
        rw [expectChar] at h
        split at h
        · rename_i hc
          cases h
          exact ⟨[13, 10], by decide, by rw [hb, hc]; rfl, by decide, fun rest => rfl⟩
        · cases h
    · split at h
      · rename_i hb
        cases h
        exact ⟨[10], by decide, by rw [hb]; rfl, by decide, fun rest => rfl⟩
      · cases h

/-- A parser that goes on with `found_ctl` at this byte ends where it does. -/
theorem ends_of_foundCtl {p : List UInt8 → Except Ret (List UInt8)} {b : UInt8} {text rest : List UInt8}
    (hp : ∀ s, p (b :: s) = foundCtl (b :: s)) (h : p (b :: text) = .ok rest) :
    ∃ used, used ≠ [] ∧ b :: text = used ++ rest ∧ Ends p used id := by
  rw [hp] at h
  obtain ⟨used, hne, htext, h0, hends⟩ := foundCtl_ends h
  refine ⟨used, hne, htext, h0, fun rest' => ?_⟩
  have hends := hends rest'
  cases used with
  | nil => exact absurd rfl hne
  | cons c used =>
    cases htext
    rw [List.cons_append, hp]
    exact hends

theorem getTokenToEol_ends {text rest : List UInt8} (h : getTokenToEol text = .ok rest) :
    ∃ used, used ≠ [] ∧ text = used ++ rest ∧ Ends getTokenToEol used id := by
  induction text with
  | nil => cases h
  | cons b text ih =>
    by_cases hb : (b < 32 ∧ b ≠ 9) ∨ b = 127
    · exact ends_of_foundCtl (fun s => by rw [getTokenToEol, if_pos hb]) h
    · rw [getTokenToEol, if_neg hb] at h
      obtain ⟨used, _, htext, h0, hends⟩ := ih h
      refine ⟨b :: used, by simp, by rw [htext, List.cons_append], ?_, fun rest' => ?_⟩
      · rw [List.mem_cons, not_or]
        exact ⟨fun hb0 => hb (.inl ⟨by rw [← hb0]; decide, by rw [← hb0]; decide⟩), h0⟩
      · rw [List.cons_append, getTokenToEol, if_neg hb]
        exact hends rest'

theorem skipBlanks_takes {text rest : List UInt8} (h : skipBlanks text = .ok rest) :
    ∃ used, text = used ++ rest ∧ Takes skipBlanks used rest id := by
  induction text with
  | nil => cases h
  | cons b text ih =>
    rw [skipBlanks] at h
    split at h
    · rename_i hb
      obtain ⟨used, htext, h0, htakes⟩ := ih h
      refine ⟨b :: used, by rw [htext, List.cons_append], ?_, fun rest' hrest' => ?_⟩
      · rw [List.mem_cons, not_or]
        refine ⟨fun hb0 => ?_, h0⟩
        rw [← hb0] at hb
        exact absurd hb (by decide)
      · rw [List.cons_append, skipBlanks, if_pos hb]
        exact htakes rest' hrest'
    · rename_i hb
      cases h
      refine ⟨[], rfl, List.not_mem_nil, fun rest' hrest' => ?_⟩
      rw [List.nil_append, List.eq_cons_of_mem_head? (Option.mem_def.mpr hrest'), skipBlanks, if_neg hb]
      rfl

theorem skipEmptyLine_takes {text rest : List UInt8} (h : skipEmptyLine text = .ok rest) :
    ∃ used, text = used ++ rest ∧ Takes skipEmptyLine used rest id := by
  cases text with
  | nil => cases h
  | cons b text =>
    by_cases hctl : b = 13 ∨ b = 10
    · -- The same two endings as of a line.
      have hfound : ∀ s : List UInt8, skipEmptyLine (b :: s) = foundCtl (b :: s) := by
        intro s
        rcases hctl with rfl | rfl
        · rfl
        · rfl
      obtain ⟨used, _, htext, h0, hends⟩ := ends_of_foundCtl hfound h
      exact ⟨used, htext, h0, fun rest' _ => hends rest'⟩
    · obtain ⟨h13, h10⟩ := not_or.mp hctl
      rw [skipEmptyLine, if_neg h13, if_neg h10] at h
      cases h
      refine ⟨[], rfl, List.not_mem_nil, fun rest' hrest' => ?_⟩
      rw [List.nil_append, List.eq_cons_of_mem_head? (Option.mem_def.mpr hrest'), skipEmptyLine, if_neg h13,
        if_neg h10]
      rfl

theorem parseHeaderName_takes {first : Bool} {text rest : List UInt8}
    (h : parseHeaderName first text = .ok rest) :
    ∃ used, text = used ++ rest ∧ Takes (parseHeaderName first) used rest id := by
  unfold parseHeaderName at h
  split at h
  · rename_i hblank
    cases h
    refine ⟨[], rfl, List.not_mem_nil, fun rest' hrest' => ?_⟩
    rw [List.nil_append, parseHeaderName, hrest', if_pos hblank]
    rfl
  · rename_i hblank
    split at h
    · cases h
    rename_i name text' hname
    split at h
    · cases h
    rename_i hne
    obtain ⟨htext, hhead, h0, htakes⟩ := parseToken_takes hname
    obtain ⟨blanks, hblanks, h0', htakes'⟩ := skipBlanks_takes h
    have htext' : text' = 58 :: (blanks ++ rest) := by
      rw [← hblanks]
      exact head_tail hhead
    refine ⟨name ++ 58 :: blanks, ?_, ?_, fun rest' hrest' => ?_⟩
    · rw [htext, htext', List.append_assoc, List.cons_append]
    · rw [List.mem_append, List.mem_cons, not_or, not_or]
      exact ⟨h0, by decide, h0'⟩
    · have hsame : (name ++ 58 :: blanks ++ rest').head? = text.head? := by
        rw [htext, List.append_assoc]
        exact head?_append hne _ _
      rw [parseHeaderName, hsame, if_neg hblank, List.append_assoc, List.cons_append,
        htakes (58 :: (blanks ++ rest')) (by rw [hhead]; rfl)]
      simp only [if_neg hne]
      exact htakes' rest' hrest'

/-- The empty line behind the headers ends as any other. -/
theorem parseHeaders_eol {left : Nat} {first : Bool} {b : UInt8} (hb : b = 13 ∨ b = 10) (s : List UInt8) :
    parseHeaders left first (b :: s) = foundCtl (b :: s) := by
  rcases hb with rfl | rfl
  · cases left <;> rfl
  · cases left <;> rfl

theorem parseHeaders_ends {left : Nat} {first : Bool} {text rest : List UInt8}
    (h : parseHeaders left first text = .ok rest) :
    ∃ used, text = used ++ rest ∧ Ends (parseHeaders left first) used id := by
  induction left generalizing first text with
  | zero =>
    cases text with
    | nil => cases h
    | cons b text =>
      by_cases hb : b = 13 ∨ b = 10
      · obtain ⟨used, _, htext, hends⟩ := ends_of_foundCtl (parseHeaders_eol hb) h
        exact ⟨used, htext, hends⟩
      · obtain ⟨h13, h10⟩ := not_or.mp hb
        rw [parseHeaders, if_neg h13, if_neg h10] at h
        cases h
  | succ left ih =>
    cases text with
    | nil => cases h
    | cons b text =>
      by_cases hb : b = 13 ∨ b = 10
      · obtain ⟨used, _, htext, hends⟩ := ends_of_foundCtl (parseHeaders_eol hb) h
        exact ⟨used, htext, hends⟩
      · obtain ⟨h13, h10⟩ := not_or.mp hb
        rw [parseHeaders, if_neg h13, if_neg h10] at h
        split at h
        · cases h
        rename_i value hvalue
        split at h
        · cases h
        rename_i text' hline
        obtain ⟨nameUsed, hname, hname0, hnameTakes⟩ := parseHeaderName_takes hvalue
        obtain ⟨lineUsed, hlineNe, hline', hline0, hlineEnds⟩ := getTokenToEol_ends hline
        obtain ⟨used, htext, h0, hends⟩ := ih h
        refine ⟨nameUsed ++ (lineUsed ++ used), ?_, ?_, fun rest' => ?_⟩
        · rw [hname, hline', htext, List.append_assoc, List.append_assoc]
        · rw [List.mem_append, List.mem_append, not_or, not_or]
          exact ⟨hname0, hline0, h0⟩
        · have hvalue' : parseHeaderName first (nameUsed ++ (lineUsed ++ (used ++ rest'))) =
              .ok (lineUsed ++ (used ++ rest')) := by
            refine hnameTakes _ ?_
            rw [hline']
            exact head?_append hlineNe _ _
          have hhead : (nameUsed ++ (lineUsed ++ (used ++ rest'))).head? = some b := by
            rw [← List.append_assoc, head?_append (by simp [hlineNe]) _ text', List.append_assoc, ← hline', ← hname]
            rfl
          rw [List.append_assoc, List.append_assoc]
          generalize nameUsed ++ (lineUsed ++ (used ++ rest')) = text'' at *
          rw [List.eq_cons_of_mem_head? (Option.mem_def.mpr hhead)] at hvalue' ⊢
          rw [parseHeaders, if_neg h13, if_neg h10, hvalue']
          simp only [hlineEnds (used ++ rest'), id]
          exact hends rest'

/-- The head of a request, which has no NUL in it, is parsed alike whatever is behind it. -/
theorem parseRequest_takes {text : List UInt8} {maxHeaders : Nat} {r : Request}
    (h : parseRequest text maxHeaders = .ok r) :
    ∃ used methodUsed pathUsed, text = used ++ r.body ∧ r.methodText = methodUsed ++ r.body ∧
      r.pathText = pathUsed ++ r.body ∧ pathUsed <:+ used ∧
        Ends (parseRequest · maxHeaders) used fun body =>
          {r with methodText := methodUsed ++ body, pathText := pathUsed ++ body, body := body} := by
  unfold parseRequest at h
  split at h
  · cases h
  rename_i methodText hempty
  split at h
  · cases h
  rename_i method rest hmethod
  split at h
  · cases h
  rename_i pathText hspaces
  split at h
  · cases h
  rename_i path rest' hpath
  split at h
  · cases h
  rename_i versionText hspaces'
  split at h
  · cases h
  rename_i hne
  split at h
  · cases h
  rename_i minorVersion rest'' hversion
  split at h
  · cases h
  rename_i headersText hctl
  split at h
  · cases h
  rename_i body hbody
  cases h
  obtain ⟨e, he, he0, heTakes⟩ := skipEmptyLine_takes hempty
  obtain ⟨hm, hmHead, hm0, hmTakes⟩ := parseToken_takes hmethod
  obtain ⟨s, hs, hs0, hsTakes⟩ := skipSpaces_takes hspaces
  obtain ⟨hp, hpHead, hp0, hpTakes⟩ := advanceToken_takes hpath
  obtain ⟨s', hs', hs0', hsTakes'⟩ := skipSpaces_takes hspaces'
  obtain ⟨v, hvNe, hv, hv0, hvTakes⟩ := parseHttpVersion_takes hversion
  obtain ⟨c, hcNe, hc, hc0, hcEnds⟩ := foundCtl_ends hctl
  obtain ⟨u, hu, hu0, huEnds⟩ := parseHeaders_ends hbody
  have hrest : rest = 32 :: (s ++ pathText) := (head_tail hmHead).trans (by rw [hs])
  have hrest' : rest' = 32 :: (s' ++ versionText) := (head_tail hpHead).trans (by rw [hs'])
  have hversionText : versionText = (v ++ (c ++ u)) ++ body := by
    simp only [hv, hc, hu, List.append_assoc]
  have hpathText : pathText = (path ++ 32 :: (s' ++ (v ++ (c ++ u)))) ++ body := by
    simp only [hp, hrest', hversionText, List.append_assoc, List.cons_append]
  have hmethodText : methodText = (method ++ 32 :: (s ++ (path ++ 32 :: (s' ++ (v ++ (c ++ u)))))) ++ body := by
    simp only [hm, hrest, hpathText, List.append_assoc, List.cons_append]
  refine ⟨e ++ (method ++ 32 :: (s ++ (path ++ 32 :: (s' ++ (v ++ (c ++ u)))))), _, _, ?_, hmethodText, hpathText,
    ?_, ?_, fun body' => ?_⟩
  · rw [he, hmethodText, ← List.append_assoc]
  · exact ⟨e ++ (method ++ 32 :: s), by simp⟩
  · simp only [List.mem_append, List.mem_cons, not_or]
    exact ⟨he0, hm0, by decide, hs0, hp0, by decide, hs0', hv0, hc0, hu0⟩
  · -- Each parser meets the text it has met before, with another body behind.
    have hversion' : skipSpaces (s' ++ ((v ++ (c ++ u)) ++ body')) = .ok ((v ++ (c ++ u)) ++ body') := by
      refine hsTakes' _ ?_
      rw [hversionText]
      exact head?_append (by simp [hvNe]) _ _
    have hpath' : skipSpaces (s ++ ((path ++ 32 :: (s' ++ (v ++ (c ++ u)))) ++ body')) =
        .ok ((path ++ 32 :: (s' ++ (v ++ (c ++ u)))) ++ body') := by
      refine hsTakes _ ?_
      rw [hpathText]
      exact head?_append (by simp) _ _
    have hmethod' : skipEmptyLine (e ++ ((method ++ 32 :: (s ++ (path ++ 32 :: (s' ++ (v ++ (c ++ u)))))) ++ body')) =
        .ok ((method ++ 32 :: (s ++ (path ++ 32 :: (s' ++ (v ++ (c ++ u)))))) ++ body') := by
      refine heTakes _ ?_
      rw [hmethodText]
      exact head?_append (by simp) _ _
    have hctl' : parseHttpVersion (v ++ (c ++ (u ++ body'))) = .ok (minorVersion, c ++ (u ++ body')) := by
      refine hvTakes _ ?_
      rw [hc]
      exact head?_append hcNe _ _
    show parseRequest (_ ++ body') maxHeaders = _
    unfold parseRequest
    rw [List.append_assoc, hmethod']
    simp only [List.append_assoc, List.cons_append, hmTakes (32 :: _) hmHead.symm, List.tail_cons] at hpath' ⊢
    rw [hpath']
    simp only [hpTakes (32 :: _) hpHead.symm, List.tail_cons]
    simp only [List.append_assoc] at hversion'
    rw [hversion']
    simp only [if_neg hne, hctl', hcEnds, huEnds, id]

/-- The method and the path are in the text. -/
theorem parseRequest_suffix {text : List UInt8} {maxHeaders : Nat} {r : Request}
    (h : parseRequest text maxHeaders = .ok r) : r.methodText <:+ text ∧ r.pathText <:+ text := by
  unfold parseRequest at h
  split at h
  · cases h
  rename_i methodText hempty
  split at h
  · cases h
  rename_i method rest hmethod
  split at h
  · cases h
  rename_i pathText hspaces
  obtain ⟨e, he, _, _⟩ := skipEmptyLine_takes hempty
  obtain ⟨hm, _, _, _⟩ := parseToken_takes hmethod
  obtain ⟨s, hs, _, _⟩ := skipSpaces_takes hspaces
  have hmethodText : methodText <:+ text := ⟨e, he.symm⟩
  have hpathText : pathText <:+ methodText := by
    refine List.IsSuffix.trans ⟨s, hs.symm⟩ (List.IsSuffix.trans (List.tail_suffix rest) ?_)
    rw [hm]
    exact List.suffix_append method rest
  split at h
  · cases h
  split at h
  · cases h
  split at h
  · cases h
  split at h
  · cases h
  split at h
  · cases h
  split at h
  · cases h
  cases h
  exact ⟨hmethodText, hpathText.trans hmethodText⟩

/-- The `n` bytes that are parsed have no NUL among them, and the rest is the body. -/
theorem phrParseRequest_takes {buf : List UInt8} {maxHeaders n : Nat} {r : Request}
    (h : phrParseRequest buf maxHeaders = .ok (r, n)) :
    n ≤ buf.length ∧ r.body = buf.drop n ∧ ∃ methodUsed pathUsed, r.methodText = methodUsed ++ r.body ∧
      r.pathText = pathUsed ++ r.body ∧ pathUsed <:+ buf.take n ∧
        Ends (phrParseRequest · maxHeaders) (buf.take n) fun body =>
          ({r with methodText := methodUsed ++ body, pathText := pathUsed ++ body, body := body}, n) := by
  unfold phrParseRequest at h
  split at h
  · cases h
  rename_i r' hr
  cases h
  obtain ⟨used, methodUsed, pathUsed, hbuf, hmethod, hpath, hsuffix, h0, hends⟩ := parseRequest_takes hr
  have hn : buf.length - r.body.length = used.length := by
    rw [hbuf, List.length_append, Nat.add_sub_cancel]
  rw [hn]
  refine ⟨by rw [hbuf, List.length_append]; omega, ?_, methodUsed, pathUsed, hmethod, hpath, ?_, ?_, fun body => ?_⟩
  · conv => rhs; rw [hbuf, List.drop_left]
  · rw [hbuf, List.take_left]
    exact hsuffix
  · rw [hbuf, List.take_left]
    exact h0
  · have hparse : parseRequest (used ++ body) maxHeaders = _ := hends body
    show phrParseRequest (buf.take used.length ++ body) maxHeaders = _
    rw [hbuf, List.take_left, phrParseRequest, hparse]
    simp only [List.length_append, Nat.add_sub_cancel]

/-- What follows a complete request in the buffer does not change how it is parsed. -/
theorem phrParseRequest_append (s : List UInt8) {buf : List UInt8} {maxHeaders n : Nat} {r : Request}
    (h : phrParseRequest buf maxHeaders = .ok (r, n)) :
    phrParseRequest (buf ++ s) maxHeaders =
      .ok ({r with methodText := r.methodText ++ s, pathText := r.pathText ++ s, body := r.body ++ s}, n) := by
  obtain ⟨_, hbody, methodUsed, pathUsed, hmethod, hpath, _, _, hends⟩ := phrParseRequest_takes h
  have hparse := hends (buf.drop n ++ s)
  simp only [← List.append_assoc, List.take_append_drop] at hparse
  rw [hparse, hmethod, hpath, hbody]

/-- The beginning of a request that is cut before the end of its head is refused, when
NULs follow it. -/
theorem phrParseRequest_cut {text first : List UInt8} {maxHeaders n k : Nat} {r : Request}
    (h : phrParseRequest text maxHeaders = .ok (r, n)) (hfirst : first <+: text) (hcut : first.length < n)
    (hk : 0 < k) : ∃ e, phrParseRequest (first ++ List.replicate k 0) maxHeaders = .error e := by
  cases hparse : phrParseRequest (first ++ List.replicate k 0) maxHeaders with
  | error e => exact ⟨e, rfl⟩
  | ok p =>
    obtain ⟨r', n'⟩ := p
    exfalso
    obtain ⟨hn', _, _, _, _, _, _, h0, hends⟩ := phrParseRequest_takes hparse
    have hle : n' ≤ first.length := by
      -- The first NUL is behind the bytes that were parsed.
      by_contra hlt
      refine h0 ?_
      rw [List.take_append, List.take_of_length_le (by omega), List.take_replicate]
      refine List.mem_append_right _ (List.mem_replicate.mpr ⟨?_, rfl⟩)
      omega
    rw [List.take_append_of_le_length hle] at hends
    obtain ⟨t, rfl⟩ := hfirst
    have hsame := hends (first.drop n' ++ t)
    simp only [← List.append_assoc, List.take_append_drop] at hsame
    rw [h] at hsame
    cases hsame
    omega

end Rinha.Http

import Rinha.Http.PicohttpProofs
import Rinha.Library.CString
import Rinha.Library.Incremental

/-! The requests that `phr_parse_request` accepts, and what it says of other texts.

It accepts the texts of one grammar, with the parts that they are made of
(`phrParseRequest_iff`). What it says of a text it says of every text that goes on from
there, unless it asks for more; and it asks for more of every beginning of a request that
is cut in its head (`phrParseRequest_incremental`). -/
namespace Rinha.Http
open Library

/-! ### The grammar -/

/-- The end of a line. -/
inductive Eol : List UInt8 → Prop where
  | lf : Eol [10]
  | crlf : Eol [13, 10]

/-- No control character but the tab. -/
def Printable (b : UInt8) : Prop := ¬ ((b < 32 ∧ b ≠ 9) ∨ b = 127)

/-- A header, or a line that goes on with the header in front of it. -/
inductive HeaderLine : Bool → List UInt8 → Prop where
  | field (first : Bool) (name value : List UInt8) (hne : name ≠ []) (hname : ∀ b ∈ name, tokenCharMap b = true)
      (hvalue : ∀ b ∈ value, Printable b) : HeaderLine first (name ++ 58 :: value)
  | folded (b : UInt8) (value : List UInt8) (hb : b = 32 ∨ b = 9) (hvalue : ∀ c ∈ value, Printable c) :
      HeaderLine false (b :: value)

/-- The lines of the headers, and the empty line behind them. -/
inductive Headers : Bool → Nat → List UInt8 → Prop where
  | ends (first : Bool) (eol : List UInt8) (heol : Eol eol) : Headers first 0 eol
  | line (first : Bool) (n : Nat) (line eol rest : List UInt8) (hline : HeaderLine first line) (heol : Eol eol)
      (hrest : Headers false n rest) : Headers first (n + 1) (line ++ (eol ++ rest))

/-- The text of a request, whose headers are so many lines. -/
structure Written (lines : Nat) (text : List UInt8) (r : Request) : Prop where
  method_ne : r.method ≠ []
  method : ∀ b ∈ r.method, tokenCharMap b = true
  path_ne : r.path ≠ []
  path : ∀ b ∈ r.path, 32 < b ∧ b ≠ 127
  minorVersion : r.minorVersion < 10
  /-- An empty line may be in front. -/
  text : ∃ empty, (empty = [] ∨ Eol empty) ∧ text = empty ++ r.methodText
  methodText : ∃ spaces, r.methodText = r.method ++ 32 :: (List.replicate spaces 32 ++ r.pathText)
  pathText : ∃ spaces eol headers, Eol eol ∧ Headers true lines headers ∧
    r.pathText = r.path ++ 32 :: (List.replicate spaces 32 ++
      (bytes "HTTP/1." ++ (48 + r.minorVersion).toUInt8 :: (eol ++ (headers ++ r.body))))

/-! ### Lines -/

theorem foundCtl_iff {text rest : List UInt8} :
    foundCtl text = .ok rest ↔ ∃ eol, Eol eol ∧ text = eol ++ rest := by
  constructor
  · intro h
    cases text with
    | nil => cases h
    | cons b text =>
      rw [foundCtl] at h
      split at h
      · rename_i hb
        cases text with
        | nil => cases h
        | cons c text =>
          rw [expectChar] at h
          split at h
          · rename_i hc
            cases h
            exact ⟨_, .crlf, by rw [hb, hc]; rfl⟩
          · cases h
      · split at h
        · rename_i hb
          cases h
          exact ⟨_, .lf, by rw [hb]; rfl⟩
        · cases h
  · rintro ⟨eol, heol, rfl⟩
    cases heol with
    | lf => rfl
    | crlf => rfl

theorem Eol.head {eol : List UInt8} (h : Eol eol) : ∃ b rest, eol = b :: rest ∧ (b = 13 ∨ b = 10) := by
  cases h with
  | lf => exact ⟨10, [], rfl, .inr rfl⟩
  | crlf => exact ⟨13, [10], rfl, .inl rfl⟩

theorem getTokenToEol_iff {text rest : List UInt8} : getTokenToEol text = .ok rest ↔
    ∃ line eol, (∀ b ∈ line, Printable b) ∧ Eol eol ∧ text = line ++ (eol ++ rest) := by
  constructor
  · intro h
    induction text with
    | nil => cases h
    | cons b text ih =>
      rw [getTokenToEol] at h
      split at h
      · obtain ⟨eol, heol, htext⟩ := foundCtl_iff.mp h
        exact ⟨[], eol, fun _ hmem => absurd hmem List.not_mem_nil, heol, htext⟩
      · rename_i hb
        obtain ⟨line, eol, hline, heol, htext⟩ := ih h
        refine ⟨b :: line, eol, fun c hc => ?_, heol, by rw [htext, List.cons_append]⟩
        rcases List.mem_cons.mp hc with rfl | hc
        · exact hb
        · exact hline c hc
  · rintro ⟨line, eol, hline, heol, rfl⟩
    induction line with
    | nil =>
      obtain ⟨b, eol', heq, hb⟩ := heol.head
      have hctl : (b < 32 ∧ b ≠ 9) ∨ b = 127 := by rcases hb with rfl | rfl <;> decide
      have hfound : foundCtl (eol ++ rest) = .ok rest := foundCtl_iff.mpr ⟨eol, heol, rfl⟩
      rw [heq] at hfound ⊢
      rw [List.nil_append, List.cons_append, getTokenToEol, if_pos hctl]
      exact hfound
    | cons b line ih =>
      rw [List.cons_append, getTokenToEol, if_neg (hline b (List.mem_cons_self ..))]
      exact ih fun c hc => hline c (List.mem_cons_of_mem b hc)

/-- The blanks that are skipped belong to the line like any other of its characters. -/
theorem getTokenToEol_blank {b : UInt8} (hb : b = 32 ∨ b = 9) (text : List UInt8) :
    getTokenToEol (b :: text) = getTokenToEol text := by
  have hprintable : Printable b := by
    unfold Printable
    rcases hb with rfl | rfl <;> decide
  rw [getTokenToEol, if_neg hprintable]

theorem skipBlanks_bind (text : List UInt8) : (skipBlanks text >>= getTokenToEol) = getTokenToEol text := by
  induction text with
  | nil => rfl
  | cons b text ih =>
    rw [skipBlanks]
    split
    · rename_i hb
      rw [ih, getTokenToEol_blank hb]
    · rfl

/-! ### Tokens -/

theorem parseToken_append {nextChar : UInt8} {token : List UInt8} (hnext : tokenCharMap nextChar = false)
    (h : ∀ b ∈ token, tokenCharMap b = true) (rest : List UInt8) :
    parseToken nextChar (token ++ nextChar :: rest) = .ok (token, nextChar :: rest) := by
  induction token with
  | nil => rw [List.nil_append, parseToken, if_pos rfl]
  | cons b token ih =>
    have hb := h b (List.mem_cons_self ..)
    have hne : b ≠ nextChar := fun heq => by rw [heq, hnext] at hb; cases hb
    rw [List.cons_append, parseToken, if_neg hne, if_neg (by rw [hb]; decide),
      ih fun c hc => h c (List.mem_cons_of_mem b hc)]

theorem advanceToken_append {token : List UInt8} (h : ∀ b ∈ token, 32 < b ∧ b ≠ 127) (rest : List UInt8) :
    advanceToken (token ++ 32 :: rest) = .ok (token, 32 :: rest) := by
  induction token with
  | nil => rw [List.nil_append, advanceToken, if_pos rfl]
  | cons b token ih =>
    obtain ⟨hb, h127⟩ := h b (List.mem_cons_self ..)
    have hctl : ¬ (b < 32 ∨ b = 127) := by
      rw [not_or]
      exact ⟨by grind, h127⟩
    rw [List.cons_append, advanceToken, if_neg (by grind), if_neg hctl, ih fun c hc => h c (List.mem_cons_of_mem b hc)]

theorem skipSpaces_replicate {b : UInt8} (hb : b ≠ 32) (k : Nat) (rest : List UInt8) :
    skipSpaces (List.replicate k 32 ++ b :: rest) = .ok (b :: rest) := by
  induction k with
  | zero => rw [List.replicate_zero, List.nil_append, skipSpaces, if_neg hb]
  | succ k ih => rw [List.replicate_succ, List.cons_append, skipSpaces, if_pos rfl, ih]

/-! ### Headers -/

/-- The text behind a line, which has a name unless it goes on with a header. -/
theorem headerLine_iff {first : Bool} {text rest : List UInt8} :
    (parseHeaderName first text >>= getTokenToEol) = .ok rest ↔
      ∃ line eol, HeaderLine first line ∧ Eol eol ∧ text = line ++ (eol ++ rest) := by
  constructor
  · intro h
    by_cases hfolded : (!first && (text.head? = some 32 || text.head? = some 9)) = true
    · rw [parseHeaderName, if_pos hfolded] at h
      simp only [Bool.and_eq_true, Bool.not_eq_true', Bool.or_eq_true, decide_eq_true_eq] at hfolded
      obtain ⟨rfl, hhead⟩ := hfolded
      obtain ⟨b, hb, hblank⟩ : ∃ b, text.head? = some b ∧ (b = 32 ∨ b = 9) :=
        hhead.elim (fun h => ⟨32, h, .inl rfl⟩) fun h => ⟨9, h, .inr rfl⟩
      rw [head_tail hb] at h ⊢
      have hline : getTokenToEol text.tail = .ok rest := by rw [← getTokenToEol_blank hblank]; exact h
      obtain ⟨line, eol, hline, heol, htext⟩ := getTokenToEol_iff.mp hline
      exact ⟨b :: line, eol, .folded b line hblank hline, heol, by rw [htext, List.cons_append]⟩
    · rw [parseHeaderName, if_neg hfolded] at h
      cases hname : parseToken 58 text with
      | error e =>
        rw [hname] at h
        cases h
      | ok p =>
        obtain ⟨name, behind⟩ := p
        obtain ⟨htext, hhead, hall⟩ := parseToken_ok hname
        rw [hname] at h
        simp only at h
        split at h
        · cases h
        · rename_i hne
          rw [skipBlanks_bind] at h
          obtain ⟨value, eol, hvalue, heol, hbehind⟩ := getTokenToEol_iff.mp h
          refine ⟨name ++ 58 :: value, eol, .field first name value hne (fun b hb => (hall b hb).2) hvalue, heol, ?_⟩
          rw [htext, head_tail hhead, hbehind, List.append_assoc, List.cons_append]
  · rintro ⟨line, eol, hline, heol, rfl⟩
    cases hline with
    | field first name value hne hname hvalue =>
      have hfolded : ¬ (!first && ((name ++ 58 :: value ++ (eol ++ rest)).head? = some 32 ||
          (name ++ 58 :: value ++ (eol ++ rest)).head? = some 9)) = true := by
        cases name with
        | nil => exact absurd rfl hne
        | cons b name =>
          have hb := hname b (List.mem_cons_self ..)
          have h32 : b ≠ 32 := fun heq => by rw [heq] at hb; cases hb
          have h9 : b ≠ 9 := fun heq => by rw [heq] at hb; cases hb
          simp [h32, h9]
      rw [parseHeaderName, if_neg hfolded, List.append_assoc, List.cons_append, parseToken_append (by decide) hname]
      simp only [if_neg hne]
      rw [List.tail_cons, skipBlanks_bind]
      exact getTokenToEol_iff.mpr ⟨value, eol, hvalue, heol, rfl⟩
    | folded b value hb hvalue =>
      have hfolded : (!false && ((b :: value ++ (eol ++ rest)).head? = some 32 ||
          (b :: value ++ (eol ++ rest)).head? = some 9)) = true := by
        rcases hb with rfl | rfl <;> simp
      rw [parseHeaderName, if_pos hfolded]
      show getTokenToEol (b :: (value ++ (eol ++ rest))) = _
      rw [getTokenToEol_blank hb]
      exact getTokenToEol_iff.mpr ⟨value, eol, hvalue, heol, rfl⟩

theorem HeaderLine.head {first : Bool} {line : List UInt8} (h : HeaderLine first line) :
    ∃ b rest, line = b :: rest ∧ b ≠ 13 ∧ b ≠ 10 := by
  cases h with
  | field first name value hne hname =>
    cases name with
    | nil => exact absurd rfl hne
    | cons b name =>
      have hb := hname b (List.mem_cons_self ..)
      refine ⟨b, name ++ 58 :: value, rfl, fun heq => ?_, fun heq => ?_⟩
      · rw [heq] at hb
        cases hb
      · rw [heq] at hb
        cases hb
  | folded b value hb =>
    refine ⟨b, value, rfl, ?_⟩
    rcases hb with rfl | rfl <;> decide

/-- Where a line begins, it and the lines behind it are read one after the other. -/
theorem parseHeaders_line {left : Nat} {first : Bool} {b : UInt8} (h13 : b ≠ 13) (h10 : b ≠ 10) (text : List UInt8) :
    parseHeaders (left + 1) first (b :: text) =
      ((parseHeaderName first (b :: text) >>= getTokenToEol) >>= parseHeaders left false) := by
  rw [parseHeaders, if_neg h13, if_neg h10]
  cases parseHeaderName first (b :: text) with
  | error e => rfl
  | ok value =>
    simp only [bind, Except.bind]
    cases getTokenToEol value with
    | error e => rfl
    | ok rest => rfl

theorem parseHeaders_iff {left : Nat} {first : Bool} {text rest : List UInt8} :
    parseHeaders left first text = .ok rest ↔
      ∃ n ≤ left, ∃ headers, Headers first n headers ∧ text = headers ++ rest := by
  constructor
  · intro h
    induction left generalizing first text with
    | zero =>
      cases text with
      | nil => cases h
      | cons b text =>
        by_cases hb : b = 13 ∨ b = 10
        · rw [parseHeaders_eol hb] at h
          obtain ⟨eol, heol, htext⟩ := foundCtl_iff.mp h
          exact ⟨0, le_rfl, eol, .ends first eol heol, htext⟩
        · obtain ⟨h13, h10⟩ := not_or.mp hb
          rw [parseHeaders, if_neg h13, if_neg h10] at h
          cases h
    | succ left ih =>
      cases text with
      | nil => cases h
      | cons b text =>
        by_cases hb : b = 13 ∨ b = 10
        · rw [parseHeaders_eol hb] at h
          obtain ⟨eol, heol, htext⟩ := foundCtl_iff.mp h
          exact ⟨0, Nat.zero_le _, eol, .ends first eol heol, htext⟩
        · obtain ⟨h13, h10⟩ := not_or.mp hb
          rw [parseHeaders_line h13 h10] at h
          cases hline : parseHeaderName first (b :: text) >>= getTokenToEol with
          | error e =>
            rw [hline] at h
            cases h
          | ok behind =>
            rw [hline] at h
            obtain ⟨line, eol, hheader, heol, htext⟩ := headerLine_iff.mp hline
            obtain ⟨n, hn, headers, hheaders, hbehind⟩ := ih h
            refine ⟨n + 1, Nat.succ_le_succ hn, _, .line first n line eol headers hheader heol hheaders, ?_⟩
            rw [htext, hbehind, List.append_assoc, List.append_assoc]
  · rintro ⟨n, hn, headers, hheaders, rfl⟩
    induction hheaders generalizing left with
    | ends first eol heol =>
      obtain ⟨b, eol', rfl, hb⟩ := heol.head
      rw [List.cons_append, parseHeaders_eol hb, ← List.cons_append]
      exact foundCtl_iff.mpr ⟨_, heol, rfl⟩
    | line first n line eol headers hline heol _ ih =>
      cases left with
      | zero => cases hn
      | succ left =>
        obtain ⟨b, line', rfl, h13, h10⟩ := hline.head
        have hread : (parseHeaderName first (b :: line' ++ (eol ++ (headers ++ rest))) >>= getTokenToEol) =
            .ok (headers ++ rest) := headerLine_iff.mpr ⟨_, eol, hline, heol, rfl⟩
        rw [List.append_assoc, List.append_assoc, List.cons_append, parseHeaders_line h13 h10, ← List.cons_append,
          hread]
        exact ih (Nat.le_of_succ_le_succ hn)

/-! ### Requests -/

theorem parseHttpVersion_iff {text rest : List UInt8} {v : Nat} : parseHttpVersion text = .ok (v, rest) ↔
    v < 10 ∧ rest ≠ [] ∧ text = bytes "HTTP/1." ++ (48 + v).toUInt8 :: rest := by
  have hname : bytes "HTTP/1." = [72, 84, 84, 80, 47, 49, 46] := by decide
  rw [hname]
  constructor
  · intro h
    unfold parseHttpVersion at h
    split at h
    · cases h
    · rename_i hlength
      split at h
      · cases h
      · cases h
      · rename_i b behind hexpect
        have htext := expectChars_iff.mp hexpect
        split at h
        · cases h
        · rename_i hdigit
          cases h
          rw [not_or, UInt8.not_lt, UInt8.not_lt] at hdigit
          have hlow := UInt8.le_iff_toNat_le.mp hdigit.1
          have hhigh := UInt8.le_iff_toNat_le.mp hdigit.2
          have h48 : (48 : UInt8).toNat = 48 := rfl
          have h57 : (57 : UInt8).toNat = 57 := rfl
          have hb : (48 + (b.toNat - 48)).toUInt8 = b := by
            rw [Nat.add_sub_cancel' (by omega)]
            exact UInt8.ofNat_toNat
          refine ⟨by omega, fun hnil => hlength ?_, by rw [hb]; exact htext⟩
          rw [htext, hnil]
          exact Nat.lt_succ_self 8
  · rintro ⟨hv, hne, rfl⟩
    have hlength : ¬ ([72, 84, 84, 80, 47, 49, 46] ++ (48 + v).toUInt8 :: rest).length < 9 := by
      have hpos := List.length_pos_of_ne_nil hne
      rw [List.length_append, List.length_cons]
      simp only [List.length_cons, List.length_nil]
      omega
    have hdigit : ∀ v < 10, ¬ ((48 + v).toUInt8 < 48 ∨ 57 < (48 + v).toUInt8) ∧ (48 + v).toUInt8.toNat - 48 = v := by
      decide
    rw [parseHttpVersion, if_neg hlength, expectChars_iff.mpr rfl]
    simp only [if_neg (hdigit v hv).1, (hdigit v hv).2]

theorem skipEmptyLine_iff {text rest : List UInt8} (hrest : ∃ b ∈ rest.head?, b ≠ 13 ∧ b ≠ 10) :
    skipEmptyLine text = .ok rest ↔ ∃ empty, (empty = [] ∨ Eol empty) ∧ text = empty ++ rest := by
  obtain ⟨b, hb, h13, h10⟩ := hrest
  rw [List.eq_cons_of_mem_head? hb]
  constructor
  · intro h
    cases text with
    | nil => cases h
    | cons c text =>
      by_cases hc : c = 13 ∨ c = 10
      · have hsame : skipEmptyLine (c :: text) = foundCtl (c :: text) := by rcases hc with rfl | rfl <;> rfl
        rw [hsame] at h
        obtain ⟨eol, heol, htext⟩ := foundCtl_iff.mp h
        exact ⟨eol, .inr heol, htext⟩
      · obtain ⟨hc13, hc10⟩ := not_or.mp hc
        rw [skipEmptyLine, if_neg hc13, if_neg hc10] at h
        exact ⟨[], .inl rfl, Except.ok.inj h⟩
  · rintro ⟨empty, hempty, rfl⟩
    rcases hempty with rfl | hempty
    · rw [List.nil_append, skipEmptyLine, if_neg h13, if_neg h10]
    · cases hempty with
      | lf => rfl
      | crlf => rfl

theorem Headers.ne_nil {first : Bool} {n : Nat} {headers : List UInt8} (h : Headers first n headers) :
    headers ≠ [] := by
  cases h with
  | ends _ eol heol =>
    obtain ⟨b, rest, rfl, _⟩ := heol.head
    exact List.cons_ne_nil b rest
  | line _ n line eol rest hline =>
    obtain ⟨b, line', rfl, _⟩ := hline.head
    exact List.cons_ne_nil b _

theorem parseRequest_iff {text : List UInt8} {maxHeaders : Nat} {r : Request} :
    parseRequest text maxHeaders = .ok r ↔ ∃ lines ≤ maxHeaders, Written lines text r := by
  constructor
  · intro h
    unfold parseRequest at h
    split at h
    · cases h
    rename_i methodText hempty
    split at h
    · cases h
    rename_i method rest hmethod
    split at h
    · cases h
    rename_i pathText hspaces
    split at h
    · cases h
    rename_i path rest' hpath
    split at h
    · cases h
    rename_i versionText hspaces'
    split at h
    · cases h
    rename_i hne
    split at h
    · cases h
    rename_i minorVersion rest'' hversion
    split at h
    · cases h
    rename_i headersText hctl
    split at h
    · cases h
    rename_i body hbody
    cases h
    rw [not_or] at hne
    obtain ⟨hm, hmHead, hmAll⟩ := parseToken_ok hmethod
    obtain ⟨hp, hpHead, hpAll⟩ := advanceToken_ok hpath
    obtain ⟨k, hk, _⟩ := skipSpaces_ok hspaces
    obtain ⟨k', hk', _⟩ := skipSpaces_ok hspaces'
    obtain ⟨hv, _, hversionText⟩ := parseHttpVersion_iff.mp hversion
    obtain ⟨eol, heol, hrest''⟩ := foundCtl_iff.mp hctl
    obtain ⟨lines, hlines, headers, hheaders, hheadersText⟩ := parseHeaders_iff.mp hbody
    have hfirst : ∃ b ∈ methodText.head?, b ≠ 13 ∧ b ≠ 10 := by
      cases method with
      | nil => exact absurd rfl hne.1
      | cons b method =>
        have hb := (hmAll b (List.mem_cons_self ..)).2
        refine ⟨b, by rw [hm]; rfl, fun heq => ?_, fun heq => ?_⟩
        · rw [heq] at hb
          cases hb
        · rw [heq] at hb
          cases hb
    refine ⟨lines, hlines, hne.1, fun b hb => (hmAll b hb).2, hne.2, hpAll, hv,
      (skipEmptyLine_iff hfirst).mp hempty, ⟨k, ?_⟩, k', eol, headers, heol, hheaders, ?_⟩
    · rw [← hk, ← head_tail hmHead]
      exact hm
    · rw [← hheadersText, ← hrest'', ← hversionText, ← hk', ← head_tail hpHead]
      exact hp
  · rintro ⟨lines, hlines, h⟩
    obtain ⟨empty, hempty, htext⟩ := h.text
    obtain ⟨k, hmethodText⟩ := h.methodText
    obtain ⟨k', eol, headers, heol, hheaders, hpathText⟩ := h.pathText
    have hfirst : ∃ b ∈ r.methodText.head?, b ≠ 13 ∧ b ≠ 10 := by
      cases hmethod : r.method with
      | nil => exact absurd hmethod h.method_ne
      | cons b method =>
        have hb := h.method b (by rw [hmethod]; exact List.mem_cons_self ..)
        refine ⟨b, by rw [hmethodText, hmethod]; rfl, fun heq => ?_, fun heq => ?_⟩
        · rw [heq] at hb
          cases hb
        · rw [heq] at hb
          cases hb
    have hpath : ∃ b rest, b ≠ 32 ∧ r.pathText = b :: rest := by
      cases hpath : r.path with
      | nil => exact absurd hpath h.path_ne
      | cons b path =>
        have hb := (h.path b (by rw [hpath]; exact List.mem_cons_self ..)).1
        exact ⟨b, _, fun heq => by rw [heq] at hb; exact absurd hb (by decide), by rw [hpathText, hpath]; rfl⟩
    obtain ⟨b, rest, hb, hpathCons⟩ := hpath
    have hversionCons : ∃ c rest, c ≠ 32 ∧ bytes "HTTP/1." ++ (48 + r.minorVersion).toUInt8 ::
        (eol ++ (headers ++ r.body)) = c :: rest := ⟨72, _, by decide, rfl⟩
    obtain ⟨c, rest', hc, hversionCons⟩ := hversionCons
    have hversion : parseHttpVersion (bytes "HTTP/1." ++ (48 + r.minorVersion).toUInt8 ::
        (eol ++ (headers ++ r.body))) = .ok (r.minorVersion, eol ++ (headers ++ r.body)) := by
      refine parseHttpVersion_iff.mpr ⟨h.minorVersion, fun hnil => hheaders.ne_nil ?_, rfl⟩
      exact (List.append_eq_nil_iff.mp (List.append_eq_nil_iff.mp hnil).2).1
    unfold parseRequest
    rw [(skipEmptyLine_iff hfirst).mpr ⟨empty, hempty, htext⟩]
    simp only
    rw [hmethodText, parseToken_append (by decide) h.method]
    simp only [List.tail_cons]
    rw [hpathCons, skipSpaces_replicate hb, ← hpathCons]
    simp only
    rw [hpathText, advanceToken_append h.path]
    simp only [List.tail_cons]
    rw [hversionCons, skipSpaces_replicate hc, ← hversionCons]
    simp only [hversion, if_neg (not_or.mpr ⟨h.method_ne, h.path_ne⟩), foundCtl_iff.mpr ⟨eol, heol, rfl⟩,
      parseHeaders_iff.mpr ⟨lines, hlines, headers, hheaders, rfl⟩]
    rw [← hpathText, ← hmethodText]

/-- **The requests that are accepted** are those that are written in the grammar with as
many lines of headers as there is room for, and what is given is what they are made of:
the parts, and where the body begins. -/
theorem phrParseRequest_iff {buf : List UInt8} {maxHeaders n : Nat} {r : Request} :
    phrParseRequest buf maxHeaders = .ok (r, n) ↔
      (∃ lines ≤ maxHeaders, Written lines buf r) ∧ n + r.body.length = buf.length := by
  rw [← parseRequest_iff]
  unfold phrParseRequest
  cases hparse : parseRequest buf maxHeaders with
  | error e =>
    constructor
    · intro h
      cases h
    · rintro ⟨h, _⟩
      cases h
  | ok r' =>
    obtain ⟨used, _, _, htext, _⟩ := parseRequest_takes hparse
    have hle : r'.body.length ≤ buf.length := by
      rw [htext, List.length_append]
      exact Nat.le_add_left ..
    constructor
    · intro h
      cases h
      exact ⟨rfl, Nat.sub_add_cancel hle⟩
    · rintro ⟨h, hn⟩
      cases h
      simp only [← hn, Nat.add_sub_cancel]

/-! ### Texts that come bit by bit -/

/-- The parser says of a text what it says of the text with more behind it. -/
abbrev Streams (f : List UInt8 → Except Ret (List UInt8)) : Prop := Incremental .incomplete (· ++ ·) (· ++ ·) f

/-- So does one that also gives a value. -/
abbrev StreamsTo {α : Type} (f : List UInt8 → Except Ret (α × List UInt8)) : Prop :=
  Incremental .incomplete (· ++ ·) (fun d more => (d.1, d.2 ++ more)) f

theorem parseToken_streams (nextChar : UInt8) : StreamsTo (parseToken nextChar) := by
  refine Incremental.scan rfl fun b => ?_
  by_cases hb : b = nextChar
  · left
    rw [show (fun text => parseToken nextChar (b :: text)) = fun text => .ok ([], b :: text) from
      funext fun text => by rw [parseToken, if_pos hb]]
    exact .pure fun _ _ => rfl
  · by_cases hmap : tokenCharMap b = true
    · right
      refine ⟨fun d => (b :: d.1, d.2), fun _ _ => rfl, fun text => ?_⟩
      rw [parseToken, if_neg hb, if_neg (by rw [hmap]; decide)]
      cases parseToken nextChar text with
      | error e => rfl
      | ok d => rfl
    · left
      rw [show (fun text => parseToken nextChar (b :: text)) = fun _ => .error .malformed from
        funext fun text => by rw [parseToken, if_neg hb, if_pos (by simpa using hmap)]]
      exact .fail Ret.malformed

theorem advanceToken_streams : StreamsTo advanceToken := by
  refine Incremental.scan rfl fun b => ?_
  by_cases hb : b = 32
  · left
    rw [show (fun text => advanceToken (b :: text)) = fun text => .ok ([], b :: text) from
      funext fun text => by rw [advanceToken, if_pos hb]]
    exact .pure fun _ _ => rfl
  · by_cases hctl : b < 32 ∨ b = 127
    · left
      rw [show (fun text => advanceToken (b :: text)) = fun _ => .error .malformed from
        funext fun text => by rw [advanceToken, if_neg hb, if_pos hctl]]
      exact .fail Ret.malformed
    · right
      refine ⟨fun d => (b :: d.1, d.2), fun _ _ => rfl, fun text => ?_⟩
      rw [advanceToken, if_neg hb, if_neg hctl]
      cases advanceToken text with
      | error e => rfl
      | ok d => rfl

theorem expectChar_streams (ch : UInt8) : Streams (expectChar ch) := by
  refine Incremental.scan rfl fun b => ?_
  left
  by_cases hb : b = ch
  · rw [show (fun text => expectChar ch (b :: text)) = fun text => .ok text from
      funext fun text => by rw [expectChar, if_pos hb]]
    exact .pure fun _ _ => rfl
  · rw [show (fun text => expectChar ch (b :: text)) = fun _ => .error .malformed from
      funext fun text => by rw [expectChar, if_neg hb]]
    exact .fail Ret.malformed

theorem expectChars_streams (chs : List UInt8) : Streams (expectChars chs) := by
  induction chs with
  | nil => exact .pure fun _ _ => rfl
  | cons ch chs ih =>
    rw [show expectChars (ch :: chs) = fun text => expectChar ch text >>= expectChars chs from
      funext fun text => by rw [expectChars]; cases expectChar ch text <;> rfl]
    exact (expectChar_streams ch).bind ih

/-- A line's end and what else may stand there: the text goes on behind the end. -/
theorem foundCtl_streams : Streams foundCtl := by
  refine Incremental.scan rfl fun b => ?_
  left
  by_cases h13 : b = 13
  · rw [show (fun text => foundCtl (b :: text)) = expectChar 10 from
      funext fun text => by rw [foundCtl, if_pos h13]]
    exact expectChar_streams 10
  · by_cases h10 : b = 10
    · rw [show (fun text => foundCtl (b :: text)) = fun text => .ok text from
        funext fun text => by rw [foundCtl, if_neg h13, if_pos h10]]
      exact .pure fun _ _ => rfl
    · rw [show (fun text => foundCtl (b :: text)) = fun _ => .error .malformed from
        funext fun text => by rw [foundCtl, if_neg h13, if_neg h10]]
      exact .fail Ret.malformed

theorem skipEmptyLine_streams : Streams skipEmptyLine := by
  refine Incremental.scan rfl fun b => ?_
  left
  by_cases hb : b = 13 ∨ b = 10
  · rw [show (fun text => skipEmptyLine (b :: text)) = fun text => foundCtl (b :: text) from
      funext fun text => by rcases hb with rfl | rfl <;> rfl]
    exact foundCtl_streams.behind b
  · obtain ⟨h13, h10⟩ := not_or.mp hb
    rw [show (fun text => skipEmptyLine (b :: text)) = fun text => .ok (b :: text) from
      funext fun text => by rw [skipEmptyLine, if_neg h13, if_neg h10]]
    exact .pure fun _ _ => rfl

theorem skipSpaces_streams : Streams skipSpaces := by
  refine Incremental.scan rfl fun b => ?_
  by_cases hb : b = 32
  · right
    refine ⟨id, fun _ _ => rfl, fun text => ?_⟩
    rw [skipSpaces, if_pos hb]
    cases skipSpaces text <;> rfl
  · left
    rw [show (fun text => skipSpaces (b :: text)) = fun text => .ok (b :: text) from
      funext fun text => by rw [skipSpaces, if_neg hb]]
    exact .pure fun _ _ => rfl

theorem skipBlanks_streams : Streams skipBlanks := by
  refine Incremental.scan rfl fun b => ?_
  by_cases hb : b = 32 ∨ b = 9
  · right
    refine ⟨id, fun _ _ => rfl, fun text => ?_⟩
    rw [skipBlanks, if_pos hb]
    cases skipBlanks text <;> rfl
  · left
    rw [show (fun text => skipBlanks (b :: text)) = fun text => .ok (b :: text) from
      funext fun text => by rw [skipBlanks, if_neg hb]]
    exact .pure fun _ _ => rfl

theorem getTokenToEol_streams : Streams getTokenToEol := by
  refine Incremental.scan rfl fun b => ?_
  by_cases hb : (b < 32 ∧ b ≠ 9) ∨ b = 127
  · left
    rw [show (fun text => getTokenToEol (b :: text)) = fun text => foundCtl (b :: text) from
      funext fun text => by rw [getTokenToEol, if_pos hb]]
    exact foundCtl_streams.behind b
  · right
    refine ⟨id, fun _ _ => rfl, fun text => ?_⟩
    rw [getTokenToEol, if_neg hb]
    cases getTokenToEol text <;> rfl

/-- A parser that goes on behind the first byte of what is left. -/
theorem streams_tail {f : List UInt8 → Except Ret (List UInt8)} (hf : Streams f) (hnil : f [] = .error .incomplete) :
    Incremental .incomplete (· ++ ·) (· ++ ·) fun text => f text.tail := by
  intro text more
  cases text with
  | nil =>
    show Follows _ _ (f []) _
    rw [hnil]
    exact .waits _
  | cons b text => exact hf text more

theorem parseHeaderName_streams (first : Bool) : Streams (parseHeaderName first) := by
  refine Incremental.scan (by cases first <;> rfl) fun b => ?_
  left
  by_cases hfolded : (!first && (some b = some 32 || some b = some 9)) = true
  · rw [show (fun text => parseHeaderName first (b :: text)) = fun text => .ok (b :: text) from
      funext fun text => by rw [parseHeaderName, List.head?_cons, if_pos hfolded]]
    exact .pure fun _ _ => rfl
  · rw [show (fun text => parseHeaderName first (b :: text)) = fun text => parseToken 58 (b :: text) >>= fun d =>
        if d.1 = [] then .error .malformed else skipBlanks d.2.tail from funext fun text => by
      rw [parseHeaderName, List.head?_cons, if_neg hfolded]
      cases parseToken 58 (b :: text) <;> rfl]
    intro text more
    apply (parseToken_streams 58 (b :: text) more).bind
    rintro ⟨name, behind⟩ _ rfl
    by_cases hname : name = []
    · rw [if_pos hname, if_pos hname]
      exact .fails _
    · rw [if_neg hname, if_neg hname]
      exact streams_tail skipBlanks_streams rfl behind more

theorem parseHeaders_streams (left : Nat) (first : Bool) : Streams (parseHeaders left first) := by
  induction left generalizing first with
  | zero =>
    refine Incremental.scan rfl fun b => ?_
    left
    by_cases hb : b = 13 ∨ b = 10
    · rw [show (fun text => parseHeaders 0 first (b :: text)) = fun text => foundCtl (b :: text) from
        funext fun text => parseHeaders_eol hb text]
      exact foundCtl_streams.behind b
    · obtain ⟨h13, h10⟩ := not_or.mp hb
      rw [show (fun text => parseHeaders 0 first (b :: text)) = fun _ => .error .malformed from
        funext fun text => by rw [parseHeaders, if_neg h13, if_neg h10]]
      exact .fail Ret.malformed
  | succ left ih =>
    refine Incremental.scan rfl fun b => ?_
    left
    by_cases hb : b = 13 ∨ b = 10
    · rw [show (fun text => parseHeaders (left + 1) first (b :: text)) = fun text => foundCtl (b :: text) from
        funext fun text => parseHeaders_eol hb text]
      exact foundCtl_streams.behind b
    · obtain ⟨h13, h10⟩ := not_or.mp hb
      rw [show (fun text => parseHeaders (left + 1) first (b :: text)) = fun text =>
          ((parseHeaderName first (b :: text) >>= getTokenToEol) >>= parseHeaders left false) from
        funext fun text => parseHeaders_line h13 h10 text]
      exact (((parseHeaderName_streams first).bind getTokenToEol_streams).bind (ih false)).behind b

theorem parseHttpVersion_streams : StreamsTo parseHttpVersion := by
  intro text more
  unfold parseHttpVersion
  by_cases hlength : text.length < 9
  · rw [if_pos hlength]
    exact .waits _
  · have hlength' : ¬ (text ++ more).length < 9 := by
      rw [List.length_append]
      omega
    rw [if_neg hlength, if_neg hlength']
    have hexpect := expectChars_streams [72, 84, 84, 80, 47, 49, 46] text more
    generalize expectChars _ text = before at hexpect
    generalize expectChars _ (text ++ more) = after at hexpect
    cases hexpect with
    | waits => exact .waits _
    | fails e => exact .fails e
    | @gives rest _ h =>
      subst h
      cases rest with
      | nil => exact .waits _
      | cons b rest =>
        by_cases hdigit : b < 48 ∨ 57 < b
        · simp only [List.cons_append, if_pos hdigit]
          exact .fails _
        · simp only [List.cons_append, if_neg hdigit]
          exact .gives rfl

/-- The request, with more text behind it. -/
def Request.behind (r : Request) (more : List UInt8) : Request :=
  {r with methodText := r.methodText ++ more, pathText := r.pathText ++ more, body := r.body ++ more}

/-- Each parser in turn reads on where the one before has stopped. -/
theorem parseRequest_bind (text : List UInt8) (maxHeaders : Nat) : parseRequest text maxHeaders = (do
    let methodText ← skipEmptyLine text
    let (method, rest) ← parseToken 32 methodText
    let pathText ← skipSpaces rest.tail
    let (path, rest) ← advanceToken pathText
    let versionText ← skipSpaces rest.tail
    if method = [] ∨ path = [] then .error .malformed
    else do
      let (minorVersion, rest) ← parseHttpVersion versionText
      let headersText ← foundCtl rest
      let body ← parseHeaders maxHeaders true headersText
      .ok ⟨method, methodText, path, pathText, minorVersion, body⟩) := by
  unfold parseRequest
  cases skipEmptyLine text with
  | error e => rfl
  | ok methodText =>
    simp only [bind, Except.bind]
    rcases parseToken 32 methodText with e | ⟨method, rest⟩
    · rfl
    simp only
    rcases skipSpaces rest.tail with e | pathText
    · rfl
    simp only
    rcases advanceToken pathText with e | ⟨path, rest⟩
    · rfl
    simp only
    rcases skipSpaces rest.tail with e | versionText
    · rfl
    simp only
    by_cases hnil : method = [] ∨ path = []
    · rw [if_pos hnil, if_pos hnil]
    · rw [if_neg hnil, if_neg hnil]
      rcases parseHttpVersion versionText with e | ⟨minorVersion, rest⟩
      · rfl
      simp only
      rcases foundCtl rest with e | headersText
      · rfl
      simp only
      cases parseHeaders maxHeaders true headersText <;> rfl

theorem parseRequest_streams (maxHeaders : Nat) :
    Incremental .incomplete (· ++ ·) Request.behind (parseRequest · maxHeaders) := by
  intro text more
  simp only [parseRequest_bind]
  apply (skipEmptyLine_streams text more).bind
  rintro methodText _ rfl
  apply (parseToken_streams 32 methodText more).bind
  rintro ⟨method, rest⟩ _ rfl
  apply (streams_tail skipSpaces_streams rfl rest more).bind
  rintro pathText _ rfl
  apply (advanceToken_streams pathText more).bind
  rintro ⟨path, rest⟩ _ rfl
  apply (streams_tail skipSpaces_streams rfl rest more).bind
  rintro versionText _ rfl
  by_cases hnil : method = [] ∨ path = []
  · rw [if_pos hnil, if_pos hnil]
    exact .fails _
  · rw [if_neg hnil, if_neg hnil]
    apply (parseHttpVersion_streams versionText more).bind
    rintro ⟨minorVersion, rest⟩ _ rfl
    apply (foundCtl_streams rest more).bind
    rintro headersText _ rfl
    apply (parseHeaders_streams maxHeaders true headersText more).bind
    rintro body _ rfl
    exact .gives rfl

theorem phrParseRequest_bind (buf : List UInt8) (maxHeaders : Nat) : phrParseRequest buf maxHeaders =
    (parseRequest buf maxHeaders >>= fun r => .ok (r, buf.length - r.body.length)) := by
  unfold phrParseRequest
  cases parseRequest buf maxHeaders with
  | error e => rfl
  | ok r => rfl

theorem phrParseRequest_written {buf : List UInt8} {maxHeaders n : Nat} {r : Request}
    (h : phrParseRequest buf maxHeaders = .ok (r, n)) : ∃ lines ≤ maxHeaders, Written lines buf r := by
  rw [phrParseRequest_bind] at h
  cases hparse : parseRequest buf maxHeaders with
  | error e =>
    rw [hparse] at h
    cases h
  | ok r' =>
    rw [hparse] at h
    cases h
    exact parseRequest_iff.mp hparse

theorem phrParseRequest_streams (maxHeaders : Nat) : Incremental .incomplete (· ++ ·)
    (fun d more => (d.1.behind more, d.2)) (phrParseRequest · maxHeaders) := by
  intro text more
  simp only [phrParseRequest_bind]
  apply (parseRequest_streams maxHeaders text more).bind
  rintro r _ rfl
  apply Follows.gives
  rw [Request.behind, List.length_append, List.length_append, Nat.add_sub_add_right]

/-- **A verdict stands**: what is said of a text is said of it with whatever comes behind
it, with the same parts and the same end, unless it asks for more. And of every beginning
of a request that is cut in the head it does ask for more. -/
theorem phrParseRequest_incremental (maxHeaders : Nat) (text more : List UInt8) :
    (∀ r n, phrParseRequest text maxHeaders = .ok (r, n) →
      phrParseRequest (text ++ more) maxHeaders = .ok (r.behind more, n)) ∧
    (phrParseRequest text maxHeaders = .error .malformed →
      phrParseRequest (text ++ more) maxHeaders = .error .malformed) ∧
    ∀ r n, phrParseRequest (text ++ more) maxHeaders = .ok (r, n) → text.length < n →
      phrParseRequest text maxHeaders = .error .incomplete := by
  have hfollows : Follows _ _ (phrParseRequest text maxHeaders) (phrParseRequest (text ++ more) maxHeaders) :=
    phrParseRequest_streams maxHeaders text more
  refine ⟨fun r n h => ?_, fun h => ?_, fun r n h hcut => ?_⟩
  · rw [h] at hfollows
    obtain ⟨d, hd, rfl⟩ := hfollows.ok
    exact hd
  · rw [h] at hfollows
    exact hfollows.error (by decide)
  · apply ((phrParseRequest_streams maxHeaders).cut h).resolve_right
    rintro ⟨⟨r', n'⟩, hparse, heq⟩
    obtain ⟨hn, _⟩ := phrParseRequest_takes hparse
    have hsame : n = n' := (Prod.mk.inj heq).2
    omega

end Rinha.Http

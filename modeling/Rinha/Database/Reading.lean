import Rinha.Database.Json
import Rinha.Json.Documents

/-! What a reply says to who reads it.

The text of a reply is a JSON document. Whoever parses it has what is in the tables: the
amounts exactly, for an INTEGER is a binary64 number, and the descriptions character by
character, whatever PostgreSQL has escaped in them (`replies_read`). -/
namespace Rinha.Database
open Library

/-! ### Strings -/

/-- What is written between quotes as it is. -/
def Plain (s : List UInt8) : Prop := ∀ b ∈ s, 32 ≤ b ∧ b < 128 ∧ b ≠ 34 ∧ b ≠ 92

instance (s : List UInt8) : Decidable (Plain s) := List.decidableBAll _ s

/-- The characters of an ASCII text. -/
def characters (s : List UInt8) : List Char := s.map fun b => Char.ofNat b.toNat

theorem utf8_characters {s : List UInt8} (h : Plain s) : utf8 (characters s) = s := by
  induction s with
  | nil => rfl
  | cons b s ih =>
    show utf8 (Char.ofNat b.toNat :: characters s) = b :: s
    rw [utf8_cons, utf8EncodeChar_ascii (h b (List.mem_cons_self ..)).2.1,
      ih fun c hc => h c (List.mem_cons_of_mem b hc)]
    rfl

theorem plain_character : ∀ b : UInt8, 32 ≤ b ∧ b < 128 ∧ b ≠ 34 ∧ b ≠ 92 →
    (32 ≤ (Char.ofNat b.toNat).toNat && Char.ofNat b.toNat ≠ '"' && Char.ofNat b.toNat ≠ '\\') = true := by
  apply forall_byte
  decide +kernel

theorem Plain.literal {s : List UInt8} (h : Plain s) : Json.Literal s (characters s) := by
  have hall : (characters s).all (fun c => 32 ≤ c.toNat && c ≠ '"' && c ≠ '\\') = true := by
    rw [List.all_eq_true]
    intro c hc
    obtain ⟨b, hb, rfl⟩ := List.mem_map.mp hc
    exact plain_character b (h b hb)
  have hliteral := Json.Literal.plain hall
  rwa [utf8_characters h] at hliteral

/-- A byte stands for itself, or is a letter or a number behind a backslash. -/
theorem escapeByte_cases : ∀ b : UInt8,
    (escapeByte b = [b] ∧ (b < 128 → 32 ≤ b ∧ b ≠ 34 ∧ b ≠ 92)) ∨
    (escapeByte b = [92, (escapeByte b).getD 1 0] ∧ Json.escaped ((escapeByte b).getD 1 0) = some b) ∨
    (escapeByte b = [92, 117, 48, 48, hexDigit (b / 16), hexDigit (b % 16)] ∧
      Json.hexDigit (hexDigit (b / 16)) = some (b.toNat / 16) ∧
        Json.hexDigit (hexDigit (b % 16)) = some (b.toNat % 16)) := by
  apply forall_byte
  decide +kernel

theorem spells_escapeByte {b : UInt8} (hb : b < 128) : Json.Spells (escapeByte b) (Char.ofNat b.toNat) := by
  rcases escapeByte_cases b with ⟨heq, hplain⟩ | ⟨heq, hletter⟩ | ⟨heq, hhigh, hlow⟩
  · obtain ⟨hspace, hquote, hbackslash⟩ := hplain hb
    have hcharacter := plain_character b ⟨hspace, hb, hquote, hbackslash⟩
    simp only [Bool.and_eq_true, decide_eq_true_eq] at hcharacter
    rw [heq, ← utf8EncodeChar_ascii hb]
    exact .plain _ hcharacter.1.1 hcharacter.1.2 hcharacter.2
  · rw [heq]
    exact .letter _ _ hletter
  · have hvalue : (Char.ofNat b.toNat).toNat = b.toNat := by
      have hall : ∀ n < 128, (Char.ofNat n).toNat = n := by decide
      exact hall b.toNat (UInt8.lt_iff_toNat_lt.mp hb)
    rw [heq]
    refine .unit _ _ ⟨48, 48, _, _, 0, 0, _, _, rfl, by decide, by decide, hhigh, hlow, ?_⟩
    rw [hvalue]
    omega

/-- What `escape_json` makes of a character is one of the spellings of this character. -/
theorem spells_escapeJson (c : Char) : Json.Spells (escapeJson (String.utf8EncodeChar c)) c := by
  by_cases hlow : c.toNat < 128
  · have hb : UInt8.ofNat c.toNat < 128 := by
      rw [UInt8.lt_iff_toNat_lt, UInt8.toNat_ofNat', Nat.mod_eq_of_lt (by omega)]
      exact hlow
    have hc : Char.ofNat (UInt8.ofNat c.toNat).toNat = c := by
      rw [UInt8.toNat_ofNat', Nat.mod_eq_of_lt (by omega), Char.ofNat_toNat]
    have hspells := spells_escapeByte hb
    rw [hc] at hspells
    rw [← hc, utf8EncodeChar_ascii hb, hc, escapeJson, List.flatMap_singleton]
    exact hspells
  · have hwide : ∀ b ∈ String.utf8EncodeChar c, 128 ≤ b := by
      intro b hb
      by_contra hlt
      have hvalue := utf8EncodeChar_low hb (UInt8.not_le.mp hlt)
      have hbound := UInt8.lt_iff_toNat_lt.mp (UInt8.not_le.mp hlt)
      change b.toNat < 128 at hbound
      omega
    rw [escapeJson_wide hwide]
    refine .plain c (by omega) ?_ ?_
    · rintro rfl
      exact hlow (by decide)
    · rintro rfl
      exact hlow (by decide)

theorem literal_escapeJson (text : List Char) : Json.Literal (escapeJson (utf8 text)) text := by
  induction text with
  | nil => exact .nil
  | cons c text ih =>
    rw [utf8_cons, escapeJson, List.flatMap_append]
    exact .cons _ _ c text (spells_escapeJson c) ih

/-! ### Timestamps -/

theorem Plain.append {s t : List UInt8} (hs : Plain s) (ht : Plain t) : Plain (s ++ t) := by
  intro b hb
  rcases List.mem_append.mp hb with hb | hb
  · exact hs b hb
  · exact ht b hb

theorem plain_digits {s : List UInt8} (h : ∀ b ∈ s, isdigit b = true) : Plain s := by
  have hdigit : ∀ b : UInt8, isdigit b = true → 32 ≤ b ∧ b < 128 ∧ b ≠ 34 ∧ b ≠ 92 := by
    apply forall_byte
    decide +kernel
  exact fun b hb => hdigit b (h b hb)

theorem plain_zeroPad (w n : Nat) : Plain (zeroPad w n) := by
  apply plain_digits
  intro b hb
  rcases List.mem_append.mp hb with hb | hb
  · rw [List.eq_of_mem_replicate hb]
    decide
  · exact decimal_digits n b hb

theorem plain_fraction (usec : Nat) : Plain (fraction usec) := by
  have hdot : Plain (bytes ".") := by decide
  unfold fraction
  split
  · exact fun b hb => absurd hb List.not_mem_nil
  · refine hdot.append fun b hb => plain_zeroPad 6 usec b ?_
    exact (List.rdropWhile_prefix (fun b : UInt8 => decide (b = 48)) (zeroPad 6 usec)).subset hb

theorem Timestamp.encode_plain (t : Timestamp) : Plain t.encode := by
  have hdash : Plain (bytes "-") := by decide
  have hcolon : Plain (bytes ":") := by decide
  have ht : Plain (bytes "T") := by decide
  have hbc : Plain (if t.bc then bytes " BC" else []) := by
    cases t.bc
    · exact fun b hb => absurd hb List.not_mem_nil
    · exact (by decide : Plain (bytes " BC"))
  exact ((((((((((((plain_zeroPad 4 _).append hdash).append (plain_zeroPad 2 _)).append hdash).append
    (plain_zeroPad 2 _)).append ht).append (plain_zeroPad 2 _)).append hcolon).append (plain_zeroPad 2 _)).append
      hcolon).append (plain_zeroPad 2 _)).append (plain_fraction _)).append hbc

/-! ### Values -/

/-- An INTEGER as it is read. -/
def Integer.item (n : Integer) : Json.CJson := .number (ofDecimal (n.val < 0) n.val.natAbs 0)

theorem numeral_decimalInt (z : Int) : Json.Numeral (decimalInt z) (ofDecimal (z < 0) z.natAbs 0) := by
  have hmk : ∀ (neg : Bool) (n : Nat), Json.Numeral ((if neg then [45] else []) ++ decimal n) (ofDecimal neg n 0) := by
    intro neg n
    have hnumeral := Json.Numeral.mk neg (decimal n) [] [] [] 0 (decimal_ne_nil n) (decimal_digits n) .absent .absent
    simpa [number_decimal] using hnumeral
  cases z with
  | ofNat n =>
    have hsign : decide (Int.ofNat n < 0) = false := decide_eq_false (Int.not_lt.mpr (Int.natCast_nonneg n))
    rw [hsign]
    exact hmk false n
  | negSucc n =>
    have hsign : decide (Int.negSucc n < 0) = true := decide_eq_true (Int.negSucc_lt_zero n)
    rw [hsign]
    exact hmk true (n + 1)

/-- It is exact. -/
theorem Integer.item_exact (n : Integer) : ∃ x, n.item = .number (.finite x) ∧ x.value = n.val := by
  have hsmall : n.val.natAbs < 2 ^ 53 := by
    have := n.lower
    have := n.upper
    omega
  have hwhole : (n.val.natAbs : ℚ) * 10 ^ (0 : Int) = n.val.natAbs := by rw [zpow_zero, mul_one]
  obtain ⟨x, hx, hvalue⟩ := ofDecimal_exact (n.val < 0) hwhole hsmall
  refine ⟨x, congrArg Json.CJson.number hx, hvalue.trans ?_⟩
  by_cases hneg : n.val < 0
  · rw [if_pos (decide_eq_true hneg)]
    have habs : n.val = -(n.val.natAbs : Int) := by omega
    rw [habs]
    simp
  · rw [if_neg (by simpa using hneg)]
    have habs : n.val = (n.val.natAbs : Int) := by omega
    rw [habs]
    simp

theorem Integer.item_injective {m n : Integer} (h : m.item = n.item) : m = n := by
  obtain ⟨x, hx, hm⟩ := m.item_exact
  obtain ⟨y, hy, hn⟩ := n.item_exact
  rw [hx, hy] at h
  cases h
  exact Integer.ext (by exact_mod_cast hm.symm.trans hn)

/-! ### Objects -/

/-- The text of a value whose arrays and objects are nested no deeper than `k`. -/
def Within (k : Nat) (text : List UInt8) (item : Json.CJson) : Prop :=
  ∃ depth ≤ k, Json.Text (Json.json Json.Copied) depth text item

def MembersWithin (k : Nat) (text : List UInt8) (child : List (List UInt8 × Json.CJson)) : Prop :=
  ∃ depth ≤ k, Json.Members (Json.json Json.Copied) depth text child

theorem blank_nil : Json.Blank [] := fun _ hb => absurd hb List.not_mem_nil

theorem blank_space : Json.Blank [32] := List.forall_mem_singleton.mpr (.inl rfl)

theorem Integer.within (n : Integer) (k : Nat) : Within k (decimalInt n.val) n.item :=
  ⟨0, Nat.zero_le k, .number _ _ ⟨numeral_decimalInt n.val, n.text.length.trans (by decide)⟩⟩

theorem within_escapeJson (k : Nat) (text : List Char) :
    Within k (34 :: (escapeJson (utf8 text) ++ [34])) (.string (utf8 text)) :=
  ⟨0, Nat.zero_le k, .string _ _ ⟨_, literal_escapeJson text, rfl⟩⟩

theorem Plain.within {s : List UInt8} (h : Plain s) (k : Nat) : Within k (34 :: (s ++ [34])) (.string s) := by
  exact ⟨0, Nat.zero_le k, .string s s ⟨_, h.literal, utf8_characters h⟩⟩

/-- What is in front of a member's value. -/
structure Mark (mark name : List UInt8) : Prop where
  plain : Plain name
  written : ∃ before colon space, Json.Blank before ∧ Json.Blank colon ∧ Json.Blank space ∧
    mark = before ++ 34 :: (name ++ 34 :: (colon ++ 58 :: space))

theorem Mark.tight {mark name : List UInt8} (hname : Plain name) (h : mark = 34 :: (name ++ [34, 58])) :
    Mark mark name :=
  ⟨hname, [], [], [], blank_nil, blank_nil, blank_nil, h⟩

theorem Mark.member {k : Nat} {mark name text : List UInt8} {item : Json.CJson} (hmark : Mark mark name)
    (h : Within k text item) : ∃ depth ≤ k, Json.Member (Json.json Json.Copied) depth (mark ++ text) (name, item) := by
  obtain ⟨before, colon, space, hbefore, hcolon, hspace, rfl⟩ := hmark.written
  obtain ⟨depth, hdepth, htext⟩ := h
  have hspelled : Json.Spelled name name := ⟨_, hmark.plain.literal, utf8_characters hmark.plain⟩
  have hmember : Json.Member (Json.json Json.Copied) depth _ (name, item) :=
    .mk depth before name name colon space text [] item hbefore hspelled hcolon hspace htext blank_nil
  rw [List.append_nil] at hmember
  refine ⟨depth, hdepth, ?_⟩
  simpa only [List.append_assoc, List.cons_append] using hmember

theorem Mark.last {k : Nat} {mark name text : List UInt8} {item : Json.CJson} (hmark : Mark mark name)
    (h : Within k text item) : MembersWithin k (mark ++ text) [(name, item)] := by
  obtain ⟨depth, hdepth, hmember⟩ := hmark.member h
  exact ⟨depth, hdepth, .last _ _ _ hmember⟩

theorem Mark.more {k : Nat} {mark name text texts : List UInt8} {item : Json.CJson}
    {child : List (List UInt8 × Json.CJson)} (hmark : Mark mark name) (h : Within k text item)
    (hmore : MembersWithin k texts child) : MembersWithin k (mark ++ text ++ 44 :: texts) ((name, item) :: child) := by
  obtain ⟨depth, hdepth, hmember⟩ := hmark.member h
  obtain ⟨depth', hdepth', hmembers⟩ := hmore
  exact ⟨max depth depth', max_le hdepth hdepth', .more _ _ _ _ _ _ hmember hmembers⟩

theorem MembersWithin.object {k : Nat} {text : List UInt8} {child : List (List UInt8 × Json.CJson)}
    (h : MembersWithin k text child) : Within (k + 1) (123 :: (text ++ [125])) (.object child) := by
  obtain ⟨depth, hdepth, hmembers⟩ := h
  exact ⟨depth + 1, Nat.succ_le_succ hdepth, .object _ _ _ hmembers⟩

/-- The rows between the brackets, the blanks in front of the first as they may be. -/
theorem elements_within {α : Type*} {f : α → List UInt8} {g : α → Json.CJson} {k : Nat}
    (h : ∀ a, Within k (f a) (g a)) (l : List α) : ∀ (before : List UInt8) (a : α), Json.Blank before →
      ∃ depth ≤ k, Json.Elements (Json.json Json.Copied) depth
        (before ++ (f a ++ l.flatMap fun b => bytes ", \n " ++ f b)) (g a :: l.map g) := by
  induction l with
  | nil =>
    intro before a hbefore
    obtain ⟨depth, hdepth, htext⟩ := h a
    exact ⟨depth, hdepth, .last depth before (f a) [] (g a) hbefore htext blank_nil⟩
  | cons b l ih =>
    intro before a hbefore
    obtain ⟨depth, hdepth, htext⟩ := h a
    have hblank : Json.Blank [32, 10, 32] := by
      intro b hb
      simp only [List.mem_cons, List.not_mem_nil, or_false] at hb
      rcases hb with rfl | rfl | rfl
      · exact .inl rfl
      · exact .inr (.inr (.inl rfl))
      · exact .inl rfl
    obtain ⟨depth', hdepth', hmore⟩ := ih [32, 10, 32] b hblank
    have hcomma : bytes ", \n " = 44 :: [32, 10, 32] := by decide
    refine ⟨max depth depth', max_le hdepth hdepth', ?_⟩
    have helements : Json.Elements (Json.json Json.Copied) _ _ _ :=
      .more depth depth' before (f a) [] _ _ _ hbefore htext blank_nil hmore
    rw [List.flatMap_cons, hcomma]
    simpa only [List.append_assoc, List.cons_append, List.nil_append, List.map_cons, hcomma] using helements

theorem jsonAgg_within {α : Type*} {f : α → List UInt8} {g : α → Json.CJson} {k : Nat}
    (h : ∀ a, Within k (f a) (g a)) (l : List α) : Within (k + 1) (jsonAgg (l.map f)) (.array (l.map g)) := by
  cases l with
  | nil => exact ⟨1, Nat.succ_le_succ (Nat.zero_le k), .emptyArray [] blank_nil⟩
  | cons a l =>
    obtain ⟨depth, hdepth, helements⟩ := elements_within h l [] a blank_nil
    refine ⟨depth + 1, Nat.succ_le_succ hdepth, ?_⟩
    have hopen : bytes "[" = [91] := by decide
    have hclose : bytes "]" = [93] := by decide
    have harray := Json.Text.array depth _ _ helements
    rw [List.map_cons, jsonAgg, hopen, hclose, List.flatMap_map]
    simpa only [List.append_assoc, List.cons_append, List.nil_append, List.map_cons] using harray

/-! ### Replies -/

def rowItem (limite saldo : Integer) : Json.CJson :=
  .object [(bytes "limite", limite.item), (bytes "saldo", saldo.item)]

theorem rowJson_within (limite saldo : Integer) : Within 1 (rowJson limite saldo) (rowItem limite saldo) := by
  have hlimite : Mark (bytes "\"limite\":") (bytes "limite") := .tight (by decide) (by decide)
  have hsaldo : Mark (bytes "\"saldo\":") (bytes "saldo") := .tight (by decide) (by decide)
  have hobject := (hlimite.more (limite.within 0) (hsaldo.last (saldo.within 0))).object
  have h1 : bytes "\x7b\"limite\":" = 123 :: bytes "\"limite\":" := by decide +kernel
  have h2 : bytes ",\"saldo\":" = 44 :: bytes "\"saldo\":" := by decide +kernel
  have h3 : bytes "\x7d" = [125] := by decide +kernel
  rw [rowJson, h1, h2, h3]
  simp only [List.append_assoc, List.cons_append] at hobject ⊢
  exact hobject

section Extratos
variable (timestamp : Nat → Timestamp)

def Saldo.item (saldo : Saldo) : Json.CJson :=
  .object [(bytes "total", saldo.total.item), (bytes "data_extrato", .string (timestamp saldo.data_extrato).encode),
    (bytes "limite", saldo.limite.item)]

def Transacao.item (r : Transacao) : Json.CJson :=
  .object [(bytes "valor", r.valor.item), (bytes "tipo", .string (utf8 [r.tipo])),
    (bytes "descricao", .string (utf8 r.descricao.chars)),
    (bytes "realizada_em", .string (timestamp r.realizada_em).encode)]

def Extrato.item (e : Extrato) : Json.CJson :=
  .object [(bytes "saldo", e.saldo.elim .null (Saldo.item timestamp)),
    (bytes "ultimas_transacoes", .array (e.ultimas_transacoes.map (Transacao.item timestamp)))]

theorem Saldo.within (saldo : Saldo) : Within 1 (saldo.json timestamp) (saldo.item timestamp) := by
  have htotal : Mark (bytes "\"total\":") (bytes "total") := .tight (by decide) (by decide)
  have hdata : Mark (bytes "\"data_extrato\":") (bytes "data_extrato") := .tight (by decide) (by decide +kernel)
  have hlimite : Mark (bytes "\"limite\":") (bytes "limite") := .tight (by decide) (by decide)
  have hobject := (htotal.more (saldo.total.within 0) (hdata.more
    ((timestamp saldo.data_extrato).encode_plain.within 0) (hlimite.last (saldo.limite.within 0)))).object
  have h1 : bytes "\x7b\"total\":" = 123 :: bytes "\"total\":" := by decide +kernel
  have h2 : bytes ",\"data_extrato\":\"" = 44 :: (bytes "\"data_extrato\":" ++ [34]) := by decide +kernel
  have h3 : bytes "\",\"limite\":" = 34 :: 44 :: bytes "\"limite\":" := by decide +kernel
  have h4 : bytes "\x7d" = [125] := by decide +kernel
  rw [Saldo.json, sldJson, h1, h2, h3, h4]
  simp only [List.append_assoc, List.cons_append, List.nil_append] at hobject ⊢
  exact hobject

theorem Transacao.within (r : Transacao) : Within 1 (r.json timestamp) (r.item timestamp) := by
  have hvalor : Mark (bytes "\"valor\":") (bytes "valor") := .tight (by decide) (by decide)
  have htipo : Mark (bytes "\"tipo\":") (bytes "tipo") := .tight (by decide) (by decide)
  have hdescricao : Mark (bytes "\"descricao\":") (bytes "descricao") := .tight (by decide) (by decide +kernel)
  have hem : Mark (bytes "\"realizada_em\":") (bytes "realizada_em") := .tight (by decide) (by decide +kernel)
  have hobject := (hvalor.more (r.valor.within 0) (htipo.more (within_escapeJson 0 [r.tipo]) (hdescricao.more
    (within_escapeJson 0 r.descricao.chars) (hem.last ((timestamp r.realizada_em).encode_plain.within 0))))).object
  have h1 : bytes "\x7b\"valor\":" = 123 :: bytes "\"valor\":" := by decide +kernel
  have h2 : bytes ",\"tipo\":\"" = 44 :: (bytes "\"tipo\":" ++ [34]) := by decide +kernel
  have h3 : bytes "\",\"descricao\":\"" = 34 :: 44 :: (bytes "\"descricao\":" ++ [34]) := by decide +kernel
  have h4 : bytes "\",\"realizada_em\":\"" = 34 :: 44 :: (bytes "\"realizada_em\":" ++ [34]) := by decide +kernel
  have h5 : bytes "\"\x7d" = [34, 125] := by decide +kernel
  rw [Transacao.json, trJson, h1, h2, h3, h4, h5]
  simp only [List.append_assoc, List.cons_append, List.nil_append] at hobject ⊢
  exact hobject

theorem Extrato.within (e : Extrato) : Within 3 (e.json timestamp) (e.item timestamp) := by
  have hsaldo : Mark (bytes "\"saldo\" : ") (bytes "saldo") :=
    ⟨by decide, [], [32], [32], blank_nil, blank_space, blank_space, by decide⟩
  have hultimas : Mark (bytes " \"ultimas_transacoes\" : ") (bytes "ultimas_transacoes") :=
    ⟨by decide, [32], [32], [32], blank_space, blank_space, blank_space, by decide +kernel⟩
  have hrow : Within 2 (e.saldo.elim (bytes "null") (Saldo.json timestamp))
      (e.saldo.elim .null (Saldo.item timestamp)) := by
    cases e.saldo with
    | none => exact ⟨0, Nat.zero_le 2, .null⟩
    | some saldo =>
      obtain ⟨depth, hdepth, htext⟩ := saldo.within timestamp
      exact ⟨depth, hdepth.trans (by decide), htext⟩
  have hobject := (hsaldo.more hrow (hultimas.last
    (jsonAgg_within (Transacao.within timestamp) e.ultimas_transacoes))).object
  have h1 : bytes "\x7b\"saldo\" : " = 123 :: bytes "\"saldo\" : " := by decide +kernel
  have h2 : bytes ", \"ultimas_transacoes\" : " = 44 :: bytes " \"ultimas_transacoes\" : " := by decide +kernel
  have h3 : bytes "\x7d" = [125] := by decide +kernel
  rw [Extrato.json, extratoObject, h1, h2, h3]
  simp only [List.append_assoc, List.cons_append] at hobject ⊢
  exact hobject

/-- A reply is parsed with the newline that the response has behind it. -/
theorem Within.parse_eq {k : Nat} {text : List UInt8} {item : Json.CJson} (h : Within k text item)
    (hk : k ≤ Json.nestingLimit) (rest : List UInt8) :
    Json.cJSONParse (cstr (text ++ bytes "\n" ++ 0 :: rest)) = some item := by
  obtain ⟨depth, hdepth, htext⟩ := h
  have hnewline : Json.Blank (bytes "\n") := by
    rw [show bytes "\n" = [10] by decide]
    exact List.forall_mem_singleton.mpr (.inr (.inr (.inl rfl)))
  have hdocument : Json.Document depth (text ++ bytes "\n") item :=
    ⟨[], [], text, bytes "\n", .inl rfl, blank_nil, htext, hnewline, rfl⟩
  rw [hdocument.cstr_eq, hdocument.parse_eq, if_pos (hdepth.trans hk)]

/-- What an extrato says: the client's saldo and limite, and what each row is of. -/
def Extrato.seen (e : Extrato) : Option (Integer × Integer) × List (Integer × Char × List Char) :=
  (e.saldo.map fun saldo => (saldo.total, saldo.limite),
    e.ultimas_transacoes.map fun r => (r.valor, r.tipo, r.descricao.chars))

theorem Transacao.item_seen {r r' : Transacao} (h : r.item timestamp = r'.item timestamp) :
    (r.valor, r.tipo, r.descricao.chars) = (r'.valor, r'.tipo, r'.descricao.chars) := by
  unfold Transacao.item at h
  simp only [Json.CJson.object.injEq, List.cons.injEq, Prod.mk.injEq, true_and, Json.CJson.string.injEq, and_true] at h
  obtain ⟨hvalor, htipo, hdescricao, _⟩ := h
  rw [Integer.item_injective hvalor, List.singleton_injective (utf8_injective htipo), utf8_injective hdescricao]

theorem rows_seen (l l' : List Transacao) (h : l.map (Transacao.item timestamp) = l'.map (Transacao.item timestamp)) :
    (l.map fun r => (r.valor, r.tipo, r.descricao.chars)) = l'.map fun r => (r.valor, r.tipo, r.descricao.chars) := by
  induction l generalizing l' with
  | nil => rw [List.map_eq_nil_iff.mp h.symm]
  | cons r l ih =>
    cases l' with
    | nil => cases h
    | cons r' l' =>
      obtain ⟨hhead, htail⟩ := List.cons.inj h
      rw [List.map_cons, List.map_cons, Transacao.item_seen timestamp hhead, ih l' htail]

theorem Saldo.item_seen {saldo saldo' : Saldo} (h : saldo.item timestamp = saldo'.item timestamp) :
    (saldo.total, saldo.limite) = (saldo'.total, saldo'.limite) := by
  unfold Saldo.item at h
  simp only [Json.CJson.object.injEq, List.cons.injEq, Prod.mk.injEq, true_and, and_true] at h
  obtain ⟨htotal, _, hlimite⟩ := h
  rw [Integer.item_injective htotal, Integer.item_injective hlimite]

theorem Extrato.item_seen {e e' : Extrato} (h : e.item timestamp = e'.item timestamp) : e.seen = e'.seen := by
  unfold Extrato.item at h
  simp only [Json.CJson.object.injEq, List.cons.injEq, Prod.mk.injEq, true_and, and_true, Json.CJson.array.injEq] at h
  obtain ⟨hsaldo, hrows⟩ := h
  unfold Extrato.seen
  congr 1
  · cases hs : e.saldo with
    | none =>
      cases hs' : e'.saldo with
      | none => rfl
      | some saldo' =>
        rw [hs, hs'] at hsaldo
        cases hsaldo
    | some saldo =>
      cases hs' : e'.saldo with
      | none =>
        rw [hs, hs'] at hsaldo
        cases hsaldo
      | some saldo' =>
        rw [hs, hs'] at hsaldo
        exact congrArg some (Saldo.item_seen timestamp hsaldo)
  · exact rows_seen timestamp _ _ hrows

/-- **A reply is read as it was meant**: the body of a response, parsed, is the object of
its reply, every INTEGER in it exact; and two replies that are read alike have the same
amounts and descriptions. -/
theorem replies_read :
    (∀ limite saldo rest,
      Json.cJSONParse (cstr (rowJson limite saldo ++ bytes "\n" ++ 0 :: rest)) = some (rowItem limite saldo)) ∧
    (∀ e rest, Json.cJSONParse (cstr (Extrato.json timestamp e ++ bytes "\n" ++ 0 :: rest)) = some (e.item timestamp)) ∧
    (∀ n : Integer, ∃ x, n.item = .number (.finite x) ∧ x.value = n.val) ∧
    (∀ limite saldo limite' saldo', rowItem limite saldo = rowItem limite' saldo' → limite = limite' ∧ saldo = saldo') ∧
    ∀ e e' : Extrato, e.item timestamp = e'.item timestamp → e.seen = e'.seen := by
  refine ⟨fun limite saldo => (rowJson_within limite saldo).parse_eq (by decide),
    fun e => (e.within timestamp).parse_eq (by decide), Integer.item_exact, ?_,
      fun e e' => Extrato.item_seen timestamp⟩
  intro limite saldo limite' saldo' h
  unfold rowItem at h
  simp only [Json.CJson.object.injEq, List.cons.injEq, Prod.mk.injEq, true_and, and_true] at h
  exact ⟨Integer.item_injective h.1, Integer.item_injective h.2⟩

end Extratos
end Rinha.Database

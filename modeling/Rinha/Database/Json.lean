import Mathlib.Data.List.DropRight
import Rinha.Database.Commands
import Rinha.Library.Texts
import Rinha.Library.Utf8

/-! The JSON that PostgreSQL makes of the rows of `get_extrato`.

`to_json` of a row writes its columns without blanks, `json_build_object` puts `, `
and ` : ` between its parts, and `json_agg` puts a comma and a new line between
rows. A text is escaped: a control character takes up to six bytes. A timestamp is
written with a `T`, and its fraction up to the last digit that is not 0.

Each piece has a bound on its length, and with the bounds of INTEGER, VARCHAR(10)
and TIMESTAMP there is one for the whole (`extratoJson_text`). -/
namespace Rinha.Database
open Library

/-! ### Strings -/

/-- The digit of a number below 16. -/
def hexDigit (n : UInt8) : UInt8 := if n < 10 then 48 + n else 87 + n

/-- One byte in `escape_json`. -/
def escapeByte (b : UInt8) : List UInt8 :=
  if b = 8 then bytes "\\b"
  else if b = 12 then bytes "\\f"
  else if b = 10 then bytes "\\n"
  else if b = 13 then bytes "\\r"
  else if b = 9 then bytes "\\t"
  else if b = 34 then bytes "\\\""
  else if b = 92 then bytes "\\\\"
  -- `\u%04x`
  else if b < 32 then bytes "\\u00" ++ [hexDigit (b / 16), hexDigit (b % 16)]
  else [b]

/-- `escape_json`, without the quotes. -/
def escapeJson (text : List UInt8) : List UInt8 := text.flatMap escapeByte

theorem escapeByte_text : ∀ b, Text 6 (escapeByte b) := by
  apply forall_byte
  decide +kernel

theorem escapeJson_text (text : List UInt8) : Text (6 * text.length) (escapeJson text) :=
  Text.flatMap fun b _ => escapeByte_text b

/-! ### Timestamps -/

/-- A TIMESTAMP, as its parts; PostgreSQL has them from 4713 BC to 294276 AD. -/
structure Timestamp where
  year : Fin 1000000
  bc : Bool
  month : Fin 13
  day : Fin 32
  hour : Fin 24
  minute : Fin 60
  second : Fin 61
  usec : Fin 1000000
  deriving DecidableEq, Repr

/-- The fraction of a second, without the zeros at its end. -/
def fraction (usec : Nat) : List UInt8 :=
  if usec = 0 then [] else bytes "." ++ (zeroPad 6 usec).rdropWhile (· = 48)

/-- `EncodeDateTime` with `USE_XSD_DATES` -/
def Timestamp.encode (t : Timestamp) : List UInt8 :=
  zeroPad 4 t.year ++ bytes "-" ++ zeroPad 2 t.month ++ bytes "-" ++ zeroPad 2 t.day ++ bytes "T" ++
    zeroPad 2 t.hour ++ bytes ":" ++ zeroPad 2 t.minute ++ bytes ":" ++ zeroPad 2 t.second ++ fraction t.usec ++
      if t.bc then bytes " BC" else []

theorem fraction_text {usec : Nat} (h : usec < 1000000) : Text 7 (fraction usec) := by
  have hdigits : Text 6 (zeroPad 6 usec) := Text.zeroPad le_rfl (by decide) h
  have htrimmed : Text 6 ((zeroPad 6 usec).rdropWhile (· = 48)) := by
    have htrim := List.rdropWhile_prefix (fun b : UInt8 => decide (b = 48)) (zeroPad 6 usec)
    exact ⟨htrim.length_le.trans hdigits.length, fun hmem => hdigits.noNul (htrim.subset hmem)⟩
  unfold fraction
  split
  · exact ⟨Nat.zero_le 7, List.not_mem_nil⟩
  · exact (show Text 1 (bytes ".") by decide).append htrimmed

theorem Timestamp.encode_text (t : Timestamp) : Text 31 t.encode := by
  have hyear : Text 6 (zeroPad 4 t.year) := Text.zeroPad (by decide) (by decide) t.year.isLt
  have htwo : ∀ n < 100, Text 2 (zeroPad 2 n) := fun n hn => Text.zeroPad le_rfl (by decide) hn
  have hmonth := htwo t.month (by omega)
  have hday := htwo t.day (by omega)
  have hhour := htwo t.hour (by omega)
  have hminute := htwo t.minute (by omega)
  have hsecond := htwo t.second (by omega)
  have hdash : Text 1 (bytes "-") := by decide
  have hcolon : Text 1 (bytes ":") := by decide
  have ht : Text 1 (bytes "T") := by decide
  have hbc : Text 3 (if t.bc then bytes " BC" else []) := by
    cases t.bc
    · exact ⟨Nat.zero_le 3, List.not_mem_nil⟩
    · exact (by decide : Text 3 (bytes " BC"))
  exact (((((((((((hyear.append hdash).append hmonth).append hdash).append hday).append ht).append
    hhour).append hcolon).append hminute).append hcolon).append hsecond).append
      (fraction_text t.usec.isLt)).append hbc

/-! ### Rows -/

theorem Integer.text (n : Integer) : Text 11 (decimalInt n.val) := by
  have := n.lower
  have := n.upper
  exact Text.decimalInt (by decide) (by omega)

theorem rowJson_text (limite saldo : Integer) : Text 42 (rowJson limite saldo) := by
  have h1 : Text 10 (bytes "\x7b\"limite\":") := by decide +kernel
  have h2 : Text 9 (bytes ",\"saldo\":") := by decide +kernel
  have h3 : Text 1 (bytes "\x7d") := by decide +kernel
  exact (((h1.append limite.text).append h2).append saldo.text).append h3

/-- `to_json(sld)` -/
def sldJson (total : Integer) (data_extrato : Timestamp) (limite : Integer) : List UInt8 :=
  bytes "\x7b\"total\":" ++ decimalInt total.val ++ bytes ",\"data_extrato\":\"" ++ data_extrato.encode ++
    bytes "\",\"limite\":" ++ decimalInt limite.val ++ bytes "\x7d"

theorem sldJson_text (total : Integer) (data_extrato : Timestamp) (limite : Integer) :
    Text 91 (sldJson total data_extrato limite) := by
  have h1 : Text 9 (bytes "\x7b\"total\":") := by decide +kernel
  have h2 : Text 17 (bytes ",\"data_extrato\":\"") := by decide +kernel
  have h3 : Text 11 (bytes "\",\"limite\":") := by decide +kernel
  have h4 : Text 1 (bytes "\x7d") := by decide +kernel
  exact (((((h1.append total.text).append h2).append data_extrato.encode_text).append h3).append
    limite.text).append h4

/-- A row `tr` in `json_agg(tr)`. -/
def trJson (valor : Integer) (tipo descricao : List UInt8) (realizada_em : Timestamp) : List UInt8 :=
  bytes "\x7b\"valor\":" ++ decimalInt valor.val ++ bytes ",\"tipo\":\"" ++ escapeJson tipo ++
    bytes "\",\"descricao\":\"" ++ escapeJson descricao ++ bytes "\",\"realizada_em\":\"" ++
    realizada_em.encode ++ bytes "\"\x7d"

theorem trJson_text {tipo descricao : List UInt8} (htipo : Text 6 (escapeJson tipo))
    (hdescricao : Text 60 (escapeJson descricao)) (valor : Integer) (realizada_em : Timestamp) :
    Text 161 (trJson valor tipo descricao realizada_em) := by
  have h1 : Text 9 (bytes "\x7b\"valor\":") := by decide +kernel
  have h2 : Text 9 (bytes ",\"tipo\":\"") := by decide +kernel
  have h3 : Text 15 (bytes "\",\"descricao\":\"") := by decide +kernel
  have h4 : Text 18 (bytes "\",\"realizada_em\":\"") := by decide +kernel
  have h5 : Text 2 (bytes "\"\x7d") := by decide +kernel
  exact (((((((h1.append valor.text).append h2).append htipo).append h3).append hdescricao).append h4).append
    realizada_em.encode_text).append h5

/-! ### The object -/

/-- `coalesce(json_agg(tr), '[]'::json)` of rows that are written already. -/
def jsonAgg : List (List UInt8) → List UInt8
  | [] => bytes "[]"
  | row :: rest => bytes "[" ++ row ++ (rest.flatMap fun row => bytes ", \n " ++ row) ++ bytes "]"

/-- `json_build_object('saldo', ..., 'ultimas_transacoes', ...)` -/
def extratoObject (saldo ultimas_transacoes : List UInt8) : List UInt8 :=
  bytes "\x7b\"saldo\" : " ++ saldo ++ bytes ", \"ultimas_transacoes\" : " ++ ultimas_transacoes ++ bytes "\x7d"

theorem jsonAgg_text {k : Nat} {rows : List (List UInt8)} (hrows : ∀ row ∈ rows, Text k row)
    (hlen : rows.length ≤ 10) : Text (10 * k + 38) (jsonAgg rows) := by
  cases rows with
  | nil => exact (by decide : Text 2 (bytes "[]")).mono (by omega)
  | cons row rest =>
    have hcomma : Text 4 (bytes ", \n ") := by decide
    have hrest := Text.flatMap fun row' hrow' => hcomma.append (hrows row' (List.mem_cons_of_mem row hrow'))
    have hopen : Text 1 (bytes "[") := by decide
    have hclose : Text 1 (bytes "]") := by decide
    refine (((hopen.append (hrows row (List.mem_cons_self ..))).append hrest).append hclose).mono ?_
    have hle : rest.length ≤ 9 := Nat.le_of_succ_le_succ hlen
    calc 1 + k + (4 + k) * rest.length + 1 ≤ 1 + k + (4 + k) * 9 + 1 :=
          Nat.add_le_add_right (Nat.add_le_add_left (Nat.mul_le_mul_left _ hle) _) 1
      _ = 10 * k + 38 := by omega

/-- What is written for at most ten rows is shorter than the 1999 bytes it may have. -/
theorem extratoObject_text {saldo : List UInt8} {rows : List (List UInt8)} (hsaldo : Text 91 saldo)
    (hrows : ∀ row ∈ rows, Text 161 row) (hlen : rows.length ≤ 10) :
    Text 1776 (extratoObject saldo (jsonAgg rows)) := by
  have h1 : Text 11 (bytes "\x7b\"saldo\" : ") := by decide +kernel
  have h2 : Text 25 (bytes ", \"ultimas_transacoes\" : ") := by decide +kernel
  have h3 : Text 1 (bytes "\x7d") := by decide +kernel
  exact ((((h1.append hsaldo).append h2).append (jsonAgg_text hrows hlen)).append h3).mono (by decide)

/-! ### Extratos -/

/-- The row `sld` of a client. -/
structure Sld where
  total : Integer
  data_extrato : Timestamp
  limite : Integer
  deriving DecidableEq, Repr

/-- A row `tr` of a transaction that the server had stored, with its texts as bytes. -/
structure Tr where
  valor : Integer
  tipo : UInt8
  descricao : List UInt8
  realizada_em : Timestamp
  tipo_known : tipo = 99 ∨ tipo = 100
  descricao_fits : 1 ≤ descricao.length ∧ descricao.length ≤ 10
  deriving DecidableEq, Repr

def Sld.json (sld : Sld) : List UInt8 := sldJson sld.total sld.data_extrato sld.limite

def Tr.json (tr : Tr) : List UInt8 := trJson tr.valor [tr.tipo] tr.descricao tr.realizada_em

/-- What `get_extrato` returns; the subquery over `clientes` is NULL without a row. -/
def extratoJson (sld : Option Sld) (trs : List Tr) : List UInt8 :=
  extratoObject (sld.elim (bytes "null") Sld.json) (jsonAgg (trs.map Tr.json))

theorem Tr.json_text (tr : Tr) : Text 161 tr.json := by
  have htipo : Text 6 (escapeJson [tr.tipo]) := escapeJson_text [tr.tipo]
  refine trJson_text htipo ((escapeJson_text tr.descricao).mono ?_) tr.valor tr.realizada_em
  exact Nat.mul_le_mul_left 6 tr.descricao_fits.2

theorem extratoJson_text (sld : Option Sld) {trs : List Tr} (h : trs.length ≤ 10) :
    Text 1776 (extratoJson sld trs) := by
  refine extratoObject_text ?_ (fun row hrow => ?_) ?_
  · cases sld with
    | none => exact (by decide : Text 4 (bytes "null")).mono (by decide)
    | some sld => exact sldJson_text sld.total sld.data_extrato sld.limite
  · obtain ⟨tr, _, rfl⟩ := List.mem_map.mp hrow
    exact tr.json_text
  · rw [List.length_map]
    exact h

/-! ### The tables' extratos -/

/-- A byte that is no control character, quote or backslash. -/
theorem escapeByte_wide {b : UInt8} (h : 128 ≤ b) : escapeByte b = [b] := by
  revert b
  apply forall_byte
  decide +kernel

theorem escapeJson_wide {s : List UInt8} (h : ∀ b ∈ s, 128 ≤ b) : escapeJson s = s := by
  induction s with
  | nil => rfl
  | cons b rest ih =>
    unfold escapeJson at ih ⊢
    rw [List.flatMap_cons, escapeByte_wide (h b (List.mem_cons_self ..)),
      ih fun c hc => h c (List.mem_cons_of_mem b hc)]
    rfl

/-- A character takes up to six bytes as well: only those of one byte are escaped. -/
theorem escapeJson_char (c : Char) : Text 6 (escapeJson (String.utf8EncodeChar c)) := by
  have hlen : (String.utf8EncodeChar c).length ≤ 4 := by
    rw [String.length_utf8EncodeChar]
    exact c.utf8Size_le_four
  have hmark : ∀ x : UInt8, 128 ≤ x &&& 0x1f ||| 0xc0 ∧ 128 ≤ x &&& 0x0f ||| 0xe0 ∧ 128 ≤ x &&& 0x07 ||| 0xf0 ∧
      128 ≤ x &&& 0x3f ||| 0x80 := by
    apply forall_byte
    decide +kernel
  have hwide : c.utf8Size ≠ 1 → ∀ b ∈ String.utf8EncodeChar c, 128 ≤ b := by
    intro hone
    rcases c.utf8Size_eq with h | h | h | h
    · exact absurd h hone
    · rw [String.utf8EncodeChar_eq_cons_cons h]
      simp [hmark]
    · rw [String.utf8EncodeChar_eq_cons_cons_cons h]
      simp [hmark]
    · rw [String.utf8EncodeChar_eq_cons_cons_cons_cons h]
      simp [hmark]
  by_cases hone : c.utf8Size = 1
  · rw [String.utf8EncodeChar_eq_singleton hone]
    exact escapeJson_text [c.val.toUInt8]
  · rw [escapeJson_wide (hwide hone)]
    refine ⟨hlen.trans (by decide), fun hmem => ?_⟩
    exact absurd (hwide hone 0 hmem) (by decide)

theorem escapeJson_utf8 (text : List Char) : Text (6 * text.length) (escapeJson (utf8 text)) := by
  have hchars : escapeJson (utf8 text) = text.flatMap fun c => escapeJson (String.utf8EncodeChar c) :=
    List.flatMap_assoc
  rw [hchars]
  exact Text.flatMap fun c _ => escapeJson_char c

section Extratos
variable (timestamp : Nat → Timestamp)

def Saldo.json (saldo : Saldo) : List UInt8 := sldJson saldo.total (timestamp saldo.data_extrato) saldo.limite

def Transacao.json (r : Transacao) : List UInt8 :=
  trJson r.valor (utf8 [r.tipo]) (utf8 r.descricao.chars) (timestamp r.realizada_em)

/-- The text of an extrato of the tables, for what the clock's readings are as a TIMESTAMP. -/
def Extrato.json (e : Extrato) : List UInt8 :=
  extratoObject (e.saldo.elim (bytes "null") (Saldo.json timestamp))
    (jsonAgg (e.ultimas_transacoes.map (Transacao.json timestamp)))

theorem Extrato.json_text (e : Extrato) (h : e.ultimas_transacoes.length ≤ 10) : Text 1776 (e.json timestamp) := by
  unfold Extrato.json
  refine extratoObject_text ?_ (fun row hrow => ?_) ?_
  · cases e.saldo with
    | none => exact (by decide : Text 4 (bytes "null")).mono (by decide)
    | some saldo => exact sldJson_text saldo.total (timestamp saldo.data_extrato) saldo.limite
  · obtain ⟨r, _, rfl⟩ := List.mem_map.mp hrow
    have htipo : Text 6 (escapeJson (utf8 [r.tipo])) := escapeJson_utf8 [r.tipo]
    refine trJson_text htipo ((escapeJson_utf8 r.descricao.chars).mono ?_) r.valor (timestamp r.realizada_em)
    exact Nat.mul_le_mul_left 6 r.descricao.fits
  · rw [List.length_map]
    exact h

/-- Every extrato of the tables is a text that is short enough. -/
theorem getExtrato_text (t : Tables) (id : Integer) (now : Nat) (rows : List Transacao) :
    Text 1776 ((getExtrato t id now rows).json timestamp) :=
  (getExtrato t id now rows).json_text timestamp (List.length_take_le 10 rows)

end Extratos
end Rinha.Database

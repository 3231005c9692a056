import Rinha.Json.CJson
import Rinha.Request.Router

/-! `parse_transacoes` of `request.c`. -/
namespace Rinha.Request
open Library Json

structure Transacao where
  id : Nat
  valor : Int
  tipo : UInt8
  /-- `char descricao[10]` -/
  descricao : List UInt8
  deriving DecidableEq, Repr

/-- `__INT64_MAX__` as a double, which is 2^63. -/
def int64Max : Int := 2 ^ 63

/-- The checks on `valor`, and its value. -/
def checkValor (valor : Option CJson) : Except ParserError Int :=
  match CJson.numberValue valor with
  | none => .error .invalid
  | some x => if x.lt 0 || !x.integral || x.gt int64Max then .error .invalid else .ok x.toInt64

def checkTipo (tipo : Option CJson) : Except ParserError UInt8 :=
  match CJson.stringValue tipo with
  | some [c] => if c = 99 ∨ c = 100 then .ok c else .error .invalid
  | _ => .error .invalid

/-- The checks on `descricao`, and the array it is copied to. -/
def checkDescricao (descricao : Option CJson) : Except ParserError (List UInt8) :=
  match CJson.stringValue descricao with
  | none => .error .invalid
  | some s =>
    if 10 < s.length ∨ s.length < 1 then .error .invalid else .ok (memcpy (List.replicate 10 0) s)

def parseTransacoes (buffer : List UInt8) (reqdata : RequestData) : Except ParserError Transacao :=
  match cJSONParse (cstr (buffer.drop reqdata.bodyLoc)) with
  | none => .error .invalid
  | some transacao_json =>
    match checkValor (transacao_json.getObjectItem (bytes "valor")) with
    | .error e => .error e
    | .ok valor =>
      match checkTipo (transacao_json.getObjectItem (bytes "tipo")) with
      | .error e => .error e
      | .ok tipo =>
        match checkDescricao (transacao_json.getObjectItem (bytes "descricao")) with
        | .error e => .error e
        | .ok descricao => .ok ⟨reqdata.id, valor, tipo, descricao⟩

/-- The number that `parse_transacoes` finds for `valor` in a body. -/
def valorOf (body : List UInt8) : Option Double :=
  match cJSONParse body with
  | none => none
  | some json => CJson.numberValue (json.getObjectItem (bytes "valor"))

/-- Each field of an accepted transaction is one that passed its checks. -/
theorem parseTransacoes_ok {buffer : List UInt8} {reqdata : RequestData} {t : Transacao}
    (h : parseTransacoes buffer reqdata = .ok t) :
    ∃ json, cJSONParse (cstr (buffer.drop reqdata.bodyLoc)) = some json ∧
      checkValor (json.getObjectItem (bytes "valor")) = .ok t.valor ∧
      checkTipo (json.getObjectItem (bytes "tipo")) = .ok t.tipo ∧
      checkDescricao (json.getObjectItem (bytes "descricao")) = .ok t.descricao ∧
      t.id = reqdata.id := by
  unfold parseTransacoes at h
  split at h
  · cases h
  rename_i json hjson
  split at h
  · cases h
  rename_i valor hvalor
  split at h
  · cases h
  rename_i tipo htipo
  split at h
  · cases h
  rename_i descricao hdescricao
  cases h
  exact ⟨json, hjson, hvalor, htipo, hdescricao, rfl⟩

/-- Its one failure is `PARSER_INVALID`. -/
theorem parseTransacoes_error {buffer : List UInt8} {reqdata : RequestData} {e : ParserError}
    (h : parseTransacoes buffer reqdata = .error e) : e = .invalid := by
  cases e with
  | invalid => rfl
  | memory =>
    unfold parseTransacoes checkValor checkTipo checkDescricao at h
    grind

/-- An accepted number is an integer from 0 on, and kept by the cast below 2^63. -/
theorem checkValor_ok {item : Option CJson} {valor : Int} (h : checkValor item = .ok valor) :
    ∃ x, CJson.numberValue item = some x ∧
      ((x.lt (2 ^ 63) = false ∧ valor = -2 ^ 63) ∨
        (0 ≤ valor ∧ ∀ k : Int, x.lt k = true ↔ valor < k)) := by
  unfold checkValor at h
  split at h
  · cases h
  rename_i x hx
  split at h
  · cases h
  rename_i hchecks
  cases h
  simp only [Bool.or_eq_true, Bool.not_eq_true', not_or, Bool.not_eq_true, Bool.not_eq_false] at hchecks
  obtain ⟨⟨hneg, hint⟩, _⟩ := hchecks
  refine ⟨x, hx, ?_⟩
  cases h63 : x.lt (2 ^ 63) with
  | false => exact .inl ⟨rfl, Double.toInt64_of_le h63⟩
  | true => exact .inr (Double.toInt64_of_integral hint hneg h63)

end Rinha.Request

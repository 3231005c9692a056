import Rinha.Server.Validation

/-! The description from the body to the command.

`descricao` is an array of ten bytes that gets the string without its NUL, and is passed on
as a C string. So a string of ten bytes has no NUL in the array, and a string with a NUL
of its own is cut there (`descricaoFaithful_iff`). -/
namespace Rinha.Server
open Library Request Json Client

/-- The C string in an array, if there is one. -/
def stringIn (array : List UInt8) : Option (List UInt8) := if 0 ∈ array then some (cstr array) else none

/-- `$1` of a command. -/
def paramVals : Query → List (List UInt8)
  | .getExtrato _ => []
  | .pushCredito _ _ descricao => [descricao]
  | .pushDebito _ _ descricao => [descricao]

/-- The value of a text that is accepted. -/
def bodyOf (buffer : List UInt8) (reqdata : RequestData) : Option CJson :=
  cJSONParse (cstr (buffer.drop reqdata.bodyLoc))

/-- The string in the array is the whole one of the member `descricao`, and it is passed on. -/
def DescricaoFaithful (buffer : List UInt8) (reqdata : RequestData) (t : Transacao) : Prop :=
  ∃ json s, bodyOf buffer reqdata = some json ∧ wholeString (member (bytes "descricao") json) = some s ∧
    stringIn t.descricao = some s ∧ paramVals (.ofTransacao t) = [s]

/-- The string that is found, which ends at its first NUL, is the whole one of the member
`descricao`, and is shorter than the array. -/
def ShortAndWhole (buffer : List UInt8) (reqdata : RequestData) : Prop :=
  ∃ json s, bodyOf buffer reqdata = some json ∧
    CJson.stringValue (json.getObjectItem (bytes "descricao")) = some s ∧
    wholeString (member (bytes "descricao") json) = some s ∧ s.length < 10

theorem checkDescricao_ok {item : Option CJson} {descricao : List UInt8} (h : checkDescricao item = .ok descricao) :
    ∃ s, CJson.stringValue item = some s ∧ s.length ≤ 10 ∧ descricao = memcpy (List.replicate 10 0) s := by
  unfold checkDescricao at h
  split at h
  · cases h
  · rename_i s hs
    split at h
    · cases h
    · rename_i hlength
      cases h
      exact ⟨s, hs, not_lt.mp fun hlong => hlength (.inl hlong), rfl⟩

theorem stringValue_ne_zero {item : Option CJson} {s : List UInt8} (h : CJson.stringValue item = some s) :
    ∀ b ∈ s, b ≠ 0 := by
  unfold CJson.stringValue at h
  split at h
  · cases h
    exact cstr_ne_zero
  · cases h

/-- The array has a NUL if the string is shorter. -/
theorem stringIn_memcpy {s : List UInt8} (hs : ∀ b ∈ s, b ≠ 0) :
    stringIn (memcpy (List.replicate 10 0) s) = if s.length < 10 then some s else none := by
  obtain ⟨hmem, hcstr⟩ := memcpy_zeros hs 10
  unfold stringIn
  by_cases hlt : s.length < 10
  · rw [if_pos (hmem.mpr hlt), if_pos hlt, hcstr hlt]
  · rw [if_neg fun h => hlt (hmem.mp h), if_neg hlt]

theorem paramVals_ofTransacao (t : Transacao) : paramVals (.ofTransacao t) = [cstr t.descricao] := by
  unfold Query.ofTransacao
  split <;> rfl

/-- For an accepted body. -/
theorem descricaoFaithful_iff {buffer : List UInt8} {reqdata : RequestData} {t : Transacao}
    (h : parseTransacoes buffer reqdata = .ok t) :
    DescricaoFaithful buffer reqdata t ↔ ShortAndWhole buffer reqdata := by
  obtain ⟨json, hjson, _, _, hdescricao, _⟩ := parseTransacoes_ok h
  obtain ⟨s, hs, hlength, harray⟩ := checkDescricao_ok hdescricao
  have hzero := stringValue_ne_zero hs
  have hin : stringIn t.descricao = if s.length < 10 then some s else none := by
    rw [harray, stringIn_memcpy hzero]
  constructor
  · intro hfaithful
    obtain ⟨json', s', hjson', hwhole, hstring, _⟩ := hfaithful
    cases hjson.symm.trans hjson'
    rw [hin] at hstring
    split at hstring
    · rename_i hlt
      cases hstring
      exact ⟨json, s, hjson, hs, hwhole, hlt⟩
    · cases hstring
  · intro hshort
    obtain ⟨json', s', hjson', hs', hwhole, hlt⟩ := hshort
    cases hjson.symm.trans hjson'
    cases hs.symm.trans hs'
    rw [if_pos hlt] at hin
    have hcstr : cstr t.descricao = s := by
      rw [harray]
      exact (memcpy_zeros hzero 10).2 hlt
    exact ⟨json, s, hjson, hwhole, hin, by rw [paramVals_ofTransacao, hcstr]⟩

/-! ### Ten characters, a NUL, and one character -/

def tenBody : List UInt8 := bytes "\x7b\"valor\":1,\"tipo\":\"c\",\"descricao\":\"0123456789\"\x7d"

def cutBody : List UInt8 := bytes "\x7b\"valor\":1,\"tipo\":\"c\",\"descricao\":\"a\\u0000b\"\x7d"

/-- A description of ten characters has no NUL in its array, and one with a NUL is cut. -/
theorem ten_and_cut :
    (∃ t, parseTransacoes (received (postHead ++ tenBody)) transacaoUm = .ok t ∧ stringIn t.descricao = none ∧
      ¬ DescricaoFaithful (received (postHead ++ tenBody)) transacaoUm t) ∧
    ∃ t, parseTransacoes (received (postHead ++ cutBody)) transacaoUm = .ok t ∧
      stringIn t.descricao = some (bytes "a") ∧
      ¬ DescricaoFaithful (received (postHead ++ cutBody)) transacaoUm t := by
  constructor
  · have hparse : parseTransacoes (received (postHead ++ tenBody)) transacaoUm =
        .ok ⟨1, 1, 99, bytes "0123456789"⟩ := by
      decide +kernel
    have hnone : stringIn (bytes "0123456789") = none := by decide +kernel
    refine ⟨_, hparse, hnone, fun h => ?_⟩
    obtain ⟨_, _, _, _, hstring, _⟩ := h
    cases hnone.symm.trans hstring
  · have hparse : parseTransacoes (received (postHead ++ cutBody)) transacaoUm =
        .ok ⟨1, 1, 99, [97, 0, 0, 0, 0, 0, 0, 0, 0, 0]⟩ := by
      decide +kernel
    have hcut : stringIn [97, 0, 0, 0, 0, 0, 0, 0, 0, 0] = some (bytes "a") := by decide +kernel
    have hwhole : (bodyOf (received (postHead ++ cutBody)) transacaoUm).map
        (fun json => wholeString (member (bytes "descricao") json)) = some (some [97, 0, 98]) := by
      decide +kernel
    refine ⟨_, hparse, hcut, fun h => ?_⟩
    obtain ⟨json, s, hjson, hmember, hstring, _⟩ := h
    rw [hjson, Option.map_some, hmember, Option.some.injEq] at hwhole
    rw [hwhole] at hstring
    exact absurd (hcut.symm.trans hstring) (by decide)

/-- One character is passed on as it is. -/
theorem descricaoFaithful_plainBody :
    DescricaoFaithful (received (postHead ++ plainBody)) transacaoUm ⟨1, 1, 99, [97, 0, 0, 0, 0, 0, 0, 0, 0, 0]⟩ := by
  have hparse : parseTransacoes (received (postHead ++ plainBody)) transacaoUm =
      .ok ⟨1, 1, 99, [97, 0, 0, 0, 0, 0, 0, 0, 0, 0]⟩ := by
    decide +kernel
  obtain ⟨json, hjson, hread⟩ := Option.map_eq_some_iff.mp
    (show (bodyOf (received (postHead ++ plainBody)) transacaoUm).map (fun json =>
      (CJson.stringValue (json.getObjectItem (bytes "descricao")), wholeString (member (bytes "descricao") json))) =
        some (some (bytes "a"), some (bytes "a")) by decide +kernel)
  obtain ⟨hfound, hwhole⟩ := Prod.mk.inj hread
  exact (descricaoFaithful_iff hparse).mpr ⟨json, bytes "a", hjson, hfound, hwhole, by decide⟩

end Rinha.Server

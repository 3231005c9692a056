import Rinha.Server.NotFound

/-! The range of an accepted `valor`.

`parse_transacoes` accepts an integer up to 2^63, and the command casts it to
INTEGER. So an accepted transaction is one the database can take exactly when the
number in the body is below 2^31. -/
namespace Rinha.Server
open Library Request Client Database

/-- `valor` is in the domain of `push_credito` and `push_debito`: it is an INTEGER
that is not negative, and the command's casts do not fail for it. So its answer is not
that of a failed cast, a 500, but what a call with this amount has returned. -/
structure InDomain (t : Request.Transacao) : Prop where
  range : 0 ≤ t.valor ∧ t.valor ≤ 2147483647
  cast : t.id < 6 → ∀ decode, call decode (.ofTransacao t) ≠ .error .numeric_value_out_of_range
  answer : t.id < 6 → ∀ (σ : Type) (db : Db σ) decode extratoJson res, decode (cstr t.descricao) ≠ none →
    Answers decode extratoJson db (.ofTransacao t) res →
      ∃ s f a reply, a.valor_in.val = t.valor ∧ .pushed s f a reply ∈ db.history ∧ res = reply.result

theorem of_small {n : Nat} (h : n < 6) : ∃ i, Integer.of n = .ok i :=
  ⟨⟨n, by omega, by omega⟩, dif_pos ⟨by omega, by omega⟩⟩

/-- In the range the command is refused for its text alone, and else makes a call with
this amount. -/
theorem call_in_range {t : Request.Transacao} (hid : t.id < 6) (hrange : 0 ≤ t.valor ∧ t.valor ≤ 2147483647)
    (decode : List UInt8 → Option (List Char)) :
    (decode (cstr t.descricao) = none ∧ call decode (.ofTransacao t) = .error .character_not_in_repertoire) ∨
      ∃ f a, a.valor_in.val = t.valor ∧ call decode (.ofTransacao t) = .ok (.push f a) := by
  obtain ⟨i, hi⟩ := of_small hid
  have hv : Integer.of t.valor = .ok ⟨t.valor, by omega, hrange.2⟩ := dif_pos ⟨by omega, hrange.2⟩
  have hcast : ∀ f, (decode (cstr t.descricao) = none ∧
      castPush decode f t.id t.valor (cstr t.descricao) = .error .character_not_in_repertoire) ∨
        ∃ a, a.valor_in.val = t.valor ∧ castPush decode f t.id t.valor (cstr t.descricao) = .ok (.push f a) := by
    intro f
    unfold castPush
    rw [hi, hv]
    cases decode (cstr t.descricao) with
    | none => exact .inl ⟨rfl, rfl⟩
    | some chars => exact .inr ⟨_, rfl, rfl⟩
  unfold Query.ofTransacao
  split
  · exact (hcast .pushCredito).imp_right fun h => ⟨_, h⟩
  · exact (hcast .pushDebito).imp_right fun h => ⟨_, h⟩

theorem InDomain.of_range {t : Request.Transacao} (hrange : 0 ≤ t.valor ∧ t.valor ≤ 2147483647) : InDomain t where
  range := hrange
  cast := by
    intro hid decode
    rcases call_in_range hid hrange decode with ⟨_, hcall⟩ | ⟨f, a, _, hcall⟩
    · rw [hcall]
      simp
    · rw [hcall]
      simp
  answer := by
    intro hid σ db decode extratoJson res htext h
    rcases call_in_range hid hrange decode with ⟨hnone, _⟩ | ⟨f, a, hvalor, hcall⟩
    · exact absurd hnone htext
    · unfold Answers at h
      rw [hcall] at h
      obtain ⟨s, reply, hmem, _, hres⟩ := h
      exact ⟨s, f, a, reply, hvalor, hmem, hres⟩

/-- An accepted transaction is in the domain exactly when its body's number is
below 2^31. -/
theorem inDomain_iff {buffer : List UInt8} {d : RequestData} {t : Request.Transacao}
    (h : parseTransacoes buffer d = .ok t) :
    InDomain t ↔ ∃ x, valorOf (cstr (buffer.drop d.bodyLoc)) = some x ∧ x.lt (2 ^ 31) = true := by
  obtain ⟨json, hjson, hvalor, _⟩ := parseTransacoes_ok h
  obtain ⟨x, hx, hcases⟩ := checkValor_ok hvalor
  have hof : valorOf (cstr (buffer.drop d.bodyLoc)) = some x := by
    unfold valorOf
    rw [hjson]
    exact hx
  rw [hof]
  simp only [Option.some.injEq, exists_eq_left']
  rcases hcases with ⟨h63, hmin⟩ | ⟨h0, hlt⟩
  · constructor
    · intro hdom
      have := hdom.range.1
      omega
    · intro h31
      rw [Double.lt_mono (by decide) h31] at h63
      cases h63
  · rw [hlt]
    constructor
    · intro hdom
      have := hdom.range.2
      omega
    · intro h31
      exact .of_range ⟨h0, by omega⟩

/-! ### 2147483648, and 1 -/

def postLarge : List UInt8 := received (bytes
  "POST /clientes/1/transacoes HTTP/1.1\r\n\r\n\x7b\"valor\":2147483648,\"tipo\":\"c\",\"descricao\":\"a\"\x7d")

theorem postLarge_parsed : requestParser postLarge = .ok ⟨.transacao, .post, 40, 1⟩ := by
  refine requestParser_parsedPost (by decide +kernel) ?_ (by decide +kernel) (by decide +kernel)
  decide +kernel

/-- It is accepted, is in no INTEGER, and is answered 500. -/
theorem large_valor :
    ∃ d t, requestParser postLarge = .ok d ∧ parseTransacoes postLarge d = .ok t ∧ ¬ InDomain t ∧
      ∃ query, queryOf postLarge = some query ∧
        Answers asciiText nobodysExtrato (Db.seeded : Db Unit) query raised ∧
        ∃ reqres, exchange ⟨0, true, [raised]⟩ atOnce postLarge = .ok reqres ∧
          status reqres.buffer = bytes "500" := by
  have hvalid : parseTransacoes postLarge ⟨.transacao, .post, 40, 1⟩ =
      .ok ⟨1, 2147483648, 99, [97, 0, 0, 0, 0, 0, 0, 0, 0, 0]⟩ := by decide +kernel
  have hend : endTransacaoAsync atOnce (sentTransacao postLarge) (sendOn ⟨0, true, [raised]⟩
      (.ofTransacao ⟨1, 2147483648, 99, [97, 0, 0, 0, 0, 0, 0, 0, 0, 0]⟩) none) =
        .ok ((sentTransacao postLarge).setStaticResponse (internalerror "15"), none) := by
    generalize sentTransacao postLarge = reqres
    rfl
  have hex := exchange_transacao postLarge_parsed (by decide) rfl rfl hvalid ⟨0, true, [raised]⟩ atOnce
  rw [hend] at hex
  have hstatus : status ((sentTransacao postLarge).setStaticResponse (internalerror "15")).buffer =
      bytes "500" := by
    rw [ReqRes.setStaticResponse, status_memcpy (by decide +kernel)]
    decide +kernel
  refine ⟨_, _, postLarge_parsed, hvalid, ?_, .pushCredito 1 2147483648 [97],
    queryOf_transacao postLarge_parsed (by decide) rfl rfl hvalid, rfl, _, hex, hstatus⟩
  intro h
  exact absurd h.range.2 (by decide)

def transacaoOne : Request.Transacao := ⟨1, 1, 99, [97, 0, 0, 0, 0, 0, 0, 0, 0, 0]⟩

/-- A transaction of 1 is in the domain. -/
theorem inDomain_one : InDomain transacaoOne := by
  have hparsed : parseTransacoes postOne ⟨.transacao, .post, 40, 1⟩ = .ok transacaoOne := postOne_valid
  have hvalor : (valorOf (cstr (postOne.drop 40))).any (fun x => x.lt (2 ^ 31)) = true := by decide +kernel
  obtain ⟨x, hx, hlt⟩ := (Option.any_eq_true _ _).mp hvalor
  exact (inDomain_iff hparsed).mpr ⟨x, hx, hlt⟩

end Rinha.Server

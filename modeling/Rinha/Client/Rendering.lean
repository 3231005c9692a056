import Rinha.Client.Db

/-! The texts of the commands.

A command is never cut by `snprintf`, and it tells the function, the id and the valor:
the numbers are the longest texts of digits (with a sign) behind the two ends of the
template (`commands_faithful`). -/
namespace Rinha.Client
open Library Request

namespace Query

/-- What `snprintf` prints into `command_buffer`, whatever its size. -/
def text : Query → List UInt8
  | getExtrato id => bytes "SELECT get_extrato(" ++ decimal id ++ bytes "::int)"
  | pushCredito id valor _ => bytes "SELECT push_credito(" ++ decimal id ++ bytes "::int, " ++ decimalInt valor ++
      bytes "::int, $1::varchar(10))"
  | pushDebito id valor _ => bytes "SELECT push_debito(" ++ decimal id ++ bytes "::int, " ++ decimalInt valor ++
      bytes "::int, $1::varchar(10))"

/-- `sizeof(command_buffer)` -/
def size : Query → Nat
  | getExtrato _ => 50
  | pushCredito .. => 100
  | pushDebito .. => 100

/-- The function that is called. -/
def name : Query → List UInt8
  | getExtrato _ => bytes "get_extrato"
  | pushCredito .. => bytes "push_credito"
  | pushDebito .. => bytes "push_debito"

/-- The function, the id and the valor. -/
def call : Query → Query
  | getExtrato id => getExtrato id
  | pushCredito id valor _ => pushCredito id valor []
  | pushDebito id valor _ => pushDebito id valor []

/-- The id is a `uint64_t`, and the valor an `int64_t`. -/
def InRange : Query → Prop
  | getExtrato id => id < 2 ^ 64
  | pushCredito id valor _ => id < 2 ^ 64 ∧ -2 ^ 63 ≤ valor ∧ valor < 2 ^ 63
  | pushDebito id valor _ => id < 2 ^ 64 ∧ -2 ^ 63 ≤ valor ∧ valor < 2 ^ 63

theorem command_eq (q : Query) : q.command = snprintf q.size q.text := by
  cases q <;> rfl

/-- A 64-bit number has at most 20 digits, and a signed one 19 and a sign. -/
theorem text_length {q : Query} (h : q.InRange) : q.text.length < q.size := by
  have hid : ∀ {id : Nat}, id < 2 ^ 64 → (decimal id).length ≤ 20 := fun hid =>
    decimal_length (by decide) (hid.trans (by decide))
  have hvalor : ∀ {valor : Int}, -2 ^ 63 ≤ valor → valor < 2 ^ 63 → (decimalInt valor).length ≤ 20 := by
    intro valor hlow hhigh
    exact decimalInt_length (k := 19) (by decide) (by omega)
  have hend : (bytes "::int, $1::varchar(10))").length = 23 := by decide +kernel
  have hmiddle : (bytes "::int, ").length = 7 := by decide +kernel
  cases q with
  | getExtrato id =>
    have hname : (bytes "SELECT get_extrato(").length = 19 := by decide +kernel
    have hclose : (bytes "::int)").length = 6 := by decide +kernel
    have := hid h
    simp only [text, size, List.length_append]
    omega
  | pushCredito id valor _ =>
    have hname : (bytes "SELECT push_credito(").length = 20 := by decide +kernel
    have := hid h.1
    have := hvalor h.2.1 h.2.2
    simp only [text, size, List.length_append]
    omega
  | pushDebito id valor _ =>
    have hname : (bytes "SELECT push_debito(").length = 19 := by decide +kernel
    have := hid h.1
    have := hvalor h.2.1 h.2.2
    simp only [text, size, List.length_append]
    omega

end Query

/-! ### Reading a command -/

theorem snprintf_of_lt {size : Nat} {text : List UInt8} (h : text.length < size) :
    snprintf size text = text ++ [0] := by
  rw [snprintf, List.take_of_length_le (by omega)]

/-- A text of `p`s ends where the first other byte is. -/
theorem append_stop_inj {p : UInt8 → Bool} {b : UInt8} (hb : p b = false) {s s' t t' : List UInt8}
    (hs : ∀ c ∈ s, p c = true) (hs' : ∀ c ∈ s', p c = true) (h : s ++ b :: t = s' ++ b :: t') :
    s = s' ∧ t = t' := by
  have htake := congrArg (List.takeWhile p) h
  rw [takeWhile_append_stop hb, takeWhile_append_stop hb, List.takeWhile_eq_self_iff.mpr hs,
    List.takeWhile_eq_self_iff.mpr hs'] at htake
  subst htake
  exact ⟨rfl, (List.cons.inj (List.append_cancel_left h)).2⟩

/-- A digit or the sign. -/
def isSignedDigit (b : UInt8) : Bool := isdigit b || b = 45

theorem decimalInt_signed (z : Int) : ∀ b ∈ decimalInt z, isSignedDigit b = true := by
  have hdigits : ∀ n, ∀ b ∈ decimal n, isSignedDigit b = true := by
    intro n b hb
    rw [isSignedDigit, decimal_digits n b hb, Bool.true_or]
  cases z with
  | ofNat n => exact hdigits n
  | negSucc n =>
    intro b hb
    rcases List.mem_cons.mp hb with rfl | hb
    · rfl
    · exact hdigits (n + 1) b hb

/-- The two numbers of a transaction's text can be read from it. -/
theorem push_inj {name : List UInt8} {id id' : Nat} {valor valor' : Int}
    (h : name ++ decimal id ++ bytes "::int, " ++ decimalInt valor ++ bytes "::int, $1::varchar(10))" =
      name ++ decimal id' ++ bytes "::int, " ++ decimalInt valor' ++ bytes "::int, $1::varchar(10))") :
    id = id' ∧ valor = valor' := by
  have hcut : ∀ (id : Nat) (valor : Int),
      name ++ decimal id ++ bytes "::int, " ++ decimalInt valor ++ bytes "::int, $1::varchar(10))" =
        name ++ (decimal id ++ 58 ::
          (bytes ":int, " ++ (decimalInt valor ++ 58 :: bytes ":int, $1::varchar(10))"))) := by
    intro id valor
    simp only [List.append_assoc]
    rfl
  rw [hcut, hcut] at h
  have hdigit : isdigit 58 = false := by decide
  have hsigned : isSignedDigit 58 = false := by decide
  obtain ⟨hid, hrest⟩ := append_stop_inj hdigit (decimal_digits id) (decimal_digits id') (List.append_cancel_left h)
  obtain ⟨hvalor, _⟩ := append_stop_inj hsigned (decimalInt_signed valor) (decimalInt_signed valor')
    (List.append_cancel_left hrest)
  exact ⟨decimal_injective hid, decimalInt_injective hvalor⟩

theorem name_text (q : Query) : ∃ rest, q.text = bytes "SELECT " ++ (q.name ++ 40 :: rest) := by
  cases q with
  | getExtrato id => exact ⟨decimal id ++ bytes "::int)", rfl⟩
  | pushCredito id valor _ =>
    refine ⟨decimal id ++ bytes "::int, " ++ decimalInt valor ++ bytes "::int, $1::varchar(10))", ?_⟩
    simp only [Query.text, Query.name, List.append_assoc]
    rfl
  | pushDebito id valor _ =>
    refine ⟨decimal id ++ bytes "::int, " ++ decimalInt valor ++ bytes "::int, $1::varchar(10))", ?_⟩
    simp only [Query.text, Query.name, List.append_assoc]
    rfl

theorem name_inj {q q' : Query} (h : q.text = q'.text) : q.name = q'.name := by
  have hname : ∀ q : Query, ∀ b ∈ q.name, decide (b ≠ 40) = true := by
    intro q
    cases q with
    | getExtrato _ => exact (by decide +kernel : ∀ b ∈ bytes "get_extrato", decide (b ≠ 40) = true)
    | pushCredito _ _ _ => exact (by decide +kernel : ∀ b ∈ bytes "push_credito", decide (b ≠ 40) = true)
    | pushDebito _ _ _ => exact (by decide +kernel : ∀ b ∈ bytes "push_debito", decide (b ≠ 40) = true)
  obtain ⟨rest, hq⟩ := name_text q
  obtain ⟨rest', hq'⟩ := name_text q'
  rw [hq, hq'] at h
  exact (append_stop_inj (by decide) (hname q) (hname q') (List.append_cancel_left h)).1

theorem text_inj {q q' : Query} (h : q.text = q'.text) : q.call = q'.call := by
  have hname := name_inj h
  have hcredito : bytes "get_extrato" ≠ bytes "push_credito" := by decide
  have hdebito : bytes "get_extrato" ≠ bytes "push_debito" := by decide
  have hpush : bytes "push_credito" ≠ bytes "push_debito" := by decide
  cases q with
  | getExtrato id =>
    cases q' with
    | getExtrato id' =>
      have hend : bytes "::int)" = 58 :: bytes ":int)" := rfl
      have hdigit : isdigit 58 = false := by decide
      simp only [Query.text, List.append_assoc, List.append_cancel_left_eq, hend] at h
      obtain ⟨hid, _⟩ := append_stop_inj hdigit (decimal_digits id) (decimal_digits id') h
      rw [decimal_injective hid]
    | pushCredito _ _ _ => exact absurd hname hcredito
    | pushDebito _ _ _ => exact absurd hname hdebito
  | pushCredito id valor _ =>
    cases q' with
    | getExtrato _ => exact absurd hname.symm hcredito
    | pushCredito id' valor' _ =>
      obtain ⟨rfl, rfl⟩ := push_inj h
      rfl
    | pushDebito _ _ _ => exact absurd hname hpush
  | pushDebito id valor _ =>
    cases q' with
    | getExtrato _ => exact absurd hname.symm hdebito
    | pushCredito _ _ _ => exact absurd hname.symm hpush
    | pushDebito id' valor' _ =>
      obtain ⟨rfl, rfl⟩ := push_inj h
      rfl

/-- The command is the whole text with its NUL, in its buffer, and two commands are equal
only for the same function, id and valor. -/
theorem commands_faithful {q q' : Query} (h : q.InRange) (h' : q'.InRange) :
    q.text.length + 1 ≤ q.size ∧ q.command = q.text ++ [0] ∧ (q.command = q'.command → q.call = q'.call) := by
  have hlt := Query.text_length h
  have hcommand : q.command = q.text ++ [0] := by rw [q.command_eq, snprintf_of_lt hlt]
  have hcommand' : q'.command = q'.text ++ [0] := by rw [q'.command_eq, snprintf_of_lt (Query.text_length h')]
  refine ⟨hlt, hcommand, fun heq => ?_⟩
  rw [hcommand, hcommand'] at heq
  exact text_inj (List.append_cancel_right heq)

/-- The longest text there is, and a command with other numbers. -/
def leastCredito : Query := .pushCredito 18446744073709551615 (-9223372036854775808) []

def debitoOne : Query := .pushDebito 1 5 (bytes "a")

theorem leastCredito_faithful :
    leastCredito.text.length + 1 ≤ leastCredito.size ∧ leastCredito.command = leastCredito.text ++ [0] ∧
      (leastCredito.command = debitoOne.command → leastCredito.call = debitoOne.call) :=
  commands_faithful ⟨by decide, by decide, by decide⟩ ⟨by decide, by decide, by decide⟩

end Rinha.Client

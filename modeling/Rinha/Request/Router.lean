import Rinha.Http.PicohttpProofs
import Rinha.Library.CString
import Rinha.Library.Regex

/-! `request_parser` of `request.c`.

Each of the four expressions is searched for in the C string that starts at the
path, so in the path and in all that follows it up to the first NUL. The last
match is taken; one after another match is refused when the other one's index is
greater than 0. -/
namespace Rinha.Request
open Library Http

inductive ParserError where
  | memory
  | invalid
  deriving DecidableEq, Repr

inductive Uri where
  | transacao
  | extrato
  | exit
  | ping
  deriving DecidableEq, Repr

inductive Method where
  | get
  | post
  deriving DecidableEq, Repr

structure RequestData where
  uri : Uri
  method : Method
  bodyLoc : Nat
  id : Nat
  deriving DecidableEq, Repr

/-- `MAX_REQ_RESP_SIZE` -/
def maxReqRespSize : Nat := 4096

/-! ### The expressions -/

/-- A letter in either case (`REG_ICASE`), any other byte as it is. -/
def icase (b : UInt8) : List UInt8 :=
  if 65 ≤ b && b ≤ 90 then [b, b + 32] else if 97 ≤ b && b ≤ 122 then [b - 32, b] else [b]

def literal (s : String) : RegularExpression UInt8 := inOrder ((bytes s).map icase)

/-- `[0-9]+` -/
def number : RegularExpression UInt8 := atLeastOnce (oneOf (bytes "0123456789"))

def res : List (RegularExpression UInt8) :=
  [literal "/clientes/" * (number * literal "/transacoes"),
   literal "/clientes/" * (number * literal "/extrato"),
   literal "/exit",
   literal "/ping"]

/-- Which of the expressions match somewhere in the text. -/
def hits (text : List UInt8) : List Bool := res.map fun r => occurs r text

theorem space_notMem_letters : ∀ r ∈ res, 32 ∉ letters r := by decide

/-- No expression has a space in it, so a match lies on one side of a space. -/
theorem hits_append (path rest : List UInt8) :
    hits (path ++ 32 :: rest) = List.zipWith (· || ·) (hits path) (hits rest) := by
  unfold hits
  rw [List.zipWith_map, List.zipWith_self]
  refine List.map_congr_left fun r hr => ?_
  exact occurs_append (space_notMem_letters r hr) path rest

/-- Nor has one a quote, so the parts between these are looked at one by one. -/
theorem hits_splitOnP (text : List UInt8) :
    hits text = res.map fun r => (text.splitOnP fun b => b = 32 || b = 34).any (occurs r) := by
  have hquote : ∀ r ∈ res, 34 ∉ letters r := by decide
  refine List.map_congr_left fun r hr => occurs_splitOnP (fun b hb => ?_) text
  simp only [Bool.or_eq_true, decide_eq_true_eq] at hb
  rcases hb with rfl | rfl
  · exact space_notMem_letters r hr
  · exact hquote r hr

/-! ### request_parser -/

/-- `map_method`: `strstr` finds the name where the text begins. -/
def mapMethod (method : List UInt8) : Option Method :=
  if bytes "GET" <+: method then some .get
  else if bytes "POST" <+: method then some .post
  else none

/-- The loop over `res`, from `matched_index` and `i` on. -/
def matchLoop (matched_index : Int) (i : Nat) : List Bool → Except ParserError Int
  | [] => .ok matched_index
  | hit :: rest =>
    if hit then
      -- More than one match.
      if matched_index > 0 then .error .invalid else matchLoop i (i + 1) rest
    else matchLoop matched_index (i + 1) rest

/-- The enumerator with this number. -/
def Uri.ofIndex : Int → Uri
  | 0 => transacao
  | 1 => extrato
  | 2 => exit
  | _ => ping

/-- `sscanf(uri, "/clientes/%lu", &reqdata->id)` -/
def scanId (uri : List UInt8) : Option Nat :=
  if bytes "/clientes/" <+: uri then scanLu (uri.drop (bytes "/clientes/").length) else none

def requestParser (buff : List UInt8) : Except ParserError RequestData :=
  match phrParseRequest (buff.take maxReqRespSize) 100 with
  | .error _ => .error .invalid
  | .ok (r, nparsed) =>
    -- The pointers point into `buff`, which goes on behind the parsed bytes.
    let method_str := cstr (r.methodText ++ buff.drop maxReqRespSize)
    let uri := cstr (r.pathText ++ buff.drop maxReqRespSize)
    match mapMethod method_str with
    | none => .error .invalid
    | some method =>
      match matchLoop (-1) 0 (hits uri) with
      | .error e => .error e
      | .ok matched_index =>
        if matched_index < 0 then .error .invalid
        else if matched_index = 2 ∨ matched_index = 3 then
          .ok ⟨Uri.ofIndex matched_index, method, nparsed, uint64Max⟩
        else
          match scanId uri with
          | none => .error .invalid
          | some id => .ok ⟨Uri.ofIndex matched_index, method, nparsed, id⟩

/-! ### Which expression is taken -/

/-- `k` matches and no other but `transacoes`, of index 0, does. -/
def Selects (hits : List Bool) (k : Nat) : Prop :=
  hits[k]? = some true ∧ ∀ j, j ≠ 0 → j ≠ k → hits[j]? ≠ some true

instance (hits : List Bool) (k : Nat) : Decidable (Selects hits k) :=
  decidable_of_iff (hits[k]? = some true ∧ ∀ j < hits.length, j ≠ 0 → j ≠ k → hits[j]? ≠ some true) <| by
    refine and_congr_right fun _ => ⟨fun h j hj0 hjk hj => ?_, fun h j _ => h j⟩
    exact h j (List.getElem?_eq_some_iff.mp hj).1 hj0 hjk hj

/-- After a match with an index over 0 no other may come. -/
theorem matchLoop_pos {m : Int} (hm : m > 0) (i : Nat) (hs : List Bool) (k : Int) :
    matchLoop m i hs = .ok k ↔ k = m ∧ ∀ j : Nat, hs[j]? ≠ some true := by
  induction hs generalizing i with
  | nil => simp [matchLoop, eq_comm]
  | cons hit rest ih =>
    rw [matchLoop]
    cases hit with
    | true =>
      rw [if_pos rfl, if_pos hm]
      refine ⟨nofun, fun h => absurd rfl (h.2 0)⟩
    | false =>
      rw [if_neg (by simp), ih]
      refine and_congr_right fun _ => ⟨fun h j => ?_, fun h j => h (j + 1)⟩
      cases j with
      | zero => simp
      | succ j => exact h j

/-- Before such a match, the loop ends with the one match from `i` on, if any. -/
theorem matchLoop_nonpos {m : Int} (hm : m ≤ 0) {i : Nat} (hi : 0 < i) (hs : List Bool) (k : Int) :
    matchLoop m i hs = .ok k ↔
      (k = m ∧ ∀ j : Nat, hs[j]? ≠ some true) ∨
        ∃ n : Nat, k = i + n ∧ hs[n]? = some true ∧ ∀ j, j ≠ n → hs[j]? ≠ some true := by
  induction hs generalizing i with
  | nil => simp [matchLoop, eq_comm]
  | cons hit rest ih =>
    rw [matchLoop]
    cases hit with
    | true =>
      rw [if_pos rfl, if_neg (by omega), matchLoop_pos (by omega)]
      constructor
      · rintro ⟨rfl, hrest⟩
        refine .inr ⟨0, by omega, rfl, fun j hj => ?_⟩
        obtain ⟨j, rfl⟩ := Nat.exists_eq_succ_of_ne_zero hj
        exact hrest j
      · rintro (⟨_, hnone⟩ | ⟨n, rfl, hn, hone⟩)
        · exact absurd rfl (hnone 0)
        · have hn0 : n = 0 := by
            by_contra hne
            exact hone 0 (Ne.symm hne) rfl
          subst hn0
          exact ⟨by omega, fun j => hone (j + 1) (Nat.succ_ne_zero j)⟩
    | false =>
      rw [if_neg (by simp), ih (Nat.succ_pos i)]
      constructor
      · rintro (⟨rfl, hnone⟩ | ⟨n, rfl, hn, hone⟩)
        · refine .inl ⟨rfl, fun j => ?_⟩
          cases j with
          | zero => simp
          | succ j => exact hnone j
        · refine .inr ⟨n + 1, by omega, hn, fun j hj => ?_⟩
          cases j with
          | zero => simp
          | succ j => exact hone j (by omega)
      · rintro (⟨rfl, hnone⟩ | ⟨n, rfl, hn, hone⟩)
        · exact .inl ⟨rfl, fun j => hnone (j + 1)⟩
        · cases n with
          | zero => simp at hn
          | succ n => exact .inr ⟨n, by omega, hn, fun j hj => hone (j + 1) (by omega)⟩

/-- The loop ends with the index it selects, or with -1 when nothing matches. -/
theorem matchLoop_iff (hs : List Bool) (k : Nat) :
    matchLoop (-1) 0 hs = .ok (k : Int) ↔ Selects hs k := by
  cases hs with
  | nil =>
    refine ⟨fun h => ?_, fun h => absurd h.1 (by simp)⟩
    cases h
  | cons hit rest =>
    unfold Selects
    rw [matchLoop]
    cases hit with
    | true =>
      rw [if_pos rfl, if_neg (by omega), matchLoop_nonpos (by omega) (by omega)]
      constructor
      · rintro (⟨hk, hnone⟩ | ⟨n, hk, hn, hone⟩)
        · obtain rfl : k = 0 := by omega
          refine ⟨rfl, fun j hj _ => ?_⟩
          obtain ⟨j, rfl⟩ := Nat.exists_eq_succ_of_ne_zero hj
          exact hnone j
        · obtain rfl : k = n + 1 := by omega
          refine ⟨hn, fun j hj hne => ?_⟩
          obtain ⟨j, rfl⟩ := Nat.exists_eq_succ_of_ne_zero hj
          exact hone j (by omega)
      · rintro ⟨hk, hone⟩
        cases k with
        | zero => exact .inl ⟨rfl, fun j => hone (j + 1) (by omega) (by omega)⟩
        | succ k => exact .inr ⟨k, by omega, hk, fun j hj => hone (j + 1) (by omega) (by omega)⟩
    | false =>
      rw [if_neg (by simp), matchLoop_nonpos (by omega) (by omega)]
      constructor
      · rintro (⟨hk, _⟩ | ⟨n, hk, hn, hone⟩)
        · omega
        · obtain rfl : k = n + 1 := by omega
          refine ⟨hn, fun j hj hne => ?_⟩
          obtain ⟨j, rfl⟩ := Nat.exists_eq_succ_of_ne_zero hj
          exact hone j (by omega)
      · rintro ⟨hk, hone⟩
        cases k with
        | zero => simp at hk
        | succ k => exact .inr ⟨k, by omega, hk, fun j hj => hone (j + 1) (by omega) (by omega)⟩

theorem Selects.unique {hs : List Bool} {j k : Nat} (hj : Selects hs j) (hk : Selects hs k) : j = k := by
  by_contra hne
  have h0 : ∀ {m n : Nat}, m ≠ n → Selects hs m → Selects hs n → m = 0 := by
    intro m n hmn hm hn
    by_contra hm0
    exact hn.2 m hm0 hmn hm.1
  have := h0 hne hj hk
  have := h0 (Ne.symm hne) hk hj
  omega

end Rinha.Request

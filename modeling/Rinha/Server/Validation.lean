import Mathlib.Data.List.Find
import Rinha.Json.Leniency
import Rinha.Server.ValorRange

/-! Whether `parse_transacoes` accepts the valid bodies, and no others.

A valid body is one JSON object with white space around it; its names and strings are
taken in whole, and characters are counted. The parser looks at the first value that
`cJSON_Parse` finds in the body, at its names and strings up to their first NUL, and
counts bytes. It is exact where the body is JSON if an object that is written loosely
stands at its front, is within the limits of `cJSON_Parse`, and where neither the NULs nor
the count in bytes matter (`validatesExactly_of_readAsMeant`). A number is the double
nearest to it, for both. -/
namespace Rinha.Server
open Library Request Json

/-! ### Valid bodies -/

/-- The first member with this whole name. -/
def member (name : List UInt8) : CJson → Option CJson
  | .object child => (child.find? fun m => m.1 = name).map Prod.snd
  | _ => none

/-- A string, with what stands behind a NUL in it. -/
def wholeString : Option CJson → Option (List UInt8)
  | some (.string valuestring) => some valuestring
  | _ => none

/-- An integral number that is not negative, within the parser's bound. -/
def InBound (x : Double) : Prop := x.lt 0 = false ∧ x.integral = true ∧ x.gt int64Max = false

instance (x : Double) : Decidable (InBound x) := inferInstanceAs (Decidable (_ ∧ _ ∧ _))

/-- The parser's checks: by names and strings up to their first NUL, and by bytes. -/
structure Passes (json : CJson) : Prop where
  valor : ∃ x, CJson.numberValue (json.getObjectItem (bytes "valor")) = some x ∧ InBound x
  tipo : CJson.stringValue (json.getObjectItem (bytes "tipo")) = some (bytes "c") ∨
    CJson.stringValue (json.getObjectItem (bytes "tipo")) = some (bytes "d")
  descricao : ∃ s, CJson.stringValue (json.getObjectItem (bytes "descricao")) = some s ∧
    1 ≤ s.length ∧ s.length ≤ 10

/-- Only an object has members. -/
theorem Passes.object {json : CJson} (h : Passes json) : ∃ child, json = .object child := by
  obtain ⟨x, hx, _⟩ := h.valor
  cases json with
  | object child => exact ⟨child, rfl⟩
  | _ => cases hx

/-- The names and strings of an object's members are ASCII, without a NUL. -/
def plain (child : List (List UInt8 × CJson)) : Bool :=
  child.all fun m => ascii m.1 && (wholeString (some m.2)).all ascii

def postHead : List UInt8 := bytes "POST /clientes/1/transacoes HTTP/1.1\r\n\r\n"

def plainBody : List UInt8 := bytes "\x7b\"valor\":1,\"tipo\":\"c\",\"descricao\":\"a\"\x7d"

def transacaoUm : RequestData := ⟨.transacao, .post, 40, 1⟩

def umMember (name : String) (item : CJson) : List UInt8 × CJson := (utf8 name.toList, item)

/-- The members of a credit of 1 with this description. -/
def umMembers (descricao : List Char) : List (List UInt8 × CJson) :=
  [umMember "valor" (.number (ofDecimal false (Library.number (bytes "1")) 0)),
    umMember "tipo" (.string (utf8 ['c'])), umMember "descricao" (.string (utf8 descricao))]

def umBody (descricao : List Char) : List UInt8 :=
  bytes "\x7b\"valor\":1,\"tipo\":\"c\",\"descricao\":\"" ++ (utf8 descricao ++ bytes "\"\x7d")

theorem jsonText_umBody {descricao : List Char}
    (h : descricao.all (fun c => 32 ≤ c.toNat && c ≠ '"' && c ≠ '\\') = true) :
    JsonText 1 (umBody descricao) (.object (umMembers descricao)) := by
  have hblank : Blank [] := fun _ hb => absurd hb List.not_mem_nil
  have hone : Strict (bytes "1") (ofDecimal false (Library.number (bytes "1")) 0) := by
    refine ⟨.mk false (bytes "1") [] [] [] 0 (by decide) (List.all_eq_true.mp (by decide)) .absent .absent, ?_⟩
    rintro d rest (heq | heq) <;> cases heq
  have hmember : ∀ {text item} (name : String),
      name.toList.all (fun c => 32 ≤ c.toNat && c ≠ '"' && c ≠ '\\') = true →
      Text (json Strict) 0 text item →
        Member (json Strict) 0 (34 :: (utf8 name.toList ++ 34 :: 58 :: text)) (umMember name item) := by
    intro text item name hname h
    have hmk : Member (json Strict) 0 _ (umMember name item) :=
      .mk 0 [] _ _ [] [] _ [] item hblank ⟨_, .plain hname, rfl⟩ hblank hblank h hblank
    rw [List.append_nil] at hmk
    exact hmk
  have hmembers := Members.more 0 0 _ _ _ _ (hmember "valor" (by decide) (.number _ _ hone))
    (.more 0 0 _ _ _ _ (hmember "tipo" (by decide) (.string _ _ ⟨['c'], .plain (by decide), rfl⟩))
      (.last 0 _ _ (hmember "descricao" (by decide) (.string _ _ ⟨descricao, .plain h, rfl⟩))))
  refine ⟨[], _, [], hblank, .object 0 _ _ hmembers, hblank, ?_⟩
  have hfront : bytes "\x7b\"valor\":1,\"tipo\":\"c\",\"descricao\":\"" =
      123 :: (34 :: (utf8 "valor".toList ++ 34 :: 58 :: bytes "1") ++
        44 :: (34 :: (utf8 "tipo".toList ++ 34 :: 58 :: 34 :: (utf8 ['c'] ++ [34])) ++
          44 :: (34 :: (utf8 "descricao".toList ++ [34, 58, 34])))) := by
    decide +kernel
  have hback : bytes "\"\x7d" = [34, 125] := by decide
  rw [umBody, hfront, hback]
  simp only [List.append_assoc, List.cons_append, List.nil_append, List.append_nil]

theorem jsonText_plainBody : JsonText 1 plainBody (.object (umMembers ['a'])) := by
  rw [show plainBody = umBody ['a'] by decide +kernel]
  exact jsonText_umBody (by decide)

end Rinha.Server

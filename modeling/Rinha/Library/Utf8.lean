import Mathlib.Data.List.Basic
import Mathlib.Data.UInt

/-! Characters and their bytes in UTF-8.

A text has no more characters than bytes, and exactly as many when the bytes are ASCII. -/
namespace Rinha.Library

/-- The text of these characters. -/
def utf8 (text : List Char) : List UInt8 := text.flatMap String.utf8EncodeChar

/-- ASCII without the NUL. -/
def ascii (s : List UInt8) : Bool := s.all fun b => 0 < b && b < 128

theorem utf8_cons (c : Char) (text : List Char) : utf8 (c :: text) = String.utf8EncodeChar c ++ utf8 text :=
  List.flatMap_cons

/-- The bytes tell the characters. -/
theorem utf8_injective : Function.Injective utf8 := by
  intro s t h
  have hbytes : s.utf8Encode = t.utf8Encode := congrArg List.toByteArray h
  have hstrings : String.ofList s = String.ofList t := String.toByteArray_inj.mp hbytes
  rw [← String.toList_ofList (l := s), hstrings, String.toList_ofList]

/-- A character of one byte below 128 is that byte. -/
theorem utf8EncodeChar_ascii {b : UInt8} (h : b < 128) : String.utf8EncodeChar (Char.ofNat b.toNat) = [b] := by
  have hall : ∀ n < 128, String.utf8EncodeChar (Char.ofNat n) = [UInt8.ofNat n] := by decide +kernel
  rw [hall b.toNat (UInt8.lt_iff_toNat_lt.mp h), UInt8.ofNat_toNat]

/-- A byte below 128 is all of its character. -/
theorem utf8EncodeChar_low {c : Char} {b : UInt8} (hb : b ∈ String.utf8EncodeChar c) (hlow : b < 128) :
    c.toNat = b.toNat := by
  have hhigh : ∀ v k : Nat, 128 ≤ k → k < 256 → v < 256 - k → ¬ UInt8.ofNat (v + k) < 128 := by
    intro v k hk hk' hv hlt
    rw [UInt8.lt_iff_toNat_lt, UInt8.toNat_ofNat', Nat.mod_eq_of_lt (by omega)] at hlt
    change _ < 128 at hlt
    omega
  have hcont : ∀ v : Nat, ¬ UInt8.ofNat (v % 0x40 + 0x80) < 128 := fun v =>
    hhigh (v % 0x40) 0x80 (by decide) (by decide) (lt_trans (Nat.mod_lt v (by decide)) (by decide))
  unfold String.utf8EncodeChar at hb
  simp only at hb
  split at hb
  · rename_i hv
    rw [List.mem_singleton.mp hb, UInt8.toNat_ofNat', Nat.mod_eq_of_lt (Nat.lt_of_le_of_lt hv (by decide))]
    rfl
  · exfalso
    split at hb
    · simp only [List.mem_cons, List.not_mem_nil, or_false] at hb
      rcases hb with rfl | rfl
      · exact hhigh (c.val.toNat / 64 % 0x20) 0xC0 (by decide) (by decide)
          ((Nat.mod_lt _ (by decide)).trans (by decide)) hlow
      · exact hcont _ hlow
    · split at hb
      · simp only [List.mem_cons, List.not_mem_nil, or_false] at hb
        rcases hb with rfl | rfl | rfl
        · exact hhigh (c.val.toNat / 4096 % 0x10) 0xE0 (by decide) (by decide)
            ((Nat.mod_lt _ (by decide)).trans (by decide)) hlow
        · exact hcont _ hlow
        · exact hcont _ hlow
      · simp only [List.mem_cons, List.not_mem_nil, or_false] at hb
        rcases hb with rfl | rfl | rfl | rfl
        · exact hhigh (c.val.toNat / 262144 % 8) 0xF0 (by decide) (by decide)
            ((Nat.mod_lt _ (by decide)).trans (by decide)) hlow
        · exact hcont _ hlow
        · exact hcont _ hlow
        · exact hcont _ hlow

end Rinha.Library

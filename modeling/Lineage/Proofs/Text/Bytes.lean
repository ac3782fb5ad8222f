import Mathlib
import Lineage.Text.Blank

/-
The bytes of a text.

A character that is no ASCII character takes several bytes in UTF-8, and none of them
is the byte of an ASCII character.  So whoever looks for ASCII characters may look at
the bytes one by one.
-/

namespace Lineage
namespace Text

/-- The UTF-8 bytes of characters. -/
def encode (cs : List Char) : List UInt8 := cs.flatMap String.utf8EncodeChar

theorem encode_append (a b : List Char) : encode (a ++ b) = encode a ++ encode b :=
  List.flatMap_append

theorem encode_cons (c : Char) (cs : List Char) :
    encode (c :: cs) = String.utf8EncodeChar c ++ encode cs := List.flatMap_cons

theorem encode_ne_nil {cs : List Char} (h : cs ≠ []) : encode cs ≠ [] := by
  cases cs with
  | nil => exact absurd rfl h
  | cons c cs =>
    rw [encode_cons]
    exact List.append_ne_nil_of_left_ne_nil String.utf8EncodeChar_ne_nil _

/-- The bytes that a text is stored as. -/
def bytes (text : String) : List UInt8 := text.toByteArray.data.toList

theorem bytes_eq (text : String) : bytes text = encode text.toList := by
  conv_lhs => rw [bytes, ← String.ofList_toList (s := text), String.toByteArray_ofList,
    List.utf8Encode]
  rw [List.data_toByteArray, encode]

theorem length_encode (cs : List Char) :
    (encode cs).length = (String.ofList cs).utf8ByteSize := by
  rw [String.utf8ByteSize, String.toByteArray_ofList, List.utf8Encode, List.size_toByteArray,
    encode]

theorem toNat_ofUInt8 (b : UInt8) : (Char.ofUInt8 b).toNat = b.toNat := UInt8.toNat_toUInt32 b

theorem ofUInt8_toUInt8 {c : Char} (h : c.toNat < 128) : Char.ofUInt8 c.toUInt8 = c := by
  apply Char.toNat_inj.1
  rw [toNat_ofUInt8]
  show c.val.toNat % 256 = c.val.toNat
  exact Nat.mod_eq_of_lt (Nat.lt_trans h (by decide))

/-- A byte that stands for no ASCII character. -/
def IsHigh (b : UInt8) : Prop := 128 ≤ (Char.ofUInt8 b).toNat

theorem isHigh_ofNat {n : Nat} (h : 128 ≤ n) (hlt : n < 256) : IsHigh (UInt8.ofNat n) := by
  rw [IsHigh, toNat_ofUInt8, UInt8.toNat_ofNat_of_lt' hlt]
  exact h

/-- The bytes of a character: one that stands for itself, or several that stand for no
ASCII character. -/
theorem encodeChar_cases (c : Char) :
    (String.utf8EncodeChar c = [c.toUInt8] ∧ Char.ofUInt8 c.toUInt8 = c) ∨
    (128 ≤ c.toNat ∧ ∀ b ∈ String.utf8EncodeChar c, IsHigh b) := by
  by_cases hascii : c.val.toNat ≤ 127
  · have hone : String.utf8EncodeChar c = [c.toUInt8] := by
      rw [String.utf8EncodeChar, if_pos hascii]
      rfl
    exact .inl ⟨hone, ofUInt8_toUInt8 (Nat.lt_succ_of_le hascii)⟩
  · refine .inr ⟨Nat.lt_of_not_le hascii, fun b hb => ?_⟩
    rw [String.utf8EncodeChar, if_neg hascii] at hb
    split_ifs at hb <;> simp only [List.mem_cons, List.not_mem_nil, or_false] at hb
    · rcases hb with rfl | rfl <;> exact isHigh_ofNat (by omega) (by omega)
    · rcases hb with rfl | rfl | rfl <;> exact isHigh_ofNat (by omega) (by omega)
    · rcases hb with rfl | rfl | rfl | rfl <;> exact isHigh_ofNat (by omega) (by omega)

theorem isHigh_of_tail {c : Char} {b : UInt8} {more : List UInt8}
    (h : String.utf8EncodeChar c = b :: more) : ∀ m ∈ more, IsHigh m := by
  intro m hm
  rcases encodeChar_cases c with ⟨hone, -⟩ | ⟨-, hhigh⟩
  · rw [hone, List.cons.injEq] at h
    rw [← h.2] at hm
    exact absurd hm List.not_mem_nil
  · exact hhigh m (h ▸ List.mem_cons_of_mem _ hm)

section ascii

variable {p : Char → Bool} (hp : ∀ c, p c = true → c.toNat < 128)
include hp

theorem isHigh_eq_false {b : UInt8} (h : IsHigh b) : p (Char.ofUInt8 b) = false := by
  rw [Bool.eq_false_iff]
  exact fun hascii => Nat.not_le.2 (hp _ hascii) h

/-- What holds of ASCII characters only holds of no byte of a character it does not hold of. -/
theorem byte_eq_false {c : Char} (h : p c = false) {b : UInt8}
    (hb : b ∈ String.utf8EncodeChar c) : p (Char.ofUInt8 b) = false := by
  rcases encodeChar_cases c with ⟨hone, hself⟩ | ⟨-, hhigh⟩
  · rw [hone, List.mem_singleton] at hb
    rw [hb, hself, h]
  · exact isHigh_eq_false hp (hhigh b hb)

end ascii

theorem encode_ascii {c : Char} (h : c.toNat < 128) (cs : List Char) :
    encode (c :: cs) = c.toUInt8 :: encode cs := by
  rcases encodeChar_cases c with ⟨hone, -⟩ | ⟨hhigh, -⟩
  · rw [encode_cons, hone]
    rfl
  · exact absurd h (Nat.not_lt.2 hhigh)

/-- The place behind some characters of a text is a boundary between characters. -/
theorem isValid_of_toList_eq {text : String} {before after : List Char}
    (h : text.toList = before ++ after) :
    (⟨(encode before).length⟩ : String.Pos.Raw).IsValid text := by
  rw [String.Pos.Raw.isValid_iff_exists_append]
  refine ⟨String.ofList before, String.ofList after, ?_, ?_⟩
  · rw [← String.ofList_append, ← h, String.ofList_toList]
  · rw [length_encode]
    rfl

end Text
end Lineage

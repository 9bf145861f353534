import Mathlib.Data.Nat.Digits.Defs
import SpirvText.Module.Writer
import SpirvText.Proofs.Text.Strings

/-!
# Words and their bytes

The format says how words become bytes.  The low byte of a word comes first, and so does the low
word of a literal: the bytes of a literal are the digits of its number
(`TextFormat.number_literal`).  A word has as many bytes as instructions are aligned to, so that
words stay aligned whatever they are (`TextFormat.length_flatMap_wordBytes`).
-/

namespace SpirvText

theorem toNat_byte_of_word (w : UInt32) {k : Nat} (hk : k < 32) :
    (w >>> UInt32.ofNat k).toUInt8.toNat = w.toNat / 2 ^ k % 256 := by
  have hshift : (UInt32.ofNat k).toNat % 32 = k := by
    rw [UInt32.toNat_ofNat']
    omega
  rw [UInt32.toNat_toUInt8, UInt32.toNat_shiftRight, hshift, Nat.shiftRight_eq_div_pow]

namespace TextFormat

/-- The number that bytes make up, in the order that a format gives them. -/
def number (format : TextFormat) (bytes : List UInt8) : Nat :=
  Nat.ofDigits 256 ((if format.littleEndian then bytes else bytes.reverse).map UInt8.toNat)

theorem number_assembly (bytes : List UInt8) :
    assembly.number bytes = Nat.ofDigits 256 (bytes.map UInt8.toNat) := rfl

theorem number_append (front back : List UInt8) :
    assembly.number (front ++ back) =
      assembly.number front + 256 ^ front.length * assembly.number back := by
  simp only [number_assembly, List.map_append, Nat.ofDigits_append, List.length_map]

/-- The bytes of a word are its digits. -/
theorem number_wordBytes (w : UInt32) : assembly.number (wordBytes w) = w.toNat := by
  have h8 : (w >>> 8).toUInt8.toNat = _ := toNat_byte_of_word w (k := 8) (by omega)
  have h16 : (w >>> 16).toUInt8.toNat = _ := toNat_byte_of_word w (k := 16) (by omega)
  have h24 : (w >>> 24).toUInt8.toNat = _ := toNat_byte_of_word w (k := 24) (by omega)
  have hlt := w.toNat_lt
  simp only [number_assembly, wordBytes, List.map_cons, List.map_nil, Nat.ofDigits_cons,
    Nat.ofDigits_nil, UInt32.toNat_toUInt8 w, h8, h16, h24]
  omega

/-- The bytes of a literal are its digits, through all of its words. -/
theorem number_literal (literal : LiteralWords) :
    assembly.number (literal.toList.flatMap wordBytes) = literal.toNat := by
  cases literal with
  | one word => simp [LiteralWords.toList, LiteralWords.toNat, number_wordBytes]
  | two low high =>
    have hlength : (wordBytes low).length = 4 := rfl
    simp only [LiteralWords.toList, LiteralWords.toNat, List.flatMap_cons, List.flatMap_nil,
      List.append_nil, number_append, number_wordBytes, hlength]
    omega

/-- What is made of words is aligned. -/
theorem length_flatMap_wordBytes (words : List UInt32) :
    (words.flatMap wordBytes).length = words.length * assembly.instructionAlignment := by
  induction words with
  | nil => rfl
  | cons word words ih =>
    have hlength : (wordBytes word).length = assembly.instructionAlignment := rfl
    rw [List.flatMap_cons, List.length_append, ih, hlength, List.length_cons, Nat.succ_mul,
      Nat.add_comm]

end TextFormat

/-- A word has no other bytes than its digits. -/
theorem wordBytes_inj {w w' : UInt32} (h : wordBytes w = wordBytes w') : w = w' := by
  rw [← UInt32.toNat_inj, ← TextFormat.number_wordBytes, h, TextFormat.number_wordBytes]

/-- A word is put together from its bytes. -/
theorem exists_packWord (w : UInt32) : ∃ a b c d, w = packWord a b c d :=
  ⟨_, _, _, _, wordBytes_inj (wordBytes_packWord _ _ _ _).symm⟩

end SpirvText

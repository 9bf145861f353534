import Mathlib.Tactic.Common
import SpirvText.StringWords

/-!
# Strings read back

A text is read back from its UTF-8 bytes, and a text without zero characters from the words of a
string operand, whatever operands follow.
-/

namespace SpirvText

namespace Text

/-! ## Characters -/

theorem beq_eq_toNat_beq (b k : UInt8) : (b == k) = (b.toNat == k.toNat) := by
  rw [Bool.eq_iff_iff, beq_iff_eq, beq_iff_eq, UInt8.toNat_inj]

/-- The first of two bytes. -/
theorem following?_two {b : UInt8} (h : 0xC2 ≤ b.toNat) (h' : b.toNat ≤ 0xDF) :
    following? b = some (1, 0x80, 0xBF) := by
  simp [following?, UInt8.le_iff_toNat_le, h, h']

/-- The first of three bytes, and the second that goes with it. -/
theorem following?_three {b c : UInt8} (h : 0xE0 ≤ b.toNat) (h' : b.toNat ≤ 0xEF)
    (hc : 0x80 ≤ c.toNat) (hc' : c.toNat ≤ 0xBF) (hlong : b.toNat = 0xE0 → 0xA0 ≤ c.toNat)
    (hsurrogate : b.toNat = 0xED → c.toNat ≤ 0x9F) :
    ∃ low high, following? b = some (2, low, high) ∧ (low ≤ c && c ≤ high) = true := by
  simp only [following?, UInt8.le_iff_toNat_le, beq_eq_toNat_beq, UInt8.reduceToNat]
  rw [if_neg (by simp; omega)]
  split
  · next hb => exact ⟨_, _, rfl, by simp at hb ⊢; omega⟩
  split
  · next hb => exact ⟨_, _, rfl, by simp at hb ⊢; omega⟩
  rw [if_pos (by simp at *; omega)]
  exact ⟨_, _, rfl, by simp; omega⟩

/-- The first of four bytes, and the second that goes with it. -/
theorem following?_four {b c : UInt8} (h : 0xF0 ≤ b.toNat) (h' : b.toNat ≤ 0xF4)
    (hc : 0x80 ≤ c.toNat) (hc' : c.toNat ≤ 0xBF) (hlong : b.toNat = 0xF0 → 0x90 ≤ c.toNat)
    (hlast : b.toNat = 0xF4 → c.toNat ≤ 0x8F) :
    ∃ low high, following? b = some (3, low, high) ∧ (low ≤ c && c ≤ high) = true := by
  simp only [following?, UInt8.le_iff_toNat_le, beq_eq_toNat_beq, UInt8.reduceToNat]
  rw [if_neg (by simp; omega), if_neg (by simp; omega), if_neg (by simp; omega),
    if_neg (by simp; omega)]
  split
  · next hb => exact ⟨_, _, rfl, by simp at hb ⊢; omega⟩
  split
  · next hb => exact ⟨_, _, rfl, by simp at hb ⊢; omega⟩
  rw [if_pos (by simp at *; omega)]
  exact ⟨_, _, rfl, by simp at *; omega⟩

/-- A first byte and a second that goes with it lead on to the bytes after them. -/
theorem decodeChar_of_following? {b c low high : UInt8} {n code : Nat} {rest rest' : List UInt8}
    (hb : 0x80 ≤ b.toNat) (h : following? b = some (n, low, high))
    (hc : (low ≤ c && c ≤ high) = true)
    (hrest : continueChar (n - 1) (leadBits n b * 64 + c.toNat % 64) rest = (code, 0, rest')) :
    decodeChar b (c :: rest) = (Char.ofNat code, rest') := by
  have hlt : ¬ b < 0x80 := by
    rw [UInt8.lt_iff_toNat_lt]
    exact Nat.not_lt.mpr hb
  simp only [decodeChar, hlt, if_false, h, hc, if_true, hrest]

theorem toNat_byte {n : Nat} (h : n < 256) : (UInt8.ofNat n).toNat = n := by
  rw [UInt8.toNat_ofNat', Nat.mod_eq_of_lt h]

/-- The byte that carries the next six bits. -/
theorem continueChar_succ (n code bits : Nat) (rest : List UInt8) :
    continueChar (n + 1) code (UInt8.ofNat (bits % 64 + 128) :: rest) =
      continueChar n (code * 64 + bits % 64) rest := by
  have hbyte : (UInt8.ofNat (bits % 64 + 128)).toNat = bits % 64 + 128 := toNat_byte (by omega)
  have hcont : isContinuation (UInt8.ofNat (bits % 64 + 128)) = true := by
    simp only [isContinuation, UInt8.le_iff_toNat_le, hbyte, UInt8.reduceToNat]
    simp
    omega
  rw [continueChar, if_pos hcont, hbyte]
  congr 1
  omega

theorem continueChar_zero (code : Nat) (rest : List UInt8) :
    continueChar 0 code rest = (code, 0, rest) := by
  cases rest <;> rfl

variable {v : Nat} (rest : List UInt8)

theorem decodeChar_one (h : v ≤ 0x7F) : decodeChar (.ofNat v) rest = (Char.ofNat v, rest) := by
  have hbyte : (UInt8.ofNat v).toNat = v := toNat_byte (by omega)
  have hlt : UInt8.ofNat v < 0x80 := by
    rw [UInt8.lt_iff_toNat_lt, hbyte]
    exact Nat.lt_succ_of_le h
  simp only [decodeChar, hlt, if_true, hbyte]

theorem decodeChar_two (h : 0x7F < v) (h' : v ≤ 0x7FF) :
    decodeChar (.ofNat (v / 64 % 32 + 192)) (.ofNat (v % 64 + 128) :: rest) =
      (Char.ofNat v, rest) := by
  have hlead : (UInt8.ofNat (v / 64 % 32 + 192)).toNat = v / 64 % 32 + 192 := toNat_byte (by omega)
  have hnext : (UInt8.ofNat (v % 64 + 128)).toNat = v % 64 + 128 := toNat_byte (by omega)
  have hbounds : (0x80 ≤ UInt8.ofNat (v % 64 + 128) && UInt8.ofNat (v % 64 + 128) ≤ 0xBF) =
      true := by
    simp only [UInt8.le_iff_toNat_le, hnext, UInt8.reduceToNat]
    simp
    omega
  have hcode : leadBits 1 (.ofNat (v / 64 % 32 + 192)) * 64 + (v % 64 + 128) % 64 = v := by
    rw [leadBits, hlead, Nat.shiftRight_eq_div_pow]
    omega
  refine decodeChar_of_following? (by omega) (following?_two (by omega) (by omega)) hbounds ?_
  rw [hnext, hcode, Nat.sub_self, continueChar_zero]

theorem decodeChar_three (h : 0x7FF < v) (h' : v ≤ 0xFFFF) (hvalid : v < 0xD800 ∨ 0xDFFF < v) :
    decodeChar (.ofNat (v / 4096 % 16 + 224))
      (.ofNat (v / 64 % 64 + 128) :: .ofNat (v % 64 + 128) :: rest) = (Char.ofNat v, rest) := by
  have hlead : (UInt8.ofNat (v / 4096 % 16 + 224)).toNat = v / 4096 % 16 + 224 :=
    toNat_byte (by omega)
  have hnext : (UInt8.ofNat (v / 64 % 64 + 128)).toNat = v / 64 % 64 + 128 := toNat_byte (by omega)
  obtain ⟨low, high, hfollowing, hbounds⟩ := following?_three
    (b := .ofNat (v / 4096 % 16 + 224)) (c := .ofNat (v / 64 % 64 + 128)) (by omega) (by omega)
    (by omega) (by omega) (by omega) (by omega)
  have hcode : (leadBits 2 (.ofNat (v / 4096 % 16 + 224)) * 64 + (v / 64 % 64 + 128) % 64) * 64 +
      v % 64 = v := by
    rw [leadBits, hlead, Nat.shiftRight_eq_div_pow]
    omega
  refine decodeChar_of_following? (by omega) hfollowing hbounds ?_
  rw [hnext, continueChar_succ, hcode, continueChar_zero]

theorem decodeChar_four (h : 0xFFFF < v) (h' : v < 0x110000) :
    decodeChar (.ofNat (v / 262144 % 8 + 240)) (.ofNat (v / 4096 % 64 + 128) ::
      .ofNat (v / 64 % 64 + 128) :: .ofNat (v % 64 + 128) :: rest) = (Char.ofNat v, rest) := by
  have hlead : (UInt8.ofNat (v / 262144 % 8 + 240)).toNat = v / 262144 % 8 + 240 :=
    toNat_byte (by omega)
  have hnext : (UInt8.ofNat (v / 4096 % 64 + 128)).toNat = v / 4096 % 64 + 128 :=
    toNat_byte (by omega)
  obtain ⟨low, high, hfollowing, hbounds⟩ := following?_four
    (b := .ofNat (v / 262144 % 8 + 240)) (c := .ofNat (v / 4096 % 64 + 128)) (by omega) (by omega)
    (by omega) (by omega) (by omega) (by omega)
  have hcode : ((leadBits 3 (.ofNat (v / 262144 % 8 + 240)) * 64 + (v / 4096 % 64 + 128) % 64) * 64 +
      v / 64 % 64) * 64 + v % 64 = v := by
    rw [leadBits, hlead, Nat.shiftRight_eq_div_pow]
    omega
  refine decodeChar_of_following? (by omega) hfollowing hbounds ?_
  rw [hnext, continueChar_succ, continueChar_succ, hcode, continueChar_zero]

/-- A character is read back from its bytes. -/
theorem decodeChar_utf8EncodeChar (c : Char) :
    ∃ b more, String.utf8EncodeChar c = b :: more ∧ decodeChar b (more ++ rest) = (c, rest) := by
  have hchar : Char.ofNat c.val.toNat = c := Char.ofNat_toNat c
  have hvalid : c.val.toNat < 0xD800 ∨ 0xDFFF < c.val.toNat ∧ c.val.toNat < 0x110000 := c.valid
  rw [String.utf8EncodeChar]
  generalize c.val.toNat = v at *
  subst hchar
  split
  · exact ⟨_, _, rfl, decodeChar_one rest (by assumption)⟩
  split
  · exact ⟨_, _, rfl, decodeChar_two rest (by omega) (by assumption)⟩
  split
  · exact ⟨_, _, rfl, decodeChar_three rest (by omega) (by assumption) (by omega)⟩
  · exact ⟨_, _, rfl, decodeChar_four rest (by omega) (by omega)⟩

/-- Characters are read back from their UTF-8 bytes. -/
theorem decodeChars_flatMap (cs : List Char) :
    decodeChars (cs.flatMap String.utf8EncodeChar) = cs := by
  induction cs with
  | nil => simp [decodeChars]
  | cons c cs ih =>
    obtain ⟨b, more, hbytes, hdecode⟩ :=
      decodeChar_utf8EncodeChar (cs.flatMap String.utf8EncodeChar) c
    rw [List.flatMap_cons, hbytes, List.cons_append, decodeChars, hdecode, ih]

/-- A text is read back from its bytes. -/
theorem ofBytes_bytes (text : String) : ofBytes (bytes text) = text := by
  rw [ofBytes, bytes, decodeChars_flatMap, String.ofList_toList]

/-- Only the zero character has a zero byte. -/
theorem ne_zero_of_mem_utf8EncodeChar {c : Char} (hc : c ≠ '\x00') {b : UInt8}
    (hb : b ∈ String.utf8EncodeChar c) : b ≠ 0 := by
  have hne : c.val.toNat ≠ 0 := by
    intro hzero
    refine hc ?_
    rw [← Char.ofNat_toNat c]
    show Char.ofNat c.val.toNat = _
    rw [hzero]
  have hbyte : ∀ n, 0 < n → n < 256 → UInt8.ofNat n ≠ 0 := by
    intro n hpos hlt hzero
    have hnat := toNat_byte hlt
    rw [hzero] at hnat
    exact Nat.ne_of_lt hpos hnat
  rw [String.utf8EncodeChar] at hb
  generalize c.val.toNat = v at *
  split at hb
  · simp only [List.mem_cons, List.not_mem_nil, or_false] at hb
    subst hb
    exact hbyte _ (by omega) (by omega)
  split at hb
  · simp only [List.mem_cons, List.not_mem_nil, or_false] at hb
    rcases hb with rfl | rfl <;> exact hbyte _ (by omega) (by omega)
  split at hb
  · simp only [List.mem_cons, List.not_mem_nil, or_false] at hb
    rcases hb with rfl | rfl | rfl <;> exact hbyte _ (by omega) (by omega)
  · simp only [List.mem_cons, List.not_mem_nil, or_false] at hb
    rcases hb with rfl | rfl | rfl | rfl <;> exact hbyte _ (by omega) (by omega)

/-- Only the zero character has a zero byte. -/
theorem ne_zero_of_mem_bytes {text : String} (h : '\x00' ∉ text.toList) {b : UInt8}
    (hb : b ∈ bytes text) : b ≠ 0 := by
  obtain ⟨c, hc, hb⟩ := List.mem_flatMap.mp hb
  exact ne_zero_of_mem_utf8EncodeChar (fun heq ↦ h (heq ▸ hc)) hb

/-! ## Characters of one byte

The characters of a text are worked out from its bytes, which is slow for a fixed text.  Where all
bytes are below 128 they are the characters. -/

def stored (text : String) : List UInt8 := text.toByteArray.data.toList

theorem stored_eq_bytes (text : String) : stored text = bytes text := by
  obtain ⟨cs, rfl⟩ : ∃ cs, text = String.ofList cs := ⟨_, String.ofList_toList.symm⟩
  show cs.utf8Encode.data.toList = _
  simp [bytes, List.utf8Encode]

/-- The bytes of a text, each as a character. -/
def asciiChars (text : String) : List Char := (stored text).map fun b ↦ Char.ofNat b.toNat

theorem utf8EncodeChar_eq_singleton {c : Char}
    (h : ∀ b ∈ String.utf8EncodeChar c, b.toNat < 128) :
    ∃ b, String.utf8EncodeChar c = [b] ∧ Char.ofNat b.toNat = c := by
  have hchar : Char.ofNat c.val.toNat = c := Char.ofNat_toNat c
  have hlead : ∀ n, n < 256 → 128 ≤ n → UInt8.ofNat n ∉ String.utf8EncodeChar c := by
    intro n hlt hge hmem
    have hbyte := h _ hmem
    rw [toNat_byte hlt] at hbyte
    omega
  rw [String.utf8EncodeChar] at hlead ⊢
  split at hlead
  · next hle => exact ⟨_, if_pos hle, by rw [toNat_byte (by omega), hchar]⟩
  · exfalso
    split at hlead
    · exact hlead _ (by omega) (by omega) List.mem_cons_self
    split at hlead
    · exact hlead _ (by omega) (by omega) List.mem_cons_self
    · exact hlead _ (by omega) (by omega) List.mem_cons_self

/-- A text of bytes below 128 has one character for each byte. -/
theorem toList_eq_asciiChars {text : String} (h : ∀ b ∈ stored text, b.toNat < 128) :
    text.toList = asciiChars text := by
  rw [asciiChars]
  rw [stored_eq_bytes, bytes] at h ⊢
  generalize text.toList = cs at h ⊢
  induction cs with
  | nil => rfl
  | cons c cs ih =>
    rw [List.flatMap_cons] at h ⊢
    obtain ⟨b, hb, hc⟩ := utf8EncodeChar_eq_singleton fun b hb ↦ h b (List.mem_append_left _ hb)
    rw [hb, List.singleton_append, List.map_cons, hc,
      ← ih fun b hb ↦ h b (List.mem_append_right _ hb)]

end Text

/-! ## Words -/

/-- A word has the bytes that it is packed from. -/
theorem wordBytes_packWord (a b c d : UInt8) : wordBytes (packWord a b c d) = [a, b, c, d] := by
  have hbeyond : ∀ (x : UInt8) (n : Nat), 8 ≤ n → x.toBitVec.getLsbD n = false :=
    fun x n hn ↦ BitVec.getLsbD_of_ge x.toBitVec n hn
  simp only [wordBytes, packWord, List.cons.injEq, and_true]
  refine ⟨?_, ?_, ?_, ?_⟩ <;> refine UInt8.eq_of_toBitVec_eq ?_ <;> ext i hi
  · simp
  · have h16 : 8 + i < 16 := by omega
    have h24 : 8 + i < 24 := by omega
    have h32 : 8 + i < 32 ∧ i < 32 := by omega
    simp [h16, h24, h32, BitVec.getLsbD_eq_getElem hi]
  · have h24 : 16 + i < 24 := by omega
    have h32 : 16 + i < 32 ∧ i < 32 := by omega
    simp [h24, h32, BitVec.getLsbD_eq_getElem hi, hbeyond a (16 + i) (by omega),
      hbeyond b (16 + i - 8) (by omega)]
  · have h32 : 24 + i < 32 ∧ i < 32 := by omega
    simp [h32, BitVec.getLsbD_eq_getElem hi, hbeyond a (24 + i) (by omega),
      hbeyond b (24 + i - 8) (by omega), hbeyond c (24 + i - 16) (by omega)]

namespace StringWords

/-- The words of a string are taken off the front of whatever operands follow them. -/
theorem decodeFront_encode {bs : List UInt8} (h : ∀ b ∈ bs, b ≠ 0) (rest : List Operand) :
    decodeFront ((encode bs).map .imm ++ rest) = (bs, (encode bs).length) := by
  fun_induction encode bs with
  | case1 a b c d more ih =>
    have ih := ih fun x hx ↦ h x (by simp [hx])
    simp_all [decodeFront, wordBytes_packWord]
  | case2 a b c => simp_all [decodeFront, wordBytes_packWord]
  | case3 a b => simp_all [decodeFront, wordBytes_packWord]
  | case4 a => simp_all [decodeFront, wordBytes_packWord]
  | case5 => simp [decodeFront, wordBytes]

/-- A text without zero characters is read back from its words. -/
theorem decodeFront_operands {text : String} (h : '\x00' ∉ text.toList) (rest : List Operand) :
    decodeFront (operands text ++ rest) = (Text.bytes text, (operands text).length) := by
  rw [operands, decodeFront_encode (fun b hb ↦ Text.ne_zero_of_mem_bytes h hb), List.length_map]

/-- A string takes at least one word. -/
theorem exists_operands (text : String) : ∃ word more, operands text = .imm word :: more := by
  have hencode : ∀ bs, ∃ word words, encode bs = word :: words := by
    intro bs
    fun_cases encode bs <;> exact ⟨_, _, rfl⟩
  obtain ⟨word, words, hwords⟩ := hencode (Text.bytes text)
  exact ⟨word, words.map .imm, by rw [operands, hwords, List.map_cons]⟩

end StringWords

end SpirvText

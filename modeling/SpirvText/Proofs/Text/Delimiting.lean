import SpirvText.Proofs.Text.Words

/-!
# Strings delimit themselves

The words of a string end with the one that holds its zero byte, so a string is taken off a list of
operands without a length, and nothing after it is looked at.  Reading operands and reading bare
words agree on the bytes, and the words that were read are those of the string just if they end in a
zero byte and the zero bytes after it that fill up the last word
(`StringWords.encode_decodeFront_iff`).
-/

namespace SpirvText

namespace StringWords

/-! ## Lengths -/

/-- A string takes one word more than it has whole words of bytes. -/
theorem length_encode (bytes : List UInt8) : (encode bytes).length = count bytes.length := by
  fun_induction encode bytes with
  | case1 a b c d rest ih =>
    simp only [List.length_cons, ih, count]
    omega
  | case2 | case3 | case4 | case5 => simp [count]

/-! ## Reading word by word -/

theorem takeWhile_append_of_notMem {front : List UInt8} (h : 0 ∉ front) (rest : List UInt8) :
    (front ++ rest).takeWhile (· != 0) = front ++ rest.takeWhile (· != 0) := by
  apply List.takeWhile_append_of_pos
  intro b hb
  exact bne_iff_ne.mpr fun hzero ↦ h (hzero ▸ hb)

variable {word : UInt32}

/-- The bytes of a word up to its first zero byte, and those from there on. -/
theorem exists_front (h : 0 ∈ wordBytes word) :
    ∃ front tail, wordBytes word = front ++ 0 :: tail ∧ 0 ∉ front ∧
      (wordBytes word).takeWhile (· != 0) = front ∧
      (wordBytes word).dropWhile (· != 0) = 0 :: tail := by
  obtain ⟨front, tail, hbytes, hfront⟩ := List.eq_append_cons_of_mem h
  have htake : (wordBytes word).takeWhile (· != 0) = front := by
    rw [hbytes, takeWhile_append_of_notMem hfront]
    simp
  refine ⟨front, tail, hbytes, hfront, htake, ?_⟩
  have hcut := List.takeWhile_append_dropWhile (p := (· != 0)) (l := wordBytes word)
  rw [htake, hbytes, List.append_cancel_left_eq] at hcut
  rw [hbytes, hcut]

/-- A string ends in the first word with a zero byte. -/
theorem decodeFront_of_mem (h : 0 ∈ wordBytes word) (rest : List Operand) :
    decodeFront (.imm word :: rest) = ((wordBytes word).takeWhile (· != 0), 1) := by
  obtain ⟨front, tail, hbytes, -, htake, -⟩ := exists_front h
  have hlength := congrArg List.length hbytes
  have hstop : front.length < 4 := by
    simp [wordBytes] at hlength
    omega
  rw [decodeFront, htake, if_pos hstop]

/-- A word without one is a part of the string. -/
theorem decodeFront_of_notMem (h : 0 ∉ wordBytes word) (rest : List Operand) :
    decodeFront (.imm word :: rest) =
      (wordBytes word ++ (decodeFront rest).1, (decodeFront rest).2 + 1) := by
  have hall : (wordBytes word).takeWhile (· != 0) = wordBytes word := by
    simpa using takeWhile_append_of_notMem h []
  rw [decodeFront, hall]
  rfl

/-- Operands that are words are read as the words by themselves are. -/
theorem decodeFront_map_imm (words : List UInt32) :
    (decodeFront (words.map .imm)).1 = decode words := by
  induction words with
  | nil => rfl
  | cons word words ih =>
    rw [List.map_cons, decode, List.flatMap_cons]
    by_cases h : 0 ∈ wordBytes word
    · obtain ⟨front, tail, hbytes, hfront, htake, -⟩ := exists_front h
      rw [decodeFront_of_mem h, htake, hbytes, List.append_assoc, takeWhile_append_of_notMem hfront]
      simp
    · rw [decodeFront_of_notMem h, ih, decode, takeWhile_append_of_notMem h]

/-! ## Words that are those of a string -/

/-- The bytes of the words of a string are its own and zero bytes, at least one of them. -/
theorem flatMap_wordBytes_encode (bytes : List UInt8) :
    (encode bytes).flatMap wordBytes = bytes ++ List.replicate (4 - bytes.length % 4) 0 := by
  fun_induction encode bytes with
  | case1 a b c d rest ih =>
    have hlength : (a :: b :: c :: d :: rest).length % 4 = rest.length % 4 := by
      simp only [List.length_cons]
      omega
    rw [List.flatMap_cons, ih, wordBytes_packWord, hlength]
    rfl
  | case2 | case3 | case4 => simp [wordBytes_packWord, List.replicate]
  | case5 => rfl

theorem encode_wordBytes_append (word : UInt32) (bytes : List UInt8) :
    encode (wordBytes word ++ bytes) = word :: encode bytes := by
  obtain ⟨a, b, c, d, rfl⟩ := exists_packWord word
  rw [wordBytes_packWord]
  rfl

/-- A word that is filled up with zero bytes: it has one, and nothing else after the first. -/
def IsPadded (word : UInt32) : Prop :=
  0 ∈ wordBytes word ∧ ∀ b ∈ (wordBytes word).dropWhile (· != 0), b = 0

/-- The last word of a string has its last bytes and is filled up. -/
theorem encode_takeWhile_eq_iff (h : 0 ∈ wordBytes word) :
    encode ((wordBytes word).takeWhile (· != 0)) = [word] ↔ IsPadded word := by
  obtain ⟨front, tail, hbytes, -, htake, hdrop⟩ := exists_front h
  have hlength : front.length + (tail.length + 1) = 4 := by
    rw [← List.length_cons (a := 0), ← List.length_append, ← hbytes]
    rfl
  have hcount : (encode front).length = 1 := by
    rw [length_encode, count, Nat.div_eq_of_lt (by omega)]
  obtain ⟨last, hlast⟩ := List.length_eq_one_iff.mp hcount
  have hpadded : wordBytes last = front ++ List.replicate (tail.length + 1) 0 := by
    have hlengths : 4 - front.length % 4 = tail.length + 1 := by omega
    rw [← List.flatMap_singleton (f := wordBytes), ← hlast, flatMap_wordBytes_encode, hlengths]
  rw [IsPadded, and_iff_right h, htake, hdrop, hlast, List.singleton_inj]
  constructor
  · rintro rfl
    rw [hbytes, List.append_cancel_left_eq] at hpadded
    rw [hpadded]
    exact fun b hb ↦ List.eq_of_mem_replicate hb
  · intro hzero
    apply wordBytes_inj
    rw [hpadded, hbytes]
    exact congrArg (front ++ ·) (List.eq_replicate_of_mem hzero).symm

/-- The words that were read are those of the string that was read just if the last of them is
filled up. -/
theorem encode_decodeFront_iff (words : List UInt32) :
    encode (decodeFront (words.map .imm)).1 = words.take (decodeFront (words.map .imm)).2 ↔
      ∃ word ∈ (words.take (decodeFront (words.map .imm)).2).getLast?, IsPadded word := by
  induction words with
  | nil => simp [decodeFront, encode]
  | cons word words ih =>
    rw [List.map_cons]
    by_cases h : 0 ∈ wordBytes word
    · rw [decodeFront_of_mem h, List.take_succ_cons, List.take_zero, encode_takeWhile_eq_iff h]
      simp
    · rw [decodeFront_of_notMem h, encode_wordBytes_append, List.take_succ_cons,
        List.cons_inj_right, ih]
      -- a word without zero bytes is no last word, so the last one is among those after it
      cases words.take (decodeFront (words.map .imm)).2 with
      | nil => simp [IsPadded, h]
      | cons next more => rw [List.getLast?_cons_cons]

/-- A string without zero bytes is read back from its words, which are one more than it has whole
words of bytes, whatever operands stand before and after them.  Words are read alike by themselves
and as operands, and they are the words of the string that is read just if the last one that is
taken holds a zero byte and only zero bytes from there on. -/
theorem strings_delimit_themselves :
    (∀ bytes : List UInt8, 0 ∉ bytes →
      (encode bytes).length = bytes.length / 4 + 1 ∧ decode (encode bytes) = bytes ∧
        ∀ before after : List Operand,
          decodeFront ((before ++ (encode bytes).map Operand.imm ++ after).drop before.length) =
            (bytes, bytes.length / 4 + 1)) ∧
      ∀ words : List UInt32, ∃ taken, decodeFront (words.map .imm) = (decode words, taken) ∧
        (encode (decode words) = words.take taken ↔
          ∃ word ∈ (words.take taken).getLast?, IsPadded word) := by
  constructor
  · intro bytes hzero
    have hfront : ∀ after, decodeFront ((encode bytes).map Operand.imm ++ after) =
        (bytes, bytes.length / 4 + 1) := by
      intro after
      rw [decodeFront_encode fun b hb heq ↦ hzero (heq ▸ hb), length_encode, count]
    refine ⟨length_encode bytes, ?_, fun before after ↦ ?_⟩
    · rw [← decodeFront_map_imm, ← List.append_nil ((encode bytes).map _), hfront]
    · rw [List.append_assoc, List.drop_left, hfront]
  · intro words
    refine ⟨(decodeFront (words.map .imm)).2, ?_, ?_⟩
    · rw [← decodeFront_map_imm]
    · rw [← decodeFront_map_imm]
      exact encode_decodeFront_iff words

/-- A string of one whole word of bytes takes a second word, between two registers. -/
theorem strings_delimit_themselves_main :
    0 ∉ Text.bytes "main" ∧
      decodeFront ([.reg ⟨0⟩, .imm 0x6e69616d, .imm 0, .reg ⟨1⟩].drop 1) =
        (Text.bytes "main", 2) := by
  have hzero : 0 ∉ Text.bytes "main" := by decide
  exact ⟨hzero, (strings_delimit_themselves.1 _ hzero).2.2 [.reg ⟨0⟩] [.reg ⟨1⟩]⟩

end StringWords

end SpirvText

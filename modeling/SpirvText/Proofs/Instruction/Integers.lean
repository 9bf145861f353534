import SpirvText.Proofs.Instruction.RoundTrip

/-!
# Integer constants

An integer constant is read just if its type has a width that literals are stored in and its number
fits that width, with or without a sign; what is stored is the number modulo the power of two.  The
test for the range can be made in arithmetic of 128 bits, the numbers that a source can hold, and
no step of it overflows (`Checked.integerFits?_eq`).
-/

namespace SpirvText

/-! ## The words of a number -/

namespace LiteralWords

def widths : List UInt32 := [1, 8, 16, 32, 64]

/-- A width that no literal is stored in is refused. -/
theorem ofBits_of_notMem {width : UInt32} (h : width ∉ widths) (bits : UInt64) :
    ofBits bits width = .error (.unsupportedWidth width) := by
  simp only [widths, List.mem_cons, List.not_mem_nil, or_false, not_or] at h
  obtain ⟨h1, h8, h16, h32, h64⟩ := h
  simp [ofBits, h1, h8, h16, h32, h64]

/-- Up to 32 bits one word holds the low bits of a value. -/
theorem exists_ofBits_one {width : UInt32}
    (h : width = 1 ∨ width = 8 ∨ width = 16 ∨ width = 32) (bits : UInt64) :
    ∃ word, ofBits bits width = .ok (one word) ∧
      (one word).toNat = bits.toNat % 2 ^ width.toNat := by
  have hlt : bits.toNat % 2 ^ width.toNat < 2 ^ 32 := by
    apply Nat.lt_of_lt_of_le (Nat.mod_lt _ (Nat.two_pow_pos _))
    apply Nat.pow_le_pow_right (by decide)
    rcases h with rfl | rfl | rfl | rfl <;> decide
  have hword : (UInt32.ofNat (bits.toNat % 2 ^ width.toNat)).toNat =
      bits.toNat % 2 ^ width.toNat := by
    rw [UInt32.toNat_ofNat', Nat.mod_eq_of_lt hlt]
  exact ⟨_, ofBits_one h hword.symm, hword⟩

/-- Two words hold all of 64 bits. -/
theorem exists_ofBits_two (bits : UInt64) :
    ∃ low high, ofBits bits 64 = .ok (two low high) ∧ (two low high).toNat = bits.toNat := by
  have hbits := bits.toNat_lt
  have hwords : bits.toNat =
      (two (.ofNat (bits.toNat % 2 ^ 32)) (.ofNat (bits.toNat / 2 ^ 32))).toNat := by
    rw [toNat, UInt32.toNat_ofNat', UInt32.toNat_ofNat']
    omega
  exact ⟨_, _, ofBits_two hwords, hwords.symm⟩

/-- The words of a literal hold the low bits of its value, one word up to 32 bits and two for
64. -/
theorem exists_ofBits {width : UInt32} (h : width ∈ widths) (bits : UInt64) :
    ∃ words, ofBits bits width = .ok words ∧ words.toNat = bits.toNat % 2 ^ width.toNat ∧
      words.toList.length = if width ≤ 32 then 1 else 2 := by
  by_cases h64 : width = 64
  · subst h64
    obtain ⟨low, high, hwords, hnat⟩ := exists_ofBits_two bits
    exact ⟨_, hwords, hnat.trans (Nat.mod_eq_of_lt bits.toNat_lt).symm, rfl⟩
  · have hone : width = 1 ∨ width = 8 ∨ width = 16 ∨ width = 32 := by
      simpa [widths, h64] using h
    obtain ⟨word, hwords, hnat⟩ := exists_ofBits_one hone bits
    have hle : width ≤ 32 := by
      rcases hone with rfl | rfl | rfl | rfl <;> decide
    exact ⟨_, hwords, hnat, (if_pos hle).symm⟩

end LiteralWords

/-! ## The range of a type -/

namespace ScalarType

/-- An integer fits a width if it does with a sign or without. -/
theorem integerFits_iff {width : UInt32} (h : width ∈ LiteralWords.widths) (v : Int) :
    integerFits width v = true ↔ -2 ^ (width.toNat - 1) ≤ v ∧ v ≤ 2 ^ width.toNat - 1 := by
  simp only [LiteralWords.widths, List.mem_cons, List.not_mem_nil, or_false] at h
  rcases h with rfl | rfl | rfl | rfl | rfl <;> simp [integerFits] <;> omega

end ScalarType

namespace Supply

/-- The low 64 bits of a number have the same remainders as the number. -/
theorem toNat_mod_ofNat_emod {k : Nat} (hk : k ≤ 64) (v : Int) :
    (((UInt64.ofNat (v % 2 ^ 64).toNat).toNat % 2 ^ k : Nat) : Int) = v % 2 ^ k := by
  have hbits : ((UInt64.ofNat (v % 2 ^ 64).toNat).toNat : Int) = v % 2 ^ 64 := by
    rw [UInt64.toNat_ofNat']
    omega
  rw [Int.natCast_emod, hbits, Int.natCast_pow]
  exact Int.emod_emod_of_dvd v (pow_dvd_pow 2 hk)

/-- An integer token stands for a literal just if it fits the width, and then for its two's
complement. -/
theorem literalOf_integer_eq_ok {width : UInt32} {v : Int} {line : Nat} {value : Literal} :
    literalOf (.integer width) ⟨.int v, line⟩ = .ok value ↔
      ScalarType.integerFits width v = true ∧
        LiteralWords.ofBits (.ofNat (v % 2 ^ 64).toNat) width = .ok value.words ∧
        value.form = Literal.integerForm width := by
  constructor
  · intro h
    simp only [literalOf] at h
    split at h
    · next hfits =>
      obtain ⟨words, hwords, hvalue⟩ := bind_eq_ok.mp (mapError_eq_ok.mp h)
      cases hvalue
      exact ⟨hfits, hwords, rfl⟩
    · cases h
  · obtain ⟨words, form⟩ := value
    rintro ⟨hfits, hwords, rfl⟩
    exact ScalarType.literalOf_integer hfits hwords line

/-- A number is read as a constant of an integer type just if the type has a width that literals are
stored in, and the number is in its range. -/
theorem exists_literalOf_integer_iff {width : UInt32} {v : Int} (line : Nat) :
    (∃ value, literalOf (.integer width) ⟨.int v, line⟩ = .ok value) ↔
      width ∈ LiteralWords.widths ∧ -2 ^ (width.toNat - 1) ≤ v ∧ v ≤ 2 ^ width.toNat - 1 := by
  by_cases hwidth : width ∈ LiteralWords.widths
  · rw [and_iff_right hwidth, ← ScalarType.integerFits_iff hwidth]
    constructor
    · rintro ⟨value, hvalue⟩
      exact (literalOf_integer_eq_ok.mp hvalue).1
    · intro hfits
      obtain ⟨words, hwords, -⟩ :=
        LiteralWords.exists_ofBits hwidth (.ofNat (v % 2 ^ 64).toNat)
      exact ⟨_, ScalarType.literalOf_integer hfits hwords line⟩
  · refine iff_of_false ?_ fun h ↦ hwidth h.1
    rintro ⟨value, hvalue⟩
    obtain ⟨-, hwords, -⟩ := literalOf_integer_eq_ok.mp hvalue
    rw [LiteralWords.ofBits_of_notMem hwidth] at hwords
    cases hwords

/-- What is stored for a number is its remainder. -/
theorem toNat_words_of_literalOf {width : UInt32} {v : Int} {line : Nat} {value : Literal}
    (h : literalOf (.integer width) ⟨.int v, line⟩ = .ok value) :
    (value.words.toNat : Int) = v % 2 ^ width.toNat ∧
      (value.words.toList.length = if width ≤ 32 then 1 else 2) ∧
      (value.form = .bits16 ↔ width = 16) := by
  have hwidth := ((exists_literalOf_integer_iff line).mp ⟨value, h⟩).1
  have hle : width.toNat ≤ 64 := by
    simp only [LiteralWords.widths, List.mem_cons, List.not_mem_nil, or_false] at hwidth
    rcases hwidth with rfl | rfl | rfl | rfl | rfl <;> decide
  obtain ⟨-, hwords, hform⟩ := literalOf_integer_eq_ok.mp h
  obtain ⟨words, hwords', hnat, hlength⟩ :=
    LiteralWords.exists_ofBits hwidth (.ofNat (v % 2 ^ 64).toNat)
  obtain rfl : words = value.words := Except.ok.inj (hwords'.symm.trans hwords)
  refine ⟨?_, hlength, ?_⟩
  · rw [hnat, toNat_mod_ofNat_emod hle]
  · rw [hform, Literal.integerForm]
    by_cases h16 : width = 16 <;> simp [h16]

end Supply

/-! ## In 128 bits -/

namespace Checked

/-- One shifted to the left in 128 bits, by fewer places than there are bits. -/
def shiftOne? (places : Nat) : Option (BitVec 128) :=
  if places < 128 then some (1#128 <<< places) else none

def neg? (x : BitVec 128) : Option (BitVec 128) :=
  if x.negOverflow then none else some (-x)

def sub? (x y : BitVec 128) : Option (BitVec 128) :=
  if x.ssubOverflow y then none else some (x - y)

/-- The least and the greatest integer of a width below 64. -/
def integerRange? (width : UInt32) : Option (BitVec 128 × BitVec 128) := do
  let least ← neg? (← shiftOne? (max width.toNat 1 - 1))
  let greatest ← sub? (← shiftOne? width.toNat) 1#128
  return (least, greatest)

/-- Whether an integer of the given width can be `v`, by arithmetic of 128 bits.  There is no
answer if a step overflows. -/
def integerFits? (width : UInt32) (v : BitVec 128) : Option Bool :=
  if width == 64 then
    some ((BitVec.ofInt 128 (-2 ^ 63)).sle v && v.sle (BitVec.ofInt 128 (2 ^ 64 - 1)))
  else if width < 64 then do
    let (least, greatest) ← integerRange? width
    return least.sle v && v.sle greatest
  else some true

theorem exists_shiftOne? {k : Nat} (hk : k < 64) :
    ∃ x, shiftOne? k = some x ∧ x.toInt = 2 ^ k := by
  refine ⟨1#128 <<< k, if_pos (by omega), ?_⟩
  rw [← BitVec.twoPow_eq, BitVec.toInt_twoPow, if_neg (by omega), if_neg (by omega)]

theorem exists_neg? {x : BitVec 128} (hx : 0 ≤ x.toInt) :
    ∃ y, neg? x = some y ∧ y.toInt = -x.toInt := by
  have hfits : ¬ x.negOverflow = true := by
    simp [BitVec.negOverflow]
    omega
  exact ⟨-x, if_neg hfits, BitVec.toInt_neg_of_not_negOverflow hfits⟩

theorem exists_sub?_one {x : BitVec 128} (hx : 0 ≤ x.toInt) :
    ∃ y, sub? x 1#128 = some y ∧ y.toInt = x.toInt - 1 := by
  have hlt := x.toInt_lt
  have hfits : ¬ x.ssubOverflow 1#128 = true := by
    simp [BitVec.ssubOverflow]
    omega
  exact ⟨x - 1#128, if_neg hfits, BitVec.toInt_sub_of_not_ssubOverflow hfits⟩

/-- The bounds of a width below 64 are worked out without overflow. -/
theorem exists_integerRange? {width : UInt32} (h : width.toNat < 64) :
    ∃ least greatest, integerRange? width = some (least, greatest) ∧
      least.toInt = -2 ^ (max width.toNat 1 - 1) ∧ greatest.toInt = 2 ^ width.toNat - 1 := by
  obtain ⟨x, hx, hxInt⟩ := exists_shiftOne? (k := max width.toNat 1 - 1) (by omega)
  obtain ⟨y, hy, hyInt⟩ := exists_shiftOne? h
  obtain ⟨least, hleast, hleastInt⟩ := exists_neg? (hxInt ▸ Int.pow_nonneg (by decide))
  obtain ⟨greatest, hgreatest, hgreatestInt⟩ := exists_sub?_one (hyInt ▸ Int.pow_nonneg (by decide))
  refine ⟨least, greatest, ?_, by rw [hleastInt, hxInt], by rw [hgreatestInt, hyInt]⟩
  simp [integerRange?, hx, hy, hleast, hgreatest]

/-- No step of the test overflows, and its answer is that of unbounded arithmetic. -/
theorem integerFits?_eq (width : UInt32) (v : BitVec 128) :
    integerFits? width v = some (ScalarType.integerFits width v.toInt) := by
  unfold integerFits? ScalarType.integerFits
  split
  · have hleast : (BitVec.ofInt 128 (-2 ^ 63)).toInt = -2 ^ 63 := rfl
    have hgreatest : (BitVec.ofInt 128 (2 ^ 64 - 1)).toInt = 2 ^ 64 - 1 := rfl
    simp only [BitVec.sle_eq_decide, hleast, hgreatest, Int.le_sub_one_iff]
  split
  · next h =>
    obtain ⟨least, greatest, hrange, hleast, hgreatest⟩ :=
      exists_integerRange? (UInt32.lt_iff_toNat_lt.mp h)
    rw [hrange]
    show some (least.sle v && v.sle greatest) = _
    simp only [BitVec.sle_eq_decide, hleast, hgreatest, Int.le_sub_one_iff]
  · rfl

end Checked

/-! ## Lines that define constants -/

theorem Supply.reg_ofLine {t : Located} {number : UInt32} {r : Reg} (ht : t.token = .id number)
    (hr : Reg.ofNumber? number = some r) (types : List (Reg × ScalarType)) (line : Nat)
    (stop : Located) : (ofLine types line stop).reg t = .ok r := by
  simp only [ofLine, ht]
  exact regOf_eq_ok.mpr hr

namespace Instruction

/-- A line that defines a constant is read by the type of the constant, and leaves the context as
it is. -/
theorem read_opConstant_eq_ok {context after : ReadContext} {first second third fourth stop : Located}
    {a b : UInt32} {type result : Reg} {i : Instruction}
    (hfirst : first.token = .ident Opcode.opConstant.mnemonic) (hsecond : second.token = .id a)
    (hthird : third.token = .id b) (ha : Reg.ofNumber? a = some type)
    (hb : Reg.ofNumber? b = some result) :
    (read context first [second, third, fourth] stop).result = .ok (i, after) ↔
      ∃ scalar value, context.types.lookup type = some scalar ∧
        Supply.literalOf scalar fourth = .ok value ∧ i = value.define type result ∧
        after = context := by
  have htype := Supply.reg_ofLine hsecond ha context.types 0 stop
  have hresult := Supply.reg_ofLine hthird hb context.types 0 stop
  have hopcode := opcodeOf_eq_ok hfirst
  rw [read_eq_ok]
  constructor
  · rintro ⟨opcode, fields, hopcode', hlaid, rfl, rfl⟩
    obtain rfl : .opConstant = opcode := Except.ok.inj (hopcode.symm.trans hopcode')
    obtain ⟨item, item', items, type', result', value, hitems, htype', hresult', hvalue, rfl⟩ :=
      Supply.layOut_opConstant_eq_ok.mp hlaid
    cases hitems
    obtain rfl : type = type' := Except.ok.inj (htype.symm.trans htype')
    obtain rfl : result = result' := Except.ok.inj (hresult.symm.trans hresult')
    obtain ⟨scalar, t, hscalar, hitems, hliteral⟩ := Supply.constant_ofLine_eq_ok.mp hvalue
    cases hitems
    rw [ofFields_constant]
    exact ⟨scalar, value, hscalar, hliteral, rfl, rfl⟩
  · rintro ⟨scalar, value, hscalar, hliteral, rfl, rfl⟩
    refine ⟨.opConstant, [.reg type, .reg result, .constant value], hopcode, ?_, ?_, ?_⟩
    · refine Supply.layOut_opConstant_eq_ok.mpr
        ⟨second, third, [fourth], type, result, value, rfl, htype, hresult, ?_, rfl⟩
      exact Supply.constant_ofLine_eq_ok.mpr ⟨scalar, fourth, hscalar, rfl, hliteral⟩
    · exact (ofFields_constant type result value).symm
    · rfl

/-- A number is read as a constant of an integer type just if the type has 1, 8, 16, 32 or 64 bits,
and the number is in the range of that many bits with or without a sign.  The words that are stored
make up the remainder of the number modulo the power of two.  The range is found without an overflow
in arithmetic of 128 bits. -/
theorem integer_constant_stored_exactly (context : ReadContext) {a b width : UInt32}
    {type result : Reg} (ha : Reg.ofNumber? a = some type) (hb : Reg.ofNumber? b = some result)
    (hwidth : context.types.lookup type = some (.integer width)) (v : BitVec 128) (line : Nat)
    (stop : Located) :
    let reading := (read context ⟨.ident "OpConstant", line⟩
      [⟨.id a, line⟩, ⟨.id b, line⟩, ⟨.int v.toInt, line⟩] stop).result
    ((∃ i after, reading = .ok (i, after)) ↔ width ∈ [1, 8, 16, 32, 64] ∧
        -2 ^ (width.toNat - 1) ≤ v.toInt ∧ v.toInt ≤ 2 ^ width.toNat - 1) ∧
      (∀ i after, reading = .ok (i, after) → ∃ words : LiteralWords, i.opcode = .opConstant ∧
        i.operands = .reg type :: .reg result :: words.toList.map .imm ∧
        (words.toNat : Int) = v.toInt % 2 ^ width.toNat ∧
        (words.toList.length = if width ≤ 32 then 1 else 2) ∧ (i.form = .bits16 ↔ width = 16)) ∧
      Checked.integerFits? width v = some (ScalarType.integerFits width v.toInt) := by
  intro reading
  have hread : ∀ i after, reading = .ok (i, after) ↔ ∃ value,
      Supply.literalOf (.integer width) ⟨.int v.toInt, line⟩ = .ok value ∧
        i = value.define type result ∧ after = context := by
    intro i after
    rw [read_opConstant_eq_ok (a := a) (b := b) rfl rfl rfl ha hb, hwidth]
    simp
  refine ⟨?_, ?_, Checked.integerFits?_eq width v⟩
  · rw [← LiteralWords.widths, ← Supply.exists_literalOf_integer_iff line]
    constructor
    · rintro ⟨i, after, hi⟩
      obtain ⟨value, hvalue, -⟩ := (hread i after).mp hi
      exact ⟨value, hvalue⟩
    · rintro ⟨value, hvalue⟩
      exact ⟨_, _, (hread _ _).mpr ⟨value, hvalue, rfl, rfl⟩⟩
  · intro i after hi
    obtain ⟨value, hvalue, rfl, -⟩ := (hread i after).mp hi
    obtain ⟨hnat, hlength, hform⟩ := Supply.toNat_words_of_literalOf hvalue
    exact ⟨value.words, rfl, rfl, hnat, hlength, hform⟩

/-- The least number of 64 bits is read. -/
theorem integer_constant_stored_exactly_least :
    (BitVec.ofInt 128 (-2 ^ 63)).toInt = -2 ^ 63 ∧
      ∃ i after, (read ⟨.empty, [(⟨0⟩, .integer 64)]⟩ ⟨.ident "OpConstant", 2⟩
        [⟨.id 1, 2⟩, ⟨.id 2, 2⟩, ⟨.int (BitVec.ofInt 128 (-2 ^ 63)).toInt, 2⟩] ⟨.eof, 2⟩).result =
          .ok (i, after) := by
  have hv : (BitVec.ofInt 128 (-2 ^ 63)).toInt = -2 ^ 63 := by decide
  obtain ⟨hread, -⟩ := integer_constant_stored_exactly ⟨.empty, [(⟨0⟩, .integer 64)]⟩ (a := 1)
    (b := 2) rfl rfl rfl (BitVec.ofInt 128 (-2 ^ 63)) 2 ⟨.eof, 2⟩
  refine ⟨hv, hread.mpr ⟨by decide, ?_⟩⟩
  rw [hv]
  decide

end Instruction

end SpirvText

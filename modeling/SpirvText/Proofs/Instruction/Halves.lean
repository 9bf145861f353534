import SpirvText.Proofs.Instruction.Integers
import SpirvText.Proofs.Number.TwoRoundings

/-!
# Floating-point constants of 16 bits

A number is stored in 16 bits by way of 32, whether the constant is built or read from a line.  The
two roundings together are one correct rounding, but for the numbers that 32 bits do not tell from a
tie (`Instruction.half_constant_correctly_rounded_iff`).
-/

namespace SpirvText

namespace Binary64

/-- A finite number is rounded to 32 bits, and keeps its sign. -/
theorem sign_magnitude_toBinary32 {x : Binary64} (hx : x.isFinite = true) :
    Format.single.sign x.toBinary32.bits.toNat = Format.double.sign x.bits.toNat ∧
      Format.single.CorrectlyRounded (Format.double.value x.magnitude)
        (Format.single.magnitude x.toBinary32.bits.toNat) := by
  have hpayload : Format.single.infinity + Format.single.quietBit +
      x.bits.toNat % 2 ^ 51 / 2 ^ 29 < Format.single.signBit := by
    have hsum : Format.single.infinity + Format.single.quietBit + 2 ^ 22 =
      Format.single.signBit := rfl
    omega
  obtain ⟨single, hlt, hbits, -, -, hrounded⟩ := Format.exists_convert Format.proper_double
    Format.proper_single hpayload x.bits.toNat
  have hsingle : x.toBinary32.bits.toNat =
      Format.double.sign x.bits.toNat * Format.single.signBit + single := by
    have hsign := Format.double.sign_le_one x.bits.toNat_lt
    rw [toBinary32, hbits]
    exact UInt32.toNat_ofNat_of_lt' (Format.single.mul_add_lt hsign hlt)
  rw [hsingle, Format.sign_mul_add _ hlt, Format.magnitude_mul_add _ hlt]
  exact ⟨rfl, hrounded (of_decide_eq_true hx)⟩

/-- What is stored in 16 bits is the number of 32 bits rounded once more, also where that is
infinite. -/
theorem sign_magnitude_toHalf {x : Binary64} (hx : x.isFinite = true) :
    Format.half.sign x.toBinary32.toHalf.toNat = Format.double.sign x.bits.toNat ∧
      Format.half.CorrectlyRounded
        (Format.single.value (Format.single.magnitude x.toBinary32.bits.toNat))
        (Format.half.magnitude x.toBinary32.toHalf.toNat) := by
  obtain ⟨hsign, hrounded⟩ := sign_magnitude_toBinary32 hx
  obtain ⟨hsign', -, hinfinite, hfinite⟩ := x.toBinary32.sign_magnitude_toHalf
  refine ⟨hsign'.trans hsign, ?_⟩
  have hmem := ((Format.correctlyRounded_iff Format.proper_single).mp hrounded).mem
  rcases Nat.lt_or_eq_of_le hmem with hlt | heq
  · exact hfinite hlt
  · rw [heq, hinfinite heq]
    exact Format.splits_half_single.correctlyRounded_infinity Format.proper_half
      Format.proper_single

end Binary64

/-- A constant of 16 bits holds a number that has been rounded twice. -/
theorem Literal.ofFloat_sixteen (v : Binary64) :
    ofFloat v 16 = .ok ⟨.one v.toBinary32.toHalf.toUInt32, .bits16⟩ := by
  have hbits : v.toBinary32.toHalf.toUInt64.toNat % 2 ^ (16 : UInt32).toNat =
      v.toBinary32.toHalf.toUInt32.toNat := by
    have := v.toBinary32.toHalf.toNat_lt
    simp
  have hwords := LiteralWords.ofBits_one (.inr (.inr (.inl rfl))) hbits
  simp only [ofFloat, hwords]
  rfl

namespace Instruction

/-- A finite number is stored in 16 bits as the same word whether it is built or read, and keeps its
sign.  The nearest number of 32 bits comes in between.  The word is correctly rounded unless that
number stands half way between two neighbours, with the number on one side of it and the word on the
other. -/
theorem half_constant_correctly_rounded_iff {v : Binary64} (hv : v.isFinite = true)
    (type result : Reg) :
    ∃ word : UInt32,
      (Literal.define · type result) <$> Literal.ofFloat v 16 =
        .ok ⟨.opConstant, [.reg type, .reg result, .imm word], .bits16⟩ ∧
      (∀ (context : ReadContext) (a b : UInt32) (line : Nat) (stop : Located),
        Reg.ofNumber? a = some type → Reg.ofNumber? b = some result →
        context.types.lookup type = some (.float 16) →
        (read context ⟨.ident "OpConstant", line⟩
          [⟨.id a, line⟩, ⟨.id b, line⟩, ⟨.float v, line⟩] stop).result =
          .ok (⟨.opConstant, [.reg type, .reg result, .imm word], .bits16⟩, context)) ∧
      word.toNat < 2 ^ 16 ∧ Format.half.sign word.toNat = Format.double.sign v.bits.toNat ∧
      Format.single.CorrectlyRounded (Format.double.value v.magnitude)
        (Format.single.magnitude v.toBinary32.bits.toNat) ∧
      (Format.half.CorrectlyRounded (Format.double.value v.magnitude)
          (Format.half.magnitude word.toNat) ↔
        ¬ Format.half.Misleads
          (Format.single.value (Format.single.magnitude v.toBinary32.bits.toNat))
          (Format.double.value v.magnitude) (Format.half.magnitude word.toNat)) := by
  have hliteral := Literal.ofFloat_sixteen v
  obtain ⟨hsign, hhalf⟩ := Binary64.sign_magnitude_toHalf hv
  obtain ⟨-, hsingle⟩ := Binary64.sign_magnitude_toBinary32 hv
  refine ⟨v.toBinary32.toHalf.toUInt32, ?_, ?_, ?_, hsign, hsingle, ?_⟩
  · rw [hliteral]
    rfl
  · intro context a b line stop ha hb htype
    refine (read_opConstant_eq_ok rfl rfl rfl ha hb).mpr
      ⟨_, ⟨.one v.toBinary32.toHalf.toUInt32, .bits16⟩, htype, ?_, rfl, rfl⟩
    simp only [Supply.literalOf, hliteral]
    rfl
  · exact v.toBinary32.toHalf.toNat_lt
  · exact Format.splits_half_single.correctlyRounded_iff Format.proper_half Format.proper_single
      hsingle hhalf

/-- A number that has 32 bits is rounded once, and a tie goes to the even word. -/
theorem half_constant_correctly_rounded_iff_tie :
    Binary64.isFinite ⟨0x3ff0060000000000⟩ = true ∧
      ∃ word : UInt32,
        (Literal.define · ⟨0⟩ ⟨1⟩) <$> Literal.ofFloat ⟨0x3ff0060000000000⟩ 16 =
          .ok ⟨.opConstant, [.reg ⟨0⟩, .reg ⟨1⟩, .imm word], .bits16⟩ ∧
        Format.half.CorrectlyRounded (1 + 3 / 2 ^ 11) (Format.half.magnitude word.toNat) := by
  have hv : Binary64.isFinite ⟨0x3ff0060000000000⟩ = true := by decide
  have hdouble : Binary64.magnitude ⟨0x3ff0060000000000⟩ = 0x3ff0060000000000 := rfl
  have hsingle : Format.single.magnitude
      (Binary64.toBinary32 ⟨0x3ff0060000000000⟩).bits.toNat = 0x3f803000 := by decide +kernel
  have hvalue : Format.double.value 0x3ff0060000000000 = 1 + 3 / 2 ^ 11 := by
    norm_num [Format.value, Format.significand, Format.bias, Format.double]
  have hvalue' : Format.single.value 0x3f803000 = 1 + 3 / 2 ^ 11 := by
    norm_num [Format.value, Format.significand, Format.bias, Format.single]
  obtain ⟨word, hword, -, -, -, -, hiff⟩ := half_constant_correctly_rounded_iff hv ⟨0⟩ ⟨1⟩
  rw [hdouble, hsingle, hvalue, hvalue'] at hiff
  refine ⟨hv, word, hword, hiff.mpr fun h ↦ ?_⟩
  rcases h.between with ⟨hlt, -⟩ | ⟨-, hlt⟩ <;> exact lt_irrefl _ hlt

/-- A number a little above half way between two neighbours is rounded to just half way in 32 bits,
and from there down. -/
theorem not_correctlyRounded_aboveTie :
    Binary64.isFinite ⟨0x3ff0020000001000⟩ = true ∧
      Literal.ofFloat ⟨0x3ff0020000001000⟩ 16 = .ok ⟨.one 0x3c00, .bits16⟩ ∧
      ¬ Format.half.CorrectlyRounded
        (Format.double.value (Binary64.magnitude ⟨0x3ff0020000001000⟩)) 0x3c00 := by
  refine ⟨by decide, by decide +kernel, fun h ↦ ?_⟩
  have hdouble : Binary64.magnitude ⟨0x3ff0020000001000⟩ = 0x3ff0020000001000 := rfl
  have hvalue : Format.double.value 0x3ff0020000001000 = 1 + 1 / 2 ^ 11 + 1 / 2 ^ 40 := by
    norm_num [Format.value, Format.significand, Format.bias, Format.double]
  have hbelow : Format.half.value 0x3c00 = 1 := by
    norm_num [Format.value, Format.significand, Format.bias, Format.half]
  have habove : Format.half.value 0x3c01 = 1 + 1 / 2 ^ 10 := by
    norm_num [Format.value, Format.significand, Format.bias, Format.half]
  rw [hdouble, hvalue] at h
  have hlimit : (1 + 1 / 2 ^ 11 + 1 / 2 ^ 40 : ℚ) < Format.half.limit := by
    rw [Format.limit_half]
    norm_num
  have hle := (h.finite hlimit).le 0x3c01 (by decide)
  rw [hbelow, habove, le_iff_le_of_cmp_eq_cmp (Format.cmp_abs_sub (by norm_num))] at hle
  norm_num at hle

end Instruction

end SpirvText

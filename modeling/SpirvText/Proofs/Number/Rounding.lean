import Mathlib.Tactic.Ring
import SpirvText.Binary

/-!
# Rounding to a binary format

A finite pattern is an exponent `e` and a significand `b`, and stands for `b * 2 ^ e` units.
Rounding finds the pattern of a number that has one (`round_units`), and a number of a narrow format
has a pattern in a wide one (`exists_widened`), so that converting to the wide format and back
changes nothing (`convert_convert`).
-/

namespace SpirvText

theorem roundDiv_mul_right (n d : Nat) {k : Nat} (hk : 0 < k) :
    roundDiv (n * k) (d * k) = roundDiv n d := by
  have hlt : ∀ a b : Nat, a * k < b * k ↔ a < b := fun a b ↦ Nat.mul_lt_mul_right hk
  rw [roundDiv, Nat.mul_mod_mul_right, Nat.mul_div_mul_right _ _ hk, ← Nat.mul_assoc]
  simp only [hlt]
  rfl

theorem roundDiv_mul_self (q : Nat) {d : Nat} (hd : 0 < d) : roundDiv (q * d) d = q := by
  simp [roundDiv, Nat.mul_div_cancel q hd, hd]

namespace Format

variable (f : Format)

theorem infinity_lt_signBit : f.infinity < f.signBit := by
  rw [infinity, signBit, Nat.pow_add]
  refine Nat.mul_lt_mul_of_pos_right ?_ (Nat.two_pow_pos _)
  exact Nat.sub_lt (Nat.two_pow_pos _) Nat.one_pos

/-- A sign and what is below it fit into the bits of a format. -/
theorem mul_add_lt (f : Format) {sign magnitude : Nat} (hsign : sign ≤ 1)
    (h : magnitude < f.signBit) : sign * f.signBit + magnitude < 2 * f.signBit := by
  have hle := Nat.mul_le_mul_right f.signBit hsign
  omega

variable {f} in
/-- A sign and what is below it can be told apart. -/
theorem sign_div_mod (sign : Nat) {magnitude : Nat} (h : magnitude < f.signBit) :
    (sign * f.signBit + magnitude) / f.signBit = sign ∧
      (sign * f.signBit + magnitude) % f.signBit = magnitude := by
  have hpos : 0 < f.signBit := Nat.two_pow_pos _
  rw [Nat.add_comm, Nat.add_mul_div_right _ _ hpos, Nat.div_eq_of_lt h, Nat.zero_add,
    Nat.add_mul_mod_self_right, Nat.mod_eq_of_lt h]
  exact ⟨rfl, rfl⟩

/-- Only the quotient counts. -/
theorem round_mul_right (n d : Nat) {k : Nat} (hk : 0 < k) :
    f.round (n * k) (d * k) = f.round n d := by
  have hn : n * k * 2 ^ f.scale = n * 2 ^ f.scale * k := by ring
  simp only [round, hn, Nat.mul_div_mul_right _ _ hk]
  have hd : ∀ e, d * k * 2 ^ e = d * 2 ^ e * k := fun e ↦ by ring
  rw [hd, roundDiv_mul_right _ _ hk]

/-! ## Exponents and significands -/

/-- The exponent can be read off the number of bits in front of it. -/
theorem log2_sub_eq {p y e : Nat} (hfull : e ≠ 0 → 2 ^ p ≤ y / 2 ^ e)
    (hlt : y / 2 ^ e < 2 ^ (p + 1)) : y.log2 - p = e := by
  rw [Nat.div_lt_iff_lt_mul (Nat.two_pow_pos _), ← Nat.pow_add] at hlt
  by_cases he : e = 0
  · subst he
    by_cases hy : y = 0
    · simp [hy]
    · have := (Nat.log2_lt hy).mpr hlt
      omega
  · have hge := (Nat.le_div_iff_mul_le (Nat.two_pow_pos _)).mp (hfull he)
    rw [← Nat.pow_add] at hge
    have hy : y ≠ 0 := (Nat.lt_of_lt_of_le (Nat.two_pow_pos _) hge).ne'
    have hlog : y.log2 = p + e := by
      rw [Nat.log2_eq_iff hy]
      exact ⟨hge, by rwa [Nat.add_right_comm] at hlt⟩
    omega

/-- The significand `b` goes with the exponent `e`: it has all its bits, and the first of them is
set unless the exponent is the least. -/
structure Significand (e b : Nat) : Prop where
  full : e ≠ 0 → 2 ^ f.fractionBits ≤ b
  lt : b < 2 ^ (f.fractionBits + 1)

variable {f} {e b : Nat}

/-- Every pattern has a significand and an exponent that go together. -/
theorem exists_significand (f : Format) (pattern : Nat) :
    ∃ e b, f.Significand e b ∧ pattern = e * 2 ^ f.fractionBits + b := by
  have hpos := Nat.two_pow_pos f.fractionBits
  have hdiv := Nat.div_add_mod' pattern (2 ^ f.fractionBits)
  have hmod := Nat.mod_lt pattern hpos
  cases hq : pattern / 2 ^ f.fractionBits with
  | zero =>
    refine ⟨0, pattern, ⟨fun h ↦ absurd rfl h, ?_⟩, by simp⟩
    rw [hq] at hdiv
    rw [Nat.pow_succ]
    omega
  | succ e =>
    refine ⟨e, 2 ^ f.fractionBits + pattern % 2 ^ f.fractionBits,
      ⟨fun _ ↦ Nat.le_add_right _ _, ?_⟩, ?_⟩
    · rw [Nat.pow_succ]
      omega
    · rw [hq, Nat.succ_mul] at hdiv
      omega

namespace Significand

theorem units (h : f.Significand e b) :
    f.units (e * 2 ^ f.fractionBits + b) = b * 2 ^ e := by
  have hpos := Nat.two_pow_pos f.fractionBits
  have he : (e * 2 ^ f.fractionBits + b) / 2 ^ f.fractionBits - 1 = e := by
    rw [Nat.add_comm, Nat.add_mul_div_right _ _ hpos]
    have hlt := h.lt
    rw [Nat.pow_succ, Nat.mul_comm] at hlt
    have hle : b / 2 ^ f.fractionBits < 2 := Nat.div_lt_of_lt_mul (by omega)
    by_cases hzero : e = 0
    · omega
    · have hone : 1 ≤ b / 2 ^ f.fractionBits :=
        (Nat.one_le_div_iff hpos).mpr (h.full hzero)
      omega
  simp only [Format.units, he, Nat.add_sub_cancel_left]

/-- The exponent of a significand is told by the size of the number. -/
theorem log2_sub (h : f.Significand e b) : (b * 2 ^ e).log2 - f.fractionBits = e := by
  have hb : b * 2 ^ e / 2 ^ e = b := Nat.mul_div_cancel b (Nat.two_pow_pos e)
  exact log2_sub_eq (by rw [hb]; exact h.full) (by rw [hb]; exact h.lt)

/-- Rounding a number that is a significand with an exponent finds its pattern. -/
theorem round (h : f.Significand e b) :
    f.round (b * 2 ^ e) (2 ^ f.scale) = min f.infinity (e * 2 ^ f.fractionBits + b) := by
  have hpos := Nat.two_pow_pos f.scale
  have hdiv : b * 2 ^ e * 2 ^ f.scale = b * (2 ^ f.scale * 2 ^ e) := by ring
  rw [Format.round, Nat.mul_div_cancel _ hpos, h.log2_sub, hdiv,
    roundDiv_mul_self _ (Nat.mul_pos hpos (Nat.two_pow_pos e))]

/-- The patterns with small enough exponents are finite. -/
theorem lt_infinity (h : f.Significand e b) (he : e + 2 ≤ 2 ^ f.exponentBits - 1) :
    e * 2 ^ f.fractionBits + b < f.infinity := by
  have hlt := h.lt
  calc e * 2 ^ f.fractionBits + b
      < e * 2 ^ f.fractionBits + 2 ^ (f.fractionBits + 1) := Nat.add_lt_add_left hlt _
    _ = (e + 2) * 2 ^ f.fractionBits := by ring
    _ ≤ f.infinity := Nat.mul_le_mul_right _ he

end Significand

/-- Rounding finds the pattern of a number that has one. -/
theorem round_units {pattern : Nat} (h : pattern < f.infinity) :
    f.round (f.units pattern) (2 ^ f.scale) = pattern := by
  obtain ⟨e, b, hs, rfl⟩ := exists_significand f pattern
  rw [hs.units, hs.round]
  exact Nat.min_eq_right (Nat.le_of_lt h)

/-! ## Wide and narrow formats -/

/-- The format `wide` holds the numbers of `narrow`: it has the bits for their significands, and the
smallest of them has a full significand in it. -/
structure Widens (narrow wide : Format) : Prop where
  fractionBits_le : narrow.fractionBits ≤ wide.fractionBits
  scale_le : narrow.scale + wide.fractionBits ≤ wide.scale
  exponent_le :
    2 ^ narrow.exponentBits + (wide.scale - narrow.scale) ≤ 2 ^ wide.exponentBits - 1

variable {narrow wide : Format}

/-- A number other than zero can be given a full significand. -/
theorem exists_significand_mul (wide : Format) {e b : Nat} (hb : b ≠ 0)
    (hlt : b < 2 ^ (wide.fractionBits + 1)) (he : wide.fractionBits ≤ e) :
    ∃ e' b', wide.Significand e' b' ∧ e' ≤ e ∧ b' * 2 ^ e' = b * 2 ^ e := by
  have hlog : b.log2 ≤ wide.fractionBits := Nat.le_of_lt_succ ((Nat.log2_lt hb).mpr hlt)
  obtain ⟨shift, hshift⟩ := Nat.exists_eq_add_of_le hlog
  refine ⟨e - shift, b * 2 ^ shift, ⟨fun _ ↦ ?_, ?_⟩, Nat.sub_le _ _, ?_⟩
  · rw [hshift, Nat.pow_add]
    exact Nat.mul_le_mul_right _ (Nat.log2_self_le hb)
  · have hself := Nat.mul_lt_mul_of_pos_right (Nat.lt_log2_self (n := b)) (Nat.two_pow_pos shift)
    rw [hshift, Nat.add_right_comm, Nat.pow_add]
    exact hself
  · rw [Nat.mul_assoc, ← Nat.pow_add, Nat.add_sub_cancel' (by omega)]

/-- A finite number of a narrow format has a pattern in a wide one. -/
theorem Widens.exists_pattern (h : Widens narrow wide) {pattern : Nat}
    (hpattern : pattern < narrow.infinity) :
    ∃ pattern' < wide.infinity,
      wide.units pattern' = narrow.units pattern * 2 ^ (wide.scale - narrow.scale) := by
  obtain ⟨e, b, hs, rfl⟩ := exists_significand narrow pattern
  rw [hs.units, Nat.mul_assoc, ← Nat.pow_add]
  have hscale := h.scale_le
  have hwide := h.exponent_le
  have he : e < 2 ^ narrow.exponentBits - 1 := by
    refine Nat.lt_of_mul_lt_mul_right (a := 2 ^ narrow.fractionBits) ?_
    exact Nat.lt_of_le_of_lt (Nat.le_add_right _ _) hpattern
  by_cases hb : b = 0
  · refine ⟨0, ?_, by simp [Format.units, hb]⟩
    exact Nat.mul_pos (by omega) (Nat.two_pow_pos _)
  · have hlt : b < 2 ^ (wide.fractionBits + 1) := Nat.lt_of_lt_of_le hs.lt
      (Nat.pow_le_pow_right (by decide) (Nat.succ_le_succ h.fractionBits_le))
    obtain ⟨e', b', hs', he', hvalue⟩ := exists_significand_mul wide
      (e := e + (wide.scale - narrow.scale)) hb hlt (by omega)
    refine ⟨e' * 2 ^ wide.fractionBits + b', hs'.lt_infinity (by omega), ?_⟩
    rw [hs'.units, hvalue]

/-- A number that is rounded to a wider format is finite there, and is rounded back to itself. -/
theorem Widens.exists_round (h : Widens narrow wide) {pattern : Nat}
    (hpattern : pattern < narrow.infinity) :
    ∃ pattern' < wide.infinity,
      wide.round (narrow.units pattern) (2 ^ narrow.scale) = pattern' ∧
        narrow.round (wide.units pattern') (2 ^ wide.scale) = pattern := by
  obtain ⟨pattern', hpattern', hunits⟩ := h.exists_pattern hpattern
  have hscale : 2 ^ wide.scale = 2 ^ narrow.scale * 2 ^ (wide.scale - narrow.scale) := by
    have hle := h.scale_le
    rw [← Nat.pow_add, Nat.add_sub_cancel' (by omega)]
  have hpos := Nat.two_pow_pos (wide.scale - narrow.scale)
  refine ⟨pattern', hpattern', ?_, ?_⟩
  · rw [← round_mul_right wide _ _ hpos, ← hunits, ← hscale, round_units hpattern']
  · rw [hunits, hscale, round_mul_right narrow _ _ hpos, round_units hpattern]

theorem convert_of_lt (source target : Format) (nan sign : Nat) {magnitude : Nat}
    (h : magnitude < source.infinity) :
    source.convert target nan (sign * source.signBit + magnitude) =
      sign * target.signBit + target.round (source.units magnitude) (2 ^ source.scale) := by
  obtain ⟨hdiv, hmod⟩ := sign_div_mod sign (Nat.lt_trans h source.infinity_lt_signBit)
  simp only [convert, hdiv, hmod, Nat.not_lt.mpr (Nat.le_of_lt h), Nat.ne_of_lt h, if_false]

/-- Going to a wide format and back changes no finite number. -/
theorem Widens.convert_convert (h : Widens narrow wide) (sign : Nat) {magnitude : Nat}
    (hmagnitude : magnitude < narrow.infinity) :
    ∃ magnitude' < wide.infinity,
      (∀ nan, narrow.convert wide nan (sign * narrow.signBit + magnitude) =
        sign * wide.signBit + magnitude') ∧
      ∀ nan, wide.convert narrow nan (sign * wide.signBit + magnitude') =
        sign * narrow.signBit + magnitude := by
  obtain ⟨magnitude', hlt, hround, hback⟩ := h.exists_round hmagnitude
  refine ⟨magnitude', hlt, fun nan ↦ ?_, fun nan ↦ ?_⟩
  · rw [convert_of_lt narrow wide nan sign hmagnitude, hround]
  · rw [convert_of_lt wide narrow nan sign hlt, hback]

theorem widens_single_double : Widens single double := by
  constructor <;> decide

end Format

namespace Binary32

/-- A word as a sign and what is below it. -/
theorem exists_sign (x : Binary32) :
    ∃ sign ≤ 1, x.bits.toNat =
      sign * Format.single.signBit + x.bits.toNat % Format.single.signBit := by
  refine ⟨x.bits.toNat / Format.single.signBit, ?_, (Nat.div_add_mod' _ _).symm⟩
  have hlt : x.bits.toNat < 2 * Format.single.signBit := x.bits.toNat_lt
  exact Nat.le_of_lt_succ (Nat.div_lt_of_lt_mul (by rwa [Nat.mul_comm]))

theorem exists_toBinary64 {x : Binary32} (hx : x.isFinite = true) :
    ∃ sign magnitude, magnitude < Format.double.infinity ∧
      x.toBinary64.bits.toNat = sign * Format.double.signBit + magnitude ∧
      ∀ nan, Format.double.convert .single nan x.toBinary64.bits.toNat = x.bits.toNat := by
  obtain ⟨sign, hsign, hbits⟩ := x.exists_sign
  have hfinite : x.bits.toNat % Format.single.signBit < Format.single.infinity := by
    simpa [isFinite] using hx
  obtain ⟨magnitude, hlt, hwide, hnarrow⟩ :=
    Format.widens_single_double.convert_convert sign hfinite
  have hvalue : x.toBinary64.bits.toNat = sign * Format.double.signBit + magnitude := by
    rw [toBinary64]
    dsimp only
    rw [hbits, hwide]
    exact UInt64.toNat_ofNat_of_lt'
      (Format.double.mul_add_lt hsign (Nat.lt_trans hlt Format.double.infinity_lt_signBit))
  refine ⟨sign, magnitude, hlt, hvalue, fun nan ↦ ?_⟩
  rw [hvalue, hnarrow, ← hbits]

/-- Going to 64 bits and back changes no finite number. -/
theorem toBinary32_toBinary64 {x : Binary32} (hx : x.isFinite = true) :
    x.toBinary64.toBinary32 = x := by
  obtain ⟨_, _, _, _, hback⟩ := exists_toBinary64 hx
  rw [Binary64.toBinary32, hback, UInt32.ofNat_toNat]

/-- A finite number of 32 bits is finite in 64. -/
theorem isFinite_toBinary64 {x : Binary32} (hx : x.isFinite = true) :
    x.toBinary64.isFinite = true := by
  obtain ⟨sign, magnitude, hlt, hbits, -⟩ := exists_toBinary64 hx
  have hmod := (Format.sign_div_mod sign (Nat.lt_trans hlt Format.double.infinity_lt_signBit)).2
  rw [Binary64.isFinite, hbits, hmod, decide_eq_true_eq]
  exact hlt

theorem isFinite_of_toBinary64 {x : Binary32} (hx : x.toBinary64.isFinite = true) :
    x.isFinite = true := by
  obtain ⟨sign, hsign, hbits⟩ := x.exists_sign
  by_contra hinf
  have hle : Format.single.infinity ≤ x.bits.toNat % Format.single.signBit := by
    simpa [isFinite] using hinf
  obtain ⟨magnitude, hge, hlt, hvalue⟩ : ∃ magnitude, Format.double.infinity ≤ magnitude ∧
      magnitude < Format.double.signBit ∧
      x.toBinary64.bits.toNat = sign * Format.double.signBit + magnitude := by
    have hpayload : x.bits.toNat % 2 ^ 22 * 2 ^ 29 < 2 ^ 51 := by omega
    have hdiv : x.bits.toNat / Format.single.signBit = sign := by
      rw [hbits]
      exact (Format.sign_div_mod sign (Nat.mod_lt _ (Nat.two_pow_pos _))).1
    rw [toBinary64, Format.convert, hdiv]
    dsimp only
    split
    · refine ⟨_, Nat.le_trans (Nat.le_add_right _ _) (Nat.le_add_right _ _), ?_,
        UInt64.toNat_ofNat_of_lt' (Format.double.mul_add_lt hsign ?_)⟩ <;>
      · have hbit : Format.double.signBit = 2 ^ 63 := rfl
        have hsum : Format.double.infinity + Format.double.quietBit + 2 ^ 51 = 2 ^ 63 := rfl
        omega
    · next hnot =>
      rw [if_pos (Nat.le_antisymm (Nat.not_lt.mp hnot) hle)]
      exact ⟨_, Nat.le_refl _, Format.double.infinity_lt_signBit,
        UInt64.toNat_ofNat_of_lt'
          (Format.double.mul_add_lt hsign Format.double.infinity_lt_signBit)⟩
  have hmod : x.toBinary64.bits.toNat % Format.double.signBit = magnitude := by
    rw [hvalue, (Format.sign_div_mod sign hlt).2]
  rw [Binary64.isFinite, hmod, decide_eq_true_eq] at hx
  exact Nat.not_lt.mpr hge hx

end Binary32

end SpirvText

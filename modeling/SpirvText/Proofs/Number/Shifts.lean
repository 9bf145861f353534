import Mathlib.Data.Nat.Bitwise
import SpirvText.Proofs.Number.Nearest

/-!
# Rounding by shifts

A 32-bit number can be rounded to 16 bits by its fields, with shifts and masks of words: what is cut
off behind the last place decides whether one is added.  Normal and subnormal results are shifted
differently, and a carry goes into the exponent by itself.  All of these are one rule, a significand
that is divided by a power of two (`Format.round_shift`), and give the nearest number
(`Binary32.toHalfByShifts_eq`).
-/

namespace SpirvText

/-! ## Dividing by shifts -/

theorem toNat_one_shiftLeft {s : UInt32} (hs : s.toNat < 32) :
    ((1 : UInt32) <<< s).toNat = 2 ^ s.toNat := by
  rw [UInt32.toNat_shiftLeft, Nat.mod_eq_of_lt hs]
  show 1 <<< s.toNat % 2 ^ 32 = _
  rw [Nat.one_shiftLeft, Nat.mod_eq_of_lt (Nat.pow_lt_pow_right (by decide) hs)]

theorem toNat_shiftRight_of_lt (m : UInt32) {s : UInt32} (hs : s.toNat < 32) :
    (m >>> s).toNat = m.toNat / 2 ^ s.toNat := by
  rw [UInt32.toNat_shiftRight, Nat.mod_eq_of_lt hs, Nat.shiftRight_eq_div_pow]

theorem toNat_and_lowBits (m : UInt32) {s : UInt32} (hs : s.toNat < 32) :
    (m &&& ((1 <<< s) - 1)).toNat = m.toNat % 2 ^ s.toNat := by
  have hpow := toNat_one_shiftLeft hs
  have hpos := Nat.two_pow_pos s.toNat
  have hmask : ((1 : UInt32) <<< s - 1).toNat = 2 ^ s.toNat - 1 := by
    rw [UInt32.toNat_sub_of_le, hpow]
    · rfl
    · rw [UInt32.le_iff_toNat_le, hpow]
      exact hpos
  rw [UInt32.toNat_and, hmask, Nat.and_two_pow_sub_one_eq_mod]

/-- The number `h`, or the one after it if what was cut off behind `h` is more than `half`, or is
just that behind an odd number. -/
def roundUp (h cut half : UInt32) : UInt32 :=
  if half < cut || (cut == half && h &&& 1 != 0) then h + 1 else h

/-- Rounding looks at what is left of half of an even divisor. -/
theorem roundDiv_two_mul (n half : Nat) :
    roundDiv n (2 * half) =
      if half < n % (2 * half) ∨ n % (2 * half) = half ∧ n / (2 * half) % 2 = 1 then
        n / (2 * half) + 1 else n / (2 * half) := by
  rw [roundDiv]
  split
  · rw [if_neg (by omega)]
  · split
    · rw [if_pos (by omega)]
    · split <;> omega

/-- Rounding up divides, also if there are more bits in front of the quotient, such as those of an
exponent. -/
theorem toNat_roundUp {h cut half : UInt32} {n front : Nat} (hlt : h.toNat < 2 ^ 31)
    (hh : h.toNat = 2 * front + n / (2 * half.toNat)) (hcut : cut.toNat = n % (2 * half.toNat)) :
    (roundUp h cut half).toNat = 2 * front + roundDiv n (2 * half.toNat) := by
  have hodd : (h &&& 1 != 0) = true ↔ n / (2 * half.toNat) % 2 = 1 := by
    rw [bne_iff_ne, ne_eq, ← UInt32.toNat_inj, UInt32.toNat_and]
    show ¬ h.toNat &&& 1 = 0 ↔ _
    rw [Nat.and_one_is_mod, hh]
    omega
  have hup : (half < cut || (cut == half && h &&& 1 != 0)) = true ↔
      half.toNat < n % (2 * half.toNat) ∨
        n % (2 * half.toNat) = half.toNat ∧ n / (2 * half.toNat) % 2 = 1 := by
    rw [Bool.or_eq_true, Bool.and_eq_true, hodd, decide_eq_true_iff, UInt32.lt_iff_toNat_lt,
      beq_iff_eq, ← UInt32.toNat_inj, hcut]
  rw [roundUp, roundDiv_two_mul]
  by_cases h' : (half < cut || (cut == half && h &&& 1 != 0)) = true
  · rw [if_pos h', if_pos (hup.mp h'), UInt32.toNat_add, hh]
    show (_ + 1) % 2 ^ 32 = _
    omega
  · rw [if_neg h', if_neg (mt hup.mpr h'), hh]

namespace Format

/-- A significand is rounded by cutting off bits, if what stays has the right number of them. -/
theorem round_shift (f : Format) {b k e s t : Nat} (hshift : k + f.scale + s = t + e)
    (hfull : e ≠ 0 → 2 ^ f.fractionBits ≤ b / 2 ^ s) (hlt : b / 2 ^ s < 2 ^ (f.fractionBits + 1)) :
    f.round (b * 2 ^ k) (2 ^ t) =
      min f.infinity (e * 2 ^ f.fractionBits + roundDiv b (2 ^ s)) := by
  have hn : b * 2 ^ k * 2 ^ f.scale = b * 2 ^ (k + f.scale) := by rw [Nat.mul_assoc, Nat.pow_add]
  have hd : 2 ^ t * 2 ^ e = 2 ^ s * 2 ^ (k + f.scale) := by
    rw [← Nat.pow_add, ← hshift, Nat.pow_add, Nat.mul_comm]
  have hlog : (b * 2 ^ (k + f.scale) / 2 ^ t).log2 - f.fractionBits = e := by
    have hdiv : b * 2 ^ (k + f.scale) / 2 ^ t / 2 ^ e = b / 2 ^ s := by
      rw [Nat.div_div_eq_div_mul, hd, Nat.mul_div_mul_right _ _ (Nat.two_pow_pos _)]
    generalize b * 2 ^ (k + f.scale) / 2 ^ t = y at hdiv
    rw [← hdiv] at hfull hlt
    exact log2_sub_eq hfull hlt
  simp only [round, hn, hlog, hd, roundDiv_mul_right _ _ (Nat.two_pow_pos _)]

end Format

namespace Binary32

/-- What is below the sign of the nearest 16-bit number, from the fields of a 32-bit one. -/
def halfMagnitude (exponent fraction : UInt32) : UInt32 :=
  if exponent == 0xff then 0x7c00 ||| (if fraction != 0 then 0x200 else 0)
  else
    let e : Int := exponent.toNat - 127 + 15
    if 0x1f ≤ e then 0x7c00
    else if e ≤ 0 then
      if e < -10 then 0
      else
        let significand := fraction ||| 0x800000
        let shift := UInt32.ofNat (14 - e).toNat
        roundUp (significand >>> shift) (significand &&& ((1 <<< shift) - 1)) (1 <<< (shift - 1))
    else
      roundUp ((UInt32.ofNat e.toNat <<< 10) ||| (fraction >>> 13)) (fraction &&& 0x1fff) 0x1000

/-- The nearest 16-bit number, by shifts of the fields. -/
def toHalfByShifts (x : Binary32) : UInt16 :=
  ((x.bits >>> 16) &&& 0x8000).toUInt16 |||
    (halfMagnitude ((x.bits >>> 23) &&& 0xff) (x.bits &&& 0x7fffff)).toUInt16

/-! ## Ranges of exponents -/

section Ranges

variable {exponent fraction : Nat}

open Format

theorem units_single (hexponent : exponent ≠ 0) (hfraction : fraction < 2 ^ 23) :
    single.units (exponent * 2 ^ 23 + fraction) = (2 ^ 23 + fraction) * 2 ^ (exponent - 1) := by
  obtain ⟨e, rfl⟩ := Nat.exists_eq_succ_of_ne_zero hexponent
  have hs : single.Significand e (2 ^ 23 + fraction) :=
    ⟨fun _ ↦ Nat.le_add_right _ _, by show _ < 2 ^ 24; omega⟩
  have hfields : (e + 1) * 2 ^ 23 + fraction = e * 2 ^ 23 + (2 ^ 23 + fraction) := by omega
  rw [Nat.succ_eq_add_one, hfields]
  exact hs.units

/-- In every range the significand is divided by a power of two, which for subnormal results is more
than the thirteen bits that normal ones have to lose. -/
theorem round_single {e s : Nat} (hexponent : exponent ≠ 0) (hfraction : fraction < 2 ^ 23)
    (hshift : exponent + s = 126 + e) (hfull : e ≠ 0 → 2 ^ 10 ≤ (2 ^ 23 + fraction) / 2 ^ s)
    (hlt : (2 ^ 23 + fraction) / 2 ^ s < 2 ^ 11) :
    half.round (single.units (exponent * 2 ^ 23 + fraction)) (2 ^ single.scale) =
      min half.infinity (e * 2 ^ 10 + roundDiv (2 ^ 23 + fraction) (2 ^ s)) := by
  have hscale : exponent - 1 + half.scale + s = single.scale + e := by
    show exponent - 1 + 24 + s = 149 + e
    omega
  rw [units_single hexponent hfraction]
  exact half.round_shift hscale hfull hlt

/-- The significand of a normal number has eleven bits in front of thirteen. -/
theorem significand_bounds (hfraction : fraction < 2 ^ 23) :
    2 ^ 10 ≤ (2 ^ 23 + fraction) / 2 ^ 13 ∧ (2 ^ 23 + fraction) / 2 ^ 13 < 2 ^ 11 := by
  omega

/-- From `2 ^ 16` on a number is infinite in 16 bits. -/
theorem round_of_overflow (hexponent : 143 ≤ exponent) (hfraction : fraction < 2 ^ 23) :
    half.round (single.units (exponent * 2 ^ 23 + fraction)) (2 ^ single.scale) =
      half.infinity := by
  obtain ⟨hfull, hlt⟩ := significand_bounds hfraction
  rw [round_single (e := exponent - 113) (by omega) hfraction (by omega) (fun _ ↦ hfull) hlt]
  have hcarry := div_le_roundDiv (2 ^ 23 + fraction) (2 ^ 13)
  have hinfinity : half.infinity = 31 * 2 ^ 10 := rfl
  rw [hinfinity]
  omega

/-- A number of middling size loses the last thirteen bits of its fraction. -/
theorem round_of_normal (hlow : 113 ≤ exponent) (hhigh : exponent < 143)
    (hfraction : fraction < 2 ^ 23) :
    half.round (single.units (exponent * 2 ^ 23 + fraction)) (2 ^ single.scale) =
      (exponent - 113) * 2 ^ 10 + roundDiv (2 ^ 23 + fraction) (2 ^ 13) := by
  obtain ⟨hfull, hlt⟩ := significand_bounds hfraction
  rw [round_single (e := exponent - 113) (by omega) hfraction (by omega) (fun _ ↦ hfull) hlt]
  have hcarry := roundDiv_le_succ (2 ^ 23 + fraction) (2 ^ 13)
  have hinfinity : half.infinity = 31 * 2 ^ 10 := rfl
  rw [hinfinity]
  omega

/-- A small number loses more bits, the smaller it is. -/
theorem round_of_subnormal (hlow : 102 ≤ exponent) (hhigh : exponent < 113)
    (hfraction : fraction < 2 ^ 23) :
    half.round (single.units (exponent * 2 ^ 23 + fraction)) (2 ^ single.scale) =
      roundDiv (2 ^ 23 + fraction) (2 ^ (126 - exponent)) := by
  have hlt : (2 ^ 23 + fraction) / 2 ^ (126 - exponent) < 2 ^ 10 := by
    have hpow : 2 ^ 14 ≤ 2 ^ (126 - exponent) := Nat.pow_le_pow_right (by decide) (by omega)
    exact Nat.lt_of_le_of_lt (Nat.div_le_div_left hpow (by decide)) (by omega)
  rw [round_single (e := 0) (s := 126 - exponent) (by omega) hfraction (by omega) (by omega)
    (by omega)]
  have hcarry := roundDiv_le_succ (2 ^ 23 + fraction) (2 ^ (126 - exponent))
  have hinfinity : half.infinity = 31 * 2 ^ 10 := rfl
  rw [hinfinity, Nat.zero_mul, Nat.zero_add]
  omega

/-- A number below half of the smallest one of 16 bits is zero there. -/
theorem round_of_underflow (hexponent : exponent < 102) (hfraction : fraction < 2 ^ 23) :
    half.round (single.units (exponent * 2 ^ 23 + fraction)) (2 ^ single.scale) = 0 := by
  refine (correctlyRounded_round_units proper_single proper_half _).eq_zero proper_half ?_
  rw [value_one_half]
  calc single.value (exponent * 2 ^ 23 + fraction)
      ≤ single.value (102 * 2 ^ 23) := (strictMono_value proper_single).monotone (by omega)
    _ = 1 / 2 ^ 25 := by norm_num [value, Format.significand, bias, single]

end Ranges

/-! ## Words -/

open Format

variable {exponent fraction : UInt32}

theorem toNat_roundUp_normal {e : Nat} (he : e ≤ 30) (hfraction : fraction.toNat < 2 ^ 23) :
    (roundUp ((UInt32.ofNat (e + 1) <<< 10) ||| (fraction >>> 13)) (fraction &&& 0x1fff)
      0x1000).toNat = e * 2 ^ 10 + roundDiv (2 ^ 23 + fraction.toNat) (2 ^ 13) := by
  have hfront : (UInt32.ofNat (e + 1) <<< 10).toNat = 2 ^ 10 * (e + 1) := by
    rw [UInt32.toNat_shiftLeft, UInt32.toNat_ofNat']
    show ((e + 1) % 2 ^ 32) <<< 10 % 2 ^ 32 = _
    rw [Nat.shiftLeft_eq]
    omega
  have hback : (fraction >>> 13).toNat = fraction.toNat / 2 ^ 13 :=
    toNat_shiftRight_of_lt fraction (s := 13) (by decide)
  have hh : ((UInt32.ofNat (e + 1) <<< 10) ||| (fraction >>> 13)).toNat =
      2 * (e * 2 ^ 9) + (2 ^ 23 + fraction.toNat) / 2 ^ 13 := by
    rw [UInt32.toNat_or, hfront, hback, ← Nat.two_pow_add_eq_or_of_lt (by omega)]
    omega
  have hcut : (fraction &&& 0x1fff).toNat = (2 ^ 23 + fraction.toNat) % 2 ^ 13 := by
    have hmask : (fraction &&& 0x1fff).toNat = fraction.toNat % 2 ^ 13 :=
      toNat_and_lowBits fraction (s := 13) (by decide)
    rw [hmask]
    omega
  have hround : (roundUp ((UInt32.ofNat (e + 1) <<< 10) ||| (fraction >>> 13)) (fraction &&& 0x1fff)
      0x1000).toNat = 2 * (e * 2 ^ 9) + roundDiv (2 ^ 23 + fraction.toNat) (2 ^ 13) :=
    toNat_roundUp (by rw [hh]; omega) hh hcut
  rw [hround]
  omega

theorem toNat_or_implicitBit (fraction : UInt32) (h : fraction.toNat < 2 ^ 23) :
    (fraction ||| 0x800000).toNat = 2 ^ 23 + fraction.toNat := by
  rw [UInt32.toNat_or, Nat.or_comm]
  exact (Nat.two_pow_add_eq_or_of_lt h 1).symm

theorem toNat_roundUp_subnormal {shift m : UInt32} (hpos : 1 ≤ shift.toNat)
    (hshift : shift.toNat < 32) (hm : m.toNat < 2 ^ 31) :
    (roundUp (m >>> shift) (m &&& ((1 <<< shift) - 1)) (1 <<< (shift - 1))).toNat =
      roundDiv m.toNat (2 ^ shift.toNat) := by
  have hpred : (shift - 1).toNat = shift.toNat - 1 :=
    UInt32.toNat_sub_of_le shift 1 (UInt32.le_iff_toNat_le.mpr hpos)
  have hhalf : 2 * ((1 : UInt32) <<< (shift - 1)).toNat = 2 ^ shift.toNat := by
    rw [toNat_one_shiftLeft (by omega), hpred, ← Nat.pow_succ', Nat.succ_eq_add_one,
      Nat.sub_add_cancel hpos]
  have hh := toNat_shiftRight_of_lt m hshift
  have hcut := toNat_and_lowBits m hshift
  rw [← hhalf] at hh hcut ⊢
  have hlt : (m >>> shift).toNat < 2 ^ 31 := by
    rw [hh]
    exact Nat.lt_of_le_of_lt (Nat.div_le_self _ _) hm
  rw [← Nat.zero_add (m.toNat / _), ← Nat.mul_zero 2] at hh
  rw [toNat_roundUp hlt hh hcut, Nat.mul_zero, Nat.zero_add]

/-- The shifts round the fields of a finite number. -/
theorem toNat_halfMagnitude (hexponent : exponent.toNat < 255)
    (hfraction : fraction.toNat < 2 ^ 23) :
    (halfMagnitude exponent fraction).toNat =
      half.round (single.units (exponent.toNat * 2 ^ 23 + fraction.toNat)) (2 ^ single.scale) := by
  have hfinite : (exponent == 0xff) = false := by
    rw [beq_eq_false_iff_ne, ne_eq, ← UInt32.toNat_inj]
    show ¬ exponent.toNat = 255
    omega
  rw [halfMagnitude, hfinite, if_neg Bool.false_ne_true]
  dsimp only
  split
  · rw [round_of_overflow (by omega) hfraction]
    rfl
  split
  · split
    · rw [round_of_underflow (by omega) hfraction]
      rfl
    · have hshift : (UInt32.ofNat (14 - (exponent.toNat - 127 + 15 : Int)).toNat).toNat =
          126 - exponent.toNat := by
        rw [UInt32.toNat_ofNat']
        omega
      have hsignificand := toNat_or_implicitBit fraction hfraction
      rw [toNat_roundUp_subnormal (by omega) (by omega) (by omega), hshift, hsignificand,
        round_of_subnormal (by omega) (by omega) hfraction]
  · have he : (exponent.toNat - 127 + 15 : Int).toNat = exponent.toNat - 113 + 1 := by omega
    rw [he, toNat_roundUp_normal (by omega) hfraction,
      round_of_normal (by omega) (by omega) hfraction]

/-- Above the finite numbers the fraction tells infinity from what is not a number. -/
theorem toNat_halfMagnitude_of_eq (hexponent : exponent.toNat = 255) :
    (halfMagnitude exponent fraction).toNat =
      if fraction.toNat = 0 then half.infinity else half.infinity + half.quietBit := by
  obtain rfl : exponent = 0xff := UInt32.toNat_inj.mp hexponent
  rw [halfMagnitude, if_pos (by decide)]
  by_cases hzero : fraction = 0
  · subst hzero
    rfl
  · have hne : fraction.toNat ≠ 0 := fun h ↦ hzero (UInt32.toNat_inj.mp h)
    rw [if_neg hne, if_pos (bne_iff_ne.mpr hzero)]
    rfl

/-- The fields of a number, in words and as numbers. -/
theorem toNat_fields (x : Binary32) :
    ((x.bits >>> 16) &&& 0x8000).toUInt16.toNat = single.sign x.bits.toNat * half.signBit ∧
      ((x.bits >>> 23) &&& 0xff).toNat = single.magnitude x.bits.toNat / 2 ^ 23 ∧
      (x.bits &&& 0x7fffff).toNat = single.magnitude x.bits.toNat % 2 ^ 23 := by
  have hlt := x.bits.toNat_lt
  have hsign : single.sign x.bits.toNat = x.bits.toNat / 2 ^ 31 := rfl
  have hmagnitude : single.magnitude x.bits.toNat = x.bits.toNat % 2 ^ 31 := rfl
  refine ⟨?_, ?_, ?_⟩
  · rw [UInt32.toNat_toUInt16, UInt32.toNat_and, toNat_shiftRight_of_lt _ (s := 16) (by decide)]
    show (x.bits.toNat / 2 ^ 16 &&& 2 ^ 15) % 2 ^ 16 = _ * 2 ^ 15
    rw [Nat.and_two_pow, Nat.toNat_testBit, hsign]
    omega
  · rw [UInt32.toNat_and, toNat_shiftRight_of_lt _ (s := 23) (by decide)]
    show x.bits.toNat / 2 ^ 23 &&& 2 ^ 8 - 1 = _
    rw [Nat.and_two_pow_sub_one_eq_mod, hmagnitude]
    omega
  · rw [UInt32.toNat_and]
    show x.bits.toNat &&& 2 ^ 23 - 1 = _
    rw [Nat.and_two_pow_sub_one_eq_mod, hmagnitude]
    omega

/-- The conversion in terms of the fields. -/
theorem convert_eq_halfMagnitude (x : Binary32) :
    single.convert half (half.infinity + half.quietBit) x.bits.toNat =
      single.sign x.bits.toNat * half.signBit +
        (halfMagnitude ((x.bits >>> 23) &&& 0xff) (x.bits &&& 0x7fffff)).toNat := by
  obtain ⟨-, hexponent, hfraction⟩ := x.toNat_fields
  have hlt : single.magnitude x.bits.toNat < 2 ^ 31 := Nat.mod_lt _ (by decide)
  have hinfinity : single.infinity = 255 * 2 ^ 23 := rfl
  have hconvert : single.convert half (half.infinity + half.quietBit) x.bits.toNat =
      if single.infinity < single.magnitude x.bits.toNat then
        single.sign x.bits.toNat * half.signBit + (half.infinity + half.quietBit)
      else if single.magnitude x.bits.toNat = single.infinity then
        single.sign x.bits.toNat * half.signBit + half.infinity
      else single.sign x.bits.toNat * half.signBit +
        half.round (single.units (single.magnitude x.bits.toNat)) (2 ^ single.scale) := rfl
  rw [hconvert]
  rcases Nat.lt_or_ge (single.magnitude x.bits.toNat) single.infinity with hfinite | hlarge
  · rw [if_neg (by omega), if_neg (by omega), toNat_halfMagnitude (by omega) (by omega), hexponent,
      hfraction, Nat.div_add_mod']
  · rw [toNat_halfMagnitude_of_eq (by omega), hfraction]
    by_cases hzero : single.magnitude x.bits.toNat % 2 ^ 23 = 0
    · rw [if_pos hzero, if_neg (by omega), if_pos (by omega)]
    · rw [if_neg hzero, if_pos (by omega)]

/-- Shifting the fields rounds every number to the nearest. -/
theorem toHalfByShifts_eq (x : Binary32) : x.toHalfByShifts = x.toHalf := by
  obtain ⟨hsign, -, -⟩ := x.toNat_fields
  have hquiet : half.infinity + half.quietBit < half.signBit := by decide
  obtain ⟨magnitude, hlt, hconvert, -⟩ :=
    exists_convert proper_single proper_half hquiet x.bits.toNat
  have hmagnitude := Nat.add_left_cancel (x.convert_eq_halfMagnitude.symm.trans hconvert)
  have hlow : (halfMagnitude ((x.bits >>> 23) &&& 0xff) (x.bits &&& 0x7fffff)).toUInt16.toNat =
      magnitude := by
    rw [UInt32.toNat_toUInt16, hmagnitude]
    exact Nat.mod_eq_of_lt (Nat.lt_trans hlt (by decide))
  have hbits := half.mul_add_lt (single.sign_le_one x.bits.toNat_lt) hlt
  rw [← UInt16.toNat_inj, toHalf, hconvert, UInt16.toNat_ofNat_of_lt' hbits, toHalfByShifts,
    UInt16.toNat_or, hsign, hlow, Nat.mul_comm]
  exact (Nat.two_pow_add_eq_or_of_lt hlt _).symm

/-- A 32-bit number is rounded to the nearest 16-bit one, a tie to the even significand.  From 65520
on it becomes infinity, up to `2 ^ (-25)` zero.  What is not a number stays so, and the sign is
kept.  The shifts of the fields do just this. -/
theorem toHalf_correctly_rounded (x : Binary32) :
    let magnitude := single.magnitude x.bits.toNat
    let rounded := half.magnitude x.toHalf.toNat
    x.toHalfByShifts = x.toHalf ∧
      half.sign x.toHalf.toNat = single.sign x.bits.toNat ∧
      (single.infinity < magnitude → half.infinity < rounded) ∧
      (magnitude = single.infinity → rounded = half.infinity) ∧
      (magnitude < single.infinity →
        (65520 ≤ single.value magnitude → rounded = half.infinity) ∧
        (single.value magnitude < 65520 → half.NearestIn
          (Set.Iio half.infinity) (single.value magnitude) rounded) ∧
        (single.value magnitude ≤ 1 / 2 ^ 25 → rounded = 0)) := by
  intro magnitude rounded
  obtain ⟨hsign, hnan, hinfinite, hfinite⟩ := x.sign_magnitude_toHalf
  refine ⟨x.toHalfByShifts_eq, hsign, fun h ↦ ?_, hinfinite, fun h ↦ ⟨?_, ?_, ?_⟩⟩
  · have hquiet : half.infinity < half.infinity + half.quietBit := by decide
    exact Nat.lt_of_lt_of_eq hquiet (hnan h).symm
  · rw [← limit_half]
    exact (hfinite h).infinite
  · rw [← limit_half]
    exact (hfinite h).finite
  · rw [← value_one_half]
    exact (hfinite h).eq_zero proper_half

end Binary32

end SpirvText

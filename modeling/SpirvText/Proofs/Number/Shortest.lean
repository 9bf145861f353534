import Mathlib.Tactic.Ring
import SpirvText.Proofs.Number.Rounding
import SpirvText.Proofs.Token.Spelling

/-!
# Decimal text reads back

The shortest decimal of a finite number reads back as that number, and so does its text: a finite
64-bit number is written as a word that is read as a floating-point token with the same bits
(`Binary64.spells_text`).
-/

namespace SpirvText

open Lexer

namespace Decimal

/-! ## Digits and places -/

theorem toDigits_mul_ten {n : Nat} (hn : n ≠ 0) :
    Nat.toDigits 10 (n * 10) = Nat.toDigits 10 n ++ ['0'] := by
  rw [Nat.toDigits_eq_if (by decide), if_neg (by omega), Nat.mul_div_cancel _ (by decide),
    Nat.mul_mod_left]
  rfl

/-- Powers of ten are zeros at the end. -/
theorem toDigits_mul_pow {n : Nat} (hn : n ≠ 0) (k : Nat) :
    Nat.toDigits 10 (n * 10 ^ k) = Nat.toDigits 10 n ++ List.replicate k '0' := by
  induction k with
  | zero => simp
  | succ k ih =>
    have hne : n * 10 ^ k ≠ 0 := Nat.mul_ne_zero hn (Nat.pow_pos (by decide)).ne'
    rw [Nat.pow_succ, ← Nat.mul_assoc, toDigits_mul_ten hne, ih, List.append_assoc,
      List.replicate_succ']

theorem length_toDigits_le {n k : Nat} (hk : 0 < k) (h : n < 10 ^ k) :
    (Nat.toDigits 10 n).length ≤ k :=
  (Nat.length_toDigits_le_iff (by decide) hk).mpr h

theorem lt_length_toDigits {n k : Nat} (hk : 0 < k) (h : 10 ^ k ≤ n) :
    k < (Nat.toDigits 10 n).length := by
  by_contra hle
  exact Nat.not_lt.mpr h ((Nat.length_toDigits_le_iff (by decide) hk).mp (Nat.not_lt.mp hle))

/-- Zeros at the end of the coefficient do not change the nearest number. -/
theorem toMagnitude_mul_pow (c : Nat) (e : Int) (k : Nat) :
    toMagnitude ⟨c * 10 ^ k, e - k⟩ = toMagnitude ⟨c, e⟩ := by
  by_cases hc : c = 0
  · simp [toMagnitude, hc]
  have hne : c * 10 ^ k ≠ 0 := Nat.mul_ne_zero hc (Nat.pow_pos (by decide)).ne'
  have hplace : place ⟨c * 10 ^ k, e - k⟩ = place ⟨c, e⟩ := by
    simp only [place, digitCount, toDigits_mul_pow hc, List.length_append, List.length_replicate]
    omega
  have hten : ∀ n, 0 < 10 ^ n := fun n ↦ Nat.pow_pos (by decide)
  simp only [toMagnitude, hplace, hne, hc]
  congr 2
  rcases Int.lt_or_le e 0 with he | he
  · have hk : (-(e - k)).toNat = (-e).toNat + k := by omega
    rw [if_neg (by omega), if_neg (by omega), hk, Nat.pow_add, Format.round_mul_right _ _ _ (hten k)]
  · rw [if_pos he]
    split
    · next hle =>
      have hk : e.toNat = k + (e - k).toNat := by omega
      rw [hk, Nat.pow_add, Nat.mul_assoc]
    · next hlt =>
      have hk : k = e.toNat + (-(e - k)).toNat := by omega
      have hscale := Format.round_mul_right .double (c * 10 ^ e.toNat) 1 (hten (-(e - k)).toNat)
      rw [Nat.one_mul, Nat.mul_assoc, ← Nat.pow_add, ← hk] at hscale
      exact hscale

/-! ## The shortest decimal -/

/-- A candidate reads back, for it is taken only then. -/
theorem toMagnitude_of_candidate? {magnitude n : Nat} {place : Int} {x : Decimal}
    (h : candidate? magnitude place n = some x) : x.toMagnitude = magnitude := by
  simp only [candidate?] at h
  split at h
  · next hbelow =>
    cases h
    rw [Bool.and_eq_true] at hbelow
    exact beq_iff_eq.mp hbelow.1
  · split at h
    · next habove =>
      cases h
      exact beq_iff_eq.mp habove
    · cases h

theorem units_pos {magnitude : Nat} (h : 0 < magnitude) : 0 < Format.double.units magnitude := by
  obtain ⟨e, b, hs, rfl⟩ := Format.exists_significand .double magnitude
  rw [hs.units]
  refine Nat.mul_pos (Nat.pos_of_ne_zero fun hb ↦ ?_) (Nat.two_pow_pos e)
  by_cases he : e = 0
  · simp [he, hb] at h
  · have := hs.full he
    rw [hb] at this
    exact absurd this (by decide)

theorem units_lt {magnitude k : Nat} (h : magnitude < Format.double.infinity) (hk : 2100 ≤ k) :
    Format.double.units magnitude < 2 ^ k := by
  obtain ⟨e, b, hs, rfl⟩ := Format.exists_significand .double magnitude
  have he : e < 2047 := by
    refine Nat.lt_of_mul_lt_mul_right (a := 2 ^ 52) ?_
    exact Nat.lt_of_le_of_lt (Nat.le_add_right _ _) h
  have hle : 53 + e ≤ k := by omega
  rw [hs.units]
  calc b * 2 ^ e
      < 2 ^ 53 * 2 ^ e := Nat.mul_lt_mul_of_pos_right hs.lt (Nat.two_pow_pos e)
    _ = 2 ^ (53 + e) := (Nat.pow_add 2 53 e).symm
    _ ≤ 2 ^ k := Nat.pow_le_pow_right Nat.two_pos hle

/-- The whole expansion reads back, being the number itself. -/
theorem toMagnitude_exact {magnitude : Nat} (hpos : 0 < magnitude)
    (h : magnitude < Format.double.infinity) : (exact magnitude).toMagnitude = magnitude := by
  have hunits := units_pos hpos
  have hfive : 0 < 5 ^ Format.double.scale := Nat.pow_pos (by decide)
  have hscale : Format.double.scale = 1074 := rfl
  have hupper : (exact magnitude).digitCount ≤ 1474 := by
    refine length_toDigits_le (by decide) ?_
    calc Format.double.units magnitude * 5 ^ Format.double.scale
        < 2 ^ 2100 * 5 ^ Format.double.scale :=
          Nat.mul_lt_mul_of_pos_right (units_lt h (Nat.le_refl 2100)) hfive
      _ < 10 ^ 1474 := by decide +kernel
  have hlower : 700 < (exact magnitude).digitCount := by
    refine lt_length_toDigits (by decide) ?_
    calc 10 ^ 700 ≤ 1 * 5 ^ Format.double.scale := by decide +kernel
      _ ≤ Format.double.units magnitude * 5 ^ Format.double.scale := Nat.mul_le_mul_right _ hunits
  have hplace : -400 < (exact magnitude).place ∧ (exact magnitude).place ≤ 400 := by
    simp only [place, exact, hscale]
    simp only [exact, hscale] at hupper hlower
    omega
  have hcoefficient : (exact magnitude).coefficient ≠ 0 := (Nat.mul_pos hunits hfive).ne'
  have hexponent : ¬ 0 ≤ (exact magnitude).exponent := by
    show ¬ (0 : Int) ≤ -Format.double.scale
    rw [hscale]
    decide
  have hround : Format.double.round (Format.double.units magnitude * 5 ^ Format.double.scale)
      (10 ^ Format.double.scale) = magnitude := by
    have hten : ∀ k, 10 ^ k = 2 ^ k * 5 ^ k := fun k ↦ by rw [← Nat.mul_pow]
    rw [hten, Format.round_mul_right _ _ _ hfive, Format.round_units h]
  rw [toMagnitude, if_neg (by omega), if_neg (by omega), if_neg hexponent]
  exact hround

/-- The shortest decimal reads back, for the whole expansion does if nothing shorter is found. -/
theorem toMagnitude_shortest {magnitude : Nat} (hpos : 0 < magnitude)
    (h : magnitude < Format.double.infinity) : (shortest magnitude).toMagnitude = magnitude := by
  rw [shortest]
  cases hfound : (List.range 17).findSome? fun n ↦
      candidate? magnitude (placeOf magnitude) (n + 1) with
  | none => exact toMagnitude_exact hpos h
  | some x =>
    obtain ⟨n, -, hn⟩ := List.exists_of_findSome?_eq_some hfound
    exact toMagnitude_of_candidate? hn

/-! ## Notation -/

section Notation

variable (negative : Bool) {x : Decimal} {digits : List Char}

/-- The token of a written decimal, however its digits are divided. -/
theorem floatToken_eq {whole fraction : List Char} {exponent : Int}
    (hvalue : Numeral.value 10 (whole ++ fraction) = x.coefficient)
    (hexponent : exponent - fraction.length = x.exponent) :
    floatToken negative whole fraction exponent = .float (toBinary64 negative x) := by
  rw [floatToken, hvalue, hexponent]

/-- All digits behind the point. -/
theorem spells_zero_point (hdigits : ∀ c ∈ digits, c.isDigit = true) (hne : digits ≠ [])
    (hvalue : Numeral.value 10 digits = x.coefficient) (hle : digits.length + x.exponent ≤ 0) :
    Spells (signed negative (['0'] ++ '.' ::
      (List.replicate (-(digits.length + x.exponent)).toNat '0' ++ digits)))
      (.float (toBinary64 negative x)) := by
  have hzeros : ∀ n, ∀ c ∈ List.replicate n '0' ++ digits, c.isDigit = true := by
    intro n c hc
    rcases List.mem_append.mp hc with hc | hc
    · rw [List.eq_of_mem_replicate hc]
      rfl
    · exact hdigits c hc
  rw [← floatToken_eq (x := x) negative]
  · exact spells_pointed negative (by simp) (by simp) (by simp [hne]) (hzeros _)
  · show Numeral.value 10 (List.replicate (_ + 1) '0' ++ digits) = _
    rw [Numeral.value_zeros_append, hvalue]
  · simp only [List.length_append, List.length_replicate]
    omega

/-- The point among the digits. -/
theorem spells_point_between {place : Nat} (hdigits : ∀ c ∈ digits, c.isDigit = true)
    (hvalue : Numeral.value 10 digits = x.coefficient)
    (hplace : (place : Int) = digits.length + x.exponent) (hpos : 0 < place)
    (hlt : place < digits.length) :
    Spells (signed negative (digits.take place ++ '.' :: digits.drop place))
      (.float (toBinary64 negative x)) := by
  rw [← floatToken_eq (x := x) negative]
  · refine spells_pointed negative ?_ (fun c hc ↦ hdigits c (List.mem_of_mem_take hc)) ?_
      (fun c hc ↦ hdigits c (List.mem_of_mem_drop hc))
    · simp only [ne_eq, List.take_eq_nil_iff, not_or]
      exact ⟨hpos.ne', by rintro rfl; simp at hlt⟩
    · simpa using hlt
  · rw [List.take_append_drop, hvalue]
  · rw [List.length_drop]
    omega

/-- Zeros up to the point, and one behind it. -/
theorem spells_point_zero {k : Nat} (hdigits : ∀ c ∈ digits, c.isDigit = true) (hne : digits ≠ [])
    (hvalue : Numeral.value 10 digits = x.coefficient) (hk : x.exponent = k) :
    Spells (signed negative (digits ++ List.replicate k '0' ++ '.' :: ['0']))
      (.float (toBinary64 negative x)) := by
  have hzeros : ∀ c ∈ digits ++ List.replicate k '0', c.isDigit = true := by
    intro c hc
    rcases List.mem_append.mp hc with hc | hc
    · exact hdigits c hc
    · rw [List.eq_of_mem_replicate hc]
      rfl
  have htoken : floatToken negative (digits ++ List.replicate k '0') ['0'] 0 =
      .float (toBinary64 negative x) := by
    have hscaled := toMagnitude_mul_pow x.coefficient x.exponent (k + 1)
    rw [floatToken, List.append_assoc, ← List.replicate_succ', Numeral.value_append_zeros, hvalue,
      toBinary64, toBinary64, ← hscaled, hk]
    simp
  rw [← htoken]
  exact spells_pointed negative (by simp [hne]) hzeros (by simp) (by simp)

theorem spells_exponent (hdigits : ∀ c ∈ digits, c.isDigit = true) (hne : digits ≠ [])
    (hvalue : Numeral.value 10 digits = x.coefficient) :
    Spells (signed negative (digits.take 1 ++
      ((if digits.length = 1 then [] else '.' :: digits.drop 1) ++
        'e' :: (toString (digits.length + x.exponent - 1)).toList)))
      (.float (toBinary64 negative x)) := by
  have hpos := List.length_pos_iff.mpr hne
  have hpoint : (digits.length = 1) = (digits.drop 1 = []) := by
    rw [List.drop_eq_nil_iff]
    exact propext ⟨fun h ↦ h.le, fun h ↦ Nat.le_antisymm h hpos⟩
  rw [← floatToken_eq (x := x) negative]
  · simp only [hpoint]
    refine spells_scientific negative _ ?_ (fun c hc ↦ hdigits c (List.mem_of_mem_take hc))
      (fun c hc ↦ hdigits c (List.mem_of_mem_drop hc))
    simpa using hne
  · rw [List.take_append_drop, hvalue]
  · rw [List.length_drop]
    omega

end Notation

/-- The text of a decimal, after a sign or without one, reads back as the nearest number. -/
theorem spells_text (negative : Bool) (x : Decimal) :
    Spells (signed negative x.text.toList)
      (.float (toBinary64 negative x)) := by
  have hdigits : ∀ c ∈ Nat.toDigits 10 x.coefficient, c.isDigit = true :=
    fun c ↦ isDigit_of_mem_toDigits_ten
  have hne : Nat.toDigits 10 x.coefficient ≠ [] := Nat.toDigits_ne_nil
  have hvalue : Numeral.value 10 (Nat.toDigits 10 x.coefficient) = x.coefficient :=
    Numeral.value_toDigits (by decide) (by decide) _
  have hplace : x.place = (Nat.toDigits 10 x.coefficient).length + x.exponent := rfl
  rw [text]
  dsimp only
  rw [hplace]
  generalize Nat.toDigits 10 x.coefficient = digits at *
  split
  · split
    · next hle =>
      have hword := spells_zero_point negative hdigits hne hvalue hle
      simpa using hword
    · next hpos =>
      obtain ⟨place, hp⟩ := Int.eq_ofNat_of_zero_le (Int.le_of_lt (Int.not_le.mp hpos))
      rw [hp, Int.toNat_natCast, String.toList_ofList]
      by_cases hlt : place < digits.length
      · have hword := spells_point_between negative hdigits hvalue hp.symm (by omega) hlt
        simpa [Nat.not_le.mpr hlt, Nat.sub_eq_zero_of_le hlt.le] using hword
      · have hword := spells_point_zero (k := place - digits.length) negative hdigits hne hvalue
          (by omega)
        rw [List.take_of_length_le (Nat.not_lt.mp hlt), List.drop_of_length_le (Nat.not_lt.mp hlt)]
        exact hword
  · have hword := spells_exponent negative hdigits hne hvalue
    simpa [-Int.toString_eq_repr] using hword

end Decimal

namespace Binary64

theorem ofMagnitude_magnitude (x : Binary64) : ofMagnitude x.isNegative x.magnitude = x := by
  have hlt : x.bits.toNat < 2 * Format.double.signBit := x.bits.toNat_lt
  have hbits : (if x.isNegative then Format.double.signBit else 0) + x.magnitude =
      x.bits.toNat := by
    rw [isNegative, magnitude]
    by_cases hle : Format.double.signBit ≤ x.bits.toNat
    · rw [decide_eq_true hle, if_pos rfl, Nat.mod_eq_sub_mod hle, Nat.mod_eq_of_lt (by omega)]
      omega
    · rw [decide_eq_false hle, if_neg (by decide), Nat.mod_eq_of_lt (by omega), Nat.zero_add]
  rw [ofMagnitude, hbits, UInt64.ofNat_toNat]

/-- A finite number is written as a word that is read as the same number. -/
theorem spells_text {x : Binary64} (hx : x.isFinite = true) : Spells x.text.toList (.float x) := by
  have hsign : ∀ text : String, ((if x.isNegative then "-" else "") ++ text).toList =
      signed x.isNegative text.toList := by
    intro text
    rw [String.toList_append, signed]
    split <;> rfl
  have hfinite : x.magnitude < Format.double.infinity := by
    rwa [isFinite, decide_eq_true_eq] at hx
  by_cases hzero : x.magnitude = 0
  · have hword : Spells (signed x.isNegative (['0'] ++ '.' :: ['0']))
        (floatToken x.isNegative ['0'] ['0'] 0) :=
      spells_pointed x.isNegative (by simp) (by simp) (by simp) (by simp)
    have htoken : floatToken x.isNegative ['0'] ['0'] 0 = .float x := by
      show Token.float (ofMagnitude x.isNegative 0) = _
      rw [← hzero, ofMagnitude_magnitude]
    rw [text, if_pos hzero, hsign, ← htoken]
    exact hword
  · have hword := Decimal.spells_text x.isNegative (Decimal.shortest x.magnitude)
    rw [Decimal.toBinary64, Decimal.toMagnitude_shortest (Nat.pos_of_ne_zero hzero) hfinite,
      ofMagnitude_magnitude] at hword
    rw [text, if_neg hzero, if_pos hx, hsign]
    exact hword

end Binary64

end SpirvText

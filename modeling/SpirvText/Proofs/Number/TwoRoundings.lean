import SpirvText.Proofs.Number.Nearest

/-!
# Rounding twice

A number can be rounded to a narrow format by way of a wide one.  If the wide format also holds the
middles between neighbours of the narrow one (`Splits`), the first rounding never passes such a
middle, but it can end on one.  The second rounding then takes the middle for a tie, and goes to the
even side whichever side the number came from.  This is the only way to go wrong
(`Splits.correctlyRounded_iff`).
-/

namespace SpirvText

namespace Format

variable {f narrow wide : Format} {q : ℚ} {pattern : Nat}

/-- For a range of patterns, only the middles to the two neighbours count. -/
theorem nearestIn_Iic_iff (hf : f.Proper) (last : Nat) :
    f.NearestIn (Set.Iic last) q pattern ↔ pattern ≤ last ∧
      (pattern < last → q ≤ f.middle pattern (pattern + 1) ∧
        (q = f.middle pattern (pattern + 1) → Even pattern)) ∧
      ∀ below, pattern = below + 1 → f.middle below pattern ≤ q ∧
        (q = f.middle below pattern → Even pattern) := by
  rw [nearestIn_iff hf]
  constructor
  · rintro ⟨hmem, habove, hbelow⟩
    refine ⟨hmem, fun hlt ↦ habove _ hlt (Nat.lt_succ_self _), ?_⟩
    rintro below rfl
    exact hbelow below (Nat.le_of_succ_le hmem) (Nat.lt_succ_self _)
  · rintro ⟨hmem, habove, hbelow⟩
    refine ⟨hmem, fun other hother hlt ↦ ?_, fun other hother hlt ↦ ?_⟩
    · obtain ⟨hle, heven⟩ := habove (Nat.lt_of_lt_of_le hlt hother)
      have hmiddle := middle_le_middle hf (Nat.le_refl pattern) (Nat.succ_le_of_lt hlt)
      exact ⟨hle.trans hmiddle, fun htie ↦ heven (le_antisymm hle (htie ▸ hmiddle))⟩
    · obtain ⟨below, rfl⟩ := Nat.exists_eq_add_of_le' (Nat.one_le_of_lt hlt)
      obtain ⟨hle, heven⟩ := hbelow below rfl
      have hmiddle := middle_le_middle hf (Nat.le_of_lt_succ hlt) (Nat.le_refl (below + 1))
      exact ⟨hmiddle.trans hle, fun htie ↦ heven (le_antisymm (htie ▸ hmiddle) hle)⟩

/-- A wide format that also holds the numbers half way between neighbours of a narrow one. -/
structure Splits (narrow wide : Format) : Prop extends Widens narrow wide where
  fractionBits_lt : narrow.fractionBits < wide.fractionBits
  scale_lt : narrow.scale + wide.fractionBits < wide.scale

theorem splits_half_single : Splits half single := by
  refine ⟨⟨?_, ?_, ?_⟩, ?_, ?_⟩ <;> decide

/-- The middle between neighbours of a narrow format is a number of a wide one. -/
theorem Splits.exists_middle (h : Splits narrow wide) (hn : narrow.Proper) (hw : wide.Proper)
    (hpattern : pattern < narrow.infinity) :
    ∃ other < wide.infinity, wide.value other = narrow.middle pattern (pattern + 1) := by
  obtain ⟨e, b, hs, rfl⟩ := exists_significand narrow pattern
  have he : e < 2 ^ narrow.exponentBits - 1 := by
    refine Nat.lt_of_mul_lt_mul_right (a := 2 ^ narrow.fractionBits) ?_
    exact Nat.lt_of_le_of_lt (Nat.le_add_right _ _) hpattern
  have hscale := h.scale_lt
  have hwide := h.exponent_le
  obtain ⟨shift, hshift⟩ := Nat.exists_eq_add_of_lt (Nat.lt_of_le_of_lt (Nat.le_add_right _ _) hscale)
  have hlt : 2 * b + 1 < 2 ^ (wide.fractionBits + 1) := by
    have hb := hs.lt
    have hle : 2 ^ (narrow.fractionBits + 2) ≤ 2 ^ (wide.fractionBits + 1) :=
      Nat.pow_le_pow_right (by decide) (by have := h.fractionBits_lt; omega)
    rw [Nat.pow_succ] at hle
    omega
  obtain ⟨e', b', hs', he', hvalue⟩ :=
    exists_significand_mul wide (e := e + shift) (Nat.succ_ne_zero (2 * b)) hlt (by omega)
  refine ⟨e' * 2 ^ wide.fractionBits + b', hs'.lt_infinity (by omega), ?_⟩
  rw [middle, value_eq hw, value_eq hn, value_eq hn, hs'.units, hvalue, hs.units, hs.units_succ,
    hshift]
  push_cast
  rw [pow_add, pow_add, pow_add]
  field_simp
  ring

/-- The middle of two neighbours lies between them. -/
theorem lt_middle (hf : f.Proper) (pattern : Nat) :
    f.value pattern < f.middle pattern (pattern + 1) ∧
      f.middle pattern (pattern + 1) < f.value (pattern + 1) := by
  have := strictMono_value hf (Nat.lt_succ_self pattern)
  rw [middle]
  constructor <;> linarith

/-- The number `y` stands half way between two neighbours, and separates `q` from the pattern. -/
structure Misleads (f : Format) (y q : ℚ) (pattern : Nat) : Prop where
  halfway : ∃ below < f.infinity, y = f.middle below (below + 1)
  between : q < y ∧ y < f.value pattern ∨ f.value pattern < y ∧ y < q

/-- Rounding to a wide format does not pass the middle between neighbours of a narrow one. -/
theorem Splits.lt_middle_iff (h : Splits narrow wide) (hn : narrow.Proper) (hw : wide.Proper)
    {y : Nat} (hy : wide.CorrectlyRounded q y) (hpattern : pattern < narrow.infinity) :
    (wide.value y < narrow.middle pattern (pattern + 1) → q < narrow.middle pattern (pattern + 1)) ∧
      (narrow.middle pattern (pattern + 1) < wide.value y →
        narrow.middle pattern (pattern + 1) < q) := by
  obtain ⟨other, hother, hmiddle⟩ := h.exists_middle hn hw hpattern
  obtain ⟨-, habove, hbelow⟩ := (nearestIn_iff hw).mp ((correctlyRounded_iff hw).mp hy)
  rw [← hmiddle]
  constructor
  · intro hlt
    have := (habove other hother.le ((strictMono_value hw).lt_iff_lt.mp hlt)).1
    rw [middle] at this
    linarith
  · intro hlt
    have := (hbelow other hother.le ((strictMono_value hw).lt_iff_lt.mp hlt)).1
    rw [middle] at this
    linarith

/-- A number that was rounded to a wide format first is correctly rounded, unless the number of the
wide format is misleading. -/
theorem Splits.correctlyRounded_iff (h : Splits narrow wide) (hn : narrow.Proper) (hw : wide.Proper)
    {y : Nat} (hy : wide.CorrectlyRounded q y)
    (hpattern : narrow.CorrectlyRounded (wide.value y) pattern) :
    narrow.CorrectlyRounded q pattern ↔ ¬ narrow.Misleads (wide.value y) q pattern := by
  rw [Format.correctlyRounded_iff hn, nearestIn_Iic_iff hn] at hpattern
  rw [Format.correctlyRounded_iff hn, nearestIn_Iic_iff hn]
  obtain ⟨hmem, habove, hbelow⟩ := hpattern
  constructor
  · rintro ⟨-, habove', hbelow'⟩ ⟨⟨middle, hlt, hhalf⟩, ⟨hq, hbetween⟩ | ⟨hbetween, hq⟩⟩
    · rw [hhalf] at hq hbetween
      have hless : middle < pattern :=
        (strictMono_value hn).lt_iff_lt.mp ((lt_middle hn middle).1.trans hbetween)
      obtain ⟨below, rfl⟩ := Nat.exists_eq_add_of_le' (Nat.one_le_of_lt hless)
      have hle := middle_le_middle hn (Nat.le_of_lt_succ hless) (Nat.succ_le_of_lt hless)
      exact absurd (hle.trans (hbelow' below rfl).1) hq.not_ge
    · rw [hhalf] at hq hbetween
      have hless : pattern < middle + 1 :=
        (strictMono_value hn).lt_iff_lt.mp (hbetween.trans (lt_middle hn middle).2)
      have hle := middle_le_middle hn (Nat.le_of_lt_succ hless) (Nat.succ_le_of_lt hless)
      have hlast := Nat.lt_of_le_of_lt (Nat.le_of_lt_succ hless) hlt
      exact absurd ((habove' hlast).1.trans hle) hq.not_ge
  · intro hnot
    refine ⟨hmem, fun hlt ↦ ?_, ?_⟩
    · obtain ⟨hle, heven⟩ := habove hlt
      rcases hle.lt_or_eq with hless | heq
      · have hq := (h.lt_middle_iff hn hw hy hlt).1 hless
        exact ⟨hq.le, fun htie ↦ absurd htie hq.ne⟩
      · refine ⟨le_of_not_gt fun hq ↦ hnot ⟨⟨pattern, hlt, heq⟩, .inr ?_⟩, fun _ ↦ heven heq⟩
        rw [heq]
        exact ⟨(lt_middle hn pattern).1, hq⟩
    · rintro below rfl
      obtain ⟨hle, heven⟩ := hbelow below rfl
      rcases hle.lt_or_eq with hless | heq
      · have hq := (h.lt_middle_iff hn hw hy hmem).2 hless
        exact ⟨hq.le, fun htie ↦ absurd htie hq.ne'⟩
      · refine ⟨le_of_not_gt fun hq ↦ hnot ⟨⟨below, hmem, heq.symm⟩, .inl ?_⟩,
          fun _ ↦ heven heq.symm⟩
        rw [← heq]
        exact ⟨hq, (lt_middle hn below).2⟩

/-- What is infinite in a wide format is infinite in a narrow one. -/
theorem Splits.correctlyRounded_infinity (h : Splits narrow wide) (hn : narrow.Proper)
    (hw : wide.Proper) : narrow.CorrectlyRounded (wide.value wide.infinity) narrow.infinity := by
  have hpos := infinity_pos hn
  obtain ⟨other, hother, hmiddle⟩ := h.exists_middle hn hw (Nat.sub_lt hpos Nat.one_pos)
  rw [Nat.sub_add_cancel hpos] at hmiddle
  have hlt : narrow.limit < wide.value wide.infinity := by
    rw [limit, ← middle, ← hmiddle]
    exact strictMono_value hw hother
  exact ⟨fun _ ↦ rfl, fun hless ↦ absurd hless hlt.not_gt⟩

end Format

end SpirvText

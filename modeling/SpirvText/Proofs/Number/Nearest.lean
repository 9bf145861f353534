import Mathlib.Algebra.Order.Field.Power
import Mathlib.Data.Rat.Floor
import Mathlib.Order.Interval.Set.Defs
import Mathlib.Tactic.FieldSimp
import Mathlib.Tactic.Linarith
import Mathlib.Tactic.NormNum
import Mathlib.Tactic.Positivity
import SpirvText.Proofs.Number.Rounding

/-!
# Rounding to nearest

`Format.value` gives the number that a pattern stands for by its fields, and `CorrectlyRounded` says
that a pattern is a number rounded to nearest, a tie to the even significand.  The rounding of
quotients does just this (`correctlyRounded_round`): a number is divided by the last place of its
significand, and no pattern is nearer than the nearest multiple of it.

Patterns ascend with their values, so a pattern is the nearest to what lies between the middles to
its neighbours (`nearestIn_iff`), and infinity is rounded to as if it were the number that would
come next (`correctlyRounded_iff`).
-/

namespace SpirvText

/-! ## Dividing to the nearest whole number -/

/-- What is divided is at most half a divisor away from the result, and a result at just that
distance is even. -/
theorem roundDiv_bounds (n : Nat) {d : Nat} (hd : 0 < d) :
    2 * n ≤ 2 * (roundDiv n d * d) + d ∧ 2 * (roundDiv n d * d) ≤ 2 * n + d ∧
      (2 * n = 2 * (roundDiv n d * d) + d ∨ 2 * (roundDiv n d * d) = 2 * n + d →
        Even (roundDiv n d)) := by
  have hdiv : n / d * d + n % d = n := Nat.div_add_mod' n d
  have hlt := Nat.mod_lt n hd
  rw [Nat.even_iff, roundDiv]
  split
  · omega
  · have hsucc : (n / d + 1) * d = n / d * d + d := Nat.succ_mul _ _
    split
    · omega
    · rcases Nat.mod_two_eq_zero_or_one (n / d) with heven | hodd
      · rw [heven, Nat.add_zero]
        omega
      · rw [hodd]
        omega

/-- A whole number is at least as far from the quotient as the result, and only an even result can
be as far. -/
theorem abs_div_sub_roundDiv_le (n : Nat) {d : Nat} (hd : 0 < d) {k : Nat}
    (hk : k ≠ roundDiv n d) :
    |(n / d : ℚ) - roundDiv n d| ≤ |(n / d : ℚ) - k| ∧
      (|(n / d : ℚ) - roundDiv n d| = |(n / d : ℚ) - k| → Even (roundDiv n d)) := by
  obtain ⟨hupper, hlower, heven⟩ := roundDiv_bounds n hd
  have hd' : (0 : ℚ) < d := by exact_mod_cast hd
  have hupper' : (n / d : ℚ) - roundDiv n d ≤ 1 / 2 := by
    rw [sub_le_iff_le_add, div_le_iff₀ hd']
    have : (2 * n : ℚ) ≤ 2 * (roundDiv n d * d) + d := by exact_mod_cast hupper
    linarith
  have hlower' : -(1 / 2) ≤ (n / d : ℚ) - roundDiv n d := by
    rw [le_sub_iff_add_le, le_div_iff₀ hd']
    have : 2 * (roundDiv n d * d) ≤ (2 * n + d : ℚ) := by exact_mod_cast hlower
    linarith
  have hgap : (1 : ℚ) ≤ |(roundDiv n d : ℚ) - k| := by
    have : (1 : ℤ) ≤ |(roundDiv n d : ℤ) - k| := Int.one_le_abs (by omega)
    exact_mod_cast this
  have htriangle := abs_sub_le (roundDiv n d : ℚ) (n / d) k
  have hhalf : |(n / d : ℚ) - roundDiv n d| ≤ 1 / 2 := abs_le.mpr ⟨hlower', hupper'⟩
  rw [abs_sub_comm (roundDiv n d : ℚ) (n / d)] at htriangle
  refine ⟨by linarith, fun htie ↦ heven ?_⟩
  have hfar : |(n / d : ℚ) - roundDiv n d| = 1 / 2 := by linarith
  rcases (abs_eq (by norm_num)).mp hfar with h | h
  · left
    have : (2 * n : ℚ) = 2 * (roundDiv n d * d) + d := by
      field_simp at h
      linarith
    exact_mod_cast this
  · right
    have : 2 * (roundDiv n d * d) = (2 * n + d : ℚ) := by
      field_simp at h
      linarith
    exact_mod_cast this

namespace Format

/-! ## The numbers of a format -/

def sign (f : Format) (bits : Nat) : Nat := bits / f.signBit

def magnitude (f : Format) (bits : Nat) : Nat := bits % f.signBit

/-- The significand of a pattern without sign: its fraction bits, with a one in front of them unless
the exponent field is zero. -/
def significand (f : Format) (pattern : Nat) : Nat :=
  pattern % 2 ^ f.fractionBits +
    if pattern / 2 ^ f.fractionBits = 0 then 0 else 2 ^ f.fractionBits

/-- The exponent field of one. -/
def bias (f : Format) : Nat := 2 ^ (f.exponentBits - 1) - 1

/-- The value of a pattern without sign.  An exponent field of zero stands for the same power as a
field of one. -/
def value (f : Format) (pattern : Nat) : ℚ :=
  f.significand pattern *
    2 ^ ((max (pattern / 2 ^ f.fractionBits) 1 : Nat) - f.bias - f.fractionBits : ℤ)

/-- The pattern is the nearest to `q` of some patterns, and an even one if another is as near. -/
structure NearestIn (f : Format) (patterns : Set Nat) (q : ℚ) (pattern : Nat) : Prop where
  mem : pattern ∈ patterns
  le : ∀ other ∈ patterns, |q - f.value pattern| ≤ |q - f.value other|
  even : ∀ other ∈ patterns, other ≠ pattern →
    |q - f.value pattern| = |q - f.value other| → Even (f.significand pattern)

/-- Half way from the largest finite number to the one that would come next. -/
def limit (f : Format) : ℚ := (f.value (f.infinity - 1) + f.value f.infinity) / 2

/-- The pattern is `q` rounded to nearest, a tie to the even significand. -/
structure CorrectlyRounded (f : Format) (q : ℚ) (pattern : Nat) : Prop where
  infinite : f.limit ≤ q → pattern = f.infinity
  finite : q < f.limit → f.NearestIn (Set.Iio f.infinity) q pattern

/-- A format with a fraction, and with exponents of both signs. -/
structure Proper (f : Format) : Prop where
  fractionBits_pos : 0 < f.fractionBits
  two_le_exponentBits : 2 ≤ f.exponentBits

theorem proper_half : half.Proper := ⟨by decide, by decide⟩

theorem proper_single : single.Proper := ⟨by decide, by decide⟩

theorem proper_double : double.Proper := ⟨by decide, by decide⟩

variable {f : Format}

/-- The value of a pattern is its units, scaled down. -/
theorem value_eq (hf : f.Proper) (pattern : Nat) :
    f.value pattern = f.units pattern / 2 ^ f.scale := by
  have hpow : 2 ≤ 2 ^ (f.exponentBits - 1) := by
    have := hf.two_le_exponentBits
    exact Nat.le_self_pow (by omega) 2
  have hscale : ∀ e : Nat, (2 : ℚ) ^ ((e + 1 : Nat) - f.bias - f.fractionBits : ℤ) =
      2 ^ e / 2 ^ f.scale := by
    intro e
    rw [← zpow_natCast, ← zpow_natCast, ← zpow_sub₀ two_ne_zero]
    congr 1
    simp only [bias, scale]
    omega
  have hdiv := Nat.div_add_mod' pattern (2 ^ f.fractionBits)
  rw [value, significand, units]
  cases hfield : pattern / 2 ^ f.fractionBits with
  | zero =>
    rw [hfield] at hdiv
    have hone := hscale 0
    simp only [Nat.zero_mul, Nat.zero_add] at hdiv
    simp only [Nat.zero_add, pow_zero] at hone
    simp only [if_true, Nat.zero_max, hone, hdiv, Nat.zero_sub, Nat.zero_mul, Nat.sub_zero,
      pow_zero]
    push_cast
    ring
  | succ e =>
    rw [hfield, Nat.succ_mul] at hdiv
    have hsig : pattern - e * 2 ^ f.fractionBits =
        pattern % 2 ^ f.fractionBits + 2 ^ f.fractionBits := by omega
    rw [if_neg e.succ_ne_zero, Nat.max_eq_left (by omega), hscale]
    simp only [Nat.add_sub_cancel, hsig]
    push_cast
    ring

/-- A significand is even just if its pattern is. -/
theorem even_significand_iff (hf : f.Proper) (pattern : Nat) :
    Even (f.significand pattern) ↔ Even pattern := by
  have htwo : 2 ∣ 2 ^ f.fractionBits := dvd_pow_self 2 hf.fractionBits_pos.ne'
  have hmod := Nat.mod_mod_of_dvd pattern htwo
  rw [Nat.even_iff, Nat.even_iff, significand]
  split <;> omega

/-! ## Patterns ascend with their values -/

/-- A significand may be one too large for its exponent: then it carries. -/
theorem units_of_le {e r : Nat} (hfull : e ≠ 0 → 2 ^ f.fractionBits ≤ r)
    (hle : r ≤ 2 ^ (f.fractionBits + 1)) : f.units (e * 2 ^ f.fractionBits + r) = r * 2 ^ e := by
  rcases Nat.lt_or_eq_of_le hle with hlt | rfl
  · exact Significand.units ⟨hfull, hlt⟩
  · have hs : f.Significand (e + 1) (2 ^ f.fractionBits) :=
      ⟨fun _ ↦ Nat.le_refl _, Nat.pow_lt_pow_right (by decide) (Nat.lt_succ_self _)⟩
    have hcarry : e * 2 ^ f.fractionBits + 2 ^ (f.fractionBits + 1) =
        (e + 1) * 2 ^ f.fractionBits + 2 ^ f.fractionBits := by ring
    rw [hcarry, hs.units]
    ring

theorem Significand.units_succ {e b : Nat} (h : f.Significand e b) :
    f.units (e * 2 ^ f.fractionBits + b + 1) = (b + 1) * 2 ^ e :=
  units_of_le (fun he ↦ Nat.le_succ_of_le (h.full he)) h.lt

theorem strictMono_units (f : Format) : StrictMono f.units := by
  refine strictMono_nat_of_lt_succ fun pattern ↦ ?_
  obtain ⟨e, b, hs, rfl⟩ := exists_significand f pattern
  rw [hs.units, hs.units_succ]
  exact Nat.mul_lt_mul_of_pos_right (Nat.lt_succ_self b) (Nat.two_pow_pos e)

/-- Larger patterns are larger numbers. -/
theorem strictMono_value (hf : f.Proper) : StrictMono f.value := by
  intro pattern other hlt
  rw [value_eq hf, value_eq hf]
  have := f.strictMono_units hlt
  gcongr

/-! ## Rounding finds the nearest pattern -/

theorem div_le_roundDiv (n d : Nat) : n / d ≤ roundDiv n d := by
  rw [roundDiv]
  split
  · exact Nat.le_refl _
  · split <;> exact Nat.le_add_right _ _

theorem roundDiv_le_succ (n d : Nat) : roundDiv n d ≤ n / d + 1 := by
  rw [roundDiv]
  split
  · exact Nat.le_succ _
  · split
    · exact Nat.le_refl _
    · exact Nat.add_le_add_left (Nat.le_of_lt_succ (Nat.mod_lt _ (by decide))) _

theorem log2_sub_bounds (p x : Nat) :
    (x.log2 - p ≠ 0 → 2 ^ p ≤ x / 2 ^ (x.log2 - p)) ∧ x / 2 ^ (x.log2 - p) < 2 ^ (p + 1) := by
  by_cases hx : x = 0
  · simp [hx]
  have hself := Nat.log2_self_le hx
  have hlt : x < 2 ^ (x.log2 + 1) := Nat.lt_log2_self
  constructor
  · intro he
    rw [Nat.le_div_iff_mul_le (Nat.two_pow_pos _), ← Nat.pow_add]
    exact Nat.le_trans (Nat.pow_le_pow_right (by decide) (by omega)) hself
  · rw [Nat.div_lt_iff_lt_mul (Nat.two_pow_pos _), ← Nat.pow_add]
    exact Nat.lt_of_lt_of_le hlt (Nat.pow_le_pow_right (by decide) (by omega))

/-- A pattern stands for a multiple of `2 ^ e` units, or for less than a full significand of
them. -/
theorem units_grid (f : Format) (e pattern : Nat) :
    (∃ k, f.units pattern = k * 2 ^ e) ∨
      e ≠ 0 ∧ f.units pattern < 2 ^ f.fractionBits * 2 ^ e := by
  obtain ⟨e', b, hs, rfl⟩ := exists_significand f pattern
  rw [hs.units]
  rcases Nat.lt_or_ge e' e with hlow | hhigh
  · right
    refine ⟨by omega, ?_⟩
    calc b * 2 ^ e' < 2 ^ (f.fractionBits + 1) * 2 ^ e' :=
          Nat.mul_lt_mul_of_pos_right hs.lt (Nat.two_pow_pos e')
      _ = 2 ^ f.fractionBits * 2 ^ (e' + 1) := by ring
      _ ≤ 2 ^ f.fractionBits * 2 ^ e :=
          Nat.mul_le_mul_left _ (Nat.pow_le_pow_right (by decide) hlow)
  · left
    refine ⟨b * 2 ^ (e' - e), ?_⟩
    rw [Nat.mul_assoc, ← Nat.pow_add, Nat.sub_add_cancel hhigh]

/-- Rounding to multiples of `2 ^ e`. -/
theorem abs_sub_roundDiv_mul_le (x : Nat) {d : Nat} (hd : 0 < d) (e : Nat) {k : Nat}
    (hk : k ≠ roundDiv x (d * 2 ^ e)) :
    |(x / d : ℚ) - roundDiv x (d * 2 ^ e) * 2 ^ e| ≤ |(x / d : ℚ) - k * 2 ^ e| ∧
      (|(x / d : ℚ) - roundDiv x (d * 2 ^ e) * 2 ^ e| = |(x / d : ℚ) - k * 2 ^ e| →
        Even (roundDiv x (d * 2 ^ e))) := by
  have hpos : (0 : ℚ) < 2 ^ e := by positivity
  have hd' : (d : ℚ) ≠ 0 := by exact_mod_cast hd.ne'
  have hscale : ∀ k : ℚ, |(x / d : ℚ) - k * 2 ^ e| = |x / (d * 2 ^ e : Nat) - k| * 2 ^ e := by
    intro k
    rw [← abs_of_pos hpos, ← abs_mul, abs_of_pos hpos]
    congr 1
    push_cast
    field_simp
  obtain ⟨hle, htie⟩ := abs_div_sub_roundDiv_le x (Nat.mul_pos hd (Nat.two_pow_pos e)) hk
  rw [hscale, hscale]
  exact ⟨mul_le_mul_of_nonneg_right hle hpos.le,
    fun heq ↦ htie (mul_right_cancel₀ hpos.ne' heq)⟩

/-- Rounding to multiples of `2 ^ e` units finds the nearest number, if what is rounded has a full
significand there. -/
theorem abs_sub_roundDiv_le_units (f : Format) {x d e : Nat} (hd : 0 < d)
    (hfull : e ≠ 0 → 2 ^ f.fractionBits ≤ x / (d * 2 ^ e)) (pattern : Nat)
    (hne : f.units pattern ≠ roundDiv x (d * 2 ^ e) * 2 ^ e) :
    |(x / d : ℚ) - roundDiv x (d * 2 ^ e) * 2 ^ e| ≤ |(x / d : ℚ) - f.units pattern| ∧
      (|(x / d : ℚ) - roundDiv x (d * 2 ^ e) * 2 ^ e| = |(x / d : ℚ) - f.units pattern| →
        Even (roundDiv x (d * 2 ^ e))) := by
  rcases f.units_grid e pattern with ⟨k, hk⟩ | ⟨he, hlow⟩
  · have hkne : k ≠ roundDiv x (d * 2 ^ e) := by
      rintro rfl
      exact hne hk
    rw [hk]
    push_cast
    exact abs_sub_roundDiv_mul_le x hd e hkne
  · have hd' : (0 : ℚ) < d := by exact_mod_cast hd
    have hlow' : (f.units pattern : ℚ) < 2 ^ f.fractionBits * 2 ^ e := by exact_mod_cast hlow
    have hge : (2 ^ f.fractionBits * 2 ^ e : ℚ) ≤ x / d := by
      rw [le_div_iff₀ hd']
      have := (Nat.le_div_iff_mul_le (Nat.mul_pos hd (Nat.two_pow_pos e))).mp (hfull he)
      calc (2 ^ f.fractionBits * 2 ^ e * d : ℚ) = 2 ^ f.fractionBits * (d * 2 ^ e) := by ring
        _ ≤ x := by exact_mod_cast this
    have hnear : |(x / d : ℚ) - roundDiv x (d * 2 ^ e) * 2 ^ e| ≤
        x / d - 2 ^ f.fractionBits * 2 ^ e := by
      rw [← abs_of_nonneg (sub_nonneg.mpr hge)]
      by_cases heq : 2 ^ f.fractionBits = roundDiv x (d * 2 ^ e)
      · rw [← heq]
        push_cast
        exact le_refl _
      · have := (abs_sub_roundDiv_mul_le x hd e heq).1
        push_cast at this
        exact this
    have hfar : |(x / d : ℚ) - f.units pattern| = x / d - f.units pattern :=
      abs_of_pos (by linarith)
    rw [hfar]
    exact ⟨by linarith, fun heq ↦ by linarith⟩

theorem abs_sub_value (hf : f.Proper) (n d pattern : Nat) :
    |(n / d : ℚ) - f.value pattern| =
      |((n * 2 ^ f.scale : Nat) / d : ℚ) - f.units pattern| / 2 ^ f.scale := by
  have hpos : (0 : ℚ) < 2 ^ f.scale := by positivity
  rw [value_eq hf, ← abs_of_pos hpos, ← abs_div, abs_of_pos hpos]
  congr 1
  push_cast
  field_simp

/-- With no bound on exponents, rounding finds the nearest of all patterns. -/
theorem exists_nearestIn_univ (hf : f.Proper) (n : Nat) {d : Nat} (hd : 0 < d) :
    ∃ pattern, f.round n d = min f.infinity pattern ∧ f.NearestIn Set.univ (n / d) pattern := by
  set x := n * 2 ^ f.scale with hx
  set e := (x / d).log2 - f.fractionBits with he
  set r := roundDiv x (d * 2 ^ e) with hr
  obtain ⟨hfull, hlt⟩ := log2_sub_bounds f.fractionBits (x / d)
  rw [← he, Nat.div_div_eq_div_mul] at hfull hlt
  have hunits : f.units (e * 2 ^ f.fractionBits + r) = r * 2 ^ e :=
    units_of_le (fun h ↦ Nat.le_trans (hfull h) (div_le_roundDiv _ _))
      (Nat.le_trans (roundDiv_le_succ _ _) hlt)
  have hnear : ∀ other, other ≠ e * 2 ^ f.fractionBits + r →
      |(n / d : ℚ) - f.value (e * 2 ^ f.fractionBits + r)| ≤ |(n / d : ℚ) - f.value other| ∧
        (|(n / d : ℚ) - f.value (e * 2 ^ f.fractionBits + r)| = |(n / d : ℚ) - f.value other| →
          Even r) := by
    intro other hne
    have hpos : (0 : ℚ) < 2 ^ f.scale := by positivity
    obtain ⟨hle, htie⟩ := abs_sub_roundDiv_le_units f hd hfull other fun h ↦
      hne (f.strictMono_units.injective (h.trans hunits.symm))
    rw [abs_sub_value hf, abs_sub_value hf, hunits, ← hx, div_le_div_iff_of_pos_right hpos,
      div_left_inj' hpos.ne']
    push_cast
    exact ⟨hle, htie⟩
  refine ⟨e * 2 ^ f.fractionBits + r, rfl, Set.mem_univ _, fun other _ ↦ ?_,
    fun other _ hne htie ↦ ?_⟩
  · by_cases hne : other = e * 2 ^ f.fractionBits + r
    · rw [hne]
    · exact (hnear other hne).1
  · have heven : Even (2 ^ f.fractionBits) :=
      even_two.pow_of_ne_zero hf.fractionBits_pos.ne'
    rw [even_significand_iff hf]
    exact (heven.mul_left e).add ((hnear other hne).2 htie)

/-! ## Between the neighbours -/

/-- Which of two numbers is nearer depends on which side of the middle one is. -/
theorem cmp_abs_sub {q a b : ℚ} (h : a < b) : cmp |q - a| |q - b| = cmp q ((a + b) / 2) := by
  rcases lt_trichotomy q ((a + b) / 2) with hq | hq | hq
  · rw [(cmp_eq_lt_iff _ _).mpr hq, cmp_eq_lt_iff, ← sq_lt_sq]
    nlinarith
  · have hsame : q - b = -(q - a) := by linarith
    rw [hsame, abs_neg, cmp_self_eq_eq, hq, cmp_self_eq_eq]
  · rw [(cmp_eq_gt_iff _ _).mpr hq, cmp_eq_gt_iff, ← sq_lt_sq]
    nlinarith

/-- Half way between two patterns. -/
def middle (f : Format) (pattern other : Nat) : ℚ := (f.value pattern + f.value other) / 2

variable {patterns : Set Nat} {q : ℚ} {pattern other : Nat}

theorem middle_le_middle (hf : f.Proper) {pattern' other' : Nat} (h : pattern ≤ pattern')
    (h' : other ≤ other') : f.middle pattern other ≤ f.middle pattern' other' := by
  have := (strictMono_value hf).monotone h
  have := (strictMono_value hf).monotone h'
  rw [middle, middle]
  linarith

theorem middle_lt_middle (hf : f.Proper) {other' : Nat} (h : other < other') (pattern : Nat) :
    f.middle pattern other < f.middle pattern other' := by
  have := strictMono_value hf h
  rw [middle, middle]
  linarith

/-- The nearest pattern is the one between whose middles with the others the number lies. -/
theorem nearestIn_iff (hf : f.Proper) :
    f.NearestIn patterns q pattern ↔ pattern ∈ patterns ∧
      (∀ other ∈ patterns, pattern < other → q ≤ f.middle pattern other ∧
        (q = f.middle pattern other → Even pattern)) ∧
      ∀ other ∈ patterns, other < pattern → f.middle other pattern ≤ q ∧
        (q = f.middle other pattern → Even pattern) := by
  have hsides : ∀ {low high : Nat}, low < high →
      cmp |q - f.value low| |q - f.value high| = cmp q (f.middle low high) :=
    fun hlt ↦ cmp_abs_sub (strictMono_value hf hlt)
  constructor
  · rintro ⟨hmem, hle, heven⟩
    refine ⟨hmem, fun other hother hlt ↦ ?_, fun other hother hlt ↦ ?_⟩
    · have hcmp := hsides hlt
      refine ⟨(le_iff_le_of_cmp_eq_cmp hcmp).mp (hle other hother), fun htie ↦ ?_⟩
      exact (even_significand_iff hf _).mp
        (heven other hother hlt.ne' ((eq_iff_eq_of_cmp_eq_cmp hcmp).mpr htie))
    · have hcmp := cmp_eq_cmp_symm.mp (hsides hlt)
      refine ⟨(le_iff_le_of_cmp_eq_cmp hcmp).mp (hle other hother), fun htie ↦ ?_⟩
      exact (even_significand_iff hf _).mp
        (heven other hother hlt.ne ((eq_iff_eq_of_cmp_eq_cmp hcmp).mpr htie.symm))
  · rintro ⟨hmem, habove, hbelow⟩
    refine ⟨hmem, fun other hother ↦ ?_, fun other hother hne htie ↦ ?_⟩
    · rcases Nat.lt_trichotomy other pattern with hlt | rfl | hlt
      · exact (le_iff_le_of_cmp_eq_cmp (cmp_eq_cmp_symm.mp (hsides hlt))).mpr
          (hbelow other hother hlt).1
      · exact le_refl _
      · exact (le_iff_le_of_cmp_eq_cmp (hsides hlt)).mpr (habove other hother hlt).1
    · rw [even_significand_iff hf]
      rcases Nat.lt_or_gt_of_ne hne with hlt | hlt
      · exact (hbelow other hother hlt).2 ((eq_iff_eq_of_cmp_eq_cmp (hsides hlt)).mp htie.symm)
      · exact (habove other hother hlt).2 ((eq_iff_eq_of_cmp_eq_cmp (hsides hlt)).mp htie)

/-- The nearest of some patterns is the nearest of fewer. -/
theorem NearestIn.mono {smaller : Set Nat} (h : f.NearestIn patterns q pattern)
    (hsub : smaller ⊆ patterns) (hmem : pattern ∈ smaller) : f.NearestIn smaller q pattern :=
  ⟨hmem, fun other hother ↦ h.le other (hsub hother),
    fun other hother ↦ h.even other (hsub hother)⟩

/-! ## Infinity -/

theorem even_infinity (hf : f.Proper) : Even f.infinity :=
  (even_two.pow_of_ne_zero hf.fractionBits_pos.ne').mul_left _

theorem infinity_pos (hf : f.Proper) : 0 < f.infinity := by
  have := Nat.pow_le_pow_right (n := 2) (by decide) hf.two_le_exponentBits
  exact Nat.mul_pos (by omega) (Nat.two_pow_pos _)

/-- Infinity is rounded to as if it were the number that would come next. -/
theorem correctlyRounded_iff (hf : f.Proper) :
    f.CorrectlyRounded q pattern ↔ f.NearestIn (Set.Iic f.infinity) q pattern := by
  have hpos := infinity_pos hf
  have hlimit : f.limit = f.middle (f.infinity - 1) f.infinity := rfl
  constructor
  · rintro ⟨hinfinite, hfinite⟩
    rcases le_or_gt f.limit q with hle | hlt
    · obtain rfl := hinfinite hle
      refine (nearestIn_iff hf).mpr ⟨Set.mem_Iic.mpr le_rfl, fun other hother hlt ↦ ?_,
        fun other hother hlt ↦ ⟨?_, fun _ ↦ even_infinity hf⟩⟩
      · exact absurd hother (Set.notMem_Iic.mpr hlt)
      · exact (middle_le_middle hf (by omega) le_rfl).trans hle
    · obtain ⟨hmem, habove, hbelow⟩ := (nearestIn_iff hf).mp (hfinite hlt)
      have hmem : pattern < f.infinity := hmem
      have hless : q < f.middle pattern f.infinity := by
        rcases Nat.lt_or_ge pattern (f.infinity - 1) with hlast | hlast
        · exact (habove _ (Nat.sub_lt hpos Nat.one_pos) hlast).1.trans_lt
            (middle_lt_middle hf (Nat.sub_lt hpos Nat.one_pos) _)
        · exact hlt.trans_le (middle_le_middle hf hlast le_rfl)
      refine (nearestIn_iff hf).mpr ⟨hmem.le, fun other hother hlt' ↦ ?_, fun other hother hlt' ↦
        hbelow other (hlt'.trans hmem) hlt'⟩
      rcases Nat.lt_or_eq_of_le hother with hother | rfl
      · exact habove other hother hlt'
      · exact ⟨hless.le, fun htie ↦ absurd htie hless.ne⟩
  · intro h
    obtain ⟨hmem, habove, hbelow⟩ := (nearestIn_iff hf).mp h
    refine ⟨fun hle ↦ ?_, fun hlt ↦ h.mono Set.Iio_subset_Iic_self ?_⟩
    · by_contra hne
      have hlt : pattern < f.infinity := Nat.lt_of_le_of_ne hmem hne
      obtain ⟨hmiddle, heven⟩ := habove f.infinity (Set.mem_Iic.mpr le_rfl) hlt
      have hle' : f.middle pattern f.infinity ≤ f.limit :=
        middle_le_middle hf (by omega) le_rfl
      have hlast : pattern = f.infinity - 1 := by
        refine (strictMono_value hf).injective ?_
        have : f.middle pattern f.infinity = f.limit := by linarith
        rw [hlimit, middle, middle] at this
        linarith
      have hodd := heven (by linarith)
      have := even_infinity hf
      rw [hlast, Nat.even_iff] at hodd
      rw [Nat.even_iff] at this
      omega
    · refine Set.mem_Iio.mpr (Nat.lt_of_le_of_ne hmem ?_)
      rintro rfl
      have := (hbelow (f.infinity - 1) (Set.mem_Iic.mpr (Nat.sub_le _ _)) (by omega)).1
      rw [← hlimit] at this
      exact absurd hlt this.not_gt

/-- Rounding a quotient is correct. -/
theorem correctlyRounded_round (hf : f.Proper) (n : Nat) {d : Nat} (hd : 0 < d) :
    f.CorrectlyRounded (n / d) (f.round n d) := by
  obtain ⟨pattern, hround, hnearest⟩ := exists_nearestIn_univ hf n hd
  rw [correctlyRounded_iff hf, hround]
  rcases Nat.lt_or_ge f.infinity pattern with hlt | hle
  · rw [Nat.min_eq_left hlt.le]
    obtain ⟨-, -, hbelow⟩ := (nearestIn_iff hf).mp hnearest
    have hmiddle := (hbelow f.infinity (Set.mem_univ _) hlt).1
    refine (nearestIn_iff hf).mpr ⟨Set.mem_Iic.mpr le_rfl, fun other hother hlt ↦ ?_,
      fun other hother hlt' ↦ ⟨?_, fun _ ↦ even_infinity hf⟩⟩
    · exact absurd hother (Set.notMem_Iic.mpr hlt)
    · exact (middle_le_middle hf hlt'.le hlt.le).trans hmiddle
  · rw [Nat.min_eq_right hle]
    exact hnearest.mono (Set.subset_univ _) hle

theorem correctlyRounded_round_units {source target : Format} (hs : source.Proper)
    (ht : target.Proper) (pattern : Nat) :
    target.CorrectlyRounded (source.value pattern)
      (target.round (source.units pattern) (2 ^ source.scale)) := by
  have hround := correctlyRounded_round ht (source.units pattern) (Nat.two_pow_pos source.scale)
  push_cast at hround
  rwa [← value_eq hs] at hround

/-- What is not above half of the smallest positive number is rounded to zero. -/
theorem CorrectlyRounded.eq_zero (hf : f.Proper) (h : f.CorrectlyRounded q pattern)
    (hq : q ≤ f.value 1 / 2) : pattern = 0 := by
  obtain ⟨hmem, -, hbelow⟩ := (nearestIn_iff hf).mp ((correctlyRounded_iff hf).mp h)
  by_contra hne
  have hzero : f.value 0 = 0 := by simp [value, significand]
  have hpos : 0 < pattern := Nat.pos_of_ne_zero hne
  obtain ⟨hmiddle, heven⟩ := hbelow 0 (Set.mem_Iic.mpr (Nat.zero_le _)) hpos
  have hone := (strictMono_value hf).monotone hpos
  rw [middle, hzero, zero_add] at hmiddle heven
  have heq : pattern = 1 := by
    refine (strictMono_value hf).injective (le_antisymm ?_ hone)
    linarith
  rw [heq] at heven hmiddle
  exact absurd (heven (le_antisymm hq hmiddle)) (by decide)

theorem limit_half : half.limit = 65520 := by
  norm_num [limit, value, significand, bias, infinity, half]

theorem value_one_half : half.value 1 / 2 = 1 / 2 ^ 25 := by
  norm_num [value, significand, bias, half]

/-! ## Conversions -/

theorem sign_le_one (f : Format) {bits : Nat} (h : bits < 2 * f.signBit) : f.sign bits ≤ 1 :=
  Nat.le_of_lt_succ (Nat.div_lt_of_lt_mul (by rwa [Nat.mul_comm]))

theorem sign_mul_add (sign : Nat) {magnitude : Nat} (h : magnitude < f.signBit) :
    f.sign (sign * f.signBit + magnitude) = sign :=
  (sign_div_mod sign h).1

theorem magnitude_mul_add (sign : Nat) {magnitude : Nat} (h : magnitude < f.signBit) :
    f.magnitude (sign * f.signBit + magnitude) = magnitude :=
  (sign_div_mod sign h).2

/-- A conversion keeps the sign, and rounds what is below it. -/
theorem exists_convert {source target : Format} (hs : source.Proper) (ht : target.Proper)
    {nan : Nat} (hnan : nan < target.signBit) (bits : Nat) :
    ∃ magnitude < target.signBit,
      source.convert target nan bits = source.sign bits * target.signBit + magnitude ∧
      (source.infinity < source.magnitude bits → magnitude = nan) ∧
      (source.magnitude bits = source.infinity → magnitude = target.infinity) ∧
      (source.magnitude bits < source.infinity →
        target.CorrectlyRounded (source.value (source.magnitude bits)) magnitude) := by
  have hinf := target.infinity_lt_signBit
  rcases Nat.lt_trichotomy (source.magnitude bits) source.infinity with hlt | heq | hgt
  · refine ⟨_, ?_, ?_, fun h ↦ by omega, fun h ↦ by omega,
      fun _ ↦ correctlyRounded_round_units hs ht _⟩
    · exact Nat.lt_of_le_of_lt (Nat.min_le_left _ _) hinf
    · have hbits := convert_of_lt source target nan (source.sign bits) hlt
      rwa [sign, magnitude, Nat.div_add_mod'] at hbits
  · refine ⟨target.infinity, hinf, ?_, fun h ↦ by omega, fun _ ↦ rfl, fun h ↦ by omega⟩
    rw [magnitude] at heq
    simp only [convert, heq, Nat.lt_irrefl, if_false, if_true, sign]
  · refine ⟨nan, hnan, ?_, fun _ ↦ rfl, fun h ↦ by omega, fun h ↦ by omega⟩
    rw [magnitude] at hgt
    simp only [convert, hgt, if_true, sign]

end Format

namespace Binary32

/-- The sign of the nearest 16-bit number, and what is below it. -/
theorem sign_magnitude_toHalf (x : Binary32) :
    Format.half.sign x.toHalf.toNat = Format.single.sign x.bits.toNat ∧
      (Format.single.infinity < Format.single.magnitude x.bits.toNat →
        Format.half.magnitude x.toHalf.toNat = Format.half.infinity + Format.half.quietBit) ∧
      (Format.single.magnitude x.bits.toNat = Format.single.infinity →
        Format.half.magnitude x.toHalf.toNat = Format.half.infinity) ∧
      (Format.single.magnitude x.bits.toNat < Format.single.infinity →
        Format.half.CorrectlyRounded (Format.single.value (Format.single.magnitude x.bits.toNat))
          (Format.half.magnitude x.toHalf.toNat)) := by
  have hquiet : Format.half.infinity + Format.half.quietBit < Format.half.signBit := by decide
  obtain ⟨half, hlt, hbits, hrounded⟩ := Format.exists_convert Format.proper_single
    Format.proper_half hquiet x.bits.toNat
  have hhalf : x.toHalf.toNat = Format.single.sign x.bits.toNat * Format.half.signBit + half := by
    have hsign := Format.single.sign_le_one x.bits.toNat_lt
    rw [toHalf, hbits]
    exact UInt16.toNat_ofNat_of_lt' (Format.half.mul_add_lt hsign hlt)
  rw [hhalf, Format.sign_mul_add _ hlt, Format.magnitude_mul_add _ hlt]
  exact ⟨rfl, hrounded⟩

end Binary32

end SpirvText

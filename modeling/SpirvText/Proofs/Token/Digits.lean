import Mathlib.Algebra.Group.Nat.Defs
import SpirvText.Numeral

/-!
# Digits of numbers

The digits of a number, in any base up to sixteen, are digits of that base and have the number as
their value.
-/

namespace SpirvText.Numeral

variable {base : Nat}

theorem digitValue_digitChar {d : Nat} (h : d < 16) : digitValue d.digitChar = d := by
  revert d
  decide

theorem isDigit_digitChar {d : Nat} (h : d < base) (hbase : base ≤ 16) :
    isDigit base d.digitChar = true := by
  have hclass : ∀ d < 16, (d.digitChar.isDigit || d.digitChar.isAlpha) = true := by decide
  have hd : d < 16 := Nat.lt_of_lt_of_le h hbase
  rw [isDigit, hclass d hd, digitValue_digitChar hd]
  simpa using h

theorem isDigit_of_mem_toDigits (hbase : 1 < base) (hbase' : base ≤ 16) {n : Nat} {c : Char}
    (h : c ∈ Nat.toDigits base n) : isDigit base c = true := by
  induction n using Nat.strongRecOn with
  | ind n ih =>
    rw [Nat.toDigits_eq_if hbase] at h
    split at h
    · next hn =>
      obtain rfl := List.mem_singleton.mp h
      exact isDigit_digitChar hn hbase'
    · next hn =>
      rcases List.mem_append.mp h with h | h
      · exact ih (n / base) (Nat.div_lt_self (by omega) hbase) h
      · obtain rfl := List.mem_singleton.mp h
        exact isDigit_digitChar (Nat.mod_lt _ (by omega)) hbase'

/-! ## Values -/

@[simp] theorem value_nil (base : Nat) : value base [] = 0 := rfl

theorem value_concat (base : Nat) (ds : List Char) (c : Char) :
    value base (ds ++ [c]) = base * value base ds + digitValue c := by
  simp [value]

/-- A number is the value of its digits. -/
theorem value_toDigits (hbase : 1 < base) (hbase' : base ≤ 16) (n : Nat) :
    value base (Nat.toDigits base n) = n := by
  induction n using Nat.strongRecOn with
  | ind n ih =>
    rw [Nat.toDigits_eq_if hbase]
    split
    · next hn =>
      have := value_concat base [] n.digitChar
      rw [List.nil_append] at this
      rw [this, value_nil, digitValue_digitChar (Nat.lt_of_lt_of_le hn hbase')]
      omega
    · next hn =>
      have hlt : n % base < 16 := Nat.lt_of_lt_of_le (Nat.mod_lt _ (by omega)) hbase'
      rw [value_concat, ih (n / base) (Nat.div_lt_self (by omega) hbase),
        digitValue_digitChar hlt, Nat.div_add_mod]

/-- Zeros in front do not count. -/
theorem value_zeros_append (base n : Nat) (ds : List Char) :
    value base (List.replicate n '0' ++ ds) = value base ds := by
  induction n with
  | zero => rfl
  | succ n ih =>
    rw [← ih, List.replicate_succ, List.cons_append]
    simp [value, digitValue]

/-- Each zero at the end counts as a factor. -/
theorem value_append_zeros (base n : Nat) (ds : List Char) :
    value base (ds ++ List.replicate n '0') = value base ds * base ^ n := by
  induction n with
  | zero => simp
  | succ n ih =>
    have hzero : digitValue '0' = 0 := rfl
    rw [List.replicate_succ', ← List.append_assoc, value_concat, ih, hzero, Nat.add_zero,
      Nat.pow_succ, Nat.mul_comm base, Nat.mul_assoc]

/-- A word is read back from its digits. -/
theorem word?_toDigits (hbase : 1 < base) (hbase' : base ≤ 16) (w : UInt32) :
    word? base (Nat.toDigits base w.toNat) = some w := by
  have hall : ∀ c ∈ Nat.toDigits base w.toNat, isDigit base c = true := fun c hc ↦
    isDigit_of_mem_toDigits hbase hbase' hc
  have hplus : isDigit base '+' = false := by simp [isDigit]
  have hdigits : (Nat.toDigits base w.toNat).all (isDigit base) = true := by
    simpa using hall
  unfold word?
  split
  · next rest heq =>
    rw [heq] at hall
    rw [hall '+' List.mem_cons_self] at hplus
    cases hplus
  · simp only [hdigits, value_toDigits hbase hbase', Nat.toDigits_ne_nil, List.isEmpty_iff,
      Bool.or_eq_true, Bool.not_true, Bool.false_eq_true, or_self, if_false]
    rw [if_pos w.toNat_lt, UInt32.ofNat_toNat]

end SpirvText.Numeral

import Mathlib.Algebra.Order.Field.Power
import Mathlib.Algebra.Order.Field.Rat
import Mathlib.Data.Rat.Floor
import Mathlib.Tactic.Linarith
import Mathlib.Tactic.Positivity
import Mathlib.Tactic.Ring

set_option autoImplicit false

/-! # Doubles

Floating-point numbers with 53 significant bits, as the rationals they stand for. An operation on them
is the exact operation, rounded to the nearest of them. Exponents are not bounded: overflow and
subnormal numbers are left to the caller. -/

namespace Double

/-! ## The nearest integer -/

/-- The nearest integer, ties to the even one. -/
def nearestEven (x : ℚ) : ℤ :=
  let below := ⌊x⌋
  let rest := x - below
  if rest < 1 / 2 then below
  else if 1 / 2 < rest then below + 1
  else if below % 2 = 0 then below else below + 1

theorem nearestEven_bounds (x : ℚ) : ⌊x⌋ ≤ nearestEven x ∧ nearestEven x ≤ ⌊x⌋ + 1 := by
  unfold nearestEven
  dsimp only
  split_ifs <;> omega

theorem nearestEven_mono {x y : ℚ} (h : x ≤ y) : nearestEven x ≤ nearestEven y := by
  obtain ⟨-, hx⟩ := nearestEven_bounds x
  obtain ⟨hy, -⟩ := nearestEven_bounds y
  rcases Int.lt_or_eq_of_le (Int.floor_mono h) with hlt | heq
  · omega
  -- both lie between the same integers, so only their distances to the lower one count
  · have hrest : x - ⌊y⌋ ≤ y - ⌊y⌋ := sub_le_sub_right h _
    unfold nearestEven
    rw [heq]
    dsimp only
    split_ifs <;> first | omega | (exfalso; linarith)

@[simp] theorem nearestEven_intCast (n : ℤ) : nearestEven n = n := by
  unfold nearestEven
  simp

/-- The nearest integer is at most one half away. -/
theorem abs_nearestEven_sub_le (x : ℚ) : |(nearestEven x : ℚ) - x| ≤ 1 / 2 := by
  have hfloor := Int.floor_le x
  have hceil := Int.lt_floor_add_one x
  unfold nearestEven
  dsimp only
  split_ifs <;> rw [abs_le] <;> push_cast <;> constructor <;> linarith

/-! ## Rounding -/

/-- The exponent of the leading bit. -/
def exponent (x : ℚ) : ℤ :=
  let guess : ℤ := Nat.log2 x.num.natAbs - Nat.log2 x.den
  if (2 : ℚ) ^ guess ≤ |x| then guess else guess - 1

/-- The place value of the last of the 53 bits. -/
def ulp (x : ℚ) : ℚ := 2 ^ (exponent x - 52)

/-- The double nearest to `x`, ties to the one with the even last bit. -/
def round (x : ℚ) : ℚ := nearestEven (x / ulp x) * ulp x

/-- The double nearest to `x`, rounded to so many decimal places. -/
def roundTo (digits : Nat) (x : ℚ) : ℚ := round (nearestEven (x * 10 ^ digits) / 10 ^ digits)

theorem ulp_pos (x : ℚ) : 0 < ulp x := by
  unfold ulp
  positivity

theorem abs_eq_div (x : ℚ) : |x| = (x.num.natAbs : ℚ) / x.den := by
  conv_lhs => rw [← Rat.num_div_den x]
  rw [abs_div, Nat.abs_cast, ← Int.cast_abs, Int.abs_eq_natAbs, Int.cast_natCast]

/-- The leading bits of numerator and denominator bound the quotient to within a factor of four. -/
theorem log2_bounds {x : ℚ} (h : x ≠ 0) :
    (2 : ℚ) ^ ((Nat.log2 x.num.natAbs : ℤ) - Nat.log2 x.den - 1) ≤ |x| ∧
    |x| < (2 : ℚ) ^ ((Nat.log2 x.num.natAbs : ℤ) - Nat.log2 x.den + 1) := by
  have hnum : x.num.natAbs ≠ 0 := Int.natAbs_ne_zero.2 (Rat.num_ne_zero.2 h)
  have hden : (0 : ℚ) < x.den := by exact_mod_cast x.den_pos
  have hnum₁ : (2 : ℚ) ^ Nat.log2 x.num.natAbs ≤ x.num.natAbs := by
    exact_mod_cast Nat.log2_self_le hnum
  have hnum₂ : (x.num.natAbs : ℚ) < 2 ^ (Nat.log2 x.num.natAbs + 1) := by
    exact_mod_cast Nat.lt_log2_self
  have hden₁ : (2 : ℚ) ^ Nat.log2 x.den ≤ x.den := by
    exact_mod_cast Nat.log2_self_le x.den_pos.ne'
  have hden₂ : (x.den : ℚ) < 2 ^ (Nat.log2 x.den + 1) := by exact_mod_cast Nat.lt_log2_self
  rw [abs_eq_div, le_div_iff₀ hden, div_lt_iff₀ hden]
  constructor
  · calc (2 : ℚ) ^ ((Nat.log2 x.num.natAbs : ℤ) - Nat.log2 x.den - 1) * x.den
        ≤ 2 ^ ((Nat.log2 x.num.natAbs : ℤ) - Nat.log2 x.den - 1) * 2 ^ (Nat.log2 x.den + 1) :=
          mul_le_mul_of_nonneg_left hden₂.le (by positivity)
      _ = 2 ^ Nat.log2 x.num.natAbs := by
          rw [← zpow_natCast, ← zpow_natCast, ← zpow_add₀ two_ne_zero]
          push_cast
          ring_nf
      _ ≤ x.num.natAbs := hnum₁
  · calc (x.num.natAbs : ℚ) < 2 ^ (Nat.log2 x.num.natAbs + 1) := hnum₂
      _ = 2 ^ ((Nat.log2 x.num.natAbs : ℤ) - Nat.log2 x.den + 1) * 2 ^ Nat.log2 x.den := by
          rw [← zpow_natCast, ← zpow_natCast, ← zpow_add₀ two_ne_zero]
          push_cast
          ring_nf
      _ ≤ 2 ^ ((Nat.log2 x.num.natAbs : ℤ) - Nat.log2 x.den + 1) * x.den :=
          mul_le_mul_of_nonneg_left hden₁ (by positivity)

theorem exponent_spec {x : ℚ} (h : x ≠ 0) :
    (2 : ℚ) ^ exponent x ≤ |x| ∧ |x| < (2 : ℚ) ^ (exponent x + 1) := by
  obtain ⟨hlow, hhigh⟩ := log2_bounds h
  unfold exponent
  dsimp only
  split_ifs with hguess
  · exact ⟨hguess, hhigh⟩
  · rw [sub_add_cancel]
    exact ⟨hlow, not_le.1 hguess⟩

/-- A greater absolute value has no smaller exponent. -/
theorem exponent_le {x y : ℚ} (hx : x ≠ 0) (h : |x| ≤ |y|) : exponent x ≤ exponent y := by
  have hy : y ≠ 0 := fun hy => hx (abs_nonpos_iff.1 (by simpa [hy] using h))
  have hlt : (2 : ℚ) ^ exponent x < 2 ^ (exponent y + 1) :=
    (exponent_spec hx).1.trans_lt (h.trans_lt (exponent_spec hy).2)
  exact Int.lt_add_one_iff.1 ((zpow_lt_zpow_iff_right₀ one_lt_two).1 hlt)

theorem zpow_exponent (x : ℚ) : (2 : ℚ) ^ exponent x = (2 ^ 52 : ℤ) * ulp x := by
  unfold ulp
  rw [zpow_sub₀ two_ne_zero]
  push_cast
  field_simp

theorem zpow_exponent_succ (x : ℚ) : (2 : ℚ) ^ (exponent x + 1) = (2 ^ 53 : ℤ) * ulp x := by
  rw [zpow_add_one₀ two_ne_zero, zpow_exponent]
  push_cast
  ring

/-! ## Multiples of the last place -/

theorem le_round {x : ℚ} {n : ℤ} (h : n * ulp x ≤ x) : n * ulp x ≤ round x := by
  have hdiv : (n : ℚ) ≤ x / ulp x := (le_div_iff₀ (ulp_pos x)).2 h
  have hint : n ≤ nearestEven (x / ulp x) := nearestEven_intCast n ▸ nearestEven_mono hdiv
  exact mul_le_mul_of_nonneg_right (by exact_mod_cast hint) (ulp_pos x).le

theorem round_le {x : ℚ} {n : ℤ} (h : x ≤ n * ulp x) : round x ≤ n * ulp x := by
  have hdiv : x / ulp x ≤ n := (div_le_iff₀ (ulp_pos x)).2 h
  have hint : nearestEven (x / ulp x) ≤ n := nearestEven_intCast n ▸ nearestEven_mono hdiv
  exact mul_le_mul_of_nonneg_right (by exact_mod_cast hint) (ulp_pos x).le

theorem round_nonneg {x : ℚ} (h : 0 ≤ x) : 0 ≤ round x := by
  simpa using le_round (n := 0) (by simpa using h)

theorem round_nonpos {x : ℚ} (h : x ≤ 0) : round x ≤ 0 := by
  simpa using round_le (n := 0) (by simpa using h)

theorem round_mono_of_exponent_eq {x y : ℚ} (h : x ≤ y) (he : exponent x = exponent y) :
    round x ≤ round y := by
  have hulp : ulp x = ulp y := by
    unfold ulp
    rw [he]
  have hint : nearestEven (x / ulp y) ≤ nearestEven (y / ulp y) :=
    nearestEven_mono (div_le_div_of_nonneg_right h (ulp_pos y).le)
  unfold round
  rw [hulp]
  exact mul_le_mul_of_nonneg_right (by exact_mod_cast hint) (ulp_pos y).le

/-- Rounding keeps the order. -/
theorem round_mono {x y : ℚ} (h : x ≤ y) : round x ≤ round y := by
  rcases le_or_gt x 0 with hx | hx
  · rcases le_or_gt 0 y with hy | hy
    · exact (round_nonpos hx).trans (round_nonneg hy)
    -- below zero the exponents decrease, and a power of two separates different ones
    · have hx : x < 0 := h.trans_lt hy
      have hle : exponent y ≤ exponent x :=
        exponent_le hy.ne (by rw [abs_of_neg hx, abs_of_neg hy]; linarith)
      rcases hle.lt_or_eq with hlt | heq
      · have hbelow : x ≤ (-2 ^ 52 : ℤ) * ulp x := by
          have hspec := (exponent_spec hx.ne).1
          rw [abs_of_neg hx, zpow_exponent] at hspec
          push_cast at hspec ⊢
          linarith
        have habove : (-2 ^ 53 : ℤ) * ulp y ≤ y := by
          have hspec := (exponent_spec hy.ne).2
          rw [abs_of_neg hy, zpow_exponent_succ] at hspec
          push_cast at hspec ⊢
          linarith
        have hpow : (2 : ℚ) ^ (exponent y + 1) ≤ 2 ^ exponent x :=
          zpow_le_zpow_right₀ one_le_two hlt
        rw [zpow_exponent, zpow_exponent_succ] at hpow
        have hround := round_le hbelow
        have hround' := le_round habove
        push_cast at hpow hround hround'
        linarith
      · exact round_mono_of_exponent_eq h heq.symm
  · have hy : 0 < y := hx.trans_le h
    have hle : exponent x ≤ exponent y :=
      exponent_le hx.ne' (by rwa [abs_of_pos hx, abs_of_pos hy])
    rcases hle.lt_or_eq with hlt | heq
    · have habove : x ≤ (2 ^ 53 : ℤ) * ulp x := by
        have hspec := (exponent_spec hx.ne').2
        rw [abs_of_pos hx, zpow_exponent_succ] at hspec
        exact hspec.le
      have hbelow : (2 ^ 52 : ℤ) * ulp y ≤ y := by
        have hspec := (exponent_spec hy.ne').1
        rwa [abs_of_pos hy, zpow_exponent] at hspec
      have hpow : (2 : ℚ) ^ (exponent x + 1) ≤ 2 ^ exponent y :=
        zpow_le_zpow_right₀ one_le_two hlt
      rw [zpow_exponent, zpow_exponent_succ] at hpow
      exact (round_le habove).trans (hpow.trans (le_round hbelow))
    · exact round_mono_of_exponent_eq h heq

/-- The relative error is at most one half of the last place. -/
theorem abs_round_sub_le (x : ℚ) : |round x - x| ≤ |x| / 2 ^ 53 := by
  by_cases hx : x = 0
  · subst hx
    simp [round, nearestEven]
  · have hnear := abs_nearestEven_sub_le (x / ulp x)
    have hspec := (exponent_spec hx).1
    rw [zpow_exponent] at hspec
    have herror : round x - x = (nearestEven (x / ulp x) - x / ulp x) * ulp x := by
      unfold round
      rw [sub_mul, div_mul_cancel₀ _ (ulp_pos x).ne']
    rw [herror, abs_mul, abs_of_pos (ulp_pos x), le_div_iff₀ (by positivity)]
    calc |(nearestEven (x / ulp x) : ℚ) - x / ulp x| * ulp x * 2 ^ 53
        ≤ 1 / 2 * ulp x * 2 ^ 53 := by
          gcongr
          exact (ulp_pos x).le
      _ = (2 ^ 52 : ℤ) * ulp x := by
          push_cast
          ring
      _ ≤ |x| := hspec

/-- Rounding to decimal places moves a number by at most half of the last place, the double that stands
    for the decimal aside. -/
theorem abs_roundTo_sub_le (digits : Nat) (x : ℚ) :
    |roundTo digits x - x| ≤ 1 / (2 * 10 ^ digits) + (|x| + 1) / 2 ^ 53 := by
  have hpow : (1 : ℚ) ≤ 10 ^ digits := one_le_pow₀ (by norm_num)
  have hpos : (0 : ℚ) < 10 ^ digits := by positivity
  have hnear := abs_nearestEven_sub_le (x * 10 ^ digits)
  let y : ℚ := nearestEven (x * 10 ^ digits) / 10 ^ digits
  have hdecimal : |y - x| ≤ 1 / (2 * 10 ^ digits) := by
    have hscale : y - x = (nearestEven (x * 10 ^ digits) - x * 10 ^ digits) / 10 ^ digits := by
      rw [sub_div, mul_div_cancel_right₀ _ hpos.ne']
    rw [hscale, abs_div, abs_of_pos hpos, div_le_div_iff₀ hpos (by positivity)]
    nlinarith
  have hhalf : 1 / (2 * (10 : ℚ) ^ digits) ≤ 1 := by
    rw [div_le_one (by positivity)]
    linarith
  have hy : |y| ≤ |x| + 1 := by
    have htriangle := abs_sub_abs_le_abs_sub y x
    linarith
  calc |roundTo digits x - x| ≤ |round y - y| + |y - x| := abs_sub_le _ _ _
    _ ≤ |y| / 2 ^ 53 + 1 / (2 * 10 ^ digits) := add_le_add (abs_round_sub_le y) hdecimal
    _ ≤ (|x| + 1) / 2 ^ 53 + 1 / (2 * 10 ^ digits) := by gcongr
    _ = 1 / (2 * 10 ^ digits) + (|x| + 1) / 2 ^ 53 := add_comm _ _

/-- The same of a number that is rounded to a double first. -/
theorem abs_roundTo_round_sub_le (digits : Nat) (x : ℚ) :
    |roundTo digits (round x) - x| ≤ 1 / (2 * 10 ^ digits) + (3 * |x| + 1) / 2 ^ 53 := by
  have hround := abs_round_sub_le x
  have hdouble : |round x| ≤ 2 * |x| := by
    have htriangle := abs_sub_abs_le_abs_sub (round x) x
    have hsmall : |x| / 2 ^ 53 ≤ |x| := div_le_self (abs_nonneg x) (by norm_num)
    linarith
  calc |roundTo digits (round x) - x|
      ≤ |roundTo digits (round x) - round x| + |round x - x| := abs_sub_le _ _ _
    _ ≤ (1 / (2 * 10 ^ digits) + (|round x| + 1) / 2 ^ 53) + |x| / 2 ^ 53 :=
        add_le_add (abs_roundTo_sub_le digits (round x)) hround
    _ ≤ (1 / (2 * 10 ^ digits) + (2 * |x| + 1) / 2 ^ 53) + |x| / 2 ^ 53 := by gcongr
    _ = 1 / (2 * 10 ^ digits) + (3 * |x| + 1) / 2 ^ 53 := by ring

theorem roundTo_mono (digits : Nat) {x y : ℚ} (h : x ≤ y) : roundTo digits x ≤ roundTo digits y := by
  have hpow : (0 : ℚ) < 10 ^ digits := by positivity
  have hint := nearestEven_mono (mul_le_mul_of_nonneg_right h hpow.le)
  have hcast : (nearestEven (x * 10 ^ digits) : ℚ) ≤ nearestEven (y * 10 ^ digits) := by
    exact_mod_cast hint
  exact round_mono (div_le_div_of_nonneg_right hcast hpow.le)

theorem roundTo_nonneg {digits : Nat} {x : ℚ} (h : 0 ≤ x) : 0 ≤ roundTo digits x := by
  have hzero : roundTo digits 0 = 0 := by simp [roundTo, round, nearestEven]
  exact hzero ▸ roundTo_mono digits h

end Double

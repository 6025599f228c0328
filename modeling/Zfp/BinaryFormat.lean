import Mathlib.Data.Int.Log
import Mathlib.Data.Rat.Floor
import Mathlib.Tactic.Linarith
import Mathlib.Tactic.Positivity
import Mathlib.Tactic.Ring

/-!
# Binary formats

A number that is not negative is a field of `m` mantissa bits below an exponent with a bias; the
exponent zero is that of the subnormal numbers. Numbers are rounded to nearest, ties to even.
-/

namespace BinaryFormat

/-- The integer that is nearest, the even one of two. -/
def nearestEven (x : ℚ) : ℤ :=
  let n := ⌊x⌋
  if x - n < 1 / 2 then n else if 1 / 2 < x - n then n + 1 else n + n % 2

theorem abs_nearestEven_sub_le (x : ℚ) : |nearestEven x - x| ≤ 1 / 2 := by
  have hlo := Int.floor_le x
  have hhi := Int.lt_floor_add_one x
  have hmod : (0 : ℚ) ≤ (⌊x⌋ % 2 : ℤ) := by exact_mod_cast Int.emod_nonneg ⌊x⌋ (by decide)
  have hmod' : ((⌊x⌋ % 2 : ℤ) : ℚ) ≤ 1 := by exact_mod_cast (show ⌊x⌋ % 2 ≤ 1 by omega)
  rw [nearestEven, abs_le]
  split_ifs <;> push_cast <;> constructor <;> linarith

theorem nearestEven_intCast (n : ℤ) : nearestEven n = n := by
  rw [nearestEven]
  rw [Int.floor_intCast, if_pos (by rw [sub_self]; norm_num)]

theorem nearestEven_le {x : ℚ} {n : ℤ} (h : x < n) : nearestEven x ≤ n := by
  have hfloor : ⌊x⌋ < n := Int.floor_lt.mpr h
  rw [nearestEven]
  split_ifs <;> omega

theorem nearestEven_nonneg {x : ℚ} (h : 0 ≤ x) : 0 ≤ nearestEven x := by
  have hfloor : 0 ≤ ⌊x⌋ := Int.floor_nonneg.mpr h
  rw [nearestEven]
  split_ifs <;> omega

section

variable (m bias : ℕ)

def value (n : ℕ) : ℚ :=
  let k := n / 2 ^ m
  let f := n % 2 ^ m
  if k = 0 then f * 2 ^ (1 - bias - m : ℤ) else (2 ^ m + f) * 2 ^ (k - bias - m : ℤ)

/-- The exponent of a number, which is not less than that of the subnormal numbers. -/
def exponent (x : ℚ) : ℤ := max (Int.log 2 x) (1 - bias)

def mantissa (x : ℚ) : ℤ := nearestEven (x / 2 ^ (exponent bias x - m))

/-- The bit pattern of a number that is rounded; the largest one is infinity. -/
def round (x : ℚ) : ℕ :=
  if x ≤ 0 then 0
  else min ((exponent bias x + bias - 1).toNat * 2 ^ m + (mantissa m bias x).toNat)
    ((2 * bias + 1) * 2 ^ m)

theorem value_nonneg (n : ℕ) : 0 ≤ value m bias n := by
  rw [value]
  split_ifs
  · exact mul_nonneg (Nat.cast_nonneg _) (zpow_nonneg (by norm_num) _)
  · exact mul_nonneg (by positivity) (zpow_nonneg (by norm_num) _)

/-- A mantissa with the leading bit, next to an exponent that is one less. -/
theorem value_eq {k q : ℕ} (hq : k = 0 ∨ 2 ^ m ≤ q) (hq' : q ≤ 2 ^ (m + 1)) :
    value m bias (k * 2 ^ m + q) = q * 2 ^ (k + 1 - bias - m : ℤ) := by
  have hpos : 0 < 2 ^ m := Nat.two_pow_pos m
  rw [pow_succ'] at hq'
  rw [value]
  rw [Nat.add_comm, Nat.add_mul_div_right _ _ hpos, Nat.add_mul_mod_self_right]
  rcases lt_or_ge q (2 ^ m) with hlt | hge
  · obtain rfl : k = 0 := by omega
    rw [Nat.div_eq_of_lt hlt, if_pos rfl, Nat.mod_eq_of_lt hlt]
    push_cast
    ring_nf
  · rcases eq_or_lt_of_le hq' with rfl | hlt
    · rw [Nat.mul_div_cancel _ hpos, Nat.mul_mod_left, if_neg (by omega)]
      have hexp : (2 + k : ℤ) - bias - m = k + 1 - bias - m + 1 := by ring
      push_cast
      rw [hexp, zpow_add₀ (by norm_num), zpow_one]
      ring
    · have hdiv : q / 2 ^ m = 1 := Nat.div_eq_of_lt_le (by omega) (by omega)
      have hmod : q % 2 ^ m = q - 2 ^ m := by
        have := Nat.div_add_mod q (2 ^ m)
        rw [hdiv] at this
        omega
      rw [hdiv, hmod, if_neg (by omega), Nat.cast_sub hge]
      push_cast
      ring_nf

theorem round_le (x : ℚ) : round m bias x ≤ (2 * bias + 1) * 2 ^ m := by
  rw [round]
  split_ifs
  · exact Nat.zero_le _
  · exact min_le_right _ _

/-- Every number has a short mantissa. -/
theorem exists_mantissa (n : ℕ) :
    ∃ (f : ℕ) (k : ℤ), f < 2 ^ (m + 1) ∧ 1 - bias - m ≤ k ∧ value m bias n = f * 2 ^ k := by
  have hmod : n % 2 ^ m < 2 ^ m := Nat.mod_lt _ (Nat.two_pow_pos m)
  have hpow : 2 ^ (m + 1) = 2 * 2 ^ m := pow_succ' 2 m
  rw [value]
  split_ifs with hk
  · exact ⟨n % 2 ^ m, _, by omega, le_rfl, rfl⟩
  · generalize n / 2 ^ m = q at hk
    refine ⟨2 ^ m + n % 2 ^ m, q - bias - m, by omega, by omega, ?_⟩
    push_cast
    rfl

theorem value_lt {n : ℕ} (hn : n < (2 * bias + 1) * 2 ^ m) (hbias : 1 ≤ bias) :
    value m bias n < 2 ^ (bias + 1 : ℤ) := by
  have hmod : n % 2 ^ m < 2 ^ m := Nat.mod_lt _ (Nat.two_pow_pos m)
  have hdiv : n / 2 ^ m < 2 * bias + 1 := (Nat.div_lt_iff_lt_mul (Nat.two_pow_pos m)).mpr hn
  have hlt : ((n % 2 ^ m : ℕ) : ℚ) < 2 ^ m := by exact_mod_cast hmod
  rw [value]
  split_ifs with hk
  · calc ((n % 2 ^ m : ℕ) : ℚ) * 2 ^ (1 - bias - m : ℤ)
        < 2 ^ m * 2 ^ (1 - bias - m : ℤ) :=
          mul_lt_mul_of_pos_right hlt (zpow_pos (by norm_num) _)
      _ = 2 ^ (1 - bias : ℤ) := by
        rw [← zpow_natCast, ← zpow_add₀ (by norm_num), add_sub_cancel]
      _ ≤ 2 ^ (bias + 1 : ℤ) := zpow_le_zpow_right₀ (by norm_num) (by omega)
  · calc (2 ^ m + ((n % 2 ^ m : ℕ) : ℚ)) * 2 ^ ((n / 2 ^ m : ℕ) - bias - m : ℤ)
        < 2 ^ (m + 1) * 2 ^ ((n / 2 ^ m : ℕ) - bias - m : ℤ) := by
          refine mul_lt_mul_of_pos_right ?_ (zpow_pos (by norm_num) _)
          rw [pow_succ]
          linarith
      _ = 2 ^ ((n / 2 ^ m : ℕ) - bias + 1 : ℤ) := by
        rw [← zpow_natCast, ← zpow_add₀ (by norm_num)]
        congr 1
        push_cast
        ring
      _ ≤ 2 ^ (bias + 1 : ℤ) := zpow_le_zpow_right₀ (by norm_num) (by omega)

/-! ## Rounding -/

section

variable {x : ℚ} (hx : 0 < x)

include hx

theorem lt_two_zpow_exponent (hx' : x < 2 ^ (bias + 1 : ℤ)) (hbias : 1 ≤ bias) :
    exponent bias x ≤ bias ∧ x < 2 ^ (exponent bias x + 1) := by
  have hlog := (Int.lt_zpow_iff_log_lt (b := 2) (by norm_num) hx).mp hx'
  refine ⟨?_, (Int.lt_zpow_succ_log_self (b := 2) (by norm_num) x).trans_le ?_⟩
  · rw [exponent]
    omega
  · exact zpow_le_zpow_right₀ (by norm_num) (by rw [exponent]; omega)

/-- The mantissa has at most one bit more than the field, and exactly one more if the number is not
subnormal. -/
theorem mantissa_bounds (hx' : x < 2 ^ (bias + 1 : ℤ)) (hbias : 1 ≤ bias) :
    0 ≤ mantissa m bias x ∧ mantissa m bias x ≤ 2 ^ (m + 1) ∧
      (1 - bias < exponent bias x → 2 ^ m ≤ mantissa m bias x) := by
  have hunit : (0 : ℚ) < 2 ^ (exponent bias x - m) := zpow_pos (by norm_num) _
  have hhi := (lt_two_zpow_exponent bias hx hx' hbias).2
  refine ⟨nearestEven_nonneg (div_nonneg hx.le hunit.le), nearestEven_le ?_, fun hnormal => ?_⟩
  · rw [div_lt_iff₀ hunit]
    push_cast
    have hshift : ((m + 1 : ℕ) : ℤ) + (exponent bias x - m) = exponent bias x + 1 := by omega
    rw [← zpow_natCast, ← zpow_add₀ (by norm_num), hshift]
    exact hhi
  · have hlog : exponent bias x = Int.log 2 x := by
      rw [exponent] at hnormal ⊢
      omega
    have hlo : (2 : ℚ) ^ m ≤ x / 2 ^ (exponent bias x - m) := by
      rw [le_div_iff₀ hunit, ← zpow_natCast, ← zpow_add₀ (by norm_num), hlog, add_sub_cancel]
      exact Int.zpow_log_le_self (b := 2) (by norm_num) hx
    rw [mantissa, nearestEven]
    have hfloor : (2 : ℤ) ^ m ≤ ⌊x / 2 ^ (exponent bias x - m)⌋ := Int.le_floor.mpr (by
      push_cast
      exact hlo)
    split_ifs <;> omega

/-- The value of a rounded number. -/
theorem value_round (hx' : x < 2 ^ (bias + 1 : ℤ)) (hbias : 1 ≤ bias) :
    value m bias (round m bias x) = mantissa m bias x * 2 ^ (exponent bias x - m) := by
  obtain ⟨hnonneg, hle, hnormal⟩ := mantissa_bounds m bias hx hx' hbias
  have hexp := (lt_two_zpow_exponent bias hx hx' hbias).1
  have hexp' : 1 - bias ≤ exponent bias x := le_max_right _ _
  obtain ⟨q, hq⟩ := Int.eq_ofNat_of_zero_le hnonneg
  obtain ⟨k, hk⟩ := Int.eq_ofNat_of_zero_le (show 0 ≤ exponent bias x + bias - 1 by omega)
  have hqle : q ≤ 2 ^ (m + 1) := by
    rw [hq] at hle
    exact_mod_cast hle
  have hkle : k ≤ 2 * bias - 1 := by omega
  have hmax : k * 2 ^ m + q ≤ (2 * bias + 1) * 2 ^ m := by
    have hmul : k * 2 ^ m ≤ (2 * bias - 1) * 2 ^ m := Nat.mul_le_mul_right _ hkle
    have hsplit : (2 * bias + 1) * 2 ^ m = (2 * bias - 1) * 2 ^ m + 2 ^ (m + 1) := by
      rw [pow_succ', ← Nat.add_mul]
      congr 1
      omega
    omega
  have hform : k = 0 ∨ 2 ^ m ≤ q := by
    rcases Nat.eq_zero_or_pos k with hzero | hpos
    · exact .inl hzero
    · have hbig := hnormal (by omega)
      rw [hq] at hbig
      exact .inr (by exact_mod_cast hbig)
  rw [round, if_neg (not_le.mpr hx), hk, hq, Int.toNat_natCast, Int.toNat_natCast, min_eq_left hmax,
    value_eq m bias hform hqle]
  have hshift : (k : ℤ) + 1 - bias - m = exponent bias x - m := by omega
  rw [hshift]
  push_cast
  rfl

/-- A normal number is rounded with a relative error of half a unit of the mantissa. -/
theorem abs_value_round_sub_le (hlo : 2 ^ (1 - bias : ℤ) ≤ x) (hx' : x < 2 ^ (bias + 1 : ℤ))
    (hbias : 1 ≤ bias) : |value m bias (round m bias x) - x| ≤ x / 2 ^ (m + 1) := by
  have hunit : (0 : ℚ) < 2 ^ (exponent bias x - m) := zpow_pos (by norm_num) _
  have hround := abs_nearestEven_sub_le (x / 2 ^ (exponent bias x - m))
  have hlog : exponent bias x = Int.log 2 x := by
    have hle := (Int.zpow_le_iff_le_log (b := 2) (by norm_num) hx).mp hlo
    rw [exponent, max_eq_left hle]
  have hself : (2 : ℚ) ^ exponent bias x ≤ x := by
    rw [hlog]
    exact Int.zpow_log_le_self (b := 2) (by norm_num) hx
  rw [value_round m bias hx hx' hbias]
  calc |mantissa m bias x * 2 ^ (exponent bias x - m) - x|
      = |(mantissa m bias x - x / 2 ^ (exponent bias x - m)) * 2 ^ (exponent bias x - m)| := by
        rw [sub_mul, div_mul_cancel₀ _ hunit.ne']
    _ = |mantissa m bias x - x / 2 ^ (exponent bias x - m)| * 2 ^ (exponent bias x - m) := by
        rw [abs_mul, abs_of_pos hunit]
    _ ≤ 1 / 2 * 2 ^ (exponent bias x - m) := mul_le_mul_of_nonneg_right hround hunit.le
    _ = 2 ^ exponent bias x / 2 ^ (m + 1) := by
        rw [zpow_sub₀ (by norm_num), zpow_natCast, pow_succ]
        ring
    _ ≤ x / 2 ^ (m + 1) := div_le_div_of_nonneg_right hself (by positivity)

end

theorem value_round_zero : value m bias (round m bias 0) = 0 := by
  have hzero := value_eq m bias (k := 0) (q := 0) (.inl rfl) (Nat.zero_le _)
  rw [round, if_pos le_rfl]
  rwa [Nat.zero_mul, Nat.cast_zero, zero_mul] at hzero

/-- A number with a short enough mantissa is not changed by rounding. -/
theorem value_round_mul_two_zpow {f : ℕ} {k : ℤ} (hf : f < 2 ^ (m + 1)) (hk : 1 - bias - m ≤ k)
    (hx' : (f : ℚ) * 2 ^ k < 2 ^ (bias + 1 : ℤ)) (hbias : 1 ≤ bias) :
    value m bias (round m bias (f * 2 ^ k)) = f * 2 ^ k := by
  rcases Nat.eq_zero_or_pos f with rfl | hpos
  · rw [Nat.cast_zero, zero_mul, value_round_zero]
  · have hx : (0 : ℚ) < f * 2 ^ k := mul_pos (by exact_mod_cast hpos) (zpow_pos (by norm_num) _)
    have hexp : exponent bias (f * 2 ^ k) - m ≤ k := by
      have hlt : (f : ℚ) * 2 ^ k < 2 ^ (m + 1 + k : ℤ) := by
        rw [zpow_add₀ (by norm_num)]
        refine mul_lt_mul_of_pos_right ?_ (zpow_pos (by norm_num) _)
        exact_mod_cast hf
      have hlog := (Int.lt_zpow_iff_log_lt (b := 2) (by norm_num) hx).mp hlt
      rw [exponent]
      omega
    obtain ⟨j, hj⟩ := Int.eq_ofNat_of_zero_le (sub_nonneg.mpr hexp)
    have hunit : (2 : ℚ) ^ (exponent bias (f * 2 ^ k) - m) ≠ 0 := zpow_ne_zero _ (by norm_num)
    -- the mantissa is shifted by a whole number of places
    have hdiv : (f : ℚ) * 2 ^ k / 2 ^ (exponent bias (f * 2 ^ k) - m) = ((f * 2 ^ j : ℕ) : ℤ) := by
      rw [mul_div_assoc, ← zpow_sub₀ (by norm_num), hj]
      push_cast
      rfl
    rw [value_round m bias hx hx' hbias, mantissa, hdiv, nearestEven_intCast, ← hdiv,
      div_mul_cancel₀ _ hunit]

/-- A number below the normal ones is rounded to one that is not above them. -/
theorem value_round_le {x : ℚ} (hx : 0 ≤ x) (hx' : x < 2 ^ (1 - bias : ℤ)) (hbias : 1 ≤ bias) :
    value m bias (round m bias x) ≤ 2 ^ (1 - bias : ℤ) := by
  rcases hx.eq_or_lt with rfl | hpos
  · rw [value_round_zero]
    exact (zpow_pos (by norm_num) _).le
  · have hlog := (Int.lt_zpow_iff_log_lt (b := 2) (by norm_num) hpos).mp hx'
    have hexp : exponent bias x = 1 - bias := by
      rw [exponent]
      omega
    have hunit : (0 : ℚ) < 2 ^ (1 - bias - m : ℤ) := zpow_pos (by norm_num) _
    have hlt : x / 2 ^ (1 - bias - m : ℤ) < ((2 ^ m : ℕ) : ℤ) := by
      rw [div_lt_iff₀ hunit]
      push_cast
      rw [← zpow_natCast, ← zpow_add₀ (by norm_num), add_sub_cancel]
      exact hx'
    have hmantissa : mantissa m bias x ≤ ((2 ^ m : ℕ) : ℤ) := by
      rw [mantissa, hexp]
      exact nearestEven_le hlt
    have hmantissa' : (mantissa m bias x : ℚ) ≤ 2 ^ m := by exact_mod_cast hmantissa
    have hbig : x < 2 ^ (bias + 1 : ℤ) :=
      hx'.trans_le (zpow_le_zpow_right₀ (by norm_num) (by omega))
    rw [value_round m bias hpos hbig hbias, hexp]
    calc (mantissa m bias x : ℚ) * 2 ^ (1 - bias - m : ℤ)
        ≤ 2 ^ m * 2 ^ (1 - bias - m : ℤ) := mul_le_mul_of_nonneg_right hmantissa' hunit.le
      _ = 2 ^ (1 - bias : ℤ) := by
        rw [← zpow_natCast, ← zpow_add₀ (by norm_num), add_sub_cancel]

/-- A natural number is rounded to one with a short mantissa. -/
theorem value_round_natCast {n : ℕ} (hn : (n : ℚ) < 2 ^ (bias + 1 : ℤ)) (hbias : 1 ≤ bias) :
    ∃ f k : ℕ, f < 2 ^ (m + 1) ∧ value m bias (round m bias n) = f * 2 ^ k := by
  rcases Nat.lt_or_ge n (2 ^ (m + 1)) with hshort | hlong
  · have hexact := value_round_mul_two_zpow m bias (k := 0) hshort (by omega)
      (by rwa [zpow_zero, mul_one]) hbias
    rw [zpow_zero, mul_one] at hexact
    exact ⟨n, 0, hshort, by rw [hexact, pow_zero, mul_one]⟩
  · have hpos : (0 : ℚ) < n := by
      have hn : 0 < n := (Nat.two_pow_pos _).trans_le hlong
      exact_mod_cast hn
    have hexp : (m : ℤ) ≤ exponent bias (n : ℚ) := by
      have hle : (2 : ℚ) ^ (m + 1 : ℤ) ≤ n := by exact_mod_cast hlong
      have hlog := (Int.zpow_le_iff_le_log (b := 2) (by norm_num) hpos).mp hle
      rw [exponent]
      omega
    obtain ⟨hnonneg, hle, -⟩ := mantissa_bounds m bias hpos hn hbias
    obtain ⟨q, hq⟩ := Int.eq_ofNat_of_zero_le hnonneg
    obtain ⟨k, hk⟩ := Int.eq_ofNat_of_zero_le (sub_nonneg.mpr hexp)
    have hvalue := value_round m bias hpos hn hbias
    rw [hq, hk, Int.cast_natCast, zpow_natCast] at hvalue
    rw [hq] at hle
    rcases Nat.lt_or_ge q (2 ^ (m + 1)) with hlt | hge
    · exact ⟨q, k, hlt, hvalue⟩
    · obtain rfl : q = 2 ^ (m + 1) := le_antisymm (by exact_mod_cast hle) hge
      refine ⟨2 ^ m, k + 1, Nat.pow_lt_pow_right (by decide) (Nat.lt_succ_self m), ?_⟩
      rw [hvalue]
      push_cast
      ring

end

end BinaryFormat

import Zfp.BinaryFormat
import Zfp.BlockCodec
import Zfp.FixedAccuracy

/-!
# Floating-point casts

The floating-point operations of the block coders in IEEE 754 arithmetic: the exponent of a block,
and the casts from and to integers. Each product and each conversion is rounded to nearest. For
finite blocks whose exponents leave room for the scale factors, the cast to integers is exact but
for the fraction that it drops, and the cast from integers is off by the rounding of the integer.
-/

namespace Zfp

def MBITS (S : Scalar) : ℕ := S.width - 1 - EBITS S

section

variable (S : Scalar)

/-- The bit pattern without the sign. -/
def Scalar.magnitude (x : BitVec S.width) : ℕ := x.toNat % 2 ^ (S.width - 1)

/-- The value of a bit pattern; infinity counts as the number behind the largest one. -/
def Scalar.value (x : BitVec S.width) : ℚ :=
  let v := BinaryFormat.value (MBITS S) (EBIAS S) (S.magnitude x)
  if x.msb then -v else v

def Scalar.Finite (x : BitVec S.width) : Prop := S.magnitude x < (2 * EBIAS S + 1) * 2 ^ MBITS S

instance : DecidablePred S.Finite := fun x => inferInstanceAs (Decidable (S.magnitude x < _))

def Scalar.round (x : ℚ) : BitVec S.width :=
  BitVec.ofNat _ ((if x < 0 then 2 ^ (S.width - 1) else 0) + BinaryFormat.round (MBITS S) (EBIAS S) |x|)

def Scalar.mul (x y : BitVec S.width) : BitVec S.width := S.round (S.value x * S.value y)

/-- `x < y`, which does not hold when one is not a number. -/
def Scalar.lt (x y : BitVec S.width) : Bool :=
  S.magnitude x ≤ (2 * EBIAS S + 1) * 2 ^ MBITS S ∧
    S.magnitude y ≤ (2 * EBIAS S + 1) * 2 ^ MBITS S ∧ S.value x < S.value y

/-- The absolute value, which clears the sign. -/
def FABS (x : BitVec S.width) : BitVec S.width := x &&& TCMASK S

/-- The exponent of a finite number; it is unspecified for others, and zero here. -/
def FREXP (x : BitVec S.width) : ℤ := if S.Finite x then Int.log 2 (S.value x) + 1 else 0

def exponent (x : BitVec S.width) : ℤ :=
  if S.lt 0 x then max (FREXP S x) (1 - EBIAS S) else -EBIAS S

def exponentBlock {n : ℕ} (p : Fin n → BitVec S.width) : ℤ :=
  exponent S ((List.finRange n).foldl
    (fun max i => if S.lt max (FABS S (p i)) then FABS S (p i) else max) 0)

/-- forward block-floating-point transform to signed integers; the conversion is undefined for an
infinite scale, and gives the smallest integer here -/
def fwdCastFloat {n : ℕ} (fblock : Fin n → BitVec S.width) (emax : ℤ) (i : Fin n) : BitVec S.width :=
  let s := S.round (quantize S 1 emax)
  if S.Finite s then BitVec.ofInt _ (truncate (S.value (S.mul s (fblock i)))) else BitVec.intMin _

def invCastFloat {n : ℕ} (iblock : Fin n → BitVec S.width) (emax : ℤ) (i : Fin n) : BitVec S.width :=
  let s := S.round (dequantize S 1 emax)
  S.mul s (S.round (iblock i).toInt)

end

/-! ## Values -/

section

variable {S : Scalar} (hS : S.isFloat = true)

include hS

theorem width_eq_MBITS : S.width = EBITS S + MBITS S + 1 ∧ 2 * EBIAS S + 2 = 2 ^ EBITS S ∧
    2 ≤ MBITS S ∧ S.width ≤ EBIAS S := by
  cases S
  · cases hS
  · cases hS
  · decide
  · decide

theorem round_lt (x : ℚ) : BinaryFormat.round (MBITS S) (EBIAS S) x < 2 ^ (S.width - 1) := by
  obtain ⟨hwidth, hbias, -, -⟩ := width_eq_MBITS hS
  have hle := BinaryFormat.round_le (MBITS S) (EBIAS S) x
  have hlt : (2 * EBIAS S + 1) * 2 ^ MBITS S < 2 ^ EBITS S * 2 ^ MBITS S :=
    Nat.mul_lt_mul_of_pos_right (by omega) (Nat.two_pow_pos _)
  rw [hwidth, Nat.add_sub_cancel, Nat.pow_add]
  omega

theorem value_round (x : ℚ) : S.value (S.round x) =
    if x < 0 then -BinaryFormat.value (MBITS S) (EBIAS S) (BinaryFormat.round (MBITS S) (EBIAS S) |x|)
    else BinaryFormat.value (MBITS S) (EBIAS S) (BinaryFormat.round (MBITS S) (EBIAS S) |x|) := by
  have hlt := round_lt hS |x|
  have hpow : 2 ^ S.width = 2 * 2 ^ (S.width - 1) := by
    rw [← pow_succ', Nat.sub_add_cancel S.width_pos]
  have htoNat : (S.round x).toNat =
      (if x < 0 then 2 ^ (S.width - 1) else 0) + BinaryFormat.round (MBITS S) (EBIAS S) |x| := by
    rw [Scalar.round, BitVec.toNat_ofNat]
    refine Nat.mod_eq_of_lt ?_
    split_ifs <;> omega
  rw [Scalar.value, Scalar.magnitude, BitVec.msb_eq_decide, htoNat]
  split_ifs with hneg hmsb hmsb
  · rw [Nat.add_mod_left, Nat.mod_eq_of_lt hlt]
  · exact absurd (decide_eq_true (by omega)) hmsb
  · exact absurd (of_decide_eq_true hmsb) (by omega)
  · rw [Nat.zero_add, Nat.mod_eq_of_lt hlt]

/-- A number with a short mantissa is not rounded. -/
theorem value_round_of_short {x : ℚ} {f : ℕ} {k : ℤ} (hx : |x| = f * 2 ^ k) (hf : f < 2 ^ (MBITS S + 1))
    (hk : 1 - EBIAS S - MBITS S ≤ k) (hx' : |x| < 2 ^ (EBIAS S + 1 : ℤ)) : S.value (S.round x) = x := by
  have hbias : 1 ≤ EBIAS S := by have := width_eq_MBITS hS; omega
  have hexact := BinaryFormat.value_round_mul_two_zpow (MBITS S) (EBIAS S) hf hk (hx ▸ hx') hbias
  rw [← hx] at hexact
  rw [value_round hS, hexact]
  split_ifs with hneg
  · rw [abs_of_neg hneg, neg_neg]
  · exact abs_of_nonneg (not_lt.mp hneg)

omit hS in
/-- The mantissa of a number. -/
theorem exists_short (x : BitVec S.width) : ∃ (f : ℕ) (k : ℤ), f < 2 ^ (MBITS S + 1) ∧
    1 - EBIAS S - MBITS S ≤ k ∧ |S.value x| = f * 2 ^ k := by
  obtain ⟨f, k, hf, hk, hvalue⟩ := BinaryFormat.exists_mantissa (MBITS S) (EBIAS S) (S.magnitude x)
  refine ⟨f, k, hf, hk, ?_⟩
  have hnonneg := BinaryFormat.value_nonneg (MBITS S) (EBIAS S) (S.magnitude x)
  rw [← hvalue, Scalar.value]
  split_ifs
  · rw [abs_neg, abs_of_nonneg hnonneg]
  · exact abs_of_nonneg hnonneg

/-- A rounded number that is below the normal ones is not above them. -/
theorem abs_value_round_le {x : ℚ} (hx : |x| < 2 ^ (1 - EBIAS S : ℤ)) :
    |S.value (S.round x)| ≤ 2 ^ (1 - EBIAS S : ℤ) := by
  have hbias : 1 ≤ EBIAS S := by have := width_eq_MBITS hS; omega
  have hle := BinaryFormat.value_round_le (MBITS S) (EBIAS S) (abs_nonneg x) hx hbias
  have hnonneg := BinaryFormat.value_nonneg (MBITS S) (EBIAS S)
    (BinaryFormat.round (MBITS S) (EBIAS S) |x|)
  rw [value_round hS]
  split_ifs
  · rwa [abs_neg, abs_of_nonneg hnonneg]
  · rwa [abs_of_nonneg hnonneg]

/-- A power of two in range is not rounded. -/
theorem value_round_two_zpow {n : ℤ} (hn : 1 - EBIAS S - MBITS S ≤ n) (hn' : n ≤ EBIAS S) :
    S.value (S.round (2 ^ n)) = 2 ^ n := by
  have hpos : (0 : ℚ) < 2 ^ n := zpow_pos (by norm_num) _
  refine value_round_of_short hS (f := 1) (k := n) ?_ (Nat.one_lt_two_pow (by omega)) hn ?_
  · rw [abs_of_pos hpos, Nat.cast_one, one_mul]
  · rw [abs_of_pos hpos]
    exact zpow_lt_zpow_right₀ (by norm_num) (by omega)

theorem finite_round_two_zpow {n : ℤ} (hn : 1 - EBIAS S - MBITS S ≤ n) (hn' : n ≤ EBIAS S) :
    S.Finite (S.round (2 ^ n)) := by
  have hpos : (0 : ℚ) < 2 ^ n := zpow_pos (by norm_num) _
  have hvalue := value_round_two_zpow hS hn hn'
  have hle := BinaryFormat.round_le (MBITS S) (EBIAS S) |(2 : ℚ) ^ n|
  have hlt := round_lt hS |(2 : ℚ) ^ n|
  have hpow := Nat.two_pow_pos (S.width - 1)
  rw [value_round hS, if_neg (not_lt.mpr hpos.le)] at hvalue
  rw [Scalar.Finite, Scalar.magnitude, Scalar.round, if_neg (not_lt.mpr hpos.le), Nat.zero_add,
    BitVec.toNat_ofNat, Nat.mod_mod_of_dvd _ (Nat.pow_dvd_pow 2 (Nat.sub_le _ _)), Nat.mod_eq_of_lt hlt]
  refine lt_of_le_of_ne hle fun heq => ?_
  -- infinity counts as a larger power of two
  have htop := BinaryFormat.value_eq (MBITS S) (EBIAS S) (k := 2 * EBIAS S) (q := 2 ^ MBITS S)
    (.inr le_rfl) (Nat.pow_le_pow_right (by decide) (Nat.le_succ _))
  rw [← Nat.succ_mul, ← heq, hvalue] at htop
  push_cast at htop
  rw [← zpow_natCast, ← zpow_add₀ (by norm_num)] at htop
  have hexp := zpow_right_injective₀ (by norm_num) (by norm_num) htop
  omega

omit hS in
theorem truncate_eq_zero {x : ℚ} (h : |x| < 1) : truncate x = 0 := by
  have hle := abs_truncate_le (n := 1) (by exact_mod_cast h)
  exact abs_eq_zero.mp (le_antisymm hle (abs_nonneg _))

/-! ## Casts -/

omit hS in
theorem quantize_eq_two_zpow (emax : ℤ) :
    quantize S 1 emax = 2 ^ ((S.width - 2 : ℤ) - emax) := by rw [quantize, one_mul]

omit hS in
theorem abs_quantize_mul_lt {x : ℚ} {emax : ℤ} (hx : |x| < 2 ^ emax) :
    |quantize S 1 emax * x| < 2 ^ (S.width - 2 : ℤ) := by
  have hpos := quantize_pos S emax
  rw [abs_mul, abs_of_pos hpos]
  calc quantize S 1 emax * |x|
      < quantize S 1 emax * 2 ^ emax := mul_lt_mul_of_pos_left hx hpos
    _ = 2 ^ (S.width - 2 : ℤ) := by
      rw [quantize_eq_two_zpow, ← zpow_add₀ (by norm_num), sub_add_cancel]

/-- Rounding the product does not change its integer part: it is exact, or a fraction. -/
theorem truncate_value_round_quantize (x : BitVec S.width) {emax : ℤ}
    (hx : |S.value x| < 2 ^ emax) :
    truncate (S.value (S.round (quantize S 1 emax * S.value x))) =
      truncate (quantize S 1 emax * S.value x) := by
  obtain ⟨hwidth, -, hm, hbias⟩ := width_eq_MBITS hS
  have hproduct := abs_quantize_mul_lt (S := S) hx
  obtain ⟨f, k, hf, hk, hvalue⟩ := exists_short x
  have hshort : |quantize S 1 emax * S.value x| = f * 2 ^ (k + ((S.width - 2 : ℤ) - emax)) := by
    rw [abs_mul, abs_of_pos (quantize_pos S emax), hvalue, quantize_eq_two_zpow,
      zpow_add₀ (by norm_num)]
    ring
  rcases le_or_gt (1 - EBIAS S - MBITS S : ℤ) (k + ((S.width - 2 : ℤ) - emax)) with hle | hlt
  · rw [value_round_of_short hS hshort hf hle
      (hproduct.trans (zpow_lt_zpow_right₀ (by norm_num) (by omega)))]
  · have htiny : |quantize S 1 emax * S.value x| < 2 ^ (1 - EBIAS S : ℤ) := by
      have hf' : (f : ℚ) < 2 ^ (MBITS S + 1) := by exact_mod_cast hf
      rw [hshort]
      calc (f : ℚ) * 2 ^ (k + ((S.width - 2 : ℤ) - emax))
          < 2 ^ (MBITS S + 1) * 2 ^ (k + ((S.width - 2 : ℤ) - emax)) :=
            mul_lt_mul_of_pos_right hf' (zpow_pos (by norm_num) _)
        _ = 2 ^ (((MBITS S + 1 : ℕ) : ℤ) + (k + ((S.width - 2 : ℤ) - emax))) := by
          rw [← zpow_natCast, ← zpow_add₀ (by norm_num)]
        _ ≤ 2 ^ (1 - EBIAS S : ℤ) := zpow_le_zpow_right₀ (by norm_num) (by omega)
    have hone : (2 : ℚ) ^ (1 - EBIAS S : ℤ) < 1 := by
      rw [← zpow_zero (2 : ℚ)]
      exact zpow_lt_zpow_right₀ (by norm_num) (by omega)
    rw [truncate_eq_zero ((abs_value_round_le hS htiny).trans_lt hone),
      truncate_eq_zero (htiny.trans hone)]

/-- The cast to integers drops the fraction and nothing else. -/
theorem toInt_fwdCastFloat {n : ℕ} (p : Fin n → BitVec S.width) {emax : ℤ}
    (hlo : S.width - 2 - EBIAS S ≤ emax) (hhi : emax ≤ EBIAS S) (i : Fin n)
    (hx : |S.value (p i)| < 2 ^ emax) :
    (fwdCastFloat S p emax i).toInt = truncate (quantize S 1 emax * S.value (p i)) := by
  obtain ⟨hwidth, -, hm, hbias⟩ := width_eq_MBITS hS
  have hscale : S.value (S.round (quantize S 1 emax)) = quantize S 1 emax := by
    rw [quantize_eq_two_zpow]
    exact value_round_two_zpow hS (by omega) (by omega)
  have hfinite : S.Finite (S.round (quantize S 1 emax)) := by
    rw [quantize_eq_two_zpow]
    exact finite_round_two_zpow hS (by omega) (by omega)
  have hrange : |truncate (quantize S 1 emax * S.value (p i))| ≤ 2 ^ (S.width - 2) - 1 := by
    refine abs_truncate_le ((abs_quantize_mul_lt hx).trans_eq ?_)
    have htwo : 2 ≤ S.width := by cases S <;> decide
    have hcast : (S.width : ℤ) - 2 = ((S.width - 2 : ℕ) : ℤ) := by rw [Nat.cast_sub htwo]; rfl
    rw [hcast, zpow_natCast]
    push_cast
    rfl
  obtain ⟨hmin, hmax⟩ := abs_le.mp hrange
  have hpow : (2 : ℤ) ^ (S.width - 1) = 2 * 2 ^ (S.width - 2) := by cases S <;> rfl
  rw [fwdCastFloat, if_pos hfinite, Scalar.mul, hscale,
    truncate_value_round_quantize hS (p i) hx, BitVec.toInt_ofInt,
    toInt_of_range S.width_pos (by omega) (by omega)]

/-- An integer is converted with a relative error of half a unit of the mantissa, to a number with
a short mantissa. -/
theorem value_round_intCast {z : ℤ} (hz : |z| ≤ 2 ^ (S.width - 1)) :
    |S.value (S.round z) - z| ≤ |(z : ℚ)| / 2 ^ (MBITS S + 1) ∧
      ∃ f k : ℕ, f < 2 ^ (MBITS S + 1) ∧ |S.value (S.round z)| = f * 2 ^ k := by
  obtain ⟨hwidth, -, hm, hbias⟩ := width_eq_MBITS hS
  have hbias' : 1 ≤ EBIAS S := by omega
  have hcast : |(z : ℚ)| = (z.natAbs : ℚ) := by rw [Nat.cast_natAbs, Int.cast_abs]
  have hlt : (z.natAbs : ℚ) < 2 ^ (EBIAS S + 1 : ℤ) := by
    have hle : (z.natAbs : ℚ) ≤ 2 ^ (S.width - 1) := by
      rw [Nat.cast_natAbs]
      exact_mod_cast hz
    refine hle.trans_lt ?_
    rw [← zpow_natCast]
    exact zpow_lt_zpow_right₀ (by norm_num) (by omega)
  obtain ⟨f, k, hf, hvalue⟩ := BinaryFormat.value_round_natCast (MBITS S) (EBIAS S) hlt hbias'
  have hnonneg := BinaryFormat.value_nonneg (MBITS S) (EBIAS S)
    (BinaryFormat.round (MBITS S) (EBIAS S) z.natAbs)
  have herror : |BinaryFormat.value (MBITS S) (EBIAS S)
      (BinaryFormat.round (MBITS S) (EBIAS S) z.natAbs) - z.natAbs| ≤
        (z.natAbs : ℚ) / 2 ^ (MBITS S + 1) := by
    rcases Nat.eq_zero_or_pos z.natAbs with hzero | hpos
    · rw [hzero, Nat.cast_zero, BinaryFormat.value_round_zero, sub_zero, abs_zero, zero_div]
    · refine BinaryFormat.abs_value_round_sub_le (MBITS S) (EBIAS S) (by exact_mod_cast hpos) ?_ hlt
        hbias'
      have hone : (2 : ℚ) ^ (1 - EBIAS S : ℤ) ≤ 1 := zpow_le_one_of_nonpos₀ (by norm_num) (by omega)
      exact hone.trans (by exact_mod_cast hpos)
  rw [value_round hS, hcast]
  split_ifs with hneg
  · refine ⟨?_, f, k, hf, by rw [abs_neg, abs_of_nonneg hnonneg, hvalue]⟩
    rw [← hcast, abs_of_neg hneg] at herror ⊢
    rw [← abs_neg]
    convert herror using 2
    ring
  · refine ⟨?_, f, k, hf, by rw [abs_of_nonneg hnonneg, hvalue]⟩
    rw [← hcast, abs_of_nonneg (not_lt.mp hneg)] at herror ⊢
    exact herror

/-- The cast from integers rounds the integer and nothing else. -/
theorem abs_value_invCastFloat_sub_le {n : ℕ} (z : Fin n → BitVec S.width) {emax : ℤ}
    (hlo : S.width - 2 - EBIAS S ≤ emax) (hhi : emax ≤ EBIAS S - 2) (i : Fin n) :
    |S.value (invCastFloat S z emax i) - dequantize S 1 emax * (z i).toInt| ≤
      |dequantize S 1 emax * (z i).toInt| / 2 ^ (MBITS S + 1) := by
  obtain ⟨hwidth, -, hm, hbias⟩ := width_eq_MBITS hS
  have hunit : dequantize S 1 emax = 2 ^ (emax - (S.width - 2 : ℤ)) := by
    rw [dequantize, Int.cast_one, one_mul]
  have hscale : S.value (S.round (dequantize S 1 emax)) = dequantize S 1 emax := by
    rw [hunit]
    exact value_round_two_zpow hS (by omega) (by omega)
  have hpos : 0 < dequantize S 1 emax := by
    rw [hunit]
    exact zpow_pos (by norm_num) _
  have hint : |(z i).toInt| ≤ 2 ^ (S.width - 1) :=
    abs_le.mpr ⟨BitVec.le_toInt _, BitVec.toInt_lt.le⟩
  obtain ⟨herror, f, k, hf, hvalue⟩ := value_round_intCast hS hint
  have hproduct : S.value (invCastFloat S z emax i) =
      dequantize S 1 emax * S.value (S.round (z i).toInt) := by
    rw [invCastFloat, Scalar.mul, hscale]
    refine value_round_of_short hS (f := f) (k := k + (emax - (S.width - 2 : ℤ))) ?_ hf (by omega) ?_
    · rw [abs_mul, abs_of_pos hpos, hvalue, hunit, zpow_add₀ (by norm_num), zpow_natCast]
      ring
    · have hone : (1 : ℚ) ≤ 2 ^ (MBITS S + 1) := one_le_pow₀ (by norm_num)
      have hword : |((z i).toInt : ℚ)| ≤ 2 ^ (S.width - 1) := by exact_mod_cast hint
      have hdiv := div_le_self (abs_nonneg ((z i).toInt : ℚ)) hone
      have htriangle := abs_sub_abs_le_abs_sub (S.value (S.round (z i).toInt)) (z i).toInt
      have hpow : (2 : ℚ) ^ S.width = 2 ^ (S.width - 1) * 2 := by
        rw [← pow_succ, Nat.sub_add_cancel S.width_pos]
      have hle : |S.value (S.round (z i).toInt)| ≤ 2 ^ S.width := by linarith
      rw [abs_mul, abs_of_pos hpos]
      calc dequantize S 1 emax * |S.value (S.round (z i).toInt)|
          ≤ dequantize S 1 emax * 2 ^ S.width := mul_le_mul_of_nonneg_left hle hpos.le
        _ = 2 ^ (emax + 2) := by
          rw [hunit, ← zpow_natCast, ← zpow_add₀ (by norm_num)]
          congr 1
          ring
        _ < 2 ^ (EBIAS S + 1 : ℤ) := zpow_lt_zpow_right₀ (by norm_num) (by omega)
  rw [hproduct, ← mul_sub, abs_mul, abs_mul, abs_of_pos hpos, mul_div_assoc]
  exact mul_le_mul_of_nonneg_left herror hpos.le

/-! ## Exponents -/

omit hS in
theorem magnitude_lt (x : BitVec S.width) : S.magnitude x < 2 ^ (S.width - 1) :=
  Nat.mod_lt _ (Nat.two_pow_pos _)

omit hS in
theorem FABS_spec (x : BitVec S.width) :
    S.magnitude (FABS S x) = S.magnitude x ∧ S.value (FABS S x) = |S.value x| := by
  have hmask : (TCMASK S).toNat = 2 ^ (S.width - 1) - 1 := by cases S <;> rfl
  have htoNat : (FABS S x).toNat = S.magnitude x := by
    rw [FABS, BitVec.toNat_and, hmask, Nat.and_two_pow_sub_one_eq_mod, Scalar.magnitude]
  have hlt := magnitude_lt x
  have hmagnitude : S.magnitude (FABS S x) = S.magnitude x := by
    rw [Scalar.magnitude, htoNat, Nat.mod_eq_of_lt hlt]
  have hnonneg := BinaryFormat.value_nonneg (MBITS S) (EBIAS S) (S.magnitude x)
  refine ⟨hmagnitude, ?_⟩
  rw [Scalar.value, Scalar.value, hmagnitude, BitVec.msb_eq_decide, htoNat,
    if_neg (by rw [decide_eq_true_iff]; omega)]
  split_ifs
  · rw [abs_neg, abs_of_nonneg hnonneg]
  · rw [abs_of_nonneg hnonneg]

omit hS in
theorem magnitude_zero (S : Scalar) : S.magnitude 0 = 0 := by
  cases S <;> rfl

omit hS in
theorem value_zero (S : Scalar) : S.value 0 = 0 := by
  have hzero := BinaryFormat.value_eq (MBITS S) (EBIAS S) (k := 0) (q := 0) (.inl rfl) (Nat.zero_le _)
  rw [Nat.zero_mul, Nat.cast_zero, zero_mul] at hzero
  rw [Scalar.value, magnitude_zero, hzero]
  split_ifs
  · rw [neg_zero]
  · rfl

theorem abs_value_lt {x : BitVec S.width} (hx : S.Finite x) : |S.value x| < 2 ^ (EBIAS S + 1 : ℤ) := by
  have hbias : 1 ≤ EBIAS S := by have := width_eq_MBITS hS; omega
  have hlt := BinaryFormat.value_lt (MBITS S) (EBIAS S) hx hbias
  have hnonneg := BinaryFormat.value_nonneg (MBITS S) (EBIAS S) (S.magnitude x)
  rw [Scalar.value]
  split_ifs
  · rwa [abs_neg, abs_of_nonneg hnonneg]
  · rwa [abs_of_nonneg hnonneg]

theorem exponent_bounds (x : BitVec S.width) :
    -EBIAS S ≤ exponent S x ∧ exponent S x ≤ EBIAS S + 1 := by
  have hbias : 1 ≤ EBIAS S := by have := width_eq_MBITS hS; omega
  rw [exponent]
  split_ifs with hlt
  · refine ⟨by omega, max_le ?_ (by omega)⟩
    rw [FREXP]
    split_ifs with hfinite
    · have hpos : 0 < S.value x := by
        have hvalue := (of_decide_eq_true hlt).2.2
        rwa [value_zero] at hvalue
      have hlog := (Int.lt_zpow_iff_log_lt (b := 2) (by norm_num) hpos).mp
        ((le_abs_self _).trans_lt (abs_value_lt hS hfinite))
      omega
    · omega
  · omega

omit hS in
theorem lt_zero_iff {x : BitVec S.width} (hx : S.Finite x) : S.lt 0 x = true ↔ 0 < S.value x := by
  have htop : S.magnitude x ≤ (2 * EBIAS S + 1) * 2 ^ MBITS S := Nat.le_of_lt hx
  rw [Scalar.lt, value_zero, magnitude_zero, decide_eq_true_iff]
  exact ⟨fun h => h.2.2, fun h => ⟨Nat.zero_le _, htop, h⟩⟩

omit hS in
/-- The exponent of a finite number is above it, and that of zero is the least one. -/
theorem exponent_spec {x : BitVec S.width} (hx : S.Finite x) (hpos : 0 ≤ S.value x) :
    S.value x < 2 ^ exponent S x ∧ (exponent S x = -EBIAS S → S.value x = 0) := by
  rw [exponent]
  by_cases hvalue : 0 < S.value x
  · rw [if_pos ((lt_zero_iff hx).mpr hvalue), FREXP, if_pos hx]
    refine ⟨(Int.lt_zpow_succ_log_self (b := 2) (by norm_num) _).trans_le ?_, fun h => by omega⟩
    exact zpow_le_zpow_right₀ (by norm_num) (le_max_left _ _)
  · have hzero : S.value x = 0 := le_antisymm (not_lt.mp hvalue) hpos
    rw [if_neg fun h => hvalue ((lt_zero_iff hx).mp h), hzero]
    exact ⟨zpow_pos (by norm_num) _, fun _ => rfl⟩

omit hS in
/-- Subnormal numbers have the exponent of the smallest normal one. -/
theorem exponent_of_subnormal {x : BitVec S.width} (hx : S.Finite x) (hpos : 0 < S.value x)
    (hlt : S.value x < 2 ^ (-EBIAS S : ℤ)) : exponent S x = 1 - EBIAS S := by
  have hlog := (Int.lt_zpow_iff_log_lt (b := 2) (by norm_num) hpos).mp (by exact_mod_cast hlt)
  rw [exponent, if_pos ((lt_zero_iff hx).mpr hpos), FREXP, if_pos hx]
  exact max_eq_right (by omega)

omit hS in
/-- The largest number of a block of finite ones. -/
theorem foldl_max_spec {n : ℕ} (p : Fin n → BitVec S.width) (hp : ∀ i, S.Finite (p i))
    (l : List (Fin n))
    (m : BitVec S.width) (hm : S.Finite m) (hm' : 0 ≤ S.value m) :
    let r := l.foldl (fun max i => if S.lt max (FABS S (p i)) then FABS S (p i) else max) m
    S.Finite r ∧ S.value m ≤ S.value r ∧ ∀ i ∈ l, |S.value (p i)| ≤ S.value r := by
  induction l generalizing m with
  | nil => exact ⟨hm, le_rfl, List.forall_mem_nil _⟩
  | cons i l ih =>
    obtain ⟨hmagnitude, hvalue⟩ := FABS_spec (p i)
    have hfinite : S.Finite (FABS S (p i)) := by
      have hi := hp i
      rwa [Scalar.Finite, hmagnitude]
    have hlt : S.lt m (FABS S (p i)) = decide (S.value m < |S.value (p i)|) := by
      have htop : S.magnitude m ≤ (2 * EBIAS S + 1) * 2 ^ MBITS S := Nat.le_of_lt hm
      have htop' : S.magnitude (p i) ≤ (2 * EBIAS S + 1) * 2 ^ MBITS S := Nat.le_of_lt (hp i)
      rw [Scalar.lt, hmagnitude, hvalue]
      simp [htop, htop']
    dsimp only
    rw [List.foldl_cons, hlt]
    by_cases hless : S.value m < |S.value (p i)|
    · rw [decide_eq_true hless, if_pos rfl]
      obtain ⟨hfin, hle, hall⟩ := ih (FABS S (p i)) hfinite (by rw [hvalue]; exact abs_nonneg _)
      rw [hvalue] at hle
      exact ⟨hfin, hless.le.trans hle, List.forall_mem_cons.mpr ⟨hle, hall⟩⟩
    · rw [decide_eq_false hless, if_neg (by decide)]
      obtain ⟨hfin, hle, hall⟩ := ih m hm hm'
      exact ⟨hfin, hle, List.forall_mem_cons.mpr ⟨(not_lt.mp hless).trans hle, hall⟩⟩

omit hS in
theorem exponentBlock_spec {n : ℕ} (p : Fin n → BitVec S.width) (hp : ∀ i, S.Finite (p i)) :
    (∀ i, |S.value (p i)| < 2 ^ exponentBlock S p) ∧
      (exponentBlock S p = -EBIAS S → ∀ i, S.value (p i) = 0) := by
  have hfinite : S.Finite 0 := by
    rw [Scalar.Finite, magnitude_zero]
    exact Nat.mul_pos (by omega) (Nat.two_pow_pos _)
  obtain ⟨hfin, hle, hall⟩ := foldl_max_spec p hp (List.finRange n) 0 hfinite (value_zero S).ge
  rw [value_zero] at hle
  obtain ⟨hlt, hzero⟩ := exponent_spec hfin hle
  refine ⟨fun i => (hall i (List.mem_finRange i)).trans_lt hlt, fun h i => ?_⟩
  have hi := hall i (List.mem_finRange i)
  rw [hzero h] at hi
  exact abs_eq_zero.mp (le_antisymm hi (abs_nonneg _))

end

def ieeeOps (S : Scalar) (n : ℕ) : FloatOps S n where
  exponentBlock b := if S.isFloat then exponentBlock S b else -EBIAS S
  fwdCast := fwdCastFloat S
  invCast := invCastFloat S
  exponentBlock_mem b := by
    split_ifs with hS
    · have hbounds := exponent_bounds hS ((List.finRange n).foldl
        (fun max i => if S.lt max (FABS S (b i)) then FABS S (b i) else max) 0)
      have hbits := (width_eq_MBITS hS).2.1
      have hcast : (2 : ℤ) ^ EBITS S = ((2 ^ EBITS S : ℕ) : ℤ) := by push_cast; rfl
      rw [exponentBlock, hcast]
      omega
    · have hbits : EBIAS S = 0 := by
        cases S
        · rfl
        · rfl
        · exact absurd rfl hS
        · exact absurd rfl hS
      have hone := Nat.one_le_two_pow (n := EBITS S)
      have hcast : (2 : ℤ) ^ EBITS S = ((2 ^ EBITS S : ℕ) : ℤ) := by push_cast; rfl
      rw [hcast, hbits]
      omega

theorem exponentBlock_ieeeOps {S : Scalar} (hS : S.isFloat = true) {n : ℕ}
    (b : Fin n → BitVec S.width) :
    (ieeeOps S n).exponentBlock b = exponentBlock S b := if_pos hS

end Zfp

import Mathlib.Data.Rat.Floor
import Zfp.BlockCode
import Zfp.BlockCodec
import Zfp.InverseRange

/-!
# Fixed accuracy

A block is coded with as many bit planes as its exponent and the tolerance ask for. The conversions
of the block to integers and back are exact here, and the lifting steps do not overflow; what is
left are the errors of the transform and of the planes that are cut off.
-/

namespace Zfp
open Lines

/-! ## Conversions -/

/-- The conversion to an integer type, which drops the fraction. -/
def truncate (x : ℚ) : ℤ := if 0 ≤ x then ⌊x⌋ else ⌈x⌉

def quantize (S : Scalar) (x : ℚ) (e : ℤ) : ℚ := x * 2 ^ ((S.width - 2 : ℤ) - e)

def dequantize (S : Scalar) (x : ℤ) (e : ℤ) : ℚ := x * 2 ^ (e - (S.width - 2 : ℤ))

def fwdCast (S : Scalar) (fblock : ℕ → ℚ) (emax : ℤ) (i : ℕ) : ℤ :=
  truncate (quantize S 1 emax * fblock i)

def invCast (S : Scalar) (iblock : ℕ → ℤ) (emax : ℤ) (i : ℕ) : ℚ := dequantize S 1 emax * iblock i

/-- The words of a block, with the bit planes that the precision of the block keeps. -/
def encodeExact (S : Scalar) (d : ℕ) (minexp emax : ℤ) (fblock : ℕ → ℚ) (i : ℕ) : BitVec S.width :=
  let maxprec := precision emax 64 minexp d
  let iblock := fwdXform halfInt d (fwdCast S fblock emax)
  keepPlanes maxprec (fwdOrder (NBMASK S) (fun j => BitVec.ofInt S.width (iblock j)) (perm d) (4 ^ d) i)

def decodeExact (S : Scalar) (d : ℕ) (emax : ℤ) (ublock : ℕ → BitVec S.width) : ℕ → ℚ :=
  let iblock := invOrder (NBMASK S) ublock (fun _ => 0) (perm d) (4 ^ d)
  invCast S (invXform halfInt d fun j => (iblock j).toInt) emax

theorem abs_sub_truncate_lt (x : ℚ) : |truncate x - x| < 1 := by
  rw [truncate, abs_lt]
  split
  · have hlo := Int.floor_le x
    have hhi := Int.lt_floor_add_one x
    constructor <;> linarith
  · have hlo := Int.le_ceil x
    have hhi := Int.ceil_lt_add_one x
    constructor <;> linarith

theorem abs_truncate_le {x : ℚ} {n : ℤ} (h : |x| < n) : |truncate x| ≤ n - 1 := by
  obtain ⟨hlo, hhi⟩ := abs_lt.mp h
  rw [truncate, abs_le]
  split
  · next hx =>
    have hfloor := Int.floor_nonneg.mpr hx
    have hlt := Int.floor_lt.mpr hhi
    omega
  · next hx =>
    have hceil : ⌈x⌉ ≤ 0 := Int.ceil_le.mpr (by push_cast; linarith)
    have hlt : -n < ⌈x⌉ := Int.lt_ceil.mpr (by push_cast; exact hlo)
    omega

theorem quantize_pos (S : Scalar) (e : ℤ) : 0 < quantize S 1 e := by
  rw [quantize, one_mul]
  exact zpow_pos (by norm_num) _

theorem dequantize_mul_quantize (S : Scalar) (e : ℤ) : dequantize S 1 e * quantize S 1 e = 1 := by
  rw [quantize, dequantize, one_mul, Int.cast_one, one_mul, ← zpow_add₀ (by norm_num)]
  convert zpow_zero (2 : ℚ)
  ring

/-! ## Accuracy -/

theorem NBMASK_bounds (S : Scalar) : 2 ^ (S.width - 1) ≤ (NBMASK S).toNat ∧
    (NBMASK S).toNat + 2 ^ (S.width - 2) ≤ 2 ^ S.width := by
  cases S <;> decide

section

variable {d : ℕ} (hd : 1 ≤ d) (hd' : d ≤ 4) (S : Scalar)

include hd hd'

/-- What the decoder gets for the coefficients is off by less than the lowest plane. -/
theorem invOrder_keepPlanes_near {k : ℕ} (hk : 1 ≤ k) (x : ℕ → BitVec S.width)
    (hx : ∀ j < 4 ^ d, |(x j).toInt| ≤ 2 ^ (S.width - 2) - 1) : ∀ j < 4 ^ d,
    |(x j).toInt - (invOrder (NBMASK S) (fun i => keepPlanes k (fwdWords S d x i)) (fun _ => 0)
        (perm d) (4 ^ d) j).toInt| ≤ 2 ^ (S.width - k) - 1 := by
  intro j hj
  obtain ⟨i, hi, hji, hinv⟩ := invOrder_apply (NBMASK S) (fun i => keepPlanes k (fwdWords S d x i))
    (fun _ => 0) hd hd' hj
  obtain ⟨hlo, hhi⟩ := NBMASK_bounds S
  have hwidth : 2 ≤ S.width := by cases S <;> decide
  have hplanes := uint2int_keepPlanes_near hwidth hlo hhi hk (x j).toInt (hx j hj)
  rw [BitVec.ofInt_toInt] at hplanes
  rwa [hinv, fwdWords, fwdOrder, if_pos hi, ← hji]

/-- A block without planes is decoded to zeros. -/
theorem decodeExact_none (emax : ℤ) (u : ℕ → BitVec S.width) :
    ∀ j < 4 ^ d, decodeExact S d emax (fun i => keepPlanes 0 (u i)) j = 0 := by
  intro j hj
  have hzero : ∀ x : BitVec S.width, keepPlanes 0 x = 0#S.width := fun x => by
    rw [keepPlanes, Nat.sub_zero, BitVec.shiftLeft_eq_zero (Nat.le_refl _)]
  have hcoeff : ∀ j < 4 ^ d, (invOrder (NBMASK S) (fun i => keepPlanes 0 (u i)) (fun _ => 0)
      (perm d) (4 ^ d) j).toInt = 0 := by
    intro j hj
    obtain ⟨i, -, -, hinv⟩ := invOrder_apply (NBMASK S) (fun i => keepPlanes 0 (u i)) (fun _ => 0)
      hd hd' hj
    rw [hinv, hzero, uint2int, BitVec.zero_xor, BitVec.sub_self, BitVec.toInt_zero]
  have hblock := invXform_zero hd hd' _ hcoeff j hj
  rw [decodeExact, invCast, hblock, Int.cast_zero, mul_zero]

/-- The words of a block hold its integers to within the lowest plane, times four for each pass. -/
theorem invXform_decoded_near {k : ℕ} (hk : 1 ≤ k) (b : ℕ → ℤ)
    (hb : ∀ j < 4 ^ d, |b j| ≤ 2 ^ (S.width - 2) - 1) : ∀ j < 4 ^ d,
    |b j - invXform halfInt d (fun j => (invOrder (NBMASK S) (fun i => keepPlanes k
      (fwdOrder (NBMASK S) (fun j => BitVec.ofInt S.width (fwdXform halfInt d b j)) (perm d)
        (4 ^ d) i)) (fun _ => 0) (perm d) (4 ^ d) j).toInt) j| ≤
      4 ^ d * 2 ^ (S.width - k) - 1 := by
  have hlarge : 6 ≤ (2 : ℤ) ^ (S.width - 2) - 1 := by cases S <;> decide
  have hrange := fwdXform_range hd hd' hlarge b hb
  have hword : ∀ j < 4 ^ d, (BitVec.ofInt S.width (fwdXform halfInt d b j)).toInt =
      fwdXform halfInt d b j := by
    intro j hj
    obtain ⟨hlo, hhi⟩ := abs_le.mp (hrange j hj)
    have hpow : (2 : ℤ) ^ (S.width - 1) = 2 * 2 ^ (S.width - 2) := by cases S <;> rfl
    rw [BitVec.toInt_ofInt, toInt_of_range S.width_pos (by omega) (by omega)]
  have hnear := invOrder_keepPlanes_near hd hd' S hk
    (fun j => BitVec.ofInt S.width (fwdXform halfInt d b j)) fun j hj => by
      rw [hword j hj]
      exact hrange j hj
  exact invXform_near hd hd' (one_le_pow₀ (by decide)) b _ fun j hj => by
    rw [← hword j hj]
    exact hnear j hj

omit hd hd' in
/-- The lowest plane that is kept, in units of the integers, is the tolerance for each pass. -/
theorem dequantize_plane {emax minexp : ℤ} {k : ℕ} (hk : (k : ℤ) = emax - minexp + 2 * d + 2)
    (hle : k ≤ S.width) : dequantize S 1 emax * (4 ^ d * 2 ^ (S.width - k)) = 2 ^ minexp := by
  have hpow : (4 : ℚ) ^ d = 2 ^ (2 * d : ℤ) := by
    rw [zpow_mul, zpow_natCast]
    norm_num
  have hplane : (2 : ℚ) ^ (S.width - k) = 2 ^ ((S.width : ℤ) - k) := by
    rw [← zpow_natCast, Nat.cast_sub hle]
  rw [dequantize, hpow, hplane, Int.cast_one, one_mul, ← zpow_add₀ (by norm_num),
    ← zpow_add₀ (by norm_num), hk]
  congr 1
  ring

omit hd hd' in
/-- The integers fit in two bits less than a word. -/
theorem abs_fwdCast_le {emax : ℤ} {x : ℕ → ℚ} {j : ℕ} (hx : |x j| < 2 ^ emax) :
    |fwdCast S x emax j| ≤ 2 ^ (S.width - 2) - 1 := by
  have hlarge := quantize_pos S emax
  have hunit : quantize S 1 emax * 2 ^ emax = (2 : ℚ) ^ (S.width - 2) := by
    have htwo : 2 ≤ S.width := by cases S <;> decide
    rw [quantize, one_mul, ← zpow_add₀ (by norm_num), ← zpow_natCast, Nat.cast_sub htwo]
    congr 1
    push_cast
    ring
  refine abs_truncate_le ?_
  rw [abs_mul, abs_of_pos hlarge]
  push_cast
  rw [← hunit]
  exact mul_lt_mul_of_pos_left hx hlarge

omit hd hd' in
/-- Integers that are off by less than the lowest plane for each pass are within the tolerance. -/
theorem dequantize_near {emax minexp : ℤ} {k : ℕ} (hk : (k : ℤ) = emax - minexp + 2 * d + 2)
    (hle : k ≤ S.width) {x : ℕ → ℚ} {j : ℕ} {z : ℤ}
    (hz : |fwdCast S x emax j - z| ≤ 4 ^ d * 2 ^ (S.width - k) - 1) :
    |dequantize S 1 emax * z - x j| ≤ 2 ^ minexp := by
  have hscale := dequantize_mul_quantize S emax
  have hsmall : 0 < dequantize S 1 emax := by
    rw [dequantize, Int.cast_one, one_mul]
    exact zpow_pos (by norm_num) _
  have htrunc : |(fwdCast S x emax j : ℚ) - quantize S 1 emax * x j| < 1 :=
    abs_sub_truncate_lt _
  have hclose : |(fwdCast S x emax j : ℚ) - z| ≤ 4 ^ d * 2 ^ (S.width - k) - 1 := by
    exact_mod_cast hz
  have herror : |(z : ℚ) - quantize S 1 emax * x j| ≤ 4 ^ d * 2 ^ (S.width - k) := by
    have htriangle := abs_sub_le (z : ℚ) (fwdCast S x emax j) (quantize S 1 emax * x j)
    rw [abs_sub_comm (z : ℚ) (fwdCast S x emax j)] at htriangle
    linarith
  calc |dequantize S 1 emax * z - x j|
      = |dequantize S 1 emax * (z - quantize S 1 emax * x j)| := by
        rw [mul_sub, ← mul_assoc, hscale, one_mul]
    _ = dequantize S 1 emax * |z - quantize S 1 emax * x j| := by
        rw [abs_mul, abs_of_pos hsmall]
    _ ≤ dequantize S 1 emax * (4 ^ d * 2 ^ (S.width - k)) :=
        mul_le_mul_of_nonneg_left herror hsmall.le
    _ = 2 ^ minexp := dequantize_plane S hk hle

/-- With exact conversions and without overflow, the values of a block that is coded at fixed
accuracy differ from the decoded ones by at most the tolerance. -/
theorem accuracy_bound (emax minexp : ℤ) (hprec : emax - minexp + 2 * d + 2 ≤ S.width)
    (x : ℕ → ℚ) (hx : ∀ j < 4 ^ d, |x j| < 2 ^ emax) : ∀ j < 4 ^ d,
    |decodeExact S d emax (encodeExact S d minexp emax x) j - x j| ≤ 2 ^ minexp := by
  intro j hj
  have hwidth : S.width ≤ 64 := S.width_le
  rcases Nat.eq_zero_or_pos (precision emax 64 minexp d) with hzero | hpos
  · -- no plane is kept, and the values are below the tolerance
    have hexp : emax ≤ minexp := by
      rw [precision] at hzero
      omega
    have hencode : encodeExact S d minexp emax x = fun i => keepPlanes 0 (fwdOrder (NBMASK S)
        (fun j => BitVec.ofInt S.width (fwdXform halfInt d (fwdCast S x emax) j)) (perm d)
        (4 ^ d) i) := by
      funext i
      rw [encodeExact, hzero]
    rw [hencode, decodeExact_none hd hd' S emax _ j hj, zero_sub, abs_neg]
    exact (hx j hj).le.trans (zpow_le_zpow_right₀ (by norm_num) hexp)
  · have hk : (precision emax 64 minexp d : ℤ) = emax - minexp + 2 * d + 2 := by
      rw [precision] at hpos ⊢
      omega
    exact dequantize_near S hk (by omega) (invXform_decoded_near hd hd' S hpos _
      (fun j hj => abs_fwdCast_le S (hx j hj)) j hj)

end

/-- A block of two dimensions that keeps twelve planes. -/
theorem accuracy_bound_thirds :
    |decodeExact .float 2 3 (encodeExact .float 2 (-3) 3 fun j => (j : ℚ) / 3) 5 - (5 : ℕ) / 3| ≤
      2 ^ (-3 : ℤ) := by
  refine accuracy_bound (by decide) (by decide) .float 3 (-3) (by decide) (fun j => (j : ℚ) / 3)
    (fun j hj => ?_) 5 (by decide)
  rw [abs_of_nonneg (by positivity), div_lt_iff₀ (by norm_num)]
  have hj' : (j : ℚ) < 16 := by exact_mod_cast hj
  norm_num
  linarith

/-! ## Words -/

/-- What a decoder makes of the `k` most significant planes of a block. -/
def decodedBlock (S : Scalar) (d k : ℕ) (b : ℕ → BitVec S.width) : ℕ → BitVec S.width :=
  let ublock := fun i => keepPlanes k (fwdWords S d (fwdXform halfWord d b) i)
  invXform halfWord d (invOrder (NBMASK S) ublock (fun _ => 0) (perm d) (4 ^ d))

section

variable {d : ℕ} (hd : 1 ≤ d) (hd' : d ≤ 4) (S : Scalar)

include hd hd'

/-- No operation of the inverse transform overflows on a block that is decoded with `2 * d + 2`
planes or more, and the integers are off by less than four times the lowest plane for each pass. -/
theorem inv_xform_range {k : ℕ} (hk : 2 * d + 2 ≤ k) (b : ℕ → BitVec S.width)
    (hb : ∀ j < 4 ^ d, |(b j).toInt| ≤ 2 ^ (S.width - 2) - 1) : ∀ j < 4 ^ d,
    invXform halfChecked d (fun j => (.ok (invOrder (NBMASK S)
        (fun i => keepPlanes k (fwdWords S d (fwdXform halfWord d b) i)) (fun _ => 0) (perm d)
        (4 ^ d) j).toInt : Checked S.width)) j = .ok (decodedBlock S d k b j).toInt ∧
      |(b j).toInt - (decodedBlock S d k b j).toInt| ≤ 4 ^ d * 2 ^ (S.width - k) - 1 := by
  have hwidth : 5 ≤ S.width := by cases S <;> decide
  have hplanes : (4 : ℤ) ^ d * 2 ^ (S.width - k) ≤ 2 ^ (S.width - 2) := by
    have hle : S.width - k ≤ S.width - 2 - 2 * d := by omega
    have hfour : (4 : ℤ) ^ d = 2 ^ (2 * d) := by
      rw [pow_mul]
      norm_num
    have hroom : 2 * d ≤ S.width - 2 := by
      have hwide : 32 ≤ S.width := by cases S <;> decide
      omega
    rw [hfour, ← pow_add]
    exact pow_le_pow_right₀ (by decide) (by omega)
  have hlarge : 6 ≤ (2 : ℤ) ^ (S.width - 2) - 1 := by cases S <;> decide
  have hrange := fwdXform_range hd hd' hlarge _ hb
  have hnear : ∀ j < 4 ^ d, |fwdXform halfInt d (fun j => (b j).toInt) j - (invOrder (NBMASK S)
      (fun i => keepPlanes k (fwdWords S d (fwdXform halfWord d b) i)) (fun _ => 0) (perm d) (4 ^ d)
      j).toInt| ≤ 2 ^ (S.width - k) - 1 := by
    intro j hj
    have hcoeff : ∀ j < 4 ^ d, (fwdXform halfWord d b j).toInt =
        fwdXform halfInt d (fun j => (b j).toInt) j := toInt_fwdXform hd hd' hwidth b hb
    rw [← hcoeff j hj]
    refine invOrder_keepPlanes_near hd hd' S (by omega) _ (fun j hj => ?_) j hj
    rw [hcoeff j hj]
    exact hrange j hj
  intro j hj
  have hword := toInt_invXform hd hd' hwidth (one_le_pow₀ (by decide)) hplanes _ hb _ hnear j hj
  rw [decodedBlock, hword]
  exact invXform_ok_near hd hd' hwidth (one_le_pow₀ (by decide)) hplanes _ hb _ hnear j hj

end

/-- The largest and the smallest integers that the casts of a float produce. -/
theorem inv_xform_range_extreme :
    let b : ℕ → BitVec 32 := fun j => BitVec.ofInt 32 (if j % 2 = 0 then 2 ^ 30 - 1 else -(2 ^ 30 - 1))
    invXform halfChecked 1 (fun j => (.ok (invOrder (NBMASK .float)
        (fun i => keepPlanes 4 (fwdWords .float 1 (fwdXform halfWord 1 b) i)) (fun _ => 0) (perm 1)
        (4 ^ 1) j).toInt : Checked 32)) 3 = .ok (decodedBlock .float 1 4 b 3).toInt ∧
      |(b 3).toInt - (decodedBlock .float 1 4 b 3).toInt| ≤ 2 ^ 30 - 1 :=
  inv_xform_range (by decide) (by decide) .float (k := 4) (by decide)
    (fun j => BitVec.ofInt 32 (if j % 2 = 0 then 2 ^ 30 - 1 else -(2 ^ 30 - 1)))
    (fun j _ => by split_ifs <;> decide) 3 (by decide)

end Zfp

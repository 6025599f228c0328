import Zfp.TransformRange

/-!
# Errors of the transform

What an error of the coefficients becomes in the inverse transform over the integers: each pass
multiplies it by less than four, the bits that the shifts of both transforms drop included. Bit
planes that are cut off a negabinary word change its value by less than the lowest plane that is
kept.
-/

namespace Zfp
open Lines

variable {w : ℕ}

/-! ## Lifting -/

theorem halfInt_eq (x : ℤ) : halfInt x = x / 2 := Int.shiftRight_eq_div_pow x 1

/-- Row by row, the inverse transform weighs the errors of the coefficients by a quarter of
`4, 6, -4, -1`, of `4, 2, 4, 5` and so on; the bits that the shifts drop add a constant. -/
theorem invLift_error (v u : Vec4 ℤ) :
    let f := fwdLift halfInt v
    let o := invLift halfInt u
    let e : Vec4 ℤ := ⟨u.x - f.x, u.y - f.y, u.z - f.z, u.w - f.w⟩
    (-13 ≤ 4 * (o.x - v.x) - (4 * e.x + 6 * e.y - 4 * e.z - e.w) ∧
      4 * (o.x - v.x) - (4 * e.x + 6 * e.y - 4 * e.z - e.w) ≤ 9) ∧
    (-3 ≤ 4 * (o.y - v.y) - (4 * e.x + 2 * e.y + 4 * e.z + 5 * e.w) ∧
      4 * (o.y - v.y) - (4 * e.x + 2 * e.y + 4 * e.z + 5 * e.w) ≤ 3) ∧
    (-7 ≤ 4 * (o.z - v.z) - (4 * e.x - 2 * e.y + 4 * e.z - 5 * e.w) ∧
      4 * (o.z - v.z) - (4 * e.x - 2 * e.y + 4 * e.z - 5 * e.w) ≤ 3) ∧
    (-13 ≤ 4 * (o.w - v.w) - (4 * e.x - 6 * e.y - 4 * e.z + e.w) ∧
      4 * (o.w - v.w) - (4 * e.x - 6 * e.y - 4 * e.z + e.w) ≤ 5) := by
  obtain ⟨x, y, z, w⟩ := v
  obtain ⟨x', y', z', w'⟩ := u
  simp only [fwdLift, invLift, halfInt_eq]
  refine ⟨?_, ?_, ?_, ?_⟩ <;> omega

/-- An error of less than `n` grows to less than `4 * n`. -/
theorem invLift_near {n : ℤ} (hn : 1 ≤ n) (v u : Vec4 ℤ)
    (h : ∀ i < 4, |(fwdLift halfInt v).get i - u.get i| ≤ n - 1) :
    ∀ i < 4, |v.get i - (invLift halfInt u).get i| ≤ 4 * n - 1 := by
  obtain ⟨⟨hx, hx'⟩, ⟨hy, hy'⟩, ⟨hz, hz'⟩, hw, hw'⟩ := invLift_error v u
  have ha : |(fwdLift halfInt v).x - u.x| ≤ n - 1 := h 0 (by decide)
  have hb : |(fwdLift halfInt v).y - u.y| ≤ n - 1 := h 1 (by decide)
  have hc : |(fwdLift halfInt v).z - u.z| ≤ n - 1 := h 2 (by decide)
  have he : |(fwdLift halfInt v).w - u.w| ≤ n - 1 := h 3 (by decide)
  rw [abs_le] at ha hb hc he
  dsimp only at hx hx' hy hy' hz hz' hw hw'
  intro i hi
  rw [abs_le]
  interval_cases i
  · show _ ≤ v.x - (invLift halfInt u).x ∧ v.x - (invLift halfInt u).x ≤ _
    omega
  · show _ ≤ v.y - (invLift halfInt u).y ∧ v.y - (invLift halfInt u).y ≤ _
    omega
  · show _ ≤ v.z - (invLift halfInt u).z ∧ v.z - (invLift halfInt u).z ≤ _
    omega
  · show _ ≤ v.w - (invLift halfInt u).w ∧ v.w - (invLift halfInt u).w ≤ _
    omega

/-- The forward transform keeps the range. -/
theorem fwdLift_range {m : ℤ} (hm : 6 ≤ m) (v : Vec4 ℤ) (h : ∀ i < 4, |v.get i| ≤ m) :
    ∀ i < 4, |(fwdLift halfInt v).get i| ≤ m := by
  obtain ⟨x, y, z, w⟩ := v
  have hx : |x| ≤ m := h 0 (by decide)
  have hy : |y| ≤ m := h 1 (by decide)
  have hz : |z| ≤ m := h 2 (by decide)
  have hw : |w| ≤ m := h 3 (by decide)
  rw [abs_le] at hx hy hz hw
  intro i hi
  rw [abs_le]
  interval_cases i
  all_goals
    simp only [fwdLift, Vec4.get, halfInt_eq]
    omega
/-! ## Blocks -/

section

variable {d : ℕ} (hd : 1 ≤ d) (hd' : d ≤ 4)

include hd hd'

theorem fwdXform_range {m : ℤ} (hm : 6 ≤ m) (p : ℕ → ℤ) (h : ∀ j < 4 ^ d, |p j| ≤ m) :
    ∀ j < 4 ^ d, |fwdXform halfInt d p j| ≤ m :=
  passes_rel (R := fun (x _ : ℤ) => |x| ≤ m) (g := id) (fun v _ hv => fwdLift_range hm v hv)
    (xformPasses_lines hd hd') (q := fun _ => 0) h

/-- The inverse transform of a block whose coefficients are off by less than `n`. -/
theorem invXform_near {n : ℤ} (hn : 1 ≤ n) (p u : ℕ → ℤ)
    (h : ∀ j < 4 ^ d, |fwdXform halfInt d p j - u j| ≤ n - 1) :
    ∀ j < 4 ^ d, |p j - invXform halfInt d u j| ≤ 4 ^ d * n - 1 := by
  have hlength : (xformPasses d).length = d := by interval_cases d <;> rfl
  have hstart : ∀ j < 4 ^ d, |passes (fwdLift halfInt) (xformPasses d) p j - u j| ≤ 4 ^ 0 * n - 1 := by
    rw [pow_zero, one_mul]
    exact h
  have hundo := passes_undo (P := fun _ => True) (R := fun k x x' => |x - x'| ≤ 4 ^ k * n - 1)
    (g := invLift halfInt) (fun _ _ _ _ => trivial) (fun k v u _ hv => ?_) (xformPasses_spec hd hd')
    (fun _ _ => trivial) hstart
  · rwa [Nat.zero_add, hlength] at hundo
  · rw [pow_succ', Int.mul_assoc]
    exact invLift_near (one_le_mul_of_one_le_of_one_le (one_le_pow₀ (by decide)) hn) v u hv

theorem invXform_zero (p : ℕ → ℤ) (h : ∀ j < 4 ^ d, p j = 0) :
    ∀ j < 4 ^ d, invXform halfInt d p j = 0 := by
  refine passes_rel (R := fun (x _ : ℤ) => x = 0) (g := id) (fun v _ hv => ?_)
    (fun q hq => xformPasses_lines hd hd' q (List.mem_reverse.mp hq)) (q := fun _ => 0) h
  have hv' : v = ⟨0, 0, 0, 0⟩ := Vec4.ext (hv 0 (by decide)) (hv 1 (by decide)) (hv 2 (by decide))
    (hv 3 (by decide))
  rw [hv']
  decide

end

/-! ## Bit planes -/

/-- The `k` most significant bit planes of a coefficient. -/
def keepPlanes (k : ℕ) (x : BitVec w) : BitVec w := x >>> (w - k) <<< (w - k)

section

variable {mask : BitVec w} {k : ℕ}

theorem toNat_keepPlanes_xor (k : ℕ) (t mask : BitVec w) :
    (keepPlanes k (t ^^^ mask) ^^^ mask).toNat =
      2 ^ (w - k) * (t.toNat / 2 ^ (w - k)) + mask.toNat % 2 ^ (w - k) := by
  apply Nat.eq_of_testBit_eq
  intro j
  rw [Nat.testBit_two_pow_mul_add _ (Nat.mod_lt _ (Nat.two_pow_pos _)), BitVec.testBit_toNat,
    BitVec.getLsbD_xor, keepPlanes, BitVec.getLsbD_shiftLeft, BitVec.getLsbD_ushiftRight]
  by_cases hj : j < w - k
  · rw [if_pos hj, Nat.testBit_mod_two_pow, BitVec.testBit_toNat]
    simp [hj]
  · rw [if_neg hj, Nat.testBit_div_two_pow, BitVec.testBit_toNat, Nat.sub_add_cancel (by omega),
      Nat.add_sub_cancel' (by omega), BitVec.getLsbD_xor]
    by_cases hw : j < w
    · simp [hj, hw]
    · simp [hj, BitVec.getLsbD_of_ge _ _ (Nat.le_of_not_lt hw)]

theorem ofInt_toNat (x : BitVec w) : BitVec.ofInt w x.toNat = x := by
  rw [BitVec.ofInt_natCast, BitVec.ofNat_toNat, BitVec.setWidth_eq]

/-- A negabinary word that loses its planes below the `k` most significant ones. -/
theorem uint2int_keepPlanes_near (hw : 2 ≤ w) (hlo : 2 ^ (w - 1) ≤ mask.toNat)
    (hhi : mask.toNat + 2 ^ (w - 2) ≤ 2 ^ w) (hk : 1 ≤ k) (y : ℤ) (hy : |y| ≤ 2 ^ (w - 2) - 1) :
    |y - (uint2int mask (keepPlanes k (int2uint mask (BitVec.ofInt w y)))).toInt| ≤
      2 ^ (w - k) - 1 := by
  obtain ⟨hy, hy'⟩ := abs_le.mp hy
  have hpow : (2 : ℤ) ^ (w - 1) = 2 * 2 ^ (w - 2) := by
    rw [← pow_succ']
    congr 1
    omega
  have hpow' : (2 : ℤ) ^ w = 2 * 2 ^ (w - 1) := by
    rw [← pow_succ']
    congr 1
    omega
  have hlo : (2 : ℤ) ^ (w - 1) ≤ mask.toNat := by exact_mod_cast hlo
  have hhi : mask.toNat + (2 : ℤ) ^ (w - 2) ≤ 2 ^ w := by exact_mod_cast hhi
  -- the sum does not wrap
  have ht : ((BitVec.ofInt w y + mask).toNat : ℤ) = y + mask.toNat := by
    have hsum : BitVec.ofInt w y + mask = BitVec.ofInt w (y + mask.toNat) := by
      rw [BitVec.ofInt_add, ofInt_toNat]
    rw [hsum, BitVec.toNat_ofInt, Int.toNat_of_nonneg (Int.emod_nonneg _ (by positivity))]
    push_cast
    exact Int.emod_eq_of_lt (by omega) (by omega)
  have hkeep := toNat_keepPlanes_xor k (BitVec.ofInt w y + mask) mask
  rw [uint2int, int2uint]
  generalize BitVec.ofInt w y + mask = t at ht hkeep
  generalize keepPlanes k (t ^^^ mask) ^^^ mask = t' at hkeep
  have hsub : t' - mask = BitVec.ofInt w (t'.toNat - mask.toNat) := by
    rw [Int.sub_eq_add_neg, BitVec.ofInt_add, BitVec.ofInt_neg, ofInt_toNat, ofInt_toNat,
      BitVec.sub_eq_add_neg]
  -- both differ by what the planes below hold
  have hplane : (0 : ℤ) < 2 ^ (w - k) := by positivity
  have hrem := Int.mul_ediv_add_emod (t.toNat : ℤ) (2 ^ (w - k))
  have hrem' := Int.mul_ediv_add_emod (mask.toNat : ℤ) (2 ^ (w - k))
  have hmod := Int.emod_nonneg (t.toNat : ℤ) hplane.ne'
  have hmod' := Int.emod_nonneg (mask.toNat : ℤ) hplane.ne'
  have hlt := Int.emod_lt_of_pos (t.toNat : ℤ) hplane
  have hlt' := Int.emod_lt_of_pos (mask.toNat : ℤ) hplane
  have hkeep : (t'.toNat : ℤ) =
      2 ^ (w - k) * (t.toNat / 2 ^ (w - k)) + mask.toNat % 2 ^ (w - k) := by exact_mod_cast hkeep
  have hrange : -2 ^ (w - 1) ≤ (t'.toNat : ℤ) - mask.toNat ∧
      (t'.toNat : ℤ) - mask.toNat < 2 ^ (w - 1) := by
    rcases Nat.lt_or_ge k 2 with hsign | hmore
    · -- the highest plane is the sign
      have hk' : w - k = w - 1 := by omega
      rw [hk'] at hplane hrem hrem' hkeep hmod hmod' hlt hlt'
      have hdiv := Int.ediv_nonneg (show (0 : ℤ) ≤ t.toNat by omega) hplane.le
      have hdiv' : (t.toNat : ℤ) / 2 ^ (w - 1) < 2 := Int.ediv_lt_of_lt_mul hplane (by omega)
      have hmask := Int.le_ediv_of_mul_le hplane (show 1 * 2 ^ (w - 1) ≤ (mask.toNat : ℤ) by omega)
      have hmask' : (mask.toNat : ℤ) / 2 ^ (w - 1) < 2 := Int.ediv_lt_of_lt_mul hplane (by omega)
      obtain hzero | hone : (t.toNat : ℤ) / 2 ^ (w - 1) = 0 ∨ (t.toNat : ℤ) / 2 ^ (w - 1) = 1 := by
        omega
      · rw [show (mask.toNat : ℤ) / 2 ^ (w - 1) = 1 by omega] at hrem'
        rw [hzero] at hkeep
        omega
      · rw [show (mask.toNat : ℤ) / 2 ^ (w - 1) = 1 by omega] at hrem'
        rw [hone] at hkeep
        omega
    · have hle : (2 : ℤ) ^ (w - k) ≤ 2 ^ (w - 2) := pow_le_pow_right₀ (by decide) (by omega)
      omega
  rw [hsub, BitVec.toInt_ofInt, toInt_of_range (by omega) hrange.1 hrange.2, abs_le]
  constructor <;> omega
end
end Zfp

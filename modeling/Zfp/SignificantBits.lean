import Zfp.BitLists

/-!
# The significant bits of a word

They are the bits from the lowest one-bit upwards. A shift to the left by no more than their
number drops bits at the top and leaves the others at the top.
-/

namespace SignificantBits
open BitLists

variable {w : ℕ} {m x : BitVec w} {p s t : ℕ}

/-- The `t` upper bits of `m` are those from its lowest one-bit on. -/
structure Significant (m : BitVec w) (t : ℕ) : Prop where
  le : t ≤ w
  low : ∀ k < w - t, m.getLsbD k = false
  top : 0 < t → m.getLsbD (w - t) = true

theorem Significant.eq_zero_iff (h : Significant m t) : m = 0#w ↔ t = 0 := by
  constructor
  · rintro rfl
    by_contra hne
    have htop := h.top (Nat.pos_of_ne_zero hne)
    rw [BitVec.getLsbD_zero] at htop
    exact Bool.false_ne_true htop
  · rintro rfl
    exact eq_zero_iff_getLsbD.mpr fun k hk => h.low k (by omega)

theorem ctz_zero (w : ℕ) : (0#w).ctz.toNat = w := by
  have hreverse : (0#w).reverse = 0#w := BitVec.reverse_eq_zero_iff.mpr rfl
  rw [BitVec.ctz, hreverse, BitVec.clz_eq_iff_eq_zero.mpr rfl, BitVec.natCast_eq_ofNat,
    BitVec.toNat_ofNat, Nat.mod_eq_of_lt Nat.lt_two_pow_self]

theorem ctz_lt (h : m ≠ 0#w) : m.ctz.toNat < w := by
  have hlt := BitVec.lt_def.mp (BitVec.ctz_lt_iff_ne_zero.mpr h)
  rwa [BitVec.natCast_eq_ofNat, BitVec.toNat_ofNat, Nat.mod_eq_of_lt Nat.lt_two_pow_self] at hlt

/-- All bits but the trailing zeros are significant. -/
theorem significant_ctz (m : BitVec w) : Significant m (w - m.ctz.toNat) := by
  rcases eq_or_ne m 0#w with rfl | hne
  · rw [ctz_zero, Nat.sub_self]
    exact ⟨Nat.zero_le w, fun k _ => BitVec.getLsbD_zero, fun h => absurd h (lt_irrefl 0)⟩
  · have hlt := ctz_lt hne
    refine ⟨Nat.sub_le _ _, fun k hk => ?_, fun _ => ?_⟩
    · exact BitVec.getLsbD_false_of_lt_ctz (by omega)
    · rw [Nat.sub_sub_self hlt.le]
      exact BitVec.getLsbD_true_ctz_of_ne_zero hne

theorem Significant.shiftLeft (h : Significant m t) (hs : s ≤ t) :
    Significant (m <<< s) (t - s) := by
  have hle := h.le
  refine ⟨by omega, fun k hk => ?_, fun ht => ?_⟩
  · rw [BitVec.getLsbD_shiftLeft]
    by_cases hks : k < s
    · simp [hks]
    · rw [h.low (k - s) (by omega), Bool.and_false]
  · rw [BitVec.getLsbD_shiftLeft, decide_eq_true (by omega), decide_eq_false (by omega),
      show w - (t - s) - s = w - t by omega, h.top (by omega)]
    rfl

/-- A shift by one bit less tells whether `s` upper bits are significant. -/
theorem Significant.shift_ne_zero (h : Significant m t) (hs : 0 < s) :
    m <<< (s - 1) ≠ 0 ↔ s ≤ t := by
  have hle := h.le
  constructor
  · intro hne
    by_contra hlt
    refine hne (eq_zero_iff_getLsbD.mpr fun k hk => ?_)
    rw [BitVec.getLsbD_shiftLeft]
    by_cases hks : k < s - 1
    · simp [hks]
    · rw [h.low (k - (s - 1)) (by omega), Bool.and_false]
  · intro hst hzero
    have hbit := eq_zero_iff_getLsbD.mp hzero (w - t + (s - 1)) (by omega)
    rw [BitVec.getLsbD_shiftLeft, decide_eq_true (by omega), decide_eq_false (by omega),
      Nat.add_sub_cancel, h.top (by omega)] at hbit
    exact absurd hbit (by decide)

/-! ## The upper bits of a word -/

/-- The `p` upper bits of a word, the others cleared. -/
def topBits (p : ℕ) (x : BitVec w) : BitVec w := x >>> (w - p) <<< (w - p)

theorem getLsbD_topBits (p : ℕ) (x : BitVec w) (k : ℕ) :
    (topBits p x).getLsbD k = (decide (w - p ≤ k) && x.getLsbD k) := by
  rw [topBits, BitVec.getLsbD_shiftLeft, BitVec.getLsbD_ushiftRight]
  by_cases hk : w - p ≤ k
  · have hge : ¬ k < w - p := by omega
    rw [decide_eq_true hk, decide_eq_false hge, Nat.add_sub_cancel' hk, Bool.not_false,
      Bool.and_true, Bool.true_and]
    by_cases hw : k < w
    · rw [decide_eq_true hw, Bool.true_and]
    · rw [BitVec.getLsbD_of_ge x k (by omega), Bool.and_false]
  · have hlt : k < w - p := by omega
    rw [decide_eq_false hk, decide_eq_true hlt, Bool.not_true, Bool.and_false, Bool.false_and,
      Bool.false_and]

/-- Nothing is lost if the other bits are zero. -/
theorem topBits_eq_iff : topBits p x = x ↔ ∀ k < w - p, x.getLsbD k = false := by
  constructor
  · intro h k hk
    rw [← h, getLsbD_topBits, decide_eq_false (by omega), Bool.false_and]
  · intro h
    refine BitVec.eq_of_getLsbD_eq fun k _ => ?_
    rw [getLsbD_topBits]
    by_cases hk : w - p ≤ k
    · rw [decide_eq_true hk, Bool.true_and]
    · rw [h k (by omega), Bool.and_false]

end SignificantBits

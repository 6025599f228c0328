import Mathlib.Algebra.Order.Ring.Nat
import Mathlib.Logic.Function.Basic

/-!
# Mixed radices

The multi-indices of a box are numbered in row-major order, the first dimension fastest. The number
of an index and the index of a number are inverse to each other.
-/

namespace MixedRadix

/-- The number of indices in the first `d` dimensions. -/
def total (n : ℕ → ℕ) : ℕ → ℕ
  | 0 => 1
  | d + 1 => total n d * n d

/-- The number of an index. -/
def rank (n c : ℕ → ℕ) : ℕ → ℕ
  | 0 => 0
  | d + 1 => rank n c d + total n d * c d

/-- The coordinates of the index with a number. -/
def digit (n : ℕ → ℕ) (k a : ℕ) : ℕ := k / total n a % n a

/-- The box of indices. -/
def Within (n : ℕ → ℕ) (d : ℕ) (c : ℕ → ℕ) : Prop := ∀ a < d, c a < n a

variable {n c c' : ℕ → ℕ} {d : ℕ}

theorem Within.of_succ (h : Within n (d + 1) c) : Within n d c := fun a ha => h a (by omega)

theorem Within.last (h : Within n (d + 1) c) : c d < n d := h d (Nat.lt_succ_self d)

theorem within_update {c : ℕ → ℕ} (hc : Within n d c) {z : ℕ} (hz : z < n d) :
    Within n (d + 1) (Function.update c d z) := by
  intro a ha
  rcases Nat.lt_succ_iff_lt_or_eq.mp ha with ha | rfl
  · rw [Function.update_of_ne ha.ne]
    exact hc a ha
  · rwa [Function.update_self]

theorem total_pos (hn : ∀ a < d, 0 < n a) : 0 < total n d := by
  induction d with
  | zero => exact Nat.one_pos
  | succ d ih =>
    exact Nat.mul_pos (ih fun a ha => hn a (by omega)) (hn d (Nat.lt_succ_self d))

theorem total_congr {n' : ℕ → ℕ} (h : ∀ a < d, n a = n' a) : total n d = total n' d := by
  induction d with
  | zero => rfl
  | succ d ih => rw [total, total, ih fun a ha => h a (by omega), h d (Nat.lt_succ_self d)]

theorem rank_congr (h : ∀ a < d, c a = c' a) : rank n c d = rank n c' d := by
  induction d with
  | zero => rfl
  | succ d ih => rw [rank, rank, ih fun a ha => h a (by omega), h d (Nat.lt_succ_self d)]

theorem rank_congr_radix {n' : ℕ → ℕ} (h : ∀ a < d, n a = n' a) : rank n c d = rank n' c d := by
  induction d with
  | zero => rfl
  | succ d ih =>
    have hlow : ∀ a < d, n a = n' a := fun a ha => h a (by omega)
    rw [rank, rank, ih hlow, total_congr hlow]

theorem rank_lt (h : Within n d c) : rank n c d < total n d := by
  induction d with
  | zero => exact Nat.one_pos
  | succ d ih =>
    have hlt := ih h.of_succ
    have hle := Nat.mul_le_mul_left (total n d) (Nat.succ_le_of_lt h.last)
    rw [Nat.mul_succ] at hle
    rw [rank, total]
    omega

theorem digit_within (hn : ∀ a < d, 0 < n a) (k : ℕ) : Within n d (digit n k) :=
  fun a ha => Nat.mod_lt _ (hn a ha)

/-- The lower digits of a number are those of its remainder. -/
theorem digit_mod {a : ℕ} (h : a < d) (k : ℕ) : digit n (k % total n d) a = digit n k a := by
  induction d generalizing k with
  | zero => omega
  | succ d ih =>
    have hmod : k % total n (d + 1) % total n d = k % total n d :=
      Nat.mod_mod_of_dvd _ (Dvd.intro _ rfl)
    rcases Nat.lt_succ_iff_lt_or_eq.mp h with hlt | rfl
    · rw [← ih hlt (k % _), hmod, ih hlt k]
    · rw [digit, digit, total, Nat.mod_mul_right_div_self, Nat.mod_mod]

theorem rank_digit {k : ℕ} (hk : k < total n d) : rank n (digit n k) d = k := by
  induction d generalizing k with
  | zero =>
    rw [total] at hk
    exact (Nat.lt_one_iff.mp hk).symm
  | succ d ih =>
    have hk' : k < total n d * n d := hk
    have hpos : 0 < total n d := Nat.pos_of_ne_zero fun h => by
      rw [h, Nat.zero_mul] at hk'
      exact Nat.not_lt_zero k hk'
    have hlow := ih (Nat.mod_lt k hpos)
    rw [rank_congr fun a ha => digit_mod ha k] at hlow
    have hdigit : digit n k d = k / total n d := Nat.mod_eq_of_lt (Nat.div_lt_of_lt_mul hk')
    rw [rank, hlow, hdigit, Nat.mod_add_div]

theorem digit_rank (h : Within n d c) {a : ℕ} (ha : a < d) : digit n (rank n c d) a = c a := by
  induction d with
  | zero => omega
  | succ d ih =>
    have hlt := rank_lt h.of_succ
    have hmod : rank n c (d + 1) % total n d = rank n c d := by
      rw [rank, Nat.add_mul_mod_self_left, Nat.mod_eq_of_lt hlt]
    rcases Nat.lt_succ_iff_lt_or_eq.mp ha with ha | rfl
    · rw [← digit_mod ha, hmod, ih h.of_succ ha]
    · rw [digit, rank, Nat.add_mul_div_left _ _ (by omega), Nat.div_eq_of_lt hlt, Nat.zero_add,
        Nat.mod_eq_of_lt h.last]

theorem rank_inj (h : Within n d c) (h' : Within n d c') (heq : rank n c d = rank n c' d) :
    ∀ a < d, c a = c' a := by
  intro a ha
  rw [← digit_rank h ha, heq, digit_rank h' ha]

theorem total_const (r d : ℕ) : total (fun _ => r) d = r ^ d := by
  induction d with
  | zero => rfl
  | succ d ih => rw [total, ih, pow_succ]

/-- Only the index of zeros has number zero. -/
theorem rank_eq_zero_iff (h : Within n d c) : rank n c d = 0 ↔ ∀ a < d, c a = 0 := by
  constructor
  · intro hzero a ha
    rw [← digit_rank h ha, hzero, digit, Nat.zero_div, Nat.zero_mod]
  · intro hzero
    rw [rank_congr hzero]
    induction d with
    | zero => rfl
    | succ d ih => rw [rank, Nat.mul_zero, ih h.of_succ fun a ha => hzero a (by omega)]

/-! ## Successors -/

theorem rank_zero (h : ∀ a < d, c a = 0) : rank n c d = 0 := by
  induction d with
  | zero => rfl
  | succ d ih =>
    rw [rank, ih fun a ha => h a (by omega), h d (Nat.lt_succ_self d), Nat.mul_zero]

theorem rank_last (h : ∀ a < d, c a + 1 = n a) : rank n c d + 1 = total n d := by
  induction d with
  | zero => rfl
  | succ d ih =>
    have hlow := ih fun a ha => h a (by omega)
    rw [rank, total, ← h d (Nat.lt_succ_self d), Nat.mul_succ]
    omega

/-- A carry into dimension `a` adds one to the number of an index. -/
theorem rank_next {a : ℕ} (ha : a < d) (hlow : ∀ b < a, c b + 1 = n b ∧ c' b = 0)
    (hstep : c' a = c a + 1) (hhigh : ∀ b, a < b → b < d → c' b = c b) :
    rank n c' d = rank n c d + 1 := by
  induction d with
  | zero => omega
  | succ d ih =>
    rcases Nat.lt_succ_iff_lt_or_eq.mp ha with hlt | rfl
    · rw [rank, rank, ih hlt fun b hab hb => hhigh b hab (by omega),
        hhigh d hlt (Nat.lt_succ_self d)]
      omega
    · have hzero := rank_zero (n := n) fun b hb => (hlow b hb).2
      have hlast := rank_last fun b hb => (hlow b hb).1
      rw [rank, rank, hzero, hstep, Nat.mul_succ]
      omega

/-! ## The first dimension -/

theorem total_succ (n : ℕ → ℕ) (d : ℕ) : total n (d + 1) = n 0 * total (fun a => n (a + 1)) d := by
  induction d with
  | zero => rw [total, total, total, Nat.one_mul, Nat.mul_one]
  | succ d ih => rw [total, ih, total, Nat.mul_assoc]

theorem rank_succ (n c : ℕ → ℕ) (d : ℕ) :
    rank n c (d + 1) = c 0 + n 0 * rank (fun a => n (a + 1)) (fun a => c (a + 1)) d := by
  induction d with
  | zero => rw [rank, rank, rank, total, Nat.one_mul, Nat.zero_add, Nat.mul_zero, Nat.add_zero]
  | succ d ih => rw [rank, ih, total_succ, rank, Nat.mul_add, Nat.mul_assoc, Nat.add_assoc]

theorem digit_zero (n : ℕ → ℕ) (k : ℕ) : digit n k 0 = k % n 0 := by
  rw [digit, total, Nat.div_one]

theorem digit_succ (n : ℕ → ℕ) (k a : ℕ) :
    digit n k (a + 1) = digit (fun a => n (a + 1)) (k / n 0) a := by
  rw [digit, digit, total_succ, Nat.div_div_eq_div_mul]

end MixedRadix

import Mathlib.Data.BitVec
import Mathlib.Data.List.Basic
import Mathlib.Data.List.GetD
import Mathlib.Tactic.Linarith

/-!
# Words as bit lists, least significant bit first

A word is read through its bits. `lowBits` spells the low bits of a word as a list,
`wordOf` assembles a word from a bit function, and the arithmetic used to splice
words (disjoint addition, shifts, masks) is described bit by bit.
-/

namespace BitLists

variable {w : ℕ}

/-- The `n` low bits of a word, least significant bit first. -/
def lowBits (v : BitVec w) (n : ℕ) : List Bool := (List.range n).map v.getLsbD

/-- The word whose bit `i` is `f i`. -/
def wordOf (w : ℕ) (f : ℕ → Bool) : BitVec w :=
  (BitVec.ofBoolListLE ((List.range w).map f)).setWidth w

@[simp] theorem getLsbD_wordOf (f : ℕ → Bool) (i : ℕ) :
    (wordOf w f).getLsbD i = (decide (i < w) && f i) := by
  rw [wordOf, BitVec.getLsbD_setWidth, BitVec.getLsbD_ofBoolListLE]
  by_cases h : i < w <;> simp [h]

@[simp] theorem lowBits_zero (v : BitVec w) : lowBits v 0 = [] := rfl

@[simp] theorem length_lowBits (v : BitVec w) (n : ℕ) : (lowBits v n).length = n := by
  simp [lowBits]

theorem getElem_lowBits (v : BitVec w) (n i : ℕ) (h : i < (lowBits v n).length) :
    (lowBits v n)[i] = v.getLsbD i := by simp [lowBits]

theorem lowBits_succ (v : BitVec w) (n : ℕ) :
    lowBits v (n + 1) = v.getLsbD 0 :: lowBits (v >>> 1) n := by
  simp [lowBits, List.range_succ_eq_map, Function.comp_def, Nat.add_comm]

theorem lowBits_add (v : BitVec w) (m n : ℕ) :
    lowBits v (m + n) = lowBits v m ++ lowBits (v >>> m) n := by
  induction m generalizing v with
  | zero => simp
  | succ m ih =>
    rw [Nat.succ_add, lowBits_succ, lowBits_succ, ih, List.cons_append]
    congr 3
    apply BitVec.eq_of_getLsbD_eq
    intro i _
    simp [Nat.add_left_comm, Nat.add_comm, Nat.add_assoc]

theorem lowBits_congr {w' : ℕ} {v : BitVec w} {u : BitVec w'} {n : ℕ}
    (h : ∀ i < n, v.getLsbD i = u.getLsbD i) : lowBits v n = lowBits u n :=
  List.map_congr_left (by simpa using h)

/-- A word below `2 ^ k` has no bit at or above position `k`. -/
theorem getLsbD_of_toNat_lt {v : BitVec w} {k i : ℕ} (h : v.toNat < 2 ^ k) (hi : k ≤ i) :
    v.getLsbD i = false := by
  rw [← BitVec.testBit_toNat]
  exact Nat.testBit_lt_two_pow (h.trans_le (Nat.pow_le_pow_right (by decide) hi))

/-- A word without bits at or above position `k` lies below `2 ^ k`. -/
theorem toNat_lt_of_getLsbD {v : BitVec w} {k : ℕ} (h : ∀ i, k ≤ i → v.getLsbD i = false) :
    v.toNat < 2 ^ k := by
  apply Nat.lt_pow_two_of_testBit
  intro i hi
  rw [BitVec.testBit_toNat]
  exact h i hi

/-- Addition of words with disjoint bits is the bitwise union. -/
theorem getLsbD_add_of_disjoint {x y : BitVec w} (h : ∀ i, x.getLsbD i = true → y.getLsbD i = false)
    (i : ℕ) : (x + y).getLsbD i = (x.getLsbD i || y.getLsbD i) := by
  have hand : x &&& y = 0#w := by
    apply BitVec.eq_of_getLsbD_eq
    intro j _
    cases hj : x.getLsbD j <;> simp [hj, h j]
  rw [BitVec.add_eq_or_of_and_eq_zero x y hand, BitVec.getLsbD_or]

/-- The mask `(1 << k) - 1` selects the bits below `k`. -/
theorem getLsbD_mask {k : ℕ} (hk : k ≤ w) (i : ℕ) :
    ((1#w <<< k) - 1#w).getLsbD i = decide (i < k) := by
  have hval : ((1#w <<< k) - 1#w).toNat = 2 ^ k - 1 := by
    rcases Nat.eq_zero_or_pos w with rfl | hw
    · obtain rfl : k = 0 := by omega
      simp
    · have h1 : (1#w).toNat = 1 := by
        simp [BitVec.toNat_ofNat, Nat.mod_eq_of_lt (Nat.one_lt_two_pow (by omega : w ≠ 0))]
      have hp : 0 < 2 ^ k := Nat.two_pow_pos k
      have hle : 2 ^ k ≤ 2 ^ w := Nat.pow_le_pow_right (by decide) hk
      rw [BitVec.toNat_sub, BitVec.toNat_shiftLeft, h1, Nat.shiftLeft_eq, Nat.one_mul]
      rcases hk.lt_or_eq with hlt | rfl
      · have hlt' : 2 ^ k < 2 ^ w := Nat.pow_lt_pow_right (by decide) hlt
        rw [Nat.mod_eq_of_lt hlt']
        have he : 2 ^ w - 1 + 2 ^ k = (2 ^ k - 1) + 2 ^ w := by omega
        rw [he, Nat.add_mod_right, Nat.mod_eq_of_lt (by omega)]
      · rw [Nat.mod_self, Nat.add_zero, Nat.mod_eq_of_lt (by omega)]
  rw [← BitVec.testBit_toNat, hval, Nat.testBit_two_pow_sub_one]

/-- A single bit shifted into position `k`. -/
theorem getLsbD_ofBool_shiftLeft (b : Bool) {k : ℕ} (hk : k < w) (i : ℕ) :
    ((BitVec.ofBool b).setWidth w <<< k).getLsbD i = (decide (i = k) && b) := by
  rw [BitVec.getLsbD_shiftLeft, BitVec.getLsbD_setWidth]
  by_cases hi : i = k
  · subst hi
    simp [hk, show 0 < w by omega]
  · by_cases hlt : i < k
    · simp [hi, hlt]
    · have h0 : i - k ≠ 0 := by omega
      simp [hi, h0]

theorem two_shiftLeft (k : ℕ) : 2#w <<< k = 1#w <<< (k + 1) := by
  have h : 2#w = 1#w <<< 1 := by
    apply BitVec.eq_of_toNat_eq
    simp [BitVec.toNat_shiftLeft, Nat.shiftLeft_eq, BitVec.toNat_ofNat]
  rw [h, ← BitVec.shiftLeft_add, Nat.add_comm]

/-- A word is zero exactly when no bit is set. -/
theorem eq_zero_iff_getLsbD {v : BitVec w} : v = 0#w ↔ ∀ i < w, v.getLsbD i = false := by
  constructor
  · rintro rfl i _
    simp
  · intro h
    apply BitVec.eq_of_getLsbD_eq
    intro i hi
    simp [h i hi]

/-- The bits `b` from position `p` on begin with the list. -/
def Reads (b : ℕ → Bool) : ℕ → List Bool → Prop
  | _, [] => True
  | p, a :: l => b p = a ∧ Reads b (p + 1) l

theorem reads_iff {b : ℕ → Bool} {p : ℕ} {l : List Bool} :
    Reads b p l ↔ ∀ i < l.length, b (p + i) = l.getD i false := by
  induction l generalizing p with
  | nil => simp [Reads]
  | cons a l ih =>
    rw [Reads, ih]
    constructor
    · rintro ⟨h0, h⟩ i hi
      cases i with
      | zero => exact h0
      | succ i =>
        rw [← Nat.succ_add_eq_add_succ, List.getD_cons_succ]
        exact h i (by simpa using hi)
    · intro h
      refine ⟨h 0 (by simp), fun i hi => ?_⟩
      have := h (i + 1) (by simpa using hi)
      rwa [List.getD_cons_succ, ← Nat.succ_add_eq_add_succ] at this

theorem reads_append {b : ℕ → Bool} {p : ℕ} {l l' : List Bool} :
    Reads b p (l ++ l') ↔ Reads b p l ∧ Reads b (p + l.length) l' := by
  induction l generalizing p with
  | nil => simp [Reads]
  | cons a l ih =>
    rw [List.cons_append, Reads, Reads, ih, and_assoc, List.length_cons, Nat.add_right_comm p 1,
      Nat.add_assoc]

end BitLists

import Mathlib.Algebra.BigOperators.Group.Finset.Basic
import Mathlib.Data.Nat.Digits.Defs
import Mathlib.Data.BitVec
import Mathlib.Tactic.Ring

/-!
# Sums of packed fields

A word packs numbers in fields of equal width: it is the value of their list in base `2 ^ n`,
lowest field first. Masking the odd fields, shifting them down by one field and adding them to
the even ones adds all neighbours at once, in fields of twice the width.
-/

namespace PackedFields

/-- The bitwise conjunction of two words acts on their low and high parts. -/
theorem land_parts {s a b c d : ℕ} (ha : a < 2 ^ s) (hc : c < 2 ^ s) :
    (a + 2 ^ s * b) &&& (c + 2 ^ s * d) = (a &&& c) + 2 ^ s * (b &&& d) := by
  have hpos := Nat.two_pow_pos s
  have hlow : ((a + 2 ^ s * b) &&& (c + 2 ^ s * d)) % 2 ^ s = a &&& c := by
    rw [Nat.and_mod_two_pow, Nat.add_mul_mod_self_left, Nat.add_mul_mod_self_left,
      Nat.mod_eq_of_lt ha, Nat.mod_eq_of_lt hc]
  have hhigh : ((a + 2 ^ s * b) &&& (c + 2 ^ s * d)) / 2 ^ s = b &&& d := by
    rw [Nat.and_div_two_pow, Nat.add_mul_div_left _ _ hpos, Nat.add_mul_div_left _ _ hpos,
      Nat.div_eq_of_lt ha, Nat.div_eq_of_lt hc, Nat.zero_add, Nat.zero_add]
  have h := Nat.mod_add_div ((a + 2 ^ s * b) &&& (c + 2 ^ s * d)) (2 ^ s)
  rw [hlow, hhigh] at h
  exact h.symm

theorem land_field {n a b : ℕ} (ha : a < 2 ^ n) (hb : b < 2 ^ n) :
    (a + 2 ^ n * b) &&& 2 ^ n * (2 ^ n - 1) = 2 ^ n * b := by
  have h := land_parts (b := b) (d := 2 ^ n - 1) ha (Nat.two_pow_pos n)
  rw [Nat.and_zero, Nat.zero_add, Nat.zero_add, Nat.and_two_pow_sub_one_eq_mod,
    Nat.mod_eq_of_lt hb] at h
  exact h

/-- A word of pairs of `n`-bit fields. -/
def pairs (n : ℕ) (l : List (ℕ × ℕ)) : ℕ :=
  Nat.ofDigits (2 ^ (2 * n)) (l.map fun p => p.1 + 2 ^ n * p.2)

/-- The mask of the second field of each of `k` pairs. -/
def oddMask (n k : ℕ) : ℕ := Nat.ofDigits (2 ^ (2 * n)) (List.replicate k (2 ^ n * (2 ^ n - 1)))

theorem pair_lt {n a b : ℕ} (ha : a < 2 ^ n) (hb : b < 2 ^ n) : a + 2 ^ n * b < 2 ^ (2 * n) := by
  have hmul : 2 ^ n * (b + 1) ≤ 2 ^ n * 2 ^ n := Nat.mul_le_mul_left _ hb
  rw [Nat.two_mul, pow_add]
  rw [Nat.mul_add, Nat.mul_one] at hmul
  omega

theorem land_oddMask {n : ℕ} (l : List (ℕ × ℕ)) (h : ∀ p ∈ l, p.1 < 2 ^ n ∧ p.2 < 2 ^ n) :
    pairs n l &&& oddMask n l.length =
      2 ^ n * Nat.ofDigits (2 ^ (2 * n)) (l.map Prod.snd) := by
  induction l with
  | nil => simp [pairs, oddMask]
  | cons p l ih =>
    obtain ⟨ha, hb⟩ := h p (by simp)
    have hrest := ih fun q hq => h q (by simp [hq])
    have hmask : 2 ^ n * (2 ^ n - 1) < 2 ^ (2 * n) := by
      have := pair_lt (Nat.two_pow_pos n) (Nat.sub_lt (Nat.two_pow_pos n) Nat.one_pos)
      omega
    simp only [pairs, oddMask, List.map_cons, List.length_cons, List.replicate_succ,
      Nat.ofDigits_cons] at hrest ⊢
    rw [land_parts (pair_lt ha hb) hmask, land_field ha hb, hrest]
    ring

theorem pairs_eq (n : ℕ) (l : List (ℕ × ℕ)) :
    pairs n l = Nat.ofDigits (2 ^ (2 * n)) (l.map Prod.fst) +
      2 ^ n * Nat.ofDigits (2 ^ (2 * n)) (l.map Prod.snd) := by
  induction l with
  | nil => simp [pairs]
  | cons p l ih =>
    simp only [pairs, List.map_cons, Nat.ofDigits_cons] at ih ⊢
    rw [ih]
    ring

theorem ofDigits_add_pairs (b : ℕ) (l : List (ℕ × ℕ)) :
    Nat.ofDigits b (l.map Prod.fst) + Nat.ofDigits b (l.map Prod.snd) =
      Nat.ofDigits b (l.map fun p => p.1 + p.2) := by
  induction l with
  | nil => rfl
  | cons p l ih =>
    simp only [List.map_cons, Nat.ofDigits_cons]
    rw [← ih]
    ring

/-- `y = x & m; x -= y; x += y >> n` -/
def foldFields {w : ℕ} (x m : BitVec w) (n : ℕ) : BitVec w :=
  let y := x &&& m
  (x - y) + (y >>> n)

/-- All pairs are added at once. -/
theorem toNat_foldFields {w n : ℕ} {x m : BitVec w} (l : List (ℕ × ℕ))
    (hx : x.toNat = pairs n l) (hm : m.toNat = oddMask n l.length)
    (h : ∀ p ∈ l, p.1 < 2 ^ n ∧ p.2 < 2 ^ n) :
    (foldFields x m n).toNat = Nat.ofDigits (2 ^ (2 * n)) (l.map fun p => p.1 + p.2) := by
  have hy : (x &&& m).toNat = 2 ^ n * Nat.ofDigits (2 ^ (2 * n)) (l.map Prod.snd) := by
    rw [BitVec.toNat_and, hx, hm, land_oddMask l h]
  have hle : x &&& m ≤ x := by
    rw [BitVec.le_def, BitVec.toNat_and]
    exact Nat.and_le_left
  have hsplit := pairs_eq n l
  have hshift : (x &&& m).toNat / 2 ^ n = Nat.ofDigits (2 ^ (2 * n)) (l.map Prod.snd) := by
    rw [hy, Nat.mul_div_cancel_left _ (Nat.two_pow_pos n)]
  have hdiv : (x &&& m).toNat / 2 ^ n ≤ (x &&& m).toNat := Nat.div_le_self _ _
  have hsub := BitVec.toNat_sub_of_le hle
  have hlt := x.isLt
  rw [foldFields, BitVec.toNat_add, BitVec.toNat_ushiftRight, Nat.shiftRight_eq_div_pow, hsub,
    Nat.mod_eq_of_lt (by omega), hshift, ← ofDigits_add_pairs]
  omega

/-! ## Words built from the top field down -/

/-- The fields of a word, lowest first: `f (n - 1), …, f 0` below the field `top`. -/
def stack (f : ℕ → ℕ) (top : ℕ) : ℕ → List ℕ
  | 0 => [top]
  | n + 1 => f n :: stack f top n

theorem stack_zero (f : ℕ → ℕ) (top : ℕ) : stack f top 0 = [top] := rfl

theorem stack_succ (f : ℕ → ℕ) (top n : ℕ) : stack f top (n + 1) = f n :: stack f top n := rfl

@[simp] theorem length_stack (f : ℕ → ℕ) (top n : ℕ) : (stack f top n).length = n + 1 := by
  induction n with
  | zero => rfl
  | succ n ih => rw [stack_succ, List.length_cons, ih]

theorem sum_stack (f : ℕ → ℕ) (top n : ℕ) :
    (stack f top n).sum = top + ∑ j ∈ Finset.range n, f j := by
  induction n with
  | zero => simp [stack_zero]
  | succ n ih =>
    rw [stack_succ, List.sum_cons, ih, Finset.sum_range_succ]
    omega

theorem lt_of_mem_stack {f : ℕ → ℕ} {top b n : ℕ} (htop : top < b) (hf : ∀ j < n, f j < b) :
    ∀ d ∈ stack f top n, d < b := by
  induction n with
  | zero =>
    intro d hd
    rw [stack_zero, List.mem_singleton] at hd
    omega
  | succ n ih =>
    intro d hd
    rw [stack_succ, List.mem_cons] at hd
    rcases hd with rfl | hd
    · exact hf n (by omega)
    · exact ih (fun j hj => hf j (by omega)) d hd

theorem ofDigits_stack_eq (b : ℕ) (f : ℕ → ℕ) (top n : ℕ) :
    Nat.ofDigits b (stack f top n) = Nat.ofDigits b (stack f 0 n) + b ^ n * top := by
  induction n with
  | zero => simp [stack_zero]
  | succ n ih =>
    rw [stack_succ, stack_succ, Nat.ofDigits_cons, Nat.ofDigits_cons, ih]
    ring

theorem ofDigits_stack_zero_lt {b : ℕ} {f : ℕ → ℕ} {n : ℕ} (hf : ∀ j < n, f j < b) :
    Nat.ofDigits b (stack f 0 n) < b ^ n := by
  induction n with
  | zero => simp [stack_zero]
  | succ n ih =>
    have hlt := ih fun j hj => hf j (by omega)
    have hlast := hf n (by omega)
    have hmul : b * (Nat.ofDigits b (stack f 0 n) + 1) ≤ b * b ^ n := Nat.mul_le_mul_left b hlt
    rw [stack_succ, Nat.ofDigits_cons, pow_succ']
    rw [Nat.mul_add, Nat.mul_one] at hmul
    omega

/-- Shifting a word down by `i` fields drops the last `i` of them. -/
theorem ofDigits_stack_div {b : ℕ} {f : ℕ → ℕ} (top : ℕ) {n i : ℕ} (hf : ∀ j < n + i, f j < b) :
    Nat.ofDigits b (stack f top (n + i)) / b ^ i = Nat.ofDigits b (stack f top n) := by
  induction i with
  | zero => simp
  | succ i ih =>
    have hlast := hf (n + i) (by omega)
    have hpos : 0 < b := by omega
    rw [← Nat.add_assoc, stack_succ, Nat.ofDigits_cons, pow_succ', ← Nat.div_div_eq_div_mul,
      Nat.add_mul_div_left _ _ hpos, Nat.div_eq_of_lt hlast, Nat.zero_add]
    exact ih fun j hj => hf j (by omega)

end PackedFields

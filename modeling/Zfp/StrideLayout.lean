import Mathlib.Algebra.Order.Ring.Int
import Mathlib.Tactic.Ring

/-!
# Sequences laid out in strided memory

A sequence of words is cut into blocks of equal size, and a constant offset, a multiple of the
block size, separates the blocks in memory. The offset may be negative; then blocks can meet.
-/

namespace StrideLayout

/-- A block size and the number of words between the end of a block and the next one. -/
structure Stride where
  block : ℕ
  pos : 0 < block
  offset : ℤ
  dvd : (block : ℤ) ∣ offset

namespace Stride

variable (g : Stride)

/-- Where word `q` of the sequence is stored. -/
def place (q : ℕ) : ℤ := q + (q / g.block : ℕ) * g.offset

@[simp] theorem place_zero : g.place 0 = 0 := by simp [place]

theorem place_of_lt {q : ℕ} (h : q < g.block) : g.place q = q := by
  simp [place, Nat.div_eq_of_lt h]

/-- The next word is adjacent, except behind the last word of a block. -/
theorem place_succ (q : ℕ) :
    g.place (q + 1) = g.place q + 1 + if g.block ∣ q + 1 then g.offset else 0 := by
  simp only [place, Nat.succ_div]
  split
  · push_cast
    ring
  · push_cast
    ring

theorem dvd_place_sub (q : ℕ) : (g.block : ℤ) ∣ g.place q - q := by
  rw [place, add_sub_cancel_left]
  exact Int.dvd_mul_of_dvd_right g.dvd

/-- Moving by a number of words in memory stays on the sequence within a block only. -/
theorem place_add_sub (p q : ℕ) :
    g.place q + (p - q) = g.place p ↔ g.offset = 0 ∨ p / g.block = q / g.block := by
  have hdiff : g.place p - (g.place q + (p - q)) =
      (((p / g.block : ℕ) : ℤ) - (q / g.block : ℕ)) * g.offset := by
    simp only [place]
    ring
  constructor
  · intro h
    rw [h, Int.sub_self] at hdiff
    rcases Int.mul_eq_zero.mp hdiff.symm with h | h
    · right
      omega
    · exact .inl h
  · rintro (h | h)
    · rw [h, Int.mul_zero] at hdiff
      omega
    · rw [h, Int.sub_self, Int.zero_mul] at hdiff
      omega

theorem place_lt (h : 0 ≤ g.offset) {p q : ℕ} (hpq : p < q) : g.place p < g.place q := by
  have hstep : ∀ r, g.place r < g.place (r + 1) := by
    intro r
    rw [place_succ]
    split
    · omega
    · omega
  induction hpq with
  | refl => exact hstep p
  | step _ ih => exact Int.lt_trans ih (hstep _)

/-- The first `n` words do not overlap: no offset points backwards, or one block holds them. -/
def Apart (n : ℕ) : Prop := 0 ≤ g.offset ∨ n ≤ g.block

theorem Apart.ne {n i j : ℕ} {g : Stride} (h : g.Apart n) (hi : i < n) (hj : j < n)
    (hij : i ≠ j) : g.place i ≠ g.place j := by
  rcases h with h | h
  · rcases Nat.lt_or_gt_of_ne hij with hlt | hgt
    · exact Int.ne_of_lt (g.place_lt h hlt)
    · exact Int.ne_of_gt (g.place_lt h hgt)
  · rw [g.place_of_lt (by omega), g.place_of_lt (by omega)]
    omega

variable {α : Type*}

/-- Memory after the first `n` words of `w` were stored in turn. -/
def spread (mem : ℤ → α) (w : ℕ → α) : ℕ → ℤ → α
  | 0 => mem
  | n + 1 => Function.update (spread mem w n) (g.place n) (w n)

theorem spread_succ (mem : ℤ → α) (w : ℕ → α) (n : ℕ) :
    g.spread mem w (n + 1) = Function.update (g.spread mem w n) (g.place n) (w n) := rfl

theorem spread_congr (mem : ℤ → α) {w w' : ℕ → α} {n : ℕ} (h : ∀ q < n, w q = w' q) :
    g.spread mem w n = g.spread mem w' n := by
  induction n with
  | zero => rfl
  | succ n ih => rw [spread_succ, spread_succ, ih fun q hq => h q (by omega), h n (by omega)]

/-- Storing one more word. -/
theorem spread_update (mem : ℤ → α) (w : ℕ → α) (n : ℕ) (v : α) :
    g.spread mem (Function.update w n v) (n + 1) =
      Function.update (g.spread mem w n) (g.place n) v := by
  rw [spread_succ, Function.update_self]
  congr 1
  apply g.spread_congr
  intro q hq
  exact Function.update_of_ne (by omega) _ _

/-- Words that do not overlap are found where they were stored. -/
theorem Apart.spread_place {g : Stride} {n : ℕ} (h : g.Apart n) (mem : ℤ → α) (w : ℕ → α) {q : ℕ}
    (hq : q < n) : g.spread mem w n (g.place q) = w q := by
  suffices ∀ m, q < m → m ≤ n → g.spread mem w m (g.place q) = w q from this n hq (Nat.le_refl n)
  intro m
  induction m with
  | zero => intro h0; omega
  | succ m ih =>
    intro hlt hle
    rw [spread_succ]
    rcases Nat.lt_or_eq_of_le (Nat.le_of_lt_succ hlt) with hqm | rfl
    · rw [Function.update_of_ne (h.ne (by omega) (by omega) (by omega)), ih hqm (by omega)]
    · rw [Function.update_self]

end Stride

end StrideLayout

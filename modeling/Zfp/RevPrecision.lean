import Zfp.BitstreamShifts
import Zfp.BlockCodec
import Zfp.SignificantBits

/-!
# The precision of the reversible coder

`rev_precision` searches for the lowest one-bit among all words of a block. A pass of the search
is restated in the semantics where a shift by the width of its operand ends it with `none`; the
step `s` is unsigned, so this happens also for `s = 0`.
-/

namespace Zfp
open BitLists SignificantBits

variable {w : ℕ}

/-- bitwise OR of all values -/
def orWords (block : ℕ → BitVec w) (n : ℕ) : BitVec w :=
  (List.range n).foldl (fun m i => m ||| block i) 0

/-- The variables of the binary search. -/
structure PrecisionSearch (w : ℕ) where
  m : BitVec w
  s : ℕ
  p : ℕ

def precisionStep (c : PrecisionSearch w) : Option (PrecisionSearch w) := do
  let v ← checkedShl c.m (uintSub c.s 1)
  if v ≠ 0 then
    let m ← checkedShl c.m (uintSub c.s 1)
    let m ← checkedShl m 1
    return ⟨m, c.s / 2, c.p + c.s⟩
  else return ⟨c.m, c.s / 2, c.p⟩

/-- A run of the loop until no bit is left, with the steps of its passes and its result. -/
inductive PrecisionRun : PrecisionSearch w → List ℕ → ℕ → Prop
  | done (s p : ℕ) : PrecisionRun ⟨0, s, p⟩ [] p
  | pass {c c' : PrecisionSearch w} {steps : List ℕ} {q : ℕ} (hm : c.m ≠ 0)
      (hstep : precisionStep c = some c') (hrest : PrecisionRun c' steps q) :
      PrecisionRun c (c.s :: steps) q

/-! ## One pass -/

section

variable (hw : w < 2 ^ 32) (hone : 1 < w)

include hw hone

/-- A pass with a step from 1 up to the width does what the plain loop does. -/
theorem precisionStep_eq {c : PrecisionSearch w} (hs : c.s < 2 ^ 32) : precisionStep c =
    if 0 < c.s ∧ c.s ≤ w then
      some (if c.m <<< (c.s - 1) ≠ 0 then ⟨c.m <<< (c.s - 1) <<< 1, c.s / 2, c.p + c.s⟩
        else ⟨c.m, c.s / 2, c.p⟩)
    else none := by
  by_cases hpos : 0 < c.s ∧ c.s ≤ w
  · have hsub : uintSub c.s 1 = c.s - 1 := by
      rw [uintSub]
      omega
    rw [if_pos hpos, precisionStep, hsub, checkedShl_eq c.m (by omega)]
    simp only [Option.bind_eq_bind, Option.bind_some, checkedShl_eq _ hone]
    split
    · rfl
    · rfl
  · have hwrap : ¬ uintSub c.s 1 < w := by
      rw [uintSub]
      omega
    rw [if_neg hpos, precisionStep, checkedShl, if_neg hwrap]
    rfl

theorem PrecisionRun.loop_eq {c : PrecisionSearch w} {steps : List ℕ} {q : ℕ}
    (h : PrecisionRun c steps q) (hs : c.s < 2 ^ 32) : revPrecisionLoop c.m c.s c.p = q := by
  induction h with
  | done s p => rw [revPrecisionLoop, if_neg fun h0 => h0.1 rfl]
  | @pass c c' steps q hm hstep hrest ih =>
    rw [precisionStep_eq hw hone hs, Option.ite_none_right_eq_some] at hstep
    obtain ⟨⟨hpos, -⟩, heq⟩ := hstep
    have hhalf : c.s / 2 < 2 ^ 32 := by omega
    rw [revPrecisionLoop, if_pos ⟨hm, hpos.ne'⟩]
    by_cases hv : c.m <<< (c.s - 1) ≠ 0
    · rw [if_pos hv, Option.some.injEq] at heq
      subst heq
      rw [if_pos hv]
      exact ih hhalf
    · rw [if_neg hv, Option.some.injEq] at heq
      subst heq
      rw [if_neg hv]
      exact ih hhalf

/-- A pass on a word with `t` significant bits finds out whether `s` of them are left. -/
theorem precisionStep_significant {m : BitVec w} {s t : ℕ} (h : Significant m t) (hs : 0 < s)
    (hsw : s ≤ w) (p : ℕ) : precisionStep ⟨m, s, p⟩ =
      some (if s ≤ t then ⟨m <<< s, s / 2, p + s⟩ else ⟨m, s / 2, p⟩) := by
  have hshift : m <<< (s - 1) <<< 1 = m <<< s := by
    rw [← BitVec.shiftLeft_add, Nat.sub_add_cancel hs]
  rw [precisionStep_eq hw hone (show s < 2 ^ 32 by omega), if_pos ⟨hs, hsw⟩]
  simp only [h.shift_ne_zero hs, hshift]

/-! ## The loop -/

/-- The significant bits that are left are fewer than two steps, so the step is zero only when no
bit is left. -/
theorem exists_precisionRun (k : ℕ) {m : BitVec w} {t : ℕ} (h : Significant m t) (ht : t < 2 ^ k)
    (hk : 2 ^ k / 2 ≤ w) (p : ℕ) :
    ∃ steps, PrecisionRun ⟨m, 2 ^ k / 2, p⟩ steps (p + t) ∧ ∀ s ∈ steps, 0 < s ∧ s ≤ w := by
  induction k generalizing m t p with
  | zero =>
    obtain rfl : t = 0 := by omega
    rw [h.eq_zero_iff.mpr rfl, Nat.add_zero]
    exact ⟨[], .done _ _, by simp⟩
  | succ k ih =>
    have hpos : 0 < 2 ^ k := Nat.two_pow_pos k
    have hhalf : 2 ^ (k + 1) / 2 = 2 ^ k := by omega
    rw [hhalf] at hk ⊢
    rcases Nat.eq_zero_or_pos t with rfl | htpos
    · rw [h.eq_zero_iff.mpr rfl, Nat.add_zero]
      exact ⟨[], .done _ _, by simp⟩
    · have hm : m ≠ 0 := fun h0 => htpos.ne' (h.eq_zero_iff.mp h0)
      have hstep := precisionStep_significant hw hone h hpos hk p
      by_cases hle : 2 ^ k ≤ t
      · rw [if_pos hle] at hstep
        obtain ⟨steps, hrun, hsteps⟩ := ih (h.shiftLeft hle) (by omega) (by omega) (p + 2 ^ k)
        rw [show p + 2 ^ k + (t - 2 ^ k) = p + t by omega] at hrun
        exact ⟨_, .pass hm hstep hrun, List.forall_mem_cons.mpr ⟨⟨hpos, hk⟩, hsteps⟩⟩
      · rw [if_neg hle] at hstep
        obtain ⟨steps, hrun, hsteps⟩ := ih h (by omega) (by omega) p
        exact ⟨_, .pass hm hstep hrun, List.forall_mem_cons.mpr ⟨⟨hpos, hk⟩, hsteps⟩⟩

end

theorem getLsbD_orWords (block : ℕ → BitVec w) (n k : ℕ) :
    (orWords block n).getLsbD k = false ↔ ∀ i < n, (block i).getLsbD k = false := by
  induction n with
  | zero => simp [orWords]
  | succ n ih =>
    rw [orWords] at ih
    rw [orWords, List.range_succ, List.foldl_append, List.foldl_cons, List.foldl_nil,
      BitVec.getLsbD_or, Bool.or_eq_false_iff, ih]
    constructor
    · rintro ⟨h, hn⟩ i hi
      obtain rfl | hlt : i = n ∨ i < n := by omega
      · exact hn
      · exact h i hlt
    · exact fun h => ⟨fun i hi => h i (by omega), h n (by omega)⟩

section

variable {j : ℕ} (hj : w = 2 ^ j) (hpos : 0 < j) (hlt : j < 32) (block : ℕ → BitVec w) (n : ℕ)

include hj hpos hlt

/-- The search for a width that is a power of two. -/
theorem precisionRun_orWords :
    ∃ steps, PrecisionRun ⟨orWords block n, w, 0⟩ steps (w - (orWords block n).ctz.toNat) ∧
      ∀ s ∈ steps, 0 < s ∧ s ≤ w := by
  have hw : w < 2 ^ 32 := hj ▸ Nat.pow_lt_pow_right (by decide) hlt
  have hone : 1 < w := hj ▸ Nat.one_lt_two_pow hpos.ne'
  have hhalf : 2 ^ (j + 1) / 2 = w := by omega
  have h := significant_ctz (orWords block n)
  have hle := h.le
  have hrun := exists_precisionRun hw hone (j + 1) h (by omega) hhalf.le 0
  rwa [hhalf, Nat.zero_add] at hrun

theorem revPrecision_eq : revPrecision block n = w - (orWords block n).ctz.toNat := by
  have hw : w < 2 ^ 32 := hj ▸ Nat.pow_lt_pow_right (by decide) hlt
  have hone : 1 < w := hj ▸ Nat.one_lt_two_pow hpos.ne'
  obtain ⟨steps, hrun, -⟩ := precisionRun_orWords hj hpos hlt block n
  exact hrun.loop_eq hw hone hw

theorem significant_revPrecision : Significant (orWords block n) (revPrecision block n) := by
  rw [revPrecision_eq hj hpos hlt]
  exact significant_ctz _

end

/-- The planes below the computed precision are zero in every word. -/
theorem revPrecision_spec (S : Scalar) (block : ℕ → BitVec S.width) (n : ℕ) :
    revPrecision block n ≤ S.width ∧
      ∀ i < n, ∀ k < S.width - revPrecision block n, (block i).getLsbD k = false := by
  obtain ⟨j, hj, hpos, hlt⟩ : ∃ j, S.width = 2 ^ j ∧ 0 < j ∧ j < 32 := by
    cases S
    · exact ⟨5, rfl, by decide, by decide⟩
    · exact ⟨6, rfl, by decide, by decide⟩
    · exact ⟨5, rfl, by decide, by decide⟩
    · exact ⟨6, rfl, by decide, by decide⟩
  have h := significant_revPrecision hj hpos hlt block n
  exact ⟨h.le, fun i hi k hk => (getLsbD_orWords block n k).mp (h.low k hk) i hi⟩

/-- The search ends with every step positive and every shift by less than the width. It counts
the bits above the trailing zeros of all words: that many upper planes hold the block, and one
plane less does not. -/
theorem revPrecision_exact (hw : w = 32 ∨ w = 64) (block : ℕ → BitVec w) (n : ℕ) :
    (∃ steps, PrecisionRun ⟨orWords block n, w, 0⟩ steps (revPrecision block n) ∧
      ∀ s ∈ steps, 0 < s ∧ s ≤ w) ∧
    revPrecision block n = w - (orWords block n).ctz.toNat ∧
    (revPrecision block n = 0 ↔ ∀ i < n, block i = 0) ∧
    (∀ i < n, topBits (revPrecision block n) (block i) = block i) ∧
    (0 < revPrecision block n →
      ∃ i < n, topBits (revPrecision block n - 1) (block i) ≠ block i) := by
  obtain ⟨j, hj, hpos, hlt⟩ : ∃ j, w = 2 ^ j ∧ 0 < j ∧ j < 32 := by
    rcases hw with rfl | rfl
    · exact ⟨5, rfl, by decide, by decide⟩
    · exact ⟨6, rfl, by decide, by decide⟩
  have h := significant_revPrecision hj hpos hlt block n
  have heq := revPrecision_eq hj hpos hlt block n
  have hrun := precisionRun_orWords hj hpos hlt block n
  rw [← heq] at hrun
  have hle := h.le
  have hkeep : ∀ i < n, topBits (revPrecision block n) (block i) = block i := by
    intro i hi
    exact topBits_eq_iff.mpr fun k hk => (getLsbD_orWords block n k).mp (h.low k hk) i hi
  have hlose : 0 < revPrecision block n →
      ∃ i < n, topBits (revPrecision block n - 1) (block i) ≠ block i := by
    intro hprec
    by_contra hall
    push Not at hall
    have hbit : (orWords block n).getLsbD (w - revPrecision block n) = false :=
      (getLsbD_orWords block n _).mpr fun i hi => topBits_eq_iff.mp (hall i hi) _ (by omega)
    rw [h.top hprec] at hbit
    exact Bool.false_ne_true hbit.symm
  have hzero : revPrecision block n = 0 ↔ ∀ i < n, block i = 0 := by
    rw [← h.eq_zero_iff]
    constructor
    · intro h0 i hi
      refine eq_zero_iff_getLsbD.mpr fun k _ => (getLsbD_orWords block n k).mp ?_ i hi
      rw [h0, BitVec.getLsbD_zero]
    · intro hall
      refine eq_zero_iff_getLsbD.mpr fun k _ => (getLsbD_orWords block n k).mpr fun i hi => ?_
      rw [hall i hi]
      exact BitVec.getLsbD_zero
  exact ⟨hrun, heq, hzero, hkeep, hlose⟩

/-- The words 12 and 40 leave two trailing zeros. -/
theorem revPrecision_exact_words :
    revPrecision (fun i => if i = 0 then 12#32 else 40#32) 2 = 30 := by
  rw [(revPrecision_exact (.inl rfl) (fun i => if i = 0 then 12#32 else 40#32) 2).2.1]
  decide +kernel

end Zfp

import Zfp.BitstreamReader

/-!
# Readers of a word at a time

The device readers keep the rest of the current word in a buffer and load the next word as soon as
the buffer is used up, so that the state is determined by the offset.
-/

namespace Zfp
open BitLists Bitstream

/-- A reader of 64-bit words: the index of the current word, the bits of it that are not yet
consumed, and the number of those that are. -/
@[ext] structure WordReader where
  words : ℕ
  buffer : BitVec 64
  currentBit : ℕ

namespace WordReader

variable {mem : ℕ → BitVec 64} {p : ℕ}

def bitOf (mem : ℕ → BitVec 64) (i : ℕ) : Bool := (mem (i / 64)).getLsbD (i % 64)

/-- The reader at bit offset `p`. -/
def atOffset (mem : ℕ → BitVec 64) (p : ℕ) : WordReader := ⟨p / 64, mem (p / 64) >>> (p % 64), p % 64⟩

@[simp] theorem atOffset_currentBit (mem : ℕ → BitVec 64) (p : ℕ) :
    (atOffset mem p).currentBit = p % 64 := rfl

/-- The next bit is the lowest one of the buffer. -/
theorem getLsbD_buffer_zero (mem : ℕ → BitVec 64) (p : ℕ) :
    (atOffset mem p).buffer.getLsbD 0 = bitOf mem p := by
  rw [atOffset, BitVec.getLsbD_ushiftRight, Nat.add_zero]
  rfl

/-- The buffer holds the bits up to the end of the word. -/
theorem getLsbD_buffer (mem : ℕ → BitVec 64) (p i : ℕ) :
    (atOffset mem p).buffer.getLsbD i = (decide (i < 64 - p % 64) && bitOf mem (p + i)) := by
  rw [atOffset, BitVec.getLsbD_ushiftRight, bitOf]
  by_cases h : i < 64 - p % 64
  · have hdiv : (p + i) / 64 = p / 64 := by omega
    have hmod : (p + i) % 64 = p % 64 + i := by omega
    rw [decide_eq_true h, Bool.true_and, hdiv, hmod]
  · rw [decide_eq_false h, Bool.false_and]
    exact BitVec.getLsbD_of_ge _ _ (by omega)

/-- The bits from `p` on that a read of `n` returns. -/
def bitsOf (mem : ℕ → BitVec 64) (p n : ℕ) : BitVec 64 :=
  wordOf 64 fun i => decide (i < n) && bitOf mem (p + i)

theorem getLsbD_bitsOf (mem : ℕ → BitVec 64) (p : ℕ) {n : ℕ} (hn : n ≤ 64) (i : ℕ) :
    (bitsOf mem p n).getLsbD i = (decide (i < n) && bitOf mem (p + i)) := by
  rw [bitsOf, getLsbD_wordOf]
  by_cases h : i < n
  · rw [decide_eq_true (by omega : i < 64), Bool.true_and]
  · rw [decide_eq_false h, Bool.false_and, Bool.and_false]

/-- Shifting the buffer moves the reader within a word. -/
theorem at_add {n : ℕ} (h : p % 64 + n < 64) :
    atOffset mem (p + n) =
      ⟨(atOffset mem p).words, (atOffset mem p).buffer >>> n, (atOffset mem p).currentBit + n⟩ := by
  have hdiv : (p + n) / 64 = p / 64 := by omega
  have hmod : (p + n) % 64 = p % 64 + n := by omega
  rw [atOffset, hdiv, hmod, atOffset, BitVec.shiftRight_add]

/-- At the end of a word the reader loads the next one and shifts it. -/
theorem at_next {n : ℕ} (h : 64 ≤ p % 64 + n) (h' : p % 64 + n < 128) :
    atOffset mem (p + n) = ⟨(atOffset mem p).words + 1,
      mem ((atOffset mem p).words + 1) >>> (p % 64 + n - 64),
      p % 64 + n - 64⟩ := by
  have hdiv : (p + n) / 64 = p / 64 + 1 := by omega
  have hmod : (p + n) % 64 = p % 64 + n - 64 := by omega
  rw [atOffset, hdiv, hmod, atOffset]

/-- The mask of the bits of a buffer. -/
theorem getLsbD_and_mask (v : BitVec 64) {n : ℕ} (hn : n ≤ 64) (i : ℕ) :
    (v &&& (1#64 <<< n - 1#64)).getLsbD i = (decide (i < n) && v.getLsbD i) := by
  rw [BitVec.getLsbD_and, getLsbD_mask hn, Bool.and_comm]

theorem bitsOf_zero (mem : ℕ → BitVec 64) (p : ℕ) : bitsOf mem p 0 = 0 := by
  refine eq_zero_iff_getLsbD.mpr fun i _ => ?_
  rw [getLsbD_bitsOf mem p (Nat.zero_le 64), decide_eq_false (Nat.not_lt_zero i), Bool.false_and]

/-- Bits within a word come from the buffer. -/
theorem buffer_and_mask {n : ℕ} (h : p % 64 + n ≤ 64) :
    (atOffset mem p).buffer &&& (1#64 <<< n - 1#64) = bitsOf mem p n := by
  apply BitVec.eq_of_getLsbD_eq
  intro i _
  rw [getLsbD_and_mask _ (by omega), getLsbD_buffer, getLsbD_bitsOf mem p (by omega)]
  by_cases hi : i < n
  · rw [decide_eq_true (by omega : i < 64 - p % 64), Bool.true_and]
  · rw [decide_eq_false hi, Bool.false_and, Bool.false_and]

/-- The bits of a read at their place in a longer one. -/
theorem getLsbD_bitsOf_shiftLeft {a b : ℕ} (h : a + b ≤ 64) (j : ℕ) :
    (bitsOf mem (p + a) b <<< a).getLsbD j =
      (decide (a ≤ j) && decide (j < a + b) && bitOf mem (p + j)) := by
  rw [BitVec.getLsbD_shiftLeft, getLsbD_bitsOf mem (p + a) (by omega)]
  by_cases hj : j < a
  · rw [decide_eq_true hj, decide_eq_false (by omega : ¬ a ≤ j), Bool.not_true, Bool.and_false,
      Bool.false_and, Bool.false_and, Bool.false_and]
  · have hpos : p + a + (j - a) = p + j := by omega
    rw [decide_eq_false hj, decide_eq_true (by omega : a ≤ j), Bool.not_false, Bool.and_true,
      Bool.true_and, hpos]
    by_cases hjb : j < a + b
    · rw [decide_eq_true hjb, decide_eq_true (by omega : j < 64),
        decide_eq_true (by omega : j - a < b), Bool.true_and]
    · rw [decide_eq_false hjb, decide_eq_false (by omega : ¬ j - a < b), Bool.false_and,
        Bool.and_false]

/-- Bits that follow one another. -/
theorem bitsOf_or {a b : ℕ} (h : a + b ≤ 64) :
    bitsOf mem p (a + b) = bitsOf mem p a ||| bitsOf mem (p + a) b <<< a := by
  apply BitVec.eq_of_getLsbD_eq
  intro i hi
  rw [BitVec.getLsbD_or, getLsbD_bitsOf mem p (show a ≤ 64 by omega), getLsbD_bitsOf_shiftLeft h,
    getLsbD_bitsOf mem _ h]
  by_cases hia : i < a
  · rw [decide_eq_true hia, decide_eq_true (by omega : i < a + b),
      decide_eq_false (by omega : ¬ a ≤ i), Bool.false_and, Bool.false_and, Bool.or_false]
  · rw [decide_eq_false hia, decide_eq_true (by omega : a ≤ i), Bool.false_and, Bool.false_or,
      Bool.true_and]

theorem bitsOf_add {a b : ℕ} (h : a + b ≤ 64) :
    bitsOf mem p (a + b) = bitsOf mem p a + bitsOf mem (p + a) b <<< a := by
  rw [bitsOf_or h, BitVec.add_eq_or_of_and_eq_zero]
  refine eq_zero_iff_getLsbD.mpr fun i _ => ?_
  rw [BitVec.getLsbD_and, getLsbD_bitsOf mem p (by omega), getLsbD_bitsOf_shiftLeft h]
  by_cases hia : i < a
  · rw [decide_eq_false (by omega : ¬ a ≤ i), Bool.false_and, Bool.false_and, Bool.and_false]
  · rw [decide_eq_false hia, Bool.false_and, Bool.false_and]

/-! ## Serial streams -/

def serialAt (mem : ℕ → BitVec 64) (p : ℕ) : Bitstream .uint64 := streamRseek (streamOpen mem) p

theorem streamReadBit_serialAt (mem : ℕ → BitVec 64) (p : ℕ) :
    streamReadBit (serialAt mem p) = (bitOf mem p, serialAt mem (p + 1)) :=
  streamReadBit_rseek (streamOpen (T := .uint64) mem) p

theorem streamReadBits_serialAt (mem : ℕ → BitVec 64) (p : ℕ) {n : ℕ} (hn : n ≤ 64) :
    streamReadBits (serialAt mem p) n = (bitsOf mem p n, serialAt mem (p + n)) :=
  streamReadBits_rseek (streamOpen (T := .uint64) mem) p hn

end WordReader

end Zfp

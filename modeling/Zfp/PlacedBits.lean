import Zfp.BitLists

/-!
# Bits placed in words

A list of bits is placed at an offset in a sequence of words that are zero otherwise. Lists that
follow one another do not share a bit, so the words of their concatenation are the sums of their
words.
-/

namespace BitLists

variable {w : ℕ}

/-- Bit `i` of a sequence of zeros with the bits `l` from offset `o` on. -/
def placedBit (o : ℕ) (l : List Bool) (i : ℕ) : Bool := decide (o ≤ i) && l.getD (i - o) false

theorem placedBit_of_lt {o i : ℕ} (l : List Bool) (h : i < o) : placedBit o l i = false := by
  rw [placedBit, decide_eq_false (by omega), Bool.false_and]

theorem placedBit_of_ge {o i : ℕ} {l : List Bool} (h : o + l.length ≤ i) :
    placedBit o l i = false := by
  rw [placedBit, List.getD_eq_default _ _ (by omega), Bool.and_false]

theorem placedBit_add (o : ℕ) (l : List Bool) (k : ℕ) : placedBit o l (o + k) = l.getD k false := by
  rw [placedBit, decide_eq_true (Nat.le_add_right o k), Bool.true_and, Nat.add_sub_cancel_left]

theorem placedBit_append (o : ℕ) (l l' : List Bool) (i : ℕ) :
    placedBit o (l ++ l') i = (placedBit o l i || placedBit (o + l.length) l' i) := by
  by_cases ho : i < o
  · rw [placedBit_of_lt _ ho, placedBit_of_lt _ ho, placedBit_of_lt _ (by omega), Bool.or_false]
  obtain ⟨k, rfl⟩ := Nat.exists_eq_add_of_le (Nat.le_of_not_lt ho)
  rw [placedBit_add, placedBit_add]
  by_cases hk : k < l.length
  · rw [List.getD_append _ _ _ _ hk, placedBit_of_lt _ (by omega), Bool.or_false]
  · obtain ⟨m, rfl⟩ := Nat.exists_eq_add_of_le (Nat.le_of_not_lt hk)
    rw [List.getD_append_right _ _ _ _ (by omega), List.getD_eq_default l _ (by omega),
      Bool.false_or, ← Nat.add_assoc, placedBit_add, Nat.add_sub_cancel_left]

/-- Bits that follow one another are not both set. -/
theorem placedBit_disjoint {o i : ℕ} {l : List Bool} (l' : List Bool)
    (h : placedBit o l i = true) : placedBit (o + l.length) l' i = false := by
  apply placedBit_of_lt
  by_contra hge
  rw [placedBit_of_ge (by omega)] at h
  cases h

theorem placedBit_replicate_false (o n i : ℕ) :
    placedBit o (List.replicate n false) i = false := by
  rw [placedBit]
  by_cases h : i - o < n
  · rw [List.getD_replicate _ h, Bool.and_false]
  · rw [List.getD_eq_default _ _ (by rw [List.length_replicate]; omega), Bool.and_false]

/-- Word `j` of a sequence of zeros with the bits `l` from offset `o` on. -/
def placed (w o : ℕ) (l : List Bool) (j : ℕ) : BitVec w := wordOf w fun i => placedBit o l (j * w + i)

theorem getLsbD_placed (o : ℕ) (l : List Bool) (j i : ℕ) :
    (placed w o l j).getLsbD i = (decide (i < w) && placedBit o l (j * w + i)) :=
  getLsbD_wordOf _ i

theorem placed_append (o : ℕ) (l l' : List Bool) (j : ℕ) :
    placed w o (l ++ l') j = placed w o l j + placed w (o + l.length) l' j := by
  apply BitVec.eq_of_getLsbD_eq
  intro i hi
  rw [getLsbD_add_of_disjoint, getLsbD_placed, getLsbD_placed, getLsbD_placed, placedBit_append,
    Bool.and_or_distrib_left]
  intro i hi
  rw [getLsbD_placed, Bool.and_eq_true] at hi
  rw [getLsbD_placed, placedBit_disjoint l' hi.2, Bool.and_false]

/-- The words of lists that follow one another, joined bit by bit. -/
theorem placed_append_or (o : ℕ) (l l' : List Bool) (j : ℕ) :
    placed w o (l ++ l') j = placed w o l j ||| placed w (o + l.length) l' j := by
  apply BitVec.eq_of_getLsbD_eq
  intro i hi
  rw [BitVec.getLsbD_or, getLsbD_placed, getLsbD_placed, getLsbD_placed, placedBit_append,
    Bool.and_or_distrib_left]

theorem placed_eq_zero {o j : ℕ} {l : List Bool} (h : ∀ i < w, placedBit o l (j * w + i) = false) :
    placed w o l j = 0 := by
  refine eq_zero_iff_getLsbD.mpr fun i hi => ?_
  rw [getLsbD_placed, h i hi, Bool.and_false]

/-- Bits that place nothing are zeros. -/
theorem forall_placed_eq_zero (hw : 0 < w) {o : ℕ} {l : List Bool} :
    (∀ j, placed w o l j = 0) ↔ ∀ b ∈ l, b = false := by
  constructor
  · intro h b hb
    obtain ⟨k, hk, rfl⟩ := List.getElem_of_mem hb
    have hbit := getLsbD_placed (w := w) o l ((o + k) / w) ((o + k) % w)
    rw [h, decide_eq_true (Nat.mod_lt _ hw), Bool.true_and, Nat.div_add_mod', placedBit_add,
      List.getD_eq_getElem _ _ hk] at hbit
    rw [← hbit]
    exact BitVec.getLsbD_zero
  · intro h j
    refine placed_eq_zero fun i _ => ?_
    rw [placedBit]
    by_cases hk : j * w + i - o < l.length
    · rw [List.getD_eq_getElem _ _ hk, h _ (List.getElem_mem hk), Bool.and_false]
    · rw [List.getD_eq_default _ _ (by omega), Bool.and_false]

@[simp] theorem placed_nil (o j : ℕ) : placed w o [] j = 0 :=
  placed_eq_zero fun i _ => by rw [placedBit, List.getD_nil, Bool.and_false]

@[simp] theorem placed_replicate_false (o n j : ℕ) : placed w o (List.replicate n false) j = 0 :=
  placed_eq_zero fun _ _ => placedBit_replicate_false o n _

/-- Zeros at the end do not change a word. -/
theorem placed_append_replicate_false (o : ℕ) (l : List Bool) (n j : ℕ) :
    placed w o (l ++ List.replicate n false) j = placed w o l j := by
  rw [placed_append, placed_replicate_false, BitVec.ofNat_eq_ofNat, BitVec.add_zero]

/-- The low bits of a word at offset `s` of word `q` lie in that word and in the next one. -/
theorem placed_lowBits {v : BitVec w} {n s : ℕ} (hn : n ≤ w) (hs : s < w)
    (hv : ∀ i, n ≤ i → v.getLsbD i = false) (q j : ℕ) :
    placed w (q * w + s) (lowBits v n) j =
      (if q = j then v <<< s else 0) + (if q + 1 = j then v >>> (w - s) else 0) := by
  have hbit : ∀ i, placedBit (q * w + s) (lowBits v n) i =
      (decide (q * w + s ≤ i) && v.getLsbD (i - (q * w + s))) := by
    intro i
    rw [placedBit]
    by_cases hi : i - (q * w + s) < n
    · rw [List.getD_eq_getElem _ _ (by rwa [length_lowBits]), getElem_lowBits]
    · rw [List.getD_eq_default _ _ (by rw [length_lowBits]; omega), hv _ (by omega)]
  apply BitVec.eq_of_getLsbD_eq
  intro i hi
  rw [getLsbD_placed, hbit, decide_eq_true hi, Bool.true_and]
  by_cases hq : q = j
  · subst hq
    rw [if_pos rfl, if_neg (by omega), BitVec.ofNat_eq_ofNat, BitVec.add_zero,
      BitVec.getLsbD_shiftLeft, decide_eq_true hi, Bool.true_and]
    by_cases hsi : s ≤ i
    · rw [decide_eq_true (by omega), decide_eq_false (by omega), Nat.add_sub_add_left]
      rfl
    · rw [decide_eq_false (by omega), decide_eq_true (by omega)]
      rfl
  rw [if_neg hq, BitVec.ofNat_eq_ofNat, BitVec.zero_add]
  by_cases hq1 : q + 1 = j
  · subst hq1
    rw [if_pos rfl, BitVec.getLsbD_ushiftRight, Nat.add_mul, Nat.one_mul,
      decide_eq_true (by omega), Bool.true_and]
    congr 1
    omega
  · rw [if_neg hq1, BitVec.getLsbD_zero]
    rcases Nat.lt_or_ge j q with h | h
    · have hle := Nat.mul_le_mul_right w (Nat.succ_le_of_lt h)
      rw [Nat.succ_mul] at hle
      rw [decide_eq_false (by omega), Bool.false_and]
    · have hle : (q + 2) * w ≤ j * w := Nat.mul_le_mul_right w (by omega)
      rw [Nat.add_mul] at hle
      rw [hv _ (by omega), Bool.and_false]

end BitLists

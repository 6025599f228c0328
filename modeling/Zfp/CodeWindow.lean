import Zfp.BlockParams
import Zfp.DecodeWindow

/-!
# The bits that the decoder of a block reads

A decoder may be given any words. It reads the bits in the budget of its block only; if the budget
is too small for the side information of the block, it wraps around, and the number of bit planes
limits what is read.
-/

namespace Zfp
open BitLists Bitstream PlaneCode

variable {T : WordType} {S : Scalar} {d : ℕ}

/-! ## Windows -/

section

variable {r r' : Bitstream T} {o o' n : ℕ}

theorem SameWindow.mono (h : SameWindow r r' o o' n) {m : ℕ} (hm : m ≤ n) :
    SameWindow r r' o o' m := fun k hk => h k (by omega)

/-- The two readers return the same and advance by as much, by `n` bits at most. -/
def SameReadWithin {α : Type} (r r' : Bitstream T) (o o' n : ℕ) (x y : ℕ × Bitstream T × α) : Prop :=
  ∃ m ≤ n, ∃ k a, x = (k, streamRseek r (o + m), a) ∧ y = (k, streamRseek r' (o' + m), a)

theorem SameReadWithin.after {α β : Type} {k : ℕ} {x y : ℕ × Bitstream T × α} (hk : k ≤ n)
    (h : SameReadWithin r r' (o + k) (o' + k) (n - k) x y) (bits : ℕ) (f : α → β) :
    SameReadWithin r r' o o' n (bits + x.1, x.2.1, f x.2.2) (bits + y.1, y.2.1, f y.2.2) := by
  obtain ⟨m, hm, i, a, rfl, rfl⟩ := h
  refine ⟨k + m, by omega, bits + i, f a, ?_, ?_⟩
  · rw [Nat.add_assoc]
  · rw [Nat.add_assoc]

theorem readMinbits_max (r : Bitstream T) (o minbits m : ℕ) :
    readMinbits minbits (m, streamRseek r (o + m)) =
      (max m minbits, streamRseek r (o + max m minbits)) := by
  rw [readMinbits]
  dsimp only
  split_ifs with hlt
  · rw [streamSkip_rseek, Nat.max_eq_right hlt.le, Nat.add_assoc, Nat.add_sub_cancel' hlt.le]
  · rw [Nat.max_eq_left (by omega)]

/-- A budget behind the longest code changes nothing. -/
theorem intsDecode_min (b : ℕ → Bool) {w maxprec size : ℕ} (hsize : 0 < size) (o maxbits : ℕ) :
    intsDecode b (some (o + maxbits)) w maxprec size o =
      intsDecode b (some (o + min maxbits ((min maxprec w + 1) * size - 1))) w maxprec size o := by
  rcases Nat.le_total maxbits ((min maxprec w + 1) * size - 1) with hle | hle
  · rw [Nat.min_eq_left hle]
  · rw [Nat.min_eq_right hle, intsDecode_budget b hsize o hle,
      intsDecode_budget b hsize o (Nat.le_refl _)]

theorem decodeInts_within {maxbits maxprec w size : ℕ} (h : SameWindow r r' o o' n)
    (hn : min maxbits ((min maxprec w + 1) * size - 1) ≤ n) (hsize : 0 < size)
    (hsize' : size ≤ 2 ^ 24) (hprec : maxprec ≤ 64) (data : ℕ → BitVec w) :
    ∃ m ≤ n, ∃ g, decodeInts (streamRseek r o) maxbits maxprec data size =
        (g, m, streamRseek r (o + m)) ∧
      decodeInts (streamRseek r' o') maxbits maxprec data size = (g, m, streamRseek r' (o' + m)) := by
  obtain ⟨g, m, hg, hg'⟩ := intsDecode_window (h.mono hn) w maxprec size
  have hle := intsDecode_le_budget (memBit r.mem) w maxprec hsize o
    (min maxbits ((min maxprec w + 1) * size - 1))
  rw [hg] at hle
  refine ⟨m, by dsimp only at hle; omega, storeInts data size g, ?_, ?_⟩
  · rw [decodeInts_rseek r o maxbits data hsize hsize' hprec, intsDecode_min _ hsize, hg, decoded,
      Nat.add_sub_cancel_left]
  · rw [decodeInts_rseek r' o' maxbits data hsize hsize' hprec, intsDecode_min _ hsize, hg', decoded,
      Nat.add_sub_cancel_left]

end

/-! ## Blocks -/

/-- The longest code of the bit planes of a block. -/
def planeBits (S : Scalar) (d : ℕ) : ℕ := (S.width + 1) * 4 ^ d - 1

/-- The most bits that the decoder of a block reads. -/
def codeWindow (S : Scalar) (d : ℕ) (zfp : Params) : ℕ :=
  if sideBits S (REVERSIBLE zfp) ≤ zfp.maxbits then zfp.maxbits
  else sideBits S (REVERSIBLE zfp) + planeBits S d

section

variable {r r' : Bitstream T} {o o' n minbits maxbits : ℕ}

theorem decodeIntBlock_within {maxprec : ℕ} (hd : d ≤ 4) (h : SameWindow r r' o o' n)
    (hprec : maxprec ≤ 64) (hn : min maxbits (planeBits S d) ≤ n) (hmin : minbits ≤ n)
    (out : ℕ → BitVec S.width) :
    SameReadWithin r r' o o' n (decodeIntBlock S d (streamRseek r o) minbits maxbits maxprec out)
      (decodeIntBlock S d (streamRseek r' o') minbits maxbits maxprec out) := by
  obtain ⟨hpos, hle⟩ := block_size_le hd
  have hplanes : (min maxprec S.width + 1) * 4 ^ d ≤ (S.width + 1) * 4 ^ d :=
    Nat.mul_le_mul_right _ (by omega)
  have hmin' : min maxbits ((min maxprec S.width + 1) * 4 ^ d - 1) ≤ n := by
    rw [planeBits] at hn
    omega
  obtain ⟨m, hm, g, hg, hg'⟩ := decodeInts_within h hmin' hpos hle hprec
    (fun _ => (0 : BitVec S.width))
  refine ⟨max m minbits, by omega, max m minbits,
    invXform halfWord d (invOrder (NBMASK S) g out (perm d) (4 ^ d)), ?_, ?_⟩
  · rw [decodeIntBlock, hg]
    dsimp only
    rw [readMinbits_max]
  · rw [decodeIntBlock, hg']
    dsimp only
    rw [readMinbits_max]

theorem revDecodeIntBlock_within (hd : d ≤ 4) (h : SameWindow r r' o o' n)
    (hn : PBITS S + min (uintSub maxbits (PBITS S)) (planeBits S d) ≤ n) (hmin : minbits ≤ n)
    (out : ℕ → BitVec S.width) :
    SameReadWithin r r' o o' n (revDecodeIntBlock S d (streamRseek r o) minbits maxbits out)
      (revDecodeIntBlock S d (streamRseek r' o') minbits maxbits out) := by
  obtain ⟨hpos, hle⟩ := block_size_le hd
  have hside : PBITS S ≤ n := (Nat.le_add_right _ _).trans hn
  have hfield := fieldAt_window h hside
  have hlt : (fieldAt r.mem o (PBITS S)).toNat < 64 := by
    refine lt_of_lt_of_le (toNat_lt_of_getLsbD fun i hi => ?_)
      (Nat.pow_le_pow_right (by decide) (show PBITS S ≤ 6 by cases S <;> decide))
    rw [fieldAt_eq, getLsbD_wordOf, verbatim, decide_eq_false (Nat.not_lt.mpr hi),
      Bool.false_and, Bool.and_false]
  have hprec : (fieldAt r.mem o (PBITS S)).toNat + 1 ≤ 64 := hlt
  generalize hk : (fieldAt r.mem o (PBITS S)).toNat + 1 = k at hprec
  have hplanes : (min k S.width + 1) * 4 ^ d ≤ (S.width + 1) * 4 ^ d :=
    Nat.mul_le_mul_right _ (by omega)
  have hmin' : min (uintSub maxbits (PBITS S)) ((min k S.width + 1) * 4 ^ d - 1) ≤ n - PBITS S := by
    rw [planeBits] at hn
    clear hlt hfield hk
    omega
  obtain ⟨m, hm, g, hg, hg'⟩ := decodeInts_within (h.tail (PBITS S)) hmin' hpos hle hprec
    (fun _ => (0 : BitVec S.width))
  refine ⟨max (PBITS S + m) minbits, max_le (Nat.add_le_of_le_sub' hside hm) hmin,
    max (PBITS S + m) minbits,
    revInvXform d (invOrder (NBMASK S) g out (perm d) (4 ^ d)), ?_, ?_⟩
  · rw [revDecodeIntBlock, streamReadBits_rseek r o (PBITS_le S)]
    dsimp only
    rw [hk, hg]
    dsimp only
    rw [Nat.add_assoc, readMinbits_max]
  · rw [revDecodeIntBlock, streamReadBits_rseek r' o' (PBITS_le S), ← hfield]
    dsimp only
    rw [hk, hg']
    dsimp only
    rw [Nat.add_assoc, readMinbits_max]

variable (ops : FloatOps S (4 ^ d)) {zfp : Params}

theorem decodeFloatBlock_within (hd : d ≤ 4) (h : SameWindow r r' o o' n)
    (hn : 1 + EBITS S + min (uintSub zfp.maxbits (1 + EBITS S)) (planeBits S d) ≤ n)
    (hmin : zfp.minbits ≤ n) (out : ℕ → BitVec S.width) :
    SameReadWithin r r' o o' n (decodeFloatBlock ops zfp (streamRseek r o) out)
      (decodeFloatBlock ops zfp (streamRseek r' o') out) := by
  have hside : 1 + EBITS S ≤ n := (Nat.le_add_right _ _).trans hn
  have hbit : memBit r.mem o = memBit r'.mem o' := h 0 (by omega)
  have hE := EBITS_lt S
  have hfield := fieldAt_window (h.tail 1) (show EBITS S ≤ n - 1 by omega)
  rw [decodeFloatBlock, decodeFloatBlock, streamReadBit_rseek r o, streamReadBit_rseek r' o', ← hbit]
  cases memBit r.mem o
  · refine ⟨max 1 zfp.minbits, by omega, max 1 zfp.minbits, putBlock out fun _ : Fin (4 ^ d) => 0,
      ?_, ?_⟩
    · simp only [readMinbits_max]
      rfl
    · simp only [readMinbits_max]
      rfl
  · have hprec (emax : ℤ) : precision emax zfp.maxprec zfp.minexp d ≤ 64 :=
      (precision_le _ _ _ _).trans zfp.maxprec_le
    have hrest : min (uintSub zfp.maxbits (1 + EBITS S)) (planeBits S d) ≤ n - (1 + EBITS S) := by
      omega
    simp only [if_true, streamReadBits_rseek _ _ (show EBITS S ≤ 64 by omega), ← hfield,
      Nat.add_assoc o 1, Nat.add_assoc o' 1]
    exact (decodeIntBlock_within hd (h.tail (1 + EBITS S)) (hprec _) hrest (by omega) _).after
      hside _ fun a =>
        putBlock out (ops.invCast (blockOf _ a) ((fieldAt r.mem (o + 1) (EBITS S)).toNat - EBIAS S))

theorem revDecodeFloatBlock_within (hd : d ≤ 4) (h : SameWindow r r' o o' n)
    (hside : 2 + EBITS S ≤ n)
    (hn : ∀ bits ≤ 2 + EBITS S, bits + (PBITS S + min (uintSub (uintSub zfp.maxbits bits) (PBITS S))
      (planeBits S d)) ≤ n)
    (hmin : zfp.minbits ≤ n) (out : ℕ → BitVec S.width) :
    SameReadWithin r r' o o' n (revDecodeFloatBlock ops zfp (streamRseek r o) out)
      (revDecodeFloatBlock ops zfp (streamRseek r' o') out) := by
  have hbit : memBit r.mem o = memBit r'.mem o' := h 0 (by omega)
  have hbit' : memBit r.mem (o + 1) = memBit r'.mem (o' + 1) := h 1 (by omega)
  have hE := EBITS_lt S
  have hfield := fieldAt_window (h.tail 2) (show EBITS S ≤ n - 2 by omega)
  -- the integer decoder that follows `bits` bits of side information
  have hrest (bits : ℕ) (hbits : bits ≤ 2 + EBITS S) :=
    revDecodeIntBlock_within hd (h.tail bits) (Nat.le_sub_of_add_le' (hn bits hbits))
      (show zfp.minbits - min bits zfp.minbits ≤ n - bits by omega) (fun _ => (0 : BitVec S.width))
  rw [revDecodeFloatBlock, revDecodeFloatBlock, streamReadBit_rseek r o, streamReadBit_rseek r' o',
    ← hbit]
  cases memBit r.mem o
  · refine ⟨max 1 zfp.minbits, by omega, max 1 zfp.minbits, putBlock out fun _ : Fin (4 ^ d) => 0,
      ?_, ?_⟩
    · simp only [readMinbits_max]
      rfl
    · simp only [readMinbits_max]
      rfl
  · have hpos : o + 1 + 1 = o + 2 := rfl
    have hpos' : o' + 1 + 1 = o' + 2 := rfl
    simp only [if_true, streamReadBit_rseek, ← hbit']
    rw [hpos, hpos']
    cases memBit r.mem (o + 1)
    · simp only [Bool.false_eq_true, if_false, streamReadBits_rseek _ _ (show EBITS S ≤ 64 by omega),
        ← hfield, Nat.add_assoc o 2, Nat.add_assoc o' 2]
      exact (hrest (2 + EBITS S) (Nat.le_refl _)).after hside (2 + EBITS S) fun a =>
        putBlock out (revInvCast ops (blockOf _ a)
          ((fieldAt r.mem (o + 2) (EBITS S)).toNat - EBIAS S))
    · exact (hrest 2 (by omega)).after (by omega) 2 fun a =>
        putBlock out fun i : Fin (4 ^ d) => revReinterpret S (a i)

theorem sideBits_le_codeWindow : sideBits S (REVERSIBLE zfp) ≤ codeWindow S d zfp := by
  rw [codeWindow]
  split_ifs with hside
  · exact hside
  · exact Nat.le_add_right _ _

/-- A budget behind side information ends with the window, or the bit planes do. -/
theorem add_min_le_codeWindow {bits budget : ℕ} (hbits : bits ≤ sideBits S (REVERSIBLE zfp))
    (hbudget : sideBits S (REVERSIBLE zfp) ≤ zfp.maxbits → bits + budget ≤ zfp.maxbits) :
    bits + min budget (planeBits S d) ≤ codeWindow S d zfp := by
  rw [codeWindow]
  split_ifs with hside
  · have hle := hbudget hside
    omega
  · omega

/-- The decoder of a block stays in its window, whatever the stream holds. -/
theorem zfpDecodeBlock_within (hd : d ≤ 4) (hmin : zfp.minbits ≤ zfp.maxbits)
    (h : SameWindow r r' o o' (codeWindow S d zfp)) (out : ℕ → BitVec S.width) :
    SameReadWithin r r' o o' (codeWindow S d zfp) (zfpDecodeBlock ops zfp (streamRseek r o) out)
      (zfpDecodeBlock ops zfp (streamRseek r' o') out) := by
  have hlt := zfp.maxbits_lt
  have hmin' : zfp.minbits ≤ codeWindow S d zfp := by
    rw [codeWindow]
    split_ifs
    · exact hmin
    · omega
  have hside : sideBits S (REVERSIBLE zfp) ≤ codeWindow S d zfp := sideBits_le_codeWindow
  have hbudget : ∀ bits budget, bits ≤ sideBits S (REVERSIBLE zfp) →
      (sideBits S (REVERSIBLE zfp) ≤ zfp.maxbits → bits + budget ≤ zfp.maxbits) →
      bits + min budget (planeBits S d) ≤ codeWindow S d zfp :=
    fun _ _ => add_min_le_codeWindow
  rw [zfpDecodeBlock, zfpDecodeBlock]
  generalize codeWindow S d zfp = n at *
  rw [sideBits] at hside hbudget
  split_ifs at hside hbudget ⊢
  · refine revDecodeFloatBlock_within ops hd h (by omega) (fun bits hbits => ?_) hmin' out
    rw [← Nat.add_assoc]
    refine hbudget _ _ (by omega) fun hle => ?_
    rw [uintSub_eq hlt (show bits ≤ zfp.maxbits by omega), uintSub_eq (by omega) (by omega)]
    omega
  · refine decodeFloatBlock_within ops hd h (hbudget _ _ (Nat.le_refl _) fun hle => ?_) hmin' out
    rw [uintSub_eq hlt hle]
    omega
  · refine revDecodeIntBlock_within hd h (hbudget _ _ (Nat.le_refl _) fun hle => ?_) hmin' out
    rw [uintSub_eq hlt hle]
    omega
  · have hplanes := hbudget 0 zfp.maxbits (Nat.le_refl _) fun _ => by omega
    rw [Nat.zero_add] at hplanes
    exact decodeIntBlock_within hd h zfp.maxprec_le hplanes hmin' out

end

end Zfp

import Zfp.BlockLockstep

/-!
# The window of a block decoder

A decoder reads only the bits within its budget: on two streams that agree on `maxbits` bits,
each from an offset of its own, it returns the same block and count and advances by as much.
-/

namespace PlaneCode

variable {b : ℕ → Bool} {e n p : ℕ}

/-- A decoder that starts `o` bits later on the same bits. -/
theorem groupDecode_shift (o : ℕ) (m : ℕ) (f : ℕ → Bool) (t : Bool) (ht : t = true → 0 < m) :
    groupDecode b (some (o + e)) t m n (o + p) f =
      ((groupDecode (fun i => b (o + i)) (some e) t m n p f).1,
        (groupDecode (fun i => b (o + i)) (some e) t m n p f).2.1,
        o + (groupDecode (fun i => b (o + i)) (some e) t m n p f).2.2) := by
  induction m generalizing n p f t with
  | zero => rfl
  | succ m ih =>
    have hscan : ∀ q, groupDecode b (some (o + e)) true (m + 1) n (o + q) f =
        ((groupDecode (fun i => b (o + i)) (some e) true (m + 1) n q f).1,
          (groupDecode (fun i => b (o + i)) (some e) true (m + 1) n q f).2.1,
          o + (groupDecode (fun i => b (o + i)) (some e) true (m + 1) n q f).2.2) := by
      intro q
      obtain - | m := m
      · simp
      by_cases hm : q < e
      · rw [groupDecode_scan _ (by simpa), groupDecode_scan _ (by simpa), Nat.add_assoc]
        exact ih _ _ (by omega)
      · rw [groupDecode_scan_stop _ (by simpa using hm), groupDecode_scan_stop _ (by simpa using hm)]
    cases t
    · by_cases hm : p < e
      · cases hbp : b (o + p)
        · rw [groupDecode_none _ (by simpa) hbp,
            groupDecode_none (b := fun i => b (o + i)) (p := p) _ (by simpa) hbp]
          rfl
        · rw [groupDecode_test _ (by simpa) hbp,
            groupDecode_test (b := fun i => b (o + i)) (p := p) _ (by simpa) hbp, Nat.add_assoc]
          exact hscan (p + 1)
      · rw [groupDecode_stop _ (by simpa using hm), groupDecode_stop _ (by simpa using hm)]
    · exact hscan p

theorem planeDecode_shift (o size : ℕ) :
    planeDecode b (some (o + e)) size n (o + p) =
      ((planeDecode (fun i => b (o + i)) (some e) size n p).1,
        (planeDecode (fun i => b (o + i)) (some e) size n p).2.1,
        o + (planeDecode (fun i => b (o + i)) (some e) size n p).2.2) := by
  have hverbatim (m : ℕ) : verbatim b (o + p) m = verbatim (fun i => b (o + i)) p m := by
    funext i
    rw [verbatim, verbatim, Nat.add_assoc]
  have hallowed : allowed (some (o + e)) (o + p) n = allowed (some e) p n := by
    rw [allowed_some, allowed_some, Nat.add_sub_add_left]
  simp only [planeDecode, hverbatim, hallowed]
  rw [Nat.add_assoc]
  exact groupDecode_shift o _ _ _ (by simp)

theorem planesDecode_shift (o size kmin k : ℕ) :
    planesDecode b (some (o + e)) size kmin k n (o + p) =
      ((planesDecode (fun i => b (o + i)) (some e) size kmin k n p).1,
        o + (planesDecode (fun i => b (o + i)) (some e) size kmin k n p).2) := by
  induction k generalizing n p with
  | zero => rfl
  | succ k ih =>
    rw [planesDecode, planesDecode]
    simp only [more_some, decide_eq_true_eq, Nat.add_lt_add_iff_left]
    split_ifs
    · rw [planeDecode_shift, ih]
    · rfl

end PlaneCode

namespace Zfp
open BitLists Bitstream PlaneCode

variable {T : WordType} {S : Scalar} {d : ℕ}

/-- The streams agree on `n` bits, from `o` and from `o'` on. -/
def SameWindow (r r' : Bitstream T) (o o' n : ℕ) : Prop :=
  ∀ k < n, memBit r.mem (o + k) = memBit r'.mem (o' + k)

theorem SameWindow.tail {r r' : Bitstream T} {o o' n : ℕ} (h : SameWindow r r' o o' n) (m : ℕ) :
    SameWindow r r' (o + m) (o' + m) (n - m) := by
  intro k hk
  rw [Nat.add_assoc, Nat.add_assoc]
  exact h (m + k) (by omega)

/-- The two readers, which start at `o` and at `o'`, return the same and advance by as much. -/
def SameRead {α : Type} (r r' : Bitstream T) (o o' : ℕ) (x y : ℕ × Bitstream T × α) : Prop :=
  ∃ n m a, x = (n, streamRseek r (o + m), a) ∧ y = (n, streamRseek r' (o' + m), a)

/-- A reader that goes on with the same reader, and counts the bits read before. -/
theorem SameRead.after {α β : Type} {r r' : Bitstream T} {o o' k : ℕ} {x y : ℕ × Bitstream T × α}
    (h : SameRead r r' (o + k) (o' + k) x y) (bits : ℕ) (f : α → β) :
    SameRead r r' o o' (bits + x.1, x.2.1, f x.2.2) (bits + y.1, y.2.1, f y.2.2) := by
  obtain ⟨n, m, a, rfl, rfl⟩ := h
  refine ⟨bits + n, k + m, f a, ?_, ?_⟩
  · rw [Nat.add_assoc]
  · rw [Nat.add_assoc]

theorem fieldAt_window {r r' : Bitstream T} {o o' n m : ℕ} (h : SameWindow r r' o o' n)
    (hm : m ≤ n) : fieldAt r.mem o m = fieldAt r'.mem o' m := by
  rw [fieldAt_eq, fieldAt_eq]
  congr 1
  funext i
  rw [verbatim, verbatim]
  by_cases hi : i < m
  · rw [h i (by omega)]
  · rw [decide_eq_false hi, Bool.false_and, Bool.false_and]

theorem intsDecode_window {r r' : Bitstream T} {o o' n : ℕ} (h : SameWindow r r' o o' n)
    (w maxprec size : ℕ) :
    ∃ g m, intsDecode (memBit r.mem) (some (o + n)) w maxprec size o = (g, o + m) ∧
      intsDecode (memBit r'.mem) (some (o' + n)) w maxprec size o' = (g, o' + m) := by
  have hleft := planesDecode_shift (b := memBit r.mem) (e := n) (n := 0) (p := 0) o size
    (w - maxprec) w
  have hright := planesDecode_shift (b := memBit r'.mem) (e := n) (n := 0) (p := 0) o' size
    (w - maxprec) w
  rw [planesDecode_congr w (Nat.zero_le size) fun i _ hi => h i hi] at hleft
  exact ⟨_, _, hleft, hright⟩

theorem decodeInts_window {r r' : Bitstream T} {o o' maxbits maxprec w size : ℕ}
    (h : SameWindow r r' o o' maxbits) (hsize : 0 < size) (hsize' : size ≤ 2 ^ 24)
    (hprec : maxprec ≤ 64) (data : ℕ → BitVec w) :
    ∃ g m, decodeInts (streamRseek r o) maxbits maxprec data size =
        (g, m, streamRseek r (o + m)) ∧
      decodeInts (streamRseek r' o') maxbits maxprec data size =
        (g, m, streamRseek r' (o' + m)) := by
  obtain ⟨g, m, hg, hg'⟩ := intsDecode_window h w maxprec size
  refine ⟨storeInts data size g, m, ?_, ?_⟩
  · rw [decodeInts_rseek r o maxbits data hsize hsize' hprec, hg, decoded, Nat.add_sub_cancel_left]
  · rw [decodeInts_rseek r' o' maxbits data hsize hsize' hprec, hg', decoded,
      Nat.add_sub_cancel_left]

theorem readMinbits_window (r r' : Bitstream T) (o o' minbits m : ℕ) :
    ∃ n, readMinbits minbits (m, streamRseek r (o + m)) = (n, streamRseek r (o + n)) ∧
      readMinbits minbits (m, streamRseek r' (o' + m)) = (n, streamRseek r' (o' + n)) := by
  have hread (q : Bitstream T) (i : ℕ) : readMinbits minbits (m, streamRseek q (i + m)) =
      (max m minbits, streamRseek q (i + max m minbits)) := by
    rw [readMinbits]
    dsimp only
    split_ifs with hlt
    · rw [streamSkip_rseek, Nat.max_eq_right hlt.le, Nat.add_assoc, Nat.add_sub_cancel' hlt.le]
    · rw [Nat.max_eq_left (by omega)]
  exact ⟨max m minbits, hread r o, hread r' o'⟩

theorem decodeIntBlock_window {r r' : Bitstream T} {o o' maxbits maxprec : ℕ} (hd : d ≤ 4)
    (h : SameWindow r r' o o' maxbits) (hprec : maxprec ≤ 64) (minbits : ℕ)
    (out : ℕ → BitVec S.width) :
    SameRead r r' o o' (decodeIntBlock S d (streamRseek r o) minbits maxbits maxprec out)
      (decodeIntBlock S d (streamRseek r' o') minbits maxbits maxprec out) := by
  obtain ⟨hpos, hle⟩ := block_size_le hd
  obtain ⟨g, m, hg, hg'⟩ := decodeInts_window h hpos hle hprec (fun _ => (0 : BitVec S.width))
  obtain ⟨n, hn, hn'⟩ := readMinbits_window r r' o o' minbits m
  refine ⟨n, n, invXform halfWord d (invOrder (NBMASK S) g out (perm d) (4 ^ d)), ?_, ?_⟩
  · rw [decodeIntBlock, hg]
    dsimp only
    rw [hn]
  · rw [decodeIntBlock, hg']
    dsimp only
    rw [hn']

theorem revDecodeIntBlock_window {r r' : Bitstream T} {o o' maxbits : ℕ} (hd : d ≤ 4)
    (h : SameWindow r r' o o' maxbits) (hmax : maxbits < 2 ^ 32) (hside : PBITS S ≤ maxbits)
    (minbits : ℕ) (out : ℕ → BitVec S.width) :
    SameRead r r' o o' (revDecodeIntBlock S d (streamRseek r o) minbits maxbits out)
      (revDecodeIntBlock S d (streamRseek r' o') minbits maxbits out) := by
  obtain ⟨hpos, hle⟩ := block_size_le hd
  have hfield := fieldAt_window h hside
  have hlt : (fieldAt r.mem o (PBITS S)).toNat < 64 := by
    refine lt_of_lt_of_le (toNat_lt_of_getLsbD fun i hi => ?_)
      (Nat.pow_le_pow_right (by decide) (show PBITS S ≤ 6 by cases S <;> decide))
    rw [fieldAt_eq, getLsbD_wordOf, verbatim, decide_eq_false (Nat.not_lt.mpr hi),
      Bool.false_and, Bool.and_false]
  have hrest := h.tail (PBITS S)
  rw [← uintSub_eq hmax hside] at hrest
  have hprec : (fieldAt r.mem o (PBITS S)).toNat + 1 ≤ 64 := hlt
  obtain ⟨g, m, hg, hg'⟩ := decodeInts_window hrest hpos hle hprec (fun _ => (0 : BitVec S.width))
  obtain ⟨n, hn, hn'⟩ := readMinbits_window r r' o o' minbits (PBITS S + m)
  rw [← Nat.add_assoc] at hn hn'
  refine ⟨n, n, revInvXform d (invOrder (NBMASK S) g out (perm d) (4 ^ d)), ?_, ?_⟩
  · rw [revDecodeIntBlock, streamReadBits_rseek r o (PBITS_le S)]
    dsimp only
    rw [hg]
    dsimp only
    rw [hn]
  · rw [revDecodeIntBlock, streamReadBits_rseek r' o' (PBITS_le S), ← hfield]
    dsimp only
    rw [hg']
    dsimp only
    rw [hn']

section

variable (ops : FloatOps S (4 ^ d)) (zfp : Params)

theorem decodeFloatBlock_window {r r' : Bitstream T} {o o' : ℕ} (hd : d ≤ 4)
    (h : SameWindow r r' o o' zfp.maxbits) (hside : 1 + EBITS S ≤ zfp.maxbits)
    (out : ℕ → BitVec S.width) :
    SameRead r r' o o' (decodeFloatBlock ops zfp (streamRseek r o) out)
      (decodeFloatBlock ops zfp (streamRseek r' o') out) := by
  have hbit : memBit r.mem o = memBit r'.mem o' := h 0 (by omega)
  have hE := EBITS_lt S
  have hfield := fieldAt_window (h.tail 1) (show EBITS S ≤ zfp.maxbits - 1 by omega)
  rw [decodeFloatBlock, decodeFloatBlock, streamReadBit_rseek r o, streamReadBit_rseek r' o', ← hbit]
  cases memBit r.mem o
  · obtain ⟨n, hn, hn'⟩ := readMinbits_window r r' o o' zfp.minbits 1
    refine ⟨n, n, putBlock out fun _ : Fin (4 ^ d) => 0, ?_, ?_⟩
    · simp only [hn]
      rfl
    · simp only [hn']
      rfl
  · have hrest := h.tail (1 + EBITS S)
    rw [← uintSub_eq zfp.maxbits_lt hside] at hrest
    have hprec (emax : ℤ) : precision emax zfp.maxprec zfp.minexp d ≤ 64 :=
      (precision_le _ _ _ _).trans zfp.maxprec_le
    simp only [if_true, streamReadBits_rseek _ _ (show EBITS S ≤ 64 by omega), ← hfield,
      Nat.add_assoc o 1, Nat.add_assoc o' 1]
    exact (decodeIntBlock_window hd hrest (hprec _) _ _).after _ fun a =>
      putBlock out (ops.invCast (blockOf _ a) ((fieldAt r.mem (o + 1) (EBITS S)).toNat - EBIAS S))

theorem revDecodeFloatBlock_window {r r' : Bitstream T} {o o' : ℕ} (hd : d ≤ 4)
    (h : SameWindow r r' o o' zfp.maxbits) (hside : 2 + EBITS S + PBITS S ≤ zfp.maxbits)
    (out : ℕ → BitVec S.width) :
    SameRead r r' o o' (revDecodeFloatBlock ops zfp (streamRseek r o) out)
      (revDecodeFloatBlock ops zfp (streamRseek r' o') out) := by
  have hbit : memBit r.mem o = memBit r'.mem o' := h 0 (by omega)
  have hbit' : memBit r.mem (o + 1) = memBit r'.mem (o' + 1) := h 1 (by omega)
  have hE := EBITS_lt S
  have hlt := zfp.maxbits_lt
  have hfield := fieldAt_window (h.tail 2) (show EBITS S ≤ zfp.maxbits - 2 by omega)
  -- the integer decoder that follows `bits` bits of side information
  have hrest (bits : ℕ) (hbits : bits + PBITS S ≤ zfp.maxbits) :=
    revDecodeIntBlock_window hd (uintSub_eq hlt (show bits ≤ zfp.maxbits by omega) ▸ h.tail bits)
      (by rw [uintSub_eq hlt (by omega)]; omega) (by rw [uintSub_eq hlt (by omega)]; omega)
      (zfp.minbits - min bits zfp.minbits) (fun _ => (0 : BitVec S.width))
  rw [revDecodeFloatBlock, revDecodeFloatBlock, streamReadBit_rseek r o, streamReadBit_rseek r' o',
    ← hbit]
  cases memBit r.mem o
  · obtain ⟨n, hn, hn'⟩ := readMinbits_window r r' o o' zfp.minbits 1
    refine ⟨n, n, putBlock out fun _ : Fin (4 ^ d) => 0, ?_, ?_⟩
    · simp only [hn]
      rfl
    · simp only [hn']
      rfl
  · have hpos : o + 1 + 1 = o + 2 := rfl
    have hpos' : o' + 1 + 1 = o' + 2 := rfl
    simp only [if_true, streamReadBit_rseek, ← hbit']
    rw [hpos, hpos']
    cases memBit r.mem (o + 1)
    · simp only [Bool.false_eq_true, if_false, streamReadBits_rseek _ _ (show EBITS S ≤ 64 by omega),
        ← hfield, Nat.add_assoc o 2, Nat.add_assoc o' 2]
      exact (hrest (2 + EBITS S) hside).after (2 + EBITS S) fun a =>
        putBlock out (revInvCast ops (blockOf _ a)
          ((fieldAt r.mem (o + 2) (EBITS S)).toNat - EBIAS S))
    · exact (hrest 2 (by omega)).after 2 fun a =>
        putBlock out fun i : Fin (4 ^ d) => revReinterpret S (a i)

/-- The decoder of a block reads only the bits of its budget, if its side information fits. -/
theorem zfpDecodeBlock_window {r r' : Bitstream T} {o o' : ℕ} (hd : d ≤ 4)
    (h : SameWindow r r' o o' zfp.maxbits) (hside : sideBits S (REVERSIBLE zfp) ≤ zfp.maxbits)
    (out : ℕ → BitVec S.width) :
    SameRead r r' o o' (zfpDecodeBlock ops zfp (streamRseek r o) out)
      (zfpDecodeBlock ops zfp (streamRseek r' o') out) := by
  rw [zfpDecodeBlock, zfpDecodeBlock]
  rw [sideBits] at hside
  split_ifs at hside ⊢
  · exact revDecodeFloatBlock_window ops zfp hd h hside out
  · exact decodeFloatBlock_window ops zfp hd h hside out
  · exact revDecodeIntBlock_window hd h zfp.maxbits_lt hside zfp.minbits out
  · exact decodeIntBlock_window hd h zfp.maxprec_le zfp.minbits out

end

end Zfp

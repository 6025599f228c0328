import Zfp.BitstreamRefinement
import Zfp.DecodeRefinement

/-!
# The decoder inverts the encoder at every budget

The budget cuts the code at some plane: the planes before it are decoded exactly and the
planes after it are zero. The decoder stops where the encoder stopped, whatever bits
follow the code in the stream.
-/

namespace Zfp
open BitLists Bitstream PlaneCode

variable {T : WordType} {w : ℕ}

private def overwrite (b : ℕ → Bool) (o : ℕ) (l : List Bool) (q : ℕ) : Bool :=
  if o ≤ q ∧ q - o < l.length then l.getD (q - o) false else b q

private theorem reads_overwrite (b : ℕ → Bool) (o : ℕ) (l : List Bool) :
    Reads (overwrite b o l) o l := by
  rw [reads_iff]
  intro i hi
  rw [overwrite, if_pos (by omega), Nat.add_sub_cancel_left]

/-- Bits that begin with the code up to the budget are as good as those of the whole code. -/
private theorem overwrite_eq {b : ℕ → Bool} {o n : ℕ} {l : List Bool} (h : Reads b o (l.take n))
    {q : ℕ} (hq : o ≤ q) (hn : q < o + n) : b q = overwrite b o l q := by
  rw [overwrite]
  split
  · next hlt =>
    rw [reads_iff] at h
    have hi := h (q - o) (by rw [List.length_take]; omega)
    rw [Nat.add_sub_cancel' hq] at hi
    rw [hi, List.getD_eq_getElem?_getD, List.getD_eq_getElem?_getD, List.getElem?_take_of_lt (by omega)]
  · rfl

/-- The planes `k` and above of the decoded integers, for a budget that covers them. -/
theorem intsDecode_intsCode (data : ℕ → BitVec w) (maxprec maxbits : ℕ) {size : ℕ}
    (hsize : 0 < size) {b : ℕ → Bool} {o : ℕ}
    (h : Reads b o ((intsCode data maxprec size).take maxbits)) :
    let r := intsDecode b (some (o + maxbits)) w maxprec size o
    r.2 = o + min maxbits (intsCode data maxprec size).length ∧
    ∀ k i, i < size → k < w →
      (w - maxprec ≤ k → (intsCode data (w - k) size).length ≤ maxbits →
        r.1 k i = (data i).getLsbD k) ∧
      (k < w - maxprec ∨ maxbits ≤ (intsCode data (w - (k + 1)) size).length →
        r.1 k i = false) := by
  intro r
  set b' := overwrite b o (intsCode data maxprec size) with hb'
  have hr : r = intsDecode b' (some (o + maxbits)) w maxprec size o :=
    planesDecode_congr w (Nat.zero_le size) fun q hq hn => overwrite_eq h hq hn
  have hreads : Reads b' o (intsCode data maxprec size) := reads_overwrite b o _
  have hfull := planesDecode_planesCode (plane data) w (Nat.zero_le size) hreads
  have hupper : ∀ j, w - maxprec ≤ j → (planesDecode b' none size j w 0 o).2 =
      o + (planesCode (plane data) size j w 0).length := by
    intro j hj
    obtain ⟨l, hl⟩ := planesCode_prefix (plane data) size hj w 0
    rw [intsCode, hl, reads_append] at hreads
    rw [planesDecode_planesCode (plane data) w (Nat.zero_le size) hreads.1]
  have hle := Nat.le_add_right o maxbits
  constructor
  · have hbudget := planesDecode_budget b' (w - maxprec) w hsize (Nat.zero_le size) hle
    simp only [hfull] at hbudget
    rw [hr, intsDecode]
    obtain ⟨h1, h2⟩ | ⟨h1, h2⟩ := hbudget
    · rw [h2, intsCode] at *
      simp only
      omega
    · rw [h2, intsCode] at *
      omega
  · intro k i hi hk
    have hcode : ∀ j ≤ w, intsCode data (w - j) size = planesCode (plane data) size j w 0 := by
      intro j hj
      rw [intsCode, show w - (w - j) = j by omega]
    rw [hr, intsDecode, hcode k hk.le, hcode (k + 1) hk]
    constructor
    · intro hkmin hlen
      rw [planesDecode_plane b' hsize (Nat.zero_le size) hkmin hk (by rw [hupper k hkmin]; omega),
        hfull]
      simp [hkmin, hk, hi, plane]
    · rintro (hkmin | hlen)
      · exact planesDecode_of_not_mem (Nat.zero_le size) (.inl hkmin)
      · by_cases hkmin : w - maxprec ≤ k + 1
        · exact planesDecode_plane_zero b' (Nat.zero_le size) hle i
            (by rw [hupper (k + 1) hkmin]; omega)
        · exact planesDecode_of_not_mem (Nat.zero_le size) (.inl (by omega))

/-- A budget that covers the code decodes all coded planes. -/
theorem intsDecode_full (data : ℕ → BitVec w) {maxprec maxbits size : ℕ} (hsize : 0 < size)
    {b : ℕ → Bool} {o : ℕ} (h : Reads b o (intsCode data maxprec size))
    (hbits : (intsCode data maxprec size).length ≤ maxbits) {i : ℕ} (hi : i < size) :
    wordOf w (fun k => (intsDecode b (some (o + maxbits)) w maxprec size o).1 k i) =
      data i >>> (w - maxprec) <<< (w - maxprec) := by
  have hplanes := (intsDecode_intsCode data maxprec maxbits hsize
    (by rwa [List.take_of_length_le hbits])).2
  apply BitVec.eq_of_getLsbD_eq
  intro k hk
  obtain ⟨hset, hclear⟩ := hplanes k i hi hk
  rw [getLsbD_wordOf, decide_eq_true hk, Bool.true_and, BitVec.getLsbD_shiftLeft,
    BitVec.getLsbD_ushiftRight, decide_eq_true hk, Bool.true_and]
  by_cases hkmin : w - maxprec ≤ k
  · obtain ⟨l, hl⟩ := planesCode_prefix (plane data) size hkmin w 0
    have hlen : (intsCode data (w - k) size).length ≤ maxbits := by
      rw [intsCode] at hbits
      rw [intsCode, show w - (w - k) = k by omega]
      rw [hl, List.length_append] at hbits
      omega
    rw [hset hkmin hlen, decide_eq_false (by omega), Bool.not_false, Bool.true_and,
      Nat.add_sub_cancel' hkmin]
  · rw [hclear (.inl (by omega)), decide_eq_true (by omega)]
    rfl

/-- Decoding what was encoded, at every budget and whatever is written afterwards. The
planes from `k` up cost `cost k` bits; a plane is exact if the budget covers it and zero if
the budget ends before it. -/
theorem decodeInts_encodeInts (hw : w = 32 ∨ w = 64) (data out : ℕ → BitVec w) {size maxprec : ℕ}
    (hsize : 0 < size)
    (hsize' : size ≤ 2 ^ 24) (hprec : maxprec ≤ 64) (maxbits : ℕ) {s : Bitstream T} (hs : s.WF)
    (rest : List Bool) :
    let c := encodeInts s maxbits maxprec data size
    let r := (streamFlush (c.2.append rest)).2
    let d := decodeInts (streamRseek r (streamWtell s)) maxbits maxprec out size
    let cost := fun k => (encodeManyIntsPrec s (w - k) data size).1
    d.2.1 = c.1 ∧ d.2.2 = streamRseek r (streamWtell s + c.1) ∧
    (∀ i < size, ∀ k < w,
      (w - maxprec ≤ k → cost k ≤ maxbits → (d.1 i).getLsbD k = (data i).getLsbD k) ∧
      (k < w - maxprec ∨ maxbits ≤ cost (k + 1) → (d.1 i).getLsbD k = false)) ∧
    ((min maxprec w + 1) * size - 1 ≤ maxbits →
      ∀ i < size, d.1 i = data i >>> (w - maxprec) <<< (w - maxprec)) := by
  intro c r d cost
  have hc : c = _ := encodeInts_eq hs maxbits data hsize hsize' hprec
  have hd : d = _ := decodeInts_rseek r (streamWtell s) maxbits out hsize hsize' hprec
  have hreads : Reads (memBit r.mem) (streamWtell s)
      ((intsCode data maxprec size).take maxbits) := by
    have hf := reads_flush hs ((intsCode data maxprec size).take maxbits ++ rest)
    rw [append_append, reads_append] at hf
    rw [show r = (streamFlush (c.2.append rest)).2 from rfl, hc]
    exact hf.1
  have hcost : ∀ k, cost k = (intsCode data (w - k) size).length := by
    intro k
    have hlen := intsCode_length_le data (w - k) hsize
    have hmul := prec_mul_size_le (show w - k ≤ 64 by omega) hsize'
    show (encodeManyIntsPrec s (w - k) data size).1 = _
    rw [encodeManyIntsPrec_eq hs]
    exact Nat.mod_eq_of_lt (by omega)
  obtain ⟨hcount, hplanes⟩ := intsDecode_intsCode data maxprec maxbits hsize hreads
  rw [hd, hc, decoded]
  refine ⟨by rw [hcount, Nat.add_sub_cancel_left], by rw [hcount], ?_, ?_⟩
  · intro i hi k hk
    simp only [hcost, storeInts_of_lt _ _ hi, getLsbD_wordOf, decide_eq_true hk, Bool.true_and]
    exact hplanes k i hi hk
  · intro hbits i hi
    have hlen := intsCode_length data maxprec hsize
    rw [List.take_of_length_le (hlen.trans hbits)] at hreads
    exact (storeInts_of_lt _ _ hi).trans
      (intsDecode_full data hsize hreads (hlen.trans hbits) hi)

theorem decodeInts_encodeInts_four :
    let s := streamOpen (T := .uint32) fun _ => 0
    let c := encodeInts s 9 32 (fun i => BitVec.ofNat 32 (i <<< 20)) 4
    (decodeInts (streamRseek (streamFlush (c.2.append [])).2 (streamWtell s)) 9 32
      (fun _ => 0#32) 4).2.1 = c.1 :=
  (decodeInts_encodeInts (.inl rfl) (fun i => BitVec.ofNat 32 (i <<< 20)) (fun _ => 0#32)
    (by decide) (by decide) (by decide) 9 (streamOpen_wf _) []).1

end Zfp

import Zfp.BlockCode

/-!
# Encoder and decoder in lockstep

A decoder that starts where the code of a block starts returns its length and stops at its
end. The one coder that breaks this is the reversible floating-point encoder: it does not
pad the single bit of a block of zeros to `minbits` bits.
-/

namespace Zfp
open BitLists Bitstream PlaneCode

variable {T : WordType} {S : Scalar} {d : ℕ}

/-! ## Reading fields -/

theorem fieldAt_of_reads {mem : ℕ → BitVec (wsize T)} {o n : ℕ} {v : BitVec 64}
    (h : Reads (memBit mem) o (lowBits v n)) (hv : v.toNat < 2 ^ n) : fieldAt mem o n = v := by
  apply BitVec.eq_of_getLsbD_eq
  intro i hi
  rw [fieldAt, getLsbD_wordOf, decide_eq_true hi, Bool.true_and]
  by_cases hin : i < n
  · rw [reads_iff] at h
    have hi' : i < (lowBits v n).length := by rwa [length_lowBits]
    rw [decide_eq_true hin, Bool.true_and, h i hi', List.getD_eq_getElem _ _ hi', getElem_lowBits]
  · rw [decide_eq_false hin, Bool.false_and, getLsbD_of_toNat_lt hv (by omega)]

theorem toNat_ofNat_of_lt {v n : ℕ} (hv : v < 2 ^ n) (hn : n ≤ 64) :
    (BitVec.ofNat 64 v).toNat = v := by
  rw [BitVec.toNat_ofNat]
  exact Nat.mod_eq_of_lt (hv.trans_le (Nat.pow_le_pow_right (by decide) hn))

/-- Reading back a field that was written with `stream_write_bits`. -/
theorem streamReadBits_field {r : Bitstream T} {o n v : ℕ} (hn : n ≤ 64) (hv : v < 2 ^ n)
    (h : Reads (memBit r.mem) o (lowBits (BitVec.ofNat 64 v) n)) :
    streamReadBits (streamRseek r o) n = (BitVec.ofNat 64 v, streamRseek r (o + n)) := by
  rw [streamReadBits_rseek r o hn, fieldAt_of_reads h]
  rwa [toNat_ofNat_of_lt hv hn]

theorem readMinbits_rseek (r : Bitstream T) (o minbits : ℕ) (l : List Bool) :
    readMinbits minbits (l.length, streamRseek r (o + l.length)) =
      ((padded minbits l).length, streamRseek r (o + (padded minbits l).length)) := by
  rw [readMinbits, length_padded]
  dsimp only
  split
  · next h =>
    rw [streamSkip_rseek, Nat.max_eq_right h.le, Nat.add_assoc, Nat.add_sub_cancel' h.le]
  · next h => rw [Nat.max_eq_left (by omega)]

theorem reads_padded {b : ℕ → Bool} {o minbits : ℕ} {l : List Bool}
    (h : Reads b o (padded minbits l)) : Reads b o l := by
  rw [padded, reads_append] at h
  exact h.1

/-! ## Integer blocks -/

/-- The decoded coefficients, and the end of the code up to the budget. -/
theorem decodeInts_reads {w : ℕ} {r : Bitstream T} {o maxbits maxprec size : ℕ}
    (data out : ℕ → BitVec w) (hsize : 0 < size) (hsize' : size ≤ 2 ^ 24) (hprec : maxprec ≤ 64)
    (h : Reads (memBit r.mem) o ((intsCode data maxprec size).take maxbits)) :
    let q := decodeInts (streamRseek r o) maxbits maxprec out size
    q.2 = (((intsCode data maxprec size).take maxbits).length,
        streamRseek r (o + ((intsCode data maxprec size).take maxbits).length)) ∧
      ((intsCode data maxprec size).length ≤ maxbits → ∀ i < size,
        q.1 i = data i >>> (w - maxprec) <<< (w - maxprec)) := by
  intro q
  have hq : q = _ := decodeInts_rseek r o maxbits out hsize hsize' hprec
  have hcount := (intsDecode_intsCode data maxprec maxbits hsize h).1
  rw [hq, decoded, List.length_take]
  refine ⟨by rw [hcount, Nat.add_sub_cancel_left], fun hlen i hi => ?_⟩
  rw [List.take_of_length_le hlen] at h
  exact (storeInts_of_lt _ _ hi).trans (intsDecode_full data hsize h hlen hi)

theorem decodeIntBlock_rseek {r : Bitstream T} {o : ℕ} (hd : d ≤ 4) {minbits maxbits maxprec : ℕ}
    (hprec : maxprec ≤ 64) (iblock out : ℕ → BitVec S.width)
    (h : Reads (memBit r.mem) o (intBlockCode S d minbits maxbits maxprec iblock)) :
    let q := decodeIntBlock S d (streamRseek r o) minbits maxbits maxprec out
    q.1 = (intBlockCode S d minbits maxbits maxprec iblock).length ∧
      q.2.1 = streamRseek r (o + (intBlockCode S d minbits maxbits maxprec iblock).length) := by
  intro q
  obtain ⟨hpos, hle⟩ := block_size_le hd
  rw [intBlockCode] at h ⊢
  generalize fwdWords S d (fwdXform halfWord d iblock) = u at h ⊢
  have hreads := reads_padded h
  have hints := (decodeInts_reads u (fun _ => 0) hpos hle hprec hreads).1
  have hmin := readMinbits_rseek r o minbits ((intsCode u maxprec (4 ^ d)).take maxbits)
  have hq : q = decodeIntBlock S d (streamRseek r o) minbits maxbits maxprec out := rfl
  clear_value q
  rw [decodeIntBlock, hints, hmin] at hq
  rw [hq]
  exact ⟨rfl, rfl⟩

/-- The stored precision reaches down to the lowest one-bit of the coefficients. -/
theorem revPrec_covers (S : Scalar) (d : ℕ) {maxprec : ℕ} (hprec : S.width ≤ maxprec)
    (iblock : ℕ → BitVec S.width) {i : ℕ} (hi : i < 4 ^ d) :
    let u := fwdWords S d (revFwdXform d iblock) i
    let k := S.width - revPrec S d maxprec iblock
    u >>> k <<< k = u := by
  intro u k
  obtain ⟨hle, hlow⟩ := revPrecision_spec S (fwdWords S d (revFwdXform d iblock)) (4 ^ d)
  have hk : k ≤ S.width - revPrecision (fwdWords S d (revFwdXform d iblock)) (4 ^ d) := by
    show S.width - max (min (revPrecision _ _) maxprec) 1 ≤ _
    omega
  apply BitVec.eq_of_getLsbD_eq
  intro j hj
  rw [BitVec.getLsbD_shiftLeft, BitVec.getLsbD_ushiftRight, decide_eq_true hj, Bool.true_and]
  by_cases hjk : j < k
  · rw [decide_eq_true hjk, hlow i hi j (by omega)]
    rfl
  · rw [decide_eq_false hjk, Nat.add_sub_cancel' (by omega)]
    rfl

theorem revDecodeIntBlock_rseek {r : Bitstream T} {o : ℕ} (hd : 1 ≤ d) (hd' : d ≤ 4)
    {minbits maxbits maxprec : ℕ} (iblock out : ℕ → BitVec S.width)
    (h : Reads (memBit r.mem) o (revIntBlockCode S d minbits maxbits maxprec iblock)) :
    let q := revDecodeIntBlock S d (streamRseek r o) minbits maxbits out
    q.1 = (revIntBlockCode S d minbits maxbits maxprec iblock).length ∧
      q.2.1 = streamRseek r (o + (revIntBlockCode S d minbits maxbits maxprec iblock).length) ∧
      (S.width ≤ maxprec → (S.width + 1) * 4 ^ d - 1 ≤ uintSub maxbits (PBITS S) →
        ∀ i < 4 ^ d, q.2.2 i = iblock i) := by
  intro q
  obtain ⟨hpos, hle⟩ := block_size_le hd'
  have hcovers := fun (hprec : S.width ≤ maxprec) i (hi : i < 4 ^ d) =>
    revPrec_covers S d hprec iblock hi
  obtain ⟨hprec0, hprecw⟩ := revPrec_bounds S d maxprec iblock
  rw [revIntBlockCode] at h ⊢
  dsimp only at h hcovers ⊢
  generalize revPrec S d maxprec iblock = prec at h hcovers hprec0 hprecw ⊢
  generalize hu : fwdWords S d (revFwdXform d iblock) = u at h hcovers ⊢
  obtain ⟨p, rfl⟩ := Nat.exists_eq_add_one_of_ne_zero hprec0.ne'
  rw [Nat.add_sub_cancel] at h ⊢
  have hreads := reads_padded h
  rw [reads_append, length_lowBits] at hreads
  have hp : p < 2 ^ PBITS S := by rwa [two_pow_PBITS]
  have hfield := streamReadBits_field (PBITS_le S) hp hreads.1
  have hpv := toNat_ofNat_of_lt hp (PBITS_le S)
  obtain ⟨hend, hvalues⟩ := decodeInts_reads u (fun _ => 0) hpos hle
    (hprecw.trans S.width_le) hreads.2
  have hmin := readMinbits_rseek r o minbits (lowBits (BitVec.ofNat 64 p) (PBITS S) ++
    (intsCode u (p + 1) (4 ^ d)).take (uintSub maxbits (PBITS S)))
  have hq : q = revDecodeIntBlock S d (streamRseek r o) minbits maxbits out := rfl
  clear_value q
  rw [revDecodeIntBlock, hfield] at hq
  generalize BitVec.ofNat 64 p = v at hq hpv hmin ⊢
  dsimp only at hq
  rw [hpv] at hq
  generalize decodeInts (streamRseek r (o + PBITS S)) (uintSub maxbits (PBITS S)) (p + 1)
    (fun _ => 0) (4 ^ d) = c at hq hend hvalues
  rw [List.length_append, length_lowBits, ← Nat.add_assoc] at hmin
  rw [hend] at hq
  dsimp only at hq
  rw [hmin] at hq
  rw [hq]
  refine ⟨rfl, rfl, fun hprec hbits => ?_⟩
  have hlen : (intsCode u (p + 1) (4 ^ d)).length ≤ uintSub maxbits (PBITS S) := by
    have hcode := intsCode_length_le u (p + 1) hpos
    have hmul : (p + 1 + 1) * 4 ^ d ≤ (S.width + 1) * 4 ^ d := Nat.mul_le_mul_right _ (by omega)
    omega
  have hwords : ∀ i < 4 ^ d, c.1 i = fwdOrder (NBMASK S) (revFwdXform d iblock) (perm d) (4 ^ d) i :=
    fun i hi => ((hvalues hlen i hi).trans (hcovers hprec i hi)).trans (congrFun hu i).symm
  intro i hi
  have hinv := revInvXform_congr hd hd' (invOrder_fwdOrder (NBMASK S) c.1 out _ hd hd' hwords) i hi
  rwa [revInvXform_revFwdXform hd hd'] at hinv

/-! ## Floating-point blocks -/

/-- The lossy coder writes its flag bit and the exponent as one field. -/
theorem lowBits_odd (e : ℕ) {n : ℕ} (hn : n < 64) :
    lowBits (BitVec.ofNat 64 (2 * e + 1)) (1 + n) = true :: lowBits (BitVec.ofNat 64 e) n := by
  rw [Nat.add_comm 1 n, lowBits_succ]
  congr 1
  · rw [BitVec.getLsbD_ofNat, Nat.testBit_zero, decide_eq_true (by omega), decide_eq_true (by omega)]
    rfl
  · refine lowBits_congr fun i hi => ?_
    rw [BitVec.getLsbD_ushiftRight, BitVec.getLsbD_ofNat, BitVec.getLsbD_ofNat,
      decide_eq_true (by omega), decide_eq_true (by omega), Bool.true_and, Bool.true_and,
      Nat.add_comm 1 i, Nat.testBit_succ]
    congr 1
    omega

section

variable (ops : FloatOps S (4 ^ d)) (zfp : Params)

/-- The biased exponent fits its field. -/
theorem exponent_lt (fblock : Fin (4 ^ d) → BitVec S.width) :
    (ops.exponentBlock fblock + EBIAS S).toNat < 2 ^ EBITS S ∧
      ((ops.exponentBlock fblock + EBIAS S).toNat : ℤ) = ops.exponentBlock fblock + EBIAS S := by
  obtain ⟨hlow, hhigh⟩ := ops.exponentBlock_mem fblock
  have hcast : ((2 ^ EBITS S : ℕ) : ℤ) = 2 ^ EBITS S := by push_cast; rfl
  omega

theorem decodeFloatBlock_rseek {r : Bitstream T} {o : ℕ} (hd : d ≤ 4)
    (fblock out : ℕ → BitVec S.width) (h : Reads (memBit r.mem) o (floatBlockCode ops zfp fblock)) :
    let q := decodeFloatBlock ops zfp (streamRseek r o) out
    q.1 = (floatBlockCode ops zfp fblock).length ∧
      q.2.1 = streamRseek r (o + (floatBlockCode ops zfp fblock).length) := by
  intro q
  have hbits : EBITS S < 64 := by have := EBITS_lt S; omega
  have hq : q = decodeFloatBlock ops zfp (streamRseek r o) out := rfl
  clear_value q
  rw [decodeFloatBlock, streamReadBit_rseek] at hq
  dsimp only at hq
  have hstored : storedExponent ops zfp fblock =
      if precision (ops.exponentBlock (blockOf _ fblock)) zfp.maxprec zfp.minexp d ≠ 0 then
        (ops.exponentBlock (blockOf _ fblock) + EBIAS S).toNat else 0 := rfl
  obtain ⟨hlt, hcast⟩ := exponent_lt ops (blockOf _ fblock)
  rw [floatBlockCode] at h ⊢
  generalize ops.exponentBlock (blockOf _ fblock) = emax at *
  generalize storedExponent ops zfp fblock = e at *
  by_cases he : e ≠ 0
  · have hemax : (e : ℤ) - EBIAS S = emax := by
      split_ifs at hstored <;> omega
    have hlt' : e < 2 ^ EBITS S := by
      split_ifs at hstored <;> omega
    have hprec := (precision_le emax zfp.maxprec zfp.minexp d).trans zfp.maxprec_le
    rw [if_pos he, lowBits_odd e hbits, List.cons_append, Reads, reads_append, length_lowBits] at h
    obtain ⟨hflag, hexp, hcode⟩ := h
    have hfield := streamReadBits_field hbits.le hlt' hexp
    have hev := toNat_ofNat_of_lt hlt' hbits.le
    rw [if_pos hflag, hfield] at hq
    rw [if_pos he, List.length_append, length_lowBits]
    generalize BitVec.ofNat 64 e = v at hq hev
    dsimp only at hq
    rw [hev, hemax] at hq
    obtain ⟨hcount, hend⟩ := decodeIntBlock_rseek hd hprec _ (fun _ => 0) hcode
    generalize decodeIntBlock S d (streamRseek r (o + 1 + EBITS S))
      (zfp.minbits - min (1 + EBITS S) zfp.minbits) (uintSub zfp.maxbits (1 + EBITS S))
      (precision emax zfp.maxprec zfp.minexp d) (fun _ => 0) = c at hq hcount hend
    generalize intBlockCode S d (zfp.minbits - min (1 + EBITS S) zfp.minbits)
      (uintSub zfp.maxbits (1 + EBITS S)) (precision emax zfp.maxprec zfp.minexp d) _ = l at *
    obtain ⟨n, t, g⟩ := c
    obtain rfl : n = l.length := hcount
    obtain rfl : t = streamRseek r (o + 1 + EBITS S + l.length) := hend
    rw [hq]
    refine ⟨rfl, congrArg (streamRseek r) ?_⟩
    omega
  · rw [if_neg he] at h ⊢
    have hflag := (reads_padded h).1
    have hmin := readMinbits_rseek r o zfp.minbits [false]
    generalize padded zfp.minbits [false] = l at hmin ⊢
    rw [if_neg (by rw [hflag]; decide)] at hq
    rw [hq]
    exact ⟨congrArg Prod.fst hmin, congrArg Prod.snd hmin⟩

theorem revReinterpret_revReinterpret (x : BitVec S.width) :
    revReinterpret S (revReinterpret S x) = x := by
  have hmsb : (TCMASK S).msb = false := by cases S <;> rfl
  rw [revReinterpret, revReinterpret]
  by_cases hx : x.msb
  · have hx' : (x ^^^ TCMASK S).msb = true := by rw [BitVec.msb_xor, hx, hmsb]; rfl
    rw [if_pos hx, if_pos hx', BitVec.xor_assoc, BitVec.xor_self, BitVec.xor_zero]
  · rw [if_neg hx, if_neg hx]

/-- The branch of the encoder for a block of zeros. -/
theorem isZeroBlock_iff (fblock : ℕ → BitVec S.width) :
    let emax := ops.exponentBlock (blockOf _ fblock)
    isZeroBlock ops fblock = true ↔
      revFwdReversible ops (revFwdCast ops (blockOf _ fblock) emax) (blockOf _ fblock) emax = true ∧
        (emax + EBIAS S).toNat = 0 := by
  intro emax
  have hcast : ((emax + EBIAS S).toNat : ℤ) = emax + EBIAS S :=
    (exponent_lt ops (blockOf _ fblock)).2
  rw [isZeroBlock, revFwdReversible, revInvCast, revFwdCast, decide_eq_true_eq, decide_eq_true_eq]
  show emax = _ ∧ _ ↔ _
  by_cases he : emax = -EBIAS S
  · rw [if_neg (not_not.mpr he)]
    exact ⟨fun h => ⟨h.2, by omega⟩, fun h => ⟨he, h.1⟩⟩
  · exact ⟨fun h => absurd h.1 he, fun h => absurd h.2 (by omega)⟩

theorem putBlock_of_lt {α : Type*} {n : ℕ} (p : ℕ → α) (b : Fin n → α) {i : ℕ} (h : i < n) :
    putBlock p b i = b ⟨i, h⟩ := dif_pos h

theorem revDecodeFloatBlock_rseek {r : Bitstream T} {o : ℕ} (hd : 1 ≤ d) (hd' : d ≤ 4)
    (fblock out : ℕ → BitVec S.width)
    (h : Reads (memBit r.mem) o (revFloatBlockCode ops zfp fblock))
    (hzero : isZeroBlock ops fblock = true → zfp.minbits ≤ 1) :
    let q := revDecodeFloatBlock ops zfp (streamRseek r o) out
    q.1 = (revFloatBlockCode ops zfp fblock).length ∧
      q.2.1 = streamRseek r (o + (revFloatBlockCode ops zfp fblock).length) ∧
      (S.width ≤ zfp.maxprec →
        (S.width + 1) * 4 ^ d - 1 ≤ uintSub (uintSub zfp.maxbits 2) (PBITS S) →
        (S.width + 1) * 4 ^ d - 1 ≤ uintSub (uintSub zfp.maxbits (2 + EBITS S)) (PBITS S) →
        ∀ i < 4 ^ d, q.2.2 i = fblock i) := by
  intro q
  have hbits : EBITS S ≤ 64 := by have := EBITS_lt S; omega
  have hq : q = revDecodeFloatBlock ops zfp (streamRseek r o) out := rfl
  clear_value q
  rw [revDecodeFloatBlock, streamReadBit_rseek] at hq
  dsimp only at hq
  have hz := isZeroBlock_iff ops fblock
  have hrevEq : ∀ i e, revFwdReversible ops i (blockOf _ fblock) e = true →
      blockOf _ fblock = revInvCast ops i e := fun i e h => of_decide_eq_true h
  obtain ⟨hlt, hcast⟩ := exponent_lt ops (blockOf _ fblock)
  rw [revFloatBlockCode] at h ⊢
  dsimp only at h hz ⊢
  generalize ops.exponentBlock (blockOf _ fblock) = emax at *
  generalize revFwdCast ops (blockOf _ fblock) emax = iblock at *
  by_cases hrev : revFwdReversible ops iblock (blockOf _ fblock) emax = true
  · rw [if_pos hrev] at h ⊢
    by_cases he : (emax + EBIAS S).toNat ≠ 0
    · rw [if_pos he, show lowBits (1 : BitVec 64) 2 = [true, false] from rfl, List.append_assoc,
        List.cons_append, List.cons_append, List.nil_append, Reads, Reads, reads_append,
        length_lowBits] at h
      obtain ⟨hflag, hflag', hexp, hcode⟩ := h
      rw [if_pos he, List.length_append, List.length_append, length_lowBits, length_lowBits]
      have hfield := streamReadBits_field hbits hlt hexp
      have hev := toNat_ofNat_of_lt hlt hbits
      rw [if_pos hflag, streamReadBit_rseek] at hq
      dsimp only at hq
      rw [if_neg (by rw [hflag']; decide), hfield] at hq
      generalize BitVec.ofNat 64 (emax + EBIAS S).toNat = v at hq hev
      dsimp only at hq
      rw [hev, hcast, add_sub_cancel_right] at hq
      have hdecode := revDecodeIntBlock_rseek hd hd' _ (fun _ => 0) hcode
      generalize revDecodeIntBlock S d (streamRseek r (o + 1 + 1 + EBITS S))
        (zfp.minbits - min (2 + EBITS S) zfp.minbits) (uintSub zfp.maxbits (2 + EBITS S))
        (fun _ => 0) = c at hq hdecode
      generalize revIntBlockCode S d (zfp.minbits - min (2 + EBITS S) zfp.minbits)
        (uintSub zfp.maxbits (2 + EBITS S)) zfp.maxprec _ = l at *
      obtain ⟨n, t, g⟩ := c
      obtain ⟨hn, ht, hvalues⟩ := hdecode
      obtain rfl : n = l.length := hn
      obtain rfl : t = streamRseek r (o + 1 + 1 + EBITS S + l.length) := ht
      rw [hq]
      refine ⟨rfl, congrArg (streamRseek r) (by omega), fun hprec _ hmax i hi => ?_⟩
      have hg : blockOf (4 ^ d) g = iblock := by
        funext j
        exact (hvalues hprec hmax j j.2).trans (putBlock_of_lt _ iblock j.2)
      show putBlock out (revInvCast ops (blockOf _ g) emax) i = fblock i
      rw [hg, ← hrevEq iblock emax hrev]
      exact putBlock_of_lt out _ hi
    · have hisZero := hz.mpr ⟨hrev, not_not.mp he⟩
      have hmin := readMinbits_rseek r o zfp.minbits [false]
      have hpad : padded zfp.minbits [false] = [false] := by
        have hle := hzero hisZero
        rw [padded, List.length_singleton, show zfp.minbits - 1 = 0 by omega]
        rfl
      rw [if_neg he] at h ⊢
      rw [hpad, List.length_singleton] at hmin
      rw [if_neg (by rw [h.1]; decide), hmin] at hq
      rw [hq]
      refine ⟨rfl, rfl, fun _ _ _ i hi => ?_⟩
      rw [isZeroBlock, decide_eq_true_eq] at hisZero
      show putBlock out (fun _ : Fin (4 ^ d) => 0) i = fblock i
      rw [putBlock_of_lt out _ hi]
      exact (congrFun hisZero.2 ⟨i, hi⟩).symm
  · rw [if_neg hrev, show lowBits (3 : BitVec 64) 2 = [true, true] from rfl, List.cons_append,
      List.cons_append, List.nil_append, Reads, Reads] at h
    obtain ⟨hflag, hflag', hcode⟩ := h
    rw [if_neg hrev, List.length_append, length_lowBits]
    rw [if_pos hflag, streamReadBit_rseek] at hq
    dsimp only at hq
    rw [if_pos hflag'] at hq
    have hdecode := revDecodeIntBlock_rseek hd hd' _ (fun _ => 0) hcode
    generalize revDecodeIntBlock S d (streamRseek r (o + 1 + 1))
      (zfp.minbits - min 2 zfp.minbits) (uintSub zfp.maxbits 2) (fun _ => 0) = c at hq hdecode
    generalize revIntBlockCode S d (zfp.minbits - min 2 zfp.minbits) (uintSub zfp.maxbits 2)
      zfp.maxprec _ = l at *
    obtain ⟨n, t, g⟩ := c
    obtain ⟨hn, ht, hvalues⟩ := hdecode
    obtain rfl : n = l.length := hn
    obtain rfl : t = streamRseek r (o + 1 + 1 + l.length) := ht
    rw [hq]
    refine ⟨rfl, congrArg (streamRseek r) (by omega), fun hprec hmax _ i hi => ?_⟩
    show putBlock out (fun i : Fin (4 ^ d) => revReinterpret S (g i)) i = fblock i
    rw [putBlock_of_lt out _ hi]
    exact (congrArg (revReinterpret S) (hvalues hprec hmax i hi)).trans
      (revReinterpret_revReinterpret (fblock i))

end

/-! ## Lengths -/

theorem length_intBlockCode (minbits maxbits maxprec : ℕ) (iblock : ℕ → BitVec S.width) :
    minbits ≤ (intBlockCode S d minbits maxbits maxprec iblock).length ∧
      (intBlockCode S d minbits maxbits maxprec iblock).length ≤ max maxbits minbits := by
  rw [intBlockCode, length_padded, List.length_take]
  omega

theorem length_revIntBlockCode (minbits maxbits maxprec : ℕ) (iblock : ℕ → BitVec S.width) :
    minbits ≤ (revIntBlockCode S d minbits maxbits maxprec iblock).length ∧
      PBITS S ≤ (revIntBlockCode S d minbits maxbits maxprec iblock).length ∧
      (revIntBlockCode S d minbits maxbits maxprec iblock).length ≤
        max (PBITS S + uintSub maxbits (PBITS S)) minbits := by
  rw [revIntBlockCode, length_padded, List.length_append, length_lowBits, List.length_take]
  omega

section

variable (ops : FloatOps S (4 ^ d)) (zfp : Params)

/-- The bits that a coder writes before the coefficients, at most. -/
def sideBits (S : Scalar) (reversible : Bool) : ℕ :=
  if S.isFloat then
    if reversible then 2 + EBITS S + PBITS S else 1 + EBITS S
  else
    if reversible then PBITS S else 0

/-- The block that the encoder does not pad. -/
def unpadded (block : ℕ → BitVec S.width) : Prop :=
  S.isFloat = true ∧ REVERSIBLE zfp = true ∧ isZeroBlock ops block = true ∧ 1 < zfp.minbits

theorem length_floatBlockCode (hside : 1 + EBITS S ≤ zfp.maxbits) (fblock : ℕ → BitVec S.width) :
    zfp.minbits ≤ (floatBlockCode ops zfp fblock).length ∧
      (floatBlockCode ops zfp fblock).length ≤ zfp.maxbits := by
  have hmin := zfp.minbits_le
  rw [floatBlockCode]
  by_cases he : storedExponent ops zfp fblock ≠ 0
  · rw [if_pos he, List.length_append, length_lowBits, uintSub_eq zfp.maxbits_lt hside]
    have hlen := length_intBlockCode (S := S) (d := d) (zfp.minbits - min (1 + EBITS S) zfp.minbits)
      (zfp.maxbits - (1 + EBITS S)) (precision (ops.exponentBlock (blockOf _ fblock)) zfp.maxprec
        zfp.minexp d) (putBlock (fun _ => 0) (ops.fwdCast (blockOf _ fblock)
        (ops.exponentBlock (blockOf _ fblock))))
    omega
  · rw [if_neg he, length_padded, List.length_singleton]
    omega

theorem revFloatBlockCode_of_zero {fblock : ℕ → BitVec S.width}
    (h : isZeroBlock ops fblock = true) : revFloatBlockCode ops zfp fblock = [false] := by
  obtain ⟨hrev, he⟩ := (isZeroBlock_iff ops fblock).mp h
  rw [revFloatBlockCode, if_pos hrev, if_neg (not_not.mpr he)]

/-- The bits before the integer coder, and the block of integers. -/
def revHeader (fblock : ℕ → BitVec S.width) : List Bool × (ℕ → BitVec S.width) :=
  let emax := ops.exponentBlock (blockOf _ fblock)
  let iblock := revFwdCast ops (blockOf _ fblock) emax
  if revFwdReversible ops iblock (blockOf _ fblock) emax then
    (lowBits (1 : BitVec 64) 2 ++ lowBits (BitVec.ofNat 64 (emax + EBIAS S).toNat) (EBITS S),
      putBlock (fun _ => 0) iblock)
  else (lowBits (3 : BitVec 64) 2, fun i => revReinterpret S (fblock i))

theorem length_revHeader (fblock : ℕ → BitVec S.width) :
    2 ≤ (revHeader ops fblock).1.length ∧ (revHeader ops fblock).1.length ≤ 2 + EBITS S := by
  rw [revHeader]
  split
  · rw [List.length_append, length_lowBits, length_lowBits]
    omega
  · rw [length_lowBits]
    omega

theorem revFloatBlockCode_of_ne_zero {fblock : ℕ → BitVec S.width}
    (h : isZeroBlock ops fblock = false) :
    revFloatBlockCode ops zfp fblock = (revHeader ops fblock).1 ++
      revIntBlockCode S d (zfp.minbits - min (revHeader ops fblock).1.length zfp.minbits)
        (uintSub zfp.maxbits (revHeader ops fblock).1.length) zfp.maxprec
        (revHeader ops fblock).2 := by
  have hz := mt (isZeroBlock_iff ops fblock).mpr (by rw [h]; decide)
  rw [revFloatBlockCode, revHeader]
  dsimp only at hz ⊢
  by_cases hrev : revFwdReversible ops (revFwdCast ops (blockOf _ fblock)
      (ops.exponentBlock (blockOf _ fblock))) (blockOf _ fblock)
      (ops.exponentBlock (blockOf _ fblock)) = true
  · rw [if_pos hrev, if_pos hrev, if_pos fun he => hz ⟨hrev, he⟩, List.length_append, length_lowBits,
      length_lowBits]
  · rw [if_neg hrev, if_neg hrev, length_lowBits]

def revSideBits (block : ℕ → BitVec S.width) : ℕ :=
  if S.isFloat then
    if isZeroBlock ops block then 1 else (revHeader ops block).1.length + PBITS S
  else PBITS S

theorem revSideBits_le (hrev : REVERSIBLE zfp = true) (block : ℕ → BitVec S.width) :
    revSideBits ops block ≤ sideBits S (REVERSIBLE zfp) := by
  have hlen := length_revHeader ops block
  rw [revSideBits, sideBits, if_pos hrev, if_pos hrev]
  split_ifs <;> omega

theorem revSideBits_le_length (hrev : REVERSIBLE zfp = true) (block : ℕ → BitVec S.width) :
    revSideBits ops block ≤ (blockCode ops zfp block).length := by
  rw [revSideBits, blockCode, if_pos hrev, if_pos hrev]
  split
  · cases hz : isZeroBlock ops block
    · have hlen := length_revIntBlockCode (d := d)
        (zfp.minbits - min (revHeader ops block).1.length zfp.minbits)
        (uintSub zfp.maxbits (revHeader ops block).1.length) zfp.maxprec (revHeader ops block).2
      rw [revFloatBlockCode_of_ne_zero ops zfp hz, List.length_append, if_neg (by decide)]
      omega
    · rw [revFloatBlockCode_of_zero ops zfp hz]
      exact le_rfl
  · exact (length_revIntBlockCode _ _ _ block).2.1

/-- The length of a code, when the bits before the coefficients fit. -/
theorem length_blockCode_le (hlossy : REVERSIBLE zfp = false → sideBits S false ≤ zfp.maxbits)
    (block : ℕ → BitVec S.width)
    (hrev : REVERSIBLE zfp = true → revSideBits ops block ≤ zfp.maxbits) :
    (blockCode ops zfp block).length ≤ zfp.maxbits := by
  have hmin := zfp.minbits_le
  have hlt := zfp.maxbits_lt
  rw [blockCode]
  by_cases hS : S.isFloat = true
  · rw [if_pos hS]
    cases hmode : REVERSIBLE zfp
    · have hside := hlossy hmode
      rw [sideBits, if_pos hS] at hside
      exact (length_floatBlockCode ops zfp hside block).2
    · have hside := hrev hmode
      rw [revSideBits, if_pos hS] at hside
      rw [if_pos rfl]
      cases hz : isZeroBlock ops block
      · rw [hz, if_neg (by decide)] at hside
        have hlen := length_revIntBlockCode (d := d)
          (zfp.minbits - min (revHeader ops block).1.length zfp.minbits)
          (uintSub zfp.maxbits (revHeader ops block).1.length) zfp.maxprec (revHeader ops block).2
        rw [revFloatBlockCode_of_ne_zero ops zfp hz, List.length_append]
        rw [uintSub_eq hlt (by omega)] at hlen ⊢
        rw [uintSub_eq (by omega) (by omega)] at hlen
        omega
      · rw [hz, if_pos rfl] at hside
        rwa [revFloatBlockCode_of_zero ops zfp hz]
  · rw [if_neg hS]
    cases hmode : REVERSIBLE zfp
    · have hlen := length_intBlockCode (S := S) (d := d) zfp.minbits zfp.maxbits zfp.maxprec block
      exact hlen.2.trans (max_le le_rfl hmin)
    · have hside := hrev hmode
      rw [revSideBits, if_neg hS] at hside
      have hlen := (length_revIntBlockCode (d := d) zfp.minbits zfp.maxbits zfp.maxprec block).2.2
      rw [uintSub_eq hlt hside, Nat.add_sub_cancel' hside, max_eq_left hmin] at hlen
      exact hlen

theorem minbits_le_length {block : ℕ → BitVec S.width} (h : ¬ unpadded ops zfp block) :
    zfp.minbits ≤ (blockCode ops zfp block).length := by
  rw [blockCode]
  by_cases hS : S.isFloat = true
  · rw [if_pos hS]
    cases hmode : REVERSIBLE zfp
    · rw [if_neg (by decide), floatBlockCode]
      split
      · have hlen := length_intBlockCode (S := S) (d := d)
          (zfp.minbits - min (1 + EBITS S) zfp.minbits) (uintSub zfp.maxbits (1 + EBITS S))
          (precision (ops.exponentBlock (blockOf _ block)) zfp.maxprec zfp.minexp d)
          (putBlock (fun _ => 0) (ops.fwdCast (blockOf _ block) (ops.exponentBlock (blockOf _ block))))
        rw [List.length_append, length_lowBits]
        omega
      · rw [length_padded]
        exact le_max_right _ _
    · rw [if_pos rfl]
      cases hz : isZeroBlock ops block
      · have hlen := length_revIntBlockCode (d := d)
          (zfp.minbits - min (revHeader ops block).1.length zfp.minbits)
          (uintSub zfp.maxbits (revHeader ops block).1.length) zfp.maxprec (revHeader ops block).2
        rw [revFloatBlockCode_of_ne_zero ops zfp hz, List.length_append]
        omega
      · rw [revFloatBlockCode_of_zero ops zfp hz, List.length_singleton]
        by_contra hlt
        exact h ⟨hS, hmode, hz, by omega⟩
  · rw [if_neg hS]
    split
    · exact (length_revIntBlockCode _ _ _ block).1
    · exact (length_intBlockCode _ _ _ block).1

/-- At a fixed rate every padded block takes `maxbits` bits. -/
theorem length_blockCode_of_fixed (hrate : zfp.minbits = zfp.maxbits)
    (hside : sideBits S (REVERSIBLE zfp) ≤ zfp.maxbits) {block : ℕ → BitVec S.width}
    (h : ¬ unpadded ops zfp block) : (blockCode ops zfp block).length = zfp.maxbits := by
  have hmin := minbits_le_length ops zfp h
  have hmax := length_blockCode_le ops zfp (fun hlossy => by rwa [hlossy] at hside) block
    fun hrev => (revSideBits_le ops zfp hrev block).trans hside
  omega

theorem length_of_unpadded {block : ℕ → BitVec S.width} (h : unpadded ops zfp block) :
    (blockCode ops zfp block).length = 1 := by
  rw [blockCode, if_pos h.1, if_pos h.2.1, revFloatBlockCode_of_zero ops zfp h.2.2.1]
  rfl

/-! ## Decoders -/

theorem zfpDecodeBlock_rseek {r : Bitstream T} {o : ℕ} (hd : 1 ≤ d) (hd' : d ≤ 4)
    {block : ℕ → BitVec S.width} (out : ℕ → BitVec S.width)
    (h : Reads (memBit r.mem) o (blockCode ops zfp block)) (hpad : ¬ unpadded ops zfp block) :
    let q := zfpDecodeBlock ops zfp (streamRseek r o) out
    q.1 = (blockCode ops zfp block).length ∧
      q.2.1 = streamRseek r (o + (blockCode ops zfp block).length) := by
  intro q
  have hq : q = zfpDecodeBlock ops zfp (streamRseek r o) out := rfl
  clear_value q
  rw [zfpDecodeBlock] at hq
  rw [blockCode] at h ⊢
  by_cases hS : S.isFloat = true
  · rw [if_pos hS] at hq h ⊢
    cases hmode : REVERSIBLE zfp
    · rw [hmode, if_neg (by decide)] at hq h
      rw [if_neg (by decide), hq]
      exact decodeFloatBlock_rseek ops zfp hd' block out h
    · rw [hmode, if_pos rfl] at hq h
      rw [if_pos rfl, hq]
      have hdecode := revDecodeFloatBlock_rseek ops zfp hd hd' block out h fun hz => by
        by_contra hlt
        exact hpad ⟨hS, hmode, hz, by omega⟩
      exact ⟨hdecode.1, hdecode.2.1⟩
  · rw [if_neg hS] at hq h ⊢
    cases hmode : REVERSIBLE zfp
    · rw [hmode, if_neg (by decide)] at hq h
      rw [if_neg (by decide), hq]
      exact decodeIntBlock_rseek hd' zfp.maxprec_le block out h
    · rw [hmode, if_pos rfl] at hq h
      rw [if_pos rfl, hq]
      have hdecode := revDecodeIntBlock_rseek hd hd' block out h
      exact ⟨hdecode.1, hdecode.2.1⟩

/-- The stream that a decoder sees holds the code of the block, whatever is written after it. -/
theorem reads_zfpEncodeBlock {s : Bitstream T} (hs : s.WF) (hd : d ≤ 4)
    (block : ℕ → BitVec S.width) (rest : List Bool) :
    Reads (memBit (streamFlush ((zfpEncodeBlock ops zfp s block).2.append rest)).2.mem)
      (streamWtell s) (blockCode ops zfp block) := by
  have h := reads_flush hs (blockCode ops zfp block ++ rest)
  rw [append_append, reads_append] at h
  rw [zfpEncodeBlock_eq ops zfp hs hd]
  exact h.1

/-- Encoder and decoder of a block agree on its length, which lies between `minbits` and
`maxbits`, except for the block of zeros that the reversible encoder does not pad. -/
theorem block_lockstep (hd : 1 ≤ d) (hd' : d ≤ 4)
    (hside : sideBits S (REVERSIBLE zfp) ≤ zfp.maxbits) {s : Bitstream T} (hs : s.WF)
    (block out : ℕ → BitVec S.width) (rest : List Bool) :
    let c := zfpEncodeBlock ops zfp s block
    let r := (streamFlush (c.2.append rest)).2
    let q := zfpDecodeBlock ops zfp (streamRseek r (streamWtell s)) out
    (streamWtell c.2 = streamWtell s + c.1 ∧ zfp.minbits ≤ c.1 ∧ c.1 ≤ zfp.maxbits ∧
      q.1 = c.1 ∧ q.2.1 = streamRseek r (streamWtell s + c.1)) ↔ ¬ unpadded ops zfp block := by
  intro c r q
  have hc : c = _ := zfpEncodeBlock_eq ops zfp hs hd' block
  have hreads := reads_zfpEncodeBlock ops zfp hs hd' block rest
  constructor
  · rintro ⟨-, hmin, -⟩ hun
    rw [hc, length_of_unpadded ops zfp hun] at hmin
    exact absurd hun.2.2.2 (by omega)
  · intro hpad
    have hdecode := zfpDecodeBlock_rseek ops zfp hd hd' out hreads hpad
    have hlen : c.1 = (blockCode ops zfp block).length := congrArg Prod.fst hc
    rw [← hlen] at hdecode
    refine ⟨?_, ?_, ?_, hdecode.1, hdecode.2⟩
    · rw [hlen, hc, streamWtell_append hs]
    · rw [hlen]
      exact minbits_le_length ops zfp hpad
    · rw [hlen]
      refine length_blockCode_le ops zfp (fun hmode => ?_) block fun hmode => ?_
      · rwa [hmode] at hside
      · exact (revSideBits_le ops zfp hmode block).trans hside

end

/-! ## A block of ones -/

/-- The conversions of a block of single-precision ones. -/
def onesOps : FloatOps .float (4 ^ 1) where
  exponentBlock _ := 1
  fwdCast _ _ _ := 0x20000000
  invCast _ _ _ := 0x3f800000
  exponentBlock_mem _ := by decide

def ones (_ : ℕ) : BitVec Scalar.float.width := 0x3f800000

theorem block_lockstep_ones :
    let zfp : Params := ⟨10, 100, 64, -1075, by decide, by decide, by decide, by decide⟩
    let s := streamOpen (T := .uint64) fun _ => 0
    let c := zfpEncodeBlock onesOps zfp s ones
    let r := (streamFlush (c.2.append [true])).2
    (zfpDecodeBlock onesOps zfp (streamRseek r (streamWtell s)) fun _ => 0).1 = c.1 :=
  ((block_lockstep onesOps ⟨10, 100, 64, -1075, by decide, by decide, by decide, by decide⟩
    (by decide) (by decide) (by decide) (streamOpen_wf _) ones (fun _ => 0) [true]).mpr
    fun h => absurd h.2.2.1 (by decide)).2.2.2.1

/-- The single bit of a block of zeros is not padded, but the decoder skips the padding. -/
theorem block_lockstep_zeros :
    let ops : FloatOps .float (4 ^ 1) :=
      ⟨fun _ => -127, fun _ _ _ => 0, fun _ _ _ => 0, fun _ => by decide⟩
    let zfp : Params := ⟨10, 100, 64, -1075, by decide, by decide, by decide, by decide⟩
    let s := streamOpen (T := .uint64) fun _ => 0
    let c := zfpEncodeBlock ops zfp s fun _ => 0
    let r := (streamFlush c.2).2
    let q := zfpDecodeBlock ops zfp (streamRseek r (streamWtell s)) fun _ => 0
    zfpStreamSetParams 10 100 64 (-1075) = some zfp ∧ REVERSIBLE zfp = true ∧
      sideBits .float true ≤ zfp.maxbits ∧ c.1 = 1 ∧ q.1 = 10 := by
  refine ⟨rfl, rfl, by decide, ?_, ?_⟩
  · rfl
  · decide +kernel

section

variable (ops : FloatOps S (4 ^ d)) (zfp : Params)

/-- The parameters of the reversible mode leave room for every bit plane of every block. -/
theorem reversible_budget (S : Scalar) {d : ℕ} (hd : d ≤ 4) :
    (S.width + 1) * 4 ^ d - 1 ≤ 16658 - (2 + EBITS S) - PBITS S := by
  have h4 : 4 ^ d ≤ 4 ^ 4 := Nat.pow_le_pow_right (by decide) hd
  cases S <;> simp only [Scalar.width, EBITS, PBITS] <;> omega

/-- What is left of `maxbits` behind the side information of a block holds all its planes. -/
theorem reversible_maxbits (S : Scalar) {d : ℕ} (hd : d ≤ 4) {bits : ℕ} (h : bits ≤ 2 + EBITS S) :
    (S.width + 1) * 4 ^ d - 1 ≤ uintSub (uintSub 16658 bits) (PBITS S) := by
  have hbudget := reversible_budget S hd
  have hbits := EBITS_lt S
  have hP : PBITS S ≤ 6 := by cases S <;> decide
  have houter : uintSub 16658 bits = 16658 - bits := uintSub_eq (by decide) (by omega)
  rw [houter, uintSub_eq (by omega) (by omega)]
  omega

section

variable {r : Bitstream T} {o : ℕ} (hd : 1 ≤ d) (hd' : d ≤ 4) {block : ℕ → BitVec S.width}
  (out : ℕ → BitVec S.width)
  (h : Reads (memBit r.mem) o (blockCode ops zfpStreamSetReversible block))

include hd hd' h

theorem zfpDecodeBlock_reversible_float (hS : S.isFloat = true) :
    let q := zfpDecodeBlock ops zfpStreamSetReversible (streamRseek r o) out
    q.1 = (blockCode ops zfpStreamSetReversible block).length ∧
      q.2.1 = streamRseek r (o + (blockCode ops zfpStreamSetReversible block).length) ∧
      ∀ i < 4 ^ d, q.2.2 i = block i := by
  intro q
  have hq : q = zfpDecodeBlock ops zfpStreamSetReversible (streamRseek r o) out := rfl
  have hmode : REVERSIBLE zfpStreamSetReversible = true := rfl
  clear_value q
  rw [zfpDecodeBlock, if_pos hS, if_pos hmode] at hq
  rw [blockCode, if_pos hS, if_pos hmode] at h ⊢
  obtain ⟨hcount, hend, hvalues⟩ := revDecodeFloatBlock_rseek ops zfpStreamSetReversible hd hd'
    block out h fun _ => le_rfl
  rw [← hq] at hcount hend hvalues
  exact ⟨hcount, hend, hvalues S.width_le (reversible_maxbits S hd' (by omega))
    (reversible_maxbits S hd' le_rfl)⟩

theorem zfpDecodeBlock_reversible_int (hS : ¬ S.isFloat = true) :
    let q := zfpDecodeBlock ops zfpStreamSetReversible (streamRseek r o) out
    q.1 = (blockCode ops zfpStreamSetReversible block).length ∧
      q.2.1 = streamRseek r (o + (blockCode ops zfpStreamSetReversible block).length) ∧
      ∀ i < 4 ^ d, q.2.2 i = block i := by
  intro q
  have hq : q = zfpDecodeBlock ops zfpStreamSetReversible (streamRseek r o) out := rfl
  have hmode : REVERSIBLE zfpStreamSetReversible = true := rfl
  clear_value q
  rw [zfpDecodeBlock, if_neg hS, if_pos hmode] at hq
  rw [blockCode, if_neg hS, if_pos hmode] at h ⊢
  obtain ⟨hcount, hend, hvalues⟩ := revDecodeIntBlock_rseek hd hd' block out h
  rw [← hq] at hcount hend hvalues
  have hbudget := reversible_budget S hd'
  have hP : PBITS S ≤ 6 := by cases S <;> decide
  have hmax : uintSub zfpStreamSetReversible.maxbits (PBITS S) = 16658 - PBITS S :=
    uintSub_eq (by decide) (show PBITS S ≤ 16658 by omega)
  exact ⟨hcount, hend, hvalues S.width_le (by omega)⟩

/-- The reversible mode restores the bit patterns of a block. -/
theorem zfpDecodeBlock_reversible :
    let q := zfpDecodeBlock ops zfpStreamSetReversible (streamRseek r o) out
    q.1 = (blockCode ops zfpStreamSetReversible block).length ∧
      q.2.1 = streamRseek r (o + (blockCode ops zfpStreamSetReversible block).length) ∧
      ∀ i < 4 ^ d, q.2.2 i = block i := by
  by_cases hS : S.isFloat = true
  · exact zfpDecodeBlock_reversible_float ops hd hd' out h hS
  · exact zfpDecodeBlock_reversible_int ops hd hd' out h hS

end

/-- The reversible mode restores the bit patterns of a block of floating-point numbers,
whatever the conversions to and from integers compute. -/
theorem reversible_float_round_trip (hS : S.isFloat = true) (hd : 1 ≤ d) (hd' : d ≤ 4)
    {s : Bitstream T} (hs : s.WF) (block out : ℕ → BitVec S.width) (rest : List Bool) :
    let zfp := zfpStreamSetReversible
    let c := zfpEncodeBlock ops zfp s block
    let r := (streamFlush (c.2.append rest)).2
    let q := zfpDecodeBlock ops zfp (streamRseek r (streamWtell s)) out
    (∀ i < 4 ^ d, q.2.2 i = block i) ∧ q.1 = c.1 ∧
      q.2.1 = streamRseek r (streamWtell s + c.1) ∧ streamWtell c.2 = streamWtell s + c.1 := by
  intro zfp c r q
  have hc : c = _ := zfpEncodeBlock_eq ops zfp hs hd' block
  have hlen : c.1 = (blockCode ops zfp block).length := congrArg Prod.fst hc
  have hreads := reads_zfpEncodeBlock ops zfp hs hd' block rest
  obtain ⟨hcount, hend, hvalues⟩ := zfpDecodeBlock_reversible_float ops hd hd' out hreads hS
  rw [← hlen] at hcount hend
  refine ⟨hvalues, hcount, hend, ?_⟩
  rw [hc, streamWtell_append hs]

end

theorem reversible_float_round_trip_ones :
    let s := streamOpen (T := .uint16) fun _ => 0
    let c := zfpEncodeBlock onesOps zfpStreamSetReversible s ones
    let r := (streamFlush (c.2.append [true, false])).2
    (zfpDecodeBlock onesOps zfpStreamSetReversible (streamRseek r (streamWtell s))
      fun _ => 0).1 = c.1 :=
  (reversible_float_round_trip onesOps rfl (by decide) (by decide) (streamOpen_wf _) ones
    (fun _ => 0) [true, false]).2.1

/-! ## The limit on the length of a block -/

section

variable (ops : FloatOps S (4 ^ d)) (zfp : Params)

/-- The subtractions `maxbits - bits` that the reversible coders compute for a block. -/
def revBudgets (block : ℕ → BitVec S.width) : List (ℕ × ℕ) :=
  if S.isFloat then
    let emax := ops.exponentBlock (blockOf _ block)
    let inner := fun bits => [(zfp.maxbits, bits), (uintSub zfp.maxbits bits, PBITS S)]
    if revFwdReversible ops (revFwdCast ops (blockOf _ block) emax) (blockOf _ block) emax then
      if (emax + EBIAS S).toNat ≠ 0 then inner (2 + EBITS S) else []
    else inner 2
  else [(zfp.maxbits, PBITS S)]

theorem revBudgets_of_le {block : ℕ → BitVec S.width}
    (h : revSideBits ops block ≤ zfp.maxbits) : ∀ p ∈ revBudgets ops zfp block, p.2 ≤ p.1 := by
  have hlt := zfp.maxbits_lt
  have hz := isZeroBlock_iff ops block
  rw [revSideBits, revHeader] at h
  rw [revBudgets]
  dsimp only at h hz ⊢
  by_cases hS : S.isFloat = true
  · rw [if_pos hS] at h ⊢
    by_cases hrev : revFwdReversible ops (revFwdCast ops (blockOf _ block)
        (ops.exponentBlock (blockOf _ block))) (blockOf _ block)
        (ops.exponentBlock (blockOf _ block)) = true
    · rw [if_pos hrev] at h ⊢
      by_cases he : (ops.exponentBlock (blockOf _ block) + EBIAS S).toNat ≠ 0
      · have hne : ¬ isZeroBlock ops block = true := fun hzero => he (hz.mp hzero).2
        rw [if_neg hne, List.length_append, length_lowBits, length_lowBits] at h
        rw [if_pos he]
        intro p hp
        obtain rfl | rfl : p = (zfp.maxbits, 2 + EBITS S) ∨
            p = (uintSub zfp.maxbits (2 + EBITS S), PBITS S) := by simpa using hp
        · exact (Nat.le_add_right _ _).trans h
        · show PBITS S ≤ uintSub zfp.maxbits (2 + EBITS S)
          rw [uintSub_eq hlt (by omega)]
          omega
      · rw [if_neg he]
        exact fun p hp => absurd hp (List.not_mem_nil)
    · have hne : ¬ isZeroBlock ops block = true := fun hzero => hrev (hz.mp hzero).1
      rw [if_neg hrev, if_neg hne, length_lowBits] at h
      rw [if_neg hrev]
      intro p hp
      obtain rfl | rfl : p = (zfp.maxbits, 2) ∨ p = (uintSub zfp.maxbits 2, PBITS S) := by
        simpa using hp
      · exact (Nat.le_add_right _ _).trans h
      · show PBITS S ≤ uintSub zfp.maxbits 2
        rw [uintSub_eq hlt (by omega)]
        omega
  · rw [if_neg hS] at h ⊢
    intro p hp
    obtain rfl := List.mem_singleton.mp hp
    exact h

/-- A reversible block respects `maxbits`, with no budget wrapping around, exactly when the
bits before its coefficients fit. -/
theorem reversible_maxbits_iff (hrev : REVERSIBLE zfp = true) (hd : d ≤ 4) {s : Bitstream T}
    (hs : s.WF) (block : ℕ → BitVec S.width) :
    ((zfpEncodeBlock ops zfp s block).1 ≤ zfp.maxbits ∧
      ∀ p ∈ revBudgets ops zfp block, p.2 ≤ p.1) ↔ revSideBits ops block ≤ zfp.maxbits := by
  rw [zfpEncodeBlock_eq ops zfp hs hd]
  constructor
  · exact fun h => (revSideBits_le_length ops zfp hrev block).trans h.1
  · intro hside
    exact ⟨length_blockCode_le ops zfp (fun hlossy => absurd (hrev.symm.trans hlossy) (by decide))
      block fun _ => hside, revBudgets_of_le ops zfp hside⟩
end

theorem reversible_maxbits_ones :
    (zfpEncodeBlock onesOps ⟨1, 15, 64, -1075, by decide, by decide, by decide, by decide⟩
      (streamOpen (T := .uint64) fun _ => 0) ones).1 ≤ 15 :=
  ((reversible_maxbits_iff onesOps
    ⟨1, 15, 64, -1075, by decide, by decide, by decide, by decide⟩ rfl (by decide)
    (streamOpen_wf _) ones).mpr (by decide)).1

/-- With the documented minimum of nine bits the budget of the coefficients wraps around. -/
theorem reversible_maxbits_wraps :
    let zfp : Params := ⟨1, 9, 64, -1075, by decide, by decide, by decide, by decide⟩
    zfpStreamSetParams 1 9 64 (-1075) = some zfp ∧ REVERSIBLE zfp = true ∧
      9 < (zfpEncodeBlock onesOps zfp (streamOpen (T := .uint64) fun _ => 0) ones).1 ∧
      ¬ ∀ p ∈ revBudgets onesOps zfp ones, p.2 ≤ p.1 := by
  refine ⟨rfl, rfl, ?_, by decide⟩
  rw [zfpEncodeBlock_eq _ _ (streamOpen_wf _) (by decide)]
  exact lt_of_lt_of_le (by decide) (revSideBits_le_length onesOps _ rfl ones)

end Zfp

import Zfp.BlockLockstep
import Zfp.DecodeWindow

/-!
# The values that a code stands for

A decoder of a block returns the same values wherever it reads the code of the block, and whatever
bits follow the code.
-/

namespace Zfp
open BitLists Bitstream PlaneCode

variable {T : WordType} {S : Scalar} {d : ℕ}

/-- What a reader returns from the bits `l` does not depend on where they are. -/
def Determines {α : Type} (T : WordType) (l : List Bool) (read : Bitstream T → α) : Prop :=
  ∀ (r r' : Bitstream T) (o o' : ℕ), Reads (memBit r.mem) o l → Reads (memBit r'.mem) o' l →
    read (streamRseek r o) = read (streamRseek r' o')

/-- A reader of the bits `l` may pass them to another reader from a later bit on. -/
theorem Determines.of_eq {α β : Type} {l l' : List Bool} {read : Bitstream T → α}
    {read' : Bitstream T → β} (h : Determines T l' read') (k : ℕ) (f : β → α)
    (heq : ∀ (r : Bitstream T) (o : ℕ), Reads (memBit r.mem) o l →
      Reads (memBit r.mem) (o + k) l' ∧ read (streamRseek r o) = f (read' (streamRseek r (o + k)))) :
    Determines T l read := by
  intro r r' o o' hr hr'
  obtain ⟨hrest, hread⟩ := heq r o hr
  obtain ⟨hrest', hread'⟩ := heq r' o' hr'
  rw [hread, hread', h r r' _ _ hrest hrest']

/-- Values that are known do not depend on anything. -/
theorem Determines.of_const {α : Type} {l : List Bool} {read : Bitstream T → α} (a : α)
    (h : ∀ (r : Bitstream T) (o : ℕ), Reads (memBit r.mem) o l → read (streamRseek r o) = a) :
    Determines T l read := by
  intro r r' o o' hr hr'
  rw [h r o hr, h r' o' hr']

/-! ## Integer blocks -/

theorem determines_decodeInts {w maxprec size : ℕ} (maxbits : ℕ) (data out : ℕ → BitVec w)
    (hsize : 0 < size) (hsize' : size ≤ 2 ^ 24) (hprec : maxprec ≤ 64) :
    Determines T ((intsCode data maxprec size).take maxbits)
      fun s => (decodeInts s maxbits maxprec out size).1 := by
  intro r r' o o' hr hr'
  dsimp only
  rcases Nat.le_total maxbits (intsCode data maxprec size).length with hcut | hfull
  · -- the budget ends in the code
    have hwindow : SameWindow r r' o o' maxbits := by
      intro k hk
      have hlen : k < ((intsCode data maxprec size).take maxbits).length := by
        rw [List.length_take]
        omega
      rw [reads_iff.mp hr k hlen, reads_iff.mp hr' k hlen]
    obtain ⟨g, m, hg, hg'⟩ := decodeInts_window hwindow hsize hsize' hprec out
    rw [hg, hg']
  · rw [List.take_of_length_le hfull] at hr hr'
    rw [decodeInts_rseek r o maxbits out hsize hsize' hprec,
      decodeInts_rseek r' o' maxbits out hsize hsize' hprec]
    funext i
    rcases Nat.lt_or_ge i size with hi | hi
    · have hvalue := intsDecode_full data hsize hr hfull hi
      have hvalue' := intsDecode_full data hsize hr' hfull hi
      exact ((storeInts_of_lt _ _ hi).trans hvalue).trans
        ((storeInts_of_lt _ _ hi).trans hvalue').symm
    · exact (storeInts_of_le _ _ hi).trans (storeInts_of_le _ _ hi).symm

theorem determines_decodeIntBlock (hd : d ≤ 4) (minbits maxbits : ℕ) {maxprec : ℕ}
    (hprec : maxprec ≤ 64) (iblock out : ℕ → BitVec S.width) :
    Determines T (intBlockCode S d minbits maxbits maxprec iblock)
      fun s => (decodeIntBlock S d s minbits maxbits maxprec out).2.2 := by
  obtain ⟨hpos, hle⟩ := block_size_le hd
  have hints := determines_decodeInts (T := T) maxbits
    (fwdWords S d (fwdXform halfWord d iblock)) (fun _ => 0) hpos hle hprec
  refine hints.of_eq 0 (fun g => invXform halfWord d (invOrder (NBMASK S) g out (perm d) (4 ^ d)))
    fun r o hr => ⟨?_, rfl⟩
  exact reads_padded hr

theorem determines_revDecodeIntBlock (hd : d ≤ 4) (minbits maxbits maxprec : ℕ)
    (iblock out : ℕ → BitVec S.width) :
    Determines T (revIntBlockCode S d minbits maxbits maxprec iblock)
      fun s => (revDecodeIntBlock S d s minbits maxbits out).2.2 := by
  obtain ⟨hpos, hle⟩ := block_size_le hd
  obtain ⟨hprec0, hprecw⟩ := revPrec_bounds S d maxprec iblock
  have hprec := hprecw.trans S.width_le
  have hints := determines_decodeInts (T := T) (uintSub maxbits (PBITS S))
    (fwdWords S d (revFwdXform d iblock)) (fun _ => 0) hpos hle hprec
  refine hints.of_eq (PBITS S) (fun g => revInvXform d (invOrder (NBMASK S) g out (perm d) (4 ^ d)))
    fun r o hr => ?_
  have hreads := reads_padded hr
  rw [reads_append, length_lowBits] at hreads
  refine ⟨hreads.2, ?_⟩
  have hp : revPrec S d maxprec iblock - 1 < 2 ^ PBITS S := by
    rw [two_pow_PBITS]
    omega
  have hfield := streamReadBits_field (PBITS_le S) hp hreads.1
  have hvalue := toNat_ofNat_of_lt hp (PBITS_le S)
  rw [revDecodeIntBlock, hfield]
  dsimp only
  rw [hvalue, Nat.sub_add_cancel hprec0]

/-! ## Floating-point blocks -/

section

variable (ops : FloatOps S (4 ^ d)) (zfp : Params)

theorem determines_decodeFloatBlock (hd : d ≤ 4) (fblock out : ℕ → BitVec S.width) :
    Determines T (floatBlockCode ops zfp fblock)
      fun s => (decodeFloatBlock ops zfp s out).2.2 := by
  have hbits : EBITS S < 64 := by have := EBITS_lt S; omega
  obtain ⟨hlt, hcast⟩ := exponent_lt ops (blockOf _ fblock)
  have hstored : storedExponent ops zfp fblock =
      if precision (ops.exponentBlock (blockOf _ fblock)) zfp.maxprec zfp.minexp d ≠ 0 then
        (ops.exponentBlock (blockOf _ fblock) + EBIAS S).toNat else 0 := rfl
  rw [floatBlockCode]
  generalize ops.exponentBlock (blockOf _ fblock) = emax at *
  generalize storedExponent ops zfp fblock = e at *
  by_cases he : e ≠ 0
  · have hemax : (e : ℤ) - EBIAS S = emax := by
      split_ifs at hstored <;> omega
    have hlt' : e < 2 ^ EBITS S := by
      split_ifs at hstored <;> omega
    have hprec := (precision_le emax zfp.maxprec zfp.minexp d).trans zfp.maxprec_le
    have hints := determines_decodeIntBlock (T := T) hd
      (zfp.minbits - min (1 + EBITS S) zfp.minbits) (uintSub zfp.maxbits (1 + EBITS S)) hprec
      (putBlock (fun _ => 0) (ops.fwdCast (blockOf _ fblock) emax)) (fun _ => 0)
    rw [if_pos he]
    refine hints.of_eq (1 + EBITS S) (fun b => putBlock out (ops.invCast (blockOf _ b) emax))
      fun r o hr => ?_
    rw [lowBits_odd e hbits, List.cons_append, Reads, reads_append, length_lowBits,
      Nat.add_assoc] at hr
    obtain ⟨hflag, hexp, hcode⟩ := hr
    refine ⟨hcode, ?_⟩
    have hfield := streamReadBits_field hbits.le hlt' hexp
    have hev := toNat_ofNat_of_lt hlt' hbits.le
    rw [decodeFloatBlock, streamReadBit_rseek]
    dsimp only
    rw [if_pos hflag, hfield]
    dsimp only
    rw [hev, hemax, Nat.add_assoc]
  · rw [if_neg he]
    refine .of_const (putBlock out fun _ : Fin (4 ^ d) => 0) fun r o hr => ?_
    have hflag := (reads_padded hr).1
    rw [decodeFloatBlock, streamReadBit_rseek]
    dsimp only
    rw [if_neg (by rw [hflag]; decide)]

theorem determines_revDecodeFloatBlock (hd : d ≤ 4) (fblock out : ℕ → BitVec S.width) :
    Determines T (revFloatBlockCode ops zfp fblock)
      fun s => (revDecodeFloatBlock ops zfp s out).2.2 := by
  have hbits : EBITS S ≤ 64 := by have := EBITS_lt S; omega
  obtain ⟨hlt, hcast⟩ := exponent_lt ops (blockOf _ fblock)
  -- the integer coder behind `bits` bits of side information
  have hrest := fun (bits : ℕ) (iblock : ℕ → BitVec S.width) =>
    determines_revDecodeIntBlock (T := T) hd (zfp.minbits - min bits zfp.minbits)
      (uintSub zfp.maxbits bits) zfp.maxprec iblock (fun _ => 0)
  rw [revFloatBlockCode]
  dsimp only
  generalize ops.exponentBlock (blockOf _ fblock) = emax at *
  generalize revFwdCast ops (blockOf _ fblock) emax = iblock at *
  by_cases hrev : revFwdReversible ops iblock (blockOf _ fblock) emax = true
  · rw [if_pos hrev]
    by_cases he : (emax + EBIAS S).toNat ≠ 0
    · rw [if_pos he]
      refine (hrest (2 + EBITS S) (putBlock (fun _ => 0) iblock)).of_eq (2 + EBITS S)
        (fun b => putBlock out (revInvCast ops (blockOf _ b) emax)) fun r o hr => ?_
      rw [show lowBits (1 : BitVec 64) 2 = [true, false] from rfl, List.append_assoc,
        List.cons_append, List.cons_append, List.nil_append, Reads, Reads, reads_append,
        length_lowBits, Nat.add_assoc o 1 1, Nat.add_assoc o 2] at hr
      obtain ⟨hflag, hflag', hexp, hcode⟩ := hr
      refine ⟨hcode, ?_⟩
      have hfield := streamReadBits_field hbits hlt hexp
      have hev := toNat_ofNat_of_lt hlt hbits
      rw [revDecodeFloatBlock, streamReadBit_rseek]
      dsimp only
      rw [if_pos hflag, streamReadBit_rseek]
      dsimp only
      rw [if_neg (by rw [hflag']; decide), hfield]
      dsimp only
      rw [hev, hcast, add_sub_cancel_right, Nat.add_assoc]
    · rw [if_neg he]
      refine .of_const (putBlock out fun _ : Fin (4 ^ d) => 0) fun r o hr => ?_
      rw [revDecodeFloatBlock, streamReadBit_rseek]
      dsimp only
      rw [if_neg (by rw [hr.1]; decide)]
  · rw [if_neg hrev]
    refine (hrest 2 fun i => revReinterpret S (fblock i)).of_eq 2
      (fun b => putBlock out fun i : Fin (4 ^ d) => revReinterpret S (b i)) fun r o hr => ?_
    rw [show lowBits (3 : BitVec 64) 2 = [true, true] from rfl, List.cons_append,
      List.cons_append, List.nil_append, Reads, Reads, Nat.add_assoc o 1 1] at hr
    obtain ⟨hflag, hflag', hcode⟩ := hr
    refine ⟨hcode, ?_⟩
    rw [revDecodeFloatBlock, streamReadBit_rseek]
    dsimp only
    rw [if_pos hflag, streamReadBit_rseek]
    dsimp only
    rw [if_pos hflag']

/-- The code of a block determines the values that are decoded from it. -/
theorem determines_zfpDecodeBlock (hd : d ≤ 4) (block out : ℕ → BitVec S.width) :
    Determines T (blockCode ops zfp block) fun s => (zfpDecodeBlock ops zfp s out).2.2 := by
  simp only [blockCode, zfpDecodeBlock]
  split_ifs
  · exact determines_revDecodeFloatBlock ops zfp hd block out
  · exact determines_decodeFloatBlock ops zfp hd block out
  · exact determines_revDecodeIntBlock hd _ _ _ block out
  · exact determines_decodeIntBlock hd _ _ zfp.maxprec_le block out

end

end Zfp

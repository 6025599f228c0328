import Zfp.BlockCodec
import Zfp.StreamThreads

/-!
# The block coders as programs

The coders reach the bit stream through its operations only: each of them is a program, call by
call. Blocks have at most 64 values here, so that bit planes are coded as words.
-/

namespace Zfp
open SharedMemory Program

variable {T : WordType} {w : ℕ} {α β γ σ : Type}

instance {Op : Type → Type} [Inhabited α] : Inhabited (Program Op α) := ⟨.done default⟩

/-- A result with the stream after two values. -/
def last2 (r : α × β × σ) : (α × β) × σ := ((r.1, r.2.1), r.2.2)

/-- A result with the stream after three values. -/
def last3 (r : α × β × γ × σ) : (α × β × γ) × σ := ((r.1, r.2.1, r.2.2.1), r.2.2.2)

/-- A result with the stream between two values. -/
def middle (r : α × σ × β) : (α × β) × σ := ((r.1, r.2.2), r.2.1)

/-! ## Decoders -/

/-- A program of a reader computes the function. -/
abbrev ReadBy (f : Bitstream T → α × Bitstream T) : Prop := Realizes ReaderOp.step f

theorem readBy_decodeScan (size bits n : ℕ) :
    ReadBy fun s : Bitstream T => last2 (decodeScan size s bits n) := by
  induction bits generalizing n with
  | zero =>
    refine ⟨.done (n, 0), fun s => ?_⟩
    beta_reduce
    rw [decodeScan, if_neg (by omega)]
    rfl
  | succ bits ih =>
    choose p hp using ih
    by_cases hn : n < size - 1
    · refine ⟨.call .readBit fun b => if b then .done (n, bits) else p (n + 1), fun s => ?_⟩
      beta_reduce
      rw [decodeScan, if_pos ⟨Nat.succ_ne_zero _, hn⟩, run_call, ReaderOp.step]
      dsimp only
      split_ifs
      · rfl
      · exact hp _ _
    · refine ⟨.done (n, bits + 1), fun s => ?_⟩
      beta_reduce
      rw [decodeScan, if_neg (by omega)]
      rfl

theorem readBy_decodeFewGroups (size bits : ℕ) (x : BitVec 64) (n : ℕ) :
    ReadBy fun s : Bitstream T => last3 (decodeFewGroups size s bits x n) := by
  induction bits using Nat.strong_induction_on generalizing x n with
  | _ bits ih =>
    choose! p hp using ih
    choose scan hscan using fun n => readBy_decodeScan (T := T) size (bits - 1) n
    by_cases h : bits ≠ 0 ∧ n < size
    · refine ⟨.call .readBit fun b =>
        if b then (scan n).bind fun r => p r.2 (x + 1#64 <<< r.1) (r.1 + 1)
        else .done (x, n, bits - 1), fun s => ?_⟩
      beta_reduce
      rw [decodeFewGroups, if_pos h, run_call, ReaderOp.step]
      dsimp only
      split_ifs
      · have hbits := decodeScan_bits size (streamReadBit s).2 (bits - 1) n
        rw [run_bind, hscan]
        exact hp _ (show (decodeScan _ _ _ _).2.1 < bits by omega) _ _ _
      · rfl
    · refine ⟨.done (x, n, bits), fun s => ?_⟩
      beta_reduce
      rw [decodeFewGroups, if_neg h]
      rfl

theorem readBy_decodeFewPlanes (size kmin k bits : ℕ) (data : ℕ → BitVec w) (n : ℕ) :
    ReadBy fun s : Bitstream T => last2 (decodeFewPlanes size kmin k s bits data n) := by
  induction k generalizing bits data n with
  | zero => exact ⟨.done (data, bits), fun s => rfl⟩
  | succ k ih =>
    choose p hp using ih
    choose groups hgroups using fun bits x n => readBy_decodeFewGroups (T := T) size bits x n
    by_cases h : bits ≠ 0 ∧ kmin ≤ k
    · refine ⟨.call (.readBits (min n bits)) fun x =>
        (groups (bits - min n bits) x n).bind fun r =>
          p r.2.2 (depositPlane data k r.1 0) r.2.1, fun s => ?_⟩
      beta_reduce
      rw [decodeFewPlanes, if_pos h, run_call, ReaderOp.step, run_bind, hgroups]
      exact hp _ _ _ _
    · refine ⟨.done (data, bits), fun s => ?_⟩
      beta_reduce
      rw [decodeFewPlanes, if_neg h]
      rfl

theorem readBy_decodeScanPrec (size n : ℕ) :
    ReadBy fun s : Bitstream T => decodeScanPrec size s n := by
  induction hk : size - n generalizing n with
  | zero =>
    refine ⟨.done n, fun s => ?_⟩
    beta_reduce
    rw [decodeScanPrec, if_neg (by omega)]
    rfl
  | succ k ih =>
    obtain ⟨p, hp⟩ := ih (n + 1) (by omega)
    by_cases hn : n < size - 1
    · refine ⟨.call .readBit fun b => if b then .done n else p, fun s => ?_⟩
      beta_reduce
      rw [decodeScanPrec, if_pos hn, run_call, ReaderOp.step]
      dsimp only
      split_ifs
      · rfl
      · exact hp _
    · refine ⟨.done n, fun s => ?_⟩
      beta_reduce
      rw [decodeScanPrec, if_neg hn]
      rfl

theorem readBy_decodeFewGroupsPrec (size : ℕ) (x : BitVec 64) (n : ℕ) :
    ReadBy fun s : Bitstream T => last2 (decodeFewGroupsPrec size s x n) := by
  induction hk : size - n using Nat.strong_induction_on generalizing x n with
  | _ k ih =>
    choose! p hp using ih
    choose scan hscan using fun n => readBy_decodeScanPrec (T := T) size n
    by_cases h : n < size
    · refine ⟨.call .readBit fun b =>
        if b then (scan n).bind fun m => p (size - (m + 1)) (x + 1#64 <<< m) (m + 1)
        else .done (x, n), fun s => ?_⟩
      beta_reduce
      rw [decodeFewGroupsPrec, if_pos h, run_call, ReaderOp.step]
      dsimp only
      split_ifs
      · have hn := decodeScanPrec_n size (streamReadBit s).2 n
        rw [run_bind, hscan]
        exact hp _ (show size - ((decodeScanPrec _ _ _).1 + 1) < k by omega) _ _ rfl _
      · rfl
    · refine ⟨.done (x, n), fun s => ?_⟩
      beta_reduce
      rw [decodeFewGroupsPrec, if_neg h]
      rfl

theorem readBy_decodeFewPlanesPrec (size kmin k : ℕ) (data : ℕ → BitVec w) (n : ℕ) :
    ReadBy fun s : Bitstream T => decodeFewPlanesPrec size kmin k s data n := by
  induction k generalizing data n with
  | zero => exact ⟨.done data, fun s => rfl⟩
  | succ k ih =>
    choose p hp using ih
    choose groups hgroups using fun x n => readBy_decodeFewGroupsPrec (T := T) size x n
    by_cases h : kmin ≤ k
    · refine ⟨.call (.readBits n) fun x => (groups x n).bind fun r =>
        p (depositPlane data k r.1 0) r.2, fun s => ?_⟩
      beta_reduce
      rw [decodeFewPlanesPrec, if_pos h, run_call, ReaderOp.step, run_bind, hgroups]
      exact hp _ _ _
    · refine ⟨.done data, fun s => ?_⟩
      beta_reduce
      rw [decodeFewPlanesPrec, if_neg h]
      rfl

theorem readBy_decodeInts {size : ℕ} (hsize : size ≤ 64) (maxbits maxprec : ℕ)
    (data : ℕ → BitVec w) :
    ReadBy fun s : Bitstream T => last2 (decodeInts s maxbits maxprec data size) := by
  by_cases hmax : withMaxbits maxbits maxprec size
  · obtain ⟨p, hp⟩ := readBy_decodeFewPlanes (T := T) size (w - maxprec) w maxbits
      (zeroInts data size) 0
    refine ⟨p.bind fun r => .done (r.1, maxbits - r.2), fun s => ?_⟩
    beta_reduce
    rw [decodeInts, if_pos hmax, if_pos hsize, run_bind, hp]
    rfl
  · obtain ⟨p, hp⟩ := readBy_decodeFewPlanesPrec (T := T) size (w - maxprec) w
      (zeroInts data size) 0
    refine ⟨.call .rtell fun offset => p.bind fun data =>
      .call .rtell fun offset' => .done (data, (offset' - offset) % 2 ^ 32), fun s => ?_⟩
    beta_reduce
    rw [decodeInts, if_neg hmax, if_pos hsize, run_call, ReaderOp.step, run_bind, hp]
    rfl

theorem readBy_readMinbits (minbits n : ℕ) :
    ReadBy fun s : Bitstream T => readMinbits minbits (n, s) := by
  by_cases h : n < minbits
  · refine ⟨.call (.skip (minbits - n)) fun _ => .done minbits, fun s => ?_⟩
    beta_reduce
    rw [readMinbits, if_pos h]
    rfl
  · refine ⟨.done n, fun s => ?_⟩
    beta_reduce
    rw [readMinbits, if_neg h]
    rfl

section

variable {S : Scalar} {d : ℕ}

theorem readBy_decodeIntBlock (hd : 4 ^ d ≤ 64) (minbits maxbits maxprec : ℕ)
    (iblock : ℕ → BitVec S.width) :
    ReadBy fun s : Bitstream T => middle (decodeIntBlock S d s minbits maxbits maxprec iblock) := by
  obtain ⟨ints, hints⟩ := readBy_decodeInts (T := T) hd maxbits maxprec
    (fun _ => (0 : BitVec S.width))
  choose rest hrest using fun n => readBy_readMinbits (T := T) minbits n
  beta_reduce at hints hrest
  refine ⟨ints.bind fun r => (rest r.2).bind fun n => .done (n, invXform halfWord d
    (invOrder (NBMASK S) r.1 iblock (perm d) (4 ^ d))), fun s => ?_⟩
  beta_reduce
  rw [run_bind, hints, run_bind, hrest, run_done, decodeIntBlock]
  generalize decodeInts _ _ _ _ _ = r
  obtain ⟨data, n, s'⟩ := r
  rfl

theorem readBy_revDecodeIntBlock (hd : 4 ^ d ≤ 64) (minbits maxbits : ℕ)
    (iblock : ℕ → BitVec S.width) :
    ReadBy fun s : Bitstream T => middle (revDecodeIntBlock S d s minbits maxbits iblock) := by
  choose ints hints using fun prec => readBy_decodeInts (T := T) hd (uintSub maxbits (PBITS S)) prec
    (fun _ => (0 : BitVec S.width))
  choose rest hrest using fun n => readBy_readMinbits (T := T) minbits n
  beta_reduce at hints hrest
  refine ⟨.call (.readBits (PBITS S)) fun p => (ints (p.toNat + 1)).bind fun r =>
    (rest (PBITS S + r.2)).bind fun n => .done (n, revInvXform d
      (invOrder (NBMASK S) r.1 iblock (perm d) (4 ^ d))), fun s => ?_⟩
  beta_reduce
  rw [run_call, ReaderOp.step, run_bind, hints, run_bind, hrest, run_done, revDecodeIntBlock]
  generalize decodeInts _ _ _ _ _ = r
  obtain ⟨data, n, s'⟩ := r
  rfl

variable (ops : FloatOps S (4 ^ d)) (zfp : Params)

theorem readBy_decodeFloatBlock (hd : 4 ^ d ≤ 64) (fblock : ℕ → BitVec S.width) :
    ReadBy fun s : Bitstream T => middle (decodeFloatBlock ops zfp s fblock) := by
  choose ints hints using fun minbits maxbits maxprec => readBy_decodeIntBlock (T := T) (S := S) hd
    minbits maxbits maxprec fun _ => 0
  obtain ⟨rest, hrest⟩ := readBy_readMinbits (T := T) zfp.minbits 1
  beta_reduce at hints hrest
  refine ⟨.call .readBit fun b => if b then
    .call (.readBits (EBITS S)) fun p =>
      let emax := (p.toNat : ℤ) - EBIAS S
      (ints (zfp.minbits - min (1 + EBITS S) zfp.minbits) (uintSub zfp.maxbits (1 + EBITS S))
        (precision emax zfp.maxprec zfp.minexp d)).bind fun r =>
          .done (1 + EBITS S + r.1, putBlock fblock (ops.invCast (blockOf _ r.2) emax))
    else rest.bind fun n => .done (n, putBlock fblock fun _ : Fin (4 ^ d) => 0), fun s => ?_⟩
  beta_reduce
  rw [run_call, ReaderOp.step, decodeFloatBlock]
  dsimp only
  split_ifs
  · rw [run_call, ReaderOp.step, run_bind, hints]
    generalize decodeIntBlock S d _ _ _ _ _ = r
    obtain ⟨n, s', data⟩ := r
    rfl
  · rw [run_bind, hrest]
    rfl

theorem readBy_revDecodeFloatBlock (hd : 4 ^ d ≤ 64) (fblock : ℕ → BitVec S.width) :
    ReadBy fun s : Bitstream T => middle (revDecodeFloatBlock ops zfp s fblock) := by
  choose ints hints using fun bits => readBy_revDecodeIntBlock (T := T) (S := S) hd
    (zfp.minbits - min bits zfp.minbits) (uintSub zfp.maxbits bits) fun _ => 0
  obtain ⟨rest, hrest⟩ := readBy_readMinbits (T := T) zfp.minbits 1
  beta_reduce at hints hrest
  refine ⟨.call .readBit fun b => if b then
    .call .readBit fun c => if c then
      (ints 2).bind fun r => .done (2 + r.1,
        putBlock fblock fun i : Fin (4 ^ d) => revReinterpret S (r.2 i))
    else .call (.readBits (EBITS S)) fun p => (ints (2 + EBITS S)).bind fun r =>
      .done (2 + EBITS S + r.1,
        putBlock fblock (revInvCast ops (blockOf _ r.2) ((p.toNat : ℤ) - EBIAS S)))
    else rest.bind fun n => .done (n, putBlock fblock fun _ : Fin (4 ^ d) => 0), fun s => ?_⟩
  beta_reduce
  rw [run_call, ReaderOp.step, revDecodeFloatBlock]
  dsimp only
  split_ifs with hb hc
  · rw [run_call, ReaderOp.step, if_pos hc, run_bind, hints]
    generalize revDecodeIntBlock S d _ _ _ _ = r
    obtain ⟨n, s', data⟩ := r
    rfl
  · rw [run_call, ReaderOp.step, if_neg hc, run_call, ReaderOp.step, run_bind, hints]
    generalize revDecodeIntBlock S d _ _ _ _ = r
    obtain ⟨n, s', data⟩ := r
    rfl
  · rw [run_bind, hrest]
    rfl

theorem readBy_zfpDecodeBlock (hd : 4 ^ d ≤ 64) (block : ℕ → BitVec S.width) :
    ReadBy fun s : Bitstream T => middle (zfpDecodeBlock ops zfp s block) := by
  simp only [zfpDecodeBlock]
  split_ifs
  · exact readBy_revDecodeFloatBlock ops zfp hd block
  · exact readBy_decodeFloatBlock ops zfp hd block
  · exact readBy_revDecodeIntBlock hd zfp.minbits zfp.maxbits block
  · exact readBy_decodeIntBlock hd zfp.minbits zfp.maxbits zfp.maxprec block

end

/-! ## Encoders -/

/-- A program of a writer computes the function. -/
abbrev WrittenBy (f : Bitstream T → α × Bitstream T) : Prop := Realizes WriterOp.step f

theorem writtenBy_encodeFewScan (size bits : ℕ) (x : BitVec 64) (n : ℕ) :
    WrittenBy fun s : Bitstream T => (encodeFewScan size s bits x n).swap := by
  induction bits generalizing x n with
  | zero =>
    refine ⟨.done (0, x, n), fun s => ?_⟩
    beta_reduce
    rw [encodeFewScan, if_neg (by omega)]
    rfl
  | succ bits ih =>
    choose p hp using ih
    by_cases hn : n < size - 1
    · refine ⟨.call (.writeBit (x.getLsbD 0)) fun _ =>
        if x.getLsbD 0 then .done (bits, x, n) else p (x >>> 1) (n + 1), fun s => ?_⟩
      beta_reduce
      rw [encodeFewScan, if_pos (show bits + 1 ≠ 0 ∧ n < size - 1 from ⟨Nat.succ_ne_zero _, hn⟩),
        run_call, WriterOp.step]
      split_ifs
      · rfl
      · exact hp _ _ _
    · refine ⟨.done (bits + 1, x, n), fun s => ?_⟩
      beta_reduce
      rw [encodeFewScan, if_neg (by omega)]
      rfl

theorem writtenBy_encodeFewGroups (size bits : ℕ) (x : BitVec 64) (n : ℕ) :
    WrittenBy fun s : Bitstream T => (encodeFewGroups size s bits x n).swap := by
  induction bits using Nat.strong_induction_on generalizing x n with
  | _ bits ih =>
    choose! p hp using ih
    obtain ⟨scan, hscan⟩ := writtenBy_encodeFewScan (T := T) size (bits - 1) x n
    by_cases h : bits ≠ 0 ∧ n < size
    · refine ⟨.call (.writeBit (x != 0)) fun _ =>
        if x != 0 then scan.bind fun r => p r.1 (r.2.1 >>> 1) (r.2.2 + 1)
        else .done (bits - 1, n), fun s => ?_⟩
      beta_reduce
      rw [encodeFewGroups, if_pos h, run_call, WriterOp.step]
      split_ifs
      · have hbits := encodeFewScan_bits size (streamWriteBit s (x != 0)) (bits - 1) x n
        rw [run_bind, hscan]
        exact hp _ (show (encodeFewScan _ (streamWriteBit s _) _ _ _).2.1 < bits by omega) _ _ _
      · rfl
    · refine ⟨.done (bits, n), fun s => ?_⟩
      beta_reduce
      rw [encodeFewGroups, if_neg h]
      rfl

theorem writtenBy_encodeFewPlanes (data : ℕ → BitVec w) (size kmin k bits n : ℕ) :
    WrittenBy fun s : Bitstream T => (encodeFewPlanes data size kmin k s bits n).swap := by
  induction k generalizing bits n with
  | zero => exact ⟨.done bits, fun s => rfl⟩
  | succ k ih =>
    choose p hp using ih
    choose groups hgroups using fun bits x n => writtenBy_encodeFewGroups (T := T) size bits x n
    by_cases h : bits ≠ 0 ∧ kmin ≤ k
    · refine ⟨.call (.writeBits (extractPlane data k size) (min n bits)) fun x =>
        (groups (bits - min n bits) x n).bind fun r => p r.1 r.2, fun s => ?_⟩
      beta_reduce
      rw [encodeFewPlanes, if_pos h, run_call, WriterOp.step, run_bind, hgroups]
      exact hp _ _ _
    · refine ⟨.done bits, fun s => ?_⟩
      beta_reduce
      rw [encodeFewPlanes, if_neg h]
      rfl

theorem writtenBy_encodeFewScanPrec (size : ℕ) (x : BitVec 64) (n : ℕ) :
    WrittenBy fun s : Bitstream T => (encodeFewScanPrec size s x n).swap := by
  induction hk : size - n generalizing x n with
  | zero =>
    refine ⟨.done (x, n), fun s => ?_⟩
    beta_reduce
    rw [encodeFewScanPrec, if_neg (by omega)]
    rfl
  | succ k ih =>
    obtain ⟨p, hp⟩ := ih (x >>> 1) (n + 1) (by omega)
    by_cases hn : n < size - 1
    · refine ⟨.call (.writeBit (x.getLsbD 0)) fun _ =>
        if x.getLsbD 0 then .done (x, n) else p, fun s => ?_⟩
      beta_reduce
      rw [encodeFewScanPrec, if_pos hn, run_call, WriterOp.step]
      split_ifs
      · rfl
      · exact hp _
    · refine ⟨.done (x, n), fun s => ?_⟩
      beta_reduce
      rw [encodeFewScanPrec, if_neg hn]
      rfl

theorem writtenBy_encodeFewGroupsPrec (size : ℕ) (x : BitVec 64) (n : ℕ) :
    WrittenBy fun s : Bitstream T => (encodeFewGroupsPrec size s x n).swap := by
  induction hk : size - n using Nat.strong_induction_on generalizing x n with
  | _ k ih =>
    choose! p hp using ih
    obtain ⟨scan, hscan⟩ := writtenBy_encodeFewScanPrec (T := T) size x n
    by_cases h : n < size
    · refine ⟨.call (.writeBit (x != 0)) fun _ =>
        if x != 0 then scan.bind fun r => p (size - (r.2 + 1)) (r.1 >>> 1) (r.2 + 1)
        else .done n, fun s => ?_⟩
      beta_reduce
      rw [encodeFewGroupsPrec, if_pos h, run_call, WriterOp.step]
      split_ifs
      · have hn := encodeFewScanPrec_n size (streamWriteBit s (x != 0)) x n
        rw [run_bind, hscan]
        have hlt : size - ((encodeFewScanPrec size (streamWriteBit s (x != 0)) x n).2.2 + 1) < k := by
          omega
        exact hp _ hlt _ _ rfl _
      · rfl
    · refine ⟨.done n, fun s => ?_⟩
      beta_reduce
      rw [encodeFewGroupsPrec, if_neg h]
      rfl

theorem writtenBy_encodeFewPlanesPrec (data : ℕ → BitVec w) (size kmin k n : ℕ) :
    WrittenBy fun s : Bitstream T => ((), encodeFewPlanesPrec data size kmin k s n) := by
  induction k generalizing n with
  | zero => exact ⟨.done (), fun s => rfl⟩
  | succ k ih =>
    choose p hp using ih
    choose groups hgroups using fun x n => writtenBy_encodeFewGroupsPrec (T := T) size x n
    by_cases h : kmin ≤ k
    · refine ⟨.call (.writeBits (extractPlane data k size) n) fun x =>
        (groups x n).bind p, fun s => ?_⟩
      beta_reduce
      rw [encodeFewPlanesPrec, if_pos h, run_call, WriterOp.step, run_bind, hgroups]
      exact hp _ _
    · refine ⟨.done (), fun s => ?_⟩
      beta_reduce
      rw [encodeFewPlanesPrec, if_neg h]
      rfl

theorem writtenBy_encodeInts {size : ℕ} (hsize : size ≤ 64) (maxbits maxprec : ℕ)
    (data : ℕ → BitVec w) :
    WrittenBy fun s : Bitstream T => encodeInts s maxbits maxprec data size := by
  by_cases hmax : withMaxbits maxbits maxprec size
  · obtain ⟨p, hp⟩ := writtenBy_encodeFewPlanes (T := T) data size (w - maxprec) w maxbits 0
    refine ⟨p.bind fun bits => .done (maxbits - bits), fun s => ?_⟩
    beta_reduce
    rw [encodeInts, if_pos hmax, if_pos hsize, run_bind, hp]
    rfl
  · obtain ⟨p, hp⟩ := writtenBy_encodeFewPlanesPrec (T := T) data size (w - maxprec) w 0
    refine ⟨.call .wtell fun offset => p.bind fun _ =>
      .call .wtell fun offset' => .done ((offset' - offset) % 2 ^ 32), fun s => ?_⟩
    beta_reduce
    rw [encodeInts, if_neg hmax, if_pos hsize, run_call, WriterOp.step, run_bind, hp]
    rfl

theorem writtenBy_writeMinbits (minbits n : ℕ) :
    WrittenBy fun s : Bitstream T => writeMinbits minbits (n, s) := by
  by_cases h : n < minbits
  · refine ⟨.call (.pad (minbits - n)) fun _ => .done minbits, fun s => ?_⟩
    beta_reduce
    rw [writeMinbits, if_pos h]
    rfl
  · refine ⟨.done n, fun s => ?_⟩
    beta_reduce
    rw [writeMinbits, if_neg h]
    rfl

section

variable {S : Scalar} {d : ℕ}

theorem writtenBy_encodeIntBlock (hd : 4 ^ d ≤ 64) (minbits maxbits maxprec : ℕ)
    (iblock : ℕ → BitVec S.width) :
    WrittenBy fun s : Bitstream T => encodeIntBlock S d s minbits maxbits maxprec iblock := by
  obtain ⟨ints, hints⟩ := writtenBy_encodeInts (T := T) hd maxbits maxprec
    (fwdOrder (NBMASK S) (fwdXform halfWord d iblock) (perm d) (4 ^ d))
  choose rest hrest using fun n => writtenBy_writeMinbits (T := T) minbits n
  beta_reduce at hints hrest
  refine ⟨ints.bind rest, fun s => ?_⟩
  beta_reduce
  rw [run_bind, hints, hrest, Prod.mk.eta, encodeIntBlock]

theorem writtenBy_revEncodeIntBlock (hd : 4 ^ d ≤ 64) (minbits maxbits maxprec : ℕ)
    (iblock : ℕ → BitVec S.width) :
    WrittenBy fun s : Bitstream T => revEncodeIntBlock S d s minbits maxbits maxprec iblock := by
  choose ints hints using fun prec ublock => writtenBy_encodeInts (T := T) (w := S.width) hd
    (uintSub maxbits (PBITS S)) prec ublock
  choose rest hrest using fun n => writtenBy_writeMinbits (T := T) minbits n
  beta_reduce at hints hrest
  let ublock := fwdOrder (NBMASK S) (revFwdXform d iblock) (perm d) (4 ^ d)
  let prec := max (min (revPrecision ublock (4 ^ d)) maxprec) 1
  refine ⟨.call (.writeBits (BitVec.ofNat 64 (prec - 1)) (PBITS S)) fun _ =>
    (ints prec ublock).bind fun n => rest (PBITS S + n), fun s => ?_⟩
  beta_reduce
  rw [run_call, WriterOp.step, run_bind, hints, hrest, revEncodeIntBlock]

variable (ops : FloatOps S (4 ^ d)) (zfp : Params)

theorem writtenBy_encodeFloatBlock (hd : 4 ^ d ≤ 64) (fblock : ℕ → BitVec S.width) :
    WrittenBy fun s : Bitstream T => encodeFloatBlock ops zfp s fblock := by
  choose ints hints using fun maxprec iblock => writtenBy_encodeIntBlock (T := T) (S := S) hd
    (zfp.minbits - min (1 + EBITS S) zfp.minbits) (uintSub zfp.maxbits (1 + EBITS S)) maxprec iblock
  obtain ⟨rest, hrest⟩ := writtenBy_writeMinbits (T := T) zfp.minbits 1
  beta_reduce at hints hrest
  let emax := ops.exponentBlock (blockOf _ fblock)
  let maxprec := precision emax zfp.maxprec zfp.minexp d
  let e := if maxprec ≠ 0 then (emax + EBIAS S).toNat else 0
  by_cases he : e ≠ 0
  · refine ⟨.call (.writeBits (BitVec.ofNat 64 (2 * e + 1)) (1 + EBITS S)) fun _ =>
      (ints maxprec (putBlock (fun _ => 0) (ops.fwdCast (blockOf _ fblock) emax))).bind fun n =>
        .done (1 + EBITS S + n), fun s => ?_⟩
    beta_reduce
    rw [run_call, WriterOp.step, run_bind, hints, run_done, encodeFloatBlock]
    exact (if_pos he).symm
  · refine ⟨.call (.writeBit false) fun _ => rest, fun s => ?_⟩
    beta_reduce
    rw [run_call, WriterOp.step, hrest, encodeFloatBlock]
    exact (if_neg he).symm

theorem writtenBy_revEncodeFloatBlock (hd : 4 ^ d ≤ 64) (fblock : ℕ → BitVec S.width) :
    WrittenBy fun s : Bitstream T => revEncodeFloatBlock ops zfp s fblock := by
  choose ints hints using fun bits iblock => writtenBy_revEncodeIntBlock (T := T) (S := S) hd
    (zfp.minbits - min bits zfp.minbits) (uintSub zfp.maxbits bits) zfp.maxprec iblock
  beta_reduce at hints
  let emax := ops.exponentBlock (blockOf _ fblock)
  let iblock := revFwdCast ops (blockOf _ fblock) emax
  let e := (emax + EBIAS S).toNat
  by_cases hrev : revFwdReversible ops iblock (blockOf _ fblock) emax
  · by_cases he : e ≠ 0
    · refine ⟨.call (.writeBits 1 2) fun _ => .call (.writeBits (BitVec.ofNat 64 e) (EBITS S))
        fun _ => (ints (2 + EBITS S) (putBlock (fun _ => 0) iblock)).bind fun n =>
          .done (2 + EBITS S + n), fun s => ?_⟩
      beta_reduce
      rw [run_call, WriterOp.step, run_call, WriterOp.step, run_bind, hints, run_done,
        revEncodeFloatBlock]
      exact ((if_pos hrev).trans (if_pos he)).symm
    · refine ⟨.call (.writeBit false) fun _ => .done 1, fun s => ?_⟩
      beta_reduce
      rw [run_call, WriterOp.step, run_done, revEncodeFloatBlock]
      exact ((if_pos hrev).trans (if_neg he)).symm
  · refine ⟨.call (.writeBits 3 2) fun _ =>
      (ints 2 fun i => revReinterpret S (fblock i)).bind fun n => .done (2 + n), fun s => ?_⟩
    beta_reduce
    rw [run_call, WriterOp.step, run_bind, hints, run_done, revEncodeFloatBlock]
    exact (if_neg hrev).symm

theorem writtenBy_zfpEncodeBlock (hd : 4 ^ d ≤ 64) (block : ℕ → BitVec S.width) :
    WrittenBy fun s : Bitstream T => zfpEncodeBlock ops zfp s block := by
  simp only [zfpEncodeBlock]
  split_ifs
  · exact writtenBy_revEncodeFloatBlock ops zfp hd block
  · exact writtenBy_encodeFloatBlock ops zfp hd block
  · exact writtenBy_revEncodeIntBlock hd zfp.minbits zfp.maxbits zfp.maxprec block
  · exact writtenBy_encodeIntBlock hd zfp.minbits zfp.maxbits zfp.maxprec block

variable (T) in
/-- Programs on the operations of a bit stream that compute what the coders compute. -/
structure CodecPrograms where
  encode : (ℕ → BitVec S.width) → Program WriterOp ℕ
  decode : (ℕ → BitVec S.width) → Program ReaderOp (ℕ × (ℕ → BitVec S.width))
  run_encode : ∀ block (s : Bitstream T),
    (encode block).run WriterOp.step s = zfpEncodeBlock ops zfp s block
  run_decode : ∀ block (s : Bitstream T),
    (decode block).run ReaderOp.step s = middle (zfpDecodeBlock ops zfp s block)

/-- The coders are such programs. -/
theorem nonempty_codecPrograms (hd : 4 ^ d ≤ 64) : Nonempty (CodecPrograms T ops zfp) := by
  choose encode hencode using fun block => writtenBy_zfpEncodeBlock (T := T) ops zfp hd block
  choose decode hdecode using fun block => readBy_zfpDecodeBlock (T := T) ops zfp hd block
  exact ⟨⟨encode, decode, hencode, hdecode⟩⟩

end

end Zfp

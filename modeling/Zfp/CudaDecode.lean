import Zfp.BlockLockstep
import Zfp.CudaMemory
import Zfp.CudaEncode
import Zfp.WordReader

/-!
# The CUDA decoder

Every block has a thread with a reader of its own. The reader and the serial stream go through the
same bits, and the loops over the bit planes are those of the serial decoder, on any contents of
the stream.
-/

namespace Zfp.Cuda
open BitLists Bitstream Lines WordReader

/-! ## `BlockReader` -/

/-- The reader at the start of a block; the index of the block is an `int`. -/
def makeReader (mem : ℕ → BitVec 64) (maxbits blockIdx : ℕ) : WordReader :=
  let offset := (BitVec.ofNat 32 blockIdx).signExtend 64 * (BitVec.ofNat 32 maxbits).signExtend 64
  let wordIndex := offset.toNat / 64
  let currentBit := offset.toNat % 64
  ⟨wordIndex, mem wordIndex >>> currentBit, currentBit⟩

def readBit (mem : ℕ → BitVec 64) (r : WordReader) : Bool × WordReader :=
  let bit := r.buffer.getLsbD 0
  let r := { r with currentBit := r.currentBit + 1, buffer := r.buffer >>> 1 }
  -- handle moving into next word
  if 64 ≤ r.currentBit then (bit, ⟨r.words + 1, mem (r.words + 1), 0⟩) else (bit, r)

/-- note this assumes that `nBits <= 64` -/
def readBits (mem : ℕ → BitVec 64) (r : WordReader) (nBits : ℕ) : BitVec 64 × WordReader :=
  let remBits := 64 - r.currentBit
  let firstRead := min remBits nBits
  -- first mask
  let mask := 1#64 <<< firstRead - 1#64
  let bits := r.buffer &&& mask
  let r := { r with buffer := r.buffer >>> nBits, currentBit := r.currentBit + firstRead }
  let (nextRead, r) :=
    if remBits ≤ nBits then (nBits - firstRead, ⟨r.words + 1, mem (r.words + 1), 0⟩) else (0, r)
  -- a no-op when the first read contained all the bits
  let mask := 1#64 <<< nextRead - 1#64
  let bits := bits + (r.buffer &&& mask) <<< firstRead
  (bits, { r with buffer := r.buffer >>> nextRead, currentBit := r.currentBit + nextRead })

theorem makeReader_eq (mem : ℕ → BitVec 64) {maxbits blockIdx : ℕ} (hint : maxbits < 2 ^ 31)
    (hidx : blockIdx < 2 ^ 31) :
    makeReader mem maxbits blockIdx = atOffset mem (blockIdx * maxbits) := by
  have hoffset : ((BitVec.ofNat 32 blockIdx).signExtend 64 *
      (BitVec.ofNat 32 maxbits).signExtend 64).toNat = blockIdx * maxbits := by
    have hlt : blockIdx * maxbits < 2 ^ 64 := (Nat.mul_lt_mul'' hidx hint).trans (by decide)
    have hm : (BitVec.ofNat 32 maxbits).toNat = maxbits := Nat.mod_eq_of_lt (by omega)
    have hb : (BitVec.ofNat 32 blockIdx).toNat = blockIdx := Nat.mod_eq_of_lt (by omega)
    rw [BitVec.toNat_mul, CudaMemory.toNat_signExtend_of_lt (hm.trans_lt hint),
      CudaMemory.toNat_signExtend_of_lt (hb.trans_lt hidx), hm, hb, Nat.mod_eq_of_lt hlt]
  rw [makeReader, hoffset]
  rfl

theorem readBit_atOffset (mem : ℕ → BitVec 64) (p : ℕ) :
    readBit mem (atOffset mem p) = (bitOf mem p, atOffset mem (p + 1)) := by
  rw [readBit, getLsbD_buffer_zero]
  dsimp only
  rw [atOffset_currentBit]
  by_cases h : p % 64 + 1 < 64
  · rw [if_neg (by omega), at_add h, atOffset_currentBit]
  · have hlast : p % 64 + 1 - 64 = 0 := by omega
    rw [if_pos (by omega), at_next (by omega) (by omega), hlast,
      BitVec.ushiftRight_zero]

theorem readBits_atOffset (mem : ℕ → BitVec 64) (p : ℕ) {n : ℕ} (hn : n ≤ 64) :
    readBits mem (atOffset mem p) n = (bitsOf mem p n, atOffset mem (p + n)) := by
  rw [readBits, atOffset_currentBit]
  by_cases h : 64 - p % 64 ≤ n
  · -- the read ends in the next word, perhaps before its first bit
    have hmin : min (64 - p % 64) n = 64 - p % 64 := by omega
    have hword : (p + (64 - p % 64)) / 64 = p / 64 + 1 ∧ (p + (64 - p % 64)) % 64 = 0 := by omega
    have hnext : mem ((atOffset mem p).words + 1) = (atOffset mem (p + (64 - p % 64))).buffer := by
      rw [atOffset, atOffset, hword.1, hword.2, BitVec.ushiftRight_zero]
    have hsum : 64 - p % 64 + (n - (64 - p % 64)) = n := by omega
    have hrest : p % 64 + n - 64 = n - (64 - p % 64) := by omega
    rw [if_pos h, hmin, at_next (by omega) (by omega), hrest, ← hsum, bitsOf_add (by omega), hsum]
    dsimp only
    rw [buffer_and_mask (by omega), Nat.zero_add, hnext, buffer_and_mask (by omega)]
  · have hmin : min (64 - p % 64) n = n := by omega
    have hnone : (atOffset mem p).buffer >>> n &&& (1#64 <<< 0 - 1#64) = 0 := by
      rw [BitVec.shiftLeft_zero, BitVec.sub_self, BitVec.and_zero]
      rfl
    rw [if_neg h, hmin, at_add (by omega)]
    dsimp only
    rw [buffer_and_mask (by omega), hnone, BitVec.ofNat_eq_ofNat, BitVec.zero_shiftLeft,
      BitVec.add_zero, BitVec.ushiftRight_zero, atOffset_currentBit, Nat.add_zero]

/-! ## `decode_ints` -/

def decodeScan (mem : ℕ → BitVec 64) (size : ℕ) (r : WordReader) (bits n : ℕ) :
    ℕ × ℕ × WordReader :=
  if bits ≠ 0 ∧ n < size - 1 then
    let q := readBit mem r
    if q.1 then (n, bits - 1, q.2) else decodeScan mem size q.2 (bits - 1) (n + 1)
  else (n, bits, r)
termination_by bits

theorem decodeScan_bits (mem : ℕ → BitVec 64) (size : ℕ) (r : WordReader) (bits n : ℕ) :
    (decodeScan mem size r bits n).2.1 ≤ bits := by
  fun_induction decodeScan with
  | case1 => simp
  | case2 => omega
  | case3 => simp

/-- step 2: unary run-length decode remainder of bit plane -/
def decodeGroups (mem : ℕ → BitVec 64) (size : ℕ) (r : WordReader) (bits : ℕ) (x : BitVec 64)
    (n : ℕ) : BitVec 64 × ℕ × ℕ × WordReader :=
  if bits ≠ 0 ∧ n < size then
    let q := readBit mem r
    if q.1 then
      let t := decodeScan mem size q.2 (bits - 1) n
      decodeGroups mem size t.2.2 t.2.1 (x + 1#64 <<< t.1) (t.1 + 1)
    else (x, n, bits - 1, q.2)
  else (x, n, bits, r)
termination_by bits
decreasing_by
  have := decodeScan_bits mem size (readBit mem r).2 (bits - 1) n
  omega

/-- step 3: deposit bit plane from x -/
def deposit {w : ℕ} (data : ℕ → BitVec w) (k size : ℕ) (x : BitVec 64) : ℕ → BitVec w :=
  (List.range size).foldl
    (fun data i =>
      Function.update data i (data i + (BitVec.ofBool (x.getLsbD i)).setWidth w <<< k)) data

def decodePlanes {w : ℕ} (mem : ℕ → BitVec 64) (size kmin : ℕ) :
    ℕ → WordReader → ℕ → (ℕ → BitVec w) → ℕ → (ℕ → BitVec w)
  | 0, _, _, data, _ => data
  | k + 1, r, bits, data, n =>
    if bits ≠ 0 ∧ kmin ≤ k then
      let m := min n bits
      let q := readBits mem r m
      let t := decodeGroups mem size q.2 (bits - m) q.1 n
      decodePlanes mem size kmin k t.2.2.2 t.2.2.1 (deposit data k size t.1) t.2.1
    else data

def decodeInts {w : ℕ} (mem : ℕ → BitVec 64) (size : ℕ) (r : WordReader) (maxbits : ℕ)
    (data : ℕ → BitVec w) : ℕ → BitVec w :=
  let kmin := 0
  decodePlanes mem size kmin w r maxbits (zeroInts data size) 0

/-- `inv_xform` of the structures `inv_transform<4>`, `inv_transform<16>` and `inv_transform<64>` -/
def invTransform {w : ℕ} : ℕ → (ℕ → BitVec w) → ℕ → BitVec w
  | 1, p => onLine (invLift halfWord) 1 p 0
  | 2, p =>
    let p := (List.range 4).foldl (fun p x => onLine (invLift halfWord) 4 p (1 * x)) p
    (List.range 4).foldl (fun p y => onLine (invLift halfWord) 1 p (4 * y)) p
  | 3, p =>
    let p := lineLoops (invLift halfWord) 16 (fun y x => 1 * x + 4 * y) p
    let p := lineLoops (invLift halfWord) 4 (fun x z => 16 * z + 1 * x) p
    lineLoops (invLift halfWord) 1 (fun z y => 4 * y + 16 * z) p
  | _, p => p

theorem invTransform_eq {w d : ℕ} (hd : 1 ≤ d) (hd' : d ≤ 3) (p : ℕ → BitVec w) :
    invTransform d p = invXform halfWord d p := by
  obtain rfl | rfl | rfl : d = 1 ∨ d = 2 ∨ d = 3 := by omega
  · rfl
  · rfl
  · simp only [invTransform, lineLoops_eq_pass]
    rfl

/-- Decode a block of integers; there is no skip path for integers. -/
def zfpDecode (S : Scalar) (d : ℕ) (mem : ℕ → BitVec 64) (r : WordReader) (maxbits : ℕ)
    (ublock iblock : ℕ → BitVec S.width) : ℕ → BitVec S.width :=
  let ublock := decodeInts mem (4 ^ d) r maxbits ublock
  let iblock := invOrder (NBMASK S) ublock iblock (getPerm d) (4 ^ d)
  invTransform d iblock

/-! ## Lockstep with the serial decoder -/

section

variable (mem : ℕ → BitVec 64)

theorem decodeScan_lockstep (size bits n p : ℕ) :
    ∃ q, decodeScan mem size (atOffset mem p) bits n =
        ((Zfp.decodeScan size (serialAt mem p) bits n).1,
          (Zfp.decodeScan size (serialAt mem p) bits n).2.1, atOffset mem q) ∧
      (Zfp.decodeScan size (serialAt mem p) bits n).2.2 = serialAt mem q := by
  induction bits generalizing n p with
  | zero =>
    rw [decodeScan, Zfp.decodeScan, if_neg (by omega), if_neg (by omega)]
    exact ⟨p, rfl, rfl⟩
  | succ bits ih =>
    rw [decodeScan, Zfp.decodeScan]
    by_cases h : bits + 1 ≠ 0 ∧ n < size - 1
    · rw [if_pos h, if_pos h, readBit_atOffset, streamReadBit_serialAt]
      dsimp only
      cases bitOf mem p
      · exact ih (n + 1) (p + 1)
      · exact ⟨p + 1, rfl, rfl⟩
    · rw [if_neg h, if_neg h]
      exact ⟨p, rfl, rfl⟩

theorem decodeGroups_lockstep (size bits : ℕ) (x : BitVec 64) (n p : ℕ) :
    ∃ q, decodeGroups mem size (atOffset mem p) bits x n =
        ((decodeFewGroups size (serialAt mem p) bits x n).1,
          (decodeFewGroups size (serialAt mem p) bits x n).2.1,
          (decodeFewGroups size (serialAt mem p) bits x n).2.2.1, atOffset mem q) ∧
      (decodeFewGroups size (serialAt mem p) bits x n).2.2.2 = serialAt mem q := by
  induction bits using Nat.strong_induction_on generalizing x n p with
  | _ bits ih =>
    rw [decodeGroups, decodeFewGroups]
    by_cases h : bits ≠ 0 ∧ n < size
    · rw [if_pos h, if_pos h, readBit_atOffset, streamReadBit_serialAt]
      dsimp only
      cases bitOf mem p
      · exact ⟨p + 1, rfl, rfl⟩
      · obtain ⟨q, hq, hq'⟩ := decodeScan_lockstep mem size (bits - 1) n (p + 1)
        have hlt := Zfp.decodeScan_bits size (serialAt mem (p + 1)) (bits - 1) n
        rw [if_pos rfl, if_pos rfl, hq, hq']
        exact ih _ (hlt.trans_lt (by omega)) _ _ q
    · rw [if_neg h, if_neg h]
      exact ⟨p, rfl, rfl⟩

theorem deposit_eq {w : ℕ} (data : ℕ → BitVec w) (k size : ℕ) (x : BitVec 64) (i : ℕ) :
    deposit data k size x i =
      if i < size then data i + (BitVec.ofBool (x.getLsbD i)).setWidth w <<< k else data i := by
  induction size with
  | zero => rfl
  | succ size ih =>
    rw [deposit, List.range_succ, List.foldl_append, List.foldl_cons, List.foldl_nil, ← deposit]
    rcases Nat.lt_trichotomy i size with h | rfl | h
    · rw [Function.update_of_ne h.ne, ih, if_pos h, if_pos (by omega)]
    · rw [Function.update_self, ih, if_neg (Nat.lt_irrefl i), if_pos (Nat.lt_succ_self i)]
    · rw [Function.update_of_ne h.ne', ih, if_neg (by omega), if_neg (by omega)]

theorem decodePlanes_lockstep {w size : ℕ} (hsize : size ≤ 64) (kmin k p bits : ℕ)
    {data data' : ℕ → BitVec w} (hdata : ∀ i < size, data i = data' i) {n : ℕ} (hn : n ≤ size) :
    ∀ i < size, decodePlanes mem size kmin k (atOffset mem p) bits data n i =
      (decodeFewPlanes size kmin k (serialAt mem p) bits data' n).1 i := by
  induction k generalizing p bits data data' n with
  | zero => exact hdata
  | succ k ih =>
    rw [decodePlanes, decodeFewPlanes]
    by_cases h : bits ≠ 0 ∧ kmin ≤ k
    · have hm : min n bits ≤ 64 := by omega
      obtain ⟨q, hq, hq'⟩ := decodeGroups_lockstep mem size (bits - min n bits)
        (bitsOf mem p (min n bits)) n (p + min n bits)
      have hindex := decodeFewGroups_index (serialAt mem (p + min n bits)) (bits - min n bits)
        (bitsOf mem p (min n bits)) hn
      rw [if_pos h, if_pos h]
      simp only [readBits_atOffset mem p hm, streamReadBits_serialAt mem p hm, hq, hq']
      refine ih q _ (fun i hi => ?_) hindex
      rw [deposit_eq, if_pos hi, depositPlane_eq, if_pos (Nat.zero_le i), Nat.sub_zero, hdata i hi]
    · rw [if_neg h, if_neg h]
      exact hdata

/-- The device decodes the integers of the serial decoder from any contents of the stream. -/
theorem decodeInts_eq {w size : ℕ} (hw : w ≤ 64) (hsize : 0 < size) (hsize' : size ≤ 64)
    (p maxbits : ℕ) (data data' : ℕ → BitVec w) : ∀ i < size,
    decodeInts mem size (atOffset mem p) maxbits data i =
      (Zfp.decodeInts (serialAt mem p) maxbits ZFP_MAX_PREC data' size).1 i := by
  intro i hi
  have hzero : ∀ i < size, zeroInts data size i = zeroInts data' size i := by
    intro i hi
    rw [zeroInts_eq, zeroInts_eq, if_pos hi, if_pos hi]
  have hplanes := decodePlanes_lockstep mem hsize' 0 w p maxbits hzero (Nat.zero_le size) i hi
  have hfew := decodeFewInts_rseek (streamOpen (T := .uint64) mem) p maxbits ZFP_MAX_PREC data'
    hsize hsize'
  have hints := decodeInts_rseek (streamOpen (T := .uint64) mem) p maxbits data' hsize
    (hsize'.trans (by decide)) (Nat.le_refl ZFP_MAX_PREC)
  have hkmin : w - ZFP_MAX_PREC = 0 := Nat.sub_eq_zero_of_le hw
  have hserial := congrArg (fun r => r.1 i) (hfew.trans hints.symm)
  rw [decodeInts, hplanes, serialAt, ← hserial, decodeFewInts, hkmin]

theorem zfpDecode_eq {S : Scalar} {d : ℕ} (hd : 1 ≤ d) (hd' : d ≤ 3) (p minbits maxbits : ℕ)
    (ublock iblock out : ℕ → BitVec S.width) : ∀ i < 4 ^ d,
    zfpDecode S d mem (atOffset mem p) maxbits ublock iblock i =
      (decodeIntBlock S d (serialAt mem p) minbits maxbits ZFP_MAX_PREC out).2.2 i := by
  have hsize : 4 ^ d ≤ 64 := Nat.pow_le_pow_right (n := 4) (by decide) hd'
  have hpos : 0 < 4 ^ d := Nat.pow_pos (by decide)
  rw [zfpDecode, decodeIntBlock, getPerm_eq hd hd', invTransform_eq hd hd']
  refine invXform_congr halfWord hd (by omega) (invOrder_congr (NBMASK S) iblock out hd (by omega) ?_)
  exact decodeInts_eq mem S.width_le hpos hsize p maxbits ublock _

end

end Zfp.Cuda

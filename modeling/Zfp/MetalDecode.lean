import Zfp.CudaDecode
import Zfp.MetalEncode
import Zfp.PlaneCodeRoundTrip

/-!
# The Metal decoders

The reader of a block can look ahead and skip, so that the decoders find the end of a run of zeros
by counting trailing zeros. On any contents of the stream they decode the coefficients of the
serial decoder, unless the offset of the block is beyond what the index of a word can hold.
-/

namespace Zfp.Metal
open BitLists Bitstream PlaneCode WordReader

/-! ## `ZfpBlockReader1` -/

def zfpMakeReader1 (mem : ℕ → BitVec 64) (maxbits blockIdx : ℕ) : WordReader :=
  let bit0 := blockIdx * maxbits
  let wi := bit0 / 64 % 2 ^ 32
  let currentBit := bit0 % 64
  ⟨wi, shr (mem wi) currentBit, currentBit⟩

def zfpReaderReadBit (mem : ℕ → BitVec 64) (r : WordReader) : Bool × WordReader :=
  let b := r.buffer.getLsbD 0
  let r := { r with currentBit := r.currentBit + 1, buffer := shr r.buffer 1 }
  if 64 ≤ r.currentBit then (b, ⟨r.words + 1, mem (r.words + 1), 0⟩) else (b, r)

/-- Peek at the next 'count' bits without consuming them. -/
def zfpReaderPeekBits (mem : ℕ → BitVec 64) (r : WordReader) (count : ℕ) : BitVec 64 :=
  if count = 0 then 0
  else
    let rem := 64 - r.currentBit
    if count ≤ rem then
      let mask := if 64 ≤ count then BitVec.allOnes 64 else shl 1#64 count - 1#64
      r.buffer &&& mask
    else
      -- need bits from next word too
      let lo := r.buffer
      let hi := mem (r.words + 1)
      let hiBits := count - rem
      let hiMask := if 64 ≤ hiBits then BitVec.allOnes 64 else shl 1#64 hiBits - 1#64
      lo ||| shl (hi &&& hiMask) rem

/-- Skip (consume) 'count' bits that were already peeked at. -/
def zfpReaderSkip (mem : ℕ → BitVec 64) (r : WordReader) (count : ℕ) : WordReader :=
  let currentBit := r.currentBit + count
  if 64 ≤ currentBit then
    ⟨r.words + 1, shr (mem (r.words + 1)) (currentBit - 64), currentBit - 64⟩
  else { r with currentBit := currentBit, buffer := shr r.buffer count }

def zfpReaderReadBits (mem : ℕ → BitVec 64) (r : WordReader) (nbits : ℕ) : BitVec 64 × WordReader :=
  let rem := 64 - r.currentBit
  let first := min rem nbits
  let mask := if first = 64 then BitVec.allOnes 64 else shl 1#64 first - 1#64
  let bits := r.buffer &&& mask
  let r := { r with buffer := shr r.buffer first, currentBit := r.currentBit + first }
  let r := if rem ≤ nbits then ⟨r.words + 1, mem (r.words + 1), 0⟩ else r
  let next := nbits - first
  let mask :=
    if next = 64 then BitVec.allOnes 64 else if next = 0 then 0 else shl 1#64 next - 1#64
  (bits ||| shl (r.buffer &&& mask) first,
    { r with buffer := shr r.buffer next, currentBit := r.currentBit + next })

/-- The index of the first word is a `uint`. -/
theorem zfpMakeReader1_eq (mem : ℕ → BitVec 64) (maxbits blockIdx : ℕ) :
    zfpMakeReader1 mem maxbits blockIdx = atOffset mem (blockIdx * maxbits % 2 ^ 38) := by
  have hword : blockIdx * maxbits % 2 ^ 38 / 64 = blockIdx * maxbits / 64 % 2 ^ 32 := by omega
  have hbit : blockIdx * maxbits % 2 ^ 38 % 64 = blockIdx * maxbits % 64 := by omega
  rw [zfpMakeReader1, atOffset, hword, hbit, shr_of_lt _ (Nat.mod_lt _ (by decide))]

section

variable (mem : ℕ → BitVec 64) (p : ℕ)

theorem zfpReaderReadBit_atOffset :
    zfpReaderReadBit mem (atOffset mem p) = (bitOf mem p, atOffset mem (p + 1)) := by
  have hone : ∀ x, shr x 1 = x >>> 1 := fun x => shr_of_lt x (by decide)
  have h := Cuda.readBit_atOffset mem p
  rw [Cuda.readBit] at h
  rw [zfpReaderReadBit, hone]
  exact h

theorem zfpReaderSkip_atOffset {n : ℕ} (hn : n ≤ 64) :
    zfpReaderSkip mem (atOffset mem p) n = atOffset mem (p + n) := by
  rw [zfpReaderSkip, atOffset_currentBit]
  split
  · next h => rw [at_next h (by omega), shr_of_lt _ (by omega)]
  · next h => rw [at_add (by omega), shr_of_lt _ (by omega), atOffset_currentBit]

/-- The next word, as the bits that follow those of the buffer. -/
theorem next_word : mem ((atOffset mem p).words + 1) = (atOffset mem (p + (64 - p % 64))).buffer := by
  have hword : (p + (64 - p % 64)) / 64 = p / 64 + 1 ∧ (p + (64 - p % 64)) % 64 = 0 := by omega
  rw [atOffset, atOffset, hword.1, hword.2, BitVec.ushiftRight_zero]

/-- The bits of a buffer under a mask. -/
theorem buffer_and_keep {n : ℕ} (h : p % 64 + n ≤ 64) :
    ((atOffset mem p).buffer &&& if 64 ≤ n then BitVec.allOnes 64 else shl 1#64 n - 1#64) =
      bitsOf mem p n := by
  apply BitVec.eq_of_getLsbD_eq
  intro i _
  rw [getLsbD_keep, getLsbD_buffer, getLsbD_bitsOf mem p (by omega)]
  by_cases hi : i < n
  · rw [decide_eq_true (by omega : i < 64 - p % 64), Bool.true_and]
  · rw [decide_eq_false hi, Bool.false_and, Bool.false_and]

theorem buffer_eq_bitsOf : (atOffset mem p).buffer = bitsOf mem p (64 - p % 64) := by
  apply BitVec.eq_of_getLsbD_eq
  intro i _
  rw [getLsbD_buffer, getLsbD_bitsOf mem p (by omega)]

theorem zfpReaderPeekBits_atOffset {n : ℕ} (hn : n ≤ 64) :
    zfpReaderPeekBits mem (atOffset mem p) n = bitsOf mem p n := by
  rw [zfpReaderPeekBits]
  split
  · next h => rw [h, bitsOf_zero]
  rw [atOffset_currentBit]
  dsimp only
  split
  · next h => exact buffer_and_keep mem p (by omega)
  · next h =>
    have hsum : 64 - p % 64 + (n - (64 - p % 64)) = n := by omega
    rw [next_word mem p, buffer_and_keep mem _ (by omega), shl_of_lt _ (by omega), buffer_eq_bitsOf,
      ← bitsOf_or (by omega), hsum]

theorem zfpReaderReadBits_atOffset {n : ℕ} (hn : n ≤ 64) :
    zfpReaderReadBits mem (atOffset mem p) n = (bitsOf mem p n, atOffset mem (p + n)) := by
  have hmask : ∀ k ≤ 64, (if k = 64 then BitVec.allOnes 64 else shl 1#64 k - 1#64) =
      if 64 ≤ k then BitVec.allOnes 64 else shl 1#64 k - 1#64 := fun k hk => by
    split_ifs <;> first | rfl | omega
  have hmask' : ∀ k ≤ 64, (if k = 64 then BitVec.allOnes 64 else if k = 0 then 0 else
      shl 1#64 k - 1#64) = if 64 ≤ k then BitVec.allOnes 64 else shl 1#64 k - 1#64 := fun k hk => by
    rw [← hmask k hk]
    split_ifs with h64 h0
    · rfl
    · rw [h0]
      rfl
    · rfl
  rw [zfpReaderReadBits, atOffset_currentBit]
  by_cases h : 64 - p % 64 ≤ n
  · -- the read ends in the next word, perhaps before its first bit
    have hmin : min (64 - p % 64) n = 64 - p % 64 := by omega
    have hsum : 64 - p % 64 + (n - (64 - p % 64)) = n := by omega
    have hrest : p % 64 + n - 64 = n - (64 - p % 64) := by omega
    have hnext : bitsOf mem p (64 - p % 64) |||
        shl (bitsOf mem (p + (64 - p % 64)) (n - (64 - p % 64))) (64 - p % 64) = bitsOf mem p n := by
      rcases Nat.eq_zero_or_pos (p % 64) with hzero | hpos
      · obtain rfl : n = 64 := by omega
        rw [hzero, Nat.sub_zero, Nat.sub_self, bitsOf_zero, shl, BitVec.ofNat_eq_ofNat,
          BitVec.zero_shiftLeft, BitVec.or_zero]
      · rw [shl_of_lt _ (by omega), ← bitsOf_or (by omega), hsum]
    rw [hmin, if_pos h]
    dsimp only
    rw [hmask _ (by omega), hmask' _ (by omega), buffer_and_keep mem p (by omega),
      at_next (by omega) (by omega), hrest, shr_of_lt _ (by omega), Nat.zero_add]
    rw [next_word mem p, buffer_and_keep mem _ (by omega), hnext]
  · have hmin : min (64 - p % 64) n = n := by omega
    have hnone : shl (shr (atOffset mem p).buffer n &&& (if 0 = 64 then BitVec.allOnes 64 else
        if 0 = 0 then 0 else shl 1#64 0 - 1#64)) n = 0 := by
      rw [if_neg (by decide), if_pos rfl, BitVec.ofNat_eq_ofNat, BitVec.and_zero, shl,
        BitVec.zero_shiftLeft]
    rw [hmin, if_neg h, Nat.sub_self]
    dsimp only
    rw [hnone, hmask _ (by omega), buffer_and_keep mem p (by omega),
      shr_of_lt _ (show n < 64 by omega), shr_of_lt _ (show 0 < 64 by decide), at_add (by omega),
        atOffset_currentBit, BitVec.ushiftRight_zero,
      Nat.add_zero, BitVec.ofNat_eq_ofNat, BitVec.or_zero]

end

/-! ## The decoding of bit planes -/

/-- The run of zeros after a positive group test and its one-bit. -/
def decodeRun (mem : ℕ → BitVec 64) (size : ℕ) (r : WordReader) (bits n : ℕ) :
    ℕ × ℕ × WordReader :=
  let innerMax := min (size - 1 - n) bits
  if 0 < innerMax then
    let peek := zfpReaderPeekBits mem r innerMax
    let z := if peek ≠ 0 then peek.ctz.toNat else innerMax
    let run := min z innerMax
    let r := if 0 < run then zfpReaderSkip mem r run else r
    -- found: consume the '1' bit
    if z < innerMax then (n + run, bits - run - 1, zfpReaderSkip mem r 1)
    else (n + run, bits - run, r)
  else (n, bits, r)

theorem decodeRun_bits (mem : ℕ → BitVec 64) (size : ℕ) (r : WordReader) (bits n : ℕ) :
    (decodeRun mem size r bits n).2.1 ≤ bits := by
  rw [decodeRun]
  dsimp only
  split_ifs <;> dsimp only <;> omega

def decodeGroups (mem : ℕ → BitVec 64) (size : ℕ) (r : WordReader) (bits : ℕ) (x : BitVec 64)
    (n : ℕ) : BitVec 64 × ℕ × ℕ × WordReader :=
  if bits ≠ 0 ∧ n < size then
    let q := zfpReaderReadBit mem r
    if q.1 then
      -- group test passed: find next significant coefficient
      let t := decodeRun mem size q.2 (bits - 1) n
      decodeGroups mem size t.2.2 t.2.1 (x + shl 1#64 t.1) (t.1 + 1)
    else (x, n, bits - 1, q.2)
  else (x, n, bits, r)
termination_by bits
decreasing_by
  have := decodeRun_bits mem size (zfpReaderReadBit mem r).2 (bits - 1) n
  omega

/-- Add the low bits of a plane to the coefficients `lo, …, hi - 1`. -/
def scatterBits {v w : ℕ} (x : BitVec v) (k lo hi : ℕ) (ub : ℕ → BitVec w) : ℕ → BitVec w :=
  ((List.range' lo (hi - lo)).foldl
    (fun (ub, x) i =>
      (Function.update ub i (ub i + (x &&& 1#v).setWidth w <<< k), x >>> 1)) (ub, x)).1

/-- Scatter a bit plane, in 64, 32 or twice 32 bits. -/
def scatterPlane {w : ℕ} (x : BitVec 64) (k : ℕ) (ub : ℕ → BitVec w) : ℕ → (ℕ → BitVec w)
  | 1 => scatterBits x k 0 4 ub
  | 2 => scatterBits ((x &&& 0xFFFF#64).setWidth 32) k 0 16 ub
  | 3 =>
    let xLo := (x &&& 0xFFFFFFFF#64).setWidth 32
    let xHi := (shr x 32).setWidth 32
    scatterBits xHi k 32 64 (scatterBits xLo k 0 32 ub)
  | _ => ub

def decodePlanes {w : ℕ} (mem : ℕ → BitVec 64) (d : ℕ) :
    ℕ → WordReader → ℕ → (ℕ → BitVec w) → ℕ → (ℕ → BitVec w)
  | 0, _, _, ub, _ => ub
  | k + 1, r, bits, ub, n =>
    if bits ≠ 0 then
      let m := min n bits
      let q := zfpReaderReadBits mem r m
      let t := decodeGroups mem (4 ^ d) q.2 (bits - m) q.1 n
      decodePlanes mem d k t.2.2.2 t.2.2.1 (scatterPlane t.1 k ub d) t.2.1
    else ub

/-! ## Lockstep with the serial decoder -/

/-- A scan of the serial decoder that finds the next one-bit. -/
theorem decodeScan_found (mem : ℕ → BitVec 64) {size bits n p z : ℕ}
    (hz : z < min (size - 1 - n) bits) (hone : bitOf mem (p + z) = true)
    (hlow : ∀ i < z, bitOf mem (p + i) = false) :
    Zfp.decodeScan size (serialAt mem p) bits n =
      (n + z, bits - z - 1, serialAt mem (p + z + 1)) := by
  induction z generalizing bits n p with
  | zero =>
    rw [Zfp.decodeScan, if_pos (by omega), streamReadBit_serialAt]
    rw [Nat.add_zero] at hone
    dsimp only
    rw [hone]
    rfl
  | succ z ih =>
    have hfirst := hlow 0 (by omega)
    rw [Nat.add_zero] at hfirst
    rw [Zfp.decodeScan, if_pos (by omega), streamReadBit_serialAt]
    dsimp only
    have hp : p + 1 + z = p + (z + 1) := by omega
    rw [hfirst, if_neg Bool.false_ne_true, ih (by omega) (by rwa [hp]) fun i hi => by
      have hpi : p + 1 + i = p + (i + 1) := by omega
      rw [hpi]
      exact hlow (i + 1) (by omega)]
    have hbits : bits - 1 - z - 1 = bits - (z + 1) - 1 := by omega
    have hn : n + 1 + z = n + (z + 1) := by omega
    rw [hbits, hn, hp]

/-- A scan that ends before the next one-bit. -/
theorem decodeScan_end (mem : ℕ → BitVec 64) {size bits n p m : ℕ} (hm : m = min (size - 1 - n) bits)
    (hlow : ∀ i < m, bitOf mem (p + i) = false) :
    Zfp.decodeScan size (serialAt mem p) bits n = (n + m, bits - m, serialAt mem (p + m)) := by
  induction m generalizing bits n p with
  | zero =>
    rw [Zfp.decodeScan, if_neg (by omega)]
    rfl
  | succ m ih =>
    have hfirst := hlow 0 (by omega)
    rw [Nat.add_zero] at hfirst
    rw [Zfp.decodeScan, if_pos (by omega), streamReadBit_serialAt]
    dsimp only
    have hp : p + 1 + m = p + (m + 1) := by omega
    rw [hfirst, if_neg Bool.false_ne_true, ih (by omega) fun i hi => by
      have hpi : p + 1 + i = p + (i + 1) := by omega
      rw [hpi]
      exact hlow (i + 1) (by omega)]
    have hbits : bits - 1 - m = bits - (m + 1) := by omega
    have hn : n + 1 + m = n + (m + 1) := by omega
    rw [hbits, hn, hp]

section

variable (mem : ℕ → BitVec 64)

/-- Looking ahead finds what the serial scan finds. -/
theorem decodeRun_lockstep {size : ℕ} (hsize : size ≤ 64) (bits n p : ℕ) :
    ∃ q, decodeRun mem size (atOffset mem p) bits n =
        ((Zfp.decodeScan size (serialAt mem p) bits n).1,
          (Zfp.decodeScan size (serialAt mem p) bits n).2.1, atOffset mem q) ∧
      (Zfp.decodeScan size (serialAt mem p) bits n).2.2 = serialAt mem q := by
  have hmax : min (size - 1 - n) bits ≤ 64 := by omega
  have hskip : ∀ k ≤ 64, (if 0 < k then zfpReaderSkip mem (atOffset mem p) k else atOffset mem p) =
      atOffset mem (p + k) := fun k hk => by
    split
    · exact zfpReaderSkip_atOffset mem p hk
    · next h => rw [Nat.eq_zero_of_not_pos h, Nat.add_zero]
  rw [decodeRun]
  dsimp only
  generalize hm : min (size - 1 - n) bits = m at hmax ⊢
  rw [zfpReaderPeekBits_atOffset mem p hmax]
  by_cases hpeek : bitsOf mem p m = 0
  · -- no one-bit
    have hlow : ∀ i < m, bitOf mem (p + i) = false := fun i hi => by
      have hbit := getLsbD_bitsOf mem p hmax i
      rw [hpeek, decide_eq_true hi, Bool.true_and] at hbit
      exact hbit.symm.trans BitVec.getLsbD_zero
    rw [decodeScan_end mem hm.symm hlow]
    refine ⟨p + m, ?_, rfl⟩
    rw [if_neg (not_not_intro hpeek), Nat.min_self, if_neg (Nat.lt_irrefl m), hskip m hmax]
    split
    · rfl
    · next h => rw [Nat.eq_zero_of_not_pos h, Nat.add_zero, Nat.add_zero, Nat.sub_zero]
  · have hone := BitVec.getLsbD_true_ctz_of_ne_zero hpeek
    have hlow : ∀ i < (bitsOf mem p m).ctz.toNat, (bitsOf mem p m).getLsbD i = false :=
      fun i hi => BitVec.getLsbD_false_of_lt_ctz hi
    rw [if_pos hpeek]
    generalize (bitsOf mem p m).ctz.toNat = z at hone hlow ⊢
    rw [getLsbD_bitsOf mem p hmax, Bool.and_eq_true, decide_eq_true_eq] at hone
    have hzeros : ∀ i < z, bitOf mem (p + i) = false := fun i hi => by
      have hbit := hlow i hi
      rwa [getLsbD_bitsOf mem p hmax, decide_eq_true (hi.trans hone.1), Bool.true_and] at hbit
    rw [decodeScan_found mem (by omega) hone.2 hzeros]
    refine ⟨p + z + 1, ?_, rfl⟩
    rw [if_pos (Nat.zero_lt_of_lt hone.1), Nat.min_eq_left hone.1.le, if_pos hone.1, hskip z (by omega),
      zfpReaderSkip_atOffset mem _ (by decide)]

theorem decodeGroups_lockstep {size : ℕ} (hsize : size ≤ 64) (bits : ℕ) (x : BitVec 64) (n p : ℕ) :
    ∃ q, decodeGroups mem size (atOffset mem p) bits x n =
        ((decodeFewGroups size (serialAt mem p) bits x n).1,
          (decodeFewGroups size (serialAt mem p) bits x n).2.1,
          (decodeFewGroups size (serialAt mem p) bits x n).2.2.1, atOffset mem q) ∧
      (decodeFewGroups size (serialAt mem p) bits x n).2.2.2 = serialAt mem q := by
  induction bits using Nat.strong_induction_on generalizing x n p with
  | _ bits ih =>
    rw [decodeGroups, decodeFewGroups]
    by_cases h : bits ≠ 0 ∧ n < size
    · rw [if_pos h, if_pos h, zfpReaderReadBit_atOffset, streamReadBit_serialAt]
      dsimp only
      cases bitOf mem p
      · exact ⟨p + 1, rfl, rfl⟩
      · obtain ⟨q, hq, hq'⟩ := decodeRun_lockstep mem hsize (bits - 1) n (p + 1)
        have hlt := Zfp.decodeScan_bits size (serialAt mem (p + 1)) (bits - 1) n
        have hindex := decodeScan_lt size (serialAt mem (p + 1)) (bits - 1) h.2
        rw [if_pos rfl, if_pos rfl, hq, hq', shl_of_lt _ (by dsimp only; omega)]
        exact ih _ (hlt.trans_lt (by omega)) _ _ q
    · rw [if_neg h, if_neg h]
      exact ⟨p, rfl, rfl⟩

theorem scatterBits_eq {v w : ℕ} (x : BitVec v) (k lo n : ℕ) (ub : ℕ → BitVec w) (i : ℕ) :
    scatterBits x k lo (lo + n) ub i =
      if lo ≤ i ∧ i < lo + n then
        ub i + (BitVec.ofBool (x.getLsbD (i - lo))).setWidth w <<< k
      else ub i := by
  rw [scatterBits, Nat.add_sub_cancel_left]
  induction n generalizing lo ub x with
  | zero => rw [if_neg (by omega)]; rfl
  | succ n ih =>
    have hbit := and_one_eq_bit x 0 (v := w)
    rw [BitVec.ushiftRight_zero] at hbit
    rw [List.range'_succ, List.foldl_cons, ih, hbit, BitVec.getLsbD_ushiftRight]
    rcases Nat.lt_trichotomy i lo with h | rfl | h
    · rw [if_neg (by omega), if_neg (by omega), Function.update_of_ne h.ne]
    · rw [if_neg (by omega), if_pos (by omega), Function.update_self, Nat.sub_self]
    · have hsub : 1 + (i - (lo + 1)) = i - lo := by omega
      rw [Function.update_of_ne h.ne', hsub]
      split_ifs <;> first | rfl | omega

theorem scatterPlane_eq {w d : ℕ} (hd : 1 ≤ d) (hd' : d ≤ 3) (x : BitVec 64) (k : ℕ)
    (ub : ℕ → BitVec w) {i : ℕ} (hi : i < 4 ^ d) :
    scatterPlane x k ub d i = ub i + (BitVec.ofBool (x.getLsbD i)).setWidth w <<< k := by
  have hmask : ∀ n ≤ 32, ∀ j < n,
      ((x &&& (1#64 <<< n - 1#64)).setWidth 32).getLsbD j = x.getLsbD j := fun n hn j hj => by
    rw [BitVec.getLsbD_setWidth, getLsbD_and_mask x (by omega), decide_eq_true hj,
      decide_eq_true (hj.trans_le hn), Bool.true_and, Bool.true_and]
  obtain rfl | rfl | rfl : d = 1 ∨ d = 2 ∨ d = 3 := by omega
  · have h := scatterBits_eq x k 0 4 ub i
    rw [Nat.zero_add, if_pos ⟨Nat.zero_le i, hi⟩] at h
    exact h
  · have h := scatterBits_eq ((x &&& 0xFFFF#64).setWidth 32) k 0 16 ub i
    rw [Nat.zero_add, if_pos ⟨Nat.zero_le i, hi⟩, Nat.sub_zero] at h
    exact h.trans (by rw [← hmask 16 (by decide) i hi]; rfl)
  · have hlow := scatterBits_eq ((x &&& 0xFFFFFFFF#64).setWidth 32) k 0 32 ub i
    have hhigh := scatterBits_eq ((shr x 32).setWidth 32) k 32 32
      (scatterBits ((x &&& 0xFFFFFFFF#64).setWidth 32) k 0 32 ub) i
    have hi64 : i < 64 := hi
    rw [Nat.zero_add] at hlow
    refine hhigh.trans ?_
    rw [hlow]
    rcases Nat.lt_or_ge i 32 with hlt | hge
    · rw [if_neg (by omega), if_pos ⟨Nat.zero_le i, hlt⟩, Nat.sub_zero,
        ← hmask 32 (by decide) i hlt]
      rfl
    · obtain ⟨j, rfl⟩ := Nat.exists_eq_add_of_le hge
      rw [if_pos ⟨hge, hi64⟩, if_neg (by omega), shr_of_lt _ (by decide), Nat.add_sub_cancel_left,
        BitVec.getLsbD_setWidth, BitVec.getLsbD_ushiftRight, decide_eq_true (by omega : j < 32),
        Bool.true_and]

theorem decodePlanes_lockstep {w d : ℕ} (hd : 1 ≤ d) (hd' : d ≤ 3) (k p bits : ℕ)
    {ub data : ℕ → BitVec w} (hdata : ∀ i < 4 ^ d, ub i = data i) {n : ℕ} (hn : n ≤ 4 ^ d) :
    ∀ i < 4 ^ d, decodePlanes mem d k (atOffset mem p) bits ub n i =
      (decodeFewPlanes (4 ^ d) 0 k (serialAt mem p) bits data n).1 i := by
  have hsize : 4 ^ d ≤ 64 := Nat.pow_le_pow_right (n := 4) (by decide) hd'
  induction k generalizing p bits ub data n with
  | zero => exact hdata
  | succ k ih =>
    rw [decodePlanes, decodeFewPlanes]
    by_cases h : bits ≠ 0
    · have hm : min n bits ≤ 64 := by omega
      obtain ⟨q, hq, hq'⟩ := decodeGroups_lockstep mem hsize (bits - min n bits)
        (bitsOf mem p (min n bits)) n (p + min n bits)
      have hindex := decodeFewGroups_index (serialAt mem (p + min n bits)) (bits - min n bits)
        (bitsOf mem p (min n bits)) hn
      rw [if_pos h, if_pos ⟨h, Nat.zero_le k⟩]
      simp only [zfpReaderReadBits_atOffset mem p hm, streamReadBits_serialAt mem p hm, hq, hq']
      refine ih q _ (fun i hi => ?_) hindex
      rw [scatterPlane_eq hd hd' _ _ _ hi, depositPlane_eq, if_pos (Nat.zero_le i), Nat.sub_zero,
        hdata i hi]
    · rw [if_neg h, if_neg fun h' => h h'.1]
      exact hdata

/-- The coefficients of `decode_few_ints` with full precision. -/
theorem decodePlanes_eq {w d : ℕ} (hw : w ≤ 64) (hd : 1 ≤ d) (hd' : d ≤ 3) (p maxbits : ℕ)
    (data : ℕ → BitVec w) : ∀ i < 4 ^ d,
    decodePlanes mem d w (atOffset mem p) maxbits (fun _ => 0) 0 i =
      (decodeFewInts (serialAt mem p) maxbits ZFP_MAX_PREC data (4 ^ d)).1 i := by
  have hkmin : w - ZFP_MAX_PREC = 0 := Nat.sub_eq_zero_of_le hw
  rw [decodeFewInts, hkmin]
  refine decodePlanes_lockstep mem hd hd' w p maxbits (fun i hi => ?_) (Nat.zero_le _)
  rw [zeroInts_eq, if_pos hi]

/-- Two equal bits at the start decide on the highest bit of the first coefficient. -/
theorem decodeFewInts_first {w size : ℕ} (hw : 0 < w) (hw' : w ≤ 64) (hsize : 0 < size)
    (hsize' : size ≤ 64) {p maxbits : ℕ} (hmax : 0 < maxbits)
    (hbits : bitOf mem (p + 1) = bitOf mem p) (data : ℕ → BitVec w) :
    ((decodeFewInts (serialAt mem p) maxbits ZFP_MAX_PREC data size).1 0).getLsbD (w - 1) =
      bitOf mem p := by
  have h := decodeFewInts_rseek (streamOpen (T := .uint64) mem) p maxbits ZFP_MAX_PREC data hsize hsize'
  obtain ⟨k, rfl⟩ : ∃ k, w = k + 1 := ⟨w - 1, by omega⟩
  rw [serialAt, h, decoded]
  dsimp only
  rw [storeInts_of_lt _ _ hsize, getLsbD_wordOf, Nat.add_sub_cancel,
    decide_eq_true (Nat.lt_succ_self k), Bool.true_and, intsDecode]
  have hkmin : k + 1 - ZFP_MAX_PREC ≤ k := (Nat.sub_eq_zero_of_le hw').trans_le (Nat.zero_le k)
  refine planesDecode_first hsize ?_ hkmin hbits
  rw [more_some, decide_eq_true_eq]
  omega

end

/-! ## Block decoders -/

def intCoefficients (S : Scalar) (d : ℕ) (mem : ℕ → BitVec 64) (maxbits blockIdx : ℕ) :
    ℕ → BitVec S.width :=
  let r := zfpMakeReader1 mem maxbits blockIdx
  decodePlanes mem d S.width r maxbits (fun _ => 0) 0

/-- The exponent and the coefficients of a block of floating-point numbers whose first bit is
set. -/
def floatCoefficients (d : ℕ) (mem : ℕ → BitVec 64) (maxbits blockIdx : ℕ) :
    Option (ℤ × (ℕ → BitVec Scalar.float.width)) :=
  let q := zfpReaderReadBit mem (zfpMakeReader1 mem maxbits blockIdx)
  if !q.1 then none
  else
    let e := zfpReaderReadBits mem q.2 8
    let emax := (e.1.toNat : ℤ) - 127
    let bits := uintSub maxbits 9
    some (emax, decodePlanes mem d 32 e.2 bits (fun _ => 0) 0)

/-- The coefficients that a decoder finds. -/
def coefficientsAt (S : Scalar) (d : ℕ) (mem : ℕ → BitVec 64) (maxbits blockIdx : ℕ) :
    Option (ℕ → BitVec S.width) :=
  match S with
  | .float => (floatCoefficients d mem maxbits blockIdx).map Prod.snd
  | .double => none
  | .int32 => some (intCoefficients .int32 d mem maxbits blockIdx)
  | .int64 => some (intCoefficients .int64 d mem maxbits blockIdx)

section

variable {S : Scalar} {d : ℕ} (mem : ℕ → BitVec 64) (maxbits blockIdx : ℕ)

theorem floatCoefficients_eq (hd : 1 ≤ d) (hd' : d ≤ 3) {p : ℕ}
    (hp : p = blockIdx * maxbits % 2 ^ 38) (data : ℕ → BitVec 32) :
    (bitOf mem p = false → floatCoefficients d mem maxbits blockIdx = none) ∧
    (bitOf mem p = true → ∃ emax ub, floatCoefficients d mem maxbits blockIdx = some (emax, ub) ∧
      ∀ i < 4 ^ d, ub i =
        (decodeFewInts (serialAt mem (p + 9)) (uintSub maxbits 9) ZFP_MAX_PREC data (4 ^ d)).1 i) := by
  rw [floatCoefficients, zfpMakeReader1_eq, ← hp, zfpReaderReadBit_atOffset]
  dsimp only
  rw [zfpReaderReadBits_atOffset mem _ (by decide)]
  constructor
  · intro hbit
    rw [hbit]
    rfl
  · intro hbit
    rw [hbit]
    exact ⟨_, _, rfl, decodePlanes_eq mem (by decide) hd hd' (p + 9) (uintSub maxbits 9) data⟩

theorem sideBits_int (h : S.isFloat = false) : sideBits S false = 0 := by
  rw [sideBits, h]
  rfl

/-- What the decoders find, at the offset that the reader starts from. -/
theorem coefficientsAt_eq (hS : S ≠ .double) (hd : 1 ≤ d) (hd' : d ≤ 3) (hmax : maxbits < 2 ^ 32)
    {p : ℕ} (hp : p = blockIdx * maxbits % 2 ^ 38) (h : S.isFloat = true → bitOf mem p = true) :
    ∃ ub, coefficientsAt S d mem maxbits blockIdx = some ub ∧ ∀ data : ℕ → BitVec S.width,
      ∀ i < 4 ^ d, ub i = (decodeFewInts (serialAt mem (p + sideBits S false))
        (uintSub maxbits (sideBits S false)) ZFP_MAX_PREC data (4 ^ d)).1 i := by
  have hzero : uintSub maxbits 0 = maxbits := uintSub_eq hmax (Nat.zero_le maxbits)
  cases S
  case float =>
    have hcoeffs := fun data => (floatCoefficients_eq mem maxbits blockIdx hd hd' hp data).2 (h rfl)
    obtain ⟨emax, ub, hub, -⟩ := hcoeffs fun _ => 0
    have hside : sideBits .float false = 9 := rfl
    refine ⟨ub, by rw [coefficientsAt, hub, Option.map_some], fun data i hi => ?_⟩
    obtain ⟨emax', ub', hub', heq⟩ := hcoeffs data
    obtain ⟨-, rfl⟩ := Prod.mk.inj (Option.some.inj (hub.symm.trans hub'))
    rw [hside]
    exact heq i hi
  case double => exact absurd rfl hS
  all_goals
    refine ⟨_, rfl, fun data i hi => ?_⟩
    rw [intCoefficients, zfpMakeReader1_eq, ← hp, sideBits_int rfl, hzero, Nat.add_zero]
    exact decodePlanes_eq mem (Scalar.width_le _) hd hd' p maxbits data i hi

end

/-- Zeros before the word of a bit, ones from that word on. -/
def stepAt (p j : ℕ) : BitVec 64 := if j < p / 64 then 0 else BitVec.allOnes 64

theorem bitOf_stepAt (p i : ℕ) : bitOf (stepAt p) i = decide (p / 64 ≤ i / 64) := by
  rw [bitOf, stepAt]
  split
  · next h => rw [decide_eq_false (Nat.not_le.mpr h), BitVec.ofNat_eq_ofNat, BitVec.getLsbD_zero]
  · next h =>
    rw [decide_eq_true (Nat.le_of_not_lt h), BitVec.getLsbD_allOnes,
      decide_eq_true (Nat.mod_lt i (by decide))]

/-- A block past the words that the index can tell apart. -/
theorem coefficientsAt_wraps {S : Scalar} {d : ℕ} (hS : S ≠ .double) (hd : 1 ≤ d) (hd' : d ≤ 3)
    {maxbits : ℕ} (hmax : maxbits < 2 ^ 32) {blockIdx p : ℕ} (hp : p = blockIdx * maxbits)
    (hge : 2 ^ 38 ≤ p) :
    (∀ i ≥ p, bitOf (stepAt p) i = true) ∧
    ¬ ∃ ub, coefficientsAt S d (stepAt p) maxbits blockIdx = some ub ∧
      ∀ data : ℕ → BitVec S.width, ∀ i < 4 ^ d, ub i =
        (decodeFewInts (serialAt (stepAt p) (p + sideBits S false))
          (uintSub maxbits (sideBits S false)) ZFP_MAX_PREC data (4 ^ d)).1 i := by
  have hsize : 4 ^ d ≤ 64 := Nat.pow_le_pow_right (n := 4) (by decide) hd'
  have hpow : 0 < 4 ^ d := Nat.pow_pos (by decide)
  have hpos : 0 < maxbits := by
    rcases Nat.eq_zero_or_pos maxbits with hzero | hpos
    · rw [hp, hzero, Nat.mul_zero] at hge
      exact absurd hge (by decide)
    · exact hpos
  obtain ⟨q, hq, hqp⟩ : ∃ q, q = blockIdx * maxbits % 2 ^ 38 ∧ (q + 1) / 64 < p / 64 := by
    refine ⟨_, rfl, ?_⟩
    rw [← hp]
    omega
  have hzeros : ∀ i ≤ q + 1, bitOf (stepAt p) i = false := fun i hi => by
    have hdiv := Nat.div_le_div_right (c := 64) hi
    rw [bitOf_stepAt, decide_eq_false (by omega)]
  have hones : ∀ i ≥ p, bitOf (stepAt p) i = true := fun i hi => by
    rw [bitOf_stepAt, decide_eq_true (Nat.div_le_div_right hi)]
  refine ⟨hones, ?_⟩
  rintro ⟨ub, hub, hserial⟩
  cases hfloat : S.isFloat
  · -- the highest bits of the first coefficient differ
    obtain ⟨ub', hub', hmetal⟩ := coefficientsAt_eq (stepAt p) maxbits blockIdx hS hd hd' hmax hq
      (fun hf => absurd (hfloat.symm.trans hf) Bool.false_ne_true)
    have hbits : uintSub maxbits 0 = maxbits := uintSub_eq hmax (Nat.zero_le maxbits)
    rw [hub] at hub'
    cases hub'
    have heq := (hmetal (fun _ => 0) 0 hpow).symm.trans (hserial (fun _ => 0) 0 hpow)
    have htop := congrArg (fun x => x.getLsbD (S.width - 1)) heq
    rw [sideBits_int hfloat, hbits, Nat.add_zero, Nat.add_zero,
      decodeFewInts_first _ S.width_pos S.width_le hpow hsize hpos
        ((hzeros _ (Nat.le_refl _)).trans (hzeros _ (Nat.le_succ q)).symm),
      decodeFewInts_first _ S.width_pos S.width_le hpow hsize hpos
        ((hones _ (Nat.le_succ p)).trans (hones _ (Nat.le_refl p)).symm),
      hzeros _ (Nat.le_succ q), hones _ (Nat.le_refl p)] at htop
    exact absurd htop Bool.false_ne_true
  · -- the block is found empty
    obtain rfl : S = .float := by
      cases S
      case float => rfl
      case double => exact absurd rfl hS
      all_goals exact absurd hfloat Bool.false_ne_true
    have hnone := (floatCoefficients_eq (stepAt p) maxbits blockIdx hd hd' hq fun _ => 0).1
      (hzeros q (Nat.le_succ q))
    rw [coefficientsAt, hnone] at hub
    exact absurd hub (Option.some_ne_none ub).symm

/-- The reader, wherever it is, returns the bits of the stream at its position and moves past them.
From any contents of the stream the decoders find the coefficients that the serial decoder finds
with the same budget and full precision, if and only if the index of the first word is a `uint`. -/
theorem metal_decode_iff {S : Scalar} {d : ℕ} (hS : S ≠ .double) (hd : 1 ≤ d) (hd' : d ≤ 3)
    {maxbits : ℕ} (hmax : maxbits < 2 ^ 32) (blockIdx : ℕ) :
    (∀ mem p, zfpReaderReadBit mem (atOffset mem p) = (bitOf mem p, atOffset mem (p + 1)) ∧
      ∀ n ≤ 64, zfpReaderPeekBits mem (atOffset mem p) n = bitsOf mem p n ∧
        zfpReaderSkip mem (atOffset mem p) n = atOffset mem (p + n) ∧
        zfpReaderReadBits mem (atOffset mem p) n = (bitsOf mem p n, atOffset mem (p + n))) ∧
    ((∀ mem, (S.isFloat = true → bitOf mem (blockIdx * maxbits) = true) →
        ∃ ub, coefficientsAt S d mem maxbits blockIdx = some ub ∧ ∀ data : ℕ → BitVec S.width,
          ∀ i < 4 ^ d, ub i =
            (decodeFewInts (serialAt mem (blockIdx * maxbits + sideBits S false))
              (uintSub maxbits (sideBits S false)) ZFP_MAX_PREC data (4 ^ d)).1 i) ↔
      blockIdx * maxbits < 2 ^ 38) := by
  refine ⟨fun mem p => ⟨zfpReaderReadBit_atOffset mem p, fun n hn =>
    ⟨zfpReaderPeekBits_atOffset mem p hn, zfpReaderSkip_atOffset mem p hn,
      zfpReaderReadBits_atOffset mem p hn⟩⟩, ?_, ?_⟩
  · intro h
    by_contra hge
    obtain ⟨hones, hnone⟩ := coefficientsAt_wraps hS hd hd' hmax rfl (Nat.le_of_not_lt hge)
    exact hnone (h _ fun _ => hones _ (Nat.le_refl _))
  · intro h mem hbit
    exact coefficientsAt_eq mem maxbits blockIdx hS hd hd' hmax (Nat.mod_eq_of_lt h).symm hbit

/-- The first block of the stream whose word has an index beyond a `uint`. -/
theorem metal_decode_wraps :
    ¬ ∀ (mem : ℕ → BitVec 64) (blockIdx : ℕ), blockIdx < 2 ^ 32 →
      ∃ ub, coefficientsAt .int32 2 mem 512 blockIdx = some ub ∧
        ∀ data : ℕ → BitVec Scalar.int32.width, ∀ i < 4 ^ 2, ub i =
          (decodeFewInts (serialAt mem (blockIdx * 512 + sideBits .int32 false))
            (uintSub 512 (sideBits .int32 false)) ZFP_MAX_PREC data (4 ^ 2)).1 i := by
  intro h
  have hp : 2 ^ 38 = 2 ^ 29 * 512 := by decide
  obtain ⟨-, hnone⟩ := coefficientsAt_wraps (S := .int32) (d := 2) (by decide) (by decide)
    (by decide) (show 512 < 2 ^ 32 by decide) hp (Nat.le_refl _)
  have hblock := h (stepAt (2 ^ 38)) (2 ^ 29) (by decide)
  rw [← hp] at hblock
  exact hnone hblock

/-- The fourth block of a stream of blocks of 512 bits. -/
theorem metal_decode_fourth :
    ∃ ub, coefficientsAt .int32 2 (fun j => BitVec.ofNat 64 j) 512 3 = some ub ∧
      ∀ data : ℕ → BitVec Scalar.int32.width, ∀ i < 4 ^ 2, ub i =
        (decodeFewInts (serialAt (fun j => BitVec.ofNat 64 j) (3 * 512 + sideBits .int32 false))
          (uintSub 512 (sideBits .int32 false)) ZFP_MAX_PREC data (4 ^ 2)).1 i :=
  (metal_decode_iff (S := .int32) (by decide) (by decide) (by decide) (by decide) 3).2.mpr (by decide)
    _ fun h => absurd h (by decide)

end Zfp.Metal

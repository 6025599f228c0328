import Zfp.CudaCompress
import Zfp.MetalWriter

/-!
# The Metal encoders

The encoders of the Metal kernels count trailing zeros where the serial encoder scans bit by bit,
and write a run of zeros by one call. They write the bits of the serial encoder, at the offset of
the block, unless the offset is beyond what the index of a word can hold.
-/

namespace Zfp.Metal
open BitLists Bitstream Lines PlaneCode WordReader

/-! ## The coding of bit planes -/

/-- The bits `k` of the words `lo, …, hi - 1`, gathered in a word of width `v`. -/
def gatherBits (v : ℕ) {w : ℕ} (ub : ℕ → BitVec w) (k lo hi : ℕ) : BitVec v :=
  (List.range' lo (hi - lo)).foldl
    (fun x i => x + ((ub i >>> k) &&& 1#w).setWidth v <<< (i - lo)) 0

/-- The bit planes, gathered in 64, 32 or twice 32 bits. -/
def bitPlane {w : ℕ} (ub : ℕ → BitVec w) (k : ℕ) : ℕ → BitVec 64
  | 1 => gatherBits 64 ub k 0 4
  | 2 => (gatherBits 32 ub k 0 16).setWidth 64
  | 3 => (gatherBits 32 ub k 0 32).setWidth 64 |||
      shl ((gatherBits 32 ub k 32 64).setWidth 64) 32
  | _ => 0

def encodeGroups (size : ℕ) (w : ZfpBlockWriter1) (bits : ℕ) (x : BitVec 64) (n : ℕ) :
    ZfpBlockWriter1 × ℕ × ℕ :=
  if n < size ∧ bits ≠ 0 then
    if x = 0 then (zfpWriterWriteBit w false, bits - 1, n)
    else
      -- group test: significant bits remain
      let w := zfpWriterWriteBit w true
      let z := x.ctz.toNat
      let innerMax := min (size - 1 - n) (bits - 1)
      let run := min z innerMax
      let w := if 0 < run then (zfpWriterWriteBits w 0 run).2 else w
      if z ≤ innerMax then
        -- found the coefficient within budget
        if z < size - 1 - n ∧ bits - 1 - run ≠ 0 then
          encodeGroups size (zfpWriterWriteBit w true) (bits - 1 - run - 1) (shr x (z + 1)) (n + z + 1)
        else encodeGroups size w (bits - 1 - run) (shr x (z + 1)) (n + z + 1)
      else encodeGroups size w (bits - 1 - run) (shr (shr x run) 1) (n + run + 1)
  else (w, bits, n)
termination_by bits

def encodePlanes {w : ℕ} (d : ℕ) (ub : ℕ → BitVec w) (kmin : ℕ) :
    ℕ → ZfpBlockWriter1 → ℕ → ℕ → ZfpBlockWriter1
  | 0, s, _, _ => s
  | k + 1, s, bits, n =>
    if bits ≠ 0 ∧ kmin ≤ k then
      let x := bitPlane ub k d
      let m := min n bits
      let r := zfpWriterWriteBits s x m
      let g := encodeGroups (4 ^ d) r.2 (bits - m) r.1 n
      encodePlanes d ub kmin k g.1 g.2.1 g.2.2
    else s

/-! ## Block encoders -/

def zfpPrecision (maxexp : ℤ) (maxprec : ℕ) (minexp : ℤ) : ℕ :=
  min maxprec (maxexp - minexp + 8).toNat

/-- The tables `zfp_perm2` and `zfp_perm3`; in one dimension the order is that of the block. -/
def zfpPerm : ℕ → List ℕ
  | 1 => [0, 1, 2, 3]
  | 2 => [
    0, 1, 4, 5,
    2, 8, 6, 9,
    3, 12, 10, 7,
    13, 11, 14, 15]
  | 3 => [
    0,
    1, 4, 16,
    20, 17, 5,
    2, 8, 32,
    21,
    6, 18, 24, 9, 33, 36,
    3, 12, 48,
    22, 25, 37,
    40, 34, 10,
    7, 19, 28, 13, 49, 52,
    41, 38, 26,
    23, 29, 53,
    11, 35, 44, 14, 50, 56,
    42,
    27, 39, 45, 30, 54, 57,
    60, 51, 15,
    43, 46, 58,
    61, 55, 31,
    62, 59, 47,
    63]
  | _ => []

section

variable {w : ℕ}

def zfpFwdLift1 (p : ℕ → BitVec w) (b : ℕ) : ℕ → BitVec w := onLine (fwdLift halfWord) 1 p b

def zfpFwdLift2Row (p : ℕ → BitVec w) : ℕ → BitVec w :=
  zfpFwdLift1 (zfpFwdLift1 (zfpFwdLift1 (zfpFwdLift1 p 0) 4) 8) 12

/-- All columns are copied before the first one is stored. -/
def zfpFwdLift2Col (p : ℕ → BitVec w) : ℕ → BitVec w :=
  let c0 := fwdLift halfWord (load p 4 0)
  let c1 := fwdLift halfWord (load p 4 1)
  let c2 := fwdLift halfWord (load p 4 2)
  let c3 := fwdLift halfWord (load p 4 3)
  store (store (store (store p 4 0 c0) 4 1 c1) 4 2 c2) 4 3 c3

def zfpFwdLift3 (p : ℕ → BitVec w) : ℕ → BitVec w :=
  let p := lineLoops (fwdLift halfWord) 1 (fun z y => 4 * y + 16 * z) p
  let p := lineLoops (fwdLift halfWord) 4 (fun x z => 16 * z + 1 * x) p
  lineLoops (fwdLift halfWord) 16 (fun y x => 1 * x + 4 * y) p

def fwdLifts : ℕ → (ℕ → BitVec w) → ℕ → BitVec w
  | 1, p => zfpFwdLift1 p 0
  | 2, p => zfpFwdLift2Col (zfpFwdLift2Row p)
  | 3, p => zfpFwdLift3 p
  | _, p => p

theorem zfpFwdLift2Col_eq (p : ℕ → BitVec w) :
    zfpFwdLift2Col p = Lines.pass (fwdLift halfWord) 4 [0, 1, 2, 3] p := by
  have hdisjoint : ∀ b < 4, ∀ b' < 4, b ≠ b' → ∀ j ∈ line 4 b, j ∉ line 4 b' := by
    intro b hb b' hb' hne j hj hj'
    obtain ⟨i, hi, rfl⟩ := mem_line.mp hj
    obtain ⟨k, hk, heq⟩ := mem_line.mp hj'
    omega
  simp only [Lines.pass, List.foldl_cons, List.foldl_nil, onLine, zfpFwdLift2Col]
  rw [load_store_of_not_mem p _ (hdisjoint 1 (by decide) 0 (by decide) (by decide)),
    load_store_of_not_mem _ _ (hdisjoint 2 (by decide) 1 (by decide) (by decide)),
    load_store_of_not_mem p _ (hdisjoint 2 (by decide) 0 (by decide) (by decide)),
    load_store_of_not_mem _ _ (hdisjoint 3 (by decide) 2 (by decide) (by decide)),
    load_store_of_not_mem _ _ (hdisjoint 3 (by decide) 1 (by decide) (by decide)),
    load_store_of_not_mem p _ (hdisjoint 3 (by decide) 0 (by decide) (by decide))]

/-- The lifts do what the passes of the serial encoder do. -/
theorem fwdLifts_eq {d : ℕ} (hd : 1 ≤ d) (hd' : d ≤ 3) (p : ℕ → BitVec w) :
    fwdLifts d p = fwdXform halfWord d p := by
  obtain rfl | rfl | rfl : d = 1 ∨ d = 2 ∨ d = 3 := by omega
  · rfl
  · rw [fwdLifts, zfpFwdLift2Col_eq]
    rfl
  · simp only [fwdLifts, zfpFwdLift3, lineLoops_eq_pass]
    rfl

end

/-- Transform and reorder a block of integers. -/
def coefficients (S : Scalar) (d : ℕ) (iblock : ℕ → BitVec S.width) : ℕ → BitVec S.width :=
  fwdOrder (NBMASK S) (fwdLifts d iblock) (zfpPerm d) (4 ^ d)

/-- A block of integers: no exponent header, no zero-block check, full maxbits budget. -/
def encodeIntBlock (S : Scalar) (d : ℕ) (iblock : ℕ → BitVec S.width) (maxbits blockIdx : ℕ)
    (atomicMode : Bool) : ZfpBlockWriter1 :=
  let ub := coefficients S d iblock
  let w := zfpMakeWriter1 maxbits blockIdx atomicMode
  zfpWriterFlush (encodePlanes d ub 0 S.width w maxbits 0)

def encodeFloatBlock (d : ℕ) (ops : FloatOps .float (4 ^ d))
    (fblock : ℕ → BitVec Scalar.float.width) (maxbits blockIdx : ℕ) (atomicMode : Bool) :
    ZfpBlockWriter1 :=
  let emax := ops.exponentBlock (blockOf _ fblock)
  let maxprec := zfpPrecision emax 32 (-1074)
  let e := if maxprec ≠ 0 then (emax + 127).toNat else 0
  let w := zfpMakeWriter1 maxbits blockIdx atomicMode
  if e = 0 then w
  else
    let w := (zfpWriterWriteBits w (BitVec.ofNat 64 (2 * e + 1)) 9).2
    let ib := putBlock (fun _ => 0) (ops.fwdCast (blockOf _ fblock) emax)
    let ub := coefficients .float d ib
    let bits := uintSub maxbits 9
    let kmin := if 32 > maxprec then 32 - maxprec else 0
    zfpWriterFlush (encodePlanes d ub kmin 32 w bits 0)

def zfpEncodeBlock1dFloat := encodeFloatBlock 1
def zfpEncodeBlock2dFloat := encodeFloatBlock 2
def zfpEncodeBlock3dFloat := encodeFloatBlock 3
def zfpEncodeBlock1dInt32 := encodeIntBlock .int32 1
def zfpEncodeBlock2dInt32 := encodeIntBlock .int32 2
def zfpEncodeBlock3dInt32 := encodeIntBlock .int32 3
def zfpEncodeBlock1dInt64 := encodeIntBlock .int64 1
def zfpEncodeBlock2dInt64 := encodeIntBlock .int64 2
def zfpEncodeBlock3dInt64 := encodeIntBlock .int64 3

/-- The encoder of a type and dimensionality; there is none for double precision. -/
def zfpEncodeBlock : (S : Scalar) → (d : ℕ) → FloatOps S (4 ^ d) → (ℕ → BitVec S.width) →
    ℕ → ℕ → Bool → ZfpBlockWriter1
  | .float, 1, ops => zfpEncodeBlock1dFloat ops
  | .float, 2, ops => zfpEncodeBlock2dFloat ops
  | .float, 3, ops => zfpEncodeBlock3dFloat ops
  | .int32, 1, _ => zfpEncodeBlock1dInt32
  | .int32, 2, _ => zfpEncodeBlock2dInt32
  | .int32, 3, _ => zfpEncodeBlock3dInt32
  | .int64, 1, _ => zfpEncodeBlock1dInt64
  | .int64, 2, _ => zfpEncodeBlock2dInt64
  | .int64, 3, _ => zfpEncodeBlock3dInt64
  | _, _, _ => fun _ => zfpMakeWriter1

/-! ## Lockstep with the serial encoder -/

theorem and_one_eq_bit {w : ℕ} (x : BitVec w) (k : ℕ) {v : ℕ} :
    ((x >>> k) &&& 1#w).setWidth v = (BitVec.ofBool (x.getLsbD k)).setWidth v := by
  apply BitVec.eq_of_getLsbD_eq
  intro i hi
  rw [BitVec.getLsbD_setWidth, BitVec.getLsbD_setWidth, BitVec.getLsbD_and,
    BitVec.getLsbD_ushiftRight, BitVec.getLsbD_one, BitVec.getLsbD_ofBool]
  by_cases h : i = 0
  · subst h
    by_cases hw : 0 < w
    · simp [hw]
    · simp [BitVec.getLsbD_of_ge x k (by omega)]
  · simp [h]

theorem getLsbD_gatherBits {v w : ℕ} (ub : ℕ → BitVec w) (k lo : ℕ) {n : ℕ} (hn : n ≤ v) (i : ℕ) :
    (gatherBits v ub k lo (lo + n)).getLsbD i = (decide (i < n) && plane ub k (lo + i)) := by
  rw [gatherBits, Nat.add_sub_cancel_left]
  induction n generalizing i with
  | zero => simp
  | succ n ih =>
    have ih := ih (by omega)
    have hbit := getLsbD_ofBool_shiftLeft (w := v) (plane ub k (lo + n)) (k := n) (by omega)
    rw [List.range'_concat, List.foldl_append, List.foldl_cons, List.foldl_nil, Nat.one_mul,
      Nat.add_sub_cancel_left, and_one_eq_bit, ← plane, getLsbD_add_of_disjoint, ih, hbit]
    · by_cases hi : i = n
      · simp [hi]
      · have hlt : i < n + 1 ↔ i < n := by omega
        simp only [hi, hlt, decide_false, Bool.false_and, Bool.or_false]
    · intro j hj
      rw [ih, Bool.and_eq_true, decide_eq_true_eq] at hj
      rw [hbit, decide_eq_false (by omega), Bool.false_and]

theorem holds_bitPlane {w : ℕ} (ub : ℕ → BitVec w) (k : ℕ) {d : ℕ} (hd : 1 ≤ d) (hd' : d ≤ 3) :
    Holds (plane ub k) (4 ^ d) 0 (bitPlane ub k d) := by
  intro i
  rw [Nat.zero_add]
  obtain rfl | rfl | rfl : d = 1 ∨ d = 2 ∨ d = 3 := by omega
  · have h := getLsbD_gatherBits ub k 0 (show 4 ≤ 64 by decide) i
    rwa [Nat.zero_add, Nat.zero_add] at h
  · have h := getLsbD_gatherBits ub k 0 (show 16 ≤ 32 by decide) i
    rw [Nat.zero_add, Nat.zero_add] at h
    have hsize : 4 ^ 2 = 16 := rfl
    rw [bitPlane, BitVec.getLsbD_setWidth, h, hsize]
    by_cases hi : i < 16
    · rw [decide_eq_true (by omega : i < 64), Bool.true_and]
    · rw [decide_eq_false hi, Bool.false_and, Bool.and_false]
  · have hlow := getLsbD_gatherBits ub k 0 (show 32 ≤ 32 by decide) i
    have hhigh := getLsbD_gatherBits ub k 32 (show 32 ≤ 32 by decide) (i - 32)
    rw [Nat.zero_add, Nat.zero_add] at hlow
    have hsize : 4 ^ 3 = 64 := rfl
    rw [bitPlane, BitVec.getLsbD_or, BitVec.getLsbD_setWidth, hlow, shl_of_lt _ (by decide),
      BitVec.getLsbD_shiftLeft, BitVec.getLsbD_setWidth, hhigh, hsize]
    rcases Nat.lt_or_ge i 32 with hi | hi
    · simp [hi, show i < 64 by omega]
    · obtain ⟨j, rfl⟩ := Nat.exists_eq_add_of_le hi
      rw [decide_eq_false (by omega : ¬ 32 + j < 32), Nat.add_sub_cancel_left]
      rcases Nat.lt_or_ge j 32 with hj | hj
      · simp [hj, show j < 64 by omega]
      · simp [show ¬ j < 32 by omega, show ¬ 32 + j < 64 by omega]

/-- A scan of the serial encoder that finds the next one-bit. -/
theorem encodeFewScan_found {T : WordType} {size : ℕ} (t : Bitstream T) {bits : ℕ} {x : BitVec 64}
    {n z : ℕ} (hz : z < min (size - 1 - n) bits) (hx : x.getLsbD z = true)
    (hlow : ∀ i < z, x.getLsbD i = false) :
    encodeFewScan size t bits x n =
      (t.append (List.replicate z false ++ [true]), bits - z - 1, x >>> z, n + z) := by
  induction z generalizing t bits x n with
  | zero =>
    rw [encodeFewScan, if_pos (by omega), hx]
    rfl
  | succ z ih =>
    rw [encodeFewScan, if_pos (by omega), hlow 0 (by omega), if_neg Bool.false_ne_true,
      ih _ (by omega) (by rwa [BitVec.getLsbD_ushiftRight, Nat.add_comm])
        fun i hi => by rw [BitVec.getLsbD_ushiftRight]; exact hlow _ (by omega)]
    have hbits : bits - 1 - z - 1 = bits - (z + 1) - 1 := by omega
    have hn : n + 1 + z = n + (z + 1) := by omega
    rw [hbits, hn, ← BitVec.shiftRight_add, Nat.add_comm 1 z]
    rfl

/-- A scan that ends before the next one-bit. -/
theorem encodeFewScan_end {T : WordType} {size : ℕ} (t : Bitstream T) {bits : ℕ} {x : BitVec 64}
    {n m : ℕ} (hm : m = min (size - 1 - n) bits) (hlow : ∀ i < m, x.getLsbD i = false) :
    encodeFewScan size t bits x n =
      (t.append (List.replicate m false), bits - m, x >>> m, n + m) := by
  induction m generalizing t bits x n with
  | zero =>
    rw [encodeFewScan, if_neg (by omega)]
    simp
  | succ m ih =>
    rw [encodeFewScan, if_pos (by omega), hlow 0 (by omega), if_neg Bool.false_ne_true,
      ih _ (by omega) fun i hi => by rw [BitVec.getLsbD_ushiftRight]; exact hlow _ (by omega)]
    have hbits : bits - 1 - m = bits - (m + 1) := by omega
    have hn : n + 1 + m = n + (m + 1) := by omega
    rw [hbits, hn, ← BitVec.shiftRight_add, Nat.add_comm 1 m]
    rfl

/-- The writer and the serial stream have taken the same bits. -/
def Lockstep {T : WordType} (s : ZfpBlockWriter1) (t : Bitstream T) (s' : ZfpBlockWriter1)
    (t' : Bitstream T) : Prop := ∃ l, Emits s l s' ∧ t' = t.append l

theorem Lockstep.refl {T : WordType} (s : ZfpBlockWriter1) (t : Bitstream T) : Lockstep s t s t :=
  ⟨[], .refl, rfl⟩

theorem Lockstep.trans {T : WordType} {a b c : ZfpBlockWriter1} {t u v : Bitstream T}
    (h : Lockstep a t b u) (h' : Lockstep b u c v) : Lockstep a t c v := by
  obtain ⟨l, hl, rfl⟩ := h
  obtain ⟨l', hl', rfl⟩ := h'
  exact ⟨l ++ l', hl.trans hl', (append_append t l l').symm⟩

theorem Lockstep.wf {T : WordType} {s s' : ZfpBlockWriter1} {t t' : Bitstream T}
    (h : Lockstep s t s' t') (ht : t.WF) : t'.WF := by
  obtain ⟨l, -, rfl⟩ := h
  exact ht.append l

theorem emits_bit (s : ZfpBlockWriter1) (b : Bool) : Emits s [b] (zfpWriterWriteBit s b) :=
  Emits.refl.bit b

/-- A run of zeros, written by one call if there are any. -/
theorem emits_zeros (s : ZfpBlockWriter1) {n : ℕ} (hn : n ≤ 64) :
    Emits s (List.replicate n false) (if 0 < n then (zfpWriterWriteBits s 0 n).2 else s) := by
  split
  · have hlow : List.replicate n false = lowBits (0 : BitVec 64) n := by
      refine List.ext_getElem (by simp) fun i hi hi' => ?_
      rw [getElem_lowBits, List.getElem_replicate]
      exact BitVec.getLsbD_zero.symm
    rw [hlow]
    exact Emits.refl.bits 0 hn
  · obtain rfl : n = 0 := by omega
    exact .refl

theorem encodeGroups_lockstep {T : WordType} {size : ℕ} (hsize : size ≤ 64) (s : ZfpBlockWriter1)
    (t : Bitstream T) (bits : ℕ) {x x' : BitVec 64} {n : ℕ} (hx : n < size → x = x')
    (hhigh : n < size ∧ bits ≠ 0 → ∀ i, size - n ≤ i → x.getLsbD i = false) :
    (encodeGroups size s bits x n).2 = (encodeFewGroups size t bits x' n).2 ∧
      Lockstep s t (encodeGroups size s bits x n).1 (encodeFewGroups size t bits x' n).1 := by
  induction bits using Nat.strong_induction_on generalizing s t x x' n with
  | _ bits ih =>
    by_cases h : n < size ∧ bits ≠ 0
    · obtain rfl := hx h.1
      have hhigh := hhigh h
      rw [encodeGroups, if_pos h, encodeFewGroups, if_pos h.symm]
      by_cases hzero : x = 0
      · rw [if_pos hzero, hzero]
        exact ⟨rfl, [false], emits_bit s false, rfl⟩
      · have hne : (x != 0) = true := by simpa using hzero
        rw [if_neg hzero, if_pos hne, hne]
        dsimp only
        -- the next one-bit
        have hz : x.getLsbD x.ctz.toNat = true := BitVec.getLsbD_true_ctz_of_ne_zero hzero
        have hlow : ∀ i < x.ctz.toNat, x.getLsbD i = false := fun i hi =>
          BitVec.getLsbD_false_of_lt_ctz hi
        have hlt : x.ctz.toNat < size - n := by
          by_contra hge
          rw [hhigh _ (Nat.le_of_not_lt hge)] at hz
          cases hz
        generalize x.ctz.toNat = z at hz hlow hlt ⊢
        have hshift : ∀ j, ∀ i, size - (n + j) ≤ i → (x >>> j).getLsbD i = false := fun j i hi => by
          rw [BitVec.getLsbD_ushiftRight, hhigh _ (by omega)]
        rcases Nat.lt_or_ge z (min (size - 1 - n) (bits - 1)) with hfound | hend
        · rw [encodeFewScan_found _ hfound hz hlow, Nat.min_eq_left hfound.le, if_pos hfound.le,
            if_pos (by omega), shr_of_lt x (by omega)]
          have hnext := @ih (bits - 1 - z - 1) (by omega)
            (zfpWriterWriteBit (if 0 < z then (zfpWriterWriteBits (zfpWriterWriteBit s true) 0 z).2
              else zfpWriterWriteBit s true) true)
            ((streamWriteBit t true).append (List.replicate z false ++ [true]))
            (x >>> (z + 1)) (x >>> z >>> 1) (n + z + 1)
            (fun _ => by rw [← BitVec.shiftRight_add]) fun _ => hshift (z + 1)
          refine ⟨hnext.1, Lockstep.trans (.trans ⟨[true], emits_bit s true, rfl⟩ ?_) hnext.2⟩
          exact ⟨_, (emits_zeros _ (by omega)).trans (emits_bit _ true), rfl⟩
        · rw [Nat.min_eq_right hend]
          generalize hm : min (size - 1 - n) (bits - 1) = m at hend ⊢
          rw [encodeFewScan_end _ hm.symm fun i hi => hlow i (hi.trans_le hend)]
          have hnext := fun y hy hy' => @ih (bits - 1 - m) (by omega)
            (if 0 < m then (zfpWriterWriteBits (zfpWriterWriteBit s true) 0 m).2
              else zfpWriterWriteBit s true)
            ((streamWriteBit t true).append (List.replicate m false))
            y (x >>> m >>> 1) (n + m + 1) hy hy'
          have hzeros : Lockstep s t _ ((streamWriteBit t true).append (List.replicate m false)) :=
            .trans ⟨[true], emits_bit s true, rfl⟩
              ⟨_, emits_zeros (zfpWriterWriteBit s true) (n := m) (by omega), rfl⟩
          split
          · -- the last coefficient of the block or of the budget
            obtain rfl : z = m := by omega
            rw [if_neg (by omega)]
            have hrest := hnext (shr x (z + 1)) (fun hlt => by
              rw [shr_of_lt _ (by omega), ← BitVec.shiftRight_add]) fun hlt => by
                have := hlt.1
                rw [shr_of_lt _ (by omega)]
                exact hshift (z + 1)
            exact ⟨hrest.1, hzeros.trans hrest.2⟩
          · rw [shr_of_lt x (by omega), shr_of_lt _ (by decide)]
            have hrest := hnext (x >>> m >>> 1) (fun _ => rfl) fun _ => by
              rw [← BitVec.shiftRight_add]
              exact hshift (m + 1)
            exact ⟨hrest.1, hzeros.trans hrest.2⟩
    · rw [encodeGroups, if_neg h, encodeFewGroups, if_neg fun h' => h h'.symm]
      exact ⟨rfl, .refl s t⟩

theorem encodePlanes_lockstep {T : WordType} {w d : ℕ} (hd : 1 ≤ d) (hd' : d ≤ 3)
    (ub : ℕ → BitVec w) (kmin k : ℕ) (s : ZfpBlockWriter1) {t : Bitstream T} (ht : t.WF) (bits : ℕ)
    {n : ℕ} (hn : n ≤ 4 ^ d) :
    Lockstep s t (encodePlanes d ub kmin k s bits n)
      (encodeFewPlanes ub (4 ^ d) kmin k t bits n).1 := by
  have hsize : 4 ^ d ≤ 64 := Nat.pow_le_pow_right (n := 4) (by decide) hd'
  induction k generalizing s t bits n with
  | zero => exact .refl s t
  | succ k ih =>
    rw [encodePlanes, encodeFewPlanes]
    by_cases h : bits ≠ 0 ∧ kmin ≤ k
    · have hm : min n bits ≤ 64 := by omega
      have hplane : bitPlane ub k d = extractPlane ub k (4 ^ d) := by
        apply BitVec.eq_of_getLsbD_eq
        intro i _
        rw [holds_bitPlane ub k hd hd' i, holds_extractPlane ub k hsize i]
      have hbits : Lockstep s t (zfpWriterWriteBits s (bitPlane ub k d) (min n bits)).2
          (streamWriteBits t (extractPlane ub k (4 ^ d)) (min n bits)).2 :=
        ⟨_, Emits.refl.bits _ hm, by rw [streamWriteBits_eq ht _ hm, hplane]; rfl⟩
      -- the planes that are left agree as long as coefficients are left
      have hx : n < 4 ^ d → (zfpWriterWriteBits s (bitPlane ub k d) (min n bits)).1 =
          extractPlane ub k (4 ^ d) >>> min n bits := fun hlt => by
        rw [zfpWriterWriteBits, hplane]
        split
        · next hzero => rw [hzero, BitVec.ushiftRight_zero]
        · exact shr_of_lt _ (by omega)
      have hx' : (streamWriteBits t (extractPlane ub k (4 ^ d)) (min n bits)).1 =
          extractPlane ub k (4 ^ d) >>> min n bits := by rw [streamWriteBits_eq ht _ hm]
      rw [if_pos h, if_pos h]
      dsimp only
      generalize zfpWriterWriteBits s (bitPlane ub k d) (min n bits) = r at hbits hx ⊢
      generalize streamWriteBits t (extractPlane ub k (4 ^ d)) (min n bits) = q at hbits hx' ⊢
      obtain ⟨hr, hgroups⟩ := @encodeGroups_lockstep _ _ hsize r.2 q.2 (bits - min n bits) r.1
        q.1 n (fun hlt => (hx hlt).trans hx'.symm) fun hlt i hi => by
          rw [hx hlt.1, BitVec.getLsbD_ushiftRight, holds_extractPlane ub k hsize,
            decide_eq_false (by omega), Bool.false_and]
      have hindex := encodeFewGroups_index q.2 (bits - min n bits) q.1 hn
      rw [← hr] at hindex ⊢
      have hplanes := hbits.trans hgroups
      exact hplanes.trans (ih _ (hplanes.wf ht) _ hindex)
    · rw [if_neg h, if_neg h]
      exact .refl s t

/-! ## The bits of a block -/

section

variable {S : Scalar} {d : ℕ}

theorem zfpPerm_eq (hd : 1 ≤ d) (hd' : d ≤ 3) : zfpPerm d = perm d := by
  obtain rfl | rfl | rfl : d = 1 ∨ d = 2 ∨ d = 3 := by omega
  · decide
  · decide
  · decide

theorem encodePlanes_emits (hd : 1 ≤ d) (hd' : d ≤ 3) (s : ZfpBlockWriter1) (maxbits maxprec : ℕ)
    (iblock : ℕ → BitVec S.width) :
    Emits s (Cuda.intCode S d maxbits maxprec iblock)
      (encodePlanes d (coefficients S d iblock) (S.width - maxprec) S.width s maxbits 0) := by
  have hsize : 4 ^ d ≤ 64 := Nat.pow_le_pow_right (n := 4) (by decide) hd'
  have ht := streamOpen_wf (T := .uint64) fun _ => 0
  obtain ⟨l, hl, heq⟩ := encodePlanes_lockstep hd hd' (fwdWords S d (fwdXform halfWord d iblock))
    (S.width - maxprec) S.width s ht maxbits (Nat.zero_le _)
  have hserial := congrArg Prod.snd (encodeFewInts_eq ht maxbits maxprec
    (fwdWords S d (fwdXform halfWord d iblock)) hsize)
  have hcode : l = Cuda.intCode S d maxbits maxprec iblock :=
    Cuda.append_inj ht (heq.symm.trans hserial)
  rw [coefficients, fwdLifts_eq hd hd', zfpPerm_eq hd hd', ← hcode]
  exact hl

theorem encodeIntBlock_emits (ops : FloatOps S (4 ^ d)) (block : ℕ → BitVec S.width)
    (hS : S.isFloat = false) (hd : 1 ≤ d) (hd' : d ≤ 3) (maxbits blockIdx : ℕ) (atomicMode : Bool) :
    ∃ s, Emits (zfpMakeWriter1 maxbits blockIdx atomicMode) (Cuda.blockCode ops maxbits block) s ∧
      encodeIntBlock S d block maxbits blockIdx atomicMode = zfpWriterFlush s := by
  have h := encodePlanes_emits hd hd' (zfpMakeWriter1 maxbits blockIdx atomicMode) maxbits S.width
    block
  rw [Nat.sub_self] at h
  rw [Cuda.blockCode, hS, if_neg Bool.false_ne_true]
  exact ⟨_, h, rfl⟩

theorem encodeFloatBlock_emits (ops : FloatOps .float (4 ^ d))
    (block : ℕ → BitVec Scalar.float.width)
    (hd : 1 ≤ d) (hd' : d ≤ 3) (maxbits blockIdx : ℕ) (atomicMode : Bool) :
    (Cuda.blockCode ops maxbits block = [] ∧
      (encodeFloatBlock d ops block maxbits blockIdx atomicMode).accesses = []) ∨
    ∃ s, Emits (zfpMakeWriter1 maxbits blockIdx atomicMode) (Cuda.blockCode ops maxbits block) s ∧
      encodeFloatBlock d ops block maxbits blockIdx atomicMode = zfpWriterFlush s := by
  have he : Cuda.storedExponent ops block =
      if zfpPrecision (ops.exponentBlock (blockOf _ block)) 32 (-1074) ≠ 0 then
        (ops.exponentBlock (blockOf _ block) + 127).toNat else 0 := rfl
  have hfloat : Scalar.float.isFloat = true := rfl
  rw [encodeFloatBlock, Cuda.blockCode, if_pos hfloat]
  dsimp only
  rw [← he]
  by_cases hzero : Cuda.storedExponent ops block = 0
  · rw [if_neg (not_not_intro hzero), if_pos hzero]
    cases atomicMode <;> exact .inl ⟨rfl, rfl⟩
  · rw [if_pos hzero, if_neg hzero]
    have hheader := Emits.refl.bits (s := zfpMakeWriter1 maxbits blockIdx atomicMode)
      (BitVec.ofNat 64 (2 * Cuda.storedExponent ops block + 1)) (show 9 ≤ 64 by decide)
    have hkmin : ∀ p, (if 32 > p then 32 - p else 0) = 32 - p := fun p => by split_ifs <;> omega
    rw [hkmin]
    exact .inr ⟨_, hheader.trans (encodePlanes_emits hd hd' _ _ _ _), rfl⟩

/-- The writer of a block before its last flush, which a block of zeros does without. -/
theorem zfpEncodeBlock_emits (ops : FloatOps S (4 ^ d)) (block : ℕ → BitVec S.width)
    (hS : S ≠ .double) (hd : 1 ≤ d) (hd' : d ≤ 3) (maxbits blockIdx : ℕ) (atomicMode : Bool) :
    (Cuda.blockCode ops maxbits block = [] ∧
      (zfpEncodeBlock S d ops block maxbits blockIdx atomicMode).accesses = []) ∨
    ∃ s, Emits (zfpMakeWriter1 maxbits blockIdx atomicMode) (Cuda.blockCode ops maxbits block) s ∧
      zfpEncodeBlock S d ops block maxbits blockIdx atomicMode = zfpWriterFlush s := by
  obtain rfl | rfl | rfl : d = 1 ∨ d = 2 ∨ d = 3 := by omega
  all_goals
    cases S with
    | int32 => exact .inr (encodeIntBlock_emits ops block rfl hd hd' maxbits blockIdx atomicMode)
    | int64 => exact .inr (encodeIntBlock_emits ops block rfl hd hd' maxbits blockIdx atomicMode)
    | float => exact encodeFloatBlock_emits ops block hd hd' maxbits blockIdx atomicMode
    | double => exact absurd rfl hS

/-- The memory of a stream after the encoder of one block. -/
theorem written_zfpEncodeBlock (ops : FloatOps S (4 ^ d)) {zfp : Params}
    (block : ℕ → BitVec S.width) (hS : S ≠ .double) (hd : 1 ≤ d) (hd' : d ≤ 3)
    (hside : sideBits S false ≤ zfp.maxbits) (blockIdx : ℕ) (atomicMode : Bool) :
    let code := Cuda.blockCode ops zfp.maxbits block
    let w := zfpEncodeBlock S d ops block zfp.maxbits blockIdx atomicMode
    (written (fun _ => 0) w = placed 64 (blockIdx * zfp.maxbits) code ↔
      InReach atomicMode (blockIdx * zfp.maxbits) code) ∧
    (InReach atomicMode (blockIdx * zfp.maxbits) code →
      ∀ mem j, written mem w j = mem j ||| placed 64 (blockIdx * zfp.maxbits) code j) := by
  intro code w
  have hlen := Cuda.length_blockCode_le ops zfp.maxbits block hside zfp.maxbits_lt
  obtain ⟨hcode, haccesses⟩ | ⟨s, hs, hflush⟩ :=
    zfpEncodeBlock_emits ops block hS hd hd' zfp.maxbits blockIdx atomicMode
  · have hmem : ∀ mem, written mem w = mem := fun mem => by
      rw [written, haccesses]
      rfl
    have hnil : code = [] := hcode
    have hnone : ∀ j, placed 64 (blockIdx * zfp.maxbits) code j = 0 := fun j => by
      rw [hnil, placed_nil]
    refine ⟨iff_of_true ((hmem _).trans (funext fun j => (hnone j).symm)) ?_, fun _ mem j => ?_⟩
    · rw [inReach_iff]
      exact fun j _ => hnone j
    · rw [hmem, hnone, BitVec.ofNat_eq_ofNat, BitVec.or_zero]
  · have hw : w = zfpWriterFlush s := hflush
    rw [hw]
    have hlt := hlen.trans_lt zfp.maxbits_lt
    exact ⟨hs.written_iff hlt, fun h => hs.written_mem hlt h⟩

/-- The device and the serial encoder place the same bits. -/
theorem sameBits (ops : FloatOps S (4 ^ d)) {zfp : Params} (h : Cuda.FullPrecision zfp)
    (block : ℕ → BitVec S.width) (hS : S ≠ .double) (hd' : d ≤ 3) :
    Cuda.SameBits ops zfp block := by
  cases S with
  | int32 => exact Cuda.sameBits_int ops rfl h block
  | int64 => exact Cuda.sameBits_int ops rfl h block
  | float =>
    -- both encode all planes
    refine Cuda.sameBits_of_extra ops block rfl hd' (.inr ?_) h
    have hemax := (ops.exponentBlock_mem (blockOf _ block)).1
    have hbias : (EBIAS .float : ℤ) = 127 := rfl
    rw [hbias] at hemax
    have hprec : 32 ≤ precision (ops.exponentBlock (blockOf _ block)) ZFP_MAX_PREC ZFP_MIN_EXP d := by
      rw [precision, ZFP_MAX_PREC, ZFP_MIN_EXP]
      omega
    intro k _ hk
    exact absurd (hk.trans_le (Nat.sub_eq_zero_of_le hprec).le) (Nat.not_lt_zero k)
  | double => exact absurd rfl hS

/-- What the serial encoder leaves in a stream of zeros. -/
theorem serial_mem (ops : FloatOps S (4 ^ d)) {zfp : Params} (block : ℕ → BitVec S.width)
    (hS : S ≠ .double) (hd' : d ≤ 3) (hfull : Cuda.FullPrecision zfp) (o : ℕ) :
    (encodeAt ops zfp Cuda.clearStream o block).2.mem =
      placed 64 o (Cuda.blockCode ops zfp.maxbits block) :=
  (Cuda.encodeAt_clearStream ops block hd' zfp o).trans
    (funext fun j => (sameBits ops hfull block hS hd' o j).symm)

/-- The encoder leaves in a stream of zeros what the serial encoder leaves there unless a one-bit
is out of reach. -/
theorem written_eq_serial_iff (ops : FloatOps S (4 ^ d)) {zfp : Params}
    (block : ℕ → BitVec S.width) (hS : S ≠ .double) (hd : 1 ≤ d) (hd' : d ≤ 3)
    (hfull : Cuda.FullPrecision zfp) (hside : sideBits S false ≤ zfp.maxbits) (blockIdx : ℕ)
    (atomicMode : Bool) :
    written (fun _ => 0) (zfpEncodeBlock S d ops block zfp.maxbits blockIdx atomicMode) =
        (encodeAt ops zfp Cuda.clearStream (blockIdx * zfp.maxbits) block).2.mem ↔
      InReach atomicMode (blockIdx * zfp.maxbits) (blockCode ops zfp block) := by
  have hreach : InReach atomicMode (blockIdx * zfp.maxbits) (blockCode ops zfp block) ↔
      InReach atomicMode (blockIdx * zfp.maxbits) (Cuda.blockCode ops zfp.maxbits block) := by
    rw [inReach_iff, inReach_iff]
    exact forall₂_congr fun j _ => by rw [sameBits ops hfull block hS hd']
  rw [serial_mem ops block hS hd' hfull, hreach]
  exact (written_zfpEncodeBlock ops block hS hd hd' hside blockIdx atomicMode).1

/-- In any stream the encoder changes no bits but those of its block. -/
theorem bitOf_written (ops : FloatOps S (4 ^ d)) {zfp : Params} (block : ℕ → BitVec S.width)
    (hS : S ≠ .double) (hd : 1 ≤ d) (hd' : d ≤ 3) (hfull : Cuda.FullPrecision zfp)
    (hside : sideBits S false ≤ zfp.maxbits) (blockIdx : ℕ) (atomicMode : Bool)
    (hreach : InReach atomicMode (blockIdx * zfp.maxbits) (blockCode ops zfp block))
    (mem : ℕ → BitVec 64) {i : ℕ}
    (hi : i < blockIdx * zfp.maxbits ∨ (blockIdx + 1) * zfp.maxbits ≤ i) :
    bitOf (written mem (zfpEncodeBlock S d ops block zfp.maxbits blockIdx atomicMode)) i =
      bitOf mem i := by
  have hzero := (written_eq_serial_iff ops block hS hd hd' hfull hside blockIdx atomicMode).mpr hreach
  rw [serial_mem ops block hS hd' hfull] at hzero
  obtain ⟨hiff, hmem⟩ := written_zfpEncodeBlock ops block hS hd hd' hside blockIdx atomicMode
  have hlen := Cuda.length_blockCode_le ops zfp.maxbits block hside zfp.maxbits_lt
  have hout : placedBit (blockIdx * zfp.maxbits) (Cuda.blockCode ops zfp.maxbits block) i = false := by
    rcases hi with hlt | hge
    · exact placedBit_of_lt _ hlt
    · rw [Nat.add_mul, Nat.one_mul] at hge
      exact placedBit_of_ge (by omega)
  rw [bitOf, hmem (hiff.mp hzero), BitVec.getLsbD_or, getLsbD_placed, Nat.div_add_mod', hout,
    Bool.and_false, Bool.or_false]
  rfl

/-- Whatever the mode of the writer, the encoder of a block leaves in a stream of zeros what the
serial encoder leaves there, and changes no bits outside its part of any stream, if and only if no
one-bit of the block is out of reach of the index of its word. -/
theorem metal_encode_iff (ops : FloatOps S (4 ^ d)) {zfp : Params} (block : ℕ → BitVec S.width)
    (hS : S ≠ .double) (hd : 1 ≤ d) (hd' : d ≤ 3) (hfull : Cuda.FullPrecision zfp)
    (hside : sideBits S false ≤ zfp.maxbits) (blockIdx : ℕ) (atomicMode : Bool) :
    let w := zfpEncodeBlock S d ops block zfp.maxbits blockIdx atomicMode
    (written (fun _ => 0) w =
        (encodeAt ops zfp Cuda.clearStream (blockIdx * zfp.maxbits) block).2.mem ∧
      ∀ mem i, i < blockIdx * zfp.maxbits ∨ (blockIdx + 1) * zfp.maxbits ≤ i →
        bitOf (written mem w) i = bitOf mem i) ↔
      InReach atomicMode (blockIdx * zfp.maxbits) (blockCode ops zfp block) := by
  intro w
  have hiff := written_eq_serial_iff ops block hS hd hd' hfull hside blockIdx atomicMode
  refine ⟨fun h => hiff.mp h.1, fun h => ⟨hiff.mpr h, fun mem i hi => ?_⟩⟩
  exact bitOf_written ops block hS hd hd' hfull hside blockIdx atomicMode h mem hi

end

def rate32 : Params :=
  { zfpStreamSetReversible with
    minbits := 512
    maxbits := 512
    minexp := -1074
    minbits_le := Nat.le_refl 512
    maxbits_lt := by omega }

def twos (_ : ℕ) : BitVec Scalar.int32.width := 2

/-- At offset `2 ^ 38` the index of the word is that of the first word of the stream. -/
theorem metal_encode_wraps :
    ¬ ∀ blockIdx < 2 ^ 32,
      written (fun _ => 0) (zfpEncodeBlock .int32 2 (CudaMemory.intOps 2) twos 512 blockIdx false) =
        (encodeAt (CudaMemory.intOps 2) rate32 Cuda.clearStream (blockIdx * 512) twos).2.mem := by
  intro hall
  have hmem := hall (2 ^ 29) (by decide)
  have hreach := (written_eq_serial_iff (CudaMemory.intOps 2) twos (by decide) (by decide)
    (by decide) (show Cuda.FullPrecision rate32 from ⟨rfl, rfl⟩) (by decide) (2 ^ 29) false).mp hmem
  have hfalse : ∀ b ∈ blockCode (CudaMemory.intOps 2) rate32 twos, b = false := by
    intro b hb
    obtain ⟨i, hi, rfl⟩ := List.getElem_of_mem hb
    by_contra hne
    have hlt := hreach i (by rw [List.getD_eq_getElem _ _ hi]; exact Bool.eq_true_of_not_eq_false hne)
    have hpast : 2 ^ 29 * rate32.maxbits = indexLimit false * 64 := by decide
    omega
  -- all planes but the last one fit in 512 bits
  obtain ⟨n, -, hsplit⟩ := planesCode_split
    (x := plane (fwdWords .int32 2 (fwdXform halfWord 2 twos))) (show 0 ≤ 1 by decide)
    (show 1 ≤ 32 by decide) (show 0 ≤ 16 by decide)
  have hlen := planesCode_length (plane (fwdWords .int32 2 (fwdXform halfWord 2 twos)))
    (show 0 < 16 by decide) 1 32
  have hplanes := (planesCode_false (x := plane (fwdWords .int32 2 (fwdXform halfWord 2 twos))) 1 32
    (Nat.zero_le 16)).mp fun b hb => by
      refine hfalse b (List.mem_append_left _ ?_)
      have htake := List.take_of_length_le (hlen.trans (show _ ≤ 512 by decide))
      change b ∈ (planesCode _ 16 0 32 0).take 512
      rw [hsplit, List.take_append, htake]
      exact List.mem_append_left _ hb
  exact absurd (hplanes 1 (by decide) (by decide) 0 (by decide)) (by decide)

/-- The fourth block of a small stream. -/
theorem metal_encode_fourth :
    written (fun _ => 0) (zfpEncodeBlock .int32 2 (CudaMemory.intOps 2) twos 512 3 true) =
      (encodeAt (CudaMemory.intOps 2) rate32 Cuda.clearStream (3 * 512) twos).2.mem := by
  have hrate : Cuda.DeviceRate .int32 rate32 := ⟨rfl, rfl, rfl, by decide, by decide, by decide⟩
  have hlen : (blockCode (CudaMemory.intOps 2) rate32 twos).length = 512 :=
    hrate.length (CudaMemory.intOps 2) twos
  exact ((metal_encode_iff (CudaMemory.intOps 2) twos (by decide) (by decide) (by decide)
    (show Cuda.FullPrecision rate32 from ⟨rfl, rfl⟩) (by decide) 3 true).mpr
      (inReach_of_le (by rw [hlen]; decide))).1

end Zfp.Metal

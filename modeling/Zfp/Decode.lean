import Zfp.Encode

/-!
# The bit-plane decoders

A direct embedding of the integer decoders of `decode.c` in the build without rounding
(`ZFP_ROUND_NEVER`). Each decoder returns the array, its count and the stream. The
coefficients that a decoder does not set keep their contents.
-/

namespace Zfp

variable {T : WordType} {w : ℕ}

def zeroInts (data : ℕ → BitVec w) (size : ℕ) : ℕ → BitVec w :=
  (List.range size).foldl (fun data i => Function.update data i 0) data

def addBit (data : ℕ → BitVec w) (k i : ℕ) : ℕ → BitVec w :=
  Function.update data i (data i + 1#w <<< k)

def decodeScan (size : ℕ) (s : Bitstream T) (bits n : ℕ) : ℕ × ℕ × Bitstream T :=
  if bits ≠ 0 ∧ n < size - 1 then
    let r := streamReadBit s
    if r.1 then (n, bits - 1, r.2)
    else decodeScan size r.2 (bits - 1) (n + 1)
  else (n, bits, s)
termination_by bits

theorem decodeScan_bits (size : ℕ) (s : Bitstream T) (bits n : ℕ) :
    (decodeScan size s bits n).2.1 ≤ bits := by
  fun_induction decodeScan with
  | case1 => simp
  | case2 => omega
  | case3 => simp

/-! ## `decode_few_ints` -/

/-- Unary run-length decode the remainder of a bit plane into the plane word `x`. -/
def decodeFewGroups (size : ℕ) (s : Bitstream T) (bits : ℕ) (x : BitVec 64) (n : ℕ) :
    BitVec 64 × ℕ × ℕ × Bitstream T :=
  if bits ≠ 0 ∧ n < size then
    let r := streamReadBit s
    if r.1 then
      let r := decodeScan size r.2 (bits - 1) n
      decodeFewGroups size r.2.2 r.2.1 (x + 1#64 <<< r.1) (r.1 + 1)
    else (x, n, bits - 1, r.2)
  else (x, n, bits, s)
termination_by bits
decreasing_by
  have := decodeScan_bits size (streamReadBit s).2 (bits - 1) n
  omega

/-- Deposit the bit plane `x` from the integer with index `i` on. -/
def depositPlane (data : ℕ → BitVec w) (k : ℕ) (x : BitVec 64) (i : ℕ) : ℕ → BitVec w :=
  if x ≠ 0 then
    depositPlane
      (Function.update data i (data i + (BitVec.ofBool (x.getLsbD 0)).setWidth w <<< k)) k
      (x >>> 1) (i + 1)
  else data
termination_by x.toNat
decreasing_by
  rename_i h
  have : x.toNat ≠ 0 := fun h0 => h (BitVec.eq_of_toNat_eq h0)
  rw [BitVec.toNat_ushiftRight, Nat.shiftRight_eq_div_pow]
  omega

def decodeFewPlanes (size kmin : ℕ) :
    ℕ → Bitstream T → ℕ → (ℕ → BitVec w) → ℕ → (ℕ → BitVec w) × ℕ × Bitstream T
  | 0, s, bits, data, _ => (data, bits, s)
  | k + 1, s, bits, data, n =>
    if bits ≠ 0 ∧ kmin ≤ k then
      let m := min n bits
      let (x, s) := streamReadBits s m
      let r := decodeFewGroups size s (bits - m) x n
      decodeFewPlanes size kmin k r.2.2.2 r.2.2.1 (depositPlane data k r.1 0) r.2.1
    else (data, bits, s)

def decodeFewInts (s : Bitstream T) (maxbits maxprec : ℕ) (data : ℕ → BitVec w) (size : ℕ) :
    (ℕ → BitVec w) × ℕ × Bitstream T :=
  let (data, bits, s) := decodeFewPlanes size (w - maxprec) w s maxbits (zeroInts data size) 0
  (data, maxbits - bits, s)

/-! ## `decode_many_ints` -/

def readPlane (data : ℕ → BitVec w) (k m : ℕ) (s : Bitstream T) : (ℕ → BitVec w) × Bitstream T :=
  (List.range m).foldl
    (fun (data, s) i =>
      let (b, s) := streamReadBit s
      (if b then addBit data k i else data, s))
    (data, s)

/-- As `decodeFewGroups`, with the bits stored in the integers. -/
def decodeManyGroups (k size : ℕ) (s : Bitstream T) (bits : ℕ) (data : ℕ → BitVec w) (n : ℕ) :
    (ℕ → BitVec w) × ℕ × ℕ × Bitstream T :=
  if bits ≠ 0 ∧ n < size then
    let r := streamReadBit s
    if r.1 then
      let r := decodeScan size r.2 (bits - 1) n
      decodeManyGroups k size r.2.2 r.2.1 (addBit data k r.1) (r.1 + 1)
    else (data, n, bits - 1, r.2)
  else (data, n, bits, s)
termination_by bits
decreasing_by
  have := decodeScan_bits size (streamReadBit s).2 (bits - 1) n
  omega

def decodeManyPlanes (size kmin : ℕ) :
    ℕ → Bitstream T → ℕ → (ℕ → BitVec w) → ℕ → (ℕ → BitVec w) × ℕ × Bitstream T
  | 0, s, bits, data, _ => (data, bits, s)
  | k + 1, s, bits, data, n =>
    if bits ≠ 0 ∧ kmin ≤ k then
      let m := min n bits
      let (data, s) := readPlane data k m s
      let r := decodeManyGroups k size s (bits - m) data n
      decodeManyPlanes size kmin k r.2.2.2 r.2.2.1 r.1 r.2.1
    else (data, bits, s)

def decodeManyInts (s : Bitstream T) (maxbits maxprec : ℕ) (data : ℕ → BitVec w) (size : ℕ) :
    (ℕ → BitVec w) × ℕ × Bitstream T :=
  let (data, bits, s) := decodeManyPlanes size (w - maxprec) w s maxbits (zeroInts data size) 0
  (data, maxbits - bits, s)

/-! ## `decode_few_ints_prec` and `decode_many_ints_prec` -/

def decodeScanPrec (size : ℕ) (s : Bitstream T) (n : ℕ) : ℕ × Bitstream T :=
  if n < size - 1 then
    let r := streamReadBit s
    if r.1 then (n, r.2)
    else decodeScanPrec size r.2 (n + 1)
  else (n, s)
termination_by size - n

theorem decodeScanPrec_n (size : ℕ) (s : Bitstream T) (n : ℕ) :
    n ≤ (decodeScanPrec size s n).1 := by
  fun_induction decodeScanPrec with
  | case1 => simp
  | case2 => omega
  | case3 => simp

def decodeFewGroupsPrec (size : ℕ) (s : Bitstream T) (x : BitVec 64) (n : ℕ) :
    BitVec 64 × ℕ × Bitstream T :=
  if n < size then
    let r := streamReadBit s
    if r.1 then
      let r := decodeScanPrec size r.2 n
      decodeFewGroupsPrec size r.2 (x + 1#64 <<< r.1) (r.1 + 1)
    else (x, n, r.2)
  else (x, n, s)
termination_by size - n
decreasing_by
  have := decodeScanPrec_n size (streamReadBit s).2 n
  omega

def decodeFewPlanesPrec (size kmin : ℕ) :
    ℕ → Bitstream T → (ℕ → BitVec w) → ℕ → (ℕ → BitVec w) × Bitstream T
  | 0, s, data, _ => (data, s)
  | k + 1, s, data, n =>
    if kmin ≤ k then
      let (x, s) := streamReadBits s n
      let r := decodeFewGroupsPrec size s x n
      decodeFewPlanesPrec size kmin k r.2.2 (depositPlane data k r.1 0) r.2.1
    else (data, s)

def decodeFewIntsPrec (s : Bitstream T) (maxprec : ℕ) (data : ℕ → BitVec w) (size : ℕ) :
    (ℕ → BitVec w) × ℕ × Bitstream T :=
  let offset := streamRtell s
  let (data, s) := decodeFewPlanesPrec size (w - maxprec) w s (zeroInts data size) 0
  (data, (streamRtell s - offset) % 2 ^ 32, s)

def decodeManyGroupsPrec (k size : ℕ) (s : Bitstream T) (data : ℕ → BitVec w) (n : ℕ) :
    (ℕ → BitVec w) × ℕ × Bitstream T :=
  if n < size then
    let r := streamReadBit s
    if r.1 then
      let r := decodeScanPrec size r.2 n
      decodeManyGroupsPrec k size r.2 (addBit data k r.1) (r.1 + 1)
    else (data, n, r.2)
  else (data, n, s)
termination_by size - n
decreasing_by
  have := decodeScanPrec_n size (streamReadBit s).2 n
  omega

def decodeManyPlanesPrec (size kmin : ℕ) :
    ℕ → Bitstream T → (ℕ → BitVec w) → ℕ → (ℕ → BitVec w) × Bitstream T
  | 0, s, data, _ => (data, s)
  | k + 1, s, data, n =>
    if kmin ≤ k then
      let (data, s) := readPlane data k n s
      let r := decodeManyGroupsPrec k size s data n
      decodeManyPlanesPrec size kmin k r.2.2 r.1 r.2.1
    else (data, s)

def decodeManyIntsPrec (s : Bitstream T) (maxprec : ℕ) (data : ℕ → BitVec w) (size : ℕ) :
    (ℕ → BitVec w) × ℕ × Bitstream T :=
  let offset := streamRtell s
  let (data, s) := decodeManyPlanesPrec size (w - maxprec) w s (zeroInts data size) 0
  (data, (streamRtell s - offset) % 2 ^ 32, s)

def decodeInts (s : Bitstream T) (maxbits maxprec : ℕ) (data : ℕ → BitVec w) (size : ℕ) :
    (ℕ → BitVec w) × ℕ × Bitstream T :=
  if withMaxbits maxbits maxprec size then
    if size ≤ 64 then decodeFewInts s maxbits maxprec data size
    else decodeManyInts s maxbits maxprec data size
  else
    if size ≤ 64 then decodeFewIntsPrec s maxprec data size
    else decodeManyIntsPrec s maxprec data size

end Zfp

import Zfp.Bitstream

/-!
# The bit-plane encoders

A direct embedding of the integer coders of `encode.c`, for the unsigned integers of
width `w` (32 or 64). A loop `for (k = intprec; … k-- > kmin;)` is a recursion on `k`;
its body sees the decremented value. Each encoder returns its count and the stream.
-/

namespace Zfp

variable {T : WordType} {w : ℕ}

/-- Bit plane `k`, coefficient `i` in bit `i`. -/
def extractPlane (data : ℕ → BitVec w) (k size : ℕ) : BitVec 64 :=
  (List.range size).foldl
    (fun x i => x + (BitVec.ofBool ((data i).getLsbD k)).setWidth 64 <<< i) 0

def writePlane (data : ℕ → BitVec w) (k m : ℕ) (s : Bitstream T) : Bitstream T :=
  (List.range m).foldl (fun s i => streamWriteBit s ((data i).getLsbD k)) s

def countOnes (data : ℕ → BitVec w) (k m size : ℕ) : ℕ :=
  (List.range' m (size - m)).foldl (fun c i => c + ((data i).getLsbD k).toNat) 0

/-! ## `encode_few_ints` -/

/-- Scan for a one-bit after a positive group test. -/
def encodeFewScan (size : ℕ) (s : Bitstream T) (bits : ℕ) (x : BitVec 64) (n : ℕ) :
    Bitstream T × ℕ × BitVec 64 × ℕ :=
  if bits ≠ 0 ∧ n < size - 1 then
    let s := streamWriteBit s (x.getLsbD 0)
    if x.getLsbD 0 then (s, bits - 1, x, n)
    else encodeFewScan size s (bits - 1) (x >>> 1) (n + 1)
  else (s, bits, x, n)
termination_by bits

theorem encodeFewScan_bits (size : ℕ) (s : Bitstream T) (bits : ℕ) (x : BitVec 64) (n : ℕ) :
    (encodeFewScan size s bits x n).2.1 ≤ bits := by
  fun_induction encodeFewScan with
  | case1 => simp
  | case2 => omega
  | case3 => simp

/-- Unary run-length encode the remainder of a bit plane. -/
def encodeFewGroups (size : ℕ) (s : Bitstream T) (bits : ℕ) (x : BitVec 64) (n : ℕ) :
    Bitstream T × ℕ × ℕ :=
  if bits ≠ 0 ∧ n < size then
    let s' := streamWriteBit s (x != 0)
    if x != 0 then
      let r := encodeFewScan size s' (bits - 1) x n
      encodeFewGroups size r.1 r.2.1 (r.2.2.1 >>> 1) (r.2.2.2 + 1)
    else (s', bits - 1, n)
  else (s, bits, n)
termination_by bits
decreasing_by
  have := encodeFewScan_bits size (streamWriteBit s (x != 0)) (bits - 1) x n
  omega

def encodeFewPlanes (data : ℕ → BitVec w) (size kmin : ℕ) :
    ℕ → Bitstream T → ℕ → ℕ → Bitstream T × ℕ
  | 0, s, bits, _ => (s, bits)
  | k + 1, s, bits, n =>
    if bits ≠ 0 ∧ kmin ≤ k then
      let m := min n bits
      let (x, s) := streamWriteBits s (extractPlane data k size) m
      let r := encodeFewGroups size s (bits - m) x n
      encodeFewPlanes data size kmin k r.1 r.2.1 r.2.2
    else (s, bits)

def encodeFewInts (s : Bitstream T) (maxbits maxprec : ℕ) (data : ℕ → BitVec w) (size : ℕ) :
    ℕ × Bitstream T :=
  let (s, bits) := encodeFewPlanes data size (w - maxprec) w s maxbits 0
  (maxbits - bits, s)

/-! ## `encode_many_ints` -/

def encodeManyScan (data : ℕ → BitVec w) (k size : ℕ) (s : Bitstream T) (bits n : ℕ) :
    Bitstream T × ℕ × ℕ :=
  if bits ≠ 0 ∧ n < size - 1 then
    let s := streamWriteBit s ((data n).getLsbD k)
    if (data n).getLsbD k then (s, bits - 1, n)
    else encodeManyScan data k size s (bits - 1) (n + 1)
  else (s, bits, n)
termination_by bits

theorem encodeManyScan_bits (data : ℕ → BitVec w) (k size : ℕ) (s : Bitstream T) (bits n : ℕ) :
    (encodeManyScan data k size s bits n).2.1 ≤ bits := by
  fun_induction encodeManyScan with
  | case1 => simp
  | case2 => omega
  | case3 => simp

/-- As `encodeFewGroups`, with the number `c` of remaining one-bits for the plane word. -/
def encodeManyGroups (data : ℕ → BitVec w) (k size : ℕ) (s : Bitstream T) (bits c n : ℕ) :
    Bitstream T × ℕ × ℕ :=
  if bits ≠ 0 ∧ n < size then
    let s' := streamWriteBit s (c != 0)
    if c != 0 then
      let r := encodeManyScan data k size s' (bits - 1) n
      encodeManyGroups data k size r.1 r.2.1 (c - 1) (r.2.2 + 1)
    else (s', bits - 1, n)
  else (s, bits, n)
termination_by bits
decreasing_by
  have := encodeManyScan_bits data k size (streamWriteBit s (c != 0)) (bits - 1) n
  omega

def encodeManyPlanes (data : ℕ → BitVec w) (size kmin : ℕ) :
    ℕ → Bitstream T → ℕ → ℕ → Bitstream T × ℕ
  | 0, s, bits, _ => (s, bits)
  | k + 1, s, bits, n =>
    if bits ≠ 0 ∧ kmin ≤ k then
      let m := min n bits
      let s := writePlane data k m s
      let r := encodeManyGroups data k size s (bits - m) (countOnes data k m size) n
      encodeManyPlanes data size kmin k r.1 r.2.1 r.2.2
    else (s, bits)

def encodeManyInts (s : Bitstream T) (maxbits maxprec : ℕ) (data : ℕ → BitVec w) (size : ℕ) :
    ℕ × Bitstream T :=
  let (s, bits) := encodeManyPlanes data size (w - maxprec) w s maxbits 0
  (maxbits - bits, s)

/-! ## `encode_few_ints_prec` -/

def encodeFewScanPrec (size : ℕ) (s : Bitstream T) (x : BitVec 64) (n : ℕ) :
    Bitstream T × BitVec 64 × ℕ :=
  if n < size - 1 then
    let s := streamWriteBit s (x.getLsbD 0)
    if x.getLsbD 0 then (s, x, n)
    else encodeFewScanPrec size s (x >>> 1) (n + 1)
  else (s, x, n)
termination_by size - n

theorem encodeFewScanPrec_n (size : ℕ) (s : Bitstream T) (x : BitVec 64) (n : ℕ) :
    n ≤ (encodeFewScanPrec size s x n).2.2 := by
  fun_induction encodeFewScanPrec with
  | case1 => simp
  | case2 => omega
  | case3 => simp

def encodeFewGroupsPrec (size : ℕ) (s : Bitstream T) (x : BitVec 64) (n : ℕ) :
    Bitstream T × ℕ :=
  if n < size then
    let s' := streamWriteBit s (x != 0)
    if x != 0 then
      let r := encodeFewScanPrec size s' x n
      encodeFewGroupsPrec size r.1 (r.2.1 >>> 1) (r.2.2 + 1)
    else (s', n)
  else (s, n)
termination_by size - n
decreasing_by
  have := encodeFewScanPrec_n size (streamWriteBit s (x != 0)) x n
  omega

def encodeFewPlanesPrec (data : ℕ → BitVec w) (size kmin : ℕ) :
    ℕ → Bitstream T → ℕ → Bitstream T
  | 0, s, _ => s
  | k + 1, s, n =>
    if kmin ≤ k then
      let (x, s) := streamWriteBits s (extractPlane data k size) n
      let r := encodeFewGroupsPrec size s x n
      encodeFewPlanesPrec data size kmin k r.1 r.2
    else s

def encodeFewIntsPrec (s : Bitstream T) (maxprec : ℕ) (data : ℕ → BitVec w) (size : ℕ) :
    ℕ × Bitstream T :=
  let offset := streamWtell s
  let s := encodeFewPlanesPrec data size (w - maxprec) w s 0
  ((streamWtell s - offset) % 2 ^ 32, s)

/-! ## `encode_many_ints_prec` -/

def encodeManyScanPrec (data : ℕ → BitVec w) (k size : ℕ) (s : Bitstream T) (n : ℕ) :
    Bitstream T × ℕ :=
  if n < size - 1 then
    let s := streamWriteBit s ((data n).getLsbD k)
    if (data n).getLsbD k then (s, n)
    else encodeManyScanPrec data k size s (n + 1)
  else (s, n)
termination_by size - n

theorem encodeManyScanPrec_n (data : ℕ → BitVec w) (k size : ℕ) (s : Bitstream T) (n : ℕ) :
    n ≤ (encodeManyScanPrec data k size s n).2 := by
  fun_induction encodeManyScanPrec with
  | case1 => simp
  | case2 => omega
  | case3 => simp

def encodeManyGroupsPrec (data : ℕ → BitVec w) (k size : ℕ) (s : Bitstream T) (c n : ℕ) :
    Bitstream T × ℕ :=
  if n < size then
    let s' := streamWriteBit s (c != 0)
    if c != 0 then
      let r := encodeManyScanPrec data k size s' n
      encodeManyGroupsPrec data k size r.1 (c - 1) (r.2 + 1)
    else (s', n)
  else (s, n)
termination_by size - n
decreasing_by
  have := encodeManyScanPrec_n data k size (streamWriteBit s (c != 0)) n
  omega

def encodeManyPlanesPrec (data : ℕ → BitVec w) (size kmin : ℕ) :
    ℕ → Bitstream T → ℕ → Bitstream T
  | 0, s, _ => s
  | k + 1, s, n =>
    if kmin ≤ k then
      let s := writePlane data k n s
      let r := encodeManyGroupsPrec data k size s (countOnes data k n size) n
      encodeManyPlanesPrec data size kmin k r.1 r.2
    else s

def encodeManyIntsPrec (s : Bitstream T) (maxprec : ℕ) (data : ℕ → BitVec w) (size : ℕ) :
    ℕ × Bitstream T :=
  let offset := streamWtell s
  let s := encodeManyPlanesPrec data size (w - maxprec) w s 0
  ((streamWtell s - offset) % 2 ^ 32, s)

/-- true if max compressed size exceeds maxbits; the arithmetic is that of `uint` -/
def withMaxbits (maxbits maxprec size : ℕ) : Bool :=
  maxbits < ((maxprec + 1) * size + (2 ^ 32 - 1)) % 2 ^ 32

def encodeInts (s : Bitstream T) (maxbits maxprec : ℕ) (data : ℕ → BitVec w) (size : ℕ) :
    ℕ × Bitstream T :=
  if withMaxbits maxbits maxprec size then
    if size ≤ 64 then encodeFewInts s maxbits maxprec data size
    else encodeManyInts s maxbits maxprec data size
  else
    if size ≤ 64 then encodeFewIntsPrec s maxprec data size
    else encodeManyIntsPrec s maxprec data size

end Zfp

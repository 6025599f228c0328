import Zfp.Decode
import Zfp.Transform

/-!
# The block coders

The six block coders of the source: integers and floating-point numbers, lossy and
reversible. A block is read and written through a pointer; scalars are bit patterns.
The floating-point hardware is a parameter (`FloatOps`): the coders only move bits.
-/

namespace Zfp
open Lines

variable {T : WordType}

def ZFP_MIN_EXP : ℤ := -1074

/-- The compression parameters of a `zfp_stream`, as `zfp_stream_set_params` accepts them. -/
structure Params where
  minbits : ℕ
  maxbits : ℕ
  maxprec : ℕ
  minexp : ℤ
  minbits_le : minbits ≤ maxbits
  maxbits_lt : maxbits < 2 ^ 32
  maxprec_pos : 0 < maxprec
  maxprec_le : maxprec ≤ 64

def zfpStreamSetParams (minbits maxbits maxprec : UInt32) (minexp : ℤ) : Option Params :=
  if h : ¬ (maxbits.toNat < minbits.toNat ∨ ¬ (0 < maxprec.toNat ∧ maxprec.toNat ≤ 64)) then
    some ⟨minbits.toNat, maxbits.toNat, maxprec.toNat, minexp, by omega,
      maxbits.toNat_lt, by omega, by omega⟩
  else none

def zfpStreamSetReversible : Params where
  minbits := 1
  maxbits := 16658
  maxprec := 64
  minexp := ZFP_MIN_EXP - 1
  minbits_le := by decide
  maxbits_lt := by decide
  maxprec_pos := by decide
  maxprec_le := by decide

def REVERSIBLE (zfp : Params) : Bool := zfp.minexp < ZFP_MIN_EXP

def Scalar.isFloat : Scalar → Bool
  | .float => true | .double => true | _ => false

/-- The floating-point operations on blocks of `n` values, as functions of the bit patterns.
Only the range of the exponent is known. -/
structure FloatOps (S : Scalar) (n : ℕ) where
  /-- maximum floating-point exponent in block of n values -/
  exponentBlock : (Fin n → BitVec S.width) → ℤ
  /-- forward block-floating-point transform to signed integers -/
  fwdCast : (Fin n → BitVec S.width) → ℤ → Fin n → BitVec S.width
  /-- inverse block-floating-point transform from signed integers -/
  invCast : (Fin n → BitVec S.width) → ℤ → Fin n → BitVec S.width
  exponentBlock_mem : ∀ b, -(EBIAS S : ℤ) ≤ exponentBlock b ∧
    exponentBlock b ≤ 2 ^ EBITS S - 1 - EBIAS S

def blockOf {α : Type*} (n : ℕ) (p : ℕ → α) (i : Fin n) : α := p i

def putBlock {α : Type*} {n : ℕ} (p : ℕ → α) (b : Fin n → α) (i : ℕ) : α :=
  if h : i < n then b ⟨i, h⟩ else p i

/-- `a - b` in `uint` arithmetic. -/
@[irreducible] def uintSub (a b : ℕ) : ℕ := (a + 2 ^ 32 - b) % 2 ^ 32

def writeMinbits (minbits : ℕ) (r : ℕ × Bitstream T) : ℕ × Bitstream T :=
  if r.1 < minbits then (minbits, streamPad r.2 (minbits - r.1)) else r

def readMinbits (minbits : ℕ) (r : ℕ × Bitstream T) : ℕ × Bitstream T :=
  if r.1 < minbits then (minbits, streamSkip r.2 (minbits - r.1)) else r

/-! ## Integer blocks -/

def encodeIntBlock (S : Scalar) (d : ℕ) (s : Bitstream T) (minbits maxbits maxprec : ℕ)
    (iblock : ℕ → BitVec S.width) : ℕ × Bitstream T :=
  let iblock := fwdXform halfWord d iblock
  let ublock := fwdOrder (NBMASK S) iblock (perm d) (4 ^ d)
  writeMinbits minbits (encodeInts s maxbits maxprec ublock (4 ^ d))

def decodeIntBlock (S : Scalar) (d : ℕ) (s : Bitstream T) (minbits maxbits maxprec : ℕ)
    (iblock : ℕ → BitVec S.width) : ℕ × Bitstream T × (ℕ → BitVec S.width) :=
  let r := decodeInts s maxbits maxprec (fun _ => 0) (4 ^ d)
  let q := readMinbits minbits r.2
  let iblock := invOrder (NBMASK S) r.1 iblock (perm d) (4 ^ d)
  (q.1, q.2, invXform halfWord d iblock)

/-- The binary search of `revPrecision`; the step `s` is not zero while bits are left. -/
def revPrecisionLoop {w : ℕ} (m : BitVec w) (s p : ℕ) : ℕ :=
  if m ≠ 0 ∧ s ≠ 0 then
    if m <<< (s - 1) ≠ 0 then revPrecisionLoop (m <<< (s - 1) <<< 1) (s / 2) (p + s)
    else revPrecisionLoop m (s / 2) p
  else p
termination_by s

def revPrecision {w : ℕ} (block : ℕ → BitVec w) (n : ℕ) : ℕ :=
  revPrecisionLoop ((List.range n).foldl (fun m i => m ||| block i) 0) w 0

def revEncodeIntBlock (S : Scalar) (d : ℕ) (s : Bitstream T) (minbits maxbits maxprec : ℕ)
    (iblock : ℕ → BitVec S.width) : ℕ × Bitstream T :=
  let iblock := revFwdXform d iblock
  let ublock := fwdOrder (NBMASK S) iblock (perm d) (4 ^ d)
  let prec := max (min (revPrecision ublock (4 ^ d)) maxprec) 1
  let s := (streamWriteBits s (BitVec.ofNat 64 (prec - 1)) (PBITS S)).2
  let r := encodeInts s (uintSub maxbits (PBITS S)) prec ublock (4 ^ d)
  writeMinbits minbits (PBITS S + r.1, r.2)

def revDecodeIntBlock (S : Scalar) (d : ℕ) (s : Bitstream T) (minbits maxbits : ℕ)
    (iblock : ℕ → BitVec S.width) : ℕ × Bitstream T × (ℕ → BitVec S.width) :=
  let p := streamReadBits s (PBITS S)
  let prec := p.1.toNat + 1
  let r := decodeInts p.2 (uintSub maxbits (PBITS S)) prec (fun _ => 0) (4 ^ d)
  let q := readMinbits minbits (PBITS S + r.2.1, r.2.2)
  let iblock := invOrder (NBMASK S) r.1 iblock (perm d) (4 ^ d)
  (q.1, q.2, revInvXform d iblock)

/-! ## Floating-point blocks -/

def precision (maxexp : ℤ) (maxprec : ℕ) (minexp : ℤ) (dims : ℕ) : ℕ :=
  min maxprec (maxexp - minexp + 2 * dims + 2).toNat

section

variable {S : Scalar} {d : ℕ} (ops : FloatOps S (4 ^ d))

def encodeFloatBlock (zfp : Params) (s : Bitstream T) (fblock : ℕ → BitVec S.width) :
    ℕ × Bitstream T :=
  let emax := ops.exponentBlock (blockOf _ fblock)
  let maxprec := precision emax zfp.maxprec zfp.minexp d
  let e := if maxprec ≠ 0 then (emax + EBIAS S).toNat else 0
  if e ≠ 0 then
    let bits := 1 + EBITS S
    let s := (streamWriteBits s (BitVec.ofNat 64 (2 * e + 1)) bits).2
    let iblock := putBlock (fun _ => 0) (ops.fwdCast (blockOf _ fblock) emax)
    let r := encodeIntBlock S d s (zfp.minbits - min bits zfp.minbits)
      (uintSub zfp.maxbits bits) maxprec iblock
    (bits + r.1, r.2)
  else writeMinbits zfp.minbits (1, streamWriteBit s false)

def decodeFloatBlock (zfp : Params) (s : Bitstream T) (fblock : ℕ → BitVec S.width) :
    ℕ × Bitstream T × (ℕ → BitVec S.width) :=
  let b := streamReadBit s
  if b.1 then
    let bits := 1 + EBITS S
    let p := streamReadBits b.2 (EBITS S)
    let emax := (p.1.toNat : ℤ) - EBIAS S
    let maxprec := precision emax zfp.maxprec zfp.minexp d
    let r := decodeIntBlock S d p.2 (zfp.minbits - min bits zfp.minbits)
      (uintSub zfp.maxbits bits) maxprec (fun _ => 0)
    (bits + r.1, r.2.1, putBlock fblock (ops.invCast (blockOf _ r.2.2) emax))
  else
    let q := readMinbits zfp.minbits (1, b.2)
    (q.1, q.2, putBlock fblock fun _ : Fin (4 ^ d) => 0)

def revInvCast (iblock : Fin (4 ^ d) → BitVec S.width) (emax : ℤ) : Fin (4 ^ d) → BitVec S.width :=
  if emax ≠ -EBIAS S then ops.invCast iblock emax else fun _ => 0

def revFwdCast (fblock : Fin (4 ^ d) → BitVec S.width) (emax : ℤ) : Fin (4 ^ d) → BitVec S.width :=
  if emax ≠ -EBIAS S then ops.fwdCast fblock emax else fun _ => 0

/-- test if block-floating-point encoding is reversible -/
def revFwdReversible (iblock fblock : Fin (4 ^ d) → BitVec S.width) (emax : ℤ) : Bool :=
  fblock = revInvCast ops iblock emax

/-- Convert between sign-magnitude and two's complement integers; the same map both ways. -/
def revReinterpret (S : Scalar) (x : BitVec S.width) : BitVec S.width :=
  if x.msb then x ^^^ TCMASK S else x

def revEncodeFloatBlock (zfp : Params) (s : Bitstream T) (fblock : ℕ → BitVec S.width) :
    ℕ × Bitstream T :=
  let emax := ops.exponentBlock (blockOf _ fblock)
  let iblock := revFwdCast ops (blockOf _ fblock) emax
  -- the integer coder that follows `bits` bits of side information
  let encodeRest := fun (bits : ℕ) (s : Bitstream T) (iblock : ℕ → BitVec S.width) =>
    let r := revEncodeIntBlock S d s (zfp.minbits - min bits zfp.minbits)
      (uintSub zfp.maxbits bits) zfp.maxprec iblock
    (bits + r.1, r.2)
  if revFwdReversible ops iblock (blockOf _ fblock) emax then
    let e := (emax + EBIAS S).toNat
    if e ≠ 0 then
      let s := (streamWriteBits s 1 2).2
      let s := (streamWriteBits s (BitVec.ofNat 64 e) (EBITS S)).2
      encodeRest (2 + EBITS S) s (putBlock (fun _ => 0) iblock)
    else (1, streamWriteBit s false)
  else
    let s := (streamWriteBits s 3 2).2
    encodeRest 2 s fun i => revReinterpret S (fblock i)

def revDecodeFloatBlock (zfp : Params) (s : Bitstream T) (fblock : ℕ → BitVec S.width) :
    ℕ × Bitstream T × (ℕ → BitVec S.width) :=
  let decodeRest := fun (bits : ℕ) (s : Bitstream T) =>
    revDecodeIntBlock S d s (zfp.minbits - min bits zfp.minbits) (uintSub zfp.maxbits bits)
      (fun _ => 0)
  let b := streamReadBit s
  if b.1 then
    let c := streamReadBit b.2
    if c.1 then
      let r := decodeRest 2 c.2
      (2 + r.1, r.2.1, putBlock fblock fun i : Fin (4 ^ d) => revReinterpret S (r.2.2 i))
    else
      let bits := 2 + EBITS S
      let p := streamReadBits c.2 (EBITS S)
      let emax := (p.1.toNat : ℤ) - EBIAS S
      let r := decodeRest bits p.2
      (bits + r.1, r.2.1, putBlock fblock (revInvCast ops (blockOf _ r.2.2) emax))
  else
    let q := readMinbits zfp.minbits (1, b.2)
    (q.1, q.2, putBlock fblock fun _ : Fin (4 ^ d) => 0)

def zfpEncodeBlock (zfp : Params) (s : Bitstream T) (block : ℕ → BitVec S.width) :
    ℕ × Bitstream T :=
  if S.isFloat then
    if REVERSIBLE zfp then revEncodeFloatBlock ops zfp s block
    else encodeFloatBlock ops zfp s block
  else
    if REVERSIBLE zfp then revEncodeIntBlock S d s zfp.minbits zfp.maxbits zfp.maxprec block
    else encodeIntBlock S d s zfp.minbits zfp.maxbits zfp.maxprec block

def zfpDecodeBlock (zfp : Params) (s : Bitstream T) (block : ℕ → BitVec S.width) :
    ℕ × Bitstream T × (ℕ → BitVec S.width) :=
  if S.isFloat then
    if REVERSIBLE zfp then revDecodeFloatBlock ops zfp s block
    else decodeFloatBlock ops zfp s block
  else
    if REVERSIBLE zfp then revDecodeIntBlock S d s zfp.minbits zfp.maxbits block
    else decodeIntBlock S d s zfp.minbits zfp.maxbits zfp.maxprec block

end

end Zfp

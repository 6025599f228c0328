import Zfp.StreamSize

/-!
# The size of a block

A block has at most as many bits as its side information, the group tests and all bit planes take,
and never more than `maxbits`, unless `minbits` asks for padding. Callers allocate this many bits
for each block of a field.
-/

namespace Zfp
open BitLists Bitstream PlaneCode

variable {T : WordType} {S : Scalar} {d : ℕ}

def zfpBlockMaximumSize (type : Option Scalar) (dims : ℕ) (reversible : Bool) : ℕ :=
  let row : List ℕ :=
    match type, reversible with
    -- non-reversible mode
    | some .int32, false => [131, 527, 2111, 8447]
    | some .int64, false => [259, 1039, 4159, 16639]
    | some .float, false => [140, 536, 2120, 8456]
    | some .double, false => [271, 1051, 4171, 16651]
    -- reversible mode
    | some .int32, true => [136, 532, 2116, 8452]
    | some .int64, true => [265, 1045, 4165, 16645]
    | some .float, true => [146, 542, 2126, 8462]
    | some .double, true => [278, 1058, 4178, 16658]
    | none, _ => []
  if 1 ≤ dims ∧ dims ≤ 4 then row.getD (dims - 1) 0 else 0

/-- The bits of a block with all planes: side information, group tests and planes. -/
def fullBits (S : Scalar) (d : ℕ) (zfp : Params) : ℕ :=
  typeBits S (REVERSIBLE zfp) + (4 ^ d - 1 + 4 ^ d * min zfp.maxprec S.width)

/-- The bits that `zfp_stream_maximum_size` sets aside for a block. -/
def blockMaxbits (S : Scalar) (d : ℕ) (zfp : Params) : ℕ :=
  max (min (fullBits S d zfp) zfp.maxbits) zfp.minbits

theorem blockMaxbits_le (S : Scalar) (d : ℕ) (zfp : Params) : blockMaxbits S d zfp ≤ zfp.maxbits :=
  max_le (min_le_right _ _) zfp.minbits_le

theorem fullBits_le (hd : 1 ≤ d) (hd' : d ≤ 4) (S : Scalar) (zfp : Params) :
    fullBits S d zfp ≤ zfpBlockMaximumSize (some S) d (REVERSIBLE zfp) := by
  have hfull : fullBits S d zfp ≤
      typeBits S (REVERSIBLE zfp) + (4 ^ d - 1 + 4 ^ d * S.width) := by
    have hmul := Nat.mul_le_mul_left (4 ^ d) (min_le_right zfp.maxprec S.width)
    rw [fullBits]
    omega
  apply hfull.trans
  cases hmode : REVERSIBLE zfp <;> interval_cases d <;> cases S <;> decide

/-! ## Codes -/

/-- All planes of a precision, within the planes of the block. -/
theorem length_intsCode_bound {w : ℕ} (data : ℕ → BitVec w) {prec maxprec : ℕ} (d : ℕ)
    (h : min prec w ≤ min maxprec w) :
    (intsCode data prec (4 ^ d)).length ≤ 4 ^ d - 1 + 4 ^ d * min maxprec w := by
  have hpos : 0 < 4 ^ d := Nat.pow_pos (by decide)
  have hlen := intsCode_length data prec hpos
  have hmul := Nat.mul_le_mul_left (4 ^ d) h
  rw [Nat.add_mul, Nat.one_mul, Nat.mul_comm] at hlen
  omega

theorem length_intBlockCode_bound (minbits maxbits : ℕ) {prec maxprec : ℕ} (h : prec ≤ maxprec)
    (iblock : ℕ → BitVec S.width) :
    (intBlockCode S d minbits maxbits prec iblock).length ≤
      max (4 ^ d - 1 + 4 ^ d * min maxprec S.width) minbits := by
  have hlen := length_intsCode_bound (fwdWords S d (fwdXform halfWord d iblock)) d
    (min_le_min_right S.width h)
  rw [intBlockCode, length_padded, List.length_take]
  exact max_le_max_right _ ((min_le_right _ _).trans hlen)

theorem revPrec_le (S : Scalar) (d : ℕ) {maxprec : ℕ} (hpos : 0 < maxprec)
    (iblock : ℕ → BitVec S.width) :
    min (revPrec S d maxprec iblock) S.width ≤ min maxprec S.width := by
  rw [revPrec]
  omega

theorem length_revIntBlockCode_bound (minbits maxbits : ℕ) {maxprec : ℕ} (hpos : 0 < maxprec)
    (iblock : ℕ → BitVec S.width) :
    (revIntBlockCode S d minbits maxbits maxprec iblock).length ≤
      max (PBITS S + (4 ^ d - 1 + 4 ^ d * min maxprec S.width)) minbits := by
  have hlen := length_intsCode_bound (fwdWords S d (revFwdXform d iblock)) d
    (revPrec_le S d hpos iblock)
  rw [revIntBlockCode, length_padded, List.length_append, length_lowBits, List.length_take]
  exact max_le_max_right _ (Nat.add_le_add_left ((min_le_right _ _).trans hlen) _)

section

variable (ops : FloatOps S (4 ^ d)) (zfp : Params)

theorem length_floatBlockCode_bound (fblock : ℕ → BitVec S.width) :
    (floatBlockCode ops zfp fblock).length ≤
      max (1 + EBITS S + (4 ^ d - 1 + 4 ^ d * min zfp.maxprec S.width)) zfp.minbits := by
  rw [floatBlockCode]
  split
  · have hprec := precision_le (ops.exponentBlock (blockOf _ fblock)) zfp.maxprec zfp.minexp d
    have hlen := length_intBlockCode_bound (d := d) (zfp.minbits - min (1 + EBITS S) zfp.minbits)
      (uintSub zfp.maxbits (1 + EBITS S)) hprec (putBlock (fun _ => 0) (ops.fwdCast
        (blockOf _ fblock) (ops.exponentBlock (blockOf _ fblock))))
    rw [List.length_append, length_lowBits]
    omega
  · rw [length_padded, List.length_singleton]
    omega

theorem length_revFloatBlockCode_bound (fblock : ℕ → BitVec S.width) :
    (revFloatBlockCode ops zfp fblock).length ≤
      max (2 + EBITS S + PBITS S + (4 ^ d - 1 + 4 ^ d * min zfp.maxprec S.width)) zfp.minbits := by
  cases hz : isZeroBlock ops fblock with
  | false =>
    have hhead := length_revHeader ops fblock
    have hlen := length_revIntBlockCode_bound (d := d)
      (zfp.minbits - min (revHeader ops fblock).1.length zfp.minbits)
      (uintSub zfp.maxbits (revHeader ops fblock).1.length) zfp.maxprec_pos (revHeader ops fblock).2
    rw [revFloatBlockCode_of_ne_zero ops zfp hz, List.length_append]
    omega
  | true =>
    rw [revFloatBlockCode_of_zero ops zfp hz, List.length_singleton]
    omega

/-- A block takes at most the bits of all its planes, unless it is padded. -/
theorem length_blockCode_full (block : ℕ → BitVec S.width) :
    (blockCode ops zfp block).length ≤ max (fullBits S d zfp) zfp.minbits := by
  rw [fullBits, typeBits_eq_sideBits, sideBits, blockCode]
  cases hS : S.isFloat <;> cases hmode : REVERSIBLE zfp
  · have hlen := length_intBlockCode_bound (d := d) zfp.minbits zfp.maxbits
      (Nat.le_refl zfp.maxprec) block
    simpa using hlen
  · have hlen := length_revIntBlockCode_bound (d := d) zfp.minbits zfp.maxbits zfp.maxprec_pos block
    simpa using hlen
  · exact length_floatBlockCode_bound ops zfp block
  · exact length_revFloatBlockCode_bound ops zfp block

/-- No block is larger than what is set aside for it. -/
theorem length_blockCode_bound (hside : sideBits S (REVERSIBLE zfp) ≤ zfp.maxbits)
    (block : ℕ → BitVec S.width) :
    (blockCode ops zfp block).length ≤ blockMaxbits S d zfp := by
  have hfull := length_blockCode_full ops zfp block
  have hmax : (blockCode ops zfp block).length ≤ zfp.maxbits := by
    apply length_blockCode_le ops zfp
    · intro hlossy
      rwa [hlossy] at hside
    · intro hrev
      exact (revSideBits_le ops zfp hrev block).trans hside
  rw [blockMaxbits]
  omega

end

end Zfp

import Zfp.CoderRoundTrip
import Zfp.RevPrecision

/-!
# What a block coder writes

Each block coder appends a list of bits that depends on the block and the parameters only,
and returns its length. A decoder that reads this list stops at its end.
-/

namespace Zfp
open BitLists Bitstream

variable {T : WordType} {S : Scalar} {d : ℕ}

/-- A code padded with zeros to at least `minbits` bits. -/
def padded (minbits : ℕ) (l : List Bool) : List Bool :=
  l ++ List.replicate (minbits - l.length) false

theorem length_padded (minbits : ℕ) (l : List Bool) :
    (padded minbits l).length = max l.length minbits := by
  rw [padded, List.length_append, List.length_replicate]
  omega

def fwdWords (S : Scalar) (d : ℕ) (iblock : ℕ → BitVec S.width) : ℕ → BitVec S.width :=
  fwdOrder (NBMASK S) iblock (perm d) (4 ^ d)

def intBlockCode (S : Scalar) (d minbits maxbits maxprec : ℕ) (iblock : ℕ → BitVec S.width) :
    List Bool :=
  padded minbits ((intsCode (fwdWords S d (fwdXform halfWord d iblock)) maxprec (4 ^ d)).take maxbits)

def revPrec (S : Scalar) (d maxprec : ℕ) (iblock : ℕ → BitVec S.width) : ℕ :=
  max (min (revPrecision (fwdWords S d (revFwdXform d iblock)) (4 ^ d)) maxprec) 1

def revIntBlockCode (S : Scalar) (d minbits maxbits maxprec : ℕ) (iblock : ℕ → BitVec S.width) :
    List Bool :=
  let prec := revPrec S d maxprec iblock
  padded minbits (lowBits (BitVec.ofNat 64 (prec - 1)) (PBITS S) ++
    (intsCode (fwdWords S d (revFwdXform d iblock)) prec (4 ^ d)).take (uintSub maxbits (PBITS S)))

section

variable (ops : FloatOps S (4 ^ d)) (zfp : Params)

/-- The biased exponent that the lossy coder stores; zero stands for a block of zeros. -/
def storedExponent (fblock : ℕ → BitVec S.width) : ℕ :=
  let emax := ops.exponentBlock (blockOf _ fblock)
  if precision emax zfp.maxprec zfp.minexp d ≠ 0 then (emax + EBIAS S).toNat else 0

def floatBlockCode (fblock : ℕ → BitVec S.width) : List Bool :=
  let emax := ops.exponentBlock (blockOf _ fblock)
  let e := storedExponent ops zfp fblock
  let bits := 1 + EBITS S
  if e ≠ 0 then
    lowBits (BitVec.ofNat 64 (2 * e + 1)) bits ++
      intBlockCode S d (zfp.minbits - min bits zfp.minbits) (uintSub zfp.maxbits bits)
        (precision emax zfp.maxprec zfp.minexp d)
        (putBlock (fun _ => 0) (ops.fwdCast (blockOf _ fblock) emax))
  else padded zfp.minbits [false]

/-- Whether the reversible coder takes the block for a block of zeros. -/
def isZeroBlock (fblock : ℕ → BitVec S.width) : Bool :=
  ops.exponentBlock (blockOf _ fblock) = -EBIAS S ∧ blockOf (4 ^ d) fblock = fun _ => 0

def revFloatBlockCode (fblock : ℕ → BitVec S.width) : List Bool :=
  let emax := ops.exponentBlock (blockOf _ fblock)
  let iblock := revFwdCast ops (blockOf _ fblock) emax
  let rest := fun bits iblock => revIntBlockCode S d (zfp.minbits - min bits zfp.minbits)
    (uintSub zfp.maxbits bits) zfp.maxprec iblock
  if revFwdReversible ops iblock (blockOf _ fblock) emax then
    let e := (emax + EBIAS S).toNat
    if e ≠ 0 then
      lowBits (1 : BitVec 64) 2 ++ lowBits (BitVec.ofNat 64 e) (EBITS S) ++
        rest (2 + EBITS S) (putBlock (fun _ => 0) iblock)
    else [false]
  else lowBits (3 : BitVec 64) 2 ++ rest 2 fun i => revReinterpret S (fblock i)

def blockCode (block : ℕ → BitVec S.width) : List Bool :=
  if S.isFloat then
    if REVERSIBLE zfp then revFloatBlockCode ops zfp block else floatBlockCode ops zfp block
  else
    if REVERSIBLE zfp then revIntBlockCode S d zfp.minbits zfp.maxbits zfp.maxprec block
    else intBlockCode S d zfp.minbits zfp.maxbits zfp.maxprec block

end

/-! ## Encoders -/

theorem uintSub_eq {a b : ℕ} (ha : a < 2 ^ 32) (h : b ≤ a) : uintSub a b = a - b := by
  rw [uintSub, show a + 2 ^ 32 - b = a - b + 2 ^ 32 by omega, Nat.add_mod_right,
    Nat.mod_eq_of_lt (by omega)]

theorem block_size_le {d : ℕ} (hd : d ≤ 4) : 0 < 4 ^ d ∧ 4 ^ d ≤ 2 ^ 24 :=
  ⟨Nat.pow_pos (by decide), (Nat.pow_le_pow_right (by decide) hd).trans (by decide)⟩

theorem PBITS_le (S : Scalar) : PBITS S ≤ 64 := by cases S <;> decide

theorem EBITS_lt (S : Scalar) : 2 + EBITS S ≤ 64 := by cases S <;> decide

theorem writeMinbits_eq {s : Bitstream T} (hs : s.WF) (minbits : ℕ) (l : List Bool) :
    writeMinbits minbits (l.length, s.append l) =
      ((padded minbits l).length, s.append (padded minbits l)) := by
  rw [writeMinbits, length_padded]
  split
  · next h =>
    simp only at h ⊢
    rw [streamPad_eq (hs.append l), padded, append_append, Nat.max_eq_right h.le]
  · next h =>
    simp only at h ⊢
    rw [padded, show minbits - l.length = 0 by omega, List.replicate_zero, List.append_nil,
      Nat.max_eq_left (by omega)]

theorem encodeIntBlock_eq {s : Bitstream T} (hs : s.WF) (hd : d ≤ 4) (minbits maxbits : ℕ)
    {maxprec : ℕ} (hprec : maxprec ≤ 64) (iblock : ℕ → BitVec S.width) :
    encodeIntBlock S d s minbits maxbits maxprec iblock =
      ((intBlockCode S d minbits maxbits maxprec iblock).length,
        s.append (intBlockCode S d minbits maxbits maxprec iblock)) := by
  obtain ⟨hpos, hle⟩ := block_size_le hd
  have hints := encodeInts_eq hs maxbits (fwdWords S d (fwdXform halfWord d iblock)) hpos hle hprec
  rw [← List.length_take] at hints
  rw [intBlockCode, ← writeMinbits_eq hs, ← hints]
  rfl

theorem Scalar.width_le (S : Scalar) : S.width ≤ 64 := by cases S <;> decide

theorem Scalar.width_pos (S : Scalar) : 0 < S.width := by cases S <;> decide

theorem revPrec_bounds (S : Scalar) (d maxprec : ℕ) (iblock : ℕ → BitVec S.width) :
    0 < revPrec S d maxprec iblock ∧ revPrec S d maxprec iblock ≤ S.width := by
  have h := (revPrecision_spec S (fwdWords S d (revFwdXform d iblock)) (4 ^ d)).1
  have hw : 32 ≤ S.width := by cases S <;> decide
  rw [revPrec]
  omega

theorem revEncodeIntBlock_eq {s : Bitstream T} (hs : s.WF) (hd : d ≤ 4)
    (minbits maxbits maxprec : ℕ) (iblock : ℕ → BitVec S.width) :
    revEncodeIntBlock S d s minbits maxbits maxprec iblock =
      ((revIntBlockCode S d minbits maxbits maxprec iblock).length,
        s.append (revIntBlockCode S d minbits maxbits maxprec iblock)) := by
  obtain ⟨hpos, hle⟩ := block_size_le hd
  have hprec := (revPrec_bounds S d maxprec iblock).2.trans S.width_le
  have hwrite := streamWriteBits_eq hs (BitVec.ofNat 64 (revPrec S d maxprec iblock - 1))
    (PBITS_le S)
  have hints := encodeInts_eq (hs.append (lowBits (BitVec.ofNat 64
    (revPrec S d maxprec iblock - 1)) (PBITS S))) (uintSub maxbits (PBITS S))
    (fwdWords S d (revFwdXform d iblock)) hpos hle hprec
  rw [revIntBlockCode, ← writeMinbits_eq hs, List.length_append, length_lowBits, List.length_take,
    append_append]
  rw [revPrec] at hwrite hints ⊢
  rw [fwdWords] at hwrite hints ⊢
  rw [revEncodeIntBlock, hwrite]
  dsimp only
  rw [hints]

section

variable (ops : FloatOps S (4 ^ d)) (zfp : Params)

theorem precision_le (maxexp : ℤ) (maxprec : ℕ) (minexp : ℤ) (dims : ℕ) :
    precision maxexp maxprec minexp dims ≤ maxprec := Nat.min_le_left _ _

theorem encodeFloatBlock_eq {s : Bitstream T} (hs : s.WF) (hd : d ≤ 4)
    (fblock : ℕ → BitVec S.width) :
    encodeFloatBlock ops zfp s fblock =
      ((floatBlockCode ops zfp fblock).length, s.append (floatBlockCode ops zfp fblock)) := by
  have hbits : 1 + EBITS S ≤ 64 := by have := EBITS_lt S; omega
  have hprec := (precision_le (ops.exponentBlock (blockOf _ fblock)) zfp.maxprec zfp.minexp
    d).trans zfp.maxprec_le
  rw [encodeFloatBlock, floatBlockCode, storedExponent]
  dsimp only
  generalize hemax : ops.exponentBlock (blockOf _ fblock) = emax at hprec ⊢
  generalize hmax : precision emax zfp.maxprec zfp.minexp d = maxprec at hprec ⊢
  generalize he : (if maxprec ≠ 0 then (emax + EBIAS S).toNat else 0) = e
  by_cases h0 : e ≠ 0
  · rw [if_pos h0, if_pos h0, streamWriteBits_eq hs _ hbits, encodeIntBlock_eq (hs.append _)
      hd _ _ hprec,
      append_append, List.length_append, length_lowBits]
  · rw [if_neg h0, if_neg h0]
    exact writeMinbits_eq hs zfp.minbits [false]

theorem revEncodeFloatBlock_eq {s : Bitstream T} (hs : s.WF) (hd : d ≤ 4)
    (fblock : ℕ → BitVec S.width) :
    revEncodeFloatBlock ops zfp s fblock =
      ((revFloatBlockCode ops zfp fblock).length, s.append (revFloatBlockCode ops zfp fblock)) := by
  have hbits : EBITS S ≤ 64 := by have := EBITS_lt S; omega
  rw [revEncodeFloatBlock, revFloatBlockCode]
  dsimp only
  generalize ops.exponentBlock (blockOf _ fblock) = emax
  by_cases hrev : revFwdReversible ops (revFwdCast ops (blockOf _ fblock) emax) (blockOf _ fblock)
    emax
  · rw [if_pos hrev, if_pos hrev]
    by_cases he : (emax + EBIAS S).toNat ≠ 0
    · rw [if_pos he, if_pos he, streamWriteBits_eq hs _ (show 2 ≤ 64 by decide),
        streamWriteBits_eq (hs.append _) _ hbits, revEncodeIntBlock_eq ((hs.append _).append _) hd,
        append_append, append_append, List.length_append, List.length_append, length_lowBits,
        length_lowBits]
    · rw [if_neg he, if_neg he]
      rfl
  · rw [if_neg hrev, if_neg hrev, streamWriteBits_eq hs _ (show 2 ≤ 64 by decide),
      revEncodeIntBlock_eq (hs.append _) hd, append_append, List.length_append, length_lowBits]

/-- Every block coder appends the code of its block and returns the length of the code. -/
theorem zfpEncodeBlock_eq {s : Bitstream T} (hs : s.WF) (hd : d ≤ 4)
    (block : ℕ → BitVec S.width) :
    zfpEncodeBlock ops zfp s block =
      ((blockCode ops zfp block).length, s.append (blockCode ops zfp block)) := by
  rw [zfpEncodeBlock, blockCode]
  split
  · split
    · exact revEncodeFloatBlock_eq ops zfp hs hd block
    · exact encodeFloatBlock_eq ops zfp hs hd block
  · split
    · exact revEncodeIntBlock_eq hs hd _ _ _ block
    · exact encodeIntBlock_eq hs hd _ _ zfp.maxprec_le block

end

end Zfp

import Zfp.EncodeRefinement
import Zfp.Interleaving
import Zfp.PlacedBits
import Zfp.SeekFrame
import Zfp.BlockLockstep

/-!
# The CUDA encoder

Every block has a thread with a writer of its own, which adds words atomically to the common
stream. A writer never reads the stream, so its additions are those of a list. They place the bits
of the block at the offset of the block, and the bits are those of the serial encoder. Shifts by
the width of a word give zero, as on the device; offsets are `uint`.
-/

namespace Zfp.Cuda
open BitLists Bitstream Interleaving Lines PlaneCode

/-! ## `BlockWriter` -/

structure BlockWriter where
  wordIndex : ℕ
  startBit : ℕ
  currentBit : ℕ
  /-- the atomic additions, as pairs of an index and a word -/
  adds : List (ℕ × BitVec 64)

namespace BlockWriter

def make (maxbits blockIdx : ℕ) : BlockWriter where
  wordIndex := blockIdx * maxbits % 2 ^ 64 / 64 % 2 ^ 32
  startBit := blockIdx * maxbits % 2 ^ 64 % 64
  currentBit := 0
  adds := []

def writeBits (s : BlockWriter) (bits : BitVec 64) (nBits : ℕ) : BitVec 64 × BlockWriter :=
  let segStart := (s.startBit + s.currentBit) % 2 ^ 32 % 64
  let writeIndex := (s.wordIndex + (s.startBit + s.currentBit) % 2 ^ 32 / 64) % 2 ^ 32
  let segEnd := (segStart + nBits + (2 ^ 32 - 1)) % 2 ^ 32
  let shift := segStart
  -- make sure that anything after `nBits` is zero
  let left := bits >>> nBits <<< nBits
  let b := bits - left
  let add := b <<< shift
  -- `nBits` straddles the word boundary
  let straddle := segStart < 64 ∧ 64 ≤ segEnd
  let rem := if straddle then [((writeIndex + 1) % 2 ^ 32, b >>> (64 - shift))] else []
  (bits >>> nBits, { s with
    currentBit := (s.currentBit + nBits) % 2 ^ 32
    adds := s.adds ++ (writeIndex, add) :: rem })

def writeBit (s : BlockWriter) (bit : Bool) : BlockWriter :=
  let segStart := (s.startBit + s.currentBit) % 2 ^ 32 % 64
  let writeIndex := (s.wordIndex + (s.startBit + s.currentBit) % 2 ^ 32 / 64) % 2 ^ 32
  let shift := segStart
  let add := (BitVec.ofBool bit).setWidth 64 <<< shift
  { s with
    currentBit := (s.currentBit + 1) % 2 ^ 32
    adds := s.adds ++ [(writeIndex, add)] }

end BlockWriter

/-! ## `encode_block` -/

def encodeScan (size : ℕ) (s : BlockWriter) (bits : ℕ) (x : BitVec 64) (n : ℕ) :
    BlockWriter × ℕ × BitVec 64 × ℕ :=
  if n < size - 1 ∧ bits ≠ 0 then
    let s := s.writeBit (x.getLsbD 0)
    if !x.getLsbD 0 then encodeScan size s (bits - 1) (x >>> 1) (n + 1)
    else (s, bits - 1, x, n)
  else (s, bits, x, n)
termination_by bits

theorem encodeScan_bits (size : ℕ) (s : BlockWriter) (bits : ℕ) (x : BitVec 64) (n : ℕ) :
    (encodeScan size s bits x n).2.1 ≤ bits := by
  fun_induction encodeScan with
  | case1 => omega
  | case2 => simp
  | case3 => simp

/-- step 3: unary run-length encode remainder of bit plane -/
def encodeGroups (size : ℕ) (s : BlockWriter) (bits : ℕ) (x : BitVec 64) (n : ℕ) :
    BlockWriter × ℕ × ℕ :=
  if n < size ∧ bits ≠ 0 then
    let s' := s.writeBit (x != 0)
    if x != 0 then
      let r := encodeScan size s' (bits - 1) x n
      encodeGroups size r.1 r.2.1 (r.2.2.1 >>> 1) (r.2.2.2 + 1)
    else (s', bits - 1, n)
  else (s, bits, n)
termination_by bits
decreasing_by
  have := encodeScan_bits size (s.writeBit (x != 0)) (bits - 1) x n
  omega

def encodePlanes {w : ℕ} (ublock : ℕ → BitVec w) (size kmin : ℕ) :
    ℕ → BlockWriter → ℕ → ℕ → BlockWriter
  | 0, s, _, _ => s
  | k + 1, s, bits, n =>
    if bits ≠ 0 ∧ kmin ≤ k then
      let m := min n bits
      let r := s.writeBits (extractPlane ublock k size) m
      let g := encodeGroups size r.2 (bits - m) r.1 n
      encodePlanes ublock size kmin k g.1 g.2.1 g.2.2
    else s

/-- The order of the coefficients, as the device has it. -/
def getPerm : ℕ → List ℕ
  | 1 => [0, 1, 2, 3]
  | 2 => [
    index2 0 0, index2 1 0, index2 0 1, index2 1 1, index2 2 0, index2 0 2, index2 2 1, index2 1 2,
    index2 3 0, index2 0 3, index2 2 2, index2 3 1, index2 1 3, index2 3 2, index2 2 3, index2 3 3]
  | 3 => [
    index3 0 0 0, index3 1 0 0, index3 0 1 0, index3 0 0 1, index3 0 1 1, index3 1 0 1,
    index3 1 1 0, index3 2 0 0, index3 0 2 0, index3 0 0 2, index3 1 1 1, index3 2 1 0,
    index3 2 0 1, index3 0 2 1, index3 1 2 0, index3 1 0 2, index3 0 1 2, index3 3 0 0,
    index3 0 3 0, index3 0 0 3, index3 2 1 1, index3 1 2 1, index3 1 1 2, index3 0 2 2,
    index3 2 0 2, index3 2 2 0, index3 3 1 0, index3 3 0 1, index3 0 3 1, index3 1 3 0,
    index3 1 0 3, index3 0 1 3, index3 1 2 2, index3 2 1 2, index3 2 2 1, index3 3 1 1,
    index3 1 3 1, index3 1 1 3, index3 3 2 0, index3 3 0 2, index3 0 3 2, index3 2 3 0,
    index3 2 0 3, index3 0 2 3, index3 2 2 2, index3 3 2 1, index3 3 1 2, index3 1 3 2,
    index3 2 3 1, index3 2 1 3, index3 1 2 3, index3 0 3 3, index3 3 0 3, index3 3 3 0,
    index3 3 2 2, index3 2 3 2, index3 2 2 3, index3 1 3 3, index3 3 1 3, index3 3 3 1,
    index3 2 3 3, index3 3 2 3, index3 3 3 2, index3 3 3 3]
  | _ => []

theorem getPerm_eq {d : ℕ} (hd : 1 ≤ d) (hd' : d ≤ 3) : getPerm d = perm d := by
  obtain rfl | rfl | rfl : d = 1 ∨ d = 2 ∨ d = 3 := by omega
  · decide
  · decide
  · decide

/-- `fwd_xform` of the structures `transform<4>`, `transform<16>` and `transform<64>` -/
def transform {w : ℕ} : ℕ → (ℕ → BitVec w) → ℕ → BitVec w
  | 1, p => onLine (fwdLift halfWord) 1 p 0
  | 2, p =>
    let p := (List.range 4).foldl (fun p y => onLine (fwdLift halfWord) 1 p (4 * y)) p
    (List.range 4).foldl (fun p x => onLine (fwdLift halfWord) 4 p (1 * x)) p
  | 3, p =>
    let p := lineLoops (fwdLift halfWord) 1 (fun z y => 4 * y + 16 * z) p
    let p := lineLoops (fwdLift halfWord) 4 (fun x z => 16 * z + 1 * x) p
    lineLoops (fwdLift halfWord) 16 (fun y x => 1 * x + 4 * y) p
  | _, p => p

theorem transform_eq {w d : ℕ} (hd : 1 ≤ d) (hd' : d ≤ 3) (p : ℕ → BitVec w) :
    transform d p = fwdXform halfWord d p := by
  obtain rfl | rfl | rfl : d = 1 ∨ d = 2 ∨ d = 3 := by omega
  · rfl
  · rfl
  · simp only [transform, lineLoops_eq_pass]
    rfl

def encodeBlock (S : Scalar) (d : ℕ) (s : BlockWriter) (maxbits maxprec : ℕ)
    (iblock : ℕ → BitVec S.width) : BlockWriter :=
  -- perform decorrelating transform
  let iblock := transform d iblock
  -- reorder signed coefficients and convert to unsigned integer
  let ublock := fwdOrder (NBMASK S) iblock (getPerm d) (4 ^ d)
  -- encode integer coefficients
  let intprec := S.width
  let kmin := if intprec > maxprec then intprec - maxprec else 0
  encodePlanes ublock (4 ^ d) kmin intprec s maxbits 0

def precision (maxexp : ℤ) (maxprec : ℕ) (minexp : ℤ) : ℕ := min maxprec (maxexp - minexp + 8).toNat

def getMinExp : Scalar → ℤ
  | .double => -1074 | .float => -1074 | _ => 0

def zfpEncodeBlock {S : Scalar} {d : ℕ} (ops : FloatOps S (4 ^ d)) (maxbits blockIdx : ℕ)
    (block : ℕ → BitVec S.width) : BlockWriter :=
  let blockWriter := BlockWriter.make maxbits blockIdx
  if S.isFloat then
    let emax := ops.exponentBlock (blockOf _ block)
    let maxprec := precision emax S.width (getMinExp S)
    let e := if maxprec ≠ 0 then (emax + EBIAS S).toNat else 0
    if e ≠ 0 then
      let ebits := EBITS S + 1
      let r := blockWriter.writeBits (BitVec.ofNat 64 (2 * e + 1)) ebits
      let iblock := putBlock (fun _ => 0) (ops.fwdCast (blockOf _ block) emax)
      encodeBlock S d r.2 (uintSub maxbits ebits) maxprec iblock
    else blockWriter
  else encodeBlock S d blockWriter maxbits S.width block

/-! ## What a writer adds -/

def BlockWriter.pos (s : BlockWriter) : ℕ := s.wordIndex * 64 + s.startBit + s.currentBit

/-- `s'` is the writer `s` after additions that place the bits `l` at its offset, as long as
offsets fit their types. -/
def Emits (s : BlockWriter) (l : List Bool) (s' : BlockWriter) : Prop :=
  s.pos + l.length ≤ 2 ^ 38 → s.startBit + s.currentBit + l.length < 2 ^ 32 →
    s'.wordIndex = s.wordIndex ∧ s'.startBit = s.startBit ∧
      s'.currentBit = s.currentBit + l.length ∧
      ∃ adds, s'.adds = s.adds ++ adds ∧ ∀ j, total adds j = placed 64 s.pos l j

theorem Emits.refl (s : BlockWriter) : Emits s [] s := fun _ _ =>
  ⟨rfl, rfl, rfl, [], (List.append_nil _).symm, fun _ => (placed_nil _ _).symm⟩

theorem Emits.trans {a b c : BlockWriter} {l l' : List Bool} (h : Emits a l b)
    (h' : Emits b l' c) : Emits a (l ++ l') c := by
  intro hpos hcur
  rw [List.length_append] at hpos hcur
  obtain ⟨hw, hs, hc, adds, hadds, htotal⟩ := h (by omega) (by omega)
  have hb : b.pos = a.pos + l.length := by
    rw [BlockWriter.pos, BlockWriter.pos, hw, hs, hc, Nat.add_assoc _ a.currentBit]
  obtain ⟨hw', hs', hc', adds', hadds', htotal'⟩ := h' (by omega) (by omega)
  refine ⟨hw'.trans hw, hs'.trans hs, ?_, adds ++ adds', ?_, fun j => ?_⟩
  · rw [hc', hc, List.length_append, Nat.add_assoc]
  · rw [hadds', hadds, List.append_assoc]
  · rw [total_append, htotal, htotal', hb, placed_append]

theorem getLsbD_sub_high (v : BitVec 64) (n i : ℕ) :
    (v - v >>> n <<< n).getLsbD i = (decide (i < n) && v.getLsbD i) := by
  have hlt := v.isLt
  have hdiv := Nat.div_add_mod v.toNat (2 ^ n)
  have hle : v.toNat / 2 ^ n * 2 ^ n ≤ v.toNat := Nat.div_mul_le_self _ _
  have hval : (v - v >>> n <<< n).toNat = v.toNat % 2 ^ n := by
    rw [BitVec.toNat_sub, BitVec.toNat_shiftLeft, BitVec.toNat_ushiftRight, Nat.shiftRight_eq_div_pow,
      Nat.shiftLeft_eq, Nat.mod_eq_of_lt (hle.trans_lt hlt)]
    rw [Nat.mul_comm] at hdiv
    omega
  rw [← BitVec.testBit_toNat, hval, Nat.testBit_mod_two_pow, BitVec.testBit_toNat]

/-- Where the next bits go. -/
theorem writeIndex_eq {s : BlockWriter} {n : ℕ} (hn : 0 < n) (hpos : s.pos + n ≤ 2 ^ 38)
    (hcur : s.startBit + s.currentBit + n < 2 ^ 32) :
    (s.wordIndex + (s.startBit + s.currentBit) % 2 ^ 32 / 64) % 2 ^ 32 = s.pos / 64 ∧
      (s.startBit + s.currentBit) % 2 ^ 32 % 64 = s.pos % 64 := by
  rw [BlockWriter.pos] at hpos ⊢
  omega

theorem writeBits_emits (s : BlockWriter) (bits : BitVec 64) {n : ℕ} (hn : n ≤ 64) :
    Emits s (lowBits bits n) (s.writeBits bits n).2 := by
  intro hpos hcur
  rw [length_lowBits] at hpos hcur ⊢
  refine ⟨rfl, rfl, Nat.mod_eq_of_lt (by omega), _, rfl, fun j => ?_⟩
  rcases Nat.eq_zero_or_pos n with rfl | hn0
  · -- no bits: zero is added, perhaps to two words
    have hzero : bits - bits >>> 0 <<< 0 = 0#64 := by
      rw [BitVec.ushiftRight_zero, BitVec.shiftLeft_zero, BitVec.sub_self]
    rw [hzero, BitVec.zero_shiftLeft, BitVec.zero_ushiftRight, lowBits_zero, placed_nil]
    split_ifs <;> simp
  · obtain ⟨hindex, hstart⟩ := writeIndex_eq hn0 hpos hcur
    have hv := getLsbD_sub_high bits n
    have hlow : lowBits bits n = lowBits (bits - bits >>> n <<< n) n :=
      lowBits_congr fun i hi => by rw [hv, decide_eq_true hi, Bool.true_and]
    have hsplit : s.pos = s.pos / 64 * 64 + s.pos % 64 := (Nat.div_add_mod' _ _).symm
    have hplaced := placed_lowBits (v := bits - bits >>> n <<< n) hn (Nat.mod_lt s.pos (by decide))
      (fun i hi => by rw [hv, decide_eq_false (by omega), Bool.false_and]) (s.pos / 64) j
    rw [← hsplit, ← hlow] at hplaced
    rw [hplaced, hindex, hstart, total_cons]
    congr 1
    by_cases hstraddle : 64 < s.pos % 64 + n
    · rw [if_pos ⟨by omega, by omega⟩, total_cons, total_nil, Nat.mod_eq_of_lt (by omega), add_zero]
    · rw [if_neg (by omega), total_nil]
      split_ifs
      · refine (eq_zero_iff_getLsbD.mpr fun i _ => ?_).symm
        rw [BitVec.getLsbD_ushiftRight, hv, decide_eq_false (by omega), Bool.false_and]
      · rfl

theorem writeBit_emits (s : BlockWriter) (bit : Bool) : Emits s [bit] (s.writeBit bit) := by
  intro hpos hcur
  rw [List.length_singleton] at hpos hcur ⊢
  refine ⟨rfl, rfl, Nat.mod_eq_of_lt (by omega), _, rfl, fun j => ?_⟩
  obtain ⟨hindex, hstart⟩ := writeIndex_eq Nat.one_pos hpos hcur
  have hv : ∀ i, ((BitVec.ofBool bit).setWidth 64).getLsbD i = (decide (i = 0) && bit) := by
    intro i
    have h := getLsbD_ofBool_shiftLeft (w := 64) bit (show 0 < 64 by decide) i
    rwa [BitVec.shiftLeft_zero] at h
  have hlow : [bit] = lowBits ((BitVec.ofBool bit).setWidth 64) 1 := by
    rw [lowBits_succ, lowBits_zero, hv]
    rfl
  have hsplit : s.pos = s.pos / 64 * 64 + s.pos % 64 := (Nat.div_add_mod' _ _).symm
  have hplaced := placed_lowBits (v := (BitVec.ofBool bit).setWidth 64) (show 1 ≤ 64 by decide)
    (Nat.mod_lt s.pos (by decide))
    (fun i hi => by rw [hv, decide_eq_false (by omega), Bool.false_and]) (s.pos / 64) j
  rw [← hsplit, ← hlow] at hplaced
  have hlt := Nat.mod_lt s.pos (show 0 < 64 by decide)
  have hnext : (BitVec.ofBool bit).setWidth 64 >>> (64 - s.pos % 64) = 0 := by
    refine eq_zero_iff_getLsbD.mpr fun i _ => ?_
    rw [BitVec.getLsbD_ushiftRight, hv, decide_eq_false (by omega), Bool.false_and]
  rw [hplaced, hnext, ite_self, hindex, hstart, total_cons, total_nil]

/-! ## Lockstep with the serial encoder -/

section

variable {T : WordType}

/-- The device and the serial encoder have written the same bits. -/
def Lockstep (s : BlockWriter) (t : Bitstream T) (s' : BlockWriter) (t' : Bitstream T) : Prop :=
  ∃ l, Emits s l s' ∧ t' = t.append l

theorem Lockstep.refl (s : BlockWriter) (t : Bitstream T) : Lockstep s t s t := ⟨[], .refl s, rfl⟩

theorem Lockstep.trans {a b c : BlockWriter} {t u v : Bitstream T} (h : Lockstep a t b u)
    (h' : Lockstep b u c v) : Lockstep a t c v := by
  obtain ⟨l, hl, rfl⟩ := h
  obtain ⟨l', hl', rfl⟩ := h'
  exact ⟨l ++ l', hl.trans hl', (append_append t l l').symm⟩

theorem Lockstep.wf {s s' : BlockWriter} {t t' : Bitstream T} (h : Lockstep s t s' t') (ht : t.WF) :
    t'.WF := by
  obtain ⟨l, -, rfl⟩ := h
  exact ht.append l

theorem Lockstep.bit (s : BlockWriter) (t : Bitstream T) (b : Bool) :
    Lockstep s t (s.writeBit b) (streamWriteBit t b) := ⟨[b], writeBit_emits s b, rfl⟩

theorem encodeScan_lockstep (size : ℕ) (s : BlockWriter) (t : Bitstream T) (bits : ℕ)
    (x : BitVec 64) (n : ℕ) :
    (encodeScan size s bits x n).2 = (encodeFewScan size t bits x n).2 ∧
      Lockstep s t (encodeScan size s bits x n).1 (encodeFewScan size t bits x n).1 := by
  fun_induction encodeScan generalizing t with
  | case1 s bits x n h s' hx ih =>
    obtain ⟨hr, hl⟩ := ih (streamWriteBit t (x.getLsbD 0))
    rw [encodeFewScan, if_pos (And.symm h), if_neg (by simpa using hx)]
    exact ⟨hr, (Lockstep.bit s t _).trans hl⟩
  | case2 s bits x n h s' hx =>
    rw [encodeFewScan, if_pos (And.symm h), if_pos (by simpa using hx)]
    exact ⟨rfl, Lockstep.bit s t _⟩
  | case3 s bits x n h =>
    rw [encodeFewScan, if_neg fun hn => h hn.symm]
    exact ⟨rfl, .refl s t⟩

theorem encodeGroups_lockstep (size : ℕ) (s : BlockWriter) (t : Bitstream T) (bits : ℕ)
    (x : BitVec 64) (n : ℕ) :
    (encodeGroups size s bits x n).2 = (encodeFewGroups size t bits x n).2 ∧
      Lockstep s t (encodeGroups size s bits x n).1 (encodeFewGroups size t bits x n).1 := by
  fun_induction encodeGroups generalizing t with
  | case1 s bits x n h s' hx r ih =>
    obtain ⟨hr, hl⟩ := encodeScan_lockstep size s' (streamWriteBit t (x != 0)) (bits - 1) x n
    obtain ⟨hr', hl'⟩ := ih (encodeFewScan size (streamWriteBit t (x != 0)) (bits - 1) x n).1
    rw [encodeFewGroups, if_pos (And.symm h), if_pos hx]
    dsimp only
    rw [← hr]
    exact ⟨hr', ((Lockstep.bit s t _).trans hl).trans hl'⟩
  | case2 s bits x n h s' hx =>
    rw [encodeFewGroups, if_pos (And.symm h), if_neg hx]
    exact ⟨rfl, Lockstep.bit s t _⟩
  | case3 s bits x n h =>
    rw [encodeFewGroups, if_neg fun hn => h hn.symm]
    exact ⟨rfl, .refl s t⟩

theorem encodePlanes_lockstep {w : ℕ} (ublock : ℕ → BitVec w) {size : ℕ} (hsize : size ≤ 64)
    (kmin k : ℕ) (s : BlockWriter) {t : Bitstream T} (ht : t.WF) (bits : ℕ) {n : ℕ} (hn : n ≤ size) :
    Lockstep s t (encodePlanes ublock size kmin k s bits n)
      (encodeFewPlanes ublock size kmin k t bits n).1 := by
  induction k generalizing s t bits n with
  | zero => exact .refl s t
  | succ k ih =>
    rw [encodePlanes, encodeFewPlanes]
    by_cases h : bits ≠ 0 ∧ kmin ≤ k
    · rw [if_pos h, if_pos h]
      have hm : min n bits ≤ 64 := by omega
      have hbits : Lockstep s t (s.writeBits (extractPlane ublock k size) (min n bits)).2
          (streamWriteBits t (extractPlane ublock k size) (min n bits)).2 :=
        ⟨_, writeBits_emits s _ hm, by rw [streamWriteBits_eq ht _ hm]⟩
      have hx : (streamWriteBits t (extractPlane ublock k size) (min n bits)).1 =
          (s.writeBits (extractPlane ublock k size) (min n bits)).1 := by
        rw [streamWriteBits_eq ht _ hm]
        rfl
      dsimp only
      generalize s.writeBits (extractPlane ublock k size) (min n bits) = r at hbits hx ⊢
      generalize streamWriteBits t (extractPlane ublock k size) (min n bits) = q at hbits hx ⊢
      obtain ⟨hr, hgroups⟩ := encodeGroups_lockstep size r.2 q.2 (bits - min n bits) r.1 n
      have hindex := encodeFewGroups_index q.2 (bits - min n bits) r.1 hn
      rw [← hr] at hindex
      rw [hx, ← hr]
      have hplane := hbits.trans hgroups
      exact hplane.trans (ih _ (hplane.wf ht) _ hindex)
    · rw [if_neg h, if_neg h]
      exact .refl s t

end

/-! ## The bits of a block -/

theorem append_inj {T : WordType} {t : Bitstream T} (ht : t.WF) {l l' : List Bool}
    (h : t.append l = t.append l') : l = l' := by
  have hcontents := congrArg Bitstream.contents h
  rw [Bitstream.contents_append ht, Bitstream.contents_append ht] at hcontents
  exact List.append_cancel_left hcontents

variable {S : Scalar} {d : ℕ}

/-- The code of the integer coefficients within a budget. -/
def intCode (S : Scalar) (d maxbits maxprec : ℕ) (iblock : ℕ → BitVec S.width) : List Bool :=
  (intsCode (fwdWords S d (fwdXform halfWord d iblock)) maxprec (4 ^ d)).take maxbits

theorem encodeBlock_emits (hd : 1 ≤ d) (hd' : d ≤ 3) (s : BlockWriter) (maxbits maxprec : ℕ)
    (iblock : ℕ → BitVec S.width) :
    Emits s (intCode S d maxbits maxprec iblock) (encodeBlock S d s maxbits maxprec iblock) := by
  have hsize : 4 ^ d ≤ 64 := Nat.pow_le_pow_right (n := 4) (by decide) hd'
  have hkmin : (if S.width > maxprec then S.width - maxprec else 0) = S.width - maxprec := by
    split_ifs <;> omega
  have ht := streamOpen_wf (T := .uint64) fun _ => 0
  obtain ⟨l, hl, heq⟩ := encodePlanes_lockstep (fwdWords S d (fwdXform halfWord d iblock)) hsize
    (S.width - maxprec) S.width s ht maxbits (Nat.zero_le _)
  have hserial := congrArg Prod.snd (encodeFewInts_eq ht maxbits maxprec
    (fwdWords S d (fwdXform halfWord d iblock)) hsize)
  have hcode : l = intCode S d maxbits maxprec iblock := append_inj ht (heq.symm.trans hserial)
  rw [encodeBlock, hkmin, transform_eq hd hd', getPerm_eq hd hd', ← hcode]
  exact hl

section

variable (ops : FloatOps S (4 ^ d)) (maxbits : ℕ) (block : ℕ → BitVec S.width)

/-- The biased exponent that the device stores; zero stands for a block of zeros. -/
def storedExponent : ℕ :=
  let emax := ops.exponentBlock (blockOf _ block)
  if precision emax S.width (getMinExp S) ≠ 0 then (emax + EBIAS S).toNat else 0

/-- The bits that the device writes for a block; the rest of its `maxbits` bits stays zero. -/
def blockCode : List Bool :=
  if S.isFloat then
    let emax := ops.exponentBlock (blockOf _ block)
    let e := storedExponent ops block
    if e ≠ 0 then
      lowBits (BitVec.ofNat 64 (2 * e + 1)) (EBITS S + 1) ++
        intCode S d (uintSub maxbits (EBITS S + 1)) (precision emax S.width (getMinExp S))
          (putBlock (fun _ => 0) (ops.fwdCast (blockOf _ block) emax))
    else []
  else intCode S d maxbits S.width block

theorem zfpEncodeBlock_emits (hd : 1 ≤ d) (hd' : d ≤ 3) (blockIdx : ℕ) :
    Emits (.make maxbits blockIdx) (blockCode ops maxbits block)
      (zfpEncodeBlock ops maxbits blockIdx block) := by
  rw [zfpEncodeBlock, blockCode]
  split
  · have hbits : EBITS S + 1 ≤ 64 := by have := EBITS_lt S; omega
    dsimp only
    rw [← storedExponent]
    split
    · exact (writeBits_emits _ _ hbits).trans (encodeBlock_emits hd hd' _ _ _ _)
    · exact .refl _
  · exact encodeBlock_emits hd hd' _ _ _ _

theorem length_intCode_le (maxprec : ℕ) (iblock : ℕ → BitVec S.width) :
    (intCode S d maxbits maxprec iblock).length ≤ maxbits := by
  rw [intCode, List.length_take]
  exact Nat.min_le_left _ _

theorem length_blockCode_le (hside : sideBits S false ≤ maxbits) (hmax : maxbits < 2 ^ 32) :
    (blockCode ops maxbits block).length ≤ maxbits := by
  rw [blockCode]
  split
  · next hS =>
    have hbits : EBITS S + 1 ≤ maxbits := by
      simpa [sideBits, hS, Nat.add_comm] using hside
    dsimp only
    split
    · rw [List.length_append, length_lowBits, uintSub_eq hmax hbits]
      have := length_intCode_le (d := d) (maxbits - (EBITS S + 1))
        (precision (ops.exponentBlock (blockOf _ block)) S.width (getMinExp S))
        (putBlock (fun _ => 0) (ops.fwdCast (blockOf _ block) (ops.exponentBlock (blockOf _ block))))
      omega
    · exact Nat.zero_le _
  · exact length_intCode_le maxbits _ _

/-- A block's additions place its bits at the offset of the block. -/
theorem total_zfpEncodeBlock (hd : 1 ≤ d) (hd' : d ≤ 3) (hside : sideBits S false ≤ maxbits)
    (hmax : 0 < maxbits) (hint : maxbits < 2 ^ 31) {blockIdx : ℕ}
    (hfit : (blockIdx + 1) * maxbits ≤ 2 ^ 38) (j : ℕ) :
    total (zfpEncodeBlock ops maxbits blockIdx block).adds j =
      placed 64 (blockIdx * maxbits) (blockCode ops maxbits block) j := by
  have hlen := length_blockCode_le ops maxbits block hside (by omega)
  rw [Nat.add_mul, Nat.one_mul] at hfit
  have hpos : (BlockWriter.make maxbits blockIdx).pos = blockIdx * maxbits := by
    rw [BlockWriter.pos, BlockWriter.make]
    dsimp only
    omega
  have hstart : (BlockWriter.make maxbits blockIdx).startBit < 64 := Nat.mod_lt _ (by decide)
  have hcurrent : (BlockWriter.make maxbits blockIdx).currentBit = 0 := rfl
  obtain ⟨-, -, -, adds, hadds, htotal⟩ := zfpEncodeBlock_emits ops maxbits block hd hd' blockIdx
    (by omega) (by omega)
  rw [hadds, ← hpos, ← htotal j]
  rfl

end

end Zfp.Cuda

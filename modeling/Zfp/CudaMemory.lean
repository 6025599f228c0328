import Mathlib.Tactic.NormNum.GCD
import Mathlib.Tactic.Ring
import Zfp.Parallel
import Zfp.SeekFrame

/-!
# Device memory of a CUDA stream

The launcher clears, copies and measures the stream by a byte count computed from the padded sizes
of the field. Three routines compute it, in a mixture of 32-bit and 64-bit arithmetic.
-/

namespace Zfp.CudaMemory
open Bitstream

/-- Division that counts the last, partial unit. -/
def divUp (n unit : BitVec 64) : BitVec 64 :=
  let q := n / unit
  if n % unit ≠ 0 then q + 1 else q

def bitsPerWord : BitVec 64 := 8 * 8

def calcDeviceMem1d (dim maxbits : BitVec 32) : BitVec 64 :=
  let valsPerBlock : BitVec 64 := 4
  let totalBlocks := divUp (dim.signExtend 64) valsPerBlock
  let totalBits := maxbits.signExtend 64 * totalBlocks
  divUp totalBits bitsPerWord * 8

def calcDeviceMem2d (x y maxbits : BitVec 32) : BitVec 64 :=
  let valsPerBlock : BitVec 64 := 16
  let totalBlocks := divUp ((x * y).setWidth 64) valsPerBlock
  let totalBits := maxbits.signExtend 64 * totalBlocks
  divUp totalBits bitsPerWord * 8

/-- The only routine that does not round up. -/
def calcDeviceMem3d (x y z bitsPerBlock : BitVec 32) : BitVec 64 :=
  let valsPerBlock : BitVec 64 := 64
  let size := (x * y * z).setWidth 64
  let totalBlocks := size / valsPerBlock
  let totalBits := bitsPerBlock.signExtend 64 * totalBlocks
  let allocSize := totalBits / bitsPerWord
  allocSize * 8

/-- The bytes of the words that hold a number of bits. -/
def wordBytes (bits : ℕ) : ℕ := (bits + 63) / 64 * 8

theorem toNat_divUp {n unit : BitVec 64} (hunit : 1 < unit.toNat) :
    (divUp n unit).toNat = (n.toNat + unit.toNat - 1) / unit.toNat := by
  have hpos : 0 < unit.toNat := by omega
  have hn := n.isLt
  have hone : (1 : BitVec 64).toNat = 1 := rfl
  have hdiv := Nat.div_add_mod n.toNat unit.toNat
  have hlt := Nat.mod_lt n.toNat hpos
  have hzero : n % unit = 0 ↔ n.toNat % unit.toNat = 0 := by
    rw [← BitVec.toNat_inj, BitVec.toNat_umod]
    rfl
  rw [divUp]
  split_ifs with hmod
  · have hq : n.toNat / unit.toNat + 1 < 2 ^ 64 := by
      have hhalf : n.toNat / unit.toNat ≤ n.toNat / 2 := Nat.div_le_div_left hunit (by decide)
      omega
    have hmod' : 0 < n.toNat % unit.toNat := Nat.pos_of_ne_zero fun h => hmod (hzero.mpr h)
    rw [BitVec.toNat_add, BitVec.toNat_udiv, hone, Nat.mod_eq_of_lt hq]
    refine (Nat.div_eq_of_lt_le ?_ ?_).symm
    · rw [Nat.add_mul, Nat.mul_comm]
      omega
    · rw [Nat.add_mul, Nat.add_mul, Nat.mul_comm]
      omega
  · have hmod' : n.toNat % unit.toNat = 0 := hzero.mp (not_not.mp hmod)
    rw [BitVec.toNat_udiv]
    refine (Nat.div_eq_of_lt_le ?_ ?_).symm
    · rw [Nat.mul_comm]
      omega
    · rw [Nat.add_mul, Nat.mul_comm]
      omega

theorem toNat_words {n : BitVec 64} :
    (divUp n bitsPerWord * 8).toNat = wordBytes n.toNat % 2 ^ 64 := by
  rw [BitVec.toNat_mul, toNat_divUp (by decide)]
  rfl

/-! ## Sizes in natural numbers -/

theorem toNat_signExtend_of_lt {v : BitVec 32} (hv : v.toNat < 2 ^ 31) :
    (v.signExtend 64).toNat = v.toNat := by
  have hmsb : v.msb = false := BitVec.msb_eq_false_iff_two_mul_lt.mpr (by omega)
  rw [BitVec.toNat_signExtend, hmsb, BitVec.toNat_setWidth]
  simp only [Bool.false_eq_true, if_false, Nat.add_zero]
  omega

theorem toNat_signExtend_of_ge {v : BitVec 32} (hv : 2 ^ 31 ≤ v.toNat) :
    (v.signExtend 64).toNat = v.toNat + (2 ^ 64 - 2 ^ 32) := by
  have hmsb : v.msb = true := BitVec.msb_eq_true_iff_two_mul_ge.mpr (by omega)
  rw [BitVec.toNat_signExtend, hmsb, BitVec.toNat_setWidth]
  simp only [if_true]
  omega

theorem wordBytes_lt {n : ℕ} (hn : n < 2 ^ 63) : wordBytes n < 2 ^ 64 := by
  rw [wordBytes]
  omega

theorem mul_lt {m b : ℕ} (hm : m < 2 ^ 31) (hb : b < 2 ^ 32) : m * b < 2 ^ 63 :=
  (Nat.mul_lt_mul'' hm hb).trans_eq (by norm_num)

/-- The number of blocks of padded sizes is a quotient of the number of values. -/
theorem blocks_two {x y : ℕ} (hx : 4 ∣ x) (hy : 4 ∣ y) : x * y = x / 4 * (y / 4) * 16 := by
  obtain ⟨a, rfl⟩ := hx
  obtain ⟨b, rfl⟩ := hy
  rw [Nat.mul_div_cancel_left a (by decide), Nat.mul_div_cancel_left b (by decide)]
  ring

theorem blocks_three {x y z : ℕ} (hx : 4 ∣ x) (hy : 4 ∣ y) (hz : 4 ∣ z) :
    x * y * z = x / 4 * (y / 4) * (z / 4) * 64 := by
  obtain ⟨c, rfl⟩ := hz
  rw [blocks_two hx hy, Nat.mul_div_cancel_left c (by decide)]
  ring

variable {m : BitVec 32}

/-- Below the sign bit the size of a 1D field is exact. -/
theorem toNat_calcDeviceMem1d {x : BitVec 32} (hx : 4 ∣ x.toNat) (hm : m.toNat < 2 ^ 31)
    (h : x.toNat < 2 ^ 31) :
    (calcDeviceMem1d x m).toNat = wordBytes (m.toNat * (x.toNat / 4)) := by
  have hfour : (4 : BitVec 64).toNat = 4 := rfl
  have hblocks : (divUp (x.signExtend 64) 4).toNat = x.toNat / 4 := by
    rw [toNat_divUp (by decide), toNat_signExtend_of_lt h, hfour]
    omega
  have hlt : m.toNat * (x.toNat / 4) < 2 ^ 63 := mul_lt hm (by omega)
  rw [calcDeviceMem1d, toNat_words, BitVec.toNat_mul, hblocks, toNat_signExtend_of_lt hm,
    Nat.mod_eq_of_lt (hlt.trans (by decide)), Nat.mod_eq_of_lt (wordBytes_lt hlt)]

/-- Negative sizes add blocks whose bits are a multiple of `2 ^ 30`, but not one of `2 ^ 64`. -/
theorem wordBytes_negative_ne {m n : ℕ} (hm : m < 2 ^ 31) (hpos : 0 < m) :
    wordBytes ((n + m * 4611686017353646080) % 2 ^ 64) % 2 ^ 64 ≠ wordBytes n := by
  have hcoprime : Nat.Coprime 17179869184 4294967295 := by norm_num
  have hr : 0 < m * 4294967295 % 17179869184 := by
    refine Nat.pos_of_ne_zero fun hzero => ?_
    have hdvd := hcoprime.dvd_of_dvd_mul_right (Nat.dvd_of_mod_eq_zero hzero)
    exact absurd (Nat.le_of_dvd hpos hdvd) (Nat.not_le.mpr (hm.trans (by decide)))
  have hdiv := Nat.div_add_mod (m * 4294967295) 17179869184
  have hlt := Nat.mod_lt (m * 4294967295) (show 0 < 17179869184 by decide)
  generalize m * 4294967295 % 17179869184 = r at hr hdiv hlt
  generalize m * 4294967295 / 17179869184 = k at hdiv
  have hsum : n + m * 4611686017353646080 = n + 1073741824 * r + 2 ^ 64 * k := by omega
  rw [hsum, Nat.add_mul_mod_self_left, wordBytes, wordBytes]
  omega

/-- From the sign bit on it is the size of another number of blocks. -/
theorem calcDeviceMem1d_negative {x : BitVec 32} (hx : 4 ∣ x.toNat) (hm : m.toNat < 2 ^ 31)
    (hpos : 0 < m.toNat) (h : 2 ^ 31 ≤ x.toNat) :
    (calcDeviceMem1d x m).toNat ≠ wordBytes (m.toNat * (x.toNat / 4)) := by
  have hfour : (4 : BitVec 64).toNat = 4 := rfl
  have hblocks : (divUp (x.signExtend 64) 4).toNat = x.toNat / 4 + 4611686017353646080 := by
    rw [toNat_divUp (by decide), toNat_signExtend_of_ge h, hfour]
    omega
  rw [calcDeviceMem1d, toNat_words, BitVec.toNat_mul, hblocks, toNat_signExtend_of_lt hm,
    Nat.mul_add]
  exact wordBytes_negative_ne hm hpos

theorem toNat_calcDeviceMem2d {x y : BitVec 32} (hx : 4 ∣ x.toNat) (hy : 4 ∣ y.toNat)
    (hm : m.toNat < 2 ^ 31) :
    (calcDeviceMem2d x y m).toNat = wordBytes (m.toNat * (x.toNat * y.toNat % 2 ^ 32 / 16)) := by
  have hdvd : 16 ∣ x.toNat * y.toNat := ⟨_, (blocks_two hx hy).trans (Nat.mul_comm _ _)⟩
  have hsixteen : (16 : BitVec 64).toNat = 16 := rfl
  have hblocks : (divUp ((x * y).setWidth 64) 16).toNat = x.toNat * y.toNat % 2 ^ 32 / 16 := by
    rw [toNat_divUp (by decide), BitVec.toNat_setWidth, BitVec.toNat_mul, hsixteen]
    omega
  have hlt : m.toNat * (x.toNat * y.toNat % 2 ^ 32 / 16) < 2 ^ 63 := mul_lt hm (by omega)
  rw [calcDeviceMem2d, toNat_words, BitVec.toNat_mul, hblocks, toNat_signExtend_of_lt hm,
    Nat.mod_eq_of_lt (hlt.trans (by decide)), Nat.mod_eq_of_lt (wordBytes_lt hlt)]

theorem toNat_calcDeviceMem3d (x y z : BitVec 32) (hm : m.toNat < 2 ^ 31) :
    (calcDeviceMem3d x y z m).toNat =
      m.toNat * (x.toNat * y.toNat * z.toNat % 2 ^ 32 / 64) / 64 * 8 := by
  have hunit : (64 : BitVec 64).toNat = 64 := rfl
  have hword : bitsPerWord.toNat = 64 := rfl
  have hbyte : (8 : BitVec 64).toNat = 8 := rfl
  have hsize : ((x * y * z).setWidth 64).toNat = x.toNat * y.toNat * z.toNat % 2 ^ 32 := by
    rw [BitVec.toNat_setWidth, BitVec.toNat_mul, BitVec.toNat_mul, Nat.mod_mul_mod]
    exact Nat.mod_eq_of_lt ((Nat.mod_lt _ (by decide)).trans (by decide))
  have hlt : m.toNat * (x.toNat * y.toNat * z.toNat % 2 ^ 32 / 64) < 2 ^ 63 := mul_lt hm (by omega)
  rw [calcDeviceMem3d, BitVec.toNat_mul, BitVec.toNat_udiv, BitVec.toNat_mul, BitVec.toNat_udiv,
    hsize, toNat_signExtend_of_lt hm, hword, hunit, hbyte]
  omega

/-- Blocks of no bits take no memory. -/
theorem calc_device_mem_zero (x y z : BitVec 32) :
    calcDeviceMem1d x 0 = 0 ∧ calcDeviceMem2d x y 0 = 0 ∧ calcDeviceMem3d x y z 0 = 0 := by
  have hext : (0 : BitVec 32).signExtend 64 = 0 := by decide
  have hzero : ∀ n : BitVec 64, 0 * n = 0 := fun n => BitVec.zero_mul
  refine ⟨?_, ?_, ?_⟩
  · rw [calcDeviceMem1d, hext, hzero]
    decide
  · rw [calcDeviceMem2d, hext, hzero]
    decide
  · rw [calcDeviceMem3d, hext, hzero]
    decide

/-! ## Serial compression -/

section

variable {S : Scalar} {d : ℕ} (ops : FloatOps S (4 ^ d)) (zfp : Params)
  (block : ℕ → ℕ → BitVec S.width)

/-- The size that serial compression of a number of blocks to a new stream reports. -/
def serialBytes (mem : ℕ → BitVec (wsize .uint64)) (blocks : ℕ) : ℕ :=
  streamSize (streamFlush (compressBlocks ops zfp block (streamOpen mem) 0 blocks)).2

/-- A byte count is enough for the blocks and is the size that serial compression reports. -/
def Covers (bytes : BitVec 64) (blocks : ℕ) : Prop :=
  blocks * zfp.maxbits ≤ 8 * bytes.toNat ∧ ∀ mem, bytes.toNat = serialBytes ops zfp block mem blocks

variable {zfp}

theorem serialBytes_eq (hd : d ≤ 4) (hrate : zfp.minbits = zfp.maxbits)
    (hlossy : REVERSIBLE zfp = false) (hside : sideBits S false ≤ zfp.maxbits)
    (mem : ℕ → BitVec (wsize .uint64)) (blocks : ℕ) :
    serialBytes ops zfp block mem blocks = wordBytes (blocks * zfp.maxbits) := by
  have hwf := streamOpen_wf mem
  have hlen : (codes ops zfp block 0 blocks).length = blocks * zfp.maxbits := by
    refine length_codes_of_full ops zfp block fun b _ => ?_
    refine length_blockCode_of_fixed ops zfp hrate (hlossy ▸ hside) ?_
    rintro ⟨-, hrev, -⟩
    rw [hlossy] at hrev
    cases hrev
  rw [serialBytes, compressBlocks_eq ops zfp block hwf hd, streamFlush_append (hwf.append _),
    ← append_append, streamWtell_append hwf, streamWtell_open, Nat.zero_add, hlen]
  have hwf' := hwf.append (codes ops zfp block 0 blocks ++
    List.replicate (flushCount .uint64 (blocks * zfp.maxbits)) false)
  have htell := streamWtell_append hwf (codes ops zfp block 0 blocks ++
    List.replicate (flushCount .uint64 (blocks * zfp.maxbits)) false)
  rw [streamWtell_open, Nat.zero_add, List.length_append, hlen, List.length_replicate,
    add_flushCount] at htell
  have hptr := hwf'.wtell_div
  rw [htell, wordEnd, Nat.mul_div_cancel _ (wsize_pos _)] at hptr
  rw [streamSize, ← hptr]
  rfl

theorem covers_iff (hd : d ≤ 4) (hrate : zfp.minbits = zfp.maxbits)
    (hlossy : REVERSIBLE zfp = false) (hside : sideBits S false ≤ zfp.maxbits)
    (bytes : BitVec 64) (blocks : ℕ) :
    Covers ops zfp block bytes blocks ↔ bytes.toNat = wordBytes (blocks * zfp.maxbits) := by
  constructor
  · rintro ⟨-, h⟩
    rw [h fun _ => 0, serialBytes_eq ops block hd hrate hlossy hside]
  · intro h
    refine ⟨?_, fun mem => ?_⟩
    · rw [h, wordBytes]
      omega
    · rw [h, serialBytes_eq ops block hd hrate hlossy hside]

end

theorem wordBytes_ne {n k : ℕ} (h : k + 64 ≤ n) : wordBytes k ≠ wordBytes n := by
  rw [wordBytes, wordBytes]
  omega

/-- A product of 32 bits that wraps loses so many blocks that a word is missing. -/
theorem wrapped_add_le {m p u : ℕ} (hm : 0 < m) (hp : 2 ^ 32 ≤ p) (hu : 64 * u ≤ 2 ^ 32)
    (hdvd : u ∣ 2 ^ 32) (hpos : 0 < u) :
    m * (p % 2 ^ 32 / u) + 64 ≤ m * (p / u) := by
  obtain ⟨k, hk⟩ := hdvd
  have hk64 : 64 ≤ k := by
    refine Nat.le_of_mul_le_mul_left ?_ hpos
    rw [← hk, Nat.mul_comm]
    exact hu
  have hle : p % 2 ^ 32 + u * k ≤ p := by omega
  have hdiv := Nat.div_le_div_right (c := u) hle
  rw [Nat.add_mul_div_left _ _ hpos] at hdiv
  calc m * (p % 2 ^ 32 / u) + 64 ≤ m * (p % 2 ^ 32 / u) + m * 64 :=
        Nat.add_le_add_left (Nat.le_mul_of_pos_left 64 hm) _
    _ = m * (p % 2 ^ 32 / u + 64) := (Nat.mul_add _ _ _).symm
    _ ≤ m * (p / u) := Nat.mul_le_mul_left m (by omega)

section

variable {S : Scalar} {zfp : Params}

/-- For padded sizes the byte count of a 1D field is right below the sign bit of its `int`
argument, the one of a 2D field as long as the number of values does not wrap, and the one of a 3D
field only if the blocks also fill whole words. -/
theorem calc_device_mem_iff (ops : ∀ d, FloatOps S (4 ^ d)) (block : ℕ → ℕ → BitVec S.width)
    (hrate : zfp.minbits = zfp.maxbits) (hlossy : REVERSIBLE zfp = false)
    (hside : sideBits S false ≤ zfp.maxbits) (hint : zfp.maxbits < 2 ^ 31) (x y z : BitVec 32)
    (hx : 4 ∣ x.toNat) (hy : 4 ∣ y.toNat) (hz : 4 ∣ z.toNat) :
    let m := BitVec.ofNat 32 zfp.maxbits
    let bx := x.toNat / 4
    let bxy := x.toNat / 4 * (y.toNat / 4)
    let bxyz := x.toNat / 4 * (y.toNat / 4) * (z.toNat / 4)
    (Covers (ops 1) zfp block (calcDeviceMem1d x m) bx ↔ zfp.maxbits = 0 ∨ x.toNat < 2 ^ 31) ∧
    (bxy < 2 ^ 32 → (Covers (ops 2) zfp block (calcDeviceMem2d x y m) bxy ↔
      zfp.maxbits = 0 ∨ x.toNat * y.toNat < 2 ^ 32)) ∧
    (bxyz < 2 ^ 32 → (Covers (ops 3) zfp block (calcDeviceMem3d x y z m) bxyz ↔
      zfp.maxbits = 0 ∨ x.toNat * y.toNat * z.toNat < 2 ^ 32 ∧ 64 ∣ bxyz * zfp.maxbits)) := by
  intro m bx bxy bxyz
  have hm : m.toNat = zfp.maxbits := by
    show zfp.maxbits % 2 ^ 32 = zfp.maxbits
    exact Nat.mod_eq_of_lt zfp.maxbits_lt
  have hm31 : m.toNat < 2 ^ 31 := hm ▸ hint
  rw [← hm]
  have covers {d : ℕ} (hd : d ≤ 4) (bytes : BitVec 64) (blocks : ℕ) :
      Covers (ops d) zfp block bytes blocks ↔ bytes.toNat = wordBytes (m.toNat * blocks) := by
    rw [covers_iff (ops d) block hd hrate hlossy hside, hm, Nat.mul_comm]
  rw [covers (by decide), covers (by decide), covers (by decide)]
  rcases Nat.eq_zero_or_pos m.toNat with hzero | hpos
  · have hm0 : m = 0 := BitVec.eq_of_toNat_eq hzero
    obtain ⟨h1, h2, h3⟩ := calc_device_mem_zero x y z
    rw [hzero, Nat.zero_mul, Nat.zero_mul, Nat.zero_mul, hm0, h1, h2, h3]
    exact ⟨iff_of_true rfl (.inl rfl), fun _ => iff_of_true rfl (.inl rfl),
      fun _ => iff_of_true rfl (.inl rfl)⟩
  refine ⟨?_, fun _ => ?_, fun _ => ?_⟩
  · rcases Nat.lt_or_ge x.toNat (2 ^ 31) with h | h
    · exact iff_of_true (toNat_calcDeviceMem1d hx hm31 h) (.inr h)
    · exact iff_of_false (calcDeviceMem1d_negative hx hm31 hpos h) (by omega)
  · have hblocks : bxy = x.toNat * y.toNat / 16 := by
      rw [blocks_two hx hy, Nat.mul_div_cancel _ (by decide)]
    rw [toNat_calcDeviceMem2d hx hy hm31, hblocks]
    rcases Nat.lt_or_ge (x.toNat * y.toNat) (2 ^ 32) with h | h
    · rw [Nat.mod_eq_of_lt h]
      exact iff_of_true rfl (.inr h)
    · exact iff_of_false (wordBytes_ne (wrapped_add_le hpos h (by decide) (by decide) (by decide)))
        (by omega)
  · have hblocks : bxyz = x.toNat * y.toNat * z.toNat / 64 := by
      rw [blocks_three hx hy hz, Nat.mul_div_cancel _ (by decide)]
    rw [toNat_calcDeviceMem3d x y z hm31, Nat.mul_comm bxyz, hblocks]
    rcases Nat.lt_or_ge (x.toNat * y.toNat * z.toNat) (2 ^ 32) with h | h
    · rw [Nat.mod_eq_of_lt h, wordBytes]
      omega
    · have hlost := wrapped_add_le hpos h (u := 64) (by decide) (by decide) (by decide)
      refine iff_of_false ?_ (by omega)
      rw [wordBytes]
      omega

def intOps (d : ℕ) : FloatOps .int32 (4 ^ d) where
  exponentBlock _ := 0
  fwdCast b _ := b
  invCast b _ := b
  exponentBlock_mem _ := by decide

/-- One 3D block of 32 bits takes a word, but the byte count is zero. -/
theorem calc_device_mem_truncated :
    let zfp : Params := ⟨32, 32, 64, -1074, by decide, by decide, by decide, by decide⟩
    (calcDeviceMem3d 4 4 4 32).toNat = 0 ∧
      ¬ Covers (intOps 3) zfp (fun _ _ => 1) (calcDeviceMem3d 4 4 4 32) 1 := by
  refine ⟨by decide, ?_⟩
  rintro ⟨hbits, -⟩
  exact absurd hbits (by decide)

/-- Two such blocks fill the word. -/
theorem calc_device_mem_pair :
    let zfp : Params := ⟨32, 32, 64, -1074, by decide, by decide, by decide, by decide⟩
    Covers (intOps 3) zfp (fun _ _ => 1) (calcDeviceMem3d 8 4 4 32) 2 := by
  intro zfp
  have hrate : zfp.minbits = zfp.maxbits := rfl
  have h := calc_device_mem_iff intOps (fun _ _ => 1) hrate (by decide) (by decide) (by decide)
    8 4 4 (by decide) (by decide) (by decide)
  exact (h.2.2 (by decide)).mpr (.inr ⟨by decide, by decide⟩)

end

end Zfp.CudaMemory

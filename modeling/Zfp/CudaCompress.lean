import Zfp.BlockParams
import Zfp.Chunks
import Zfp.CudaDecode
import Zfp.FixedRate
import Zfp.FloatCasts

/-!
# Compression on the device

The threads of all blocks add their words to a stream of zeros. In every order of the additions the
stream ends up with the bits that serial compression at a fixed rate writes, as long as each block
has the bits of the serial encoder. Blocks of integers always do. For blocks of floating-point
numbers the two encoders compute the number of bit planes by different formulas, which agree but for
the smallest exponents of double precision in one and two dimensions.
-/

namespace Zfp.Cuda
open BitLists Bitstream Interleaving PlaneCode WordReader

variable {S : Scalar} {d : ℕ}

structure DeviceRate (S : Scalar) (zfp : Params) : Prop where
  rate : zfp.minbits = zfp.maxbits
  prec : zfp.maxprec = ZFP_MAX_PREC
  exp : zfp.minexp = ZFP_MIN_EXP
  pos : 0 < zfp.maxbits
  int : zfp.maxbits < 2 ^ 31
  side : sideBits S false ≤ zfp.maxbits

/-- Only the budget of bits limits the precision. -/
structure FullPrecision (zfp : Params) : Prop where
  prec : zfp.maxprec = ZFP_MAX_PREC
  exp : zfp.minexp = ZFP_MIN_EXP

theorem DeviceRate.full {zfp : Params} (h : DeviceRate S zfp) : FullPrecision zfp := ⟨h.prec, h.exp⟩

theorem FullPrecision.lossy {zfp : Params} (h : FullPrecision zfp) : REVERSIBLE zfp = false := by
  rw [REVERSIBLE, h.exp]
  decide

def clearStream : Bitstream .uint64 := streamOpen fun _ => 0

section

variable (ops : FloatOps S (4 ^ d)) (zfp : Params) (block : ℕ → ℕ → BitVec S.width)

def launch (blocks : ℕ) : List (List (ℕ × BitVec 64)) :=
  (List.range blocks).map fun b => (zfpEncodeBlock ops zfp.maxbits b (block b)).adds

variable {zfp}

theorem DeviceRate.length (h : DeviceRate S zfp) (block : ℕ → BitVec S.width) :
    (Zfp.blockCode ops zfp block).length = zfp.maxbits := by
  refine length_blockCode_of_fixed ops zfp h.rate ?_ ?_
  · rw [h.full.lossy]
    exact h.side
  · rintro ⟨-, hrev, -⟩
    rw [h.full.lossy] at hrev
    cases hrev

/-- The words of a sequence of blocks are the sums of their words. -/
theorem sum_placed (h : DeviceRate S zfp) (blocks j : ℕ) :
    ((List.range blocks).map fun b =>
        placed 64 (b * zfp.maxbits) (Zfp.blockCode ops zfp (block b)) j).sum =
      placed 64 0 (codes ops zfp block 0 blocks) j := by
  induction blocks with
  | zero => rw [codes_self, placed_nil]; rfl
  | succ n ih =>
    have hlen := length_codes_of_full ops zfp block fun b (_ : b < n) => h.length ops (block b)
    rw [List.range_succ, List.map_append, List.sum_append, ih,
      ← codes_append ops zfp block (Nat.zero_le n) (Nat.le_succ n), placed_append, hlen, Nat.zero_add,
      codes_succ, List.map_singleton, List.sum_singleton]

/-- The stream of zeros after serial compression of a list of bits. -/
theorem mem_flush_clearStream (o : ℕ) (l : List Bool) :
    (streamFlush ((streamWseek clearStream o).append l)).2.mem = placed 64 o l :=
  (appended_flush clearStream o l).mem_eq fun _ => rfl

theorem serial_mem (hd : d ≤ 4) (blocks : ℕ) :
    (streamFlush (compressBlocks ops zfp block clearStream 0 blocks)).2.mem =
      placed 64 0 (codes ops zfp block 0 blocks) := by
  have hcompress := compressBlocks_eq ops zfp block (streamOpen_wf (T := .uint64) fun _ => 0) hd
    0 blocks
  exact (congrArg (fun s => (streamFlush s).2.mem) hcompress).trans (mem_flush_clearStream 0 _)

/-- The device places the bits of the serial encoder. -/
def SameBits (zfp : Params) (block : ℕ → BitVec S.width) : Prop :=
  ∀ o j, placed 64 o (blockCode ops zfp.maxbits block) j =
    placed 64 o (Zfp.blockCode ops zfp block) j

/-- In every order of the additions a launch writes the stream of serial compression. -/
theorem launch_eq (hd : 1 ≤ d) (hd' : d ≤ 3) (h : DeviceRate S zfp) {blocks : ℕ}
    (hfit : blocks * zfp.maxbits ≤ 2 ^ 38) (hsame : ∀ b < blocks, SameBits ops zfp (block b))
    {l : List (ℕ × BitVec 64)} (hl : Schedule (launch ops zfp block blocks) l) :
    l.foldl addWord (fun _ => 0) =
      (streamFlush (compressBlocks ops zfp block clearStream 0 blocks)).2.mem := by
  refine Eq.trans ?_ (serial_mem ops block (by omega : d ≤ 4) blocks).symm
  funext j
  rw [hl.foldl_addWord, zero_add, ← sum_placed ops block h, launch, List.map_map]
  congr 1
  refine List.map_congr_left fun b hb => ?_
  have hb' := List.mem_range.mp hb
  rw [Function.comp_apply, total_zfpEncodeBlock ops zfp.maxbits (block b) hd hd' h.side h.pos h.int
    ((Nat.mul_le_mul_right _ hb').trans hfit) j]
  exact hsame b hb' _ j

/-! ## Integers -/

/-- The padding of a block is zero on the device as well. -/
theorem placed_padded (o minbits : ℕ) (l : List Bool) (j : ℕ) :
    placed 64 o (padded minbits l) j = placed 64 o l j := placed_append_replicate_false o l _ j

theorem sameBits_int (hS : S.isFloat = false) (h : FullPrecision zfp) (block : ℕ → BitVec S.width) :
    SameBits ops zfp block := by
  intro o j
  have hprec : intsCode (fwdWords S d (fwdXform halfWord d block)) S.width (4 ^ d) =
      intsCode (fwdWords S d (fwdXform halfWord d block)) zfp.maxprec (4 ^ d) := by
    have hle := S.width_le
    have hmax : zfp.maxprec = 64 := h.prec
    rw [intsCode, intsCode, hmax, Nat.sub_self, Nat.sub_eq_zero_of_le hle]
  rw [blockCode, Zfp.blockCode, h.lossy, hS]
  simp only [Bool.false_eq_true, if_false]
  rw [intBlockCode, placed_padded, intCode, hprec]

end

/-! ## Floating-point numbers -/

section

variable (ops : FloatOps S (4 ^ d)) (block : ℕ → BitVec S.width)

def intBlock : ℕ → BitVec S.width :=
  putBlock (fun _ => 0) (ops.fwdCast (blockOf _ block) (ops.exponentBlock (blockOf _ block)))

def blockWords : ℕ → BitVec S.width := fwdWords S d (fwdXform halfWord d (intBlock ops block))

def devicePlanes : List Bool :=
  intsCode (blockWords ops block)
    (precision (ops.exponentBlock (blockOf _ block)) S.width (getMinExp S)) (4 ^ d)

def serialPlanes : List Bool :=
  intsCode (blockWords ops block)
    (Zfp.precision (ops.exponentBlock (blockOf _ block)) ZFP_MAX_PREC ZFP_MIN_EXP d) (4 ^ d)

/-- The bit planes that only the device encodes are zero. -/
def ExtraPlanesZero : Prop :=
  let emax := ops.exponentBlock (blockOf _ block)
  ∀ k, S.width - precision emax S.width (getMinExp S) ≤ k →
    k < S.width - Zfp.precision emax ZFP_MAX_PREC ZFP_MIN_EXP d →
    ∀ i < 4 ^ d, plane (blockWords ops block) k i = false

theorem precision_float (hS : S.isFloat = true) (hd' : d ≤ 3) :
    let emax := ops.exponentBlock (blockOf _ block)
    precision emax S.width (getMinExp S) ≠ 0 ∧
      Zfp.precision emax ZFP_MAX_PREC ZFP_MIN_EXP d ≠ 0 ∧
      S.width - precision emax S.width (getMinExp S) ≤
        S.width - Zfp.precision emax ZFP_MAX_PREC ZFP_MIN_EXP d := by
  intro emax
  have hemax := (ops.exponentBlock_mem (blockOf _ block)).1
  have hmin : getMinExp S = -1074 ∧ -1023 ≤ emax ∧ 32 ≤ S.width ∧ S.width ≤ 64 := by
    cases S with
    | int32 => cases hS
    | int64 => cases hS
    | float => exact ⟨rfl, le_trans (by decide) hemax, by decide, by decide⟩
    | double => exact ⟨rfl, hemax, by decide, by decide⟩
  obtain ⟨hmin, hge, hwidth, hwidth'⟩ := hmin
  rw [precision, Zfp.precision, hmin, ZFP_MAX_PREC, ZFP_MIN_EXP]
  omega

variable {zfp : Params}

theorem FullPrecision.storedExponent_eq (h : FullPrecision zfp) (hS : S.isFloat = true) (hd' : d ≤ 3) :
    Zfp.storedExponent ops zfp block = storedExponent ops block := by
  obtain ⟨hdevice, hserial, -⟩ := precision_float ops block hS hd'
  rw [Zfp.storedExponent, storedExponent, h.prec, h.exp, if_pos hdevice, if_pos hserial]

theorem FullPrecision.sameBits_zero (h : FullPrecision zfp) (hS : S.isFloat = true) (hd' : d ≤ 3)
    (hzero : storedExponent ops block = 0) : SameBits ops zfp block := by
  intro o j
  rw [blockCode, Zfp.blockCode, h.lossy, hS]
  simp only [Bool.false_eq_true, if_true, if_false]
  rw [floatBlockCode, h.storedExponent_eq ops block hS hd', hzero, if_neg (by decide),
    if_neg (by decide),
    placed_padded, placed_nil]
  exact (placed_replicate_false o 1 j).symm

/-- The device continues the code of the serial encoder with the extra planes. -/
theorem extra_planes (hS : S.isFloat = true) (hd' : d ≤ 3) :
    ∃ extra : List Bool, devicePlanes ops block = serialPlanes ops block ++ extra ∧
      ((∀ b ∈ extra, b = false) ↔ ExtraPlanesZero ops block) := by
  obtain ⟨-, -, hle⟩ := precision_float ops block hS hd'
  obtain ⟨n, hn, hsplit⟩ := planesCode_split (x := plane (blockWords ops block)) hle
    (Nat.sub_le _ _) (Nat.zero_le (4 ^ d))
  exact ⟨_, hsplit, planesCode_false _ _ hn⟩

theorem blockCode_of_ne_zero (hS : S.isFloat = true) (maxbits : ℕ)
    (hne : storedExponent ops block ≠ 0) : blockCode ops maxbits block =
      lowBits (BitVec.ofNat 64 (2 * storedExponent ops block + 1)) (1 + EBITS S) ++
        (devicePlanes ops block).take (uintSub maxbits (1 + EBITS S)) := by
  rw [blockCode, if_pos hS, if_pos hne, Nat.add_comm (EBITS S)]
  rfl

theorem FullPrecision.serialCode_of_ne_zero (h : FullPrecision zfp) (hS : S.isFloat = true)
    (hd' : d ≤ 3)
    (hne : storedExponent ops block ≠ 0) : Zfp.blockCode ops zfp block =
      lowBits (BitVec.ofNat 64 (2 * storedExponent ops block + 1)) (1 + EBITS S) ++
        padded (zfp.minbits - min (1 + EBITS S) zfp.minbits)
          ((serialPlanes ops block).take (uintSub zfp.maxbits (1 + EBITS S))) := by
  rw [Zfp.blockCode, if_pos hS, h.lossy, if_neg (by decide), floatBlockCode,
    h.storedExponent_eq ops block hS hd', if_pos hne, h.prec, h.exp]
  rfl

/-- The device places the extra planes behind the bits of the serial encoder, as far as the budget
reaches. -/
theorem FullPrecision.placed_blockCode (h : FullPrecision zfp) (hS : S.isFloat = true) (hd' : d ≤ 3)
    (hne : storedExponent ops block ≠ 0) {extra : List Bool}
    (hextra : devicePlanes ops block = serialPlanes ops block ++ extra) (o : ℕ) :
    ∃ o', ∀ j, placed 64 o (blockCode ops zfp.maxbits block) j =
      placed 64 o (Zfp.blockCode ops zfp block) j +
        placed 64 o' (extra.take (uintSub zfp.maxbits (1 + EBITS S) -
          (serialPlanes ops block).length)) j := by
  refine ⟨o + (lowBits (BitVec.ofNat 64 (2 * storedExponent ops block + 1)) (1 + EBITS S) ++
    (serialPlanes ops block).take (uintSub zfp.maxbits (1 + EBITS S))).length, fun j => ?_⟩
  rw [blockCode_of_ne_zero ops block hS _ hne, h.serialCode_of_ne_zero ops block hS hd' hne,
    hextra, List.take_append, ← List.append_assoc, placed_append, padded, ← List.append_assoc,
    placed_append_replicate_false]

/-- No block agrees with the serial one at a high rate if its extra planes are not zero. -/
theorem extra_of_sameBits (hS : S.isFloat = true) (hd' : d ≤ 3)
    (hne : storedExponent ops block ≠ 0) {zfp : Params} (h : DeviceRate S zfp)
    (hmax : ZFP_MAX_BITS ≤ zfp.maxbits) {o : ℕ}
    (hsame : ∀ j, placed 64 o (blockCode ops zfp.maxbits block) j =
      placed 64 o (Zfp.blockCode ops zfp block) j) : ExtraPlanesZero ops block := by
  obtain ⟨extra, hextra, hiff⟩ := extra_planes ops block hS hd'
  obtain ⟨o', hplaced⟩ := h.full.placed_blockCode ops block hS hd' hne hextra o
  have hzero : ∀ j, placed 64 o' (extra.take (uintSub zfp.maxbits (1 + EBITS S) -
      (serialPlanes ops block).length)) j = 0 :=
    fun j => left_eq_add.mp ((hsame j).symm.trans (hplaced j))
  refine hiff.mp ?_
  have htake := (forall_placed_eq_zero (by decide)).mp hzero
  rwa [List.take_of_length_le] at htake
  have hlen := length_intsCode_le (blockWords ops block) S.width_le
    (precision (ops.exponentBlock (blockOf _ block)) S.width (getMinExp S)) (show d ≤ 4 by omega)
  rw [← devicePlanes, hextra, List.length_append] at hlen
  have hbits : 1 + EBITS S ≤ 12 := by cases S <;> decide
  have hge : 16658 ≤ zfp.maxbits := hmax
  rw [uintSub_eq zfp.maxbits_lt (by omega)]
  rw [ZFP_MAX_BITS] at hlen
  omega

theorem sameBits_of_extra (hS : S.isFloat = true) (hd' : d ≤ 3)
    (hzero : storedExponent ops block = 0 ∨ ExtraPlanesZero ops block) {zfp : Params}
    (h : FullPrecision zfp) : SameBits ops zfp block := by
  by_cases hne : storedExponent ops block = 0
  · exact h.sameBits_zero ops block hS hd' hne
  obtain ⟨extra, hextra, hiff⟩ := extra_planes ops block hS hd'
  intro o j
  obtain ⟨o', hplaced⟩ := h.placed_blockCode ops block hS hd' hne hextra o
  have hfalse := hiff.mpr (hzero.resolve_left hne)
  rw [hplaced, (forall_placed_eq_zero (by decide)).mpr
    (fun b hb => hfalse b (List.mem_of_mem_take hb)) j, BitVec.ofNat_eq_ofNat, BitVec.add_zero]

theorem storedExponent_eq_zero (hS : S.isFloat = true) (hd' : d ≤ 3) :
    storedExponent ops block = 0 ↔ ops.exponentBlock (blockOf _ block) = -EBIAS S := by
  have hemax := (ops.exponentBlock_mem (blockOf _ block)).1
  rw [storedExponent, if_pos (precision_float ops block hS hd').1]
  omega

/-- The memory after the additions of one block. -/
theorem foldl_zfpEncodeBlock (hd : 1 ≤ d) (hd' : d ≤ 3) {zfp : Params} (h : DeviceRate S zfp)
    {b : ℕ} (hfit : (b + 1) * zfp.maxbits ≤ 2 ^ 38) :
    (zfpEncodeBlock ops zfp.maxbits b block).adds.foldl addWord (fun _ => 0) =
      placed 64 (b * zfp.maxbits) (blockCode ops zfp.maxbits block) := by
  funext j
  rw [foldl_addWord, zero_add,
    total_zfpEncodeBlock ops zfp.maxbits block hd hd' h.side h.pos h.int hfit j]

theorem encodeAt_clearStream (hd' : d ≤ 3) (zfp : Params) (o : ℕ) :
    (encodeAt ops zfp clearStream o block).2.mem = placed 64 o (Zfp.blockCode ops zfp block) := by
  have hencode := zfpEncodeBlock_eq ops zfp (streamWseek_wf clearStream o) (by omega : d ≤ 4) block
  exact (congrArg (fun r => (streamFlush r.2).2.mem) hencode).trans (mem_flush_clearStream o _)

end

/-! ## Numbers of planes -/

section

variable (ops : FloatOps S (4 ^ d)) (block : ℕ → BitVec S.width)

def devicePrecision : ℕ :=
  if storedExponent ops block = 0 then 0
  else min (precision (ops.exponentBlock (blockOf _ block)) S.width (getMinExp S)) S.width

def serialPrecision (zfp : Params) : ℕ :=
  if Zfp.storedExponent ops zfp block = 0 then 0
  else min (Zfp.precision (ops.exponentBlock (blockOf _ block)) zfp.maxprec zfp.minexp d) S.width

/-- A block is encoded on the device as in serial: to the same bits, from the same number of bit
planes, and as zero in the same cases. -/
structure EncodesAsSerial (zfp : Params) (b : ℕ) : Prop where
  bits : (zfpEncodeBlock ops zfp.maxbits b block).adds.foldl addWord (fun _ => 0) =
    (encodeAt ops zfp clearStream (b * zfp.maxbits) block).2.mem
  planes : devicePrecision ops block = serialPrecision ops block zfp
  zero : storedExponent ops block = 0 ↔ Zfp.storedExponent ops zfp block = 0

variable {zfp : Params}

/-- The numbers of planes differ for double precision in one and two dimensions at the smallest
exponents. -/
theorem FullPrecision.precision_eq_iff (h : FullPrecision zfp) (hS : S.isFloat = true) (hd' : d ≤ 3) :
    devicePrecision ops block = serialPrecision ops block zfp ↔
      let emax := ops.exponentBlock (blockOf _ block)
      emax = -EBIAS S ∨ S = .float ∨ d = 3 ∨ -1012 - 2 * d ≤ emax := by
  have hzero := storedExponent_eq_zero ops block hS hd'
  have hemax := (ops.exponentBlock_mem (blockOf _ block)).1
  dsimp only
  rw [devicePrecision, serialPrecision, h.storedExponent_eq ops block hS hd', h.prec, h.exp, ← hzero]
  generalize ops.exponentBlock (blockOf _ block) = emax at hemax
  split_ifs with hstored
  · simp [hstored]
  · rw [or_iff_right hstored, precision, Zfp.precision, ZFP_MAX_PREC, ZFP_MIN_EXP]
    cases S with
    | int32 => cases hS
    | int64 => cases hS
    | float =>
      have hbias : -127 ≤ emax := hemax
      have hmin : getMinExp .float = -1074 := rfl
      have hwidth : Scalar.float.width = 32 := rfl
      rw [hmin, hwidth]
      exact iff_of_true (by omega) (.inl rfl)
    | double =>
      have hbias : -1023 ≤ emax := hemax
      have hmin : getMinExp .double = -1074 := rfl
      have hwidth : Scalar.double.width = 64 := rfl
      rw [hmin, hwidth, or_iff_right (by decide)]
      omega

/-- There is no extra plane if the numbers of planes agree. -/
theorem FullPrecision.extra_of_precision (h : FullPrecision zfp) (hS : S.isFloat = true) (hd' : d ≤ 3)
    (heq : devicePrecision ops block = serialPrecision ops block zfp) :
    storedExponent ops block = 0 ∨ ExtraPlanesZero ops block := by
  refine (em _).imp id fun hne k hk hk' => ?_
  rw [devicePrecision, serialPrecision, h.storedExponent_eq ops block hS hd', if_neg hne, if_neg hne,
    h.prec, h.exp] at heq
  omega

theorem memory_eq_of_extra (hS : S.isFloat = true) (hd : 1 ≤ d) (hd' : d ≤ 3) (h : DeviceRate S zfp)
    {b : ℕ} (hfit : (b + 1) * zfp.maxbits ≤ 2 ^ 38)
    (hextra : storedExponent ops block = 0 ∨ ExtraPlanesZero ops block) :
    (zfpEncodeBlock ops zfp.maxbits b block).adds.foldl addWord (fun _ => 0) =
      (encodeAt ops zfp clearStream (b * zfp.maxbits) block).2.mem := by
  rw [foldl_zfpEncodeBlock ops block hd hd' h hfit, encodeAt_clearStream ops block hd' zfp]
  funext j
  exact sameBits_of_extra ops block hS hd' hextra h.full _ j

end

/-- A block of floating-point numbers is encoded as in serial if and only if it is zero or its
exponent is not one of the smallest, where the device encodes more planes than the serial encoder.
The bits are the same also there if these planes are zero, and only then at the largest rate. -/
theorem cuda_float_iff (ops : FloatOps S (4 ^ d)) (block : ℕ → BitVec S.width)
    (hS : S.isFloat = true) (hd : 1 ≤ d) (hd' : d ≤ 3) {zfp : Params} (h : DeviceRate S zfp) {b : ℕ}
    (hfit : (b + 1) * zfp.maxbits ≤ 2 ^ 38) :
    let emax := ops.exponentBlock (blockOf _ block)
    let sameBits := (zfpEncodeBlock ops zfp.maxbits b block).adds.foldl addWord (fun _ => 0) =
      (encodeAt ops zfp clearStream (b * zfp.maxbits) block).2.mem
    (EncodesAsSerial ops block zfp b ↔
      emax = -EBIAS S ∨ S = .float ∨ d = 3 ∨ -1012 - 2 * d ≤ emax) ∧
    (emax = -EBIAS S ∨ ExtraPlanesZero ops block → sameBits) ∧
    (ZFP_MAX_BITS ≤ zfp.maxbits → sameBits → emax = -EBIAS S ∨ ExtraPlanesZero ops block) := by
  intro emax sameBits
  have hcount := h.full.precision_eq_iff ops block hS hd'
  rw [← storedExponent_eq_zero ops block hS hd']
  refine ⟨⟨fun hsame => ?_, fun hemax => ?_⟩, memory_eq_of_extra ops block hS hd hd' h hfit,
    fun hmax hsame => ?_⟩
  · rw [storedExponent_eq_zero ops block hS hd']
    exact hcount.mp hsame.planes
  · rw [storedExponent_eq_zero ops block hS hd'] at hemax
    have hplanes := hcount.mpr hemax
    have hextra := h.full.extra_of_precision ops block hS hd' hplanes
    exact ⟨memory_eq_of_extra ops block hS hd hd' h hfit hextra, hplanes,
      by rw [h.full.storedExponent_eq ops block hS hd']⟩
  · refine (em _).imp id fun hne => extra_of_sameBits ops block hS hd' hne h hmax (o := b * zfp.maxbits)
      fun j => ?_
    have hmem := (foldl_zfpEncodeBlock ops block hd hd' h hfit).symm.trans
      (hsame.trans (encodeAt_clearStream ops block hd' zfp _))
    exact congrFun hmem j

theorem deviceRate_rate16 : DeviceRate S rate16 :=
  ⟨rfl, rfl, rfl, by decide, by decide, by cases S <;> decide⟩

/-- Single-precision ones are encoded as in serial. -/
theorem cuda_float_ones : EncodesAsSerial onesOps ones rate16 3 :=
  (cuda_float_iff onesOps ones rfl (by decide) (by decide) deviceRate_rate16 (by decide)).1.mpr
    (.inr (.inl rfl))

def tiny (i : ℕ) : BitVec Scalar.double.width := if i = 0 then 1 else 0

theorem value_one_double : Scalar.value .double 1 = 2 ^ (-1074 : ℤ) := by
  have hmag : Scalar.magnitude .double 1 = 1 := rfl
  have hmsb : (1 : BitVec Scalar.double.width).msb = false := rfl
  rw [Scalar.value, hmag, hmsb, BinaryFormat.value]
  norm_num [MBITS, EBITS, EBIAS, Scalar.width]

theorem exponentBlock_tiny : (ieeeOps .double (4 ^ 1)).exponentBlock (blockOf _ tiny) = -1022 := by
  have hone : Scalar.Finite .double 1 := by decide
  have hpos : 0 < Scalar.value .double 1 := by
    rw [value_one_double]
    exact zpow_pos (by norm_num) _
  have hfirst : Scalar.lt .double 0 1 = true := (lt_zero_iff hone).mpr hpos
  have hrest : ∀ i, ¬ Scalar.lt .double 1 (FABS .double (blockOf (4 ^ 1) tiny i)) = true := by
    intro i
    have hi : FABS .double (blockOf (4 ^ 1) tiny i) = 0 ∨
        FABS .double (blockOf (4 ^ 1) tiny i) = 1 := by
      revert i
      decide
    rw [Scalar.lt, decide_eq_true_iff]
    rcases hi with hi | hi <;> rw [hi]
    · rw [value_zero]
      exact fun h => absurd h.2.2 hpos.not_gt
    · exact fun h => absurd h.2.2 (lt_irrefl _)
  -- the maximum is found in the first position and kept
  have hfold : (List.finRange (4 ^ 1)).foldl (fun max i =>
      if Scalar.lt .double max (FABS .double (blockOf (4 ^ 1) tiny i))
      then FABS .double (blockOf (4 ^ 1) tiny i) else max) 0 = 1 := by
    have hrange : List.finRange (4 ^ 1) = [0, 1, 2, 3] := by decide
    rw [hrange, List.foldl_cons, show FABS .double (blockOf (4 ^ 1) tiny 0) = 1 by decide,
      if_pos hfirst]
    exact List.foldl_fixed' (fun i => if_neg (hrest i)) [1, 2, 3]
  have hmax : exponentBlock .double (blockOf (4 ^ 1) tiny) = exponent .double 1 :=
    congrArg (exponent .double) hfold
  rw [exponentBlock_ieeeOps rfl, hmax, exponent_of_subnormal hone hpos]
  · rfl
  · rw [value_one_double]
    exact zpow_lt_zpow_right₀ (by norm_num) (by decide)

/-- For that block the device encodes 60 planes, the serial encoder 56. -/
theorem cuda_float_tiny :
    let ops := ieeeOps .double (4 ^ 1)
    ops.exponentBlock (blockOf _ tiny) = -1022 ∧ devicePrecision ops tiny = 60 ∧
      serialPrecision ops tiny rate16 = 56 ∧ ¬ EncodesAsSerial ops tiny rate16 0 := by
  intro ops
  have hemax : ops.exponentBlock (blockOf _ tiny) = -1022 := exponentBlock_tiny
  have hrate : DeviceRate .double rate16 := deviceRate_rate16
  have hstored : storedExponent ops tiny = 1 := by
    rw [storedExponent, hemax]
    decide
  have hdevice : devicePrecision ops tiny = 60 := by
    rw [devicePrecision, hstored, hemax]
    decide
  have hserial : serialPrecision ops tiny rate16 = 56 := by
    rw [serialPrecision, hrate.full.storedExponent_eq ops tiny rfl (by decide), hstored, hemax]
    decide
  refine ⟨hemax, hdevice, hserial, fun h => ?_⟩
  have hplanes := h.planes
  rw [hdevice, hserial] at hplanes
  exact absurd hplanes (by decide)

/-- For blocks of integers a launch writes the stream of serial compression, in every order of the
atomic additions, and from any stream a thread decodes the integers of the serial decoder. The
index of a block is an `int` in the reader; launchers count blocks by a quotient of a `uint`. -/
theorem cuda_int_codec (ops : FloatOps S (4 ^ d)) {zfp : Params} (hS : S.isFloat = false)
    (hd : 1 ≤ d) (hd' : d ≤ 3) (h : DeviceRate S zfp) :
    (∀ (block : ℕ → ℕ → BitVec S.width) (blocks : ℕ), blocks * zfp.maxbits ≤ 2 ^ 38 →
      ∀ l, Schedule (launch ops zfp block blocks) l → l.foldl addWord (fun _ => 0) =
        (streamFlush (compressBlocks ops zfp block clearStream 0 blocks)).2.mem) ∧
    ∀ (mem : ℕ → BitVec 64), ∀ b < 2 ^ 31, ∀ ublock iblock out : ℕ → BitVec S.width, ∀ i < 4 ^ d,
      decodeInts mem (4 ^ d) (makeReader mem zfp.maxbits b) zfp.maxbits ublock i =
          (Zfp.decodeInts (serialAt mem (b * zfp.maxbits)) zfp.maxbits zfp.maxprec ublock
            (4 ^ d)).1 i ∧
        zfpDecode S d mem (makeReader mem zfp.maxbits b) zfp.maxbits ublock iblock i =
          (zfpDecodeBlock ops zfp (serialAt mem (b * zfp.maxbits)) out).2.2 i := by
  have hpos : 0 < 4 ^ d := Nat.pow_pos (by decide)
  have hsize : 4 ^ d ≤ 64 := Nat.pow_le_pow_right (n := 4) (by decide) hd'
  refine ⟨fun block blocks hfit l hl => ?_, fun mem b hb ublock iblock out i hi => ?_⟩
  · exact launch_eq ops block hd hd' h hfit (fun b _ => sameBits_int ops hS h.full (block b)) hl
  · rw [makeReader_eq mem h.int hb, zfpDecodeBlock, hS, h.full.lossy, h.prec]
    exact ⟨decodeInts_eq mem S.width_le hpos hsize _ _ ublock ublock i hi,
      zfpDecode_eq mem hd hd' _ zfp.minbits _ ublock iblock out i hi⟩

/-- Two threads of blocks of 48 bits, one after the other, and the reader of the second block. -/
theorem cuda_int_codec_pair :
    let zfp : Params := ⟨48, 48, 64, -1074, by decide, by decide, by decide, by decide⟩
    let block : ℕ → ℕ → BitVec Scalar.int32.width := fun b i => BitVec.ofNat 32 (b + i)
    (launch (CudaMemory.intOps 2) zfp block 2).flatten.foldl addWord (fun _ => 0) =
        (streamFlush (compressBlocks (CudaMemory.intOps 2) zfp block clearStream 0 2)).2.mem ∧
      zfpDecode .int32 2 (fun j => BitVec.ofNat 64 j) (makeReader (fun j => BitVec.ofNat 64 j) 48 1) 48
          (fun _ => 0) (fun _ => 0) 5 =
        (zfpDecodeBlock (CudaMemory.intOps 2) zfp (serialAt (fun j => BitVec.ofNat 64 j) (1 * 48))
          fun _ => 0).2.2 5 := by
  have hrate : DeviceRate .int32
      ⟨48, 48, 64, -1074, by decide, by decide, by decide, by decide⟩ :=
    ⟨rfl, rfl, rfl, by decide, by decide, by decide⟩
  have h := cuda_int_codec (CudaMemory.intOps 2) rfl (by decide) (by decide) hrate
  exact ⟨h.1 _ 2 (by decide) _ (schedule_flatten _),
    (h.2 _ 1 (by decide) (fun _ => 0) (fun _ => 0) (fun _ => 0) 5 (by decide)).2⟩

end Zfp.Cuda

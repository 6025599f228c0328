import Mathlib.Data.Rat.Floor
import Zfp.Archive
import Zfp.StoreRanges

/-!
# Serialization of arrays

The header of a fixed-rate array holds its scalar type, sizes and rate in twelve bytes. An array
that is constructed from the header and the compressed data of another array is a copy of it.
-/

namespace Zfp
open BitLists Bitstream MixedRadix BlockStore

variable {T : WordType} {S : Scalar} {d : ℕ}

/-! ## Headers -/

/-- rate in compressed bits per value -/
def zfpStreamRate (zfp : Params) (dims : ℕ) : ℚ :=
  if zfpStreamCompressionMode zfp = .fixedRate then zfp.maxbits / 4 ^ dims else 0

/-- The bits of a block at a rate, `floor(n * rate + 0.5)`; rates of arrays are multiples of
`1 / n`, for which the sum is exact in double precision. -/
def rateBlockBits (dims : ℕ) (rate : ℚ) : UInt32 :=
  UInt32.ofNat ⌊4 ^ dims * rate + 1 / 2⌋.toNat

/-- The header of an array: scalar type, dimensions, rate, and the bytes that it is stored in. -/
structure ArrayHeader where
  type : Option Scalar
  nx : ℕ
  ny : ℕ
  nz : ℕ
  nw : ℕ
  bitRate : ℚ
  data : List (BitVec 8)

def headerDims (nx ny nz nw : ℕ) : ℕ :=
  if nw ≠ 0 then 4 else if nz ≠ 0 then 3 else if ny ≠ 0 then 2 else if nx ≠ 0 then 1 else 0

namespace ArrayHeader

def size (h : ArrayHeader) : ℕ → ℕ
  | 0 => h.nx | 1 => h.ny | 2 => h.nz | 3 => h.nw | _ => 0

/-- header size measured in bits and in bytes -/
def bitSize : ℕ := ZFP_MAGIC_BITS + ZFP_META_BITS + ZFP_MODE_SHORT_BITS

def byteSize : ℕ := (bitSize + 8 - 1) / 8

/-- The bytes at the start of a buffer of words, in little-endian order. -/
def bytesOf (mem : ℕ → BitVec (wsize T)) : List (BitVec 8) :=
  (List.range byteSize).map fun k => wordOf 8 fun i => memBit mem (8 * k + i)

/-- A buffer of words that starts with the given bytes, zeros behind them. -/
def wordsOf (T : WordType) (data : List (BitVec 8)) (w : ℕ) : BitVec (wsize T) :=
  wordOf (wsize T) fun i => (data.getD ((w * wsize T + i) / 8) 0).getLsbD ((w * wsize T + i) % 8)

/-- serialization: construct header from array; the buffer of the header is not initialised -/
def ofArray (S : Scalar) (garbage : ℕ → BitVec (wsize T)) (nx ny nz nw : ℕ) (rate : ℚ) :
    Except String ArrayHeader :=
  let dims := headerDims nx ny nz nw
  let zfp := zfpStreamSetRate T S (rateBlockBits dims rate) true
  if (zfpStreamMode zfp).toNat > ZFP_MODE_SHORT_MAX then
    .error "zfp serialization supports only short headers"
  else if dims = 0 then .error "zfp serialization supports only 1D, 2D, 3D, and 4D arrays"
  else
    let w := zfpWriteHeader zfp (streamOpen garbage) ⟨some S, nx, ny, nz, nw, 0, 0, 0, 0⟩
      ZFP_HEADER_FULL
    if w.1 ≠ bitSize then .error "zfp header length does not match expected length"
    else .ok ⟨some S, nx, ny, nz, nw, zfp.maxbits / 4 ^ dims, bytesOf (streamFlush w.2).2.mem⟩

/-- deserialization: construct header from memory buffer of optional size -/
def ofData (T : WordType) (data : List (BitVec 8)) (bytes : ℕ) : Except String ArrayHeader :=
  if bytes ≠ 0 ∧ bytes ≠ byteSize then
    .error "zfp header length does not match expectations"
  else
    let r := zfpReadHeader zfpStreamOpen (streamOpen (wordsOf T data))
      ⟨none, 0, 0, 0, 0, 0, 0, 0, 0⟩ ZFP_HEADER_FULL
    let field := r.2.2.2
    if r.1 = 0 then .error "zfp header is corrupt"
    else if r.1 ≠ bitSize then .error "zfp deserialization supports only short headers"
    else if zfpStreamCompressionMode r.2.1 ≠ .fixedRate then
      .error "zfp deserialization supports only fixed-rate mode"
    else .ok ⟨field.type, field.nx, field.ny, field.nz, field.nw,
      r.2.1.maxbits / 4 ^ headerDims field.nx field.ny field.nz field.nw, data⟩

end ArrayHeader

/-! ## Arrays -/

structure CompressedArray (T : WordType) where
  n : ℕ → ℕ
  store : BlockStore T Implicit

namespace CompressedArray

def rate (d : ℕ) (a : CompressedArray T) : ℚ := zfpStreamRate a.store.zfp d

def header (S : Scalar) (d : ℕ) (garbage : ℕ → BitVec (wsize T)) (a : CompressedArray T) :
    Except String ArrayHeader :=
  ArrayHeader.ofArray S garbage (a.n 0) (a.n 1) (a.n 2) (a.n 3) (a.rate d)

/-- constructor, from previously-serialized compressed array -/
def construct (S : Scalar) (d : ℕ) (garbage : Implicit) (h : ArrayHeader)
    (buffer : Option (ℕ → BitVec (wsize T))) (bufferBytes : ℕ) :
    Except String (CompressedArray T) :=
  if h.type ≠ some S then .error "zfp array scalar type does not match header"
  else if headerDims h.nx h.ny h.nz h.nw ≠ d then
    .error "zfp array dimensionality does not match header"
  else
    setConfig S d Index.implicit (create d Index.implicit T garbage h.size)
        (.fixedRate (rateBlockBits d h.bitRate) (0 < h.bitRate)) >>= fun store =>
      match buffer with
      | none => .ok ⟨h.size, store⟩
      | some p =>
        if bufferBytes ≠ 0 ∧ bufferBytes < store.bytes then
          .error "buffer size is smaller than required"
        else .ok ⟨h.size, { store with stream := { store.stream with
          mem := fun w => if w * wsize T < 8 * store.bytes then p w else store.stream.mem w } }⟩

end CompressedArray

/-! ## Rates -/

section

variable {p : Params} (hp : zfpStreamCompressionMode p = .fixedRate)

include hp

theorem fixedRate_fields : p.minbits = p.maxbits ∧ 1 ≤ p.maxbits ∧ p.maxbits ≤ ZFP_MAX_BITS ∧
    p.maxprec = ZFP_MAX_PREC ∧ p.minexp = ZFP_MIN_EXP := by
  have hle := p.maxprec_le
  rw [zfpStreamCompressionMode] at hp
  split_ifs at hp
  next h =>
    rw [ZFP_MAX_PREC] at *
    omega

theorem rateBlockBits_rate (dims : ℕ) :
    (rateBlockBits dims (zfpStreamRate p dims)).toNat = p.maxbits := by
  have hfloor : ⌊4 ^ dims * (p.maxbits / 4 ^ dims : ℚ) + 1 / 2⌋ = p.maxbits := by
    rw [mul_div_cancel₀ _ (by positivity), Int.floor_eq_iff]
    constructor
    · push_cast
      linarith
    · push_cast
      linarith
  rw [rateBlockBits, zfpStreamRate, if_pos hp, hfloor, Int.toNat_natCast]
  exact UInt32.toNat_ofNat_of_lt' p.maxbits_lt

/-- A fixed rate has a short code unless its blocks are too large. -/
theorem mode_short_iff : (zfpStreamMode p).toNat ≤ ZFP_MODE_SHORT_MAX ↔ p.maxbits ≤ 2048 := by
  obtain ⟨-, -, -, -, hexp⟩ := fixedRate_fields hp
  constructor
  · intro hshort
    rcases short_cases (by rw [hexp, ZFP_MIN_EXP]; omega) (by rw [hexp, ZFP_MIN_EXP]; omega) hshort with
      ⟨-, -, hbits⟩ | ⟨hmode, -⟩
    · exact hbits
    · exact absurd hp hmode
  · intro hbits
    rw [zfpStreamMode, hp]
    dsimp only
    rw [if_pos hbits, BitVec.toNat_ofNat, ZFP_MODE_SHORT_MAX, ZFP_MODE_SHORT_BITS]
    omega

/-- A short code restores a fixed rate. -/
theorem zfpStreamSetMode_fixedRate (zfp : Params) (hbits : p.maxbits ≤ 2048) :
    zfpStreamSetMode zfp (zfpStreamMode p) = (.fixedRate, p) := by
  obtain ⟨hmin, hpos, hmax, hprec, hexp⟩ := fixedRate_fields hp
  obtain ⟨q, hset, hq⟩ := zfpStreamSetMode_mode zfp (p := p) hpos
    (by rw [hexp, ZFP_MIN_EXP]; omega) (by rw [hexp, ZFP_MIN_EXP]; omega)
  rw [if_pos ((mode_short_iff hp).mpr hbits), shortParams, hp, if_neg (by decide),
    Nat.min_eq_left hmax, max_eq_right (by omega)] at hq
  simp only [Prod.mk.injEq] at hq
  have heq : q = p := by
    cases p
    cases q
    simp only at hq
    obtain ⟨rfl, rfl, rfl, rfl⟩ := hq
    rfl
  rw [hset, heq, hp]

end

/-- Rounding up to words, unless it wraps around. -/
theorem roundUpUint_spec {size unit : ℕ} (hsize : size < 2 ^ 32) (hunit : 0 < unit)
    (hle : unit ≤ 2 ^ 32) (hne : roundUpUint size unit ≠ 0) :
    size ≤ roundUpUint size unit ∧ unit ∣ roundUpUint size unit := by
  rw [roundUpUint] at hne ⊢
  refine ⟨?_, Nat.dvd_sub_mod _⟩
  have hmod := Nat.mod_lt ((size + unit - 1) % 2 ^ 32) hunit
  rcases Nat.lt_or_ge (size + unit - 1) (2 ^ 32) with hlt | hge
  · rw [Nat.mod_eq_of_lt hlt] at hmod ⊢
    omega
  · rw [show size + unit - 1 = size + unit - 1 - 2 ^ 32 + 2 ^ 32 by omega, Nat.add_mod_right,
      Nat.mod_eq_of_lt (show size + unit - 1 - 2 ^ 32 < 2 ^ 32 by omega),
      Nat.mod_eq_of_lt (show size + unit - 1 - 2 ^ 32 < unit by omega), Nat.sub_self] at hne
    exact absurd rfl hne

theorem roundUpUint_of_dvd {size unit : ℕ} (hsize : size + unit ≤ 2 ^ 32) (hunit : 0 < unit)
    (hdvd : unit ∣ size) : roundUpUint size unit = size := by
  obtain ⟨k, rfl⟩ := hdvd
  rw [roundUpUint, Nat.mod_eq_of_lt (by omega), show unit * k + unit - 1 = unit - 1 + unit * k by omega,
    Nat.add_mul_mod_self_left, Nat.mod_eq_of_lt (by omega)]
  omega

theorem exists_rateBits (T : WordType) (hS : S.isFloat = true) :
    ∃ k < 2 ^ 32, sideBits S false ≤ k ∧
      ∀ bits, rateBits T S bits true = roundUpUint (max bits.toNat k) (wsize T) := by
  cases S with
  | float => exact ⟨1 + 8, by decide, by decide, fun _ => rfl⟩
  | double => exact ⟨1 + 11, by decide, by decide, fun _ => rfl⟩
  | int32 => exact absurd hS (by decide)
  | int64 => exact absurd hS (by decide)

/-- The bits of a block at the rate of an array are those of the array. -/
theorem zfpStreamSetRate_rate {bits : UInt32} (hS : S.isFloat = true) (dims : ℕ)
    (h : zfpStreamCompressionMode (zfpStreamSetRate T S bits true) = .fixedRate) :
    zfpStreamSetRate T S (rateBlockBits dims (zfpStreamRate (zfpStreamSetRate T S bits true) dims))
      true = zfpStreamSetRate T S bits true := by
  have hpos := wsize_pos T
  have hword := wsize_le T
  obtain ⟨-, hone, hmax, -⟩ := fixedRate_fields h
  have hbits := rateBlockBits_rate h dims
  generalize rateBlockBits dims (zfpStreamRate (zfpStreamSetRate T S bits true) dims) = bits' at hbits
  change rateBits T S bits true ≤ 16658 at hmax
  change 1 ≤ rateBits T S bits true at hone
  change bits'.toNat = rateBits T S bits true at hbits
  have hsame : rateBits T S bits' true = rateBits T S bits true := by
    obtain ⟨k, hk, -, hrate⟩ := exists_rateBits T hS
    have hlt := bits.toNat_lt
    rw [hrate] at hone hmax hbits ⊢
    obtain ⟨hle, hdvd⟩ := roundUpUint_spec (by omega) hpos (by omega) (Nat.ne_of_gt hone)
    rw [hrate, hbits, max_eq_left (by omega)]
    exact roundUpUint_of_dvd (by omega) hpos hdvd
  simp only [zfpStreamSetRate, hsame]

/-- The blocks of an array are whole words with room for the exponent. -/
theorem fixedRate_of_setRate {bits : UInt32} (hS : S.isFloat = true)
    (h : zfpStreamCompressionMode (zfpStreamSetRate T S bits true) = .fixedRate) :
    FixedRate T S (zfpStreamSetRate T S bits true) := by
  obtain ⟨-, hone, -⟩ := fixedRate_fields h
  change 1 ≤ rateBits T S bits true at hone
  obtain ⟨k, hk, hside, hrate⟩ := exists_rateBits T hS
  have hlt := bits.toNat_lt
  have hword := wsize_le T
  obtain ⟨hle, hdvd⟩ := roundUpUint_spec (show max bits.toNat k < 2 ^ 32 by omega) (wsize_pos T)
    (by omega) (hrate bits ▸ Nat.ne_of_gt hone)
  rw [← hrate] at hle hdvd
  exact ⟨rfl, hdvd, hone, hside.trans ((le_max_right _ _).trans hle)⟩

theorem leastRate_short (T : WordType) (hS : S.isFloat = true) :
    zfpStreamCompressionMode (zfpStreamSetRate T S 0 true) = .fixedRate ∧
      (zfpStreamSetRate T S 0 true).maxbits ≤ 2048 := by
  cases S with
  | float => cases T <;> decide
  | double => cases T <;> decide
  | int32 => exact absurd hS (by decide)
  | int64 => exact absurd hS (by decide)

/-! ## Bytes -/

namespace ArrayHeader

/-- The bits of a header survive the copy. -/
theorem memBit_wordsOf (mem : ℕ → BitVec (wsize T)) {j : ℕ} (hj : j < bitSize) :
    memBit (wordsOf T (bytesOf mem)) j = memBit mem j := by
  have hmod := Nat.mod_lt j (wsize_pos T)
  have hbyte : j / 8 < byteSize := by
    rw [bitSize, ZFP_MAGIC_BITS, ZFP_META_BITS, ZFP_MODE_SHORT_BITS] at hj
    rw [byteSize, bitSize, ZFP_MAGIC_BITS, ZFP_META_BITS, ZFP_MODE_SHORT_BITS]
    omega
  have hget : (bytesOf mem).getD (j / 8) 0 = wordOf 8 fun i => memBit mem (8 * (j / 8) + i) := by
    rw [bytesOf, List.getD_eq_getElem?_getD, List.getElem?_map, List.getElem?_range hbyte]
    rfl
  rw [memBit, wordsOf, getLsbD_wordOf, decide_eq_true hmod, Bool.true_and, Nat.div_add_mod', hget,
    getLsbD_wordOf, decide_eq_true (Nat.mod_lt j (by decide)), Bool.true_and, Nat.div_add_mod]

end ArrayHeader

/-! ## Headers of arrays -/

def arrayField (S : Scalar) (n : ℕ → ℕ) : Field := ⟨some S, n 0, n 1, n 2, n 3, 0, 0, 0, 0⟩

structure Dims (d : ℕ) (n : ℕ → ℕ) : Prop where
  pos : 1 ≤ d
  le : d ≤ 4
  size : ∀ a < d, n a ≠ 0
  rest : ∀ a, d ≤ a → n a = 0

section

variable {n : ℕ → ℕ} (h : Dims d n)

include h

theorem Dims.valid (S : Scalar) : (arrayField S n).Valid := by
  obtain ⟨hpos, hle, hsize, hrest⟩ := h
  refine ⟨Option.some_ne_none S, Nat.pos_of_ne_zero (hsize 0 hpos), fun hy => ?_, fun hz => ?_⟩
  · exact hrest 2 (by by_contra hlt; exact hsize 1 (by omega) hy)
  · exact hrest 3 (by by_contra hlt; exact hsize 2 (by omega) hz)

theorem Dims.dimensionality (S : Scalar) : zfpFieldDimensionality (arrayField S n) = d := by
  obtain ⟨hpos, hle, hsize, hrest⟩ := h
  interval_cases d
  · simp [zfpFieldDimensionality, arrayField, hsize 0, hrest 1]
  · simp [zfpFieldDimensionality, arrayField, hsize 0, hsize 1, hrest 2]
  · simp [zfpFieldDimensionality, arrayField, hsize 0, hsize 1, hsize 2, hrest 3]
  · simp [zfpFieldDimensionality, arrayField, hsize 0, hsize 1, hsize 2, hsize 3]

theorem Dims.headerDims : headerDims (n 0) (n 1) (n 2) (n 3) = d := by
  obtain ⟨hpos, hle, hsize, hrest⟩ := h
  interval_cases d
  · simp [Zfp.headerDims, hsize 0, hrest 1, hrest 2, hrest 3]
  · simp [Zfp.headerDims, hsize 1, hrest 2, hrest 3]
  · simp [Zfp.headerDims, hsize 2, hrest 3]
  · simp [Zfp.headerDims, hsize 3]

end

section

variable {p : Params} (hp : zfpStreamCompressionMode p = .fixedRate)

include hp

theorem length_headerCode_short (field : Field) (hbits : p.maxbits ≤ 2048) :
    (headerCode p field ZFP_HEADER_FULL).length = ArrayHeader.bitSize := by
  rw [headerCode, if_pos (by decide), if_pos (by decide), if_pos (by decide), List.length_append,
    List.length_append, length_magicCode, length_lowBits, length_modeCode,
    if_neg (Nat.not_lt.mpr ((mode_short_iff hp).mpr hbits))]
  rfl

variable {n : ℕ → ℕ} (hn : Dims d n)

include hn

/-- The header of an array, or what is wrong with the array. -/
theorem ofArray_eq {rate : ℚ} (hrate : zfpStreamSetRate T S (rateBlockBits d rate) true = p)
    (garbage : ℕ → BitVec (wsize T)) :
    ArrayHeader.ofArray S garbage (n 0) (n 1) (n 2) (n 3) rate =
      if 2048 < p.maxbits then .error "zfp serialization supports only short headers"
      else if zfpFieldMetadata (arrayField S n) = ZFP_META_NULL then
        .error "zfp header length does not match expected length"
      else .ok ⟨some S, n 0, n 1, n 2, n 3, p.maxbits / 4 ^ d, ArrayHeader.bytesOf (streamFlush
        ((streamOpen garbage).append (headerCode p (arrayField S n) ZFP_HEADER_FULL))).2.mem⟩ := by
  have hshort := mode_short_iff hp
  have hpos := hn.pos
  rw [ArrayHeader.ofArray, hn.headerDims, hrate]
  dsimp only
  by_cases hbits : 2048 < p.maxbits
  · rw [if_pos hbits, if_pos (by omega)]
  · rw [if_neg hbits, if_neg (by omega), if_neg (by omega)]
    by_cases hnull : zfpFieldMetadata (arrayField S n) = ZFP_META_NULL
    · have hwrite : zfpWriteHeader p (streamOpen garbage) (arrayField S n) ZFP_HEADER_FULL =
          (0, streamOpen garbage) := by
        rw [zfpWriteHeader, if_pos ⟨by decide, by rw [if_pos (by decide), hnull]⟩]
      rw [arrayField] at hwrite hnull
      rw [hwrite, if_pos (show 0 ≠ ArrayHeader.bitSize by decide), arrayField, if_pos hnull]
    · have hwrite : zfpWriteHeader p (streamOpen garbage) (arrayField S n) ZFP_HEADER_FULL = _ :=
        zfpWriteHeader_eq p (streamOpen_wf garbage) fun _ => hnull
      rw [length_headerCode_short hp _ (by omega)] at hwrite
      rw [if_neg hnull]
      rw [arrayField] at hwrite ⊢
      rw [hwrite, if_neg (not_not.mpr rfl)]

/-- A header is read as it was written, if a line is not too long. -/
theorem ofData_eq (hbits : p.maxbits ≤ 2048)
    (hnull : zfpFieldMetadata (arrayField S n) ≠ ZFP_META_NULL) (hline : d = 1 → n 0 ≤ 2 ^ 32)
    {mem : ℕ → BitVec (wsize T)}
    (hreads : Reads (memBit mem) 0 (headerCode p (arrayField S n) ZFP_HEADER_FULL))
    {bytes : ℕ} (hbytes : bytes = 0 ∨ bytes = ArrayHeader.byteSize) :
    ArrayHeader.ofData T (ArrayHeader.bytesOf mem) bytes =
      .ok ⟨some S, n 0, n 1, n 2, n 3, p.maxbits / 4 ^ d, ArrayHeader.bytesOf mem⟩ := by
  have hlen := length_headerCode_short hp (arrayField S n) hbits
  have hcopy : Reads (memBit (ArrayHeader.wordsOf T (ArrayHeader.bytesOf mem))) 0
      (headerCode p (arrayField S n) ZFP_HEADER_FULL) := by
    rw [reads_iff] at hreads ⊢
    intro i hi
    rw [Nat.zero_add, ArrayHeader.memBit_wordsOf _ (hlen ▸ hi), ← hreads i hi, Nat.zero_add]
  have hset := zfpStreamSetMode_fixedRate hp zfpStreamOpen hbits
  obtain ⟨-, -, -, -, hexp⟩ := fixedRate_fields hp
  rw [ZFP_MIN_EXP] at hexp
  have hread := zfpReadHeader_rseek zfpStreamOpen ⟨none, 0, 0, 0, 0, 0, 0, 0, 0⟩
    (by rw [hset]; exact Mode.noConfusion) (by omega) (by omega)
    (fun _ => zfpFieldSetMetadata_metadata (hn.valid S) hnull fun hone =>
      hline ((hn.dimensionality S).symm.trans hone))
    (r := ⟨0, 0, 0, ArrayHeader.wordsOf T (ArrayHeader.bytesOf mem)⟩) hcopy
  rw [hset, hlen, ← streamRewind_eq, if_pos (by decide), if_pos (by decide)] at hread
  rw [ArrayHeader.ofData, if_neg (by omega), streamOpen, hread]
  dsimp only
  rw [if_neg (by decide), if_neg (not_not.mpr rfl), hp, if_neg (not_not.mpr rfl)]
  have hdims : headerDims (arrayField S n).contiguous.nx (arrayField S n).contiguous.ny
      (arrayField S n).contiguous.nz (arrayField S n).contiguous.nw = d := hn.headerDims
  rw [hdims]
  rfl

end

/-! ## Runs of an array -/

/-- What an array keeps: its dimensions, a rate in whole words, and a buffer and an index that go
with it. -/
structure Rated (S : Scalar) (d : ℕ) (n : ℕ → ℕ) (st : BlockStore T Implicit) : Prop where
  size : st.size = setSize d n
  bytes : st.bytes = bufferSize T S d st.size st.zfp
  index : st.index = ⟨blocks d st.size, BitVec.ofNat 64 st.zfp.maxbits⟩
  zfp : ∃ bits, st.zfp = zfpStreamSetRate T S bits true

section

variable {n : ℕ → ℕ} {st t : BlockStore T Implicit} {ops : FloatOps S (4 ^ d)}

theorem setRate_rated (hsize : st.size = setSize d n)
    (hblocks : st.index.blocks = blocks d st.size) {bits : UInt32}
    (h : setConfig S d Index.implicit st (.fixedRate bits true) = .ok t) : Rated S d n t := by
  cases h
  exact ⟨hsize, rfl, congrArg (Implicit.mk · _) hblocks, bits, rfl⟩

theorem step_rated {op : Op S} (hop : ∀ c, op = .config c → ∃ bits, c = .fixedRate bits true)
    (h : step Index.implicit ops st op = .ok t) (hst : Rated S d n st) : Rated S d n t := by
  cases op with
  | config c =>
    obtain ⟨bits, rfl⟩ := hop c rfl
    exact setRate_rated hst.size (by rw [hst.index]) h
  | encode i input =>
    cases h
    exact ⟨hst.size, hst.bytes, hst.index, hst.zfp⟩
  | flush =>
    cases h
    exact ⟨hst.size, hst.bytes, hst.index, hst.zfp⟩

theorem run_rated {l : List (Op S)}
    (hl : ∀ c, Op.config c ∈ l → ∃ bits, c = .fixedRate bits true)
    (h : run Index.implicit ops st l = .ok t) (hst : Rated S d n st) : Rated S d n t := by
  induction l generalizing st with
  | nil =>
    cases h
    exact hst
  | cons op l ih =>
    obtain ⟨u, hu, hrest⟩ := (bind_eq_ok_iff _ _ _).mp h
    refine ih (fun c hc => hl c (List.mem_cons_of_mem op hc)) hrest (step_rated ?_ hu hst)
    rintro c rfl
    exact hl c List.mem_cons_self

end

/-- An array as its member functions leave it: it is constructed at a rate, then blocks are encoded,
and other rates may be set. -/
def CompressedArray.Built (ops : FloatOps S (4 ^ d)) (a : CompressedArray T) : Prop :=
  ∃ garbage bits, ∃ l : List (Op S), (∀ c, Op.config c ∈ l → ∃ bits, c = .fixedRate bits true) ∧
    run Index.implicit ops (create d Index.implicit T garbage a.n)
      (.config (.fixedRate bits true) :: l) = .ok a.store

theorem CompressedArray.Built.rated {ops : FloatOps S (4 ^ d)} {a : CompressedArray T}
    (h : a.Built ops) : Rated S d a.n a.store := by
  obtain ⟨garbage, bits, l, hl, hrun⟩ := h
  obtain ⟨st, hst, hrest⟩ := (bind_eq_ok_iff _ _ _).mp hrun
  exact run_rated hl hrest (setRate_rated rfl rfl hst)

/-! ## Copies -/

theorem blocks_le {n : ℕ → ℕ} (hn : ∀ a < d, n a ≠ 0) :
    blocks d n ≤ total n d := by
  have hle : ∀ m ≤ d, total (ArrayBlocks.blockSize n) m ≤ total n m := by
    intro m hm
    induction m with
    | zero => exact Nat.le_refl _
    | succ m ih =>
      have hsize : ArrayBlocks.blockSize n m ≤ n m := by
        have hpos := hn m (by omega)
        rw [ArrayBlocks.blockSize]
        have hmod := Nat.mod_le (n m + 3) (2 ^ 64)
        rw [sizeT]
        omega
      exact Nat.mul_le_mul (ih (by omega)) hsize
  exact (Nat.mod_le _ _).trans (hle d (Nat.le_refl d))

/-- The stores agree on their configuration and on the words of their buffer. -/
structure SameContents (st st' : BlockStore T Implicit) : Prop where
  size : st'.size = st.size
  zfp : st'.zfp = st.zfp
  index : st'.index = st.index
  bytes : st'.bytes = st.bytes
  mem : ∀ w, w * wsize T < 8 * st.bytes → st'.stream.mem w = st.stream.mem w

section

variable {n : ℕ → ℕ} {st st' : BlockStore T Implicit} {ops : FloatOps S (4 ^ d)}

theorem SameContents.decode (h : SameContents st st') (hd : d ≤ 4) (hfixed : FixedRate T S st.zfp)
    {i : ℕ} (hi : st.offset Index.implicit i + st.zfp.maxbits ≤ 8 * st.bytes) (block : ℕ → BitVec S.width) :
    (st'.decode Index.implicit ops i block).1 = (st.decode Index.implicit ops i block).1 ∧
      (st'.decode Index.implicit ops i block).2.2 = (st.decode Index.implicit ops i block).2.2 := by
  have hoffset : st'.offset Index.implicit i = st.offset Index.implicit i := by
    rw [offset, offset, h.index]
  have hwindow : SameWindow st'.stream st.stream (st.offset Index.implicit i)
      (st.offset Index.implicit i) st.zfp.maxbits := by
    intro k hk
    rw [memBit, memBit, h.mem]
    have hdiv := Nat.div_mul_le_self (st.offset Index.implicit i + k) (wsize T)
    omega
  have hvalues (out : ℕ → BitVec S.width) :
      (decodeAt ops st.zfp st'.stream (st.offset Index.implicit i) out).1 =
          (decodeAt ops st.zfp st.stream (st.offset Index.implicit i) out).1 ∧
        (decodeAt ops st.zfp st'.stream (st.offset Index.implicit i) out).2.2 =
          (decodeAt ops st.zfp st.stream (st.offset Index.implicit i) out).2.2 := by
    have hvalues := hfixed.valuesAt_window ops hd hwindow out
    rwa [valuesAt, valuesAt, Prod.mk.injEq] at hvalues
  rw [BlockStore.decode, BlockStore.decode, hoffset, h.size, h.zfp, decodeBlock, decodeBlock]
  split_ifs with hshape
  · simp only [decodeBlockStrided, hvalues, and_self]
  · exact hvalues block

/-- A block of an array with a header lies in the buffer. -/
theorem offset_add_le (hn : Dims d n) (h : Rated S d n st)
    (hmode : zfpStreamCompressionMode st.zfp = .fixedRate) (hbits : st.zfp.maxbits ≤ 2048)
    (hnull : zfpFieldMetadata (arrayField S n) ≠ ZFP_META_NULL) {i : ℕ}
    (hi : i < blocks d st.size) :
    st.offset Index.implicit i + st.zfp.maxbits ≤ 8 * st.bytes := by
  have hsize : setSize d n = n := by
    rw [setSize, if_neg]
    rintro ⟨a, ha, hzero⟩
    exact hn.size a ha hzero
  have htotal := total_size_le (hn.valid S) hnull
  rw [hn.dimensionality] at htotal
  have hcongr : total (arrayField S n).size d = total n d := by
    refine total_congr fun a ha => ?_
    have hle := hn.le
    have hcase : a = 0 ∨ a = 1 ∨ a = 2 ∨ a = 3 := by omega
    rcases hcase with rfl | rfl | rfl | rfl <;> rfl
  rw [hcongr] at htotal
  have hblocks : blocks d st.size ≤ 2 ^ 48 := by
    rw [h.size, hsize]
    exact (blocks_le hn.size).trans htotal
  have hlt : (i + 1) * st.zfp.maxbits ≤ blocks d st.size * st.zfp.maxbits :=
    Nat.mul_le_mul_right _ hi
  have hmax : blocks d st.size * st.zfp.maxbits ≤ 2 ^ 48 * 2048 := Nat.mul_le_mul hblocks hbits
  have hoffset : st.offset Index.implicit i = i * st.zfp.maxbits := by
    rw [Nat.succ_mul] at hlt
    rw [offset, h.index]
    change (BitVec.ofNat 64 i * BitVec.ofNat 64 st.zfp.maxbits).toNat = _
    rw [← BitVec.ofNat_mul, BitVec.toNat_ofNat, Nat.mod_eq_of_lt (by omega)]
  have hword := wsize_le T
  have hfits : Fits T S d st.size st.zfp := by
    rw [Fits, if_pos hmode, blockMaxbits_of_fixedRate hmode]
    omega
  have hsized : Sized d st.size := by
    rw [h.size]
    exact sized_setSize d n
  have hbuffer : wordBytes T ((i + 1) * st.zfp.maxbits) ≤ bufferSize T S d st.size st.zfp :=
    wordBytes_le_bufferSize hn.pos hn.le hsized hfits (by rwa [blockMaxbits_of_fixedRate hmode])
  have hend := le_wordEnd (T := T) ((i + 1) * st.zfp.maxbits)
  rw [← eight_mul_wordBytes] at hend
  rw [hoffset, h.bytes]
  rw [Nat.succ_mul] at hend hbuffer
  omega

end

theorem size_header {n : ℕ → ℕ} (hn : Dims d n) (rate : ℚ) (data : List (BitVec 8)) :
    ArrayHeader.size ⟨some S, n 0, n 1, n 2, n 3, rate, data⟩ = n := by
  have hle := hn.le
  funext a
  rcases Nat.lt_or_ge a 4 with hlt | hge
  · interval_cases a <;> rfl
  · obtain ⟨k, rfl⟩ := Nat.exists_eq_add_of_le' hge
    exact (hn.rest (k + 4) (by omega)).symm

/-- An array that is constructed from the header and the compressed data of another is its copy. -/
theorem construct_sameContents (hS : S.isFloat = true) {ops : FloatOps S (4 ^ d)}
    {a : CompressedArray T} (ha : a.Built ops) (hn : Dims d a.n)
    (hmode : zfpStreamCompressionMode a.store.zfp = .fixedRate) (data : List (BitVec 8))
    (garbage : Implicit) {p : ℕ → BitVec (wsize T)} {bufferBytes : ℕ}
    (hbuffer : bufferBytes = 0 ∨ a.store.bytes ≤ bufferBytes)
    (hp : ∀ w, w * wsize T < 8 * a.store.bytes → p w = a.store.stream.mem w) :
    ∃ b, CompressedArray.construct S d garbage
        ⟨some S, a.n 0, a.n 1, a.n 2, a.n 3, a.rate d, data⟩ (some p) bufferBytes = .ok b ∧
      b.n = a.n ∧ SameContents a.store b.store := by
  have hrated := ha.rated
  obtain ⟨bits, hzfp⟩ := hrated.zfp
  have hrate : zfpStreamSetRate T S (rateBlockBits d (a.rate d)) true = a.store.zfp := by
    rw [CompressedArray.rate, hzfp]
    exact zfpStreamSetRate_rate hS d (hzfp ▸ hmode)
  have hpos : 0 < a.rate d := by
    obtain ⟨-, hone, -⟩ := fixedRate_fields hmode
    rw [CompressedArray.rate, zfpStreamRate, if_pos hmode]
    exact div_pos (Nat.cast_pos.mpr hone) (by positivity)
  obtain ⟨st, hst⟩ : ∃ st, setConfig S d Index.implicit (create d Index.implicit T garbage a.n)
      (.fixedRate (rateBlockBits d (a.rate d)) true) = .ok st := ⟨_, rfl⟩
  have hstRated : Rated S d a.n st := setRate_rated rfl rfl hst
  have hstZfp : st.zfp = a.store.zfp := by
    cases hst
    exact hrate
  have hstSize : st.size = a.store.size := hstRated.size.trans hrated.size.symm
  have hstBytes : st.bytes = a.store.bytes := by
    rw [hstRated.bytes, hrated.bytes, hstSize, hstZfp]
  have hstIndex : st.index = a.store.index := by
    rw [hstRated.index, hrated.index, hstSize, hstZfp]
  refine ⟨⟨a.n, { st with stream := { st.stream with
    mem := fun w => if w * wsize T < 8 * st.bytes then p w else st.stream.mem w } }⟩, ?_, rfl,
    hstSize, hstZfp, hstIndex, hstBytes, fun w hw => ?_⟩
  · have htype : ¬ some S ≠ some S := not_not.mpr rfl
    have hdims : ¬ headerDims (a.n 0) (a.n 1) (a.n 2) (a.n 3) ≠ d := not_not.mpr hn.headerDims
    have hlarge : ¬ (bufferBytes ≠ 0 ∧ bufferBytes < st.bytes) := by
      rw [hstBytes]
      omega
    rw [CompressedArray.construct, if_neg htype, if_neg hdims, size_header (S := S) hn (a.rate d) data,
      decide_eq_true hpos]
    refine (bind_eq_ok_iff _ _ _).mpr ⟨st, hst, ?_⟩
    dsimp only
    rw [if_neg hlarge]
  · dsimp only
    rw [hstBytes, if_pos hw, hp w hw]

/-- The copy has the rate and the size of the array and decodes every block alike. -/
theorem construct_copy (hS : S.isFloat = true) {ops : FloatOps S (4 ^ d)} {a : CompressedArray T}
    (ha : a.Built ops) (hn : Dims d a.n)
    (hmode : zfpStreamCompressionMode a.store.zfp = .fixedRate)
    (hbits : a.store.zfp.maxbits ≤ 2048)
    (hnull : zfpFieldMetadata (arrayField S a.n) ≠ ZFP_META_NULL)
    (data : List (BitVec 8)) (garbage : Implicit) {p : ℕ → BitVec (wsize T)} {bufferBytes : ℕ}
    (hbuffer : bufferBytes = 0 ∨ a.store.bytes ≤ bufferBytes)
    (hp : ∀ w, w * wsize T < 8 * a.store.bytes → p w = a.store.stream.mem w) :
    ∃ b, CompressedArray.construct S d garbage
        ⟨some S, a.n 0, a.n 1, a.n 2, a.n 3, a.rate d, data⟩ (some p) bufferBytes = .ok b ∧
      b.n = a.n ∧ b.rate d = a.rate d ∧ b.store.bytes = a.store.bytes ∧
      ∀ i < blocks d a.store.size, ∀ block,
        (b.store.decode Index.implicit ops i block).1 =
            (a.store.decode Index.implicit ops i block).1 ∧
          (b.store.decode Index.implicit ops i block).2.2 =
            (a.store.decode Index.implicit ops i block).2.2 := by
  obtain ⟨b, hb, hbn, hsame⟩ := construct_sameContents hS ha hn hmode data garbage hbuffer hp
  have hrated := ha.rated
  have hfixed : FixedRate T S a.store.zfp := by
    obtain ⟨bits, hzfp⟩ := hrated.zfp
    rw [hzfp]
    exact fixedRate_of_setRate hS (hzfp ▸ hmode)
  refine ⟨b, hb, hbn, ?_, hsame.bytes, fun i hi block => ?_⟩
  · rw [CompressedArray.rate, CompressedArray.rate, hsame.zfp]
  · exact hsame.decode hn.le hfixed (offset_add_le hn hrated hmode hbits hnull hi) block

/-- The header of an array can be read back, unless the array is reported to be too large, and the
copy that is constructed from it decodes every block as the array does. Beyond the largest block
size of the fixed-rate mode an array reports no rate, and the header is that of the least rate. -/
theorem array_serialization (hS : S.isFloat = true) {ops : FloatOps S (4 ^ d)}
    {a : CompressedArray T} (ha : a.Built ops) (hn : Dims d a.n) (garbage : ℕ → BitVec (wsize T)) :
    let zfp := a.store.zfp
    let fits := zfpFieldMetadata (arrayField S a.n) ≠ ZFP_META_NULL
    (zfpStreamCompressionMode zfp ≠ .fixedRate →
      (¬ fits → a.header S d garbage =
        .error "zfp header length does not match expected length") ∧
      (fits → ∃ h, a.header S d garbage = .ok h ∧ h.bitRate = rateBits T S 0 true / 4 ^ d)) ∧
    (zfpStreamCompressionMode zfp = .fixedRate →
      (2048 < zfp.maxbits → a.header S d garbage =
        .error "zfp serialization supports only short headers") ∧
      (zfp.maxbits ≤ 2048 → ¬ fits → a.header S d garbage =
        .error "zfp header length does not match expected length") ∧
      (zfp.maxbits ≤ 2048 → fits → (d = 1 → a.n 0 ≤ 2 ^ 32) → ∃ h, a.header S d garbage = .ok h ∧
        (∀ bytes, bytes = 0 ∨ bytes = ArrayHeader.byteSize →
          ArrayHeader.ofData T h.data bytes = .ok h) ∧
        ∀ garbage p bufferBytes, bufferBytes = 0 ∨ a.store.bytes ≤ bufferBytes →
          (∀ w, w * wsize T < 8 * a.store.bytes → p w = a.store.stream.mem w) →
          ∃ b, CompressedArray.construct S d garbage h (some p) bufferBytes = .ok b ∧
            b.n = a.n ∧ b.rate d = a.rate d ∧ b.store.bytes = a.store.bytes ∧
            ∀ i < blocks d a.store.size, ∀ block,
              (b.store.decode Index.implicit ops i block).1 =
                  (a.store.decode Index.implicit ops i block).1 ∧
                (b.store.decode Index.implicit ops i block).2.2 =
                  (a.store.decode Index.implicit ops i block).2.2)) := by
  intro zfp fits
  have hrated := ha.rated
  obtain ⟨bits, hzfp⟩ := hrated.zfp
  constructor
  · intro hmode
    obtain ⟨hleast, hshort⟩ := leastRate_short T hS
    have hzero : a.rate d = 0 := if_neg hmode
    have hbits : rateBlockBits d 0 = 0 := by
      rw [rateBlockBits, mul_zero, zero_add]
      norm_num
      rfl
    have hrate : zfpStreamSetRate T S (rateBlockBits d (a.rate d)) true =
        zfpStreamSetRate T S 0 true := by
      rw [hzero, hbits]
    have hheader : a.header S d garbage = _ := ofArray_eq hleast hn hrate garbage
    rw [hheader, if_neg (Nat.not_lt.mpr hshort)]
    exact ⟨fun hnull => if_pos (not_not.mp hnull), fun hnull => ⟨_, if_neg hnull, rfl⟩⟩
  · intro hmode
    have hrate : zfpStreamSetRate T S (rateBlockBits d (a.rate d)) true = zfp := by
      rw [CompressedArray.rate, hzfp]
      exact (zfpStreamSetRate_rate hS d (hzfp ▸ hmode)).trans hzfp.symm
    have hheader : a.header S d garbage = _ := ofArray_eq hmode hn hrate garbage
    rw [hheader]
    refine ⟨fun hlarge => if_pos hlarge, fun hbits hnull => ?_, fun hbits hnull hline => ?_⟩
    · rw [if_neg (by omega), if_pos (not_not.mp hnull)]
    · rw [if_neg (by omega), if_neg hnull]
      have hvalue : (zfp.maxbits / 4 ^ d : ℚ) = a.rate d := (if_pos hmode).symm
      refine ⟨_, rfl, fun bytes hbytes => ?_, fun garbage' p bufferBytes hbuffer hp => ?_⟩
      · have hreads := reads_flush (streamOpen_wf garbage)
          (headerCode zfp (arrayField S a.n) ZFP_HEADER_FULL)
        rw [streamWtell_open] at hreads
        exact ofData_eq hmode hn hbits hnull hline hreads hbytes
      · rw [hvalue]
        exact construct_copy hS ha hn hmode hbits hnull _ garbage' hbuffer hp

/-- The second block of a line is encoded, and a copy of the line decodes it. -/
theorem array_serialization_line :
    let n : ℕ → ℕ := fun a => if a = 0 then 8 else 0
    let arr := create 1 Index.implicit .uint64 ⟨0, 0⟩ n
    ∃ st, run Index.implicit onesOps arr
        [.config (.fixedRate 64 true), .encode 1 (.block ones), .flush] = .ok st ∧
      ∃ h, CompressedArray.header .float 1 (fun _ => 0) ⟨n, st⟩ = .ok h ∧
        ArrayHeader.ofData .uint64 h.data ArrayHeader.byteSize = .ok h ∧
        ∃ b, CompressedArray.construct .float 1 ⟨0, 0⟩ h (some st.stream.mem) 0 = .ok b ∧
          ∀ k < 4, (b.store.decode Index.implicit onesOps 1 fun _ => 0).2.2 k = ones k := by
  intro n arr
  obtain ⟨st, hst⟩ : ∃ st, run Index.implicit onesOps arr
      [.config (.fixedRate 64 true), .encode 1 (.block ones), .flush] = .ok st := ⟨_, rfl⟩
  have hvalues : ∀ k < 4, (st.decode Index.implicit onesOps 1 fun _ => 0).2.2 k = ones k := by
    cases hst
    decide +kernel
  have hzfp : st.zfp = zfpStreamSetRate .uint64 .float 64 true := by
    cases hst
    rfl
  have hblocks : 1 < blocks 1 st.size := by
    cases hst
    decide
  have hn : Dims 1 n := ⟨by decide, by decide, by decide, fun a ha => if_neg (by omega)⟩
  have hconfig : ∀ c, Op.config c ∈ [Op.encode 1 (.block ones), .flush] →
      ∃ bits, c = .fixedRate bits true := fun c hc => by simp at hc
  have hbuilt : CompressedArray.Built onesOps ⟨n, st⟩ := ⟨⟨0, 0⟩, 64, _, hconfig, hst⟩
  have hnull : zfpFieldMetadata (arrayField .float n) ≠ ZFP_META_NULL := by decide +kernel
  have hline : n 0 ≤ 2 ^ 32 := by decide
  obtain ⟨h, hheader, hread, hcopy⟩ := ((array_serialization rfl hbuilt hn fun _ => 0).2
    (by rw [hzfp]; decide)).2.2 (by rw [hzfp]; decide) hnull fun _ => hline
  obtain ⟨b, hb, -, -, -, hdecode⟩ := hcopy ⟨0, 0⟩ st.stream.mem 0 (.inl rfl) fun _ _ => rfl
  refine ⟨st, hst, h, hheader, hread _ (.inr rfl), b, hb, fun k hk => ?_⟩
  rw [(hdecode 1 hblocks _).2]
  exact hvalues k hk

end Zfp

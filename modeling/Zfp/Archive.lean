import Zfp.BlockStore
import Zfp.ChunkOrder
import Zfp.DecodeCode
import Zfp.Header

/-!
# Archives

Fields that are compressed one after another to one stream, each behind its header, are read back
one after another: a field ends at the end of a word, where the reader finds the next header. What a
field is decompressed to does not depend on the fields around it.
-/

namespace Zfp
open BitLists Bitstream MixedRadix ArrayBlocks

variable {T : WordType} {S : Scalar} {d : ℕ}

def ZFP_HEADER_FULL : ℕ := 0x7

/-! ## Reading and writing -/

/-- A field, its elements, and the parameters that it is compressed with. -/
structure Entry where
  zfp : Params
  field : Field
  mem : Data

/-- What is read for an entry: the parameters and the field of its header, the data, and the size
that is returned. -/
structure Extracted where
  zfp : Params
  field : Field
  mem : Data
  size : ℕ

/-- Write a header and compress the field behind it; none upon failure. -/
def writeEntry (env : Env T) (ops : Floats) (data : ℕ) (s : Bitstream T) (e : Entry) :
    Option (ℕ × Bitstream T) :=
  let h := zfpWriteHeader e.zfp s e.field ZFP_HEADER_FULL
  -- cannot write header
  if h.1 = 0 then none
  else (zfpCompress env ops .serial e.zfp e.mem e.field ⟨data, h.2⟩).bind fun r =>
    -- compression failed
    if r.1 = 0 then none else some (r.1, r.2.stream)

/-- Read a header and decompress the field behind it to a buffer; none upon failure. -/
def readEntry (env : Env T) (ops : Floats) (zfp : Params) (s : Bitstream T) (buffer : Data) :
    Option (Extracted × Bitstream T) :=
  let h := zfpReadHeader zfp s ⟨none, 0, 0, 0, 0, 0, 0, 0, 0⟩ ZFP_HEADER_FULL
  -- incorrect or missing header, or unsupported type
  if h.1 = 0 ∨ zfpTypeSize h.2.2.2.type = 0 then none
  else (zfpDecompress env ops .serial h.2.1 buffer h.2.2.2 h.2.2.1).bind fun r =>
    -- decompression failed
    if r.1 = 0 then none else some (⟨h.2.1, h.2.2.2, r.2.2, r.1⟩, r.2.1.stream)

/-- Write entries; the sizes that the compressor returns, and the stream. -/
def writeArchive (env : Env T) (ops : Floats) (data : ℕ) :
    Bitstream T → List Entry → Option (List ℕ × Bitstream T)
  | s, [] => some ([], s)
  | s, e :: entries => (writeEntry env ops data s e).bind fun r =>
    (writeArchive env ops data r.2 entries).map fun q => (r.1 :: q.1, q.2)

def readArchive (env : Env T) (ops : Floats) :
    Params → Bitstream T → List Data → Option (List Extracted × Bitstream T)
  | _, s, [] => some ([], s)
  | zfp, s, buffer :: buffers => (readEntry env ops zfp s buffer).bind fun r =>
    (readArchive env ops r.1.zfp r.2 buffers).map fun q => (r.1 :: q.1, q.2)

/-! ## Elements -/

section

variable {n : ℕ → ℕ} {stride stride' : ℕ → ℤ} {mem mem' : ℤ → BitVec S.width}

theorem mem_corners_lt {o : ℕ → ℕ} (ho : o ∈ corners n d) : ∀ a < d, o a < n a := by
  rw [corners_eq_map] at ho
  obtain ⟨b, hb, rfl⟩ := List.mem_map.mp ho
  exact fun a ha => (cornerOf_lt n (List.mem_range.mp hb) ha).1

/-- A block depends on the elements of the array only. -/
theorem compressBlock_ext (h : ∀ c, Within n d c → mem (span stride d c) = mem' (span stride' d c))
    {o : ℕ → ℕ} (ho : ∀ a < d, o a < n a) :
    compressBlock d mem n stride o = compressBlock d mem' n stride' o := by
  funext i
  rcases Nat.lt_or_ge i (4 ^ d) with hi | hi
  · rw [compressBlock_apply _ _ ho hi, compressBlock_apply _ _ ho hi]
    refine h _ fun a ha => ?_
    have hlt := ho a ha
    have hpad := padIndex_lt (show 0 < min (n a - o a) 4 by omega) (place i a)
    rw [padPlace]
    omega
  · rw [compressBlock_of_ge ho hi, compressBlock_of_ge ho hi]

theorem cornersCode_ext (ops : FloatOps S (4 ^ d)) (zfp : Params)
    (h : ∀ c, Within n d c → mem (span stride d c) = mem' (span stride' d c)) :
    cornersCode ops zfp mem n stride (corners n d) =
      cornersCode ops zfp mem' n stride' (corners n d) := by
  refine List.flatMap_congr fun o ho => ?_
  rw [compressBlock_ext h (mem_corners_lt ho)]

/-- The elements of an array in dense order. -/
def packed (d : ℕ) (n : ℕ → ℕ) (stride : ℕ → ℤ) (mem : ℤ → BitVec S.width) (x : ℤ) :
    BitVec S.width :=
  mem (span stride d (digit n x.toNat))

theorem packed_rank {c : ℕ → ℕ} (hc : Within n d c) :
    packed d n stride mem (rank n c d) = mem (span stride d c) := by
  rw [packed, Int.toNat_natCast]
  exact congrArg mem (span_congr stride fun a ha => digit_rank hc ha)

theorem span_congr_stride (h : ∀ a < d, stride a = stride' a) (c : ℕ → ℕ) :
    span stride d c = span stride' d c := by
  induction d with
  | zero => rfl
  | succ d ih => rw [span, span, ih fun a ha => h a (by omega), h d (Nat.lt_succ_self d)]

theorem total_mono {a m : ℕ} (h : ∀ b < m, 0 < n b) (ham : a ≤ m) : total n a ≤ total n m := by
  induction ham with
  | refl => exact Nat.le_refl _
  | step _ ih =>
    exact (ih fun b hb => h b (by omega)).trans (Nat.le_mul_of_pos_right _ (h _ (by omega)))

end

/-! ## Fields with metadata -/

section

variable {field : Field} (hf : field.Valid) (hnull : zfpFieldMetadata field ≠ ZFP_META_NULL)

include hf hnull

/-- The sizes that fit in metadata have at most 48 bits together. -/
theorem total_size_le : total field.size (zfpFieldDimensionality field) ≤ 2 ^ 48 := by
  rw [zfpFieldMetadata] at hnull
  have hfits {k n : ℕ} (h : ¬ (n - 1) >>> k ≠ 0) : n ≤ 2 ^ k := by
    rw [not_not, Nat.shiftRight_eq_div_pow] at h
    have hlt := (Nat.div_eq_zero_iff_lt (Nat.two_pow_pos k)).mp h
    omega
  obtain ⟨hd, -⟩ | ⟨hd, -⟩ | ⟨hd, -⟩ | ⟨hd, -⟩ := hf.dims_cases
  · simp only [hd] at hnull
    split at hnull
    · exact absurd rfl hnull
    · next h =>
      have hx := hfits h
      rw [hd]
      simpa [total, Field.size] using hx
  · simp only [hd] at hnull
    split at hnull
    · exact absurd rfl hnull
    · next h =>
      obtain ⟨hx, hy⟩ := not_or.mp h
      rw [hd]
      simpa [total, Field.size] using Nat.mul_le_mul (hfits hx) (hfits hy)
  · simp only [hd] at hnull
    split at hnull
    · exact absurd rfl hnull
    · next h =>
      obtain ⟨hx, h⟩ := not_or.mp h
      obtain ⟨hy, hz⟩ := not_or.mp h
      rw [hd]
      simpa [total, Field.size] using
        Nat.mul_le_mul (Nat.mul_le_mul (hfits hx) (hfits hy)) (hfits hz)
  · simp only [hd] at hnull
    split at hnull
    · exact absurd rfl hnull
    · next h =>
      obtain ⟨hx, h⟩ := not_or.mp h
      obtain ⟨hy, h⟩ := not_or.mp h
      obtain ⟨hz, hw⟩ := not_or.mp h
      rw [hd]
      simpa [total, Field.size] using
        Nat.mul_le_mul (Nat.mul_le_mul (Nat.mul_le_mul (hfits hx) (hfits hy)) (hfits hz)) (hfits hw)

/-- The field that is read is dense. -/
theorem zfpFieldStride_contiguous {a : ℕ} (ha : a < zfpFieldDimensionality field) :
    zfpFieldStride field.contiguous a = total field.size a := by
  have hle := hf.dims_le
  have htotal := total_mono hf.size_pos ha.le
  have hsize := total_size_le hf hnull
  have hstride : field.contiguous.stride a = total field.size a := by
    have hcase : a = 0 ∨ a = 1 ∨ a = 2 ∨ a = 3 := by omega
    rcases hcase with rfl | rfl | rfl | rfl <;>
      simp [Field.contiguous, Field.stride, total, Field.size]
  rw [zfpFieldStride_eq (by omega), hstride]
  rw [hstride]
  constructor <;> omega

theorem span_contiguous_field (c : ℕ → ℕ) :
    span (zfpFieldStride field.contiguous) (zfpFieldDimensionality field) c =
      rank field.size c (zfpFieldDimensionality field) := by
  rw [← span_eq_rank]
  exact span_congr_stride (fun a ha => zfpFieldStride_contiguous hf hnull ha) c

end

/-! ## Decompression -/

section

variable (ops : FloatOps S (4 ^ d)) (zfp : Params)

/-- Blocks that are decoded from the same codes are the same, wherever the codes are. -/
theorem foldl_decompressNext_congr (hd : 1 ≤ d) (hd' : d ≤ 4) (n : ℕ → ℕ) (stride : ℕ → ℤ)
    {block : (ℕ → ℕ) → ℕ → BitVec S.width} (l : List (ℕ → ℕ))
    (hpad : ∀ o ∈ l, ¬ unpadded ops zfp (block o)) {r r' : Bitstream T} {p p' : ℕ}
    (w w' : Run T × (ℤ → BitVec S.width)) (hw : w.1.stream = streamRseek r p)
    (hw' : w'.1.stream = streamRseek r' p') (hmem : w.2 = w'.2)
    (h : Reads (memBit r.mem) p (l.flatMap fun o => blockCode ops zfp (block o)))
    (h' : Reads (memBit r'.mem) p' (l.flatMap fun o => blockCode ops zfp (block o))) :
    (l.foldl (decompressNext ops zfp n stride) w).1.stream =
        streamRseek r (p + (l.flatMap fun o => blockCode ops zfp (block o)).length) ∧
      (l.foldl (decompressNext ops zfp n stride) w).2 =
        (l.foldl (decompressNext ops zfp n stride) w').2 := by
  induction l generalizing p p' w w' with
  | nil => exact ⟨hw, hmem⟩
  | cons o l ih =>
    rw [List.flatMap_cons, reads_append] at h h'
    obtain ⟨hfirst, hrest⟩ := List.forall_mem_cons.mp hpad
    have hend := (zfpDecodeBlock_rseek ops zfp hd hd' (fun _ => 0) h.1 hfirst).2
    have hend' := (zfpDecodeBlock_rseek ops zfp hd hd' (fun _ => 0) h'.1 hfirst).2
    have hvalues := determines_zfpDecodeBlock ops zfp hd' (block o) (fun _ => 0) r r' p p' h.1 h'.1
    dsimp only at hvalues
    rw [← hw] at hend hvalues
    rw [← hw'] at hend' hvalues
    have hnext :
        (decompressNext ops zfp n stride w o).2 = (decompressNext ops zfp n stride w' o).2 := by
      rw [decompressNext, decompressNext, decodeNext, decodeNext, hvalues, hmem]
    obtain ⟨hstream, hdata⟩ := ih hrest _ _ hend hend' hnext h.2 h'.2
    rw [List.flatMap_cons, List.length_append, ← Nat.add_assoc]
    exact ⟨hstream, hdata⟩

end

section

variable {env : Env T} {ops : Floats} {field : Field} {q : Params} (htype : field.type = some S)
  (hdims : zfpFieldDimensionality field ≠ 0) (hreturns : SerialReturns field)

include htype hdims hreturns

/-- Decompression stops at the end of the word that the code ends in, and what it stores does not
depend on the place of the code. -/
theorem zfpDecompress_congr {block : (ℕ → ℕ) → ℕ → BitVec S.width}
    (hpad : ∀ o ∈ corners field.size (zfpFieldDimensionality field),
      ¬ unpadded (ops S (zfpFieldDimensionality field)) q (block o))
    {l : List Bool} (hl : l = (corners field.size (zfpFieldDimensionality field)).flatMap fun o =>
      blockCode (ops S (zfpFieldDimensionality field)) q (block o))
    (buffer : Data) {r : Bitstream T} {p : ℕ} (h : Reads (memBit r.mem) p l) :
    ∃ out, ∀ (r' : Bitstream T) (p' : ℕ), Reads (memBit r'.mem) p' l → ∃ blocks,
      zfpDecompress env ops .serial q buffer field (streamRseek r' p') =
        some (wordBytes T (p' + l.length),
          ⟨streamRseek r' (wordEnd T (p' + l.length)), blocks⟩, out) := by
  subst hl
  refine ⟨Function.update buffer S (decompressStrided (ops S (zfpFieldDimensionality field)) q
    field.size (zfpFieldStride field) (streamRseek r p) (buffer S)).2, fun r' p' h' => ?_⟩
  obtain ⟨hend, hout⟩ := foldl_decompressNext_congr _ q (Nat.pos_of_ne_zero hdims)
    (zfpFieldDimensionality_le field) field.size (zfpFieldStride field) _ hpad
    (⟨streamRseek r' p', []⟩, buffer S) (⟨streamRseek r p, []⟩, buffer S) rfl rfl rfl h' h
  rw [zfpDecompress_serial_eq htype hdims, if_pos hreturns]
  simp only [decompressStrided_eq_foldl, hend, hout, streamSize_align]
  rw [streamAlign_rseek]
  exact ⟨_, rfl⟩

end

/-! ## Entries -/

/-- The entries that an archive holds: the field fits in a header and in the counter of the serial
routine, the parameters in a mode word, and every block is padded. -/
structure Storable (e : Entry) : Prop where
  valid : e.field.Valid
  metadata : zfpFieldMetadata e.field ≠ ZFP_META_NULL
  line : zfpFieldDimensionality e.field = 1 → e.field.nx < 2 ^ 32
  minbits : 1 ≤ e.zfp.minbits
  maxbits : e.zfp.maxbits ≤ 2 ^ 15
  minexp : -16495 ≤ e.zfp.minexp ∧ e.zfp.minexp ≤ 16272
  padded : REVERSIBLE e.zfp = true → e.zfp.minbits ≤ 1

/-- What a reader gets for an entry: the field without its strides, the parameters of the mode word,
and the elements in dense order that a stream of its own would give. -/
structure Delivered (env : Env T) (ops : Floats) (e : Entry) (buffer : Data) (x : Extracted) :
    Prop where
  field : x.field = e.field.contiguous
  zfp : Restored e.zfp x.zfp
  alone : ∀ (s : Bitstream T) (data : ℕ), ∃ size r r',
    zfpCompress env ops .serial e.zfp e.mem e.field ⟨data, streamRewind s⟩ = some (size, r) ∧
    zfpDecompress env ops .serial x.zfp buffer x.field (streamRewind r.stream) =
      some (size, r', x.mem)
  lossless : e.zfp = zfpStreamSetReversible → ∀ S, e.field.type = some S →
    ∀ c, Within e.field.size (zfpFieldDimensionality e.field) c →
      x.mem S (rank e.field.size c (zfpFieldDimensionality e.field)) =
        e.mem S (span (zfpFieldStride e.field) (zfpFieldDimensionality e.field) c)

def entryCode (ops : Floats) (e : Entry) : List Bool :=
  headerCode e.zfp e.field ZFP_HEADER_FULL ++
    e.field.type.elim [] fun S => fieldCode ops e.zfp e.mem e.field S

section

variable {e : Entry} (h : Storable e)

include h

theorem Storable.dims_ne_zero : zfpFieldDimensionality e.field ≠ 0 := by
  rcases h.valid.dims_cases with h | h | h | h <;> omega

theorem Storable.size_le {a : ℕ} (ha : a < zfpFieldDimensionality e.field) :
    e.field.size a ≤ 2 ^ 48 := by
  have hpos := h.valid.size_pos
  have htotal := total_mono hpos (show a + 1 ≤ zfpFieldDimensionality e.field by omega)
  have hlower := total_pos fun b (hb : b < a) => hpos b (by omega)
  exact ((Nat.le_mul_of_pos_left _ hlower).trans htotal).trans (total_size_le h.valid h.metadata)

theorem Storable.serialReturns : SerialReturns e.field := by
  refine ⟨fun a ha => (h.size_le ha).trans (by decide), ?_⟩
  by_cases hone : zfpFieldDimensionality e.field = 1
  · exact .inr (.inr (h.line hone))
  · exact .inr (.inl hone)

theorem Storable.contiguous : Storable ⟨e.zfp, e.field.contiguous, e.mem⟩ :=
  ⟨⟨h.valid.type, h.valid.nx, h.valid.ny, h.valid.nz⟩, h.metadata, h.line, h.minbits, h.maxbits,
    h.minexp, h.padded⟩

end

/-! ## Round trips -/

/-- The mode word of the reversible mode restores all its parameters. -/
theorem Restored.reversible {q : Params} (h : Restored zfpStreamSetReversible q) :
    q = zfpStreamSetReversible := by
  obtain ⟨hminbits, hmaxbits, hmaxprec, hminexp⟩ := h
  rw [if_pos (by decide)] at hmaxbits hminexp
  cases q
  simp only at hminbits hmaxbits hmaxprec hminexp
  subst hminbits hmaxbits hmaxprec hminexp
  rfl

theorem entryCode_eq (ops : Floats) {e : Entry} (htype : e.field.type = some S) :
    entryCode ops e = headerCode e.zfp e.field ZFP_HEADER_FULL ++
      fieldCode ops e.zfp e.mem e.field S := by
  rw [entryCode, htype]
  rfl

theorem length_headerCode_pos (zfp : Params) (field : Field) :
    0 < (headerCode zfp field ZFP_HEADER_FULL).length := by
  refine Nat.pos_of_ne_zero fun hzero => ?_
  exact absurd ((headerCode_eq_nil_iff _ _ _).mp hzero).1 (by decide)

section

variable (env : Env T) (ops : Floats) {e : Entry} (h : Storable e)

include h

/-- An entry is written as its code, filled up to the end of a word. -/
theorem writeEntry_eq (data : ℕ) {s : Bitstream T} (hs : s.WF) :
    let n := streamWtell s + (entryCode ops e).length
    writeEntry env ops data s e = some (wordBytes T n,
      s.append (entryCode ops e ++ List.replicate (flushCount T n) false)) := by
  obtain ⟨S, htype⟩ := Option.ne_none_iff_exists'.mp h.valid.type
  have hcode := entryCode_eq ops htype
  have hheader : zfpWriteHeader e.zfp s e.field ZFP_HEADER_FULL = _ :=
    zfpWriteHeader_eq e.zfp hs fun _ => h.metadata
  have hlen := length_headerCode_pos e.zfp e.field
  intro n
  have hn : n = streamWtell s + ((headerCode e.zfp e.field ZFP_HEADER_FULL).length +
      (fieldCode ops e.zfp e.mem e.field S).length) := by
    rw [← List.length_append, ← hcode]
  have hsize : wordBytes T n ≠ 0 := by
    rw [Ne, wordBytes_eq_zero]
    omega
  have hwf := hs.append (headerCode e.zfp e.field ZFP_HEADER_FULL)
  have htell := streamWtell_append hs (headerCode e.zfp e.field ZFP_HEADER_FULL)
  rw [writeEntry, hheader, hcode, append_append, append_append]
  generalize s.append (headerCode e.zfp e.field ZFP_HEADER_FULL) = t at hwf htell ⊢
  have hfield : zfpCompress env ops .serial e.zfp e.mem e.field ⟨data, t⟩ = _ :=
    zfpCompress_code htype h.dims_ne_zero h.serialReturns e.zfp e.mem hwf
  rw [htell, Nat.add_assoc, ← hn] at hfield
  rw [if_neg hlen.ne', hfield, Option.bind_some, if_neg hsize, streamFlush_append (hwf.append _),
    streamWtell_append hwf, htell, Nat.add_assoc, ← hn]

/-- A reader of the header gets the field without its strides, and parameters that give every block
the code that it was written with. -/
theorem zfpReadHeader_entry (zfp : Params) (field : Field) {r : Bitstream T} {o : ℕ}
    (hreads : Reads (memBit r.mem) o (headerCode e.zfp e.field ZFP_HEADER_FULL)) :
    let n := (headerCode e.zfp e.field ZFP_HEADER_FULL).length
    ∃ q, zfpReadHeader zfp (streamRseek r o) field ZFP_HEADER_FULL =
        (n, q, streamRseek r (o + n), e.field.contiguous) ∧
      Restored e.zfp q ∧ SameCodes e.zfp q := by
  obtain ⟨hlow, hhigh⟩ := h.minexp
  have hmin := h.minbits
  have hmax := h.maxbits
  have hle := e.zfp.minbits_le
  obtain ⟨q, hset, hq⟩ := zfpStreamSetMode_mode zfp (hmin.trans hle)
    (show -2 ^ 31 ≤ e.zfp.minexp by omega) (by omega)
  have hheader := zfpReadHeader_rseek zfp field (by rw [hset]; exact compressionMode_ne_null q)
    (by omega) (by omega)
    (fun _ => zfpFieldSetMetadata_metadata h.valid h.metadata fun hone => (h.line hone).le) hreads
  rw [hset] at hheader
  exact ⟨q, hheader, restored_of_mode hmin hmax hlow hhigh hq,
    sameCodes_of_mode (hmin.trans hle) (by omega) (by omega) (by omega) hq⟩

section

variable {q : Params} (hrestored : Restored e.zfp q) (htype : e.field.type = some S)

include hrestored htype

/-- What is decompressed with the parameters of the mode word does not depend on the place of the
code. -/
theorem zfpDecompress_entry (hsame : SameCodes e.zfp q) (buffer : Data) {r : Bitstream T} {o : ℕ}
    (hreads : Reads (memBit r.mem) o (fieldCode ops e.zfp e.mem e.field S)) :
    let l := fieldCode ops e.zfp e.mem e.field S
    ∃ out, ∀ (r' : Bitstream T) (p' : ℕ), Reads (memBit r'.mem) p' l → ∃ blocks,
      zfpDecompress env ops .serial q buffer e.field.contiguous (streamRseek r' p') =
        some (wordBytes T (p' + l.length),
          ⟨streamRseek r' (wordEnd T (p' + l.length)), blocks⟩, out) := by
  have hblocks : fieldCode ops e.zfp e.mem e.field S =
      (corners e.field.contiguous.size (zfpFieldDimensionality e.field.contiguous)).flatMap fun o =>
        blockCode (ops S (zfpFieldDimensionality e.field.contiguous)) q
          (compressBlock (zfpFieldDimensionality e.field) (e.mem S) e.field.size
            (zfpFieldStride e.field) o) :=
    List.flatMap_congr fun o _ => (hsame.blockCode_eq (zfpFieldDimensionality_le e.field) _ _).symm
  have htype' : e.field.contiguous.type = some S := htype
  refine zfpDecompress_congr htype' h.contiguous.dims_ne_zero h.contiguous.serialReturns ?_ hblocks
    buffer hreads
  rintro o - ⟨-, hrev, -, hlt⟩
  have hle := h.padded (hsame.reversible ▸ hrev)
  rw [hrestored.minbits] at hlt
  omega

/-- The reversible mode delivers the elements, in dense order. -/
theorem zfpDecompress_packed (hrev : e.zfp = zfpStreamSetReversible) (buffer : Data)
    {r : Bitstream T} (hreads : Reads (memBit r.mem) 0 (fieldCode ops e.zfp e.mem e.field S)) :
    ∃ size r' out, zfpDecompress env ops .serial q buffer e.field.contiguous (streamRewind r) =
        some (size, r', out) ∧
      ∀ c, Within e.field.size (zfpFieldDimensionality e.field) c →
        out S (rank e.field.size c (zfpFieldDimensionality e.field)) =
          e.mem S (span (zfpFieldStride e.field) (zfpFieldDimensionality e.field) c) := by
  obtain rfl : q = zfpStreamSetReversible := (hrev ▸ hrestored).reversible
  set mem : Data := Function.update e.mem S (packed (zfpFieldDimensionality e.field) e.field.size
    (zfpFieldStride e.field) (e.mem S)) with hmem
  have hpacked : ∀ c, Within e.field.size (zfpFieldDimensionality e.field) c →
      e.mem S (span (zfpFieldStride e.field) (zfpFieldDimensionality e.field) c) =
        mem S (span (zfpFieldStride e.field.contiguous) (zfpFieldDimensionality e.field) c) := by
    intro c hc
    rw [hmem, Function.update_self, span_contiguous_field h.valid h.metadata, packed_rank hc]
  have hcode : fieldCode ops e.zfp e.mem e.field S =
      fieldCode ops zfpStreamSetReversible mem e.field.contiguous S := by
    rw [hrev]
    exact cornersCode_ext _ _ hpacked
  rw [hcode] at hreads
  have htype' : e.field.contiguous.type = some S := htype
  obtain ⟨r', out, (hdecompress : zfpDecompress env _ _ _ _ _ _ = _), hvalues⟩ :=
    zfpDecompress_code htype' h.contiguous.dims_ne_zero h.contiguous.serialReturns hreads buffer
  refine ⟨_, _, _, hdecompress, fun c hc => ?_⟩
  rw [Function.update_self, hpacked c hc, ← span_contiguous_field h.valid h.metadata]
  rcases hvalues (span (zfpFieldStride e.field.contiguous) (zfpFieldDimensionality e.field) c) with
    ⟨-, hvalue⟩ | ⟨hne, -⟩
  · exact hvalue
  · exact absurd rfl (hne c hc)

end

/-- An entry is read where its code lies, up to the end of a word. -/
theorem readEntry_eq (zfp : Params) (buffer : Data) {r : Bitstream T} {o : ℕ}
    (hreads : Reads (memBit r.mem) o (entryCode ops e)) :
    let n := o + (entryCode ops e).length
    ∃ x, readEntry env ops zfp (streamRseek r o) buffer = some (x, streamRseek r (wordEnd T n)) ∧
      x.size = wordBytes T n ∧ Delivered env ops e buffer x := by
  obtain ⟨S, htype⟩ := Option.ne_none_iff_exists'.mp h.valid.type
  have hcode := entryCode_eq ops htype
  rw [hcode, reads_append] at hreads
  obtain ⟨hfirst, hrest⟩ := hreads
  obtain ⟨q, hheader, hrestored, hsame⟩ := zfpReadHeader_entry h zfp
    ⟨none, 0, 0, 0, 0, 0, 0, 0, 0⟩ hfirst
  obtain ⟨out, hout⟩ := zfpDecompress_entry env ops h hrestored htype hsame buffer hrest
  obtain ⟨blocks, hfield⟩ := hout r _ hrest
  have hlen := length_headerCode_pos e.zfp e.field
  rw [Nat.add_assoc, ← List.length_append, ← hcode] at hfield
  intro n
  have hn : n = o + ((headerCode e.zfp e.field ZFP_HEADER_FULL).length +
      (fieldCode ops e.zfp e.mem e.field S).length) := by
    rw [← List.length_append, ← hcode]
  have hsize : wordBytes T n ≠ 0 := by
    rw [Ne, wordBytes_eq_zero]
    omega
  refine ⟨⟨q, e.field.contiguous, out, wordBytes T n⟩, ?_, rfl, rfl, hrestored, ?_, ?_⟩
  · have htypeSize : zfpTypeSize e.field.contiguous.type ≠ 0 := (zfpTypeSize_pos h.valid.type).ne'
    rw [readEntry, hheader]
    dsimp only
    rw [if_neg (not_or.mpr ⟨hlen.ne', htypeSize⟩), hfield, Option.bind_some, if_neg hsize]
  · intro s data
    have hwf := WF.rewind s
    have hcompress : zfpCompress env ops .serial e.zfp e.mem e.field ⟨data, streamRewind s⟩ = _ :=
      zfpCompress_code htype h.dims_ne_zero h.serialReturns e.zfp e.mem hwf
    have hbits := reads_flush hwf (fieldCode ops e.zfp e.mem e.field S)
    rw [streamWtell_rewind] at hcompress hbits
    obtain ⟨blocks, hdecompress⟩ := hout _ 0 hbits
    rw [← streamRewind_eq] at hdecompress
    exact ⟨_, _, _, hcompress, hdecompress⟩
  · intro hrev S' hS' c hc
    obtain rfl : S = S' := Option.some.inj (htype.symm.trans hS')
    have hwf := streamOpen_wf (T := T) fun _ => 0
    have hbits := reads_flush hwf (fieldCode ops e.zfp e.mem e.field S)
    rw [streamWtell_open] at hbits
    obtain ⟨size, r', out', hdecompress, hvalues⟩ :=
      zfpDecompress_packed env ops h hrestored htype hrev buffer hbits
    obtain ⟨blocks, hdecompress'⟩ := hout _ 0 hbits
    rw [← streamRewind_eq, hdecompress, Option.some.injEq, Prod.mk.injEq, Prod.mk.injEq]
      at hdecompress'
    rw [← hdecompress'.2.2]
    exact hvalues c hc

end

/-! ## Archives -/

/-- The bits of entries that are written from a bit on, each filled up to the end of a word. -/
def archiveCode (T : WordType) (ops : Floats) : ℕ → List Entry → List Bool
  | _, [] => []
  | o, e :: entries =>
    let n := o + (entryCode ops e).length
    entryCode ops e ++ List.replicate (flushCount T n) false ++ archiveCode T ops (wordEnd T n) entries

def archiveSizes (T : WordType) (ops : Floats) : ℕ → List Entry → List ℕ
  | _, [] => []
  | o, e :: entries =>
    let n := o + (entryCode ops e).length
    wordBytes T n :: archiveSizes T ops (wordEnd T n) entries

section

variable (env : Env T) (ops : Floats) {entries : List Entry} (h : ∀ e ∈ entries, Storable e)

include h

theorem writeArchive_eq (data : ℕ) {s : Bitstream T} (hs : s.WF) :
    writeArchive env ops data s entries = some (archiveSizes T ops (streamWtell s) entries,
      s.append (archiveCode T ops (streamWtell s) entries)) := by
  induction entries generalizing s with
  | nil => rfl
  | cons e entries ih =>
    obtain ⟨hfirst, hrest⟩ := List.forall_mem_cons.mp h
    have hentry := writeEntry_eq env ops hfirst data hs
    dsimp only at hentry
    have htell := streamWtell_append hs (entryCode ops e ++
      List.replicate (flushCount T (streamWtell s + (entryCode ops e).length)) false)
    rw [List.length_append, List.length_replicate, ← Nat.add_assoc, add_flushCount] at htell
    rw [writeArchive, hentry, Option.bind_some, ih hrest (hs.append _), htell, Option.map_some,
      archiveSizes, archiveCode, append_append _ (_ ++ _)]

/-- A reader gets every entry, in the order in which they were written. -/
theorem readArchive_eq (zfp : Params) {buffers : List Data}
    (hlen : buffers.length = entries.length) {r : Bitstream T} {o : ℕ}
    (hreads : Reads (memBit r.mem) o (archiveCode T ops o entries)) :
    ∃ xs, readArchive env ops zfp (streamRseek r o) buffers =
        some (xs, streamRseek r (o + (archiveCode T ops o entries).length)) ∧
      xs.map Extracted.size = archiveSizes T ops o entries ∧
      List.Forall₂ (fun p x => Delivered env ops p.1 p.2 x) (entries.zip buffers) xs := by
  induction entries generalizing zfp buffers o with
  | nil =>
    rw [List.length_nil, List.length_eq_zero_iff] at hlen
    subst hlen
    exact ⟨[], rfl, rfl, .nil⟩
  | cons e entries ih =>
    obtain ⟨hfirst, hrest⟩ := List.forall_mem_cons.mp h
    cases buffers with
    | nil => exact absurd hlen (Nat.succ_ne_zero _).symm
    | cons buffer buffers =>
      rw [archiveCode, reads_append, reads_append, List.length_append, List.length_replicate,
        ← Nat.add_assoc, add_flushCount] at hreads
      obtain ⟨⟨hentry, -⟩, hothers⟩ := hreads
      obtain ⟨x, hread, hsize, hdelivered⟩ := readEntry_eq env ops hfirst zfp buffer hentry
      obtain ⟨xs, hreads, hsizes, hall⟩ := ih hrest x.zfp (Nat.succ.inj hlen) hothers
      refine ⟨x :: xs, ?_, ?_, .cons hdelivered hall⟩
      · rw [readArchive, hread, Option.bind_some, hreads, Option.map_some, archiveCode,
          List.length_append, List.length_append, List.length_replicate, ← Nat.add_assoc,
          ← Nat.add_assoc, add_flushCount]
      · rw [List.map_cons, hsizes, hsize, archiveSizes]

end

/-- What is written to an archive is read from it: each entry is delivered as from a stream of its
own, with the size that was returned when it was written, whatever stands before and behind the
archive, and the reader stops where the writer did. -/
theorem archive_round_trip (env : Env T) (ops : Floats) {entries : List Entry}
    (h : ∀ e ∈ entries, Storable e) {buffers : List Data} (hlen : buffers.length = entries.length)
    (zfp : Params) (data : ℕ) {s : Bitstream T} (hs : s.WF) (rest : List Bool) :
    ∃ sizes w, writeArchive env ops data s entries = some (sizes, w) ∧
      let r := (streamFlush (w.append rest)).2
      ∃ xs, readArchive env ops zfp (streamRseek r (streamWtell s)) buffers =
          some (xs, streamRseek r (streamWtell w)) ∧
        xs.map Extracted.size = sizes ∧
        List.Forall₂ (fun p x => Delivered env ops p.1 p.2 x) (entries.zip buffers) xs := by
  refine ⟨_, _, writeArchive_eq env ops h data hs, ?_⟩
  have hbits := reads_flush hs (archiveCode T ops (streamWtell s) entries ++ rest)
  rw [append_append, reads_append] at hbits
  obtain ⟨xs, hread, hsizes, hall⟩ := readArchive_eq env ops h zfp hlen hbits.1
  rw [← streamWtell_append hs] at hread
  exact ⟨xs, hread, hsizes, hall⟩

/-- A plane without loss, then a line of long integers with loss. -/
theorem archive_round_trip_two :
    let e : Entry := ⟨zfpStreamSetReversible, ⟨some .int32, 5, 3, 0, 0, 0, -7, 0, 0⟩,
      fun S x => BitVec.ofInt S.width (1000 * x)⟩
    let e' : Entry := ⟨zfpStreamSetPrecision 16, ⟨some .int64, 9, 0, 0, 0, 0, 0, 0, 0⟩,
      fun S x => BitVec.ofInt S.width (x * x)⟩
    let buffer : Data := fun _ _ => 0
    let s := streamOpen (T := .uint32) fun _ => 0
    ∃ sizes w xs r, writeArchive (serialBuild .uint32) unusedFloats 0 s [e, e'] = some (sizes, w) ∧
      readArchive (serialBuild .uint32) unusedFloats zfpStreamSetReversible
        (streamRseek (streamFlush (w.append [])).2 (streamWtell s))
        [buffer, buffer] = some (xs, r) ∧
      xs.map Extracted.size = sizes ∧ ∃ x ∈ xs, x.mem .int32 8 = BitVec.ofInt 32 (-4000) := by
  intro e e' buffer s
  have h : Storable e := ⟨⟨by decide, by decide, by decide, by decide⟩, by decide +kernel,
    by decide, by decide, by decide, by decide, by decide⟩
  have h' : Storable e' := ⟨⟨by decide, by decide, by decide, by decide⟩, by decide +kernel,
    by decide, by decide, by decide, by decide, by decide⟩
  obtain ⟨sizes, w, hwrite, xs, hread, hsizes, hall⟩ := archive_round_trip (serialBuild .uint32)
    unusedFloats (List.forall_mem_cons.mpr ⟨h, List.forall_mem_singleton.mpr h'⟩)
    (rfl : [buffer, buffer].length = 2) zfpStreamSetReversible 0 (streamOpen_wf fun _ => 0)
    []
  refine ⟨sizes, w, xs, _, hwrite, hread, hsizes, ?_⟩
  have hc : ∀ a < 2, (if a = 0 then 3 else 1) < e.field.size a := by decide
  cases hall with
  | cons hfirst _ => exact ⟨_, List.mem_cons_self, hfirst.lossless rfl .int32 rfl _ hc⟩

end Zfp

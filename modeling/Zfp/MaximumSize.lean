import Zfp.Chunks
import Zfp.FieldCode
import Zfp.Header

/-!
# The size of a compressed field with its header

Callers allocate `zfp_stream_maximum_size` bytes, and the stream never checks its end. A header and
the code of a field fit into these bytes, but the last rounding must not wrap.
-/

namespace Zfp
open BitLists Bitstream

variable {T : WordType} {S : Scalar} {d : ℕ}

/-! ## Headers -/

theorem length_headerCode_le (zfp : Params) (field : Field) (mask : ℕ) :
    (headerCode zfp field mask).length ≤ ZFP_HEADER_MAX_BITS := by
  have hmagic := length_magicCode
  have hmode : (modeCode zfp).length ≤ ZFP_MODE_LONG_BITS := by
    rw [length_modeCode]
    split <;> decide
  rw [headerCode, List.length_append, List.length_append]
  have hfirst : (if mask &&& ZFP_HEADER_MAGIC ≠ 0 then magicCode else []).length ≤
      ZFP_MAGIC_BITS := by
    split
    · exact hmagic.le
    · exact Nat.zero_le _
  have hmeta : (if mask &&& ZFP_HEADER_META ≠ 0 then lowBits (zfpFieldMetadata field) ZFP_META_BITS
      else []).length ≤ ZFP_META_BITS := by
    split
    · exact (length_lowBits _ _).le
    · exact Nat.zero_le _
  have hlast : (if mask &&& ZFP_HEADER_MODE ≠ 0 then modeCode zfp else []).length ≤
      ZFP_MODE_LONG_BITS := by
    split
    · exact hmode
    · exact Nat.zero_le _
  have hsum : ZFP_MAGIC_BITS + ZFP_META_BITS + ZFP_MODE_LONG_BITS = ZFP_HEADER_MAX_BITS := by decide
  omega

/-- A header appends at most the bits set aside for it. -/
theorem zfpWriteHeader_append (zfp : Params) (field : Field) (mask : ℕ) {s : Bitstream T}
    (hs : s.WF) : ∃ l : List Bool,
      l.length ≤ ZFP_HEADER_MAX_BITS ∧ (zfpWriteHeader zfp s field mask).2 = s.append l := by
  by_cases hnull : mask &&& ZFP_HEADER_META ≠ 0 ∧ zfpFieldMetadata field = ZFP_META_NULL
  · refine ⟨[], Nat.zero_le _, ?_⟩
    rw [zfpWriteHeader, if_pos ⟨hnull.1, by rw [if_pos hnull.1, hnull.2]⟩]
    rfl
  · refine ⟨_, length_headerCode_le zfp field mask, ?_⟩
    rw [zfpWriteHeader_eq zfp hs fun hon heq => hnull ⟨hon, heq⟩]

/-! ## Fields -/

theorem blocksAlong_eq {n : ℕ} (h : n ≤ 2 ^ 64 - 4) : blocksAlong n = (n + 3) / 4 := by
  rw [blocksAlong, Nat.mod_eq_of_lt (by omega)]

/-- The number of blocks is taken modulo the word size. -/
theorem zfpFieldBlocks_eq {field : Field} (hdims : zfpFieldDimensionality field ≠ 0)
    (h : ∀ a < zfpFieldDimensionality field, field.size a ≤ 2 ^ 64 - 4) :
    zfpFieldBlocks field = blocksOf field.size (zfpFieldDimensionality field) % 2 ^ 64 := by
  have hle := zfpFieldDimensionality_le field
  rw [zfpFieldBlocks]
  generalize zfpFieldDimensionality field = d at hdims h hle
  have halong : ∀ a < d, blocksAlong (field.size a) = (field.size a + 3) / 4 :=
    fun a ha => blocksAlong_eq (h a ha)
  interval_cases d
  · exact absurd rfl hdims
  · rw [blocksOf, blocksOf, Nat.one_mul, ← halong 0 (by decide)]
    exact (Nat.mod_eq_of_lt (blocksAlong_lt _)).symm
  · simp only [blocksOf, Nat.one_mul]
    rw [← halong 0 (by decide), ← halong 1 (by decide)]
    rfl
  · simp only [blocksOf, Nat.one_mul]
    rw [← halong 0 (by decide), ← halong 1 (by decide), ← halong 2 (by decide)]
    rfl
  · simp only [blocksOf, Nat.one_mul]
    rw [← halong 0 (by decide), ← halong 1 (by decide), ← halong 2 (by decide),
      ← halong 3 (by decide)]
    rfl

/-! ## Codes -/

section

variable (ops : FloatOps S (4 ^ d)) (zfp : Params)

/-- A budget of one bit is enough for a code not to be empty. -/
theorem blockCode_pos (hd : d ≤ 4) (hpos : 1 ≤ zfp.maxbits) (block : ℕ → BitVec S.width) :
    1 ≤ (blockCode ops zfp block).length := by
  have hP : 0 < PBITS S := by cases S <;> decide
  rw [blockCode]
  cases hS : S.isFloat <;> cases hmode : REVERSIBLE zfp
  · have hne := intsCode_ne_nil (fwdWords S d (fwdXform halfWord d block))
      (show 0 < S.width by cases S <;> decide) zfp.maxprec_pos (block_size_le hd).1
    have hlen := List.length_pos_of_ne_nil hne
    simp only [Bool.false_eq_true, if_false]
    rw [intBlockCode, length_padded, List.length_take]
    omega
  · have hlen := length_revIntBlockCode (d := d) zfp.minbits zfp.maxbits zfp.maxprec block
    simp only [Bool.false_eq_true, if_false, if_true]
    omega
  · simp only [Bool.false_eq_true, if_false, if_true]
    rw [floatBlockCode]
    split
    · rw [List.length_append, length_lowBits]
      omega
    · rw [length_padded, List.length_singleton]
      omega
  · simp only [if_true]
    cases hz : isZeroBlock ops block
    · have hhead := length_revHeader ops block
      rw [revFloatBlockCode_of_ne_zero ops zfp hz, List.length_append]
      omega
    · rw [revFloatBlockCode_of_zero ops zfp hz, List.length_singleton]

theorem min_one_le_blockCode (hd : d ≤ 4) (block : ℕ → BitVec S.width) :
    min 1 zfp.maxbits ≤ (blockCode ops zfp block).length := by
  rcases Nat.eq_zero_or_pos zfp.maxbits with h | h
  · omega
  · exact (min_le_left _ _).trans (blockCode_pos ops zfp hd h block)

/-- The code of a field has at least one bit for each block, and at most the bits set aside. -/
theorem length_cornersCode (mem : ℤ → BitVec S.width) (n : ℕ → ℕ) (stride : ℕ → ℤ) {lo hi : ℕ}
    (h : ∀ block : ℕ → BitVec S.width,
      lo ≤ (blockCode ops zfp block).length ∧ (blockCode ops zfp block).length ≤ hi)
    (l : List (ℕ → ℕ)) :
    l.length * lo ≤ (cornersCode ops zfp mem n stride l).length ∧
      (cornersCode ops zfp mem n stride l).length ≤ l.length * hi := by
  induction l with
  | nil => exact ⟨by simp, by simp [cornersCode]⟩
  | cons o l ih =>
    obtain ⟨hlo, hhi⟩ := h (compressBlock d mem n stride o)
    rw [cornersCode] at ih ⊢
    rw [List.flatMap_cons, List.length_append, List.length_cons, Nat.add_mul, Nat.add_mul,
      Nat.one_mul, Nat.one_mul]
    omega

end

/-! ## Rounding -/

theorem roundUp_wrap {size unit : ℕ} (hsize : size < 2 ^ 64) (hle : unit ≤ 2 ^ 64)
    (h : 2 ^ 64 < size + unit) : roundUp size unit = 0 := by
  rw [roundUp, show size + unit - 1 = size + unit - 1 - 2 ^ 64 + 2 ^ 64 by omega, Nat.add_mod_right,
    Nat.mod_eq_of_lt (show size + unit - 1 - 2 ^ 64 < 2 ^ 64 by omega),
    Nat.mod_eq_of_lt (show size + unit - 1 - 2 ^ 64 < unit by omega), Nat.sub_self]

/-- The rounded size covers the words of all smaller sizes, unless it wraps. -/
theorem wordBytes_le_roundUp {o size : ℕ} (hle : o ≤ size) (hfit : size + wsize T ≤ 2 ^ 64) :
    wordBytes T o ≤ roundUp size (wsize T) / 8 := by
  have hpos := wsize_pos T
  rw [roundUp_eq hpos hfit, Nat.mul_div_assoc _ (eight_dvd_wsize T), wordBytes]
  exact Nat.mul_le_mul_right _ (Nat.div_le_div_right (by omega))

/-! ## The bound -/

section

variable (env : Env T) (ops : Floats) {zfp : Params} {field : Field} (htype : field.type = some S)
  (hdims : zfpFieldDimensionality field ≠ 0)
  (hside : sideBits S (REVERSIBLE zfp) ≤ zfp.maxbits)
  (hfit : ZFP_HEADER_MAX_BITS + blocksOf field.size (zfpFieldDimensionality field) *
    blockMaxbits S (zfpFieldDimensionality field) zfp < 2 ^ 64)

include htype hdims in
theorem maximumSize_eq (hsize : ∀ a < zfpFieldDimensionality field, field.size a ≤ 2 ^ 64 - 4)
    (hfit : ZFP_HEADER_MAX_BITS + blocksOf field.size (zfpFieldDimensionality field) *
      blockMaxbits S (zfpFieldDimensionality field) zfp < 2 ^ 64) :
    zfpStreamMaximumSize T zfp field =
      roundUp (ZFP_HEADER_MAX_BITS + blocksOf field.size (zfpFieldDimensionality field) *
        blockMaxbits S (zfpFieldDimensionality field) zfp) (wsize T) / 8 := by
  rw [zfpStreamMaximumSize_eq htype rfl (Nat.pos_of_ne_zero hdims), maximumBytes,
    zfpFieldBlocks_eq hdims hsize, ← Nat.add_mod_mod, Nat.mod_mul_mod, Nat.add_mod_mod,
    Nat.mod_eq_of_lt hfit]

/-- A header and the code of a field stay within the maximum size. -/
def WithinMaximum (env : Env T) (ops : Floats) (zfp : Params) (mem : Data) (field : Field)
    (mask data : ℕ) (s : Bitstream T) : Prop :=
  ∃ ret r, zfpCompress env ops .serial zfp mem field
      ⟨data, (zfpWriteHeader zfp (streamRewind s) field mask).2⟩ = some (ret, r) ∧
    streamSize r.stream ≤ zfpStreamMaximumSize T zfp field

include htype hdims hside hfit in
theorem withinMaximum_iff (mem : Data) (mask data : ℕ) (s : Bitstream T) :
    WithinMaximum env ops zfp mem field mask data s ↔
      SerialReturns field ∧ ZFP_HEADER_MAX_BITS +
        blocksOf field.size (zfpFieldDimensionality field) *
          blockMaxbits S (zfpFieldDimensionality field) zfp + wsize T ≤ 2 ^ 64 := by
  have hd := zfpFieldDimensionality_le field
  have hwf := WF.rewind s
  obtain ⟨l, hl, hheader⟩ := zfpWriteHeader_append zfp field mask hwf
  rw [WithinMaximum, hheader]
  by_cases hreturns : SerialReturns field
  · have hlen := length_cornersCode (ops S (zfpFieldDimensionality field)) zfp (mem S) field.size
      (zfpFieldStride field) (fun block => ⟨min_one_le_blockCode _ zfp hd block,
        length_blockCode_bound _ zfp hside block⟩)
      (corners field.size (zfpFieldDimensionality field))
    rw [length_corners, ← fieldCode] at hlen
    have hsize : streamSize (streamFlush ((streamRewind s).append l |>.append
        (fieldCode ops zfp mem field S))).2 =
          wordBytes T (l.length + (fieldCode ops zfp mem field S).length) := by
      rw [streamSize_flush ((hwf.append l).append _), streamWtell_append (hwf.append l),
        streamWtell_append hwf, streamWtell_rewind, Nat.zero_add]
    rw [zfpCompress_code htype hdims hreturns zfp mem (hwf.append l), maximumSize_eq htype hdims
      hreturns.1 hfit]
    generalize fieldCode ops zfp mem field S = code at hlen hsize ⊢
    generalize blocksOf field.size (zfpFieldDimensionality field) = blocks at hlen hfit ⊢
    have hbits := blockMaxbits_le S (zfpFieldDimensionality field) zfp
    generalize blockMaxbits S (zfpFieldDimensionality field) zfp = bits at hlen hfit hbits ⊢
    have hw : wsize T ≤ 64 := wsize_le T
    constructor
    · rintro ⟨ret, r, hr, hle⟩
      obtain ⟨-, rfl⟩ := Prod.mk.inj (Option.some.inj hr)
      refine ⟨hreturns, ?_⟩
      by_contra hwrap
      rw [roundUp_wrap hfit (by omega) (by omega), Nat.zero_div, hsize, Nat.le_zero,
        wordBytes_eq_zero] at hle
      -- no block has a bit, so nothing is set aside for the blocks
      have hzero : blocks * min 1 zfp.maxbits = 0 := by omega
      have hnone : blocks * bits = 0 := by
        rcases Nat.mul_eq_zero.mp hzero with hb | hb
        · rw [hb, Nat.zero_mul]
        · rw [show bits = 0 by omega, Nat.mul_zero]
      rw [hnone, ZFP_HEADER_MAX_BITS] at hwrap
      omega
    · rintro ⟨-, hround⟩
      refine ⟨_, _, rfl, ?_⟩
      rw [hsize]
      exact wordBytes_le_roundUp (by omega) hround
  · rw [zfpCompress_serial_eq htype hdims, if_neg hreturns]
    refine iff_of_false ?_ fun h => hreturns h.1
    rintro ⟨ret, r, hr, -⟩
    exact absurd hr.symm (Option.some_ne_none _)

end

/-- `zfp_stream_maximum_size` bounds a header and the code of a field exactly if the serial routine
returns and the last rounding does not wrap; no block exceeds its maximum size unless it is
padded. -/
theorem zfpStreamMaximumSize_bound (env : Env T) (ops : Floats) {zfp : Params} {field : Field}
    (htype : field.type = some S) (hdims : zfpFieldDimensionality field ≠ 0)
    (hside : sideBits S (REVERSIBLE zfp) ≤ zfp.maxbits)
    (hfit : ZFP_HEADER_MAX_BITS + blocksOf field.size (zfpFieldDimensionality field) *
      blockMaxbits S (zfpFieldDimensionality field) zfp < 2 ^ 64)
    (mem : Data) (mask data : ℕ) (s : Bitstream T) :
    (WithinMaximum env ops zfp mem field mask data s ∧
      ∀ (block : ℕ → BitVec S.width) (s : Bitstream T), s.WF →
        (zfpEncodeBlock (ops S (zfpFieldDimensionality field)) zfp s block).1 ≤
          max (zfpBlockMaximumSize field.type (zfpFieldDimensionality field) (REVERSIBLE zfp))
            zfp.minbits) ↔
      SerialReturns field ∧ ZFP_HEADER_MAX_BITS +
        blocksOf field.size (zfpFieldDimensionality field) *
          blockMaxbits S (zfpFieldDimensionality field) zfp + wsize T ≤ 2 ^ 64 := by
  have hblocks : ∀ (block : ℕ → BitVec S.width) (s : Bitstream T), s.WF →
      (zfpEncodeBlock (ops S (zfpFieldDimensionality field)) zfp s block).1 ≤
        max (zfpBlockMaximumSize field.type (zfpFieldDimensionality field) (REVERSIBLE zfp))
          zfp.minbits := by
    intro block s hs
    have hd := zfpFieldDimensionality_le field
    rw [zfpEncodeBlock_eq _ zfp hs hd, htype]
    exact (length_blockCode_full _ zfp block).trans
      (max_le_max_right _ (fullBits_le (Nat.pos_of_ne_zero hdims) hd S zfp))
  rw [← withinMaximum_iff env ops htype hdims hside hfit mem mask data s]
  exact ⟨fun h => h.1, fun h => ⟨h, hblocks⟩⟩

/-- A plane of doubles in the reversible mode. -/
theorem zfpStreamMaximumSize_bound_plane :
    WithinMaximum (serialBuild .uint8) unusedFloats zfpStreamSetReversible (fun _ _ => 1)
      ⟨some .double, 9, 2, 0, 0, 0, 0, 0, 0⟩ 0x7 0 ⟨0, 0, 0, fun _ => 0⟩ :=
  ((zfpStreamMaximumSize_bound (serialBuild .uint8) unusedFloats
    (rfl : (⟨some .double, 9, 2, 0, 0, 0, 0, 0, 0⟩ : Field).type = some .double) (by decide)
    (by decide) (by decide) _ 0x7 0 _).mpr ⟨by decide, by decide⟩).1

/-- A line of `2 ^ 32` integers is not compressed; and bits that fit in a word, but not with a word
more, are rounded up to zero. -/
theorem zfpStreamMaximumSize_overrun :
    let line : Field := ⟨some .int32, 2 ^ 32, 0, 0, 0, 0, 0, 0, 0⟩
    let plane : Field := ⟨some .int32, 2 ^ 60 - 12, 1, 0, 0, 0, 0, 0, 0⟩
    let fits := fun field d => ZFP_HEADER_MAX_BITS +
      blocksOf (Field.size field) d * blockMaxbits .int32 d rate16 < 2 ^ 64
    let within := fun field => WithinMaximum (serialBuild .uint64) unusedFloats rate16
      (fun _ _ => 1) field 0x7 0 ⟨0, 0, 0, fun _ => 0⟩
    fits line 1 ∧ ¬ within line ∧ fits plane 2 ∧ zfpStreamMaximumSize .uint64 rate16 plane = 0 ∧
      ¬ within plane := by
  intro line plane fits within
  have hline : fits line 1 := by decide
  have hplane : fits plane 2 := by decide
  refine ⟨hline, fun h => ?_, hplane, by decide, fun h => ?_⟩
  · have hreturns := ((withinMaximum_iff (S := .int32) (serialBuild .uint64) unusedFloats rfl
      (by decide) (by decide) hline _ _ _ _).mp h).1
    exact absurd hreturns (by decide)
  · have hround := ((withinMaximum_iff (S := .int32) (serialBuild .uint64) unusedFloats rfl
      (by decide) (by decide) hplane _ _ _ _).mp h).2
    exact absurd hround (by decide)

end Zfp

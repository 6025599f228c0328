import Mathlib.Algebra.Group.Nat.Defs
import Mathlib.Algebra.Order.BigOperators.Group.List
import Zfp.BlockSize
import Zfp.Parallel
import Zfp.SeekFrame

/-!
# Chunks of blocks

The number of chunks comes from the chunk size or the number of threads. The chunks are intervals of
block indices between rounded multiples of their mean length, and the buffer of a chunk is that of a
field whose length is rounded in another way.
-/

namespace Zfp
open BitLists Bitstream

/-- number of chunks to partition array into -/
def chunkCountOmp (chunkSize blocks threads : ℕ) : ℕ :=
  -- if no chunk size is specified, assign one chunk per thread
  let chunks := if chunkSize ≠ 0 then (blocks + chunkSize - 1) % 2 ^ 64 / chunkSize else threads
  -- each chunk must contain at least one block
  let chunks := min chunks blocks
  -- OpenMP 2.0 loop counters must be ints
  min chunks (2 ^ 31 - 1)

/-- The chunks are non-empty intervals, each begins where the one before ends, and every block is in
exactly one of them. -/
structure ChunksPartition (blocks chunks : ℕ) : Prop where
  first : chunkOffset blocks chunks 0 = 0
  last : chunkOffset blocks chunks chunks = blocks
  nonempty : ∀ c < chunks, chunkOffset blocks chunks c < chunkOffset blocks chunks (c + 1)
  cover : ∀ b < blocks, ∃! c, c < chunks ∧
    chunkOffset blocks chunks c ≤ b ∧ b < chunkOffset blocks chunks (c + 1)

/-! ## The partition -/

section

variable {blocks chunks : ℕ}

theorem chunkCountOmp_le (chunkSize blocks threads : ℕ) :
    chunkCountOmp chunkSize blocks threads ≤ blocks ∧
    chunkCountOmp chunkSize blocks threads < 2 ^ 31 := by
  rw [chunkCountOmp]
  omega

theorem chunkCountOmp_pos {chunkSize threads : ℕ} (hblocks : 0 < blocks) (hthreads : 0 < threads)
    (hfit : blocks + chunkSize ≤ 2 ^ 64) : 0 < chunkCountOmp chunkSize blocks threads := by
  have hcount : 0 < if chunkSize ≠ 0 then (blocks + chunkSize - 1) % 2 ^ 64 / chunkSize
      else threads := by
    split
    · rw [Nat.mod_eq_of_lt (by omega)]
      exact Nat.div_pos (by omega) (by omega)
    · exact hthreads
  rw [chunkCountOmp]
  omega

theorem chunkOffset_lt (hchunks : 0 < chunks) (hle : chunks ≤ blocks)
    (hfit : blocks * chunks < 2 ^ 64) {c : ℕ} (hc : c < chunks) :
    chunkOffset blocks chunks c < chunkOffset blocks chunks (c + 1) := by
  have hstep : (blocks * c + chunks) / chunks ≤ (blocks * c + blocks) / chunks :=
    Nat.div_le_div_right (Nat.add_le_add_left hle _)
  rw [Nat.add_div_right _ hchunks] at hstep
  have hend : blocks * (c + 1) < 2 ^ 64 := (Nat.mul_le_mul_left blocks hc).trans_lt hfit
  have hbegin : blocks * c < 2 ^ 64 := (Nat.mul_le_mul_left blocks hc.le).trans_lt hfit
  rw [chunkOffset_eq hbegin, chunkOffset_eq hend, Nat.mul_succ]
  exact hstep

/-- A value below the last of a sequence that begins with zero is in one of its steps. -/
theorem exists_step {f : ℕ → ℕ} (h0 : f 0 = 0) {n b : ℕ} (hb : b < f n) :
    ∃ c < n, f c ≤ b ∧ b < f (c + 1) := by
  induction n with
  | zero => omega
  | succ n ih =>
    rcases Nat.lt_or_ge b (f n) with hlt | hge
    · obtain ⟨c, hc, hstep⟩ := ih hlt
      exact ⟨c, by omega, hstep⟩
    · exact ⟨n, Nat.lt_succ_self n, hge, hb⟩

/-- The chunks are a partition exactly if the product in their offsets does not wrap. -/
theorem chunksPartition_iff (hchunks : 0 < chunks) (hle : chunks ≤ blocks) :
    ChunksPartition blocks chunks ↔ blocks * chunks < 2 ^ 64 := by
  constructor
  · intro h
    have hlast := h.last
    by_contra hwrap
    have hlt : blocks * chunks % 2 ^ 64 < blocks * chunks := by omega
    have hdiv : blocks * chunks % 2 ^ 64 / chunks < blocks := by
      rw [Nat.div_lt_iff_lt_mul hchunks]
      exact hlt
    rw [chunkOffset] at hlast
    omega
  · intro hfit
    have hmono : ∀ {a b}, a ≤ b → b ≤ chunks →
        chunkOffset blocks chunks a ≤ chunkOffset blocks chunks b := fun hab hb =>
      chunkOffset_mono hab ((Nat.mul_le_mul_left blocks hb).trans_lt hfit)
    refine ⟨chunkOffset_zero _ _, chunkOffset_chunks hchunks hfit,
      fun c hc => chunkOffset_lt hchunks hle hfit hc, fun b hb => ?_⟩
    rw [← chunkOffset_chunks hchunks hfit] at hb
    obtain ⟨c, hc, hstep⟩ := exists_step (chunkOffset_zero blocks chunks) hb
    refine ⟨c, ⟨hc, hstep⟩, ?_⟩
    rintro c' ⟨hc', hstep'⟩
    rcases Nat.lt_trichotomy c' c with hlt | heq | hgt
    · have hle := hmono (show c' + 1 ≤ c from hlt) hc.le
      omega
    · exact heq
    · have hle := hmono (show c + 1 ≤ c' from hgt) hc'.le
      omega

/-- No chunk has more blocks than the mean, rounded up. -/
theorem chunkOffset_sub_le (hchunks : 0 < chunks) (hfit : blocks * chunks < 2 ^ 64) {c : ℕ}
    (hc : c < chunks) :
    chunkOffset blocks chunks (c + 1) - chunkOffset blocks chunks c ≤
      (blocks + chunks - 1) / chunks := by
  have hceil : blocks ≤ chunks * ((blocks + chunks - 1) / chunks) := by
    have hlt := Nat.lt_mul_div_succ (blocks + chunks - 1) hchunks
    rw [Nat.mul_succ] at hlt
    omega
  have hend : blocks * (c + 1) < 2 ^ 64 := (Nat.mul_le_mul_left blocks hc).trans_lt hfit
  have hbegin : blocks * c < 2 ^ 64 := (Nat.mul_le_mul_left blocks hc.le).trans_lt hfit
  rw [chunkOffset_eq hbegin, chunkOffset_eq hend, Nat.mul_succ,
    Nat.sub_le_iff_le_add', ← Nat.add_mul_div_left _ _ hchunks]
  exact Nat.div_le_div_right (Nat.add_le_add_left hceil _)

/-- The field for a chunk has at least as many blocks as any chunk. -/
theorem le_blocksAlong_chunkLength (hchunks : 0 < chunks)
    (hsize : 4 * (blocks + chunks - 1) < 2 ^ 64) :
    (blocks + chunks - 1) / chunks ≤ blocksAlong (chunkLength blocks chunks) := by
  have hlen : 4 * ((blocks + chunks - 1) / chunks) ≤ chunkLength blocks chunks := by
    rw [chunkLength, Nat.mod_eq_of_lt hsize, Nat.le_div_iff_mul_le hchunks, Nat.mul_assoc]
    exact Nat.mul_le_mul_left 4 (Nat.div_mul_le_self _ _)
  have hlt : chunkLength blocks chunks + 3 < 2 ^ 64 := by
    have hle : chunkLength blocks chunks ≤ 4 * (blocks + chunks - 1) := by
      rw [chunkLength, Nat.mod_eq_of_lt hsize]
      exact Nat.div_le_self _ _
    omega
  rw [blocksAlong, Nat.mod_eq_of_lt hlt]
  omega

end

/-! ## The buffers -/

section

variable {T : WordType} {S : Scalar} {d : ℕ} {zfp : Params} {field : Field}

/-- Flushing ends in the word of the last bit. -/
theorem streamSize_flush_le {s : Bitstream T} (hs : s.WF) {e : ℕ}
    (he : streamWtell s ≤ e * wsize T) :
    streamSize (streamFlush s).2 ≤ e * (wsize T / 8) := by
  have htell := streamWtell_append hs (List.replicate (flushCount T (streamWtell s)) false)
  rw [List.length_replicate] at htell
  have hle := add_flushCount_le he
  rw [← htell] at hle
  have hptr := (hs.append (List.replicate (flushCount T (streamWtell s)) false)).wtell_div
  rw [streamFlush_append hs, streamSize, ← hptr]
  apply Nat.mul_le_mul_right
  exact Nat.div_le_of_le_mul (by rwa [Nat.mul_comm])

theorem roundUp_eq {size unit : ℕ} (hpos : 0 < unit) (h : size + unit ≤ 2 ^ 64) :
    roundUp size unit = (size + unit - 1) / unit * unit := by
  have hdiv := Nat.div_add_mod (size + unit - 1) unit
  rw [Nat.mul_comm] at hdiv
  rw [roundUp, Nat.mod_eq_of_lt (by omega)]
  omega

theorem blocksAlong_lt (n : ℕ) : blocksAlong n < 2 ^ 64 := by
  rw [blocksAlong]
  omega

/-- The field for a chunk has the dimensions of the field, and its blocks lie in a row. -/
theorem chunkField_eq (hpos : 0 < zfpFieldDimensionality field)
    {n : ℕ} (hn : 0 < n) :
    ∃ f, chunkField field n = some f ∧ f.type = field.type ∧
      zfpFieldDimensionality f = zfpFieldDimensionality field ∧
      zfpFieldBlocks f = blocksAlong n := by
  have hone : blocksAlong 4 = 1 := by decide
  have hlt : blocksAlong n < 18446744073709551616 := blocksAlong_lt n
  have hn' := hn.ne'
  by_cases hx : field.nx = 0
  · simp [zfpFieldDimensionality, hx] at hpos
  by_cases hy : field.ny = 0
  · have hd : zfpFieldDimensionality field = 1 := by simp [zfpFieldDimensionality, hx, hy]
    rw [chunkField, hd]
    exact ⟨_, rfl, rfl, by simp [zfpFieldDimensionality, hy, hn'],
      by simp [zfpFieldBlocks, zfpFieldDimensionality, hy, hn']⟩
  by_cases hz : field.nz = 0
  · have hd : zfpFieldDimensionality field = 2 := by simp [zfpFieldDimensionality, hx, hy, hz]
    rw [chunkField, hd]
    exact ⟨_, rfl, rfl, by simp [zfpFieldDimensionality, hz, hn'],
      by simp [zfpFieldBlocks, zfpFieldDimensionality, hz, hn', hone, hlt]⟩
  by_cases hw : field.nw = 0
  · have hd : zfpFieldDimensionality field = 3 := by simp [zfpFieldDimensionality, hx, hy, hz, hw]
    rw [chunkField, hd]
    exact ⟨_, rfl, rfl, by simp [zfpFieldDimensionality, hw, hn'],
      by simp [zfpFieldBlocks, zfpFieldDimensionality, hw, hn', hone, hlt]⟩
  · have hd : zfpFieldDimensionality field = 4 := by simp [zfpFieldDimensionality, hx, hy, hz, hw]
    rw [chunkField, hd]
    exact ⟨_, rfl, rfl, by simp [zfpFieldDimensionality, hn'],
      by simp [zfpFieldBlocks, zfpFieldDimensionality, hn', hone, hlt]⟩

/-- The bytes for a number of blocks of the largest size, the header included. -/
def maximumBytes (T : WordType) (S : Scalar) (d : ℕ) (zfp : Params) (blocks : ℕ) : ℕ :=
  roundUp ((ZFP_HEADER_MAX_BITS + blocks * blockMaxbits S d zfp) % 2 ^ 64) (wsize T) / 8

theorem zfpStreamMaximumSize_eq (htype : field.type = some S)
    (hd : zfpFieldDimensionality field = d) (hpos : 0 < d) :
    zfpStreamMaximumSize T zfp field = maximumBytes T S d zfp (zfpFieldBlocks field) := by
  have hprec : zfpFieldPrecision field = S.width := by
    rw [zfpFieldPrecision, htype]
    cases S <;> rfl
  have hvalues : 1 <<< (2 * d) = 4 ^ d := by rw [Nat.one_shiftLeft, Nat.pow_mul]
  simp only [zfpStreamMaximumSize, htype, hd, hprec, hvalues, if_neg hpos.ne', maximumBytes,
    blockMaxbits, fullBits]

theorem chunkLength_pos {chunks blocks : ℕ} (hchunks : 0 < chunks) (hblocks : 0 < blocks)
    (hsize : 4 * (blocks + chunks - 1) < 2 ^ 64) : 0 < chunkLength blocks chunks := by
  rw [chunkLength, Nat.mod_eq_of_lt hsize]
  exact Nat.div_pos (by omega) hchunks

theorem chunkBufferSize_eq (htype : field.type = some S) (hd : zfpFieldDimensionality field = d)
    (hpos : 0 < d) {chunks blocks : ℕ} (hn : 0 < chunkLength blocks chunks) :
    chunkBufferSize T zfp field chunks blocks =
      some (maximumBytes T S d zfp (blocksAlong (chunkLength blocks chunks))) := by
  have hfield : 0 < zfpFieldDimensionality field := by omega
  obtain ⟨f, hf, hftype, hfd, hblocks⟩ := chunkField_eq hfield hn
  rw [chunkBufferSize, hf, Option.map_some,
    zfpStreamMaximumSize_eq (hftype.trans htype) (hfd.trans hd) hpos, hblocks]

theorem length_codes_le (ops : FloatOps S (4 ^ d)) (block : ℕ → ℕ → BitVec S.width) {blocks B : ℕ}
    (hB : ∀ b < blocks, (blockCode ops zfp (block b)).length ≤ B) (bmin : ℕ) {bmax : ℕ}
    (hmax : bmax ≤ blocks) : (codes ops zfp block bmin bmax).length ≤ (bmax - bmin) * B := by
  rw [codes, List.length_flatMap]
  have hle := List.sum_le_card_nsmul ((List.range' bmin (bmax - bmin)).map fun b =>
    (blockCode ops zfp (block b)).length) B ?_
  · rwa [List.length_map, List.length_range', Nat.nsmul_eq_mul] at hle
  · intro n hn
    obtain ⟨b, hb, rfl⟩ := List.mem_map.mp hn
    have hrange := List.mem_range'_1.mp hb
    exact hB b (by omega)

/-- The buffer of a chunk holds its flushed stream. -/
theorem streamSize_chunk_le (ops : FloatOps S (4 ^ d)) (block : ℕ → ℕ → BitVec S.width)
    {blocks chunks : ℕ} (hd : d ≤ 4) (hchunks : 0 < chunks) (hfit : blocks * chunks < 2 ^ 64)
    (hsize : 4 * (blocks + chunks - 1) < 2 ^ 64)
    (hbits : ZFP_HEADER_MAX_BITS + blocksAlong (chunkLength blocks chunks) * blockMaxbits S d zfp +
      wsize T ≤ 2 ^ 64)
    (hB : ∀ b < blocks, (blockCode ops zfp (block b)).length ≤ blockMaxbits S d zfp)
    (mem : ℕ → BitVec (wsize T)) {c : ℕ} (hc : c < chunks) :
    streamSize (streamFlush (compressBlocks ops zfp block (streamOpen mem)
      (chunkOffset blocks chunks c) (chunkOffset blocks chunks (c + 1)))).2 ≤
        maximumBytes T S d zfp (blocksAlong (chunkLength blocks chunks)) := by
  have hwf := streamOpen_wf mem
  have hlast : chunkOffset blocks chunks (c + 1) ≤ chunkOffset blocks chunks chunks :=
    chunkOffset_mono hc hfit
  rw [chunkOffset_chunks hchunks hfit] at hlast
  have hlen := length_codes_le ops block hB (chunkOffset blocks chunks c) hlast
  have hcount := (chunkOffset_sub_le hchunks hfit hc).trans
    (le_blocksAlong_chunkLength hchunks hsize)
  have hle := hlen.trans (Nat.mul_le_mul_right _ hcount)
  have hpos := wsize_pos T
  rw [maximumBytes, Nat.mod_eq_of_lt (by omega), roundUp_eq hpos hbits,
    Nat.mul_div_assoc _ (eight_dvd_wsize T), compressBlocks_eq ops zfp block hwf hd]
  apply streamSize_flush_le (hwf.append _)
  rw [streamWtell_append hwf, streamWtell_open, Nat.zero_add]
  have hceil := Nat.lt_mul_div_succ (ZFP_HEADER_MAX_BITS +
    blocksAlong (chunkLength blocks chunks) * blockMaxbits S d zfp + wsize T - 1) hpos
  rw [Nat.mul_succ, Nat.mul_comm (wsize T)] at hceil
  omega

end

/-- The buffer for a chunk holds the flushed stream of every chunk. -/
def BuffersSuffice (T : WordType) {S : Scalar} {d : ℕ} (ops : FloatOps S (4 ^ d)) (zfp : Params)
    (field : Field) (block : ℕ → ℕ → BitVec S.width) (blocks chunks : ℕ) : Prop :=
  ∃ size, chunkBufferSize T zfp field chunks blocks = some size ∧
    ∀ c < chunks, ∀ mem : ℕ → BitVec (wsize T),
      streamSize (streamFlush (compressBlocks ops zfp block (streamOpen mem)
        (chunkOffset blocks chunks c) (chunkOffset blocks chunks (c + 1)))).2 ≤ size

/-- The chunks are a partition of the blocks exactly if the product in their offsets does not wrap,
and then the buffers suffice unless their size wraps. -/
theorem chunks_suffice (chunkSize threads blocks : ℕ) (hthreads : 0 < threads)
    (hblocks : 0 < blocks) (hcount : blocks + chunkSize ≤ 2 ^ 64) :
    let chunks := chunkCountOmp chunkSize blocks threads
    (ChunksPartition blocks chunks ↔ blocks * chunks < 2 ^ 64) ∧
    ∀ (T : WordType) (S : Scalar) (d : ℕ) (ops : FloatOps S (4 ^ d)) (zfp : Params) (field : Field)
      (block : ℕ → ℕ → BitVec S.width), field.type = some S → zfpFieldDimensionality field = d →
      0 < d → (∀ b < blocks, (blockCode ops zfp (block b)).length ≤ blockMaxbits S d zfp) →
      blocks * chunks < 2 ^ 64 → 4 * (blocks + chunks - 1) < 2 ^ 64 →
      ZFP_HEADER_MAX_BITS + blocksAlong (chunkLength blocks chunks) * blockMaxbits S d zfp +
        wsize T ≤ 2 ^ 64 →
      BuffersSuffice T ops zfp field block blocks chunks := by
  intro chunks
  have hchunks : 0 < chunks := chunkCountOmp_pos hblocks hthreads hcount
  have hle : chunks ≤ blocks := (chunkCountOmp_le chunkSize blocks threads).1
  refine ⟨chunksPartition_iff hchunks hle, ?_⟩
  intro T S d ops zfp field block htype hd hpos hB hfit hsize hbits
  have hd' : d ≤ 4 := by
    rw [← hd, zfpFieldDimensionality]
    split_ifs <;> decide
  refine ⟨_, chunkBufferSize_eq htype hd hpos (chunkLength_pos hchunks hblocks hsize), ?_⟩
  intro c hc mem
  exact streamSize_chunk_le ops block hd' hchunks hfit hsize hbits hB mem hc

theorem rate16_le : 64 ≤ 64 := Nat.le_refl 64

theorem rate16_lt : 64 < 2 ^ 32 := by decide

def rate16 : Params :=
  { zfpStreamSetReversible with
    minbits := 64
    maxbits := 64
    minexp := -1074
    minbits_le := rate16_le
    maxbits_lt := rate16_lt }

theorem rate16_ones : (blockCode onesOps rate16 ones).length = 64 :=
  length_blockCode_of_fixed onesOps rate16 rfl (by decide) fun h => absurd h.2.1 (by decide)

/-- Four threads compress ten blocks of ones. -/
theorem chunks_suffice_ten :
    ChunksPartition 10 4 ∧ BuffersSuffice .uint64 onesOps rate16
      ⟨some .float, 40, 0, 0, 0, 0, 0, 0, 0⟩ (fun _ => ones) 10 4 :=
  ⟨(chunks_suffice 0 4 10 (by decide) (by decide) (by decide)).1.mpr (by decide),
    (chunks_suffice 0 4 10 (by decide) (by decide) (by decide)).2 .uint64 .float 1 onesOps rate16
      ⟨some .float, 40, 0, 0, 0, 0, 0, 0, 0⟩ (fun _ => ones) rfl rfl (by decide)
      (fun _ _ => rate16_ones.le) (by decide) (by decide) (by decide)⟩

theorem le_streamSize_flush {T : WordType} {s : Bitstream T} (hs : s.WF) :
    streamWtell s ≤ 8 * streamSize (streamFlush s).2 := by
  have htell := streamWtell_append hs (List.replicate (flushCount T (streamWtell s)) false)
  rw [List.length_replicate] at htell
  have halign := flushCount_mod T (streamWtell s)
  rw [← htell] at halign
  rw [streamFlush_append hs, eight_mul_streamSize (hs.append _) halign, htell]
  exact Nat.le_add_right _ _

/-- Chunks of one block wrap their offsets, and a chunk of all blocks the size of its buffer. -/
theorem chunks_wrap :
    (¬ ∀ chunkSize threads blocks : ℕ, chunkSize < 2 ^ 32 → 0 < threads → 0 < blocks →
      blocks < 2 ^ 64 → ChunksPartition blocks (chunkCountOmp chunkSize blocks threads)) ∧
    chunkCountOmp 0 (2 ^ 62) 1 = 1 ∧ ChunksPartition (2 ^ 62) 1 ∧
    (∀ b < 2 ^ 62, (blockCode onesOps rate16 ((fun _ => ones) b)).length ≤
      blockMaxbits .float 1 rate16) ∧
    ¬ BuffersSuffice .uint64 onesOps rate16 ⟨some .float, 2 ^ 64 - 1, 0, 0, 0, 0, 0, 0, 0⟩
      (fun _ => ones) (2 ^ 62) 1 := by
  refine ⟨fun h => ?_, by decide, (chunksPartition_iff (by decide) (by decide)).mpr (by decide),
    fun b hb => rate16_ones.le, ?_⟩
  · have hpartition := h 1 1 (2 ^ 34) (by decide) (by decide) (by decide) (by decide)
    have hcount : chunkCountOmp 1 (2 ^ 34) 1 = 2 ^ 31 - 1 := by decide
    rw [hcount, chunksPartition_iff (by decide) (by decide)] at hpartition
    exact absurd hpartition (by decide)
  · rintro ⟨size, hsize, hbuffer⟩
    have hzero : size = 0 := Option.some.inj (hsize.symm.trans (by decide))
    have hle := hbuffer 0 (by decide) fun _ => 0
    have htell := le_streamSize_flush ((streamOpen_wf (T := .uint64) fun _ => 0).append
      (codes onesOps rate16 (fun _ => ones) 0 (2 ^ 62)))
    rw [streamWtell_append (streamOpen_wf _), ← compressBlocks_eq onesOps rate16 _ (streamOpen_wf _)
      (by decide), length_codes_of_full onesOps rate16 (fun _ => ones) fun b _ => rate16_ones]
      at htell
    have hfirst : chunkOffset (2 ^ 62) 1 0 = 0 := by decide
    have hlast : chunkOffset (2 ^ 62) 1 (0 + 1) = 2 ^ 62 := by decide
    have hmax : rate16.maxbits = 64 := rfl
    rw [hfirst, hlast, hzero] at hle
    omega

end Zfp

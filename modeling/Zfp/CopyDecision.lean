import Mathlib.Algebra.BigOperators.Ring.List
import Zfp.Chunks

/-!
# The decision to copy

The final routine recognises private buffers by the address of the first one. Streams that write in
place pass for private buffers unless the destination is at its beginning, and they leave no gaps
only if every block is padded to the rate and no chunk offset wraps.
-/

namespace Zfp

variable {T : WordType} {S : Scalar} {d : ℕ}

/-! ## Offsets that wrap -/

section

variable {blocks chunks : ℕ}

theorem chunkOffset_le {c : ℕ} (hc : c ≤ chunks) : chunkOffset blocks chunks c ≤ blocks := by
  have hmul : blocks * c % 2 ^ 64 ≤ chunks * blocks := by
    rw [Nat.mul_comm chunks]
    exact (Nat.mod_le _ _).trans (Nat.mul_le_mul_left blocks hc)
  exact Nat.div_le_of_le_mul hmul

/-- The chunk in which an offset wraps is empty, and its blocks are not made up for by the chunks
behind it. -/
theorem mul_sum_chunks_le (hblocks : blocks < 2 ^ 64) (hchunks : 0 < chunks) (n : ℕ) :
    chunks * ((List.range n).map fun c =>
        chunkOffset blocks chunks (c + 1) - chunkOffset blocks chunks c).sum ≤
      chunks * chunkOffset blocks chunks n +
        blocks * n / 2 ^ 64 * (2 ^ 64 - blocks + chunks) := by
  induction n with
  | zero => exact Nat.zero_le _
  | succ n ih =>
    have hlo := Nat.mul_div_le (blocks * n % 2 ^ 64) chunks
    have hhi := Nat.lt_mul_div_succ (blocks * (n + 1) % 2 ^ 64) hchunks
    rw [Nat.mul_succ chunks] at hhi
    rw [List.range_succ, List.map_append, List.sum_append, List.map_singleton, List.sum_singleton,
      Nat.mul_add, Nat.mul_sub]
    simp only [chunkOffset] at ih hlo hhi ⊢
    rcases Nat.lt_or_ge (blocks * n % 2 ^ 64 + blocks) (2 ^ 64) with hlt | hge
    · have hcount : blocks * (n + 1) / 2 ^ 64 = blocks * n / 2 ^ 64 := by
        rw [Nat.mul_succ]
        omega
      have hmono : blocks * n % 2 ^ 64 ≤ blocks * (n + 1) % 2 ^ 64 := by
        rw [Nat.mul_succ]
        omega
      have hdiv := Nat.mul_le_mul_left chunks (Nat.div_le_div_right (c := chunks) hmono)
      rw [hcount]
      omega
    · have hcount : blocks * (n + 1) / 2 ^ 64 = blocks * n / 2 ^ 64 + 1 := by
        rw [Nat.mul_succ]
        omega
      have hwrap : blocks * n % 2 ^ 64 = blocks * (n + 1) % 2 ^ 64 + (2 ^ 64 - blocks) := by
        rw [Nat.mul_succ]
        omega
      have hdiv := Nat.mul_le_mul_left chunks (Nat.div_le_div_right (c := chunks)
        (show blocks * (n + 1) % 2 ^ 64 ≤ blocks * n % 2 ^ 64 by omega))
      rw [hcount, Nat.succ_mul]
      omega

/-- If an offset wraps, then the chunks hold too few blocks. -/
theorem sum_chunks_lt (hblocks : blocks < 2 ^ 64) (hint : chunks < 2 ^ 31)
    (hwrap : 2 ^ 64 ≤ blocks * chunks) :
    ((List.range chunks).map fun c =>
      chunkOffset blocks chunks (c + 1) - chunkOffset blocks chunks c).sum < blocks := by
  have hchunks : 0 < chunks := Nat.pos_of_ne_zero fun h => by simp [h] at hwrap
  have hfew : chunks < blocks := by
    by_contra hge
    have hle := Nat.mul_le_mul (show blocks ≤ 2 ^ 31 by omega) hint.le
    omega
  have hsum := mul_sum_chunks_le hblocks hchunks chunks
  have hlast := Nat.mul_div_le (blocks * chunks % 2 ^ 64) chunks
  have hcount : 1 ≤ blocks * chunks / 2 ^ 64 := by omega
  have hlost : blocks * chunks / 2 ^ 64 * (2 ^ 64 - blocks + chunks) +
      blocks * chunks / 2 ^ 64 * (blocks - chunks) = 2 ^ 64 * (blocks * chunks / 2 ^ 64) := by
    rw [← Nat.mul_add, show 2 ^ 64 - blocks + chunks + (blocks - chunks) = 2 ^ 64 by omega,
      Nat.mul_comm]
  have hsome := Nat.mul_le_mul hcount (Nat.sub_pos_of_lt hfew)
  have hmod := Nat.div_add_mod (blocks * chunks) (2 ^ 64)
  rw [chunkOffset] at hsum
  rw [← Nat.mul_lt_mul_left hchunks, Nat.mul_comm chunks blocks]
  omega

end

/-! ## Blocks in place -/

section

variable (ops : FloatOps S (4 ^ d)) (zfp : Params) (block : ℕ → ℕ → BitVec S.width)

/-- What streams that write in place need: the destination is at its beginning, the side
information fits the rate, no chunk offset wraps, and every block before the last chunk is padded. -/
structure InPlace (dst : Handle T) (blocks chunks : ℕ) : Prop where
  begins : streamWtell dst.stream = 0
  side : sideBits S (REVERSIBLE zfp) ≤ zfp.maxbits
  fits : blocks * chunks < 2 ^ 64
  padded : ∀ b < chunkOffset blocks chunks (chunks - 1), ¬ unpadded ops zfp (block b)

variable {zfp} {dst : Handle T} {blocks chunks : ℕ}

theorem rate_of_copyChunks (h : copyChunks zfp dst.stream = false) : zfp.minbits = zfp.maxbits := by
  simp only [copyChunks, decide_eq_false_iff_not, not_or, not_not] at h
  exact h.1

/-- A block takes the rate exactly if it is padded. -/
theorem length_blockCode_eq_iff (hrate : zfp.minbits = zfp.maxbits)
    (hside : sideBits S (REVERSIBLE zfp) ≤ zfp.maxbits) (b : ℕ) :
    (blockCode ops zfp (block b)).length ≤ zfp.maxbits ∧
      ((blockCode ops zfp (block b)).length = zfp.maxbits ↔ ¬ unpadded ops zfp (block b)) := by
  by_cases hun : unpadded ops zfp (block b)
  · have hone := length_of_unpadded ops zfp hun
    have hmin := hun.2.2.2
    simp only [hone, hun, not_true_eq_false, iff_false]
    omega
  · have hlen := length_blockCode_of_fixed ops zfp hrate hside hun
    simp [hlen, hun]

theorem length_codes_of_range {a b n : ℕ} (h : ∀ i < b, (blockCode ops zfp (block i)).length = n) :
    (codes ops zfp block a b).length = (b - a) * n := by
  rcases Nat.le_total a b with hab | hba
  · have hall := congrArg List.length (codes_append ops zfp block (Nat.zero_le a) hab)
    rw [List.length_append, length_codes_of_full ops zfp block h,
      length_codes_of_full ops zfp block fun i hi => h i (by omega)] at hall
    rw [Nat.sub_mul]
    omega
  · rw [codes, Nat.sub_eq_zero_of_le hba, Nat.zero_mul]
    rfl

variable {memory : Memory T} {field : Field} {bs : List (Handle T)}

theorem copyConsistent_of_inPlace (hd : d ≤ 4) (hs : dst.stream.WF) (hchunks : 0 < chunks)
    (hint : chunks < 2 ^ 31) (h : compressInitPar memory zfp dst field chunks blocks = some bs)
    (hcopy : copyChunks zfp dst.stream = false) (hplace : InPlace ops zfp block dst blocks chunks) :
    CopyConsistent ops zfp block dst blocks chunks bs := by
  have hrate := rate_of_copyChunks hcopy
  have hfits := hplace.fits
  rw [copyConsistent_iff_of_inPlace ops block hd hs hchunks hint h hcopy]
  refine ⟨hplace.begins, fun c hc => length_codes_of_full ops zfp block fun b hb => ?_, ?_⟩
  · have hlast : blocks * (chunks - 1) < 2 ^ 64 :=
      (Nat.mul_le_mul_left blocks (Nat.sub_le chunks 1)).trans_lt hfits
    have hmono : chunkOffset blocks chunks c ≤ chunkOffset blocks chunks (chunks - 1) :=
      chunkOffset_mono (by omega) hlast
    exact (length_blockCode_eq_iff ops block hrate hplace.side b).2.mpr
      (hplace.padded b (by omega))
  · rw [← List.length_flatMap, flatMap_codes_chunks ops zfp block hfits,
      chunkOffset_chunks hchunks hfits]

/-- The converse: a chunk behind an unpadded block starts too far, and where an offset wraps the
blocks that are lost are missing from the final position. -/
theorem inPlace_of_copyConsistent (hd : d ≤ 4) (hs : dst.stream.WF) (hchunks : 0 < chunks)
    (hint : chunks < 2 ^ 31) (h : compressInitPar memory zfp dst field chunks blocks = some bs)
    (hcopy : copyChunks zfp dst.stream = false)
    (hside : sideBits S (REVERSIBLE zfp) ≤ zfp.maxbits)
    (hwrap : blocks * chunks < 2 ^ 64 ∨
      blocks < 2 ^ 64 ∧ 0 < zfp.maxbits ∧ ∀ b < blocks, ¬ unpadded ops zfp (block b))
    (hcons : CopyConsistent ops zfp block dst blocks chunks bs) :
    InPlace ops zfp block dst blocks chunks := by
  have hrate := rate_of_copyChunks hcopy
  have hlen := length_blockCode_eq_iff ops block hrate hside
  rw [copyConsistent_iff_of_inPlace ops block hd hs hchunks hint h hcopy] at hcons
  obtain ⟨hbegin, hstart, hsum⟩ := hcons
  refine ⟨hbegin, hside, ?_, fun b hb => ?_⟩
  · rcases hwrap with hfits | ⟨hblocks, hpos, hpad⟩
    · exact hfits
    · by_contra hge
      have hfull : ∀ b < blocks, (blockCode ops zfp (block b)).length = zfp.maxbits :=
        fun b hb => (hlen b).2.mpr (hpad b hb)
      have hchunk : ((List.range chunks).map fun c => (codes ops zfp block
          (chunkOffset blocks chunks c) (chunkOffset blocks chunks (c + 1))).length) =
          (List.range chunks).map fun c =>
            (chunkOffset blocks chunks (c + 1) - chunkOffset blocks chunks c) * zfp.maxbits := by
        refine List.map_congr_left fun c hc => length_codes_of_range ops block fun i hi => ?_
        have hle : chunkOffset blocks chunks (c + 1) ≤ blocks :=
          chunkOffset_le (List.mem_range.mp hc)
        exact hfull i (by omega)
      rw [hchunk, List.sum_map_mul_right, length_codes_of_full ops zfp block hfull] at hsum
      have hlt := sum_chunks_lt hblocks hint (Nat.le_of_not_lt hge)
      exact absurd (Nat.eq_of_mul_eq_mul_right hpos hsum) hlt.ne
  · have hlast := hstart (chunks - 1) (by omega)
    exact (hlen b).2.mp ((length_codes_eq_iff ops zfp block fun b => (hlen b).1).2.mp hlast b hb)

/-- The decisions agree if copies are asked for or all blocks in place are padded, and only then as
long as the lengths of the blocks are bounded by the rate. -/
theorem copy_decision (hd : d ≤ 4) (hs : dst.stream.WF) (hchunks : 0 < chunks)
    (hint : chunks < 2 ^ 31) (hmalloc : ∀ c size, memory.malloc c size ≠ some dst.data)
    (h : compressInitPar memory zfp dst field chunks blocks = some bs) :
    (copyChunks zfp dst.stream = true ∨ InPlace ops zfp block dst blocks chunks →
      CopyConsistent ops zfp block dst blocks chunks bs) ∧
    (sideBits S (REVERSIBLE zfp) ≤ zfp.maxbits →
      (blocks * chunks < 2 ^ 64 ∨
        blocks < 2 ^ 64 ∧ 0 < zfp.maxbits ∧ ∀ b < blocks, ¬ unpadded ops zfp (block b)) →
      (CopyConsistent ops zfp block dst blocks chunks bs ↔
        copyChunks zfp dst.stream = true ∨ InPlace ops zfp block dst blocks chunks)) := by
  cases hcopy : copyChunks zfp dst.stream with
  | true => simp [copyConsistent_of_copy ops block hchunks hmalloc h hcopy]
  | false =>
    simp only [Bool.false_eq_true, false_or]
    have hplace := copyConsistent_of_inPlace ops block hd hs hchunks hint h hcopy
    exact ⟨hplace, fun hside hwrap =>
      ⟨inPlace_of_copyConsistent ops block hd hs hchunks hint h hcopy hside hwrap, hplace⟩⟩

end

/-- Two chunks of one block each, at the beginning of the destination. -/
theorem copy_decision_in_place :
    ∃ bs, compressInitPar (T := .uint64) ⟨fun _ _ => none, fun _ _ => 0⟩ rate16
        ⟨0x1000, streamOpen fun _ => 0⟩ ⟨some .float, 8, 0, 0, 0, 0, 0, 0, 0⟩ 2 2 = some bs ∧
      CopyConsistent onesOps rate16 (fun _ => ones) ⟨0x1000, streamOpen fun _ => 0⟩ 2 2 bs := by
  have hmalloc : ∀ c size : ℕ, (fun _ _ => none : ℕ → ℕ → Option ℕ) c size ≠ some 0x1000 :=
    fun _ _ h => absurd h.symm (Option.some_ne_none _)
  have hinit : compressInitPar (T := .uint64) ⟨fun _ _ => none, fun _ _ => 0⟩ rate16
      ⟨0x1000, streamOpen fun _ => 0⟩ ⟨some .float, 8, 0, 0, 0, 0, 0, 0, 0⟩ 2 2 =
        some [⟨0x1000, streamOpen fun _ => 0⟩, ⟨0x1008, streamOpen fun _ => 0⟩] := rfl
  have hplace : InPlace (T := .uint64) onesOps rate16 (fun _ => ones)
      ⟨0x1000, streamOpen fun _ => 0⟩ 2 2 :=
    ⟨rfl, by decide, by decide, fun _ _ h => absurd h.2.1 (by decide)⟩
  exact ⟨_, hinit, (copy_decision onesOps (fun _ => ones) (by decide) (streamOpen_wf _) (by decide)
    (by decide) hmalloc hinit).1 (.inr hplace)⟩

/-- Behind one word that has already been written, the chunks write in place and their interior
addresses are freed. -/
theorem copy_decision_prefix :
    let dst : Handle .uint64 := ⟨0x1000, ⟨0, 0, 1, fun _ => 0⟩⟩
    let bs : List (Handle .uint64) :=
      [⟨0x1008, streamOpen fun _ => 0⟩, ⟨0x1010, streamOpen fun _ => 0⟩]
    compressInitPar ⟨fun _ _ => none, fun _ _ => 0⟩ rate16 dst ⟨some .float, 8, 0, 0, 0, 0, 0, 0, 0⟩
        2 2 = some bs ∧
      (compressFinishPar dst (compressChunks onesOps rate16 (fun _ => ones) 2 2 bs)).2 =
        [0x1008, 0x1010] ∧
      ¬ CopyConsistent onesOps rate16 (fun _ => ones) dst 2 2 bs := by
  have hinit : compressInitPar (T := .uint64) ⟨fun _ _ => none, fun _ _ => 0⟩ rate16
      ⟨0x1000, ⟨0, 0, 1, fun _ => 0⟩⟩ ⟨some .float, 8, 0, 0, 0, 0, 0, 0, 0⟩ 2 2 =
        some [⟨0x1008, streamOpen fun _ => 0⟩, ⟨0x1010, streamOpen fun _ => 0⟩] := rfl
  refine ⟨hinit, ?_, fun hcons => ?_⟩
  · rw [compressFinishPar, foldl_finishChunk]
    rfl
  · rw [copyConsistent_iff_of_inPlace onesOps (fun _ => ones) (by decide) ⟨by decide, by decide⟩
      (by decide) (by decide) hinit rfl] at hcons
    exact absurd hcons.1 (by decide)

end Zfp

import Zfp.DecodeWindow
import Zfp.Gather
import Zfp.SeekFrame

/-!
# Random access at a fixed rate

The codec of a block store seeks to a block, codes it and flushes or aligns the stream. If every
block has the same size, in whole words, then blocks are independent of each other.
-/

namespace Zfp
open BitLists Bitstream

variable {T : WordType} {S : Scalar} {d : ℕ}

section Codec

variable (ops : FloatOps S (4 ^ d)) (zfp : Params)

/-- The values of a block in strided memory, padded to a whole block. -/
def gatherBlock (d shape : ℕ) (mem : ℤ → BitVec S.width) (p : ℤ) (stride : ℕ → ℤ) :
    ℕ → BitVec S.width :=
  if shape ≠ 0 then gatherPartial mem (blockDims shape) stride d (fun _ => 0) 0 p
  else gather mem stride d (fun _ => 0) 0 p

/-- Seek, encode and flush. -/
def encodeAt (s : Bitstream T) (offset : ℕ) (block : ℕ → BitVec S.width) : ℕ × Bitstream T :=
  let r := zfpEncodeBlock ops zfp (streamWseek s offset) block
  (r.1, (streamFlush r.2).2)

/-- Seek, decode and align. -/
def decodeAt (s : Bitstream T) (offset : ℕ) (block : ℕ → BitVec S.width) :
    ℕ × Bitstream T × (ℕ → BitVec S.width) :=
  let r := zfpDecodeBlock ops zfp (streamRseek s offset) block
  (r.1, (streamAlign r.2.1).2, r.2.2)

def encodeBlockStrided (s : Bitstream T) (offset shape : ℕ) (mem : ℤ → BitVec S.width) (p : ℤ)
    (stride : ℕ → ℤ) : ℕ × Bitstream T :=
  encodeAt ops zfp s offset (gatherBlock d shape mem p stride)

def encodeBlock (s : Bitstream T) (offset shape : ℕ) (block : ℕ → BitVec S.width) :
    ℕ × Bitstream T :=
  if shape ≠ 0 then encodeBlockStrided ops zfp s offset shape (fun z => block z.toNat) 0 contiguous
  else encodeAt ops zfp s offset block

def decodeBlockStrided (s : Bitstream T) (offset shape : ℕ) (mem : ℤ → BitVec S.width) (p : ℤ)
    (stride : ℕ → ℤ) : ℕ × Bitstream T × (ℤ → BitVec S.width) :=
  let r := decodeAt ops zfp s offset (fun _ => 0)
  let mem :=
    if shape ≠ 0 then scatterPartial r.2.2 (blockDims shape) stride d mem 0 p
    else scatter r.2.2 stride d mem 0 p
  (r.1, r.2.1, mem)

def decodeBlock (s : Bitstream T) (offset shape : ℕ) (block : ℕ → BitVec S.width) :
    ℕ × Bitstream T × (ℕ → BitVec S.width) :=
  if shape ≠ 0 then
    let r := decodeBlockStrided ops zfp s offset shape (fun z => block z.toNat) 0 contiguous
    (r.1, r.2.1, fun i => r.2.2 i)
  else decodeAt ops zfp s offset block

/-- Where the values of a block come from. -/
inductive Source (S : Scalar)
  | block (shape : ℕ) (block : ℕ → BitVec S.width)
  | strided (shape : ℕ) (mem : ℤ → BitVec S.width) (p : ℤ) (stride : ℕ → ℤ)

/-- Where the values of a block go. -/
inductive Target (S : Scalar)
  | block (shape : ℕ) (block : ℕ → BitVec S.width)
  | strided (shape : ℕ) (mem : ℤ → BitVec S.width) (p : ℤ) (stride : ℕ → ℤ)

def encodeSource (s : Bitstream T) (offset : ℕ) : Source S → ℕ × Bitstream T
  | .block shape block => encodeBlock ops zfp s offset shape block
  | .strided shape mem p stride => encodeBlockStrided ops zfp s offset shape mem p stride

def decodeTarget (s : Bitstream T) (offset : ℕ) : Target S → Bitstream T
  | .block shape block => (decodeBlock ops zfp s offset shape block).2.1
  | .strided shape mem p stride => (decodeBlockStrided ops zfp s offset shape mem p stride).2.1

inductive Access (S : Scalar)
  | encode (i : ℕ) (src : Source S)
  | decode (i : ℕ) (dst : Target S)

def access (s : Bitstream T) : Access S → Bitstream T
  | .encode i src => (encodeSource ops zfp s (i * zfp.maxbits) src).2
  | .decode i dst => decodeTarget ops zfp s (i * zfp.maxbits) dst

def accesses (s : Bitstream T) (ops' : List (Access S)) : Bitstream T :=
  ops'.foldl (access ops zfp) s

/-- What was last encoded as block `j`. -/
def lastSource (j : ℕ) (ops' : List (Access S)) : Option (Source S) :=
  ops'.foldl (fun src a =>
    match a with
    | .encode i src' => if i = j then some src' else src
    | .decode _ _ => src) none

def privateStream (T : WordType) (src : Source S) : Bitstream T :=
  (encodeSource ops zfp (streamOpen fun _ => 0) 0 src).2

/-- The stream and the offset at which the contents of block `j` are found: a private stream if the
block was encoded, else the stream before the accesses. -/
def origin (s : Bitstream T) (ops' : List (Access S)) (j : ℕ) : Bitstream T × ℕ :=
  match lastSource j ops' with
  | some src => (privateStream ops zfp T src, 0)
  | none => (s, j * zfp.maxbits)

end Codec

/-! ## The words that an encoder writes -/

theorem streamWseek_aligned (s : Bitstream T) (k : ℕ) :
    streamWseek s (k * wsize T) = { s with ptr := k, buffer := 0, bits := 0 } := by
  have hmod : k * wsize T % wsize T = 0 := Nat.mul_mod_left _ _
  have hdiv : k * wsize T / wsize T = k := Nat.mul_div_cancel _ (wsize_pos T)
  simp only [streamWseek, hmod, hdiv, ne_eq, not_true_eq_false, if_false]

/-- Writing from a word boundary on and flushing leaves the other words as they are. -/
theorem mem_flush_append {s : Bitstream T} {k e : ℕ} (l : List Bool)
    (hl : k * wsize T + l.length ≤ e * wsize T) {w : ℕ} (hw : w < k ∨ e ≤ w) :
    (streamFlush ((streamWseek s (k * wsize T)).append l)).2.mem w = s.mem w := by
  have h := appended_flush s (k * wsize T) l
  rcases hw with hw | hw
  · apply BitVec.eq_of_getLsbD_eq
    intro i hi
    have hmul : (w + 1) * wsize T ≤ k * wsize T := Nat.mul_le_mul_right _ hw
    rw [Nat.add_mul, Nat.one_mul] at hmul
    rw [← memBit_word s.mem w hi, ← memBit_word _ w hi]
    exact h.old _ (by omega)
  · apply h.rest
    rw [← add_flushCount]
    exact (add_flushCount_le hl).trans (Nat.mul_le_mul_right _ hw)

section

variable (ops : FloatOps S (4 ^ d)) {zfp : Params}

/-- The conditions on a codec with blocks of a fixed size: whole words, with room for the side
information. -/
structure FixedRate (T : WordType) (S : Scalar) (zfp : Params) : Prop where
  rate : zfp.minbits = zfp.maxbits
  word : wsize T ∣ zfp.maxbits
  pos : 0 < zfp.maxbits
  side : sideBits S (REVERSIBLE zfp) ≤ zfp.maxbits

theorem FixedRate.mul (h : FixedRate T S zfp) (i : ℕ) :
    i * zfp.maxbits = i * (zfp.maxbits / wsize T) * wsize T := by
  rw [Nat.mul_assoc, Nat.div_mul_cancel h.word]

theorem FixedRate.length_le (h : FixedRate T S zfp) (block : ℕ → BitVec S.width) :
    (blockCode ops zfp block).length ≤ zfp.maxbits := by
  have hside := h.side
  refine length_blockCode_le ops zfp (fun hmode => ?_) block fun hmode => ?_
  · rwa [hmode] at hside
  · exact (revSideBits_le ops zfp hmode block).trans hside

/-- Encoding block `i` changes the words of block `i` only. -/
theorem FixedRate.encodeAt_mem (h : FixedRate T S zfp) (hd : d ≤ 4) (s : Bitstream T) (i : ℕ)
    (block : ℕ → BitVec S.width) {w : ℕ}
    (hw : w < i * (zfp.maxbits / wsize T) ∨ (i + 1) * (zfp.maxbits / wsize T) ≤ w) :
    (encodeAt ops zfp s (i * zfp.maxbits) block).2.mem w = s.mem w := by
  have hlen := h.length_le ops block
  have hnext := h.mul (i + 1)
  rw [Nat.succ_mul] at hnext
  rw [encodeAt, zfpEncodeBlock_eq ops zfp (streamWseek_wf _ _) hd, h.mul i]
  rw [h.mul i] at hnext
  exact mem_flush_append (blockCode ops zfp block) (by omega) hw

/-- The block that was encoded can be read from the stream. -/
theorem FixedRate.encodeAt_reads (h : FixedRate T S zfp) (hd : d ≤ 4) (s : Bitstream T) (i : ℕ)
    (block : ℕ → BitVec S.width) :
    Reads (memBit (encodeAt ops zfp s (i * zfp.maxbits) block).2.mem) (i * zfp.maxbits)
      (blockCode ops zfp block) := by
  have hwf := streamWseek_wf s (i * zfp.maxbits)
  have hreads := reads_zfpEncodeBlock ops zfp hwf hd block []
  have htell : streamWtell (streamWseek s (i * zfp.maxbits)) = i * zfp.maxbits := by
    rw [h.mul i, streamWseek_aligned]
    exact Nat.add_zero _
  rwa [htell] at hreads

/-! ## Decoded values -/

variable (zfp) in
def valuesAt (r : Bitstream T) (o : ℕ) (out : ℕ → BitVec S.width) : ℕ × (ℕ → BitVec S.width) :=
  ((zfpDecodeBlock ops zfp (streamRseek r o) out).1,
    (zfpDecodeBlock ops zfp (streamRseek r o) out).2.2)

theorem FixedRate.valuesAt_window (h : FixedRate T S zfp) (hd : d ≤ 4) {r r' : Bitstream T}
    {o o' : ℕ} (hwin : SameWindow r r' o o' zfp.maxbits) (out : ℕ → BitVec S.width) :
    valuesAt ops zfp r o out = valuesAt ops zfp r' o' out := by
  obtain ⟨n, m, a, ha, ha'⟩ := zfpDecodeBlock_window ops zfp hd hwin h.side out
  rw [valuesAt, valuesAt, ha, ha']

/-- A block of zeros that the reversible encoder did not pad is decoded from its single bit. -/
theorem valuesAt_unpadded {block : ℕ → BitVec S.width} (hun : unpadded ops zfp block)
    {r : Bitstream T} {o : ℕ} (hreads : Reads (memBit r.mem) o (blockCode ops zfp block))
    (out : ℕ → BitVec S.width) :
    valuesAt ops zfp r o out = (max 1 zfp.minbits, putBlock out fun _ : Fin (4 ^ d) => 0) := by
  have hbit : memBit r.mem o = false := by
    rw [blockCode, if_pos hun.1, if_pos hun.2.1, revFloatBlockCode_of_zero ops zfp hun.2.2.1] at hreads
    exact hreads.1
  have hone : 1 < zfp.minbits := hun.2.2.2
  simp only [valuesAt, zfpDecodeBlock, if_pos hun.1, if_pos hun.2.1, revDecodeFloatBlock,
    streamReadBit_rseek, hbit, readMinbits, if_pos hone, Bool.false_eq_true, if_false]
  rw [max_eq_right hone.le]

/-- What is decoded after a block was encoded depends on the values of the block only. -/
theorem FixedRate.valuesAt_encodeAt (h : FixedRate T S zfp) (hd : d ≤ 4) (s s' : Bitstream T)
    (i i' : ℕ) (block out : ℕ → BitVec S.width) :
    valuesAt ops zfp (encodeAt ops zfp s (i * zfp.maxbits) block).2 (i * zfp.maxbits) out =
      valuesAt ops zfp (encodeAt ops zfp s' (i' * zfp.maxbits) block).2 (i' * zfp.maxbits) out := by
  have hreads := h.encodeAt_reads ops hd s i block
  have hreads' := h.encodeAt_reads ops hd s' i' block
  by_cases hun : unpadded ops zfp block
  · rw [valuesAt_unpadded ops hun hreads, valuesAt_unpadded ops hun hreads']
  · apply h.valuesAt_window ops hd
    intro k hk
    rw [← length_blockCode_of_fixed ops zfp h.rate h.side hun] at hk
    rw [reads_iff] at hreads hreads'
    rw [hreads k hk, hreads' k hk]

/-- Encoding a block does not change what is decoded as another block. -/
theorem FixedRate.valuesAt_ne (h : FixedRate T S zfp) (hd : d ≤ 4) (s : Bitstream T) {i j : ℕ}
    (hij : i ≠ j) (block out : ℕ → BitVec S.width) :
    valuesAt ops zfp (encodeAt ops zfp s (i * zfp.maxbits) block).2 (j * zfp.maxbits) out =
      valuesAt ops zfp s (j * zfp.maxbits) out := by
  apply h.valuesAt_window ops hd
  intro k hk
  have hpos := wsize_pos T
  have hmul := h.mul j
  have hnext := h.mul (j + 1)
  rw [Nat.succ_mul] at hnext
  rw [memBit, memBit, h.encodeAt_mem ops hd]
  have hlow : j * (zfp.maxbits / wsize T) ≤ (j * zfp.maxbits + k) / wsize T := by
    rw [Nat.le_div_iff_mul_le hpos]
    omega
  have hhigh : (j * zfp.maxbits + k) / wsize T < (j + 1) * (zfp.maxbits / wsize T) := by
    rw [Nat.div_lt_iff_lt_mul hpos]
    omega
  rcases lt_or_gt_of_ne hij with hlt | hgt
  · have hle := Nat.mul_le_mul_right (zfp.maxbits / wsize T) (show i + 1 ≤ j from hlt)
    exact Or.inr (hle.trans hlow)
  · have hle := Nat.mul_le_mul_right (zfp.maxbits / wsize T) (show j + 1 ≤ i from hgt)
    exact Or.inl (hhigh.trans_le hle)

/-! ## Runs of accesses -/

def Source.values (d : ℕ) : Source S → ℕ → BitVec S.width
  | .block shape p =>
    if shape ≠ 0 then gatherBlock d shape (fun z => p z.toNat) 0 contiguous else p
  | .strided shape mem p stride => gatherBlock d shape mem p stride

theorem encodeSource_eq (s : Bitstream T) (offset : ℕ) (src : Source S) :
    encodeSource ops zfp s offset src = encodeAt ops zfp s offset (src.values d) := by
  cases src with
  | block shape block =>
    rw [encodeSource, encodeBlock, Source.values]
    split_ifs
    · rfl
    · rfl
  | strided shape mem p stride => rfl

/-- Decoding leaves the memory of the stream as it is. -/
theorem FixedRate.decodeTarget_mem (h : FixedRate T S zfp) (hd : d ≤ 4) (s : Bitstream T)
    (offset : ℕ) (dst : Target S) : (decodeTarget ops zfp s offset dst).mem = s.mem := by
  have hat (out : ℕ → BitVec S.width) : (decodeAt ops zfp s offset out).2.1.mem = s.mem := by
    obtain ⟨n, m, a, ha, _⟩ := zfpDecodeBlock_window ops zfp hd
      (fun k (_ : k < zfp.maxbits) => (rfl : memBit s.mem (offset + k) = _)) h.side out
    rw [decodeAt, ha]
    dsimp only
    rw [streamAlign_rseek, streamRseek_mem]
  cases dst with
  | block shape block =>
    rw [decodeTarget, decodeBlock]
    split_ifs
    · exact hat fun _ => 0
    · exact hat block
  | strided shape mem p stride => exact hat fun _ => 0

/-- One access: block `j` keeps its values unless it is encoded. -/
theorem FixedRate.valuesAt_access (h : FixedRate T S zfp) (hd : d ≤ 4) (s : Bitstream T)
    (a : Access S) (j : ℕ) (out : ℕ → BitVec S.width) :
    valuesAt ops zfp (access ops zfp s a) (j * zfp.maxbits) out =
      match a with
      | .encode i src =>
        if i = j then valuesAt ops zfp (privateStream ops zfp T src) 0 out
        else valuesAt ops zfp s (j * zfp.maxbits) out
      | .decode _ _ => valuesAt ops zfp s (j * zfp.maxbits) out := by
  cases a with
  | encode i src =>
    rw [access, encodeSource_eq]
    dsimp only
    split_ifs with hij
    · rw [privateStream, encodeSource_eq, hij]
      have hprivate := h.valuesAt_encodeAt ops hd s (streamOpen fun _ => 0) j 0 (src.values d) out
      rwa [Nat.zero_mul] at hprivate
    · exact h.valuesAt_ne ops hd s hij _ out
  | decode i dst =>
    rw [access]
    dsimp only
    apply h.valuesAt_window ops hd
    intro k _
    rw [h.decodeTarget_mem ops hd]

/-- Any number of accesses: block `j` has the values that were last encoded, or the ones it had. -/
theorem FixedRate.valuesAt_accesses (h : FixedRate T S zfp) (hd : d ≤ 4) (s : Bitstream T)
    (ops' : List (Access S)) (j : ℕ) (out : ℕ → BitVec S.width) :
    valuesAt ops zfp (accesses ops zfp s ops') (j * zfp.maxbits) out =
      valuesAt ops zfp (origin ops zfp s ops' j).1 (origin ops zfp s ops' j).2 out := by
  induction ops' using List.reverseRecOn with
  | nil => rfl
  | append_singleton ops' a ih =>
    rw [accesses, List.foldl_append, List.foldl_cons, List.foldl_nil, h.valuesAt_access ops hd]
    rw [accesses] at ih
    rw [origin] at ih ⊢
    rw [lastSource, List.foldl_append, List.foldl_cons, List.foldl_nil]
    cases a with
    | encode i src =>
      dsimp only
      split_ifs
      · rfl
      · exact ih
    | decode i dst => exact ih

/-- At a fixed rate in whole words, encoding a block changes no word of another block, and after
any sequence of accesses, from any state of the stream, a block is decoded as a private stream
would decode what was last encoded as this block, or as before the accesses if nothing was. -/
theorem fixed_rate_isolation (hd : d ≤ 4) (hfixed : FixedRate T S zfp) (s : Bitstream T)
    (ops' : List (Access S)) :
    (∀ i src w, w < i * (zfp.maxbits / wsize T) ∨ (i + 1) * (zfp.maxbits / wsize T) ≤ w →
        (access ops zfp s (.encode i src)).mem w = s.mem w) ∧
      ∀ j shape,
        (∀ block,
          let r := decodeBlock ops zfp (accesses ops zfp s ops') (j * zfp.maxbits) shape block
          let q := decodeBlock ops zfp (origin ops zfp s ops' j).1 (origin ops zfp s ops' j).2
            shape block
          r.1 = q.1 ∧ r.2.2 = q.2.2) ∧
        ∀ mem p stride,
          let r := decodeBlockStrided ops zfp (accesses ops zfp s ops') (j * zfp.maxbits) shape
            mem p stride
          let q := decodeBlockStrided ops zfp (origin ops zfp s ops' j).1
            (origin ops zfp s ops' j).2 shape mem p stride
          r.1 = q.1 ∧ r.2.2 = q.2.2 := by
  constructor
  · intro i src w hw
    rw [access, encodeSource_eq]
    exact hfixed.encodeAt_mem ops hd s i _ hw
  · intro j shape
    have hvalues := hfixed.valuesAt_accesses ops hd s ops' j
    have hsize (out) := congrArg Prod.fst (hvalues out)
    have hblock (out) := congrArg Prod.snd (hvalues out)
    have hstrided (mem p stride) :
        (decodeBlockStrided ops zfp (accesses ops zfp s ops') (j * zfp.maxbits) shape mem p
          stride).2.2 =
        (decodeBlockStrided ops zfp (origin ops zfp s ops' j).1 (origin ops zfp s ops' j).2 shape
          mem p stride).2.2 := by
      have hzero := hblock fun _ => 0
      simp only [valuesAt] at hzero
      simp only [decodeBlockStrided, decodeAt, hzero]
    refine ⟨?_, ?_⟩
    · intro block
      dsimp only
      rw [decodeBlock, decodeBlock]
      split_ifs
      · exact ⟨hsize _, congrArg (fun mem (i : ℕ) => mem i) (hstrided _ _ _)⟩
      · exact ⟨hsize block, hblock block⟩
    · intro mem p stride
      exact ⟨hsize _, hstrided mem p stride⟩

end

/-- Two words for each block of single-precision ones: encoding block 1 leaves word 0. -/
theorem fixed_rate_isolation_ones :
    let zfp : Params := ⟨128, 128, 64, -1074, by decide, by decide, by decide, by decide⟩
    let s := streamOpen (T := .uint64) fun _ => 5
    (access onesOps zfp s (.encode 1 (.block 0 ones))).mem 0 = 5 := by
  have hfixed : FixedRate .uint64 .float
      ⟨128, 128, 64, -1074, by decide, by decide, by decide, by decide⟩ :=
    ⟨rfl, by decide, by decide, by decide⟩
  exact (fixed_rate_isolation onesOps (by decide) hfixed (streamOpen fun _ => 5) []).1 1
    (.block 0 ones) 0 (by decide)

end Zfp

import Zfp.StreamSize

/-!
# Parallel compression

The blocks of a field are split in chunks, each compressed to a stream of its own. The private
streams either have heap buffers that are copied to the destination at the end, or they write to
the destination buffer itself. The allocation routine decides between the two from the parameters
and the write offset, the final one from the addresses of the buffers.
-/

namespace Zfp

variable {T : WordType} {S : Scalar} {d : ℕ}

/-- A bit stream with the address of its buffer. -/
structure Handle (T : WordType) where
  data : ℕ
  stream : Bitstream T

/-- block index at which chunk begins -/
def chunkOffset (blocks chunks chunk : ℕ) : ℕ := blocks * chunk % 2 ^ 64 / chunks

/-- The extent of a field as large as one chunk. -/
def chunkLength (blocks chunks : ℕ) : ℕ := 4 * (blocks + chunks - 1) % 2 ^ 64 / chunks

def chunkField (field : Field) (n : ℕ) : Option Field :=
  match zfpFieldDimensionality field with
  | 1 => some { field with nx := n }
  | 2 => some { field with nx := 4, ny := n }
  | 3 => some { field with nx := 4, ny := 4, nz := n }
  | 4 => some { field with nx := 4, ny := 4, nz := 4, nw := n }
  | _ => none

def chunkBufferSize (T : WordType) (zfp : Params) (field : Field) (chunks blocks : ℕ) : Option ℕ :=
  (chunkField field (chunkLength blocks chunks)).map (zfpStreamMaximumSize T zfp)

/-- avoid copies in fixed-rate mode when each bitstream is word aligned -/
def copyChunks (zfp : Params) (s : Bitstream T) : Bool :=
  zfp.minbits ≠ zfp.maxbits ∨ zfp.maxbits % wsize T ≠ 0 ∨ streamWtell s % wsize T ≠ 0

/-- Memory allocation: the address of the buffer for a chunk, if the allocation succeeds, and the
words found at an address. -/
structure Memory (T : WordType) where
  malloc : ℕ → ℕ → Option ℕ
  contents : ℕ → ℕ → BitVec (wsize T)

/-- initialize per-thread bit streams for parallel compression -/
def compressInitPar (memory : Memory T) (zfp : Params) (dst : Handle T) (field : Field)
    (chunks blocks : ℕ) : Option (List (Handle T)) :=
  let n := chunkLength blocks chunks
  -- determine maximum size buffer needed per thread
  match chunkField field n with
  | none => none
  | some f =>
    let size := zfpStreamMaximumSize T zfp f
    let copy := copyChunks zfp dst.stream
    -- set up buffer for each thread to compress to
    (List.range chunks).mapM fun chunk =>
      let block := chunkOffset blocks chunks chunk
      let buffer := if copy then memory.malloc chunk size
        else some (dst.data + streamSize dst.stream + block * (zfp.maxbits / 8))
      buffer.map fun address => ⟨address, streamOpen (memory.contents address)⟩

def compressBlocks (ops : FloatOps S (4 ^ d)) (zfp : Params) (block : ℕ → ℕ → BitVec S.width)
    (s : Bitstream T) (bmin bmax : ℕ) : Bitstream T :=
  (List.range' bmin (bmax - bmin)).foldl (fun s b => (zfpEncodeBlock ops zfp s (block b)).2) s

/-- The passes of a loop over chunks. OpenMP 2.0 requires int loop counters, and the loop ends at
`(int)chunks`. -/
def chunkPasses (chunks : ℕ) : ℕ := (BitVec.ofNat 32 chunks).toInt.toNat

theorem chunkPasses_eq {chunks : ℕ} (h : chunks < 2 ^ 31) : chunkPasses chunks = chunks := by
  have hmod : chunks % 2 ^ 32 = chunks := Nat.mod_eq_of_lt (by omega)
  rw [chunkPasses, BitVec.toInt_eq_toNat_of_lt, BitVec.toNat_ofNat, hmod, Int.toNat_natCast]
  rw [BitVec.toNat_ofNat, hmod]
  omega

def compressChunks (ops : FloatOps S (4 ^ d)) (zfp : Params) (block : ℕ → ℕ → BitVec S.width)
    (blocks chunks : ℕ) (bs : List (Handle T)) : List (Handle T) :=
  bs.mapIdx fun chunk h =>
    if chunk < chunkPasses chunks then { h with
      stream := compressBlocks ops zfp block h.stream (chunkOffset blocks chunks chunk)
        (chunkOffset blocks chunks (chunk + 1)) }
    else h

/-- The decision of the final routine: `stream_data(dst) != stream_data(*src)`. -/
def finishCopies (dst : Handle T) : List (Handle T) → Bool
  | [] => false
  | s :: _ => dst.data ≠ s.data

/-- One pass of the loop over the private streams, on the destination, the offset and the
addresses that have been freed. -/
def finishChunk (copy : Bool) (acc : Bitstream T × ℕ × List ℕ) (src : Handle T) :
    Bitstream T × ℕ × List ℕ :=
  let bits := streamWtell src.stream
  let s := (streamFlush src.stream).2
  -- concatenate streams if they are not already contiguous
  if copy then
    ((streamCopy acc.1 (streamRewind s) bits).1, acc.2.1 + bits, acc.2.2 ++ [src.data])
  else (acc.1, acc.2.1 + bits, acc.2.2)

/-- flush and concatenate bit streams if needed; returns also the addresses of the buffers that
are freed -/
def compressFinishPar (dst : Handle T) (src : List (Handle T)) : Handle T × List ℕ :=
  let copy := finishCopies dst src
  let r := src.foldl (finishChunk copy) (dst.stream, streamWtell dst.stream, [])
  ({ dst with stream := if copy then r.1 else streamWseek r.1 r.2.1 }, r.2.2)

/-- Words that are stored to a buffer, from the word `first` on. -/
def overlay (mem : ℕ → BitVec (wsize T)) (first n : ℕ) (words : ℕ → BitVec (wsize T)) (j : ℕ) :
    BitVec (wsize T) :=
  if first ≤ j ∧ j < first + n then words (j - first) else mem j

def Handle.withBuffer (dst : Handle T) (mem : ℕ → BitVec (wsize T)) : Handle T :=
  { dst with stream := { dst.stream with mem := mem } }

/-- The buffer of the destination after the private streams inside it have been flushed. -/
def inPlaceBuffer (dst : Handle T) (src : List (Handle T)) : ℕ → BitVec (wsize T) :=
  src.foldl (fun mem s =>
    let t := (streamFlush s.stream).2
    overlay mem ((s.data - dst.data) / (wsize T / 8)) t.ptr t.mem) dst.stream.mem

/-! ## Codes of ranges of blocks -/

section

variable (ops : FloatOps S (4 ^ d)) (zfp : Params) (block : ℕ → ℕ → BitVec S.width)

def codes (bmin bmax : ℕ) : List Bool :=
  (List.range' bmin (bmax - bmin)).flatMap fun b => blockCode ops zfp (block b)

theorem codes_self (b : ℕ) : codes ops zfp block b b = [] := by
  rw [codes, Nat.sub_self, List.range'_zero, List.flatMap_nil]

theorem codes_append {a b c : ℕ} (hab : a ≤ b) (hbc : b ≤ c) :
    codes ops zfp block a b ++ codes ops zfp block b c = codes ops zfp block a c := by
  have hb : a + 1 * (b - a) = b := by omega
  have hc : (b - a) + (c - b) = c - a := by omega
  rw [codes, codes, codes, ← List.flatMap_append]
  congr 1
  rw [← hc, ← List.range'_append, hb]

theorem codes_succ (b : ℕ) : codes ops zfp block b (b + 1) = blockCode ops zfp (block b) := by
  rw [codes, Nat.add_sub_cancel_left, List.range'_one, List.flatMap_singleton]

theorem compressBlocks_eq {s : Bitstream T} (hs : s.WF) (hd : d ≤ 4) (bmin bmax : ℕ) :
    compressBlocks ops zfp block s bmin bmax = s.append (codes ops zfp block bmin bmax) := by
  rw [compressBlocks, codes]
  induction List.range' bmin (bmax - bmin) generalizing s with
  | nil => rfl
  | cons b l ih =>
    rw [List.foldl_cons, zfpEncodeBlock_eq ops zfp hs hd, ih (hs.append _), List.flatMap_cons,
      Bitstream.append_append]

theorem streamWtell_compressBlocks {s : Bitstream T} (hs : s.WF) (hd : d ≤ 4) (bmin bmax : ℕ) :
    streamWtell (compressBlocks ops zfp block s bmin bmax) =
      streamWtell s + (codes ops zfp block bmin bmax).length := by
  rw [compressBlocks_eq ops zfp block hs hd, Bitstream.streamWtell_append hs]

theorem length_codes_succ (m : ℕ) : (codes ops zfp block 0 (m + 1)).length =
    (codes ops zfp block 0 m).length + (blockCode ops zfp (block m)).length := by
  rw [← codes_append ops zfp block (Nat.zero_le m) (Nat.le_succ m), List.length_append, codes_succ]

theorem length_codes_of_full {m n : ℕ} (h : ∀ b < m, (blockCode ops zfp (block b)).length = n) :
    (codes ops zfp block 0 m).length = m * n := by
  induction m with
  | zero => rw [codes_self, List.length_nil, Nat.zero_mul]
  | succ m ih =>
    rw [length_codes_succ, ih fun b hb => h b (Nat.lt_succ_of_lt hb), h m (Nat.lt_succ_self m),
      Nat.succ_mul]

/-- Blocks that take `n` bits at most take as much as they can together only if each of them does. -/
theorem length_codes_eq_iff {m n : ℕ} (hle : ∀ b, (blockCode ops zfp (block b)).length ≤ n) :
    (codes ops zfp block 0 m).length ≤ m * n ∧
      ((codes ops zfp block 0 m).length = m * n ↔
        ∀ b < m, (blockCode ops zfp (block b)).length = n) := by
  induction m with
  | zero => simp [codes_self]
  | succ m ih =>
    obtain ⟨hlen, hiff⟩ := ih
    have hm := hle m
    refine ⟨?_, fun h b hb => ?_, length_codes_of_full ops zfp block⟩
    · rw [length_codes_succ, Nat.succ_mul]
      omega
    · rw [length_codes_succ, Nat.succ_mul] at h
      rcases Nat.lt_succ_iff_lt_or_eq.mp hb with hb | rfl
      · exact hiff.mp (by omega) b hb
      · omega

end

/-! ## Chunks -/

theorem chunkOffset_zero (blocks chunks : ℕ) : chunkOffset blocks chunks 0 = 0 := by
  rw [chunkOffset, Nat.mul_zero, Nat.zero_mod, Nat.zero_div]

section

variable {blocks chunks : ℕ}

theorem chunkOffset_eq {chunk : ℕ} (h : blocks * chunk < 2 ^ 64) :
    chunkOffset blocks chunks chunk = blocks * chunk / chunks := by
  rw [chunkOffset, Nat.mod_eq_of_lt h]

theorem chunkOffset_chunks (hchunks : 0 < chunks) (hfit : blocks * chunks < 2 ^ 64) :
    chunkOffset blocks chunks chunks = blocks := by
  rw [chunkOffset_eq hfit, Nat.mul_div_cancel _ hchunks]

theorem chunkOffset_mono {a b : ℕ} (hab : a ≤ b) (hb : blocks * b < 2 ^ 64) :
    chunkOffset blocks chunks a ≤ chunkOffset blocks chunks b := by
  have hle := Nat.mul_le_mul_left blocks hab
  rw [chunkOffset_eq (by omega), chunkOffset_eq hb]
  exact Nat.div_le_div_right hle

/-- The chunks are a partition of the sequence of blocks, as long as no offset wraps. -/
theorem flatMap_codes_chunks (ops : FloatOps S (4 ^ d)) (zfp : Params)
    (block : ℕ → ℕ → BitVec S.width) {n : ℕ} (hn : blocks * n < 2 ^ 64) :
    ((List.range n).flatMap fun c => codes ops zfp block (chunkOffset blocks chunks c)
      (chunkOffset blocks chunks (c + 1))) =
        codes ops zfp block 0 (chunkOffset blocks chunks n) := by
  induction n with
  | zero => rw [chunkOffset_zero, codes_self, List.range_zero, List.flatMap_nil]
  | succ n ih =>
    rw [List.range_succ, List.flatMap_append, List.flatMap_singleton,
      ih (by rw [Nat.mul_succ] at hn; omega)]
    exact codes_append ops zfp block (Nat.zero_le _) (chunkOffset_mono (Nat.le_succ n) hn)

end

theorem forall₂_of_mapM {α β : Type*} {f : α → Option β} {xs : List α} {l : List β}
    (h : xs.mapM f = some l) : List.Forall₂ (fun x y => f x = some y) xs l := by
  induction xs generalizing l with
  | nil =>
    rw [List.mapM_nil, Option.pure_def, Option.some.injEq] at h
    exact h ▸ .nil
  | cons x xs ih =>
    simp only [List.mapM_cons, Option.bind_eq_bind, Option.bind_eq_some_iff, Option.pure_def,
      Option.some.injEq] at h
    obtain ⟨y, hy, l', hl', rfl⟩ := h
    exact .cons hy (ih hl')

section

variable {memory : Memory T} {zfp : Params} {dst : Handle T} {field : Field} {chunks blocks : ℕ}
  {bs : List (Handle T)}

/-- The private streams: on allocated buffers, or inside the destination. -/
theorem compressInitPar_getElem
    (h : compressInitPar memory zfp dst field chunks blocks = some bs) :
    bs.length = chunks ∧ ∀ c (hc : c < bs.length),
      bs[c].stream = streamOpen (memory.contents bs[c].data) ∧
      if copyChunks zfp dst.stream then
        ∃ size, chunkBufferSize T zfp field chunks blocks = some size ∧
          memory.malloc c size = some bs[c].data
      else bs[c].data = dst.data + streamSize dst.stream +
        chunkOffset blocks chunks c * (zfp.maxbits / 8) := by
  rw [compressInitPar] at h
  split at h
  · nomatch h
  · next f hf =>
    have hall := forall₂_of_mapM h
    have hlen := hall.length_eq
    rw [List.length_range] at hlen
    refine ⟨hlen.symm, fun c hc => ?_⟩
    have hget := hall.get (by rw [List.length_range]; omega) hc
    rw [List.get_eq_getElem, List.get_eq_getElem, List.getElem_range,
      Option.map_eq_some_iff] at hget
    obtain ⟨a, ha, heq⟩ := hget
    rw [← heq]
    refine ⟨rfl, ?_⟩
    split_ifs with hcopy
    · rw [if_pos hcopy] at ha
      exact ⟨_, by rw [chunkBufferSize, hf, Option.map_some], ha⟩
    · rw [if_neg hcopy, Option.some.injEq] at ha
      exact ha.symm

/-- What the loop over the private streams leaves. -/
theorem foldl_finishChunk (copy : Bool) (acc : Bitstream T × ℕ × List ℕ) (src : List (Handle T)) :
    (src.foldl (finishChunk copy) acc).2 =
      (acc.2.1 + (src.map fun s => streamWtell s.stream).sum,
        acc.2.2 ++ if copy then src.map Handle.data else []) := by
  induction src generalizing acc with
  | nil => cases copy <;> simp
  | cons s src ih =>
    rw [List.foldl_cons, ih]
    cases copy <;> simp [finishChunk, Nat.add_assoc]

end

/-! ## The two decisions -/

section

variable (ops : FloatOps S (4 ^ d)) (zfp : Params) (block : ℕ → ℕ → BitVec S.width)

/-- The final routine copies and frees exactly the heap buffers. Streams that write in place
start where the serial compressor writes the first block of their chunk, and the final write
position is the one of the serial compressor, whatever the chunks have left in the buffer. -/
structure CopyConsistent (dst : Handle T) (blocks chunks : ℕ) (bs : List (Handle T)) : Prop where
  branch : finishCopies dst (compressChunks ops zfp block blocks chunks bs) =
    copyChunks zfp dst.stream
  freed : (compressFinishPar dst (compressChunks ops zfp block blocks chunks bs)).2 =
    if copyChunks zfp dst.stream then bs.map Handle.data else []
  start : copyChunks zfp dst.stream = false → ∀ c (hc : c < bs.length),
    8 * bs[c].data = 8 * dst.data +
      streamWtell (compressBlocks ops zfp block dst.stream 0 (chunkOffset blocks chunks c))
  finish : copyChunks zfp dst.stream = false → ∀ mem,
    streamWtell (compressFinishPar { dst with stream := { dst.stream with mem := mem } }
      (compressChunks ops zfp block blocks chunks bs)).1.stream =
      streamWtell (compressBlocks ops zfp block dst.stream 0 blocks)

variable {memory : Memory T} {zfp} {dst : Handle T} {field : Field} {chunks blocks : ℕ}
  {bs : List (Handle T)}

theorem copyChunks_eq_false (h : copyChunks zfp dst.stream = false) :
    zfp.maxbits % wsize T = 0 ∧ streamWtell dst.stream % wsize T = 0 := by
  simp only [copyChunks, decide_eq_false_iff_not, not_or, not_not] at h
  exact h.2

/-- An aligned write offset in bytes. -/
theorem eight_mul_streamSize {s : Bitstream T} (hs : s.WF) (h : streamWtell s % wsize T = 0) :
    8 * streamSize s = streamWtell s := by
  have hbits := hs.bits_eq_mod
  rw [h] at hbits
  have hdvd := Nat.mul_div_cancel' (eight_dvd_wsize T)
  rw [streamSize, streamWtell, hbits, Nat.add_zero, Nat.mul_left_comm, hdvd]

theorem finishCopies_eq (hlen : 0 < bs.length) :
    finishCopies dst (compressChunks ops zfp block blocks chunks bs) =
      decide (dst.data ≠ bs[0].data) := by
  cases bs with
  | nil => nomatch hlen
  | cons s bs =>
    simp only [compressChunks, List.mapIdx_cons, finishCopies, List.getElem_cons_zero]
    split_ifs <;> rfl

theorem map_data_compressChunks :
    (compressChunks ops zfp block blocks chunks bs).map Handle.data = bs.map Handle.data := by
  apply List.ext_getElem
  · simp [compressChunks]
  · intro i h h'
    simp only [compressChunks, List.getElem_map, List.getElem_mapIdx]
    split_ifs <;> rfl

/-- A private stream with the codes of its chunk. -/
theorem compressChunks_getElem (hd : d ≤ 4) (hint : chunks < 2 ^ 31)
    (h : compressInitPar memory zfp dst field chunks blocks = some bs) {c : ℕ} (hc : c < bs.length)
    (hc' : c < (compressChunks ops zfp block blocks chunks bs).length) :
    (compressChunks ops zfp block blocks chunks bs)[c].stream =
      (streamOpen (memory.contents bs[c].data)).append (codes ops zfp block
        (chunkOffset blocks chunks c) (chunkOffset blocks chunks (c + 1))) := by
  obtain ⟨hlen, hget⟩ := compressInitPar_getElem h
  have hpass : c < chunkPasses chunks := by
    rw [chunkPasses_eq hint]
    omega
  simp only [compressChunks, List.getElem_mapIdx, if_pos hpass, (hget c hc).1]
  exact compressBlocks_eq ops zfp block (streamOpen_wf _) hd _ _

/-- The sizes of the private streams. -/
theorem map_streamWtell_compressChunks (hd : d ≤ 4) (hint : chunks < 2 ^ 31)
    (h : compressInitPar memory zfp dst field chunks blocks = some bs) :
    (compressChunks ops zfp block blocks chunks bs).map (fun s => streamWtell s.stream) =
      (List.range chunks).map fun c => (codes ops zfp block (chunkOffset blocks chunks c)
        (chunkOffset blocks chunks (c + 1))).length := by
  obtain ⟨hlen, hget⟩ := compressInitPar_getElem h
  apply List.ext_getElem
  · simp [compressChunks, hlen]
  · intro c hc hc'
    have hlt : c < bs.length := by simpa [compressChunks] using hc
    rw [List.getElem_map, List.getElem_map, List.getElem_range,
      compressChunks_getElem ops block hd hint h hlt,
      Bitstream.streamWtell_append (streamOpen_wf _), streamWtell_open, Nat.zero_add]

theorem copyConsistent_of_copy (hchunks : 0 < chunks)
    (hmalloc : ∀ c size, memory.malloc c size ≠ some dst.data)
    (h : compressInitPar memory zfp dst field chunks blocks = some bs)
    (hcopy : copyChunks zfp dst.stream = true) :
    CopyConsistent ops zfp block dst blocks chunks bs := by
  obtain ⟨hlen, hget⟩ := compressInitPar_getElem h
  have hpos : 0 < bs.length := by omega
  have hdata := (hget 0 hpos).2
  rw [if_pos hcopy] at hdata
  obtain ⟨size, -, hsize⟩ := hdata
  have hbranch : finishCopies dst (compressChunks ops zfp block blocks chunks bs) = true := by
    rw [finishCopies_eq ops block hpos, decide_eq_true_eq]
    intro heq
    rw [← heq] at hsize
    exact hmalloc 0 size hsize
  constructor
  case branch => rw [hbranch, hcopy]
  case freed =>
    rw [compressFinishPar, hbranch, foldl_finishChunk, if_pos rfl, if_pos hcopy, List.nil_append]
    exact map_data_compressChunks ops block
  case start => exact fun hc => absurd hc (by simp [hcopy])
  case finish => exact fun hc => absurd hc (by simp [hcopy])

/-- Without copies the chunks lie in the destination, behind what has been written. -/
theorem data_of_inPlace (hs : dst.stream.WF)
    (h : compressInitPar memory zfp dst field chunks blocks = some bs)
    (hcopy : copyChunks zfp dst.stream = false) {c : ℕ} (hc : c < bs.length) :
    8 * bs[c].data =
      8 * dst.data + streamWtell dst.stream + chunkOffset blocks chunks c * zfp.maxbits := by
  obtain ⟨hmax, htell⟩ := copyChunks_eq_false hcopy
  have hmul : 8 * (zfp.maxbits / 8) = zfp.maxbits :=
    Nat.mul_div_cancel' ((eight_dvd_wsize T).trans (Nat.dvd_of_mod_eq_zero hmax))
  have hdata := ((compressInitPar_getElem h).2 c hc).2
  rw [if_neg (by simp [hcopy])] at hdata
  rw [hdata, Nat.mul_add, Nat.mul_add, eight_mul_streamSize hs htell, Nat.mul_left_comm, hmul]

theorem finishCopies_iff_of_inPlace (hs : dst.stream.WF) (hchunks : 0 < chunks)
    (h : compressInitPar memory zfp dst field chunks blocks = some bs)
    (hcopy : copyChunks zfp dst.stream = false) :
    finishCopies dst (compressChunks ops zfp block blocks chunks bs) = false ↔
      streamWtell dst.stream = 0 := by
  have hpos : 0 < bs.length := by
    rw [(compressInitPar_getElem h).1]
    exact hchunks
  have hzero := data_of_inPlace hs h hcopy hpos
  rw [chunkOffset_zero, Nat.zero_mul, Nat.add_zero] at hzero
  rw [finishCopies_eq ops block hpos, decide_eq_false_iff_not, not_not]
  omega

/-- Where nothing is copied the destination is moved to the end of the last chunk. -/
theorem streamWtell_compressFinishPar (hd : d ≤ 4) (hchunks : 0 < chunks) (hint : chunks < 2 ^ 31)
    (h : compressInitPar memory zfp dst field chunks blocks = some bs)
    (hfalse : finishCopies dst (compressChunks ops zfp block blocks chunks bs) = false)
    (mem : ℕ → BitVec (wsize T)) :
    streamWtell (compressFinishPar { dst with stream := { dst.stream with mem := mem } }
      (compressChunks ops zfp block blocks chunks bs)).1.stream =
      streamWtell dst.stream + ((List.range chunks).map fun c =>
        (codes ops zfp block (chunkOffset blocks chunks c)
          (chunkOffset blocks chunks (c + 1))).length).sum := by
  have hpos : 0 < bs.length := by
    rw [(compressInitPar_getElem h).1]
    exact hchunks
  have hfalse' : finishCopies { dst with stream := { dst.stream with mem := mem } }
      (compressChunks ops zfp block blocks chunks bs) = false := by
    rwa [finishCopies_eq ops block hpos] at hfalse ⊢
  rw [compressFinishPar, hfalse', foldl_finishChunk,
    map_streamWtell_compressChunks ops block hd hint h]
  exact streamWtell_streamWseek _ _

/-- Without copies the two decisions agree only at the beginning of the destination, and only if the
blocks before each chunk take `maxbits` bits each on the average. -/
theorem copyConsistent_iff_of_inPlace (hd : d ≤ 4) (hs : dst.stream.WF) (hchunks : 0 < chunks)
    (hint : chunks < 2 ^ 31) (h : compressInitPar memory zfp dst field chunks blocks = some bs)
    (hcopy : copyChunks zfp dst.stream = false) :
    CopyConsistent ops zfp block dst blocks chunks bs ↔ streamWtell dst.stream = 0 ∧
      (∀ c < chunks, (codes ops zfp block 0 (chunkOffset blocks chunks c)).length =
        chunkOffset blocks chunks c * zfp.maxbits) ∧
      ((List.range chunks).map fun c => (codes ops zfp block (chunkOffset blocks chunks c)
        (chunkOffset blocks chunks (c + 1))).length).sum = (codes ops zfp block 0 blocks).length := by
  obtain ⟨hlen, -⟩ := compressInitPar_getElem h
  have hbranch := finishCopies_iff_of_inPlace ops block hs hchunks h hcopy
  constructor
  · intro hcons
    have hfalse := hcons.branch.trans hcopy
    refine ⟨hbranch.mp hfalse, fun c hc => ?_, ?_⟩
    · have hstart := hcons.start hcopy c (by omega)
      rw [data_of_inPlace hs h hcopy (by omega),
        streamWtell_compressBlocks ops zfp block hs hd] at hstart
      omega
    · have hfin := hcons.finish hcopy dst.stream.mem
      rw [streamWtell_compressFinishPar ops block hd hchunks hint h hfalse,
        streamWtell_compressBlocks ops zfp block hs hd] at hfin
      omega
  · rintro ⟨hbegin, hfilled, hall⟩
    have hfalse := hbranch.mpr hbegin
    constructor
    case branch => rw [hfalse, hcopy]
    case freed =>
      rw [compressFinishPar, hfalse, foldl_finishChunk, hcopy]
      rfl
    case start =>
      intro _ c hc
      rw [data_of_inPlace hs h hcopy hc, streamWtell_compressBlocks ops zfp block hs hd,
        hfilled c (by omega)]
      omega
    case finish =>
      intro _ mem
      rw [streamWtell_compressFinishPar ops block hd hchunks hint h hfalse, hall,
        streamWtell_compressBlocks ops zfp block hs hd]

end

end Zfp

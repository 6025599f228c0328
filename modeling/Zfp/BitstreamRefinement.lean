import Zfp.BitstreamShifts

/-!
# The bit stream refines a list of bits

Runs of write operations, followed by a flush, a rewind and runs of read operations, are
compared with the list of bits that the operations stand for.
-/

namespace Zfp
open BitLists Bitstream

variable {T : WordType}

/-- A write operation; `stream_write_bits` takes between 0 and 64 bits. -/
inductive WriteOp
  | bit (b : Bool)
  | bits (value : BitVec 64) (n : Fin 65)
  | pad (n : ℕ)
  | flush

/-- A read operation; `stream_read_bits` takes between 0 and 64 bits. -/
inductive ReadOp
  | bit
  | bits (n : Fin 65)
  | skip (n : ℕ)

def stepWrite (s : Bitstream T) : WriteOp → Bitstream T
  | .bit b => streamWriteBit s b
  | .bits value n => (streamWriteBits s value n).2
  | .pad n => streamPad s n
  | .flush => (streamFlush s).2

def stepWriteChecked (s : Bitstream T) : WriteOp → Option (Bitstream T)
  | .bit b => streamWriteBitChecked s b
  | .bits value n => (streamWriteBitsChecked s value n).map Prod.snd
  | .pad n => some (streamPad s n)
  | .flush => some (streamFlush s).2

/-- The value a read operation returns (none for a skip), and the state after it. -/
def stepRead (s : Bitstream T) : ReadOp → List (BitVec 64) × Bitstream T
  | .bit => let r := streamReadBit s; ([(BitVec.ofBool r.1).setWidth 64], r.2)
  | .bits n => let r := streamReadBits s n; ([r.1], r.2)
  | .skip n => ([], streamSkip s n)

def stepReadChecked (s : Bitstream T) : ReadOp → Option (List (BitVec 64) × Bitstream T)
  | .bit => (streamReadBitChecked s).map fun r => ([(BitVec.ofBool r.1).setWidth 64], r.2)
  | .bits n => (streamReadBitsChecked s n).map fun r => ([r.1], r.2)
  | .skip n => (streamRseekChecked s (streamRtell s + n)).map fun s => ([], s)

def runWrites (s : Bitstream T) (ops : List WriteOp) : Bitstream T := ops.foldl stepWrite s

def runWritesChecked (s : Bitstream T) (ops : List WriteOp) : Option (Bitstream T) :=
  ops.foldlM stepWriteChecked s

def runReads (s : Bitstream T) : List ReadOp → List (BitVec 64) × Bitstream T
  | [] => ([], s)
  | op :: ops =>
    let r := stepRead s op
    let q := runReads r.2 ops
    (r.1 ++ q.1, q.2)

def runReadsChecked (s : Bitstream T) : List ReadOp → Option (List (BitVec 64) × Bitstream T)
  | [] => some ([], s)
  | op :: ops => do
    let r ← stepReadChecked s op
    let q ← runReadsChecked r.2 ops
    return (r.1 ++ q.1, q.2)

/-- The number of zeros that align a stream of `n` bits on a word boundary. -/
def flushCount (T : WordType) (n : ℕ) : ℕ := (wsize T - n % wsize T) % wsize T

def WriteOp.toBits (T : WordType) (n : ℕ) : WriteOp → List Bool
  | .bit b => [b]
  | .bits value k => lowBits value k
  | .pad k => List.replicate k false
  | .flush => List.replicate (flushCount T n) false

def writtenBits (T : WordType) (ops : List WriteOp) : List Bool :=
  ops.foldl (fun l op => l ++ op.toBits T l.length) []

/-- The words in memory followed by the buffered bits. -/
def Bitstream.contents (s : Bitstream T) : List Bool :=
  (List.range s.ptr).flatMap (fun j => lowBits (s.mem j) (wsize T)) ++ lowBits s.buffer s.bits

def ReadOp.count : ReadOp → ℕ
  | .bit => 1
  | .bits n => n
  | .skip n => n

/-- The bits `[o, o + n)` of `f` as a number. -/
def segment (f : ℕ → Bool) (o n : ℕ) : BitVec 64 := wordOf 64 fun i => decide (i < n) && f (o + i)

/-- The values that read operations return on the bits `f` from offset `o` on. -/
def readSegments (f : ℕ → Bool) : ℕ → List ReadOp → List (BitVec 64)
  | _, [] => []
  | o, .skip n :: ops => readSegments f (o + n) ops
  | o, op :: ops => segment f o op.count :: readSegments f (o + op.count) ops

theorem streamOpen_wf (mem : ℕ → BitVec (wsize T)) : (streamOpen mem).WF := WF.rewind _

theorem streamWtell_rewind (s : Bitstream T) : streamWtell (streamRewind s) = 0 := by
  simp [streamWtell, streamRewind]

theorem streamWtell_open (mem : ℕ → BitVec (wsize T)) : streamWtell (streamOpen mem) = 0 :=
  streamWtell_rewind _

theorem Bitstream.WF.bits_eq_mod {s : Bitstream T} (hs : s.WF) :
    s.bits = streamWtell s % wsize T := by
  rw [streamWtell, Nat.mul_add_mod_self_right, Nat.mod_eq_of_lt hs.bits_lt]

theorem streamFlush_append {s : Bitstream T} (hs : s.WF) :
    (streamFlush s).2 = s.append (List.replicate (flushCount T (streamWtell s)) false) := by
  rw [streamFlush_eq hs, flushCount, ← hs.bits_eq_mod]

private theorem flatMap_lowBits (mem : ℕ → BitVec (wsize T)) (n : ℕ) :
    (List.range n).flatMap (fun j => lowBits (mem j) (wsize T)) =
      (List.range (n * wsize T)).map (memBit mem) := by
  induction n with
  | zero => simp
  | succ n ih =>
    rw [List.range_succ, List.flatMap_append, ih, List.flatMap_singleton, Nat.succ_mul,
      List.range_add, List.map_append, List.map_map]
    congr 1
    apply List.map_congr_left
    intro k hk
    exact (memBit_word mem n (List.mem_range.mp hk)).symm

theorem Bitstream.contents_eq (s : Bitstream T) :
    s.contents = (List.range (streamWtell s)).map s.bitAt := by
  rw [contents, streamWtell, flatMap_lowBits, List.range_add, List.map_append, List.map_map]
  congr 1
  · apply List.map_congr_left
    intro i hi
    exact (bitAt_of_lt s (List.mem_range.mp hi)).symm
  · apply List.map_congr_left
    intro k _
    exact (bitAt_buffer s k).symm

/-- Writing a list extends the contents by it. -/
theorem Bitstream.contents_append {s : Bitstream T} (hs : s.WF) (l : List Bool) :
    (s.append l).contents = s.contents ++ l := by
  have h := append_wrote hs l
  rw [contents_eq, contents_eq, h.wtell, List.range_add, List.map_append, List.map_map]
  congr 1
  · apply List.map_congr_left
    intro i hi
    exact h.old i (List.mem_range.mp hi)
  · apply List.ext_getElem (by simp)
    intro k hk _
    rw [List.length_map, List.length_range] at hk
    simp only [List.getElem_map, List.getElem_range, Function.comp_apply]
    rw [h.new k hk, List.getD_eq_getElem _ _ hk]

theorem stepWrite_append {s : Bitstream T} (hs : s.WF) (op : WriteOp) :
    stepWrite s op = s.append (op.toBits T (streamWtell s)) := by
  cases op with
  | bit b => rfl
  | bits value n => exact congrArg Prod.snd (streamWriteBits_eq hs value (by omega))
  | pad n => exact streamPad_eq hs n
  | flush => exact streamFlush_append hs

private theorem stepWriteChecked_eq {s : Bitstream T} (hs : s.WF) (op : WriteOp) :
    stepWriteChecked s op = some (stepWrite s op) := by
  cases op with
  | bit b => exact streamWriteBitChecked_eq hs b
  | bits value n =>
    rw [stepWriteChecked, streamWriteBitsChecked_eq hs value (by omega)]
    rfl
  | pad n => rfl
  | flush => rfl

/-- A run of writes appends the bits it stands for, and every shift in it is defined. -/
theorem runWrites_eq (mem : ℕ → BitVec (wsize T)) (ops : List WriteOp) :
    runWrites (streamOpen mem) ops = (streamOpen mem).append (writtenBits T ops) ∧
      runWritesChecked (streamOpen mem) ops = some (runWrites (streamOpen mem) ops) := by
  induction ops using List.reverseRecOn with
  | nil => exact ⟨rfl, rfl⟩
  | append_singleton ops op ih =>
    obtain ⟨ih, ihc⟩ := ih
    have hwf : (runWrites (streamOpen mem) ops).WF := ih ▸ (streamOpen_wf mem).append _
    have hlen : streamWtell (runWrites (streamOpen mem) ops) = (writtenBits T ops).length := by
      rw [ih, streamWtell_append (streamOpen_wf mem), streamWtell_open, Nat.zero_add]
    have hsnoc : runWrites (streamOpen mem) (ops ++ [op]) =
        stepWrite (runWrites (streamOpen mem) ops) op := by simp [runWrites]
    rw [hsnoc]
    constructor
    · rw [stepWrite_append hwf, hlen, ih, ← append_append]
      simp [writtenBits]
    · rw [runWritesChecked, List.foldlM_append, ← runWritesChecked, ihc]
      simp [stepWriteChecked_eq hwf]

private theorem segment_one (f : ℕ → Bool) (o : ℕ) :
    segment f o 1 = (BitVec.ofBool (f o)).setWidth 64 := by
  apply BitVec.eq_of_getLsbD_eq
  intro i hi
  rw [segment, getLsbD_wordOf, BitVec.getLsbD_setWidth]
  cases i <;> simp

/-- A run of reads returns the segments of memory in turn, and every shift in it is defined. -/
theorem runReads_rseek (s : Bitstream T) (o : ℕ) (ops : List ReadOp) :
    runReads (streamRseek s o) ops =
        (readSegments (memBit s.mem) o ops, streamRseek s (o + (ops.map ReadOp.count).sum)) ∧
      runReadsChecked (streamRseek s o) ops = some (runReads (streamRseek s o) ops) := by
  induction ops generalizing o with
  | nil => exact ⟨rfl, rfl⟩
  | cons op ops ih =>
    rw [List.map_cons, List.sum_cons, ← Nat.add_assoc]
    cases op with
    | bit =>
      obtain ⟨h, hc⟩ := ih (o + 1)
      simp only [runReads, runReadsChecked, stepRead, stepReadChecked, streamReadBitChecked_eq,
        streamReadBit_rseek, readSegments, ReadOp.count, segment_one, Option.map_some]
      simp [h, hc]
    | bits n =>
      obtain ⟨h, hc⟩ := ih (o + n)
      simp only [runReads, runReadsChecked, stepRead, stepReadChecked,
        streamReadBitsChecked_eq (streamRseek_wf s o) (show (n : ℕ) ≤ 64 by omega),
        streamReadBits_rseek s o (show (n : ℕ) ≤ 64 by omega), readSegments, ReadOp.count,
        Option.map_some]
      simp [h, hc, fieldAt, segment]
    | skip n =>
      obtain ⟨h, hc⟩ := ih (o + n)
      simp only [runReads, runReadsChecked, stepRead, stepReadChecked, streamRseekChecked_eq,
        streamSkip_rseek, streamRtell_rseek, streamRseek_rseek, readSegments, ReadOp.count,
        Option.map_some]
      simp [h, hc]

/-- A stream that was written up to a word boundary has nothing buffered. -/
theorem append_aligned (mem : ℕ → BitVec (wsize T)) {l : List Bool} (hl : l.length % wsize T = 0) :
    ((streamOpen mem).append l).bits = 0 ∧
      ((streamOpen mem).append l).ptr * wsize T = l.length := by
  have h := append_wrote (streamOpen_wf mem) l
  have htell : streamWtell ((streamOpen mem).append l) = l.length := by
    rw [h.wtell, streamWtell_open, Nat.zero_add]
  have hbits : ((streamOpen mem).append l).bits = 0 := by rw [h.wf.bits_eq_mod, htell, hl]
  exact ⟨hbits, by rw [← htell, streamWtell, hbits, Nat.add_zero]⟩

/-- The memory after a flush: the bits written, then whatever was there. -/
theorem memBit_flushed (mem : ℕ → BitVec (wsize T)) (l : List Bool) (hl : l.length % wsize T = 0)
    (i : ℕ) : memBit ((streamOpen mem).append l).mem i =
      if i < l.length then l.getD i false else memBit mem i := by
  have h := append_wrote (streamOpen_wf mem) l
  obtain ⟨hbits, hptr⟩ := append_aligned mem hl
  by_cases hi : i < l.length
  · have hn := h.new i hi
    rw [streamWtell_open, Nat.zero_add, bitAt_of_lt _ (by omega)] at hn
    rw [hn, if_pos hi]
  · have hj : ((streamOpen mem).append l).ptr ≤ i / wsize T := by
      rw [Nat.le_div_iff_mul_le (wsize_pos T)]
      omega
    rw [if_neg hi, memBit, h.rest _ hj]
    rfl

theorem flushCount_mod (T : WordType) (n : ℕ) : (n + flushCount T n) % wsize T = 0 := by
  have hpos := wsize_pos T
  have hlt := Nat.mod_lt n hpos
  rw [flushCount, Nat.add_mod_mod, ← Nat.mod_add_mod,
    show n % wsize T + (wsize T - n % wsize T) = wsize T by omega, Nat.mod_self]

/-- The bytes up to the word boundary at or after bit `o`. -/
def wordBytes (T : WordType) (o : ℕ) : ℕ := (o + wsize T - 1) / wsize T * (wsize T / 8)

theorem wordBytes_eq_zero {o : ℕ} : wordBytes T o = 0 ↔ o = 0 := by
  have hpos := wsize_pos T
  have hword : 0 < wsize T / 8 := Nat.div_pos (Nat.le_of_dvd hpos (eight_dvd_wsize T)) (by decide)
  rw [wordBytes, Nat.mul_eq_zero, or_iff_left hword.ne', Nat.div_eq_zero_iff, or_iff_right hpos.ne']
  omega

theorem streamSize_flush {s : Bitstream T} (hs : s.WF) :
    streamSize (streamFlush s).2 = wordBytes T (streamWtell s) := by
  have hpos := wsize_pos T
  have hmod := flushCount_mod T (streamWtell s)
  have hlt : flushCount T (streamWtell s) < wsize T := Nat.mod_lt _ hpos
  have htell := streamWtell_append hs (List.replicate (flushCount T (streamWtell s)) false)
  have hbits := (hs.append (List.replicate (flushCount T (streamWtell s)) false)).bits_eq_mod
  rw [List.length_replicate] at htell
  rw [htell, hmod] at hbits
  rw [streamWtell, hbits, Nat.add_zero] at htell
  rw [streamFlush_append hs, streamSize, wordBytes]
  congr 1
  refine (Nat.div_eq_of_lt_le (by omega) ?_).symm
  rw [Nat.succ_mul]
  omega

theorem streamSize_align (s : Bitstream T) (o : ℕ) :
    streamSize (streamAlign (streamRseek s o)).2 = wordBytes T o := by
  have hpos := wsize_pos T
  rw [streamAlign_rseek, streamSize, streamRseek_ptr, wordBytes]
  congr 1
  refine Nat.div_eq_of_lt_le (by omega) ?_
  rw [Nat.succ_mul]
  omega

/-- A run of writes and a flush append the written bits and the zeros of the flush. -/
theorem streamFlush_runWrites (mem : ℕ → BitVec (wsize T)) (ops : List WriteOp) :
    (streamFlush (runWrites (streamOpen mem) ops)).2 = (streamOpen mem).append
      (writtenBits T ops ++ List.replicate (flushCount T (writtenBits T ops).length) false) := by
  have hwf := (streamOpen_wf mem).append (writtenBits T ops)
  rw [(runWrites_eq mem ops).1, streamFlush_append hwf, streamWtell_append (streamOpen_wf mem),
    streamWtell_open, Nat.zero_add, ← append_append]

theorem segment_congr {f f' : ℕ → Bool} {n : ℕ} (h : ∀ i < n, f i = f' i) {o k : ℕ}
    (hk : o + k ≤ n) : segment f o k = segment f' o k := by
  apply BitVec.eq_of_getLsbD_eq
  intro i _
  rw [segment, segment, getLsbD_wordOf, getLsbD_wordOf]
  by_cases hi : i < k
  · rw [h (o + i) (by omega)]
  · simp [hi]

/-- Reads that stay below `n` depend on the first `n` bits only. -/
theorem readSegments_congr {f f' : ℕ → Bool} {n : ℕ} (h : ∀ i < n, f i = f' i) {o : ℕ}
    {ops : List ReadOp} (hn : o + (ops.map ReadOp.count).sum ≤ n) :
    readSegments f o ops = readSegments f' o ops := by
  induction ops generalizing o with
  | nil => rfl
  | cons op ops ih =>
    rw [List.map_cons, List.sum_cons, ← Nat.add_assoc] at hn
    have htail := ih hn
    cases op with
    | bit => exact congrArg₂ List.cons (segment_congr h (by omega)) htail
    | bits k => exact congrArg₂ List.cons (segment_congr h (by omega)) htail
    | skip k => exact htail

/-- After a flush the memory holds every bit that was written. -/
theorem reads_flush {s : Bitstream T} (hs : s.WF) (l : List Bool) :
    Reads (memBit (streamFlush (s.append l)).2.mem) (streamWtell s) l := by
  have hwf := hs.append l
  rw [streamFlush_append hwf, ← append_append, reads_iff]
  set z := List.replicate (flushCount T (streamWtell (s.append l))) false with hz
  have h := append_wrote hs (l ++ z)
  have hbits : (s.append (l ++ z)).bits = 0 := by
    rw [h.wf.bits_eq_mod, h.wtell, List.length_append, ← Nat.add_assoc, ← streamWtell_append hs,
      hz, List.length_replicate, flushCount_mod]
  intro i hi
  have htell := h.wtell
  rw [streamWtell, hbits, Nat.add_zero, List.length_append] at htell
  have hlt : streamWtell s + i < (s.append (l ++ z)).ptr * wsize T := by omega
  rw [← bitAt_of_lt _ hlt, h.new i (by rw [List.length_append]; omega), List.getD_append _ _ _ _ hi]

/-- The bit stream is a list of bits. For every word type, every run of write operations
spells its bits in memory and buffer, keeps the stream invariant and executes defined shifts
only; after a flush and a rewind every run of reads returns the segments of those bits, the
bits behind them being the ones the memory held before. -/
theorem bitstream_refines_bit_list (T : WordType) (mem : ℕ → BitVec (wsize T))
    (ops : List WriteOp) :
    let s := runWrites (streamOpen mem) ops
    let l := writtenBits T ops
    s.contents = l ∧ streamWtell s = l.length ∧ s.bits < wsize T ∧
      s.buffer.toNat < 2 ^ s.bits ∧ runWritesChecked (streamOpen mem) ops = some s ∧
      (∀ value n, n ≤ 64 → (streamWriteBits s value n).1 = value >>> n) ∧
      ∀ reads : List ReadOp,
        let flushed := l ++ List.replicate (flushCount T l.length) false
        let f := fun i => if i < flushed.length then flushed.getD i false else memBit mem i
        let r := runReads (streamRewind (streamFlush s).2) reads
        r.1 = readSegments f 0 reads ∧ streamRtell r.2 = (reads.map ReadOp.count).sum ∧
          r.2.bits < wsize T ∧ r.2.buffer.toNat < 2 ^ r.2.bits ∧
          runReadsChecked (streamRewind (streamFlush s).2) reads = some r := by
  intro s l
  obtain ⟨hs, hchecked⟩ := runWrites_eq mem ops
  have hwf : s.WF := (congrArg Bitstream.WF hs).mpr ((streamOpen_wf mem).append l)
  have htell : streamWtell s = l.length := by
    show streamWtell (runWrites (streamOpen mem) ops) = _
    rw [hs, streamWtell_append (streamOpen_wf mem), streamWtell_open, Nat.zero_add]
  refine ⟨?_, htell, hwf.bits_lt, hwf.buffer_lt, hchecked,
    fun value n hn => congrArg Prod.fst (streamWriteBits_eq hwf value hn), ?_⟩
  · show (runWrites (streamOpen mem) ops).contents = l
    rw [hs, contents_append (streamOpen_wf mem), contents_eq, streamWtell_open]
    rfl
  · intro reads flushed f r
    have hflush : (streamFlush s).2 = (streamOpen mem).append flushed :=
      streamFlush_runWrites mem ops
    have hf : memBit (streamFlush s).2.mem = f := by
      funext i
      rw [hflush, memBit_flushed mem flushed]
      rw [List.length_append, List.length_replicate]
      exact flushCount_mod T _
    obtain ⟨hr, hrc⟩ := runReads_rseek (streamFlush s).2 0 reads
    rw [← streamRewind_eq] at hr hrc
    rw [hf, Nat.zero_add] at hr
    have hr2 : r.2 = streamRseek (streamFlush s).2 (reads.map ReadOp.count).sum :=
      congrArg Prod.snd hr
    have hrwf := streamRseek_wf (streamFlush s).2 (reads.map ReadOp.count).sum
    rw [← hr2] at hrwf
    exact ⟨congrArg Prod.fst hr, by rw [hr2, streamRtell_rseek], hrwf.bits_lt, hrwf.buffer_lt, hrc⟩

end Zfp

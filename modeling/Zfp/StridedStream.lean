import Zfp.StridedSimulation

/-!
# Runs on strided streams

What a run of writes and a flush stored in strided memory is read back after a rewind, as long
as no skip moves past the block that holds the next unread word: `stream_skip` counts in bits
of memory, and the gap behind a block counts there while the stream does not see it.
-/

namespace Zfp.Strided
open BitLists StrideLayout

variable {T : WordType} {g : Stride} {s : Bitstream T} {u v : Zfp.Bitstream T}
variable {mem : ℤ → BitVec (wsize T)}

def stepWrite (s : Bitstream T) : WriteOp → Bitstream T
  | .bit b => streamWriteBit s b
  | .bits value n => (streamWriteBits s value n).2
  | .pad n => streamPad s n
  | .flush => (streamFlush s).2

/-- The value a read operation returns (none for a skip), and the state after it. -/
def stepRead (s : Bitstream T) : ReadOp → List (BitVec 64) × Bitstream T
  | .bit => let r := streamReadBit s; ([(BitVec.ofBool r.1).setWidth 64], r.2)
  | .bits n => let r := streamReadBits s n; ([r.1], r.2)
  | .skip n => ([], streamSkip s n)

def runWrites (s : Bitstream T) (ops : List WriteOp) : Bitstream T := ops.foldl stepWrite s

def runReads (s : Bitstream T) : List ReadOp → List (BitVec 64) × Bitstream T
  | [] => ([], s)
  | op :: ops =>
    let r := stepRead s op
    let q := runReads r.2 ops
    (r.1 ++ q.1, q.2)

/-- Skipping `n` bits leaves the reader where reading them one by one would. -/
def InStep (s : Bitstream T) : ReadOp → Prop
  | .skip n => streamSkip s n = (runReads s (List.replicate n .bit)).2
  | _ => True

/-- Every skip of a run is in step with reading. -/
def SkipsInStep (s : Bitstream T) : List ReadOp → Prop
  | [] => True
  | op :: ops => InStep s op ∧ SkipsInStep (stepRead s op).2 ops

/-- A skip from bit offset `o` ends in the block of the next word to be fetched, or there are
no gaps. -/
def StaysInBlock (T : WordType) (block : ℕ) (delta : ℤ) (o : ℕ) : ReadOp → Prop
  | .skip n =>
    delta = 0 ∨ (o + n) / wsize T / block = (o + wsize T - 1) / wsize T / block
  | _ => True

/-- Every skip of a run that starts at bit offset `o` stays in its block. -/
def SkipsStay (T : WordType) (block : ℕ) (delta : ℤ) : ℕ → List ReadOp → Prop
  | _, [] => True
  | o, op :: ops => StaysInBlock T block delta o op ∧ SkipsStay T block delta (o + op.count) ops

/-- The strided stream returns the values of the unstrided one, and its skips are in step. -/
def Transparent (s : Bitstream T) (u : Zfp.Bitstream T) (ops : List ReadOp) : Prop :=
  (runReads s ops).1 = (Zfp.runReads u ops).1 ∧ SkipsInStep s ops

theorem Writing.step (h : Writing g mem s u) (op : WriteOp) :
    Writing g mem (stepWrite s op) (Zfp.stepWrite u op) := by
  cases op with
  | bit b => exact h.writeBit b
  | bits value n => exact h.writeBits value n
  | pad n => exact h.pad n
  | flush => exact h.flush

theorem Writing.run (h : Writing g mem s u) (ops : List WriteOp) :
    Writing g mem (runWrites s ops) (Zfp.runWrites u ops) := by
  induction ops generalizing s u with
  | nil => exact h
  | cons op ops ih => exact ih (h.step op)

/-- Seeking to the place of an offset. -/
theorem Reading.rseek (h : Reading g mem s u) {o : ℕ} {x : ℤ}
    (hmod : (x % wsize T).toNat = o % wsize T) (hdiv : x / wsize T = g.place (o / wsize T)) :
    Reading g mem (streamRseek s x) (Zfp.streamRseek u o) := by
  have hmove : Reading g mem { s with ptr := x / wsize T } { u with ptr := o / wsize T } :=
    ⟨⟨h.block_pow, h.mask_eq, h.delta_eq, h.bits_eq, h.buffer_eq, hdiv⟩, h.mem_eq, h.word_eq⟩
  simp only [streamRseek, Zfp.streamRseek, hmod]
  split
  · obtain ⟨hw, hr⟩ := hmove.readWord
    rw [hw]
    exact hr.load _ _
  · exact hmove.load 0 0

/-- A seek that ends at the place of an offset started there. -/
theorem Reading.place_of_rseek (h : Reading g mem s u) {o : ℕ} {x : ℤ}
    (hmod : (x % wsize T).toNat = o % wsize T)
    (hdvd : (g.block : ℤ) ∣ x / wsize T - (o / wsize T : ℕ))
    (hptr : (streamRseek s x).ptr = g.place (Zfp.streamRseek u o).ptr) :
    x / wsize T = g.place (o / wsize T) := by
  obtain ⟨k, hk, hg⟩ := h.block_pow
  simp only [streamRseek, Zfp.streamRseek, hmod] at hptr
  split at hptr
  · replace hptr : nextPtr { s with ptr := x / wsize T } = g.place (o / wsize T + 1) := hptr
    have hnext := nextPtr_place (s := { s with ptr := x / wsize T }) hk hg h.mask_eq h.delta_eq hdvd
    rw [hptr] at hnext
    dsimp only at hnext
    omega
  · exact hptr

/-- Skipping from offset `o`, the reader lands on the place of `o + n` just when the skip stays
in the block of the next word, and it never lands there by chance. -/
theorem Reading.skip {o : ℕ} (h : Reading g mem s (Zfp.streamRseek v o)) (n : ℕ) :
    (StaysInBlock T g.block g.offset o (.skip n) →
        Reading g mem (streamSkip s n) (Zfp.streamRseek v (o + n))) ∧
      ((streamSkip s n).ptr = g.place (Zfp.streamRseek v (o + n)).ptr →
        StaysInBlock T g.block g.offset o (.skip n)) := by
  have hpos := wsize_pos T
  have hr := Zfp.streamRseek_reads v o
  set q := (Zfp.streamRseek v o).ptr with hq
  -- the linear offset counts the gaps before the next word
  have htell : streamRtell s + n = ((o + n : ℕ) : ℤ) + (g.place q - q) * wsize T := by
    have hp : (q : ℤ) * wsize T = o + (Zfp.streamRseek v o).bits := by exact_mod_cast hr.ptr_mul
    rw [streamRtell, h.ptr_eq, h.bits_eq, ← hq, Int.sub_mul, hp]
    push_cast
    omega
  have hdiv : (streamRtell s + n) / wsize T = g.place q + (((o + n) / wsize T : ℕ) - q) := by
    rw [htell, Int.add_mul_ediv_right _ _ (by omega)]
    push_cast
    omega
  have hmod : ((streamRtell s + n) % wsize T).toNat = (o + n) % wsize T := by
    rw [htell, Int.add_mul_emod_self_right]
    exact_mod_cast rfl
  have hstay : StaysInBlock T g.block g.offset o (.skip n) ↔
      (streamRtell s + n) / wsize T = g.place ((o + n) / wsize T) := by
    rw [hdiv, g.place_add_sub, hq, Zfp.streamRseek_ptr]
    rfl
  rw [hstay, ← Zfp.streamRseek_rseek v o (o + n)]
  constructor
  · intro hplace
    exact h.rseek hmod hplace
  · intro hptr
    refine h.place_of_rseek hmod ?_ hptr
    rw [hdiv]
    have := g.dvd_place_sub q
    rwa [show g.place q + (((o + n) / wsize T : ℕ) - q) - ((o + n) / wsize T : ℕ) =
      g.place q - q by omega]

/-- One read: the value and the position are those of the unstrided stream. -/
theorem Reading.step {o : ℕ} (h : Reading g mem s (Zfp.streamRseek v o)) {op : ReadOp}
    (hop : StaysInBlock T g.block g.offset o op) :
    (stepRead s op).1 = (Zfp.stepRead (Zfp.streamRseek v o) op).1 ∧
      Reading g mem (stepRead s op).2 (Zfp.streamRseek v (o + op.count)) := by
  cases op with
  | bit =>
    obtain ⟨hv, hr⟩ := h.readBit
    rw [Zfp.streamReadBit_rseek] at hv hr
    exact ⟨by simp only [stepRead, Zfp.stepRead, hv, Zfp.streamReadBit_rseek], hr⟩
  | bits n =>
    obtain ⟨hv, hr⟩ := h.readBits n
    rw [Zfp.streamReadBits_rseek v o (by omega)] at hr
    exact ⟨by simp only [stepRead, Zfp.stepRead, hv], hr⟩
  | skip n => exact ⟨rfl, (h.skip n).1 hop⟩

/-- A run of reads whose skips stay in their blocks. -/
theorem Reading.run {o : ℕ} (h : Reading g mem s (Zfp.streamRseek v o)) {ops : List ReadOp}
    (hops : SkipsStay T g.block g.offset o ops) :
    (runReads s ops).1 = (Zfp.runReads (Zfp.streamRseek v o) ops).1 ∧
      Reading g mem (runReads s ops).2 (Zfp.streamRseek v (o + (ops.map ReadOp.count).sum)) := by
  induction ops generalizing s o with
  | nil => exact ⟨rfl, h⟩
  | cons op ops ih =>
    obtain ⟨hv, hr⟩ := h.step hops.1
    obtain ⟨hvs, hrs⟩ := ih hr hops.2
    have hstep : (Zfp.stepRead (Zfp.streamRseek v o) op).2 = Zfp.streamRseek v (o + op.count) := by
      have := (Zfp.runReads_rseek v o [op]).1
      exact congrArg Prod.snd this
    rw [List.map_cons, List.sum_cons, ← Nat.add_assoc]
    refine ⟨?_, hrs⟩
    simp only [runReads, Zfp.runReads, hv, hvs, hstep]

/-- A skip is in step with reading just when it stays in the block of the next word. -/
theorem Reading.inStep_iff {o : ℕ} (h : Reading g mem s (Zfp.streamRseek v o)) (op : ReadOp) :
    InStep s op ↔ StaysInBlock T g.block g.offset o op := by
  cases op with
  | bit => exact Iff.rfl
  | bits n => exact Iff.rfl
  | skip n =>
    have hbits : SkipsStay T g.block g.offset o (List.replicate n .bit) := by
      clear h
      induction n generalizing o with
      | zero => trivial
      | succ n ih => exact ⟨trivial, ih⟩
    have hread := (h.run hbits).2
    rw [List.map_replicate, List.sum_replicate_nat, ReadOp.count, Nat.mul_one] at hread
    constructor
    · intro heq
      exact (h.skip n).2 (by rw [heq, hread.ptr_eq])
    · intro hstay
      exact ((h.skip n).1 hstay).unique hread

theorem Reading.skipsInStep_iff {o : ℕ} (h : Reading g mem s (Zfp.streamRseek v o))
    (ops : List ReadOp) : SkipsInStep s ops ↔ SkipsStay T g.block g.offset o ops := by
  induction ops generalizing s o with
  | nil => exact Iff.rfl
  | cons op ops ih =>
    show InStep s op ∧ SkipsInStep (stepRead s op).2 ops ↔ _ ∧ _
    rw [h.inStep_iff op]
    constructor
    · rintro ⟨hop, hops⟩
      exact ⟨hop, (ih (h.step hop).2).mp hops⟩
    · rintro ⟨hop, hops⟩
      exact ⟨hop, (ih (h.step hop).2).mpr hops⟩

theorem dvd_strideDelta {block : ℕ} (hpow : block.isPowerOfTwo) (hblock : block < 2 ^ 64)
    (delta : ℤ) : (block : ℤ) ∣ strideDelta block delta := by
  obtain ⟨k, rfl⟩ := hpow
  have hk : k ≤ 64 := Nat.le_of_lt ((Nat.pow_lt_pow_iff_right (by decide)).mp hblock)
  have hword : ((2 ^ k : ℕ) : ℤ) ∣ ((2 ^ 64 : ℕ) : ℤ) :=
    Int.natCast_dvd_natCast.mpr (Nat.pow_dvd_pow 2 hk)
  rw [strideDelta, ptrdiffT, ← Int.sub_add_cancel (Int.bmod _ _) (delta * (2 ^ k : ℕ))]
  exact Int.dvd_add (Int.dvd_trans hword Int.dvd_bmod_sub_self) (Int.dvd_mul_left _ _)

def stride {block : ℕ} (hpow : block.isPowerOfTwo) (hblock : block < 2 ^ 64) (delta : ℤ) :
    Stride where
  block := block
  pos := Nat.pos_of_isPowerOfTwo hpow
  offset := strideDelta block delta
  dvd := dvd_strideDelta hpow hblock delta

theorem streamSetStride_eq (s : Bitstream T) {block : ℕ} (hpow : block.isPowerOfTwo)
    (hblock : block < 2 ^ 64) (delta : ℤ) : streamSetStride s block delta =
      (true, { s with mask := block - 1, delta := strideDelta block delta }) := by
  have hone := Nat.pos_of_isPowerOfTwo hpow
  obtain ⟨k, rfl⟩ := hpow
  rw [streamSetStride, sizeSub_of_le hone hblock, Nat.and_two_pow_sub_one_eq_mod, Nat.mod_self]
  rfl

/-- A rewound stream starts at the place of the first word. -/
theorem streamSetStride_writing (s : Bitstream T) (u : Zfp.Bitstream T) {block : ℕ}
    (hpow : block.isPowerOfTwo) (hblock : block < 2 ^ 64) (delta : ℤ) :
    Writing (stride hpow hblock delta) s.mem
      (streamSetStride (streamRewind s) block delta).2 (Zfp.streamRewind u) := by
  rw [streamSetStride_eq _ hpow hblock]
  have hk : ∃ k < 64, block = 2 ^ k := by
    obtain ⟨k, rfl⟩ := hpow
    exact ⟨k, (Nat.pow_lt_pow_iff_right (by decide)).mp hblock, rfl⟩
  exact ⟨⟨hk, rfl, rfl, rfl, rfl, (Stride.place_zero _).symm⟩, rfl⟩

/-- Rewound, a stream reads the words at the places of its layout. -/
theorem Writing.rewind (h : Writing g mem s u) :
    Reading g s.mem (streamRewind s)
      (Zfp.streamRseek { u with mem := fun q => s.mem (g.place q) } 0) := by
  rw [← Zfp.streamRewind_eq]
  exact ⟨⟨h.block_pow, h.mask_eq, h.delta_eq, rfl, rfl, (g.place_zero).symm⟩, rfl, fun _ => rfl⟩

/-- Strided streams are transparent up to skips. On every stride, after every run of writes
with a final flush and a rewind, every run of reads of what was written returns the values of
an unstrided stream, with every skip in step with reading, if the skips stay in the block of
the next word to be fetched and the delta that was formed does not point backwards or the
writes fill one block at most. A skip that leaves the block is never in step. -/
theorem stridedStream_transparent (s : Bitstream T) (u : Zfp.Bitstream T) {block : ℕ}
    (hpow : block.isPowerOfTwo) (hblock : block < 2 ^ 64) (delta : ℤ) (writes : List WriteOp)
    (reads : List ReadOp)
    (hreads : (reads.map ReadOp.count).sum ≤
      (writtenBits T writes).length + flushCount T (writtenBits T writes).length) :
    let strided := streamSetStride (streamRewind s) block delta
    let s' := streamRewind (streamFlush (runWrites strided.2 writes)).2
    let u' := Zfp.streamRewind (Zfp.streamFlush (Zfp.runWrites (Zfp.streamRewind u) writes)).2
    let offset := strideDelta block delta
    strided.1 = true ∧
      (0 ≤ offset ∨ (writtenBits T writes).length ≤ block * wsize T →
        SkipsStay T block offset 0 reads → Transparent s' u' reads) ∧
      (Transparent s' u' reads → SkipsStay T block offset 0 reads) := by
  intro strided s' u' offset
  set l := writtenBits T writes with hl
  have hpos := wsize_pos T
  let g := stride hpow hblock delta
  have hw := ((streamSetStride_writing s u hpow hblock delta).run writes).flush
  have hr := hw.rewind
  set w := (streamFlush (runWrites strided.2 writes)).2 with hwdef
  set x := (Zfp.streamFlush (Zfp.runWrites (Zfp.streamRewind u) writes)).2 with hx
  have hptr : x.ptr * wsize T = l.length + flushCount T l.length := by
    have hflush : x = (streamOpen u.mem).append _ := streamFlush_runWrites u.mem writes
    rw [hflush, (append_aligned u.mem _).2, List.length_append, List.length_replicate]
    rw [List.length_append, List.length_replicate]
    exact flushCount_mod T _
  refine ⟨congrArg Prod.fst (streamSetStride_eq _ hpow hblock delta), ?_, ?_⟩
  · intro hfront hstay
    refine ⟨?_, (hr.skipsInStep_iff reads).mpr hstay⟩
    have hcount : flushCount T l.length < wsize T := Nat.mod_lt _ hpos
    have hapart : g.Apart x.ptr := by
      rcases hfront with h | h
      · exact .inl h
      · right
        apply Nat.le_of_lt_succ
        apply Nat.lt_of_mul_lt_mul_right (a := wsize T)
        rw [Nat.succ_mul, hptr]
        exact Nat.add_lt_add_of_le_of_lt h hcount
    rw [(hr.run hstay).1, (Zfp.runReads_rseek _ 0 reads).1]
    show _ = (Zfp.runReads (Zfp.streamRewind x) reads).1
    rw [Zfp.streamRewind_eq, (Zfp.runReads_rseek _ 0 reads).1]
    apply readSegments_congr (n := x.ptr * wsize T)
    · intro i hi
      have hq : i / wsize T < x.ptr := Nat.div_lt_of_lt_mul (by rwa [Nat.mul_comm])
      rw [Bitstream.memBit, Bitstream.memBit]
      congr 1
      show w.mem (g.place _) = _
      rw [hw.mem_eq]
      exact hapart.spread_place s.mem x.mem hq
    · rw [hptr, Nat.zero_add]
      exact hreads
  · intro h
    exact (hr.skipsInStep_iff reads).mp h.2

def zeroed (T : WordType) : Bitstream T := ⟨0, 0, 0, fun _ => 0, 2 ^ 64 - 1, 0⟩

/-- Three words in blocks of two, read by a skip within the first block and across its end. -/
theorem stridedStream_transparent_two :
    Transparent
      (streamRewind (streamFlush (runWrites
        (streamSetStride (streamRewind (zeroed .uint8)) 2 1).2
        (List.replicate 24 (.bit true)))).2)
      (Zfp.streamRewind (Zfp.streamFlush (Zfp.runWrites
        (Zfp.streamRewind (streamOpen fun _ => 0 : Zfp.Bitstream .uint8))
        (List.replicate 24 (.bit true)))).2)
      [.skip 8, .bits 16] :=
  (stridedStream_transparent (zeroed .uint8) (streamOpen fun _ => 0) ⟨1, rfl⟩ (by decide) 1
    (List.replicate 24 (.bit true)) [.skip 8, .bits 16] (by decide)).2.1 (.inl (by decide))
    ⟨.inr (by decide), trivial, trivial⟩

/-- In blocks of one word, a skip of the first word lands in the gap behind it: the bit that is
read next is not the one that was written there. -/
theorem stridedStream_skip_gap :
    ¬ ∀ (T : WordType) (s : Bitstream T) (u : Zfp.Bitstream T) (block : ℕ) (delta : ℤ)
      (writes : List WriteOp) (reads : List ReadOp), block.isPowerOfTwo → block < 2 ^ 64 →
      0 ≤ delta → (reads.map ReadOp.count).sum ≤
        (writtenBits T writes).length + flushCount T (writtenBits T writes).length →
      Transparent
        (streamRewind (streamFlush (runWrites
          (streamSetStride (streamRewind s) block delta).2 writes)).2)
        (Zfp.streamRewind (Zfp.streamFlush (Zfp.runWrites (Zfp.streamRewind u) writes)).2)
        reads := by
  intro h
  have hvalues := (h .uint8 (zeroed .uint8) (streamOpen fun _ => 0) 1 1
    (List.replicate 8 (.bit false) ++ List.replicate 8 (.bit true)) [.skip 8, .bit] ⟨0, rfl⟩
    (by decide) (by decide) (by decide)).1
  revert hvalues
  decide

end Zfp.Strided

import Zfp.BitstreamRefinement
import Zfp.PlacedBits

/-!
# Seeking in the bit stream

A writer that seeks to a bit offset, writes and flushes leaves all bits before the offset and all
words behind its last one as they are. A reader is always where a seek to its offset would put it.
-/

namespace Zfp
open BitLists Bitstream

variable {T : WordType}

/-- The first word boundary at or after an offset. -/
def wordEnd (T : WordType) (o : ℕ) : ℕ := (o + wsize T - 1) / wsize T * wsize T

theorem add_flushCount (T : WordType) (o : ℕ) : o + flushCount T o = wordEnd T o := by
  have hpos := wsize_pos T
  have hdiv := Nat.div_add_mod o (wsize T)
  have hlt := Nat.mod_lt o hpos
  rw [Nat.mul_comm] at hdiv
  rw [wordEnd, flushCount]
  rcases Nat.eq_zero_or_pos (o % wsize T) with h | h
  · have hup : (o + wsize T - 1) / wsize T = o / wsize T := by
      apply (Nat.div_eq_iff hpos).mpr
      omega
    rw [h, hup, Nat.sub_zero, Nat.mod_self]
    omega
  · have hup : (o + wsize T - 1) / wsize T = o / wsize T + 1 := by
      apply (Nat.div_eq_iff hpos).mpr
      rw [Nat.add_mul]
      omega
    rw [hup, Nat.add_mul, Nat.one_mul, Nat.mod_eq_of_lt (by omega)]
    omega

/-- Flushing ends before every word boundary that the bits do not cross. -/
theorem add_flushCount_le {n e : ℕ} (hn : n ≤ e * wsize T) : n + flushCount T n ≤ e * wsize T := by
  have hpos := wsize_pos T
  have hlt : flushCount T n < wsize T := Nat.mod_lt _ hpos
  have hdiv : (n + flushCount T n) / wsize T * wsize T = n + flushCount T n :=
    Nat.div_mul_cancel (Nat.dvd_of_mod_eq_zero (flushCount_mod T n))
  have hle : (n + flushCount T n) / wsize T ≤ e := by
    rw [← Nat.lt_succ_iff, Nat.div_lt_iff_lt_mul hpos, Nat.succ_mul]
    omega
  rw [← hdiv]
  exact Nat.mul_le_mul_right _ hle

/-! ## Writers -/

/-- `t` is `s` after the bits of `l` were written at offset `o` and the stream was flushed. -/
structure Appended (s t : Bitstream T) (o : ℕ) (l : List Bool) : Prop where
  old : ∀ i < o, memBit t.mem i = memBit s.mem i
  new : Reads (memBit t.mem) o l
  pad : ∀ i, o + l.length ≤ i → i < wordEnd T (o + l.length) → memBit t.mem i = false
  rest : ∀ w, wordEnd T (o + l.length) ≤ w * wsize T → t.mem w = s.mem w
  wtell : streamWtell t = wordEnd T (o + l.length)

theorem appended_flush (s : Bitstream T) (o : ℕ) (l : List Bool) :
    Appended s (streamFlush ((streamWseek s o).append l)).2 o l := by
  have hwf := streamWseek_wf s o
  have htell := streamWtell_streamWseek s o
  have hnew := reads_flush hwf l
  rw [htell] at hnew
  have hflush := streamFlush_append (hwf.append l)
  rw [← append_append, streamWtell_append hwf, htell] at hflush
  have h := append_wrote hwf (l ++ List.replicate (flushCount T (o + l.length)) false)
  rw [← hflush] at h
  generalize (streamFlush ((streamWseek s o).append l)).2 = t at h hnew ⊢
  have hend := h.wtell
  rw [htell, List.length_append, List.length_replicate, ← Nat.add_assoc] at hend
  have hbits : t.bits = 0 := by
    rw [h.wf.bits_eq_mod, hend]
    exact flushCount_mod T _
  have hptr : t.ptr * wsize T = o + l.length + flushCount T (o + l.length) := by
    rw [← hend, streamWtell, hbits, Nat.add_zero]
  constructor
  case old =>
    intro i hi
    rw [← bitAt_of_lt t (by omega), h.old i (by rwa [htell]), bitAt_streamWseek s hi]
  case new => exact hnew
  case pad =>
    intro i hi hlt
    rw [← add_flushCount] at hlt
    obtain ⟨k, rfl⟩ := Nat.exists_eq_add_of_le hi
    have hk := h.new (l.length + k)
    rw [htell, List.length_append, List.length_replicate, ← Nat.add_assoc,
      bitAt_of_lt t (by omega)] at hk
    rw [hk (by omega), List.getD_append_right _ _ _ _ (Nat.le_add_right _ _),
      Nat.add_sub_cancel_left, getD_replicate_false]
  case rest =>
    intro w hw
    rw [h.rest w ?_, streamWseek_mem]
    rw [← add_flushCount, ← hptr] at hw
    exact Nat.le_of_mul_le_mul_right hw (wsize_pos T)
  case wtell => rw [hend, add_flushCount]

/-- In a stream of zeros the words are those of the written bits. -/
theorem Appended.mem_eq {s t : Bitstream T} {o : ℕ} {l : List Bool} (h : Appended s t o l)
    (hzero : ∀ w, s.mem w = 0) : t.mem = placed (wsize T) o l := by
  have hold : ∀ i, memBit s.mem i = false := fun i => by
    rw [memBit, hzero]
    exact BitVec.getLsbD_zero
  funext j
  apply BitVec.eq_of_getLsbD_eq
  intro i hi
  rw [getLsbD_placed, decide_eq_true hi, Bool.true_and, ← memBit_word t.mem j hi]
  rcases Nat.lt_or_ge (j * wsize T + i) o with hlt | hge
  · rw [h.old _ hlt, hold, placedBit_of_lt _ hlt]
  obtain ⟨k, hk⟩ := Nat.exists_eq_add_of_le hge
  rcases Nat.lt_or_ge k l.length with hlt | hge'
  · rw [hk, reads_iff.mp h.new k hlt, placedBit_add]
  rw [placedBit_of_ge (by omega)]
  rcases Nat.lt_or_ge (j * wsize T + i) (wordEnd T (o + l.length)) with hlt | hend
  · exact h.pad _ (by omega) hlt
  · have hword : wordEnd T (o + l.length) ≤ j * wsize T := by
      rw [wordEnd] at hend ⊢
      refine Nat.mul_le_mul_right _ ?_
      rw [← Nat.lt_succ_iff]
      refine Nat.lt_of_mul_lt_mul_right (a := wsize T) ?_
      rw [Nat.succ_mul]
      omega
    rw [memBit_word t.mem j hi, h.rest j hword, hzero]
    exact BitVec.getLsbD_zero

def writtenFrom (T : WordType) (o : ℕ) (ops : List WriteOp) : List Bool :=
  ops.foldl (fun l op => l ++ op.toBits T (o + l.length)) []

theorem runWrites_append {s : Bitstream T} (hs : s.WF) (ops : List WriteOp) :
    runWrites s ops = s.append (writtenFrom T (streamWtell s) ops) := by
  induction ops using List.reverseRecOn with
  | nil => rfl
  | append_singleton ops op ih =>
    have hstep := stepWrite_append (hs.append (writtenFrom T (streamWtell s) ops)) op
    rw [streamWtell_append hs, ← append_append] at hstep
    have hlist : writtenFrom T (streamWtell s) (ops ++ [op]) = writtenFrom T (streamWtell s) ops ++
        op.toBits T (streamWtell s + (writtenFrom T (streamWtell s) ops).length) := by
      rw [writtenFrom, List.foldl_append]
      rfl
    rw [runWrites, List.foldl_append, List.foldl_cons, List.foldl_nil, ← runWrites, ih, hstep, hlist]

/-! ## Readers -/

/-- The states of a stream that is read: a seek, then any number of reads, skips and alignments. -/
inductive Reader (s : Bitstream T) : Bitstream T → Prop
  | seek (o : ℕ) : Reader s (streamRseek s o)
  | rewind : Reader s (streamRewind s)
  | read {r : Bitstream T} (op : ReadOp) : Reader s r → Reader s (stepRead r op).2
  | align {r : Bitstream T} : Reader s r → Reader s (streamAlign r).2
  | again {r : Bitstream T} (o : ℕ) : Reader s r → Reader s (streamRseek r o)

/-- A read leaves the reader where a seek would put it. -/
theorem stepRead_rseek (s : Bitstream T) (o : ℕ) (op : ReadOp) :
    (stepRead (streamRseek s o) op).2 = streamRseek s (o + op.count) := by
  cases op with
  | bit =>
    rw [stepRead]
    dsimp only
    rw [streamReadBit_rseek]
    rfl
  | bits n =>
    rw [stepRead]
    dsimp only
    rw [streamReadBits_rseek s o (show (n : ℕ) ≤ 64 by omega)]
    rfl
  | skip n => exact streamSkip_rseek s o n

theorem streamAlign_fst (s : Bitstream T) (o : ℕ) :
    (streamAlign (streamRseek s o)).1 = wordEnd T o - o := by
  have hpos := wsize_pos T
  have hr := streamRseek_reads s o
  have hp := hr.ptr_mul
  have hlt := hr.bits_lt
  have hup : (o + wsize T - 1) / wsize T = (streamRseek s o).ptr := by
    apply (Nat.div_eq_iff hpos).mpr
    omega
  rw [wordEnd, hup, hp, Nat.add_sub_cancel_left]
  rfl

/-- A reader is where a seek to its offset would put it. -/
theorem Reader.eq_rseek {s r : Bitstream T} (h : Reader s r) : ∃ o, r = streamRseek s o := by
  induction h with
  | seek o => exact ⟨o, rfl⟩
  | rewind => exact ⟨0, streamRewind_eq s⟩
  | read op _ ih =>
    obtain ⟨o, rfl⟩ := ih
    exact ⟨_, stepRead_rseek s o op⟩
  | align _ ih =>
    obtain ⟨o, rfl⟩ := ih
    exact ⟨_, streamAlign_rseek s o⟩
  | again o _ ih =>
    obtain ⟨o', rfl⟩ := ih
    exact ⟨o, streamRseek_rseek s o' o⟩

/-- Seeking, writing and flushing changes the written bits and the padding of the last word only.
Reading after a seek returns the bits of memory, and skipping and aligning are seeks, from every
state that a reader can be in. -/
theorem seek_flush_frame (T : WordType) (s : Bitstream T) (o : ℕ) :
    (∀ ops : List WriteOp,
      let l := writtenFrom T o ops
      let t := (streamFlush (runWrites (streamWseek s o) ops)).2
      (∀ i < o, memBit t.mem i = memBit s.mem i) ∧
        (∀ k < l.length, memBit t.mem (o + k) = l.getD k false) ∧
        (∀ i, o + l.length ≤ i → i < wordEnd T (o + l.length) → memBit t.mem i = false) ∧
        (∀ w, wordEnd T (o + l.length) ≤ w * wsize T → t.mem w = s.mem w) ∧
        streamWtell t = wordEnd T (o + l.length)) ∧
    (∀ n ≤ 64, (streamReadBits (streamRseek s o) n).1 = segment (memBit s.mem) o n ∧
      streamRtell (streamReadBits (streamRseek s o) n).2 = o + n) ∧
    ∀ r, Reader s r →
      r = streamRseek s (streamRtell r) ∧
        (∀ n, streamSkip r n = streamRseek s (streamRtell r + n)) ∧
        streamAlign r = (wordEnd T (streamRtell r) - streamRtell r,
          streamRseek s (wordEnd T (streamRtell r))) := by
  refine ⟨fun ops => ?_, fun n hn => ?_, fun r hr => ?_⟩
  · intro l t
    have h := appended_flush s o l
    have ht : t = (streamFlush ((streamWseek s o).append l)).2 := by
      show (streamFlush (runWrites (streamWseek s o) ops)).2 = _
      rw [runWrites_append (streamWseek_wf s o), streamWtell_streamWseek]
    rw [← ht] at h
    exact ⟨h.old, fun k hk => (reads_iff.mp h.new) k hk, h.pad, h.rest, h.wtell⟩
  · rw [streamReadBits_rseek s o hn]
    exact ⟨rfl, streamRtell_rseek s (o + n)⟩
  · obtain ⟨i, rfl⟩ := hr.eq_rseek
    rw [streamRtell_rseek]
    refine ⟨rfl, streamSkip_rseek s i, ?_⟩
    exact Prod.ext (streamAlign_fst s i) (streamAlign_rseek s i)

/-- Three bits at offset 5 of bytes of ones fill the first byte; a reader aligns behind it. -/
theorem seek_flush_frame_bytes :
    let s := streamOpen (T := .uint8) fun _ => 255
    let t := (streamFlush (runWrites (streamWseek s 5) [.bits 2 3])).2
    (∀ i < 5, memBit t.mem i = memBit s.mem i) ∧ t.mem 1 = 255 ∧ streamWtell t = 8 ∧
      (streamReadBits (streamRseek s 5) 3).1 = segment (memBit s.mem) 5 3 ∧
      streamAlign (streamReadBits (streamRseek s 5) 2).2 = (1, streamRseek s 8) := by
  have h := seek_flush_frame .uint8 (streamOpen fun _ => 255) 5
  have hr := h.2.2 _ (.read (.bits 2) (.seek 5))
  refine ⟨(h.1 [.bits 2 3]).1, (h.1 [.bits 2 3]).2.2.2.1 1 (by decide), (h.1 [.bits 2 3]).2.2.2.2,
    (h.2.1 3 (by decide)).1, ?_⟩
  have hpos : streamRtell (stepRead (streamRseek (streamOpen (T := .uint8) fun _ => 255) 5)
      (.bits 2)).2 = 7 := by
    rw [stepRead_rseek, streamRtell_rseek]
    rfl
  rw [hpos] at hr
  exact hr.2.2

end Zfp

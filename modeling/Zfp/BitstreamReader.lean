import Zfp.BitstreamWriter

/-!
# The reader is a position in the bits of memory

A stream in read mode is determined by its memory and its offset: every read operation
maps `streamRseek s o` to `streamRseek s (o + n)`, whatever words were buffered on the way.
-/

namespace Zfp
open BitLists Bitstream

variable {T : WordType}

/-- The `n` bits of memory from offset `o` on, as a 64-bit value. -/
def fieldAt (mem : ℕ → BitVec (wsize T)) (o n : ℕ) : BitVec 64 :=
  wordOf 64 (fun i => decide (i < n) && memBit mem (o + i))

namespace Bitstream

/-- `s` reads the memory `mem` from bit offset `o` on. -/
structure ReadsAt (mem : ℕ → BitVec (wsize T)) (o : ℕ) (s : Bitstream T) : Prop where
  mem_eq : s.mem = mem
  bits_lt : s.bits < wsize T
  ptr_mul : s.ptr * wsize T = o + s.bits
  buffer : ∀ k, s.buffer.getLsbD k = (decide (k < s.bits) && memBit mem (o + k))

theorem ReadsAt.unique {mem : ℕ → BitVec (wsize T)} {o : ℕ} {a b : Bitstream T}
    (ha : ReadsAt mem o a) (hb : ReadsAt mem o b) : a = b := by
  have hpos := wsize_pos T
  have hptr : a.ptr = b.ptr := by
    have h1 := ha.ptr_mul
    have h2 := hb.ptr_mul
    have := ha.bits_lt
    have := hb.bits_lt
    rcases Nat.lt_trichotomy a.ptr b.ptr with h | h | h
    · have hm := Nat.mul_le_mul_right (wsize T) (Nat.succ_le_of_lt h)
      rw [Nat.succ_mul] at hm
      omega
    · exact h
    · have hm := Nat.mul_le_mul_right (wsize T) (Nat.succ_le_of_lt h)
      rw [Nat.succ_mul] at hm
      omega
  have hbits : a.bits = b.bits := by
    have h1 := ha.ptr_mul
    have h2 := hb.ptr_mul
    rw [hptr] at h1
    omega
  ext1
  · exact hbits
  · apply BitVec.eq_of_getLsbD_eq
    intro k _
    rw [ha.buffer, hb.buffer, hbits]
  · exact hptr
  · rw [ha.mem_eq, hb.mem_eq]

theorem ReadsAt.rtell {mem : ℕ → BitVec (wsize T)} {o : ℕ} {s : Bitstream T}
    (h : ReadsAt mem o s) : streamRtell s = o := by
  rw [streamRtell, h.ptr_mul, Nat.add_sub_cancel]

theorem ReadsAt.wf {mem : ℕ → BitVec (wsize T)} {o : ℕ} {s : Bitstream T}
    (h : ReadsAt mem o s) : s.WF :=
  WF.of_getLsbD h.bits_lt fun i hi => by
    rw [h.buffer, decide_eq_false (Nat.not_lt.mpr hi), Bool.false_and]

end Bitstream

theorem streamRseek_reads (s : Bitstream T) (o : ℕ) : ReadsAt s.mem o (streamRseek s o) := by
  have hpos := wsize_pos T
  have hlt := Nat.mod_lt o hpos
  have hdm : o / wsize T * wsize T + o % wsize T = o := by
    rw [Nat.mul_comm]
    exact Nat.div_add_mod _ _
  simp only [streamRseek]
  split
  · refine ⟨rfl, ?_, ?_, fun k => ?_⟩
    · show wsize T - o % wsize T < wsize T
      omega
    · show (o / wsize T + 1) * wsize T = o + (wsize T - o % wsize T)
      rw [Nat.add_mul, Nat.one_mul]
      omega
    · show (s.mem (o / wsize T) >>> (o % wsize T)).getLsbD k =
        (decide (k < wsize T - o % wsize T) && memBit s.mem (o + k))
      rw [BitVec.getLsbD_ushiftRight]
      by_cases hk : k < wsize T - o % wsize T
      · have he : o + k = o / wsize T * wsize T + (o % wsize T + k) := by omega
        rw [decide_eq_true hk, Bool.true_and, he, memBit_word _ _ (by omega)]
      · rw [decide_eq_false hk, Bool.false_and, BitVec.getLsbD_of_ge _ _ (by omega)]
  · next h0 =>
    refine ⟨rfl, hpos, ?_, fun k => by simp⟩
    show o / wsize T * wsize T = o + 0
    omega

@[simp] theorem streamRseek_mem (s : Bitstream T) (o : ℕ) : (streamRseek s o).mem = s.mem :=
  (streamRseek_reads s o).mem_eq

@[simp] theorem streamRtell_rseek (s : Bitstream T) (o : ℕ) : streamRtell (streamRseek s o) = o :=
  (streamRseek_reads s o).rtell

theorem streamRseek_wf (s : Bitstream T) (o : ℕ) : (streamRseek s o).WF :=
  (streamRseek_reads s o).wf

/-- A state that reads `s.mem` from offset `o` is the one a seek produces. -/
theorem Bitstream.ReadsAt.eq_rseek {s r : Bitstream T} {o : ℕ} (h : ReadsAt s.mem o r) :
    r = streamRseek s o := h.unique (streamRseek_reads s o)

theorem streamRseek_congr {s s' : Bitstream T} (h : s.mem = s'.mem) (o : ℕ) :
    streamRseek s o = streamRseek s' o := by
  have hr := streamRseek_reads s o
  rw [h] at hr
  exact hr.eq_rseek

@[simp] theorem streamRseek_rseek (s : Bitstream T) (o o' : ℕ) :
    streamRseek (streamRseek s o) o' = streamRseek s o' := streamRseek_congr (by simp) o'

theorem streamRewind_eq (s : Bitstream T) : streamRewind s = streamRseek s 0 := by
  apply Bitstream.ReadsAt.eq_rseek
  exact ⟨rfl, wsize_pos T, by simp [streamRewind], fun k => by simp [streamRewind]⟩

/-- Skipping moves the offset. -/
theorem streamSkip_rseek (s : Bitstream T) (o n : ℕ) :
    streamSkip (streamRseek s o) n = streamRseek s (o + n) := by
  rw [streamSkip, streamRtell_rseek, streamRseek_rseek]

theorem streamReadBit_rseek (s : Bitstream T) (o : ℕ) :
    streamReadBit (streamRseek s o) = (memBit s.mem o, streamRseek s (o + 1)) := by
  have hr := streamRseek_reads s o
  have hpos := wsize_pos T
  generalize hg : streamRseek s o = r at hr
  have hptr := hr.ptr_mul
  simp only [streamReadBit]
  split
  · next h0 =>
    -- the buffer is empty and the next word is fetched
    rw [h0, Nat.add_zero] at hptr
    have hbit : ∀ k < wsize T, (r.mem r.ptr).getLsbD k = memBit s.mem (o + k) := by
      intro k hk
      rw [← memBit_word r.mem r.ptr hk, hr.mem_eq, hptr]
    refine Prod.ext (by simpa [streamReadWord] using hbit 0 hpos) ?_
    apply Bitstream.ReadsAt.eq_rseek
    refine ⟨hr.mem_eq, ?_, ?_, fun k => ?_⟩
    · show wsize T - 1 < wsize T
      omega
    · show (r.ptr + 1) * wsize T = o + 1 + (wsize T - 1)
      rw [Nat.add_mul, Nat.one_mul]
      omega
    · show (r.mem r.ptr >>> 1).getLsbD k = (decide (k < wsize T - 1) && memBit s.mem (o + 1 + k))
      rw [BitVec.getLsbD_ushiftRight]
      by_cases hk : k < wsize T - 1
      · rw [decide_eq_true hk, Bool.true_and, hbit _ (by omega), Nat.add_assoc]
      · rw [decide_eq_false hk, Bool.false_and, BitVec.getLsbD_of_ge _ _ (by omega)]
  · next h0 =>
    have hlt := hr.bits_lt
    refine Prod.ext ?_ ?_
    · show r.buffer.getLsbD 0 = _
      rw [hr.buffer, decide_eq_true (by omega), Bool.true_and, Nat.add_zero]
    · apply Bitstream.ReadsAt.eq_rseek
      refine ⟨hr.mem_eq, ?_, ?_, fun k => ?_⟩
      · show r.bits - 1 < wsize T
        omega
      · show r.ptr * wsize T = o + 1 + (r.bits - 1)
        omega
      · show (r.buffer >>> 1).getLsbD k = (decide (k < r.bits - 1) && memBit s.mem (o + 1 + k))
        rw [BitVec.getLsbD_ushiftRight, hr.buffer, ← Nat.add_assoc,
          decide_eq_decide.mpr (by omega : 1 + k < r.bits ↔ k < r.bits - 1)]

/-- The fetching loop: the value holds every fetched bit, the buffer the last word. -/
private theorem readBitsLoop_bits {n : ℕ} (hn : n ≤ 64) (o : ℕ) (s : Bitstream T)
    (value : BitVec 64) (hlt : s.bits < n) (hptr : s.ptr * wsize T = o + s.bits)
    (hval : ∀ i < 64, value.getLsbD i = (decide (i < s.bits) && memBit s.mem (o + i))) :
    let r := readBitsLoop s value n
    r.2.mem = s.mem ∧ n ≤ r.2.bits ∧ r.2.bits < n + wsize T ∧
      r.2.ptr * wsize T = o + r.2.bits ∧
      (∀ k < wsize T, r.2.buffer.getLsbD k = memBit s.mem (o + r.2.bits - wsize T + k)) ∧
      ∀ i < 64, r.1.getLsbD i = (decide (i < r.2.bits) && memBit s.mem (o + i)) := by
  induction hm : n - s.bits using Nat.strong_induction_on generalizing s value with
  | _ m ih =>
  subst hm
  have hpos := wsize_pos T
  have hle := wsize_le T
  rw [readBitsLoop]
  set value' := value + (streamReadWord s).1.setWidth 64 <<< s.bits with hvalue'
  set s' : Bitstream T := { (streamReadWord s).2 with
    buffer := (streamReadWord s).1, bits := s.bits + wsize T } with hs'
  have hmem : s'.mem = s.mem := rfl
  have hbits : s'.bits = s.bits + wsize T := rfl
  have hptr' : s'.ptr * wsize T = o + s'.bits := by
    show (s.ptr + 1) * wsize T = o + (s.bits + wsize T)
    rw [Nat.add_mul, Nat.one_mul, hptr, Nat.add_assoc]
  have hword : ∀ k < wsize T, (s.mem s.ptr).getLsbD k = memBit s.mem (o + s.bits + k) := by
    intro k hk
    rw [← memBit_word s.mem s.ptr hk, hptr]
  have hshift : ∀ i < 64, ((s.mem s.ptr).setWidth 64 <<< s.bits).getLsbD i =
      (decide (s.bits ≤ i ∧ i < s.bits + wsize T) && memBit s.mem (o + i)) := by
    intro i hi
    rw [BitVec.getLsbD_shiftLeft, BitVec.getLsbD_setWidth, decide_eq_true hi]
    by_cases h1 : i < s.bits
    · simp [h1]
    · by_cases h2 : i < s.bits + wsize T
      · have he : o + s.bits + (i - s.bits) = o + i := by omega
        rw [hword _ (by omega), he]
        simp [h1, h2, Nat.le_of_not_lt h1, show i - s.bits < 64 by omega]
      · rw [BitVec.getLsbD_of_ge _ (i - s.bits) (by omega)]
        simp [h2]
  have hval' : ∀ i < 64, value'.getLsbD i =
      (decide (i < s'.bits) && memBit s.mem (o + i)) := by
    intro i hi
    show (value + (s.mem s.ptr).setWidth 64 <<< s.bits).getLsbD i = _
    rw [getLsbD_add_of_disjoint, hval i hi, hshift i hi, hbits]
    · by_cases h1 : i < s.bits
      · simp [h1, show i < s.bits + wsize T by omega]
      · simp [h1, Nat.le_of_not_lt h1]
    · intro j hj
      by_cases hj64 : j < 64
      · rw [hval j hj64] at hj
        have hjb : j < s.bits := by
          by_contra h
          rw [decide_eq_false h, Bool.false_and] at hj
          exact absurd hj (by decide)
        rw [hshift j hj64, decide_eq_false (by omega), Bool.false_and]
      · exact BitVec.getLsbD_of_ge _ _ (by omega)
  by_cases hloop : wsize T < 64 ∧ s'.bits < n
  · rw [if_pos hloop]
    exact ih (n - s'.bits) (by omega) s' value' hloop.2 hptr' hval' rfl
  · rw [if_neg hloop]
    refine ⟨hmem, ?_, ?_, hptr', fun k hk => ?_, hval'⟩
    · show n ≤ s'.bits
      omega
    · show s'.bits < n + wsize T
      omega
    · show (s.mem s.ptr).getLsbD k = memBit s.mem (o + (s.bits + wsize T) - wsize T + k)
      rw [hword k hk]
      congr 1
      omega

theorem streamReadBits_rseek (s : Bitstream T) (o : ℕ) {n : ℕ} (hn : n ≤ 64) :
    streamReadBits (streamRseek s o) n = (fieldAt s.mem o n, streamRseek s (o + n)) := by
  have hr := streamRseek_reads s o
  have hpos := wsize_pos T
  have hle := wsize_le T
  generalize streamRseek s o = r at hr
  have hptr := hr.ptr_mul
  have hlt := hr.bits_lt
  have hbuf : ∀ i < 64, (r.buffer.setWidth 64).getLsbD i =
      (decide (i < r.bits) && memBit r.mem (o + i)) := by
    intro i hi
    rw [BitVec.getLsbD_setWidth, decide_eq_true hi, Bool.true_and, hr.buffer, hr.mem_eq]
  simp only [streamReadBits]
  split
  · next hfetch =>
    obtain ⟨hmem, hge, hub, hp, hb, hv⟩ := readBitsLoop_bits hn o r (r.buffer.setWidth 64)
      hfetch hptr hbuf
    generalize readBitsLoop r (r.buffer.setWidth 64) n = q at hmem hge hub hp hb hv
    obtain ⟨value, q⟩ := q
    dsimp only at hmem hge hub hp hb hv ⊢
    rw [hr.mem_eq] at hmem hb hv
    split
    · next h0 =>
      refine Prod.ext ?_ ?_
      · apply BitVec.eq_of_getLsbD_eq
        intro i hi
        rw [fieldAt, getLsbD_wordOf, decide_eq_true hi, Bool.true_and, hv i hi,
          show q.bits = n by omega]
      · apply Bitstream.ReadsAt.eq_rseek
        refine ⟨hmem, ?_, ?_, fun k => ?_⟩
        · show q.bits - n < wsize T
          omega
        · show q.ptr * wsize T = o + n + (q.bits - n)
          omega
        · show (0 : BitVec (wsize T)).getLsbD k = (decide (k < q.bits - n) && _)
          simp [h0]
    · next h0 =>
      refine Prod.ext ?_ ?_
      · apply BitVec.eq_of_getLsbD_eq
        intro i hi
        rw [two_shiftLeft, BitVec.getLsbD_and, getLsbD_mask (by omega), fieldAt, getLsbD_wordOf,
          decide_eq_true hi, Bool.true_and, hv i hi, show n - 1 + 1 = n by omega, Bool.and_comm,
          ← Bool.and_assoc, ← Bool.decide_and]
        congr 1
        exact decide_eq_decide.mpr (by omega)
      · apply Bitstream.ReadsAt.eq_rseek
        refine ⟨hmem, ?_, ?_, fun k => ?_⟩
        · show q.bits - n < wsize T
          omega
        · show q.ptr * wsize T = o + n + (q.bits - n)
          omega
        · show (q.buffer >>> (wsize T - (q.bits - n))).getLsbD k =
            (decide (k < q.bits - n) && memBit s.mem (o + n + k))
          rw [BitVec.getLsbD_ushiftRight]
          by_cases hk : k < q.bits - n
          · rw [decide_eq_true hk, Bool.true_and, hb _ (by omega)]
            congr 1
            have : wsize T ≤ q.ptr * wsize T := by
              rcases Nat.eq_zero_or_pos q.ptr with h | h
              · rw [h, Nat.zero_mul] at hp
                omega
              · exact Nat.le_mul_of_pos_left _ h
            omega
          · rw [decide_eq_false hk, Bool.false_and, BitVec.getLsbD_of_ge _ _ (by omega)]
  · next hfetch =>
    refine Prod.ext ?_ ?_
    · apply BitVec.eq_of_getLsbD_eq
      intro i hi
      rw [BitVec.getLsbD_and, getLsbD_mask hn, fieldAt, getLsbD_wordOf, decide_eq_true hi,
        Bool.true_and, hbuf i hi, hr.mem_eq, Bool.and_comm, ← Bool.and_assoc, ← Bool.decide_and]
      congr 1
      exact decide_eq_decide.mpr (by omega)
    · apply Bitstream.ReadsAt.eq_rseek
      refine ⟨hr.mem_eq, ?_, ?_, fun k => ?_⟩
      · show r.bits - n < wsize T
        omega
      · show r.ptr * wsize T = o + n + (r.bits - n)
        omega
      · show (r.buffer >>> n).getLsbD k = (decide (k < r.bits - n) && memBit s.mem (o + n + k))
        rw [BitVec.getLsbD_ushiftRight, hr.buffer, Nat.add_assoc,
          decide_eq_decide.mpr (by omega : n + k < r.bits ↔ k < r.bits - n)]

/-- The next word to be fetched is the first one behind the offset. -/
theorem streamRseek_ptr (s : Bitstream T) (o : ℕ) :
    (streamRseek s o).ptr = (o + wsize T - 1) / wsize T := by
  have hpos := wsize_pos T
  have hr := streamRseek_reads s o
  have hp := hr.ptr_mul
  have hlt := hr.bits_lt
  symm
  apply (Nat.div_eq_iff hpos).mpr
  omega

/-- Aligning moves a reader to the end of its word. -/
theorem streamAlign_rseek (s : Bitstream T) (o : ℕ) :
    (streamAlign (streamRseek s o)).2 = streamRseek s ((o + wsize T - 1) / wsize T * wsize T) := by
  rw [← streamRseek_ptr s, (streamRseek_reads s o).ptr_mul, streamAlign]
  dsimp only
  split
  · exact streamSkip_rseek s o _
  · next h0 => rw [Decidable.not_not.mp h0, Nat.add_zero]

end Zfp

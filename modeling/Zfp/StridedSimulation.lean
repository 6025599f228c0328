import Zfp.StridedBitstream
import Zfp.StrideLayout
import Zfp.BitstreamRefinement

/-!
# The strided stream follows the unstrided one

Every operation of the strided stream but `stream_skip` does what the unstrided one does, on
the places where the layout puts the words. Writers are compared through the memory that the
layout spreads the words over, readers through the words at those places.
-/

namespace Zfp.Strided
open StrideLayout

variable {T : WordType} {g : Stride} {s : Bitstream T} {u : Zfp.Bitstream T}

/-- The strided stream stands where the layout puts the position of the unstrided one. -/
structure Follows (g : Stride) (s : Bitstream T) (u : Zfp.Bitstream T) : Prop where
  block_pow : ∃ k < 64, g.block = 2 ^ k
  mask_eq : s.mask = g.block - 1
  delta_eq : s.delta = g.offset
  bits_eq : s.bits = u.bits
  buffer_eq : s.buffer = u.buffer
  ptr_eq : s.ptr = g.place u.ptr

/-- Both streams read the memory `mem`, the unstrided one in the order of the layout. -/
structure Reading (g : Stride) (mem : ℤ → BitVec (wsize T)) (s : Bitstream T)
    (u : Zfp.Bitstream T) : Prop extends Follows g s u where
  mem_eq : s.mem = mem
  word_eq : ∀ q, u.mem q = mem (g.place q)

/-- The strided stream wrote the words of the unstrided one over the memory `mem`. -/
structure Writing (g : Stride) (mem : ℤ → BitVec (wsize T)) (s : Bitstream T)
    (u : Zfp.Bitstream T) : Prop extends Follows g s u where
  mem_eq : s.mem = g.spread mem u.mem u.ptr

/-- The pointer jumps where the position is a multiple of the block size. -/
theorem nextPtr_eq {k : ℕ} (hk : k < 64) (hg : g.block = 2 ^ k) (hmask : s.mask = g.block - 1)
    (hdelta : s.delta = g.offset) :
    nextPtr s = s.ptr + 1 + if (g.block : ℤ) ∣ s.ptr + 1 then g.offset else 0 := by
  have hpow : ((2 ^ k : ℕ) : ℤ) ∣ 2 ^ 64 := by
    have := Nat.pow_dvd_pow 2 (Nat.le_of_lt hk)
    exact_mod_cast this
  have hcast : ((((s.ptr + 1) % 2 ^ 64).toNat : ℕ) : ℤ) = (s.ptr + 1) % 2 ^ 64 :=
    Int.toNat_of_nonneg (Int.emod_nonneg _ (by decide))
  have htest : (((s.ptr + 1) % 2 ^ 64).toNat &&& s.mask = 0) ↔ (g.block : ℤ) ∣ s.ptr + 1 := by
    rw [hmask, hg, Nat.and_two_pow_sub_one_eq_mod, ← Nat.dvd_iff_mod_eq_zero,
      ← Int.natCast_dvd_natCast, hcast, Int.dvd_iff_emod_eq_zero, Int.emod_emod_of_dvd _ hpow,
      ← Int.dvd_iff_emod_eq_zero]
  rw [nextPtr]
  simp only [htest, hdelta]
  split
  · rfl
  · rw [Int.add_zero]

/-- From a whole number of blocks beside its place, a word advances like the layout. -/
theorem nextPtr_place {k : ℕ} (hk : k < 64) (hg : g.block = 2 ^ k) (hmask : s.mask = g.block - 1)
    (hdelta : s.delta = g.offset) {q : ℕ} (hdvd : (g.block : ℤ) ∣ s.ptr - q) :
    nextPtr s = s.ptr - g.place q + g.place (q + 1) := by
  have hsum : s.ptr + 1 = (s.ptr - q) + ((q + 1 : ℕ) : ℤ) := by omega
  have hiff : (g.block : ℤ) ∣ s.ptr + 1 ↔ g.block ∣ q + 1 := by
    rw [hsum, Int.dvd_add_right hdvd, Int.natCast_dvd_natCast]
  rw [nextPtr_eq hk hg hmask hdelta, g.place_succ]
  simp only [hiff]
  omega

namespace Follows

theorem nextPtr (h : Follows g s u) : nextPtr s = g.place (u.ptr + 1) := by
  obtain ⟨k, hk, hg⟩ := h.block_pow
  have hdvd : (g.block : ℤ) ∣ s.ptr - u.ptr := h.ptr_eq ▸ g.dvd_place_sub u.ptr
  rw [nextPtr_place hk hg h.mask_eq h.delta_eq hdvd, h.ptr_eq]
  omega

/-- Setting the buffer of both streams alike. -/
theorem load (h : Follows g s u) (b : ℕ) (w : BitVec (wsize T)) :
    Follows g { s with bits := b, buffer := w } { u with bits := b, buffer := w } :=
  ⟨h.block_pow, h.mask_eq, h.delta_eq, rfl, rfl, h.ptr_eq⟩

end Follows

namespace Reading

variable {mem : ℤ → BitVec (wsize T)}

theorem load (h : Reading g mem s u) (b : ℕ) (w : BitVec (wsize T)) :
    Reading g mem { s with bits := b, buffer := w } { u with bits := b, buffer := w } :=
  ⟨h.toFollows.load b w, h.mem_eq, h.word_eq⟩

/-- A reader is determined by the unstrided one it follows. -/
theorem unique {s' : Bitstream T} (h : Reading g mem s u) (h' : Reading g mem s' u) : s = s' := by
  ext1
  · rw [h.bits_eq, h'.bits_eq]
  · rw [h.buffer_eq, h'.buffer_eq]
  · rw [h.ptr_eq, h'.ptr_eq]
  · rw [h.mem_eq, h'.mem_eq]
  · rw [h.mask_eq, h'.mask_eq]
  · rw [h.delta_eq, h'.delta_eq]

theorem readWord (h : Reading g mem s u) :
    (streamReadWord s).1 = (Zfp.streamReadWord u).1 ∧
      Reading g mem (streamReadWord s).2 (Zfp.streamReadWord u).2 := by
  constructor
  · show s.mem s.ptr = u.mem u.ptr
    rw [h.word_eq, h.mem_eq, h.ptr_eq]
  · exact ⟨⟨h.block_pow, h.mask_eq, h.delta_eq, h.bits_eq, h.buffer_eq, h.nextPtr⟩, h.mem_eq,
      h.word_eq⟩

theorem readBit (h : Reading g mem s u) :
    (streamReadBit s).1 = (Zfp.streamReadBit u).1 ∧
      Reading g mem (streamReadBit s).2 (Zfp.streamReadBit u).2 := by
  simp only [streamReadBit, Zfp.streamReadBit, h.bits_eq]
  split
  · obtain ⟨hw, hr⟩ := h.readWord
    rw [hw]
    exact ⟨rfl, hr.load _ _⟩
  · rw [h.buffer_eq, h.bits_eq]
    exact ⟨rfl, h.load _ _⟩

/-- The fetching loops run in step. -/
theorem readBitsLoop (h : Reading g mem s u) (value : BitVec 64) (n : ℕ) :
    (readBitsLoop s value n).1 = (Zfp.readBitsLoop u value n).1 ∧
      Reading g mem (readBitsLoop s value n).2 (Zfp.readBitsLoop u value n).2 := by
  induction hm : n - u.bits using Nat.strong_induction_on generalizing s u value with
  | _ m ih =>
  subst hm
  have hpos := wsize_pos T
  obtain ⟨hw, hr⟩ := h.readWord
  rw [Strided.readBitsLoop, Zfp.readBitsLoop, hw, h.bits_eq]
  have hr' := hr.load (u.bits + wsize T) (Zfp.streamReadWord u).1
  dsimp only
  split
  · next hloop => exact ih _ (by dsimp only; omega) hr' _ rfl
  · exact ⟨rfl, hr'⟩

theorem readBits (h : Reading g mem s u) (n : ℕ) :
    (streamReadBits s n).1 = (Zfp.streamReadBits u n).1 ∧
      Reading g mem (streamReadBits s n).2 (Zfp.streamReadBits u n).2 := by
  simp only [streamReadBits, Zfp.streamReadBits, h.bits_eq, h.buffer_eq]
  split
  · obtain ⟨hv, hr⟩ := h.readBitsLoop (u.buffer.setWidth 64) n
    rw [hv, hr.bits_eq, hr.buffer_eq]
    split
    · exact ⟨rfl, hr.load _ _⟩
    · exact ⟨rfl, hr.load _ _⟩
  · exact ⟨rfl, h.load _ _⟩

end Reading

namespace Writing

variable {mem : ℤ → BitVec (wsize T)}

theorem load (h : Writing g mem s u) (b : ℕ) (w : BitVec (wsize T)) :
    Writing g mem { s with bits := b, buffer := w } { u with bits := b, buffer := w } :=
  ⟨h.toFollows.load b w, h.mem_eq⟩

theorem writeWord (h : Writing g mem s u) (value : BitVec (wsize T)) :
    Writing g mem (streamWriteWord s value) (Zfp.streamWriteWord u value) := by
  refine ⟨⟨h.block_pow, h.mask_eq, h.delta_eq, h.bits_eq, h.buffer_eq, h.nextPtr⟩, ?_⟩
  show Function.update s.mem s.ptr value = _
  rw [h.mem_eq, h.ptr_eq]
  exact (g.spread_update mem u.mem u.ptr value).symm

theorem writeBit (h : Writing g mem s u) (bit : Bool) :
    Writing g mem (streamWriteBit s bit) (Zfp.streamWriteBit u bit) := by
  simp only [streamWriteBit, Zfp.streamWriteBit, h.bits_eq, h.buffer_eq]
  split
  · exact ((h.load _ _).writeWord _).load 0 0
  · exact h.load _ _

theorem writeBitsLoop (h : Writing g mem s u) (value : BitVec 64) (n : ℕ) :
    Writing g mem (writeBitsLoop s value n) (Zfp.writeBitsLoop u value n) := by
  induction hm : u.bits using Nat.strong_induction_on generalizing s u with
  | _ m ih =>
  subst hm
  have hpos := wsize_pos T
  rw [Strided.writeBitsLoop, Zfp.writeBitsLoop, h.bits_eq, h.buffer_eq]
  have hw := (h.writeWord u.buffer).load (u.bits - wsize T)
    ((value >>> (n - (u.bits - wsize T))).setWidth (wsize T))
  dsimp only
  split
  · next hloop => exact ih _ (by dsimp only; omega) hw rfl
  · exact hw

theorem writeBits (h : Writing g mem s u) (value : BitVec 64) (n : ℕ) :
    Writing g mem (streamWriteBits s value n).2 (Zfp.streamWriteBits u value n).2 := by
  simp only [streamWriteBits, Zfp.streamWriteBits, h.bits_eq, h.buffer_eq]
  have hl := h.load (u.bits + n) (u.buffer + (value <<< u.bits).setWidth (wsize T))
  split
  · have hw := hl.writeBitsLoop (value >>> 1) (n - 1)
    rw [hw.bits_eq, hw.buffer_eq]
    exact hw.load _ _
  · exact hl.load _ _

theorem padLoop (h : Writing g mem s u) (bits : ℕ) :
    Writing g mem (padLoop s bits) (Zfp.padLoop u bits) := by
  induction hm : bits using Nat.strong_induction_on generalizing s u bits with
  | _ m ih =>
  subst hm
  have hpos := wsize_pos T
  rw [Strided.padLoop, Zfp.padLoop, h.buffer_eq]
  split
  · have hw := h.writeWord u.buffer
    have hz : Writing g mem { streamWriteWord s u.buffer with buffer := 0 }
        { Zfp.streamWriteWord u u.buffer with buffer := 0 } :=
      ⟨⟨hw.block_pow, hw.mask_eq, hw.delta_eq, hw.bits_eq, rfl, hw.ptr_eq⟩, hw.mem_eq⟩
    exact ih _ (by omega) hz _ rfl
  · rw [← h.buffer_eq]
    exact h.load _ _

theorem pad (h : Writing g mem s u) (n : ℕ) :
    Writing g mem (streamPad s n) (Zfp.streamPad u n) := by
  rw [streamPad, Zfp.streamPad, h.bits_eq]
  exact h.padLoop _

theorem flush (h : Writing g mem s u) :
    Writing g mem (streamFlush s).2 (Zfp.streamFlush u).2 := by
  simp only [streamFlush, Zfp.streamFlush, h.bits_eq]
  split
  · exact h.pad _
  · exact h

end Writing

end Zfp.Strided

import Zfp.Bitstream
import Mathlib.Data.List.GetD

/-!
# The writer appends bits

`Bitstream.append` writes a list one bit at a time. Every write operation of the source
is an `append`, as an equation between whole stream states, so the written bits, the
words left untouched and the buffered bits all follow from the theory of `append`.
-/

namespace Zfp
open BitLists

variable {T : WordType}

namespace Bitstream

/-- The buffer holds fewer bits than a word and nothing above them. -/
structure WF (s : Bitstream T) : Prop where
  bits_lt : s.bits < wsize T
  buffer_lt : s.buffer.toNat < 2 ^ s.bits

def memBit (mem : ℕ → BitVec (wsize T)) (i : ℕ) : Bool :=
  (mem (i / wsize T)).getLsbD (i % wsize T)

/-- Bit `i` of the words before the pointer followed by the buffer. -/
def bitAt (s : Bitstream T) (i : ℕ) : Bool :=
  if i < s.ptr * wsize T then memBit s.mem i else s.buffer.getLsbD (i - s.ptr * wsize T)

/-- Write a list of bits, one at a time. -/
def append (s : Bitstream T) (l : List Bool) : Bitstream T := l.foldl streamWriteBit s

@[simp] theorem append_nil (s : Bitstream T) : s.append [] = s := rfl

@[simp] theorem append_cons (s : Bitstream T) (b : Bool) (l : List Bool) :
    s.append (b :: l) = (streamWriteBit s b).append l := rfl

theorem append_append (s : Bitstream T) (l l' : List Bool) :
    s.append (l ++ l') = (s.append l).append l' := List.foldl_append

theorem WF.getLsbD_buffer {s : Bitstream T} (hs : s.WF) {i : ℕ} (hi : s.bits ≤ i) :
    s.buffer.getLsbD i = false := getLsbD_of_toNat_lt hs.buffer_lt hi

theorem WF.of_getLsbD {s : Bitstream T} (hb : s.bits < wsize T)
    (h : ∀ i, s.bits ≤ i → s.buffer.getLsbD i = false) : s.WF := ⟨hb, toNat_lt_of_getLsbD h⟩

theorem memBit_word (mem : ℕ → BitVec (wsize T)) (j : ℕ) {k : ℕ} (hk : k < wsize T) :
    memBit mem (j * wsize T + k) = (mem j).getLsbD k := by
  have hpos := wsize_pos T
  rw [memBit, Nat.mul_comm, Nat.mul_add_div hpos, Nat.div_eq_of_lt hk, Nat.mul_add_mod,
    Nat.mod_eq_of_lt hk, Nat.add_zero]

theorem bitAt_of_lt (s : Bitstream T) {i : ℕ} (h : i < s.ptr * wsize T) :
    s.bitAt i = memBit s.mem i := if_pos h

theorem bitAt_buffer (s : Bitstream T) (k : ℕ) :
    s.bitAt (s.ptr * wsize T + k) = s.buffer.getLsbD k := by
  rw [bitAt, if_neg (by omega), Nat.add_sub_cancel_left]

/-- `s'` is `s` after the bits of `l` were written: the old bits are kept, the new ones
follow them, and no word from the new pointer on has changed. -/
structure Wrote (s : Bitstream T) (l : List Bool) (s' : Bitstream T) : Prop where
  wf : s'.WF
  wtell : streamWtell s' = streamWtell s + l.length
  old : ∀ i < streamWtell s, s'.bitAt i = s.bitAt i
  new : ∀ k < l.length, s'.bitAt (streamWtell s + k) = l.getD k false
  rest : ∀ j, s'.ptr ≤ j → s'.mem j = s.mem j

theorem Wrote.ptr_le {s s' : Bitstream T} {l : List Bool} (h : Wrote s l s') :
    s.ptr ≤ s'.ptr := by
  have hw := h.wtell
  have hb := h.wf.bits_lt
  simp only [streamWtell] at hw
  by_contra hlt
  have hm : (s'.ptr + 1) * wsize T ≤ s.ptr * wsize T := Nat.mul_le_mul_right _ (by omega)
  rw [Nat.add_mul, Nat.one_mul] at hm
  omega

theorem Wrote.refl {s : Bitstream T} (hs : s.WF) : Wrote s [] s :=
  ⟨hs, rfl, fun _ _ => rfl, fun k hk => absurd hk (Nat.not_lt_zero k), fun _ _ => rfl⟩

theorem Wrote.trans {a b c : Bitstream T} {l l' : List Bool}
    (h : Wrote a l b) (h' : Wrote b l' c) : Wrote a (l ++ l') c := by
  have hab := h.wtell
  refine ⟨h'.wf, by rw [h'.wtell, hab, List.length_append, Nat.add_assoc], ?_, ?_, ?_⟩
  · intro i hi
    rw [h'.old i (by omega), h.old i hi]
  · intro k hk
    by_cases hkl : k < l.length
    · rw [h'.old _ (by omega), h.new k hkl, List.getD_append _ _ _ _ hkl]
    · have hk' : k - l.length < l'.length := by rw [List.length_append] at hk; omega
      have he : streamWtell a + k = streamWtell b + (k - l.length) := by omega
      rw [he, h'.new _ hk', List.getD_append_right _ _ _ _ (by omega)]
  · intro j hj
    rw [h'.rest j hj, h.rest j (h'.ptr_le.trans hj)]

theorem Wrote.bitAt_eq {s a b : Bitstream T} {l : List Bool} (ha : Wrote s l a)
    (hb : Wrote s l b) {i : ℕ} (hi : i < streamWtell a) : a.bitAt i = b.bitAt i := by
  by_cases his : i < streamWtell s
  · rw [ha.old i his, hb.old i his]
  · obtain ⟨k, rfl⟩ := Nat.exists_eq_add_of_le (Nat.le_of_not_lt his)
    have hk : k < l.length := by have := ha.wtell; omega
    rw [ha.new k hk, hb.new k hk]

theorem WF.wtell_div {s : Bitstream T} (hs : s.WF) : streamWtell s / wsize T = s.ptr := by
  rw [streamWtell, Nat.mul_comm, Nat.mul_add_div (wsize_pos T), Nat.div_eq_of_lt hs.bits_lt,
    Nat.add_zero]

/-- A written state is determined by the state before and the bits written. -/
theorem Wrote.unique {s a b : Bitstream T} {l : List Bool} (ha : Wrote s l a) (hb : Wrote s l b) :
    a = b := by
  have htell : streamWtell a = streamWtell b := ha.wtell.trans hb.wtell.symm
  have hptr : a.ptr = b.ptr := by rw [← ha.wf.wtell_div, ← hb.wf.wtell_div, htell]
  have hbits : a.bits = b.bits := by
    simp only [streamWtell, hptr] at htell
    omega
  ext1
  · exact hbits
  · apply BitVec.eq_of_getLsbD_eq
    intro k _
    by_cases hk : k < a.bits
    · have hi : a.ptr * wsize T + k < streamWtell a := by rw [streamWtell]; omega
      have h := ha.bitAt_eq hb hi
      rwa [bitAt_buffer, hptr, bitAt_buffer] at h
    · rw [ha.wf.getLsbD_buffer (by omega), hb.wf.getLsbD_buffer (by omega)]
  · exact hptr
  · funext j
    by_cases hj : j < a.ptr
    · apply BitVec.eq_of_getLsbD_eq
      intro k hk
      have hm : (j + 1) * wsize T ≤ a.ptr * wsize T := Nat.mul_le_mul_right _ hj
      rw [Nat.add_mul, Nat.one_mul] at hm
      have hi : j * wsize T + k < streamWtell a := by rw [streamWtell]; omega
      have h := ha.bitAt_eq hb hi
      rwa [bitAt_of_lt _ (by omega), bitAt_of_lt _ (by rw [← hptr]; omega), memBit_word _ _ hk,
        memBit_word _ _ hk] at h
    · rw [ha.rest j (by omega), hb.rest j (by omega)]

end Bitstream

open Bitstream

private theorem ofBool_setWidth (b : Bool) (n i : ℕ) :
    ((BitVec.ofBool b).setWidth n).getLsbD i = (decide (i < n) && (decide (i = 0) && b)) := by
  rw [BitVec.getLsbD_setWidth]
  congr 1
  cases i <;> cases b <;> simp

/-- One written bit lands on top of the buffer. -/
private theorem getLsbD_push {s : Bitstream T} (hs : s.WF) (b : Bool) (i : ℕ) :
    (s.buffer + (BitVec.ofBool b).setWidth (wsize T) <<< s.bits).getLsbD i =
      if i = s.bits then b else s.buffer.getLsbD i := by
  have hb := hs.bits_lt
  have hx : ∀ i, ((BitVec.ofBool b).setWidth (wsize T) <<< s.bits).getLsbD i =
      (decide (i = s.bits) && b) := by
    intro i
    rw [BitVec.getLsbD_shiftLeft, ofBool_setWidth]
    by_cases h : i = s.bits
    · subst h
      simp [hb, wsize_pos]
    · by_cases h' : i < s.bits
      · simp [h, h']
      · simp [h, h', show i - s.bits ≠ 0 by omega]
  rw [getLsbD_add_of_disjoint, hx]
  · by_cases h : i = s.bits
    · simp [h, hs.getLsbD_buffer (le_refl _)]
    · simp [h]
  · intro i hi
    have hlt : i < s.bits := by
      by_contra h
      rw [hs.getLsbD_buffer (by omega)] at hi
      exact absurd hi (by decide)
    rw [hx]
    simp [show i ≠ s.bits by omega]

/-- A state that outputs its full buffer has the same bits as before. -/
private theorem bitAt_writeWord (s : Bitstream T) (v : BitVec (wsize T)) {i : ℕ}
    (hi : i < (s.ptr + 1) * wsize T) :
    memBit (streamWriteWord s v).mem i =
      if i < s.ptr * wsize T then memBit s.mem i else v.getLsbD (i - s.ptr * wsize T) := by
  by_cases hw : i < s.ptr * wsize T
  · have hne : i / wsize T ≠ s.ptr := ((Nat.div_lt_iff_lt_mul (wsize_pos T)).mpr hw).ne
    rw [if_pos hw]
    exact congrArg (fun w => w.getLsbD (i % wsize T)) (Function.update_of_ne hne v s.mem)
  · obtain ⟨k, rfl⟩ := Nat.exists_eq_add_of_le (Nat.le_of_not_lt hw)
    have hk : k < wsize T := by rw [Nat.add_mul, Nat.one_mul] at hi; omega
    rw [if_neg hw, memBit_word _ _ hk, Nat.add_sub_cancel_left]
    exact congrArg (fun w => w.getLsbD k) (Function.update_self s.ptr v s.mem)

theorem streamWriteBit_wrote {s : Bitstream T} (hs : s.WF) (b : Bool) :
    Wrote s [b] (streamWriteBit s b) := by
  have hb := hs.bits_lt
  have hget := getLsbD_push hs b
  simp only [streamWriteBit]
  generalize s.buffer + (BitVec.ofBool b).setWidth (wsize T) <<< s.bits = buf at hget
  have hnew : ∀ k, k < 1 → [b].getD k false = b := by
    intro k hk
    obtain rfl : k = 0 := by omega
    rfl
  split
  · next hfull =>
    -- the word is complete: it moves to memory
    have htell : streamWtell s + 1 = (s.ptr + 1) * wsize T := by
      rw [streamWtell, Nat.add_mul, Nat.one_mul]
      omega
    refine ⟨⟨wsize_pos T, by simp⟩, htell.symm, ?_, ?_, ?_⟩
    · intro i hi
      rw [bitAt_of_lt _ (show i < (s.ptr + 1) * wsize T by omega)]
      refine (bitAt_writeWord _ buf (show i < (s.ptr + 1) * wsize T by omega)).trans ?_
      by_cases hw : i < s.ptr * wsize T
      · rw [if_pos hw, bitAt_of_lt _ hw]
      · rw [if_neg hw, hget, if_neg (by rw [streamWtell] at hi; omega), bitAt, if_neg hw]
    · intro k hk
      rw [hnew k hk]
      have hi : streamWtell s + k < (s.ptr + 1) * wsize T := by
        rw [List.length_singleton] at hk
        omega
      rw [bitAt_of_lt _ hi]
      refine (bitAt_writeWord _ buf hi).trans ?_
      obtain rfl : k = 0 := by rw [List.length_singleton] at hk; omega
      rw [if_neg (by rw [streamWtell]; omega), hget, if_pos (by rw [streamWtell]; omega)]
    · intro j (hj : s.ptr + 1 ≤ j)
      exact Function.update_of_ne (show j ≠ s.ptr by omega) _ _
  · next hfull =>
    refine ⟨WF.of_getLsbD (show s.bits + 1 < wsize T by omega) ?_, rfl, ?_, ?_, fun _ _ => rfl⟩
    · intro i (hi : s.bits + 1 ≤ i)
      show buf.getLsbD i = false
      rw [hget, if_neg (by omega), hs.getLsbD_buffer (by omega)]
    · intro i hi
      by_cases hw : i < s.ptr * wsize T
      · rw [bitAt_of_lt s hw]
        exact if_pos hw
      · obtain ⟨j, rfl⟩ := Nat.exists_eq_add_of_le (Nat.le_of_not_lt hw)
        refine (bitAt_buffer _ j).trans ?_
        rw [bitAt_buffer s, hget, if_neg (by rw [streamWtell] at hi; omega)]
    · intro k hk
      rw [hnew k hk, streamWtell, Nat.add_assoc]
      refine (bitAt_buffer _ (s.bits + k)).trans ?_
      obtain rfl : k = 0 := by rw [List.length_singleton] at hk; omega
      rw [hget, if_pos (by omega)]

namespace Bitstream

theorem append_wrote {s : Bitstream T} (hs : s.WF) (l : List Bool) : Wrote s l (s.append l) := by
  induction l generalizing s with
  | nil => exact Wrote.refl hs
  | cons b l ih =>
    have h := streamWriteBit_wrote hs b
    exact h.trans (ih h.wf)

theorem WF.append {s : Bitstream T} (hs : s.WF) (l : List Bool) : (s.append l).WF :=
  (append_wrote hs l).wf

theorem WF.push {s : Bitstream T} (hs : s.WF) (b : Bool) : (streamWriteBit s b).WF :=
  (streamWriteBit_wrote hs b).wf

theorem streamWtell_append {s : Bitstream T} (hs : s.WF) (l : List Bool) :
    streamWtell (s.append l) = streamWtell s + l.length := (append_wrote hs l).wtell

/-- Any state that results from writing `l` is the one `append` computes. -/
theorem Wrote.eq_append {s s' : Bitstream T} {l : List Bool} (hs : s.WF) (h : Wrote s l s') :
    s' = s.append l := h.unique (append_wrote hs l)

theorem WF.rewind (s : Bitstream T) : (streamRewind s).WF := ⟨wsize_pos T, by simp [streamRewind]⟩

end Bitstream

/-- The output loop spells the bits `V` of an overfull buffer: `V` agrees with the buffer on
the first word, and with the value, shifted to the right place, beyond it. -/
private theorem writeBitsLoop_bits (value : BitVec 64) (n : ℕ) (s : Bitstream T) (V : ℕ → Bool)
    (hfull : wsize T ≤ s.bits) (hn : s.bits ≤ wsize T + n)
    (h64 : wsize T = 64 → s.bits < 2 * wsize T)
    (hbuf : ∀ k < wsize T, s.buffer.getLsbD k = V k)
    (hval : ∀ i, wsize T ≤ i → value.getLsbD (n + i - s.bits) = V i) :
    let r := writeBitsLoop s value n
    r.bits < wsize T ∧ streamWtell r = streamWtell s ∧
      (∀ i < streamWtell r, r.bitAt i =
        if i < s.ptr * wsize T then memBit s.mem i else V (i - s.ptr * wsize T)) ∧
      ∀ j, r.ptr ≤ j → r.mem j = s.mem j := by
  induction hb : s.bits using Nat.strong_induction_on generalizing s V with
  | _ bits ih =>
  subst hb
  have hpos := wsize_pos T
  have hle := wsize_le T
  rw [writeBitsLoop]
  -- one word leaves the buffer
  set s' : Bitstream T := { streamWriteWord s s.buffer with
    buffer := (value >>> (n - (s.bits - wsize T))).setWidth (wsize T)
    bits := s.bits - wsize T } with hs'
  have hptr : s'.ptr = s.ptr + 1 := rfl
  have hbits : s'.bits = s.bits - wsize T := rfl
  have htell : streamWtell s' = streamWtell s := by
    rw [streamWtell, streamWtell, hptr, hbits, Nat.add_mul, Nat.one_mul]
    omega
  have hbuf' : ∀ k < wsize T, s'.buffer.getLsbD k = V (wsize T + k) := by
    intro k hk
    rw [← hval _ (Nat.le_add_right _ _)]
    show ((value >>> (n - (s.bits - wsize T))).setWidth (wsize T)).getLsbD k = _
    rw [BitVec.getLsbD_setWidth, BitVec.getLsbD_ushiftRight, decide_eq_true hk, Bool.true_and]
    congr 1
    omega
  have hmem : ∀ i < (s.ptr + 1) * wsize T, memBit s'.mem i =
      if i < s.ptr * wsize T then memBit s.mem i else V (i - s.ptr * wsize T) := by
    intro i hi
    refine (bitAt_writeWord s s.buffer hi).trans (ite_congr rfl (fun _ => rfl) fun hw => ?_)
    rw [Nat.add_mul, Nat.one_mul] at hi
    exact hbuf _ (by omega)
  have hrest : ∀ j, s.ptr + 1 ≤ j → s'.mem j = s.mem j := fun j hj =>
    Function.update_of_ne (by omega) _ _
  have hstep : (s.ptr + 1) * wsize T = s.ptr * wsize T + wsize T := by
    rw [Nat.add_mul, Nat.one_mul]
  by_cases hloop : wsize T < 64 ∧ wsize T ≤ s'.bits
  · rw [if_pos hloop]
    obtain ⟨hlt, ht, hbit, hr⟩ := ih s'.bits (by omega) s' (fun i => V (wsize T + i)) hloop.2
      (by omega) (by omega) hbuf' (fun i hi => by
        rw [← hval _ (by omega)]
        congr 1
        omega) rfl
    refine ⟨hlt, ht.trans htell, fun i hi => ?_, fun j hj => ?_⟩
    · rw [hbit i hi, hptr]
      by_cases hw : i < (s.ptr + 1) * wsize T
      · rw [if_pos hw, hmem i hw]
      · rw [if_neg hw, if_neg (by omega)]
        congr 1
        omega
    · have hjs : s.ptr + 1 ≤ j := by
        have h1 : s'.ptr * wsize T ≤ streamWtell s' := by rw [streamWtell]; omega
        rw [← ht, streamWtell] at h1
        have h2 : s'.ptr * wsize T < (j + 1) * wsize T := by
          have := Nat.mul_le_mul_right (wsize T) hj
          rw [Nat.add_mul, Nat.one_mul]
          omega
        have := Nat.lt_of_mul_lt_mul_right h2
        omega
      rw [hr j hj, hrest j hjs]
  · rw [if_neg hloop]
    have hlt : s'.bits < wsize T := by
      have h8 := eight_dvd_wsize T
      by_cases h : wsize T < 64
      · exact Nat.lt_of_not_le fun hge => hloop ⟨h, hge⟩
      · have := h64 (by omega)
        omega
    refine ⟨hlt, htell, fun i hi => ?_, hrest⟩
    rw [bitAt, hptr]
    by_cases hw : i < (s.ptr + 1) * wsize T
    · rw [if_pos hw, hmem i hw]
    · have hi' : i - (s.ptr + 1) * wsize T < wsize T := by
        rw [streamWtell, hptr] at hi
        omega
      rw [if_neg hw, if_neg (by omega), hbuf' _ hi']
      congr 1
      omega

/-- The bits of a buffer and a value laid on top of it. -/
private theorem getLsbD_load {s : Bitstream T} (hs : s.WF) (value : BitVec 64) {k : ℕ}
    (hk : k < wsize T) :
    (s.buffer + (value <<< s.bits).setWidth (wsize T)).getLsbD k =
      if k < s.bits then s.buffer.getLsbD k else value.getLsbD (k - s.bits) := by
  have hv : ∀ i, ((value <<< s.bits).setWidth (wsize T)).getLsbD i =
      (decide (i < wsize T) && (decide (i < 64) && (!decide (i < s.bits) &&
        value.getLsbD (i - s.bits)))) := by
    intro i
    rw [BitVec.getLsbD_setWidth, BitVec.getLsbD_shiftLeft, Bool.and_assoc]
  have hle := wsize_le T
  rw [getLsbD_add_of_disjoint, hv]
  · by_cases h : k < s.bits
    · simp [h]
    · rw [hs.getLsbD_buffer (Nat.le_of_not_lt h), decide_eq_true hk,
        decide_eq_true (show k < 64 by omega), if_neg h, decide_eq_false h]
      rfl
  · intro i hi
    have hlt : i < s.bits := by
      by_contra h
      rw [hs.getLsbD_buffer (by omega)] at hi
      exact absurd hi (by decide)
    rw [hv]
    simp [hlt]

/-- The source clears the buffer above the buffered bits when a write ends. -/
private def trim (r : Bitstream T) : Bitstream T :=
  { r with buffer := r.buffer &&& (1#(wsize T) <<< r.bits - 1#(wsize T)) }

private theorem getLsbD_trim {r : Bitstream T} (hr : r.bits < wsize T) (i : ℕ) :
    (trim r).buffer.getLsbD i = (r.buffer.getLsbD i && decide (i < r.bits)) := by
  rw [trim, BitVec.getLsbD_and, getLsbD_mask hr.le]

private theorem trim_wf {r : Bitstream T} (hr : r.bits < wsize T) : (trim r).WF :=
  WF.of_getLsbD hr fun i (hi : r.bits ≤ i) => by
    rw [getLsbD_trim hr, decide_eq_false (Nat.not_lt.mpr hi), Bool.and_false]

private theorem bitAt_trim {r : Bitstream T} (hr : r.bits < wsize T) {i : ℕ}
    (hi : i < streamWtell r) : (trim r).bitAt i = r.bitAt i := by
  by_cases hw : i < r.ptr * wsize T
  · rw [bitAt_of_lt r hw]
    exact if_pos hw
  · obtain ⟨k, rfl⟩ := Nat.exists_eq_add_of_le (Nat.le_of_not_lt hw)
    refine (bitAt_buffer (trim r) k).trans ?_
    have hk : k < r.bits := by rw [streamWtell] at hi; omega
    rw [bitAt_buffer r, getLsbD_trim hr, decide_eq_true hk, Bool.and_true]

/-- A state whose bits are those of `s` with `lowBits value n` behind them. -/
private theorem wrote_lowBits {s r : Bitstream T} (value : BitVec 64) (n : ℕ)
    (hr : r.bits < wsize T) (htell : streamWtell r = streamWtell s + n)
    (hbit : ∀ i < streamWtell r, r.bitAt i = if i < s.ptr * wsize T then memBit s.mem i else
      if i - s.ptr * wsize T < s.bits then s.buffer.getLsbD (i - s.ptr * wsize T)
      else value.getLsbD (i - s.ptr * wsize T - s.bits))
    (hrest : ∀ j, r.ptr ≤ j → r.mem j = s.mem j) : Wrote s (lowBits value n) (trim r) := by
  have htrim : streamWtell (trim r) = streamWtell s + n := htell
  refine ⟨trim_wf hr, by rw [htrim, length_lowBits], fun i hi => ?_, fun k hk => ?_, hrest⟩
  · rw [bitAt_trim hr (by omega), hbit i (by omega), bitAt]
    refine ite_congr rfl (fun _ => rfl) fun hw => ?_
    rw [if_pos (by rw [streamWtell] at hi; omega)]
  · rw [length_lowBits] at hk
    rw [bitAt_trim hr (by omega), hbit _ (by omega), streamWtell, if_neg (by omega),
      if_neg (by omega), List.getD_eq_getElem _ _ (by rwa [length_lowBits]), getElem_lowBits]
    congr 1
    omega

theorem streamWriteBits_wrote {s : Bitstream T} (hs : s.WF) (value : BitVec 64) {n : ℕ}
    (hn : n ≤ 64) : Wrote s (lowBits value n) (streamWriteBits s value n).2 := by
  have hb := hs.bits_lt
  have hle := wsize_le T
  simp only [streamWriteBits]
  set s₁ : Bitstream T := { s with
    buffer := s.buffer + (value <<< s.bits).setWidth (wsize T), bits := s.bits + n } with hs₁
  have hbits : s₁.bits = s.bits + n := rfl
  have hptr : s₁.ptr = s.ptr := rfl
  have hload : ∀ k < wsize T, s₁.buffer.getLsbD k =
      if k < s.bits then s.buffer.getLsbD k else value.getLsbD (k - s.bits) :=
    fun k hk => getLsbD_load hs value hk
  have htell : streamWtell s₁ = streamWtell s + n := (Nat.add_assoc _ _ _).symm
  by_cases hfull : wsize T ≤ s₁.bits
  · rw [if_pos hfull]
    obtain ⟨hlt, ht, hbit, hrest⟩ := writeBitsLoop_bits (value >>> 1) (n - 1) s₁
      (fun k => if k < s.bits then s.buffer.getLsbD k else value.getLsbD (k - s.bits)) hfull
      (by omega) (by omega) hload (fun i hi => by
        rw [BitVec.getLsbD_ushiftRight, if_neg (by omega)]
        congr 1
        omega)
    exact wrote_lowBits value n hlt (ht.trans htell) hbit hrest
  · rw [if_neg hfull]
    refine wrote_lowBits value n (r := s₁) (by omega) htell (fun i hi => ?_) fun _ _ => rfl
    rw [bitAt]
    refine ite_congr rfl (fun _ => rfl) fun hw => ?_
    rw [streamWtell, hptr] at hi
    exact hload _ (by rw [hptr]; omega)

/-- Writing `n` bits of a value returns the rest of the value and appends its low bits. -/
theorem streamWriteBits_eq {s : Bitstream T} (hs : s.WF) (value : BitVec 64) {n : ℕ}
    (hn : n ≤ 64) : streamWriteBits s value n = (value >>> n, s.append (lowBits value n)) := by
  refine Prod.ext ?_ ((streamWriteBits_wrote hs value hn).eq_append hs)
  simp only [streamWriteBits]
  split
  · next hfull =>
    have hn1 : 1 + (n - 1) = n := by
      have : wsize T ≤ s.bits + n := hfull
      have := hs.bits_lt
      omega
    rw [← BitVec.shiftRight_add, hn1]
  · rfl

theorem getD_replicate_false (n k : ℕ) : (List.replicate n false).getD k false = false := by
  rw [List.getD_eq_getElem?_getD, List.getElem?_replicate]
  split <;> rfl

/-- Zeros that fit into the buffer only raise the bit count. -/
private theorem wrote_zeros {s : Bitstream T} (hs : s.WF) {n : ℕ} (hn : s.bits + n < wsize T) :
    Wrote s (List.replicate n false) { s with bits := s.bits + n } := by
  refine ⟨WF.of_getLsbD hn fun i (hi : s.bits + n ≤ i) => hs.getLsbD_buffer (by omega), ?_,
    fun _ _ => rfl, fun k hk => ?_, fun _ _ => rfl⟩
  · rw [List.length_replicate]
    exact (Nat.add_assoc _ _ _).symm
  · rw [getD_replicate_false, streamWtell, Nat.add_assoc]
    refine (bitAt_buffer { s with bits := s.bits + n } (s.bits + k)).trans ?_
    exact hs.getLsbD_buffer (Nat.le_add_right _ _)

/-- Zeros that fill the word move the buffer to memory. -/
private theorem wrote_zeros_full {s : Bitstream T} (hs : s.WF) :
    Wrote s (List.replicate (wsize T - s.bits) false)
      { streamWriteWord s s.buffer with buffer := 0, bits := 0 } := by
  have hb := hs.bits_lt
  have hstep : (s.ptr + 1) * wsize T = s.ptr * wsize T + wsize T := by
    rw [Nat.add_mul, Nat.one_mul]
  have hbit : ∀ i < (s.ptr + 1) * wsize T,
      ({ streamWriteWord s s.buffer with buffer := 0, bits := 0 } : Bitstream T).bitAt i =
        s.bitAt i := by
    intro i hi
    rw [bitAt_of_lt _ hi]
    exact bitAt_writeWord s s.buffer hi
  refine ⟨⟨wsize_pos T, by simp⟩, ?_, fun i hi => ?_, fun k hk => ?_, fun j hj => ?_⟩
  · rw [List.length_replicate]
    show (s.ptr + 1) * wsize T + 0 = s.ptr * wsize T + s.bits + (wsize T - s.bits)
    omega
  · exact hbit i (by rw [streamWtell] at hi; omega)
  · rw [List.length_replicate] at hk
    rw [getD_replicate_false, hbit _ (by rw [streamWtell]; omega), streamWtell, Nat.add_assoc,
      bitAt_buffer]
    exact hs.getLsbD_buffer (Nat.le_add_right _ _)
  · exact Function.update_of_ne (show j ≠ s.ptr by
      have : s.ptr + 1 ≤ j := hj
      omega) _ _

private theorem padLoop_eq (n : ℕ) {s : Bitstream T} {p : ℕ} (hs : ({ s with bits := p }).WF) :
    padLoop s (p + n) = ({ s with bits := p }).append (List.replicate n false) := by
  induction n using Nat.strong_induction_on generalizing s p with
  | _ n ih =>
  have hp : p < wsize T := hs.bits_lt
  rw [padLoop]
  split
  · next hfull =>
    have hsplit : List.replicate n false =
        List.replicate (wsize T - p) false ++ List.replicate (n - (wsize T - p)) false := by
      rw [List.replicate_append_replicate]
      congr 1
      omega
    rw [hsplit, append_append, ← (wrote_zeros_full hs).eq_append hs]
    have h := ih (n - (wsize T - p)) (by omega) (s := { streamWriteWord s s.buffer with buffer := 0 })
      (p := 0) ⟨wsize_pos T, by simp⟩
    rw [Nat.zero_add, show n - (wsize T - p) = p + n - wsize T by omega] at h
    rw [h, show n - (wsize T - p) = p + n - wsize T by omega]
    rfl
  · next hfull =>
    exact (wrote_zeros hs (show p + n < wsize T by omega)).eq_append hs

/-- Padding appends zeros. -/
theorem streamPad_eq {s : Bitstream T} (hs : s.WF) (n : ℕ) :
    streamPad s n = s.append (List.replicate n false) := padLoop_eq n hs

/-- Flushing pads to the next word boundary. -/
theorem streamFlush_eq {s : Bitstream T} (hs : s.WF) :
    streamFlush s = ((wsize T - s.bits) % wsize T,
      s.append (List.replicate ((wsize T - s.bits) % wsize T) false)) := by
  simp only [streamFlush]
  split
  · rw [streamPad_eq hs]
  · next h => rw [Decidable.not_not.mp h, List.replicate_zero, append_nil]

theorem streamWseek_wf (s : Bitstream T) (o : ℕ) : (streamWseek s o).WF := by
  have hlt := Nat.mod_lt o (wsize_pos T)
  simp only [streamWseek]
  split
  · refine WF.of_getLsbD hlt fun i (hi : o % wsize T ≤ i) => ?_
    show (s.mem (o / wsize T) &&& (1#(wsize T) <<< (o % wsize T) - 1#(wsize T))).getLsbD i = false
    rw [BitVec.getLsbD_and, getLsbD_mask hlt.le, decide_eq_false (Nat.not_lt.mpr hi),
      Bool.and_false]
  · exact ⟨wsize_pos T, by simp⟩

theorem streamWtell_streamWseek (s : Bitstream T) (o : ℕ) : streamWtell (streamWseek s o) = o := by
  have hdiv := Nat.div_add_mod o (wsize T)
  rw [Nat.mul_comm] at hdiv
  rw [streamWseek]
  split_ifs with h
  · exact hdiv
  · rw [Decidable.not_not.mp h] at hdiv
    exact hdiv

theorem streamWseek_mem (s : Bitstream T) (o : ℕ) : (streamWseek s o).mem = s.mem := by
  rw [streamWseek]
  split_ifs <;> rfl

theorem streamWseek_ptr (s : Bitstream T) (o : ℕ) : (streamWseek s o).ptr = o / wsize T := by
  rw [streamWseek]
  split_ifs <;> rfl

/-- A writer that seeks keeps the bits before its position. -/
theorem bitAt_streamWseek (s : Bitstream T) {o i : ℕ} (hi : i < o) :
    (streamWseek s o).bitAt i = memBit s.mem i := by
  have hdiv := Nat.div_add_mod o (wsize T)
  have hlt := Nat.mod_lt o (wsize_pos T)
  rcases Nat.lt_or_ge i (o / wsize T * wsize T) with h | h
  · rw [bitAt_of_lt _ (by rwa [streamWseek_ptr]), streamWseek_mem]
  · obtain ⟨k, rfl⟩ := Nat.exists_eq_add_of_le h
    rw [Nat.mul_comm] at hdiv
    have hk : k < o % wsize T := by omega
    have hbuf := bitAt_buffer (streamWseek s o) k
    rw [streamWseek_ptr] at hbuf
    rw [hbuf, memBit_word s.mem _ (hk.trans hlt), streamWseek, if_pos (Nat.ne_zero_of_lt hk)]
    show (s.mem (o / wsize T) &&& (1#(wsize T) <<< (o % wsize T) - 1#(wsize T))).getLsbD k = _
    rw [BitVec.getLsbD_and, getLsbD_mask hlt.le, decide_eq_true hk, Bool.and_true]

end Zfp

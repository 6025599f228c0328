import Zfp.BitstreamReader

/-!
# Every shift of the bit stream is defined

The C standard leaves a shift undefined whose amount reaches the width of its operand.
The operations are restated here in a semantics where such a shift, and a difference of
unsigned counts that would wrap around, ends the run with `none`.
-/

namespace Zfp
open BitLists Bitstream

variable {T : WordType}

def checkedShl {w : ℕ} (v : BitVec w) (k : ℕ) : Option (BitVec w) :=
  if k < w then some (v <<< k) else none

def checkedShr {w : ℕ} (v : BitVec w) (k : ℕ) : Option (BitVec w) :=
  if k < w then some (v >>> k) else none

def checkedSub (a b : ℕ) : Option ℕ := if b ≤ a then some (a - b) else none

theorem checkedShl_eq {w k : ℕ} (v : BitVec w) (h : k < w) : checkedShl v k = some (v <<< k) :=
  if_pos h

theorem checkedShr_eq {w k : ℕ} (v : BitVec w) (h : k < w) : checkedShr v k = some (v >>> k) :=
  if_pos h

theorem checkedSub_eq {a b : ℕ} (h : b ≤ a) : checkedSub a b = some (a - b) := if_pos h

def streamReadBitChecked (s : Bitstream T) : Option (Bool × Bitstream T) := do
  let s := if s.bits = 0 then
      let r := streamReadWord s
      { r.2 with buffer := r.1, bits := wsize T }
    else s
  let bits ← checkedSub s.bits 1
  let buffer ← checkedShr s.buffer 1
  return (s.buffer.getLsbD 0, { s with bits := bits, buffer := buffer })

def streamWriteBitChecked (s : Bitstream T) (bit : Bool) : Option (Bitstream T) := do
  let b ← checkedShl ((BitVec.ofBool bit).setWidth (wsize T)) s.bits
  let s := { s with buffer := s.buffer + b, bits := s.bits + 1 }
  return if s.bits = wsize T then { streamWriteWord s s.buffer with buffer := 0, bits := 0 } else s

def readBitsLoopChecked (s : Bitstream T) (value : BitVec 64) (n : ℕ) :
    Option (BitVec 64 × Bitstream T) :=
  let r := streamReadWord s
  let s' := { r.2 with buffer := r.1, bits := s.bits + wsize T }
  (checkedShl (r.1.setWidth 64) s.bits).bind fun w =>
    if wsize T < 64 ∧ s'.bits < n then readBitsLoopChecked s' (value + w) n
    else some (value + w, s')
termination_by n - s.bits
decreasing_by
  have := wsize_pos T
  have : s'.bits = s.bits + wsize T := rfl
  omega

def streamReadBitsChecked (s : Bitstream T) (n : ℕ) : Option (BitVec 64 × Bitstream T) := do
  let value := s.buffer.setWidth 64
  if s.bits < n then
    let (value, s) ← readBitsLoopChecked s value n
    let bits ← checkedSub s.bits n
    if bits = 0 then return (value, { s with buffer := 0, bits := bits })
    else
      let k ← checkedSub (wsize T) bits
      let buffer ← checkedShr s.buffer k
      let one ← checkedSub n 1
      let mask ← checkedShl 2#64 one
      return (value &&& (mask - 1#64), { s with buffer := buffer, bits := bits })
  else
    let bits ← checkedSub s.bits n
    let buffer ← checkedShr s.buffer n
    let mask ← checkedShl 1#64 n
    return (value &&& (mask - 1#64), { s with bits := bits, buffer := buffer })

def writeBitsLoopChecked (s : Bitstream T) (value : BitVec 64) (n : ℕ) : Option (Bitstream T) :=
  let bits := s.bits - wsize T
  (checkedSub n bits).bind fun k => (checkedShr value k).bind fun v =>
    let s' := { streamWriteWord s s.buffer with buffer := v.setWidth (wsize T), bits := bits }
    if wsize T < 64 ∧ wsize T ≤ s'.bits then writeBitsLoopChecked s' value n else some s'
termination_by s.bits
decreasing_by
  have := wsize_pos T
  have : s'.bits = s.bits - wsize T := rfl
  omega

def streamWriteBitsChecked (s : Bitstream T) (value : BitVec 64) (n : ℕ) :
    Option (BitVec 64 × Bitstream T) := do
  let v ← checkedShl value s.bits
  let s := { s with buffer := s.buffer + v.setWidth (wsize T), bits := s.bits + n }
  let (value, n, s) ←
    if wsize T ≤ s.bits then do
      let value ← checkedShr value 1
      let n ← checkedSub n 1
      let s ← writeBitsLoopChecked s value n
      pure (value, n, s)
    else pure (value, n, s)
  let mask ← checkedShl 1#(wsize T) s.bits
  let rest ← checkedShr value n
  return (rest, { s with buffer := s.buffer &&& (mask - 1#(wsize T)) })

def streamRseekChecked (s : Bitstream T) (offset : ℕ) : Option (Bitstream T) := do
  let n := offset % wsize T
  let s := { s with ptr := offset / wsize T }
  if n ≠ 0 then
    let r := streamReadWord s
    let buffer ← checkedShr r.1 n
    return { r.2 with buffer := buffer, bits := wsize T - n }
  else return { s with buffer := 0, bits := 0 }

theorem streamWriteBitChecked_eq {s : Bitstream T} (hs : s.WF) (b : Bool) :
    streamWriteBitChecked s b = some (streamWriteBit s b) := by
  rw [streamWriteBitChecked, checkedShl_eq _ hs.bits_lt]
  rfl

theorem streamReadBitChecked_eq (s : Bitstream T) :
    streamReadBitChecked s = some (streamReadBit s) := by
  have h8 : 1 < wsize T := by cases T <;> decide
  simp only [streamReadBitChecked, streamReadBit]
  split
  · rw [checkedSub_eq (wsize_pos T), checkedShr_eq _ h8]
    rfl
  · rw [checkedSub_eq (by omega), checkedShr_eq _ h8]
    rfl

private theorem readBitsLoopChecked_eq {n : ℕ} (hn : n ≤ 64) (s : Bitstream T) (value : BitVec 64)
    (hlt : s.bits < n) : readBitsLoopChecked s value n = some (readBitsLoop s value n) := by
  induction hm : n - s.bits using Nat.strong_induction_on generalizing s value with
  | _ m ih =>
  have hpos := wsize_pos T
  rw [readBitsLoopChecked, readBitsLoop]
  simp only [checkedShl_eq _ (show s.bits < 64 by omega), Option.bind_some]
  split
  · next h => exact ih _ (by dsimp only at h ⊢; omega) _ _ h.2 rfl
  · rfl

private theorem readBitsLoop_count {n : ℕ} (hn : n ≤ 64) (s : Bitstream T) (value : BitVec 64)
    (hlt : s.bits < n) :
    n ≤ (readBitsLoop s value n).2.bits ∧ (readBitsLoop s value n).2.bits < n + wsize T := by
  induction hm : n - s.bits using Nat.strong_induction_on generalizing s value with
  | _ m ih =>
  have hpos := wsize_pos T
  have hle := wsize_le T
  rw [readBitsLoop]
  split
  · next h => exact ih _ (by dsimp only at h ⊢; omega) _ _ h.2 rfl
  · next h =>
    dsimp only at h ⊢
    omega

theorem streamReadBitsChecked_eq {s : Bitstream T} (hs : s.WF) {n : ℕ} (hn : n ≤ 64) :
    streamReadBitsChecked s n = some (streamReadBits s n) := by
  have hb := hs.bits_lt
  have hle := wsize_le T
  simp only [streamReadBitsChecked, streamReadBits]
  split
  · next hfetch =>
    obtain ⟨hge, hub⟩ := readBitsLoop_count hn s (s.buffer.setWidth 64) hfetch
    simp only [readBitsLoopChecked_eq hn s _ hfetch, checkedSub_eq hge, Option.bind_eq_bind,
      Option.bind_some]
    by_cases h0 : (readBitsLoop s (s.buffer.setWidth 64) n).2.bits - n = 0
    · rw [if_pos h0, if_pos h0]
      rfl
    · rw [if_neg h0, if_neg h0]
      simp only [checkedSub_eq (show (readBitsLoop s (s.buffer.setWidth 64) n).2.bits - n ≤
          wsize T by omega), checkedSub_eq (show 1 ≤ n by omega), checkedShr_eq _ (show wsize T -
          ((readBitsLoop s (s.buffer.setWidth 64) n).2.bits - n) < wsize T by omega),
        checkedShl_eq _ (show n - 1 < 64 by omega), Option.bind_some]
      rfl
  · next hfetch =>
    simp only [checkedSub_eq (show n ≤ s.bits by omega), checkedShr_eq _ (show n < wsize T by omega),
      checkedShl_eq _ (show n < 64 by omega), Option.bind_eq_bind, Option.bind_some]
    rfl

private theorem writeBitsLoopChecked_eq {n : ℕ} (hn : n < 64) (s : Bitstream T) (value : BitVec 64)
    (hle : s.bits ≤ wsize T + n) :
    writeBitsLoopChecked s value n = some (writeBitsLoop s value n) := by
  induction hm : s.bits using Nat.strong_induction_on generalizing s with
  | _ m ih =>
  have hpos := wsize_pos T
  rw [writeBitsLoopChecked, writeBitsLoop]
  simp only [checkedSub_eq (show s.bits - wsize T ≤ n by omega),
    checkedShr_eq value (show n - (s.bits - wsize T) < 64 by omega), Option.bind_some]
  split
  · next h => exact ih _ (by dsimp only at h ⊢; omega) _ (by dsimp only at h ⊢; omega) rfl
  · rfl

theorem streamWriteBitsChecked_eq {s : Bitstream T} (hs : s.WF) (value : BitVec 64) {n : ℕ}
    (hn : n ≤ 64) : streamWriteBitsChecked s value n = some (streamWriteBits s value n) := by
  have hb := hs.bits_lt
  have hle := wsize_le T
  have hlt := (streamWriteBits_wrote hs value hn).wf.bits_lt
  simp only [streamWriteBits] at hlt
  simp only [streamWriteBitsChecked, streamWriteBits,
    checkedShl_eq value (show s.bits < 64 by omega), Option.bind_eq_bind, Option.bind_some]
  split
  · next hfull =>
    have hloop := writeBitsLoopChecked_eq (show n - 1 < 64 by omega)
      { s with buffer := s.buffer + (value <<< s.bits).setWidth (wsize T), bits := s.bits + n }
      (value >>> 1) (show s.bits + n ≤ wsize T + (n - 1) by omega)
    rw [if_pos hfull] at hlt
    simp only [checkedShr_eq value (show 1 < 64 by decide), checkedSub_eq (show 1 ≤ n by omega),
      hloop, Option.pure_def, Option.bind_some, checkedShl_eq _ hlt,
      checkedShr_eq _ (show n - 1 < 64 by omega)]
  · next hfull =>
    rw [if_neg hfull] at hlt
    simp only [Option.pure_def, Option.bind_some, checkedShl_eq _ hlt,
      checkedShr_eq value (show n < 64 by omega)]

theorem streamRseekChecked_eq (s : Bitstream T) (o : ℕ) :
    streamRseekChecked s o = some (streamRseek s o) := by
  simp only [streamRseekChecked, streamRseek]
  split
  · rw [checkedShr_eq _ (Nat.mod_lt o (wsize_pos T))]
    rfl
  · rfl

end Zfp

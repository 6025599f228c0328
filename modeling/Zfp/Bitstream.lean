import Zfp.BitLists

/-!
# The word-buffered bit stream

A direct embedding of the unstrided build of `bitstream.inl`. Words are addressed from
the beginning of the stream, the end of the buffer is not enforced (as in the source),
and bit offsets are natural numbers: a stream is shorter than `2 ^ 64` bits.
-/

namespace Zfp
open BitLists

/-- The unsigned integer types that `BIT_STREAM_WORD_TYPE` may name. -/
inductive WordType | uint8 | uint16 | uint32 | uint64
  deriving DecidableEq, Repr

def wsize : WordType → ℕ
  | .uint8 => 8 | .uint16 => 16 | .uint32 => 32 | .uint64 => 64

variable {T : WordType}

theorem wsize_pos (T : WordType) : 0 < wsize T := by cases T <;> decide
theorem wsize_le (T : WordType) : wsize T ≤ 64 := by cases T <;> decide
theorem eight_dvd_wsize (T : WordType) : 8 ∣ wsize T := by cases T <;> decide

@[ext] structure Bitstream (T : WordType) where
  /-- number of buffered bits -/
  bits : ℕ
  /-- incoming or outgoing bits -/
  buffer : BitVec (wsize T)
  /-- index of the next word to be read or written -/
  ptr : ℕ
  /-- the words from the beginning of the stream on -/
  mem : ℕ → BitVec (wsize T)

def streamReadWord (s : Bitstream T) : BitVec (wsize T) × Bitstream T :=
  (s.mem s.ptr, { s with ptr := s.ptr + 1 })

def streamWriteWord (s : Bitstream T) (value : BitVec (wsize T)) : Bitstream T :=
  { s with mem := Function.update s.mem s.ptr value, ptr := s.ptr + 1 }

def streamSize (s : Bitstream T) : ℕ := s.ptr * (wsize T / 8)

def streamReadBit (s : Bitstream T) : Bool × Bitstream T :=
  let s := if s.bits = 0 then
      let (w, s) := streamReadWord s
      { s with buffer := w, bits := wsize T }
    else s
  (s.buffer.getLsbD 0, { s with bits := s.bits - 1, buffer := s.buffer >>> 1 })

def streamWriteBit (s : Bitstream T) (bit : Bool) : Bitstream T :=
  let s := { s with
    buffer := s.buffer + (BitVec.ofBool bit).setWidth (wsize T) <<< s.bits
    bits := s.bits + 1 }
  if s.bits = wsize T then { streamWriteWord s s.buffer with buffer := 0, bits := 0 } else s

/-- Fetch words until `n` bits are buffered. -/
def readBitsLoop (s : Bitstream T) (value : BitVec 64) (n : ℕ) : BitVec 64 × Bitstream T :=
  let r := streamReadWord s
  let value := value + r.1.setWidth 64 <<< s.bits
  let s' := { r.2 with buffer := r.1, bits := s.bits + wsize T }
  if wsize T < 64 ∧ s'.bits < n then readBitsLoop s' value n else (value, s')
termination_by n - s.bits
decreasing_by
  have := wsize_pos T
  have : s'.bits = s.bits + wsize T := rfl
  omega

def streamReadBits (s : Bitstream T) (n : ℕ) : BitVec 64 × Bitstream T :=
  let value := s.buffer.setWidth 64
  if s.bits < n then
    let (value, s) := readBitsLoop s value n
    let s := { s with bits := s.bits - n }
    if s.bits = 0 then (value, { s with buffer := 0 })
    else (value &&& (2#64 <<< (n - 1) - 1#64),
      { s with buffer := s.buffer >>> (wsize T - s.bits) })
  else
    (value &&& (1#64 <<< n - 1#64), { s with bits := s.bits - n, buffer := s.buffer >>> n })

/-- Output words while the buffer is full. -/
def writeBitsLoop (s : Bitstream T) (value : BitVec 64) (n : ℕ) : Bitstream T :=
  let bits := s.bits - wsize T
  let s' := { streamWriteWord s s.buffer with
    buffer := (value >>> (n - bits)).setWidth (wsize T)
    bits := bits }
  if wsize T < 64 ∧ wsize T ≤ s'.bits then writeBitsLoop s' value n else s'
termination_by s.bits
decreasing_by
  have := wsize_pos T
  have : s'.bits = s.bits - wsize T := rfl
  omega

def streamWriteBits (s : Bitstream T) (value : BitVec 64) (n : ℕ) : BitVec 64 × Bitstream T :=
  let s := { s with
    buffer := s.buffer + (value <<< s.bits).setWidth (wsize T)
    bits := s.bits + n }
  let (value, n, s) :=
    if wsize T ≤ s.bits then (value >>> 1, n - 1, writeBitsLoop s (value >>> 1) (n - 1))
    else (value, n, s)
  (value >>> n, { s with buffer := s.buffer &&& (1#(wsize T) <<< s.bits - 1#(wsize T)) })

def streamRtell (s : Bitstream T) : ℕ := s.ptr * wsize T - s.bits

def streamWtell (s : Bitstream T) : ℕ := s.ptr * wsize T + s.bits

def streamRewind (s : Bitstream T) : Bitstream T := { s with ptr := 0, buffer := 0, bits := 0 }

def streamRseek (s : Bitstream T) (offset : ℕ) : Bitstream T :=
  let n := offset % wsize T
  let s := { s with ptr := offset / wsize T }
  if n ≠ 0 then
    let (w, s) := streamReadWord s
    { s with buffer := w >>> n, bits := wsize T - n }
  else { s with buffer := 0, bits := 0 }

def streamWseek (s : Bitstream T) (offset : ℕ) : Bitstream T :=
  let n := offset % wsize T
  let s := { s with ptr := offset / wsize T }
  if n ≠ 0 then
    { s with buffer := s.mem s.ptr &&& (1#(wsize T) <<< n - 1#(wsize T)), bits := n }
  else { s with buffer := 0, bits := 0 }

def streamSkip (s : Bitstream T) (n : ℕ) : Bitstream T := streamRseek s (streamRtell s + n)

/-- The loop of `streamPad`, on the number of bits that the buffer would hold. -/
def padLoop (s : Bitstream T) (bits : ℕ) : Bitstream T :=
  if wsize T ≤ bits then padLoop { streamWriteWord s s.buffer with buffer := 0 } (bits - wsize T)
  else { s with bits := bits }
termination_by bits
decreasing_by
  have := wsize_pos T
  omega

def streamPad (s : Bitstream T) (n : ℕ) : Bitstream T := padLoop s (s.bits + n)

def streamAlign (s : Bitstream T) : ℕ × Bitstream T :=
  (s.bits, if s.bits ≠ 0 then streamSkip s s.bits else s)

def streamFlush (s : Bitstream T) : ℕ × Bitstream T :=
  let bits := (wsize T - s.bits) % wsize T
  (bits, if bits ≠ 0 then streamPad s bits else s)

/-- Copy `n` bits from one stream to another; both streams are returned, destination first. -/
def streamCopy (dst src : Bitstream T) (n : ℕ) : Bitstream T × Bitstream T :=
  if wsize T < n then
    let (w, src) := streamReadBits src (wsize T)
    let (_, dst) := streamWriteBits dst ((w.setWidth (wsize T)).setWidth 64) (wsize T)
    streamCopy dst src (n - wsize T)
  else if n ≠ 0 then
    let (w, src) := streamReadBits src n
    let (_, dst) := streamWriteBits dst ((w.setWidth (wsize T)).setWidth 64) n
    (dst, src)
  else (dst, src)
termination_by n
decreasing_by
  have := wsize_pos T
  omega

def streamOpen (mem : ℕ → BitVec (wsize T)) : Bitstream T := streamRewind ⟨0, 0, 0, mem⟩

end Zfp

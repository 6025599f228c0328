import Zfp.Bitstream
import Zfp.Sizes
import Mathlib.Algebra.Order.Ring.Int

/-!
# The strided bit stream

A direct embedding of `bitstream.inl` as built with `BIT_STREAM_STRIDED`. Words are addressed
relative to the beginning of the stream and no end is enforced; the delta that
`stream_set_stride` forms is the 64-bit product of the source.
-/

namespace Zfp.Strided

variable {T : WordType}

@[ext] structure Bitstream (T : WordType) where
  /-- number of buffered bits -/
  bits : ℕ
  /-- incoming or outgoing bits -/
  buffer : BitVec (wsize T)
  /-- the next word to be read or written, relative to the beginning of the stream -/
  ptr : ℤ
  /-- the words around the beginning of the stream -/
  mem : ℤ → BitVec (wsize T)
  /-- one less the block size in number of words -/
  mask : ℕ
  /-- number of words between consecutive blocks -/
  delta : ℤ

/-- The word after the current one, which is `delta` words on when the block is exhausted. -/
def nextPtr (s : Bitstream T) : ℤ :=
  let ptr := s.ptr + 1
  if (ptr % 2 ^ 64).toNat &&& s.mask = 0 then ptr + s.delta else ptr

def streamReadWord (s : Bitstream T) : BitVec (wsize T) × Bitstream T :=
  (s.mem s.ptr, { s with ptr := nextPtr s })

def streamWriteWord (s : Bitstream T) (value : BitVec (wsize T)) : Bitstream T :=
  { s with mem := Function.update s.mem s.ptr value, ptr := nextPtr s }

def streamReadBit (s : Bitstream T) : Bool × Bitstream T :=
  let s := if s.bits = 0 then
      let (w, s) := streamReadWord s
      { s with buffer := w, bits := wsize T }
    else s
  (s.buffer.getLsbD 0, { s with bits := s.bits - 1, buffer := s.buffer >>> 1 })

def streamWriteBit (s : Bitstream T) (bit : Bool) : Bitstream T :=
  let s := { s with
    buffer := s.buffer + (BitVec.ofBool bit).setWidth (wsize T) <<< s.bits
    bits := s.bits + 1 }
  if s.bits = wsize T then { streamWriteWord s s.buffer with buffer := 0, bits := 0 } else s

def readBitsLoop (s : Bitstream T) (value : BitVec 64) (n : ℕ) : BitVec 64 × Bitstream T :=
  let r := streamReadWord s
  let value := value + r.1.setWidth 64 <<< s.bits
  let s' := { r.2 with buffer := r.1, bits := s.bits + wsize T }
  if wsize T < 64 ∧ s'.bits < n then readBitsLoop s' value n else (value, s')
termination_by n - s.bits
decreasing_by
  have := wsize_pos T
  have : s'.bits = s.bits + wsize T := rfl
  omega

def streamReadBits (s : Bitstream T) (n : ℕ) : BitVec 64 × Bitstream T :=
  let value := s.buffer.setWidth 64
  if s.bits < n then
    let (value, s) := readBitsLoop s value n
    let s := { s with bits := s.bits - n }
    if s.bits = 0 then (value, { s with buffer := 0 })
    else (value &&& (2#64 <<< (n - 1) - 1#64),
      { s with buffer := s.buffer >>> (wsize T - s.bits) })
  else
    (value &&& (1#64 <<< n - 1#64), { s with bits := s.bits - n, buffer := s.buffer >>> n })

def writeBitsLoop (s : Bitstream T) (value : BitVec 64) (n : ℕ) : Bitstream T :=
  let bits := s.bits - wsize T
  let s' := { streamWriteWord s s.buffer with
    buffer := (value >>> (n - bits)).setWidth (wsize T)
    bits := bits }
  if wsize T < 64 ∧ wsize T ≤ s'.bits then writeBitsLoop s' value n else s'
termination_by s.bits
decreasing_by
  have := wsize_pos T
  have : s'.bits = s.bits - wsize T := rfl
  omega

def streamWriteBits (s : Bitstream T) (value : BitVec 64) (n : ℕ) : BitVec 64 × Bitstream T :=
  let s := { s with
    buffer := s.buffer + (value <<< s.bits).setWidth (wsize T)
    bits := s.bits + n }
  let (value, n, s) :=
    if wsize T ≤ s.bits then (value >>> 1, n - 1, writeBitsLoop s (value >>> 1) (n - 1))
    else (value, n, s)
  (value >>> n, { s with buffer := s.buffer &&& (1#(wsize T) <<< s.bits - 1#(wsize T)) })

/-- The bit offset that the position stands for; the gaps between the blocks count as well. -/
def streamRtell (s : Bitstream T) : ℤ := s.ptr * wsize T - s.bits

def streamRewind (s : Bitstream T) : Bitstream T := { s with ptr := 0, buffer := 0, bits := 0 }

def streamRseek (s : Bitstream T) (offset : ℤ) : Bitstream T :=
  let n := (offset % wsize T).toNat
  let s := { s with ptr := offset / wsize T }
  if n ≠ 0 then
    let (w, s) := streamReadWord s
    { s with buffer := w >>> n, bits := wsize T - n }
  else { s with buffer := 0, bits := 0 }

def streamSkip (s : Bitstream T) (n : ℕ) : Bitstream T := streamRseek s (streamRtell s + n)

def padLoop (s : Bitstream T) (bits : ℕ) : Bitstream T :=
  if wsize T ≤ bits then padLoop { streamWriteWord s s.buffer with buffer := 0 } (bits - wsize T)
  else { s with bits := bits }
termination_by bits
decreasing_by
  have := wsize_pos T
  omega

def streamPad (s : Bitstream T) (n : ℕ) : Bitstream T := padLoop s (s.bits + n)

def streamFlush (s : Bitstream T) : ℕ × Bitstream T :=
  let bits := (wsize T - s.bits) % wsize T
  (bits, if bits ≠ 0 then streamPad s bits else s)

/-- The delta in words that a stride stands for. -/
def strideDelta (block : ℕ) (delta : ℤ) : ℤ := ptrdiffT (delta * block)

/-- Set the block size in words and the spacing in blocks; a block is a power of two. -/
def streamSetStride (s : Bitstream T) (block : ℕ) (delta : ℤ) : Bool × Bitstream T :=
  if block &&& sizeSub block 1 ≠ 0 then (false, s)
  else (true, { s with mask := sizeSub block 1, delta := strideDelta block delta })

end Zfp.Strided

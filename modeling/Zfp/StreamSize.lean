import Zfp.BlockLockstep
import Zfp.Field

/-!
# The size of a compressed field

The number of bytes that callers allocate for a compressed field: the bits of the longest header
and of the longest block of every kind, rounded up to whole words. Sizes are 64-bit numbers.
-/

namespace Zfp

def ZFP_HEADER_MAX_BITS : ℕ := 148

def blocksAlong (n : ℕ) : ℕ := (n + 3) % 2 ^ 64 / 4

def zfpFieldBlocks (field : Field) : ℕ :=
  let bx := blocksAlong field.nx
  let by' := blocksAlong field.ny
  let bz := blocksAlong field.nz
  let bw := blocksAlong field.nw
  match zfpFieldDimensionality field with
  | 1 => bx
  | 2 => bx * by' % 2 ^ 64
  | 3 => bx * by' * bz % 2 ^ 64
  | 4 => bx * by' * bz * bw % 2 ^ 64
  | _ => 0

def zfpFieldPrecision (field : Field) : ℕ := 8 * zfpTypeSize field.type

/-- smallest multiple of unit greater than or equal to size -/
def roundUp (size unit : ℕ) : ℕ :=
  let size := (size + unit - 1) % 2 ^ 64
  size - size % unit

/-- The bits before the coefficients of a block. -/
def typeBits (type : Scalar) (reversible : Bool) : ℕ :=
  match type with
  | .int32 => if reversible then 5 else 0
  | .int64 => if reversible then 6 else 0
  | .float => if reversible then 1 + 1 + 8 + 5 else 1 + 8
  | .double => if reversible then 1 + 1 + 11 + 6 else 1 + 11

def zfpStreamMaximumSize (T : WordType) (zfp : Params) (field : Field) : ℕ :=
  let reversible := REVERSIBLE zfp
  let dims := zfpFieldDimensionality field
  let blocks := zfpFieldBlocks field
  let values := 1 <<< (2 * dims)
  if dims = 0 then 0
  else
    match field.type with
    | none => 0
    | some type =>
      let maxbits := typeBits type reversible + (values - 1 +
        values * min zfp.maxprec (zfpFieldPrecision field))
      let maxbits := max (min maxbits zfp.maxbits) zfp.minbits
      -- compute number of bytes in multiples of words
      let maxsize := (ZFP_HEADER_MAX_BITS + blocks * maxbits) % 2 ^ 64
      roundUp maxsize (wsize T) / 8

theorem typeBits_eq_sideBits (S : Scalar) (reversible : Bool) :
    typeBits S reversible = sideBits S reversible := by
  cases S <;> cases reversible <;> rfl

end Zfp

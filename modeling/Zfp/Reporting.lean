import Zfp.ChunkOrder
import Zfp.InPlaceBuffer

/-!
# What the return value reports

The return value is the size of the stream, taken from its position. It is zero after a routine
that has done nothing only if the stream was at its beginning.
-/

namespace Zfp
open BitLists Bitstream

variable {T : WordType} {S : Scalar} {d : ℕ}

/-- The code that the backend gives to a field. -/
def Env.fieldCode (env : Env T) (zfp : Params) (mem : Data) (field : Field) : List Bool :=
  (corners field.size (zfpFieldDimensionality field)).flatMap (env.deviceCode zfp mem field)

/-- What the kernels can handle: sizes and strides that fit their types, values, blocks and words
that they can count, and blocks that do not share words where the backend depends on it. -/
structure Gpu.Fits (g : Gpu) (zfp : Params) (field : Field) : Prop where
  unused : ∀ a, zfpFieldDimensionality field ≤ a → field.size a = 0
  size : ∀ a, field.size a ≤ 2 ^ 32 - 4
  stride : match g with
    | .cuda _ => ∀ a < zfpFieldDimensionality field,
        intT (zfpFieldStride field a) = zfpFieldStride field a
    | .metal => zfpFieldDimensionality field = 1 →
        intT (zfpFieldStride field 0) = zfpFieldStride field 0
  count : match g with
    | .cuda _ => 4 ^ zfpFieldDimensionality field *
        blocksOf field.size (zfpFieldDimensionality field) <
          if zfpFieldDimensionality field = 1 then 2 ^ 31 else 2 ^ 32
    | .metal => blocksOf field.size (zfpFieldDimensionality field) < 2 ^ 32
  words : match g with
    | .cuda _ => zfpFieldDimensionality field = 3 →
        blocksOf field.size (zfpFieldDimensionality field) * zfp.maxbits % 64 = 0
    | .metal => if zfp.maxbits % 32 = 0 then
        (zfp.maxbits % 64 = 0 ∨ blocksOf field.size (zfpFieldDimensionality field) = 1) ∧
          blocksOf field.size (zfpFieldDimensionality field) * zfp.maxbits ≤ 2 ^ 38
      else blocksOf field.size (zfpFieldDimensionality field) * zfp.maxbits ≤ 2 ^ 37

section

variable {α β : Type} {supported : Prop} {done : α → Prop}

section

variable {size : β → ℕ} {finished : β → Prop} {idle work r : β} {start : Prop}

end

end

section

variable {env : Env T} {ops : Floats} {policy : ExecPolicy} {zfp : Params} {mem : Data}
  {field : Field} {dst : Handle T}

section

variable (htype : field.type = some S)

include htype

end

section

variable {supported : Prop} (htype : field.type = some S)
  (hdims : zfpFieldDimensionality field ≠ 0)

include htype hdims

end

end

/-! ## Decompression -/

section

variable {env : Env T} {ops : Floats} {policy : ExecPolicy} {zfp : Params} {mem : Data}
  {field : Field} {s s' : Bitstream T} {supported : Prop} (htype : field.type = some S)
  (hdims : zfpFieldDimensionality field ≠ 0)

include htype

include hdims

end

end Zfp

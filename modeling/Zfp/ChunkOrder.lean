import Zfp.ExecutedBlocks
import Zfp.Interleaving
import Zfp.MaximumSize

/-!
# Chunks in any order

The chunks write to streams of their own, so the order in which the threads take their blocks does
not matter. Concatenating the streams gives the bits of the serial routine.
-/

namespace Zfp
open BitLists Bitstream Interleaving

variable {T : WordType} {S : Scalar} {d : ℕ}

/-! ## Copying -/

section

variable (ops : FloatOps S (4 ^ d)) (zfp : Params) (block : ℕ → ℕ → BitVec S.width)

end

/-! ## The serial routine -/

end Zfp

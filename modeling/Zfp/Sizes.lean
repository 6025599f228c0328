import Mathlib.Algebra.Order.Ring.Int

/-!
# The types `size_t` and `ptrdiff_t`

Sizes are natural numbers and strides integers; the arithmetic of the source is that of 64 bits.
-/

namespace Zfp

def sizeT (x : ℕ) : ℕ := x % 2 ^ 64

def ptrdiffT (x : ℤ) : ℤ := x.bmod (2 ^ 64)

/-- `x - y` for values of type `size_t`. -/
def sizeSub (x y : ℕ) : ℕ := sizeT (x + (2 ^ 64 - y))

theorem sizeT_of_lt {x : ℕ} (h : x < 2 ^ 64) : sizeT x = x := Nat.mod_eq_of_lt h

theorem sizeT_sizeT_add (x y : ℕ) : sizeT (sizeT x + y) = sizeT (x + y) := Nat.mod_add_mod _ _ _

theorem sizeT_add_mul (x y z : ℕ) : sizeT (x + y * sizeT z) = sizeT (x + y * z) := by
  rw [sizeT, sizeT, sizeT, Nat.add_mod, Nat.mul_mod, Nat.mod_mod, ← Nat.mul_mod, ← Nat.add_mod]

theorem sizeSub_of_le {x y : ℕ} (h : y ≤ x) (hx : x < 2 ^ 64) : sizeSub x y = x - y := by
  rw [sizeSub, sizeT]
  omega

def FitsPtrdiff (x : ℤ) : Prop := -2 ^ 63 ≤ x ∧ x < 2 ^ 63

instance (x : ℤ) : Decidable (FitsPtrdiff x) := inferInstanceAs (Decidable (_ ∧ _))

theorem ptrdiffT_of_fits {x : ℤ} (h : FitsPtrdiff x) : ptrdiffT x = x :=
  Int.bmod_eq_of_le (by have := h.1; omega) (by have := h.2; omega)

end Zfp

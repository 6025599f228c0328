import Mathlib.Data.BitVec
import Mathlib.Data.List.GetD
import Mathlib.Tactic.Abel
import Zfp.Lines
import Zfp.Permutation

/-!
# Decorrelating transforms and coefficient order

The lifting steps are written once for any arithmetic with a halving map: words use the
arithmetic right shift of the source, integers use the division that rounds down. The
reversible transform and the reordering into negabinary words are inverted exactly.
-/

namespace Zfp
open Lines

variable {w : ℕ} {α : Type*}

/-! ## Traits -/

/-- The scalar types; a floating-point type is coded with the integers of its width. -/
inductive Scalar | int32 | int64 | float | double
  deriving DecidableEq, Repr

def Scalar.width : Scalar → ℕ
  | .int32 => 32 | .int64 => 64 | .float => 32 | .double => 64

def PBITS : Scalar → ℕ
  | .int32 => 5 | .int64 => 6 | .float => 5 | .double => 6

def EBITS : Scalar → ℕ
  | .float => 8 | .double => 11 | _ => 0

def EBIAS (S : Scalar) : ℕ := 2 ^ (EBITS S - 1) - 1

def NBMASK : (S : Scalar) → BitVec S.width
  | .int32 => 0xaaaaaaaa#32 | .int64 => 0xaaaaaaaaaaaaaaaa#64
  | .float => 0xaaaaaaaa#32 | .double => 0xaaaaaaaaaaaaaaaa#64

def TCMASK : (S : Scalar) → BitVec S.width
  | .int32 => 0x7fffffff#32 | .int64 => 0x7fffffffffffffff#64
  | .float => 0x7fffffff#32 | .double => 0x7fffffffffffffff#64

theorem Scalar.width_eq (S : Scalar) : S.width = 32 ∨ S.width = 64 := by
  cases S <;> decide

theorem two_pow_PBITS (S : Scalar) : 2 ^ PBITS S = S.width := by
  cases S <;> rfl

/-! ## Lifting -/

/-- `x >> 1` for signed words. -/
def halfWord (x : BitVec w) : BitVec w := x.sshiftRight 1

/-- `x >> 1` for integers. -/
def halfInt (x : ℤ) : ℤ := x >>> (1 : ℕ)

def fwdLift [Add α] [Sub α] (half : α → α) (v : Vec4 α) : Vec4 α :=
  let ⟨x, y, z, w⟩ := v
  let x := x + w; let x := half x; let w := w - x
  let z := z + y; let z := half z; let y := y - z
  let x := x + z; let x := half x; let z := z - x
  let w := w + y; let w := half w; let y := y - w
  let w := w + half y; let y := y - half w
  ⟨x, y, z, w⟩

def invLift [Add α] [Sub α] (half : α → α) (v : Vec4 α) : Vec4 α :=
  let ⟨x, y, z, w⟩ := v
  let y := y + half w; let w := w - half y
  let y := y + w; let w := w - (y - w)
  let z := z + x; let x := x - (z - x)
  let y := y + z; let z := z - (y - z)
  let w := w + x; let x := x - (w - x)
  ⟨x, y, z, w⟩

def revFwdLift [Sub α] (v : Vec4 α) : Vec4 α :=
  let ⟨x, y, z, w⟩ := v
  let w := w - z; let z := z - y; let y := y - x
  let w := w - z; let z := z - y
  let w := w - z
  ⟨x, y, z, w⟩

def revInvLift [Add α] (v : Vec4 α) : Vec4 α :=
  let ⟨x, y, z, w⟩ := v
  let w := w + z
  let z := z + y; let w := w + z
  let y := y + x; let z := z + y; let w := w + z
  ⟨x, y, z, w⟩

theorem revInvLift_revFwdLift [AddGroup α] (v : Vec4 α) : revInvLift (revFwdLift v) = v := by
  simp only [revFwdLift, revInvLift, sub_add_cancel]

/-! ## Transforms of a block -/

/-- The offsets of nested loops over `0, …, 3`, given the strides from the outermost on. -/
def nest : List ℕ → List ℕ
  | [] => [0]
  | s :: l => (List.range 4).flatMap fun i => (nest l).map (i * s + ·)

/-- The passes in `d` dimensions, along x, along y, and so on: the strides of the loops
over the lines, and the stride of a line. -/
def xformLoops : ℕ → List (List ℕ × ℕ)
  | 1 => [([], 1)]
  | 2 => [([4], 1), ([1], 4)]
  | 3 => [([16, 4], 1), ([1, 16], 4), ([4, 1], 16)]
  | 4 => [([64, 16, 4], 1), ([1, 64, 16], 4), ([4, 1, 64], 16), ([16, 4, 1], 64)]
  | _ => []

def xformPasses (d : ℕ) : List (List ℕ × ℕ) := (xformLoops d).map fun q => (nest q.1, q.2)

def fwdXform [Add α] [Sub α] (half : α → α) (d : ℕ) (p : ℕ → α) : ℕ → α :=
  passes (fwdLift half) (xformPasses d) p

/-- inverse decorrelating transform; its passes run from the last dimension to the first -/
def invXform [Add α] [Sub α] (half : α → α) (d : ℕ) (p : ℕ → α) : ℕ → α :=
  passes (invLift half) (xformPasses d).reverse p

def revFwdXform [Sub α] (d : ℕ) (p : ℕ → α) : ℕ → α := passes revFwdLift (xformPasses d) p

def revInvXform [Add α] (d : ℕ) (p : ℕ → α) : ℕ → α :=
  passes revInvLift (xformPasses d).reverse p

/-- The order of nested loops does not change the offsets. -/
theorem nest_perm {l l' : List ℕ} (h : l.Perm l') : (nest l).Perm (nest l') := by
  induction h with
  | nil => exact List.Perm.refl _
  | cons s _ ih => exact List.Perm.flatMap_left _ fun i _ => ih.map _
  | swap s s' l =>
    rw [List.perm_iff_count]
    intro a
    have hcomm : ∀ i j, (fun o => i * s' + (j * s + o)) = fun o => j * s + (i * s' + o) := by
      intro i j
      funext o
      omega
    simp only [nest, List.range_succ, List.range_zero, List.nil_append, List.cons_append,
      List.flatMap_cons, List.flatMap_nil, List.append_nil, List.map_append, List.map_map,
      Function.comp_def, List.count_append, hcomm]
    omega
  | trans _ _ ih ih' => exact ih.trans ih'

/-- The positions of the lines of nested loops are those of one more loop. -/
theorem flatMap_line (s : ℕ) (l : List ℕ) : (nest l).flatMap (line s) = nest (l ++ [s]) := by
  induction l with
  | nil => simp [nest, line, List.range_succ]
  | cons t l ih =>
    have hline : ∀ i o, line s (i * t + o) = (line s o).map (i * t + ·) := by
      intro i o
      simp [line, Nat.add_assoc]
    rw [nest, List.cons_append, nest, ← ih, List.flatMap_assoc]
    simp only [List.flatMap_map, hline, List.map_flatMap]

/-- The lines of each pass partition the block. -/
theorem xformPasses_spec {d : ℕ} (hd : 1 ≤ d) (hd' : d ≤ 4) : ∀ q ∈ xformPasses d,
    0 < q.2 ∧ Disjoint q.1 q.2 ∧ ∀ j, j ∈ q.1.flatMap (line q.2) ↔ j < 4 ^ d := by
  have hloops : ∀ d ≤ 4, 1 ≤ d → ∀ q ∈ xformLoops d,
      0 < q.2 ∧ (q.1 ++ [q.2]).Perm ((List.range d).map (4 ^ ·)).reverse := by decide
  have hblock : ∀ d ≤ 4, nest ((List.range d).map (4 ^ ·)).reverse = List.range (4 ^ d) := by
    decide +kernel
  intro q hq
  obtain ⟨r, hr, rfl⟩ := List.mem_map.mp hq
  obtain ⟨hs, hp⟩ := hloops d hd' hd r hr
  have hall : ((nest r.1).flatMap (line r.2)).Perm (List.range (4 ^ d)) := by
    rw [flatMap_line, ← hblock d hd']
    exact nest_perm hp
  exact ⟨hs, hall.nodup_iff.mpr List.nodup_range, fun j => hall.mem_iff.trans List.mem_range⟩

theorem xformPasses_lines {d : ℕ} (hd : 1 ≤ d) (hd' : d ≤ 4) :
    ∀ q ∈ xformPasses d, ∀ a ∈ q.1, ∀ j ∈ line q.2 a, j < 4 ^ d := fun q hq a ha j hj =>
  ((xformPasses_spec hd hd' q hq).2.2 j).mp (List.mem_flatMap.mpr ⟨a, ha, hj⟩)

theorem revInvXform_revFwdXform [AddGroup α] {d : ℕ} (hd : 1 ≤ d) (hd' : d ≤ 4) (p : ℕ → α) :
    revInvXform d (revFwdXform d p) = p :=
  passes_inverse revInvLift_revFwdLift
    (fun q hq => ⟨(xformPasses_spec hd hd' q hq).1, (xformPasses_spec hd hd' q hq).2.1⟩) p

/-- Passes over the lines of a block do not depend on what lies outside. -/
theorem passes_block_congr (f : Vec4 α → Vec4 α) {d : ℕ} (hd : 1 ≤ d) (hd' : d ≤ 4) {p q : ℕ → α}
    (h : ∀ j < 4 ^ d, p j = q j) :
    ∀ j < 4 ^ d, passes f (xformPasses d).reverse p j = passes f (xformPasses d).reverse q j := by
  exact passes_congr f (fun q hq => xformPasses_lines hd hd' q (List.mem_reverse.mp hq)) h

theorem revInvXform_congr [Add α] {d : ℕ} (hd : 1 ≤ d) (hd' : d ≤ 4) {p q : ℕ → α}
    (h : ∀ j < 4 ^ d, p j = q j) : ∀ j < 4 ^ d, revInvXform d p j = revInvXform d q j :=
  passes_block_congr revInvLift hd hd' h

theorem invXform_congr [Add α] [Sub α] (half : α → α) {d : ℕ} (hd : 1 ≤ d) (hd' : d ≤ 4)
    {p q : ℕ → α} (h : ∀ j < 4 ^ d, p j = q j) :
    ∀ j < 4 ^ d, invXform half d p j = invXform half d q j :=
  passes_block_congr (invLift half) hd hd' h

/-! ## Coefficient order -/

/-- map two's complement signed integer to negabinary unsigned integer -/
def int2uint (nbmask x : BitVec w) : BitVec w := (x + nbmask) ^^^ nbmask

/-- map negabinary unsigned integer to two's complement signed integer -/
def uint2int (nbmask x : BitVec w) : BitVec w := (x ^^^ nbmask) - nbmask

def fwdOrder (nbmask : BitVec w) (iblock : ℕ → BitVec w) (perm : List ℕ) (n : ℕ) (i : ℕ) :
    BitVec w :=
  if i < n then int2uint nbmask (iblock (perm.getD i 0)) else 0

def invOrder (nbmask : BitVec w) (ublock iblock : ℕ → BitVec w) (perm : List ℕ) (n : ℕ) :
    ℕ → BitVec w :=
  (List.range n).foldl
    (fun iblock i => Function.update iblock (perm.getD i 0) (uint2int nbmask (ublock i))) iblock

theorem uint2int_int2uint (nbmask x : BitVec w) : uint2int nbmask (int2uint nbmask x) = x := by
  rw [uint2int, int2uint, BitVec.xor_assoc, BitVec.xor_self, BitVec.xor_zero, BitVec.add_sub_cancel]

theorem invOrder_perm (nbmask : BitVec w) (ublock iblock : ℕ → BitVec w) {perm : List ℕ}
    (hp : perm.Nodup) {n i : ℕ} (hn : n ≤ perm.length) (hi : i < n) :
    invOrder nbmask ublock iblock perm n (perm.getD i 0) = uint2int nbmask (ublock i) := by
  induction n with
  | zero => exact absurd hi (Nat.not_lt_zero i)
  | succ n ih =>
    rw [invOrder, List.range_succ, List.foldl_append]
    change Function.update (invOrder nbmask ublock iblock perm n) (perm.getD n 0) _ _ = _
    by_cases hin : i = n
    · rw [hin, Function.update_self]
    · have hne : perm.getD i 0 ≠ perm.getD n 0 := by
        rw [List.getD_eq_getElem _ _ (by omega), List.getD_eq_getElem _ _ (by omega)]
        exact fun h => hin (hp.getElem_inj_iff.mp h)
      rw [Function.update_of_ne hne]
      exact ih (by omega) (by omega)

/-- Every element of a block is stored by the reordering. -/
theorem invOrder_apply (nbmask : BitVec w) (ublock iblock : ℕ → BitVec w) {d : ℕ} (hd : 1 ≤ d)
    (hd' : d ≤ 4) {j : ℕ} (hj : j < 4 ^ d) :
    ∃ i < 4 ^ d, j = (perm d).getD i 0 ∧
      invOrder nbmask ublock iblock (perm d) (4 ^ d) j = uint2int nbmask (ublock i) := by
  have hp := perm_perm hd hd'
  have hlen : (perm d).length = 4 ^ d := by rw [hp.length_eq, List.length_range]
  obtain ⟨i, hi, rfl⟩ := List.mem_iff_getElem.mp (hp.mem_iff.mpr (List.mem_range.mpr hj))
  have hget : (perm d)[i] = (perm d).getD i 0 := (List.getD_eq_getElem _ _ hi).symm
  refine ⟨i, hlen ▸ hi, hget, ?_⟩
  rw [hget]
  exact invOrder_perm nbmask ublock iblock (hp.nodup_iff.mpr List.nodup_range) hlen.ge (hlen ▸ hi)

/-- The reordering depends on the words of the block only. -/
theorem invOrder_congr (nbmask : BitVec w) {u u' : ℕ → BitVec w} (iblock iblock' : ℕ → BitVec w)
    {d : ℕ} (hd : 1 ≤ d) (hd' : d ≤ 4) (h : ∀ i < 4 ^ d, u i = u' i) : ∀ j < 4 ^ d,
    invOrder nbmask u iblock (perm d) (4 ^ d) j = invOrder nbmask u' iblock' (perm d) (4 ^ d) j := by
  intro j hj
  have hp := perm_perm hd hd'
  have hlen : (perm d).length = 4 ^ d := by rw [hp.length_eq, List.length_range]
  obtain ⟨i, hi, rfl, hinv⟩ := invOrder_apply nbmask u iblock hd hd' hj
  rw [hinv, invOrder_perm nbmask u' iblock' (hp.nodup_iff.mpr List.nodup_range) hlen.ge hi, h i hi]

/-- The reordering of words that agree with the ordered coefficients of a block. -/
theorem invOrder_fwdOrder (nbmask : BitVec w) (ublock iblock p : ℕ → BitVec w) {d : ℕ}
    (hd : 1 ≤ d) (hd' : d ≤ 4)
    (h : ∀ i < 4 ^ d, ublock i = fwdOrder nbmask p (perm d) (4 ^ d) i) :
    ∀ j < 4 ^ d, invOrder nbmask ublock iblock (perm d) (4 ^ d) j = p j := by
  intro j hj
  obtain ⟨i, hi, hji, hinv⟩ := invOrder_apply nbmask ublock iblock hd hd' hj
  rw [hinv, h i hi, fwdOrder, if_pos hi, uint2int_int2uint, hji]

end Zfp

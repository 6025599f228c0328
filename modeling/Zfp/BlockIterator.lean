import Mathlib.Data.Int.Order.Basic
import Mathlib.Order.Lattice
import Zfp.Sizes
import Zfp.Tiling

/-!
# Iterators over blocks

Iterators visit an array or a view block by block. The first and the last blocks of a view may be
clipped on either side. The offset of an iterator counts the elements of whole layers, rows and
blocks before it; the index of an offset divides by the same products.
-/

namespace Zfp
open MixedRadix

structure Limits where
  min : ℕ → ℕ
  max : ℕ → ℕ

namespace Limits

variable (v : Limits)

/-- `x & m` for `m = ~size_t(3)` -/
def mask (x : ℕ) : ℕ := x / 4 * 4

def n (a : ℕ) : ℕ := sizeSub (v.max a) (v.min a)

/-- `bx = std::max(x & m, xmin)` -/
def blockStart (a x : ℕ) : ℕ := Max.max (mask x) (v.min a)

/-- `sx = std::min((bx + 4) & m, xmax) - bx` -/
def blockSize (a b : ℕ) : ℕ := sizeSub (Min.min (mask (sizeT (b + 4))) (v.max a)) b

def blockOffset (c : ℕ → ℕ) : ℕ → ℕ → ℕ
  | 0, _ => 0
  | a + 1, s =>
    let b := v.blockStart a (c a)
    (b - v.min a) * (total v.n a * s) + blockOffset c a (s * v.blockSize a b)

def elementOffset (d : ℕ) (c : ℕ → ℕ) : ℕ :=
  rank (fun a => v.blockSize a (v.blockStart a (c a)))
    (fun a => sizeSub (c a) (v.blockStart a (c a))) d

/-- sequential offset associated with index plus delta; sums and products wrap alike -/
def offset (d : ℕ) (c : ℕ → ℕ) (delta : ℤ) : ℤ :=
  if c (d - 1) = v.max (d - 1) then ptrdiffT (delta + total v.n d)
  else ptrdiffT (delta + (v.blockOffset c d 1 + v.elementOffset d c : ℕ))

/-- A value of type `ptrdiff_t` as one of type `size_t`. -/
def toSize (p : ℤ) : ℕ := (p % 2 ^ 64).toNat

/-- The first indices of the block with an offset, and the offset in the block. -/
def indexBlocks : ℕ → ℕ → ℤ → (ℕ → ℕ) × ℤ
  | 0, _, p => (fun _ => 0, p)
  | a + 1, s, p =>
    let b := v.blockStart a (sizeT (v.min a + toSize (p.tdiv (ptrdiffT (total v.n a * s : ℕ)))))
    let r := indexBlocks a (s * v.blockSize a b)
      (ptrdiffT (p - ((b - v.min a) * (total v.n a * s) : ℕ)))
    (Function.update r.1 a b, r.2)

/-- The index of an offset in a block. -/
def indexElements (b : ℕ → ℕ) : ℕ → ℤ → ℕ → ℕ
  | 0, _ => fun _ => 0
  | a + 1, p =>
    let s := total (fun a => v.blockSize a (b a)) a
    let q := toSize (p.tdiv (ptrdiffT s))
    Function.update (indexElements b a (ptrdiffT (p - (q * s : ℕ)))) a (sizeT (b a + q))

def last (d a : ℕ) : ℕ := if a + 1 = d then v.max a else v.min a

def index (d : ℕ) (p : ℤ) : ℕ → ℕ :=
  if toSize p = sizeT (total v.n d) then v.last d
  else
    let r := v.indexBlocks d 1 p
    v.indexElements r.1 d r.2

/-- done with block; advance to next, in dimension `a` with `k` more -/
def nextBlock : ℕ → ℕ → (ℕ → ℕ) → ℕ → ℕ
  | 0, a, c =>
    let x := mask (sizeT (c a + 4))
    Function.update c a (if x ≥ v.max a then v.max a else x)
  | k + 1, a, c =>
    let x := mask (sizeT (c a + 4))
    if x ≥ v.max a then nextBlock k (a + 1) (Function.update c a (v.min a))
    else Function.update c a x

/-- The nested conditions of `increment` from dimension `a` on. -/
def incrementFrom (d : ℕ) : ℕ → ℕ → (ℕ → ℕ) → ℕ → ℕ
  | 0, a, c =>
    let x := sizeT (c a + 1)
    if x % 4 = 0 ∨ x = v.max a then
      v.nextBlock (d - 1) 0 (Function.update c a (v.blockStart a (sizeSub x 1)))
    else Function.update c a x
  | k + 1, a, c =>
    let x := sizeT (c a + 1)
    if x % 4 = 0 ∨ x = v.max a then
      incrementFrom d k (a + 1) (Function.update c a (v.blockStart a (sizeSub x 1)))
    else Function.update c a x

def increment (d : ℕ) (c : ℕ → ℕ) : ℕ → ℕ := v.incrementFrom d (d - 1) 0 c

/-- done with block; advance to the one before -/
def prevBlock : ℕ → ℕ → (ℕ → ℕ) → ℕ → ℕ
  | 0, a, c =>
    let x := mask (sizeSub (c a) 1)
    Function.update c a (if x ≤ v.min a then v.min a else x)
  | k + 1, a, c =>
    let x := mask (sizeSub (c a) 1)
    if x ≤ v.min a then prevBlock k (a + 1) (Function.update c a (v.max a))
    else Function.update c a x

/-- The nested conditions of `decrement` from dimension `a` on. -/
def decrementFrom (d : ℕ) : ℕ → ℕ → (ℕ → ℕ) → ℕ → ℕ
  | 0, a, c =>
    let r := if c a % 4 = 0 ∨ c a = v.min a then
        v.prevBlock (d - 1) 0 (Function.update c a (Min.min (mask (sizeT (c a + 4))) (v.max a)))
      else c
    Function.update r a (sizeSub (r a) 1)
  | k + 1, a, c =>
    let r := if c a % 4 = 0 ∨ c a = v.min a then
        decrementFrom d k (a + 1)
          (Function.update c a (Min.min (mask (sizeT (c a + 4))) (v.max a)))
      else c
    Function.update r a (sizeSub (r a) 1)

def decrement (d : ℕ) (c : ℕ → ℕ) : ℕ → ℕ :=
  if c (d - 1) = v.max (d - 1) then fun a => sizeSub (v.max a) 1
  else v.decrementFrom d (d - 1) 0 c

def tiling : Tiling where
  min := v.min
  max := v.max
  lo a x := Max.max (mask x) (v.min a)
  hi a x := Min.min (mask x + 4) (v.max a)
  mem {a x} hmin hmax := by
    simp only [mask]
    omega
  same {a x y} hmin hmax hlo hhi := by
    simp only [mask] at *
    omega

@[simp] theorem tiling_min (a : ℕ) : v.tiling.min a = v.min a := rfl

@[simp] theorem tiling_max (a : ℕ) : v.tiling.max a = v.max a := rfl

@[simp] theorem tiling_lo (a x : ℕ) : v.tiling.lo a x = v.blockStart a x := rfl

/-- A box whose block indices do not wrap. -/
def Proper (d : ℕ) : Prop := ∀ a < d, v.min a < v.max a ∧ v.max a ≤ 2 ^ 64 - 4

/-! ## Offsets -/

section

variable {v} {d : ℕ} {c : ℕ → ℕ}

theorem mask_add_four {a x : ℕ} (hmin : v.min a ≤ x) (hmax : x < v.max a)
    (hle : v.max a ≤ 2 ^ 64 - 4) : mask (sizeT (v.blockStart a x + 4)) = mask x + 4 := by
  rw [blockStart, sizeT_of_lt (by simp only [mask]; omega)]
  simp only [mask]
  omega

theorem blockSize_eq {a x : ℕ} (hmin : v.min a ≤ x) (hmax : x < v.max a)
    (hle : v.max a ≤ 2 ^ 64 - 4) :
    v.blockSize a (v.blockStart a x) = v.tiling.hi a x - v.tiling.lo a x := by
  have hmem := v.tiling.mem hmin hmax
  have hhi : v.tiling.hi a x = Min.min (mask x + 4) (v.max a) := rfl
  have hmax' : v.tiling.max a = v.max a := rfl
  rw [blockSize, mask_add_four hmin hmax hle, ← hhi]
  exact sizeSub_of_le (by show v.tiling.lo a x ≤ _; omega) (by omega)

theorem n_eq {a : ℕ} (hlt : v.min a < v.max a) (hle : v.max a ≤ 2 ^ 64 - 4) :
    v.n a = v.tiling.size a := sizeSub_of_le hlt.le (by omega)

theorem Proper.of_succ (h : v.Proper (d + 1)) : v.Proper d := fun a ha => h a (by omega)

theorem Proper.total_eq (h : v.Proper d) : total v.n d = total v.tiling.size d :=
  total_congr fun a ha => n_eq (h a ha).1 (h a ha).2

theorem Proper.size_pos (h : v.Proper d) : ∀ a < d, 0 < v.tiling.size a := fun a ha => by
  have hlt := (h a ha).1
  show 0 < v.max a - v.min a
  omega

theorem blockOffset_eq (h : v.Proper d) (hc : v.tiling.In d c) (s : ℕ) :
    v.blockOffset c d s = v.tiling.tileOffset c d s := by
  induction d generalizing s with
  | zero => rfl
  | succ d ih =>
    have hd := Nat.lt_succ_self d
    rw [blockOffset, blockSize_eq (hc d hd).1 (hc d hd).2 (h d hd).2, h.of_succ.total_eq,
      ih h.of_succ hc.of_succ]
    rfl

theorem elementOffset_eq (h : v.Proper d) (hc : v.tiling.In d c) :
    v.elementOffset d c = rank (v.tiling.width c) (v.tiling.inner c) d := by
  have hinner : ∀ a < d, sizeSub (c a) (v.blockStart a (c a)) = v.tiling.inner c a := by
    intro a ha
    have hmem := v.tiling.mem (hc a ha).1 (hc a ha).2
    have hle := (h a ha).2
    have hlt : c a < v.max a := (hc a ha).2
    exact sizeSub_of_le hmem.2.1 (by omega)
  rw [elementOffset, rank_congr hinner]
  exact rank_congr_radix fun a ha => blockSize_eq (hc a ha).1 (hc a ha).2 (h a ha).2

theorem fits_of_lt {p : ℕ} (h : p < 2 ^ 63) : FitsPtrdiff p := by
  constructor <;> omega

/-- The offset of an index is its number in the tiling. -/
theorem offset_eq (hd : 0 < d) (h : v.Proper d) (hsize : total v.tiling.size d < 2 ^ 63)
    (hc : v.tiling.In d c) : v.offset d c 0 = v.tiling.offset d c := by
  have hlt := Tiling.offset_lt hc
  have hne : c (d - 1) ≠ v.max (d - 1) := (hc (d - 1) (by omega)).2.ne
  rw [offset, if_neg hne, blockOffset_eq h hc, elementOffset_eq h hc, zero_add]
  exact ptrdiffT_of_fits (fits_of_lt (hlt.trans hsize))

theorem offset_last (hd : 0 < d) (h : v.Proper d) (hsize : total v.tiling.size d < 2 ^ 63)
    (hc : ∀ a < d, c a = v.last d a) : v.offset d c 0 = total v.tiling.size d := by
  have hlast : c (d - 1) = v.max (d - 1) := by
    rw [hc (d - 1) (by omega), last, if_pos (by omega)]
  rw [offset, if_pos hlast, h.total_eq, zero_add]
  exact ptrdiffT_of_fits (fits_of_lt hsize)

/-! ## Indices -/

theorem toSize_natCast {p : ℕ} (h : p < 2 ^ 64) : toSize p = p := by
  rw [toSize]
  omega

/-- The quotient of two values that fit is that of the numbers. -/
theorem toSize_tdiv {p q : ℕ} (hp : p < 2 ^ 63) (hq : q < 2 ^ 63) :
    toSize ((p : ℤ).tdiv (ptrdiffT q)) = p / q := by
  rw [ptrdiffT_of_fits (fits_of_lt hq), ← Int.ofNat_tdiv]
  exact toSize_natCast ((Nat.div_le_self p q).trans_lt (by omega))

theorem ptrdiffT_sub {p q : ℕ} (hp : p < 2 ^ 63) (hq : q ≤ p) :
    ptrdiffT ((p : ℤ) - q) = (p - q : ℕ) := by
  rw [← Int.natCast_sub hq]
  exact ptrdiffT_of_fits (fits_of_lt (by omega))

theorem indexBlocks_eq (h : v.Proper d) {s p : ℕ} (hp : p < s * total v.tiling.size d)
    (hsize : s * total v.tiling.size d < 2 ^ 63) :
    v.indexBlocks d s p = ((v.tiling.locate d s p).1, ((v.tiling.locate d s p).2 : ℤ)) := by
  induction d generalizing s p with
  | zero => rfl
  | succ d ih =>
    obtain ⟨hlt, hle⟩ := h d (Nat.lt_succ_self d)
    obtain ⟨hmax, hbelow, hrest⟩ := Tiling.locate_step (t := v.tiling) hp
    have hmin : v.min d ≤ v.min d + p / (total v.tiling.size d * s) := Nat.le_add_right _ _
    have hmem := v.tiling.mem hmin hmax
    have hblock := blockSize_eq hmin hmax hle
    rw [← (Tiling.lo_lo (t := v.tiling) hmin hmax).2] at hblock
    -- the layers of dimension `d` are at most as many as the numbers
    have hlayer : total v.tiling.size d * s < 2 ^ 63 := by
      rw [Nat.mul_comm]
      refine (Nat.mul_le_mul_left s ?_).trans_lt hsize
      exact Nat.le_mul_of_pos_right _ (h.size_pos d (Nat.lt_succ_self d))
    have hx : v.min d + p / (total v.tiling.size d * s) < 2 ^ 64 :=
      Nat.lt_of_lt_of_le hmax (hle.trans (by decide))
    have htile := (Tiling.tile_le (t := v.tiling) s hmin hmax).trans_lt hsize
    have hih := ih h.of_succ hrest htile
    have hsub := ptrdiffT_sub (hp.trans hsize) hbelow
    rw [indexBlocks, h.of_succ.total_eq, toSize_tdiv (hp.trans hsize) hlayer, sizeT_of_lt hx,
      Tiling.locate]
    simp only [tiling_min, tiling_lo] at hblock hsub hih ⊢
    rw [hblock, hsub, hih]

theorem indexElements_eq {b w : ℕ → ℕ} (hw : ∀ a < d, v.blockSize a (b a) = w a)
    (hfit : ∀ a < d, b a + w a ≤ 2 ^ 64) {p : ℕ} (hp : p < total w d)
    (hsize : total w d < 2 ^ 63) : v.indexElements b d p = Tiling.place b w d p := by
  induction d generalizing p with
  | zero => rfl
  | succ d ih =>
    have hd := Nat.lt_succ_self d
    have hw' : ∀ a < d, v.blockSize a (b a) = w a := fun a ha => hw a (by omega)
    have htotal : total (fun a => v.blockSize a (b a)) d = total w d := total_congr hw'
    rw [total] at hp hsize
    have hpos : 0 < w d := Nat.pos_of_ne_zero fun hzero => by
      rw [hzero, Nat.mul_zero] at hp
      exact Nat.not_lt_zero p hp
    have hrow : total w d < 2 ^ 63 := (Nat.le_mul_of_pos_right _ hpos).trans_lt hsize
    have hquot := Nat.div_lt_of_lt_mul hp
    have hq := toSize_tdiv (hp.trans hsize) hrow
    have hsub := ptrdiffT_sub (hp.trans hsize) (Nat.div_mul_le_self p (total w d))
    have hrest : p - p / total w d * total w d < total w d := by
      have hdiv := Nat.mod_add_div' p (total w d)
      have hlt := Nat.mod_lt p (show total w d > 0 from Nat.pos_of_ne_zero fun hzero => by
        rw [hzero, Nat.zero_mul] at hp
        exact Nat.not_lt_zero p hp)
      omega
    have hlast : b d + p / total w d < 2 ^ 64 :=
      (Nat.add_lt_add_left hquot _).trans_le (hfit d hd)
    rw [indexElements, htotal, hq, hsub, ih hw' (fun a ha => hfit a (by omega)) hrest hrow,
      sizeT_of_lt hlast, Tiling.place]

/-- The index of a number below the size of the box. -/
theorem index_eq (h : v.Proper d) (hsize : total v.tiling.size d < 2 ^ 63) {p : ℕ}
    (hp : p < total v.tiling.size d) : v.index d p = v.tiling.index d p := by
  have hne : toSize p ≠ sizeT (total v.n d) := by
    rw [toSize_natCast (by omega), h.total_eq, sizeT_of_lt (by omega)]
    omega
  have hp' : p < 1 * total v.tiling.size d := by rwa [Nat.one_mul]
  obtain ⟨hmem, hsum, hlt⟩ := Tiling.locate_spec h.size_pos hp'
  have hstart : v.tiling.In d (v.tiling.locate d 1 p).1 := fun a ha =>
    ⟨(hmem a ha).1, (hmem a ha).2.1⟩
  have htile := Tiling.tileOffset_le hstart 1
  rw [index, if_neg hne, indexBlocks_eq h hp' (by rwa [Nat.one_mul]), Tiling.index]
  have hwidth : ∀ a < d, v.tiling.width (v.tiling.locate d 1 p).1 a =
      v.tiling.hi a ((v.tiling.locate d 1 p).1 a) - (v.tiling.locate d 1 p).1 a := fun a ha => by
    rw [Tiling.width, (hmem a ha).2.2]
  have htotal := total_congr hwidth
  rw [htotal] at hlt htile
  refine indexElements_eq (fun a ha => ?_) (fun a ha => ?_) (by omega) (by omega)
  · have hblock := blockSize_eq (hmem a ha).1 (hmem a ha).2.1 (h a ha).2
    rw [← tiling_lo, (hmem a ha).2.2] at hblock
    exact hblock
  · have hbox := v.tiling.mem (hmem a ha).1 (hmem a ha).2.1
    have hle := (h a ha).2
    rw [tiling_max] at hbox
    dsimp only
    omega

/-! ## Increments -/

@[simp] theorem tiling_hi (a x : ℕ) : v.tiling.hi a x = Min.min (mask x + 4) (v.max a) := rfl

/-- An index follows another one, or the other one is the last and it is that past the last. -/
def Follows (v : Limits) (d : ℕ) (c r : ℕ → ℕ) : Prop :=
  v.tiling.Next d c r ∨ (∀ j < d, c j + 1 = v.max j) ∧ ∀ j < d, r j = v.last d j

variable {c₀ : ℕ → ℕ}

/-- The first dimension that is not at its last block moves to the next block. -/
theorem next_tile (hfull : ∀ j < d, c₀ j + 1 = v.tiling.hi j (c₀ j)) {a : ℕ} (ha : a < d)
    (hlow : ∀ j < a, v.tiling.hi j (c₀ j) = v.max j ∧ c j = v.min j)
    (hhigh : ∀ j, a ≤ j → j < d → c j = v.blockStart j (c₀ j)) (hlt : mask (c₀ a) + 4 < v.max a) :
    v.tiling.Next d c₀ (Function.update c a (mask (c₀ a) + 4)) := by
  refine .tile a ha hfull (fun j hj => ?_) ?_ ?_ fun j hj hjd => ?_
  · rw [Function.update_of_ne hj.ne]
    exact hlow j hj
  · rw [tiling_hi]
    exact (min_le_left _ _).trans_lt hlt
  · rw [Function.update_self, tiling_hi, min_eq_left hlt.le]
  · rw [Function.update_of_ne hj.ne', tiling_lo]
    exact hhigh j hj.le hjd

theorem nextBlock_follows (h : v.Proper d) (hc : v.tiling.In d c₀)
    (hfull : ∀ j < d, c₀ j + 1 = v.tiling.hi j (c₀ j)) {k a : ℕ} (ha : a + k + 1 = d)
    (hlow : ∀ j < a, v.tiling.hi j (c₀ j) = v.max j ∧ c j = v.min j)
    (hhigh : ∀ j, a ≤ j → j < d → c j = v.blockStart j (c₀ j)) :
    v.Follows d c₀ (v.nextBlock k a c) := by
  have had : a < d := by omega
  have hmask := mask_add_four (hc a had).1 (hc a had).2 (h a had).2
  rw [← hhigh a (Nat.le_refl a) had] at hmask
  induction k generalizing a c with
  | zero =>
    rw [nextBlock, hmask]
    rcases Nat.lt_or_ge (mask (c₀ a) + 4) (v.max a) with hlt | hge
    · rw [if_neg (Nat.not_le.mpr hlt)]
      exact .inl (next_tile hfull had hlow hhigh hlt)
    · rw [if_pos hge]
      refine .inr ⟨fun j hj => ?_, fun j hj => ?_⟩
      · have hj' := hfull j hj
        rcases Nat.lt_or_ge j a with hja | hja
        · rw [(hlow j hja).1] at hj'
          exact hj'
        · obtain rfl : j = a := by omega
          rw [tiling_hi, min_eq_right hge] at hj'
          exact hj'
      · rw [last]
        rcases Nat.lt_or_ge j a with hja | hja
        · rw [Function.update_of_ne hja.ne, (hlow j hja).2, if_neg (by omega)]
        · obtain rfl : j = a := by omega
          rw [Function.update_self, if_pos (by omega)]
  | succ k ih =>
    rw [nextBlock, hmask]
    rcases Nat.lt_or_ge (mask (c₀ a) + 4) (v.max a) with hlt | hge
    · rw [if_neg (Nat.not_le.mpr hlt)]
      exact .inl (next_tile hfull had hlow hhigh hlt)
    · rw [if_pos hge]
      have hhigh' : ∀ j, a + 1 ≤ j → j < d → Function.update c a (v.min a) j =
          v.blockStart j (c₀ j) := fun j hj hjd => by
        rw [Function.update_of_ne (by omega)]
        exact hhigh j (by omega) hjd
      have had' : a + 1 < d := by omega
      have hmask' := mask_add_four (hc (a + 1) had').1 (hc (a + 1) had').2 (h (a + 1) had').2
      rw [← hhigh' (a + 1) (Nat.le_refl _) had'] at hmask'
      refine ih (by omega) (fun j hj => ?_) hhigh' had' hmask'
      rcases Nat.lt_or_ge j a with hja | hja
      · rw [Function.update_of_ne hja.ne]
        exact hlow j hja
      · obtain rfl : j = a := by omega
        rw [Function.update_self, tiling_hi, min_eq_right hge]
        exact ⟨rfl, rfl⟩

/-- The test for the end of a block. -/
theorem end_iff {a x : ℕ} (hmax : x < v.max a) :
    ((x + 1) % 4 = 0 ∨ x + 1 = v.max a) ↔ x + 1 = v.tiling.hi a x := by
  simp only [tiling_hi, mask]
  omega

theorem size_increment (h : v.Proper d) (hc : v.tiling.In d c₀) {a : ℕ} (ha : a < d) :
    sizeT (c₀ a + 1) = c₀ a + 1 ∧ sizeSub (c₀ a + 1) 1 = c₀ a := by
  have hle := (h a ha).2
  have hmax := (hc a ha).2
  rw [tiling_max] at hmax
  exact ⟨sizeT_of_lt (by omega), sizeSub_of_le (by omega) (by omega)⟩

/-- The dimensions below `a` are at the end of the block and have been reset. -/
def Reset (v : Limits) (c₀ c : ℕ → ℕ) (a : ℕ) : Prop :=
  ∀ j < a, c₀ j + 1 = v.tiling.hi j (c₀ j) ∧ c j = v.blockStart j (c₀ j)

theorem Reset.succ {a : ℕ} (h : v.Reset c₀ c a) (ha : c₀ a + 1 = v.tiling.hi a (c₀ a)) :
    v.Reset c₀ (Function.update c a (v.blockStart a (c₀ a))) (a + 1) := by
  intro j hj
  rcases Nat.lt_succ_iff_lt_or_eq.mp hj with hja | rfl
  · rw [Function.update_of_ne hja.ne]
    exact h j hja
  · rw [Function.update_self]
    exact ⟨ha, rfl⟩

theorem next_inner (hc : v.tiling.In d c₀) {a : ℕ} (ha : a < d) (hlow : v.Reset c₀ c a)
    (hhigh : ∀ j, a ≤ j → j < d → c j = c₀ j) (hne : ¬ c₀ a + 1 = v.tiling.hi a (c₀ a)) :
    v.tiling.Next d c₀ (Function.update c a (c₀ a + 1)) := by
  have hmem := v.tiling.mem (hc a ha).1 (hc a ha).2
  refine .inner a ha (fun j hj => ?_) (by omega) (Function.update_self _ _ _) fun j hj hjd => ?_
  · rw [Function.update_of_ne hj.ne, tiling_lo]
    exact hlow j hj
  · rw [Function.update_of_ne hj.ne']
    exact hhigh j hj.le hjd

theorem incrementFrom_follows (h : v.Proper d) (hc : v.tiling.In d c₀) {k a : ℕ}
    (ha : a + k + 1 = d) (hlow : v.Reset c₀ c a) (hhigh : ∀ j, a ≤ j → j < d → c j = c₀ j) :
    v.Follows d c₀ (v.incrementFrom d k a c) := by
  induction k generalizing a c with
  | zero =>
    have had : a < d := by omega
    obtain ⟨hx, hback⟩ := size_increment h hc had
    rw [incrementFrom, hhigh a (Nat.le_refl a) had, hx, hback]
    rcases Decidable.em (c₀ a + 1 = v.tiling.hi a (c₀ a)) with hend | hne
    · have hreset := hlow.succ hend
      rw [if_pos ((end_iff (hc a had).2).mpr hend)]
      exact nextBlock_follows h hc (fun j hj => (hreset j (by omega)).1) (by omega)
        (fun j hj => absurd hj (Nat.not_lt_zero j)) fun j _ hj => (hreset j (by omega)).2
    · rw [if_neg fun hor => hne ((end_iff (hc a had).2).mp hor)]
      exact .inl (next_inner hc had hlow hhigh hne)
  | succ k ih =>
    have had : a < d := by omega
    obtain ⟨hx, hback⟩ := size_increment h hc had
    rw [incrementFrom, hhigh a (Nat.le_refl a) had, hx, hback]
    rcases Decidable.em (c₀ a + 1 = v.tiling.hi a (c₀ a)) with hend | hne
    · rw [if_pos ((end_iff (hc a had).2).mpr hend)]
      refine ih (by omega) (hlow.succ hend) fun j hj hjd => ?_
      rw [Function.update_of_ne (by omega)]
      exact hhigh j (by omega) hjd
    · rw [if_neg fun hor => hne ((end_iff (hc a had).2).mp hor)]
      exact .inl (next_inner hc had hlow hhigh hne)

theorem increment_follows (hd : 0 < d) (h : v.Proper d) (hc : v.tiling.In d c) :
    v.Follows d c (v.increment d c) :=
  incrementFrom_follows h hc (by omega) (fun j hj => absurd hj (Nat.not_lt_zero j))
    fun _ _ _ => rfl

/-! ## Decrements -/

/-- An index one below in every dimension of `r` is followed by `c`. -/
def Precedes (v : Limits) (d : ℕ) (r c : ℕ → ℕ) : Prop :=
  ∃ p, v.tiling.In d p ∧ v.tiling.Next d p c ∧ ∀ j < d, r j = p j + 1

/-- The last index of a block is in the block. -/
theorem hi_pred {a x y : ℕ} (hmin : v.min a ≤ x) (hmax : x < v.max a)
    (hy : y + 1 = v.tiling.hi a x) :
    v.tiling.hi a y = v.tiling.hi a x ∧ v.tiling.lo a y = v.tiling.lo a x := by
  have hmem := v.tiling.mem hmin hmax
  obtain ⟨hlo, hhi⟩ := v.tiling.same hmin hmax (show v.tiling.lo a x ≤ y by omega) (by omega)
  exact ⟨hhi, hlo⟩

/-- The first dimension that is not at its first block moves to the block before. -/
theorem prev_tile (hc : v.tiling.In d c₀) (hfirst : ∀ j < d, v.blockStart j (c₀ j) = c₀ j) {a : ℕ}
    (ha : a < d) (hlow : ∀ j < a, c₀ j = v.min j ∧ c j = v.max j)
    (hhigh : ∀ j, a ≤ j → j < d → c j = v.tiling.hi j (c₀ j)) (hlt : v.min a < mask (c₀ a)) :
    v.Precedes d (Function.update c a (mask (c₀ a))) c₀ := by
  have hmem := fun j hj => v.tiling.mem (hc j hj).1 (hc j hj).2
  have hmask : mask (c₀ a) = c₀ a := by
    have h := hfirst a ha
    rw [blockStart, max_eq_left hlt.le] at h
    exact h
  have hmin : ∀ j < a, v.tiling.hi j (v.max j - 1) = v.max j := fun j hj => by
    have hj' := hc j (by omega)
    simp only [tiling_min, tiling_max] at hj'
    simp only [tiling_hi, mask]
    omega
  have hprev : v.tiling.hi a (c₀ a - 1) = c₀ a := by
    have hmax := (hc a ha).2
    rw [← hmask] at hmax ⊢
    simp only [tiling_hi, tiling_max, mask] at hmax hlt ⊢
    omega
  have hp : ∀ j < d, Function.update c a (mask (c₀ a)) j - 1 + 1 =
        Function.update c a (mask (c₀ a)) j ∧
      v.min j ≤ Function.update c a (mask (c₀ a)) j - 1 ∧
      Function.update c a (mask (c₀ a)) j - 1 < v.max j := by
    intro j hj
    have hj' := hmem j hj
    have hc' := hc j hj
    rw [tiling_max] at hj' hc'
    rw [tiling_min] at hc'
    rcases Nat.lt_trichotomy j a with hja | rfl | hja
    · rw [Function.update_of_ne hja.ne, (hlow j hja).2]
      omega
    · rw [Function.update_self, hmask]
      omega
    · rw [Function.update_of_ne hja.ne', hhigh j hja.le hj]
      omega
  refine ⟨fun j => Function.update c a (mask (c₀ a)) j - 1, fun j hj => (hp j hj).2,
    .tile a ha (fun j hj => ?_) (fun j hj => ?_) ?_ ?_ fun j hj hjd => ?_,
    fun j hj => (hp j hj).1.symm⟩
  · rw [(hp j hj).1]
    rcases Nat.lt_trichotomy j a with hja | rfl | hja
    · rw [Function.update_of_ne hja.ne, (hlow j hja).2, hmin j hja]
    · rw [Function.update_self, hmask, hprev]
    · have hpred := hi_pred (hc j hj).1 (hc j hj).2
        ((hp j hj).1.trans (by rw [Function.update_of_ne hja.ne', hhigh j hja.le hj]))
      rw [hpred.1, Function.update_of_ne hja.ne', hhigh j hja.le hj]
  · rw [Function.update_of_ne hj.ne, (hlow j hj).2, hmin j hj]
    exact ⟨rfl, (hlow j hj).1⟩
  · rw [Function.update_self, hmask, hprev]
    exact (hc a ha).2
  · rw [Function.update_self, hmask, hprev]
  · have hpred := hi_pred (hc j hjd).1 (hc j hjd).2
      ((hp j hjd).1.trans (by rw [Function.update_of_ne hj.ne', hhigh j hj.le hjd]))
    rw [hpred.2, tiling_lo, hfirst j hjd]

/-- The block before the end of the block of an index. -/
theorem mask_hi_sub {a : ℕ} (h : v.Proper d) (hc : v.tiling.In d c₀) (ha : a < d) :
    mask (sizeSub (v.tiling.hi a (c₀ a)) 1) = mask (c₀ a) := by
  have hle := (h a ha).2
  obtain ⟨hmin, hmax⟩ := hc a ha
  rw [tiling_max] at hmax
  rw [tiling_hi, sizeSub_of_le (by omega) (by omega)]
  simp only [mask]
  omega

theorem prevBlock_precedes (h : v.Proper d) (hc : v.tiling.In d c₀)
    (hfirst : ∀ j < d, v.blockStart j (c₀ j) = c₀ j) (hne : ∃ j < d, c₀ j ≠ v.min j) {k a : ℕ}
    (ha : a + k + 1 = d) (hlow : ∀ j < a, c₀ j = v.min j ∧ c j = v.max j)
    (hhigh : ∀ j, a ≤ j → j < d → c j = v.tiling.hi j (c₀ j)) :
    v.Precedes d (v.prevBlock k a c) c₀ := by
  have hstart : ∀ {b}, b < d → mask (c₀ b) ≤ v.min b → c₀ b = v.min b := fun hb hle => by
    rw [← hfirst _ hb, blockStart, max_eq_right hle]
  induction k generalizing a c with
  | zero =>
    have had : a < d := by omega
    rw [prevBlock, hhigh a (Nat.le_refl a) had, mask_hi_sub h hc had]
    rcases Nat.lt_or_ge (v.min a) (mask (c₀ a)) with hlt | hge
    · rw [if_neg (Nat.not_le.mpr hlt)]
      exact prev_tile hc hfirst had hlow hhigh hlt
    · obtain ⟨j, hj, hne⟩ := hne
      refine absurd ?_ hne
      rcases Nat.lt_or_ge j a with hja | hja
      · exact (hlow j hja).1
      · obtain rfl : j = a := by omega
        exact hstart had hge
  | succ k ih =>
    have had : a < d := by omega
    rw [prevBlock, hhigh a (Nat.le_refl a) had, mask_hi_sub h hc had]
    rcases Nat.lt_or_ge (v.min a) (mask (c₀ a)) with hlt | hge
    · rw [if_neg (Nat.not_le.mpr hlt)]
      exact prev_tile hc hfirst had hlow hhigh hlt
    · rw [if_pos hge]
      refine ih (by omega) (fun j hj => ?_) fun j hj hjd => ?_
      · rcases Nat.lt_succ_iff_lt_or_eq.mp hj with hja | rfl
        · rw [Function.update_of_ne hja.ne]
          exact hlow j hja
        · rw [Function.update_self]
          exact ⟨hstart had hge, rfl⟩
      · rw [Function.update_of_ne (by omega)]
        exact hhigh j (by omega) hjd

/-- The test for the beginning of a block. -/
theorem begin_iff {a x : ℕ} (hmin : v.min a ≤ x) :
    (x % 4 = 0 ∨ x = v.min a) ↔ v.blockStart a x = x := by
  simp only [blockStart, mask]
  omega

theorem size_decrement (h : v.Proper d) (hc : v.tiling.In d c₀) {a : ℕ} (ha : a < d) :
    Min.min (mask (sizeT (c₀ a + 4))) (v.max a) = v.tiling.hi a (c₀ a) := by
  have hle := (h a ha).2
  have hmax := (hc a ha).2
  rw [tiling_max] at hmax
  rw [tiling_hi, sizeT_of_lt (by omega)]
  simp only [mask]
  omega

/-- The dimensions below `a` have been at the beginning of the block and are at its end. -/
def Raised (v : Limits) (c₀ c : ℕ → ℕ) (a : ℕ) : Prop :=
  ∀ j < a, v.blockStart j (c₀ j) = c₀ j ∧ c j = v.tiling.hi j (c₀ j)

theorem Raised.succ {a : ℕ} (h : v.Raised c₀ c a) (ha : v.blockStart a (c₀ a) = c₀ a) :
    v.Raised c₀ (Function.update c a (v.tiling.hi a (c₀ a))) (a + 1) := by
  intro j hj
  rcases Nat.lt_succ_iff_lt_or_eq.mp hj with hja | rfl
  · rw [Function.update_of_ne hja.ne]
    exact h j hja
  · rw [Function.update_self]
    exact ⟨ha, rfl⟩

/-- An index that the conditions from dimension `a` on decrement: the dimensions below `a` are still
one above. -/
def PrecedesFrom (v : Limits) (d a : ℕ) (r c : ℕ → ℕ) : Prop :=
  ∃ p, v.tiling.In d p ∧ v.tiling.Next d p c ∧ (∀ j < a, r j = p j + 1) ∧
    ∀ j, a ≤ j → j < d → r j = p j

theorem PrecedesFrom.update (h : v.Proper d) {a : ℕ} {r : ℕ → ℕ} (ha : a < d)
    (hr : v.PrecedesFrom d (a + 1) r c₀) :
    v.PrecedesFrom d a (Function.update r a (sizeSub (r a) 1)) c₀ := by
  obtain ⟨p, hp, hnext, hlow, hhigh⟩ := hr
  have hmax := (hp a ha).2
  have hle := (h a ha).2
  rw [tiling_max] at hmax
  refine ⟨p, hp, hnext, fun j hj => ?_, fun j hj hjd => ?_⟩
  · rw [Function.update_of_ne hj.ne]
    exact hlow j (by omega)
  · rcases Nat.eq_or_lt_of_le hj with rfl | hlt
    · rw [Function.update_self, hlow a (Nat.lt_succ_self a), sizeSub_of_le (by omega) (by omega)]
      rfl
    · rw [Function.update_of_ne hlt.ne']
      exact hhigh j hlt hjd

theorem prev_inner (h : v.Proper d) (hc : v.tiling.In d c₀) {a : ℕ} (ha : a < d)
    (hlow : v.Raised c₀ c a) (hhigh : ∀ j, a ≤ j → j < d → c j = c₀ j)
    (hne : ¬ v.blockStart a (c₀ a) = c₀ a) :
    v.PrecedesFrom d a (Function.update c a (sizeSub (c₀ a) 1)) c₀ := by
  have hmem := fun j hj => v.tiling.mem (hc j hj).1 (hc j hj).2
  have hle := (h a ha).2
  have ha' := hmem a ha
  have hca := hc a ha
  rw [tiling_lo, tiling_min, tiling_max] at ha'
  rw [tiling_max] at hca
  rw [sizeSub_of_le (by omega) (by omega)]
  -- the dimensions below move to the last element of their block
  have hp : ∀ j < a, c j - 1 + 1 = v.tiling.hi j (c₀ j) ∧
      v.tiling.hi j (c j - 1) = v.tiling.hi j (c₀ j) ∧ v.tiling.lo j (c j - 1) = c₀ j := by
    intro j hj
    have hjd : j < d := by omega
    have hj' := hmem j hjd
    have hpred : c j - 1 + 1 = v.tiling.hi j (c₀ j) := by
      rw [(hlow j hj).2]
      omega
    have hin := hi_pred (hc j hjd).1 (hc j hjd).2 hpred
    exact ⟨hpred, hin.1, hin.2.trans (hlow j hj).1⟩
  have hsame := v.tiling.same (hc a ha).1 (hc a ha).2
    (show v.tiling.lo a (c₀ a) ≤ c₀ a - 1 by rw [tiling_lo]; omega) (by omega)
  obtain ⟨p, hbelow, hat, habove⟩ : ∃ p : ℕ → ℕ, (∀ j < a, p j = c j - 1) ∧ p a = c₀ a - 1 ∧
      ∀ j, a < j → p j = c j :=
    ⟨fun j => if j < a then c j - 1 else Function.update c a (c₀ a - 1) j,
      fun j hj => if_pos hj, (if_neg (Nat.lt_irrefl a)).trans (Function.update_self _ _ _),
      fun j hj => (if_neg hj.not_gt).trans (Function.update_of_ne hj.ne' _ _)⟩
  refine ⟨p, fun j hj => ?_, .inner a ha (fun j hj => ?_) ?_ ?_ fun j hj hjd => ?_,
    fun j hj => ?_, fun j hj hjd => ?_⟩
  · have hj' := hmem j hj
    rcases Nat.lt_trichotomy j a with hja | rfl | hja
    · have hpred := hp j hja
      rw [hbelow j hja]
      omega
    · rw [hat, tiling_min, tiling_max]
      omega
    · rw [habove j hja, hhigh j hja.le hj]
      exact hc j hj
  · rw [hbelow j hj]
    exact ⟨(hp j hj).1.trans (hp j hj).2.1.symm, (hp j hj).2.2.symm⟩
  · rw [hat, hsame.2]
    omega
  · rw [hat]
    omega
  · rw [habove j hj, hhigh j hj.le hjd]
  · have hpred := hp j hj
    rw [hbelow j hj, Function.update_of_ne hj.ne, hpred.1, (hlow j hj).2]
  · rcases Nat.eq_or_lt_of_le hj with rfl | hlt
    · rw [Function.update_self, hat]
    · rw [Function.update_of_ne hlt.ne', habove j hlt]

theorem decrementFrom_precedes (h : v.Proper d) (hc : v.tiling.In d c₀)
    (hne : ∃ j < d, c₀ j ≠ v.min j) {k a : ℕ} (ha : a + k + 1 = d) (hlow : v.Raised c₀ c a)
    (hhigh : ∀ j, a ≤ j → j < d → c j = c₀ j) :
    v.PrecedesFrom d a (v.decrementFrom d k a c) c₀ := by
  induction k generalizing a c with
  | zero =>
    have had : a < d := by omega
    have hca := hhigh a (Nat.le_refl a) had
    rw [decrementFrom, hca, size_decrement h hc had]
    rcases Decidable.em (v.blockStart a (c₀ a) = c₀ a) with hstart | hstart
    · have hraised := hlow.succ hstart
      rw [if_pos ((begin_iff (hc a had).1).mpr hstart)]
      obtain ⟨p, hp, hnext, hr⟩ := prevBlock_precedes h hc (fun j hj => (hraised j (by omega)).1) hne
        (k := d - 1) (a := 0) (by omega) (fun j hj => absurd hj (Nat.not_lt_zero j))
        fun j _ hj => (hraised j (by omega)).2
      exact PrecedesFrom.update h had
        ⟨p, hp, hnext, fun j hj => hr j (by omega), fun j hj hjd => absurd hjd (by omega)⟩
    · rw [if_neg fun hor => hstart ((begin_iff (hc a had).1).mp hor), hca]
      exact prev_inner h hc had hlow hhigh hstart
  | succ k ih =>
    have had : a < d := by omega
    have hca := hhigh a (Nat.le_refl a) had
    rw [decrementFrom, hca, size_decrement h hc had]
    rcases Decidable.em (v.blockStart a (c₀ a) = c₀ a) with hstart | hstart
    · rw [if_pos ((begin_iff (hc a had).1).mpr hstart)]
      refine PrecedesFrom.update h had (ih (by omega) (hlow.succ hstart) fun j hj hjd => ?_)
      rw [Function.update_of_ne (by omega)]
      exact hhigh j (by omega) hjd
    · rw [if_neg fun hor => hstart ((begin_iff (hc a had).1).mp hor), hca]
      exact prev_inner h hc had hlow hhigh hstart

/-- An index that is not the first is decremented to one that it follows. -/
theorem decrement_precedes (hd : 0 < d) (h : v.Proper d) (hc : v.tiling.In d c)
    (hne : ∃ j < d, c j ≠ v.min j) :
    ∃ p, v.tiling.In d p ∧ v.tiling.Next d p c ∧ ∀ j < d, v.decrement d c j = p j := by
  have hlast : c (d - 1) ≠ v.max (d - 1) := (hc (d - 1) (by omega)).2.ne
  obtain ⟨p, hp, hnext, -, hr⟩ := decrementFrom_precedes h hc hne (k := d - 1) (a := 0) (c := c)
    (by omega) (fun j hj => absurd hj (Nat.not_lt_zero j)) fun _ _ _ => rfl
  rw [decrement, if_neg hlast]
  exact ⟨p, hp, hnext, fun j hj => hr j (Nat.zero_le j) hj⟩

end

/-! ## The iterators -/

variable {v} {d : ℕ}

/-- An index past the last element. -/
def AtEnd (v : Limits) (d : ℕ) (c : ℕ → ℕ) : Prop := ∀ a < d, c a = v.last d a

/-- The index past the last element is decremented to the last. -/
theorem decrement_last (hd : 0 < d) (h : v.Proper d) {c : ℕ → ℕ} (hend : v.AtEnd d c) :
    v.tiling.In d (v.decrement d c) ∧ ∀ j < d, v.decrement d c j + 1 = v.tiling.max j := by
  have hlast : c (d - 1) = v.max (d - 1) := by
    rw [hend (d - 1) (by omega), last, if_pos (by omega)]
  have hpred : ∀ j < d, v.decrement d c j = v.max j - 1 := fun j hj => by
    obtain ⟨hlt, hle⟩ := h j hj
    rw [decrement, if_pos hlast]
    exact sizeSub_of_le (by omega) (by omega)
  constructor
  · intro j hj
    obtain ⟨hlt, hle⟩ := h j hj
    rw [hpred j hj, tiling_min, tiling_max]
    omega
  · intro j hj
    obtain ⟨hlt, hle⟩ := h j hj
    rw [hpred j hj, tiling_max]
    omega

theorem same_block_iff {a x y : ℕ} (hx : v.tiling.min a ≤ x ∧ x < v.tiling.max a)
    (hy : v.tiling.min a ≤ y ∧ y < v.tiling.max a) :
    y / 4 = x / 4 ↔ v.tiling.lo a y = v.tiling.lo a x := by
  simp only [tiling_min, tiling_max] at hx hy
  simp only [tiling_lo, blockStart, mask]
  omega

/-- Iteration by blocks enumerates the elements of a box whose size is a value of the type of
differences. -/
theorem iterator_bijection (hd : 0 < d) (h : v.Proper d)
    (hsize : total v.tiling.size d < 2 ^ 63) :
    (∀ c, v.tiling.In d c → 0 ≤ v.offset d c 0 ∧ v.offset d c 0 < total v.tiling.size d ∧
      ∀ a < d, v.index d (v.offset d c 0) a = c a) ∧
    (∀ p : ℤ, 0 ≤ p → p < total v.tiling.size d →
      v.tiling.In d (v.index d p) ∧ v.offset d (v.index d p) 0 = p) ∧
    (∀ c, v.AtEnd d c → v.offset d c 0 = total v.tiling.size d) ∧
    (∀ c, v.tiling.In d c → v.offset d (v.increment d c) 0 = v.offset d c 0 + 1 ∧
      (v.tiling.In d (v.increment d c) ∨ v.AtEnd d (v.increment d c))) ∧
    (∀ c, v.tiling.In d c ∧ 0 < v.offset d c 0 ∨ v.AtEnd d c →
      v.tiling.In d (v.decrement d c) ∧ v.offset d (v.decrement d c) 0 = v.offset d c 0 - 1) ∧
    ∀ c, v.tiling.In d c → ∃ first count : ℤ, ∀ c', v.tiling.In d c' →
      ((∀ a < d, c' a / 4 = c a / 4) ↔
        first ≤ v.offset d c' 0 ∧ v.offset d c' 0 < first + count) := by
  have hoffset := fun c (hc : v.tiling.In d c) => offset_eq hd h hsize hc
  refine ⟨fun c hc => ?_, fun p hp hlt => ?_, fun c hc => offset_last hd h hsize hc,
    fun c hc => ?_, fun c hc => ?_, fun c hc => ?_⟩
  · have hlt := Tiling.offset_lt hc
    rw [hoffset c hc, index_eq h hsize hlt]
    exact ⟨Int.natCast_nonneg _, by exact_mod_cast hlt, Tiling.index_offset hc⟩
  · obtain ⟨p, rfl⟩ := Int.eq_ofNat_of_zero_le hp
    have hlt' : p < total v.tiling.size d := by exact_mod_cast hlt
    obtain ⟨hin, heq⟩ := Tiling.offset_index h.size_pos hlt'
    rw [index_eq h hsize hlt', hoffset _ hin, heq]
    exact ⟨hin, rfl⟩
  · rcases increment_follows hd h hc with hnext | ⟨hlast, hend⟩
    · have hin := hnext.mem hc
      rw [hoffset _ hin, hoffset c hc, Tiling.offset_next hc hnext]
      exact ⟨Int.natCast_succ _, .inl hin⟩
    · have hsucc := Tiling.offset_last hc hlast
      rw [offset_last hd h hsize hend, hoffset c hc, ← hsucc]
      exact ⟨Int.natCast_succ _, .inr hend⟩
  · rcases hc with ⟨hc, hpos⟩ | hend
    · rw [hoffset c hc] at hpos ⊢
      have hne : ∃ j < d, c j ≠ v.min j := by
        by_contra hall
        push Not at hall
        rw [Tiling.offset_first hc hall] at hpos
        exact absurd hpos (by decide)
      obtain ⟨p, hp, hnext, hr⟩ := decrement_precedes hd h hc hne
      have hin : v.tiling.In d (v.decrement d c) := fun a ha => by
        rw [hr a ha]
        exact hp a ha
      rw [hoffset _ hin, Tiling.offset_ext hr, Tiling.offset_next hp hnext]
      exact ⟨hin, by push_cast; ring⟩
    · obtain ⟨hin, hlast⟩ := decrement_last hd h hend
      rw [offset_last hd h hsize hend, hoffset _ hin, ← Tiling.offset_last hin hlast]
      exact ⟨hin, by push_cast; ring⟩
  · refine ⟨v.tiling.tileOffset c d 1, total (v.tiling.width c) d, fun c' hc' => ?_⟩
    rw [hoffset c' hc', forall₂_congr fun a ha => same_block_iff (hc a ha) (hc' a ha),
      Tiling.tile_consecutive hc hc']
    norm_cast

/-- The limits of a view that begins and ends within blocks. -/
private def unaligned : Limits := ⟨fun a => a + 1, fun a => a + 6⟩

/-- From the end of a clipped block the iterator moves to the next block. -/
theorem iterator_bijection_view :
    unaligned.offset 2 (unaligned.increment 2 fun _ => 3) 0 =
      unaligned.offset 2 (fun _ => 3) 0 + 1 := by
  have hproper : unaligned.Proper 2 := fun a ha => by
    show a + 1 < a + 6 ∧ a + 6 ≤ 2 ^ 64 - 4
    omega
  have hin : unaligned.tiling.In 2 fun _ => 3 := fun a ha => by
    show a + 1 ≤ 3 ∧ 3 < a + 6
    omega
  obtain ⟨-, -, -, hincrement, -⟩ := iterator_bijection (by decide) hproper (by decide)
  exact (hincrement _ hin).1

/-- The size of a box can be no value of the type of differences, and the block index after the last
values of `size_t` wraps. -/
theorem iterator_wraps :
    (¬ ∀ (v : Limits) (d : ℕ), 2 ≤ d → d ≤ 4 → v.Proper d → ∀ c, v.AtEnd d c →
      v.offset d c 0 = total v.tiling.size d) ∧
    ¬ ∀ (v : Limits) (d : ℕ), 2 ≤ d → d ≤ 4 → (∀ a < d, v.min a < v.max a ∧ v.max a < 2 ^ 64) →
      total v.tiling.size d < 2 ^ 63 → ∀ c, v.tiling.In d c →
        v.offset d (v.increment d c) 0 = v.offset d c 0 + 1 := by
  constructor
  · intro h
    have hend := h ⟨fun _ => 0, fun _ => 2 ^ 32⟩ 2 (by decide) (by decide)
      (fun _ _ => ⟨Nat.two_pow_pos 32, (by decide : 2 ^ 32 ≤ 2 ^ 64 - 4)⟩) _ fun _ _ => rfl
    exact absurd hend (by decide)
  · intro h
    have hnext := h ⟨fun a => if a = 0 then 2 ^ 64 - 2 else 0,
      fun a => if a = 0 then 2 ^ 64 - 1 else 1⟩ 2 (by decide) (by decide) (by decide) (by decide)
      (fun a => if a = 0 then 2 ^ 64 - 2 else 0) (by
        intro a ha
        have hcase : a = 0 ∨ a = 1 := by omega
        rcases hcase with rfl | rfl <;> decide)
    exact absurd hnext (by decide)

end Limits

end Zfp

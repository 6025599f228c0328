import Zfp.BlockCode
import Zfp.BlockGather

/-!
# The blocks that the Metal kernels gather

The kernels for integers number the blocks of an array like the nested loops of the serial path, but
each of them fills in the values outside the array in its own way: in one dimension like
`pad_block`, in two dimensions with the last row and column, in three dimensions with zeros.
-/

namespace Zfp.Metal

variable {α : Type}

def uint (x : ℕ) : ℕ := x % 2 ^ 32

def int (x : ℤ) : ℤ := x.bmod (2 ^ 32)

/-! ## Parameters of the kernels -/

structure Codec1dParams where
  dim : ℕ
  sx : ℤ
  totalBlocks : ℕ

structure Codec2dParams where
  nx : ℕ
  ny : ℕ
  sx : ℤ
  sy : ℤ
  bx : ℕ
  by' : ℕ
  totalBlocks : ℕ

structure Codec3dParams where
  nx : ℕ
  ny : ℕ
  nz : ℕ
  sx : ℤ
  sy : ℤ
  sz : ℤ
  bx : ℕ
  by' : ℕ
  bz : ℕ
  totalBlocks : ℕ

/-- `(n + 3u) & ~3u` -/
def roundUp (n : ℕ) : ℕ := uint (n + 3) / 4 * 4

/-- What `zfp_metal_encode1d_int32_runtime` passes on for a field. -/
def encode1dParams (nx : ℕ) (sx : ℤ) : Codec1dParams :=
  let dim := uint nx
  let padded := if dim % 4 ≠ 0 then uint (dim + (4 - dim % 4)) else dim
  ⟨dim, int sx, padded / 4⟩

def encode2dParams (nx ny : ℕ) (sx sy : ℤ) : Codec2dParams :=
  let nx := uint nx
  let ny := uint ny
  let bx := roundUp nx / 4
  let by' := roundUp ny / 4
  ⟨nx, ny, sx, sy, bx, by', uint (bx * by')⟩

def encode3dParams (nx ny nz : ℕ) (sx sy sz : ℤ) : Codec3dParams :=
  let nx := uint nx
  let ny := uint ny
  let nz := uint nz
  let bx := roundUp nx / 4
  let by' := roundUp ny / 4
  let bz := roundUp nz / 4
  ⟨nx, ny, nz, sx, sy, sz, bx, by', bz, uint (uint (bx * by') * bz)⟩

/-! ## Kernels -/

def encode1dBlock [Zero α] (p : Codec1dParams) (src : ℤ → α) (blockIdx : ℕ) : Option (ℕ → α) :=
  if p.totalBlocks ≤ blockIdx then none
  else
    let x := uint (blockIdx * 4)
    let offset := x * p.sx
    if p.dim < uint (x + 4) then
      let nx := uintSub p.dim x
      let iblock := fun i : ℕ => if i < nx then src (offset + i * p.sx) else 0
      if nx ≤ 1 then
        let iblock := Function.update iblock 1 (iblock 0)
        let iblock := Function.update iblock 2 (iblock 1)
        some (Function.update iblock 3 (iblock 0))
      else if nx = 2 then
        let iblock := Function.update iblock 2 (iblock 1)
        some (Function.update iblock 3 (iblock 0))
      else if nx = 3 then some (Function.update iblock 3 (iblock 0))
      else some iblock
    else some fun i => src (offset + i * p.sx)

/-- The loops of `zfp_encode2d_int32` that repeat the last column and then the last row. -/
def replicateColumns (nx ny : ℕ) (iblock : ℕ → α) : ℕ → α :=
  (List.range 4).foldl (fun q y =>
    if y < ny then
      (List.range' nx (4 - nx)).foldl
        (fun q x => Function.update q (4 * y + x) (q (4 * y + nx - 1))) q
    else q) iblock

def replicateRows (ny : ℕ) (iblock : ℕ → α) : ℕ → α :=
  (List.range 4).foldl (fun q x =>
    (List.range' ny (4 - ny)).foldl
      (fun q y => Function.update q (4 * y + x) (q (4 * (ny - 1) + x))) q) iblock

def encode2dBlock [Zero α] (p : Codec2dParams) (src : ℤ → α) (blockIdx : ℕ) : Option (ℕ → α) :=
  if p.totalBlocks ≤ blockIdx then none
  else
    let bx := blockIdx % p.bx
    let by' := blockIdx / p.bx
    let x0 := uint (bx * 4)
    let y0 := uint (by' * 4)
    let base := x0 * p.sx + y0 * p.sy
    let value := fun x y : ℕ => src (base + x * p.sx + y * p.sy)
    if uint (x0 + 4) ≤ p.nx ∧ uint (y0 + 4) ≤ p.ny then some fun i => value (i % 4) (i / 4)
    else
      let iblock := fun i =>
        if uint (x0 + i % 4) < p.nx ∧ uint (y0 + i / 4) < p.ny then value (i % 4) (i / 4) else 0
      let nx := if p.nx < uint (x0 + 4) then uintSub p.nx x0 else 4
      let ny := if p.ny < uint (y0 + 4) then uintSub p.ny y0 else 4
      some (replicateRows ny (replicateColumns nx ny iblock))

def encode3dBlock [Zero α] (p : Codec3dParams) (src : ℤ → α) (blockIdx : ℕ) : Option (ℕ → α) :=
  if p.totalBlocks ≤ blockIdx then none
  else
    let bx := blockIdx % p.bx
    let by' := blockIdx / p.bx % p.by'
    let bz := blockIdx / uint (p.bx * p.by')
    let x0 := uint (bx * 4)
    let y0 := uint (by' * 4)
    let z0 := uint (bz * 4)
    let base := x0 * p.sx + y0 * p.sy + z0 * p.sz
    let value := fun x y z : ℕ => src (base + x * p.sx + y * p.sy + z * p.sz)
    if uint (x0 + 4) ≤ p.nx ∧ uint (y0 + 4) ≤ p.ny ∧ uint (z0 + 4) ≤ p.nz then
      some fun i => value (i % 4) (i / 4 % 4) (i / 16)
    else
      some fun i =>
        if uint (x0 + i % 4) < p.nx ∧ uint (y0 + i / 4 % 4) < p.ny ∧ uint (z0 + i / 16) < p.nz then
          value (i % 4) (i / 4 % 4) (i / 16)
        else 0

/-! ## The loops over a block -/

theorem foldl_copies_of_ne (f : ℕ → ℕ) {n m j : ℕ} (k : ℕ) (h : ∀ x, n ≤ x → x < n + m → f x ≠ j)
    (q : ℕ → α) :
    (List.range' n m).foldl (fun q x => Function.update q (f x) (q k)) q j = q j := by
  induction m with
  | zero => rfl
  | succ m ih =>
    rw [List.range'_concat, Nat.one_mul, List.foldl_append, List.foldl_cons, List.foldl_nil,
      Function.update_of_ne (h (n + m) (by omega) (by omega)).symm,
      ih fun x hx hx' => h x hx (by omega)]

theorem foldl_copies (f : ℕ → ℕ) {n m k x : ℕ} (hk : ∀ x, n ≤ x → x < n + m → f x ≠ k) (hx : n ≤ x)
    (hx' : x < n + m) (q : ℕ → α) :
    (List.range' n m).foldl (fun q x => Function.update q (f x) (q k)) q (f x) = q k := by
  induction m with
  | zero => omega
  | succ m ih =>
    have hk' := fun y hy hy' => hk y hy (Nat.lt_succ_of_lt hy' : y < n + (m + 1))
    rw [List.range'_concat, Nat.one_mul, List.foldl_append, List.foldl_cons, List.foldl_nil,
      foldl_copies_of_ne f k hk', Function.update_apply]
    by_cases hlast : f x = f (n + m)
    · rw [if_pos hlast]
    · have hne : x ≠ n + m := fun h => hlast (by rw [h])
      rw [if_neg hlast, ih hk' (by omega)]

theorem replicateColumns_apply {nx ny x y : ℕ} (hnx : 1 ≤ nx) (hnx' : nx ≤ 4) (hx : x < 4)
    (hy : y < 4) (q : ℕ → α) :
    replicateColumns nx ny q (4 * y + x) =
      if y < ny then q (4 * y + min x (nx - 1)) else q (4 * y + x) := by
  suffices h : ∀ m ≤ 4, ∀ x < 4, (List.range m).foldl (fun q y =>
      if y < ny then
        (List.range' nx (4 - nx)).foldl
          (fun q x => Function.update q (4 * y + x) (q (4 * y + nx - 1))) q
      else q) q (4 * y + x) =
      if y < m ∧ y < ny then q (4 * y + min x (nx - 1)) else q (4 * y + x) by
    rw [replicateColumns, h 4 (Nat.le_refl 4) x hx]
    exact if_congr (and_iff_right hy) rfl rfl
  intro m hm
  induction m with
  | zero => exact fun x _ => (if_neg (by omega)).symm
  | succ m ih =>
    have ih := ih (by omega)
    intro x hx
    rw [List.range_succ, List.foldl_append, List.foldl_cons, List.foldl_nil]
    by_cases hmny : m < ny
    · rw [if_pos hmny]
      by_cases hrow : y = m ∧ nx ≤ x
      · obtain ⟨rfl, hxn⟩ := hrow
        have hlast : 4 * y + nx - 1 = 4 * y + (nx - 1) := by omega
        rw [foldl_copies (fun x => 4 * y + x) (fun x' _ _ => by omega) hxn (by omega), hlast,
          ih _ (by omega), if_neg (by omega), if_pos (by omega), Nat.min_eq_right (by omega)]
      · rw [foldl_copies_of_ne (fun x => 4 * m + x) _ (fun x' _ _ => by omega), ih x hx]
        by_cases hym : y = m
        · rw [if_neg (by omega), if_pos (by omega), Nat.min_eq_left (by omega)]
        · exact if_congr (by omega) rfl rfl
    · rw [if_neg hmny, ih x hx]
      exact if_congr (by omega) rfl rfl

theorem replicateRows_apply {ny x y : ℕ} (hny : 1 ≤ ny) (hny' : ny ≤ 4) (hx : x < 4) (hy : y < 4)
    (q : ℕ → α) : replicateRows ny q (4 * y + x) = q (4 * min y (ny - 1) + x) := by
  suffices h : ∀ m ≤ 4, ∀ y < 4, (List.range m).foldl (fun q x =>
      (List.range' ny (4 - ny)).foldl
        (fun q y => Function.update q (4 * y + x) (q (4 * (ny - 1) + x))) q) q (4 * y + x) =
      if x < m then q (4 * min y (ny - 1) + x) else q (4 * y + x) by
    rw [replicateRows, h 4 (Nat.le_refl 4) y hy, if_pos hx]
  intro m hm
  induction m with
  | zero => exact fun y _ => (if_neg (by omega)).symm
  | succ m ih =>
    have ih := ih (by omega)
    intro y hy
    rw [List.range_succ, List.foldl_append, List.foldl_cons, List.foldl_nil]
    by_cases hcolumn : x = m ∧ ny ≤ y
    · obtain ⟨rfl, hyn⟩ := hcolumn
      rw [foldl_copies (fun y => 4 * y + x) (fun y' _ _ => by omega) hyn (by omega),
        ih _ (by omega), if_neg (by omega), if_pos (by omega), Nat.min_eq_right (by omega)]
    · rw [foldl_copies_of_ne (fun y => 4 * y + m) _ (fun y' _ _ => by omega), ih y hy]
      by_cases hxm : x = m
      · rw [if_neg (by omega), if_pos (by omega), Nat.min_eq_left (by omega)]
      · exact if_congr (by omega) rfl rfl

/-! ## The number of blocks -/

def totalOf (n : ℕ → ℕ) : ℕ → ℕ
  | 0 => 1
  | d + 1 => uint (totalOf n d * (roundUp (uint (n d)) / 4))

/-- The sizes for which all blocks are launched. -/
def Fits (n : ℕ → ℕ) (d : ℕ) : Prop := (∀ a < d, n a ≤ 2 ^ 32 - 4) ∧ blocksOf n d < 2 ^ 32

theorem uint_le (x : ℕ) : uint x ≤ x := Nat.mod_le _ _

theorem uint_of_lt {x : ℕ} (h : x < 2 ^ 32) : uint x = x := Nat.mod_eq_of_lt h

theorem roundUp_eq {n : ℕ} (h : n ≤ 2 ^ 32 - 4) : roundUp (uint n) / 4 = (n + 3) / 4 := by
  rw [roundUp, uint, uint]
  omega

theorem roundUp_lt {n : ℕ} (h : 2 ^ 32 - 4 < n) : roundUp (uint n) / 4 < (n + 3) / 4 := by
  rw [roundUp, uint, uint]
  omega

theorem roundUp_le (n : ℕ) : roundUp (uint n) / 4 ≤ (n + 3) / 4 := by
  rcases Nat.lt_or_ge (2 ^ 32 - 4) n with h | h
  · exact (roundUp_lt h).le
  · exact (roundUp_eq h).le

section

variable {n : ℕ → ℕ}

theorem Fits.pred {d : ℕ} (hn : ∀ a < d + 1, 1 ≤ n a) (h : Fits n (d + 1)) : Fits n d := by
  have hd := hn d (Nat.lt_succ_self d)
  refine ⟨fun a ha => h.1 a (by omega), lt_of_le_of_lt ?_ h.2⟩
  rw [blocksOf]
  exact Nat.le_mul_of_pos_right _ (by omega)

theorem totalOf_le (n : ℕ → ℕ) (d : ℕ) : totalOf n d ≤ blocksOf n d := by
  induction d with
  | zero => exact Nat.le_refl 1
  | succ d ih => exact (uint_le _).trans (Nat.mul_le_mul ih (roundUp_le (n d)))

theorem totalOf_eq {d : ℕ} (hn : ∀ a < d, 1 ≤ n a) (h : Fits n d) : totalOf n d = blocksOf n d := by
  induction d with
  | zero => rfl
  | succ d ih =>
    have hpred := ih (fun a ha => hn a (by omega)) (h.pred hn)
    rw [totalOf, hpred, roundUp_eq (h.1 d (Nat.lt_succ_self d))]
    exact uint_of_lt h.2

/-- Otherwise some blocks are not launched. -/
theorem totalOf_lt {d : ℕ} (hn : ∀ a < d, 1 ≤ n a) (h : ¬ Fits n d) : totalOf n d < blocksOf n d := by
  induction d with
  | zero => exact absurd ⟨fun a ha => absurd ha (Nat.not_lt_zero a), Nat.one_lt_two_pow (by decide)⟩ h
  | succ d ih =>
    have hn' : ∀ a < d, 1 ≤ n a := fun a ha => hn a (by omega)
    have hd := hn d (Nat.lt_succ_self d)
    have hcount : 0 < (n d + 3) / 4 := by omega
    by_cases hfits : Fits n d
    · by_cases hsize : n d ≤ 2 ^ 32 - 4
      · -- the product of the numbers of blocks overflows
        have hbig : 2 ^ 32 ≤ blocksOf n (d + 1) := by
          by_contra hlt
          refine h ⟨fun a ha => ?_, Nat.lt_of_not_le hlt⟩
          rcases Nat.lt_succ_iff_lt_or_eq.mp ha with ha | rfl
          · exact hfits.1 a ha
          · exact hsize
        exact lt_of_lt_of_le (Nat.mod_lt _ (by decide)) hbig
      · refine lt_of_le_of_lt (uint_le _) ?_
        exact Nat.mul_lt_mul_of_le_of_lt (totalOf_le n d) (roundUp_lt (Nat.lt_of_not_le hsize))
          (blocksOf_pos hn')
    · refine lt_of_le_of_lt (uint_le _) ?_
      exact Nat.mul_lt_mul_of_lt_of_le (ih hn' hfits) (roundUp_le (n d)) hcount

variable (stride : ℕ → ℤ)

theorem encode1dParams_totalBlocks :
    (encode1dParams (n 0) (stride 0)).totalBlocks = totalOf n 1 := by
  have hdim : uint (n 0) < 2 ^ 32 := Nat.mod_lt _ (by decide)
  rw [encode1dParams, totalOf, totalOf, Nat.one_mul, roundUp]
  generalize uint (n 0) = dim at hdim
  dsimp only
  by_cases h : dim % 4 = 0
  · rw [if_neg (not_not_intro h), uint, uint]
    omega
  · rw [if_pos h, uint, uint, uint]
    omega

theorem encode2dParams_totalBlocks :
    (encode2dParams (n 0) (n 1) (stride 0) (stride 1)).totalBlocks = totalOf n 2 := by
  have hlt : roundUp (uint (n 0)) / 4 < 2 ^ 32 := by
    rw [roundUp, uint]
    omega
  rw [encode2dParams, totalOf, totalOf, totalOf, Nat.one_mul, uint_of_lt hlt]

theorem encode3dParams_totalBlocks :
    (encode3dParams (n 0) (n 1) (n 2) (stride 0) (stride 1) (stride 2)).totalBlocks =
      totalOf n 3 := by
  have hlt : roundUp (uint (n 0)) / 4 < 2 ^ 32 := by
    rw [roundUp, uint]
    omega
  rw [encode3dParams, totalOf, totalOf, totalOf, totalOf, Nat.one_mul, uint_of_lt hlt]

/-! ## The values of the blocks -/

theorem cornerOf_one (b : ℕ) : cornerOf n 1 b 0 = 4 * b := by
  rw [cornerOf, Function.update_self, blocksOf, Nat.div_one]

theorem cornerOf_two (b : ℕ) : cornerOf n 2 b 0 = 4 * (b % ((n 0 + 3) / 4)) ∧
    cornerOf n 2 b 1 = 4 * (b / ((n 0 + 3) / 4)) := by
  have hcount : blocksOf n 1 = (n 0 + 3) / 4 := by rw [blocksOf, blocksOf, Nat.one_mul]
  rw [cornerOf, Function.update_self, Function.update_of_ne (by decide), cornerOf_one, hcount]
  exact ⟨rfl, rfl⟩

theorem cornerOf_three (b : ℕ) : cornerOf n 3 b 0 = 4 * (b % ((n 0 + 3) / 4)) ∧
    cornerOf n 3 b 1 = 4 * (b / ((n 0 + 3) / 4) % ((n 1 + 3) / 4)) ∧
    cornerOf n 3 b 2 = 4 * (b / ((n 0 + 3) / 4 * ((n 1 + 3) / 4))) := by
  have hcount : blocksOf n 2 = (n 0 + 3) / 4 * ((n 1 + 3) / 4) := by
    rw [blocksOf, blocksOf, blocksOf, Nat.one_mul]
  rw [cornerOf, Function.update_self, Function.update_of_ne (by decide),
    Function.update_of_ne (by decide), (cornerOf_two _).1, (cornerOf_two _).2, hcount,
    Nat.mod_mul_right_mod, Nat.mod_mul_right_div_self]
  exact ⟨rfl, rfl, rfl⟩

/-- In one dimension no `uint` overflows. -/
theorem uint_corner {m o : ℕ} (hm : m ≤ 2 ^ 32 - 4) (ho : o < m) :
    uint o = o ∧ (∀ x ≤ 4, uint (o + x) = o + x) ∧ uintSub m o = m - o :=
  ⟨uint_of_lt (by omega), fun x hx => uint_of_lt (by omega), uintSub_eq (by omega) ho.le⟩

variable [Zero α] (src : ℤ → α)

theorem place_one {i : ℕ} (hi : i < 4 ^ 1) : place i 0 = i := by
  rw [place, pow_zero, Nat.div_one]
  exact Nat.mod_eq_of_lt hi

theorem encode1dBlock_eq (hn : ∀ a < 1, 1 ≤ n a) (hfit : Fits n 1) {b : ℕ} (hb : b < blocksOf n 1) :
    ∃ q, encode1dBlock (encode1dParams (n 0) (stride 0)) src b = some q ∧ ∀ i < 4 ^ 1,
      q i = src (padPlace n (cornerOf n 1 b) i 0 * int (stride 0)) := by
  have hsize := hfit.1 0 Nat.one_pos
  have ho := (cornerOf_lt n hb Nat.one_pos).1
  obtain ⟨hx, hx4, hsub⟩ := uint_corner hsize ho
  have hdim : uint (n 0) = n 0 := uint_of_lt (by omega)
  have hlaunch : ¬ (encode1dParams (n 0) (stride 0)).totalBlocks ≤ b := by
    rw [encode1dParams_totalBlocks, totalOf_eq hn hfit]
    exact Nat.not_le.mpr hb
  rw [encode1dBlock, if_neg hlaunch]
  have hp : (encode1dParams (n 0) (stride 0)).dim = n 0 ∧
      (encode1dParams (n 0) (stride 0)).sx = int (stride 0) := ⟨hdim, rfl⟩
  rw [hp.1, hp.2]
  simp only [padPlace]
  rw [cornerOf_one] at *
  rw [Nat.mul_comm b 4, hx, hx4 4 (Nat.le_refl 4), hsub]
  generalize 4 * b = o at *
  have hvalue : ∀ k : ℕ, src (o * int (stride 0) + k * int (stride 0)) =
      src ((o + k : ℕ) * int (stride 0)) := fun k => by
    push_cast
    rw [add_mul]
  simp only [hvalue]
  by_cases hpart : n 0 < o + 4
  · rw [if_pos hpart, Nat.min_eq_left (by omega)]
    obtain ⟨m, hm⟩ : ∃ m, m = n 0 - o := ⟨_, rfl⟩
    have hm1 : 1 ≤ m := by omega
    have hm3 : m ≤ 3 := by omega
    rw [← hm]
    interval_cases m
    all_goals
      refine ⟨_, rfl, fun i hi => ?_⟩
      have hi : i < 4 := hi
      interval_cases i <;> simp [padIndex, place]
  · rw [if_neg hpart, Nat.min_eq_right (by omega)]
    exact ⟨_, rfl, fun i hi => by rw [padIndex_of_lt (place_lt i 0), place_one hi]⟩

/-- The kernel for two dimensions repeats the last column and row. -/
theorem encode2dBlock_apply (p : Codec2dParams) {b x0 y0 : ℕ} (hlaunch : b < p.totalBlocks)
    (hx0 : b % p.bx * 4 = x0) (hy0 : b / p.bx * 4 = y0) (hx : x0 < p.nx) (hy : y0 < p.ny)
    (hnx : p.nx ≤ 2 ^ 32 - 4) (hny : p.ny ≤ 2 ^ 32 - 4) :
    ∃ q, encode2dBlock p src b = some q ∧ ∀ x < 4, ∀ y < 4, q (4 * y + x) =
      src ((x0 + min x (min (p.nx - x0) 4 - 1) : ℕ) * p.sx +
        (y0 + min y (min (p.ny - y0) 4 - 1) : ℕ) * p.sy) := by
  obtain ⟨hux, hux4, hsubx⟩ := uint_corner hnx hx
  obtain ⟨huy, huy4, hsuby⟩ := uint_corner hny hy
  have hvalue : ∀ x y : ℕ, src (x0 * p.sx + y0 * p.sy + x * p.sx + y * p.sy) =
      src ((x0 + x : ℕ) * p.sx + (y0 + y : ℕ) * p.sy) := fun x y => by
    congr 1
    push_cast
    ring
  have hplace : ∀ x < 4, ∀ y, (4 * y + x) % 4 = x ∧ (4 * y + x) / 4 = y := fun x hx y => by omega
  rw [encode2dBlock, if_neg (Nat.not_le.mpr hlaunch)]
  dsimp only
  rw [hx0, hy0, hux, huy, hux4 4 (Nat.le_refl 4), huy4 4 (Nat.le_refl 4), hsubx, hsuby]
  split
  · next hfull =>
    refine ⟨_, rfl, fun x hx y hy => ?_⟩
    rw [(hplace x hx y).1, (hplace x hx y).2, hvalue, Nat.min_eq_left (by omega),
      Nat.min_eq_left (by omega)]
  · have hextent : ∀ m o, o < m → (if m < o + 4 then m - o else 4) = min (m - o) 4 := fun m o h => by
      split_ifs <;> omega
    refine ⟨_, rfl, fun x hx y hy => ?_⟩
    rw [hextent _ _ ‹x0 < p.nx›, hextent _ _ ‹y0 < p.ny›,
      replicateRows_apply (by omega) (by omega) hx hy,
      replicateColumns_apply (by omega) (by omega) hx (by omega), if_pos (by omega),
      (hplace _ (by omega) _).1, (hplace _ (by omega) _).2, hux4 _ (by omega), huy4 _ (by omega),
      if_pos (by omega), hvalue]

theorem span_two (c : ℕ → ℕ) : span stride 2 c = c 0 * stride 0 + c 1 * stride 1 := by
  rw [span, span, span, zero_add]

theorem place_two {i : ℕ} (hi : i < 4 ^ 2) :
    i = 4 * place i 1 + place i 0 := by
  rw [place, place, pow_zero, pow_one, Nat.div_one]
  omega

/-- The coordinates of the element that the kernel for two dimensions copies to place `i`. -/
def lastPlace (n o : ℕ → ℕ) (i a : ℕ) : ℕ := o a + min (place i a) (min (n a - o a) 4 - 1)

theorem encode2dBlock_eq (hn : ∀ a < 2, 1 ≤ n a) (hfit : Fits n 2) {b : ℕ}
    (hb : b < blocksOf n 2) :
    ∃ q, encode2dBlock (encode2dParams (n 0) (n 1) (stride 0) (stride 1)) src b = some q ∧
      ∀ i < 4 ^ 2, q i = src (span stride 2 (lastPlace n (cornerOf n 2 b) i)) := by
  obtain ⟨hsx, hsy⟩ : n 0 ≤ 2 ^ 32 - 4 ∧ n 1 ≤ 2 ^ 32 - 4 :=
    ⟨hfit.1 0 (by decide), hfit.1 1 (by decide)⟩
  have hnx : (encode2dParams (n 0) (n 1) (stride 0) (stride 1)).nx = n 0 := uint_of_lt (by omega)
  have hny : (encode2dParams (n 0) (n 1) (stride 0) (stride 1)).ny = n 1 := uint_of_lt (by omega)
  obtain ⟨q, hq, hvalues⟩ := encode2dBlock_apply src
    (encode2dParams (n 0) (n 1) (stride 0) (stride 1)) (b := b) (by
      rw [encode2dParams_totalBlocks, totalOf_eq hn hfit]
      exact hb)
    (show _ = cornerOf n 2 b 0 by
      rw [(cornerOf_two b).1, encode2dParams, roundUp_eq hsx, Nat.mul_comm])
    (show _ = cornerOf n 2 b 1 by
      rw [(cornerOf_two b).2, encode2dParams, roundUp_eq hsx, Nat.mul_comm])
    (by rw [hnx]; exact (cornerOf_lt n hb (by decide)).1)
    (by rw [hny]; exact (cornerOf_lt n hb (by decide)).1) (by rw [hnx]; exact hsx)
    (by rw [hny]; exact hsy)
  refine ⟨q, hq, fun i hi => ?_⟩
  have h := hvalues (place i 0) (place_lt i 0) (place i 1) (place_lt i 1)
  rw [← place_two hi, hnx, hny] at h
  rw [h, span_two]
  rfl

/-- The kernel for three dimensions fills in zeros. -/
theorem encode3dBlock_apply (p : Codec3dParams) {b x0 y0 z0 : ℕ} (hlaunch : b < p.totalBlocks)
    (hx0 : b % p.bx * 4 = x0) (hy0 : b / p.bx % p.by' * 4 = y0)
    (hz0 : b / uint (p.bx * p.by') * 4 = z0) (hx : x0 < p.nx) (hy : y0 < p.ny) (hz : z0 < p.nz)
    (hnx : p.nx ≤ 2 ^ 32 - 4) (hny : p.ny ≤ 2 ^ 32 - 4) (hnz : p.nz ≤ 2 ^ 32 - 4) :
    ∃ q, encode3dBlock p src b = some q ∧ ∀ x < 4, ∀ y < 4, ∀ z < 4, q (x + 4 * (y + 4 * z)) =
      if x0 + x < p.nx ∧ y0 + y < p.ny ∧ z0 + z < p.nz then
        src ((x0 + x : ℕ) * p.sx + (y0 + y : ℕ) * p.sy + (z0 + z : ℕ) * p.sz)
      else 0 := by
  obtain ⟨hux, hux4, -⟩ := uint_corner hnx hx
  obtain ⟨huy, huy4, -⟩ := uint_corner hny hy
  obtain ⟨huz, huz4, -⟩ := uint_corner hnz hz
  have hvalue : ∀ x y z : ℕ, src (x0 * p.sx + y0 * p.sy + z0 * p.sz + x * p.sx + y * p.sy + z * p.sz) =
      src ((x0 + x : ℕ) * p.sx + (y0 + y : ℕ) * p.sy + (z0 + z : ℕ) * p.sz) := fun x y z => by
    congr 1
    push_cast
    ring
  have hplace : ∀ x < 4, ∀ y < 4, ∀ z, (x + 4 * (y + 4 * z)) % 4 = x ∧
      (x + 4 * (y + 4 * z)) / 4 % 4 = y ∧ (x + 4 * (y + 4 * z)) / 16 = z := fun x hx y hy z => by
    omega
  rw [encode3dBlock, if_neg (Nat.not_le.mpr hlaunch)]
  dsimp only
  rw [hx0, hy0, hz0, hux, huy, huz, hux4 4 (Nat.le_refl 4), huy4 4 (Nat.le_refl 4),
    huz4 4 (Nat.le_refl 4)]
  split
  · next hfull =>
    refine ⟨_, rfl, fun x hx y hy z hz => ?_⟩
    obtain ⟨hpx, hpy, hpz⟩ := hplace x hx y hy z
    rw [hpx, hpy, hpz, hvalue, if_pos (by omega)]
  · refine ⟨_, rfl, fun x hx y hy z hz => ?_⟩
    obtain ⟨hpx, hpy, hpz⟩ := hplace x hx y hy z
    rw [hpx, hpy, hpz, hvalue, hux4 x hx.le, huy4 y hy.le, huz4 z hz.le]

theorem span_three (c : ℕ → ℕ) :
    span stride 3 c = c 0 * stride 0 + c 1 * stride 1 + c 2 * stride 2 := by
  rw [span, span_two]

theorem place_three {i : ℕ} (hi : i < 4 ^ 3) :
    i = place i 0 + 4 * (place i 1 + 4 * place i 2) := by
  have hpow : 4 ^ 2 = 16 := by decide
  rw [place, place, place, pow_zero, pow_one, Nat.div_one, hpow]
  omega

theorem encode3dBlock_eq (hn : ∀ a < 3, 1 ≤ n a) (hfit : Fits n 3) {b : ℕ}
    (hb : b < blocksOf n 3) :
    ∃ q, encode3dBlock (encode3dParams (n 0) (n 1) (n 2) (stride 0) (stride 1) (stride 2)) src b =
        some q ∧
      ∀ i < 4 ^ 3, q i = if ∀ a < 3, cornerOf n 3 b a + place i a < n a then
        src (span stride 3 fun a => cornerOf n 3 b a + place i a) else 0 := by
  obtain ⟨hsx, hsy, hsz⟩ : n 0 ≤ 2 ^ 32 - 4 ∧ n 1 ≤ 2 ^ 32 - 4 ∧ n 2 ≤ 2 ^ 32 - 4 :=
    ⟨hfit.1 0 (by decide), hfit.1 1 (by decide), hfit.1 2 (by decide)⟩
  obtain ⟨p, hp⟩ : ∃ p, p = encode3dParams (n 0) (n 1) (n 2) (stride 0) (stride 1) (stride 2) :=
    ⟨_, rfl⟩
  have hnx : p.nx = n 0 := by rw [hp]; exact uint_of_lt (by omega)
  have hny : p.ny = n 1 := by rw [hp]; exact uint_of_lt (by omega)
  have hnz : p.nz = n 2 := by rw [hp]; exact uint_of_lt (by omega)
  have hbx : p.bx = (n 0 + 3) / 4 := by rw [hp]; exact roundUp_eq hsx
  have hby : p.by' = (n 1 + 3) / 4 := by rw [hp]; exact roundUp_eq hsy
  have hplane : (n 0 + 3) / 4 * ((n 1 + 3) / 4) < 2 ^ 32 := by
    have hpred := (hfit.pred hn).2
    rwa [blocksOf, blocksOf, blocksOf, Nat.one_mul] at hpred
  obtain ⟨hx, hy, hz⟩ := cornerOf_three (n := n) b
  obtain ⟨q, hq, hvalues⟩ := encode3dBlock_apply src p (b := b) (by
      rw [hp, encode3dParams_totalBlocks, totalOf_eq hn hfit]
      exact hb)
    (show _ = cornerOf n 3 b 0 by rw [hx, hbx, Nat.mul_comm])
    (show _ = cornerOf n 3 b 1 by rw [hy, hbx, hby, Nat.mul_comm])
    (show _ = cornerOf n 3 b 2 by rw [hz, hbx, hby, uint_of_lt hplane, Nat.mul_comm])
    (by rw [hnx]; exact (cornerOf_lt n hb (by decide)).1)
    (by rw [hny]; exact (cornerOf_lt n hb (by decide)).1)
    (by rw [hnz]; exact (cornerOf_lt n hb (by decide)).1)
    (by rw [hnx]; exact hsx) (by rw [hny]; exact hsy) (by rw [hnz]; exact hsz)
  rw [hp] at hq
  refine ⟨q, hq, fun i hi => ?_⟩
  have h := hvalues (place i 0) (place_lt i 0) (place i 1) (place_lt i 1) (place i 2) (place_lt i 2)
  have hinside : (∀ a < 3, cornerOf n 3 b a + place i a < n a) ↔
      cornerOf n 3 b 0 + place i 0 < n 0 ∧ cornerOf n 3 b 1 + place i 1 < n 1 ∧
        cornerOf n 3 b 2 + place i 2 < n 2 := by
    refine ⟨fun h => ⟨h 0 (by decide), h 1 (by decide), h 2 (by decide)⟩, fun h a ha => ?_⟩
    interval_cases a
    · exact h.1
    · exact h.2.1
    · exact h.2.2
  rw [← place_three hi, hnx, hny, hnz] at h
  rw [h, if_congr hinside rfl rfl, span_three, hp]
  rfl

end

/-! ## Agreement with the serial path -/

section

variable [Zero α] {n : ℕ → ℕ} {d : ℕ} {gathered : ℕ → Option (ℕ → α)} {src : ℤ → α} {stride : ℕ → ℤ}

/-- The kernel gathers the blocks of the serial path, in the same order. -/
def SameBlocks (d : ℕ) (gathered : ℕ → Option (ℕ → α)) (src : ℤ → α) (n : ℕ → ℕ) (stride : ℕ → ℤ) :
    Prop :=
  ∀ b o, (corners n d)[b]? = some o →
    ∃ q, gathered b = some q ∧ ∀ i < 4 ^ d, q i = compressBlock d src n stride o i

theorem sameBlocks_iff_values {value : ℕ → ℕ → α} (h : ∀ b < blocksOf n d, ∃ q,
      gathered b = some q ∧ ∀ i < 4 ^ d, q i = value b i) :
    SameBlocks d gathered src n stride ↔ ∀ b < blocksOf n d, ∀ i < 4 ^ d,
      value b i = src (span stride d (padPlace n (cornerOf n d b) i)) := by
  have hserial := fun b (hb : b < blocksOf n d) i (hi : i < 4 ^ d) =>
    compressBlock_apply src stride (fun a ha => (cornerOf_lt n hb ha).1) hi
  constructor
  · intro hsame b hb i hi
    obtain ⟨q, hq, hvalue⟩ := h b hb
    obtain ⟨q', hq', heq⟩ := hsame b _ (getElem?_corners n hb)
    rw [hq] at hq'
    cases hq'
    rw [← hserial b hb i hi, ← heq i hi, hvalue i hi]
  · intro hvalues b o ho
    have hb : b < blocksOf n d := by
      rw [← length_corners]
      exact (List.getElem?_eq_some_iff.mp ho).1
    obtain rfl := Option.some.inj ((getElem?_corners n hb).symm.trans ho)
    obtain ⟨q, hq, hvalue⟩ := h b hb
    exact ⟨q, hq, fun i hi => by rw [hvalue i hi, hserial b hb i hi, hvalues b hb i hi]⟩

/-- A block that is not launched is not gathered. -/
theorem SameBlocks.fits (hn : ∀ a < d, 1 ≤ n a) (h : SameBlocks d gathered src n stride)
    (hnone : gathered (totalOf n d) = none) : Fits n d := by
  by_contra hfit
  obtain ⟨q, hq, -⟩ := h _ _ (getElem?_corners n (totalOf_lt hn hfit))
  rw [hnone] at hq
  cases hq

/-- The elements of a line that `pad_block` copies. -/
def PadSource (m x : ℕ) : Prop := m % 4 ≠ 0 ∧ (x = m / 4 * 4 ∨ m % 4 = 2 ∧ x = m / 4 * 4 + 1)

section

variable {o : ℕ → ℕ} {i a : ℕ} (ho : o a < n a) (hdvd : 4 ∣ o a)

include ho

theorem padPlace_lt (i : ℕ) : padPlace n o i a < n a := by
  have h := padIndex_lt (show 0 < min (n a - o a) 4 by omega) (place i a)
  rw [padPlace]
  omega

theorem lastPlace_lt (i : ℕ) : lastPlace n o i a < n a := by
  rw [lastPlace]
  omega

theorem padPlace_of_lt (h : o a + place i a < n a) : padPlace n o i a = o a + place i a := by
  have hplace := place_lt i a
  rw [padPlace, padIndex_of_lt (by omega)]

theorem lastPlace_of_lt (h : o a + place i a < n a) : lastPlace n o i a = o a + place i a := by
  have hplace := place_lt i a
  rw [lastPlace]
  omega

include hdvd

/-- The last places of a line: the kernel repeats the last value, `pad_block` the first one. -/
theorem lastPlace_eq (i : ℕ) : lastPlace n o i a = padPlace n o i a ∨
    n a % 4 ≠ 0 ∧ lastPlace n o i a = n a - 1 ∧ padPlace n o i a = n a / 4 * 4 := by
  have hplace := place_lt i a
  rw [lastPlace, padPlace, padIndex]
  split_ifs <;> omega

theorem padSource_padPlace (hout : n a ≤ o a + place i a) : PadSource (n a) (padPlace n o i a) := by
  have hplace := place_lt i a
  rw [PadSource, padPlace, padIndex]
  split_ifs <;> omega

end

theorem sameBlocks_one (hn : ∀ a < 1, 1 ≤ n a) :
    SameBlocks 1 (encode1dBlock (encode1dParams (n 0) (stride 0)) src) src n stride ↔
      Fits n 1 ∧ ∀ x < n 0, src (x * int (stride 0)) = src (x * stride 0) := by
  have hspan : ∀ c : ℕ → ℕ, span stride 1 c = c 0 * stride 0 := fun c => by rw [span, span, zero_add]
  constructor
  · intro h
    have hfit := h.fits hn (by
      rw [encode1dBlock, if_pos]
      rw [encode1dParams_totalBlocks])
    refine ⟨hfit, fun x hx => ?_⟩
    rw [sameBlocks_iff_values fun b hb => encode1dBlock_eq stride src hn hfit hb] at h
    obtain ⟨b, hb, hcorner⟩ := exists_corner n (d := 1) (c := fun _ => x) fun a ha => by
      obtain rfl : a = 0 := by omega
      exact hx
    have hcorner := hcorner 0 Nat.one_pos
    have hplace := place_one (show x % 4 < 4 ^ 1 from Nat.mod_lt x (by decide))
    have hvalue := h b hb (x % 4) (Nat.mod_lt x (by decide))
    have hsum : x / 4 * 4 + x % 4 = x := Nat.div_add_mod' x 4
    rwa [hspan, padPlace_of_lt (by omega) (by omega), hcorner, hplace, hsum] at hvalue
  · rintro ⟨hfit, hcond⟩
    rw [sameBlocks_iff_values fun b hb => encode1dBlock_eq stride src hn hfit hb]
    intro b hb i hi
    rw [hspan]
    exact hcond _ (padPlace_lt (cornerOf_lt n hb Nat.one_pos).1 i)

theorem sameBlocks_two (hn : ∀ a < 2, 1 ≤ n a) :
    SameBlocks 2 (encode2dBlock (encode2dParams (n 0) (n 1) (stride 0) (stride 1)) src) src n
        stride ↔
      Fits n 2 ∧ ∀ c : ℕ → ℕ, (∀ a < 2, c a < n a) → ∀ a < 2, n a % 4 ≠ 0 →
        src (span stride 2 (Function.update c a (n a - 1))) =
          src (span stride 2 (Function.update c a (n a / 4 * 4))) := by
  constructor
  · intro h
    have hfit := h.fits hn (by
      rw [encode2dBlock, if_pos]
      rw [encode2dParams_totalBlocks])
    refine ⟨hfit, fun c hc a ha hmod => ?_⟩
    rw [sameBlocks_iff_values fun b hb => encode2dBlock_eq stride src hn hfit hb] at h
    -- the last place of the line in its last block
    obtain ⟨b, hb, hcorner⟩ := exists_corner n (c := Function.update c a (n a / 4 * 4))
      fun a' ha' => by
        rcases eq_or_ne a' a with rfl | hne
        · rw [Function.update_self]
          omega
        · rw [Function.update_of_ne hne]
          exact hc a' ha'
    obtain ⟨i, hi, hplace⟩ := exists_place (d := 2) (x := Function.update (fun a' => c a' % 4) a 3)
      fun a' ha' => by
        rcases eq_or_ne a' a with rfl | hne
        · rw [Function.update_self]
          decide
        · rw [Function.update_of_ne hne]
          exact Nat.mod_lt _ (by decide)
    have hself : cornerOf n 2 b a = n a / 4 * 4 ∧ place i a = 3 := by
      rw [hcorner a ha, hplace a ha, Function.update_self, Function.update_self]
      omega
    have hother : ∀ a' < 2, a' ≠ a → cornerOf n 2 b a' + place i a' = c a' := fun a' ha' hne => by
      rw [hcorner a' ha', hplace a' ha', Function.update_of_ne hne, Function.update_of_ne hne]
      exact Nat.div_add_mod' (c a') 4
    have hlast : span stride 2 (lastPlace n (cornerOf n 2 b) i) =
        span stride 2 (Function.update c a (n a - 1)) := span_congr stride fun a' ha' => by
      rcases eq_or_ne a' a with rfl | hne
      · rw [Function.update_self, lastPlace, hself.1, hself.2]
        omega
      · have hlt := hc a' ha'
        have hsum := hother a' ha' hne
        rw [Function.update_of_ne hne, lastPlace_of_lt (by omega) (by omega), hsum]
    have hfirst : span stride 2 (padPlace n (cornerOf n 2 b) i) =
        span stride 2 (Function.update c a (n a / 4 * 4)) := span_congr stride fun a' ha' => by
      rcases eq_or_ne a' a with rfl | hne
      · rw [Function.update_self, padPlace, hself.1, hself.2, padIndex]
        split_ifs <;> omega
      · have hlt := hc a' ha'
        have hsum := hother a' ha' hne
        rw [Function.update_of_ne hne, padPlace_of_lt (by omega) (by omega), hsum]
    have hvalue := h b hb i hi
    rwa [hlast, hfirst] at hvalue
  · rintro ⟨hfit, hcond⟩
    rw [sameBlocks_iff_values fun b hb => encode2dBlock_eq stride src hn hfit hb]
    intro b hb i hi
    have ho := fun a (ha : a < 2) => cornerOf_lt n hb ha
    have hstep : ∀ c : ℕ → ℕ, (∀ a < 2, c a < n a) → ∀ a < 2,
        src (span stride 2 (Function.update c a (lastPlace n (cornerOf n 2 b) i a))) =
          src (span stride 2 (Function.update c a (padPlace n (cornerOf n 2 b) i a))) := by
      intro c hc a ha
      obtain heq | ⟨hmod, hlast, hfirst⟩ := lastPlace_eq (ho a ha).1 (ho a ha).2 i
      · rw [heq]
      · rw [hlast, hfirst]
        exact hcond c hc a ha hmod
    -- first the columns, then the rows
    have hcolumns := hstep (lastPlace n (cornerOf n 2 b) i) (fun a ha => lastPlace_lt (ho a ha).1 i)
      0 (by decide)
    have hrows := hstep
      (Function.update (lastPlace n (cornerOf n 2 b) i) 0 (padPlace n (cornerOf n 2 b) i 0))
      (fun a ha => by
        rcases eq_or_ne a 0 with rfl | hne
        · rw [Function.update_self]
          exact padPlace_lt (ho 0 ha).1 i
        · rw [Function.update_of_ne hne]
          exact lastPlace_lt (ho a ha).1 i) 1 (by decide)
    rw [Function.update_eq_self] at hcolumns
    rw [Function.update_comm Nat.zero_ne_one, Function.update_eq_self] at hrows
    refine hcolumns.trans (hrows.trans (congrArg src (span_congr stride fun a ha => ?_)))
    obtain rfl | rfl : a = 0 ∨ a = 1 := by omega
    · rw [Function.update_of_ne Nat.zero_ne_one, Function.update_self]
    · rw [Function.update_self]

theorem sameBlocks_three (hn : ∀ a < 3, 1 ≤ n a) :
    SameBlocks 3 (encode3dBlock
        (encode3dParams (n 0) (n 1) (n 2) (stride 0) (stride 1) (stride 2)) src) src n stride ↔
      Fits n 3 ∧ ∀ c : ℕ → ℕ, (∀ a < 3, c a < n a) → (∃ a < 3, PadSource (n a) (c a)) →
        src (span stride 3 c) = 0 := by
  constructor
  · intro h
    have hfit := h.fits hn (by
      rw [encode3dBlock, if_pos]
      rw [encode3dParams_totalBlocks])
    refine ⟨hfit, ?_⟩
    rintro c hc ⟨a, ha, hsource⟩
    rw [sameBlocks_iff_values fun b hb => encode3dBlock_eq stride src hn hfit hb] at h
    -- a place outside the array that the element is copied to
    obtain ⟨b, hb, hcorner⟩ := exists_corner n hc
    obtain ⟨y, hy, hout, hpad⟩ : ∃ y < 4, n a ≤ c a / 4 * 4 + y ∧
        c a / 4 * 4 + padIndex (min (n a - c a / 4 * 4) 4) y = c a := by
      have hlt := hc a ha
      obtain ⟨hm, hx | ⟨htwo, hx⟩⟩ := hsource
      · refine ⟨3, by decide, by omega, ?_⟩
        rw [padIndex]
        split_ifs <;> omega
      · refine ⟨2, by decide, by omega, ?_⟩
        rw [padIndex]
        split_ifs <;> omega
    obtain ⟨i, hi, hplace⟩ := exists_place (d := 3) (x := Function.update (fun a' => c a' % 4) a y)
      fun a' ha' => by
        rcases eq_or_ne a' a with rfl | hne
        · rw [Function.update_self]
          exact hy
        · rw [Function.update_of_ne hne]
          exact Nat.mod_lt _ (by decide)
    have hvalue := h b hb i hi
    rw [if_neg fun hin => by
      have hlt := hin a ha
      rw [hcorner a ha, hplace a ha, Function.update_self] at hlt
      omega] at hvalue
    rw [hvalue]
    refine congrArg src (span_congr stride fun a' ha' => ?_)
    rcases eq_or_ne a' a with rfl | hne
    · rw [padPlace, hcorner a' ha', hplace a' ha', Function.update_self, hpad]
    · have hlt := hc a' ha'
      have hsum : cornerOf n 3 b a' + place i a' = c a' := by
        rw [hcorner a' ha', hplace a' ha', Function.update_of_ne hne]
        exact Nat.div_add_mod' (c a') 4
      rw [padPlace_of_lt (by omega) (by omega), hsum]
  · rintro ⟨hfit, hcond⟩
    rw [sameBlocks_iff_values fun b hb => encode3dBlock_eq stride src hn hfit hb]
    intro b hb i hi
    have ho := fun a (ha : a < 3) => cornerOf_lt n hb ha
    by_cases hin : ∀ a < 3, cornerOf n 3 b a + place i a < n a
    · rw [if_pos hin]
      refine congrArg src (span_congr stride fun a ha => ?_)
      rw [padPlace_of_lt (ho a ha).1 (hin a ha)]
    · rw [if_neg hin]
      push Not at hin
      obtain ⟨a, ha, hout⟩ := hin
      exact (hcond _ (fun a ha => padPlace_lt (ho a ha).1 i)
        ⟨a, ha, padSource_padPlace (ho a ha).1 (ho a ha).2 hout⟩).symm

/-- The kernels gather the blocks of the serial path if and only if all blocks are launched and, in
one dimension, the stride is kept by the conversion to `int`, in two dimensions the last element of
a line equals the first one of its last block, in three dimensions what is copied is zero. -/
theorem metal_gather_iff (hn : ∀ a < 3, 1 ≤ n a) (stride : ℕ → ℤ) (src : ℤ → α) :
    (SameBlocks 1 (encode1dBlock (encode1dParams (n 0) (stride 0)) src) src n stride ↔
      Fits n 1 ∧ ∀ x < n 0, src (x * int (stride 0)) = src (x * stride 0)) ∧
    (SameBlocks 2 (encode2dBlock (encode2dParams (n 0) (n 1) (stride 0) (stride 1)) src) src n
        stride ↔
      Fits n 2 ∧ ∀ c : ℕ → ℕ, (∀ a < 2, c a < n a) → ∀ a < 2, n a % 4 ≠ 0 →
        src (span stride 2 (Function.update c a (n a - 1))) =
          src (span stride 2 (Function.update c a (n a / 4 * 4)))) ∧
    (SameBlocks 3 (encode3dBlock
        (encode3dParams (n 0) (n 1) (n 2) (stride 0) (stride 1) (stride 2)) src) src n stride ↔
      Fits n 3 ∧ ∀ c : ℕ → ℕ, (∀ a < 3, c a < n a) → (∃ a < 3, PadSource (n a) (c a)) →
        src (span stride 3 c) = 0) :=
  ⟨sameBlocks_one fun a ha => hn a (by omega), sameBlocks_two fun a ha => hn a (by omega),
    sameBlocks_three hn⟩

end

def numbers (k : ℤ) : BitVec 32 := BitVec.ofInt 32 (k + 1)

/-- A row of two elements in two dimensions, and one element in three dimensions. -/
theorem metal_gather_differs :
    ¬ SameBlocks 2 (encode2dBlock (encode2dParams 2 1 1 1) numbers) numbers
        (Function.update (fun _ => 1) 0 2) (fun _ => 1) ∧
      ¬ SameBlocks 3 (encode3dBlock (encode3dParams 1 1 1 1 1 1) numbers) numbers (fun _ => 1)
        (fun _ => 1) := by
  constructor
  · intro h
    have hcond := ((@sameBlocks_two _ _ (Function.update (fun _ => 1) 0 2) numbers (fun _ => 1)
      (fun a ha => by interval_cases a <;> decide)).mp h).2
    exact absurd (hcond (fun _ => 0) (fun a ha => by interval_cases a <;> decide) 0 (by decide)
      (by decide)) (by decide)
  · intro h
    have hcond := ((@sameBlocks_three _ _ (fun _ => 1) numbers (fun _ => 1)
      (fun a ha => Nat.le_refl 1)).mp h).2
    exact absurd (hcond (fun _ => 0) (fun a ha => Nat.one_pos)
      ⟨0, by decide, by decide, .inl rfl⟩) (by decide)

/-- Five by eight elements. -/
theorem metal_gather_five :
    SameBlocks 2 (encode2dBlock (encode2dParams 5 8 1 5) numbers) numbers
      (Function.update (fun _ => 8) 0 5) (Function.update (fun _ => 5) 0 1) := by
  refine (metal_gather_iff (n := Function.update (fun _ => 8) 0 5) (fun a ha => ?_)
    (Function.update (fun _ => 5) 0 1) numbers).2.1.mpr ⟨⟨fun a ha => ?_, by decide⟩, ?_⟩
  · interval_cases a <;> decide
  · interval_cases a <;> decide
  · intro c hc a ha hmod
    interval_cases a
    · rfl
    · exact absurd rfl hmod

end Zfp.Metal

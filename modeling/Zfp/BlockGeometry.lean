import Mathlib.Algebra.Order.Ring.Nat
import Mathlib.Data.BitVec
import Mathlib.Data.Nat.Bitwise
import Mathlib.Logic.Function.Basic
import Mathlib.Tactic.Ring

/-!
# Blocks of a 3D array

The partition of a 3D array in blocks of `4 * 4 * 4` elements, where the blocks on the boundary
may be partial, and the transfer of a block between a contiguous buffer and strided memory. Sizes
are those of an array in memory, far below the range of `size_t`.
-/

namespace Zfp

structure ArraySize where
  nx : ℕ
  ny : ℕ
  nz : ℕ

/-- shape 0 <= m <= 3 of block containing index i, 0 <= i <= n - 1 -/
def shapeCode (i n : ℕ) : ℕ :=
  let m := BitVec.ofNat 64 i ^^^ BitVec.ofNat 64 n
  let m := m - 4
  let m := m >>> 62
  let m := m &&& -(BitVec.ofNat 64 n)
  (m.setWidth 32).toNat

namespace ArraySize

variable (g : ArraySize)

def bx : ℕ := (g.nx + 3) / 4
def by' : ℕ := (g.ny + 3) / 4
def bz : ℕ := (g.nz + 3) / 4

def blocks : ℕ := g.bx * g.by' * g.bz

def blockIndex (i j k : ℕ) : ℕ := i / 4 + g.bx * (j / 4 + g.by' * (k / 4))

/-- encoding of block dimensions -/
def blockShape (blockIndex : ℕ) : ℕ :=
  let i := 4 * (blockIndex % g.bx)
  let blockIndex := blockIndex / g.bx
  let j := 4 * (blockIndex % g.by')
  let blockIndex := blockIndex / g.by'
  let k := 4 * blockIndex
  let mx := shapeCode i g.nx
  let my := shapeCode j g.ny
  let mz := shapeCode k g.nz
  mx + 4 * (my + 4 * mz)

end ArraySize

def elementIndex (i j k : ℕ) : ℕ := (i &&& 3) + 4 * ((j &&& 3) + 4 * (k &&& 3))

/-! ## Transfer of a block -/

structure Strided where
  p : ℤ
  sx : ℤ
  sy : ℤ
  sz : ℤ

section

variable {σ : Type} (f : σ → ℕ × ℤ → σ)

/-- `for (x = 0; x < n; x++, p += sx, q++)`, where the assignment of one element is `f` -/
def walkRow (sx : ℤ) : ℕ → ℤ × ℕ × σ → ℤ × ℕ × σ
  | 0, s => s
  | n + 1, s => walkRow sx n (s.1 + sx, s.2.1 + 1, f s.2.2 (s.2.1, s.1))

/-- `for (y = 0; y < n; y++, p += sy - nx * sx, q += 4 - nx)` -/
def walkPlane (nx : ℕ) (sx sy : ℤ) : ℕ → ℤ × ℕ × σ → ℤ × ℕ × σ
  | 0, s => s
  | n + 1, s =>
    let s := walkRow f sx nx s
    walkPlane nx sx sy n (s.1 + (sy - nx * sx), s.2.1 + (4 - nx), s.2.2)

/-- `for (z = 0; z < n; z++, p += sz - ny * sy, q += 16 - 4 * ny)` -/
def walkBox (nx ny : ℕ) (m : Strided) : ℕ → ℤ × ℕ × σ → ℤ × ℕ × σ
  | 0, s => s
  | n + 1, s =>
    let s := walkPlane f nx m.sx m.sy ny s
    walkBox nx ny m n (s.1 + (m.sz - ny * m.sy), s.2.1 + (16 - 4 * ny), s.2.2)

def boxSize (shape : ℕ) : ℕ × ℕ × ℕ :=
  (4 - shape % 4, 4 - shape / 4 % 4, 4 - shape / 4 / 4 % 4)

theorem boxSize_le (shape : ℕ) :
    (boxSize shape).1 ≤ 4 ∧ (boxSize shape).2.1 ≤ 4 ∧ (boxSize shape).2.2 ≤ 4 :=
  ⟨Nat.sub_le _ _, Nat.sub_le _ _, Nat.sub_le _ _⟩

theorem boxSize_shape {mx my mz : ℕ} (hx : mx < 4) (hy : my < 4) (hz : mz < 4) :
    boxSize (mx + 4 * (my + 4 * mz)) = (4 - mx, 4 - my, 4 - mz) := by
  have hrow : (mx + 4 * (my + 4 * mz)) % 4 = mx := by omega
  have hplane : (mx + 4 * (my + 4 * mz)) / 4 % 4 = my := by omega
  have hbox : (mx + 4 * (my + 4 * mz)) / 4 / 4 % 4 = mz := by omega
  rw [boxSize, hrow, hplane, hbox]

/-- The loops over a whole or partial block. -/
def walkBlock (shape : ℕ) (m : Strided) (acc : σ) : σ :=
  if shape = 0 then (walkBox f 4 4 m 4 (m.p, 0, acc)).2.2
  else
    (walkBox f (boxSize shape).1 (boxSize shape).2.1 m (boxSize shape).2.2 (m.p, 0, acc)).2.2

end

variable {α : Type}

def lineGet (a : ℕ → α) (shape : ℕ) (m : Strided) (mem : ℤ → α) : ℤ → α :=
  walkBlock (fun mem c => Function.update mem c.2 (a c.1)) shape m mem

def linePut (mem : ℤ → α) (shape : ℕ) (m : Strided) (a : ℕ → α) : ℕ → α :=
  walkBlock (fun a c => Function.update a c.1 (mem c.2)) shape m a

/-! ## Cells -/

def rowCells (sx : ℤ) (n : ℕ) (p : ℤ) (q : ℕ) : List (ℕ × ℤ) :=
  (List.range n).map fun x => (q + x, p + x * sx)

def planeCells (nx : ℕ) (sx sy : ℤ) (n : ℕ) (p : ℤ) (q : ℕ) : List (ℕ × ℤ) :=
  (List.range n).flatMap fun (y : ℕ) => rowCells sx nx (p + y * sy) (q + 4 * y)

def boxCells (nx ny : ℕ) (m : Strided) (n : ℕ) (p : ℤ) (q : ℕ) : List (ℕ × ℤ) :=
  (List.range n).flatMap fun (z : ℕ) => planeCells nx m.sx m.sy ny (p + z * m.sz) (q + 16 * z)

def cells (shape : ℕ) (m : Strided) : List (ℕ × ℤ) :=
  boxCells (boxSize shape).1 (boxSize shape).2.1 m (boxSize shape).2.2 m.p 0

section

variable {σ : Type} (f : σ → ℕ × ℤ → σ)

theorem walkRow_eq (sx : ℤ) (n : ℕ) (p : ℤ) (q : ℕ) (acc : σ) :
    walkRow f sx n (p, q, acc) = (p + n * sx, q + n, (rowCells sx n p q).foldl f acc) := by
  induction n generalizing p q acc with
  | zero => simp [walkRow, rowCells]
  | succ n ih =>
    have hcells : rowCells sx (n + 1) p q = (q, p) :: rowCells sx n (p + sx) (q + 1) := by
      rw [rowCells, List.range_succ_eq_map, List.map_cons, List.map_map, rowCells]
      congr 1
      · simp
      · apply List.map_congr_left
        intro x _
        simp only [Function.comp_apply, Nat.succ_eq_add_one, Nat.cast_add, Nat.cast_one,
          Prod.mk.injEq]
        exact ⟨by omega, by ring⟩
    rw [walkRow, ih, hcells, List.foldl_cons]
    simp only [Nat.cast_add, Nat.cast_one, Prod.mk.injEq, and_true]
    exact ⟨by ring, by omega⟩

theorem walkPlane_eq {nx : ℕ} (hnx : nx ≤ 4) (sx sy : ℤ) (n : ℕ) (p : ℤ) (q : ℕ) (acc : σ) :
    walkPlane f nx sx sy n (p, q, acc) =
      (p + n * sy, q + 4 * n, (planeCells nx sx sy n p q).foldl f acc) := by
  induction n generalizing p q acc with
  | zero => simp [walkPlane, planeCells]
  | succ n ih =>
    have hcells : planeCells nx sx sy (n + 1) p q =
        rowCells sx nx p q ++ planeCells nx sx sy n (p + sy) (q + 4) := by
      rw [planeCells, List.range_succ_eq_map, List.flatMap_cons, List.flatMap_map, planeCells]
      congr 1
      · simp
      · apply List.flatMap_congr
        intro y _
        simp only [Nat.succ_eq_add_one, Nat.cast_add, Nat.cast_one]
        congr 1
        · ring
        · ring
    have hp : p + nx * sx + (sy - nx * sx) = p + sy := by ring
    have hq : q + nx + (4 - nx) = q + 4 := by omega
    rw [walkPlane, walkRow_eq, hp, hq, ih, hcells, List.foldl_append]
    simp only [Nat.cast_add, Nat.cast_one, Prod.mk.injEq, and_true]
    exact ⟨by ring, by omega⟩

theorem walkBox_eq {nx ny : ℕ} (hnx : nx ≤ 4) (hny : ny ≤ 4) (m : Strided) (n : ℕ) (p : ℤ) (q : ℕ)
    (acc : σ) :
    walkBox f nx ny m n (p, q, acc) =
      (p + n * m.sz, q + 16 * n, (boxCells nx ny m n p q).foldl f acc) := by
  induction n generalizing p q acc with
  | zero => simp [walkBox, boxCells]
  | succ n ih =>
    have hcells : boxCells nx ny m (n + 1) p q =
        planeCells nx m.sx m.sy ny p q ++ boxCells nx ny m n (p + m.sz) (q + 16) := by
      rw [boxCells, List.range_succ_eq_map, List.flatMap_cons, List.flatMap_map, boxCells]
      congr 1
      · simp
      · apply List.flatMap_congr
        intro z _
        simp only [Nat.succ_eq_add_one, Nat.cast_add, Nat.cast_one]
        congr 1
        · ring
        · ring
    have hp : p + ny * m.sy + (m.sz - ny * m.sy) = p + m.sz := by ring
    have hq : q + 4 * ny + (16 - 4 * ny) = q + 16 := by omega
    rw [walkBox, walkPlane_eq f hnx, hp, hq, ih, hcells, List.foldl_append]
    simp only [Nat.cast_add, Nat.cast_one, Prod.mk.injEq, and_true]
    exact ⟨by ring, by omega⟩

/-- The loops visit the cells of the block. -/
theorem walkBlock_eq (shape : ℕ) (m : Strided) (acc : σ) :
    walkBlock f shape m acc = (cells shape m).foldl f acc := by
  rw [walkBlock]
  split_ifs with h
  · rw [walkBox_eq f (Nat.le_refl 4) (Nat.le_refl 4), cells, h]
    rfl
  · rw [walkBox_eq f (boxSize_le shape).1 (boxSize_le shape).2.1, cells]

end

/-- The elements of a block that a shape keeps. -/
def InBlock (shape o : ℕ) : Prop :=
  o % 4 < (boxSize shape).1 ∧ o / 4 % 4 < (boxSize shape).2.1 ∧ o / 16 < (boxSize shape).2.2

def Strided.addr (m : Strided) (o : ℕ) : ℤ :=
  m.p + (o % 4 : ℕ) * m.sx + (o / 4 % 4 : ℕ) * m.sy + (o / 16 : ℕ) * m.sz

theorem mem_cells (shape : ℕ) (m : Strided) (c : ℕ × ℤ) :
    c ∈ cells shape m ↔ InBlock shape c.1 ∧ c.2 = m.addr c.1 := by
  obtain ⟨hx, hy, hz⟩ := boxSize_le shape
  simp only [cells, boxCells, planeCells, rowCells, List.mem_flatMap, List.mem_map, List.mem_range]
  constructor
  · rintro ⟨z, hz', y, hy', x, hx', rfl⟩
    have hrow : (0 + 16 * z + 4 * y + x) % 4 = x := by omega
    have hplane : (0 + 16 * z + 4 * y + x) / 4 % 4 = y := by omega
    have hbox : (0 + 16 * z + 4 * y + x) / 16 = z := by omega
    refine ⟨⟨?_, ?_, ?_⟩, ?_⟩
    · rwa [hrow]
    · rwa [hplane]
    · rwa [hbox]
    · rw [Strided.addr, hrow, hplane, hbox]
      ring
  · rintro ⟨⟨hx', hy', hz'⟩, haddr⟩
    refine ⟨c.1 / 16, hz', c.1 / 4 % 4, hy', c.1 % 4, hx', ?_⟩
    apply Prod.ext
    · change 0 + 16 * (c.1 / 16) + 4 * (c.1 / 4 % 4) + c.1 % 4 = c.1
      omega
    · rw [haddr, Strided.addr]
      ring

/-- Only the elements that the shape keeps are copied to memory. -/
theorem lineGet_congr {a a' : ℕ → α} {shape : ℕ} (h : ∀ o, InBlock shape o → a o = a' o)
    (m : Strided) (mem : ℤ → α) : lineGet a shape m mem = lineGet a' shape m mem := by
  rw [lineGet, lineGet, walkBlock_eq, walkBlock_eq]
  apply List.foldl_ext
  intro mem c hc
  rw [h c.1 ((mem_cells shape m c).mp hc).1]

theorem foldl_put (mem : ℤ → α) (L : List (ℕ × ℤ)) (a : ℕ → α) (o : ℕ) :
    (o ∉ L.map Prod.fst → L.foldl (fun a c => Function.update a c.1 (mem c.2)) a o = a o) ∧
      ∀ p : ℤ, (∀ c ∈ L, c.1 = o → c.2 = p) → o ∈ L.map Prod.fst →
        L.foldl (fun a c => Function.update a c.1 (mem c.2)) a o = mem p := by
  induction L using List.reverseRecOn with
  | nil => simp
  | append_singleton L c ih =>
    rw [List.foldl_append, List.foldl_cons, List.foldl_nil]
    constructor
    · intro ho
      rw [List.map_append, List.mem_append, not_or] at ho
      have hne : o ≠ c.1 := by
        intro h
        exact ho.2 (by simp [h])
      rw [Function.update_of_ne hne]
      exact ih.1 ho.1
    · intro p hp ho
      rcases eq_or_ne o c.1 with rfl | hne
      · rw [Function.update_self, hp c (by simp) rfl]
      · rw [Function.update_of_ne hne]
        apply ih.2 p
        · intro d hd
          exact hp d (List.mem_append_left _ hd)
        · rw [List.map_append, List.mem_append] at ho
          rcases ho with ho | ho
          · exact ho
          · simp only [List.map_cons, List.map_nil, List.mem_singleton] at ho
            exact absurd ho hne

/-- An element that the shape keeps is replaced by the element of memory. -/
theorem linePut_inBlock {shape o : ℕ} (ho : InBlock shape o) (m : Strided) (mem : ℤ → α)
    (a : ℕ → α) : linePut mem shape m a o = mem (m.addr o) := by
  rw [linePut, walkBlock_eq]
  apply (foldl_put mem _ a o).2
  · rintro c hc rfl
    exact ((mem_cells shape m c).mp hc).2
  · rw [List.mem_map]
    exact ⟨(o, m.addr o), (mem_cells shape m _).mpr ⟨ho, rfl⟩, rfl⟩

/-! ## Shape codes -/

theorem xor_low {i n : ℕ} (hi : i % 4 = 0) (h : i / 4 = n / 4) : i ^^^ n = n % 4 := by
  have hdiv : (i ^^^ n) / 4 = 0 := by
    rw [show 4 = 2 ^ 2 from rfl, Nat.xor_div_two_pow]
    rw [show (2 ^ 2 : ℕ) = 4 from rfl, h, Nat.xor_self]
  have hmod : (i ^^^ n) % 4 = n % 4 := by
    rw [show 4 = 2 ^ 2 from rfl, Nat.xor_mod_two_pow]
    rw [show (2 ^ 2 : ℕ) = 4 from rfl, hi, Nat.zero_xor]
  omega

theorem four_le_xor {i n : ℕ} (h : i / 4 ≠ n / 4) : 4 ≤ i ^^^ n := by
  have hdiv : (i ^^^ n) / 4 ≠ 0 := by
    rw [show 4 = 2 ^ 2 from rfl, Nat.xor_div_two_pow]
    rw [show (2 ^ 2 : ℕ) = 4 from rfl]
    intro hz
    exact h (Nat.eq_of_xor_eq_zero hz)
  omega

/-- The shape code counts the elements that the last block lacks. -/
theorem shapeCode_eq {i n : ℕ} (hi : i % 4 = 0) (hin : i < n) (hn : n < 2 ^ 62) :
    shapeCode i n = 4 - min 4 (n - i) := by
  have hxor : i ^^^ n < 2 ^ 62 := Nat.xor_lt_two_pow (by omega) hn
  have hfour : (4 : BitVec 64).toNat = 4 := rfl
  simp only [shapeCode, BitVec.toNat_setWidth, BitVec.toNat_and, BitVec.toNat_ushiftRight,
    BitVec.toNat_sub, BitVec.toNat_neg, BitVec.toNat_xor, BitVec.toNat_ofNat, hfour,
    Nat.mod_eq_of_lt (show i < 2 ^ 64 by omega), Nat.mod_eq_of_lt (show n < 2 ^ 64 by omega),
    Nat.shiftRight_eq_div_pow, Nat.mod_eq_of_lt (show 2 ^ 64 - n < 2 ^ 64 by omega)]
  rcases eq_or_ne (i / 4) (n / 4) with h | h
  · rw [xor_low hi h]
    have hthree : (2 ^ 64 - 4 + n % 4) % 2 ^ 64 / 2 ^ 62 = 2 ^ 2 - 1 := by omega
    rw [hthree, Nat.and_comm, Nat.and_two_pow_sub_one_eq_mod]
    omega
  · have hge := four_le_xor h
    have hzero : (2 ^ 64 - 4 + (i ^^^ n)) % 2 ^ 64 / 2 ^ 62 = 0 := by omega
    rw [hzero, Nat.zero_and]
    omega

/-! ## Elements and blocks -/

theorem elementIndex_eq (i j k : ℕ) : elementIndex i j k = i % 4 + 4 * (j % 4 + 4 * (k % 4)) := by
  have hand (x : ℕ) : x &&& 3 = x % 4 := Nat.and_two_pow_sub_one_eq_mod x 2
  rw [elementIndex, hand, hand, hand]

/-- An element of a row lies below the length that the shape code of its block leaves. -/
theorem mod_lt_shapeCode {i n : ℕ} (hin : i < n) (hn : n < 2 ^ 62) :
    i % 4 < 4 - shapeCode (4 * (i / 4)) n := by
  rw [shapeCode_eq (by omega) (by omega) hn]
  omega

theorem shapeCode_lt {i n : ℕ} (hi : i % 4 = 0) (hin : i < n) (hn : n < 2 ^ 62) :
    shapeCode i n < 4 := by
  rw [shapeCode_eq hi hin hn]
  omega

namespace ArraySize

variable {g : ArraySize}

/-- The array has fewer blocks than a tag of the cache can tell apart. -/
def Small (g : ArraySize) : Prop := g.blocks < 2 ^ 31

instance (g : ArraySize) : Decidable g.Small := inferInstanceAs (Decidable (_ < _))

theorem div_mod_add_mul {a b c n m : ℕ} (ha : a < n) (hb : b < m) :
    (a + n * (b + m * c)) % n = a ∧ (a + n * (b + m * c)) / n % m = b ∧
      (a + n * (b + m * c)) / n / m = c := by
  have hn : 0 < n := by omega
  have hm : 0 < m := by omega
  have hdiv : (a + n * (b + m * c)) / n = b + m * c := by
    rw [Nat.add_mul_div_left _ _ hn, Nat.div_eq_of_lt ha, Nat.zero_add]
  refine ⟨?_, ?_, ?_⟩
  · rw [Nat.add_mul_mod_self_left, Nat.mod_eq_of_lt ha]
  · rw [hdiv, Nat.add_mul_mod_self_left, Nat.mod_eq_of_lt hb]
  · rw [hdiv, Nat.add_mul_div_left _ _ hm, Nat.div_eq_of_lt hb, Nat.zero_add]

theorem blockIndex_lt {i j k : ℕ} (hi : i < g.nx) (hj : j < g.ny) (hk : k < g.nz) :
    g.blockIndex i j k < g.blocks := by
  have hx : i / 4 + 1 ≤ g.bx := by rw [bx]; omega
  have hy : j / 4 + 1 ≤ g.by' := by rw [by']; omega
  have hz : k / 4 + 1 ≤ g.bz := by rw [bz]; omega
  have hyz : j / 4 + g.by' * (k / 4) + 1 ≤ g.by' * g.bz := by
    calc j / 4 + g.by' * (k / 4) + 1 ≤ g.by' * (k / 4 + 1) := by rw [Nat.mul_add]; omega
      _ ≤ g.by' * g.bz := Nat.mul_le_mul_left _ hz
  calc g.blockIndex i j k
      < g.bx * (j / 4 + g.by' * (k / 4) + 1) := by rw [blockIndex, Nat.mul_add_one]; omega
    _ ≤ g.bx * (g.by' * g.bz) := Nat.mul_le_mul_left _ hyz
    _ = g.blocks := by rw [blocks, Nat.mul_assoc]

/-- In a small array no dimension comes near the range of the shape code. -/
theorem Small.lt (h : g.Small) (hb : 0 < g.blocks) :
    g.nx < 2 ^ 62 ∧ g.ny < 2 ^ 62 ∧ g.nz < 2 ^ 62 := by
  rw [Small] at h
  have hx : g.bx ≤ g.blocks := Nat.le_of_dvd hb ⟨g.by' * g.bz, by rw [blocks, Nat.mul_assoc]⟩
  have hy : g.by' ≤ g.blocks := Nat.le_of_dvd hb ⟨g.bx * g.bz, by rw [blocks]; ring⟩
  have hz : g.bz ≤ g.blocks := Nat.le_of_dvd hb ⟨g.bx * g.by', by rw [blocks]; ring⟩
  rw [bx] at hx
  rw [by'] at hy
  rw [bz] at hz
  omega

/-- The shape of the block of an array element keeps the element. -/
theorem inBlock_elementIndex (h : g.Small) {i j k : ℕ} (hi : i < g.nx) (hj : j < g.ny)
    (hk : k < g.nz) : InBlock (g.blockShape (g.blockIndex i j k)) (elementIndex i j k) := by
  have hb := blockIndex_lt hi hj hk
  obtain ⟨hnx, hny, hnz⟩ := h.lt (by omega)
  have hx : i / 4 < g.bx := by rw [bx]; omega
  have hy : j / 4 < g.by' := by rw [by']; omega
  obtain ⟨hcx, hcy, hcz⟩ := div_mod_add_mul (c := k / 4) hx hy
  have hshape : g.blockShape (g.blockIndex i j k) =
      shapeCode (4 * (i / 4)) g.nx + 4 * (shapeCode (4 * (j / 4)) g.ny
        + 4 * shapeCode (4 * (k / 4)) g.nz) := by
    simp only [blockShape, blockIndex, hcx, hcy, hcz]
  have hmx := mod_lt_shapeCode hi hnx
  have hmy := mod_lt_shapeCode hj hny
  have hmz := mod_lt_shapeCode hk hnz
  have hlx := shapeCode_lt (i := 4 * (i / 4)) (by omega) (by omega) hnx
  have hly := shapeCode_lt (i := 4 * (j / 4)) (by omega) (by omega) hny
  have hlz := shapeCode_lt (i := 4 * (k / 4)) (by omega) (by omega) hnz
  rw [InBlock, elementIndex_eq, hshape, boxSize_shape hlx hly hlz]
  have hrow : (i % 4 + 4 * (j % 4 + 4 * (k % 4))) % 4 = i % 4 := by omega
  have hplane : (i % 4 + 4 * (j % 4 + 4 * (k % 4))) / 4 % 4 = j % 4 := by omega
  have hbox : (i % 4 + 4 * (j % 4 + 4 * (k % 4))) / 16 = k % 4 := by omega
  rw [hrow, hplane, hbox]
  exact ⟨hmx, hmy, hmz⟩

def coord (g : ArraySize) (b o : ℕ) : ℕ × ℕ × ℕ :=
  (4 * (b % g.bx) + o % 4, 4 * (b / g.bx % g.by') + o / 4 % 4, 4 * (b / g.bx / g.by') + o / 16)

def Mem (g : ArraySize) (x : ℕ × ℕ × ℕ) : Prop := x.1 < g.nx ∧ x.2.1 < g.ny ∧ x.2.2 < g.nz

instance (g : ArraySize) (x : ℕ × ℕ × ℕ) : Decidable (g.Mem x) :=
  inferInstanceAs (Decidable (_ ∧ _ ∧ _))

theorem coord_blockIndex {i j k : ℕ} (hi : i < g.nx) (hj : j < g.ny) :
    g.coord (g.blockIndex i j k) (elementIndex i j k) = (i, j, k) := by
  have hx : i / 4 < g.bx := by rw [bx]; omega
  have hy : j / 4 < g.by' := by rw [by']; omega
  obtain ⟨hcx, hcy, hcz⟩ := div_mod_add_mul (c := k / 4) hx hy
  rw [coord, blockIndex, hcx, hcy, hcz, elementIndex_eq]
  simp only [Prod.mk.injEq]
  refine ⟨?_, ?_, ?_⟩
  · omega
  · omega
  · omega

theorem blockIndex_coord {b o : ℕ} (ho : o < 64) :
    g.blockIndex (g.coord b o).1 (g.coord b o).2.1 (g.coord b o).2.2 = b := by
  have hx := Nat.mod_add_div b g.bx
  have hy := Nat.mod_add_div (b / g.bx) g.by'
  have hi : (4 * (b % g.bx) + o % 4) / 4 = b % g.bx := by omega
  have hj : (4 * (b / g.bx % g.by') + o / 4 % 4) / 4 = b / g.bx % g.by' := by omega
  have hk : (4 * (b / g.bx / g.by') + o / 16) / 4 = b / g.bx / g.by' := by omega
  rw [coord, blockIndex, hi, hj, hk, hy, hx]

theorem elementIndex_coord {b o : ℕ} (ho : o < 64) :
    elementIndex (g.coord b o).1 (g.coord b o).2.1 (g.coord b o).2.2 = o := by
  rw [coord, elementIndex_eq]
  simp only
  omega

/-- An element that the shape of a block keeps is one of the array. -/
theorem mem_coord (h : g.Small) {b o : ℕ} (hb : b < g.blocks)
    (ho : InBlock (g.blockShape b) o) : o < 64 ∧ g.Mem (g.coord b o) := by
  obtain ⟨hnx, hny, hnz⟩ := h.lt (by omega)
  have hpos : 0 < g.bx * g.by' * g.bz := by rw [← blocks]; omega
  have hbx : 0 < g.bx := Nat.pos_of_mul_pos_right (Nat.pos_of_mul_pos_right hpos)
  have hby : 0 < g.by' := Nat.pos_of_mul_pos_left (Nat.pos_of_mul_pos_right hpos)
  have hx : 4 * (b % g.bx) < g.nx := by
    have hlt := Nat.mod_lt b hbx
    have heq : g.bx = (g.nx + 3) / 4 := rfl
    omega
  have hy : 4 * (b / g.bx % g.by') < g.ny := by
    have hlt := Nat.mod_lt (b / g.bx) hby
    have heq : g.by' = (g.ny + 3) / 4 := rfl
    omega
  have hz : 4 * (b / g.bx / g.by') < g.nz := by
    have hlt : b / g.bx / g.by' < g.bz := by
      rw [Nat.div_div_eq_div_mul]
      apply Nat.div_lt_of_lt_mul
      rwa [blocks] at hb
    have heq : g.bz = (g.nz + 3) / 4 := rfl
    omega
  have hsx := shapeCode_eq (by omega) hx hnx
  have hsy := shapeCode_eq (by omega) hy hny
  have hsz := shapeCode_eq (by omega) hz hnz
  rw [InBlock, blockShape, boxSize_shape (by omega) (by omega) (by omega), hsx, hsy, hsz] at ho
  rw [coord, Mem]
  simp only at ho ⊢
  generalize 4 * (b % g.bx) = i at *
  generalize 4 * (b / g.bx % g.by') = j at *
  generalize 4 * (b / g.bx / g.by') = k at *
  omega

end ArraySize

end Zfp

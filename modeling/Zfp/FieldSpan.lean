import Mathlib.Data.Int.Interval
import Mathlib.Order.Bounds.Basic
import Zfp.BlockGather
import Zfp.Field
import Zfp.MixedRadix
import Zfp.Sizes

/-!
# The span of a field

The elements of a field lie at the offsets that its strides give to the indices of a box. The lowest
and the highest of them are found one dimension at a time, by the sign of each stride.
-/

namespace Zfp
open MixedRadix

/-! ## The box and its strides -/

def Field.size (field : Field) : ℕ → ℕ
  | 0 => field.nx | 1 => field.ny | 2 => field.nz | _ => field.nw

/-- The strides of a field, zero replaced by the default of a contiguous array. -/
def zfpFieldStride (field : Field) : ℕ → ℤ
  | 0 => if field.sx ≠ 0 then field.sx else 1
  | 1 => if field.sy ≠ 0 then field.sy else ptrdiffT field.nx
  | 2 => if field.sz ≠ 0 then field.sz else ptrdiffT (sizeT (field.nx * field.ny))
  | _ => if field.sw ≠ 0 then field.sw else ptrdiffT (sizeT (field.nx * field.ny * field.nz))

/-- The largest offset from the base pointer in a dimension. -/
def largestOffset (field : Field) (a : ℕ) : ℤ :=
  if field.size a ≠ 0 then ptrdiffT (zfpFieldStride field a * ptrdiffT (field.size a - 1 : ℕ))
  else 0

/-- The lowest and highest offset, and the number of positions from the one to the other. -/
def fieldIndexSpan (field : Field) : ℤ × ℤ × ℕ :=
  let dx := largestOffset field 0
  let dy := largestOffset field 1
  let dz := largestOffset field 2
  let dw := largestOffset field 3
  let imin := ptrdiffT (ptrdiffT (ptrdiffT (min dx 0 + min dy 0) + min dz 0) + min dw 0)
  let imax := ptrdiffT (ptrdiffT (ptrdiffT (max dx 0 + max dy 0) + max dz 0) + max dw 0)
  (imin, imax, ((imax - imin + 1) % 2 ^ 64).toNat)

/-- The lowest address of a field whose data pointer is not null. -/
def zfpFieldBegin (field : Field) (data : Option ℤ) : Option ℤ :=
  data.map fun data => data + ptrdiffT ((fieldIndexSpan field).1 * zfpTypeSize field.type)

def zfpFieldSize (field : Field) : ℕ :=
  sizeT (max field.nx 1 * max field.ny 1 * max field.nz 1 * max field.nw 1)

def zfpFieldSizeBytes (field : Field) : ℕ :=
  sizeT ((fieldIndexSpan field).2.2 * zfpTypeSize field.type)

def zfpFieldIsContiguous (field : Field) : Prop :=
  (fieldIndexSpan field).2.2 = zfpFieldSize field

/-! ## Extremes of the offsets of a box -/

def lowest (stride : ℕ → ℤ) (n : ℕ → ℕ) : ℕ → ℤ
  | 0 => 0
  | d + 1 => lowest stride n d + min (stride d * (n d - 1)) 0

def highest (stride : ℕ → ℤ) (n : ℕ → ℕ) : ℕ → ℤ
  | 0 => 0
  | d + 1 => highest stride n d + max (stride d * (n d - 1)) 0

def Offsets (stride : ℕ → ℤ) (n : ℕ → ℕ) (d : ℕ) : Set ℤ :=
  {x | ∃ c : ℕ → ℕ, Within n d c ∧ x = span stride d c}

section

variable (stride : ℕ → ℤ) {n : ℕ → ℕ} {d : ℕ}

theorem term_bounds (s : ℤ) {c n : ℕ} (h : c < n) :
    min (s * (n - 1)) 0 ≤ c * s ∧ (c : ℤ) * s ≤ max (s * (n - 1)) 0 := by
  have hc : (c : ℤ) ≤ n - 1 := by omega
  have hc0 : (0 : ℤ) ≤ c := Int.natCast_nonneg c
  rcases le_total 0 s with hs | hs
  · have hle := mul_le_mul_of_nonneg_left hc hs
    have hpos := mul_nonneg hc0 hs
    rw [mul_comm (c : ℤ)] at hpos ⊢
    exact ⟨(min_le_right _ _).trans hpos, hle.trans (le_max_left _ _)⟩
  · have hle := mul_le_mul_of_nonpos_left hc hs
    have hneg := mul_nonpos_of_nonneg_of_nonpos hc0 hs
    rw [mul_comm (c : ℤ)] at hneg ⊢
    exact ⟨(min_le_left _ _).trans hle, hneg.trans (le_max_right _ _)⟩

/-- An extreme of one dimension is attained at its first or its last index. -/
theorem term_attained (s : ℤ) {n : ℕ} (hn : 0 < n) :
    (∃ c < n, (c : ℤ) * s = min (s * (n - 1)) 0) ∧ ∃ c < n, (c : ℤ) * s = max (s * (n - 1)) 0 := by
  have hlast : ((n - 1 : ℕ) : ℤ) * s = s * (n - 1) := by
    rw [Int.natCast_sub hn, mul_comm]
    rfl
  constructor
  · rcases min_choice (s * ((n : ℤ) - 1)) 0 with h | h
    · exact ⟨n - 1, by omega, hlast.trans h.symm⟩
    · exact ⟨0, hn, by rw [h, Int.natCast_zero, zero_mul]⟩
  · rcases max_choice (s * ((n : ℤ) - 1)) 0 with h | h
    · exact ⟨n - 1, by omega, hlast.trans h.symm⟩
    · exact ⟨0, hn, by rw [h, Int.natCast_zero, zero_mul]⟩

theorem span_bounds {c : ℕ → ℕ} (hc : Within n d c) :
    lowest stride n d ≤ span stride d c ∧ span stride d c ≤ highest stride n d := by
  induction d with
  | zero => exact ⟨le_refl 0, le_refl 0⟩
  | succ d ih =>
    obtain ⟨hlo, hhi⟩ := ih hc.of_succ
    obtain ⟨htlo, hthi⟩ := term_bounds (stride d) hc.last
    rw [lowest, span, highest]
    exact ⟨add_le_add hlo htlo, add_le_add hhi hthi⟩

theorem lowest_attained (hn : ∀ a < d, 0 < n a) : lowest stride n d ∈ Offsets stride n d := by
  induction d with
  | zero => exact ⟨fun _ => 0, fun a ha => absurd ha (Nat.not_lt_zero a), rfl⟩
  | succ d ih =>
    obtain ⟨c, hc, hspan⟩ := ih fun a ha => hn a (by omega)
    obtain ⟨z, hz, hterm⟩ := (term_attained (stride d) (hn d (Nat.lt_succ_self d))).1
    refine ⟨Function.update c d z, within_update hc hz, ?_⟩
    rw [span_update, ← hspan, hterm, lowest]

theorem highest_attained (hn : ∀ a < d, 0 < n a) : highest stride n d ∈ Offsets stride n d := by
  induction d with
  | zero => exact ⟨fun _ => 0, fun a ha => absurd ha (Nat.not_lt_zero a), rfl⟩
  | succ d ih =>
    obtain ⟨c, hc, hspan⟩ := ih fun a ha => hn a (by omega)
    obtain ⟨z, hz, hterm⟩ := (term_attained (stride d) (hn d (Nat.lt_succ_self d))).2
    refine ⟨Function.update c d z, within_update hc hz, ?_⟩
    rw [span_update, ← hspan, hterm, highest]

theorem isLeast_lowest (hn : ∀ a < d, 0 < n a) :
    IsLeast (Offsets stride n d) (lowest stride n d) := by
  refine ⟨lowest_attained stride hn, ?_⟩
  rintro _ ⟨c, hc, rfl⟩
  exact (span_bounds stride hc).1

theorem isGreatest_highest (hn : ∀ a < d, 0 < n a) :
    IsGreatest (Offsets stride n d) (highest stride n d) := by
  refine ⟨highest_attained stride hn, ?_⟩
  rintro _ ⟨c, hc, rfl⟩
  exact (span_bounds stride hc).2

/-- Distinct offsets fill the range between the extremes exactly if there are as many indices as
positions. -/
theorem offsets_fill_iff (hn : ∀ a < d, 0 < n a)
    (hinj : ∀ c c', Within n d c → Within n d c' → span stride d c = span stride d c' →
      ∀ a < d, c a = c' a) :
    (total n d : ℤ) ≤ highest stride n d - lowest stride n d + 1 ∧
    ((total n d : ℤ) = highest stride n d - lowest stride n d + 1 ↔
      ∀ x, lowest stride n d ≤ x → x ≤ highest stride n d → x ∈ Offsets stride n d) := by
  have hcard : ((Finset.range (total n d)).image fun k => span stride d (digit n k)).card =
      total n d := by
    rw [Finset.card_image_of_injOn, Finset.card_range]
    intro k hk k' hk' heq
    have hdigits := hinj _ _ (digit_within hn k) (digit_within hn k') heq
    rw [← rank_digit (Finset.mem_range.mp hk), ← rank_digit (Finset.mem_range.mp hk'),
      rank_congr hdigits]
  have hsub : ((Finset.range (total n d)).image fun k => span stride d (digit n k)) ⊆
      Finset.Icc (lowest stride n d) (highest stride n d) := by
    intro x hx
    obtain ⟨k, -, rfl⟩ := Finset.mem_image.mp hx
    exact Finset.mem_Icc.mpr (span_bounds stride (digit_within hn k))
  have hmem : ∀ x, x ∈ ((Finset.range (total n d)).image fun k => span stride d (digit n k)) ↔
      x ∈ Offsets stride n d := by
    intro x
    rw [Finset.mem_image]
    constructor
    · rintro ⟨k, -, rfl⟩
      exact ⟨digit n k, digit_within hn k, rfl⟩
    · rintro ⟨c, hc, rfl⟩
      exact ⟨rank n c d, Finset.mem_range.mpr (rank_lt hc),
        span_congr stride fun a ha => digit_rank hc ha⟩
  have hle := Finset.card_le_card hsub
  have horder := (isLeast_lowest stride hn).2 (highest_attained stride hn)
  rw [hcard, Int.card_Icc] at hle
  refine ⟨by omega, fun heq x hlo hhi => ?_, fun hfill => ?_⟩
  · rw [← hmem, Finset.eq_of_subset_of_card_le hsub (by rw [hcard, Int.card_Icc]; omega)]
    exact Finset.mem_Icc.mpr ⟨hlo, hhi⟩
  · have hsup : Finset.Icc (lowest stride n d) (highest stride n d) ⊆
        ((Finset.range (total n d)).image fun k => span stride d (digit n k)) := by
      intro x hx
      rw [Finset.mem_Icc] at hx
      exact (hmem x).mpr (hfill x hx.1 hx.2)
    have hge := Finset.card_le_card hsup
    rw [hcard, Int.card_Icc] at hge
    omega

end

/-! ## The span of a field -/

def Field.stride (field : Field) : ℕ → ℤ
  | 0 => if field.sx ≠ 0 then field.sx else 1
  | 1 => if field.sy ≠ 0 then field.sy else field.nx
  | 2 => if field.sz ≠ 0 then field.sz else field.nx * field.ny
  | _ => if field.sw ≠ 0 then field.sw else field.nx * field.ny * field.nz

def Field.offsets (field : Field) : Set ℤ :=
  Offsets field.stride field.size (zfpFieldDimensionality field)

/-- The strides, and their products with the largest index of each dimension, fit. -/
def Field.ProductsFit (field : Field) : Prop :=
  ∀ a < zfpFieldDimensionality field,
    FitsPtrdiff (field.stride a) ∧ FitsPtrdiff (field.stride a * (field.size a - 1))

/-- The lowest offset of a field, and the highest. -/
def Field.lowest (field : Field) : ℤ :=
  Zfp.lowest field.stride field.size (zfpFieldDimensionality field)

def Field.highest (field : Field) : ℤ :=
  Zfp.highest field.stride field.size (zfpFieldDimensionality field)

section

variable {field : Field}

/-- The dimensions of a field are those whose sizes are not zero. -/
theorem Field.Valid.dims_cases (h : field.Valid) :
    zfpFieldDimensionality field = 1 ∧ 0 < field.nx ∧ field.ny = 0 ∧ field.nz = 0 ∧ field.nw = 0 ∨
    zfpFieldDimensionality field = 2 ∧ 0 < field.nx ∧ 0 < field.ny ∧ field.nz = 0 ∧ field.nw = 0 ∨
    zfpFieldDimensionality field = 3 ∧ 0 < field.nx ∧ 0 < field.ny ∧ 0 < field.nz ∧ field.nw = 0 ∨
    zfpFieldDimensionality field = 4 ∧ 0 < field.nx ∧ 0 < field.ny ∧ 0 < field.nz ∧
      0 < field.nw := by
  have hx := h.nx
  have hy := h.ny
  have hz := h.nz
  rw [zfpFieldDimensionality]
  split_ifs <;> omega

theorem Field.Valid.size_iff (h : field.Valid) {a : ℕ} (ha : a < 4) :
    a < zfpFieldDimensionality field ↔ 0 < field.size a := by
  obtain ⟨hd, h0, h1, h2, h3⟩ | ⟨hd, h0, h1, h2, h3⟩ | ⟨hd, h0, h1, h2, h3⟩ |
    ⟨hd, h0, h1, h2, h3⟩ := h.dims_cases <;>
  · rw [hd]
    interval_cases a <;> simp [Field.size, h0, h1, h2, h3]

theorem Field.Valid.dims_le (h : field.Valid) : zfpFieldDimensionality field ≤ 4 := by
  rcases h.dims_cases with h | h | h | h <;> omega

theorem Field.Valid.size_pos (h : field.Valid) :
    ∀ a < zfpFieldDimensionality field, 0 < field.size a := fun _ ha =>
  (h.size_iff (Nat.lt_of_lt_of_le ha h.dims_le)).mp ha

theorem ptrdiffT_sizeT (x : ℕ) : ptrdiffT (sizeT x) = ptrdiffT x := by
  rw [ptrdiffT, ptrdiffT, sizeT, Int.natCast_mod, Int.emod_bmod]

/-- A default that fits is that of the integers. -/
theorem default_eq {s : ℤ} {x : ℕ} {y : ℤ} (hy : (x : ℤ) = y)
    (h : FitsPtrdiff (if s ≠ 0 then s else y)) :
    (if s ≠ 0 then s else ptrdiffT (sizeT x)) = if s ≠ 0 then s else y := by
  split_ifs at h ⊢ with hs
  · rfl
  · rw [ptrdiffT_sizeT, hy, ptrdiffT_of_fits h]

theorem zfpFieldStride_eq {a : ℕ} (ha : a < 4) (h : FitsPtrdiff (field.stride a)) :
    zfpFieldStride field a = field.stride a := by
  have hcase : a = 0 ∨ a = 1 ∨ a = 2 ∨ a = 3 := by omega
  rcases hcase with rfl | rfl | rfl | rfl
  · rw [zfpFieldStride, Field.stride]
  · rw [zfpFieldStride, ← ptrdiffT_sizeT]
    exact default_eq rfl h
  · rw [zfpFieldStride]
    exact default_eq (Int.natCast_mul _ _) h
  · simp only [zfpFieldStride, Field.stride]
    exact default_eq (by rw [Int.natCast_mul, Int.natCast_mul]) h

theorem largestOffset_eq {a : ℕ} (ha : a < 4) (hsize : 0 < field.size a)
    (h : FitsPtrdiff (field.stride a)) (hmul : FitsPtrdiff (field.stride a * (field.size a - 1))) :
    largestOffset field a = field.stride a * (field.size a - 1) := by
  rw [largestOffset, if_pos hsize.ne', zfpFieldStride_eq ha h, Int.natCast_sub hsize,
    ptrdiffT, ptrdiffT, Int.mul_bmod_bmod]
  exact ptrdiffT_of_fits hmul

/-- An unused dimension contributes nothing. -/
theorem largestOffset_zero {a : ℕ} (hsize : field.size a = 0) : largestOffset field a = 0 := by
  rw [largestOffset, if_neg (not_not.mpr hsize)]

/-- Sums of terms of one sign fit as the last of them does. -/
theorem ptrdiffT_sum_nonpos {a b c d : ℤ} (ha : a ≤ 0) (hb : b ≤ 0) (hc : c ≤ 0) (hd : d ≤ 0)
    (h : FitsPtrdiff (a + b + c + d)) :
    ptrdiffT (ptrdiffT (ptrdiffT (a + b) + c) + d) = a + b + c + d := by
  obtain ⟨hlo, hhi⟩ := h
  have hab : FitsPtrdiff (a + b) := ⟨by omega, by omega⟩
  have habc : FitsPtrdiff (a + b + c) := ⟨by omega, by omega⟩
  rw [ptrdiffT_of_fits hab, ptrdiffT_of_fits habc, ptrdiffT_of_fits ⟨hlo, hhi⟩]

theorem ptrdiffT_sum_nonneg {a b c d : ℤ} (ha : 0 ≤ a) (hb : 0 ≤ b) (hc : 0 ≤ c) (hd : 0 ≤ d)
    (h : FitsPtrdiff (a + b + c + d)) :
    ptrdiffT (ptrdiffT (ptrdiffT (a + b) + c) + d) = a + b + c + d := by
  obtain ⟨hlo, hhi⟩ := h
  have hab : FitsPtrdiff (a + b) := ⟨by omega, by omega⟩
  have habc : FitsPtrdiff (a + b + c) := ⟨by omega, by omega⟩
  rw [ptrdiffT_of_fits hab, ptrdiffT_of_fits habc, ptrdiffT_of_fits ⟨hlo, hhi⟩]

/-- The extremes are sums over four dimensions whatever the number of those in use. -/
theorem Field.Valid.extremes_eq (h : field.Valid) (hp : field.ProductsFit) :
    min (largestOffset field 0) 0 + min (largestOffset field 1) 0 +
      min (largestOffset field 2) 0 + min (largestOffset field 3) 0 = field.lowest ∧
    max (largestOffset field 0) 0 + max (largestOffset field 1) 0 +
      max (largestOffset field 2) 0 + max (largestOffset field 3) 0 = field.highest := by
  have hused : ∀ a < zfpFieldDimensionality field,
      largestOffset field a = field.stride a * (field.size a - 1) := fun a ha =>
    largestOffset_eq (ha.trans_le h.dims_le) (h.size_pos a ha) (hp a ha).1 (hp a ha).2
  have hunused : ∀ a < 4, zfpFieldDimensionality field ≤ a → largestOffset field a = 0 :=
    fun a ha hd => largestOffset_zero (Nat.eq_zero_of_not_pos fun hpos =>
      absurd ((h.size_iff ha).mpr hpos) (Nat.not_lt.mpr hd))
  rw [Field.lowest, Field.highest]
  rcases h.dims_cases with ⟨hd, -⟩ | ⟨hd, -⟩ | ⟨hd, -⟩ | ⟨hd, -⟩ <;> rw [hd] at hused hunused ⊢
  · rw [hused 0 (by omega), hunused 1 (by omega) (by omega), hunused 2 (by omega) (by omega),
      hunused 3 (by omega) (by omega)]
    simp [Zfp.lowest, Zfp.highest]
  · rw [hused 0 (by omega), hused 1 (by omega), hunused 2 (by omega) (by omega),
      hunused 3 (by omega) (by omega)]
    simp [Zfp.lowest, Zfp.highest]
  · rw [hused 0 (by omega), hused 1 (by omega), hused 2 (by omega),
      hunused 3 (by omega) (by omega)]
    simp [Zfp.lowest, Zfp.highest]
  · rw [hused 0 (by omega), hused 1 (by omega), hused 2 (by omega), hused 3 (by omega)]
    simp [Zfp.lowest, Zfp.highest]

theorem fieldIndexSpan_eq (h : field.Valid) (hp : field.ProductsFit)
    (hlo : FitsPtrdiff field.lowest) (hhi : FitsPtrdiff field.highest) :
    fieldIndexSpan field = (field.lowest, field.highest,
      ((field.highest - field.lowest + 1) % 2 ^ 64).toNat) := by
  obtain ⟨hmin, hmax⟩ := h.extremes_eq hp
  rw [fieldIndexSpan,
    ptrdiffT_sum_nonpos (min_le_right _ _) (min_le_right _ _) (min_le_right _ _) (min_le_right _ _)
      (by rwa [hmin]),
    ptrdiffT_sum_nonneg (le_max_right _ _) (le_max_right _ _) (le_max_right _ _) (le_max_right _ _)
      (by rwa [hmax]), hmin, hmax]

/-- The sizes of the dimensions in use are those of the field. -/
theorem zfpFieldSize_eq (h : field.Valid) :
    zfpFieldSize field = sizeT (total field.size (zfpFieldDimensionality field)) := by
  rw [zfpFieldSize]
  obtain ⟨hd, h0, h1, h2, h3⟩ | ⟨hd, h0, h1, h2, h3⟩ | ⟨hd, h0, h1, h2, h3⟩ |
    ⟨hd, h0, h1, h2, h3⟩ := h.dims_cases <;> rw [hd]
  · rw [h1, h2, h3, max_eq_left h0]
    simp [total, Field.size]
  · rw [h2, h3, max_eq_left h0, max_eq_left h1]
    simp [total, Field.size]
  · rw [h3, max_eq_left h0, max_eq_left h1, max_eq_left h2]
    simp [total, Field.size]
  · rw [max_eq_left h0, max_eq_left h1, max_eq_left h2, max_eq_left h3]
    simp [total, Field.size]

end

theorem zfpTypeSize_pos {type : Option Scalar} (h : type ≠ none) : 0 < zfpTypeSize type := by
  obtain ⟨t, rfl⟩ := Option.ne_none_iff_exists'.mp h
  cases t <;> simp [zfpTypeSize]

/-- The span is exact if it fits: the extremes are the least and the greatest offset of an element,
and the lowest address, the byte size and contiguity follow from them. -/
theorem fieldIndexSpan_exact (field : Field) (h : field.Valid) (hp : field.ProductsFit)
    (hlo : FitsPtrdiff field.lowest) (hhi : FitsPtrdiff field.highest) :
    IsLeast field.offsets (fieldIndexSpan field).1 ∧
    IsGreatest field.offsets (fieldIndexSpan field).2.1 ∧
    (∀ data : ℤ, FitsPtrdiff (field.lowest * zfpTypeSize field.type) →
      ∃ p, zfpFieldBegin field (some data) = some p ∧
        IsLeast {q | ∃ x ∈ field.offsets, q = data + x * zfpTypeSize field.type} p) ∧
    ((field.highest - field.lowest + 1) * zfpTypeSize field.type < 2 ^ 64 →
      (zfpFieldSizeBytes field : ℤ) =
        (field.highest - field.lowest + 1) * zfpTypeSize field.type) ∧
    ((∀ c c', Within field.size (zfpFieldDimensionality field) c →
        Within field.size (zfpFieldDimensionality field) c' →
        span field.stride (zfpFieldDimensionality field) c =
          span field.stride (zfpFieldDimensionality field) c' →
        ∀ a < zfpFieldDimensionality field, c a = c' a) →
      (zfpFieldIsContiguous field ↔
        ∀ x, (fieldIndexSpan field).1 ≤ x → x ≤ (fieldIndexSpan field).2.1 →
          x ∈ field.offsets)) := by
  have hleast := isLeast_lowest field.stride h.size_pos
  have hgreatest := isGreatest_highest field.stride h.size_pos
  have hspan := fieldIndexSpan_eq h hp hlo hhi
  have horder : field.lowest ≤ field.highest := hleast.2 hgreatest.1
  obtain ⟨hlo₁, hlo₂⟩ := hlo
  obtain ⟨hhi₁, hhi₂⟩ := hhi
  refine ⟨by rwa [hspan], by rwa [hspan], fun data hfits => ?_, fun hbytes => ?_, fun hinj => ?_⟩
  · refine ⟨_, rfl, ?_⟩
    rw [hspan, ptrdiffT_of_fits hfits]
    refine ⟨⟨field.lowest, hleast.1, rfl⟩, ?_⟩
    rintro _ ⟨x, hx, rfl⟩
    have hle := mul_le_mul_of_nonneg_right (hleast.2 hx)
      (Int.natCast_nonneg (zfpTypeSize field.type))
    exact Int.add_le_add_left hle data
  · have hnonneg : 0 ≤ field.highest - field.lowest + 1 := by omega
    obtain ⟨extent, hextent⟩ := Int.eq_ofNat_of_zero_le hnonneg
    rw [hextent] at hbytes ⊢
    have hlt : extent * zfpTypeSize field.type < 2 ^ 64 := by exact_mod_cast hbytes
    have hle := (Nat.le_mul_of_pos_right extent (zfpTypeSize_pos h.type)).trans_lt hlt
    rw [zfpFieldSizeBytes, hspan, hextent]
    have hmod : ((extent : ℤ) % 2 ^ 64).toNat = extent := by omega
    rw [hmod, sizeT_of_lt hlt, Int.natCast_mul]
  · obtain ⟨hle, hiff⟩ := offsets_fill_iff field.stride h.size_pos hinj
    have hpos := total_pos h.size_pos
    have hsize := zfpFieldSize_eq h
    rw [← Field.lowest, ← Field.highest] at hle hiff
    rw [hspan, Field.offsets, ← hiff, zfpFieldIsContiguous, hspan, hsize, sizeT]
    dsimp only
    omega

/-- The first dimension of a 3 × 2 field is traversed backwards. -/
theorem fieldIndexSpan_reversed :
    IsLeast (Field.offsets ⟨some .double, 3, 2, 0, 0, -1, 0, 0, 0⟩) (-2) ∧
    IsGreatest (Field.offsets ⟨some .double, 3, 2, 0, 0, -1, 0, 0, 0⟩) 3 := by
  have hvalid : Field.Valid ⟨some .double, 3, 2, 0, 0, -1, 0, 0, 0⟩ :=
    ⟨by decide, by decide, by decide, by decide⟩
  have hproducts : Field.ProductsFit ⟨some .double, 3, 2, 0, 0, -1, 0, 0, 0⟩ := by
    intro a ha
    have hcase : a = 0 ∨ a = 1 := by
      have hd : a < 2 := ha
      omega
    rcases hcase with rfl | rfl <;> decide
  obtain ⟨hleast, hgreatest, -⟩ := fieldIndexSpan_exact _ hvalid hproducts (by decide) (by decide)
  exact ⟨hleast, hgreatest⟩

/-- Two offsets that fit can have a sum that does not. -/
theorem fieldIndexSpan_wraps :
    ¬ ∀ field : Field, field.Valid → field.ProductsFit →
      IsGreatest field.offsets (fieldIndexSpan field).2.1 := by
  intro h
  have hvalid : Field.Valid ⟨some .float, 3, 3, 0, 0, 2 ^ 61, 2 ^ 61, 0, 0⟩ :=
    ⟨by decide, by decide, by decide, by decide⟩
  have hproducts : Field.ProductsFit ⟨some .float, 3, 3, 0, 0, 2 ^ 61, 2 ^ 61, 0, 0⟩ := by
    intro a ha
    have hcase : a = 0 ∨ a = 1 := by
      have hd : a < 2 := ha
      omega
    rcases hcase with rfl | rfl <;> decide
  have horigin : (0 : ℤ) ∈ Field.offsets ⟨some .float, 3, 3, 0, 0, 2 ^ 61, 2 ^ 61, 0, 0⟩ :=
    ⟨fun _ => 0, fun a ha => hvalid.size_pos a ha, rfl⟩
  -- the highest offset is 2^63, which is not a value of its type
  exact absurd ((h _ hvalid hproducts).2 horigin) (by decide)

end Zfp

import Zfp.Mode

/-!
# Fields and their metadata

The description of an array: scalar type, sizes and strides. The metadata word packs the sizes
in 48 bits, split evenly among the dimensions, with the dimensionality and the type.
-/

namespace Zfp

/-- The value of a scalar type in the enumeration; zero is the unspecified type. -/
def zfpType : Option Scalar → ℕ
  | none => 0
  | some .int32 => 1 | some .int64 => 2 | some .float => 3 | some .double => 4

def ofZfpType : ℕ → Option Scalar
  | 1 => some .int32 | 2 => some .int64 | 3 => some .float | 4 => some .double | _ => none

/-- uncompressed array: scalar type, sizes (zero for unused dimensions) and strides (zero for a
contiguous array) -/
structure Field where
  type : Option Scalar
  nx : ℕ
  ny : ℕ
  nz : ℕ
  nw : ℕ
  sx : ℤ
  sy : ℤ
  sz : ℤ
  sw : ℤ
  deriving DecidableEq

def zfpFieldDimensionality (field : Field) : ℕ :=
  if field.nx ≠ 0 then
    if field.ny ≠ 0 then
      if field.nz ≠ 0 then
        if field.nw ≠ 0 then 4 else 3
      else 2
    else 1
  else 0

/-- A field of one to four nonzero sizes, the others being zero. -/
structure Field.Valid (field : Field) : Prop where
  type : field.type ≠ none
  nx : 0 < field.nx
  ny : field.ny = 0 → field.nz = 0
  nz : field.nz = 0 → field.nw = 0

def zfpTypeSize : Option Scalar → ℕ
  | some .int32 => 4 | some .int64 => 8 | some .float => 4 | some .double => 8 | none => 0

def ZFP_META_NULL : BitVec 64 := BitVec.allOnes 64

def ZFP_META_BITS : ℕ := 52

def zfpFieldMetadata (field : Field) : BitVec 64 :=
  let dims := zfpFieldDimensionality field
  -- dimensionality and scalar type follow the 48 bits for dimensions
  let finish := fun word => pushField (pushField word 2 (uintSub dims 1)) 2
    (uintSub (zfpType field.type) 1)
  match dims with
  | 1 =>
    if (field.nx - 1) >>> 48 ≠ 0 then ZFP_META_NULL
    else finish (pushField 0 48 (field.nx - 1))
  | 2 =>
    if (field.nx - 1) >>> 24 ≠ 0 ∨ (field.ny - 1) >>> 24 ≠ 0 then ZFP_META_NULL
    else finish (pushField (pushField 0 24 (field.ny - 1)) 24 (field.nx - 1))
  | 3 =>
    if (field.nx - 1) >>> 16 ≠ 0 ∨ (field.ny - 1) >>> 16 ≠ 0 ∨ (field.nz - 1) >>> 16 ≠ 0 then
      ZFP_META_NULL
    else finish (pushField (pushField (pushField 0 16 (field.nz - 1)) 16 (field.ny - 1)) 16
      (field.nx - 1))
  | 4 =>
    if (field.nx - 1) >>> 12 ≠ 0 ∨ (field.ny - 1) >>> 12 ≠ 0 ∨ (field.nz - 1) >>> 12 ≠ 0 ∨
      (field.nw - 1) >>> 12 ≠ 0 then ZFP_META_NULL
    else finish (pushField (pushField (pushField (pushField 0 12 (field.nw - 1)) 12 (field.nz - 1))
      12 (field.ny - 1)) 12 (field.nx - 1))
  | _ => finish 0

/-- The field that a metadata word describes; none if the word is out of range. -/
def zfpFieldSetMetadata (word : BitVec 64) : Option Field :=
  if (word >>> ZFP_META_BITS).toNat ≠ 0 then none
  else
    let type := ofZfpType (maskField word 0x3 + 1)
    let word := word >>> 2
    let dims := maskField word 0x3 + 1
    let word := word >>> 2
    match dims with
    -- currently dimensions are limited to 2^32 - 1
    | 1 => some ⟨type, maskField word 0xffffffff + 1, 0, 0, 0, 0, 0, 0, 0⟩
    | 2 => some ⟨type, maskField word 0xffffff + 1, maskField (word >>> 24) 0xffffff + 1, 0, 0,
        0, 0, 0, 0⟩
    | 3 => some ⟨type, maskField word 0xffff + 1, maskField (word >>> 16) 0xffff + 1,
        maskField (word >>> 16 >>> 16) 0xffff + 1, 0, 0, 0, 0, 0⟩
    | _ => some ⟨type, maskField word 0xfff + 1, maskField (word >>> 12) 0xfff + 1,
        maskField (word >>> 12 >>> 12) 0xfff + 1, maskField (word >>> 12 >>> 12 >>> 12) 0xfff + 1,
        0, 0, 0, 0⟩

def Field.contiguous (field : Field) : Field := { field with sx := 0, sy := 0, sz := 0, sw := 0 }

theorem ofZfpType_zfpType (S : Scalar) : ofZfpType (uintSub (zfpType (some S)) 1 + 1) = some S := by
  cases S <;> rw [uintSub_eq (by decide) (by decide)] <;> rfl

theorem zfpType_sub_lt {type : Option Scalar} (h : type ≠ none) :
    uintSub (zfpType type) 1 < 2 ^ 2 := by
  cases type with
  | none => exact absurd rfl h
  | some S => cases S <;> rw [uintSub_eq (by decide) (by decide)] <;> decide

/-- A packed word of sizes, followed by dimensionality and type. -/
theorem toNat_metadata {word : BitVec 64} {m a b : ℕ} (hw : word.toNat = m) (hm : m < 2 ^ 48)
    (ha : a < 2 ^ 2) (hb : b < 2 ^ 2) :
    (pushField (pushField word 2 a) 2 b).toNat = (m * 2 ^ 2 + a) * 2 ^ 2 + b := by
  have h1 : (pushField word 2 a).toNat = m * 2 ^ 2 + a := by
    rw [toNat_pushField] <;> rw [hw]
    omega
  rw [toNat_pushField] <;> rw [h1]
  omega

/-- The low fields of a metadata word. -/
theorem metadata_fields {word : BitVec 64} {m a b : ℕ} (hw : word.toNat = (m * 2 ^ 2 + a) * 2 ^ 2 + b)
    (hm : m < 2 ^ 48) (ha : a < 2 ^ 2) (hb : b < 2 ^ 2) :
    (word >>> ZFP_META_BITS).toNat = 0 ∧ maskField word 0x3 = b ∧
      maskField (word >>> 2) 0x3 = a ∧ (word >>> 2 >>> 2).toNat = m := by
  have h3 : ∀ word : BitVec 64, maskField word 0x3 = word.toNat % 2 ^ 2 :=
    fun word => maskField_eq word (by decide) rfl
  rw [h3, h3]
  simp only [toNat_ushiftRight_eq, hw, ZFP_META_BITS]
  omega

private theorem toNat_push {word : BitVec 64} {b k v m : ℕ} (hw : word.toNat = m) (hm : m < 2 ^ k)
    (hv : v < 2 ^ b) (hk : k + b ≤ 48) :
    (pushField word b v).toNat = m * 2 ^ b + v ∧ m * 2 ^ b + v < 2 ^ (k + b) := by
  have hlt : m * 2 ^ b + v < 2 ^ (k + b) := by
    have hle : (m + 1) * 2 ^ b ≤ 2 ^ k * 2 ^ b := Nat.mul_le_mul_right _ hm
    rw [Nat.pow_add]
    rw [Nat.add_mul, Nat.one_mul] at hle
    omega
  have h64 : 2 ^ (k + b) ≤ 2 ^ 64 := Nat.pow_le_pow_right (by decide) (by omega)
  refine ⟨?_, hlt⟩
  rw [toNat_pushField] <;> rw [hw]
  omega

private theorem sub_one_lt {n b : ℕ} (h : ¬ (n - 1) >>> b ≠ 0) : n - 1 < 2 ^ b := by
  rw [Nat.shiftRight_eq_div_pow, not_not, Nat.div_eq_zero_iff] at h
  have := Nat.two_pow_pos b
  omega

/-- The sizes that the metadata hold, by dimensionality. -/
private def unpacked (dims m : ℕ) (type : Option Scalar) : Field :=
  match dims with
  | 1 => ⟨type, m % 2 ^ 32 + 1, 0, 0, 0, 0, 0, 0, 0⟩
  | 2 => ⟨type, m % 2 ^ 24 + 1, m / 2 ^ 24 % 2 ^ 24 + 1, 0, 0, 0, 0, 0, 0⟩
  | 3 => ⟨type, m % 2 ^ 16 + 1, m / 2 ^ 16 % 2 ^ 16 + 1, m / 2 ^ 16 / 2 ^ 16 % 2 ^ 16 + 1, 0,
      0, 0, 0, 0⟩
  | _ => ⟨type, m % 2 ^ 12 + 1, m / 2 ^ 12 % 2 ^ 12 + 1, m / 2 ^ 12 / 2 ^ 12 % 2 ^ 12 + 1,
      m / 2 ^ 12 / 2 ^ 12 / 2 ^ 12 % 2 ^ 12 + 1, 0, 0, 0, 0⟩

private theorem zfpFieldSetMetadata_eq {word : BitVec 64} {m a b : ℕ}
    (hw : word.toNat = (m * 2 ^ 2 + a) * 2 ^ 2 + b) (hm : m < 2 ^ 48) (ha : a < 2 ^ 2)
    (hb : b < 2 ^ 2) :
    zfpFieldSetMetadata word = some (unpacked (a + 1) m (ofZfpType (b + 1))) := by
  obtain ⟨hzero, htype, hdims, hsizes⟩ := metadata_fields hw hm ha hb
  have h32 : ∀ word : BitVec 64, maskField word 0xffffffff = word.toNat % 2 ^ 32 :=
    fun word => maskField_eq word (by decide) rfl
  have h24 : ∀ word : BitVec 64, maskField word 0xffffff = word.toNat % 2 ^ 24 :=
    fun word => maskField_eq word (by decide) rfl
  have h16 : ∀ word : BitVec 64, maskField word 0xffff = word.toNat % 2 ^ 16 :=
    fun word => maskField_eq word (by decide) rfl
  have h12 : ∀ word : BitVec 64, maskField word 0xfff = word.toNat % 2 ^ 12 :=
    fun word => maskField_eq word (by decide) rfl
  rw [zfpFieldSetMetadata, if_neg (not_not.mpr hzero)]
  dsimp only
  rw [htype, hdims]
  obtain rfl | rfl | rfl | rfl : a = 0 ∨ a = 1 ∨ a = 2 ∨ a = 3 := by omega
  · simp only [h32, hsizes, unpacked]
  · simp only [h24, hsizes, unpacked, toNat_ushiftRight_eq]
  · simp only [h16, hsizes, unpacked, toNat_ushiftRight_eq]
  · simp only [h12, hsizes, unpacked, toNat_ushiftRight_eq]

/-- The metadata of a field describe the field, but for its strides. -/
theorem zfpFieldSetMetadata_metadata {field : Field} (hf : field.Valid)
    (hnull : zfpFieldMetadata field ≠ ZFP_META_NULL)
    (hx : zfpFieldDimensionality field = 1 → field.nx ≤ 2 ^ 32) :
    zfpFieldSetMetadata (zfpFieldMetadata field) = some field.contiguous ∧
      (zfpFieldMetadata field).toNat < 2 ^ ZFP_META_BITS := by
  obtain ⟨type, nx, ny, nz, nw, sx, sy, sz, sw⟩ := field
  obtain ⟨htype, hnx, hny, hnz⟩ := hf
  dsimp only at htype hnx hny hnz
  have htypeLt := zfpType_sub_lt htype
  obtain ⟨S, rfl⟩ := Option.ne_none_iff_exists'.mp htype
  have hof := ofZfpType_zfpType S
  have hdone : ∀ {word : BitVec 64} {m a : ℕ}, word.toNat = m → m < 2 ^ 48 → a < 2 ^ 2 →
      unpacked (a + 1) m (some S) = ⟨some S, nx, ny, nz, nw, 0, 0, 0, 0⟩ →
      zfpFieldSetMetadata (pushField (pushField word 2 a) 2 (uintSub (zfpType (some S)) 1)) =
          some ⟨some S, nx, ny, nz, nw, 0, 0, 0, 0⟩ ∧
        (pushField (pushField word 2 a) 2 (uintSub (zfpType (some S)) 1)).toNat <
          2 ^ ZFP_META_BITS := by
    intro word m a hw hm ha hun
    have hval := toNat_metadata hw hm ha htypeLt
    rw [zfpFieldSetMetadata_eq hval hm ha htypeLt, hof, hun, hval, ZFP_META_BITS]
    exact ⟨rfl, by omega⟩
  rw [Field.contiguous]
  have h0 : (0 : BitVec 64).toNat = 0 := rfl
  rcases Nat.eq_zero_or_pos ny with rfl | hypos
  · obtain rfl := hny rfl
    obtain rfl := hnz rfl
    have hdims : zfpFieldDimensionality ⟨some S, nx, 0, 0, 0, sx, sy, sz, sw⟩ = 1 := by
      rw [zfpFieldDimensionality, if_pos hnx.ne', if_neg (by simp)]
    have hle := hx hdims
    have hmeta : zfpFieldMetadata ⟨some S, nx, 0, 0, 0, sx, sy, sz, sw⟩ =
        if (nx - 1) >>> 48 ≠ 0 then ZFP_META_NULL
        else pushField (pushField (pushField 0 48 (nx - 1)) 2 (uintSub 1 1)) 2
          (uintSub (zfpType (some S)) 1) := by
      simp only [zfpFieldMetadata, hdims]
    rw [hmeta] at hnull ⊢
    by_cases hfit : (nx - 1) >>> 48 ≠ 0
    · exact absurd (if_pos hfit) hnull
    · rw [if_neg hfit, uintSub_eq (by decide) (by decide)]
      obtain ⟨hw, hm⟩ := toNat_push h0 (k := 0) (by decide) (sub_one_lt hfit) (by decide)
      refine hdone hw hm (by decide) ?_
      dsimp only at hle
      simp only [unpacked, Field.mk.injEq, and_true, true_and]
      omega
  · rcases Nat.eq_zero_or_pos nz with rfl | hzpos
    · obtain rfl := hnz rfl
      have hdims : zfpFieldDimensionality ⟨some S, nx, ny, 0, 0, sx, sy, sz, sw⟩ = 2 := by
        rw [zfpFieldDimensionality, if_pos hnx.ne', if_pos hypos.ne', if_neg (by simp)]
      have hmeta : zfpFieldMetadata ⟨some S, nx, ny, 0, 0, sx, sy, sz, sw⟩ =
          if (nx - 1) >>> 24 ≠ 0 ∨ (ny - 1) >>> 24 ≠ 0 then ZFP_META_NULL
          else pushField (pushField (pushField (pushField 0 24 (ny - 1)) 24 (nx - 1)) 2
            (uintSub 2 1)) 2 (uintSub (zfpType (some S)) 1) := by
        simp only [zfpFieldMetadata, hdims]
      rw [hmeta] at hnull ⊢
      by_cases hfit : (nx - 1) >>> 24 ≠ 0 ∨ (ny - 1) >>> 24 ≠ 0
      · exact absurd (if_pos hfit) hnull
      · rw [if_neg hfit, uintSub_eq (by decide) (by decide)]
        rw [not_or] at hfit
        have hxlt := sub_one_lt hfit.1
        have hylt := sub_one_lt hfit.2
        obtain ⟨hy, hym⟩ := toNat_push h0 (k := 0) (by decide) hylt (by decide)
        obtain ⟨hw, hm⟩ := toNat_push hy hym hxlt (by decide)
        refine hdone hw hm (by decide) ?_
        simp only [unpacked, Field.mk.injEq, and_true, true_and]
        omega
    · rcases Nat.eq_zero_or_pos nw with rfl | hwpos
      · have hdims : zfpFieldDimensionality ⟨some S, nx, ny, nz, 0, sx, sy, sz, sw⟩ = 3 := by
          rw [zfpFieldDimensionality, if_pos hnx.ne', if_pos hypos.ne', if_pos hzpos.ne',
            if_neg (by simp)]
        have hmeta : zfpFieldMetadata ⟨some S, nx, ny, nz, 0, sx, sy, sz, sw⟩ =
            if (nx - 1) >>> 16 ≠ 0 ∨ (ny - 1) >>> 16 ≠ 0 ∨ (nz - 1) >>> 16 ≠ 0 then ZFP_META_NULL
            else pushField (pushField (pushField (pushField (pushField 0 16 (nz - 1)) 16 (ny - 1)) 16
              (nx - 1)) 2 (uintSub 3 1)) 2 (uintSub (zfpType (some S)) 1) := by
          simp only [zfpFieldMetadata, hdims]
        rw [hmeta] at hnull ⊢
        by_cases hfit : (nx - 1) >>> 16 ≠ 0 ∨ (ny - 1) >>> 16 ≠ 0 ∨ (nz - 1) >>> 16 ≠ 0
        · exact absurd (if_pos hfit) hnull
        · rw [if_neg hfit, uintSub_eq (by decide) (by decide)]
          rw [not_or, not_or] at hfit
          have hxlt := sub_one_lt hfit.1
          have hylt := sub_one_lt hfit.2.1
          have hzlt := sub_one_lt hfit.2.2
          obtain ⟨hz, hzm⟩ := toNat_push h0 (k := 0) (by decide) hzlt (by decide)
          obtain ⟨hy, hym⟩ := toNat_push hz hzm hylt (by decide)
          obtain ⟨hw, hm⟩ := toNat_push hy hym hxlt (by decide)
          refine hdone hw hm (by decide) ?_
          simp only [unpacked, Field.mk.injEq, and_true, true_and]
          omega
      · have hdims : zfpFieldDimensionality ⟨some S, nx, ny, nz, nw, sx, sy, sz, sw⟩ = 4 := by
          rw [zfpFieldDimensionality, if_pos hnx.ne', if_pos hypos.ne', if_pos hzpos.ne',
            if_pos hwpos.ne']
        have hmeta : zfpFieldMetadata ⟨some S, nx, ny, nz, nw, sx, sy, sz, sw⟩ =
            if (nx - 1) >>> 12 ≠ 0 ∨ (ny - 1) >>> 12 ≠ 0 ∨ (nz - 1) >>> 12 ≠ 0 ∨
              (nw - 1) >>> 12 ≠ 0 then ZFP_META_NULL
            else pushField (pushField (pushField (pushField (pushField (pushField 0 12 (nw - 1)) 12
              (nz - 1)) 12 (ny - 1)) 12 (nx - 1)) 2 (uintSub 4 1)) 2
              (uintSub (zfpType (some S)) 1) := by
          simp only [zfpFieldMetadata, hdims]
        rw [hmeta] at hnull ⊢
        by_cases hfit : (nx - 1) >>> 12 ≠ 0 ∨ (ny - 1) >>> 12 ≠ 0 ∨ (nz - 1) >>> 12 ≠ 0 ∨
            (nw - 1) >>> 12 ≠ 0
        · exact absurd (if_pos hfit) hnull
        · rw [if_neg hfit, uintSub_eq (by decide) (by decide)]
          rw [not_or, not_or, not_or] at hfit
          have hxlt := sub_one_lt hfit.1
          have hylt := sub_one_lt hfit.2.1
          have hzlt := sub_one_lt hfit.2.2.1
          have hwlt := sub_one_lt hfit.2.2.2
          obtain ⟨hv, hvm⟩ := toNat_push h0 (k := 0) (by decide) hwlt (by decide)
          obtain ⟨hz, hzm⟩ := toNat_push hv hvm hzlt (by decide)
          obtain ⟨hy, hym⟩ := toNat_push hz hzm hylt (by decide)
          obtain ⟨hw, hm⟩ := toNat_push hy hym hxlt (by decide)
          refine hdone hw hm (by decide) ?_
          simp only [unpacked, Field.mk.injEq, and_true, true_and]
          omega

/-! ## Words and fields -/

/-- A one-dimensional field of more than `2 ^ 32` elements is decoded to a smaller one. -/
theorem zfpFieldSetMetadata_long {field : Field} (hf : field.Valid)
    (hnull : zfpFieldMetadata field ≠ ZFP_META_NULL) (hdims : zfpFieldDimensionality field = 1)
    (hlong : 2 ^ 32 < field.nx) :
    zfpFieldSetMetadata (zfpFieldMetadata field) ≠ some field.contiguous := by
  obtain ⟨type, nx, ny, nz, nw, sx, sy, sz, sw⟩ := field
  have htypeLt := zfpType_sub_lt hf.type
  have hmeta : zfpFieldMetadata ⟨type, nx, ny, nz, nw, sx, sy, sz, sw⟩ =
      if (nx - 1) >>> 48 ≠ 0 then ZFP_META_NULL
      else pushField (pushField (pushField 0 48 (nx - 1)) 2 (uintSub 1 1)) 2
        (uintSub (zfpType type) 1) := by
    simp only [zfpFieldMetadata, hdims]
  rw [hmeta] at hnull ⊢
  by_cases hfit : (nx - 1) >>> 48 ≠ 0
  · exact absurd (if_pos hfit) hnull
  · rw [if_neg hfit, uintSub_eq (by decide) (by decide)]
    have hzero : (0 : BitVec 64).toNat = 0 := rfl
    obtain ⟨hw, hm⟩ := toNat_push hzero (k := 0) (by decide) (sub_one_lt hfit) (by decide)
    have hval := toNat_metadata hw hm (show 1 - 1 < 2 ^ 2 by decide) htypeLt
    rw [zfpFieldSetMetadata_eq hval hm (by decide) htypeLt]
    intro heq
    have hx : (0 * 2 ^ 48 + (nx - 1)) % 2 ^ 32 + 1 = nx := congrArg Field.nx (Option.some.inj heq)
    have hlt := Nat.mod_lt (0 * 2 ^ 48 + (nx - 1)) (show 0 < 2 ^ 32 by decide)
    dsimp only at hlong
    omega

private theorem zfpType_ofZfpType {b : ℕ} (hb : b < 2 ^ 2) :
    uintSub (zfpType (ofZfpType (b + 1))) 1 = b := by
  obtain rfl | rfl | rfl | rfl : b = 0 ∨ b = 1 ∨ b = 2 ∨ b = 3 := by omega
  all_goals exact uintSub_eq (by decide) (by decide)

/-- The sizes of a decoded word fit, and are packed to the word again, up to the bits that one
dimension ignores. -/
private theorem packed_unpacked {m a b : ℕ} (hm : m < 2 ^ 48) (ha : a < 2 ^ 2) :
    ∃ word : BitVec 64, word.toNat = (if a = 0 then m % 2 ^ 32 else m) ∧
      zfpFieldMetadata (unpacked (a + 1) m (ofZfpType (b + 1))) =
        pushField (pushField word 2 (uintSub (a + 1) 1)) 2
          (uintSub (zfpType (ofZfpType (b + 1))) 1) := by
  have h0 : (0 : BitVec 64).toNat = 0 := rfl
  have hmod (k n : ℕ) : n % 2 ^ k < 2 ^ k := Nat.mod_lt n (Nat.two_pow_pos k)
  obtain rfl | rfl | rfl | rfl : a = 0 ∨ a = 1 ∨ a = 2 ∨ a = 3 := by omega
  · have hx : m % 2 ^ 32 < 2 ^ 48 := (hmod 32 m).trans (by decide)
    obtain ⟨hw, -⟩ := toNat_push h0 (k := 0) (by decide) hx (by decide)
    refine ⟨pushField 0 48 (m % 2 ^ 32), ?_, ?_⟩
    · rw [hw, if_pos rfl]
      omega
    · have hfit : ¬ 2 ^ 48 ≤ m % 2 ^ 32 := Nat.not_le.mpr hx
      simpa [unpacked, zfpFieldMetadata, zfpFieldDimensionality, Nat.shiftRight_eq_div_pow] using
        fun h => absurd h hfit
  · obtain ⟨hy, hym⟩ := toNat_push h0 (k := 0) (by decide) (hmod 24 (m / 2 ^ 24)) (by decide)
    obtain ⟨hw, -⟩ := toNat_push hy hym (hmod 24 m) (by decide)
    refine ⟨pushField (pushField 0 24 (m / 2 ^ 24 % 2 ^ 24)) 24 (m % 2 ^ 24), ?_, ?_⟩
    · rw [hw, if_neg (by decide)]
      omega
    · simp [unpacked, zfpFieldMetadata, zfpFieldDimensionality, Nat.shiftRight_eq_div_pow]
  · obtain ⟨hz, hzm⟩ := toNat_push h0 (k := 0) (by decide) (hmod 16 (m / 2 ^ 16 / 2 ^ 16))
      (by decide)
    obtain ⟨hy, hym⟩ := toNat_push hz hzm (hmod 16 (m / 2 ^ 16)) (by decide)
    obtain ⟨hw, -⟩ := toNat_push hy hym (hmod 16 m) (by decide)
    refine ⟨pushField (pushField (pushField 0 16 (m / 2 ^ 16 / 2 ^ 16 % 2 ^ 16)) 16
      (m / 2 ^ 16 % 2 ^ 16)) 16 (m % 2 ^ 16), ?_, ?_⟩
    · rw [hw, if_neg (by decide)]
      omega
    · simp [unpacked, zfpFieldMetadata, zfpFieldDimensionality, Nat.shiftRight_eq_div_pow]
  · obtain ⟨hv, hvm⟩ := toNat_push h0 (k := 0) (by decide)
      (hmod 12 (m / 2 ^ 12 / 2 ^ 12 / 2 ^ 12)) (by decide)
    obtain ⟨hz, hzm⟩ := toNat_push hv hvm (hmod 12 (m / 2 ^ 12 / 2 ^ 12)) (by decide)
    obtain ⟨hy, hym⟩ := toNat_push hz hzm (hmod 12 (m / 2 ^ 12)) (by decide)
    obtain ⟨hw, -⟩ := toNat_push hy hym (hmod 12 m) (by decide)
    refine ⟨pushField (pushField (pushField (pushField 0 12 (m / 2 ^ 12 / 2 ^ 12 / 2 ^ 12 % 2 ^ 12))
      12 (m / 2 ^ 12 / 2 ^ 12 % 2 ^ 12)) 12 (m / 2 ^ 12 % 2 ^ 12)) 12 (m % 2 ^ 12), ?_, ?_⟩
    · rw [hw, if_neg (by decide)]
      omega
    · simp [unpacked, zfpFieldMetadata, zfpFieldDimensionality, Nat.shiftRight_eq_div_pow]

/-- The parts of a metadata word. -/
private theorem metadata_parts (word : BitVec 64) :
    word.toNat = (word.toNat / 2 ^ 4 * 2 ^ 2 + word.toNat / 2 ^ 2 % 2 ^ 2) * 2 ^ 2 +
      word.toNat % 2 ^ 2 := by
  omega

/-- A metadata word describes a field, whose metadata are the word again unless the field has one
dimension and the word has bits above the 32 that are decoded. -/
theorem zfpFieldMetadata_setMetadata {word : BitVec 64} (hword : word.toNat < 2 ^ ZFP_META_BITS) :
    ∃ field, zfpFieldSetMetadata word = some field ∧
      (zfpFieldMetadata field = word ↔
        (word.toNat / 2 ^ 2 % 2 ^ 2 = 0 → word.toNat / 2 ^ 4 < 2 ^ 32)) := by
  have hparts := metadata_parts word
  rw [ZFP_META_BITS] at hword
  have hm : word.toNat / 2 ^ 4 < 2 ^ 48 := by omega
  have ha : word.toNat / 2 ^ 2 % 2 ^ 2 < 2 ^ 2 := Nat.mod_lt _ (by decide)
  have hb : word.toNat % 2 ^ 2 < 2 ^ 2 := Nat.mod_lt _ (by decide)
  refine ⟨_, zfpFieldSetMetadata_eq hparts hm ha hb, ?_⟩
  obtain ⟨sizes, hsizes, hmeta⟩ := packed_unpacked (b := word.toNat % 2 ^ 2) hm ha
  have hlt : (if word.toNat / 2 ^ 2 % 2 ^ 2 = 0 then word.toNat / 2 ^ 4 % 2 ^ 32
      else word.toNat / 2 ^ 4) < 2 ^ 48 := by
    split_ifs <;> omega
  have hdims : uintSub (word.toNat / 2 ^ 2 % 2 ^ 2 + 1) 1 = word.toNat / 2 ^ 2 % 2 ^ 2 := by
    rw [uintSub_eq (by omega) (by omega), Nat.add_sub_cancel]
  have hval := toNat_metadata hsizes hlt ha hb
  rw [hmeta, zfpType_ofZfpType hb, hdims, ← BitVec.toNat_inj, hval]
  split_ifs <;> omega

/-- Encoding and decoding field metadata are inverse to each other, except for one-dimensional
fields of more than `2 ^ 32` elements: the encoder accepts sizes up to `2 ^ 48` but the decoder
reads 32 bits. -/
theorem field_metadata_iff (field : Field) (hf : field.Valid)
    (hnull : zfpFieldMetadata field ≠ ZFP_META_NULL) (word : BitVec 64)
    (hword : word.toNat < 2 ^ ZFP_META_BITS) :
    (zfpFieldSetMetadata (zfpFieldMetadata field) = some field.contiguous ↔
      (zfpFieldDimensionality field = 1 → field.nx ≤ 2 ^ 32)) ∧
    ∃ described, zfpFieldSetMetadata word = some described ∧
      (zfpFieldMetadata described = word ↔
        (word.toNat / 2 ^ 2 % 2 ^ 2 = 0 → word.toNat / 2 ^ 4 < 2 ^ 32)) := by
  constructor
  · constructor
    · intro heq hdims
      by_contra hlong
      exact zfpFieldSetMetadata_long hf hnull hdims (by omega) heq
    · intro hx
      exact (zfpFieldSetMetadata_metadata hf hnull hx).1
  · exact zfpFieldMetadata_setMetadata hword

/-- A one-dimensional field of `2 ^ 32` elements, the largest that is restored. -/
theorem field_metadata_largest :
    let field : Field := ⟨some .float, 2 ^ 32, 0, 0, 0, 0, 0, 0, 0⟩
    zfpFieldSetMetadata (zfpFieldMetadata field) = some field.contiguous :=
  (field_metadata_iff ⟨some .float, 2 ^ 32, 0, 0, 0, 0, 0, 0, 0⟩
    ⟨by decide, by decide, by decide, by decide⟩
    (by simp only [zfpFieldMetadata, zfpFieldDimensionality, uintSub]; decide)
    0 (by decide)).1.mpr fun _ => by decide

/-- One element more: the metadata are valid and describe a field of one element. -/
theorem field_metadata_truncated :
    ¬ ((∀ field : Field, field.Valid → zfpFieldMetadata field ≠ ZFP_META_NULL →
        zfpFieldSetMetadata (zfpFieldMetadata field) = some field.contiguous) ∧
      ∀ word : BitVec 64, word.toNat < 2 ^ ZFP_META_BITS →
        ∃ field, zfpFieldSetMetadata word = some field ∧ zfpFieldMetadata field = word) := by
  intro h
  have hnull : zfpFieldMetadata ⟨some .float, 2 ^ 32 + 1, 0, 0, 0, 0, 0, 0, 0⟩ ≠ ZFP_META_NULL := by
    simp only [zfpFieldMetadata, zfpFieldDimensionality, uintSub]
    decide
  have hvalid : Field.Valid ⟨some .float, 2 ^ 32 + 1, 0, 0, 0, 0, 0, 0, 0⟩ :=
    ⟨by decide, by decide, by decide, by decide⟩
  exact zfpFieldSetMetadata_long hvalid hnull (by decide) (by decide) (h.1 _ hvalid hnull)

end Zfp

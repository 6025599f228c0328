import Zfp.BlockParams
import Zfp.HybridIndex

/-!
# The index of 24 bits per block

A record of four blocks holds the 32 high bits of a 44-bit base offset and, for each block, a
16-bit offset from there.
-/

namespace Zfp

structure Record4 where
  hi : BitVec 32
  lo : Fin 4 → BitVec 16

namespace Hybrid4

/-- number of bits to shift hi bits -/
def shift : ℕ := 12

/-- The value of `ptr` after `k` passes of the loop that stores the low bits. -/
def advance (ptr : U64) (buffer : ℕ → U64) : ℕ → U64
  | 0 => ptr
  | k + 1 => advance ptr buffer k + buffer k

def encode (ptr : U64) (buffer : ℕ → U64) : Option (Record4 × U64) :=
  if ptr >>> (32 + shift) ≠ 0 then none
  else
    let hi := (ptr >>> shift).setWidth 32
    let base := hi.setWidth 64 <<< shift
    some (⟨hi, fun k => (advance ptr buffer k - base).setWidth 16⟩, advance ptr buffer 4)

/-- The difference of two `uint16` values, computed in `int` and converted to `size_t`. -/
def size (record : Record4) (which : ℕ) : U64 :=
  (record.lo (Fin.ofNat 4 (which + 1))).setWidth 64 - (record.lo (Fin.ofNat 4 which)).setWidth 64

def offset (record : Record4) (which : ℕ) : U64 :=
  record.hi.setWidth 64 <<< shift + (record.lo (Fin.ofNat 4 which)).setWidth 64

end Hybrid4

def hybrid4 : ChunkCodec Record4 where
  width := 4
  oversize size := decide (size.toNat > ZFP_MAX_BITS)
  oversizeError := "zfp block size is too large for hybrid4 index"
  encode := Hybrid4.encode
  encodeError := "zfp block offset is too large for hybrid4 index"
  size := Hybrid4.size
  offset := Hybrid4.offset

namespace Hybrid4

theorem advance_eq (ptr : U64) (buffer : ℕ → U64) (k : ℕ) :
    advance ptr buffer k = ptr + offsetOf buffer k := by
  induction k with
  | zero => rw [advance, offsetOf_zero, add_zero]
  | succ k ih => rw [advance, ih, offsetOf_succ, add_assoc]

theorem ushiftRight_eq_zero_iff (ptr : U64) (n : ℕ) : ptr >>> n = 0 ↔ ptr.toNat < 2 ^ n := by
  have hpos := Nat.two_pow_pos n
  rw [← BitVec.toNat_inj, BitVec.toNat_ushiftRight, Nat.shiftRight_eq_div_pow]
  exact Nat.div_eq_zero_iff_lt hpos

theorem isSome_encode (ptr : U64) (buffer : ℕ → U64) :
    (encode ptr buffer).isSome = true ↔ ptr.toNat < 2 ^ 44 := by
  have h := ushiftRight_eq_zero_iff ptr 44
  rw [encode]
  split_ifs with hptr
  · simp only [Option.isSome_none, Bool.false_eq_true, false_iff]
    exact fun hlt => hptr (h.mpr hlt)
  · simp only [Option.isSome_some, true_iff]
    exact h.mp (not_not.mp hptr)

theorem sum_le {buffer : ℕ → U64} {w : ℕ} (hsize : ∀ j < w, (buffer j).toNat ≤ ZFP_MAX_BITS)
    {k : ℕ} (hk : k ≤ w) : ∑ j ∈ Finset.range k, (buffer j).toNat ≤ k * ZFP_MAX_BITS := by
  induction k with
  | zero => simp
  | succ k ih =>
    have hle := ih (by omega)
    have hlast := hsize k hk
    rw [Finset.sum_range_succ, Nat.succ_mul]
    omega

/-- The fields of a record are narrow enough for what is stored in them. -/
theorem encode_fields {ptr p : U64} {buffer : ℕ → U64} {r : Record4}
    (h : encode ptr buffer = some (r, p))
    (hsize : ∀ j < 4, (buffer j).toNat ≤ ZFP_MAX_BITS) :
    r.hi.toNat = ptr.toNat / 2 ^ shift ∧
      ∀ k : Fin 4, (r.lo k).toNat + 2 ^ shift * r.hi.toNat =
        ptr.toNat + ∑ j ∈ Finset.range k, (buffer j).toNat := by
  have hptr : ptr.toNat < 2 ^ 44 := by
    rw [← isSome_encode ptr buffer, h]
    rfl
  have hsome : ¬ ptr >>> (32 + shift) ≠ 0 := not_not.mpr ((ushiftRight_eq_zero_iff ptr 44).mpr hptr)
  rw [encode, if_neg hsome, Option.some.injEq, Prod.mk.injEq] at h
  obtain ⟨rfl, -⟩ := h
  have hhi : ((ptr >>> shift).setWidth 32).toNat = ptr.toNat / 2 ^ shift := by
    rw [BitVec.toNat_setWidth, BitVec.toNat_ushiftRight, Nat.shiftRight_eq_div_pow]
    apply Nat.mod_eq_of_lt
    rw [shift]
    omega
  have hbase : (((ptr >>> shift).setWidth 32).setWidth 64 <<< shift).toNat =
      2 ^ shift * (ptr.toNat / 2 ^ shift) := by
    rw [BitVec.toNat_shiftLeft, BitVec.toNat_setWidth, hhi, Nat.shiftLeft_eq, shift]
    omega
  refine ⟨hhi, fun k => ?_⟩
  have hsum := sum_le hsize k.is_lt.le
  have hk := k.is_lt
  have hmul : (k : ℕ) * ZFP_MAX_BITS ≤ 3 * ZFP_MAX_BITS := Nat.mul_le_mul_right _ (by omega)
  rw [ZFP_MAX_BITS] at hsum hmul
  have hadv : (advance ptr buffer k).toNat = ptr.toNat + ∑ j ∈ Finset.range k, (buffer j).toNat := by
    rw [advance_eq, BitVec.toNat_add, toNat_offsetOf (by omega)]
    omega
  have hle : ((ptr >>> shift).setWidth 32).setWidth 64 <<< shift ≤ advance ptr buffer k := by
    rw [BitVec.le_def, hbase, hadv]
    have := Nat.mul_div_le ptr.toNat (2 ^ shift)
    omega
  rw [BitVec.toNat_setWidth, BitVec.toNat_sub_of_le hle, hbase, hadv, hhi, shift]
  omega

theorem ptr_encode {ptr p : U64} {buffer : ℕ → U64} {r : Record4}
    (h : encode ptr buffer = some (r, p)) : p = ptr + offsetOf buffer 4 := by
  rw [encode] at h
  split_ifs at h
  rw [Option.some.injEq, Prod.mk.injEq] at h
  rw [← h.2, advance_eq]

theorem offset_encode {ptr p : U64} {buffer : ℕ → U64} {r : Record4}
    (h : encode ptr buffer = some (r, p)) (hsize : ∀ j < 4, (buffer j).toNat ≤ ZFP_MAX_BITS)
    {k : ℕ} (hk : k < 4) : offset r k = ptr + offsetOf buffer k := by
  obtain ⟨-, hlo⟩ := encode_fields h hsize
  have hlo := hlo (Fin.ofNat 4 k)
  rw [Fin.val_ofNat, Nat.mod_eq_of_lt hk] at hlo
  apply BitVec.eq_of_toNat_eq
  rw [offset, BitVec.toNat_add, BitVec.toNat_shiftLeft, BitVec.toNat_setWidth,
    BitVec.toNat_setWidth, BitVec.toNat_add, toNat_offsetOf_mod, Nat.add_mod_mod ptr.toNat, ← hlo,
    Nat.shiftLeft_eq, shift]
  omega

theorem size_encode {ptr p : U64} {buffer : ℕ → U64} {r : Record4}
    (h : encode ptr buffer = some (r, p)) (hsize : ∀ j < 4, (buffer j).toNat ≤ ZFP_MAX_BITS)
    {k : ℕ} (hk : k + 1 < 4) : size r k = buffer k := by
  have hdiff : size r k = offset r (k + 1) - offset r k := by
    rw [size, offset, offset]
    ring
  rw [hdiff, offset_encode h hsize hk, offset_encode h hsize (by omega), offsetOf_succ]
  ring

end Hybrid4

theorem lawful_hybrid4 : hybrid4.Lawful (ZFP_MAX_BITS + 1) (2 ^ 44) where
  width_pos := by decide
  sizeLimit_pos := Nat.succ_pos _
  oversize_iff size := by rw [hybrid4, decide_eq_true_eq, gt_iff_lt, Nat.lt_iff_add_one_le]
  isSome_encode := Hybrid4.isSome_encode
  ptr_encode := Hybrid4.ptr_encode
  offset_encode h hsize _ hk :=
    Hybrid4.offset_encode h (fun j hj => Nat.le_of_lt_succ (hsize j hj)) hk
  size_encode h hsize _ hk :=
    Hybrid4.size_encode h (fun j hj => Nat.le_of_lt_succ (hsize j hj)) hk

def Hybrid4.Lossless (sizes : ℕ → U64) (c : ℕ) (record : Record4) : Prop :=
  record.hi.toNat = (∑ j ∈ Finset.range (4 * c), (sizes j).toNat) / 2 ^ shift ∧
    ∀ k : Fin 4, (record.lo k).toNat + 2 ^ shift * record.hi.toNat =
      ∑ j ∈ Finset.range (4 * c + k), (sizes j).toNat

theorem lossless_of_encode {sizes buffer : ℕ → U64} {c : ℕ} {r : Record4} {p : U64}
    (h : Hybrid4.encode (offsetOf sizes (4 * c)) buffer = some (r, p))
    (hbuffer : ∀ j < 4, buffer j = sizes (4 * c + j))
    (hsize : ∀ j < 4, (buffer j).toNat ≤ ZFP_MAX_BITS)
    (hsum : ∑ j ∈ Finset.range (4 * c), (sizes j).toNat < 2 ^ 64) :
    Hybrid4.Lossless sizes c r := by
  obtain ⟨hhi, hlo⟩ := Hybrid4.encode_fields h hsize
  rw [toNat_offsetOf hsum] at hhi hlo
  refine ⟨hhi, fun k => ?_⟩
  rw [hlo k, Finset.sum_range_add]
  congr 1
  apply Finset.sum_congr rfl
  intro j hj
  have hk := k.is_lt
  rw [hbuffer j (by have := Finset.mem_range.mp hj; omega)]

/-- The index is built without an exception, answers every query with the sums of the sizes,
while it is built and afterwards, and no record loses a bit. -/
theorem hybrid4_prefix_sums (data : ℕ → Record4) (buffer : ℕ → U64) (blocks : ℕ)
    (sizes : ℕ → U64) (hsize : ∀ i < blocks, (sizes i).toNat ≤ ZFP_MAX_BITS)
    (htotal : ∑ j ∈ Finset.range blocks, (sizes j).toNat < 2 ^ 44) :
    (∀ i ≤ blocks, ∃ s, hybrid4.setBlockSizes (.resize data buffer blocks) sizes i = .ok s ∧
      (hybrid4.blockOffset s i).toNat = ∑ j ∈ Finset.range i, (sizes j).toNat) ∧
    ∃ s, hybrid4.build (.resize data buffer blocks) sizes = .ok s ∧
      (∀ i < blocks, (hybrid4.blockOffset s i).toNat = ∑ j ∈ Finset.range i, (sizes j).toNat) ∧
      (∀ i < blocks, hybrid4.blockSize s i = sizes i) ∧
      s.range.toNat = ∑ j ∈ Finset.range blocks, (sizes j).toNat ∧
      ∀ c < hybrid4.capacity s, Hybrid4.Lossless (ChunkCodec.padded sizes blocks) c (s.data c) := by
  have hlt : ∀ i < blocks, (sizes i).toNat < ZFP_MAX_BITS + 1 := fun i hi =>
    Nat.lt_succ_of_le (hsize i hi)
  have hadm := ChunkCodec.admissible_of_total (C := hybrid4) hlt htotal (by omega)
  have hnat : ∀ i ≤ blocks, (offsetOf sizes i).toNat = ∑ j ∈ Finset.range i, (sizes j).toNat := by
    intro i hi
    have hle := sum_mono sizes hi
    exact toNat_offsetOf (by omega)
  constructor
  · intro i hi
    obtain ⟨s, hs, hb⟩ := ChunkCodec.setBlockSizes_ok lawful_hybrid4 data buffer hadm hi
    refine ⟨s, hs, ?_⟩
    rw [hb.blockOffset_eq lawful_hybrid4 (fun j hj => hlt j (by omega)) (.inl rfl), hnat i hi]
  · obtain ⟨s, hs, hq, hb⟩ := ChunkCodec.build_ok lawful_hybrid4 data buffer hadm
    refine ⟨s, hs, fun i hi => ?_, hq.blockSize_eq, ?_, fun c hc => ?_⟩
    · rw [hq.blockOffset_eq i hi.le, hnat i hi.le]
    · rw [hq.range_eq, hnat blocks (Nat.le_refl _)]
    · have hpad := ChunkCodec.padded_lt lawful_hybrid4 hlt
      have hc' : c < 4 * hybrid4.capacity (.resize data buffer blocks) / 4 := by
        rw [Nat.mul_div_cancel_left _ (by decide)]
        rwa [ChunkCodec.capacity, hb.blocks_eq] at hc
      obtain ⟨b, p, hr, hbuf, hbs⟩ := hb.record (fun i _ => hpad i) hc'
      have hsum := ChunkCodec.sum_padded_le sizes blocks (4 * c)
      exact lossless_of_encode hr hbuf (fun j hj => Nat.le_of_lt_succ (hbs j hj)) (by omega)

/-- Five blocks of the largest size, so that the second chunk is padded. -/
theorem hybrid4_prefix_sums_five :
    (∀ i ≤ 5, ∃ s, hybrid4.setBlockSizes (.resize (fun _ => ⟨0, fun _ => 0⟩) (fun _ => 0) 5)
        (fun _ => 16658) i = .ok s ∧
      (hybrid4.blockOffset s i).toNat = ∑ _j ∈ Finset.range i, (16658 : U64).toNat) ∧
    ∃ s, hybrid4.build (.resize (fun _ => ⟨0, fun _ => 0⟩) (fun _ => 0) 5) (fun _ => 16658) =
        .ok s ∧
      (∀ i < 5, (hybrid4.blockOffset s i).toNat = ∑ _j ∈ Finset.range i, (16658 : U64).toNat) ∧
      (∀ i < 5, hybrid4.blockSize s i = 16658) ∧
      s.range.toNat = ∑ _j ∈ Finset.range 5, (16658 : U64).toNat ∧
      ∀ c < hybrid4.capacity s,
        Hybrid4.Lossless (ChunkCodec.padded (fun _ => 16658) 5) c (s.data c) :=
  hybrid4_prefix_sums (fun _ => ⟨0, fun _ => 0⟩) (fun _ => 0) 5 (fun _ => 16658) (by decide)
    (by decide)

end Zfp

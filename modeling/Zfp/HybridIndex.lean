import Mathlib.Algebra.BigOperators.Group.Finset.Basic
import Mathlib.Data.BitVec
import Mathlib.Logic.Function.Basic
import Mathlib.Tactic.Ring

/-!
# Hybrid block indices

A hybrid index buffers the sizes of one chunk of blocks at a time and stores a record for each
complete chunk. Both indices run the same algorithm; they differ in the number of blocks of a
chunk, in the record and in the limits that they check. The counters of blocks are natural
numbers: the records of `2 ^ 64` blocks do not fit in memory.
-/

namespace Zfp

/-- `uint64` and `size_t` -/
abbrev U64 := BitVec 64

/-- What distinguishes one hybrid index from the other: the number of blocks in a chunk, the check
on a size, and the record of a chunk. Encoding a chunk at base offset `ptr` also returns the
offset of the next chunk. -/
structure ChunkCodec (R : Type) where
  width : ℕ
  oversize : U64 → Bool
  oversizeError : String
  encode : U64 → (ℕ → U64) → Option (R × U64)
  encodeError : String
  size : R → ℕ → U64
  offset : R → ℕ → U64

structure HybridIndex (R : Type) where
  data : ℕ → R
  blocks : ℕ
  block : ℕ
  endPtr : U64
  ptr : U64
  buffer : ℕ → U64

namespace HybridIndex

variable {R : Type}

def range (s : HybridIndex R) : U64 := s.endPtr

def clear (s : HybridIndex R) : HybridIndex R := { s with block := 0, ptr := 0, endPtr := 0 }

/-- An index of `blocks` blocks after its construction; `data` and `buffer` are not initialised. -/
def resize (data : ℕ → R) (buffer : ℕ → U64) (blocks : ℕ) : HybridIndex R :=
  ⟨data, blocks, 0, 0, 0, buffer⟩

end HybridIndex

namespace ChunkCodec

variable {R : Type} (C : ChunkCodec R)

def blockOffset (s : HybridIndex R) (blockIndex : ℕ) : U64 :=
  -- if index is being built, point offset to end
  if blockIndex = s.block then s.endPtr
  else C.offset (s.data (blockIndex / C.width)) (blockIndex % C.width)

def blockSize (s : HybridIndex R) (blockIndex : ℕ) : U64 :=
  if blockIndex % C.width = C.width - 1 then
    C.blockOffset s (blockIndex + 1) - C.blockOffset s blockIndex
  else C.size (s.data (blockIndex / C.width)) (blockIndex % C.width)

def capacity (s : HybridIndex R) : ℕ := (s.blocks + (C.width - 1)) / C.width

def setBlockSize (s : HybridIndex R) (blockIndex : ℕ) (size : U64) :
    Except String (HybridIndex R) :=
  if blockIndex ≠ s.block then .error "zfp index supports only sequential build"
  -- 0-size blocks beyond the last one are padding
  else if s.blocks ≤ s.block ∧ size ≠ 0 then .error "zfp index overflow"
  else if C.oversize size then .error C.oversizeError
  else
    let chunk := s.block / C.width
    let which := s.block % C.width
    let buffer := Function.update s.buffer which size
    if which = C.width - 1 then
      match C.encode s.ptr buffer with
      | none => .error C.encodeError
      | some (record, ptr) => .ok { s with
          data := Function.update s.data chunk record
          block := s.block + 1
          endPtr := s.endPtr + size
          ptr := ptr
          buffer := buffer }
    else .ok { s with block := s.block + 1, endPtr := s.endPtr + size, buffer := buffer }

/-- The loop of `flush`; it makes fewer than `width` passes. -/
def flushLoop : ℕ → HybridIndex R → Except String (HybridIndex R)
  | 0, s => .ok s
  | fuel + 1, s =>
    if s.block % C.width = 0 then .ok s
    else C.setBlockSize s s.block 0 >>= flushLoop fuel

def flush (s : HybridIndex R) : Except String (HybridIndex R) := C.flushLoop C.width s

/-- The calls `set_block_size(0, sizes(0))`, …, `set_block_size(n - 1, sizes(n - 1))`. -/
def setBlockSizes (s : HybridIndex R) (sizes : ℕ → U64) : ℕ → Except String (HybridIndex R)
  | 0 => .ok s
  | n + 1 => setBlockSizes s sizes n >>= fun t => C.setBlockSize t n (sizes n)

def build (s : HybridIndex R) (sizes : ℕ → U64) : Except String (HybridIndex R) :=
  C.setBlockSizes s sizes s.blocks >>= C.flush

end ChunkCodec

/-- The sum of the sizes before block `i`, modulo `2 ^ 64`. -/
def offsetOf (sizes : ℕ → U64) (i : ℕ) : U64 := ∑ j ∈ Finset.range i, sizes j

@[simp] theorem offsetOf_zero (sizes : ℕ → U64) : offsetOf sizes 0 = 0 := rfl

theorem offsetOf_succ (sizes : ℕ → U64) (i : ℕ) :
    offsetOf sizes (i + 1) = offsetOf sizes i + sizes i := Finset.sum_range_succ sizes i

theorem offsetOf_add (sizes : ℕ → U64) (i k : ℕ) :
    offsetOf sizes (i + k) = offsetOf sizes i + offsetOf (fun j => sizes (i + j)) k :=
  Finset.sum_range_add sizes i k

theorem offsetOf_congr {f g : ℕ → U64} {i : ℕ} (h : ∀ j < i, f j = g j) :
    offsetOf f i = offsetOf g i :=
  Finset.sum_congr rfl fun j hj => h j (Finset.mem_range.mp hj)

theorem toNat_offsetOf_mod (sizes : ℕ → U64) (i : ℕ) :
    (offsetOf sizes i).toNat = (∑ j ∈ Finset.range i, (sizes j).toNat) % 2 ^ 64 := by
  induction i with
  | zero => rfl
  | succ i ih => rw [offsetOf_succ, BitVec.toNat_add, ih, Finset.sum_range_succ, Nat.mod_add_mod]

theorem sum_mono (sizes : ℕ → U64) {i n : ℕ} (h : i ≤ n) :
    ∑ j ∈ Finset.range i, (sizes j).toNat ≤ ∑ j ∈ Finset.range n, (sizes j).toNat := by
  induction n, h using Nat.le_induction with
  | base => exact Nat.le_refl _
  | succ n hn ih =>
    rw [Finset.sum_range_succ]
    omega

theorem toNat_offsetOf {sizes : ℕ → U64} {i : ℕ}
    (h : ∑ j ∈ Finset.range i, (sizes j).toNat < 2 ^ 64) :
    (offsetOf sizes i).toNat = ∑ j ∈ Finset.range i, (sizes j).toNat := by
  rw [toNat_offsetOf_mod, Nat.mod_eq_of_lt h]

namespace ChunkCodec

variable {R : Type}

/-- What a record must do: sizes below `sizeLimit` and a base offset below `baseLimit` are
recovered, anything larger is refused. -/
structure Lawful (C : ChunkCodec R) (sizeLimit baseLimit : ℕ) : Prop where
  width_pos : 0 < C.width
  sizeLimit_pos : 0 < sizeLimit
  oversize_iff (size : U64) : C.oversize size = true ↔ sizeLimit ≤ size.toNat
  isSome_encode (ptr : U64) (buffer : ℕ → U64) :
    (C.encode ptr buffer).isSome = true ↔ ptr.toNat < baseLimit
  ptr_encode {ptr p : U64} {buffer : ℕ → U64} {r : R} (h : C.encode ptr buffer = some (r, p)) :
    p = ptr + offsetOf buffer C.width
  offset_encode {ptr p : U64} {buffer : ℕ → U64} {r : R} (h : C.encode ptr buffer = some (r, p))
    (hsize : ∀ j < C.width, (buffer j).toNat < sizeLimit) {k : ℕ} (hk : k < C.width) :
    C.offset r k = ptr + offsetOf buffer k
  size_encode {ptr p : U64} {buffer : ℕ → U64} {r : R} (h : C.encode ptr buffer = some (r, p))
    (hsize : ∀ j < C.width, (buffer j).toNat < sizeLimit) {k : ℕ} (hk : k + 1 < C.width) :
    C.size r k = buffer k

/-- The sizes of the first `n` blocks have been set: complete chunks have their records, the other
sizes wait in the buffer, and no record beyond the complete chunks has been written. -/
structure Built (C : ChunkCodec R) (s₀ : HybridIndex R) (sizes : ℕ → U64) (n : ℕ)
    (s : HybridIndex R) : Prop where
  blocks_eq : s.blocks = s₀.blocks
  block_eq : s.block = n
  endPtr_eq : s.endPtr = offsetOf sizes n
  ptr_eq : s.ptr = offsetOf sizes (C.width * (n / C.width))
  buffer_eq : ∀ j < n % C.width, s.buffer j = sizes (C.width * (n / C.width) + j)
  records : ∀ c < n / C.width, ∃ buffer p,
    C.encode (offsetOf sizes (C.width * c)) buffer = some (s.data c, p) ∧
      ∀ j < C.width, buffer j = sizes (C.width * c + j)
  untouched : ∀ c, n / C.width ≤ c → s.data c = s₀.data c

/-- All sizes and all bases of complete chunks are below the limits. -/
def Fits (C : ChunkCodec R) (sizeLimit baseLimit : ℕ) (sizes : ℕ → U64) (n : ℕ) : Prop :=
  (∀ i < n, (sizes i).toNat < sizeLimit) ∧
    ∀ c, C.width * (c + 1) ≤ n → (offsetOf sizes (C.width * c)).toNat < baseLimit

/-- The sizes of all blocks and the base offsets of all chunks that hold a block are below the
limits. -/
def Admissible (C : ChunkCodec R) (sizeLimit baseLimit : ℕ) (sizes : ℕ → U64) (blocks : ℕ) :
    Prop :=
  (∀ i < blocks, (sizes i).toNat < sizeLimit) ∧
    ∀ c, C.width * c < blocks → (offsetOf sizes (C.width * c)).toNat < baseLimit

/-- No offset is too large when the sum of all sizes is not. -/
theorem admissible_of_total {C : ChunkCodec R} {sizeLimit baseLimit : ℕ} {sizes : ℕ → U64}
    {blocks : ℕ} (hsize : ∀ i < blocks, (sizes i).toNat < sizeLimit)
    (htotal : ∑ j ∈ Finset.range blocks, (sizes j).toNat < baseLimit)
    (hlimit : ∑ j ∈ Finset.range blocks, (sizes j).toNat < 2 ^ 64) :
    Admissible C sizeLimit baseLimit sizes blocks := by
  refine ⟨hsize, fun c hc => ?_⟩
  have hle := sum_mono sizes hc.le
  rw [toNat_offsetOf (by omega)]
  omega

section Run

variable {C : ChunkCodec R} {sizeLimit baseLimit : ℕ} {s₀ s : HybridIndex R} {sizes : ℕ → U64}
  {n : ℕ}

theorem built_zero (C : ChunkCodec R) (sizes : ℕ → U64) (data : ℕ → R) (buffer : ℕ → U64)
    (blocks : ℕ) : Built C (.resize data buffer blocks) sizes 0 (.resize data buffer blocks) where
  blocks_eq := rfl
  block_eq := rfl
  endPtr_eq := rfl
  ptr_eq := by simp [HybridIndex.resize]
  buffer_eq j hj := by simp at hj
  records c hc := by simp at hc
  untouched c _ := rfl

theorem div_succ_of_last {w n : ℕ} (hw : 0 < w) (h : n % w = w - 1) :
    (n + 1) / w = n / w + 1 ∧ (n + 1) % w = 0 ∧ w * (n / w + 1) = n + 1 := by
  have hn := Nat.div_add_mod n w
  have heq : w * (n / w + 1) = n + 1 := by rw [Nat.mul_add, Nat.mul_one]; omega
  refine ⟨?_, ?_, heq⟩
  · rw [← heq, Nat.mul_div_cancel_left _ hw]
  · rw [← heq, Nat.mul_mod_right]

theorem div_succ_of_not_last {w n : ℕ} (hw : 0 < w) (h : n % w ≠ w - 1) :
    (n + 1) / w = n / w ∧ (n + 1) % w = n % w + 1 := by
  have hn := Nat.div_add_mod n w
  have hlt := Nat.mod_lt n hw
  have heq : n + 1 = (n % w + 1) + w * (n / w) := by omega
  constructor
  · rw [heq, Nat.add_mul_div_left _ _ hw, Nat.div_eq_of_lt (by omega), Nat.zero_add]
  · rw [heq, Nat.add_mul_mod_self_left, Nat.mod_eq_of_lt (by omega)]

/-- The buffer holds the sizes of the current chunk once the last of them is stored. -/
theorem Built.buffer_update (hb : Built C s₀ sizes n s) {j : ℕ} (hj : j ≤ n % C.width) :
    Function.update s.buffer (n % C.width) (sizes n) j =
      sizes (C.width * (n / C.width) + j) := by
  rcases Nat.lt_or_eq_of_le hj with hlt | rfl
  · rw [Function.update_of_ne (by omega), hb.buffer_eq j hlt]
  · rw [Function.update_self, Nat.div_add_mod]

/-- The checks on a valid call pass. -/
theorem Built.setBlockSize_eq (hb : Built C s₀ sizes n s) (hC : C.Lawful sizeLimit baseLimit)
    (hblock : n < s₀.blocks ∨ sizes n = 0) (hsize : (sizes n).toNat < sizeLimit) :
    C.setBlockSize s n (sizes n) =
      if n % C.width = C.width - 1 then
        match C.encode s.ptr (Function.update s.buffer (n % C.width) (sizes n)) with
        | none => .error C.encodeError
        | some (record, ptr) => .ok ⟨Function.update s.data (n / C.width) record, s.blocks, n + 1,
            s.endPtr + sizes n, ptr, Function.update s.buffer (n % C.width) (sizes n)⟩
      else .ok ⟨s.data, s.blocks, n + 1, s.endPtr + sizes n, s.ptr,
        Function.update s.buffer (n % C.width) (sizes n)⟩ := by
  have hover : ¬ C.oversize (sizes n) = true := by
    rw [hC.oversize_iff]
    omega
  have hpad : ¬ (s.blocks ≤ s.block ∧ sizes n ≠ 0) := by
    rw [hb.blocks_eq, hb.block_eq]
    rintro ⟨hle, hne⟩
    rcases hblock with h | h
    · omega
    · exact hne h
  rw [setBlockSize, if_neg (by simp [hb.block_eq]), if_neg hpad, if_neg hover, hb.block_eq]

/-- A size that does not complete a chunk is buffered. -/
theorem Built.setBlockSize_buffer (hb : Built C s₀ sizes n s) (hC : C.Lawful sizeLimit baseLimit)
    (hblock : n < s₀.blocks ∨ sizes n = 0) (hsize : (sizes n).toNat < sizeLimit)
    (hlast : n % C.width ≠ C.width - 1) :
    ∃ t, C.setBlockSize s n (sizes n) = .ok t ∧ Built C s₀ sizes (n + 1) t := by
  obtain ⟨hdiv, hmod⟩ := div_succ_of_not_last hC.width_pos hlast
  rw [hb.setBlockSize_eq hC hblock hsize, if_neg hlast]
  refine ⟨_, rfl, ?_⟩
  constructor
  case blocks_eq => exact hb.blocks_eq
  case block_eq => rfl
  case endPtr_eq => rw [offsetOf_succ, hb.endPtr_eq]
  case ptr_eq => rw [hdiv, hb.ptr_eq]
  case buffer_eq =>
    intro j hj
    rw [hdiv]
    exact hb.buffer_update (by omega)
  case records => exact fun c hc => hb.records c (by omega)
  case untouched => exact fun c hc => hb.untouched c (by omega)

/-- The last size of a chunk completes its record, if the base offset of the chunk fits. -/
theorem Built.setBlockSize_record (hb : Built C s₀ sizes n s) (hC : C.Lawful sizeLimit baseLimit)
    (hblock : n < s₀.blocks ∨ sizes n = 0) (hsize : (sizes n).toNat < sizeLimit)
    (hlast : n % C.width = C.width - 1)
    (hbase : (offsetOf sizes (C.width * (n / C.width))).toNat < baseLimit) :
    ∃ t, C.setBlockSize s n (sizes n) = .ok t ∧ Built C s₀ sizes (n + 1) t := by
  have hw := hC.width_pos
  obtain ⟨hdiv, hmod, hchunk⟩ := div_succ_of_last hw hlast
  have hbuffer : ∀ j < C.width, Function.update s.buffer (n % C.width) (sizes n) j =
      sizes (C.width * (n / C.width) + j) := fun j hj => hb.buffer_update (by omega)
  rw [← hb.ptr_eq, ← hC.isSome_encode _ (Function.update s.buffer (n % C.width) (sizes n)),
    Option.isSome_iff_exists] at hbase
  obtain ⟨⟨r, p⟩, hr⟩ := hbase
  have hp := hC.ptr_encode hr
  rw [hb.setBlockSize_eq hC hblock hsize, if_pos hlast, hr]
  refine ⟨_, rfl, ?_⟩
  constructor
  case blocks_eq => exact hb.blocks_eq
  case block_eq => rfl
  case endPtr_eq => rw [offsetOf_succ, hb.endPtr_eq]
  case ptr_eq =>
    rw [hdiv, Nat.mul_add, Nat.mul_one, offsetOf_add, ← hb.ptr_eq, hp, offsetOf_congr hbuffer]
  case buffer_eq =>
    intro j hj
    omega
  case records =>
    intro c hc
    rw [hdiv] at hc
    rcases Nat.lt_or_eq_of_le (Nat.le_of_lt_succ hc) with hlt | rfl
    · simp only [Function.update_of_ne hlt.ne]
      exact hb.records c hlt
    · simp only [Function.update_self, ← hb.ptr_eq]
      exact ⟨_, _, hr, hbuffer⟩
  case untouched =>
    intro c hc
    have hlt : n / C.width < c := by omega
    simp only [Function.update_of_ne hlt.ne']
    exact hb.untouched c hlt.le

/-- A base offset that does not fit is refused. -/
theorem Built.setBlockSize_base (hb : Built C s₀ sizes n s) (hC : C.Lawful sizeLimit baseLimit)
    (hblock : n < s₀.blocks ∨ sizes n = 0) (hsize : (sizes n).toNat < sizeLimit)
    (hlast : n % C.width = C.width - 1)
    (hbase : baseLimit ≤ (offsetOf sizes (C.width * (n / C.width))).toNat) :
    C.setBlockSize s n (sizes n) = .error C.encodeError := by
  have hnone : C.encode s.ptr (Function.update s.buffer (n % C.width) (sizes n)) = none := by
    rw [← Option.not_isSome_iff_eq_none, hC.isSome_encode, hb.ptr_eq]
    omega
  rw [hb.setBlockSize_eq hC hblock hsize, if_pos hlast, hnone]

/-- A size that does not fit is refused. -/
theorem Built.setBlockSize_size (hb : Built C s₀ sizes n s) (hC : C.Lawful sizeLimit baseLimit)
    (hblock : n < s₀.blocks) (hsize : sizeLimit ≤ (sizes n).toNat) :
    C.setBlockSize s n (sizes n) = .error C.oversizeError := by
  have hover := (hC.oversize_iff (sizes n)).mpr hsize
  have hpad : ¬ (s.blocks ≤ s.block ∧ sizes n ≠ 0) := by
    rw [hb.blocks_eq, hb.block_eq]
    omega
  rw [setBlockSize, if_neg (by simp [hb.block_eq]), if_neg hpad, if_pos hover]

/-! ### Whole builds -/

theorem fits_succ_iff (hw : 0 < C.width) :
    Fits C sizeLimit baseLimit sizes (n + 1) ↔
      Fits C sizeLimit baseLimit sizes n ∧ (sizes n).toNat < sizeLimit ∧
        (n % C.width = C.width - 1 →
          (offsetOf sizes (C.width * (n / C.width))).toNat < baseLimit) := by
  constructor
  · rintro ⟨hsizes, hbases⟩
    refine ⟨⟨fun i hi => hsizes i (by omega), fun c hc => hbases c (by omega)⟩,
      hsizes n (by omega), ?_⟩
    intro hlast
    obtain ⟨-, -, hchunk⟩ := div_succ_of_last hw hlast
    exact hbases _ hchunk.le
  · rintro ⟨⟨hsizes, hbases⟩, hsize, hbase⟩
    constructor
    · intro i hi
      rcases Nat.lt_succ_iff_lt_or_eq.mp hi with h | rfl
      · exact hsizes i h
      · exact hsize
    · intro c hc
      rcases Nat.lt_or_eq_of_le hc with h | h
      · exact hbases c (by omega)
      · -- the chunk that ends at `n + 1` is the one of block `n`
        have hdiv : (n + 1) / C.width = c + 1 := by rw [← h, Nat.mul_div_cancel_left _ hw]
        have hmod : (n + 1) % C.width = 0 := by rw [← h, Nat.mul_mod_right]
        by_cases hlast : n % C.width = C.width - 1
        · obtain ⟨hdiv', -, -⟩ := div_succ_of_last hw hlast
          have hc' : n / C.width = c := by omega
          rw [← hc']
          exact hbase hlast
        · obtain ⟨-, hmod'⟩ := div_succ_of_not_last hw hlast
          omega

/-- One call on a valid block extends the index when the size and the base fit. -/
theorem Built.step (hb : Built C s₀ sizes n s) (hC : C.Lawful sizeLimit baseLimit)
    (hblock : n < s₀.blocks ∨ sizes n = 0) (hsize : (sizes n).toNat < sizeLimit)
    (hbase : n % C.width = C.width - 1 →
      (offsetOf sizes (C.width * (n / C.width))).toNat < baseLimit) :
    ∃ t, C.setBlockSize s n (sizes n) = .ok t ∧ Built C s₀ sizes (n + 1) t := by
  by_cases hlast : n % C.width = C.width - 1
  · exact hb.setBlockSize_record hC hblock hsize hlast (hbase hlast)
  · exact hb.setBlockSize_buffer hC hblock hsize hlast

/-- One call on a valid block is refused when the size or the base does not fit. -/
theorem Built.step_error (hb : Built C s₀ sizes n s) (hC : C.Lawful sizeLimit baseLimit)
    (hblock : n < s₀.blocks ∨ sizes n = 0)
    (h : ¬ ((sizes n).toNat < sizeLimit ∧ (n % C.width = C.width - 1 →
      (offsetOf sizes (C.width * (n / C.width))).toNat < baseLimit))) :
    ∃ e, C.setBlockSize s n (sizes n) = .error e := by
  by_cases hsize : (sizes n).toNat < sizeLimit
  · simp only [hsize, true_and, Classical.not_imp, Nat.not_lt] at h
    exact ⟨_, hb.setBlockSize_base hC hblock hsize h.1 h.2⟩
  · rcases hblock with hlt | hzero
    · exact ⟨_, hb.setBlockSize_size hC hlt (by omega)⟩
    · rw [hzero] at hsize
      exact absurd hC.sizeLimit_pos hsize

/-- A run of calls succeeds exactly when all sizes and bases fit, and then builds the index. -/
theorem setBlockSizes_spec (hC : C.Lawful sizeLimit baseLimit) (hb : Built C s₀ sizes 0 s₀)
    (hblock : ∀ i < n, i < s₀.blocks ∨ sizes i = 0) :
    (Fits C sizeLimit baseLimit sizes n ∧
        ∃ t, C.setBlockSizes s₀ sizes n = .ok t ∧ Built C s₀ sizes n t) ∨
      (¬ Fits C sizeLimit baseLimit sizes n ∧ ∃ e, C.setBlockSizes s₀ sizes n = .error e) := by
  induction n with
  | zero =>
    refine .inl ⟨⟨fun i hi => by omega, fun c hc => ?_⟩, s₀, rfl, hb⟩
    have := Nat.mul_pos hC.width_pos (Nat.succ_pos c)
    simp only [Nat.succ_eq_add_one] at this
    omega
  | succ n ih =>
    rw [fits_succ_iff hC.width_pos]
    rcases ih fun i hi => hblock i (by omega) with ⟨hfits, t, ht, hbt⟩ | ⟨hfits, e, he⟩
    · have hrun : C.setBlockSizes s₀ sizes (n + 1) = C.setBlockSize t n (sizes n) := by
        rw [setBlockSizes, ht]
        rfl
      simp only [hfits, true_and, hrun]
      by_cases h : (sizes n).toNat < sizeLimit ∧ (n % C.width = C.width - 1 →
          (offsetOf sizes (C.width * (n / C.width))).toNat < baseLimit)
      · exact .inl ⟨h, hbt.step hC (hblock n (by omega)) h.1 h.2⟩
      · exact .inr ⟨h, hbt.step_error hC (hblock n (by omega)) h⟩
    · refine .inr ⟨fun h => hfits h.1, e, ?_⟩
      rw [setBlockSizes, he]
      rfl

theorem built_of_setBlockSizes (hC : C.Lawful sizeLimit baseLimit) (hb : Built C s₀ sizes 0 s₀)
    (hblock : ∀ i < n, i < s₀.blocks ∨ sizes i = 0) (h : C.setBlockSizes s₀ sizes n = .ok s) :
    Built C s₀ sizes n s := by
  rcases setBlockSizes_spec hC hb hblock with ⟨-, t, ht, hbt⟩ | ⟨-, e, he⟩
  · rw [h, Except.ok.injEq] at ht
    exact ht ▸ hbt
  · rw [h] at he
    nomatch he

theorem setBlockSizes_error {e : String} {m : ℕ} (h : C.setBlockSizes s₀ sizes n = .error e)
    (hle : n ≤ m) : C.setBlockSizes s₀ sizes m = .error e := by
  induction m, hle using Nat.le_induction with
  | base => exact h
  | succ m hm ih =>
    rw [setBlockSizes, ih]
    rfl

theorem setBlockSizes_congr {f g : ℕ → U64} (h : ∀ i < n, f i = g i) :
    C.setBlockSizes s₀ f n = C.setBlockSizes s₀ g n := by
  induction n with
  | zero => rfl
  | succ n ih =>
    rw [setBlockSizes, setBlockSizes, ih fun i hi => h i (by omega), h n (by omega)]

/-- The flush appends blocks of size 0 up to the end of the chunk. -/
theorem flushLoop_eq (hC : C.Lawful sizeLimit baseLimit) (hb : Built C s₀ sizes 0 s₀)
    (hblock : ∀ i, i < s₀.blocks ∨ sizes i = 0) {m fuel : ℕ} (hzero : ∀ i, n ≤ i → sizes i = 0)
    (hrun : C.setBlockSizes s₀ sizes n = .ok s) (hm : m % C.width = 0) (hle : n ≤ m)
    (hlt : m < n + C.width) (hfuel : m ≤ n + fuel) :
    C.flushLoop fuel s = C.setBlockSizes s₀ sizes m := by
  induction fuel generalizing n s with
  | zero =>
    obtain rfl : n = m := by omega
    rw [flushLoop, hrun]
  | succ fuel ih =>
    have hbs := built_of_setBlockSizes hC hb (fun i _ => hblock i) hrun
    rw [flushLoop, hbs.block_eq]
    split_ifs with hmod
    · -- `m` and `n` are multiples of the width less than one width apart
      have hn := Nat.div_add_mod n C.width
      have hdiv := Nat.div_add_mod m C.width
      have hnm : m / C.width < n / C.width + 1 := by
        apply Nat.lt_of_mul_lt_mul_left (a := C.width)
        rw [Nat.mul_add, Nat.mul_one]
        omega
      have hmn : n / C.width ≤ m / C.width := Nat.div_le_div_right hle
      obtain rfl : n = m := by
        have : n / C.width = m / C.width := by omega
        rw [← hn, ← hdiv, this, hm, hmod]
      rw [hrun]
    · have hne : n ≠ m := fun h => hmod (h ▸ hm)
      have hnext : C.setBlockSizes s₀ sizes (n + 1) = C.setBlockSize s n 0 := by
        rw [setBlockSizes, hrun, hzero n (Nat.le_refl n)]
        rfl
      cases hstep : C.setBlockSize s n 0 with
      | error e =>
        rw [hstep] at hnext
        rw [setBlockSizes_error hnext (by omega)]
        rfl
      | ok t =>
        rw [hstep] at hnext
        exact ih (fun i hi => hzero i (by omega)) hnext (by omega) (by omega) (by omega)

def padded (sizes : ℕ → U64) (blocks i : ℕ) : U64 := if i < blocks then sizes i else 0

theorem padded_of_lt {blocks i : ℕ} (h : i < blocks) : padded sizes blocks i = sizes i := if_pos h

theorem padded_of_le {blocks i : ℕ} (h : blocks ≤ i) : padded sizes blocks i = 0 :=
  if_neg (by omega)

theorem sum_padded (blocks n : ℕ) :
    ∑ j ∈ Finset.range n, (padded sizes blocks j).toNat =
      ∑ j ∈ Finset.range (min n blocks), (sizes j).toNat := by
  induction n with
  | zero => simp
  | succ n ih =>
    rw [Finset.sum_range_succ, ih]
    rcases Nat.lt_or_ge n blocks with h | h
    · rw [padded_of_lt h, Nat.min_eq_left h.le, Nat.min_eq_left h, Finset.sum_range_succ]
    · rw [padded_of_le h, Nat.min_eq_right h, Nat.min_eq_right (by omega)]
      rfl

theorem sum_padded_le (sizes : ℕ → U64) (blocks n : ℕ) :
    ∑ j ∈ Finset.range n, (padded sizes blocks j).toNat ≤
      ∑ j ∈ Finset.range blocks, (sizes j).toNat := by
  rw [sum_padded]
  exact sum_mono sizes (Nat.min_le_right n blocks)

theorem padded_lt {blocks : ℕ} (hC : C.Lawful sizeLimit baseLimit)
    (hsizes : ∀ i < blocks, (sizes i).toNat < sizeLimit) (i : ℕ) :
    (padded sizes blocks i).toNat < sizeLimit := by
  rcases Nat.lt_or_ge i blocks with h | h
  · rw [padded_of_lt h]
    exact hsizes i h
  · rw [padded_of_le h]
    exact hC.sizeLimit_pos

theorem offsetOf_padded {blocks i : ℕ} (h : i ≤ blocks) :
    offsetOf (padded sizes blocks) i = offsetOf sizes i :=
  offsetOf_congr fun _ hj => padded_of_lt (by omega)

theorem capacity_bounds (hw : 0 < C.width) (s : HybridIndex R) :
    s.blocks ≤ C.width * C.capacity s ∧ C.width * C.capacity s < s.blocks + C.width := by
  have hdiv := Nat.div_add_mod (s.blocks + (C.width - 1)) C.width
  have hmod := Nat.mod_lt (s.blocks + (C.width - 1)) hw
  rw [capacity]
  omega

/-- A build is a run over the blocks and the padding of the last chunk. -/
theorem build_eq (hC : C.Lawful sizeLimit baseLimit)
    (hb : Built C s₀ (padded sizes s₀.blocks) 0 s₀) :
    C.build s₀ sizes =
      C.setBlockSizes s₀ (padded sizes s₀.blocks) (C.width * C.capacity s₀) := by
  obtain ⟨hle, hlt⟩ := capacity_bounds hC.width_pos s₀
  have hblock : ∀ i, i < s₀.blocks ∨ padded sizes s₀.blocks i = 0 := fun i =>
    (Nat.lt_or_ge i s₀.blocks).imp id padded_of_le
  have hrun : C.setBlockSizes s₀ sizes s₀.blocks =
      C.setBlockSizes s₀ (padded sizes s₀.blocks) s₀.blocks :=
    setBlockSizes_congr fun i hi => (padded_of_lt hi).symm
  rw [build, hrun]
  cases ht : C.setBlockSizes s₀ (padded sizes s₀.blocks) s₀.blocks with
  | error e =>
    rw [setBlockSizes_error ht hle]
    rfl
  | ok t =>
    exact flushLoop_eq hC hb hblock (fun i hi => padded_of_le hi) ht (Nat.mul_mod_right _ _) hle
      hlt (by omega)

theorem fits_padded_iff (hC : C.Lawful sizeLimit baseLimit) (s₀ : HybridIndex R) :
    Fits C sizeLimit baseLimit (padded sizes s₀.blocks) (C.width * C.capacity s₀) ↔
      Admissible C sizeLimit baseLimit sizes s₀.blocks := by
  obtain ⟨hle, hlt⟩ := capacity_bounds hC.width_pos s₀
  constructor
  · rintro ⟨hsizes, hbases⟩
    constructor
    · intro i hi
      have hi' := hsizes i (by omega)
      rwa [padded_of_lt hi] at hi'
    · intro c hc
      have hcap : c < C.capacity s₀ := Nat.lt_of_mul_lt_mul_left (by omega : _ < C.width * _)
      have hbase := hbases c (Nat.mul_le_mul_left _ hcap)
      rwa [offsetOf_padded hc.le] at hbase
  · rintro ⟨hsizes, hbases⟩
    constructor
    · exact fun i _ => padded_lt hC hsizes i
    · intro c hc
      have hc' : C.width * c < s₀.blocks := by
        rw [Nat.mul_add, Nat.mul_one] at hc
        omega
      rw [offsetOf_padded hc'.le]
      exact hbases c hc'

/-! ### Queries -/

/-- The record of a complete chunk encodes the sizes of its blocks. -/
theorem Built.record (hb : Built C s₀ sizes n s)
    (hsizes : ∀ i < n, (sizes i).toNat < sizeLimit) {c : ℕ} (hc : c < n / C.width) :
    ∃ buffer p, C.encode (offsetOf sizes (C.width * c)) buffer = some (s.data c, p) ∧
      (∀ j < C.width, buffer j = sizes (C.width * c + j)) ∧
      ∀ j < C.width, (buffer j).toNat < sizeLimit := by
  obtain ⟨buffer, p, hr, hbuffer⟩ := hb.records c hc
  refine ⟨buffer, p, hr, hbuffer, fun j hj => ?_⟩
  have hchunk : C.width * (c + 1) ≤ n :=
    (Nat.mul_le_mul_left _ hc).trans (Nat.mul_div_le n C.width)
  rw [Nat.mul_add, Nat.mul_one] at hchunk
  rw [hbuffer j hj]
  exact hsizes _ (by omega)

theorem Built.blockOffset_eq (hb : Built C s₀ sizes n s) (hC : C.Lawful sizeLimit baseLimit)
    (hsizes : ∀ i < n, (sizes i).toNat < sizeLimit) {i : ℕ}
    (hi : i = n ∨ i / C.width < n / C.width) : C.blockOffset s i = offsetOf sizes i := by
  have hw := hC.width_pos
  rw [blockOffset, hb.block_eq]
  split_ifs with h
  · rw [h, hb.endPtr_eq]
  · have hlt := hi.resolve_left h
    obtain ⟨buffer, p, hr, hbuffer, hsize⟩ := hb.record hsizes hlt
    have hmod := Nat.mod_lt i hw
    have hoffset : offsetOf sizes i =
        offsetOf sizes (C.width * (i / C.width)) + offsetOf buffer (i % C.width) := by
      rw [offsetOf_congr fun j hj => hbuffer j (by omega), ← offsetOf_add, Nat.div_add_mod]
    rw [hC.offset_encode hr hsize hmod, hoffset]

theorem Built.blockSize_eq (hb : Built C s₀ sizes n s) (hC : C.Lawful sizeLimit baseLimit)
    (hsizes : ∀ i < n, (sizes i).toNat < sizeLimit) {i : ℕ}
    (hi : i / C.width < n / C.width) (hnext : i + 1 = n ∨ (i + 1) / C.width < n / C.width) :
    C.blockSize s i = sizes i := by
  have hw := hC.width_pos
  rw [blockSize]
  split_ifs with hlast
  · rw [hb.blockOffset_eq hC hsizes hnext, hb.blockOffset_eq hC hsizes (.inr hi), offsetOf_succ]
    ring
  · obtain ⟨buffer, p, hr, hbuffer, hsize⟩ := hb.record hsizes hi
    have hmod := Nat.mod_lt i hw
    rw [hC.size_encode hr hsize (by omega), hbuffer _ hmod, Nat.div_add_mod]

/-- The index after a build that succeeds: it answers every query with the sums of the sizes. -/
structure PrefixSums (C : ChunkCodec R) (sizes : ℕ → U64) (blocks : ℕ) (s : HybridIndex R) :
    Prop where
  blockOffset_eq : ∀ i ≤ blocks, C.blockOffset s i = offsetOf sizes i
  blockSize_eq : ∀ i < blocks, C.blockSize s i = sizes i
  range_eq : s.range = offsetOf sizes blocks

theorem Built.prefixSums {blocks : ℕ} (hC : C.Lawful sizeLimit baseLimit)
    (hb : Built C s₀ (padded sizes blocks) n s) (hmod : n % C.width = 0) (hle : blocks ≤ n)
    (hsizes : ∀ i < blocks, (sizes i).toNat < sizeLimit) : PrefixSums C sizes blocks s := by
  have hn := Nat.div_add_mod n C.width
  have hfit : ∀ i < n, (padded sizes blocks i).toNat < sizeLimit := fun i _ =>
    padded_lt hC hsizes i
  have hdiv : ∀ i < n, i / C.width < n / C.width := by
    intro i hi
    rw [Nat.div_lt_iff_lt_mul hC.width_pos, Nat.mul_comm]
    omega
  have hnext : ∀ i ≤ n, i = n ∨ i / C.width < n / C.width := fun i hi =>
    (Nat.lt_or_eq_of_le hi).symm.imp id (hdiv i)
  refine ⟨fun i hi => ?_, fun i hi => ?_, ?_⟩
  · rw [hb.blockOffset_eq hC hfit (hnext i (by omega)), offsetOf_padded hi]
  · rw [hb.blockSize_eq hC hfit (hdiv i (by omega)) (hnext (i + 1) (by omega)), padded_of_lt hi]
  · have htail : offsetOf (fun j => padded sizes blocks (blocks + j)) (n - blocks) = 0 :=
      Finset.sum_eq_zero fun j _ => padded_of_le (by omega)
    have hsplit := offsetOf_add (padded sizes blocks) blocks (n - blocks)
    rw [Nat.add_sub_cancel' hle, htail, offsetOf_padded (Nat.le_refl blocks)] at hsplit
    rw [HybridIndex.range, hb.endPtr_eq, hsplit, add_zero]

theorem build_ok (hC : C.Lawful sizeLimit baseLimit) (data : ℕ → R) (buffer : ℕ → U64)
    {blocks : ℕ} (h : Admissible C sizeLimit baseLimit sizes blocks) :
    ∃ t, C.build (.resize data buffer blocks) sizes = .ok t ∧ PrefixSums C sizes blocks t ∧
      Built C (.resize data buffer blocks) (padded sizes blocks)
        (C.width * C.capacity (.resize data buffer blocks)) t := by
  have hb := built_zero C (padded sizes blocks) data buffer blocks
  obtain ⟨hle, -⟩ := capacity_bounds hC.width_pos (.resize data buffer blocks)
  rw [build_eq hC hb]
  rcases setBlockSizes_spec hC hb fun i _ => (Nat.lt_or_ge i blocks).imp id padded_of_le with
    ⟨hf, t, ht, hbt⟩ | ⟨hf, e, he⟩
  · exact ⟨t, ht, hbt.prefixSums hC (Nat.mul_mod_right _ _) hle h.1, hbt⟩
  · exact absurd ((fits_padded_iff hC (.resize data buffer blocks)).mpr h) hf

theorem build_error (hC : C.Lawful sizeLimit baseLimit) (data : ℕ → R) (buffer : ℕ → U64)
    {blocks : ℕ} (h : ¬ Admissible C sizeLimit baseLimit sizes blocks) :
    ∃ e, C.build (.resize data buffer blocks) sizes = .error e := by
  have hb := built_zero C (padded sizes blocks) data buffer blocks
  rw [build_eq hC hb]
  rcases setBlockSizes_spec hC hb fun i _ => (Nat.lt_or_ge i blocks).imp id padded_of_le with
    ⟨hf, t, ht, hbt⟩ | ⟨hf, e, he⟩
  · exact absurd ((fits_padded_iff hC (.resize data buffer blocks)).mp hf) h
  · exact ⟨e, he⟩

/-- While an admissible index is built, every call succeeds. -/
theorem setBlockSizes_ok (hC : C.Lawful sizeLimit baseLimit) (data : ℕ → R) (buffer : ℕ → U64)
    {blocks : ℕ} (h : Admissible C sizeLimit baseLimit sizes blocks) (hle : n ≤ blocks) :
    ∃ t, C.setBlockSizes (.resize data buffer blocks) sizes n = .ok t ∧
      Built C (.resize data buffer blocks) sizes n t := by
  have hb := built_zero C sizes data buffer blocks
  rcases setBlockSizes_spec hC hb fun i hi => .inl (Nat.lt_of_lt_of_le hi hle) with
    ⟨-, ht⟩ | ⟨hf, -⟩
  · exact ht
  · refine absurd ⟨fun i hi => h.1 i (by omega), fun c hc => h.2 c ?_⟩ hf
    have hw := hC.width_pos
    rw [Nat.mul_add, Nat.mul_one] at hc
    omega

end Run

end ChunkCodec

end Zfp

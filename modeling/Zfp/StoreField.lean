import Zfp.ChunkOrder
import Zfp.StoreRanges

/-!
# The blocks of an array and of its field

An array is set block by block from dense memory. The blocks are those that the serial routine
gathers from the field of the array, in the same order.
-/

namespace Zfp
open BitLists Bitstream MixedRadix ArrayBlocks

variable {T : WordType} {S : Scalar} {I : Type} {d : ℕ}

/-! ## Corners -/

section

variable {n : ℕ → ℕ} (hn : ∀ a < d, 1 ≤ n a ∧ n a < 2 ^ 62)

include hn

theorem blocksOf_eq_total : blocksOf n d = total (blockSize n) d := by
  induction d with
  | zero => rfl
  | succ d ih =>
    rw [blocksOf, total, ih fun a ha => hn a (by omega), blockSize_eq (hn d (Nat.lt_succ_self d)).2]

theorem cornerOf_eq_digit {b : ℕ} (hb : b < total (blockSize n) d) {a : ℕ} (ha : a < d) :
    cornerOf n d b a = 4 * digit (blockSize n) b a := by
  have hblocks := blocksOf_eq_total fun a' (ha' : a' < a) => hn a' (by omega)
  rw [cornerOf_apply, digit, hblocks, blockSize_eq (hn a ha).2]
  split
  · rfl
  · have hlast : a + 1 = d := by omega
    rw [if_pos hlast, Nat.mod_eq_of_lt]
    subst hlast
    rw [total, blockSize_eq (hn a ha).2] at hb
    exact Nat.div_lt_of_lt_mul hb

theorem cornerOf_lt_size {b : ℕ} (hb : b < total (blockSize n) d) {a : ℕ} (ha : a < d) :
    cornerOf n d b a < n a := by
  have hdigit : digit (blockSize n) b a < blockSize n a :=
    Nat.mod_lt _ (blockSize_pos hn a ha)
  rw [blockSize_eq (hn a ha).2] at hdigit
  rw [cornerOf_eq_digit hn hb ha]
  omega

/-- The elements of a block that a codec with its shape gathers. -/
theorem blockDims_blockShape {b : ℕ} (hb : b < total (blockSize n) d) {a : ℕ} (ha : a < d) :
    blockDims (blockShape d n b) a = min (n a - cornerOf n d b a) 4 := by
  have hext := extent_eq hn hb ha
  rw [cornerOf_eq_digit hn hb ha, Nat.min_comm, ← hext]
  rfl

theorem sub_cornerOf_of_whole {b : ℕ} (hb : b < total (blockSize n) d)
    (h : blockShape d n b = 0) {a : ℕ} (ha : a < d) : min (n a - cornerOf n d b a) 4 = 4 := by
  have hwhole := (blockShape_eq_zero_iff hn hb).mp h a ha
  rw [cornerOf_eq_digit hn hb ha]
  omega

end

/-! ## Values -/

section

variable {n : ℕ → ℕ} (hn : ∀ a < d, 1 ≤ n a ∧ n a < 2 ^ 62) {b : ℕ}
  (hb : b < total (blockSize n) d)

include hn hb

/-- A block that is gathered at its corner is the block of the serial routine. -/
theorem gatherBlock_eq_compressBlock {mem mem' : ℤ → BitVec S.width} {p : ℤ} {stride stride' : ℕ → ℤ}
    (hmem : ∀ c : ℕ → ℕ,
      mem (p + span stride d c) = mem' (span stride' d fun a => cornerOf n d b a + c a)) :
    gatherBlock d (blockShape d n b) mem p stride =
      compressBlock d mem' n stride' (cornerOf n d b) := by
  have ho : ∀ a < d, cornerOf n d b a < n a := fun a ha => cornerOf_lt_size hn hb ha
  have hdims : ∀ a < d, 1 ≤ min (n a - cornerOf n d b a) 4 ∧
      min (n a - cornerOf n d b a) 4 ≤ 4 := fun a ha => by
    have := ho a ha
    omega
  have hgather : ∀ i, gatherBlock d (blockShape d n b) mem p stride i =
      if i < 4 ^ d then mem (p + span stride d fun a =>
        padIndex (min (n a - cornerOf n d b a) 4) (place i a)) else 0 := by
    intro i
    rw [gatherBlock]
    split
    · have hshape : ∀ a < d, 1 ≤ blockDims (blockShape d n b) a ∧
          blockDims (blockShape d n b) a ≤ 4 := fun a ha => by
        rw [blockDims_blockShape hn hb ha]
        exact hdims a ha
      rw [gatherPartial_apply _ _ hshape, Nat.sub_zero, Nat.zero_add]
      refine if_congr (by omega) ?_ rfl
      rw [span_congr stride fun a ha => by rw [blockDims_blockShape hn hb ha]]
    · next hwhole =>
      rw [gather_eq, gatherPartial_apply _ _ fun a ha => ⟨by omega, Nat.le_refl 4⟩, Nat.sub_zero,
        Nat.zero_add]
      refine if_congr (by omega) (congrArg (fun x => mem (p + x)) ?_) rfl
      exact span_congr stride fun a ha => by
        rw [sub_cornerOf_of_whole hn hb (not_not.mp hwhole) ha]
  funext i
  rw [hgather]
  split
  · next hi =>
    rw [compressBlock_apply mem' stride' ho hi, hmem]
    rfl
  · next hi => rw [compressBlock_of_ge ho (by omega)]

end

/-- Offsets that agree as values of `ptrdiff_t`. -/
theorem ofInt_span_congr {s t : ℕ → ℤ} (h : ∀ a < d, BitVec.ofInt 64 (s a) = BitVec.ofInt 64 (t a))
    (c : ℕ → ℕ) : BitVec.ofInt 64 (span s d c) = BitVec.ofInt 64 (span t d c) := by
  induction d with
  | zero => rfl
  | succ d ih =>
    rw [span, span, BitVec.ofInt_add, BitVec.ofInt_add, BitVec.ofInt_mul, BitVec.ofInt_mul,
      ih fun a ha => h a (by omega), h d (Nat.lt_succ_self d)]

theorem ofInt_ptrdiffT (x : ℤ) : BitVec.ofInt 64 (ptrdiffT x) = BitVec.ofInt 64 x := by
  apply BitVec.eq_of_toInt_eq
  rw [BitVec.toInt_ofInt, BitVec.toInt_ofInt, ptrdiffT, Int.bmod_bmod]

/-! ## Sizes of a field -/

section

variable {n n' : ℕ → ℕ} (h : ∀ a < d, n a = n' a)

include h

theorem blocksOf_congr : blocksOf n d = blocksOf n' d := by
  induction d with
  | zero => rfl
  | succ d ih => rw [blocksOf, blocksOf, ih fun a ha => h a (by omega), h d (Nat.lt_succ_self d)]

theorem corners_congr : corners n d = corners n' d := by
  induction d with
  | zero => rfl
  | succ d ih => rw [corners, corners, ih fun a ha => h a (by omega), h d (Nat.lt_succ_self d)]

theorem compressBlock_congr (mem : ℤ → BitVec S.width) (stride : ℕ → ℤ) {o : ℕ → ℕ}
    (ho : ∀ a < d, o a < n a) :
    compressBlock d mem n stride o = compressBlock d mem n' stride o := by
  have ho' : ∀ a < d, o a < n' a := fun a ha => h a ha ▸ ho a ha
  funext i
  rcases Nat.lt_or_ge i (4 ^ d) with hi | hi
  · rw [compressBlock_apply _ _ ho hi, compressBlock_apply _ _ ho' hi]
    refine congrArg mem (span_congr stride fun a ha => ?_)
    rw [padPlace, padPlace, h a ha]
  · rw [compressBlock_of_ge ho hi, compressBlock_of_ge ho' hi]

end

namespace BlockStore

/-- The strides of the field are those of the dense array. -/
theorem ofInt_stride_field (hd : d ≤ 4) (size : ℕ → ℕ) {a : ℕ} (ha : a < d) :
    BitVec.ofInt 64 (zfpFieldStride (field S d size) a) = ArrayBlocks.stride size a := by
  have hsize : ∀ a < d, (field S d size).size a = size a := fun a ha => size_field S hd ha
  have hunit : ¬ (0 : ℤ) ≠ 0 := not_not.mpr rfl
  have hcase : a = 0 ∨ a = 1 ∨ a = 2 ∨ a = 3 := by omega
  rcases hcase with rfl | rfl | rfl | rfl
  · rfl
  · have h0 : (field S d size).nx = size 0 := hsize 0 (by omega)
    have hsy : (field S d size).sy = 0 := rfl
    rw [zfpFieldStride, hsy, if_neg hunit, ofInt_ptrdiffT, h0, BitVec.ofInt_natCast,
      ArrayBlocks.stride, total, total, Nat.one_mul]
  · have h0 : (field S d size).nx = size 0 := hsize 0 (by omega)
    have h1 : (field S d size).ny = size 1 := hsize 1 (by omega)
    have hsz : (field S d size).sz = 0 := rfl
    rw [zfpFieldStride, hsz, if_neg hunit, ptrdiffT_sizeT, ofInt_ptrdiffT, h0, h1,
      BitVec.ofInt_natCast, ArrayBlocks.stride, total, total, total, Nat.one_mul]
  · have h0 : (field S d size).nx = size 0 := hsize 0 (by omega)
    have h1 : (field S d size).ny = size 1 := hsize 1 (by omega)
    have h2 : (field S d size).nz = size 2 := hsize 2 (by omega)
    have hsw : (field S d size).sw = 0 := rfl
    rw [zfpFieldStride, hsw, if_neg hunit, ptrdiffT_sizeT, ofInt_ptrdiffT, h0, h1, h2,
      BitVec.ofInt_natCast, ArrayBlocks.stride, total, total, total, total, Nat.one_mul]
    all_goals omega

/-! ## Setting an array -/

def elements : Option (ArrayData S) → ℤ → BitVec S.width
  | some data => fun x => data.memory (addr (BitVec.ofNat 64 (S.width / 8)) data.p x)
  | none => fun _ => 0

def inputOf (d : ℕ) (size : ℕ → ℕ) (data : Option (ArrayData S)) (i : ℕ) : Input S :=
  match data with
  | some data =>
    blockAt data.memory size (addr (BitVec.ofNat 64 (S.width / 8)) data.p (corner size d i))
  | none => .block fun _ => 0

section

variable {n : ℕ → ℕ} (hn : ∀ a < d, 1 ≤ n a ∧ n a < 2 ^ 62) {b : ℕ}
  (hb : b < total (blockSize n) d)

include hn hb

/-- The values of a block are those that the serial routine encodes. -/
theorem values_inputOf (hd : d ≤ 4) (data : Option (ArrayData S)) :
    ((inputOf d n data b).source d n b).values d =
      compressBlock d (elements data) n (zfpFieldStride (field S d n)) (cornerOf n d b) := by
  cases data with
  | none =>
    show (if blockShape d n b ≠ 0 then _ else _) = _
    have hdense : gatherBlock d (blockShape d n b) (fun _ => (0 : BitVec S.width)) 0 contiguous =
        compressBlock d (elements none) n (zfpFieldStride (field S d n)) (cornerOf n d b) :=
      gatherBlock_eq_compressBlock hn hb fun _ => rfl
    rw [← hdense]
    split
    · rfl
    · next hwhole =>
      rw [gatherBlock, if_neg hwhole, gather_eq]
      funext i
      rw [gatherPartial_apply _ _ fun a _ => ⟨by omega, Nat.le_refl 4⟩]
      split <;> rfl
  | some data =>
    refine gatherBlock_eq_compressBlock hn hb fun c => ?_
    show data.memory (addr _ (addr _ data.p (corner n d b)) (0 + span _ d c)) =
      data.memory (addr _ data.p (span _ d fun a => cornerOf n d b a + c a))
    rw [Int.zero_add, addr_add, corner, span_add]
    have hcorner : span (fun a => (total n a : ℤ)) d (fun a => 4 * digit (blockSize n) b a) =
        span (fun a => (total n a : ℤ)) d (cornerOf n d b) :=
      span_congr _ fun a ha => (cornerOf_eq_digit hn hb ha).symm
    have htotal := ofInt_span_congr (d := d) (s := fun a => (total n a : ℤ))
      (t := zfpFieldStride (field S d n)) (fun a ha => by
        rw [ofInt_stride_field hd n ha, BitVec.ofInt_natCast]
        rfl) (cornerOf n d b)
    have hstride := ofInt_span_congr (d := d) (s := fun a => (ArrayBlocks.stride n a).toInt)
      (t := zfpFieldStride (field S d n)) (fun a ha => by
        rw [ofInt_stride_field hd n ha, BitVec.ofInt_toInt]) c
    rw [addr, addr, BitVec.ofInt_add, BitVec.ofInt_add, hcorner, htotal, hstride]

end

/-- The blocks of the store in the order of their indices have the code of the field. -/
theorem fieldCode_field (hd : 1 ≤ d) (hd' : d ≤ 4) {n : ℕ → ℕ} (hn : ∀ a < d, 1 ≤ n a ∧ n a < 2 ^ 62)
    (hcount : total (blockSize n) d < 2 ^ 64) (floats : Floats) (zfp : Params)
    (data : Option (ArrayData S)) (mem : Data) (hmem : mem S = elements data)
    {st : BlockStore T I} (hsize : st.size = n) (hzfp : st.zfp = zfp) :
    fieldCode floats zfp mem (field S d n) S =
      codesOf (floats S d) st (inputOf d n data) (blocks d n) := by
  have hdims := zfpFieldDimensionality_field S hd hd' fun a ha =>
    Nat.one_le_iff_ne_zero.mp (hn a ha).1
  have hfield : ∀ a < d, (field S d n).size a = n a := fun a ha => size_field S hd' ha
  have hcode : ∀ D, D = d → cornersCode (floats S D) zfp (mem S) (field S d n).size
      (zfpFieldStride (field S d n)) (corners (field S d n).size D) =
      cornersCode (floats S d) zfp (mem S) (field S d n).size
        (zfpFieldStride (field S d n)) (corners (field S d n).size d) := by
    rintro D rfl
    rfl
  have hblocks : blocks d n = blocksOf n d := by rw [blocksOf_eq_total hn, blocks, sizeT_of_lt hcount]
  rw [fieldCode, hcode _ hdims, cornersCode, corners_congr hfield, corners_eq_map, List.flatMap_map,
    codesOf, hblocks]
  refine List.flatMap_congr fun b hb => ?_
  have hb' : b < total (blockSize n) d := blocksOf_eq_total hn ▸ List.mem_range.mp hb
  have ho : ∀ a < d, cornerOf n d b a < n a := fun a ha => cornerOf_lt_size hn hb' ha
  rw [codeOf, hsize, hzfp, values_inputOf hn hb' hd' data, hmem,
    compressBlock_congr (fun a ha => (hfield a ha).symm) _ _ ho]

/-- Setting an array encodes its blocks in the order of their indices. -/
theorem set_eq (X : IndexOps I) (ops : FloatOps S (4 ^ d)) (fresh : ℕ → BitVec (wsize T))
    (st : BlockStore T I) (data : Option (ArrayData S)) (compact : Bool)
    (hfit : total (blockSize st.size) d < 2 ^ 64) :
    st.set X ops fresh data compact =
      (clear S d X st).encodeAll X ops (inputOf d st.size data) (blocks d st.size) >>= fun w =>
        (w.1.flush X).map fun t => if compact then t.compact X fresh else t := by
  have hblocks : blocks d st.size = total (blockSize st.size) d := sizeT_of_lt hfit
  cases data with
  | none => rfl
  | some data =>
    have hsize : (clear S d X st).size = st.size := rfl
    rw [set, hsize, traverse_eq st.size _ _ hfit.le, hblocks]
    rfl

end BlockStore

end Zfp

import Zfp.Execution

/-!
# The serial routines

The routine for contiguous arrays of one dimension does what the one for strided arrays does. Both
encode the blocks at the corners of the array in turn, and decode them so.
-/

namespace Zfp
open Bitstream

variable {T : WordType} {S : Scalar} {d : ℕ}

/-! ## The values of a block -/

/-- The elements of the array that the block at a corner holds. -/
def InCorner (d : ℕ) (n o c : ℕ → ℕ) : Prop := ∀ a < d, o a ≤ c a ∧ c a < o a + 4 ∧ c a < n a

section

variable {mem : ℤ → BitVec S.width} {n o : ℕ → ℕ} {stride : ℕ → ℤ}

theorem compressBlock_of_ge (ho : ∀ a < d, o a < n a) {i : ℕ} (hi : 4 ^ d ≤ i) :
    compressBlock d mem n stride o i = 0 := by
  rw [compressBlock]
  split
  · rw [gatherPartial_apply _ _ (fun a ha => by have := ho a ha; omega), if_neg (by omega)]
  · rw [gather_eq, gatherPartial_apply _ _ (fun a ha => by omega), if_neg (by omega)]

/-- The block at a corner holds its elements in their places. -/
theorem compressBlock_place {c : ℕ → ℕ} (hc : InCorner d n o c) :
    compressBlock d mem n stride o (blockPlace (fun a => c a - o a) d) =
      mem (span stride d c) := by
  have ho : ∀ a < d, o a < n a := fun a ha => by have := hc a ha; omega
  have hfour : ∀ a < d, (fun _ => 4) a ≤ 4 := fun _ _ => Nat.le_refl 4
  have hlt : ∀ a < d, c a - o a < 4 := fun a ha => by have := hc a ha; omega
  rw [compressBlock_apply mem stride ho (blockPlace_lt hfour hlt)]
  refine congrArg mem (span_congr stride fun a ha => ?_)
  have hca := hc a ha
  rw [padPlace, place_blockPlace hfour hlt a ha, padIndex_of_lt (by omega)]
  omega

theorem decompressBlock_eq (block : ℕ → BitVec S.width) :
    decompressBlock d block n stride o mem =
      scatterPartial block (fun a => min (n a - o a) 4) stride d mem 0 (span stride d o) := by
  rw [decompressBlock]
  split
  · rfl
  · next hfull =>
    have hmin : ∀ a < d, 4 = min (n a - o a) 4 := by
      intro a ha
      have : ¬ n a - o a < 4 := fun h => hfull ⟨a, ha, h⟩
      omega
    rw [scatter, scatterPartial_eq, scatterPartial_eq, visits_congr hmin fun _ _ => rfl]

/-- A decoded block is stored to its elements. -/
theorem decompressBlock_apply (block : ℕ → BitVec S.width) (x : ℤ) :
    (∃ c, InCorner d n o c ∧ x = span stride d c ∧
      decompressBlock d block n stride o mem x = block (blockPlace (fun a => c a - o a) d)) ∨
    (∀ c, InCorner d n o c → x ≠ span stride d c) ∧
      decompressBlock d block n stride o mem x = mem x := by
  have hmin : ∀ a < d, min (n a - o a) 4 ≤ 4 := fun a _ => min_le_right _ _
  rw [decompressBlock_eq, ← scatterLoops_eq block stride hmin]
  obtain ⟨c, hc, hx, hvalue⟩ | ⟨hne, hvalue⟩ :=
    scatterLoops_apply block stride hmin mem (span stride d o) x
  · refine .inl ⟨fun a => o a + c a, fun a ha => ?_, ?_, ?_⟩
    · have hca := hc a ha
      dsimp only at hca ⊢
      omega
    · rw [hx, span_add]
    · rw [hvalue]
      exact congrArg block (blockPlace_congr fun a _ => (Nat.add_sub_cancel_left _ _).symm)
  · refine .inr ⟨fun c hc hx => hne (fun a => c a - o a) (fun a ha => ?_) ?_, hvalue⟩
    · have hca := hc a ha
      omega
    · rw [hx, ← span_add]
      refine span_congr stride fun a ha => ?_
      have hca := hc a ha
      omega

end

/-! ## Contiguous arrays -/

theorem corners_one (n : ℕ → ℕ) :
    corners n 1 = (List.range ((n 0 + 3) / 4)).map fun b => corner1 (4 * b) := by
  rw [corners, corners, List.map_eq_flatMap]
  rfl

theorem getD_valuesOf {α : Type} (p : ℕ → α) (i : ℕ) (default : α) :
    (valuesOf p).getD i default = if i < 4 then p i else default := by
  rw [valuesOf, List.getD_eq_getElem?_getD, List.getElem?_map]
  by_cases hi : i < 4
  · rw [if_pos hi, List.getElem?_range hi]
    rfl
  · rw [if_neg hi, List.getElem?_eq_none (by rw [List.length_range]; omega)]
    rfl

/-- From `2 ^ 32` elements on more than a block is left to the coder of partial blocks. -/
theorem wholeLimit_add_le_iff (nx : ℕ) : wholeLimit nx + 4 ≤ nx ↔ 2 ^ 32 ≤ nx := by
  constructor
  · intro h
    by_contra hlt
    rw [wholeLimit_eq (by omega)] at h
    omega
  · intro h
    have := wholeLimit_le nx
    omega

theorem compressContiguous_none (ops : FloatOps S (4 ^ 1)) (zfp : Params)
    (mem : ℤ → BitVec S.width) {nx : ℕ} (h : 2 ^ 32 ≤ nx) (s : Bitstream T) :
    compressContiguous ops zfp mem nx s = none := by
  rw [compressContiguous, if_pos ((wholeLimit_add_le_iff nx).mpr h)]

theorem decompressContiguous_none (ops : FloatOps S (4 ^ 1)) (zfp : Params) {nx : ℕ}
    (h : 2 ^ 32 ≤ nx) (s : Bitstream T) (mem : ℤ → BitVec S.width) :
    decompressContiguous zfp ops nx s mem = none := by
  rw [decompressContiguous, if_pos ((wholeLimit_add_le_iff nx).mpr h)]

section

variable (ops : FloatOps S (4 ^ 1)) (zfp : Params) {mem : ℤ → BitVec S.width} {n : ℕ → ℕ}
  {stride : ℕ → ℤ} (hstride : stride 0 = 1)

include hstride

theorem span_corner1 (c : ℕ → ℕ) : span stride 1 c = c 0 := by
  rw [span, span, hstride, mul_one, zero_add]

/-- Four values are those of the block if they are the elements in its places. -/
theorem valuesOf_eq_compressBlock {i : ℕ} (hi : 4 * i < n 0) {p : ℕ → BitVec S.width}
    (hp : ∀ j < 4, p j = mem ((4 * i + padIndex (min (n 0 - 4 * i) 4) j : ℕ) : ℤ)) :
    (fun j => (valuesOf p).getD j 0) = compressBlock 1 mem n stride (corner1 (4 * i)) := by
  have ho : ∀ a < 1, corner1 (4 * i) a < n a := by
    intro a ha
    obtain rfl : a = 0 := Nat.lt_one_iff.mp ha
    exact hi
  funext j
  rw [getD_valuesOf]
  split
  · next hj =>
    have hplace : place j 0 = j := by
      rw [place, pow_zero, Nat.div_one, Nat.mod_eq_of_lt hj]
    rw [compressBlock_apply mem stride ho hj, span_corner1 hstride, padPlace, hplace, hp j hj]
    rfl
  · next hj => exact (compressBlock_of_ge ho (by omega)).symm

/-- The routine for contiguous arrays compresses as the one for strided arrays. -/
theorem compressContiguous_eq (h : n 0 < 2 ^ 32) (s : Bitstream T) :
    compressContiguous ops zfp mem (n 0) s = some (compressStrided ops zfp mem n stride s) := by
  have hlimit : ¬ wholeLimit (n 0) + 4 ≤ n 0 := by
    rw [wholeLimit_add_le_iff]
    omega
  have hwhole : ∀ i < n 0 / 4, (fun j => (wholeVisit mem 0 i).values.getD j 0) =
      compressBlock 1 mem n stride (corner1 (4 * i)) := by
    intro i hi
    rw [wholeVisit]
    dsimp only
    have hi' : 4 * i < n 0 := by omega
    refine valuesOf_eq_compressBlock hstride hi' fun j hj => ?_
    rw [padIndex_of_lt (by omega), zero_add]
    push_cast
    rfl
  have hpartial : 4 * (n 0 / 4) < n 0 →
      (fun j => (partialVisit mem (fun _ => 0) 0 (n 0) (n 0 / 4)).values.getD j 0) =
        compressBlock 1 mem n stride (corner1 (4 * (n 0 / 4))) := by
    intro hlt
    rw [partialVisit]
    dsimp only
    refine valuesOf_eq_compressBlock hstride hlt fun j hj => ?_
    have hsize : ∀ a < 1, 1 ≤ n 0 - 4 * (n 0 / 4) ∧ n 0 - 4 * (n 0 / 4) ≤ 4 := by omega
    have hplace : place j 0 = j := by
      rw [place, pow_zero, Nat.div_one, Nat.mod_eq_of_lt hj]
    rw [gatherPartialLoops_block mem (fun _ => 1) hsize _ _ hj, span_corner1 rfl, hplace,
      Nat.min_eq_left (hsize 0 (by decide)).2]
    push_cast
    congr 1
    ring
  have hstep : ∀ r : Run T, ((List.range (n 0 / 4)).map (wholeVisit mem 0)).foldl
        (fun r v => encodeNext ops zfp r (corner1 v.x) fun i => v.values.getD i 0) r =
      ((List.range (n 0 / 4)).map fun b => corner1 (4 * b)).foldl
        (fun r o => encodeNext ops zfp r o (compressBlock 1 mem n stride o)) r := by
    intro r
    rw [List.foldl_map, List.foldl_map]
    refine List.foldl_ext _ _ _ fun r i hi => ?_
    rw [hwhole i (List.mem_range.mp hi)]
    rfl
  rw [compressContiguous, if_neg hlimit, compress1_eq _ _ _ h, Option.map_some, compressStrided,
    corners_one]
  congr 1
  split
  · next hlt =>
    have hcount : (n 0 + 3) / 4 = n 0 / 4 + 1 := by omega
    rw [List.foldl_append, hstep, hcount, List.range_succ, List.map_append, List.foldl_append,
      List.map_singleton, List.foldl_cons, List.foldl_cons, List.foldl_nil, List.foldl_nil,
      hpartial hlt]
    rfl
  · have hcount : (n 0 + 3) / 4 = n 0 / 4 := by omega
    rw [hstep, hcount]

/-- A block of consecutive elements is stored by the loops. -/
theorem decompressBlock_line (i : ℕ) (block : ℕ → BitVec S.width) :
    decompressBlock 1 block n stride (corner1 (4 * i)) mem =
      scatterLoops block (fun _ => min (n 0 - 4 * i) 4) (fun _ => 1) 1 mem
        (0 + 1 * ((4 * i : ℕ) : ℤ)) := by
  have hmin : ∀ a < 1, (fun _ => min (n 0 - 4 * i) 4) a ≤ 4 := fun _ _ => min_le_right _ _
  have hsize : ∀ a < 1, min (n a - corner1 (4 * i) a) 4 = min (n 0 - 4 * i) 4 := by
    intro a ha
    obtain rfl : a = 0 := Nat.lt_one_iff.mp ha
    rfl
  have hstride' : ∀ a < 1, stride a = 1 := by
    intro a ha
    obtain rfl : a = 0 := Nat.lt_one_iff.mp ha
    exact hstride
  rw [decompressBlock_eq, scatterLoops_eq _ _ hmin, scatterPartial_eq, scatterPartial_eq,
    visits_congr hsize hstride', span_corner1 hstride, one_mul, zero_add]
  rfl

end

/-! ## Decompression -/

section

variable (ops : FloatOps S (4 ^ d)) (zfp : Params) (n : ℕ → ℕ) (stride : ℕ → ℤ)

/-- One step of the loop over the corners. -/
def decompressNext (w : Run T × (ℤ → BitVec S.width)) (o : ℕ → ℕ) :
    Run T × (ℤ → BitVec S.width) :=
  ((decodeNext ops zfp w.1 o).2, decompressBlock d (decodeNext ops zfp w.1 o).1 n stride o w.2)

theorem decompressStrided_eq_foldl (s : Bitstream T) (mem : ℤ → BitVec S.width) :
    decompressStrided ops zfp n stride s mem =
      (corners n d).foldl (decompressNext ops zfp n stride) (⟨s, []⟩, mem) := rfl

end

/-- The loop over every fourth element steps through the corners. -/
theorem blockLoop_line {M : Type} (step : Run T × M → (ℕ → ℕ) → Run T × M) {nx : ℕ}
    (h : nx < 2 ^ 32) {body : ℕ → Run T × M → Run T × M} {w : Run T × M}
    (hbody : ∀ i < (nx + 3) / 4, ∀ w : Run T × M, w.1.blocks.length = i →
      body (4 * i) w = step w (corner1 (4 * i)))
    (hstep : ∀ w o, (step w o).1.blocks.length = w.1.blocks.length + 1) (hw : w.1.blocks = []) :
    blockLoop nx body (nx / 4 + 1 + 1) 0 w = some (4 * ((nx + 3) / 4),
      ((List.range ((nx + 3) / 4)).map fun b => corner1 (4 * b)).foldl step w) := by
  have hfold : ∀ k ≤ (nx + 3) / 4,
      ((List.range k).foldl (fun w i => body (4 * i) w) w).1.blocks.length = k ∧
        (List.range k).foldl (fun w i => body (4 * i) w) w =
          ((List.range k).map fun b => corner1 (4 * b)).foldl step w := by
    intro k hk
    induction k with
    | zero => exact ⟨by rw [List.range_zero, List.foldl_nil, hw]; rfl, rfl⟩
    | succ k ih =>
      obtain ⟨hlen, heq⟩ := ih (by omega)
      have hnext := hbody k (by omega) _ hlen
      rw [List.range_succ, List.foldl_append, List.foldl_cons, List.foldl_nil, hnext,
        List.map_append, List.foldl_append, ← heq]
      exact ⟨by rw [hstep, hlen], rfl⟩
  obtain ⟨extra, hextra⟩ : ∃ extra, nx / 4 + 1 + 1 = (nx + 3) / 4 + 1 + extra :=
    ⟨nx / 4 + 1 - (nx + 3) / 4, by omega⟩
  rw [hextra, blockLoop_eq (by omega) rfl body extra w, (hfold _ le_rfl).2]

/-- The routine for contiguous arrays decompresses as the one for strided arrays. -/
theorem decompressContiguous_eq (ops : FloatOps S (4 ^ 1)) (zfp : Params) {n : ℕ → ℕ}
    {stride : ℕ → ℤ} (hstride : stride 0 = 1) (h : n 0 < 2 ^ 32) (s : Bitstream T)
    (mem : ℤ → BitVec S.width) : decompressContiguous zfp ops (n 0) s mem =
      some (decompressStrided ops zfp n stride s mem) := by
  have hlimit : ¬ wholeLimit (n 0) + 4 ≤ n 0 := by
    rw [wholeLimit_add_le_iff]
    omega
  rw [decompressContiguous, if_neg hlimit, decompress1_eq _ _ _ _ h, decompressStrided1,
    blockLoop_line (decompressNext ops zfp n stride) h, decompressStrided_eq_foldl, corners_one]
  · rfl
  · intro i hi w hlen
    dsimp only
    rw [hlen, decompressNext, decompressBlock_line hstride]
    split
    · next hlt =>
      rw [Nat.min_eq_left hlt.le]
    · next hge =>
      rw [Nat.min_eq_right (by omega)]
  · intro w o
    exact List.length_append
  · rfl

/-! ## The serial policy -/

/-- When the serial routines are defined: the one for contiguous arrays up to `2 ^ 32` elements, the
others up to sizes that the counters of their loops get past. -/
def SerialReturns (field : Field) : Prop :=
  (∀ a < zfpFieldDimensionality field, field.size a ≤ 2 ^ 64 - 4) ∧
    (zfpFieldStrided field = true ∨ zfpFieldDimensionality field ≠ 1 ∨ field.nx < 2 ^ 32)

instance (field : Field) : Decidable (SerialReturns field) := inferInstanceAs (Decidable (_ ∧ _))

theorem zfpFieldStride_zero {field : Field} (h : (!zfpFieldStrided field) = true) :
    zfpFieldStride field 0 = 1 := by
  have hsx : field.sx = 0 := by
    by_contra hne
    simp [zfpFieldStrided, hne] at h
  rw [zfpFieldStride, if_neg (not_not.mpr hsx)]

/-- The cases of the dispatch. -/
theorem serialReturns_cases (field : Field) :
    ((zfpFieldDimensionality field = 1 ∧ (!zfpFieldStrided field) = true) ∧
      field.nx < 2 ^ 32 ∧ SerialReturns field) ∨
    ((zfpFieldDimensionality field = 1 ∧ (!zfpFieldStrided field) = true) ∧
      2 ^ 32 ≤ field.nx ∧ ¬ SerialReturns field) ∨
    (¬ (zfpFieldDimensionality field = 1 ∧ (!zfpFieldStrided field) = true) ∧
      (SerialReturns field ↔ loopsEnd field.size (zfpFieldDimensionality field) = true)) := by
  rw [SerialReturns, loopsEnd, decide_eq_true_eq]
  by_cases hcontig : zfpFieldDimensionality field = 1 ∧ (!zfpFieldStrided field) = true
  · have hstrided : zfpFieldStrided field = false := by simpa using hcontig.2
    by_cases hlt : field.nx < 2 ^ 32
    · refine .inl ⟨hcontig, hlt, fun a ha => ?_, .inr (.inr hlt)⟩
      obtain rfl : a = 0 := by omega
      rw [Field.size]
      omega
    · refine .inr (.inl ⟨hcontig, by omega, ?_⟩)
      rintro ⟨-, h | h | h⟩
      · rw [hstrided] at h
        exact Bool.false_ne_true h
      · exact h hcontig.1
      · exact hlt h
  · refine .inr (.inr ⟨hcontig, fun h => h.1, fun h => ⟨h, ?_⟩⟩)
    by_cases hstrided : zfpFieldStrided field = true
    · exact .inl hstrided
    · exact .inr (.inl fun hone => hcontig ⟨hone, by simpa using hstrided⟩)

section

variable {env : Env T} {ops : Floats} {zfp : Params} {mem : Data} {field : Field}
  (htype : field.type = some S) (hdims : zfpFieldDimensionality field ≠ 0)

include htype hdims

/-- The serial policy compresses with the loop over the corners, whatever the layout. -/
theorem zfpCompress_serial_eq (dst : Handle T) : zfpCompress env ops .serial zfp mem field dst =
    if SerialReturns field then
      let r := compressStrided (ops S (zfpFieldDimensionality field)) zfp (mem S) field.size
        (zfpFieldStride field) dst.stream
      some (streamSize (streamFlush r.stream).2, ⟨(streamFlush r.stream).2, r.blocks⟩)
    else none := by
  rw [zfpCompress, htype, ftable]
  simp only [if_neg hdims]
  rcases serialReturns_cases field with
    ⟨hcontig, hlt, hreturns⟩ | ⟨hcontig, hle, hno⟩ | ⟨hcontig, hiff⟩
  · have hstride := zfpFieldStride_zero hcontig.2
    rw [if_pos hcontig, if_pos hreturns, compressRoutine, hcontig.1]
    rw [show field.nx = field.size 0 from rfl, compressContiguous_eq (ops S 1) zfp hstride hlt]
    rfl
  · rw [if_pos hcontig, if_neg hno, compressRoutine, compressContiguous_none _ _ _ hle]
    rfl
  · rw [if_neg hcontig, compressRoutine]
    by_cases hends : loopsEnd field.size (zfpFieldDimensionality field) = true
    · rw [if_pos hends, if_pos (hiff.mpr hends)]
      rfl
    · rw [if_neg hends, if_neg fun h => hends (hiff.mp h)]
      rfl

theorem zfpDecompress_serial_eq (s : Bitstream T) :
    zfpDecompress env ops .serial zfp mem field s =
    if SerialReturns field then
      let w := decompressStrided (ops S (zfpFieldDimensionality field)) zfp field.size
        (zfpFieldStride field) s (mem S)
      some (streamSize (streamAlign w.1.stream).2, ⟨(streamAlign w.1.stream).2, w.1.blocks⟩,
        Function.update mem S w.2)
    else none := by
  rw [zfpDecompress, htype, ftable]
  simp only [if_neg hdims]
  rcases serialReturns_cases field with
    ⟨hcontig, hlt, hreturns⟩ | ⟨hcontig, hle, hno⟩ | ⟨hcontig, hiff⟩
  · have hstride := zfpFieldStride_zero hcontig.2
    rw [if_pos hcontig, if_pos hreturns, decompressRoutine, hcontig.1]
    rw [show field.nx = field.size 0 from rfl, decompressContiguous_eq (ops S 1) zfp hstride hlt]
    rfl
  · rw [if_pos hcontig, if_neg hno, decompressRoutine, decompressContiguous_none _ _ hle]
    rfl
  · rw [if_neg hcontig, decompressRoutine]
    by_cases hends : loopsEnd field.size (zfpFieldDimensionality field) = true
    · rw [if_pos hends, if_pos (hiff.mpr hends)]
      rfl
    · rw [if_neg hends, if_neg fun h => hends (hiff.mp h)]
      rfl

end

end Zfp

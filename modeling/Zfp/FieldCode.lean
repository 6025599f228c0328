import Zfp.SerialPaths

/-!
# The code of a field

The strided routine appends the codes of the blocks one after another. A decoder that reads them
restores the elements of a field, in whatever order they lie in memory.
-/

namespace Zfp
open BitLists Bitstream

variable {T : WordType} {S : Scalar} {d : ℕ} (ops : FloatOps S (4 ^ d)) (zfp : Params)

def cornersCode (mem : ℤ → BitVec S.width) (n : ℕ → ℕ) (stride : ℕ → ℤ) (l : List (ℕ → ℕ)) :
    List Bool :=
  l.flatMap fun o => blockCode ops zfp (compressBlock d mem n stride o)

theorem foldl_encodeNext_eq (hd : d ≤ 4) (block : (ℕ → ℕ) → ℕ → BitVec S.width)
    (l : List (ℕ → ℕ)) {r : Run T} (hr : r.stream.WF) :
    l.foldl (fun r o => encodeNext ops zfp r o (block o)) r =
      ⟨r.stream.append (l.flatMap fun o => blockCode ops zfp (block o)), r.blocks ++ l⟩ := by
  induction l generalizing r with
  | nil => rw [List.flatMap_nil, append_nil, List.append_nil]; rfl
  | cons o l ih =>
    have hnext : encodeNext ops zfp r o (block o) =
        ⟨r.stream.append (blockCode ops zfp (block o)), r.blocks ++ [o]⟩ := by
      rw [encodeNext, zfpEncodeBlock_eq ops zfp hr hd]
    rw [List.foldl_cons, hnext, ih (hr.append _), List.flatMap_cons, append_append,
      List.append_assoc]
    rfl

theorem compressStrided_eq (hd : d ≤ 4) (mem : ℤ → BitVec S.width) (n : ℕ → ℕ) (stride : ℕ → ℤ)
    {s : Bitstream T} (hs : s.WF) : compressStrided ops zfp mem n stride s =
      ⟨s.append (cornersCode ops zfp mem n stride (corners n d)), corners n d⟩ := by
  rw [compressStrided, foldl_encodeNext_eq ops zfp hd _ _ hs]
  rfl

/-! ## Decoding -/

section

variable {r : Bitstream T} {mem : ℤ → BitVec S.width} {n : ℕ → ℕ} {stride : ℕ → ℤ}

/-- A block that is decoded exactly stores the elements of the block. -/
theorem decompressNext_restores (hd : 1 ≤ d) (hd' : d ≤ 4) {o : ℕ → ℕ} {p : ℕ}
    (w : Run T × (ℤ → BitVec S.width)) (hw : w.1.stream = streamRseek r p)
    (h : Reads (memBit r.mem) p
      (blockCode ops zfpStreamSetReversible (compressBlock d mem n stride o))) :
    (decompressNext ops zfpStreamSetReversible n stride w o).1.stream = streamRseek r
        (p + (blockCode ops zfpStreamSetReversible (compressBlock d mem n stride o)).length) ∧
      ∀ x, (∃ c, InCorner d n o c ∧ x = span stride d c) ∧
          (decompressNext ops zfpStreamSetReversible n stride w o).2 x = mem x ∨
        (∀ c, InCorner d n o c → x ≠ span stride d c) ∧
          (decompressNext ops zfpStreamSetReversible n stride w o).2 x = w.2 x := by
  obtain ⟨-, hend, hvalues⟩ := zfpDecodeBlock_reversible ops hd hd' (fun _ => 0) h
  rw [← hw] at hend hvalues
  refine ⟨hend, fun x => ?_⟩
  obtain ⟨c, hc, hx, hvalue⟩ | ⟨hne, hvalue⟩ := decompressBlock_apply (d := d) (n := n) (o := o)
    (decodeNext ops zfpStreamSetReversible w.1 o).1 x
  · refine .inl ⟨⟨c, hc, hx⟩, hvalue.trans ?_⟩
    have hlt : ∀ a < d, c a - o a < 4 := fun a ha => by have := hc a ha; omega
    have hplace := blockPlace_lt (fun a (_ : a < d) => Nat.le_refl 4) hlt
    have hvalue' : compressBlock d mem n stride o (blockPlace (fun a => c a - o a) d) =
        mem (span stride d c) := compressBlock_place hc
    rw [hx, ← hvalue']
    exact hvalues _ hplace
  · exact .inr ⟨hne, hvalue⟩

/-- Decoding the blocks at some corners restores their elements and no other place. -/
theorem foldl_decompressNext_restores (hd : 1 ≤ d) (hd' : d ≤ 4) (l : List (ℕ → ℕ)) {p : ℕ}
    (w : Run T × (ℤ → BitVec S.width)) (hw : w.1.stream = streamRseek r p)
    (h : Reads (memBit r.mem) p (cornersCode ops zfpStreamSetReversible mem n stride l)) :
    (l.foldl (decompressNext ops zfpStreamSetReversible n stride) w).1.stream =
        streamRseek r (p + (cornersCode ops zfpStreamSetReversible mem n stride l).length) ∧
      ∀ x, (∃ o ∈ l, ∃ c, InCorner d n o c ∧ x = span stride d c) ∧
          (l.foldl (decompressNext ops zfpStreamSetReversible n stride) w).2 x = mem x ∨
        (∀ o ∈ l, ∀ c, InCorner d n o c → x ≠ span stride d c) ∧
          (l.foldl (decompressNext ops zfpStreamSetReversible n stride) w).2 x = w.2 x := by
  induction l generalizing p w with
  | nil => exact ⟨hw, fun x => .inr ⟨List.forall_mem_nil _, rfl⟩⟩
  | cons o l ih =>
    rw [cornersCode, List.flatMap_cons, reads_append] at h
    obtain ⟨hnext, hvalue⟩ := decompressNext_restores ops hd hd' w hw h.1
    obtain ⟨hend, hvalues⟩ := ih _ hnext h.2
    rw [List.foldl_cons, cornersCode, List.flatMap_cons, List.length_append, ← Nat.add_assoc]
    refine ⟨hend, fun x => ?_⟩
    rcases hvalues x with ⟨⟨o', ho', hx⟩, heq⟩ | ⟨hne, heq⟩
    · exact .inl ⟨⟨o', List.mem_cons_of_mem o ho', hx⟩, heq⟩
    · rw [heq]
      rcases hvalue x with ⟨hx, heq'⟩ | ⟨hne', heq'⟩
      · exact .inl ⟨⟨o, List.mem_cons_self, hx⟩, heq'⟩
      · exact .inr ⟨List.forall_mem_cons.mpr ⟨hne', hne⟩, heq'⟩

end

/-- The blocks at the corners hold the elements of the array. -/
theorem exists_inCorner_iff {n : ℕ → ℕ} {stride : ℕ → ℤ} {x : ℤ} :
    (∃ o ∈ corners n d, ∃ c, InCorner d n o c ∧ x = span stride d c) ↔
      ∃ c : ℕ → ℕ, (∀ a < d, c a < n a) ∧ x = span stride d c := by
  constructor
  · rintro ⟨o, -, c, hc, hx⟩
    exact ⟨c, fun a ha => (hc a ha).2.2, hx⟩
  · rintro ⟨c, hc, hx⟩
    obtain ⟨b, hb, hcorner⟩ := exists_corner n hc
    refine ⟨cornerOf n d b, mem_corners n hb, c, fun a ha => ?_, hx⟩
    have hca := hc a ha
    rw [hcorner a ha]
    omega

/-! ## Fields -/

theorem zfpFieldDimensionality_le (field : Field) : zfpFieldDimensionality field ≤ 4 := by
  rw [zfpFieldDimensionality]
  split_ifs <;> decide

def fieldCode (ops : Floats) (zfp : Params) (mem : Data) (field : Field) (S : Scalar) : List Bool :=
  cornersCode (ops S (zfpFieldDimensionality field)) zfp (mem S) field.size (zfpFieldStride field)
    (corners field.size (zfpFieldDimensionality field))

section

variable {env : Env T} {ops : Floats} {field : Field} (htype : field.type = some S)
  (hdims : zfpFieldDimensionality field ≠ 0) (hreturns : SerialReturns field)

include htype hdims hreturns

/-- The serial policy appends the code of the field. -/
theorem zfpCompress_code (zfp : Params) (mem : Data) {dst : Handle T} (hs : dst.stream.WF) :
    zfpCompress env ops .serial zfp mem field dst =
      some (wordBytes T (streamWtell dst.stream + (fieldCode ops zfp mem field S).length),
        ⟨(streamFlush (dst.stream.append (fieldCode ops zfp mem field S))).2,
          corners field.size (zfpFieldDimensionality field)⟩) := by
  rw [zfpCompress_serial_eq htype hdims, if_pos hreturns,
    compressStrided_eq _ _ (zfpFieldDimensionality_le field) _ _ _ hs, ← fieldCode]
  dsimp only
  rw [streamSize_flush (hs.append _), streamWtell_append hs]

/-- A reader of the code restores the elements. -/
theorem zfpDecompress_code {mem : Data} {r : Bitstream T}
    (h : Reads (memBit r.mem) 0 (fieldCode ops zfpStreamSetReversible mem field S)) (mem' : Data) :
    ∃ r' out, zfpDecompress env ops .serial zfpStreamSetReversible mem' field (streamRewind r) =
        some (wordBytes T (fieldCode ops zfpStreamSetReversible mem field S).length, r',
          Function.update mem' S out) ∧
      ∀ x, (∃ c : ℕ → ℕ, (∀ a < zfpFieldDimensionality field, c a < field.size a) ∧
            x = span (zfpFieldStride field) (zfpFieldDimensionality field) c) ∧ out x = mem S x ∨
        (∀ c : ℕ → ℕ, (∀ a < zfpFieldDimensionality field, c a < field.size a) →
            x ≠ span (zfpFieldStride field) (zfpFieldDimensionality field) c) ∧
          out x = mem' S x := by
  obtain ⟨hend, hvalues⟩ := foldl_decompressNext_restores (ops S (zfpFieldDimensionality field))
    (Nat.pos_of_ne_zero hdims) (zfpFieldDimensionality_le field) _ (⟨streamRseek r 0, []⟩, mem' S)
    rfl h
  rw [← decompressStrided_eq_foldl, Nat.zero_add] at hend
  simp only [← decompressStrided_eq_foldl] at hvalues
  rw [zfpDecompress_serial_eq htype hdims, if_pos hreturns, streamRewind_eq]
  dsimp only
  rw [hend, streamSize_align]
  refine ⟨_, _, rfl, fun x => ?_⟩
  rcases hvalues x with ⟨hx, hvalue⟩ | ⟨hne, hvalue⟩
  · exact .inl ⟨exists_inCorner_iff.mp hx, hvalue⟩
  · refine .inr ⟨fun c hc hx => ?_, hvalue⟩
    obtain ⟨o, ho, c', hc', hx'⟩ := exists_inCorner_iff.mpr ⟨c, hc, hx⟩
    exact hne o ho c' hc' hx'

end

/-- The reversible mode restores every element of a field, bit by bit, changes nothing else, and
both calls return the same size. -/
theorem reversible_field_round_trip (env : Env T) (ops : Floats) {field : Field}
    (htype : field.type = some S) (hdims : 1 ≤ zfpFieldDimensionality field)
    (hsize : ∀ a < zfpFieldDimensionality field, field.size a < 2 ^ 32) (mem mem' : Data)
    (s : Bitstream T) (data : ℕ) :
    ∃ size r r' out,
      zfpCompress env ops .serial zfpStreamSetReversible mem field ⟨data, streamRewind s⟩ =
        some (size, r) ∧
      zfpDecompress env ops .serial zfpStreamSetReversible mem' field (streamRewind r.stream) =
        some (size, r', out) ∧
      (∀ c : ℕ → ℕ, (∀ a < zfpFieldDimensionality field, c a < field.size a) →
        out S (span (zfpFieldStride field) (zfpFieldDimensionality field) c) =
          mem S (span (zfpFieldStride field) (zfpFieldDimensionality field) c)) ∧
      (∀ x, (∀ c : ℕ → ℕ, (∀ a < zfpFieldDimensionality field, c a < field.size a) →
          x ≠ span (zfpFieldStride field) (zfpFieldDimensionality field) c) →
        out S x = mem' S x) ∧
      ∀ S' ≠ S, out S' = mem' S' := by
  have hdims' : zfpFieldDimensionality field ≠ 0 := by omega
  have hreturns : SerialReturns field := by
    refine ⟨fun a ha => ?_, .inr (.inr (hsize 0 (by omega)))⟩
    have := hsize a ha
    omega
  have hwf := WF.rewind s
  have hcompress : zfpCompress env ops .serial zfpStreamSetReversible mem field
      ⟨data, streamRewind s⟩ = _ := zfpCompress_code htype hdims' hreturns _ mem hwf
  have hreads := reads_flush hwf (fieldCode ops zfpStreamSetReversible mem field S)
  rw [streamWtell_rewind, Nat.zero_add] at hcompress
  rw [streamWtell_rewind] at hreads
  obtain ⟨r', out, (hdecompress : zfpDecompress env _ _ _ _ _ _ = _), hvalues⟩ :=
    zfpDecompress_code htype hdims' hreturns hreads mem'
  refine ⟨_, _, r', _, hcompress, hdecompress, fun c hc => ?_, fun x hx => ?_, fun S' hS' => ?_⟩
  · rw [Function.update_self]
    rcases hvalues (span (zfpFieldStride field) (zfpFieldDimensionality field) c) with
      ⟨-, hvalue⟩ | ⟨hne, -⟩
    · exact hvalue
    · exact absurd rfl (hne c hc)
  · rw [Function.update_self]
    rcases hvalues x with ⟨⟨c, hc, hxc⟩, -⟩ | ⟨-, hvalue⟩
    · exact absurd hxc (hx c hc)
    · exact hvalue
  · exact Function.update_of_ne hS' _ _

/-- A plane of three rows, the later ones at lower addresses. -/
theorem reversible_field_round_trip_plane :
    let field : Field := ⟨some .int32, 5, 3, 0, 0, 0, -7, 0, 0⟩
    let mem : Data := fun S x => BitVec.ofInt S.width (1000 * x)
    ∃ size r r' out,
      zfpCompress (serialBuild .uint16) unusedFloats .serial zfpStreamSetReversible mem field
        ⟨0, streamOpen fun _ => 0⟩ = some (size, r) ∧
      zfpDecompress (serialBuild .uint16) unusedFloats .serial zfpStreamSetReversible (fun _ _ => 0)
        field (streamRewind r.stream) = some (size, r', out) ∧
      out .int32 (-4) = BitVec.ofInt 32 (-4000) := by
  intro field mem
  have hsize : ∀ a < 2, field.size a < 2 ^ 32 := by decide
  obtain ⟨size, r, r', out, hcompress, hdecompress, hvalues, -⟩ := reversible_field_round_trip
    (serialBuild .uint16) unusedFloats (rfl : field.type = some .int32) (by decide) hsize mem
    (fun _ _ => 0) ⟨0, 0, 0, fun _ => 0⟩ 0
  exact ⟨size, r, r', out, hcompress, hdecompress,
    hvalues (fun a => if a = 0 then 3 else 1) (by decide)⟩

end Zfp

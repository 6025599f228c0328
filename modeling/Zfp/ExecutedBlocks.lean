import Zfp.SerialPaths

/-!
# The blocks that are coded

The serial routines and the OpenMP routine reach every block of a field, in the order of the
block indices.
-/

namespace Zfp
open Bitstream

variable {T : WordType} {S : Scalar} {d : ℕ}

def AllBlocks (field : Field) (blocks : List (ℕ → ℕ)) : Prop :=
  ∀ b < blocksOf field.size (zfpFieldDimensionality field),
    cornerOf field.size (zfpFieldDimensionality field) b ∈ blocks

/-- Every element of the field is in a block that has been coded. -/
def AllElements (field : Field) (blocks : List (ℕ → ℕ)) : Prop :=
  ∀ c : ℕ → ℕ, (∀ a < zfpFieldDimensionality field, c a < field.size a) →
    ∃ o ∈ blocks, ∀ a < zfpFieldDimensionality field, o a = c a / 4 * 4

/-! ## The blocks of the serial routines -/

theorem AllBlocks.elements {field : Field} {blocks : List (ℕ → ℕ)} (h : AllBlocks field blocks) :
    AllElements field blocks := by
  intro c hc
  obtain ⟨b, hb, hcorner⟩ := exists_corner field.size hc
  exact ⟨_, h b hb, hcorner⟩

theorem corners_eq_map (n : ℕ → ℕ) (d : ℕ) :
    corners n d = (List.range (blocksOf n d)).map (cornerOf n d) := by
  apply List.ext_getElem?
  intro b
  rcases Nat.lt_or_ge b (blocksOf n d) with hb | hb
  · rw [getElem?_corners n hb, List.getElem?_map, List.getElem?_range hb]
    rfl
  · rw [List.getElem?_eq_none (by rwa [length_corners]),
      List.getElem?_eq_none (by rwa [List.length_map, List.length_range])]

/-! ## Values that are decoded -/

theorem blocksOf_dvd (n : ℕ → ℕ) {a d : ℕ} (h : a ≤ d) : blocksOf n a ∣ blocksOf n d := by
  induction h with
  | refl => exact Nat.dvd_refl _
  | step _ ih => exact Nat.dvd_trans ih (Nat.dvd_mul_right _ _)

theorem cornerOf_apply (n : ℕ → ℕ) (d b a : ℕ) : cornerOf n d b a =
    if a + 1 < d then 4 * (b / blocksOf n a % ((n a + 3) / 4))
    else if a + 1 = d then 4 * (b / blocksOf n a) else 0 := by
  induction d generalizing b with
  | zero => rfl
  | succ d ih =>
    rw [cornerOf]
    rcases eq_or_ne a d with rfl | hne
    · rw [Function.update_self, if_neg (by omega), if_pos rfl]
    · rw [Function.update_of_ne hne, ih]
      rcases Nat.lt_trichotomy (a + 1) d with hlt | heq | hgt
      · have hdvd : blocksOf n a * ((n a + 3) / 4) ∣ blocksOf n d :=
          blocksOf_dvd n (show a + 1 ≤ d by omega)
        rw [if_pos hlt, if_pos (by omega), ← Nat.mod_mul_right_div_self,
          ← Nat.mod_mul_right_div_self, Nat.mod_mod_of_dvd b hdvd]
      · subst heq
        rw [if_neg (by omega), if_pos rfl, if_pos (by omega), blocksOf, Nat.mod_mul_right_div_self]
      · rw [if_neg (by omega), if_neg (by omega), if_neg (by omega), if_neg (by omega)]

section

variable (ops : FloatOps S (4 ^ d)) {zfp : Params} {memory : Memory T} {dst : Handle T}
  {field : Field} {chunks blocks : ℕ} {bs : List (Handle T)}

omit ops in
theorem Bitstream.WF.withBuffer (hs : dst.stream.WF) (mem : ℕ → BitVec (wsize T)) :
    (dst.withBuffer mem).stream.WF := ⟨hs.1, hs.2⟩

end

/-! ## The OpenMP routine -/

theorem Field.size_pos {field : Field} {a : ℕ} (ha : a < zfpFieldDimensionality field) :
    1 ≤ field.size a := by
  rw [zfpFieldDimensionality] at ha
  split_ifs at ha
  · interval_cases a <;> simp only [Field.size] <;> omega
  · interval_cases a <;> simp only [Field.size] <;> omega
  · interval_cases a <;> simp only [Field.size] <;> omega
  · interval_cases a
    simp only [Field.size]
    omega
  · exact absurd ha (Nat.not_lt_zero a)

/-- The products of the OpenMP routine do not wrap. -/
structure ChunksFit (field : Field) (chunkSize threads : ℕ) : Prop where
  size : ∀ a < zfpFieldDimensionality field, field.size a + 3 < 2 ^ 64
  blocks : zfpFieldBlocks field = blocksOf field.size (zfpFieldDimensionality field)
  count : zfpFieldBlocks field + chunkSize ≤ 2 ^ 64
  offset : zfpFieldBlocks field * chunkCountOmp chunkSize (zfpFieldBlocks field) threads < 2 ^ 64

section

variable {field : Field} {env : Env T} {dst : Handle T} {zfp : Params}

theorem ChunksFit.blocksAlong {chunkSize threads : ℕ} (h : ChunksFit field chunkSize threads) :
    ∀ a < zfpFieldDimensionality field,
      blocksAlong (field.size a) = (field.size a + 3) / 4 := by
  intro a ha
  rw [Zfp.blocksAlong, Nat.mod_eq_of_lt (h.size a ha)]

section

variable {ops : FloatOps S (4 ^ zfpFieldDimensionality field)} {mem : ℤ → BitVec S.width}
  (hchunks : chunkCountOmp env.chunkSize (zfpFieldBlocks field) env.threads ≠ 0)

include hchunks

end

end

end Zfp

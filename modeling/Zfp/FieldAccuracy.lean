import Zfp.BlockParams
import Zfp.BlockStore
import Zfp.ChunkOrder
import Zfp.FieldCode
import Zfp.FloatCasts

/-!
# Accuracy of a decoded field

In fixed-accuracy mode the decoder of a field gets, for each block, the integers of `decodedBlock`,
and the values that it converts them to are within the tolerance of the values of the field. The
conversions are those of the floating-point hardware; what is asked of them is stated in `Converts`.
-/

namespace Zfp
open BitLists Bitstream Lines

variable {T : WordType} {S : Scalar} {d : ℕ}

/-! ## Conversions -/

/-- Whether bit planes of a block with this exponent are coded. -/
def HasPlanes (S : Scalar) (d : ℕ) (minexp emax : ℤ) : Prop :=
  0 < precision emax 64 minexp d ∧ emax ≠ -EBIAS S

instance (S : Scalar) (d : ℕ) (minexp emax : ℤ) : Decidable (HasPlanes S d minexp emax) :=
  inferInstanceAs (Decidable (_ ∧ _))

/-- The conversions between the values of a block and integers: the exponent is above every value
and the least one stands for zeros. Of a block that is coded the values are scaled exactly and their
fractions dropped, and what is converted back is rounded with relative error `u`. -/
structure Converts (ops : FloatOps S (4 ^ d)) (u : ℚ) (minexp : ℤ) (b : Fin (4 ^ d) → BitVec S.width) :
    Prop where
  exponent : ∀ i, |S.value (b i)| < 2 ^ ops.exponentBlock b
  zeros : ops.exponentBlock b = -EBIAS S → ∀ i, S.value (b i) = 0
  fwdCast : HasPlanes S d minexp (ops.exponentBlock b) → ∀ i,
    (ops.fwdCast b (ops.exponentBlock b) i).toInt =
      truncate (quantize S 1 (ops.exponentBlock b) * S.value (b i))
  invCast : HasPlanes S d minexp (ops.exponentBlock b) → ∀ z i,
    |S.value (ops.invCast z (ops.exponentBlock b) i) -
        dequantize S 1 (ops.exponentBlock b) * (z i).toInt| ≤
      u * |dequantize S 1 (ops.exponentBlock b) * (z i).toInt|

/-- The exponent leaves room for the scale factors of the casts. -/
def InCastRange (S : Scalar) (emax : ℤ) : Prop :=
  S.width - 2 - EBIAS S ≤ emax ∧ emax ≤ EBIAS S - 2

instance (S : Scalar) (emax : ℤ) : Decidable (InCastRange S emax) :=
  inferInstanceAs (Decidable (_ ∧ _))

theorem converts_ieeeOps (hS : S.isFloat = true) {minexp : ℤ} {b : Fin (4 ^ d) → BitVec S.width}
    (hb : ∀ i, S.Finite (b i))
    (hrange : HasPlanes S d minexp (exponentBlock S b) → InCastRange S (exponentBlock S b)) :
    Converts (ieeeOps S (4 ^ d)) (1 / 2 ^ (MBITS S + 1)) minexp b := by
  have hops := exponentBlock_ieeeOps hS b
  obtain ⟨hlt, hzeros⟩ := exponentBlock_spec b hb
  constructor
  · rwa [hops]
  · rwa [hops]
  · rw [hops]
    intro hcoded i
    obtain ⟨hlo, hhi⟩ := hrange hcoded
    exact toInt_fwdCastFloat hS b hlo (by omega) i (hlt i)
  · rw [hops]
    intro hcoded z i
    obtain ⟨hlo, hhi⟩ := hrange hcoded
    rw [one_div_mul_eq_div]
    exact abs_value_invCastFloat_sub_le hS z hlo hhi i

/-! ## Blocks -/

section

variable (ops : FloatOps S (4 ^ d)) (zfp : Params) {r : Bitstream T} {o : ℕ}

theorem decodedBlock_congr (hd : 1 ≤ d) (hd' : d ≤ 4) {k : ℕ} {b : ℕ → BitVec S.width}
    {u out : ℕ → BitVec S.width}
    (h : ∀ i < 4 ^ d, u i = keepPlanes k (fwdWords S d (fwdXform halfWord d b) i)) : ∀ j < 4 ^ d,
    invXform halfWord d (invOrder (NBMASK S) u out (perm d) (4 ^ d)) j = decodedBlock S d k b j :=
  passes_congr (invLift halfWord)
    (fun q hq => xformPasses_lines hd hd' q (List.mem_reverse.mp hq))
    (invOrder_congr (NBMASK S) out _ hd hd' h)

theorem decodeIntBlock_values (hd : 1 ≤ d) (hd' : d ≤ 4) {minbits maxbits maxprec : ℕ}
    (hprec : maxprec ≤ 64) (iblock out : ℕ → BitVec S.width)
    (h : Reads (memBit r.mem) o (intBlockCode S d minbits maxbits maxprec iblock))
    (hbits : (intsCode (fwdWords S d (fwdXform halfWord d iblock)) maxprec (4 ^ d)).length ≤ maxbits) :
    ∀ j < 4 ^ d, (decodeIntBlock S d (streamRseek r o) minbits maxbits maxprec out).2.2 j =
      decodedBlock S d maxprec iblock j := by
  obtain ⟨hpos, hle⟩ := block_size_le hd'
  exact decodedBlock_congr hd hd' ((decodeInts_reads (fwdWords S d (fwdXform halfWord d iblock))
    (fun _ => 0) hpos hle hprec (reads_padded h)).2 hbits)

/-- The values of a block whose exponent is stored. -/
theorem decodeFloatBlock_values (hd : 1 ≤ d) (hd' : d ≤ 4) (hmax : ZFP_MAX_BITS ≤ zfp.maxbits)
    (fblock out : ℕ → BitVec S.width)
    (h : Reads (memBit r.mem) o (floatBlockCode ops zfp fblock)) :
    let emax := ops.exponentBlock (blockOf _ fblock)
    let z := decodedBlock S d (precision emax zfp.maxprec zfp.minexp d)
      (putBlock (fun _ => 0) (ops.fwdCast (blockOf _ fblock) emax))
    (decodeFloatBlock ops zfp (streamRseek r o) out).2.2 =
      if storedExponent ops zfp fblock ≠ 0 then putBlock out (ops.invCast (blockOf _ z) emax)
      else putBlock out fun _ : Fin (4 ^ d) => 0 := by
  have hbits : EBITS S < 64 := by have := EBITS_lt S; omega
  dsimp only
  rw [decodeFloatBlock, streamReadBit_rseek]
  dsimp only
  have hstored : storedExponent ops zfp fblock =
      if precision (ops.exponentBlock (blockOf _ fblock)) zfp.maxprec zfp.minexp d ≠ 0 then
        (ops.exponentBlock (blockOf _ fblock) + EBIAS S).toNat else 0 := rfl
  obtain ⟨hlt, hcast⟩ := exponent_lt ops (blockOf _ fblock)
  rw [floatBlockCode] at h
  generalize ops.exponentBlock (blockOf _ fblock) = emax at *
  generalize storedExponent ops zfp fblock = e at *
  by_cases he : e ≠ 0
  · have hemax : (e : ℤ) - EBIAS S = emax := by
      split_ifs at hstored <;> omega
    have hlt' : e < 2 ^ EBITS S := by
      split_ifs at hstored <;> omega
    have hprec := (precision_le emax zfp.maxprec zfp.minexp d).trans zfp.maxprec_le
    rw [if_pos he, lowBits_odd e hbits, List.cons_append, Reads, reads_append, length_lowBits] at h
    obtain ⟨hflag, hexp, hcode⟩ := h
    have hfield := streamReadBits_field hbits.le hlt' hexp
    have hev := toNat_ofNat_of_lt hlt' hbits.le
    rw [if_pos hflag, hfield, if_pos he]
    generalize BitVec.ofNat 64 e = v at hev
    dsimp only
    rw [hev, hemax]
    have hroom : ∀ u : ℕ → BitVec S.width,
        (intsCode u (precision emax zfp.maxprec zfp.minexp d) (4 ^ d)).length ≤
          uintSub zfp.maxbits (1 + EBITS S) := by
      intro u
      have hlen := length_intsCode_le u S.width_le (precision emax zfp.maxprec zfp.minexp d) hd'
      have hside : 1 + EBITS S ≤ 19 := by cases S <;> decide
      rw [uintSub_eq zfp.maxbits_lt (by omega)]
      omega
    have hvalues := decodeIntBlock_values hd hd' hprec _ (fun _ => 0) hcode (hroom _)
    have hblock : blockOf (4 ^ d) (decodeIntBlock S d (streamRseek r (o + 1 + EBITS S))
        (zfp.minbits - min (1 + EBITS S) zfp.minbits) (uintSub zfp.maxbits (1 + EBITS S))
        (precision emax zfp.maxprec zfp.minexp d) fun _ => 0).2.2 =
      blockOf (4 ^ d) (decodedBlock S d (precision emax zfp.maxprec zfp.minexp d)
        (putBlock (fun _ => 0) (ops.fwdCast (blockOf _ fblock) emax))) :=
      funext fun i => hvalues i i.isLt
    rw [hblock]
  · rw [if_neg he] at h
    have hflag := (reads_padded h).1
    rw [if_neg (by rw [hflag]; decide), if_neg he]

/-- The error that the tolerance and the rounding of the result leave. -/
def errorBound (u tolerance x : ℚ) : ℚ := tolerance + u * (|x| + tolerance)

/-- The precision of a block does not ask for more planes than its integers have, and its values are
not just below the tolerance, where the inverse transform may overflow. -/
def Resolves (S : Scalar) (d : ℕ) (minexp emax : ℤ) : Prop :=
  emax - minexp + 2 * d + 2 ≤ S.width ∧ emax ≠ minexp - 1

instance (S : Scalar) (d : ℕ) (minexp emax : ℤ) : Decidable (Resolves S d minexp emax) :=
  inferInstanceAs (Decidable (_ ∧ _))

theorem abs_dequantize_toInt_le (S : Scalar) (emax : ℤ) (x : BitVec S.width) :
    |dequantize S 1 emax * x.toInt| ≤ 2 ^ (emax + 1) := by
  have hsmall : (0 : ℚ) < 2 ^ (emax - (S.width - 2 : ℤ)) := zpow_pos (by norm_num) _
  have hint : |x.toInt| ≤ 2 ^ (S.width - 1) := abs_le.mpr ⟨BitVec.le_toInt x, BitVec.toInt_lt.le⟩
  have hword : |(x.toInt : ℚ)| ≤ 2 ^ (S.width - 1 : ℤ) := by
    rw [← Nat.cast_one, ← Nat.cast_sub S.width_pos, zpow_natCast]
    exact_mod_cast hint
  rw [dequantize, Int.cast_one, one_mul, abs_mul, abs_of_pos hsmall]
  refine (mul_le_mul_of_nonneg_left hword hsmall.le).trans (le_of_eq ?_)
  rw [← zpow_add₀ (by norm_num)]
  congr 1
  ring

/-- The integers that a block is decoded to are within the tolerance. -/
theorem dequantize_decodedBlock_near (hd : 1 ≤ d) (hd' : d ≤ 4) {minexp emax : ℤ}
    (hres : Resolves S d minexp emax) (hpos : 0 < precision emax 64 minexp d) {x : ℕ → ℚ}
    (hx : ∀ j < 4 ^ d, |x j| < 2 ^ emax) (b : ℕ → BitVec S.width)
    (hb : ∀ j < 4 ^ d, (b j).toInt = fwdCast S x emax j) {j : ℕ} (hj : j < 4 ^ d) :
    |dequantize S 1 emax * (decodedBlock S d (precision emax 64 minexp d) b j).toInt - x j| ≤
      2 ^ minexp := by
  obtain ⟨hwidth, hne⟩ := hres
  have hwidth' := S.width_le
  have hk : (precision emax 64 minexp d : ℤ) = emax - minexp + 2 * d + 2 := by
    rw [precision] at hpos ⊢
    omega
  rcases lt_or_ge emax minexp with hlt | hge
  · -- the tolerance is larger than what the words can hold
    have hword : |dequantize S 1 emax * (decodedBlock S d (precision emax 64 minexp d) b j).toInt| ≤
        2 ^ (emax + 1) := abs_dequantize_toInt_le S emax _
    calc |dequantize S 1 emax * (decodedBlock S d (precision emax 64 minexp d) b j).toInt - x j|
        ≤ 2 ^ (emax + 1) + 2 ^ emax := (abs_sub _ _).trans (add_le_add hword (hx j hj).le)
      _ ≤ 2 ^ (emax + 2) := by
        rw [zpow_add₀ (by norm_num), zpow_add₀ (by norm_num)]
        have hpow : (0 : ℚ) < 2 ^ emax := zpow_pos (by norm_num) _
        norm_num
        linarith
      _ ≤ 2 ^ minexp := zpow_le_zpow_right₀ (by norm_num) (by omega)
  · have hrange : ∀ j < 4 ^ d, |(b j).toInt| ≤ 2 ^ (S.width - 2) - 1 := fun j hj => by
      rw [hb j hj]
      exact abs_fwdCast_le S (hx j hj)
    have hplanes : 2 * d + 2 ≤ precision emax 64 minexp d := by omega
    have hnear := (inv_xform_range hd hd' S hplanes b hrange j hj).2
    rw [hb j hj] at hnear
    exact dequantize_near S hk (by omega) hnear

/-- Just below the tolerance the inverse transform can overflow: a number close to the largest one of
this block is decoded to the smallest integer, which is off by more than the tolerance. -/
theorem accuracy_overflow :
    let b : ℕ → BitVec 32 := fun j =>
      BitVec.ofInt 32 (([-1012852550, -893018621, 233499659, 1073741823] : List ℤ).getD j 0)
    let x : ℕ → ℚ := fun j => (b j).toInt / 2 ^ 30
    (∀ j < 4, |x j| < 2 ^ (0 : ℤ) ∧ (b j).toInt = fwdCast .float x 0 j) ∧
      2 ^ (1 : ℤ) < |dequantize .float 1 0 *
        (decodedBlock .float 1 (precision 0 64 1 1) b 3).toInt - x 3| := by
  decide +kernel

theorem errorBound_of_tolerance {u : ℚ} (hu : 0 ≤ u) {minexp : ℤ} {x y : ℚ}
    (h : |y - x| ≤ 2 ^ minexp) : |y - x| ≤ errorBound u (2 ^ minexp) x := by
  have hpow : (0 : ℚ) < 2 ^ minexp := zpow_pos (by norm_num) _
  exact h.trans (le_add_of_nonneg_right (mul_nonneg hu (add_nonneg (abs_nonneg x) hpow.le)))

/-- Rounding adds to the error in proportion to the value. -/
theorem errorBound_of_rounding {u : ℚ} (hu : 0 ≤ u) {minexp : ℤ} {x y z : ℚ}
    (h : |z - x| ≤ 2 ^ minexp) (hy : |y - z| ≤ u * |z|) : |y - x| ≤ errorBound u (2 ^ minexp) x := by
  have hz : |z| ≤ |x| + 2 ^ minexp := by
    have htriangle := abs_add_le x (z - x)
    rw [add_sub_cancel] at htriangle
    linarith
  have htriangle := abs_sub_le y z x
  have hround := mul_le_mul_of_nonneg_left hz hu
  rw [errorBound]
  linarith

theorem decodeFloatBlock_near (hd : 1 ≤ d) (hd' : d ≤ 4) {u : ℚ} (hu : 0 ≤ u) {minexp : ℤ}
    (fblock out : ℕ → BitVec S.width) (hconv : Converts ops u minexp (blockOf _ fblock))
    (hres : HasPlanes S d minexp (ops.exponentBlock (blockOf _ fblock)) →
      Resolves S d minexp (ops.exponentBlock (blockOf _ fblock)))
    (h : Reads (memBit r.mem) o (floatBlockCode ops (zfpStreamSetAccuracy minexp) fblock)) :
    ∀ j < 4 ^ d, |S.value ((decodeFloatBlock ops (zfpStreamSetAccuracy minexp)
        (streamRseek r o) out).2.2 j) - S.value (fblock j)| ≤
      errorBound u (2 ^ minexp) (S.value (fblock j)) := by
  intro j hj
  have hvalues := decodeFloatBlock_values ops (zfpStreamSetAccuracy minexp) hd hd' (Nat.le_refl _)
    fblock out h
  have hparams : precision (ops.exponentBlock (blockOf _ fblock)) (zfpStreamSetAccuracy minexp).maxprec
      (zfpStreamSetAccuracy minexp).minexp d =
    precision (ops.exponentBlock (blockOf _ fblock)) 64 minexp d := rfl
  dsimp only at hvalues
  rw [hvalues, hparams]
  by_cases hstored : storedExponent ops (zfpStreamSetAccuracy minexp) fblock ≠ 0
  · rw [if_pos hstored, putBlock_of_lt _ _ hj]
    have hpos : 0 < precision (ops.exponentBlock (blockOf _ fblock)) 64 minexp d := by
      rw [← hparams]
      refine Nat.pos_of_ne_zero fun hzero => hstored ?_
      rw [storedExponent]
      exact if_neg (not_not.mpr hzero)
    have hcoded : HasPlanes S d minexp (ops.exponentBlock (blockOf _ fblock)) := by
      refine ⟨hpos, fun hzero => hstored ?_⟩
      rw [storedExponent, hzero, neg_add_cancel, Int.toNat_zero, ite_self]
    have hnear := dequantize_decodedBlock_near hd hd' (hres hcoded) hpos
      (x := fun j => S.value (fblock j)) (fun j hj => hconv.exponent ⟨j, hj⟩)
      (putBlock (fun _ => 0) (ops.fwdCast (blockOf _ fblock) (ops.exponentBlock (blockOf _ fblock))))
      (fun j hj => by
        rw [putBlock_of_lt _ _ hj]
        exact hconv.fwdCast hcoded ⟨j, hj⟩) hj
    exact errorBound_of_rounding hu hnear (hconv.invCast hcoded _ ⟨j, hj⟩)
  · rw [if_neg hstored, putBlock_of_lt _ _ hj, value_zero]
    refine errorBound_of_tolerance hu ?_
    rw [zero_sub, abs_neg]
    by_cases hzero : precision (ops.exponentBlock (blockOf _ fblock)) 64 minexp d = 0
    · -- no plane is kept
      have hexp : ops.exponentBlock (blockOf _ fblock) ≤ minexp := by
        rw [precision] at hzero
        omega
      exact (hconv.exponent ⟨j, hj⟩).le.trans (zpow_le_zpow_right₀ (by norm_num) hexp)
    · -- the block is one of zeros
      have hmem := (ops.exponentBlock_mem (blockOf _ fblock)).1
      have hstored' : (ops.exponentBlock (blockOf _ fblock) + EBIAS S).toNat = 0 := by
        rw [storedExponent, not_not] at hstored
        exact (if_pos hzero).symm.trans hstored
      have hvalue : S.value (fblock j) = 0 := hconv.zeros (by omega) ⟨j, hj⟩
      rw [hvalue, abs_zero]
      exact (zpow_pos (by norm_num) _).le

end

/-! ## Fields -/

section

variable {ops : FloatOps S (4 ^ d)} {zfp : Params} {r : Bitstream T} {mem : ℤ → BitVec S.width}
  {n : ℕ → ℕ} {stride : ℕ → ℤ} {Q : BitVec S.width → BitVec S.width → Prop}

/-- A reader of the code of a block gets to its end, and to values that are related to those of the
block. -/
def DecodesTo (ops : FloatOps S (4 ^ d)) (zfp : Params) (r : Bitstream T)
    (Q : BitVec S.width → BitVec S.width → Prop) (block : ℕ → BitVec S.width) : Prop :=
  ∀ p, Reads (memBit r.mem) p (blockCode ops zfp block) →
    let q := zfpDecodeBlock ops zfp (streamRseek r p) fun _ => 0
    q.2.1 = streamRseek r (p + (blockCode ops zfp block).length) ∧ ∀ i < 4 ^ d, Q (block i) (q.2.2 i)

/-- A block that is decoded stores values that are related to its elements. -/
theorem decompressNext_related {o : ℕ → ℕ} {p : ℕ} (w : Run T × (ℤ → BitVec S.width))
    (hw : w.1.stream = streamRseek r p)
    (hblock : DecodesTo ops zfp r Q (compressBlock d mem n stride o))
    (h : Reads (memBit r.mem) p (blockCode ops zfp (compressBlock d mem n stride o))) :
    (decompressNext ops zfp n stride w o).1.stream =
        streamRseek r (p + (blockCode ops zfp (compressBlock d mem n stride o)).length) ∧
      ∀ x, (∃ c, InCorner d n o c ∧ x = span stride d c) ∧
          Q (mem x) ((decompressNext ops zfp n stride w o).2 x) ∨
        (∀ c, InCorner d n o c → x ≠ span stride d c) ∧
          (decompressNext ops zfp n stride w o).2 x = w.2 x := by
  obtain ⟨hend, hvalues⟩ := hblock p h
  rw [← hw] at hend hvalues
  refine ⟨hend, fun x => ?_⟩
  obtain ⟨c, hc, hx, hvalue⟩ | ⟨hne, hvalue⟩ := decompressBlock_apply (d := d) (n := n) (o := o)
    (decodeNext ops zfp w.1 o).1 x
  · refine .inl ⟨⟨c, hc, hx⟩, ?_⟩
    have hlt : ∀ a < d, c a - o a < 4 := fun a ha => by have := hc a ha; omega
    have hplace := blockPlace_lt (fun a (_ : a < d) => Nat.le_refl 4) hlt
    have hvalue' : compressBlock d mem n stride o (blockPlace (fun a => c a - o a) d) =
        mem (span stride d c) := compressBlock_place hc
    have hrelated := hvalues _ hplace
    rw [hvalue', ← hx] at hrelated
    have hout : (decompressNext ops zfp n stride w o).2 x = _ := hvalue
    rw [hout]
    exact hrelated
  · exact .inr ⟨hne, hvalue⟩

theorem foldl_decompressNext_related (l : List (ℕ → ℕ)) {p : ℕ} (w : Run T × (ℤ → BitVec S.width))
    (hw : w.1.stream = streamRseek r p)
    (hblock : ∀ o ∈ l, DecodesTo ops zfp r Q (compressBlock d mem n stride o))
    (h : Reads (memBit r.mem) p (cornersCode ops zfp mem n stride l)) :
    (l.foldl (decompressNext ops zfp n stride) w).1.stream =
        streamRseek r (p + (cornersCode ops zfp mem n stride l).length) ∧
      ∀ x, (∃ o ∈ l, ∃ c, InCorner d n o c ∧ x = span stride d c) ∧
          Q (mem x) ((l.foldl (decompressNext ops zfp n stride) w).2 x) ∨
        (∀ o ∈ l, ∀ c, InCorner d n o c → x ≠ span stride d c) ∧
          (l.foldl (decompressNext ops zfp n stride) w).2 x = w.2 x := by
  induction l generalizing p w with
  | nil => exact ⟨hw, fun x => .inr ⟨List.forall_mem_nil _, rfl⟩⟩
  | cons o l ih =>
    rw [cornersCode, List.flatMap_cons, reads_append] at h
    obtain ⟨hfirst, hrest⟩ := List.forall_mem_cons.mp hblock
    obtain ⟨hnext, hvalue⟩ := decompressNext_related w hw hfirst h.1
    obtain ⟨hend, hvalues⟩ := ih _ hnext hrest h.2
    rw [List.foldl_cons, cornersCode, List.flatMap_cons, List.length_append, ← Nat.add_assoc]
    refine ⟨hend, fun x => ?_⟩
    rcases hvalues x with ⟨⟨o', ho', hx⟩, hrelated⟩ | ⟨hne, heq⟩
    · exact .inl ⟨⟨o', List.mem_cons_of_mem o ho', hx⟩, hrelated⟩
    · rw [heq]
      rcases hvalue x with ⟨hx, hrelated⟩ | ⟨hne', heq'⟩
      · exact .inl ⟨⟨o, List.mem_cons_self, hx⟩, hrelated⟩
      · exact .inr ⟨List.forall_mem_cons.mpr ⟨hne', hne⟩, heq'⟩

end

section

variable {env : Env T} {ops : Floats} {field : Field} {zfp : Params} {r : Bitstream T} {mem : Data}
  {Q : BitVec S.width → BitVec S.width → Prop} (htype : field.type = some S)
  (hdims : zfpFieldDimensionality field ≠ 0) (hreturns : SerialReturns field)

include htype hdims hreturns

/-- The elements of a field are related to those that a reader of its code stores. -/
theorem zfpDecompress_related
    (hblock : ∀ o ∈ corners field.size (zfpFieldDimensionality field),
      DecodesTo (ops S (zfpFieldDimensionality field)) zfp r Q
        (compressBlock (zfpFieldDimensionality field) (mem S) field.size (zfpFieldStride field) o))
    (h : Reads (memBit r.mem) 0 (fieldCode ops zfp mem field S)) (mem' : Data) :
    ∃ r' out, zfpDecompress env ops .serial zfp mem' field (streamRewind r) =
        some (wordBytes T (fieldCode ops zfp mem field S).length, r', Function.update mem' S out) ∧
      (∀ c : ℕ → ℕ, (∀ a < zfpFieldDimensionality field, c a < field.size a) →
        Q (mem S (span (zfpFieldStride field) (zfpFieldDimensionality field) c))
          (out (span (zfpFieldStride field) (zfpFieldDimensionality field) c))) ∧
      ∀ x, (∀ c : ℕ → ℕ, (∀ a < zfpFieldDimensionality field, c a < field.size a) →
          x ≠ span (zfpFieldStride field) (zfpFieldDimensionality field) c) → out x = mem' S x := by
  obtain ⟨hend, hvalues⟩ := foldl_decompressNext_related _ (⟨streamRseek r 0, []⟩, mem' S) rfl hblock h
  rw [← decompressStrided_eq_foldl, Nat.zero_add] at hend
  simp only [← decompressStrided_eq_foldl] at hvalues
  rw [zfpDecompress_serial_eq htype hdims, if_pos hreturns, streamRewind_eq]
  dsimp only
  rw [hend, streamSize_align]
  refine ⟨_, _, rfl, fun c hc => ?_, fun x hx => ?_⟩
  · rcases hvalues (span (zfpFieldStride field) (zfpFieldDimensionality field) c) with
      ⟨-, hrelated⟩ | ⟨hne, -⟩
    · exact hrelated
    · obtain ⟨o, ho, c', hc', hx'⟩ := exists_inCorner_iff.mpr ⟨c, hc, rfl⟩
      exact absurd hx' (hne o ho c' hc')
  · rcases hvalues x with ⟨hin, -⟩ | ⟨-, hvalue⟩
    · obtain ⟨c, hc, hxc⟩ := exists_inCorner_iff.mp hin
      exact absurd hxc (hx c hc)
    · exact hvalue

end

/-- What the fixed-accuracy mode decodes a value to. -/
def Near (S : Scalar) (tolerance : ℚ) (x y : BitVec S.width) : Prop :=
  |S.value y - S.value x| ≤ errorBound (1 / 2 ^ (MBITS S + 1)) tolerance (S.value x)

theorem Near.mono {tolerance tolerance' : ℚ} {x y : BitVec S.width} (h : Near S tolerance x y)
    (hle : tolerance ≤ tolerance') : Near S tolerance' x y := by
  have hscale : (0 : ℚ) ≤ 1 / 2 ^ (MBITS S + 1) := by positivity
  have hround := mul_le_mul_of_nonneg_left (add_le_add_right hle |S.value x|) hscale
  rw [Near, errorBound] at h ⊢
  linarith

/-- A block of finite numbers is decoded within the tolerance. -/
theorem decodesTo_near (hS : S.isFloat = true) (hd : 1 ≤ d) (hd' : d ≤ 4) {minexp : ℤ}
    (hmin : ZFP_MIN_EXP ≤ minexp) (r : Bitstream T) {block : ℕ → BitVec S.width}
    (hfinite : ∀ i : Fin (4 ^ d), S.Finite (block i))
    (hplanes : let emax := exponentBlock S (blockOf (4 ^ d) block)
      HasPlanes S d minexp emax → InCastRange S emax ∧ Resolves S d minexp emax) :
    DecodesTo (ieeeOps S (4 ^ d)) (zfpStreamSetAccuracy minexp) r (Near S (2 ^ minexp)) block := by
  intro p h
  have hmode : REVERSIBLE (zfpStreamSetAccuracy minexp) = false := decide_eq_false (not_lt.mpr hmin)
  have hops := exponentBlock_ieeeOps hS (blockOf (4 ^ d) block)
  have hconv : Converts (ieeeOps S (4 ^ d)) _ minexp (blockOf _ block) :=
    converts_ieeeOps hS hfinite fun h => (hplanes h).1
  have hend := zfpDecodeBlock_rseek (ieeeOps S (4 ^ d)) _ hd hd' (fun _ => 0) h fun hun =>
    absurd hun.2.1 (by rw [hmode]; decide)
  rw [blockCode, if_pos hS, hmode, if_neg (by decide)] at h
  have hvalues := decodeFloatBlock_near (ieeeOps S (4 ^ d)) hd hd' (by positivity) _ (fun _ => 0) hconv
    (by rw [hops]; exact fun h => (hplanes h).2) h
  rw [zfpDecodeBlock, if_pos hS, hmode, if_neg (by decide)] at hend ⊢
  exact ⟨hend.2, hvalues⟩

/-- The parameters for a tolerance, a number `x * 2 ^ emin` with `1 / 2 ≤ x < 1`. -/
def zfpStreamSetTolerance (tolerance : BitVec 64) : Params :=
  zfpStreamSetAccuracy
    (if Scalar.double.lt 0 tolerance then FREXP .double tolerance - 1 else ZFP_MIN_EXP)

/-- The largest power of two that is not above the tolerance. -/
theorem tolerance_spec {tolerance : BitVec 64} (htol : Scalar.double.Finite tolerance)
    (hpos : 0 < Scalar.double.value tolerance) :
    ZFP_MIN_EXP ≤ (zfpStreamSetTolerance tolerance).minexp ∧
      2 ^ (zfpStreamSetTolerance tolerance).minexp ≤ Scalar.double.value tolerance := by
  have hminexp :
      (zfpStreamSetTolerance tolerance).minexp = Int.log 2 (Scalar.double.value tolerance) := by
    have hlt : Scalar.double.lt 0 tolerance = true := (lt_zero_iff htol).mpr hpos
    have hcancel := add_sub_cancel_right (Int.log 2 (Scalar.double.value tolerance)) 1
    have hexp : FREXP .double tolerance = Int.log 2 (Scalar.double.value tolerance) + 1 := if_pos htol
    rw [zfpStreamSetTolerance, if_pos hlt, hexp, hcancel]
    rfl
  rw [hminexp]
  refine ⟨?_, Int.zpow_log_le_self (b := 2) (by norm_num) hpos⟩
  obtain ⟨f, k, -, hk, hvalue⟩ := exists_short (S := .double) tolerance
  rw [abs_of_pos hpos] at hvalue
  have hf : (1 : ℚ) ≤ f := by
    rcases Nat.eq_zero_or_pos f with rfl | hf
    · rw [hvalue, Nat.cast_zero, zero_mul] at hpos
      exact absurd hpos (lt_irrefl _)
    · exact_mod_cast hf
  have hle : (2 : ℚ) ^ k ≤ Scalar.double.value tolerance := by
    rw [hvalue]
    exact le_mul_of_one_le_left (zpow_pos (by norm_num) _).le hf
  have hlog := (Int.zpow_le_iff_le_log (b := 2) (by norm_num) hpos).mp hle
  have hmin : (1 - EBIAS .double - MBITS .double : ℤ) = ZFP_MIN_EXP := by decide
  omega

def ieeeFloats : Floats := fun S d => ieeeOps S (4 ^ d)

theorem field_near (env : Env T) {field : Field} (hS : S.isFloat = true)
    (htype : field.type = some S) (hdims : 1 ≤ zfpFieldDimensionality field)
    (hsize : ∀ a < zfpFieldDimensionality field, field.size a < 2 ^ 32) {minexp : ℤ}
    (hmin : ZFP_MIN_EXP ≤ minexp) (mem mem' : Data)
    (hfinite : ∀ c : ℕ → ℕ, (∀ a < zfpFieldDimensionality field, c a < field.size a) →
      S.Finite (mem S (span (zfpFieldStride field) (zfpFieldDimensionality field) c)))
    (hblocks : ∀ o ∈ corners field.size (zfpFieldDimensionality field),
      let emax := exponentBlock S (blockOf (4 ^ zfpFieldDimensionality field)
        (compressBlock (zfpFieldDimensionality field) (mem S) field.size (zfpFieldStride field) o))
      HasPlanes S (zfpFieldDimensionality field) minexp emax →
        InCastRange S emax ∧ Resolves S (zfpFieldDimensionality field) minexp emax)
    (s : Bitstream T) (data : ℕ) :
    ∃ size r r' out,
      zfpCompress env ieeeFloats .serial (zfpStreamSetAccuracy minexp) mem field
          ⟨data, streamRewind s⟩ = some (size, r) ∧
      zfpDecompress env ieeeFloats .serial (zfpStreamSetAccuracy minexp) mem' field
          (streamRewind r.stream) = some (size, r', out) ∧
      (∀ c : ℕ → ℕ, (∀ a < zfpFieldDimensionality field, c a < field.size a) →
        let x := span (zfpFieldStride field) (zfpFieldDimensionality field) c
        Near S (2 ^ minexp) (mem S x) (out S x)) ∧
      (∀ x, (∀ c : ℕ → ℕ, (∀ a < zfpFieldDimensionality field, c a < field.size a) →
          x ≠ span (zfpFieldStride field) (zfpFieldDimensionality field) c) →
        out S x = mem' S x) ∧
      ∀ S' ≠ S, out S' = mem' S' := by
  have hdims' : zfpFieldDimensionality field ≠ 0 := by omega
  have hreturns : SerialReturns field := by
    refine ⟨fun a ha => ?_, .inr (.inr (hsize 0 (by omega)))⟩
    have := hsize a ha
    omega
  have hwf := WF.rewind s
  have hcompress : zfpCompress env ieeeFloats .serial (zfpStreamSetAccuracy minexp) mem field
      ⟨data, streamRewind s⟩ = _ := zfpCompress_code htype hdims' hreturns _ mem hwf
  have hreads := reads_flush hwf (fieldCode ieeeFloats (zfpStreamSetAccuracy minexp) mem field S)
  rw [streamWtell_rewind, Nat.zero_add] at hcompress
  rw [streamWtell_rewind] at hreads
  have hnear : ∀ o ∈ corners field.size (zfpFieldDimensionality field),
      DecodesTo (ieeeFloats S (zfpFieldDimensionality field)) (zfpStreamSetAccuracy minexp)
        (streamFlush ((streamRewind s).append
          (fieldCode ieeeFloats (zfpStreamSetAccuracy minexp) mem field S))).2
        (Near S (2 ^ minexp))
        (compressBlock (zfpFieldDimensionality field) (mem S) field.size (zfpFieldStride field) o) := by
    intro o ho
    have hcorner : ∀ a < zfpFieldDimensionality field, o a < field.size a := by
      rw [corners_eq_map] at ho
      obtain ⟨b, hb, rfl⟩ := List.mem_map.mp ho
      exact fun a ha => (cornerOf_lt field.size (List.mem_range.mp hb) ha).1
    refine decodesTo_near hS hdims (zfpFieldDimensionality_le field) hmin _ (fun i => ?_) (hblocks o ho)
    rw [compressBlock_apply _ _ hcorner i.isLt]
    refine hfinite _ fun a ha => ?_
    have hpad := padIndex_lt (n := min (field.size a - o a) 4) (by have := hcorner a ha; omega)
      (place i a)
    rw [padPlace]
    omega
  obtain ⟨r', out, (hdecompress : zfpDecompress env _ _ _ _ _ _ = _), hvalues, hframe⟩ :=
    zfpDecompress_related htype hdims' hreturns hnear hreads mem'
  refine ⟨_, _, r', _, hcompress, hdecompress, fun c hc => ?_, fun x hx => ?_, fun S' hS' => ?_⟩
  · simp only [Function.update_self]
    exact hvalues c hc
  · rw [Function.update_self]
    exact hframe x hx
  · exact Function.update_of_ne hS' _ _

/-- In fixed-accuracy mode every element of a decompressed field is within the tolerance of the
element that was compressed, up to the rounding of the result, and nothing else changes. -/
theorem fixed_accuracy_field (env : Env T) {field : Field} (hS : S.isFloat = true)
    (htype : field.type = some S) (hdims : 1 ≤ zfpFieldDimensionality field)
    (hsize : ∀ a < zfpFieldDimensionality field, field.size a < 2 ^ 32) {tolerance : BitVec 64}
    (htol : Scalar.double.Finite tolerance) (hpos : 0 < Scalar.double.value tolerance)
    (mem mem' : Data)
    (hfinite : ∀ c : ℕ → ℕ, (∀ a < zfpFieldDimensionality field, c a < field.size a) →
      S.Finite (mem S (span (zfpFieldStride field) (zfpFieldDimensionality field) c)))
    (hblocks : ∀ o ∈ corners field.size (zfpFieldDimensionality field),
      let emax := exponentBlock S (blockOf (4 ^ zfpFieldDimensionality field)
        (compressBlock (zfpFieldDimensionality field) (mem S) field.size (zfpFieldStride field) o))
      let minexp := (zfpStreamSetTolerance tolerance).minexp
      HasPlanes S (zfpFieldDimensionality field) minexp emax →
        InCastRange S emax ∧ Resolves S (zfpFieldDimensionality field) minexp emax)
    (s : Bitstream T) (data : ℕ) :
    ∃ size r r' out,
      zfpCompress env ieeeFloats .serial (zfpStreamSetTolerance tolerance) mem field
          ⟨data, streamRewind s⟩ = some (size, r) ∧
      zfpDecompress env ieeeFloats .serial (zfpStreamSetTolerance tolerance) mem' field
          (streamRewind r.stream) = some (size, r', out) ∧
      (∀ c : ℕ → ℕ, (∀ a < zfpFieldDimensionality field, c a < field.size a) →
        let x := span (zfpFieldStride field) (zfpFieldDimensionality field) c
        Near S (Scalar.double.value tolerance) (mem S x) (out S x)) ∧
      (∀ x, (∀ c : ℕ → ℕ, (∀ a < zfpFieldDimensionality field, c a < field.size a) →
          x ≠ span (zfpFieldStride field) (zfpFieldDimensionality field) c) →
        out S x = mem' S x) ∧
      ∀ S' ≠ S, out S' = mem' S' := by
  obtain ⟨hmin, hle⟩ := tolerance_spec htol hpos
  obtain ⟨size, r, r', out, hcompress, hdecompress, hnear, hframe⟩ :=
    field_near env hS htype hdims hsize hmin mem mem' hfinite hblocks s data
  exact ⟨size, r, r', out, hcompress, hdecompress, fun c hc => (hnear c hc).mono hle, hframe⟩

/-- Five numbers, the last one in a block of its own, with a tolerance of a thousandth. -/
theorem fixed_accuracy_field_five :
    let field : Field := ⟨some .float, 5, 0, 0, 0, 0, 0, 0, 0⟩
    let mem : Data := fun S x =>
      BitVec.ofNat S.width ([0x3f800000, 0xbf000000, 0, 0x40490fdb, 0x3dcccccd].getD x.toNat 0)
    ∃ size r r' out,
      zfpCompress (serialBuild .uint64) ieeeFloats .serial
          (zfpStreamSetTolerance 0x3f50624dd2f1a9fc) mem field
          ⟨0, streamRewind (streamOpen fun _ => 0)⟩ = some (size, r) ∧
      zfpDecompress (serialBuild .uint64) ieeeFloats .serial (zfpStreamSetTolerance 0x3f50624dd2f1a9fc)
          (fun _ _ => 0) field (streamRewind r.stream) = some (size, r', out) ∧
      ∀ x : ℕ, x < 5 → Near .float (Scalar.double.value 0x3f50624dd2f1a9fc) (mem .float x)
        (out .float x) := by
  intro field mem
  have hspan : ∀ c : ℕ → ℕ, span (zfpFieldStride field) 1 c = c 0 := by
    intro c
    rw [span, span, Int.zero_add]
    exact Int.mul_one _
  have hfinite : ∀ c : ℕ → ℕ, (∀ a < 1, c a < field.size a) →
      Scalar.float.Finite (mem .float (span (zfpFieldStride field) 1 c)) := by
    intro c hc
    have hlt : c 0 < 5 := hc 0 (by decide)
    rw [hspan]
    interval_cases c 0 <;> decide
  have htype : field.type = some .float := rfl
  have htol : Scalar.double.Finite (0x3f50624dd2f1a9fc : BitVec 64) :=
    show Scalar.magnitude .double _ < _ by decide
  obtain ⟨size, r, r', out, hcompress, hdecompress, hnear, -⟩ := fixed_accuracy_field
    (serialBuild .uint64) rfl htype (by decide) (by decide) htol (by decide +kernel) mem
    (fun _ _ => 0) hfinite (by decide +kernel) (streamOpen fun _ => 0) 0
  refine ⟨size, r, r', out, hcompress, hdecompress, fun x hx => ?_⟩
  have hx' : ∀ a < 1, x < field.size a := fun a ha => by
    obtain rfl : a = 0 := by omega
    exact hx
  have hvalue := hnear (fun _ => x) hx'
  have hplace : span (zfpFieldStride field) (zfpFieldDimensionality field) (fun _ => x) = x :=
    hspan fun _ => x
  rwa [hplace] at hvalue

end Zfp

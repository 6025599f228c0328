import Zfp.BlockCode

/-!
# Parameters with the same block codes

A block has at most `ZFP_MAX_BITS` bits and at least one, and its exponent is bounded. Outside
these limits a change of the parameters does not change any code.
-/

namespace Zfp
open BitLists PlaneCode

variable {S : Scalar} {d : ℕ}

def ZFP_MAX_BITS : ℕ := 16658

/-- Parameters `q` that differ from `p` only where no block code depends on it. -/
structure SameCodes (p q : Params) : Prop where
  pos : 1 ≤ p.maxbits
  minbits : q.minbits = max 1 p.minbits
  maxbits : q.maxbits = p.maxbits ∨ ZFP_MAX_BITS ≤ p.maxbits ∧ ZFP_MAX_BITS ≤ q.maxbits
  maxprec : q.maxprec = p.maxprec
  minexp : q.minexp = p.minexp ∨ (p.minexp < ZFP_MIN_EXP ∧ q.minexp < ZFP_MIN_EXP) ∨
    (16272 ≤ p.minexp ∧ 16272 ≤ q.minexp)

theorem intsCode_ne_nil {w : ℕ} (data : ℕ → BitVec w) {maxprec size : ℕ} (hw : 0 < w)
    (hprec : 0 < maxprec) (hsize : 0 < size) : intsCode data maxprec size ≠ [] := by
  obtain ⟨k, rfl⟩ := Nat.exists_eq_add_one_of_ne_zero hw.ne'
  obtain ⟨m, rfl⟩ := Nat.exists_eq_add_one_of_ne_zero hsize.ne'
  rw [intsCode, planesCode, if_pos (by omega)]
  intro hnil
  have hgroup := (List.append_eq_nil_iff.mp (List.append_eq_nil_iff.mp hnil).1).2
  by_cases hany : (List.range' 0 (m + 1)).any (plane data k) = true
  · rw [Nat.sub_zero, groupCode_test hany] at hgroup
    exact List.cons_ne_nil _ _ hgroup
  · rw [Nat.sub_zero, groupCode_none (Bool.eq_false_of_not_eq_true hany)] at hgroup
    exact List.cons_ne_nil _ _ hgroup

/-- All planes of a block fit in the largest block. -/
theorem length_intsCode_le {w : ℕ} (data : ℕ → BitVec w) (hw : w ≤ 64) (maxprec : ℕ) (hd : d ≤ 4) :
    (intsCode data maxprec (4 ^ d)).length + 19 ≤ ZFP_MAX_BITS := by
  have hlen := intsCode_length data maxprec (show 0 < 4 ^ d from Nat.pow_pos (by decide))
  have hsize : 4 ^ d ≤ 4 ^ 4 := Nat.pow_le_pow_right (by decide) hd
  have hmul : (min maxprec w + 1) * 4 ^ d ≤ 65 * 4 ^ 4 := Nat.mul_le_mul (by omega) hsize
  rw [ZFP_MAX_BITS]
  omega

/-- A budget that holds the largest block does not cut its code. -/
theorem take_uintSub {l : List Bool} {m bits : ℕ} (hm : m < 2 ^ 32) (hmax : l.length + bits ≤ m) :
    l.take (uintSub m bits) = l := by
  rw [uintSub_eq hm (by omega)]
  exact List.take_of_length_le (by omega)

theorem padded_max {minbits : ℕ} {l : List Bool} (hl : l ≠ []) :
    padded (max 1 minbits) l = padded minbits l := by
  have hpos := List.length_pos_of_ne_nil hl
  rw [padded, padded]
  congr 2
  omega

variable {p q : Params}

theorem SameCodes.reversible (h : SameCodes p q) : REVERSIBLE q = REVERSIBLE p := by
  have hexp : q.minexp < ZFP_MIN_EXP ↔ p.minexp < ZFP_MIN_EXP := by
    rw [ZFP_MIN_EXP]
    rcases h.minexp with he | ⟨hp, hq⟩ | ⟨hp, hq⟩
    · rw [he]
    · exact iff_of_true hq hp
    · omega
  rw [REVERSIBLE, REVERSIBLE, decide_eq_decide.mpr hexp]

theorem SameCodes.minbits_inner (h : SameCodes p q) {bits : ℕ} (hbits : 1 ≤ bits) :
    q.minbits - min bits q.minbits = p.minbits - min bits p.minbits := by
  rw [h.minbits]
  omega

theorem SameCodes.take_maxbits (h : SameCodes p q) {l : List Bool}
    (hl : l.length ≤ ZFP_MAX_BITS) : l.take q.maxbits = l.take p.maxbits := by
  rcases h.maxbits with he | ⟨hp, hq⟩
  · rw [he]
  · rw [List.take_of_length_le (hl.trans hp), List.take_of_length_le (hl.trans hq)]

theorem SameCodes.take_outer (h : SameCodes p q) {l : List Bool} {bits : ℕ}
    (hl : l.length + bits ≤ ZFP_MAX_BITS) :
    l.take (uintSub q.maxbits bits) = l.take (uintSub p.maxbits bits) := by
  rcases h.maxbits with he | ⟨hp, hq⟩
  · rw [he]
  · rw [take_uintSub p.maxbits_lt (hl.trans hp), take_uintSub q.maxbits_lt (hl.trans hq)]

theorem SameCodes.take_inner (h : SameCodes p q) {l : List Bool} {bits bits' : ℕ}
    (hl : l.length + (bits + bits') ≤ ZFP_MAX_BITS) :
    l.take (uintSub (uintSub q.maxbits bits) bits') =
      l.take (uintSub (uintSub p.maxbits bits) bits') := by
  rcases h.maxbits with he | ⟨hp, hq⟩
  · rw [he]
  · have hplt := p.maxbits_lt
    have hqlt := q.maxbits_lt
    rw [uintSub_eq hplt (by omega), uintSub_eq hqlt (by omega), take_uintSub (by omega) (by omega),
      take_uintSub (by omega) (by omega)]

theorem SameCodes.precision_eq (h : SameCodes p q) (hlossy : REVERSIBLE p = false) {emax : ℤ}
    (hemax : emax ≤ 1024) (hd : d ≤ 4) :
    precision emax q.maxprec q.minexp d = precision emax p.maxprec p.minexp d := by
  rw [h.maxprec]
  rw [REVERSIBLE, decide_eq_false_iff_not] at hlossy
  rcases h.minexp with he | ⟨hp, -⟩ | ⟨hp, hq⟩
  · rw [he]
  · exact absurd hp hlossy
  · rw [precision, precision]
    omega

theorem exponentBlock_le (ops : FloatOps S (4 ^ d)) (fblock : Fin (4 ^ d) → BitVec S.width) :
    ops.exponentBlock fblock ≤ 1024 := by
  have h := (ops.exponentBlock_mem fblock).2
  cases S <;> simp only [EBITS, EBIAS] at h <;> omega

theorem SameCodes.intBlockCode_eq (h : SameCodes p q) (hd : d ≤ 4) (iblock : ℕ → BitVec S.width) :
    intBlockCode S d q.minbits q.maxbits q.maxprec iblock =
      intBlockCode S d p.minbits p.maxbits p.maxprec iblock := by
  have hlen := length_intsCode_le (fwdWords S d (fwdXform halfWord d iblock)) S.width_le p.maxprec hd
  have hw : 0 < S.width := by cases S <;> decide
  have hne := intsCode_ne_nil (fwdWords S d (fwdXform halfWord d iblock)) hw p.maxprec_pos
    (block_size_le hd).1
  have hpos := h.pos
  rw [intBlockCode, intBlockCode, h.maxprec, h.take_maxbits (by omega), h.minbits, padded_max]
  rw [Ne, List.take_eq_nil_iff, not_or]
  exact ⟨by omega, hne⟩

theorem SameCodes.revIntBlockCode_eq (h : SameCodes p q) (hd : d ≤ 4)
    (iblock : ℕ → BitVec S.width) :
    revIntBlockCode S d q.minbits q.maxbits q.maxprec iblock =
      revIntBlockCode S d p.minbits p.maxbits p.maxprec iblock := by
  have hP : 0 < PBITS S ∧ PBITS S ≤ 6 := by cases S <;> decide
  rw [revIntBlockCode, revIntBlockCode, h.maxprec, h.minbits]
  generalize revPrec S d p.maxprec iblock = prec
  have hlen := length_intsCode_le (fwdWords S d (revFwdXform d iblock)) S.width_le prec hd
  rw [h.take_outer (by omega), padded_max]
  apply List.ne_nil_of_length_pos
  rw [List.length_append, length_lowBits]
  omega

/-- The integer coder behind `bits` bits of side information. -/
theorem SameCodes.inner_intBlockCode_eq (h : SameCodes p q) (hd : d ≤ 4) {bits : ℕ}
    (hbits : 1 ≤ bits) (hbits' : bits ≤ 13) (maxprec : ℕ) (iblock : ℕ → BitVec S.width) :
    intBlockCode S d (q.minbits - min bits q.minbits) (uintSub q.maxbits bits) maxprec iblock =
      intBlockCode S d (p.minbits - min bits p.minbits) (uintSub p.maxbits bits) maxprec iblock := by
  have hlen := length_intsCode_le (fwdWords S d (fwdXform halfWord d iblock)) S.width_le maxprec hd
  rw [intBlockCode, intBlockCode, h.minbits_inner hbits, h.take_outer (by omega)]

theorem SameCodes.inner_revIntBlockCode_eq (h : SameCodes p q) (hd : d ≤ 4) {bits : ℕ}
    (hbits : 1 ≤ bits) (hbits' : bits ≤ 13) (iblock : ℕ → BitVec S.width) :
    revIntBlockCode S d (q.minbits - min bits q.minbits) (uintSub q.maxbits bits) q.maxprec iblock =
      revIntBlockCode S d (p.minbits - min bits p.minbits) (uintSub p.maxbits bits) p.maxprec
        iblock := by
  have hP : PBITS S ≤ 6 := by cases S <;> decide
  rw [revIntBlockCode, revIntBlockCode, h.maxprec, h.minbits_inner hbits]
  generalize revPrec S d p.maxprec iblock = prec
  have hlen := length_intsCode_le (fwdWords S d (revFwdXform d iblock)) S.width_le prec hd
  rw [h.take_inner (by omega)]

theorem SameCodes.floatBlockCode_eq (h : SameCodes p q) (hd : d ≤ 4) (ops : FloatOps S (4 ^ d))
    (hlossy : REVERSIBLE p = false) (fblock : ℕ → BitVec S.width) :
    floatBlockCode ops q fblock = floatBlockCode ops p fblock := by
  have hE : EBITS S ≤ 11 := by cases S <;> decide
  have hprec := h.precision_eq hlossy (exponentBlock_le ops (blockOf _ fblock)) hd
  have hstored : storedExponent ops q fblock = storedExponent ops p fblock := by
    rw [storedExponent, storedExponent, hprec]
  rw [floatBlockCode, floatBlockCode, hstored, hprec,
    h.inner_intBlockCode_eq hd (by omega) (by omega), h.minbits,
    padded_max (List.cons_ne_nil _ _)]

theorem SameCodes.revFloatBlockCode_eq (h : SameCodes p q) (hd : d ≤ 4) (ops : FloatOps S (4 ^ d))
    (fblock : ℕ → BitVec S.width) :
    revFloatBlockCode ops q fblock = revFloatBlockCode ops p fblock := by
  have hE : EBITS S ≤ 11 := by cases S <;> decide
  have hrest := fun bits (hbits : 1 ≤ bits) (hbits' : bits ≤ 13) (iblock : ℕ → BitVec S.width) =>
    h.inner_revIntBlockCode_eq hd hbits hbits' iblock
  rw [revFloatBlockCode, revFloatBlockCode]
  dsimp only
  rw [hrest (2 + EBITS S) (by omega) (by omega), hrest 2 (by omega) (by omega)]

/-- Parameters with the same codes encode every block to the same bits. -/
theorem SameCodes.blockCode_eq (h : SameCodes p q) (hd : d ≤ 4) (ops : FloatOps S (4 ^ d))
    (block : ℕ → BitVec S.width) : blockCode ops q block = blockCode ops p block := by
  rw [blockCode, blockCode, h.reversible, h.revFloatBlockCode_eq hd, h.revIntBlockCode_eq hd,
    h.intBlockCode_eq hd]
  cases hmode : REVERSIBLE p with
  | false => rw [h.floatBlockCode_eq hd ops hmode]
  | true => rfl

end Zfp

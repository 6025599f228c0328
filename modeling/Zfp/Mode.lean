import Zfp.BlockParams

/-!
# The compression mode word

The four compression parameters are packed in a short code of 12 bits, when they are those of
one of the basic modes, or else in a word of 64 bits. A word that the encoder writes is decoded
to parameters that encode every block to the same bits.
-/

namespace Zfp

/-! ## Packed words -/

/-- `word <<= n; word += v` -/
def pushField (word : BitVec 64) (n v : ℕ) : BitVec 64 := (word <<< n) + BitVec.ofNat 64 v

/-- `word & mask` -/
def maskField (word : BitVec 64) (mask : ℕ) : ℕ := (word &&& BitVec.ofNat 64 mask).toNat

theorem toNat_pushField {word : BitVec 64} {n v : ℕ} (h : word.toNat * 2 ^ n + v < 2 ^ 64) :
    (pushField word n v).toNat = word.toNat * 2 ^ n + v := by
  rw [pushField, BitVec.toNat_add, BitVec.toNat_shiftLeft, BitVec.toNat_ofNat, Nat.shiftLeft_eq,
    Nat.mod_eq_of_lt (by omega : word.toNat * 2 ^ n < 2 ^ 64), Nat.mod_eq_of_lt (by omega : v < 2 ^ 64),
    Nat.mod_eq_of_lt h]

theorem maskField_eq (word : BitVec 64) {mask n : ℕ} (hn : n ≤ 64) (h : mask = 2 ^ n - 1) :
    maskField word mask = word.toNat % 2 ^ n := by
  have hle : 2 ^ n ≤ 2 ^ 64 := Nat.pow_le_pow_right (by decide) hn
  have hpos := Nat.two_pow_pos n
  rw [maskField, BitVec.toNat_and, BitVec.toNat_ofNat, Nat.mod_eq_of_lt (by omega), h,
    Nat.and_two_pow_sub_one_eq_mod]

private theorem maskField_15 (word : BitVec 64) : maskField word 0x7fff = word.toNat % 2 ^ 15 :=
  maskField_eq word (by decide) rfl

private theorem maskField_7 (word : BitVec 64) : maskField word 0x7f = word.toNat % 2 ^ 7 :=
  maskField_eq word (by decide) rfl

theorem toNat_ushiftRight_eq (word : BitVec 64) (n : ℕ) :
    (word >>> n).toNat = word.toNat / 2 ^ n := by
  rw [BitVec.toNat_ushiftRight, Nat.shiftRight_eq_div_pow]

/-! ## Modes -/

def ZFP_MIN_BITS : ℕ := 1

def ZFP_MAX_PREC : ℕ := 64

def ZFP_MODE_SHORT_BITS : ℕ := 12

def ZFP_MODE_LONG_BITS : ℕ := 64

def ZFP_MODE_SHORT_MAX : ℕ := 2 ^ ZFP_MODE_SHORT_BITS - 2

inductive Mode | null | expert | fixedRate | fixedPrecision | fixedAccuracy | reversible
  deriving DecidableEq, Repr

def zfpStreamCompressionMode (zfp : Params) : Mode :=
  if zfp.minbits > zfp.maxbits ∨ ¬ (0 < zfp.maxprec ∧ zfp.maxprec ≤ 64) then .null
  -- default values are considered expert mode
  else if zfp.minbits = ZFP_MIN_BITS ∧ zfp.maxbits = ZFP_MAX_BITS ∧ zfp.maxprec = ZFP_MAX_PREC ∧
    zfp.minexp = ZFP_MIN_EXP then .expert
  else if zfp.minbits = zfp.maxbits ∧ 1 ≤ zfp.maxbits ∧ zfp.maxbits ≤ ZFP_MAX_BITS ∧
    zfp.maxprec ≥ ZFP_MAX_PREC ∧ zfp.minexp = ZFP_MIN_EXP then .fixedRate
  else if zfp.minbits ≤ ZFP_MIN_BITS ∧ zfp.maxbits ≥ ZFP_MAX_BITS ∧ zfp.maxprec ≥ 1 ∧
    zfp.minexp = ZFP_MIN_EXP then .fixedPrecision
  else if zfp.minbits ≤ ZFP_MIN_BITS ∧ zfp.maxbits ≥ ZFP_MAX_BITS ∧
    zfp.maxprec ≥ ZFP_MAX_PREC ∧ zfp.minexp ≥ ZFP_MIN_EXP then .fixedAccuracy
  else if zfp.minbits ≤ ZFP_MIN_BITS ∧ zfp.maxbits ≥ ZFP_MAX_BITS ∧
    zfp.maxprec ≥ ZFP_MAX_PREC ∧ zfp.minexp < ZFP_MIN_EXP then .reversible
  else .expert

/-- `a + b` in `int` arithmetic. -/
def intAdd (a b : ℤ) : ℤ := Int.bmod (a + b) (2 ^ 32)

/-- encode each parameter separately -/
def longMode (zfp : Params) : BitVec 64 :=
  let minbits := max 1 (min zfp.minbits 0x8000) - 1
  let maxbits := max 1 (min zfp.maxbits 0x8000) - 1
  let maxprec := max 1 (min zfp.maxprec 0x80) - 1
  let minexp := (max 0 (min (intAdd zfp.minexp 16495) 0x7fff)).toNat
  let mode := pushField 0 15 minexp
  let mode := pushField mode 7 maxprec
  let mode := pushField mode 15 maxbits
  let mode := pushField mode 15 minbits
  pushField mode 12 0xfff

def zfpStreamMode (zfp : Params) : BitVec 64 :=
  match zfpStreamCompressionMode zfp with
  | .fixedRate =>
    if zfp.maxbits ≤ 2048 then BitVec.ofNat 64 (zfp.maxbits - 1) else longMode zfp
  | .fixedPrecision =>
    if zfp.maxprec ≤ 128 then BitVec.ofNat 64 (zfp.maxprec - 1 + 2048) else longMode zfp
  | .fixedAccuracy =>
    if zfp.minexp ≤ 843 then
      BitVec.ofInt 64 (zfp.minexp - ZFP_MIN_EXP) + BitVec.ofNat 64 (2048 + 128 + 1)
    else longMode zfp
  | .reversible => BitVec.ofNat 64 (2048 + 128)
  | _ => longMode zfp

/-- The parameters `minbits`, `maxbits`, `maxprec` and `minexp` that a mode word stands for. -/
def modeParams (mode : BitVec 64) : ℕ × ℕ × ℕ × ℤ :=
  let m := mode.toNat
  if m ≤ ZFP_MODE_SHORT_MAX then
    if m < 2048 then (m + 1, m + 1, ZFP_MAX_PREC, ZFP_MIN_EXP)
    else if m < 2048 + 128 then (ZFP_MIN_BITS, ZFP_MAX_BITS, m + 1 - 2048, ZFP_MIN_EXP)
    else if m = 2048 + 128 then (ZFP_MIN_BITS, ZFP_MAX_BITS, ZFP_MAX_PREC, ZFP_MIN_EXP - 1)
    else (ZFP_MIN_BITS, ZFP_MAX_BITS, ZFP_MAX_PREC, (m : ℤ) + ZFP_MIN_EXP - (2048 + 128 + 1))
  else
    let mode := mode >>> 12
    let minbits := maskField mode 0x7fff + 1
    let mode := mode >>> 15
    let maxbits := maskField mode 0x7fff + 1
    let mode := mode >>> 15
    let maxprec := maskField mode 0x7f + 1
    let mode := mode >>> 7
    (minbits, maxbits, maxprec, (maskField mode 0x7fff : ℤ) - 16495)

def zfpStreamSetMode (zfp : Params) (mode : BitVec 64) : Mode × Params :=
  let (minbits, maxbits, maxprec, minexp) := modeParams mode
  match zfpStreamSetParams (UInt32.ofNat minbits) (UInt32.ofNat maxbits) (UInt32.ofNat maxprec)
    minexp with
  | some zfp => (zfpStreamCompressionMode zfp, zfp)
  | none => (.null, zfp)

/-! ## The conditions of the modes -/

theorem compressionMode_ne_null (p : Params) : zfpStreamCompressionMode p ≠ .null := by
  have hmin := p.minbits_le
  have hpos := p.maxprec_pos
  have hle := p.maxprec_le
  rw [zfpStreamCompressionMode, if_neg (by omega)]
  split_ifs <;> decide

/-- What a short code of the parameters relies on. -/
def ModeSpec (p : Params) : Mode → Prop
  | .fixedRate => p.minbits = p.maxbits ∧ 1 ≤ p.maxbits ∧ p.maxprec = 64 ∧ p.minexp = -1074
  | .fixedPrecision => p.minbits ≤ 1 ∧ 16658 ≤ p.maxbits ∧ p.minexp = -1074
  | .fixedAccuracy => p.minbits ≤ 1 ∧ 16658 ≤ p.maxbits ∧ p.maxprec = 64 ∧ -1074 < p.minexp
  | .reversible => p.minbits ≤ 1 ∧ 16658 ≤ p.maxbits ∧ p.maxprec = 64 ∧ p.minexp < -1074
  | .null => True
  | .expert => True

theorem compressionMode_spec (p : Params) : ModeSpec p (zfpStreamCompressionMode p) := by
  have hle := p.maxprec_le
  have hpos := p.maxprec_pos
  rw [zfpStreamCompressionMode]
  split_ifs
  any_goals exact trivial
  all_goals simp only [ZFP_MIN_BITS, ZFP_MAX_BITS, ZFP_MAX_PREC, ZFP_MIN_EXP] at *
  all_goals dsimp only [ModeSpec]
  all_goals omega

/-! ## Decoding a code -/

def shortParams (p : Params) : ℕ × ℕ × ℕ × ℤ :=
  (max 1 p.minbits, min p.maxbits ZFP_MAX_BITS, p.maxprec,
    if zfpStreamCompressionMode p = .reversible then ZFP_MIN_EXP - 1 else p.minexp)

def longParams (p : Params) : ℕ × ℕ × ℕ × ℤ :=
  (max 1 (min p.minbits 0x8000), max 1 (min p.maxbits 0x8000), p.maxprec,
    max (-16495) (min p.minexp 16272))

/-- The fields of a long code. -/
private theorem packed_fields {a b c e : ℕ} (ha : a < 2 ^ 15) (hb : b < 2 ^ 15) (hc : c < 2 ^ 7)
    (he : e < 2 ^ 15) :
    let v := (((e * 2 ^ 7 + c) * 2 ^ 15 + b) * 2 ^ 15 + a) * 2 ^ 12 + 0xfff
    v / 2 ^ 12 % 2 ^ 15 = a ∧ v / 2 ^ 12 / 2 ^ 15 % 2 ^ 15 = b ∧
      v / 2 ^ 12 / 2 ^ 15 / 2 ^ 15 % 2 ^ 7 = c ∧ v / 2 ^ 12 / 2 ^ 15 / 2 ^ 15 / 2 ^ 7 % 2 ^ 15 = e := by
  omega

theorem modeParams_longMode {p : Params} (hlow : -2 ^ 31 ≤ p.minexp)
    (hhigh : p.minexp ≤ 2 ^ 31 - 1 - 16495) :
    (longMode p).toNat % 2 ^ 12 = 0xfff ∧ modeParams (longMode p) = longParams p := by
  have hprec := p.maxprec_le
  have hpos := p.maxprec_pos
  have hadd : intAdd p.minexp 16495 = p.minexp + 16495 := by
    rw [intAdd]
    exact Int.bmod_eq_of_le (by omega) (by omega)
  set e := (max 0 (min (intAdd p.minexp 16495) 0x7fff)).toNat with he
  have hlt : e < 2 ^ 15 := by omega
  set a := max 1 (min p.minbits 0x8000) - 1 with ha
  set b := max 1 (min p.maxbits 0x8000) - 1 with hb
  set c := max 1 (min p.maxprec 0x80) - 1 with hc
  have hval : (longMode p).toNat = (((e * 2 ^ 7 + c) * 2 ^ 15 + b) * 2 ^ 15 + a) * 2 ^ 12 + 0xfff := by
    have h1 : (pushField 0 15 e).toNat = e := by
      rw [toNat_pushField] <;> rw [show (0 : BitVec 64).toNat = 0 from rfl, Nat.zero_mul, Nat.zero_add]
      omega
    have h2 : (pushField (pushField 0 15 e) 7 c).toNat = e * 2 ^ 7 + c := by
      rw [toNat_pushField] <;> rw [h1]
      omega
    have h3 : (pushField (pushField (pushField 0 15 e) 7 c) 15 b).toNat =
        (e * 2 ^ 7 + c) * 2 ^ 15 + b := by
      rw [toNat_pushField] <;> rw [h2]
      omega
    have h4 : (pushField (pushField (pushField (pushField 0 15 e) 7 c) 15 b) 15 a).toNat =
        ((e * 2 ^ 7 + c) * 2 ^ 15 + b) * 2 ^ 15 + a := by
      rw [toNat_pushField] <;> rw [h3]
      omega
    rw [longMode, toNat_pushField] <;> rw [h4]
    omega
  clear_value a b c
  have hlong : ¬ (longMode p).toNat ≤ ZFP_MODE_SHORT_MAX := by
    rw [hval, ZFP_MODE_SHORT_MAX, ZFP_MODE_SHORT_BITS]
    omega
  refine ⟨by rw [hval]; omega, ?_⟩
  rw [modeParams]
  dsimp only
  rw [if_neg hlong, longParams, maskField_15, maskField_15, maskField_7, maskField_15]
  have hfields := packed_fields (a := a) (b := b) (c := c) (by omega) (by omega) (by omega) hlt
  dsimp only at hfields
  obtain ⟨h1, h2, h3, h4⟩ := hfields
  simp only [toNat_ushiftRight_eq, hval, h1, h2, h3, h4, Prod.mk.injEq]
  clear hval h1 h2 h3 h4
  refine ⟨by omega, by omega, by omega, ?_⟩
  rw [he, hadd]
  omega

/-- The five kinds of codes. -/
theorem zfpStreamMode_cases (p : Params) :
    (zfpStreamCompressionMode p = .fixedRate ∧ p.maxbits ≤ 2048 ∧
      (zfpStreamMode p).toNat = p.maxbits - 1) ∨
    (zfpStreamCompressionMode p = .fixedPrecision ∧
      (zfpStreamMode p).toNat = p.maxprec - 1 + 2048) ∨
    (zfpStreamCompressionMode p = .fixedAccuracy ∧ p.minexp ≤ 843 ∧
      ((zfpStreamMode p).toNat : ℤ) = p.minexp + 1074 + 2177) ∨
    (zfpStreamCompressionMode p = .reversible ∧ (zfpStreamMode p).toNat = 2176) ∨
    (zfpStreamCompressionMode p ≠ .reversible ∧ zfpStreamMode p = longMode p) := by
  have hspec := compressionMode_spec p
  have hle := p.maxprec_le
  rw [zfpStreamMode]
  cases hmode : zfpStreamCompressionMode p with
  | null => exact absurd hmode (compressionMode_ne_null p)
  | expert => exact .inr (.inr (.inr (.inr ⟨by decide, rfl⟩)))
  | fixedRate =>
    dsimp only
    split
    · next h =>
      refine .inl ⟨rfl, h, ?_⟩
      rw [BitVec.toNat_ofNat]
      omega
    · exact .inr (.inr (.inr (.inr ⟨by decide, rfl⟩)))
  | fixedPrecision =>
    dsimp only
    rw [if_pos (by omega), BitVec.toNat_ofNat]
    exact .inr (.inl ⟨rfl, by omega⟩)
  | fixedAccuracy =>
    rw [hmode] at hspec
    obtain ⟨-, -, -, hexp⟩ := hspec
    dsimp only
    split
    · next h =>
      refine .inr (.inr (.inl ⟨rfl, h, ?_⟩))
      rw [BitVec.toNat_add, BitVec.toNat_ofInt, BitVec.toNat_ofNat, ZFP_MIN_EXP]
      omega
    · exact .inr (.inr (.inr (.inr ⟨by decide, rfl⟩)))
  | reversible => exact .inr (.inr (.inr (.inl ⟨rfl, rfl⟩)))

/-- A code is decoded to the parameters up to normalisation. -/
theorem modeParams_zfpStreamMode {p : Params} (hlow : -2 ^ 31 ≤ p.minexp)
    (hhigh : p.minexp ≤ 2 ^ 31 - 1 - 16495) :
    modeParams (zfpStreamMode p) =
      if (zfpStreamMode p).toNat ≤ ZFP_MODE_SHORT_MAX then shortParams p else longParams p := by
  have hspec := compressionMode_spec p
  have hpos := p.maxprec_pos
  have hle := p.maxprec_le
  have hshort : ZFP_MODE_SHORT_MAX = 4094 := rfl
  rcases zfpStreamMode_cases p with ⟨hmode, hbits, hval⟩ | ⟨hmode, hval⟩ | ⟨hmode, hexp, hval⟩ |
    ⟨hmode, hval⟩ | ⟨hmode, heq⟩
  · rw [hmode] at hspec
    obtain ⟨h1, h2, h3, h4⟩ := hspec
    rw [modeParams, hval, if_pos (by omega), if_pos (by omega), if_pos (by omega), shortParams, hmode,
      if_neg (by decide), h1, h3, h4, ZFP_MAX_BITS, ZFP_MAX_PREC, ZFP_MIN_EXP]
    simp only [Prod.mk.injEq, and_true]
    omega
  · rw [hmode] at hspec
    obtain ⟨h1, h2, h4⟩ := hspec
    rw [modeParams, hval, if_pos (by omega), if_neg (by omega), if_pos (by omega), if_pos (by omega),
      shortParams, hmode, if_neg (by decide), h4, ZFP_MAX_BITS, ZFP_MIN_BITS, ZFP_MIN_EXP]
    simp only [Prod.mk.injEq, and_true]
    omega
  · rw [hmode] at hspec
    obtain ⟨h1, h2, h3, h4⟩ := hspec
    rw [modeParams, if_pos (by omega), if_neg (by omega), if_neg (by omega), if_neg (by omega),
      if_pos (by omega), shortParams, hmode, if_neg (by decide), h3, ZFP_MAX_BITS, ZFP_MIN_BITS,
      ZFP_MIN_EXP, ZFP_MAX_PREC]
    simp only [Prod.mk.injEq, true_and]
    omega
  · rw [hmode] at hspec
    obtain ⟨h1, h2, h3, -⟩ := hspec
    rw [modeParams, hval, if_pos (by omega), if_neg (by omega), if_neg (by omega), if_pos rfl,
      if_pos (by omega), shortParams, hmode, if_pos rfl, h3, ZFP_MAX_BITS, ZFP_MIN_BITS, ZFP_MAX_PREC]
    simp only [Prod.mk.injEq, and_true]
    omega
  · obtain ⟨hlong, hparams⟩ := modeParams_longMode hlow hhigh
    rw [heq, if_neg (by omega), hparams]

/-! ## Setting the mode -/

/-- The fields of a mode word. -/
theorem modeParams_bounds (mode : BitVec 64) :
    let q := modeParams mode
    1 ≤ q.1 ∧ q.1 ≤ 2 ^ 15 ∧ 1 ≤ q.2.1 ∧ q.2.1 ≤ 2 ^ 15 ∧ 1 ≤ q.2.2.1 ∧ q.2.2.1 ≤ 128 ∧
      -16495 ≤ q.2.2.2 ∧ q.2.2.2 ≤ 16272 := by
  intro q
  have hq : q = modeParams mode := rfl
  clear_value q
  rw [modeParams, ZFP_MODE_SHORT_MAX, ZFP_MODE_SHORT_BITS, ZFP_MIN_BITS, ZFP_MAX_BITS, ZFP_MAX_PREC,
    ZFP_MIN_EXP] at hq
  dsimp only at hq
  split at hq
  · split at hq
    · rw [hq]
      dsimp only
      omega
    · split at hq
      · rw [hq]
        dsimp only
        omega
      · split at hq
        · rw [hq]
          decide
        · rw [hq]
          dsimp only
          omega
  · rw [maskField_15, maskField_15, maskField_7, maskField_15] at hq
    rw [hq]
    dsimp only
    omega

/-- Setting the mode fails, or it sets the parameters of the word. -/
theorem zfpStreamSetMode_cases (zfp : Params) (mode : BitVec 64) :
    let m := modeParams mode
    (¬ (m.1 ≤ m.2.1 ∧ m.2.2.1 ≤ 64) ∧ zfpStreamSetMode zfp mode = (.null, zfp)) ∨
    ∃ q : Params, (q.minbits, q.maxbits, q.maxprec, q.minexp) = m ∧
      zfpStreamSetMode zfp mode = (zfpStreamCompressionMode q, q) := by
  intro m
  obtain ⟨h1, h2, h3, h4, h5, h6, -, -⟩ := modeParams_bounds mode
  have hm : m = modeParams mode := rfl
  rw [← hm] at h1 h2 h3 h4 h5 h6
  rw [zfpStreamSetMode, ← hm]
  clear_value m
  obtain ⟨minbits, maxbits, maxprec, minexp⟩ := m
  dsimp only at *
  have e1 : (UInt32.ofNat minbits).toNat = minbits :=
    UInt32.toNat_ofNat_of_lt' (by rw [UInt32.size]; omega)
  have e2 : (UInt32.ofNat maxbits).toNat = maxbits :=
    UInt32.toNat_ofNat_of_lt' (by rw [UInt32.size]; omega)
  have e3 : (UInt32.ofNat maxprec).toNat = maxprec :=
    UInt32.toNat_ofNat_of_lt' (by rw [UInt32.size]; omega)
  rw [zfpStreamSetParams]
  by_cases h : minbits ≤ maxbits ∧ maxprec ≤ 64
  · rw [dif_pos (by rw [e1, e2, e3]; omega)]
    refine .inr ⟨_, ?_, rfl⟩
    exact Prod.ext e1 (Prod.ext e2 (Prod.ext e3 rfl))
  · rw [dif_neg (by rw [e1, e2, e3]; omega)]
    exact .inl ⟨h, rfl⟩
/-! ## Round trips -/

/-- The parameters of a short code. -/
theorem short_cases {p : Params} (hlow : -2 ^ 31 ≤ p.minexp) (hhigh : p.minexp ≤ 2 ^ 31 - 1 - 16495)
    (h : (zfpStreamMode p).toNat ≤ ZFP_MODE_SHORT_MAX) :
    (zfpStreamCompressionMode p = .fixedRate ∧ 1 ≤ p.minbits ∧ p.maxbits ≤ 2048) ∨
      (zfpStreamCompressionMode p ≠ .fixedRate ∧ p.minbits ≤ 1 ∧ ZFP_MAX_BITS ≤ p.maxbits) := by
  have hspec := compressionMode_spec p
  rw [ZFP_MAX_BITS]
  rcases zfpStreamMode_cases p with ⟨hmode, hbits, -⟩ | ⟨hmode, -⟩ | ⟨hmode, -, -⟩ |
    ⟨hmode, -⟩ | ⟨-, heq⟩
  · rw [hmode] at hspec
    exact .inl ⟨hmode, hspec.1 ▸ hspec.2.1, hbits⟩
  · rw [hmode] at hspec ⊢
    exact .inr ⟨by decide, hspec.1, hspec.2.1⟩
  · rw [hmode] at hspec ⊢
    exact .inr ⟨by decide, hspec.1, hspec.2.1⟩
  · rw [hmode] at hspec ⊢
    exact .inr ⟨by decide, hspec.1, hspec.2.1⟩
  · have hlong := (modeParams_longMode hlow hhigh).1
    rw [heq, ZFP_MODE_SHORT_MAX, ZFP_MODE_SHORT_BITS] at h
    omega

theorem not_reversible_of_long {p : Params}
    (h : ¬ (zfpStreamMode p).toNat ≤ ZFP_MODE_SHORT_MAX) :
    zfpStreamCompressionMode p ≠ .reversible := by
  rcases zfpStreamMode_cases p with ⟨hmode, -⟩ | ⟨hmode, -⟩ | ⟨hmode, -⟩ | ⟨-, hval⟩ | ⟨hmode, -⟩
  · rw [hmode]
    decide
  · rw [hmode]
    decide
  · rw [hmode]
    decide
  · rw [hval] at h
    exact absurd (by decide) h
  · exact hmode

/-- The code of parameters is accepted. -/
theorem zfpStreamSetMode_mode (zfp : Params) {p : Params} (hmax : 1 ≤ p.maxbits)
    (hlow : -2 ^ 31 ≤ p.minexp) (hhigh : p.minexp ≤ 2 ^ 31 - 1 - 16495) :
    ∃ q : Params, zfpStreamSetMode zfp (zfpStreamMode p) = (zfpStreamCompressionMode q, q) ∧
      (q.minbits, q.maxbits, q.maxprec, q.minexp) =
        if (zfpStreamMode p).toNat ≤ ZFP_MODE_SHORT_MAX then shortParams p else longParams p := by
  have hmin := p.minbits_le
  have hprec := p.maxprec_le
  have hword := modeParams_zfpStreamMode hlow hhigh
  rcases zfpStreamSetMode_cases zfp (zfpStreamMode p) with ⟨hbad, -⟩ | ⟨q, hq, hset⟩
  · exfalso
    apply hbad
    rw [hword]
    split
    · next hs =>
      have hshort := short_cases hlow hhigh hs
      rw [shortParams]
      dsimp only
      rw [ZFP_MAX_BITS] at *
      omega
    · rw [longParams]
      dsimp only
      omega
  · exact ⟨q, hset, hq.trans hword⟩

/-- Decoding a code preserves the code of every block. -/
theorem sameCodes_of_mode {p q : Params} (hmax : 1 ≤ p.maxbits) (hmin : p.minbits ≤ 2 ^ 15)
    (hlow : -2 ^ 31 ≤ p.minexp) (hhigh : p.minexp ≤ 2 ^ 31 - 1 - 16495)
    (h : (q.minbits, q.maxbits, q.maxprec, q.minexp) =
      if (zfpStreamMode p).toNat ≤ ZFP_MODE_SHORT_MAX then shortParams p else longParams p) :
    SameCodes p q := by
  have hspec := compressionMode_spec p
  by_cases hs : (zfpStreamMode p).toNat ≤ ZFP_MODE_SHORT_MAX
  · have hshort := short_cases hlow hhigh hs
    rw [if_pos hs, shortParams] at h
    simp only [Prod.mk.injEq] at h
    obtain ⟨h1, h2, h3, h4⟩ := h
    rw [ZFP_MAX_BITS] at *
    refine ⟨hmax, h1, ?_, h3, ?_⟩
    · rw [ZFP_MAX_BITS]
      omega
    · by_cases hmode : zfpStreamCompressionMode p = .reversible
      · rw [hmode] at hspec
        rw [if_pos hmode] at h4
        exact .inr (.inl ⟨hspec.2.2.2, by rw [h4]; decide⟩)
      · rw [if_neg hmode] at h4
        exact .inl h4
  · rw [if_neg hs, longParams] at h
    simp only [Prod.mk.injEq] at h
    obtain ⟨h1, h2, h3, h4⟩ := h
    refine ⟨hmax, by omega, ?_, h3, ?_⟩
    · rw [ZFP_MAX_BITS]
      omega
    · rw [ZFP_MIN_EXP]
      omega

/-- The parameters `q` that a mode word restores are those of `p`: a short code keeps neither
`maxbits` beyond `ZFP_MAX_BITS` nor the exponent of the reversible mode. -/
structure Restored (p q : Params) : Prop where
  minbits : q.minbits = p.minbits
  maxbits : q.maxbits = if (zfpStreamMode p).toNat ≤ ZFP_MODE_SHORT_MAX ∧
    zfpStreamCompressionMode p ≠ .fixedRate then ZFP_MAX_BITS else p.maxbits
  maxprec : q.maxprec = p.maxprec
  minexp : q.minexp = if zfpStreamCompressionMode p = .reversible then ZFP_MIN_EXP - 1 else p.minexp

theorem restored_of_mode {p q : Params} (hmin : 1 ≤ p.minbits) (hmax : p.maxbits ≤ 2 ^ 15)
    (hlow : -16495 ≤ p.minexp) (hhigh : p.minexp ≤ 16272)
    (h : (q.minbits, q.maxbits, q.maxprec, q.minexp) =
      if (zfpStreamMode p).toNat ≤ ZFP_MODE_SHORT_MAX then shortParams p else longParams p) :
    Restored p q := by
  have hle := p.minbits_le
  by_cases hs : (zfpStreamMode p).toNat ≤ ZFP_MODE_SHORT_MAX
  · have hshort := short_cases (by omega) (by omega) hs
    rw [if_pos hs, shortParams] at h
    simp only [Prod.mk.injEq] at h
    obtain ⟨h1, h2, h3, h4⟩ := h
    refine ⟨by omega, ?_, h3, h4⟩
    rcases hshort with ⟨hmode, -, hb⟩ | ⟨hmode, -, hb⟩
    · rw [if_neg fun hn => hn.2 hmode, h2, ZFP_MAX_BITS]
      omega
    · rw [if_pos ⟨hs, hmode⟩, h2]
      exact Nat.min_eq_right hb
  · have hmode := not_reversible_of_long hs
    rw [if_neg hs, longParams] at h
    simp only [Prod.mk.injEq] at h
    obtain ⟨h1, h2, h3, h4⟩ := h
    refine ⟨by omega, ?_, h3, ?_⟩
    · rw [if_neg fun hn => hs hn.1]
      omega
    · rw [if_neg hmode]
      omega

/-- The mode word preserves the meaning of the parameters, restores them where its fields can
hold them, and any mode word that is accepted sets parameters that survive another round. -/
theorem mode_round_trip (zfp : Params) :
    (∀ p : Params, 1 ≤ p.maxbits → p.minbits ≤ 2 ^ 15 → -2 ^ 31 ≤ p.minexp →
      p.minexp ≤ 2 ^ 31 - 1 - 16495 →
      let r := zfpStreamSetMode zfp (zfpStreamMode p)
      r.1 ≠ .null ∧
      (∀ (T : WordType) (S : Scalar) (d : ℕ) (ops : FloatOps S (4 ^ d)) (s : Bitstream T)
        (block : ℕ → BitVec S.width), d ≤ 4 → s.WF →
        zfpEncodeBlock ops r.2 s block = zfpEncodeBlock ops p s block) ∧
      (1 ≤ p.minbits → p.maxbits ≤ 2 ^ 15 → -16495 ≤ p.minexp → p.minexp ≤ 16272 →
        Restored p r.2)) ∧
    ∀ mode : BitVec 64,
      let r := zfpStreamSetMode zfp mode
      (r.1 = .null ∧ r.2 = zfp) ∨
      (r.1 ≠ .null ∧
        let q := zfpStreamSetMode zfp (zfpStreamMode r.2)
        q.1 ≠ .null ∧ Restored r.2 q.2) := by
  constructor
  · intro p hmax hmin hlow hhigh r
    obtain ⟨q, hset, hq⟩ := zfpStreamSetMode_mode zfp hmax hlow hhigh
    have hr : r = (zfpStreamCompressionMode q, q) := hset
    have hsame := sameCodes_of_mode hmax hmin hlow hhigh hq
    rw [hr]
    refine ⟨compressionMode_ne_null q, fun T S d ops s block hd hs => ?_,
      fun h1 h2 h3 h4 => restored_of_mode h1 h2 h3 h4 hq⟩
    rw [zfpEncodeBlock_eq ops q hs hd, zfpEncodeBlock_eq ops p hs hd, hsame.blockCode_eq hd]
  · intro mode r
    rcases zfpStreamSetMode_cases zfp mode with ⟨-, hset⟩ | ⟨q, hq, hset⟩
    · have hr : r = (.null, zfp) := hset
      rw [hr]
      exact .inl ⟨rfl, rfl⟩
    · have hr : r = (zfpStreamCompressionMode q, q) := hset
      have hbounds := modeParams_bounds mode
      rw [← hq] at hbounds
      dsimp only at hbounds
      obtain ⟨h1, h2, h3, h4, -, -, h7, h8⟩ := hbounds
      obtain ⟨q', hset', hq'⟩ := zfpStreamSetMode_mode zfp h3 (show -2 ^ 31 ≤ q.minexp by omega)
        (by omega)
      rw [hr]
      refine .inr ⟨compressionMode_ne_null q, ?_⟩
      dsimp only
      rw [hset']
      exact ⟨compressionMode_ne_null q', restored_of_mode h1 h4 h7 h8 hq'⟩

theorem mode_round_trip_reversible :
    Restored zfpStreamSetReversible
      (zfpStreamSetMode zfpStreamSetReversible (zfpStreamMode zfpStreamSetReversible)).2 :=
  ((mode_round_trip zfpStreamSetReversible).1 zfpStreamSetReversible (by decide) (by decide)
    (by decide) (by decide)).2.2 (by decide) (by decide) (by decide) (by decide)

end Zfp

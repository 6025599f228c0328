import Zfp.TransformError

/-!
# Range of the inverse transform

The inverse lifting steps are run with checked additions and subtractions, on coefficients that are
off from the transformed ones. A decoder of words then computes what it would over the integers.
-/

namespace Zfp
open Lines
variable {w : ℕ}

def InRange (w : ℕ) (x : ℤ) : Prop := -2 ^ (w - 1) ≤ x ∧ x < 2 ^ (w - 1)

theorem ok_add {x y : ℤ} (h : InRange w (x + y)) :
    (Checked.ok x + Checked.ok y : Checked w) = .ok (x + y) := if_pos h

theorem ok_sub {x y : ℤ} (h : InRange w (x - y)) :
    (Checked.ok x - Checked.ok y : Checked w) = .ok (x - y) := if_pos h

theorem half_ok (x : ℤ) : halfChecked (.ok x : Checked w) = .ok (halfInt x) := rfl

/-- The difference that the inverse transform takes along with a sum. -/
theorem ok_undo {a b : ℤ} (hb : InRange w b) (hdiff : InRange w (a - b)) :
    (.ok a - (.ok (b + a) - .ok a) : Checked w) = .ok (a - (b + a - a)) := by
  have hback : b + a - a = b := by omega
  rw [hback, ok_sub (by rwa [hback]), hback, ok_sub hdiff]

def okLine (w : ℕ) (v : Vec4 ℤ) : Vec4 (Checked w) := ⟨.ok v.x, .ok v.y, .ok v.z, .ok v.w⟩

/-- The inverse lifting over the integers, without its last two steps. -/
def invLiftMiddle (v : Vec4 ℤ) : Vec4 ℤ :=
  let y := v.y + halfInt v.w
  let w := v.w - halfInt y
  ⟨v.x - v.z, y + w, v.z + v.x, w - y⟩

theorem invLift_eq (v : Vec4 ℤ) : invLift halfInt v =
    let u := invLiftMiddle v
    ⟨u.x - u.w, u.y + u.z, u.z - u.y, u.w + u.x⟩ := by
  obtain ⟨x, y, z, t⟩ := v
  dsimp only [invLift, invLiftMiddle]
  rw [Vec4.mk.injEq]
  omega

theorem invLift_ok {v : Vec4 ℤ} (hy : InRange w (v.y + halfInt v.w)) (hz : InRange w v.z)
    (hw : InRange w (v.w - halfInt (v.y + halfInt v.w)))
    (hmiddle : ∀ i < 4, InRange w ((invLiftMiddle v).get i))
    (hlast : ∀ i < 4, InRange w ((invLift halfInt v).get i)) :
    invLift halfChecked (okLine w v) = okLine w (invLift halfInt v) := by
  rw [invLift_eq] at hlast
  obtain ⟨x, y, z, t⟩ := v
  have hx₁ : InRange w (x - z) := hmiddle 0 (by decide)
  have hy₂ := hmiddle 1 (by decide)
  have hz₁ : InRange w (z + x) := hmiddle 2 (by decide)
  have ht₂ := hmiddle 3 (by decide)
  have hx := hlast 0 (by decide)
  have hy₃ := hlast 1 (by decide)
  have hz₃ := hlast 2 (by decide)
  have ht₃ := hlast 3 (by decide)
  simp only [invLiftMiddle, Vec4.get] at hy₂ ht₂ hx hy₃ hz₃ ht₃
  simp only [okLine, invLift, half_ok, ok_add hy]
  rw [ok_sub hw]
  generalize t - halfInt (y + halfInt t) = t₁ at *
  generalize y + halfInt t = y₁ at *
  have hx₁' : x - (z + x - x) = x - z := by omega
  have ht₂' : t₁ - (y₁ + t₁ - t₁) = t₁ - y₁ := by omega
  rw [ok_add hy₂, ok_undo hy ht₂, ok_add hz₁, ok_undo hz hx₁, hx₁', ht₂', ok_add hy₃,
    ok_undo hy₂ hz₃, ok_add ht₃, ok_undo ht₂ hx]

/-- The forward lifting over the integers, without the steps that `invLiftMiddle` undoes. -/
def fwdLiftMiddle (v : Vec4 ℤ) : Vec4 ℤ :=
  let x := halfInt (v.x + v.w)
  let z := halfInt (v.z + v.y)
  ⟨x, v.y - z, z, v.w - x⟩

theorem fwdLift_eq (v : Vec4 ℤ) : fwdLift halfInt v =
    let u := fwdLiftMiddle v
    let x := halfInt (u.x + u.z)
    let w := halfInt (u.w + u.y)
    let y := u.y - w
    ⟨x, y - halfInt (w + halfInt y), u.z - x, w + halfInt y⟩ := rfl

theorem fwdLiftMiddle_range {m : ℤ} (v : Vec4 ℤ) (hv : ∀ i < 4, |v.get i| ≤ m) :
    ∀ i < 4, |(fwdLiftMiddle v).get i| ≤ m := by
  obtain ⟨x, y, z, t⟩ := v
  have hx : |x| ≤ m := hv 0 (by decide)
  have hy : |y| ≤ m := hv 1 (by decide)
  have hz : |z| ≤ m := hv 2 (by decide)
  have ht : |t| ≤ m := hv 3 (by decide)
  rw [abs_le] at hx hy hz ht
  intro i hi
  rw [abs_le]
  interval_cases i
  all_goals
    simp only [fwdLiftMiddle, Vec4.get, halfInt_eq]
    omega

/-- The values within the inverse lifting of coefficients that are off by less than `n`. -/
theorem invLift_values {m n x y z t : ℤ} (u : Vec4 ℤ) (hu : ∀ i < 4, |u.get i| ≤ m)
    (hx : |halfInt (u.x + u.z) - x| ≤ n - 1) (hz : |u.z - halfInt (u.x + u.z) - z| ≤ n - 1)
    (hy : |u.y - halfInt (u.w + u.y) -
      halfInt (halfInt (u.w + u.y) + halfInt (u.y - halfInt (u.w + u.y))) - y| ≤ n - 1)
    (ht : |halfInt (u.w + u.y) + halfInt (u.y - halfInt (u.w + u.y)) - t| ≤ n - 1) :
    (|y + halfInt t| ≤ m + 4 * n - 1 ∧ |z| ≤ m + 4 * n - 1 ∧
      |t - halfInt (y + halfInt t)| ≤ m + 4 * n - 1) ∧
      ∀ i < 4, |(invLiftMiddle ⟨x, y, z, t⟩).get i| ≤ m + 4 * n - 1 := by
  obtain ⟨a, e, c, b⟩ := u
  have ha : |a| ≤ m := hu 0 (by decide)
  have he : |e| ≤ m := hu 1 (by decide)
  have hc : |c| ≤ m := hu 2 (by decide)
  have hb : |b| ≤ m := hu 3 (by decide)
  clear hu
  simp only [halfInt_eq] at *
  simp only [abs_le] at *
  obtain ⟨f, hf⟩ : ∃ f, f = (b + e) / 2 := ⟨_, rfl⟩
  obtain ⟨g, hg⟩ : ∃ g, g = e - f := ⟨_, rfl⟩
  rw [← hf, ← hg] at hy ht
  have hfg : (-m ≤ f ∧ f ≤ m) ∧ -m ≤ g ∧ g ≤ m := by omega
  obtain ⟨y₁, hy₁⟩ : ∃ y₁, y₁ = y + t / 2 := ⟨_, rfl⟩
  obtain ⟨t₁, ht₁⟩ : ∃ t₁, t₁ = t - y₁ / 2 := ⟨_, rfl⟩
  have hyt : (2 * (g - y₁) ≤ 3 * n - 2 ∧ 2 * (y₁ - g) ≤ 3 * n - 2) ∧
    4 * (f - t₁) ≤ 7 * n - 4 ∧ 4 * (t₁ - f) ≤ 7 * n - 4 := by omega
  have hmiddle : invLiftMiddle ⟨x, y, z, t⟩ = ⟨x - z, y₁ + t₁, z + x, t₁ - y₁⟩ := by
    simp only [invLiftMiddle, halfInt_eq, hy₁, ht₁]
  rw [hmiddle, ← hy₁, ← ht₁]
  refine ⟨⟨?_, ?_, ?_⟩, fun i hi => ?_⟩
  · omega
  · omega
  · omega
  · clear hmiddle hy₁ ht₁ hy ht
    interval_cases i
    all_goals
      simp only [Vec4.get]
      omega

/-- The inverse lifting of coefficients that are off by less than `n` does not overflow. -/
theorem invLift_ok_near {m n : ℤ} (hm : 2 * m < 2 ^ (w - 1)) (hn : 1 ≤ n) (hn' : 4 * n ≤ m + 1)
    (v u : Vec4 ℤ) (hv : ∀ i < 4, |v.get i| ≤ m)
    (h : ∀ i < 4, |(fwdLift halfInt v).get i - u.get i| ≤ n - 1) :
    invLift halfChecked (okLine w u) = okLine w (invLift halfInt u) := by
  have hrange : ∀ x : ℤ, |x| ≤ m + 4 * n - 1 → InRange w x := by
    intro x hx
    obtain ⟨hlo, hhi⟩ := abs_le.mp hx
    constructor <;> omega
  have hlast : ∀ i < 4, InRange w ((invLift halfInt u).get i) := by
    intro i hi
    have hnear := abs_le.mp (invLift_near hn v u h i hi)
    have hle := abs_le.mp (hv i hi)
    constructor <;> omega
  rw [fwdLift_eq] at h
  obtain ⟨⟨hy, hz, ht⟩, hmiddle⟩ := invLift_values _ (fwdLiftMiddle_range v hv)
    (h 0 (by decide)) (h 2 (by decide)) (h 1 (by decide)) (h 3 (by decide))
  exact invLift_ok (hrange _ hy) (hrange _ hz) (hrange _ ht) (fun i hi => hrange _ (hmiddle i hi)) hlast

/-! ## Computing without overflow -/

section

variable {α : Type} {f : α → ℤ}

/-- The value is what is computed when nothing overflows. -/
def Computes (f : α → ℤ) (a : Checked w) (x : α) : Prop := ∀ z, a = .ok z → f x = z

variable {a b : Checked w} {x y : α}

theorem Checked.of_eq_ok {x z : ℤ} (h : Checked.of w x = .ok z) : InRange w x ∧ x = z := by
  by_cases hx : InRange w x
  · have hsome : Checked.of w x = some x := if_pos hx
    exact ⟨hx, Option.some.inj (hsome.symm.trans h)⟩
  · have hnone : Checked.of w x = none := if_neg hx
    exact absurd (hnone.symm.trans h) (Option.some_ne_none z).symm

theorem Computes.add [Add α] (hadd : ∀ x y, InRange w (f x + f y) → f (x + y) = f x + f y)
    (ha : Computes f a x) (hb : Computes f b y) : Computes f (a + b) (x + y) := by
  intro z hz
  obtain ⟨p, hp, hb'⟩ := Option.bind_eq_some_iff.mp hz
  obtain ⟨q, hq, hof⟩ := Option.bind_eq_some_iff.mp hb'
  obtain ⟨hrange, rfl⟩ := Checked.of_eq_ok hof
  obtain rfl := ha p hp
  obtain rfl := hb q hq
  exact hadd x y hrange

theorem Computes.sub [Sub α] (hsub : ∀ x y, InRange w (f x - f y) → f (x - y) = f x - f y)
    (ha : Computes f a x) (hb : Computes f b y) : Computes f (a - b) (x - y) := by
  intro z hz
  obtain ⟨p, hp, hb'⟩ := Option.bind_eq_some_iff.mp hz
  obtain ⟨q, hq, hof⟩ := Option.bind_eq_some_iff.mp hb'
  obtain ⟨hrange, rfl⟩ := Checked.of_eq_ok hof
  obtain rfl := ha p hp
  obtain rfl := hb q hq
  exact hsub x y hrange

theorem Computes.half {g : α → α} (hhalf : ∀ x, f (g x) = halfInt (f x))
    (ha : Computes f a x) : Computes f (halfChecked a) (g x) := by
  intro z hz
  obtain ⟨p, hp, rfl⟩ := Option.map_eq_some_iff.mp hz
  rw [hhalf, ha p hp]

section

variable [Add α] [Sub α] {g : α → α}
  (hadd : ∀ x y, InRange w (f x + f y) → f (x + y) = f x + f y)
  (hsub : ∀ x y, InRange w (f x - f y) → f (x - y) = f x - f y)
  (hhalf : ∀ x, f (g x) = halfInt (f x))

include hadd hsub hhalf

theorem fwdLift_computes (u : Vec4 (Checked w)) (v : Vec4 α)
    (h : ∀ i < 4, Computes f (u.get i) (v.get i)) :
    ∀ i < 4, Computes f ((fwdLift halfChecked u).get i) ((fwdLift g v).get i) := by
  obtain ⟨a, b, c, e⟩ := u
  obtain ⟨x, y, z, t⟩ := v
  have hx : Computes f a x := h 0 (by decide)
  have hy : Computes f b y := h 1 (by decide)
  have hz : Computes f c z := h 2 (by decide)
  have ht : Computes f e t := h 3 (by decide)
  have hx₁ := (hx.add hadd ht).half hhalf
  have ht₁ := ht.sub hsub hx₁
  have hz₁ := (hz.add hadd hy).half hhalf
  have hy₁ := hy.sub hsub hz₁
  have hx₂ := (hx₁.add hadd hz₁).half hhalf
  have hz₂ := hz₁.sub hsub hx₂
  have ht₂ := (ht₁.add hadd hy₁).half hhalf
  have hy₂ := hy₁.sub hsub ht₂
  have ht₃ := ht₂.add hadd (hy₂.half hhalf)
  have hy₃ := hy₂.sub hsub (ht₃.half hhalf)
  intro i hi
  interval_cases i
  · exact hx₂
  · exact hy₃
  · exact hz₂
  · exact ht₃

theorem invLift_computes (u : Vec4 (Checked w)) (v : Vec4 α)
    (h : ∀ i < 4, Computes f (u.get i) (v.get i)) :
    ∀ i < 4, Computes f ((invLift halfChecked u).get i) ((invLift g v).get i) := by
  obtain ⟨a, b, c, e⟩ := u
  obtain ⟨x, y, z, t⟩ := v
  have hx : Computes f a x := h 0 (by decide)
  have hy : Computes f b y := h 1 (by decide)
  have hz : Computes f c z := h 2 (by decide)
  have ht : Computes f e t := h 3 (by decide)
  have hy₁ := hy.add hadd (ht.half hhalf)
  have ht₁ := ht.sub hsub (hy₁.half hhalf)
  have hy₂ := hy₁.add hadd ht₁
  have ht₂ := ht₁.sub hsub (hy₂.sub hsub ht₁)
  have hz₁ := hz.add hadd hx
  have hx₁ := hx.sub hsub (hz₁.sub hsub hx)
  have hy₃ := hy₂.add hadd hz₁
  have hz₂ := hz₁.sub hsub (hy₃.sub hsub hz₁)
  have ht₃ := ht₂.add hadd hx₁
  have hx₂ := hx₁.sub hsub (ht₃.sub hsub hx₁)
  intro i hi
  interval_cases i
  · exact hx₂
  · exact hy₃
  · exact hz₂
  · exact ht₃

end

end

/-! ## Words -/

theorem words_add (hw : 0 < w) (x y : BitVec w) (h : InRange w (x.toInt + y.toInt)) :
    (x + y).toInt = x.toInt + y.toInt := by
  rw [BitVec.toInt_add, toInt_of_range hw h.1 h.2]

theorem words_sub (hw : 0 < w) (x y : BitVec w) (h : InRange w (x.toInt - y.toInt)) :
    (x - y).toInt = x.toInt - y.toInt := by
  rw [BitVec.toInt_sub, toInt_of_range hw h.1 h.2]

theorem words_half (x : BitVec w) : (halfWord x).toInt = halfInt x.toInt := by
  rw [toInt_halfWord, halfInt_eq]

section

variable {d : ℕ} (hd : 1 ≤ d) (hd' : d ≤ 4)

include hd hd'

/-- Values of the range are transformed as over the integers. -/
theorem toInt_fwdXform {p : ℕ} (hp : 5 ≤ p) (b : ℕ → BitVec p)
    (hb : ∀ i < 4 ^ d, |(b i).toInt| ≤ 2 ^ (p - 2) - 1) : ∀ i < 4 ^ d,
    (fwdXform halfWord d b i).toInt = fwdXform halfInt d (fun i => (b i).toInt) i := by
  have hpow : (2 : ℤ) ^ (p - 1) = 2 * 2 ^ (p - 2) := by
    rw [← pow_succ']
    congr 1
    omega
  have hlarge : (2 : ℤ) ^ 3 ≤ 2 ^ (p - 2) := pow_le_pow_right₀ (by decide) (by omega)
  intro i hi
  have hwithin := passes_rel (fwdLift_within (m := 2 ^ (p - 2) - 1) (by omega) (by omega) (by omega))
    (xformPasses_lines hd hd') (p := fun i => (.ok (b i).toInt : Checked p)) (q := b)
    (fun j hj => ⟨rfl, abs_le.mp (hb j hj)⟩) i hi
  have hint := passes_rel (fwdLift_computes (f := id) (g := halfInt) (w := p)
    (fun _ _ _ => rfl) (fun _ _ _ => rfl) fun _ => rfl) (xformPasses_lines hd hd')
    (p := fun i => .ok (b i).toInt) (q := fun i => (b i).toInt)
    (fun j _ z hz => Option.some.inj hz) i hi
  exact (hint _ hwithin.1).symm

/-- The inverse transform of coefficients that are off by less than `n` does not overflow. -/
theorem invXform_ok_near {w : ℕ} (hw : 5 ≤ w) {n : ℤ} (hn : 1 ≤ n) (hn' : 4 ^ d * n ≤ 2 ^ (w - 2))
    (b : ℕ → ℤ) (hb : ∀ j < 4 ^ d, |b j| ≤ 2 ^ (w - 2) - 1) (u : ℕ → ℤ)
    (h : ∀ j < 4 ^ d, |fwdXform halfInt d b j - u j| ≤ n - 1) : ∀ j < 4 ^ d,
    invXform halfChecked d (fun j => (.ok (u j) : Checked w)) j =
        .ok (invXform halfInt d u j) ∧
      |b j - invXform halfInt d u j| ≤ 4 ^ d * n - 1 := by
  obtain ⟨m, hm⟩ : ∃ m : ℤ, m = 2 ^ (w - 2) - 1 := ⟨_, rfl⟩
  have hpow : (2 : ℤ) ^ (w - 1) = 2 * (m + 1) := by
    rw [hm, Int.sub_add_cancel, ← pow_succ']
    congr 1
    omega
  have hlarge : (2 : ℤ) ^ 3 ≤ 2 ^ (w - 2) := pow_le_pow_right₀ (by decide) (by omega)
  rw [← hm] at hb
  have hlength : (xformPasses d).length = d := by interval_cases d <;> rfl
  -- after `k` passes the errors are less than `4 ^ k * n`
  have hundo := passes_undo (P := fun x : ℤ => |x| ≤ m)
    (R := fun k x (a : Checked w) => 4 ^ k * n ≤ m + 1 → ∃ z, a = .ok z ∧ |x - z| ≤ 4 ^ k * n - 1)
    (g := invLift halfChecked) (f := fwdLift halfInt) (k := 0)
    (fun v hv => fwdLift_range (by omega) v hv) (fun k v a hv ha => ?_) (xformPasses_spec hd hd') hb
    (u := fun j => .ok (u j)) (fun j hj _ => ⟨u j, rfl, by rw [pow_zero, one_mul]; exact h j hj⟩)
  · intro j hj
    obtain ⟨z, hz, hnear⟩ := hundo j hj (by rw [hlength, Nat.zero_add]; omega)
    have hint := passes_rel (invLift_computes (f := id) (g := halfInt) (w := w)
      (fun _ _ _ => rfl) (fun _ _ _ => rfl) fun _ => rfl)
      (fun q hq => xformPasses_lines hd hd' q (List.mem_reverse.mp hq))
      (p := fun j => .ok (u j)) (q := u) (fun j _ z hz => Option.some.inj hz) j hj
    obtain rfl : invXform halfInt d u j = z := hint z hz
    rw [hlength, Nat.zero_add] at hnear
    exact ⟨hz, hnear⟩
  · intro i hi hk
    have hn' : 4 * (4 ^ k * n) ≤ m + 1 := by rwa [← Int.mul_assoc, ← pow_succ']
    have hpos : 1 ≤ 4 ^ k * n := one_le_mul_of_one_le_of_one_le (one_le_pow₀ (by decide)) hn
    have hstart := fun i hi => ha i hi (by omega)
    obtain ⟨x, hx, hex⟩ := hstart 0 (by decide)
    obtain ⟨y, hy, hey⟩ := hstart 1 (by decide)
    obtain ⟨z, hz, hez⟩ := hstart 2 (by decide)
    obtain ⟨t, ht, het⟩ := hstart 3 (by decide)
    have hline : a = okLine w ⟨x, y, z, t⟩ := Vec4.ext hx hy hz ht
    have hnear : ∀ i < 4, |(fwdLift halfInt v).get i - (⟨x, y, z, t⟩ : Vec4 ℤ).get i| ≤
        4 ^ k * n - 1 := by
      intro i hi
      interval_cases i
      · exact hex
      · exact hey
      · exact hez
      · exact het
    refine ⟨(invLift halfInt ⟨x, y, z, t⟩).get i, ?_, ?_⟩
    · rw [hline, invLift_ok_near (by omega) hpos hn' v ⟨x, y, z, t⟩ hv hnear]
      interval_cases i <;> rfl
    · rw [pow_succ', Int.mul_assoc]
      exact invLift_near hpos v ⟨x, y, z, t⟩ hnear i hi

/-- A decoder of such words computes what it would over the integers. -/
theorem toInt_invXform {w : ℕ} (hw : 5 ≤ w) {n : ℤ} (hn : 1 ≤ n) (hn' : 4 ^ d * n ≤ 2 ^ (w - 2))
    (b : ℕ → ℤ) (hb : ∀ j < 4 ^ d, |b j| ≤ 2 ^ (w - 2) - 1) (u : ℕ → BitVec w)
    (h : ∀ j < 4 ^ d, |fwdXform halfInt d b j - (u j).toInt| ≤ n - 1) : ∀ j < 4 ^ d,
    (invXform halfWord d u j).toInt = invXform halfInt d (fun j => (u j).toInt) j := by
  have hw' : 0 < w := by omega
  intro j hj
  have hok := (invXform_ok_near hd hd' hw hn hn' b hb _ h j hj).1
  exact passes_rel (invLift_computes (words_add hw') (words_sub hw') words_half)
    (fun q hq => xformPasses_lines hd hd' q (List.mem_reverse.mp hq))
    (p := fun j => .ok (u j).toInt) (q := u) (fun j _ z hz => Option.some.inj hz) j hj _ hok

end

end Zfp

import Zfp.Transform

/-!
# Range of the forward transform

The lifting steps are run with additions and subtractions that fail outside the range of the
signed type. On coefficients with two spare bits none fails: each step averages two values of the
range, and what it takes away from the one is half of the difference.
-/

namespace Zfp
open Lines

variable {w : ℕ}

/-- A signed integer of `w` bits, or none after an overflow. -/
def Checked (_ : ℕ) : Type := Option ℤ

def Checked.ok (x : ℤ) : Checked w := some x

/-- The value of an operation, if it is in range. -/
def Checked.of (w : ℕ) (x : ℤ) : Checked w :=
  if -2 ^ (w - 1) ≤ x ∧ x < 2 ^ (w - 1) then some x else none

instance : Add (Checked w) :=
  ⟨fun a b => Option.bind a fun x => Option.bind b fun y => Checked.of w (x + y)⟩

instance : Sub (Checked w) :=
  ⟨fun a b => Option.bind a fun x => Option.bind b fun y => Checked.of w (x - y)⟩

/-- `x >> 1`, which cannot overflow. -/
def halfChecked (a : Checked w) : Checked w := Option.map halfInt a

/-- The value has not overflowed, is that of the word, and is at most `m` in magnitude. -/
def Within (m : ℤ) (a : Checked w) (x : BitVec w) : Prop :=
  a = .ok x.toInt ∧ -m ≤ x.toInt ∧ x.toInt ≤ m

theorem toInt_halfWord (x : BitVec w) : (halfWord x).toInt = x.toInt / 2 := by
  rw [halfWord, BitVec.toInt_sshiftRight, Int.shiftRight_eq_div_pow]
  rfl

section

variable {m : ℤ} {a b : Checked w} {x y : BitVec w}

theorem toInt_of_range (hw : 0 < w) {z : ℤ} (hlo : -2 ^ (w - 1) ≤ z) (hhi : z < 2 ^ (w - 1)) :
    z.bmod (2 ^ w) = z := by
  have hpow : (2 : ℤ) ^ w = 2 * 2 ^ (w - 1) := by
    rw [← pow_succ', Nat.sub_add_cancel hw]
  apply Int.bmod_eq_of_le
  · push_cast
    omega
  · push_cast
    omega

/-- A sum in range neither fails nor wraps. -/
theorem checked_add (hw : 0 < w) (ha : a = .ok x.toInt) (hb : b = .ok y.toInt)
    (hlo : -2 ^ (w - 1) ≤ x.toInt + y.toInt) (hhi : x.toInt + y.toInt < 2 ^ (w - 1)) :
    (x + y).toInt = x.toInt + y.toInt ∧ a + b = .ok (x + y).toInt := by
  have htoInt : (x + y).toInt = x.toInt + y.toInt := by
    rw [BitVec.toInt_add, toInt_of_range hw hlo hhi]
  refine ⟨htoInt, ?_⟩
  rw [htoInt, ha, hb]
  exact if_pos ⟨hlo, hhi⟩

theorem checked_sub (hw : 0 < w) (ha : a = .ok x.toInt) (hb : b = .ok y.toInt)
    (hlo : -2 ^ (w - 1) ≤ x.toInt - y.toInt) (hhi : x.toInt - y.toInt < 2 ^ (w - 1)) :
    (x - y).toInt = x.toInt - y.toInt ∧ a - b = .ok (x - y).toInt := by
  have htoInt : (x - y).toInt = x.toInt - y.toInt := by
    rw [BitVec.toInt_sub, toInt_of_range hw hlo hhi]
  refine ⟨htoInt, ?_⟩
  rw [htoInt, ha, hb]
  exact if_pos ⟨hlo, hhi⟩

theorem checked_half (ha : a = .ok x.toInt) : halfChecked a = .ok (halfWord x).toInt := by
  rw [ha, toInt_halfWord]
  exact congrArg some (Int.shiftRight_eq_div_pow x.toInt 1)

/-- A lifting step: the average of two values, and the second less the average. -/
theorem lift_step (hw : 0 < w) (hm : 2 * m < 2 ^ (w - 1)) (ha : Within m a x) (hb : Within m b y) :
    (halfWord (x + y)).toInt = (x.toInt + y.toInt) / 2 ∧
      (y - halfWord (x + y)).toInt = y.toInt - (x.toInt + y.toInt) / 2 ∧
      Within m (halfChecked (a + b)) (halfWord (x + y)) ∧
      Within m (b - halfChecked (a + b)) (y - halfWord (x + y)) := by
  obtain ⟨ha, hxlo, hxhi⟩ := ha
  obtain ⟨hb, hylo, hyhi⟩ := hb
  obtain ⟨hsum, hadd⟩ := checked_add hw ha hb (by omega) (by omega)
  have havg : (halfWord (x + y)).toInt = (x.toInt + y.toInt) / 2 := by rw [toInt_halfWord, hsum]
  have hhalf := checked_half hadd
  obtain ⟨hdiff, hsub⟩ := checked_sub hw hb hhalf (by omega) (by omega)
  rw [havg] at hdiff
  refine ⟨havg, hdiff, ⟨hhalf, ?_, ?_⟩, hsub, ?_, ?_⟩ <;> omega

/-- The last steps, which weigh an average and a half of a difference. -/
theorem lift_last (hw : 0 < w) (hm : 2 * m < 2 ^ (w - 1)) (hm' : 6 ≤ m) {s t : ℤ}
    (hs : -m ≤ s) (hs' : s ≤ m)
    (ht : -m ≤ t) (ht' : t ≤ m) (ha : Within m a x) (hb : Within m b y) (hx : x.toInt = (s + t) / 2)
    (hy : y.toInt = t - (s + t) / 2) :
    Within m (a + halfChecked b) (x + halfWord y) ∧
      Within m (b - halfChecked (a + halfChecked b)) (y - halfWord (x + halfWord y)) := by
  have hquarter := toInt_halfWord y
  obtain ⟨hsum, hadd⟩ := checked_add hw ha.1 (checked_half hb.1) (by omega) (by omega)
  have hhalf := checked_half hadd
  have heighth := toInt_halfWord (x + halfWord y)
  obtain ⟨hdiff, hsub⟩ := checked_sub hw hb.1 hhalf (by omega) (by omega)
  refine ⟨⟨hadd, ?_, ?_⟩, hsub, ?_, ?_⟩ <;> omega

end

/-- Lifting keeps the range. -/
theorem fwdLift_within {m : ℤ} (hw : 0 < w) (hm : 2 * m < 2 ^ (w - 1)) (hm' : 6 ≤ m)
    (u : Vec4 (Checked w)) (v : Vec4 (BitVec w)) (h : ∀ i < 4, Within m (u.get i) (v.get i)) :
    ∀ i < 4, Within m ((fwdLift halfChecked u).get i) ((fwdLift halfWord v).get i) := by
  obtain ⟨a, b, c, e⟩ := u
  obtain ⟨x, y, z, t⟩ := v
  have hx : Within m a x := h 0 (by decide)
  have hy : Within m b y := h 1 (by decide)
  have hz : Within m c z := h 2 (by decide)
  have ht : Within m e t := h 3 (by decide)
  obtain ⟨-, -, hx₁, ht₁⟩ := lift_step hw hm hx ht
  obtain ⟨-, -, hz₁, hy₁⟩ := lift_step hw hm hz hy
  obtain ⟨-, -, hx₂, hz₂⟩ := lift_step hw hm hx₁ hz₁
  obtain ⟨havg, hdiff, ht₂, hy₂⟩ := lift_step hw hm ht₁ hy₁
  obtain ⟨ht₃, hy₃⟩ := lift_last hw hm hm' ht₁.2.1 ht₁.2.2 hy₁.2.1 hy₁.2.2 ht₂ hy₂ havg hdiff
  intro i hi
  interval_cases i
  · exact hx₂
  · exact hy₃
  · exact hz₂
  · exact ht₃

/-- No operation of the forward transform overflows on coefficients with two spare bits, and the
transformed coefficients have two spare bits. -/
theorem fwd_xform_range {p : ℕ} (hp : 5 ≤ p) {d : ℕ} (hd : 1 ≤ d) (hd' : d ≤ 4) (b : ℕ → BitVec p)
    (hb : ∀ i < 4 ^ d, |(b i).toInt| ≤ 2 ^ (p - 2) - 1) : ∀ i < 4 ^ d,
    fwdXform halfChecked d (fun i => (.ok (b i).toInt : Checked p)) i =
        Checked.ok (fwdXform halfWord d b i).toInt ∧
      |(fwdXform halfWord d b i).toInt| ≤ 2 ^ (p - 2) - 1 := by
  have hpow : (2 : ℤ) ^ (p - 1) = 2 * 2 ^ (p - 2) := by
    rw [← pow_succ']
    congr 1
    omega
  have hlarge : (2 : ℤ) ^ 3 ≤ 2 ^ (p - 2) := pow_le_pow_right₀ (by decide) (by omega)
  have hwithin := passes_rel (fwdLift_within (m := 2 ^ (p - 2) - 1) (by omega) (by omega) (by omega))
    (xformPasses_lines hd hd')
    (p := fun i => (.ok (b i).toInt : Checked p)) (q := b)
    fun j hj => ⟨rfl, abs_le.mp (hb j hj)⟩
  intro i hi
  exact ⟨(hwithin i hi).1, abs_le.mpr (hwithin i hi).2⟩

/-- A block of largest and smallest coefficients in three dimensions. -/
theorem fwd_xform_range_extreme :
    let b : ℕ → BitVec 32 := fun i => if i % 3 = 0 then 0x3fffffff#32 else 0xc0000001#32
    fwdXform halfChecked 3 (fun i => (.ok (b i).toInt : Checked 32)) 5 =
        Checked.ok (fwdXform halfWord 3 b 5).toInt ∧
      |(fwdXform halfWord 3 b 5).toInt| ≤ 2 ^ 30 - 1 := by
  intro b
  refine fwd_xform_range (by decide) (by decide) (by decide) b (fun i _ => ?_) 5 (by decide)
  simp only [b]
  split <;> decide

end Zfp

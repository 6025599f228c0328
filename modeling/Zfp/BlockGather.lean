import Mathlib.Tactic.IntervalCases
import Mathlib.Tactic.Ring
import Zfp.Gather

/-!
# Values of gathered blocks

A gathered block holds the values of the array at the coordinates of the block. The places outside
the array hold copies that `pad_block` makes, one dimension after the other; the coordinates of what
is copied do not depend on the order.
-/

namespace Zfp

variable {α : Type} [Zero α]

/-- The place in a line of `n` values that `pad_block` copies to place `i`. -/
def padIndex (n i : ℕ) : ℕ := if i < n then i else if n = 2 ∧ i = 2 then 1 else 0

theorem padIndex_of_lt {n i : ℕ} (h : i < n) : padIndex n i = i := if_pos h

theorem padIndex_lt {n : ℕ} (hn : 0 < n) (i : ℕ) : padIndex n i < n := by
  rw [padIndex]
  split_ifs <;> omega

theorem padBlock_line (p : ℕ → α) {n s : ℕ} (hn : 1 ≤ n) (hn' : n ≤ 4) (hs : 0 < s) (base : ℕ)
    {i : ℕ} (hi : i < 4) : padBlock p n s base (base + i * s) = p (base + padIndex n i * s) := by
  have hn0 : n ≠ 0 := by omega
  have hs0 : s ≠ 0 := hs.ne'
  have hs2 : s ≠ 2 * s := by omega
  have hs3 : s ≠ 3 * s := by omega
  simp only [padBlock, if_neg hn0, padIndex]
  interval_cases n <;> interval_cases i <;>
    simp [hs0, hs2, hs3]

theorem padBlock_of_ne (p : ℕ → α) (n s base : ℕ) {j : ℕ} (h : ∀ i < 4, j ≠ base + i * s) :
    padBlock p n s base j = p j := by
  have h0 := h 0 (by decide)
  have h1 := h 1 (by decide)
  have h2 := h 2 (by decide)
  have h3 := h 3 (by decide)
  rw [Nat.zero_mul, Nat.add_zero] at h0
  have hupdate : ∀ (q : ℕ → α) (c : Prop) [Decidable c] (k : ℕ) (x : α), j ≠ k →
      (if c then Function.update q k x else q) j = q j := fun q c _ k x hk => by
    split
    · exact Function.update_of_ne hk _ _
    · rfl
  simp only [padBlock]
  rw [hupdate _ _ _ _ h3, hupdate _ _ _ _ h2, hupdate _ _ _ _ h1, hupdate _ _ _ _ h0]

/-- Padding of parallel lines. -/
theorem foldl_padBlock {n s : ℕ} (hn : 1 ≤ n) (hn' : n ≤ 4) (base : ℕ) {m : ℕ} (hm : m ≤ s)
    {c i : ℕ} (hc : c < s) (hi : i < 4) (q : ℕ → α) :
    (List.range m).foldl (fun q c => padBlock q n s (base + c)) q (base + c + i * s) =
      if c < m then q (base + c + padIndex n i * s) else q (base + c + i * s) := by
  induction m generalizing i with
  | zero => rfl
  | succ m ih =>
    rw [List.range_succ, List.foldl_append, List.foldl_cons, List.foldl_nil]
    rcases Nat.lt_trichotomy c m with hlt | rfl | hgt
    · rw [padBlock_of_ne _ _ _ _ fun i' _ h => ?_, ih (by omega) hi, if_pos hlt, if_pos (by omega)]
      have hmod := congrArg (· % s) (show c + i * s = m + i' * s by omega)
      rw [Nat.add_mul_mod_self_right, Nat.add_mul_mod_self_right, Nat.mod_eq_of_lt hc,
        Nat.mod_eq_of_lt (by omega)] at hmod
      omega
    · have hpad := padIndex_lt (Nat.lt_of_lt_of_le Nat.zero_lt_one hn) i
      rw [padBlock_line _ hn hn' (by omega) _ hi, ih (by omega) (by omega), if_neg (Nat.lt_irrefl c),
        if_pos (Nat.lt_succ_self c)]
    · rw [padBlock_of_ne _ _ _ _ fun i' _ h => ?_, ih (by omega) hi, if_neg (by omega),
        if_neg (by omega)]
      have hmod := congrArg (· % s) (show c + i * s = m + i' * s by omega)
      rw [Nat.add_mul_mod_self_right, Nat.add_mul_mod_self_right, Nat.mod_eq_of_lt hc,
        Nat.mod_eq_of_lt (by omega)] at hmod
      omega

theorem foldl_padBlock_of_not_mem (n : ℕ) {s base j : ℕ} (h : j < base ∨ base + 4 * s ≤ j) {m : ℕ}
    (hm : m ≤ s) (q : ℕ → α) :
    (List.range m).foldl (fun q c => padBlock q n s (base + c)) q j = q j := by
  induction m with
  | zero => rfl
  | succ m ih =>
    rw [List.range_succ, List.foldl_append, List.foldl_cons, List.foldl_nil,
      padBlock_of_ne _ _ _ _ fun i hi hj => ?_, ih (by omega)]
    have hle : i * s ≤ 3 * s := Nat.mul_le_mul_right s (by omega)
    omega

/-! ## Coordinates -/

/-- The offset of coordinates in strided memory. -/
def span (stride : ℕ → ℤ) : ℕ → (ℕ → ℕ) → ℤ
  | 0, _ => 0
  | d + 1, c => span stride d c + c d * stride d

theorem span_congr (stride : ℕ → ℤ) {d : ℕ} {c c' : ℕ → ℕ} (h : ∀ a < d, c a = c' a) :
    span stride d c = span stride d c' := by
  induction d with
  | zero => rfl
  | succ d ih => rw [span, span, ih fun a ha => h a (by omega), h d (Nat.lt_succ_self d)]

theorem span_update (stride : ℕ → ℤ) (d : ℕ) (c : ℕ → ℕ) (z : ℕ) :
    span stride (d + 1) (Function.update c d z) = span stride d c + z * stride d := by
  rw [span, Function.update_self, span_congr stride fun a ha => Function.update_of_ne ha.ne _ _]

theorem span_add (stride : ℕ → ℤ) (d : ℕ) (c c' : ℕ → ℕ) :
    span stride d (fun a => c a + c' a) = span stride d c + span stride d c' := by
  induction d with
  | zero => rfl
  | succ d ih =>
    rw [span, span, span, ih]
    push_cast
    ring

/-- The coordinates of a place in a block. -/
def place (i a : ℕ) : ℕ := i / 4 ^ a % 4

theorem place_lt (i a : ℕ) : place i a < 4 := Nat.mod_lt _ (by decide)

theorem place_mod {a d : ℕ} (h : a < d) (i : ℕ) : place (i % 4 ^ d) a = place i a := by
  obtain ⟨k, rfl⟩ := Nat.exists_eq_add_of_lt h
  have hpow : 4 ^ (a + k + 1) = 4 ^ a * 4 ^ (k + 1) := by rw [← pow_add, Nat.add_assoc]
  rw [place, place, hpow, Nat.mod_mul_right_div_self, pow_succ,
    Nat.mod_mod_of_dvd _ (Nat.dvd_mul_left 4 _)]

/-- What a gathered block holds. -/
theorem gatherPartial_apply (mem : ℤ → α) {n : ℕ → ℕ} (stride : ℕ → ℤ) {d : ℕ}
    (hn : ∀ a < d, 1 ≤ n a ∧ n a ≤ 4) (q : ℕ → α) (base : ℕ) (p : ℤ) (j : ℕ) :
    gatherPartial mem n stride d q base p j =
      if base ≤ j ∧ j < base + 4 ^ d then
        mem (p + span stride d fun a => padIndex (n a) (place (j - base) a))
      else q j := by
  induction d generalizing q base p j with
  | zero =>
    rw [gatherPartial, pow_zero, span, add_zero]
    rcases eq_or_ne j base with rfl | hne
    · rw [Function.update_self, if_pos (by omega)]
    · rw [Function.update_of_ne hne, if_neg (by omega)]
  | succ d ih =>
    have hpos : 0 < 4 ^ d := Nat.pow_pos (by decide)
    have ih := ih fun a ha => hn a (by omega)
    obtain ⟨hd, hd'⟩ := hn d (Nat.lt_succ_self d)
    have hpow : 4 ^ (d + 1) = 4 * 4 ^ d := pow_succ' 4 d
    -- the part of the block in the array
    have hloop : ∀ m j, (List.range m).foldl
        (fun q (z : ℕ) => gatherPartial mem n stride d q (base + 4 ^ d * z) (p + z * stride d)) q j =
        if base ≤ j ∧ j < base + 4 ^ d * m then
          mem (p + ((j - base) / 4 ^ d : ℕ) * stride d +
            span stride d fun a => padIndex (n a) (place (j - base) a))
        else q j := by
      intro m
      induction m with
      | zero =>
        intro j
        rw [Nat.mul_zero, if_neg (by omega)]
        rfl
      | succ m ihm =>
        intro j
        rw [List.range_succ, List.foldl_append, List.foldl_cons, List.foldl_nil, ih, ihm, Nat.mul_succ]
        by_cases hm : base + 4 ^ d * m ≤ j ∧ j < base + 4 ^ d * m + 4 ^ d
        · have hz : (j - base) / 4 ^ d = m := Nat.div_eq_of_lt_le
            (by rw [Nat.mul_comm]; omega) (by rw [Nat.add_mul, Nat.mul_comm]; omega)
          have hc : j - (base + 4 ^ d * m) = (j - base) % 4 ^ d := by
            have := Nat.div_add_mod (j - base) (4 ^ d)
            rw [hz] at this
            omega
          rw [if_pos hm, if_pos (by omega), hz, hc,
            span_congr stride fun a ha => by rw [place_mod ha]]
        · rw [if_neg hm]
          by_cases hlt : base ≤ j ∧ j < base + 4 ^ d * m
          · rw [if_pos hlt, if_pos (by omega)]
          · rw [if_neg hlt, if_neg (by omega)]
    rw [gatherPartial]
    by_cases hj : base ≤ j ∧ j < base + 4 ^ (d + 1)
    · -- a place of the block, as a place of a line
      have hz : (j - base) / 4 ^ d < 4 := (Nat.div_lt_iff_lt_mul hpos).mpr (by omega)
      have hc := Nat.mod_lt (j - base) hpos
      have hsplit : j = base + (j - base) % 4 ^ d + (j - base) / 4 ^ d * 4 ^ d := by
        have := Nat.div_add_mod' (j - base) (4 ^ d)
        omega
      have hplace : place (j - base) d = (j - base) / 4 ^ d := Nat.mod_eq_of_lt hz
      have hpad := padIndex_lt (show 0 < n d by omega) ((j - base) / 4 ^ d)
      have hlt : padIndex (n d) ((j - base) / 4 ^ d) * 4 ^ d + 4 ^ d ≤ 4 ^ d * n d := by
        rw [← Nat.succ_mul, Nat.mul_comm]
        exact Nat.mul_le_mul_left _ hpad
      have hline := foldl_padBlock hd hd' base (Nat.le_refl (4 ^ d)) hc hz
        ((List.range (n d)).foldl (fun q (z : ℕ) =>
          gatherPartial mem n stride d q (base + 4 ^ d * z) (p + z * stride d)) q)
      have hsub : base + (j - base) % 4 ^ d + padIndex (n d) ((j - base) / 4 ^ d) * 4 ^ d - base =
          (j - base) % 4 ^ d + padIndex (n d) ((j - base) / 4 ^ d) * 4 ^ d := by omega
      rw [← hsplit, if_pos hc, hloop, if_pos (by omega), hsub, Nat.add_mul_div_right _ _ hpos,
        Nat.div_eq_of_lt hc, Nat.zero_add] at hline
      rw [hline, if_pos hj, span, hplace, add_assoc, add_comm (_ * _)]
      congr 3
      refine span_congr stride fun a ha => ?_
      rw [← place_mod ha, Nat.add_mul_mod_self_right, Nat.mod_mod, place_mod ha]
    · rw [if_neg hj, foldl_padBlock_of_not_mem _ (by omega) (Nat.le_refl _), hloop, if_neg]
      have hle : 4 ^ d * n d ≤ 4 ^ d * 4 := Nat.mul_le_mul_left _ hd'
      omega

theorem gather_eq (mem : ℤ → α) (stride : ℕ → ℤ) (d : ℕ) (q : ℕ → α) (base : ℕ) (p : ℤ) :
    gather mem stride d q base p = gatherPartial mem (fun _ => 4) stride d q base p := by
  induction d generalizing q base p with
  | zero => rfl
  | succ d ih =>
    have hfull : ∀ (q : ℕ → α) (l : List ℕ),
        l.foldl (fun q c => padBlock q 4 (4 ^ d) (base + c)) q = q := fun q l => by
      induction l generalizing q with
      | nil => rfl
      | cons c l ih => exact ih q
    rw [gather, gatherPartial, hfull]
    simp only [ih]

/-! ## The blocks of an array -/

def blocksOf (n : ℕ → ℕ) : ℕ → ℕ
  | 0 => 1
  | d + 1 => blocksOf n d * ((n d + 3) / 4)

/-- The corners of the blocks in the order of the nested loops of `compress_strided`. -/
def corners (n : ℕ → ℕ) : ℕ → List (ℕ → ℕ)
  | 0 => [fun _ => 0]
  | d + 1 => (List.range ((n d + 3) / 4)).flatMap fun z =>
      (corners n d).map fun o => Function.update o d (4 * z)

/-- The block that `compress_strided` gathers at a corner. -/
def compressBlock (d : ℕ) (mem : ℤ → α) (n : ℕ → ℕ) (stride : ℕ → ℤ) (o : ℕ → ℕ) : ℕ → α :=
  if ∃ a, a < d ∧ n a - o a < 4 then
    gatherPartial mem (fun a => min (n a - o a) 4) stride d (fun _ => 0) 0 (span stride d o)
  else gather mem stride d (fun _ => 0) 0 (span stride d o)

def cornerOf (n : ℕ → ℕ) : ℕ → ℕ → ℕ → ℕ
  | 0, _ => fun _ => 0
  | d + 1, b => Function.update (cornerOf n d (b % blocksOf n d)) d (4 * (b / blocksOf n d))

theorem blocksOf_pos {n : ℕ → ℕ} {d : ℕ} (hn : ∀ a < d, 1 ≤ n a) : 0 < blocksOf n d := by
  induction d with
  | zero => exact Nat.one_pos
  | succ d ih =>
    have hd := hn d (Nat.lt_succ_self d)
    exact Nat.mul_pos (ih fun a ha => hn a (by omega)) (by omega)

theorem length_flatMap_range {β : Type} {f : ℕ → List β} {k : ℕ} (hf : ∀ z, (f z).length = k)
    (m : ℕ) : ((List.range m).flatMap f).length = m * k := by
  induction m with
  | zero => rw [Nat.zero_mul]; rfl
  | succ m ih =>
    rw [List.range_succ, List.flatMap_append, List.length_append, ih, List.flatMap_singleton, hf,
      Nat.succ_mul]

theorem length_corners (n : ℕ → ℕ) (d : ℕ) : (corners n d).length = blocksOf n d := by
  induction d with
  | zero => rfl
  | succ d ih =>
    rw [corners, length_flatMap_range (fun z => by rw [List.length_map, ih]), blocksOf, Nat.mul_comm]

theorem getElem?_flatMap_range {β : Type} {f : ℕ → List β} {m k : ℕ} (hf : ∀ z, (f z).length = k)
    {b : ℕ} (hb : b < m * k) : ((List.range m).flatMap f)[b]? = (f (b / k))[b % k]? := by
  induction m with
  | zero => omega
  | succ m ih =>
    have hlen := length_flatMap_range hf m
    rw [List.range_succ, List.flatMap_append, List.flatMap_singleton]
    rcases Nat.lt_or_ge b (m * k) with hlt | hge
    · rw [List.getElem?_append_left (by omega), ih hlt]
    · rw [Nat.succ_mul] at hb
      have hdiv : b / k = m := Nat.div_eq_of_lt_le hge (by rw [Nat.succ_mul]; exact hb)
      have hmod := Nat.div_add_mod' b k
      rw [List.getElem?_append_right (by omega), hlen, hdiv]
      congr 1
      rw [hdiv] at hmod
      omega

theorem getElem?_corners (n : ℕ → ℕ) {d b : ℕ} (hb : b < blocksOf n d) :
    (corners n d)[b]? = some (cornerOf n d b) := by
  induction d generalizing b with
  | zero =>
    obtain rfl : b = 0 := Nat.lt_one_iff.mp hb
    rfl
  | succ d ih =>
    rw [blocksOf, Nat.mul_comm] at hb
    have hpos : 0 < blocksOf n d := Nat.pos_of_ne_zero fun h => by
      rw [h, Nat.mul_zero] at hb
      exact Nat.not_lt_zero b hb
    rw [corners, getElem?_flatMap_range (k := blocksOf n d) (fun z => by
      rw [List.length_map, length_corners]) hb, List.getElem?_map, ih (Nat.mod_lt b hpos),
      Option.map_some, cornerOf]

theorem mem_corners (n : ℕ → ℕ) {d b : ℕ} (hb : b < blocksOf n d) :
    cornerOf n d b ∈ corners n d := List.mem_of_getElem? (getElem?_corners n hb)

/-- A corner lies in the array. -/
theorem cornerOf_lt (n : ℕ → ℕ) {d b a : ℕ} (hb : b < blocksOf n d) (ha : a < d) :
    cornerOf n d b a < n a ∧ 4 ∣ cornerOf n d b a := by
  induction d generalizing b with
  | zero => exact absurd ha (Nat.not_lt_zero a)
  | succ d ih =>
    rw [blocksOf] at hb
    have hpos : 0 < blocksOf n d := Nat.pos_of_ne_zero fun h => by
      rw [h, Nat.zero_mul] at hb
      exact Nat.not_lt_zero b hb
    rw [cornerOf]
    rcases eq_or_ne a d with rfl | hne
    · have hdiv : b / blocksOf n a < (n a + 3) / 4 := Nat.div_lt_of_lt_mul hb
      rw [Function.update_self]
      omega
    · rw [Function.update_of_ne hne]
      exact ih (Nat.mod_lt b hpos) (by omega)

/-- The coordinates of the element that place `i` of the block at corner `o` holds. -/
def padPlace (n o : ℕ → ℕ) (i a : ℕ) : ℕ := o a + padIndex (min (n a - o a) 4) (place i a)

/-- The values of a block of the array. -/
theorem compressBlock_apply (mem : ℤ → α) {n : ℕ → ℕ} (stride : ℕ → ℤ) {d : ℕ} {o : ℕ → ℕ}
    (ho : ∀ a < d, o a < n a) {i : ℕ} (hi : i < 4 ^ d) :
    compressBlock d mem n stride o i =
      mem (span stride d (padPlace n o i)) := by
  have hadd := fun m : ℕ → ℕ => (span_add stride d o fun a => padIndex (m a) (place i a)).symm
  rw [compressBlock]
  split
  · rw [gatherPartial_apply _ _ (fun a ha => by have := ho a ha; omega), if_pos (by omega),
      Nat.sub_zero, hadd]
    rfl
  · next h =>
    rw [gather_eq, gatherPartial_apply _ _ (fun a ha => by omega), if_pos (by omega), Nat.sub_zero,
      hadd]
    refine congrArg mem (span_congr stride fun a ha => ?_)
    have hfull : min (n a - o a) 4 = 4 := by
      have : ¬ n a - o a < 4 := fun hlt => h ⟨a, ha, hlt⟩
      omega
    rw [padPlace, hfull]

/-- Every element lies in a block. -/
theorem exists_corner (n : ℕ → ℕ) {d : ℕ} {c : ℕ → ℕ} (hc : ∀ a < d, c a < n a) :
    ∃ b < blocksOf n d, ∀ a < d, cornerOf n d b a = c a / 4 * 4 := by
  induction d with
  | zero => exact ⟨0, Nat.one_pos, fun a ha => absurd ha (Nat.not_lt_zero a)⟩
  | succ d ih =>
    obtain ⟨b, hb, hcorner⟩ := ih fun a ha => hc a (by omega)
    have hd := hc d (Nat.lt_succ_self d)
    have hcount : c d / 4 + 1 ≤ (n d + 3) / 4 := by omega
    refine ⟨b + blocksOf n d * (c d / 4), ?_, fun a ha => ?_⟩
    · have hle := Nat.mul_le_mul_left (blocksOf n d) hcount
      rw [Nat.mul_add, Nat.mul_one] at hle
      rw [blocksOf]
      omega
    · rw [cornerOf, Nat.add_mul_mod_self_left, Nat.mod_eq_of_lt hb,
        Nat.add_mul_div_left _ _ (by omega), Nat.div_eq_of_lt hb, Nat.zero_add]
      rcases eq_or_ne a d with rfl | hne
      · rw [Function.update_self, Nat.mul_comm]
      · rw [Function.update_of_ne hne, hcorner a (by omega)]

theorem exists_place {d : ℕ} {x : ℕ → ℕ} (hx : ∀ a < d, x a < 4) :
    ∃ i < 4 ^ d, ∀ a < d, place i a = x a := by
  induction d with
  | zero => exact ⟨0, Nat.one_pos, fun a ha => absurd ha (Nat.not_lt_zero a)⟩
  | succ d ih =>
    obtain ⟨i, hi, hplace⟩ := ih fun a ha => hx a (by omega)
    have hd := hx d (Nat.lt_succ_self d)
    refine ⟨i + 4 ^ d * x d, ?_, fun a ha => ?_⟩
    · have hle := Nat.mul_le_mul_left (4 ^ d) (show x d + 1 ≤ 4 by omega)
      rw [Nat.mul_add, Nat.mul_one] at hle
      rw [pow_succ]
      omega
    · rcases eq_or_ne a d with rfl | hne
      · rw [place, Nat.add_mul_div_left _ _ (by omega), Nat.div_eq_of_lt hi, Nat.zero_add,
          Nat.mod_eq_of_lt hd]
      · rw [← place_mod (show a < d by omega), Nat.add_mul_mod_self_left, Nat.mod_eq_of_lt hi,
          hplace a (by omega)]

end Zfp

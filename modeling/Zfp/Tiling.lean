import Mathlib.Tactic.Ring
import Zfp.MixedRadix

/-!
# Tilings of a box

Each axis of a box is cut in consecutive intervals, and the box in the products of these, its tiles.
The positions of the box are numbered tile by tile, and within a tile in row-major order.
-/

/-- A box whose axes are cut in intervals: the interval `[lo a x, hi a x)` is that of coordinate `x`
on axis `a`. -/
structure Tiling where
  min : ℕ → ℕ
  max : ℕ → ℕ
  lo : ℕ → ℕ → ℕ
  hi : ℕ → ℕ → ℕ
  mem : ∀ {a x}, min a ≤ x → x < max a →
    min a ≤ lo a x ∧ lo a x ≤ x ∧ x < hi a x ∧ hi a x ≤ max a
  same : ∀ {a x y}, min a ≤ x → x < max a → lo a x ≤ y → y < hi a x →
    lo a y = lo a x ∧ hi a y = hi a x

namespace Tiling
open MixedRadix

variable (t : Tiling)

def In (d : ℕ) (c : ℕ → ℕ) : Prop := ∀ a < d, t.min a ≤ c a ∧ c a < t.max a

def size (a : ℕ) : ℕ := t.max a - t.min a

/-- The extent of the tile of a position. -/
def width (c : ℕ → ℕ) (a : ℕ) : ℕ := t.hi a (c a) - t.lo a (c a)

/-- The coordinates of a position in its tile. -/
def inner (c : ℕ → ℕ) (a : ℕ) : ℕ := c a - t.lo a (c a)

/-- The number of positions in the tiles before that of a position, where the tiles extend by `s`
in the dimensions from `d` on. -/
def tileOffset (c : ℕ → ℕ) : ℕ → ℕ → ℕ
  | 0, _ => 0
  | d + 1, s => (t.lo d (c d) - t.min d) * (total t.size d * s) + tileOffset c d (s * t.width c d)

def offset (d : ℕ) (c : ℕ → ℕ) : ℕ := t.tileOffset c d 1 + rank (t.width c) (t.inner c) d

section

variable {t} {d : ℕ} {c c' : ℕ → ℕ}

theorem In.of_succ (h : t.In (d + 1) c) : t.In d c := fun a ha => h a (by omega)

theorem In.size_pos (h : t.In d c) : ∀ a < d, 0 < t.size a := fun a ha => by
  have hmem := h a ha
  rw [size]
  omega

theorem In.inner_within (h : t.In d c) : Within (t.width c) d (t.inner c) := fun a ha => by
  have hmem := t.mem (h a ha).1 (h a ha).2
  show c a - t.lo a (c a) < t.hi a (c a) - t.lo a (c a)
  omega

/-- The interval of a coordinate is that of its first point. -/
theorem lo_lo {a x : ℕ} (hmin : t.min a ≤ x) (hmax : x < t.max a) :
    t.lo a (t.lo a x) = t.lo a x ∧ t.hi a (t.lo a x) = t.hi a x := by
  have hmem := t.mem hmin hmax
  exact t.same hmin hmax (Nat.le_refl _) (by omega)

theorem lo_min {a x : ℕ} (hmin : t.min a ≤ x) (hmax : x < t.max a) :
    t.lo a (t.min a) = t.min a := by
  have hmem := t.mem (Nat.le_refl (t.min a)) (by omega)
  omega

/-- The next interval begins where an interval ends. -/
theorem lo_hi {a x : ℕ} (hmin : t.min a ≤ x) (hmax : x < t.max a) (hlt : t.hi a x < t.max a) :
    t.lo a (t.hi a x) = t.hi a x := by
  have hmem := t.mem hmin hmax
  have hnext := t.mem (show t.min a ≤ t.hi a x by omega) hlt
  by_contra hne
  have hprev := (t.same hmin hmax (show t.lo a x ≤ t.hi a x - 1 by omega) (by omega)).2
  have hprev' := (t.same (show t.min a ≤ t.hi a x by omega) hlt
    (show t.lo a (t.hi a x) ≤ t.hi a x - 1 by omega) (by omega)).2
  omega

/-- The tiles below dimension `d` fill at most the box. -/
theorem tileOffset_le (h : t.In d c) (s : ℕ) :
    t.tileOffset c d s + s * total (t.width c) d ≤ s * total t.size d := by
  induction d generalizing s with
  | zero => exact Nat.le_of_eq (Nat.zero_add _)
  | succ d ih =>
    have hmem := t.mem (h d (Nat.lt_succ_self d)).1 (h d (Nat.lt_succ_self d)).2
    have hlow := ih h.of_succ (s * t.width c d)
    have hhigh : (t.lo d (c d) - t.min d + t.width c d) * (total t.size d * s) ≤
        t.size d * (total t.size d * s) := by
      apply Nat.mul_le_mul_right
      rw [width, size]
      omega
    rw [tileOffset, total, total]
    calc (t.lo d (c d) - t.min d) * (total t.size d * s) + t.tileOffset c d (s * t.width c d) +
          s * (total (t.width c) d * t.width c d)
        = (t.lo d (c d) - t.min d) * (total t.size d * s) +
          (t.tileOffset c d (s * t.width c d) + s * t.width c d * total (t.width c) d) := by ring
      _ ≤ (t.lo d (c d) - t.min d) * (total t.size d * s) + s * t.width c d * total t.size d :=
          Nat.add_le_add_left hlow _
      _ = (t.lo d (c d) - t.min d + t.width c d) * (total t.size d * s) := by ring
      _ ≤ s * (total t.size d * t.size d) := hhigh.trans (Nat.le_of_eq (by ring))

/-- A tile of full layers is in the box. -/
theorem tile_le (s : ℕ) {x : ℕ} (hmin : t.min d ≤ x) (hmax : x < t.max d) :
    s * (t.hi d (t.lo d x) - t.lo d x) * total t.size d ≤ s * total t.size (d + 1) := by
  have hmem := t.mem hmin hmax
  have hle : t.hi d (t.lo d x) - t.lo d x ≤ t.size d := by
    rw [(lo_lo hmin hmax).2, size]
    omega
  rw [total, Nat.mul_assoc, Nat.mul_comm (t.hi d (t.lo d x) - t.lo d x)]
  exact Nat.mul_le_mul_left s (Nat.mul_le_mul_left _ hle)

theorem offset_lt (h : t.In d c) : t.offset d c < total t.size d := by
  have htile := tileOffset_le h 1
  have hinner := rank_lt h.inner_within
  rw [offset]
  omega

theorem tileOffset_ext (h : ∀ a < d, c' a = c a) (s : ℕ) :
    t.tileOffset c' d s = t.tileOffset c d s := by
  induction d generalizing s with
  | zero => rfl
  | succ d ih =>
    rw [tileOffset, tileOffset, width, width, h d (Nat.lt_succ_self d),
      ih fun a ha => h a (by omega)]

/-- Positions have the same interval on an axis if it begins at the same point. -/
theorem width_eq {a : ℕ} (hc : t.min a ≤ c a ∧ c a < t.max a)
    (hc' : t.min a ≤ c' a ∧ c' a < t.max a) (h : t.lo a (c' a) = t.lo a (c a)) :
    t.width c' a = t.width c a := by
  have hhi := (lo_lo hc.1 hc.2).2
  have hhi' := (lo_lo hc'.1 hc'.2).2
  rw [h, hhi] at hhi'
  rw [width, width, h, hhi']

theorem tileOffset_congr (hc : t.In d c) (hc' : t.In d c')
    (h : ∀ a < d, t.lo a (c' a) = t.lo a (c a)) (s : ℕ) :
    t.tileOffset c' d s = t.tileOffset c d s := by
  induction d generalizing s with
  | zero => rfl
  | succ d ih =>
    have hd := Nat.lt_succ_self d
    rw [tileOffset, tileOffset, h d hd, width_eq (hc d hd) (hc' d hd) (h d hd),
      ih hc.of_succ hc'.of_succ fun a ha => h a (by omega)]

/-! ## Successors -/

/-- The position after another one, in the same tile or in the next. -/
inductive Next (t : Tiling) (d : ℕ) (c c' : ℕ → ℕ) : Prop
  | inner (a : ℕ) (ha : a < d)
      (low : ∀ j < a, c j + 1 = t.hi j (c j) ∧ c' j = t.lo j (c j))
      (lt : c a + 1 < t.hi a (c a)) (step : c' a = c a + 1)
      (high : ∀ j, a < j → j < d → c' j = c j)
  | tile (a : ℕ) (ha : a < d) (full : ∀ j < d, c j + 1 = t.hi j (c j))
      (low : ∀ j < a, t.hi j (c j) = t.max j ∧ c' j = t.min j)
      (lt : t.hi a (c a) < t.max a) (step : c' a = t.hi a (c a))
      (high : ∀ j, a < j → j < d → c' j = t.lo j (c j))

theorem Next.mem (h : t.In d c) (hnext : t.Next d c c') : t.In d c' := by
  have hmem := fun j hj => t.mem (h j hj).1 (h j hj).2
  intro j hj
  have hj' := hmem j hj
  cases hnext with
  | inner a ha low lt step high =>
    rcases Nat.lt_trichotomy j a with hlt | rfl | hgt
    · rw [(low j hlt).2]
      omega
    · omega
    · rw [high j hgt hj]
      exact h j hj
  | tile a ha full low lt step high =>
    rcases Nat.lt_trichotomy j a with hlt | rfl | hgt
    · rw [(low j hlt).2]
      omega
    · omega
    · rw [high j hgt hj]
      omega

theorem tileOffset_first (h : ∀ j < d, t.lo j (c j) = t.min j) (s : ℕ) :
    t.tileOffset c d s = 0 := by
  induction d generalizing s with
  | zero => rfl
  | succ d ih =>
    rw [tileOffset, h d (Nat.lt_succ_self d), Nat.sub_self, Nat.zero_mul, Nat.zero_add]
    exact ih (fun j hj => h j (by omega)) _

/-- The last tile ends where the box does. -/
theorem tileOffset_last (hc : t.In d c) (h : ∀ j < d, t.hi j (c j) = t.max j) (s : ℕ) :
    t.tileOffset c d s + s * total (t.width c) d = s * total t.size d := by
  induction d generalizing s with
  | zero => exact Nat.zero_add _
  | succ d ih =>
    have hd := Nat.lt_succ_self d
    have hmem := t.mem (hc d hd).1 (hc d hd).2
    have hsize : t.size d = t.lo d (c d) - t.min d + t.width c d := by
      have hlast := h d hd
      rw [size, width]
      omega
    have hlow := ih hc.of_succ (fun j hj => h j (by omega)) (s * t.width c d)
    rw [tileOffset, total, total, hsize]
    calc (t.lo d (c d) - t.min d) * (total t.size d * s) + t.tileOffset c d (s * t.width c d) +
          s * (total (t.width c) d * t.width c d)
        = (t.lo d (c d) - t.min d) * (total t.size d * s) +
          (t.tileOffset c d (s * t.width c d) + s * t.width c d * total (t.width c) d) := by ring
      _ = (t.lo d (c d) - t.min d) * (total t.size d * s) +
          s * t.width c d * total t.size d := by rw [hlow]
      _ = s * (total t.size d * (t.lo d (c d) - t.min d + t.width c d)) := by ring

/-- Where the tiles below dimension `a` are the last ones and then the first ones, and dimension `a`
moves to the next interval, as many positions are passed as the tile has. -/
theorem tileOffset_next (hc : t.In d c) (hc' : t.In d c') {a : ℕ} (ha : a < d)
    (low : ∀ j < a, t.hi j (c j) = t.max j ∧ t.lo j (c' j) = t.min j)
    (step : t.lo a (c' a) = t.hi a (c a))
    (high : ∀ j, a < j → j < d → t.lo j (c' j) = t.lo j (c j)) (s : ℕ) :
    t.tileOffset c' d s = t.tileOffset c d s + s * total (t.width c) d := by
  induction d generalizing s with
  | zero => omega
  | succ d ih =>
    have hd := Nat.lt_succ_self d
    rcases Nat.lt_succ_iff_lt_or_eq.mp ha with hlt | rfl
    · have hwidth := width_eq (hc d hd) (hc' d hd) (high d hlt hd)
      have hlow := ih hc.of_succ hc'.of_succ hlt (fun j hj hjd => high j hj (by omega))
        (s * t.width c d)
      rw [tileOffset, tileOffset, high d hlt hd, hwidth, hlow, total]
      ring
    · have hmem := t.mem (hc a hd).1 (hc a hd).2
      have hzero := tileOffset_first (fun j hj => (low j hj).2) (s * t.width c' a)
      have hlow := tileOffset_last hc.of_succ (fun j hj => (low j hj).1) (s * t.width c a)
      have hstart : t.hi a (c a) - t.min a = t.lo a (c a) - t.min a + t.width c a := by
        rw [width]
        omega
      rw [tileOffset, hzero, step, hstart, tileOffset, total]
      calc (t.lo a (c a) - t.min a + t.width c a) * (total t.size a * s) + 0
          = (t.lo a (c a) - t.min a) * (total t.size a * s) + s * t.width c a * total t.size a := by
            ring
        _ = (t.lo a (c a) - t.min a) * (total t.size a * s) + (t.tileOffset c a (s * t.width c a) +
            s * t.width c a * total (t.width c) a) := by rw [hlow]
        _ = (t.lo a (c a) - t.min a) * (total t.size a * s) + t.tileOffset c a (s * t.width c a) +
            s * (total (t.width c) a * t.width c a) := by ring

/-- The number of the next position is the next number. -/
theorem offset_next (h : t.In d c) (hnext : t.Next d c c') :
    t.offset d c' = t.offset d c + 1 := by
  have hin := hnext.mem h
  have hmem := fun j hj => t.mem (h j hj).1 (h j hj).2
  cases hnext with
  | inner a ha low lt step high =>
    have hlo : ∀ j < d, t.lo j (c' j) = t.lo j (c j) := by
      intro j hj
      have hj' := hmem j hj
      rcases Nat.lt_trichotomy j a with hlt | rfl | hgt
      · rw [(low j hlt).2]
        exact (lo_lo (h j hj).1 (h j hj).2).1
      · exact (t.same (h j hj).1 (h j hj).2 (by omega) (by omega)).1
      · rw [high j hgt hj]
    have hwidth : ∀ j < d, t.width c' j = t.width c j := fun j hj =>
      width_eq (h j hj) (hin j hj) (hlo j hj)
    have hrank : rank (t.width c') (t.inner c') d = rank (t.width c) (t.inner c) d + 1 := by
      rw [rank_congr_radix hwidth]
      refine rank_next ha (fun j hj => ?_) ?_ fun j hj hjd => ?_
      · obtain ⟨hlast, hfirst⟩ := low j hj
        have hj' := hmem j (by omega)
        rw [Tiling.inner, Tiling.inner, width, hlo j (by omega), hfirst]
        omega
      · have ha' := hmem a ha
        rw [Tiling.inner, Tiling.inner, hlo a ha, step]
        omega
      · rw [Tiling.inner, Tiling.inner, high j hj hjd]
    rw [offset, offset, tileOffset_congr h hin hlo, hrank, Nat.add_assoc]
  | tile a ha full low lt step high =>
    have hlow : ∀ j < a, t.hi j (c j) = t.max j ∧ t.lo j (c' j) = t.min j := by
      intro j hj
      have hj' := h j (by omega)
      rw [(low j hj).2]
      exact ⟨(low j hj).1, lo_min hj'.1 hj'.2⟩
    have hstep : t.lo a (c' a) = t.hi a (c a) := by
      rw [step]
      exact lo_hi (h a ha).1 (h a ha).2 lt
    have hhigh : ∀ j, a < j → j < d → t.lo j (c' j) = t.lo j (c j) := by
      intro j hj hjd
      rw [high j hj hjd]
      exact (lo_lo (h j hjd).1 (h j hjd).2).1
    have hfirst : rank (t.width c') (t.inner c') d = 0 := by
      apply rank_zero
      intro j hj
      rw [Tiling.inner]
      rcases Nat.lt_trichotomy j a with hlt | rfl | hgt
      · rw [(hlow j hlt).2, (low j hlt).2, Nat.sub_self]
      · rw [hstep, step, Nat.sub_self]
      · rw [hhigh j hgt hj, high j hgt hj, Nat.sub_self]
    have hlast : rank (t.width c) (t.inner c) d + 1 = total (t.width c) d := by
      apply rank_last
      intro j hj
      have hj' := hmem j hj
      have hfull := full j hj
      rw [Tiling.inner, width]
      omega
    rw [offset, offset, tileOffset_next h hin ha hlow hstep hhigh, hfirst]
    omega

/-- The last position. -/
theorem offset_last (h : t.In d c) (hlast : ∀ j < d, c j + 1 = t.max j) :
    t.offset d c + 1 = total t.size d := by
  have hmem := fun j hj => t.mem (h j hj).1 (h j hj).2
  have htile := tileOffset_last h (fun j hj => by
    have hj' := hmem j hj
    have hmax := hlast j hj
    omega) 1
  have hrank : rank (t.width c) (t.inner c) d + 1 = total (t.width c) d := by
    apply rank_last
    intro j hj
    have hj' := hmem j hj
    have hmax := hlast j hj
    rw [inner, width]
    omega
  rw [offset]
  omega

/-! ## The position of a number -/

variable (t)

/-- The first points of the tile with the position of number `p`, and the number in the tile. -/
def locate : ℕ → ℕ → ℕ → (ℕ → ℕ) × ℕ
  | 0, _, p => (fun _ => 0, p)
  | d + 1, s, p =>
    let b := t.lo d (t.min d + p / (total t.size d * s))
    let r := locate d (s * (t.hi d b - b)) (p - (b - t.min d) * (total t.size d * s))
    (Function.update r.1 d b, r.2)

/-- The position of a number in a tile. -/
def place (b w : ℕ → ℕ) : ℕ → ℕ → ℕ → ℕ
  | 0, _ => fun _ => 0
  | d + 1, p =>
    Function.update (place b w d (p - p / total w d * total w d)) d (b d + p / total w d)

def index (d p : ℕ) : ℕ → ℕ :=
  let r := t.locate d 1 p
  place r.1 (fun a => t.hi a (r.1 a) - r.1 a) d r.2

variable {t}

theorem place_rank {b w e : ℕ → ℕ} (h : Within w d e) :
    ∀ a < d, place b w d (rank w e d) a = b a + e a := by
  induction d with
  | zero => exact fun a ha => absurd ha (Nat.not_lt_zero a)
  | succ d ih =>
    have hlt := rank_lt h.of_succ
    have hdiv : (rank w e d + total w d * e d) / total w d = e d := by
      rw [Nat.add_mul_div_left _ _ (by omega), Nat.div_eq_of_lt hlt, Nat.zero_add]
    intro a ha
    rw [place, rank, hdiv, Nat.mul_comm (e d), Nat.add_sub_cancel]
    rcases Nat.lt_succ_iff_lt_or_eq.mp ha with hlt | rfl
    · rw [Function.update_of_ne hlt.ne]
      exact ih h.of_succ a hlt
    · rw [Function.update_self]

/-- The tile of a position is that of every number in it. -/
theorem locate_offset (h : t.In d c) {s r : ℕ} (hr : r < s * total (t.width c) d) :
    (∀ a < d, (t.locate d s (t.tileOffset c d s + r)).1 a = t.lo a (c a)) ∧
      (t.locate d s (t.tileOffset c d s + r)).2 = r := by
  induction d generalizing s with
  | zero => exact ⟨fun a ha => absurd ha (Nat.not_lt_zero a), Nat.zero_add r⟩
  | succ d ih =>
    have hd := Nat.lt_succ_self d
    have hmem := t.mem (h d hd).1 (h d hd).2
    rw [total, Nat.mul_comm (total _ d), ← Nat.mul_assoc] at hr
    obtain ⟨hstarts, hrest⟩ := ih h.of_succ hr
    -- what remains below dimension `d` is less than one interval of layers
    have hlt : t.tileOffset c d (s * t.width c d) + r <
        total t.size d * s * t.width c d := by
      have hle := tileOffset_le h.of_succ (s * t.width c d)
      rw [Nat.mul_assoc, Nat.mul_comm (total t.size d)]
      omega
    have hpos : 0 < total t.size d * s := Nat.pos_of_ne_zero fun hzero => by
      rw [hzero, Nat.zero_mul] at hlt
      exact Nat.not_lt_zero _ hlt
    have hdiv := Nat.div_lt_of_lt_mul hlt
    have hquot : (t.tileOffset c (d + 1) s + r) / (total t.size d * s) = t.lo d (c d) - t.min d +
        (t.tileOffset c d (s * t.width c d) + r) / (total t.size d * s) := by
      rw [tileOffset, Nat.add_assoc, Nat.add_comm, Nat.add_mul_div_right _ _ hpos, Nat.add_comm]
    have hx : t.lo d (c d) ≤ t.min d + (t.tileOffset c (d + 1) s + r) / (total t.size d * s) ∧
        t.min d + (t.tileOffset c (d + 1) s + r) / (total t.size d * s) < t.hi d (c d) := by
      have hwidth : t.width c d = t.hi d (c d) - t.lo d (c d) := rfl
      rw [hquot]
      generalize (t.tileOffset c d (s * t.width c d) + r) / (total t.size d * s) = q at hdiv
      omega
    have hlo := (t.same (h d hd).1 (h d hd).2 hx.1 hx.2).1
    have hhi := (lo_lo (h d hd).1 (h d hd).2).2
    have hsub : t.tileOffset c (d + 1) s + r -
        (t.lo d (c d) - t.min d) * (total t.size d * s) =
          t.tileOffset c d (s * t.width c d) + r := by
      rw [tileOffset]
      omega
    rw [locate, hlo, hhi, hsub, ← width]
    refine ⟨fun a ha => ?_, hrest⟩
    dsimp only
    rcases Nat.lt_succ_iff_lt_or_eq.mp ha with hlt | rfl
    · rw [Function.update_of_ne hlt.ne]
      exact hstarts a hlt
    · rw [Function.update_self]

/-- The interval that dividing by the size of a layer finds, and what remains in it. -/
theorem locate_step {s p : ℕ} (hp : p < s * total t.size (d + 1)) :
    t.min d + p / (total t.size d * s) < t.max d ∧
    (t.lo d (t.min d + p / (total t.size d * s)) - t.min d) * (total t.size d * s) ≤ p ∧
    p - (t.lo d (t.min d + p / (total t.size d * s)) - t.min d) * (total t.size d * s) <
      s * (t.hi d (t.lo d (t.min d + p / (total t.size d * s))) -
        t.lo d (t.min d + p / (total t.size d * s))) * total t.size d := by
  rw [total, ← Nat.mul_assoc, Nat.mul_comm s] at hp
  have hpos : 0 < total t.size d * s := Nat.pos_of_ne_zero fun hzero => by
    rw [hzero, Nat.zero_mul] at hp
    exact Nat.not_lt_zero _ hp
  have hquot := Nat.div_lt_of_lt_mul hp
  have hmax : t.min d + p / (total t.size d * s) < t.max d := Nat.add_lt_of_lt_sub' hquot
  have hmem := t.mem (Nat.le_add_right _ _) hmax
  have hfirst := lo_lo (Nat.le_add_right _ _) hmax
  refine ⟨hmax, ?_⟩
  generalize t.lo d (t.min d + p / (total t.size d * s)) = b at hmem hfirst ⊢
  have hbelow : (b - t.min d) * (total t.size d * s) ≤ p :=
    (Nat.mul_le_mul_right _ (by omega)).trans (Nat.div_mul_le_self p (total t.size d * s))
  have habove : p < (b - t.min d + (t.hi d b - b)) * (total t.size d * s) := by
    have hlt := Nat.lt_div_mul_add (a := p) hpos
    rw [← Nat.succ_mul] at hlt
    exact hlt.trans_le (Nat.mul_le_mul_right _ (by omega))
  have hring : s * (t.hi d b - b) * total t.size d =
      (t.hi d b - b) * (total t.size d * s) := by ring
  rw [Nat.add_mul] at habove
  exact ⟨hbelow, by omega⟩

/-- A number below the size of the box is in the tile it locates. -/
theorem locate_spec (hsize : ∀ a < d, 0 < t.size a) {s p : ℕ} (hp : p < s * total t.size d) :
    (∀ a < d, t.min a ≤ (t.locate d s p).1 a ∧ (t.locate d s p).1 a < t.max a ∧
      t.lo a ((t.locate d s p).1 a) = (t.locate d s p).1 a) ∧
    t.tileOffset (t.locate d s p).1 d s + (t.locate d s p).2 = p ∧
    (t.locate d s p).2 < s * total (t.width (t.locate d s p).1) d := by
  induction d generalizing s p with
  | zero => exact ⟨fun a ha => absurd ha (Nat.not_lt_zero a), Nat.zero_add p, hp⟩
  | succ d ih =>
    obtain ⟨hmax, hbelow, hrest⟩ := locate_step hp
    have hmem := t.mem (Nat.le_add_right _ _) hmax
    have hfirst := lo_lo (Nat.le_add_right _ _) hmax
    rw [locate]
    generalize t.lo d (t.min d + p / (total t.size d * s)) = b
      at hmem hfirst hbelow hrest ⊢
    obtain ⟨hmem', hsum, hlt⟩ := ih (fun a ha => hsize a (by omega)) hrest
    generalize t.locate d (s * (t.hi d b - b)) (p - (b - t.min d) * (total t.size d * s)) = r
      at hmem' hsum hlt ⊢
    have hupdate : ∀ a < d, Function.update r.1 d b a = r.1 a := fun a ha =>
      Function.update_of_ne ha.ne _ _
    have hwidth : t.width (Function.update r.1 d b) d = t.hi d b - b := by
      rw [width, Function.update_self, hfirst.1]
    dsimp only
    refine ⟨fun a ha => ?_, ?_, ?_⟩
    · rcases Nat.lt_succ_iff_lt_or_eq.mp ha with hlt | rfl
      · rw [hupdate a hlt]
        exact hmem' a hlt
      · rw [Function.update_self]
        exact ⟨by omega, by omega, hfirst.1⟩
    · rw [tileOffset, hwidth, tileOffset_ext hupdate, Function.update_self, hfirst.1]
      omega
    · have hwidths : ∀ a < d, t.width (Function.update r.1 d b) a = t.width r.1 a := fun a ha => by
        rw [width, width, hupdate a ha]
      rw [total, hwidth, total_congr hwidths]
      exact hlt.trans_eq (by ring)

theorem index_offset (h : t.In d c) : ∀ a < d, t.index d (t.offset d c) a = c a := by
  have hr := rank_lt h.inner_within
  obtain ⟨hstarts, hrest⟩ := locate_offset h (s := 1) (by rwa [Nat.one_mul])
  rw [← offset] at hstarts hrest
  have hwidth : ∀ a < d, t.width c a = t.hi a ((t.locate d 1 (t.offset d c)).1 a) -
      (t.locate d 1 (t.offset d c)).1 a := by
    intro a ha
    rw [hstarts a ha, (lo_lo (h a ha).1 (h a ha).2).2, width]
  have hinner : Within (fun a => t.hi a ((t.locate d 1 (t.offset d c)).1 a) -
      (t.locate d 1 (t.offset d c)).1 a) d (t.inner c) := fun a ha => by
    dsimp only
    rw [← hwidth a ha]
    exact h.inner_within a ha
  intro a ha
  have hmem := t.mem (h a ha).1 (h a ha).2
  rw [index, hrest, rank_congr_radix hwidth, place_rank hinner a ha, hstarts a ha, inner]
  omega

/-- Every number below the size of the box is that of a position. -/
theorem offset_index (hsize : ∀ a < d, 0 < t.size a) {p : ℕ} (hp : p < total t.size d) :
    t.In d (t.index d p) ∧ t.offset d (t.index d p) = p := by
  obtain ⟨hmem, hsum, hlt⟩ := locate_spec hsize (s := 1) (by rwa [Nat.one_mul])
  have hwidths : ∀ a < d, t.width (t.locate d 1 p).1 a =
      t.hi a ((t.locate d 1 p).1 a) - (t.locate d 1 p).1 a := fun a ha => by
    rw [width, (hmem a ha).2.2]
  have hpos : ∀ a < d, 0 < t.hi a ((t.locate d 1 p).1 a) - (t.locate d 1 p).1 a := fun a ha => by
    have hmem' := t.mem (hmem a ha).1 (hmem a ha).2.1
    omega
  rw [Nat.one_mul, total_congr hwidths] at hlt
  have hdigits := digit_within hpos (t.locate d 1 p).2
  have hplace := place_rank (b := (t.locate d 1 p).1) hdigits
  rw [rank_digit hlt] at hplace
  have hrange : ∀ a < d, (t.locate d 1 p).1 a ≤ t.index d p a ∧
      t.index d p a < t.hi a ((t.locate d 1 p).1 a) := by
    intro a ha
    have hdigit := hdigits a ha
    dsimp only at hdigit
    rw [index, hplace a ha]
    omega
  have hin : t.In d (t.index d p) := fun a ha => by
    have hmem' := t.mem (hmem a ha).1 (hmem a ha).2.1
    have hrange' := hrange a ha
    have hstart := hmem a ha
    omega
  have hlo : ∀ a < d, t.lo a (t.index d p a) = t.lo a ((t.locate d 1 p).1 a) := fun a ha =>
    (t.same (hmem a ha).1 (hmem a ha).2.1 (by rw [(hmem a ha).2.2]; exact (hrange a ha).1)
      (hrange a ha).2).1
  have hstart : t.In d (t.locate d 1 p).1 := fun a ha => ⟨(hmem a ha).1, (hmem a ha).2.1⟩
  refine ⟨hin, ?_⟩
  have hinner : ∀ a < d, t.inner (t.index d p) a = digit (fun a =>
      t.hi a ((t.locate d 1 p).1 a) - (t.locate d 1 p).1 a) (t.locate d 1 p).2 a := by
    intro a ha
    rw [inner, hlo a ha, (hmem a ha).2.2, index, hplace a ha, Nat.add_sub_cancel_left]
  rw [offset, tileOffset_congr hstart hin hlo, rank_congr hinner, rank_congr_radix fun a ha =>
    (width_eq (hstart a ha) (hin a ha) (hlo a ha)).trans (hwidths a ha), rank_digit hlt, hsum]

theorem offset_ext (h : ∀ a < d, c' a = c a) : t.offset d c' = t.offset d c := by
  have hwidth : ∀ a < d, t.width c' a = t.width c a := fun a ha => by rw [width, width, h a ha]
  have hinner : ∀ a < d, t.inner c' a = t.inner c a := fun a ha => by rw [inner, inner, h a ha]
  rw [offset, offset, tileOffset_ext h, rank_congr hinner, rank_congr_radix hwidth]

/-- The first position. -/
theorem offset_first (h : t.In d c) (hfirst : ∀ j < d, c j = t.min j) : t.offset d c = 0 := by
  have hlo : ∀ j < d, t.lo j (c j) = t.min j := fun j hj => by
    rw [hfirst j hj]
    exact lo_min (h j hj).1 (h j hj).2
  rw [offset, tileOffset_first hlo, rank_zero fun j hj => by
    rw [inner, hlo j hj, hfirst j hj, Nat.sub_self]]

/-- The positions of a tile have consecutive numbers. -/
theorem tile_consecutive (hc : t.In d c) (hc' : t.In d c') :
    (∀ a < d, t.lo a (c' a) = t.lo a (c a)) ↔
      t.tileOffset c d 1 ≤ t.offset d c' ∧
        t.offset d c' < t.tileOffset c d 1 + total (t.width c) d := by
  constructor
  · intro hlo
    have hlt := rank_lt hc'.inner_within
    have hwidths : total (t.width c') d = total (t.width c) d :=
      total_congr fun a ha => width_eq (hc a ha) (hc' a ha) (hlo a ha)
    rw [hwidths] at hlt
    rw [offset, tileOffset_congr hc hc' hlo]
    omega
  · rintro ⟨hle, hlt⟩
    have hr : t.offset d c' - t.tileOffset c d 1 < 1 * total (t.width c) d := by omega
    have hsum : t.tileOffset c d 1 + (t.offset d c' - t.tileOffset c d 1) = t.offset d c' := by
      omega
    have hstarts := (locate_offset hc hr).1
    rw [hsum] at hstarts
    have hr' := rank_lt hc'.inner_within
    have hstarts' := (locate_offset hc' (s := 1) (by rwa [Nat.one_mul])).1
    rw [← offset] at hstarts'
    intro a ha
    rw [← hstarts a ha, ← hstarts' a ha]

end

end Tiling

import Mathlib.Algebra.Order.Ring.Nat
import Mathlib.Data.List.Pairwise
import Mathlib.Tactic.Linarith
import Zfp.Sizes

/-!
# Partitions of private views

A thread-safe view is cut along its longest dimension into pieces that end at block boundaries, so
that no block is written through two views. The limits of a piece are clamped to the view by a
maximum and a minimum that do not know of each other.
-/

namespace Zfp

@[ext] structure Extent where
  offset : ℕ
  size : ℕ
  deriving DecidableEq

/-- block-aligned partition of [offset, offset + size): index out of count -/
def Extent.partition (e : Extent) (index count : ℕ) : Extent :=
  let bmin := e.offset / 4
  let bmax := sizeT (e.offset + e.size + 3) / 4
  let xmin := max e.offset (sizeT (4 * (bmin + sizeT (sizeSub bmax bmin * index) / count)))
  let xmax := min (sizeT (e.offset + e.size))
    (sizeT (4 * (bmin + sizeT (sizeSub bmax bmin * (index + 1)) / count)))
  ⟨xmin, sizeSub xmax xmin⟩

abbrev View := ℕ → Extent

/-- The dimension that `private_view::partition` cuts, in two, three and four dimensions. -/
def longest (v : View) : ℕ → ℕ
  | 2 => if (v 0).size > (v 1).size then 0 else 1
  | 3 =>
    if (v 0).size > max (v 1).size (v 2).size then 0
    else if (v 1).size > max (v 0).size (v 2).size then 1 else 2
  | 4 =>
    if max (v 0).size (v 1).size > max (v 2).size (v 3).size then
      if (v 0).size > (v 1).size then 0 else 1
    else if (v 2).size > (v 3).size then 2 else 3
  | _ => 0

/-- partition view into count block-aligned pieces, with 0 <= index < count -/
def View.partition (d : ℕ) (v : View) (index count : ℕ) : View :=
  Function.update v (longest v d) ((v (longest v d)).partition index count)

def View.pieces (d : ℕ) (v : View) (count : ℕ) : List View :=
  (List.range count).map fun i => v.partition d i count

/-- The pieces after partitioning repeatedly, each time all pieces into as many. -/
def View.leaves (d : ℕ) (v : View) : List ℕ → List View
  | [] => [v]
  | count :: counts => (v.pieces d count).flatMap fun p => leaves d p counts

/-! ## Partitions into disjoint sets of blocks -/

def View.Mem (d : ℕ) (v : View) (c : ℕ → ℕ) : Prop :=
  ∀ a < d, (v a).offset ≤ c a ∧ c a < (v a).offset + (v a).size

/-- Views that cover a view, none larger than it and no two sharing a block. -/
structure BlockPartition (d : ℕ) (v : View) (ps : List View) : Prop where
  cover : ∀ c, v.Mem d c ↔ ∃ p ∈ ps, View.Mem d p c
  within : ∀ p ∈ ps, ∀ a < d, (p a).size ≤ (v a).size
  blocks : ps.Pairwise fun p q => ∀ c c', View.Mem d p c → View.Mem d q c' →
    ∃ a < d, c a / 4 ≠ c' a / 4

/-- What the partition of a view promises: pieces contiguous in order along one dimension that
together are a partition into disjoint sets of blocks. -/
def Partitioned (d : ℕ) (v : View) (count : ℕ) : Prop :=
  let a := longest v d
  (v.partition d 0 count a).offset = (v a).offset ∧
    (∀ i, i + 1 < count → (v.partition d i count a).offset + (v.partition d i count a).size =
      (v.partition d (i + 1) count a).offset) ∧
    (v.partition d (count - 1) count a).offset + (v.partition d (count - 1) count a).size =
      (v a).offset + (v a).size ∧
    BlockPartition d v (v.pieces d count)

/-- The number of blocks that an extent meets. -/
def Extent.blocks (e : Extent) : ℕ := (e.offset + e.size + 3) / 4 - e.offset / 4

/-- The first piece does not end before the extent, and the products do not wrap. -/
def Extent.Divisible (e : Extent) (count : ℕ) : Prop :=
  (e.offset % 4 = 0 ∨ count ≤ e.blocks) ∧ e.blocks * count < 2 ^ 64

instance (e : Extent) (count : ℕ) : Decidable (e.Divisible count) :=
  inferInstanceAs (Decidable ((_ ∨ _) ∧ _))

/-- All partitions on the way to the leaves meet the condition. -/
def View.Divisible (d : ℕ) (v : View) : List ℕ → Prop
  | [] => True
  | count :: counts => 0 < count ∧ (v (longest v d)).Divisible count ∧
      ∀ i < count, View.Divisible d (v.partition d i count) counts

theorem longest_lt (v : View) {d : ℕ} (hd : 1 ≤ d) (hd' : d ≤ 4) : longest v d < d := by
  obtain rfl | rfl | rfl | rfl : d = 1 ∨ d = 2 ∨ d = 3 ∨ d = 4 := by omega
  · exact Nat.one_pos
  · rw [longest]
    split_ifs <;> decide
  · rw [longest]
    split_ifs <;> decide
  · rw [longest]
    split_ifs <;> decide

/-- Partitions of the views of a partition. -/
theorem BlockPartition.flatMap {d : ℕ} {v : View} {ps : List View} (h : BlockPartition d v ps)
    {f : View → List View} (hf : ∀ p ∈ ps, BlockPartition d p (f p)) :
    BlockPartition d v (ps.flatMap f) where
  cover c := by
    rw [h.cover]
    constructor
    · rintro ⟨p, hp, hc⟩
      obtain ⟨q, hq, hqc⟩ := ((hf p hp).cover c).mp hc
      exact ⟨q, List.mem_flatMap.mpr ⟨p, hp, hq⟩, hqc⟩
    · rintro ⟨q, hq, hqc⟩
      obtain ⟨p, hp, hqp⟩ := List.mem_flatMap.mp hq
      exact ⟨p, hp, ((hf p hp).cover c).mpr ⟨q, hqp, hqc⟩⟩
  within q hq a ha := by
    obtain ⟨p, hp, hqp⟩ := List.mem_flatMap.mp hq
    exact ((hf p hp).within q hqp a ha).trans (h.within p hp a ha)
  blocks := by
    rw [List.pairwise_flatMap]
    refine ⟨fun p hp => (hf p hp).blocks, h.blocks.imp_of_mem ?_⟩
    intro p p' hp hp' hpp q hq q' hq' c c' hc hc'
    exact hpp c c' (((hf p hp).cover c).mpr ⟨q, hq, hc⟩) (((hf p' hp').cover c').mpr ⟨q', hq', hc'⟩)

theorem BlockPartition.singleton (d : ℕ) (v : View) : BlockPartition d v [v] where
  cover c := by simp
  within p hp a _ := by
    rw [List.mem_singleton.mp hp]
  blocks := List.pairwise_singleton _ _

/-! ## The pieces of an extent -/

namespace Extent

variable {e : Extent} {count : ℕ}

def before (e : Extent) (count i : ℕ) : ℕ := sizeT (e.blocks * i) / count

theorem blocks_bounds (e : Extent) :
    4 * (e.offset / 4 + e.blocks) ≤ e.offset + e.size + 3 ∧
      e.offset + e.size ≤ 4 * (e.offset / 4 + e.blocks) := by
  rw [blocks]
  omega

theorem before_le {i : ℕ} (hi : i ≤ count) : e.before count i ≤ e.blocks := by
  have hmod : sizeT (e.blocks * i) ≤ e.blocks * i := Nat.mod_le _ _
  have hmul : e.blocks * i ≤ e.blocks * count := Nat.mul_le_mul_left _ hi
  exact Nat.div_le_of_le_mul (by rw [Nat.mul_comm count]; exact hmod.trans hmul)

/-- The clamped limits of a piece. -/
theorem partition_eq (hfit : e.offset + e.size + 3 < 2 ^ 64) {i : ℕ} (hi : i < count) :
    e.partition i count =
      ⟨max e.offset (4 * (e.offset / 4 + e.before count i)),
        sizeSub (min (e.offset + e.size) (4 * (e.offset / 4 + e.before count (i + 1))))
          (max e.offset (4 * (e.offset / 4 + e.before count i)))⟩ := by
  have hbounds := e.blocks_bounds
  have hlo := before_le (e := e) hi.le
  have hhi : e.before count (i + 1) ≤ e.blocks := before_le (Nat.succ_le_of_lt hi)
  have hblocks : sizeSub ((e.offset + e.size + 3) / 4) (e.offset / 4) = e.blocks :=
    sizeSub_of_le (by omega) (by omega)
  have hmin : sizeT (e.blocks * i) / count = e.before count i := rfl
  have hmax : sizeT (e.blocks * (i + 1)) / count = e.before count (i + 1) := rfl
  simp only [partition]
  rw [sizeT_of_lt hfit, hblocks, hmin, hmax, sizeT_of_lt (x := e.offset + e.size) (by omega),
    sizeT_of_lt (x := 4 * (e.offset / 4 + e.before count i)) (by omega), sizeT_of_lt (by omega)]

def cut (e : Extent) (count i : ℕ) : ℕ :=
  if i = 0 then e.offset
  else if i = count then e.offset + e.size
  else 4 * (e.offset / 4 + e.blocks * i / count)

theorem cut_zero (e : Extent) (count : ℕ) : e.cut count 0 = e.offset := if_pos rfl

theorem cut_count (hcount : 0 < count) : e.cut count count = e.offset + e.size := by
  rw [cut, if_neg hcount.ne', if_pos rfl]

theorem cut_of_lt {i : ℕ} (h : 0 < i) (hi : i < count) :
    e.cut count i = 4 * (e.offset / 4 + e.blocks * i / count) := by
  rw [cut, if_neg h.ne', if_neg hi.ne]

theorem exists_piece {x k : ℕ} (hk : k ≤ count) (hlo : e.offset ≤ x) (hx : x < e.cut count k) :
    ∃ i < k, e.cut count i ≤ x ∧ x < e.cut count (i + 1) := by
  induction k with
  | zero =>
    rw [cut_zero] at hx
    omega
  | succ k ih =>
    rcases Nat.lt_or_ge x (e.cut count k) with hlt | hge
    · obtain ⟨i, hi, h⟩ := ih (by omega) hlt
      exact ⟨i, by omega, h⟩
    · exact ⟨k, Nat.lt_succ_self k, hge, hx⟩

section

variable (hdiv : e.Divisible count)

include hdiv

theorem before_eq {i : ℕ} (hi : i ≤ count) : e.before count i = e.blocks * i / count := by
  have hmul : e.blocks * i ≤ e.blocks * count := Nat.mul_le_mul_left _ hi
  rw [before, sizeT_of_lt (by have := hdiv.2; omega)]

/-- The cuts inside the extent. -/
theorem cut_bounds {i : ℕ} (h : 0 < i) (hi : i < count) :
    e.offset ≤ 4 * (e.offset / 4 + e.blocks * i / count) ∧
      4 * (e.offset / 4 + e.blocks * i / count) ≤ e.offset + e.size := by
  have hbounds := e.blocks_bounds
  constructor
  · obtain haligned | hle := hdiv.1
    · generalize e.blocks * i / count = k
      omega
    · have hone : 1 ≤ e.blocks * i / count := by
        rw [Nat.one_le_div_iff (by omega)]
        exact hle.trans (Nat.le_mul_of_pos_right _ h)
      omega
  · rcases Nat.eq_zero_or_pos e.blocks with hzero | hpos
    · rw [hzero, Nat.zero_mul, Nat.zero_div]
      omega
    · have hlt : e.blocks * i / count < e.blocks :=
        (Nat.div_lt_iff_lt_mul (by omega)).mpr (Nat.mul_lt_mul_of_pos_left hi hpos)
      omega

theorem cut_le_succ {i : ℕ} (hi : i < count) : e.cut count i ≤ e.cut count (i + 1) := by
  have hmono : e.blocks * i / count ≤ e.blocks * (i + 1) / count :=
    Nat.div_le_div_right (Nat.mul_le_mul_left _ (Nat.le_succ i))
  rcases Nat.eq_zero_or_pos i with rfl | hpos
  · rw [cut_zero]
    rcases Nat.eq_or_lt_of_le (show 0 + 1 ≤ count from hi) with rfl | hlt
    · rw [cut_count Nat.one_pos]
      omega
    · rw [cut_of_lt Nat.one_pos hlt]
      exact (cut_bounds hdiv Nat.one_pos hlt).1
  · rw [cut_of_lt hpos hi]
    rcases Nat.eq_or_lt_of_le (show i + 1 ≤ count from hi) with heq | hlt
    · rw [heq, cut_count (by omega)]
      exact (cut_bounds hdiv hpos hi).2
    · rw [cut_of_lt (Nat.succ_pos i) hlt]
      exact Nat.mul_le_mul_left 4 (Nat.add_le_add_left hmono _)

theorem cut_mono {i j : ℕ} (hij : i ≤ j) (hj : j ≤ count) : e.cut count i ≤ e.cut count j := by
  induction j with
  | zero => rw [Nat.le_zero.mp hij]
  | succ j ih =>
    rcases Nat.eq_or_lt_of_le hij with rfl | hlt
    · exact Nat.le_refl _
    · exact (ih (by omega) (by omega)).trans (cut_le_succ hdiv hj)

/-- The pieces lie between the cuts. -/
theorem partition_cut (hfit : e.offset + e.size + 3 < 2 ^ 64) {i : ℕ} (hi : i < count) :
    e.partition i count = ⟨e.cut count i, e.cut count (i + 1) - e.cut count i⟩ := by
  have hbounds := e.blocks_bounds
  have hlo : max e.offset (4 * (e.offset / 4 + e.before count i)) = e.cut count i := by
    rw [before_eq hdiv hi.le]
    rcases Nat.eq_zero_or_pos i with rfl | hpos
    · rw [cut_zero, Nat.mul_zero, Nat.zero_div]
      omega
    · rw [cut_of_lt hpos hi, max_eq_right (cut_bounds hdiv hpos hi).1]
  have hhi : min (e.offset + e.size) (4 * (e.offset / 4 + e.before count (i + 1))) =
      e.cut count (i + 1) := by
    rw [before_eq hdiv (show i + 1 ≤ count from hi)]
    rcases Nat.eq_or_lt_of_le (show i + 1 ≤ count from hi) with heq | hlt
    · rw [heq, cut_count (by omega), Nat.mul_div_cancel _ (by omega)]
      exact min_eq_left hbounds.2
    · rw [cut_of_lt (Nat.succ_pos i) hlt, min_eq_right (cut_bounds hdiv (Nat.succ_pos i) hlt).2]
  have hend := cut_mono hdiv (Nat.succ_le_of_lt hi) (Nat.le_refl count)
  rw [cut_count (by omega)] at hend
  rw [partition_eq hfit hi, hlo, hhi, sizeSub_of_le (cut_le_succ hdiv hi) (by omega)]

/-- Elements of two pieces lie in different blocks. -/
theorem piece_blocks {i j x y : ℕ} (hij : i < j) (hj : j < count) (hx : x < e.cut count (i + 1))
    (hy : e.cut count j ≤ y) : x / 4 < y / 4 := by
  have hmono := cut_mono hdiv hij hj.le
  rw [cut_of_lt (Nat.succ_pos i) (by omega)] at hx hmono
  omega

end

/-- With an unaligned offset and more pieces than blocks the first piece is too large. -/
theorem partition_first (hfit : e.offset + e.size + 3 < 2 ^ 64) (halign : e.offset % 4 ≠ 0)
    (hcount : e.blocks < count) (hmul : e.blocks * count < 2 ^ 64) :
    e.size < (e.partition 0 count).size := by
  have hle : e.blocks * 1 ≤ e.blocks * count := Nat.mul_le_mul_left _ (by omega)
  have hzero : e.before count 0 = 0 := by
    rw [before, Nat.mul_zero, sizeT_of_lt (by decide), Nat.zero_div]
  have hone : e.before count (0 + 1) = 0 := by
    rw [before, sizeT_of_lt (by omega), Nat.div_eq_of_lt (by omega)]
  rw [partition_eq hfit (by omega), hzero, hone]
  simp only [sizeSub, sizeT]
  omega

/-- Where the product wraps, the last piece does not end with the extent. -/
theorem partition_last (hfit : e.offset + e.size + 3 < 2 ^ 64) (hcount : 0 < count)
    (hmul : 2 ^ 64 ≤ e.blocks * count) :
    (e.partition (count - 1) count).offset + (e.partition (count - 1) count).size ≠
      e.offset + e.size := by
  have hbounds := e.blocks_bounds
  have hlast : e.before count (count - 1 + 1) < e.blocks := by
    rw [before, Nat.sub_add_cancel hcount, Nat.div_lt_iff_lt_mul hcount]
    have hsub : sizeT (e.blocks * count) ≤ e.blocks * count - 2 ^ 64 := by
      rw [sizeT, Nat.mod_eq_sub_mod hmul]
      exact Nat.mod_le _ _
    omega
  have hlo := before_le (e := e) (show count - 1 ≤ count by omega)
  rw [partition_eq hfit (by omega)]
  simp only [sizeSub, sizeT]
  omega

end Extent

/-! ## The pieces of a view -/

section

variable {d : ℕ} {v : View} {count : ℕ}

theorem partition_self (i : ℕ) : v.partition d i count (longest v d) =
    (v (longest v d)).partition i count := Function.update_self ..

theorem partition_of_ne {a : ℕ} (ha : a ≠ longest v d) (i : ℕ) : v.partition d i count a = v a :=
  Function.update_of_ne ha ..

/-- The pieces of a view are a partition into disjoint sets of blocks. -/
theorem blockPartition_pieces (hd : longest v d < d)
    (hfit : (v (longest v d)).offset + (v (longest v d)).size + 3 < 2 ^ 64) (hcount : 0 < count)
    (hdiv : (v (longest v d)).Divisible count) : BlockPartition d v (v.pieces d count) := by
  have hpiece : ∀ i < count, ∀ x, (v.partition d i count (longest v d)).offset ≤ x ∧
      x < (v.partition d i count (longest v d)).offset +
        (v.partition d i count (longest v d)).size ↔
      (v (longest v d)).cut count i ≤ x ∧ x < (v (longest v d)).cut count (i + 1) := by
    intro i hi x
    have hle := Extent.cut_le_succ hdiv hi
    rw [partition_self, Extent.partition_cut hdiv hfit hi]
    dsimp only
    rw [Nat.add_sub_cancel' hle]
  have hends : ∀ i < count, (v (longest v d)).offset ≤ (v (longest v d)).cut count i ∧
      (v (longest v d)).cut count (i + 1) ≤ (v (longest v d)).offset + (v (longest v d)).size := by
    intro i hi
    have hlo := Extent.cut_mono hdiv (Nat.zero_le i) hi.le
    have hhi := Extent.cut_mono hdiv (show i + 1 ≤ count from hi) (Nat.le_refl count)
    rw [Extent.cut_zero] at hlo
    rw [Extent.cut_count hcount] at hhi
    exact ⟨hlo, hhi⟩
  constructor
  · intro c
    constructor
    · intro hc
      obtain ⟨hlo, hhi⟩ := hc _ hd
      rw [← Extent.cut_count hcount] at hhi
      obtain ⟨i, hi, hx⟩ := Extent.exists_piece (Nat.le_refl count) hlo hhi
      refine ⟨v.partition d i count, List.mem_map.mpr ⟨i, List.mem_range.mpr hi, rfl⟩, ?_⟩
      intro a ha
      rcases eq_or_ne a (longest v d) with rfl | hne
      · exact (hpiece i hi _).mpr hx
      · rw [partition_of_ne hne]
        exact hc a ha
    · rintro ⟨p, hp, hc⟩ a ha
      obtain ⟨i, hi, rfl⟩ := List.mem_map.mp hp
      rw [List.mem_range] at hi
      have hca := hc a ha
      rcases eq_or_ne a (longest v d) with rfl | hne
      · have hx := (hpiece i hi _).mp hca
        have hend := hends i hi
        omega
      · rwa [partition_of_ne hne] at hca
  · intro p hp a ha
    obtain ⟨i, hi, rfl⟩ := List.mem_map.mp hp
    rw [List.mem_range] at hi
    rcases eq_or_ne a (longest v d) with rfl | hne
    · have hend := hends i hi
      rw [partition_self, Extent.partition_cut hdiv hfit hi]
      dsimp only
      omega
    · rw [partition_of_ne hne]
  · rw [View.pieces, List.pairwise_map]
    refine List.pairwise_lt_range.imp_of_mem ?_
    intro i j hi hj hij c c' hc hc'
    rw [List.mem_range] at hi hj
    have hx := ((hpiece i hi _).mp (hc _ hd)).2
    have hy := ((hpiece j hj _).mp (hc' _ hd)).1
    exact ⟨longest v d, hd, (Extent.piece_blocks hdiv hij hj hx hy).ne⟩

theorem partitioned_of_divisible (hd : longest v d < d)
    (hfit : (v (longest v d)).offset + (v (longest v d)).size + 3 < 2 ^ 64) (hcount : 0 < count)
    (hdiv : (v (longest v d)).Divisible count) : Partitioned d v count := by
  have hlast := Extent.partition_cut hdiv hfit (show count - 1 < count by omega)
  have hle := Extent.cut_le_succ hdiv (show count - 1 < count by omega)
  rw [Nat.sub_add_cancel hcount, Extent.cut_count hcount] at hlast hle
  refine ⟨?_, ?_, ?_, blockPartition_pieces hd hfit hcount hdiv⟩
  · rw [partition_self, Extent.partition_cut hdiv hfit hcount, Extent.cut_zero]
  · intro i hi
    have hle := Extent.cut_le_succ hdiv (show i < count by omega)
    rw [partition_self, partition_self, Extent.partition_cut hdiv hfit (by omega),
      Extent.partition_cut hdiv hfit hi]
    exact Nat.add_sub_cancel' hle
  · rw [partition_self, hlast]
    exact Nat.add_sub_cancel' hle

theorem divisible_of_partitioned (hd : longest v d < d)
    (hfit : (v (longest v d)).offset + (v (longest v d)).size + 3 < 2 ^ 64) (hcount : 0 < count)
    (h : Partitioned d v count) : (v (longest v d)).Divisible count := by
  obtain ⟨-, -, hlast, hpieces⟩ := h
  have hmul : (v (longest v d)).blocks * count < 2 ^ 64 := by
    by_contra hge
    rw [partition_self] at hlast
    exact Extent.partition_last hfit hcount (Nat.le_of_not_lt hge) hlast
  refine ⟨?_, hmul⟩
  by_contra hnot
  rw [not_or, Nat.not_le] at hnot
  have hfirst := Extent.partition_first hfit hnot.1 hnot.2 hmul
  have hwithin := hpieces.within (v.partition d 0 count)
    (List.mem_map.mpr ⟨0, List.mem_range.mpr hcount, rfl⟩) _ hd
  rw [partition_self] at hwithin
  omega

/-- Repeated partitions. -/
theorem blockPartition_leaves (hd : 1 ≤ d) (hd' : d ≤ 4) {counts : List ℕ}
    (hfit : ∀ a < d, (v a).offset + (v a).size + 3 < 2 ^ 64) (hdiv : v.Divisible d counts) :
    BlockPartition d v (v.leaves d counts) := by
  induction counts generalizing v with
  | nil => exact .singleton d v
  | cons count counts ih =>
    obtain ⟨hcount, hext, htail⟩ := hdiv
    have hlt := longest_lt v hd hd'
    refine (blockPartition_pieces hlt (hfit _ hlt) hcount hext).flatMap fun p hp => ?_
    obtain ⟨i, hi, rfl⟩ := List.mem_map.mp hp
    rw [List.mem_range] at hi
    refine ih (fun a ha => ?_) (htail i hi)
    rcases eq_or_ne a (longest v d) with rfl | hne
    · have hmono := Extent.cut_mono hext (show i + 1 ≤ count from hi) (Nat.le_refl count)
      have hle := Extent.cut_le_succ hext hi
      rw [Extent.cut_count hcount] at hmono
      have hfit := hfit _ ha
      rw [partition_self, Extent.partition_cut hext hfit hi]
      dsimp only
      omega
    · rw [partition_of_ne hne]
      exact hfit a ha

end

/-- A view is partitioned as promised exactly if its longest extent starts with a block or has at
least as many blocks as there are pieces, and the products do not wrap; so are the pieces of
repeated partitions that all meet this. -/
theorem partition_iff {d : ℕ} (hd : 1 ≤ d) (hd' : d ≤ 4) (v : View)
    (hfit : ∀ a < d, (v a).offset + (v a).size + 3 < 2 ^ 64) :
    (∀ count, 0 < count →
      (Partitioned d v count ↔ (v (longest v d)).Divisible count)) ∧
    ∀ counts, v.Divisible d counts → BlockPartition d v (v.leaves d counts) := by
  have hlt := longest_lt v hd hd'
  refine ⟨fun count hcount => ⟨fun h => ?_, fun h => ?_⟩, fun counts h => ?_⟩
  · exact divisible_of_partitioned hlt (hfit _ hlt) hcount h
  · exact partitioned_of_divisible hlt (hfit _ hlt) hcount h
  · exact blockPartition_leaves hd hd' hfit h

/-- An unaligned view of one element in two pieces: the first one has more than `2 ^ 63`. -/
theorem partition_unaligned : ¬ Partitioned 1 (fun _ => ⟨2, 1⟩) 2 := by
  intro h
  have hdiv := divisible_of_partitioned (d := 1) (by decide) (by decide) (by decide) h
  exact absurd hdiv (by decide)

/-- An unaligned view in two pieces, each of them in two again. -/
theorem partition_twice :
    Partitioned 2 (fun a => ⟨2 * a + 1, 20 - a⟩) 2 ∧
      BlockPartition 2 (fun a => ⟨2 * a + 1, 20 - a⟩)
        (View.leaves 2 (fun a => ⟨2 * a + 1, 20 - a⟩) [2, 2]) := by
  have h := partition_iff (d := 2) (by decide) (by decide) (fun a => ⟨2 * a + 1, 20 - a⟩)
    (by decide)
  refine ⟨(h.1 2 (by decide)).mpr (by decide), h.2 [2, 2] ⟨by decide, by decide, fun i hi => ?_⟩⟩
  obtain rfl | rfl : i = 0 ∨ i = 1 := by omega
  · exact ⟨by decide, by decide, fun _ _ => trivial⟩
  · exact ⟨by decide, by decide, fun _ _ => trivial⟩

end Zfp

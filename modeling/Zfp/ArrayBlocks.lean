import Mathlib.Data.List.Perm.Basic
import Zfp.BlockGeometry
import Zfp.BlockLoops
import Zfp.MixedRadix
import Zfp.Sizes

/-!
# The blocks of an array

An array of any dimensionality is cut in blocks of four elements a side, partial where a size is no
multiple of four. The array is copied from and to dense memory by one pointer that the loops over
the blocks advance by differences of sizes.
-/

namespace Zfp
open MixedRadix

namespace ArrayBlocks

variable {σ : Type}

/-- array size in blocks -/
def blockSize (n : ℕ → ℕ) (a : ℕ) : ℕ := sizeT (n a + 3) / 4

def blockIndex : ℕ → (ℕ → ℕ) → (ℕ → ℕ) → ℕ
  | 0, _, _ => 0
  | 1, _, i => i 0 / 4
  | d + 2, n, i => sizeT (i 0 / 4 +
      blockSize n 0 * blockIndex (d + 1) (fun a => n (a + 1)) (fun a => i (a + 1)))

/-- encoding of block dimensions -/
def blockShape : ℕ → (ℕ → ℕ) → ℕ → ℕ
  | 0, _, _ => 0
  | 1, n, blockIndex => shapeCode (sizeT (4 * blockIndex)) (n 0)
  | d + 2, n, blockIndex =>
    let i := sizeT (4 * (blockIndex % blockSize n 0))
    let blockIndex := blockIndex / blockSize n 0
    shapeCode i (n 0) + 4 * blockShape (d + 1) (fun a => n (a + 1)) blockIndex

def stride (n : ℕ → ℕ) (a : ℕ) : BitVec 64 := BitVec.ofNat 64 (total n a)

/-- What the loop over dimension `a` adds to the pointer, in elements. -/
def step (n : ℕ → ℕ) : ℕ → BitVec 64
  | 0 => 4
  | a + 1 => 4 * stride n a * (BitVec.ofNat 64 (n a) - BitVec.ofNat 64 (blockSize n a))

/-- The next block and the pointer of the loops, and what their bodies work on. -/
structure Walk (σ : Type) where
  state : σ
  blockIndex : ℕ
  p : BitVec 64

/-- The nested loops over the blocks with body `f`, for elements of a number of bytes. -/
def walk (f : ℕ → BitVec 64 → σ → σ) (n : ℕ → ℕ) (bytes : BitVec 64) : ℕ → Walk σ → Walk σ
  | 0, w => ⟨f w.blockIndex w.p w.state, sizeT (w.blockIndex + 1), w.p⟩
  | a + 1, w => (List.range (blockSize n a)).foldl (fun w _ =>
      let w := walk f n bytes a w
      { w with p := w.p + bytes * step n a }) w

/-- decompress array and store at p, or initialize array by copying and compressing data stored
at p, where `f` transfers one block -/
def traverse (f : ℕ → BitVec 64 → σ → σ) (n : ℕ → ℕ) (bytes : BitVec 64) (d : ℕ) (p : BitVec 64)
    (s : σ) : σ :=
  (walk f n bytes d ⟨s, 0, p⟩).state

/-! ## Indices -/

theorem blockSize_eq {n : ℕ → ℕ} {a : ℕ} (h : n a < 2 ^ 62) : blockSize n a = (n a + 3) / 4 := by
  rw [blockSize, sizeT_of_lt (by omega)]

/-- The block index is the number of the block. -/
theorem blockIndex_eq {d : ℕ} {n i : ℕ → ℕ} (hi : ∀ a < d, i a < 2 ^ 64) :
    blockIndex d n i = sizeT (rank (blockSize n) (fun a => i a / 4) d) := by
  induction d generalizing n i with
  | zero => rfl
  | succ d ih =>
    cases d with
    | zero =>
      have h0 := hi 0 (by omega)
      rw [blockIndex, rank, rank, total, Nat.zero_add, Nat.one_mul, sizeT_of_lt (by omega)]
    | succ d =>
      rw [blockIndex, ih fun a ha => hi (a + 1) (by omega), sizeT_add_mul,
        rank_succ (blockSize n) (fun a => i a / 4) (d + 1)]
      rfl

/-- The shape code of a block. -/
theorem shapeCode_block {n : ℕ → ℕ} {a x : ℕ} (hn : n a < 2 ^ 62) (hx : x < blockSize n a) :
    shapeCode (sizeT (4 * x)) (n a) = 4 - min 4 (n a - 4 * x) := by
  rw [blockSize_eq hn] at hx
  rw [sizeT_of_lt (by omega), shapeCode_eq (Nat.mul_mod_right 4 x) (by omega) hn]

/-- The elements that a block lacks along a dimension. -/
def lacking (n : ℕ → ℕ) (b a : ℕ) : ℕ := 4 - min 4 (n a - 4 * digit (blockSize n) b a)

/-- The shape is a number whose digits are the elements that the block lacks. -/
theorem blockShape_eq {d : ℕ} {n : ℕ → ℕ} (hn : ∀ a < d, n a < 2 ^ 62) {b : ℕ}
    (hb : b < total (blockSize n) d) :
    blockShape d n b = rank (fun _ => 4) (lacking n b) d := by
  induction d generalizing n b with
  | zero => rfl
  | succ d ih =>
    have h0 := hn 0 (Nat.succ_pos d)
    cases d with
    | zero =>
      rw [total, total, Nat.one_mul] at hb
      rw [blockShape, shapeCode_block h0 hb, rank_succ, rank, Nat.mul_zero, Nat.add_zero, lacking,
        digit_zero, Nat.mod_eq_of_lt hb]
    | succ d =>
      rw [total_succ] at hb
      have hpos : 0 < blockSize n 0 := Nat.pos_of_ne_zero fun h => by
        rw [h, Nat.zero_mul] at hb
        exact Nat.not_lt_zero b hb
      have htail := ih (fun a ha => hn (a + 1) (by omega)) (Nat.div_lt_of_lt_mul hb)
      rw [blockShape, shapeCode_block h0 (Nat.mod_lt b hpos), htail, rank_succ _ (lacking n b),
        lacking, digit_zero]
      congr 2
      exact rank_congr fun a _ => by rw [lacking, lacking, digit_succ]; rfl

/-! ## Boxes -/

section

variable {d : ℕ} {n : ℕ → ℕ}

theorem blockSize_pos (hn : ∀ a < d, 1 ≤ n a ∧ n a < 2 ^ 62) : ∀ a < d, 0 < blockSize n a := by
  intro a ha
  obtain ⟨h1, h2⟩ := hn a ha
  rw [blockSize_eq h2]
  omega

def InBox (d : ℕ) (n : ℕ → ℕ) (b : ℕ) (c : ℕ → ℕ) : Prop :=
  ∀ a < d, 4 * digit (blockSize n) b a ≤ c a ∧ c a < 4 * digit (blockSize n) b a + 4

theorem within_div (hn : ∀ a < d, 1 ≤ n a ∧ n a < 2 ^ 62) {c : ℕ → ℕ} (hc : Within n d c) :
    Within (blockSize n) d fun a => c a / 4 := by
  intro a ha
  have hlt := hc a ha
  show c a / 4 < blockSize n a
  rw [blockSize_eq (hn a ha).2]
  omega

/-- Every element lies in the box of the block with its index, and in no other. -/
theorem inBox_iff (hn : ∀ a < d, 1 ≤ n a ∧ n a < 2 ^ 62) (hfit : total (blockSize n) d ≤ 2 ^ 64)
    {c : ℕ → ℕ} (hc : Within n d c) :
    blockIndex d n c < total (blockSize n) d ∧
    ∀ b < total (blockSize n) d, InBox d n b c ↔ b = blockIndex d n c := by
  have hdiv := within_div hn hc
  have hlt := rank_lt hdiv
  have hindex : blockIndex d n c = rank (blockSize n) (fun a => c a / 4) d := by
    rw [blockIndex_eq fun a ha => (hc a ha).trans ((hn a ha).2.trans (by decide)),
      sizeT_of_lt (by omega)]
  rw [hindex]
  refine ⟨hlt, fun b hb => ?_⟩
  constructor
  · intro hbox
    have hdigit : ∀ a < d, digit (blockSize n) b a = c a / 4 := by
      intro a ha
      obtain ⟨hlo, hhi⟩ := hbox a ha
      omega
    rw [← rank_congr hdigit, rank_digit hb]
  · intro heq a ha
    rw [heq, digit_rank hdiv ha]
    exact ⟨Nat.mul_div_le _ _, by omega⟩

/-- The number of elements of a block along each dimension, as the codec decodes its shape. -/
def extent (d : ℕ) (n : ℕ → ℕ) (b a : ℕ) : ℕ := 4 - blockShape d n b / 4 ^ a % 4

theorem lacking_within (hn : ∀ a < d, 1 ≤ n a ∧ n a < 2 ^ 62) {b : ℕ} :
    Within (fun _ => 4) d (lacking n b) := by
  intro a ha
  have hlt := Nat.mod_lt (b / total (blockSize n) a) (blockSize_pos hn a ha)
  rw [← digit, blockSize_eq (hn a ha).2] at hlt
  show lacking n b a < 4
  rw [lacking]
  omega

theorem extent_eq (hn : ∀ a < d, 1 ≤ n a ∧ n a < 2 ^ 62) {b : ℕ}
    (hb : b < total (blockSize n) d) {a : ℕ} (ha : a < d) :
    extent d n b a = min 4 (n a - 4 * digit (blockSize n) b a) := by
  have hdigit := digit_rank (lacking_within hn (b := b)) ha
  rw [← blockShape_eq (fun a ha => (hn a ha).2) hb, digit, total_const] at hdigit
  rw [extent, hdigit, lacking]
  omega

/-- The shape is zero exactly for the blocks that lie in the array as a whole. -/
theorem blockShape_eq_zero_iff (hn : ∀ a < d, 1 ≤ n a ∧ n a < 2 ^ 62) {b : ℕ}
    (hb : b < total (blockSize n) d) :
    blockShape d n b = 0 ↔ ∀ a < d, 4 * digit (blockSize n) b a + 4 ≤ n a := by
  rw [blockShape_eq (fun a ha => (hn a ha).2) hb, rank_eq_zero_iff (lacking_within hn)]
  refine forall₂_congr fun a ha => ?_
  rw [lacking]
  omega

end

/-! ## The traversal -/

def addr (bytes p : BitVec 64) (x : ℤ) : BitVec 64 := p + bytes * BitVec.ofInt 64 x

theorem addr_zero (bytes p : BitVec 64) : addr bytes p 0 = p := by
  rw [addr, BitVec.ofInt_ofNat]
  simp

theorem addr_add (bytes p : BitVec 64) (x y : ℤ) :
    addr bytes (addr bytes p x) y = addr bytes p (x + y) := by
  rw [addr, addr, addr, BitVec.ofInt_add, BitVec.mul_add, BitVec.add_assoc]

/-- The offset of the first element of a block in the dense array. -/
def corner (n : ℕ → ℕ) (d b : ℕ) : ℤ :=
  span (fun a => total n a) d fun a => 4 * digit (blockSize n) b a

/-- What the inner loops have added to the pointer. -/
def passed (n : ℕ → ℕ) : ℕ → ℤ
  | 0 => 0
  | a + 1 => 4 * blockSize n a * total n a

section

variable (n : ℕ → ℕ)

theorem step_eq (a : ℕ) :
    ∃ x : ℤ, step n a = BitVec.ofInt 64 x ∧ passed n a + x = 4 * total n a := by
  cases a with
  | zero => exact ⟨4, rfl, rfl⟩
  | succ a =>
    refine ⟨4 * total n a * (n a - blockSize n a), ?_, ?_⟩
    · rw [step, stride, BitVec.ofInt_mul, BitVec.ofInt_mul, BitVec.ofInt_natCast, Int.sub_eq_add_neg,
        BitVec.ofInt_add, BitVec.ofInt_neg, BitVec.ofInt_natCast, BitVec.ofInt_natCast,
        BitVec.sub_eq_add_neg]
      rfl
    · rw [passed, total]
      push_cast
      ring

theorem corner_add {a m b : ℕ} (hb : b < total (blockSize n) a) (hm : m < blockSize n a) :
    corner n (a + 1) (m * total (blockSize n) a + b) = m * (4 * total n a) + corner n a b := by
  have hlow : ∀ j < a, digit (blockSize n) (m * total (blockSize n) a + b) j =
      digit (blockSize n) b j := by
    intro j hj
    rw [← digit_mod hj, Nat.mul_add_mod_self_right, digit_mod hj]
  have hhigh : digit (blockSize n) (m * total (blockSize n) a + b) a = m := by
    rw [digit, Nat.mul_comm, Nat.mul_add_div (by omega), Nat.div_eq_of_lt hb, Nat.add_zero,
      Nat.mod_eq_of_lt hm]
  rw [corner, span, hhigh, span_congr _ fun j hj => by rw [hlow j hj], corner]
  push_cast
  ring

/-- The loops transfer the blocks in the order of their indices, each at its first element. -/
theorem walk_eq (f : ℕ → BitVec 64 → σ → σ) (bytes : BitVec 64) (a : ℕ) (s : σ) (i : ℕ)
    (p : BitVec 64) :
    walk f n bytes a ⟨s, sizeT i, p⟩ =
      ⟨(List.range (total (blockSize n) a)).foldl
          (fun s b => f (sizeT (i + b)) (addr bytes p (corner n a b)) s) s,
        sizeT (i + total (blockSize n) a), addr bytes p (passed n a)⟩ := by
  induction a generalizing s i p with
  | zero =>
    have hindex := sizeT_sizeT_add i 1
    simp only [walk, total, List.range_one, List.foldl_cons, List.foldl_nil, Nat.add_zero, passed,
      corner, span, addr_zero, hindex]
  | succ a ih =>
    obtain ⟨x, hstep, hpassed⟩ := step_eq n a
    have hloop : ∀ m ≤ blockSize n a, (List.range m).foldl (fun w _ =>
          let w := walk f n bytes a w
          ({ w with p := w.p + bytes * step n a } : Walk σ)) ⟨s, sizeT i, p⟩ =
        ⟨(List.range (m * total (blockSize n) a)).foldl
            (fun s b => f (sizeT (i + b)) (addr bytes p (corner n (a + 1) b)) s) s,
          sizeT (i + m * total (blockSize n) a), addr bytes p (m * (4 * total n a))⟩ := by
      intro m hm
      induction m with
      | zero => simp [addr_zero]
      | succ m ihm =>
        have hp : addr bytes (addr bytes p (m * (4 * total n a))) (passed n a) + bytes * step n a =
            addr bytes p ((m + 1 : ℕ) * (4 * total n a)) := by
          rw [hstep, ← addr, addr_add, addr_add, hpassed]
          push_cast
          ring_nf
        rw [List.range_succ, List.foldl_append, ihm (by omega), List.foldl_cons, List.foldl_nil, ih]
        dsimp only
        rw [hp, Nat.succ_mul, List.range_add, List.foldl_append, List.foldl_map, Nat.add_assoc]
        congr 1
        refine List.foldl_ext _ _ _ fun s b hb => ?_
        rw [addr_add, corner_add n (List.mem_range.mp hb) hm, Nat.add_assoc]
    rw [walk, hloop _ (Nat.le_refl _), total, passed, Nat.mul_comm]
    congr 2
    ring

/-- Every block index comes with the address of the first element of its block. -/
theorem traverse_eq (f : ℕ → BitVec 64 → σ → σ) (bytes : BitVec 64) {d : ℕ}
    (hfit : total (blockSize n) d ≤ 2 ^ 64) (p : BitVec 64) (s : σ) :
    traverse f n bytes d p s =
      (List.range (total (blockSize n) d)).foldl (fun s b => f b (addr bytes p (corner n d b)) s)
        s := by
  have hzero : sizeT 0 = 0 := rfl
  rw [traverse, ← hzero, walk_eq]
  refine List.foldl_ext _ _ _ fun s b hb => ?_
  have hlt := List.mem_range.mp hb
  rw [Nat.zero_add, sizeT_of_lt (by omega)]

end

/-! ## The elements copied -/

/-- The loops that transfer a block at `q` add the addresses of its elements. -/
def transfer (d : ℕ) (n : ℕ → ℕ) (bytes : BitVec 64) (b : ℕ) (q : BitVec 64)
    (l : List (BitVec 64)) : List (BitVec 64) :=
  (loops (fun _ x l => l ++ [addr bytes q x]) (extent d n b) (fun a => total n a) d ⟨l, 0, 0⟩).state

def copied (d : ℕ) (n : ℕ → ℕ) (bytes p : BitVec 64) : List (BitVec 64) :=
  traverse (transfer d n bytes) n bytes d p []

def blockOffsets (d : ℕ) (n : ℕ → ℕ) (b : ℕ) : List ℤ :=
  (visits (extent d n b) (fun a => total n a) d 0 (corner n d b)).map Prod.snd

theorem foldl_append_eq {α β : Type} (g : α → List β) (l : List α) (acc : List β) :
    l.foldl (fun acc x => acc ++ g x) acc = acc ++ l.flatMap g := by
  induction l generalizing acc with
  | nil => rw [List.foldl_nil, List.flatMap_nil, List.append_nil]
  | cons x l ih => rw [List.foldl_cons, ih, List.flatMap_cons, List.append_assoc]

/-- Visits from another start. -/
theorem visits_shift (m : ℕ → ℕ) (stride : ℕ → ℤ) (d q : ℕ) (p r : ℤ) :
    (visits m stride d q (p + r)).map Prod.snd =
      (visits m stride d q r).map fun e => p + e.2 := by
  induction d generalizing q r with
  | zero => rfl
  | succ d ih =>
    rw [visits, visits, List.map_flatMap, List.map_flatMap]
    refine List.flatMap_congr fun z _ => ?_
    rw [add_assoc, ih]

/-- Loops over a box with distinct offsets visit no offset twice. -/
theorem nodup_visits {m : ℕ → ℕ} (stride : ℕ → ℤ) {d : ℕ}
    (hinj : ∀ c c', Within m d c → Within m d c' → span stride d c = span stride d c' →
      ∀ a < d, c a = c' a) (q : ℕ) (p : ℤ) :
    ((visits m stride d q p).map Prod.snd).Nodup := by
  induction d generalizing q p with
  | zero => exact List.nodup_singleton _
  | succ d ih =>
    rw [visits, List.map_flatMap, List.nodup_flatMap]
    constructor
    · intro z hz
      refine ih (fun c c' hc hc' heq a ha => ?_) _ _
      have hz' := List.mem_range.mp hz
      have hupdate := hinj _ _ (within_update hc hz') (within_update hc' hz')
        (by rw [span_update, span_update, heq]) a (by omega)
      rwa [Function.update_of_ne ha.ne, Function.update_of_ne ha.ne] at hupdate
    · refine List.Pairwise.imp_of_mem ?_ (List.nodup_range (n := m d))
      intro z z' hz hz' hne x hx hx'
      obtain ⟨e, he, rfl⟩ := List.mem_map.mp hx
      obtain ⟨e', he', heq⟩ := List.mem_map.mp hx'
      obtain ⟨c, hc, rfl⟩ := (mem_visits stride).mp he
      obtain ⟨c', hc', rfl⟩ := (mem_visits stride).mp he'
      have hspan : span stride (d + 1) (Function.update c d z) =
          span stride (d + 1) (Function.update c' d z') := by
        rw [span_update, span_update]
        dsimp only at heq
        omega
      have hlast := hinj _ _ (within_update hc (List.mem_range.mp hz))
        (within_update hc' (List.mem_range.mp hz')) hspan d (Nat.lt_succ_self d)
      rw [Function.update_self, Function.update_self] at hlast
      exact hne hlast

section

variable {d : ℕ} {n : ℕ → ℕ}

/-- The offset of an element in the dense array is its number. -/
theorem span_eq_rank (n c : ℕ → ℕ) (d : ℕ) : span (fun a => total n a) d c = rank n c d := by
  induction d with
  | zero => rfl
  | succ d ih =>
    rw [span, ih, rank, Int.natCast_add, Int.natCast_mul, mul_comm (total n d : ℤ)]

theorem copied_eq (hfit : total (blockSize n) d ≤ 2 ^ 64) (bytes p : BitVec 64) :
    copied d n bytes p =
      ((List.range (total (blockSize n) d)).flatMap (blockOffsets d n)).map (addr bytes p) := by
  have htransfer : ∀ b q l, transfer d n bytes b q l =
      l ++ (visits (extent d n b) (fun a => total n a) d 0 0).map fun e => addr bytes q e.2 := by
    intro b q l
    have hext : ∀ a < d, extent d n b a ≤ 4 := fun a _ => Nat.sub_le _ _
    rw [transfer, loops_eq _ _ hext, foldl_append_eq, ← List.map_eq_flatMap]
  rw [copied, traverse_eq n _ bytes hfit]
  simp only [htransfer]
  rw [foldl_append_eq, List.nil_append, List.map_flatMap]
  refine List.flatMap_congr fun b _ => ?_
  rw [blockOffsets, ← add_zero (corner n d b), visits_shift, List.map_map]
  refine List.map_congr_left fun e _ => ?_
  rw [add_zero, addr_add]
  rfl

def element (n : ℕ → ℕ) (b : ℕ) (x : ℕ → ℕ) (a : ℕ) : ℕ := 4 * digit (blockSize n) b a + x a

theorem mem_blockOffsets {b : ℕ} {y : ℤ} :
    y ∈ blockOffsets d n b ↔
      ∃ x, Within (extent d n b) d x ∧ y = rank n (element n b x) d := by
  have hsum : ∀ x : ℕ → ℕ, corner n d b + span (fun a => total n a) d x =
      rank n (element n b x) d := by
    intro x
    rw [corner, ← span_add, span_eq_rank]
    rfl
  rw [blockOffsets, List.mem_map]
  constructor
  · rintro ⟨e, he, rfl⟩
    obtain ⟨x, hx, rfl⟩ := (mem_visits _).mp he
    exact ⟨x, hx, hsum x⟩
  · rintro ⟨x, hx, rfl⟩
    exact ⟨_, (mem_visits _).mpr ⟨x, hx, rfl⟩, hsum x⟩

theorem element_within (hn : ∀ a < d, 1 ≤ n a ∧ n a < 2 ^ 62) {b : ℕ}
    (hb : b < total (blockSize n) d) {x : ℕ → ℕ} (hx : Within (extent d n b) d x) :
    Within n d (element n b x) ∧ ∀ a < d, element n b x a / 4 = digit (blockSize n) b a := by
  have hlt : ∀ a < d, x a < min 4 (n a - 4 * digit (blockSize n) b a) := fun a ha => by
    rw [← extent_eq hn hb ha]
    exact hx a ha
  constructor
  · intro a ha
    have h := hlt a ha
    rw [element]
    omega
  · intro a ha
    have h := hlt a ha
    rw [element]
    omega

/-- The blocks hold every element of the array once. -/
theorem perm_blockOffsets (hn : ∀ a < d, 1 ≤ n a ∧ n a < 2 ^ 62) :
    ((List.range (total (blockSize n) d)).flatMap (blockOffsets d n)).Perm
      ((List.range (total n d)).map Nat.cast) := by
  have hpos : ∀ a < d, 0 < n a := fun a ha => (hn a ha).1
  have helement : ∀ b < total (blockSize n) d, ∀ x, Within (extent d n b) d x →
      ∀ b' < total (blockSize n) d, ∀ x', Within (extent d n b') d x' →
        rank n (element n b x) d = rank n (element n b' x') d →
          ∀ a < d, element n b x a = element n b' x' a :=
    fun b hb x hx b' hb' x' hx' heq =>
      rank_inj (element_within hn hb hx).1 (element_within hn hb' hx').1 heq
  have hnodup : ((List.range (total (blockSize n) d)).flatMap (blockOffsets d n)).Nodup := by
    rw [List.nodup_flatMap]
    constructor
    · intro b hb
      refine nodup_visits _ (fun x x' hx hx' heq a ha => ?_) _ _
      have hb' := List.mem_range.mp hb
      have hrank : rank n (element n b x) d = rank n (element n b x') d := by
        have hsum := congrArg (corner n d b + ·) heq
        rw [corner, ← span_add, ← span_add, span_eq_rank, span_eq_rank] at hsum
        exact_mod_cast hsum
      have h := helement b hb' x hx b hb' x' hx' hrank a ha
      rw [element, element] at h
      omega
    · refine List.Pairwise.imp_of_mem ?_ (List.nodup_range (n := total (blockSize n) d))
      intro b b' hb hb' hne y hy hy'
      obtain ⟨x, hx, rfl⟩ := mem_blockOffsets.mp hy
      obtain ⟨x', hx', heq⟩ := mem_blockOffsets.mp hy'
      have hb := List.mem_range.mp hb
      have hb' := List.mem_range.mp hb'
      have helem := helement b hb x hx b' hb' x' hx' (by exact_mod_cast heq)
      apply hne
      rw [← rank_digit hb, ← rank_digit hb']
      apply rank_congr
      intro a ha
      rw [← (element_within hn hb hx).2 a ha, helem a ha, (element_within hn hb' hx').2 a ha]
  refine (List.perm_ext_iff_of_nodup hnodup
    (List.nodup_range.map fun _ _ h => Int.ofNat.inj h)).mpr fun y => ?_
  rw [List.mem_flatMap, List.mem_map]
  constructor
  · rintro ⟨b, hb, hy⟩
    obtain ⟨x, hx, rfl⟩ := mem_blockOffsets.mp hy
    exact ⟨_, List.mem_range.mpr (rank_lt (element_within hn (List.mem_range.mp hb) hx).1), rfl⟩
  · rintro ⟨k, hk, rfl⟩
    have hk := List.mem_range.mp hk
    have hc := digit_within hpos k
    have hdiv := within_div hn hc
    have hb := rank_lt hdiv
    have hdigit : ∀ a < d, digit (blockSize n) (rank (blockSize n) (fun a => digit n k a / 4) d) a =
        digit n k a / 4 := fun a ha => digit_rank hdiv ha
    refine ⟨_, List.mem_range.mpr hb, mem_blockOffsets.mpr ⟨fun a => digit n k a % 4, ?_, ?_⟩⟩
    · intro a ha
      have hlt := hc a ha
      show digit n k a % 4 < _
      rw [extent_eq hn hb ha, hdigit a ha]
      omega
    · rw [rank_congr fun a ha => by rw [element, hdigit a ha, Nat.div_add_mod], rank_digit hk]
      rfl

end

/-- The blocks tile an array whose number of blocks is that of values of `size_t` at most: their
shapes, their indices and the addresses they are copied at are right, and every element is copied
once. -/
theorem blocks_tile {d : ℕ} {n : ℕ → ℕ} (hn : ∀ a < d, 1 ≤ n a ∧ n a < 2 ^ 62)
    (hfit : total (blockSize n) d ≤ 2 ^ 64) :
    (∀ b < total (blockSize n) d,
      (∀ a < d, blockShape d n b / 4 ^ a % 4 = 4 - min 4 (n a - 4 * digit (blockSize n) b a)) ∧
      (blockShape d n b = 0 ↔ ∀ a < d, 4 * digit (blockSize n) b a + 4 ≤ n a)) ∧
    (∀ c, Within n d c → blockIndex d n c < total (blockSize n) d ∧
      ∀ b < total (blockSize n) d, InBox d n b c ↔ b = blockIndex d n c) ∧
    (∀ {σ : Type} (f : ℕ → BitVec 64 → σ → σ) (bytes p : BitVec 64) (s : σ),
      traverse f n bytes d p s = (List.range (total (blockSize n) d)).foldl
        (fun s b => f b (addr bytes p (rank n (fun a => 4 * digit (blockSize n) b a) d)) s) s) ∧
    ∀ bytes p, (copied d n bytes p).Perm
      ((List.range (total n d)).map fun k : ℕ => addr bytes p k) := by
  refine ⟨fun b hb => ⟨fun a ha => ?_, blockShape_eq_zero_iff hn hb⟩,
    fun c hc => inBox_iff hn hfit hc, fun f bytes p s => ?_, fun bytes p => ?_⟩
  · have hext := extent_eq hn hb ha
    have hlt := Nat.mod_lt (blockShape d n b / 4 ^ a) (show 4 > 0 by decide)
    rw [extent] at hext
    omega
  · rw [traverse_eq n f bytes hfit]
    simp only [corner, span_eq_rank]
  · rw [copied_eq hfit]
    have hperm := (perm_blockOffsets hn).map (addr bytes p)
    rwa [List.map_map] at hperm

/-- A 5 × 6 array of doubles has four blocks, one of them whole. -/
theorem blocks_tile_5x6 :
    blockShape 2 (fun a => 5 + a) 0 = 0 ∧ blockIndex 2 (fun a => 5 + a) (fun _ => 4) = 3 ∧
    (copied 2 (fun a => 5 + a) 8 0x1000).Perm
      ((List.range 30).map fun k : ℕ => addr 8 0x1000 k) := by
  have hn : ∀ a < 2, 1 ≤ 5 + a ∧ 5 + a < 2 ^ 62 := fun a ha => ⟨by omega, by omega⟩
  obtain ⟨-, -, -, hcopied⟩ := blocks_tile (d := 2) (n := fun a => 5 + a) hn (by decide)
  exact ⟨by decide, by decide, hcopied 8 0x1000⟩

/-- The index of a block of an array of 2^66 blocks wraps. -/
theorem blockIndex_wraps :
    ¬ ∀ (d : ℕ) (n : ℕ → ℕ), (∀ a < d, 1 ≤ n a ∧ n a < 2 ^ 62) → ∀ c c', Within n d c →
      Within n d c' → blockIndex d n c = blockIndex d n c' → ∀ a < d, c a / 4 = c' a / 4 := by
  intro h
  have hc : Within (fun _ => 2 ^ 35) 2 fun _ => 0 := fun _ _ => Nat.two_pow_pos 35
  have hc' : Within (fun _ => 2 ^ 35) 2 fun a => if a = 1 then 2 ^ 33 else 0 := by
    intro a _
    show (if a = 1 then 2 ^ 33 else 0) < 2 ^ 35
    split <;> decide
  have hsame := h 2 _ (fun a _ => ⟨Nat.two_pow_pos 35, by decide⟩) _ _ hc hc' (by decide) 1
    (by decide)
  exact absurd hsame (by decide)

end ArrayBlocks

end Zfp

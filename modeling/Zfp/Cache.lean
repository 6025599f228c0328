import Mathlib.Data.BitVec
import Mathlib.Logic.Function.Basic

/-!
# The write-back cache

Tags, look-up and replacement of the cache of decompressed blocks, in its direct-mapped and in its
two-way skew-associative organisation. A pointer to a line is the index of its slot.
-/

namespace Zfp

/-- A cache tag: the line index (zero is reserved for unused lines) above the dirty bit. -/
structure Tag where
  x : BitVec 32
  deriving DecidableEq

namespace Tag

def make (x : BitVec 32) (d : Bool) : Tag := ⟨2 * x + (BitVec.ofBool d).setWidth 32⟩

def index (t : Tag) : BitVec 32 := t.x >>> 1

def dirty (t : Tag) : Bool := t.x &&& 1 ≠ 0

def used (t : Tag) : Bool := t.x ≠ 0

def mark (t : Tag) : Tag := ⟨t.x ||| 1⟩

def unused : Tag := ⟨0⟩

theorem toNat_index (t : Tag) : t.index.toNat = t.x.toNat / 2 := by
  rw [index, BitVec.toNat_ushiftRight, Nat.shiftRight_eq_div_pow]

theorem and_one_eq (x : BitVec 32) : (x &&& 1).toNat = x.toNat % 2 := by
  have hone : (1 : BitVec 32).toNat = 2 ^ 1 - 1 := rfl
  rw [BitVec.toNat_and, hone, Nat.and_two_pow_sub_one_eq_mod]

theorem dirty_iff (t : Tag) : t.dirty = true ↔ t.x.toNat % 2 = 1 := by
  have hmod := Nat.mod_two_eq_zero_or_one t.x.toNat
  rw [dirty, decide_eq_true_eq, Ne, ← BitVec.toNat_inj, and_one_eq]
  change ¬ _ = 0 ↔ _
  omega

theorem toNat_mark (t : Tag) : t.mark.x.toNat = t.x.toNat / 2 * 2 + 1 := by
  have hone : (1 : BitVec 32).toNat = 1 := rfl
  rw [mark, BitVec.toNat_or, hone]
  have hodd : t.x.toNat ||| 1 = 2 ^ 1 * (t.x.toNat / 2) + 1 := by
    have h := Nat.div_add_mod t.x.toNat 2
    have hor := Nat.two_pow_add_eq_or_of_lt (i := 1) (b := 1) (by decide) (t.x.toNat / 2)
    rw [hor]
    apply Nat.eq_of_testBit_eq
    intro j
    rw [Nat.testBit_or, Nat.testBit_or]
    cases j with
    | zero => simp
    | succ j => simp [Nat.testBit_succ]
  rw [hodd]
  omega

@[simp] theorem index_mark (t : Tag) : t.mark.index = t.index := by
  apply BitVec.eq_of_toNat_eq
  rw [toNat_index, toNat_index, toNat_mark]
  omega

@[simp] theorem dirty_mark (t : Tag) : t.mark.dirty = true := by
  rw [dirty_iff, toNat_mark]
  omega

theorem toNat_make {x : BitVec 32} (hx : x.toNat < 2 ^ 31) (d : Bool) :
    (make x d).x.toNat = 2 * x.toNat + d.toNat := by
  have htwo : (2 : BitVec 32).toNat = 2 := rfl
  have hd := Bool.toNat_lt d
  rw [make, BitVec.toNat_add, BitVec.toNat_mul, BitVec.toNat_setWidth, BitVec.toNat_ofBool, htwo]
  omega

theorem index_make {x : BitVec 32} (hx : x.toNat < 2 ^ 31) (d : Bool) : (make x d).index = x := by
  have hd := Bool.toNat_lt d
  apply BitVec.eq_of_toNat_eq
  rw [toNat_index, toNat_make hx]
  omega

theorem dirty_make {x : BitVec 32} (hx : x.toNat < 2 ^ 31) (d : Bool) : (make x d).dirty = d := by
  rw [Bool.eq_iff_iff, dirty_iff, toNat_make hx]
  cases d <;> simp

/-- A line whose index is not the reserved one is in use. -/
theorem used_of_index {t : Tag} (h : t.index ≠ 0) : t.used = true := by
  rw [used, decide_eq_true_eq]
  intro hx
  apply h
  rw [index, hx]
  rfl

@[simp] theorem used_unused : unused.used = false := rfl

@[simp] theorem index_unused : unused.index = 0 := rfl

end Tag

/-- How the cache was built: with one or with two possible slots for each line, and with which
hash for the second one. -/
structure CacheConfig where
  twoway : Bool
  fastHash : Bool

/-- With the largest mask the loop that clears the tags has no end, so that there is no such
cache. -/
@[ext] structure Cache (Line : Type) where
  mask : BitVec 32
  mask_ne : mask ≠ BitVec.allOnes 32
  tag : ℕ → Tag
  line : ℕ → Line

namespace Cache

variable {Line : Type} (cfg : CacheConfig)

def primary (c : Cache Line) (x : BitVec 32) : ℕ := (x &&& c.mask).toNat

def secondary (c : Cache Line) (x : BitVec 32) : ℕ :=
  let x :=
    if cfg.fastHash then
      -- max entropy hash for 26- to 16-bit mapping (not full avalanche)
      let x := x - x <<< 7
      let x := x ^^^ x >>> 16
      x - x <<< 3
    else
      -- Jenkins hash
      let x := x - x <<< 6
      let x := x ^^^ x >>> 17
      let x := x - x <<< 9
      let x := x ^^^ x <<< 4
      let x := x - x <<< 3
      let x := x ^^^ x <<< 10
      x ^^^ x >>> 15
  (x &&& c.mask).toNat

/-- The cache with the line in slot `i` marked as dirty. -/
def markSlot (c : Cache Line) (i : ℕ) : Cache Line :=
  { c with tag := Function.update c.tag i (c.tag i).mark }

@[simp] theorem tag_markSlot (c : Cache Line) (i : ℕ) : (c.markSlot i).tag i = (c.tag i).mark :=
  Function.update_self _ _ _

theorem tag_markSlot_of_ne (c : Cache Line) {i j : ℕ} (h : j ≠ i) :
    (c.markSlot i).tag j = c.tag j := Function.update_of_ne h _ _

def lookup (c : Cache Line) (x : BitVec 32) (write : Bool) : Option ℕ × Cache Line :=
  let i := c.primary x
  if (c.tag i).index = x then (some i, if write then c.markSlot i else c)
  else if cfg.twoway then
    let j := c.secondary cfg x
    -- the tag of the primary slot is marked here
    if (c.tag j).index = x then (some j, if write then c.markSlot i else c)
    else (none, c)
  else (none, c)

/-- The slot to be replaced: prefer primary and not dirty slots. -/
def victim (c : Cache Line) (x : BitVec 32) : ℕ :=
  let i := c.primary x
  if cfg.twoway then
    let j := c.secondary cfg x
    if (c.tag j).used ∧ (¬ (c.tag i).dirty ∨ (c.tag j).dirty) then i else j
  else i

/-- look up cache line #x and return a pointer to where x is or should be stored; if the returned
tag does not match x, then the caller must implement write-back and then fetch the line -/
def access (c : Cache Line) (x : BitVec 32) (write : Bool) : ℕ × Tag × Cache Line :=
  let i := c.primary x
  let j := c.secondary cfg x
  let hit := fun k =>
    let c := if write then c.markSlot k else c
    (k, c.tag k, c)
  if (c.tag i).index = x then hit i
  else if cfg.twoway ∧ (c.tag j).index = x then hit j
  else
    let k := c.victim cfg x
    (k, c.tag k, { c with tag := Function.update c.tag k (Tag.make x write) })

def clear (c : Cache Line) : Cache Line :=
  { c with tag := fun i => if i ≤ c.mask.toNat then Tag.unused else c.tag i }

theorem tag_clear (c : Cache Line) {k : ℕ} (hk : k ≤ c.mask.toNat) : c.clear.tag k = Tag.unused :=
  if_pos hk

def flushLine (c : Cache Line) (i : ℕ) : Cache Line :=
  { c with tag := Function.update c.tag i Tag.unused }

theorem lt_or_succ (mask : BitVec 32) (h : mask &&& (mask + 1) ≠ 0) :
    mask.toNat < (mask ||| (mask + 1)).toNat := by
  have hne : mask.toNat + 1 < 2 ^ 32 := by
    by_contra hge
    have hlt := mask.isLt
    have hz : mask + 1 = 0 := by
      apply BitVec.eq_of_toNat_eq
      rw [BitVec.toNat_add]
      change (mask.toNat + 1) % 2 ^ 32 = 0
      omega
    rw [hz] at h
    exact h (BitVec.and_zero)
  have hsucc : (mask + 1).toNat = mask.toNat + 1 := by
    rw [BitVec.toNat_add]
    exact Nat.mod_eq_of_lt hne
  have hle : (mask + 1).toNat ≤ (mask ||| (mask + 1)).toNat := by
    rw [BitVec.toNat_or]
    exact Nat.right_le_or
  omega

/-- compute smallest value of mask such that mask + 1 = 2^k >= minsize -/
def growMask (mask : BitVec 32) : BitVec 32 :=
  if mask &&& (mask + 1) ≠ 0 then growMask (mask ||| (mask + 1)) else mask
termination_by 2 ^ 32 - mask.toNat
decreasing_by
  have hlt := lt_or_succ mask (by assumption)
  have := (mask ||| (mask + 1)).isLt
  omega

theorem growMask_eq_allOnes_iff (mask : BitVec 32) :
    growMask mask = BitVec.allOnes 32 ↔ 2 ^ 31 ≤ mask.toNat := by
  induction mask using growMask.induct with
  | case1 mask hne ih =>
    rw [growMask, if_pos hne, ih, BitVec.toNat_or]
    constructor
    · intro hor
      by_contra hlt
      have hsucc : (mask + 1).toNat = mask.toNat + 1 := by
        rw [BitVec.toNat_add]
        exact Nat.mod_eq_of_lt (show mask.toNat + 1 < 2 ^ 32 by omega)
      rcases eq_or_ne (mask.toNat + 1) (2 ^ 31) with heq | hsmall
      · apply hne
        have hmask : mask = 2 ^ 31 - 1 := BitVec.eq_of_toNat_eq (show mask.toNat = 2 ^ 31 - 1 by omega)
        rw [hmask]
        rfl
      · have hlt' := Nat.or_lt_two_pow (show mask.toNat < 2 ^ 31 by omega)
          (show (mask + 1).toNat < 2 ^ 31 by omega)
        omega
    · exact fun hle => hle.trans Nat.left_le_or
  | case2 mask hzero =>
    rw [growMask, if_neg hzero]
    constructor
    · rintro rfl
      decide
    · intro hle
      by_contra hne
      have hlast : mask.toNat ≠ 2 ^ 32 - 1 := fun h => hne (BitVec.eq_of_toNat_eq h)
      have hsucc : (mask + 1).toNat = mask.toNat + 1 := by
        rw [BitVec.toNat_add]
        have := mask.isLt
        exact Nat.mod_eq_of_lt (show mask.toNat + 1 < 2 ^ 32 by omega)
      -- the highest bits of both are set
      have hmsb : (mask &&& (mask + 1)).msb = true := by
        rw [BitVec.msb_and, BitVec.msb_eq_decide, BitVec.msb_eq_decide, hsucc]
        simp
        omega
      rw [not_not.mp hzero] at hmsb
      cases hmsb

def sizeMask (minsize : BitVec 32) : BitVec 32 := growMask (if minsize ≠ 0 then minsize - 1 else 1)

theorem sizeMask_eq_allOnes_iff (n : BitVec 32) :
    sizeMask n = BitVec.allOnes 32 ↔ 2 ^ 31 < n.toNat := by
  have hone : (1 : BitVec 32).toNat = 1 := rfl
  rw [sizeMask, growMask_eq_allOnes_iff]
  split_ifs with hn
  · have hpos : n.toNat ≠ 0 := fun h => hn (BitVec.eq_of_toNat_eq h)
    rw [BitVec.toNat_sub, hone]
    omega
  · rw [not_not.mp hn]
    decide

/-- change cache size to at least minsize lines (all contents will be lost); the memory allocated
for the lines holds `fresh`. With the largest mask `i <= mask` is true of every tag index, and
clearing the cache does not return. -/
def resize (c : Cache Line) (minsize : BitVec 32) (fresh : ℕ → Line) : Option (Cache Line) :=
  if hmask : sizeMask minsize ≠ BitVec.allOnes 32 then
    some (clear { c with mask := sizeMask minsize, mask_ne := hmask, line := fresh })
  else none

/-- allocate cache with at least minsize lines -/
def new (minsize : BitVec 32) (fresh : ℕ → Line) : Option (Cache Line) :=
  resize ⟨0, by decide, fun _ => Tag.unused, fresh⟩ minsize fresh

theorem resize_eq (c : Cache Line) {n mask : BitVec 32} (h : sizeMask n = mask)
    (hmask : mask ≠ BitVec.allOnes 32) (fresh : ℕ → Line) :
    c.resize n fresh = some (clear ⟨mask, hmask, c.tag, fresh⟩) := by
  subst h
  exact dif_pos hmask

/-- A cache of more than 2^31 lines cannot be had. -/
theorem isSome_resize (c : Cache Line) (n : BitVec 32) (fresh : ℕ → Line) :
    (c.resize n fresh).isSome ↔ n.toNat ≤ 2 ^ 31 := by
  have hmask := sizeMask_eq_allOnes_iff n
  rw [resize]
  split_ifs with h
  · have hle := mt hmask.mpr h
    simp only [Option.isSome_some, true_iff]
    omega
  · have hlt := hmask.mp (not_not.mp h)
    simp only [Option.isSome_none, Bool.false_eq_true, false_iff]
    omega

/-- A cache whose lines have just been allocated uses none of them. -/
theorem tag_resize {c c' : Cache Line} {n : BitVec 32} {fresh : ℕ → Line}
    (h : c.resize n fresh = some c') {k : ℕ} (hk : k ≤ c'.mask.toNat) : c'.tag k = Tag.unused := by
  rw [resize] at h
  split_ifs at h
  · obtain rfl := Option.some.inj h
    exact tag_clear _ hk

def setLine (c : Cache Line) (k : ℕ) (a : Line) : Cache Line :=
  { c with line := Function.update c.line k a }

/-! ## Hits and misses -/

def Home (c : Cache Line) (x : BitVec 32) (k : ℕ) : Prop :=
  k = c.primary x ∨ cfg.twoway = true ∧ k = c.secondary cfg x

theorem and_le (x m : BitVec 32) : (x &&& m).toNat ≤ m.toNat := by
  rw [BitVec.toNat_and]
  exact Nat.and_le_right

theorem Home.le {c : Cache Line} {x : BitVec 32} {k : ℕ} (h : c.Home cfg x k) :
    k ≤ c.mask.toNat := by
  rcases h with rfl | ⟨_, rfl⟩
  · exact and_le _ _
  · exact and_le _ _

theorem home_victim (c : Cache Line) (x : BitVec 32) : c.Home cfg x (c.victim cfg x) := by
  rw [victim]
  rcases hcfg : cfg.twoway with _ | _
  · exact Or.inl rfl
  · simp only [if_true]
    split_ifs
    · exact Or.inl rfl
    · exact Or.inr ⟨hcfg, rfl⟩

/-- An access finds the line in one of its slots and marks this slot on write, or it replaces the
tag of one of the slots of a line that is in none of them. -/
theorem access_cases (c : Cache Line) (x : BitVec 32) (write : Bool) :
    (∃ k, c.Home cfg x k ∧ (c.tag k).index = x ∧
      c.access cfg x write = (k, ((if write then c.markSlot k else c).tag k),
        if write then c.markSlot k else c)) ∨
    (∃ k, c.Home cfg x k ∧ (∀ i, c.Home cfg x i → (c.tag i).index ≠ x) ∧
      c.access cfg x write =
        (k, c.tag k, { c with tag := Function.update c.tag k (Tag.make x write) })) := by
  rcases eq_or_ne (c.tag (c.primary x)).index x with hi | hi
  · left
    refine ⟨c.primary x, Or.inl rfl, hi, ?_⟩
    simp only [access, if_pos hi]
  · by_cases hj : cfg.twoway = true ∧ (c.tag (c.secondary cfg x)).index = x
    · left
      refine ⟨c.secondary cfg x, Or.inr ⟨hj.1, rfl⟩, hj.2, ?_⟩
      simp only [access, if_neg hi, if_pos hj]
    · right
      refine ⟨c.victim cfg x, home_victim cfg c x, ?_, ?_⟩
      · rintro i (rfl | ⟨hcfg, rfl⟩)
        · exact hi
        · intro h
          exact hj ⟨hcfg, h⟩
      · simp only [access, if_neg hi, if_neg hj]

/-- The line is in its secondary slot, where a look-up marks the tag of the primary one. -/
def SecondaryHit (c : Cache Line) (x : BitVec 32) : Prop :=
  cfg.twoway = true ∧ (c.tag (c.primary x)).index ≠ x ∧ (c.tag (c.secondary cfg x)).index = x

/-- A look-up for writing may mark the primary slot in the place of the secondary one: the line is
not in its secondary slot, or both tags are marked already. -/
def MarkSafe (c : Cache Line) (x : BitVec 32) : Prop :=
  c.SecondaryHit cfg x →
    (c.tag (c.primary x)).dirty = true ∧ (c.tag (c.secondary cfg x)).dirty = true

/-- Without a second slot a look-up marks the slot it returns. -/
theorem markSafe_of_direct (c : Cache Line) (x : BitVec 32) (h : cfg.twoway = false) :
    c.MarkSafe cfg x := by
  rintro ⟨htwo, _⟩
  rw [h] at htwo
  cases htwo

theorem markSlot_of_dirty {c : Cache Line} {k : ℕ} (h : (c.tag k).dirty = true) :
    c.markSlot k = c := by
  have hmark : (c.tag k).mark = c.tag k := by
    have hodd := (Tag.dirty_iff _).mp h
    have hx : (c.tag k).mark.x = (c.tag k).x := by
      apply BitVec.eq_of_toNat_eq
      rw [Tag.toNat_mark]
      omega
    rcases htag : c.tag k with ⟨x⟩
    rw [htag] at hx
    exact congrArg Tag.mk hx
  apply Cache.ext
  · rfl
  · change Function.update c.tag k (c.tag k).mark = c.tag
    rw [hmark, Function.update_eq_self]
  · rfl

/-- A look-up finds the line in one of its slots, or the line is in none of them. -/
theorem lookup_cases (c : Cache Line) (x : BitVec 32) (write : Bool)
    (hsafe : write = true → c.MarkSafe cfg x) :
    (∃ k, c.Home cfg x k ∧ (c.tag k).index = x ∧
      c.lookup cfg x write = (some k, if write then c.markSlot k else c)) ∨
    (∀ i, c.Home cfg x i → (c.tag i).index ≠ x) ∧ c.lookup cfg x write = (none, c) := by
  rcases eq_or_ne (c.tag (c.primary x)).index x with hi | hi
  · left
    refine ⟨c.primary x, Or.inl rfl, hi, ?_⟩
    simp only [lookup, if_pos hi]
  · rcases htwo : cfg.twoway with _ | _
    · right
      refine ⟨?_, ?_⟩
      · rintro i (rfl | ⟨hcfg, rfl⟩)
        · exact hi
        · rw [htwo] at hcfg
          cases hcfg
      · simp [lookup, if_neg hi, htwo]
    · rcases eq_or_ne (c.tag (c.secondary cfg x)).index x with hj | hj
      · left
        refine ⟨c.secondary cfg x, Or.inr ⟨htwo, rfl⟩, hj, ?_⟩
        simp only [lookup, if_neg hi, htwo, if_true, if_pos hj]
        cases write with
        | false => rfl
        | true =>
          obtain ⟨hdi, hdj⟩ := hsafe rfl ⟨htwo, hi, hj⟩
          simp only [if_true, markSlot_of_dirty hdi, markSlot_of_dirty hdj]
      · right
        refine ⟨?_, ?_⟩
        · rintro i (rfl | ⟨_, rfl⟩)
          · exact hi
          · exact hj
        · simp only [lookup, if_neg hi, htwo, if_true, if_neg hj]

/-- A look-up for writing marks the slot that it returns, and no other, just in case it is safe. -/
theorem lookup_marks_iff (c : Cache Line) (x : BitVec 32) :
    (∀ p, (c.lookup cfg x true).1 = some p → (c.lookup cfg x true).2 = c.markSlot p) ↔
      c.MarkSafe cfg x := by
  constructor
  · rintro h ⟨htwo, hi, hj⟩
    have hlookup : c.lookup cfg x true = (some (c.secondary cfg x), c.markSlot (c.primary x)) := by
      simp only [lookup, if_neg hi, htwo, if_true, if_pos hj]
    have hmark : c.markSlot (c.primary x) = c.markSlot (c.secondary cfg x) := by
      have hreturned := h (c.secondary cfg x) (by rw [hlookup])
      rwa [hlookup] at hreturned
    have hne : c.primary x ≠ c.secondary cfg x := by
      intro heq
      rw [heq] at hi
      exact hi hj
    constructor
    · rw [← tag_markSlot_of_ne c hne, ← hmark, tag_markSlot, Tag.dirty_mark]
    · rw [← tag_markSlot_of_ne c hne.symm, hmark, tag_markSlot, Tag.dirty_mark]
  · intro hsafe p hp
    rcases c.lookup_cases cfg x true (fun _ => hsafe) with ⟨k, _, _, hlookup⟩ | ⟨_, hlookup⟩
    · rw [hlookup] at hp ⊢
      rw [← Option.some.inj hp]
      rfl
    · rw [hlookup] at hp
      cases hp

end Cache

end Zfp

import Zfp.Hybrid4
import Zfp.Hybrid8

/-!
# Block indices

The index classes that a block store may be built over, with the operations that it uses. A
sequential build reports the sums of the sizes, whatever the class; the implicit index does so for
blocks of the one size that it was told.
-/

namespace Zfp

/-- What a block store uses of its index class. -/
structure IndexOps (I : Type) where
  hasVariableRate : Bool
  /-- The constructor; memory that it does not initialise is taken from `garbage`. -/
  new (garbage : I) (blocks : ℕ) : I
  resize : I → ℕ → I
  /-- range of offsets spanned by indexed data in bits -/
  range : I → U64
  blockOffset : I → ℕ → U64
  clear : I → I
  flush : I → Except String I
  /-- set bit size of all blocks -/
  setAllSizes : I → U64 → Except String I
  /-- set bit size of given block -/
  setBlockSize : I → ℕ → U64 → Except String I

/-- `while (block < blocks) set_block_size(block, size)`; there are at most `blocks` passes. -/
def fillLoop {I : Type} (block blocks : I → ℕ) (set : I → ℕ → Except String I) :
    ℕ → I → Except String I
  | 0, s => .ok s
  | fuel + 1, s =>
    if block s < blocks s then set s (block s) >>= fillLoop block blocks set fuel else .ok s

structure Implicit where
  blocks : ℕ
  bitsPerBlock : U64

def Index.implicit : IndexOps Implicit where
  hasVariableRate := false
  new _ blocks := ⟨blocks, 0⟩
  resize s blocks := { s with blocks := blocks }
  range s := BitVec.ofNat 64 s.blocks * s.bitsPerBlock
  blockOffset s blockIndex := BitVec.ofNat 64 blockIndex * s.bitsPerBlock
  clear s := s
  flush s := .ok s
  setAllSizes s size := .ok { s with bitsPerBlock := size }
  -- ignored for performance reasons
  setBlockSize s _ _ := .ok s

structure Verbatim where
  data : ℕ → U64
  blocks : ℕ
  block : ℕ

namespace Verbatim

def clear (s : Verbatim) : Verbatim := { s with block := 0 }

def resize (s : Verbatim) (blocks : ℕ) : Verbatim :=
  clear { s with blocks := blocks, data := Function.update s.data 0 0 }

def setBlockSize (s : Verbatim) (blockIndex : ℕ) (size : U64) : Except String Verbatim :=
  if blockIndex ≠ s.block then .error "zfp index supports only sequential build"
  else if s.block = s.blocks then .error "zfp index overflow"
  else .ok { s with
    data := Function.update s.data (s.block + 1) (s.data s.block + size)
    block := s.block + 1 }

def setAllSizes (s : Verbatim) (size : U64) : Except String Verbatim :=
  (fillLoop block blocks (fun s i => s.setBlockSize i size) s.blocks s.clear).map clear

end Verbatim

def Index.verbatim : IndexOps Verbatim where
  hasVariableRate := true
  new garbage blocks := garbage.resize blocks
  resize := Verbatim.resize
  range s := s.data s.blocks
  blockOffset s blockIndex := s.data blockIndex
  clear := Verbatim.clear
  flush s := .ok s
  setAllSizes := Verbatim.setAllSizes
  setBlockSize := Verbatim.setBlockSize

namespace ChunkCodec

variable {R : Type} (C : ChunkCodec R)

def setAllSizes (s : HybridIndex R) (size : U64) : Except String (HybridIndex R) :=
  (fillLoop HybridIndex.block HybridIndex.blocks (fun s i => C.setBlockSize s i size) s.blocks
    s.clear >>= C.flush).map HybridIndex.clear

def indexOps : IndexOps (HybridIndex R) where
  hasVariableRate := true
  new garbage blocks := .resize garbage.data garbage.buffer blocks
  resize s blocks := .resize s.data s.buffer blocks
  range := HybridIndex.range
  blockOffset := C.blockOffset
  clear := HybridIndex.clear
  flush := C.flush
  setAllSizes := C.setAllSizes
  setBlockSize := C.setBlockSize

end ChunkCodec

/-- The calls `set_block_size(0, sizes(0))`, …, `set_block_size(n - 1, sizes(n - 1))`. -/
def IndexOps.setSizes {I : Type} (X : IndexOps I) (s : I) (sizes : ℕ → U64) : ℕ → Except String I
  | 0 => .ok s
  | n + 1 => X.setSizes s sizes n >>= fun t => X.setBlockSize t n (sizes n)

/-! ## What an index stands for -/

/-- The number of blocks, the size that all blocks have where the index relies on one, the states
that an index can be in and those that a build starts from, and the sizes that an index stores. -/
structure IndexView (I : Type) where
  blocks : I → ℕ
  fixed : I → Option U64
  Valid : I → Prop
  Fresh : I → Prop
  Admissible : (ℕ → U64) → ℕ → Prop

section

variable {I : Type}

/-- A step that changes the offsets only. -/
structure IndexView.Keeps (V : IndexView I) (s t : I) : Prop where
  valid : V.Valid s → V.Valid t
  blocks : V.blocks t = V.blocks s
  fixed : V.fixed t = V.fixed s

theorem IndexView.Keeps.trans {V : IndexView I} {s t u : I} (h : V.Keeps s t) (h' : V.Keeps t u) :
    V.Keeps s u :=
  ⟨h'.valid ∘ h.valid, h'.blocks.trans h.blocks, h'.fixed.trans h.fixed⟩

/-- The sizes agree with the one that the index relies on. -/
def IndexView.Agrees (V : IndexView I) (s : I) (sizes : ℕ → U64) : Prop :=
  ∀ b, V.fixed s = some b → ∀ i < V.blocks s, sizes i = b

structure IndexSpec (X : IndexOps I) (V : IndexView I) : Prop where
  new (garbage : I) (n : ℕ) : V.Valid (X.new garbage n)
  resize (s : I) (n : ℕ) : V.Valid (X.resize s n) ∧ V.blocks (X.resize s n) = n
  fixed_isSome (s : I) : (V.fixed s).isSome = !X.hasVariableRate
  valid_of_fresh {s : I} : V.Fresh s → V.Valid s
  clear (s : I) : V.Keeps s (X.clear s)
  fresh_clear {s : I} : V.Valid s → V.Fresh (X.clear s)
  flush {s t : I} : X.flush s = .ok t → V.Keeps s t
  setBlockSize {s t : I} {i : ℕ} {size : U64} : X.setBlockSize s i size = .ok t → V.Keeps s t
  setAllSizes {s t : I} {size : U64} : X.setAllSizes s size = .ok t → V.Valid s →
    V.Fresh t ∧ V.blocks t = V.blocks s ∧ ∀ b, V.fixed t = some b → b = size
  setAllSizes_total {s : I} {size : U64} : V.Valid s → V.Admissible (fun _ => size) (V.blocks s) →
    ∃ t, X.setAllSizes s size = .ok t
  /-- The next block starts at the sum of the sizes. -/
  build {s t : I} {sizes : ℕ → U64} {n : ℕ} : V.Fresh s → V.Agrees s sizes → n < V.blocks s →
    X.setSizes s sizes n = .ok t → X.blockOffset t n = offsetOf sizes n
  /-- After a build the index reports all sums. -/
  built {s t u : I} {sizes : ℕ → U64} : V.Fresh s → V.Agrees s sizes →
    X.setSizes s sizes (V.blocks s) = .ok t → X.flush t = .ok u →
      (∀ i < V.blocks s, X.blockOffset u i = offsetOf sizes i) ∧
        X.range u = offsetOf sizes (V.blocks s)
  total {s : I} {sizes : ℕ → U64} : V.Fresh s → V.Admissible sizes (V.blocks s) →
    ∃ t u, X.setSizes s sizes (V.blocks s) = .ok t ∧ X.flush t = .ok u

end

/-! ## The implicit index -/

def implicitView : IndexView Implicit where
  blocks := Implicit.blocks
  fixed s := some s.bitsPerBlock
  Valid _ := True
  Fresh _ := True
  Admissible _ _ := True

theorem implicit_setSizes (s : Implicit) (sizes : ℕ → U64) (n : ℕ) :
    Index.implicit.setSizes s sizes n = .ok s := by
  induction n with
  | zero => rfl
  | succ n ih =>
    rw [IndexOps.setSizes, ih]
    rfl

theorem implicit_blockOffset {s : Implicit} {sizes : ℕ → U64} {n : ℕ} (hn : n ≤ s.blocks)
    (h : implicitView.Agrees s sizes) : Index.implicit.blockOffset s n = offsetOf sizes n := by
  have hsizes : ∀ i < n, sizes i = s.bitsPerBlock := fun i hi =>
    h _ rfl i (hi.trans_le hn)
  rw [offsetOf_congr hsizes, offsetOf, Finset.sum_const, Finset.card_range, nsmul_eq_mul]
  rfl

theorem implicit_spec : IndexSpec Index.implicit implicitView where
  new _ _ := trivial
  resize _ _ := ⟨trivial, rfl⟩
  fixed_isSome _ := rfl
  valid_of_fresh _ := trivial
  clear _ := ⟨id, rfl, rfl⟩
  fresh_clear _ := trivial
  flush h := by
    cases h
    exact ⟨id, rfl, rfl⟩
  setBlockSize h := by
    cases h
    exact ⟨id, rfl, rfl⟩
  setAllSizes h _ := by
    cases h
    exact ⟨trivial, rfl, fun _ hb => (Option.some.inj hb).symm⟩
  setAllSizes_total _ _ := ⟨_, rfl⟩
  build _ hagree hn h := by
    rw [implicit_setSizes] at h
    cases h
    exact implicit_blockOffset hn.le hagree
  built {s t u sizes} _ hagree h hflush := by
    rw [implicit_setSizes] at h
    cases h
    cases hflush
    exact ⟨fun i hi => implicit_blockOffset (Nat.le_of_lt hi) hagree,
      implicit_blockOffset (Nat.le_refl s.blocks) hagree⟩
  total {s sizes} _ _ := ⟨s, s, implicit_setSizes s sizes _, rfl⟩

/-! ## The verbatim index -/

theorem bind_eq_ok_iff {ε α β : Type} (x : Except ε α) (f : α → Except ε β) (c : β) :
    x >>= f = .ok c ↔ ∃ a, x = .ok a ∧ f a = .ok c := by
  constructor
  · intro h
    rcases x with e | a
    · nomatch h
    · exact ⟨a, rfl, h⟩
  · rintro ⟨a, rfl, h⟩
    exact h

theorem map_eq_ok_iff {ε α β : Type} (x : Except ε α) (f : α → β) (c : β) :
    x.map f = .ok c ↔ ∃ a, x = .ok a ∧ f a = c := by
  constructor
  · intro h
    rcases x with e | a
    · nomatch h
    · exact ⟨a, rfl, Except.ok.inj h⟩
  · rintro ⟨a, rfl, rfl⟩
    rfl

/-- What every call of the loop keeps, the loop keeps. -/
theorem fillLoop_keeps {I : Type} {block blocks : I → ℕ} {set : I → ℕ → Except String I}
    {P : I → Prop} (hset : ∀ s i t, set s i = .ok t → P s → P t) {fuel : ℕ} {s t : I}
    (h : fillLoop block blocks set fuel s = .ok t) (hs : P s) : P t := by
  induction fuel generalizing s with
  | zero =>
    cases h
    exact hs
  | succ fuel ih =>
    rw [fillLoop] at h
    split at h
    · obtain ⟨u, hu, hrest⟩ := (bind_eq_ok_iff _ _ _).mp h
      exact ih hrest (hset s _ u hu hs)
    · cases h
      exact hs

theorem setSizes_ok_of_le {I : Type} {X : IndexOps I} {s v : I} {sizes : ℕ → U64} {m n : ℕ}
    (h : X.setSizes s sizes n = .ok v) (hm : m ≤ n) : ∃ t, X.setSizes s sizes m = .ok t := by
  induction n generalizing v with
  | zero =>
    obtain rfl : m = 0 := by omega
    exact ⟨v, h⟩
  | succ n ih =>
    rcases Nat.lt_or_eq_of_le hm with hlt | rfl
    · obtain ⟨u, hu, -⟩ := (bind_eq_ok_iff _ _ _).mp h
      exact ih hu (by omega)
    · exact ⟨v, h⟩

/-- The loop makes the calls of a sequential build with equal sizes. -/
theorem fillLoop_eq_setSizes {I : Type} {X : IndexOps I} (block blocks : I → ℕ) {size : U64}
    (hset : ∀ s i t, X.setBlockSize s i size = .ok t → block t = block s + 1 ∧ blocks t = blocks s)
    {s v : I} (hs : block s = 0) (h : X.setSizes s (fun _ => size) (blocks s) = .ok v) :
    fillLoop block blocks (fun s i => X.setBlockSize s i size) (blocks s) s = .ok v := by
  have hcount : ∀ i t, X.setSizes s (fun _ => size) i = .ok t →
      block t = i ∧ blocks t = blocks s := by
    intro i
    induction i with
    | zero =>
      intro t ht
      cases ht
      exact ⟨hs, rfl⟩
    | succ i ih =>
      intro t ht
      obtain ⟨u, hu, hstep⟩ := (bind_eq_ok_iff _ _ _).mp ht
      obtain ⟨hblock, hblocks⟩ := hset u i t hstep
      obtain ⟨hu, hublocks⟩ := ih u hu
      exact ⟨by rw [hblock, hu], by rw [hblocks, hublocks]⟩
  -- `k` passes are left
  have hloop : ∀ k ≤ blocks s, ∀ t, X.setSizes s (fun _ => size) (blocks s - k) = .ok t →
      fillLoop block blocks (fun s i => X.setBlockSize s i size) k t = .ok v := by
    intro k
    induction k with
    | zero =>
      intro _ t ht
      rw [Nat.sub_zero, h] at ht
      cases ht
      rfl
    | succ k ih =>
      intro hk t ht
      obtain ⟨hblock, hblocks⟩ := hcount _ t ht
      obtain ⟨u, hu⟩ := setSizes_ok_of_le h (Nat.sub_le (blocks s) k)
      have hnext : blocks s - k = blocks s - (k + 1) + 1 := by omega
      have hstep := hu
      rw [hnext, IndexOps.setSizes, ht] at hstep
      rw [fillLoop, if_pos (by omega), hblock]
      exact (bind_eq_ok_iff _ _ _).mpr ⟨u, hstep, ih (by omega) u hu⟩
  exact hloop (blocks s) (Nat.le_refl _) s (by rw [Nat.sub_self]; rfl)

def verbatimView : IndexView Verbatim where
  blocks := Verbatim.blocks
  fixed _ := none
  Valid s := s.data 0 = 0
  Fresh s := s.data 0 = 0 ∧ s.block = 0
  Admissible _ _ := True

namespace Verbatim

theorem setBlockSize_ok {s t : Verbatim} {i : ℕ} {size : U64} (h : s.setBlockSize i size = .ok t) :
    t = ⟨Function.update s.data (s.block + 1) (s.data s.block + size), s.blocks, s.block + 1⟩ := by
  rw [setBlockSize] at h
  split at h
  · cases h
  · split at h
    · cases h
    · exact (Except.ok.inj h).symm

theorem setBlockSize_keeps {s t : Verbatim} {i : ℕ} {size : U64}
    (h : s.setBlockSize i size = .ok t) : verbatimView.Keeps s t := by
  rw [setBlockSize_ok h]
  refine ⟨fun hs => ?_, rfl, rfl⟩
  have hold : Function.update s.data (s.block + 1) (s.data s.block + size) 0 = s.data 0 :=
    Function.update_of_ne (Nat.succ_ne_zero s.block).symm _ _
  exact hold.trans hs

/-- A sequential build never fails. -/
theorem setSizes_spec {s : Verbatim} (hs : verbatimView.Fresh s) (sizes : ℕ → U64) {n : ℕ}
    (hn : n ≤ s.blocks) : ∃ t, Index.verbatim.setSizes s sizes n = .ok t ∧ t.block = n ∧
      t.blocks = s.blocks ∧ ∀ i ≤ n, t.data i = offsetOf sizes i := by
  induction n with
  | zero =>
    refine ⟨s, rfl, hs.2, rfl, fun i hi => ?_⟩
    obtain rfl : i = 0 := by omega
    exact hs.1
  | succ n ih =>
    obtain ⟨t, ht, hblock, hblocks, hdata⟩ := ih (by omega)
    have hset : t.setBlockSize n (sizes n) =
        .ok ⟨Function.update t.data (n + 1) (t.data n + sizes n), t.blocks, n + 1⟩ := by
      rw [setBlockSize, hblock, if_neg (by simp), if_neg (by omega)]
    refine ⟨⟨Function.update t.data (n + 1) (t.data n + sizes n), t.blocks, n + 1⟩, ?_, rfl,
      hblocks, fun i hi => ?_⟩
    · rw [IndexOps.setSizes, ht]
      exact hset
    · rcases Nat.lt_or_eq_of_le hi with hlt | rfl
      · exact (Function.update_of_ne (by omega) _ _).trans (hdata i (by omega))
      · dsimp only
        rw [Function.update_self, hdata n (Nat.le_refl n), offsetOf_succ]

end Verbatim

theorem verbatim_spec : IndexSpec Index.verbatim verbatimView where
  new garbage _ := Function.update_self 0 0 garbage.data
  resize s _ := ⟨Function.update_self 0 0 s.data, rfl⟩
  fixed_isSome _ := rfl
  valid_of_fresh h := h.1
  clear _ := ⟨id, rfl, rfl⟩
  fresh_clear h := ⟨h, rfl⟩
  flush h := by
    cases h
    exact ⟨id, rfl, rfl⟩
  setBlockSize := Verbatim.setBlockSize_keeps
  setAllSizes {s t size} h hs := by
    obtain ⟨u, hu, rfl⟩ := (map_eq_ok_iff _ _ _).mp h
    have hkeeps : verbatimView.Keeps s u := by
      refine fillLoop_keeps (P := verbatimView.Keeps s) (fun a i b hab ha => ?_) hu ⟨id, rfl, rfl⟩
      exact ha.trans (Verbatim.setBlockSize_keeps hab)
    exact ⟨⟨hkeeps.valid hs, rfl⟩, hkeeps.blocks, fun b hb => nomatch hb⟩
  setAllSizes_total {s size} hs _ := by
    obtain ⟨v, hv, -⟩ := Verbatim.setSizes_spec (s := s.clear) ⟨hs, rfl⟩ (fun _ => size)
      (Nat.le_refl s.blocks)
    refine ⟨v.clear, (map_eq_ok_iff _ _ _).mpr ⟨v, ?_, rfl⟩⟩
    have hset : ∀ (a : Verbatim) i b, a.setBlockSize i size = .ok b →
        b.block = a.block + 1 ∧ b.blocks = a.blocks := by
      intro a i b hab
      rw [Verbatim.setBlockSize_ok hab]
      exact ⟨rfl, rfl⟩
    exact fillLoop_eq_setSizes (X := Index.verbatim) Verbatim.block Verbatim.blocks
      (s := s.clear) hset rfl hv
  build {s t sizes n} hs _ hn h := by
    obtain ⟨u, hu, -, -, hdata⟩ := Verbatim.setSizes_spec hs sizes (Nat.le_of_lt hn)
    rw [hu] at h
    cases h
    exact hdata n (Nat.le_refl n)
  built {s t u sizes} hs _ h hflush := by
    obtain ⟨v, hv, -, hblocks, hdata⟩ := Verbatim.setSizes_spec hs sizes (Nat.le_refl s.blocks)
    have hrange : v.data v.blocks = offsetOf sizes s.blocks := by
      rw [hblocks]
      exact hdata s.blocks (Nat.le_refl s.blocks)
    rw [show verbatimView.blocks s = s.blocks from rfl, hv] at h
    cases h
    cases hflush
    exact ⟨fun i hi => hdata i (Nat.le_of_lt hi), hrange⟩
  total {s sizes} hs _ := by
    obtain ⟨t, ht, -⟩ := Verbatim.setSizes_spec hs sizes (Nat.le_refl s.blocks)
    exact ⟨t, t, ht, rfl⟩

/-! ## The hybrid indices -/

namespace ChunkCodec

variable {R : Type} (C : ChunkCodec R)

def view (sizeLimit baseLimit : ℕ) : IndexView (HybridIndex R) where
  blocks := HybridIndex.blocks
  fixed _ := none
  Valid _ := True
  Fresh s := s = .resize s.data s.buffer s.blocks
  Admissible := C.Admissible sizeLimit baseLimit

variable {C}

theorem setBlockSize_counts {s t : HybridIndex R} {i : ℕ} {size : U64}
    (h : C.setBlockSize s i size = .ok t) : t.block = s.block + 1 ∧ t.blocks = s.blocks := by
  rw [setBlockSize] at h
  dsimp only at h
  split at h
  · cases h
  · split at h
    · cases h
    · split at h
      · cases h
      · split at h
        · split at h
          · cases h
          · cases h
            exact ⟨rfl, rfl⟩
        · cases h
          exact ⟨rfl, rfl⟩

theorem setBlockSize_blocks {s t : HybridIndex R} {i : ℕ} {size : U64}
    (h : C.setBlockSize s i size = .ok t) : t.blocks = s.blocks := (setBlockSize_counts h).2

theorem flush_blocks {s t : HybridIndex R} (h : C.flush s = .ok t) : t.blocks = s.blocks := by
  rw [flush] at h
  generalize C.width = fuel at h
  induction fuel generalizing s with
  | zero =>
    cases h
    rfl
  | succ fuel ih =>
    rw [flushLoop] at h
    split at h
    · cases h
      rfl
    · obtain ⟨u, hu, hrest⟩ := (bind_eq_ok_iff _ _ _).mp h
      exact (ih hrest).trans (setBlockSize_blocks hu)

theorem setSizes_eq (s : HybridIndex R) (sizes : ℕ → U64) (n : ℕ) :
    C.indexOps.setSizes s sizes n = C.setBlockSizes s sizes n := by
  induction n with
  | zero => rfl
  | succ n ih =>
    rw [IndexOps.setSizes, ih, setBlockSizes]
    rfl

theorem spec {sizeLimit baseLimit : ℕ} (hC : C.Lawful sizeLimit baseLimit) :
    IndexSpec C.indexOps (C.view sizeLimit baseLimit) where
  new _ _ := trivial
  resize _ _ := ⟨trivial, rfl⟩
  fixed_isSome _ := rfl
  valid_of_fresh _ := trivial
  clear _ := ⟨id, rfl, rfl⟩
  fresh_clear _ := rfl
  flush h := ⟨id, flush_blocks h, rfl⟩
  setBlockSize h := ⟨id, setBlockSize_blocks h, rfl⟩
  setAllSizes {s t size} h _ := by
    obtain ⟨u, hu, rfl⟩ := (map_eq_ok_iff _ _ _).mp h
    obtain ⟨v, hv, hflush⟩ := (bind_eq_ok_iff _ _ _).mp hu
    have hblocks : v.blocks = s.blocks := by
      refine fillLoop_keeps (P := fun r => r.blocks = s.blocks) (fun a i b hab ha => ?_) hv rfl
      exact (setBlockSize_blocks hab).trans ha
    exact ⟨rfl, (flush_blocks hflush).trans hblocks, fun b hb => nomatch hb⟩
  setAllSizes_total {s size} _ hadm := by
    obtain ⟨v, hv, -⟩ := build_ok hC s.data s.buffer hadm
    obtain ⟨t, ht, hflush⟩ := (bind_eq_ok_iff _ _ _).mp hv
    refine ⟨v.clear, (map_eq_ok_iff _ _ _).mpr ⟨v, (bind_eq_ok_iff _ _ _).mpr ⟨t, ?_, hflush⟩, rfl⟩⟩
    refine fillLoop_eq_setSizes (X := C.indexOps) HybridIndex.block HybridIndex.blocks
      (s := s.clear) (fun a i b hab => setBlockSize_counts hab) rfl ?_
    rw [setSizes_eq]
    exact ht
  build {s t sizes n} hs _ hn h := by
    have hn' : n < s.blocks := hn
    rw [setSizes_eq, hs] at h
    have hzero := built_zero C sizes s.data s.buffer s.blocks
    rcases setBlockSizes_spec hC hzero fun i hi => .inl (hi.trans hn') with
      ⟨hfits, u, hu, hb⟩ | ⟨-, e, he⟩
    · rw [hu] at h
      cases h
      exact hb.blockOffset_eq hC hfits.1 (.inl rfl)
    · rw [he] at h
      cases h
  built {s t u sizes} hs _ h hflush := by
    have hbuild : C.build (.resize s.data s.buffer s.blocks) sizes = .ok u := by
      rw [setSizes_eq, hs] at h
      rw [build]
      exact (congrArg (· >>= C.flush) h).trans hflush
    by_cases hadm : C.Admissible sizeLimit baseLimit sizes s.blocks
    · obtain ⟨v, hv, hsums, -⟩ := build_ok hC s.data s.buffer hadm
      rw [hv] at hbuild
      cases hbuild
      exact ⟨fun i hi => hsums.blockOffset_eq i (Nat.le_of_lt hi), hsums.range_eq⟩
    · obtain ⟨e, he⟩ := build_error hC s.data s.buffer hadm
      rw [he] at hbuild
      cases hbuild
  total {s sizes} hs hadm := by
    obtain ⟨v, hv, -⟩ := build_ok hC s.data s.buffer hadm
    have hs' : HybridIndex.resize s.data s.buffer ((C.view sizeLimit baseLimit).blocks s) = s :=
      hs.symm
    rw [hs'] at hv
    obtain ⟨t, ht, hflush⟩ := (bind_eq_ok_iff _ _ _).mp hv
    refine ⟨t, v, ?_, hflush⟩
    rw [setSizes_eq]
    exact ht

end ChunkCodec

/-! ## The classes -/

/-- The index classes; the last one depends on the dimensionality of the blocks. -/
inductive IndexKind | implicit | verbatim | hybrid4 | hybrid8

namespace IndexKind

def State : IndexKind → Type
  | implicit => Implicit
  | verbatim => Verbatim
  | hybrid4 => HybridIndex Record4
  | hybrid8 => HybridIndex (U64 × U64)

def ops (d : ℕ) : (k : IndexKind) → IndexOps k.State
  | implicit => Index.implicit
  | verbatim => Index.verbatim
  | hybrid4 => Zfp.hybrid4.indexOps
  | hybrid8 => (Zfp.hybrid8 d).indexOps

def view (d : ℕ) : (k : IndexKind) → IndexView k.State
  | implicit => implicitView
  | verbatim => verbatimView
  | hybrid4 => Zfp.hybrid4.view (ZFP_MAX_BITS + 1) (2 ^ 44)
  | hybrid8 => (Zfp.hybrid8 d).view (2 ^ (2 * (d - 1) + 8)) (2 ^ (86 - 14 * d))

theorem spec {d : ℕ} (hd : 1 ≤ d ∧ d ≤ 4) (k : IndexKind) : IndexSpec (k.ops d) (k.view d) := by
  cases k with
  | implicit => exact implicit_spec
  | verbatim => exact verbatim_spec
  | hybrid4 => exact ChunkCodec.spec lawful_hybrid4
  | hybrid8 => exact ChunkCodec.spec (lawful_hybrid8 hd)

end IndexKind

end Zfp

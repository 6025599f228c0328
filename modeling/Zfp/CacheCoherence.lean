import Zfp.BlockCache

/-!
# Coherence of the cache

A used line holds the current values of its block, a block that no dirty line holds is current in
the store, and no block is in two lines. Every operation keeps this invariant, provided that it
marks the line that it modifies.
-/

namespace Zfp

theorem toNat_cacheIndex {b : ℕ} (hb : b < 2 ^ 31) : (cacheIndex b).toNat = b + 1 := by
  have hone : (1 : BitVec 32).toNat = 1 := rfl
  rw [cacheIndex, BitVec.toNat_add, BitVec.toNat_ofNat, hone]
  omega

theorem cacheIndex_inj {b b' : ℕ} (hb : b < 2 ^ 31) (hb' : b' < 2 ^ 31)
    (h : cacheIndex b = cacheIndex b') : b = b' := by
  have htoNat := congrArg BitVec.toNat h
  rw [toNat_cacheIndex hb, toNat_cacheIndex hb'] at htoNat
  omega

theorem cacheIndex_ne_zero {b : ℕ} (hb : b < 2 ^ 31) : cacheIndex b ≠ 0 := by
  intro h
  have htoNat := congrArg BitVec.toNat h
  rw [toNat_cacheIndex hb] at htoNat
  change b + 1 = 0 at htoNat
  omega

theorem toNat_cacheIndex_lt {g : ArraySize} (hg : g.Small) {b : ℕ} (hb : b < g.blocks) :
    (cacheIndex b).toNat < 2 ^ 31 := by
  rw [toNat_cacheIndex (lt_trans hb hg)]
  exact lt_of_le_of_lt hb hg

/-- The block index that a line's tag stands for. -/
theorem toNat_cacheIndex_sub {b : ℕ} (hb : b < 2 ^ 31) : (cacheIndex b - 1).toNat = b := by
  have hone : (1 : BitVec 32).toNat = 1 := rfl
  rw [BitVec.toNat_sub, toNat_cacheIndex hb, hone]
  omega

theorem eq_cacheIndex {x : BitVec 32} {b : ℕ} (h : (x - 1).toNat = b) : x = cacheIndex b := by
  rw [cacheIndex, ← h, BitVec.ofNat_toNat, BitVec.setWidth_eq, BitVec.sub_add_cancel]

/-- The blocks of an array are few enough for a cache. -/
theorem exists_lines (lineBytes bytes : ℕ) {g : ArraySize} (hg : g.Small) :
    ∃ n, lines lineBytes bytes g.blocks = .ok n := by
  have hfits : g.blocks / 2 ^ 31 = 0 := Nat.div_eq_of_lt hg
  rw [lines, if_neg (not_not.mpr hfits)]
  exact ⟨_, rfl⟩

namespace BlockCache

variable {σ α : Type} {cfg : CacheConfig} {g : ArraySize} {st : Store σ α}
  {view : σ → ℕ → ℕ → α} {B : ℕ → ℕ → α} {s : BlockCache σ α}

def Holds (c : Cache (ℕ → α)) (k b : ℕ) : Prop :=
  k ≤ c.mask.toNat ∧ (c.tag k).index = cacheIndex b

variable (cfg g view) in
/-- The cache and the store together hold the blocks `B`. -/
structure Coherent (B : ℕ → ℕ → α) (s : BlockCache σ α) : Prop where
  home : ∀ k ≤ s.cache.mask.toNat, (s.cache.tag k).used = true →
    ∃ b < g.blocks, (s.cache.tag k).index = cacheIndex b ∧ s.cache.Home cfg (cacheIndex b) k
  unique : ∀ b < g.blocks, ∀ k k', Holds s.cache k b → Holds s.cache k' b → k = k'
  line : ∀ b < g.blocks, ∀ k, Holds s.cache k b → ∀ o, InBlock (g.blockShape b) o →
    s.cache.line k o = B b o
  store : ∀ b < g.blocks, (∀ k, Holds s.cache k b → (s.cache.tag k).dirty = false) →
    ∀ o, InBlock (g.blockShape b) o → view s.store b o = B b o

/-- A block is nowhere in the cache if it is in none of its slots. -/
theorem Coherent.not_holds (h : Coherent cfg g view B s) (hg : g.Small) {b : ℕ}
    (hb : b < g.blocks) (hmiss : ∀ k, s.cache.Home cfg (cacheIndex b) k →
      (s.cache.tag k).index ≠ cacheIndex b) (k : ℕ) : ¬ Holds s.cache k b := by
  rintro ⟨hk, hindex⟩
  have hne : (s.cache.tag k).index ≠ 0 := by
    rw [hindex]
    exact cacheIndex_ne_zero (lt_trans hb hg)
  obtain ⟨b', hb', hindex', hhome⟩ := h.home k hk (Tag.used_of_index hne)
  have hbb : b' = b := by
    apply cacheIndex_inj (lt_trans hb' hg) (lt_trans hb hg)
    rw [← hindex', hindex]
  rw [hbb] at hhome
  exact hmiss k hhome hindex

/-- The write-backs of an operation on the blocks `B`: each hands the store the current values of
a block under the index of the block. -/
def BackOk (g : ArraySize) (B : ℕ → ℕ → α) (back : List (WriteBack α)) : Prop :=
  ∀ w ∈ back, w.1 < g.blocks ∧ ∀ o, InBlock (g.blockShape w.1) o → w.2 o = B w.1 o

/-! ## Elementary changes -/

/-- Marking a line that holds a block. -/
theorem Coherent.markSlot (h : Coherent cfg g view B s) {b k : ℕ} (hb : b < g.blocks)
    (hk : Holds s.cache k b) (hhome : s.cache.Home cfg (cacheIndex b) k) :
    Coherent cfg g view B ⟨s.cache.markSlot k, s.store⟩ := by
  have hindex (i : ℕ) : ((s.cache.markSlot k).tag i).index = (s.cache.tag i).index := by
    rcases eq_or_ne i k with rfl | hne
    · rw [Cache.tag_markSlot, Tag.index_mark]
    · rw [Cache.tag_markSlot_of_ne _ hne]
  have hholds {i b' : ℕ} (hi : Holds (s.cache.markSlot k) i b') : Holds s.cache i b' :=
    ⟨hi.1, (hindex i).symm.trans hi.2⟩
  refine ⟨?_, ?_, ?_, ?_⟩
  · intro i hi hused
    rcases eq_or_ne i k with rfl | hne
    · exact ⟨b, hb, (hindex i).trans hk.2, hhome⟩
    · simp only [Cache.tag_markSlot_of_ne _ hne] at hused
      obtain ⟨b', hb', hindex', hhome'⟩ := h.home i hi hused
      exact ⟨b', hb', (hindex i).trans hindex', hhome'⟩
  · intro b' hb' i i' hi hi'
    exact h.unique b' hb' i i' (hholds hi) (hholds hi')
  · intro b' hb' i hi
    exact h.line b' hb' i (hholds hi)
  · intro b' hb' hclean
    apply h.store b' hb'
    intro i hi
    have hdirty := hclean i ⟨hi.1, (hindex i).trans hi.2⟩
    rcases eq_or_ne i k with rfl | hne
    · simp only [Cache.tag_markSlot, Tag.dirty_mark] at hdirty
      cases hdirty
    · rwa [Cache.tag_markSlot_of_ne _ hne] at hdirty

/-- Writing to a line that is marked as dirty. -/
theorem Coherent.setLine (h : Coherent cfg g view B s) (hg : g.Small) {b k : ℕ}
    (hb : b < g.blocks) (hk : Holds s.cache k b) (hdirty : (s.cache.tag k).dirty = true)
    {B' : ℕ → ℕ → α} {a : ℕ → α} (ha : ∀ o, InBlock (g.blockShape b) o → a o = B' b o)
    (hB : ∀ b' < g.blocks, b' ≠ b → ∀ o, InBlock (g.blockShape b') o → B' b' o = B b' o) :
    Coherent cfg g view B' ⟨s.cache.setLine k a, s.store⟩ := by
  refine ⟨h.home, h.unique, ?_, ?_⟩
  · intro b' hb' i hi o ho
    change Function.update s.cache.line k a i o = _
    rcases eq_or_ne i k with rfl | hne
    · have hbb : b' = b :=
        cacheIndex_inj (lt_trans hb' hg) (lt_trans hb hg) (hi.2.symm.trans hk.2)
      subst hbb
      rw [Function.update_self, ha o ho]
    · have hbb : b' ≠ b := by
        rintro rfl
        exact hne (h.unique b' hb' i k hi hk)
      rw [Function.update_of_ne hne, hB b' hb' hbb o ho]
      exact h.line b' hb' i hi o ho
  · intro b' hb' hclean o ho
    have hbb : b' ≠ b := by
      rintro rfl
      have hfalse : (s.cache.tag k).dirty = false := hclean k hk
      rw [hdirty] at hfalse
      cases hfalse
    rw [hB b' hb' hbb o ho]
    exact h.store b' hb' hclean o ho

variable (st) in
/-- The slot is given up: a dirty line is written back and the tag cleared. -/
def release (s : BlockCache σ α) (k : ℕ) : BlockCache σ α :=
  ⟨s.cache.flushLine k,
    if (s.cache.tag k).dirty then
      st.encode s.store ((s.cache.tag k).index - 1).toNat (s.cache.line k)
    else s.store⟩

variable (st) in
/-- What a slot that is given up hands to the store. -/
def released (s : BlockCache σ α) (k : ℕ) : List (WriteBack α) :=
  if (s.cache.tag k).dirty then [(((s.cache.tag k).index - 1).toNat, s.cache.line k)] else []

theorem holds_flushLine {c : Cache (ℕ → α)} {k i b : ℕ} (hb : b < 2 ^ 31) :
    Holds (c.flushLine k) i b ↔ i ≠ k ∧ Holds c i b := by
  rw [Holds, Holds]
  change i ≤ c.mask.toNat ∧ (Function.update c.tag k Tag.unused i).index = _ ↔ _
  rcases eq_or_ne i k with rfl | hne
  · rw [Function.update_self, Tag.index_unused]
    have hz := cacheIndex_ne_zero hb
    constructor
    · rintro ⟨_, hzero⟩
      exact absurd hzero.symm hz
    · rintro ⟨hii, _⟩
      exact absurd rfl hii
  · rw [Function.update_of_ne hne]
    simp [hne]

theorem dirty_used {t : Tag} (h : t.dirty = true) : t.used = true := by
  have hodd := (Tag.dirty_iff t).mp h
  rw [Tag.used, decide_eq_true_eq]
  intro hx
  rw [hx] at hodd
  cases hodd

/-- The cache without a slot, over a store that holds what the slot held. -/
theorem Coherent.flushLine (h : Coherent cfg g view B s) (hg : g.Small) (k : ℕ) {store : σ}
    (hstore : ∀ b < g.blocks, (∀ i, i ≠ k → Holds s.cache i b → (s.cache.tag i).dirty = false) →
      ∀ o, InBlock (g.blockShape b) o → view store b o = B b o) :
    Coherent cfg g view B ⟨s.cache.flushLine k, store⟩ := by
  have htag {i : ℕ} (hne : i ≠ k) : (s.cache.flushLine k).tag i = s.cache.tag i :=
    Function.update_of_ne hne _ _
  have hholds {i b : ℕ} (hb : b < g.blocks) :=
    holds_flushLine (c := s.cache) (k := k) (i := i) (lt_trans hb hg)
  refine ⟨?_, ?_, ?_, ?_⟩
  · intro i hi hused
    rcases eq_or_ne i k with rfl | hne
    · change (Function.update s.cache.tag i Tag.unused i).used = true at hused
      rw [Function.update_self] at hused
      cases hused
    · change ((s.cache.flushLine k).tag i).used = true at hused
      rw [htag hne] at hused
      obtain ⟨b, hb, hindex, hhome⟩ := h.home i hi hused
      exact ⟨b, hb, (congrArg Tag.index (htag hne)).trans hindex, hhome⟩
  · intro b hb i i' hi hi'
    exact h.unique b hb i i' ((hholds hb).mp hi).2 ((hholds hb).mp hi').2
  · intro b hb i hi
    exact h.line b hb i ((hholds hb).mp hi).2
  · intro b hb hclean
    apply hstore b hb
    intro i hne hi
    have hfalse := hclean i ((hholds hb).mpr ⟨hne, hi⟩)
    exact (congrArg Tag.dirty (htag hne)).symm.trans hfalse

theorem Coherent.release (h : Coherent cfg g view B s) (hg : g.Small) (hst : Lossless g st view)
    {k : ℕ} (hk : k ≤ s.cache.mask.toNat) :
    Coherent cfg g view B (release st s k) ∧ BackOk g B (released s k) := by
  rcases hdirty : (s.cache.tag k).dirty with _ | _
  · rw [BlockCache.release, released, hdirty]
    refine ⟨h.flushLine hg k fun b hb hclean => h.store b hb fun i hi => ?_, by simp [BackOk]⟩
    rcases eq_or_ne i k with rfl | hne
    · exact hdirty
    · exact hclean i hne hi
  · obtain ⟨b, hb, hindex, _⟩ := h.home k hk (dirty_used hdirty)
    have hline := h.line b hb k ⟨hk, hindex⟩
    rw [BlockCache.release, released, hdirty, hindex, toNat_cacheIndex_sub (lt_trans hb hg)]
    constructor
    · apply h.flushLine hg k
      intro b' hb' hclean o ho
      rcases eq_or_ne b' b with rfl | hbb
      · rw [← hline o ho]
        exact hst.encode_self _ _ _ _ hb' ho
      · rw [if_pos rfl, hst.encode_ne _ _ _ _ _ hb hb' hbb ho]
        refine h.store b' hb' (fun i hi => hclean i ?_ hi) o ho
        rintro rfl
        exact hbb (cacheIndex_inj (lt_trans hb' hg) (lt_trans hb hg) (hi.2.symm.trans hindex))
    · intro w hw
      simp only [if_true, List.mem_singleton] at hw
      subst hw
      exact ⟨hb, hline⟩

variable (st) in
/-- The slot is filled with a block that the store decodes. -/
def fetched (s : BlockCache σ α) (b k : ℕ) (write : Bool) : BlockCache σ α :=
  let r := st.decode s.store b (s.cache.line k)
  ⟨{ s.cache with
    tag := Function.update s.cache.tag k (Tag.make (cacheIndex b) write)
    line := Function.update s.cache.line k r.1 }, r.2⟩

section

variable {b k i : ℕ} {write : Bool}

theorem tag_fetched : (fetched st s b k write).cache.tag k = Tag.make (cacheIndex b) write :=
  Function.update_self _ _ _

theorem tag_fetched_of_ne (hne : i ≠ k) :
    (fetched st s b k write).cache.tag i = s.cache.tag i := Function.update_of_ne hne _ _

theorem line_fetched :
    (fetched st s b k write).cache.line k = (st.decode s.store b (s.cache.line k)).1 :=
  Function.update_self _ _ _

theorem line_fetched_of_ne (hne : i ≠ k) :
    (fetched st s b k write).cache.line i = s.cache.line i := Function.update_of_ne hne _ _

variable (hg : g.Small) (hb : b < g.blocks)

include hg hb

theorem index_fetched : ((fetched st s b k write).cache.tag k).index = cacheIndex b := by
  rw [tag_fetched, Tag.index_make (toNat_cacheIndex_lt hg hb)]

theorem dirty_fetched : ((fetched st s b k write).cache.tag k).dirty = write := by
  rw [tag_fetched, Tag.dirty_make (toNat_cacheIndex_lt hg hb)]

/-- The slot holds the block, and the other slots hold what they held. -/
theorem holds_fetched {b' : ℕ} (hb' : b' < g.blocks) (hk : k ≤ s.cache.mask.toNat) :
    Holds (fetched st s b k write).cache i b' ↔ if i = k then b' = b else Holds s.cache i b' := by
  rw [Holds]
  split_ifs with hik
  · subst hik
    rw [index_fetched hg hb]
    constructor
    · rintro ⟨-, hindex⟩
      exact (cacheIndex_inj (lt_trans hb hg) (lt_trans hb' hg) hindex).symm
    · rintro rfl
      exact ⟨hk, rfl⟩
  · rw [tag_fetched_of_ne hik]
    exact Iff.rfl

end

/-- Filling a slot that is not in use with a block that is nowhere in the cache. -/
theorem Coherent.fetched (h : Coherent cfg g view B s) (hg : g.Small) (hst : Lossless g st view)
    {b k : ℕ} (hb : b < g.blocks) (hk : s.cache.Home cfg (cacheIndex b) k)
    (hfree : ∀ i, ¬ Holds s.cache i b) (hunused : (s.cache.tag k).used = false) (write : Bool) :
    Coherent cfg g view B (fetched st s b k write) := by
  have hholds {i b' : ℕ} (hb' : b' < g.blocks) :
      Holds (BlockCache.fetched st s b k write).cache i b' ↔
        if i = k then b' = b else Holds s.cache i b' :=
    holds_fetched hg hb hb' (Cache.Home.le cfg hk)
  refine ⟨fun i hi hused => ?_, fun b' hb' i i' hi hi' => ?_, fun b' hb' i hi o ho => ?_,
    fun b' hb' hclean o ho => ?_⟩
  · rcases eq_or_ne i k with rfl | hne
    · exact ⟨b, hb, index_fetched hg hb, hk⟩
    · rw [tag_fetched_of_ne hne] at hused ⊢
      exact h.home i hi hused
  · rw [hholds hb'] at hi hi'
    split_ifs at hi hi' with hik hik' hik'
    · rw [hik, hik']
    · exact absurd (hi ▸ hi') (hfree i')
    · exact absurd (hi' ▸ hi) (hfree i)
    · exact h.unique b' hb' i i' hi hi'
  · rw [hholds hb'] at hi
    split_ifs at hi with hik
    · subst hi hik
      rw [line_fetched, hst.decode _ _ _ _ hb ho]
      exact h.store b' hb' (fun i hi => absurd hi (hfree i)) o ho
    · rw [line_fetched_of_ne hik]
      exact h.line b' hb' i hi o ho
  · rw [BlockCache.fetched, hst.decode_view _ _ _ _ _ hb hb' ho]
    refine h.store b' hb' (fun i hi => ?_) o ho
    have hik : i ≠ k := by
      rintro rfl
      have hne : (s.cache.tag i).index ≠ 0 := by
        rw [hi.2]
        exact cacheIndex_ne_zero (lt_trans hb' hg)
      rw [Tag.used_of_index hne] at hunused
      cases hunused
    have hfalse := hclean i ((hholds hb').mpr (by rwa [if_neg hik]))
    rwa [tag_fetched_of_ne hik] at hfalse

/-! ## Operations -/

variable (cfg st s) in
/-- An access finds the line of the block, or gives up a slot and fetches the block to it. -/
theorem line_cases (hg : g.Small) {i j k : ℕ} (hmem : g.Mem (i, j, k)) (write : Bool) :
    (∃ p, s.cache.Home cfg (cacheIndex (g.blockIndex i j k)) p ∧
      (s.cache.tag p).index = cacheIndex (g.blockIndex i j k) ∧
      line cfg g st s i j k write =
        (p, ⟨if write then s.cache.markSlot p else s.cache, s.store⟩, [])) ∨
    ∃ p, s.cache.Home cfg (cacheIndex (g.blockIndex i j k)) p ∧
      (∀ q, s.cache.Home cfg (cacheIndex (g.blockIndex i j k)) q →
        (s.cache.tag q).index ≠ cacheIndex (g.blockIndex i j k)) ∧
      line cfg g st s i j k write =
        (p, fetched st (release st s p) (g.blockIndex i j k) p write, released s p) := by
  have hb := ArraySize.blockIndex_lt hmem.1 hmem.2.1 hmem.2.2
  generalize hbi : g.blockIndex i j k = b at hb ⊢
  rcases s.cache.access_cases cfg (cacheIndex b) write with
    ⟨p, hhome, hhit, haccess⟩ | ⟨p, hhome, hmiss, haccess⟩
  · have htag : ((if write then s.cache.markSlot p else s.cache).tag p).index = cacheIndex b := by
      cases write with
      | false => exact hhit
      | true => rw [if_pos rfl, Cache.tag_markSlot, Tag.index_mark, hhit]
    refine Or.inl ⟨p, hhome, hhit, ?_⟩
    simp only [line, hbi, haccess, htag, toNat_cacheIndex_sub (lt_trans hb hg)]
    exact if_neg (not_not.mpr rfl)
  · have hne : ((s.cache.tag p).index - 1).toNat ≠ b := fun hb' =>
      hmiss p hhome (eq_cacheIndex hb')
    have hupdate : Function.update (release st s p).cache.tag p (Tag.make (cacheIndex b) write) =
        Function.update s.cache.tag p (Tag.make (cacheIndex b) write) := Function.update_idem _ _ _
    refine Or.inr ⟨p, hhome, hmiss, ?_⟩
    simp only [line, hbi, haccess, fetched, hupdate]
    rw [if_pos hne]
    rfl

/-- After an access the returned slot holds the block and is marked on write, the cache is
coherent, and what was replaced has been written back. -/
theorem line_spec (h : Coherent cfg g view B s) (hg : g.Small) (hst : Lossless g st view)
    {i j k : ℕ} (hmem : g.Mem (i, j, k)) (write : Bool) :
    Coherent cfg g view B (line cfg g st s i j k write).2.1 ∧
      Holds (line cfg g st s i j k write).2.1.cache (line cfg g st s i j k write).1
        (g.blockIndex i j k) ∧
      (write = true → ((line cfg g st s i j k write).2.1.cache.tag
        (line cfg g st s i j k write).1).dirty = true) ∧
      BackOk g B (line cfg g st s i j k write).2.2 := by
  have hb := ArraySize.blockIndex_lt hmem.1 hmem.2.1 hmem.2.2
  obtain ⟨p, hhome, hhit, hline⟩ | ⟨p, hhome, hmiss, hline⟩ := line_cases cfg st s hg hmem write
  · -- the line is in the cache
    have hholds : Holds s.cache p (g.blockIndex i j k) := ⟨Cache.Home.le cfg hhome, hhit⟩
    rw [hline]
    cases write with
    | false => exact ⟨h, hholds, by simp, by simp [BackOk]⟩
    | true =>
      have hmark := s.cache.tag_markSlot p
      refine ⟨h.markSlot hb hholds hhome, ⟨hholds.1, ?_⟩, fun _ => ?_, by simp [BackOk]⟩
      · exact (congrArg Tag.index hmark).trans ((Tag.index_mark _).trans hhit)
      · exact (congrArg Tag.dirty hmark).trans (Tag.dirty_mark _)
  · -- the line is fetched to slot `p`
    obtain ⟨hrel, hback⟩ := h.release hg hst (Cache.Home.le cfg hhome)
    have hfree (q : ℕ) : ¬ Holds (release st s p).cache q (g.blockIndex i j k) := by
      intro hq
      exact h.not_holds hg hb hmiss q ((holds_flushLine (lt_trans hb hg)).mp hq).2
    have hunused : ((release st s p).cache.tag p).used = false := by
      change (Function.update s.cache.tag p Tag.unused p).used = false
      rw [Function.update_self, Tag.used_unused]
    rw [hline]
    exact ⟨hrel.fetched hg hst hb hhome hfree hunused write,
      ⟨Cache.Home.le cfg hhome, index_fetched hg hb⟩,
      fun hwrite => (dirty_fetched hg hb).trans hwrite, hback⟩

def blocksOf (g : ArraySize) (A : ℕ × ℕ × ℕ → α) (b o : ℕ) : α := A (g.coord b o)

variable {A : ℕ × ℕ × ℕ → α}

theorem assign_spec (h : Coherent cfg g view (blocksOf g A) s) (hg : g.Small)
    (hst : Lossless g st view) {i j k : ℕ} (hmem : g.Mem (i, j, k)) (val : α) :
    Coherent cfg g view (blocksOf g (Function.update A (i, j, k) val))
        (assign cfg g st s i j k val).1 ∧
      BackOk g (blocksOf g A) (assign cfg g st s i j k val).2 := by
  have hb := ArraySize.blockIndex_lt hmem.1 hmem.2.1 hmem.2.2
  obtain ⟨hcoherent, hholds, hdirty, hback⟩ := line_spec h hg hst hmem true
  refine ⟨?_, hback⟩
  apply hcoherent.setLine hg hb hholds (hdirty rfl)
  · intro o ho
    have hold := hcoherent.line _ hb _ hholds o ho
    have ho64 := (ArraySize.mem_coord hg hb ho).1
    rcases eq_or_ne o (elementIndex i j k) with rfl | hne
    · rw [Function.update_self, blocksOf, ArraySize.coord_blockIndex hmem.1 hmem.2.1,
        Function.update_self]
    · have hx : g.coord (g.blockIndex i j k) o ≠ (i, j, k) := by
        intro hx
        have he := ArraySize.elementIndex_coord (g := g) (b := g.blockIndex i j k) ho64
        rw [hx] at he
        exact hne he.symm
      rw [Function.update_of_ne hne, blocksOf, Function.update_of_ne hx]
      exact hold
  · intro b' hb' hne o ho
    have hx : g.coord b' o ≠ (i, j, k) := by
      intro hx
      have he := ArraySize.blockIndex_coord (g := g) (b := b')
        (ArraySize.mem_coord hg hb' ho).1
      rw [hx] at he
      exact hne he.symm
    rw [blocksOf, blocksOf, Function.update_of_ne hx]

theorem get_spec (h : Coherent cfg g view (blocksOf g A) s) (hg : g.Small)
    (hst : Lossless g st view) {i j k : ℕ} (hmem : g.Mem (i, j, k)) :
    (line cfg g st s i j k false).2.1.cache.line (line cfg g st s i j k false).1
      (elementIndex i j k) = A (i, j, k) := by
  have hb := ArraySize.blockIndex_lt hmem.1 hmem.2.1 hmem.2.2
  obtain ⟨hcoherent, hholds, _, _⟩ := line_spec h hg hst hmem false
  have ho := ArraySize.inBlock_elementIndex hg hmem.1 hmem.2.1 hmem.2.2
  rw [hcoherent.line _ hb _ hholds _ ho, blocksOf, ArraySize.coord_blockIndex hmem.1 hmem.2.1]

theorem getBlock_spec (h : Coherent cfg g view (blocksOf g A) s) (hg : g.Small)
    (hst : Lossless g st view) {b : ℕ} (hb : b < g.blocks) (mem : ℤ → α) (m : Strided) :
    Coherent cfg g view (blocksOf g A) (getBlock cfg g st s b mem m).1 ∧
      (getBlock cfg g st s b mem m).2 =
        lineGet (blocksOf g A b) (g.blockShape b) m mem := by
  rcases s.cache.lookup_cases cfg (cacheIndex b) false (by simp) with
    ⟨p, hhome, hhit, hlookup⟩ | ⟨hmiss, hlookup⟩
  · simp only [getBlock, hlookup]
    refine ⟨h, lineGet_congr ?_ m mem⟩
    exact h.line b hb p ⟨Cache.Home.le cfg hhome, hhit⟩
  · simp only [getBlock, hlookup]
    constructor
    · refine ⟨h.home, h.unique, h.line, ?_⟩
      intro b' hb' hclean o ho
      exact (hst.decodeStrided_view _ _ _ _ _ _ hb hb' ho).trans (h.store b' hb' hclean o ho)
    · rw [hst.decodeStrided _ _ _ _ hb]
      apply lineGet_congr
      apply h.store b hb
      intro i hi
      exact absurd hi (h.not_holds hg hb hmiss i)

def putArray (g : ArraySize) (A : ℕ × ℕ × ℕ → α) (b : ℕ) (mem : ℤ → α) (m : Strided)
    (x : ℕ × ℕ × ℕ) : α :=
  if g.Mem x ∧ g.blockIndex x.1 x.2.1 x.2.2 = b then
    mem (m.addr (elementIndex x.1 x.2.1 x.2.2)) else A x

theorem putArray_self (hg : g.Small) {b o : ℕ} (hb : b < g.blocks)
    (ho : InBlock (g.blockShape b) o) (mem : ℤ → α) (m : Strided) :
    blocksOf g (putArray g A b mem m) b o = mem (m.addr o) := by
  obtain ⟨ho64, hmem⟩ := ArraySize.mem_coord hg hb ho
  rw [blocksOf, putArray, if_pos ⟨hmem, ArraySize.blockIndex_coord ho64⟩,
    ArraySize.elementIndex_coord ho64]

theorem putArray_ne (hg : g.Small) {b b' o : ℕ} (hb' : b' < g.blocks) (hne : b' ≠ b)
    (ho : InBlock (g.blockShape b') o) (mem : ℤ → α) (m : Strided) :
    blocksOf g (putArray g A b mem m) b' o = blocksOf g A b' o := by
  obtain ⟨ho64, _⟩ := ArraySize.mem_coord hg hb' ho
  rw [blocksOf, putArray, if_neg, blocksOf]
  rintro ⟨_, hb⟩
  rw [ArraySize.blockIndex_coord ho64] at hb
  exact hne hb

theorem putBlock_spec (h : Coherent cfg g view (blocksOf g A) s) (hg : g.Small)
    (hst : Lossless g st view) {b : ℕ} (hb : b < g.blocks)
    (hsafe : s.cache.MarkSafe cfg (cacheIndex b)) (mem : ℤ → α) (m : Strided) :
    Coherent cfg g view (blocksOf g (putArray g A b mem m)) (putBlock cfg g st s b mem m) := by
  rcases s.cache.lookup_cases cfg (cacheIndex b) true (fun _ => hsafe) with
    ⟨p, hhome, hhit, hlookup⟩ | ⟨hmiss, hlookup⟩
  · simp only [putBlock, hlookup, if_true]
    have hholds : Holds s.cache p b := ⟨Cache.Home.le cfg hhome, hhit⟩
    have hmark := s.cache.tag_markSlot p
    have hholds' : Holds (s.cache.markSlot p) p b := by
      refine ⟨hholds.1, ?_⟩
      rw [hmark, Tag.index_mark, hhit]
    refine (h.markSlot hb hholds hhome).setLine hg hb hholds' ?_ ?_ ?_
    · change ((s.cache.markSlot p).tag p).dirty = true
      rw [hmark, Tag.dirty_mark]
    · intro o ho
      rw [linePut_inBlock ho, putArray_self hg hb ho]
    · intro b' hb' hne o ho
      exact putArray_ne hg hb' hne ho mem m
  · simp only [putBlock, hlookup]
    have hfree := h.not_holds hg hb hmiss
    refine ⟨h.home, h.unique, ?_, ?_⟩
    · intro b' hb' i hi o ho
      have hne : b' ≠ b := by
        rintro rfl
        exact hfree i hi
      exact (h.line b' hb' i hi o ho).trans (putArray_ne hg hb' hne ho mem m).symm
    · intro b' hb' hclean o ho
      rcases eq_or_ne b' b with rfl | hne
      · rw [putArray_self hg hb' ho]
        exact hst.encodeStrided_self _ _ _ _ _ hb' ho
      · rw [putArray_ne hg hb' hne ho]
        exact (hst.encodeStrided_ne _ _ _ _ _ _ hb hb' hne ho).trans (h.store b' hb' hclean o ho)

/-! ## Flushing -/

theorem flushSlot_eq (s : BlockCache σ α) (back : List (WriteBack α)) (k : ℕ) :
    flushSlot st (s, back) k =
      if (s.cache.tag k).used then (release st s k, back ++ released s k) else (s, back) := by
  by_cases hused : (s.cache.tag k).used = true
  · rcases hdirty : (s.cache.tag k).dirty with _ | _
    · simp [flushSlot, release, released, hused, hdirty]
    · simp [flushSlot, release, released, hused, hdirty]
  · simp [flushSlot, hused]

/-- After the first slots have been flushed they are not in use. -/
theorem flush_loop (h : Coherent cfg g view B s) (hg : g.Small) (hst : Lossless g st view)
    {n : ℕ} (hn : n ≤ s.cache.mask.toNat + 1) :
    Coherent cfg g view B ((List.range n).foldl (flushSlot st) (s, [])).1 ∧
      ((List.range n).foldl (flushSlot st) (s, [])).1.cache.mask = s.cache.mask ∧
      (∀ k < n, (((List.range n).foldl (flushSlot st) (s, [])).1.cache.tag k).used = false) ∧
      BackOk g B ((List.range n).foldl (flushSlot st) (s, [])).2 := by
  induction n with
  | zero => exact ⟨h, rfl, by simp, by simp [BackOk]⟩
  | succ n ih =>
    obtain ⟨hcoherent, hmask, hunused, hback⟩ := ih (by omega)
    rw [List.range_succ, List.foldl_append, List.foldl_cons, List.foldl_nil]
    generalize (List.range n).foldl (flushSlot st) (s, []) = r at *
    obtain ⟨r, back⟩ := r
    rw [flushSlot_eq]
    split_ifs with hused
    · obtain ⟨hrel, hrelback⟩ := hcoherent.release hg hst (k := n) (by rw [hmask]; omega)
      refine ⟨hrel, hmask, ?_, ?_⟩
      · intro k hk
        change (Function.update r.cache.tag n Tag.unused k).used = false
        rcases eq_or_ne k n with rfl | hne
        · rw [Function.update_self, Tag.used_unused]
        · rw [Function.update_of_ne hne]
          exact hunused k (by omega)
      · intro w hw
        rcases List.mem_append.mp hw with hw | hw
        · exact hback w hw
        · exact hrelback w hw
    · refine ⟨hcoherent, hmask, ?_, hback⟩
      intro k hk
      rcases eq_or_ne k n with rfl | hne
      · exact Bool.eq_false_iff.mpr hused
      · exact hunused k (by omega)

/-- In a cache without used lines the store holds every block. -/
theorem Coherent.view_eq (h : Coherent cfg g view B s) (hg : g.Small)
    (hunused : ∀ k ≤ s.cache.mask.toNat, (s.cache.tag k).used = false) {b : ℕ}
    (hb : b < g.blocks) {o : ℕ} (ho : InBlock (g.blockShape b) o) : view s.store b o = B b o := by
  apply h.store b hb _ o ho
  intro k hk
  have hne : (s.cache.tag k).index ≠ 0 := by
    rw [hk.2]
    exact cacheIndex_ne_zero (lt_trans hb hg)
  have hfalse := hunused k hk.1
  rw [Tag.used_of_index hne] at hfalse
  cases hfalse

theorem coherent_of_unused (hg : g.Small)
    (hunused : ∀ k ≤ s.cache.mask.toNat, (s.cache.tag k).used = false)
    (hview : ∀ b < g.blocks, ∀ o, InBlock (g.blockShape b) o → view s.store b o = B b o) :
    Coherent cfg g view B s := by
  have hfree {b k : ℕ} (hb : b < g.blocks) : ¬ Holds s.cache k b := by
    intro hk
    have hne : (s.cache.tag k).index ≠ 0 := by
      rw [hk.2]
      exact cacheIndex_ne_zero (lt_trans hb hg)
    have hfalse := hunused k hk.1
    rw [Tag.used_of_index hne] at hfalse
    cases hfalse
  refine ⟨?_, ?_, ?_, ?_⟩
  · intro k hk hused
    rw [hunused k hk] at hused
    cases hused
  · intro b hb k _ hk
    exact absurd hk (hfree hb)
  · intro b hb k hk
    exact absurd hk (hfree hb)
  · intro b hb _
    exact hview b hb

theorem flush_spec (h : Coherent cfg g view B s) (hg : g.Small) (hst : Lossless g st view) :
    Coherent cfg g view B (flush st s).1 ∧
      (∀ k ≤ (flush st s).1.cache.mask.toNat, ((flush st s).1.cache.tag k).used = false) ∧
      BackOk g B (flush st s).2 := by
  obtain ⟨hcoherent, hmask, hunused, hback⟩ := flush_loop h hg hst (Nat.le_refl _)
  refine ⟨hcoherent, ?_, hback⟩
  intro k hk
  apply hunused
  rw [flush, hmask] at hk
  omega

theorem resize_spec (h : Coherent cfg g view B s) (hg : g.Small) (hst : Lossless g st view)
    {lineBytes bytes : ℕ} (fresh : ℕ → ℕ → α)
    (hfit : ∀ n, lines lineBytes bytes g.blocks = .ok n → n.toNat ≤ 2 ^ 31) :
    ∃ s' back, resize g st lineBytes s bytes fresh = some (s', Output.done, back) ∧
      Coherent cfg g view B s' ∧ BackOk g B back := by
  obtain ⟨hcoherent, hunused, hback⟩ := flush_spec h hg hst
  obtain ⟨n, hn⟩ := exists_lines lineBytes bytes hg
  obtain ⟨c, hc⟩ := Option.isSome_iff_exists.mp
    (((flush st s).1.cache.isSome_resize n fresh).mpr (hfit n hn))
  refine ⟨⟨c, (flush st s).1.store⟩, (flush st s).2, ?_, ?_, hback⟩
  · simp only [resize, hn, hc, Option.map_some]
  · apply coherent_of_unused hg
    · intro k hk
      dsimp only
      rw [Cache.tag_resize hc hk, Tag.used_unused]
    · intro b hb o ho
      exact hcoherent.view_eq hg hunused hb ho

end BlockCache

end Zfp

import Zfp.CacheCoherence

/-!
# Caches of arrays that are only read

The lines of such a cache are never modified, and nothing is written back. A store that decodes
each block alike whenever it is asked, lossy or not, is therefore read like a plain array.
-/

namespace Zfp.BlockCache

variable {σ α : Type} (cfg : CacheConfig) (g : ArraySize) (st : Store σ α) (lineBytes : ℕ)

/-- The operations of a read-only array on its cache. -/
inductive CacheRead (α : Type)
  | get (i j k : ℕ)
  | getBlock (blockIndex : ℕ) (mem : ℤ → α) (m : Strided)
  | flush
  | clear
  | resize (bytes : ℕ) (fresh : ℕ → ℕ → α)

def readStep (s : BlockCache σ α) :
    CacheRead α → Option (BlockCache σ α × Output α × List (WriteBack α))
  | .get i j k => step cfg g st lineBytes s (.get i j k)
  | .getBlock blockIndex mem m => step cfg g st lineBytes s (.getBlock blockIndex mem m)
  | .flush => step cfg g st lineBytes s .flush
  -- empty cache without compressing modified cached blocks
  | .clear => some ({ s with cache := s.cache.clear }, Output.done, [])
  | .resize bytes fresh => step cfg g st lineBytes s (.resize bytes fresh)

def CacheRead.Valid : CacheRead α → Prop
  | .get i j k => g.Mem (i, j, k)
  | .getBlock b _ _ => b < g.blocks
  | .flush | .clear => True
  | .resize bytes _ => ∀ n, lines lineBytes bytes g.blocks = .ok n → n.toNat ≤ 2 ^ 31

def CacheRead.spec (A : ℕ × ℕ × ℕ → α) : CacheRead α → Output α
  | .get i j k => Output.value (A (i, j, k))
  | .getBlock b mem m => Output.memory (lineGet (fun o => A (g.coord b o)) (g.blockShape b) m mem)
  | .flush | .clear | .resize _ _ => Output.done

/-- The stores `P` hold the array `A`: decoding a block gives its elements, and such a store. -/
structure Steady (P : σ → Prop) (A : ℕ × ℕ × ℕ → α) : Prop where
  decode : ∀ s, P s → ∀ b < g.blocks, ∀ a, P (st.decode s b a).2 ∧
    ∀ o, InBlock (g.blockShape b) o → (st.decode s b a).1 o = A (g.coord b o)
  decodeStrided : ∀ s, P s → ∀ b < g.blocks, ∀ mem m, P (st.decodeStrided s b mem m).2 ∧
    (st.decodeStrided s b mem m).1 =
      lineGet (fun o => A (g.coord b o)) (g.blockShape b) m mem

/-- No line is dirty, and the lines hold the blocks of the array. -/
structure Clean (P : σ → Prop) (A : ℕ × ℕ × ℕ → α) (s : BlockCache σ α) : Prop where
  store : P s.store
  clean : ∀ k ≤ s.cache.mask.toNat, (s.cache.tag k).dirty = false
  line : ∀ b < g.blocks, ∀ k, Holds s.cache k b → ∀ o, InBlock (g.blockShape b) o →
    s.cache.line k o = A (g.coord b o)

variable {cfg g st lineBytes} {P : σ → Prop} {A : ℕ × ℕ × ℕ → α} {s : BlockCache σ α}

theorem clean_of_unused (hg : g.Small) (hstore : P s.store)
    (hunused : ∀ k ≤ s.cache.mask.toNat, (s.cache.tag k).used = false) : Clean g P A s := by
  refine ⟨hstore, fun k hk => ?_, fun b hb k hk => ?_⟩
  · by_contra hdirty
    have hused := dirty_used (Bool.eq_true_of_not_eq_false hdirty)
    rw [hunused k hk] at hused
    cases hused
  · have hne : (s.cache.tag k).index ≠ 0 := by
      rw [hk.2]
      exact cacheIndex_ne_zero (lt_trans hb hg)
    have hused := Tag.used_of_index hne
    rw [hunused k hk.1] at hused
    cases hused

theorem Clean.flushLine (h : Clean g P A s) (hg : g.Small) (k : ℕ) :
    Clean g P A { s with cache := s.cache.flushLine k } := by
  refine ⟨h.store, fun i hi => ?_, fun b hb i hi => ?_⟩
  · change (Function.update s.cache.tag k Tag.unused i).dirty = false
    rcases eq_or_ne i k with rfl | hne
    · rw [Function.update_self]
      decide
    · rw [Function.update_of_ne hne]
      exact h.clean i hi
  · exact h.line b hb i ((holds_flushLine (lt_trans hb hg)).mp hi).2

theorem Clean.fetched (h : Clean g P A s) (hg : g.Small) (hst : Steady g st P A) {b k : ℕ}
    (hb : b < g.blocks) (hk : k ≤ s.cache.mask.toNat) :
    Clean g P A (BlockCache.fetched st s b k false) := by
  obtain ⟨hstore, hvalues⟩ := hst.decode s.store h.store b hb (s.cache.line k)
  refine ⟨hstore, fun i hi => ?_, fun b' hb' i hi o ho => ?_⟩
  · rcases eq_or_ne i k with rfl | hne
    · exact dirty_fetched hg hb
    · rw [tag_fetched_of_ne hne]
      exact h.clean i hi
  · rw [holds_fetched hg hb hb' hk] at hi
    split_ifs at hi with hik
    · subst hi hik
      rw [line_fetched]
      exact hvalues o ho
    · rw [line_fetched_of_ne hik]
      exact h.line b' hb' i hi o ho

variable (cfg) in
/-- The line of an element is in the cache after an access to it. -/
theorem Clean.access (h : Clean g P A s) (hg : g.Small) (hst : Steady g st P A) {i j k : ℕ}
    (hmem : g.Mem (i, j, k)) :
    Clean g P A (BlockCache.line cfg g st s i j k false).2.1 ∧
      Holds (BlockCache.line cfg g st s i j k false).2.1.cache
        (BlockCache.line cfg g st s i j k false).1 (g.blockIndex i j k) ∧
      (BlockCache.line cfg g st s i j k false).2.2 = [] := by
  have hb := ArraySize.blockIndex_lt hmem.1 hmem.2.1 hmem.2.2
  obtain ⟨p, hhome, hhit, hline⟩ | ⟨p, hhome, -, hline⟩ := line_cases cfg st s hg hmem false
  · rw [hline]
    exact ⟨h, ⟨hhome.le, hhit⟩, rfl⟩
  · have hclean := h.clean p hhome.le
    have hrelease : release st s p = { s with cache := s.cache.flushLine p } := by
      rw [release, hclean]
      rfl
    have hreleased : released s p = [] := by
      rw [released, hclean]
      rfl
    rw [hline, hrelease]
    exact ⟨(h.flushLine hg p).fetched hg hst hb hhome.le, ⟨hhome.le, index_fetched hg hb⟩,
      hreleased⟩

variable (cfg) in
theorem Clean.getBlock (h : Clean g P A s) (hst : Steady g st P A) {b : ℕ} (hb : b < g.blocks)
    (mem : ℤ → α) (m : Strided) :
    Clean g P A (BlockCache.getBlock cfg g st s b mem m).1 ∧
      (BlockCache.getBlock cfg g st s b mem m).2 =
        lineGet (fun o => A (g.coord b o)) (g.blockShape b) m mem := by
  rcases s.cache.lookup_cases cfg (cacheIndex b) false (by simp) with
    ⟨p, hhome, hhit, hlookup⟩ | ⟨-, hlookup⟩
  · simp only [BlockCache.getBlock, hlookup]
    exact ⟨h, lineGet_congr (h.line b hb p ⟨hhome.le, hhit⟩) m mem⟩
  · simp only [BlockCache.getBlock, hlookup]
    obtain ⟨hstore, hvalues⟩ := hst.decodeStrided s.store h.store b hb mem m
    exact ⟨⟨hstore, h.clean, h.line⟩, hvalues⟩

variable (st) in
/-- A flush finds nothing to write back, and leaves no line in use. -/
theorem Clean.flush (h : Clean g P A s) (hg : g.Small) :
    Clean g P A (BlockCache.flush st s).1 ∧ (BlockCache.flush st s).2 = [] := by
  have hloop : ∀ n ≤ s.cache.mask.toNat + 1,
      Clean g P A ((List.range n).foldl (flushSlot st) (s, [])).1 ∧
        ((List.range n).foldl (flushSlot st) (s, [])).1.cache.mask = s.cache.mask ∧
        ((List.range n).foldl (flushSlot st) (s, [])).2 = [] := by
    intro n hn
    induction n with
    | zero => exact ⟨h, rfl, rfl⟩
    | succ n ih =>
      obtain ⟨hclean, hmask, hback⟩ := ih (by omega)
      rw [List.range_succ, List.foldl_append, List.foldl_cons, List.foldl_nil]
      generalize (List.range n).foldl (flushSlot st) (s, []) = r at *
      obtain ⟨r, back⟩ := r
      dsimp only at hback hmask
      have hdirty := hclean.clean n (by dsimp only; rw [hmask]; omega)
      rw [flushSlot_eq]
      split_ifs
      · have hrelease : BlockCache.release st r n = { r with cache := r.cache.flushLine n } := by
          simp [BlockCache.release, hdirty]
        have hreleased : released r n = [] := by simp [released, hdirty]
        rw [hrelease, hreleased, hback]
        exact ⟨hclean.flushLine hg n, hmask, rfl⟩
      · exact ⟨hclean, hmask, hback⟩
  obtain ⟨hclean, -, hback⟩ := hloop _ (Nat.le_refl _)
  exact ⟨hclean, hback⟩

variable (cfg) in
/-- An operation of a read-only array returns what it returns on the array of elements, and writes
nothing back. -/
theorem readStep_spec (h : Clean g P A s) (hg : g.Small) (hst : Steady g st P A) {op : CacheRead α}
    (hop : op.Valid g lineBytes) :
    ∃ s', readStep cfg g st lineBytes s op = some (s', op.spec g A, []) ∧ Clean g P A s' := by
  cases op with
  | get i j k =>
    obtain ⟨hclean, hholds, hback⟩ := h.access cfg hg hst hop
    have ho := ArraySize.inBlock_elementIndex hg hop.1 hop.2.1 hop.2.2
    have hvalue := hclean.line _ (ArraySize.blockIndex_lt hop.1 hop.2.1 hop.2.2) _ hholds _ ho
    rw [ArraySize.coord_blockIndex hop.1 hop.2.1] at hvalue
    refine ⟨_, ?_, hclean⟩
    rw [CacheRead.spec, ← hvalue, ← hback]
    rfl
  | getBlock b mem m =>
    obtain ⟨hclean, hvalues⟩ := h.getBlock cfg hst hop mem m
    refine ⟨_, ?_, hclean⟩
    rw [CacheRead.spec, ← hvalues]
    rfl
  | flush =>
    obtain ⟨hclean, hback⟩ := h.flush st hg
    refine ⟨_, ?_, hclean⟩
    rw [CacheRead.spec, ← hback]
    rfl
  | clear =>
    refine ⟨_, rfl, clean_of_unused hg h.store fun k hk => ?_⟩
    dsimp only
    rw [Cache.tag_clear s.cache hk, Tag.used_unused]
  | resize bytes fresh =>
    obtain ⟨hclean, hback⟩ := h.flush st hg
    obtain ⟨n, hn⟩ := exists_lines lineBytes bytes hg
    obtain ⟨c, hc⟩ := Option.isSome_iff_exists.mp
      (((BlockCache.flush st s).1.cache.isSome_resize n fresh).mpr (hop n hn))
    refine ⟨⟨c, (BlockCache.flush st s).1.store⟩, ?_, clean_of_unused hg hclean.store fun k hk => ?_⟩
    · simp only [readStep, step, resize, hn, hc, Option.map_some, hback]
      rfl
    · dsimp only
      rw [Cache.tag_resize hc hk, Tag.used_unused]

end Zfp.BlockCache

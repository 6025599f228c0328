import Mathlib.Data.List.Forall2
import Zfp.BlockCache

/-!
# Simulation of a cache by another one

Tags, look-ups and replacement do not depend on the values in the lines. Two caches over stores
that keep a relation between values and between their contents take the same steps, and return
related values.
-/

namespace Zfp

variable {σ σ' α β : Type}

/-- Two caches with the same tags, whose lines are related value by value. -/
structure CacheRel (R : α → β → Prop) (c : Cache (ℕ → α)) (c' : Cache (ℕ → β)) : Prop where
  mask : c.mask = c'.mask
  tag : c.tag = c'.tag
  line : ∀ k o, R (c.line k o) (c'.line k o)

/-- Two stores that keep the relation `R` of values and the relation `Q` of their contents. -/
structure StoreRel (R : α → β → Prop) (Q : σ → σ' → Prop) (st : Store σ α) (st' : Store σ' β) :
    Prop where
  encode : ∀ {s s'} b {a a'}, Q s s' → (∀ o, R (a o) (a' o)) →
    Q (st.encode s b a) (st'.encode s' b a')
  encodeStrided : ∀ {s s'} b {mem mem'} m, Q s s' → (∀ x, R (mem x) (mem' x)) →
    Q (st.encodeStrided s b mem m) (st'.encodeStrided s' b mem' m)
  decode : ∀ {s s'} b {a a'}, Q s s' → (∀ o, R (a o) (a' o)) →
    (∀ o, R ((st.decode s b a).1 o) ((st'.decode s' b a').1 o)) ∧
      Q (st.decode s b a).2 (st'.decode s' b a').2
  decodeStrided : ∀ {s s'} b {mem mem'} m, Q s s' → (∀ x, R (mem x) (mem' x)) →
    (∀ x, R ((st.decodeStrided s b mem m).1 x) ((st'.decodeStrided s' b mem' m).1 x)) ∧
      Q (st.decodeStrided s b mem m).2 (st'.decodeStrided s' b mem' m).2

/-- Caches and stores that are related. -/
structure BlockCacheRel (R : α → β → Prop) (Q : σ → σ' → Prop) (s : BlockCache σ α)
    (s' : BlockCache σ' β) : Prop where
  cache : CacheRel R s.cache s'.cache
  store : Q s.store s'.store

namespace BlockCache

/-- The same operation on related values. -/
inductive OpRel (R : α → β → Prop) : Op α → Op β → Prop
  | get (i j k : ℕ) : OpRel R (.get i j k) (.get i j k)
  | set (i j k : ℕ) {val : α} {val' : β} (h : R val val') :
      OpRel R (.set i j k val) (.set i j k val')
  | ref (i j k : ℕ) {val : α} {val' : β} (h : R val val') :
      OpRel R (.ref i j k val) (.ref i j k val')
  | getBlock (b : ℕ) {mem : ℤ → α} {mem' : ℤ → β} (m : Strided) (h : ∀ x, R (mem x) (mem' x)) :
      OpRel R (.getBlock b mem m) (.getBlock b mem' m)
  | putBlock (b : ℕ) {mem : ℤ → α} {mem' : ℤ → β} (m : Strided) (h : ∀ x, R (mem x) (mem' x)) :
      OpRel R (.putBlock b mem m) (.putBlock b mem' m)
  | flush : OpRel R .flush .flush
  | resize (bytes : ℕ) {fresh : ℕ → ℕ → α} {fresh' : ℕ → ℕ → β}
      (h : ∀ k o, R (fresh k o) (fresh' k o)) : OpRel R (.resize bytes fresh) (.resize bytes fresh')

/-- Results that differ in related values only. -/
inductive OutputRel (R : α → β → Prop) : Output α → Output β → Prop
  | done : OutputRel R .done .done
  | value {val : α} {val' : β} (h : R val val') : OutputRel R (.value val) (.value val')
  | memory {mem : ℤ → α} {mem' : ℤ → β} (h : ∀ x, R (mem x) (mem' x)) :
      OutputRel R (.memory mem) (.memory mem')
  | exception (what : String) : OutputRel R (.exception what) (.exception what)

theorem OutputRel.mono {R R' : α → β → Prop} {out : Output α} {out' : Output β}
    (h : OutputRel R out out') (hR : ∀ a b, R a b → R' a b) : OutputRel R' out out' := by
  cases h with
  | done => exact .done
  | value h => exact .value (hR _ _ h)
  | memory h => exact .memory fun x => hR _ _ (h x)
  | exception what => exact .exception what

theorem OpRel.refl {R : α → α → Prop} (hR : ∀ a, R a a) (op : Op α) : OpRel R op op := by
  cases op with
  | get i j k => exact .get i j k
  | set i j k val => exact .set i j k (hR val)
  | ref i j k val => exact .ref i j k (hR val)
  | getBlock b mem m => exact .getBlock b m fun x => hR _
  | putBlock b mem m => exact .putBlock b m fun x => hR _
  | flush => exact .flush
  | resize bytes fresh => exact .resize bytes fun k o => hR _

/-! ## Lines -/

section

variable {R : α → β → Prop} {c : Cache (ℕ → α)} {c' : Cache (ℕ → β)}

theorem rel_update {κ : Type} [DecidableEq κ] {a : κ → α} {a' : κ → β} (h : ∀ o, R (a o) (a' o))
    (e : κ) {v : α} {v' : β} (hv : R v v') (o : κ) :
    R (Function.update a e v o) (Function.update a' e v' o) := by
  rw [Function.update_apply, Function.update_apply]
  split_ifs
  · exact hv
  · exact h o

/-- Related values that are stored one by one. -/
theorem rel_foldl {ε κ : Type} [DecidableEq κ] (key : ε → κ) {f : ε → α} {f' : ε → β}
    (hf : ∀ e, R (f e) (f' e)) (L : List ε) {mem : κ → α} {mem' : κ → β}
    (h : ∀ x, R (mem x) (mem' x)) (x : κ) :
    R (L.foldl (fun mem e => Function.update mem (key e) (f e)) mem x)
      (L.foldl (fun mem e => Function.update mem (key e) (f' e)) mem' x) := by
  induction L generalizing mem mem' with
  | nil => exact h x
  | cons e L ih => exact ih (rel_update h (key e) (hf e))

theorem rel_walkBlock {κ : Type} [DecidableEq κ] (key : ℕ × ℤ → κ) {f : ℕ × ℤ → α}
    {f' : ℕ × ℤ → β} (hf : ∀ e, R (f e) (f' e)) (shape : ℕ) (m : Strided) {mem : κ → α}
    {mem' : κ → β} (h : ∀ x, R (mem x) (mem' x)) (x : κ) :
    R (walkBlock (fun mem e => Function.update mem (key e) (f e)) shape m mem x)
      (walkBlock (fun mem e => Function.update mem (key e) (f' e)) shape m mem' x) := by
  rw [walkBlock_eq, walkBlock_eq]
  exact rel_foldl key hf _ h x

theorem CacheRel.setLine (h : CacheRel R c c') (k : ℕ) {a : ℕ → α} {a' : ℕ → β}
    (ha : ∀ o, R (a o) (a' o)) : CacheRel R (c.setLine k a) (c'.setLine k a') := by
  refine ⟨h.mask, h.tag, fun i o => ?_⟩
  change R (Function.update c.line k a i o) (Function.update c'.line k a' i o)
  rcases eq_or_ne i k with rfl | hne
  · rw [Function.update_self, Function.update_self]
    exact ha o
  · rw [Function.update_of_ne hne, Function.update_of_ne hne]
    exact h.line i o

theorem CacheRel.flushLine (h : CacheRel R c c') (k : ℕ) :
    CacheRel R (c.flushLine k) (c'.flushLine k) := by
  refine ⟨h.mask, ?_, h.line⟩
  rw [Cache.flushLine, Cache.flushLine, h.tag]

theorem CacheRel.resize (h : CacheRel R c c') (n : BitVec 32) {fresh : ℕ → ℕ → α}
    {fresh' : ℕ → ℕ → β} (hfresh : ∀ k o, R (fresh k o) (fresh' k o)) :
    Option.Rel (CacheRel R) (c.resize n fresh) (c'.resize n fresh') := by
  rw [Cache.resize, Cache.resize]
  split_ifs
  · refine .some ⟨rfl, ?_, hfresh⟩
    simp only [Cache.clear, h.tag]
  · exact .none

theorem CacheRel.access (h : CacheRel R c c') (cfg : CacheConfig) (x : BitVec 32) (write : Bool) :
    (c.access cfg x write).1 = (c'.access cfg x write).1 ∧
      (c.access cfg x write).2.1 = (c'.access cfg x write).2.1 ∧
      CacheRel R (c.access cfg x write).2.2 (c'.access cfg x write).2.2 := by
  obtain ⟨mask, _, tag, l⟩ := c
  obtain ⟨mask', _, tag', l'⟩ := c'
  obtain ⟨hmask, htag, hline⟩ := h
  dsimp only at hmask htag hline
  subst hmask htag
  simp only [Cache.access, Cache.primary, Cache.secondary, Cache.victim, Cache.markSlot]
  cases write with
  | false => split_ifs <;> exact ⟨rfl, rfl, rfl, rfl, hline⟩
  | true => split_ifs <;> exact ⟨rfl, rfl, rfl, rfl, hline⟩

theorem CacheRel.lookup (h : CacheRel R c c') (cfg : CacheConfig) (x : BitVec 32) (write : Bool) :
    (c.lookup cfg x write).1 = (c'.lookup cfg x write).1 ∧
      CacheRel R (c.lookup cfg x write).2 (c'.lookup cfg x write).2 := by
  obtain ⟨mask, _, tag, l⟩ := c
  obtain ⟨mask', _, tag', l'⟩ := c'
  obtain ⟨hmask, htag, hline⟩ := h
  dsimp only at hmask htag hline
  subst hmask htag
  simp only [Cache.lookup, Cache.primary, Cache.secondary, Cache.markSlot]
  cases write with
  | false => split_ifs <;> exact ⟨rfl, rfl, rfl, hline⟩
  | true => split_ifs <;> exact ⟨rfl, rfl, rfl, hline⟩

end

/-! ## Operations -/

section

variable (cfg : CacheConfig) (g : ArraySize) (lineBytes : ℕ) {R : α → β → Prop}
  {Q : σ → σ' → Prop} {st : Store σ α} {st' : Store σ' β} {s : BlockCache σ α}
  {s' : BlockCache σ' β}

theorem line_related (hst : StoreRel R Q st st') (h : BlockCacheRel R Q s s') (i j k : ℕ)
    (write : Bool) :
    (line cfg g st s i j k write).1 = (line cfg g st' s' i j k write).1 ∧
      BlockCacheRel R Q (line cfg g st s i j k write).2.1 (line cfg g st' s' i j k write).2.1 := by
  rw [line, line]
  obtain ⟨hp, htag, hcache⟩ := CacheRel.access h.cache cfg (cacheIndex (g.blockIndex i j k)) write
  generalize s.cache.access cfg (cacheIndex (g.blockIndex i j k)) write = r at hp htag hcache ⊢
  generalize s'.cache.access cfg (cacheIndex (g.blockIndex i j k)) write = r' at hp htag hcache ⊢
  obtain ⟨p, tag, c⟩ := r
  obtain ⟨p', tag', c'⟩ := r'
  dsimp only at hp htag hcache
  subst hp htag
  dsimp only
  split_ifs with hmiss hdirty
  · have hback := hst.encode (tag.index - 1).toNat h.store (hcache.line p)
    obtain ⟨hfetch, hstore⟩ := hst.decode (g.blockIndex i j k) hback (hcache.line p)
    exact ⟨rfl, CacheRel.setLine hcache p hfetch, hstore⟩
  · obtain ⟨hfetch, hstore⟩ := hst.decode (g.blockIndex i j k) h.store (hcache.line p)
    exact ⟨rfl, CacheRel.setLine hcache p hfetch, hstore⟩
  · exact ⟨rfl, hcache, h.store⟩

theorem assign_related (hst : StoreRel R Q st st') (h : BlockCacheRel R Q s s') (i j k : ℕ)
    {val : α} {val' : β} (hval : R val val') :
    BlockCacheRel R Q (assign cfg g st s i j k val).1 (assign cfg g st' s' i j k val').1 := by
  obtain ⟨hp, hline⟩ := line_related cfg g hst h i j k true
  refine ⟨?_, hline.store⟩
  rw [assign, assign]
  dsimp only
  rw [hp]
  exact CacheRel.setLine hline.cache _ (rel_update (hline.cache.line _) _ hval)

theorem flushSlot_related (hst : StoreRel R Q st st') {r : BlockCache σ α × List (WriteBack α)}
    {r' : BlockCache σ' β × List (WriteBack β)} (h : BlockCacheRel R Q r.1 r'.1) (i : ℕ) :
    BlockCacheRel R Q (flushSlot st r i).1 (flushSlot st' r' i).1 := by
  rw [flushSlot, flushSlot, h.cache.tag]
  dsimp only
  split_ifs with hused hdirty
  · exact ⟨CacheRel.flushLine h.cache i, hst.encode _ h.store (h.cache.line i)⟩
  · exact ⟨CacheRel.flushLine h.cache i, h.store⟩
  · exact h

theorem flush_related (hst : StoreRel R Q st st') (h : BlockCacheRel R Q s s') :
    BlockCacheRel R Q (flush st s).1 (flush st' s').1 := by
  rw [flush, flush, h.cache.mask]
  have hloop : ∀ (l : List ℕ) (r : BlockCache σ α × List (WriteBack α))
      (r' : BlockCache σ' β × List (WriteBack β)), BlockCacheRel R Q r.1 r'.1 →
      BlockCacheRel R Q (l.foldl (flushSlot st) r).1 (l.foldl (flushSlot st') r').1 := by
    intro l
    induction l with
    | nil => exact fun _ _ hr => hr
    | cons i l ih => exact fun r r' hr => ih _ _ (flushSlot_related hst hr i)
  exact hloop _ _ _ h

/-- One operation on related caches. -/
theorem step_related (hst : StoreRel R Q st st') (h : BlockCacheRel R Q s s') {op : Op α}
    {op' : Op β} (hop : OpRel R op op') :
    Option.Rel (fun r r' => BlockCacheRel R Q r.1 r'.1 ∧ OutputRel R r.2.1 r'.2.1)
      (step cfg g st lineBytes s op) (step cfg g st' lineBytes s' op') := by
  cases hop with
  | get i j k =>
    obtain ⟨hp, hline⟩ := line_related cfg g hst h i j k false
    rw [step, step]
    dsimp only
    rw [hp]
    exact .some ⟨hline, .value (hline.cache.line _ _)⟩
  | set i j k hval => exact .some ⟨assign_related cfg g hst h i j k hval, .done⟩
  | ref i j k hval => exact .some ⟨assign_related cfg g hst h i j k hval, .done⟩
  | getBlock b m hmem =>
    obtain ⟨hp, hcache⟩ := CacheRel.lookup h.cache cfg (cacheIndex b) false
    rw [step, step, getBlock, getBlock]
    generalize s.cache.lookup cfg (cacheIndex b) false = r at hp hcache ⊢
    generalize s'.cache.lookup cfg (cacheIndex b) false = r' at hp hcache ⊢
    obtain ⟨p, c⟩ := r
    obtain ⟨p', c'⟩ := r'
    dsimp only at hp hcache
    subst hp
    cases p with
    | some p =>
      exact .some ⟨⟨hcache, h.store⟩,
        .memory (rel_walkBlock Prod.snd (fun e => hcache.line _ _) _ _ hmem)⟩
    | none =>
      obtain ⟨hout, hstore⟩ := hst.decodeStrided b m h.store hmem
      exact .some ⟨⟨hcache, hstore⟩, .memory hout⟩
  | putBlock b m hmem =>
    obtain ⟨hp, hcache⟩ := CacheRel.lookup h.cache cfg (cacheIndex b) true
    rw [step, step, putBlock, putBlock]
    refine .some ⟨?_, .done⟩
    generalize s.cache.lookup cfg (cacheIndex b) true = r at hp hcache ⊢
    generalize s'.cache.lookup cfg (cacheIndex b) true = r' at hp hcache ⊢
    obtain ⟨p, c⟩ := r
    obtain ⟨p', c'⟩ := r'
    dsimp only at hp hcache
    subst hp
    cases p with
    | some p =>
      refine ⟨CacheRel.setLine hcache p fun o => ?_, h.store⟩
      exact rel_walkBlock Prod.fst (fun e => hmem e.2) _ m (hcache.line p) o
    | none => exact ⟨hcache, hst.encodeStrided b m h.store hmem⟩
  | flush => exact .some ⟨flush_related hst h, .done⟩
  | resize bytes hfresh =>
    have hflush := flush_related hst h
    rw [step, step, resize, resize]
    dsimp only
    cases lines lineBytes bytes g.blocks with
    | error what => exact .some ⟨hflush, .exception what⟩
    | ok n =>
      have hresize := CacheRel.resize hflush.cache n hfresh
      dsimp only
      generalize (flush st s).1.cache.resize n _ = c at hresize ⊢
      generalize (flush st' s').1.cache.resize n _ = c' at hresize ⊢
      cases hresize with
      | some hcache => exact .some ⟨⟨hcache, hflush.store⟩, .done⟩
      | none => exact .none

/-- A run on related caches. -/
theorem run_related (hst : StoreRel R Q st st') {ops : List (Op α)} {ops' : List (Op β)}
    (hops : List.Forall₂ (OpRel R) ops ops') (h : BlockCacheRel R Q s s') :
    Option.Rel (fun q q' => BlockCacheRel R Q q.1 q'.1 ∧ List.Forall₂ (OutputRel R) q.2 q'.2)
      (run cfg g st lineBytes s ops) (run cfg g st' lineBytes s' ops') := by
  induction hops generalizing s s' with
  | nil => exact .some ⟨h, .nil⟩
  | @cons op op' ops ops' hop _ ih =>
    have hstep := step_related cfg g lineBytes hst h hop
    rw [run, run]
    generalize step cfg g st lineBytes s op = r at hstep ⊢
    generalize step cfg g st' lineBytes s' op' = r' at hstep ⊢
    cases hstep with
    | none => exact .none
    | @some r r' hr =>
      have hrun := ih hr.1
      rw [Option.bind_some, Option.bind_some]
      generalize run cfg g st lineBytes r.1 ops = q at hrun ⊢
      generalize run cfg g st' lineBytes r'.1 ops' = q' at hrun ⊢
      cases hrun with
      | none => exact .none
      | some hq => exact .some ⟨hq.1, .cons hr.2 hq.2⟩

end

end BlockCache

end Zfp

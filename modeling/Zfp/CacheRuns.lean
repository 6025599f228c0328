import Zfp.CacheCoherence

/-!
# Runs of the cache

A sequence of operations on the cache returns what it returns on the array, as long as every
look-up for writing marks the line that it returns. The direct-mapped cache always does. The
two-way cache does not: a look-up that finds a block in its secondary slot marks the tag of the
primary one.
-/

namespace Zfp

/-- A store that keeps blocks of elements as they are. -/
def Store.plain (g : ArraySize) (α : Type) : Store (ℕ → ℕ → α) α where
  encode s b a := Function.update s b a
  encodeStrided s b mem m := Function.update s b (linePut mem (g.blockShape b) m (s b))
  decode s b _ := (s b, s)
  decodeStrided s b mem m := (lineGet (s b) (g.blockShape b) m mem, s)

theorem lossless_plain (g : ArraySize) (α : Type) :
    Lossless g (Store.plain g α) (fun s => s) where
  encode_self s b a o _ _ := by simp [Store.plain]
  encode_ne s b a b' o _ _ hne _ := by simp [Store.plain, hne]
  encodeStrided_self s b mem m o _ ho := by simp [Store.plain, linePut_inBlock ho]
  encodeStrided_ne s b mem m b' o _ _ hne _ := by simp [Store.plain, hne]
  decode _ _ _ _ _ _ := rfl
  decode_view _ _ _ _ _ _ _ _ := rfl
  decodeStrided _ _ _ _ _ := rfl
  decodeStrided_view _ _ _ _ _ _ _ _ _ := rfl

namespace BlockCache

variable {σ α : Type} {cfg : CacheConfig} {g : ArraySize} {st : Store σ α}
  {view : σ → ℕ → ℕ → α} {A : ℕ × ℕ × ℕ → α} {s : BlockCache σ α} {lineBytes : ℕ}

variable (cfg) in
/-- The operation does not put a block that is in its secondary slot, unless the tags of both of
its slots are marked. -/
def Op.MarkSafe (s : BlockCache σ α) : Op α → Prop
  | .putBlock b _ _ => s.cache.MarkSafe cfg (cacheIndex b)
  | _ => True

theorem step_spec (h : Coherent cfg g view (blocksOf g A) s) (hg : g.Small)
    (hst : Lossless g st view) {op : Op α} (hop : op.Valid g) (hfit : op.LinesFit g lineBytes)
    (hsafe : op.MarkSafe cfg s) :
    ∃ s' back, step cfg g st lineBytes s op = some (s', (op.spec g A).2, back) ∧
      Coherent cfg g view (blocksOf g (op.spec g A).1) s' ∧ BackOk g (blocksOf g A) back := by
  cases op with
  | get i j k =>
    obtain ⟨hcoherent, _, _, hback⟩ := line_spec h hg hst hop false
    refine ⟨_, _, ?_, hcoherent, hback⟩
    rw [Op.spec, ← get_spec h hg hst hop]
    rfl
  | set i j k val =>
    obtain ⟨hcoherent, hback⟩ := assign_spec h hg hst hop val
    exact ⟨_, _, rfl, hcoherent, hback⟩
  | ref i j k val =>
    obtain ⟨hcoherent, hback⟩ := assign_spec h hg hst hop val
    exact ⟨_, _, rfl, hcoherent, hback⟩
  | getBlock b mem m =>
    obtain ⟨hcoherent, hmem⟩ := getBlock_spec h hg hst hop mem m
    refine ⟨_, [], ?_, hcoherent, by simp [BackOk]⟩
    rw [Op.spec]
    exact congrArg (fun mem => some (_, Output.memory mem, [])) hmem
  | putBlock b mem m =>
    exact ⟨_, [], rfl, putBlock_spec h hg hst hop hsafe mem m, by simp [BackOk]⟩
  | flush =>
    obtain ⟨hcoherent, _, hback⟩ := flush_spec h hg hst
    exact ⟨_, _, rfl, hcoherent, hback⟩
  | resize bytes fresh => exact resize_spec h hg hst fresh hfit

/-- An operation that returns has not asked for too many lines. -/
theorem linesFit_of_step {op : Op α} {r : BlockCache σ α × Output α × List (WriteBack α)}
    (h : step cfg g st lineBytes s op = some r) : op.LinesFit g lineBytes := by
  cases op with
  | resize bytes fresh =>
    intro n hn
    simp only [step, resize, hn, Option.map_eq_some_iff] at h
    obtain ⟨c, hc, _⟩ := h
    exact (Cache.isSome_resize _ n fresh).mp (Option.isSome_of_eq_some hc)
  | _ => trivial

theorem linesFit_of_run {ops : List (Op α)} {q : BlockCache σ α × List (Output α)}
    (h : run cfg g st lineBytes s ops = some q) : ∀ op ∈ ops, op.LinesFit g lineBytes := by
  induction ops generalizing s q with
  | nil => exact fun op hop => absurd hop List.not_mem_nil
  | cons op ops ih =>
    obtain ⟨r, hr, hrest⟩ := Option.bind_eq_some_iff.mp h
    obtain ⟨q', hq', _⟩ := Option.map_eq_some_iff.mp hrest
    exact List.forall_mem_cons.mpr ⟨linesFit_of_step hr, ih hq'⟩

variable (cfg g st lineBytes) in
/-- A property of every step of a run: of the state before the step and the operation. -/
def EveryStep (P : BlockCache σ α → Op α → Prop) (s : BlockCache σ α) (ops : List (Op α)) : Prop :=
  ∀ ops₁ op ops₂ q, ops = ops₁ ++ op :: ops₂ → run cfg g st lineBytes s ops₁ = some q → P q.1 op

theorem everyStep_cons {P : BlockCache σ α → Op α → Prop} {op : Op α} {ops : List (Op α)} :
    EveryStep cfg g st lineBytes P s (op :: ops) ↔
      P s op ∧ ∀ r, step cfg g st lineBytes s op = some r → EveryStep cfg g st lineBytes P r.1 ops := by
  constructor
  · intro h
    refine ⟨h [] op ops _ rfl rfl, ?_⟩
    rintro r hr ops₁ op' ops₂ q rfl hq
    refine h (op :: ops₁) op' ops₂ (q.1, r.2.1 :: q.2) rfl ?_
    rw [run, hr, Option.bind_some, hq, Option.map_some]
  · rintro ⟨hop, hops⟩ ops₁ op' ops₂ q hsplit hq
    cases ops₁ with
    | nil =>
      obtain ⟨rfl, rfl⟩ := List.cons.inj hsplit
      obtain rfl := Option.some.inj hq
      exact hop
    | cons op'' ops₁ =>
      obtain ⟨rfl, rfl⟩ := List.cons.inj hsplit
      obtain ⟨r, hr, hrest⟩ := Option.bind_eq_some_iff.mp hq
      obtain ⟨q', hq', rfl⟩ := Option.map_eq_some_iff.mp hrest
      exact hops r hr ops₁ op' ops₂ q' rfl hq'

theorem everyStep_nil {P : BlockCache σ α → Op α → Prop} : EveryStep cfg g st lineBytes P s [] := by
  intro ops₁ op ops₂ q hsplit
  cases ops₁ <;> cases hsplit

theorem everyStep_of_step {P : BlockCache σ α → Op α → Prop} {op : Op α} {ops : List (Op α)}
    {r : BlockCache σ α × Output α × List (WriteBack α)} (hop : P s op)
    (hstep : step cfg g st lineBytes s op = some r) (h : EveryStep cfg g st lineBytes P r.1 ops) :
    EveryStep cfg g st lineBytes P s (op :: ops) := by
  refine everyStep_cons.mpr ⟨hop, fun r' hr' => ?_⟩
  obtain rfl := Option.some.inj (hstep.symm.trans hr')
  exact h

/-- A run whose steps mark what they modify stays coherent and returns what the array does. -/
theorem run_spec (h : Coherent cfg g view (blocksOf g A) s) (hg : g.Small)
    (hst : Lossless g st view) {ops : List (Op α)} (hops : ∀ op ∈ ops, op.Valid g)
    (hfit : ∀ op ∈ ops, op.LinesFit g lineBytes)
    (hsafe : EveryStep cfg g st lineBytes (fun s op => op.MarkSafe cfg s) s ops) :
    ∃ s', run cfg g st lineBytes s ops = some (s', specOutputs g A ops) ∧
      Coherent cfg g view (blocksOf g (specRun g A ops)) s' := by
  induction ops generalizing s A with
  | nil => exact ⟨s, rfl, h⟩
  | cons op ops ih =>
    obtain ⟨hop, hops⟩ := List.forall_mem_cons.mp hops
    obtain ⟨hopfit, hfit⟩ := List.forall_mem_cons.mp hfit
    obtain ⟨hopsafe, hsafe⟩ := everyStep_cons.mp hsafe
    obtain ⟨t, back, hstep, ht, _⟩ := step_spec h hg hst hop hopfit hopsafe
    obtain ⟨s', hrun, hs'⟩ := ih ht hops hfit (hsafe _ hstep)
    refine ⟨s', ?_, hs'⟩
    rw [run, hstep, Option.bind_some, hrun]
    rfl

def arrayOf (g : ArraySize) (v : ℕ → ℕ → α) (x : ℕ × ℕ × ℕ) : α :=
  v (g.blockIndex x.1 x.2.1 x.2.2) (elementIndex x.1 x.2.1 x.2.2)

theorem isSome_new (n : BitVec 32) (fresh : ℕ → ℕ → α) (s₀ : σ) :
    (new n fresh s₀).isSome ↔ n.toNat ≤ 2 ^ 31 := by
  rw [new, Option.isSome_map]
  exact Cache.isSome_resize _ n fresh

variable (cfg view) in
theorem coherent_new (hg : g.Small) {n : BitVec 32} {fresh : ℕ → ℕ → α} {s₀ : σ}
    (h : new n fresh s₀ = some s) : Coherent cfg g view (blocksOf g (arrayOf g (view s₀))) s := by
  obtain ⟨c, hc, rfl⟩ := Option.map_eq_some_iff.mp h
  apply coherent_of_unused hg
  · intro k hk
    dsimp only
    rw [Cache.tag_resize hc hk, Tag.used_unused]
  · intro b hb o ho
    obtain ⟨ho64, _⟩ := ArraySize.mem_coord hg hb ho
    rw [blocksOf, arrayOf, ArraySize.blockIndex_coord ho64, ArraySize.elementIndex_coord ho64]

/-- After a flush the store holds the array, and no line is in use. -/
theorem flush_arrayOf (h : Coherent cfg g view (blocksOf g A) s) (hg : g.Small)
    (hst : Lossless g st view) :
    (∀ x, g.Mem x → arrayOf g (view (flush st s).1.store) x = A x) ∧
      ∀ k ≤ (flush st s).1.cache.mask.toNat, ((flush st s).1.cache.tag k).used = false := by
  obtain ⟨hcoherent, hunused, _⟩ := flush_spec h hg hst
  refine ⟨?_, hunused⟩
  rintro ⟨i, j, k⟩ ⟨hi, hj, hk⟩
  have hb := ArraySize.blockIndex_lt hi hj hk
  have ho := ArraySize.inBlock_elementIndex hg hi hj hk
  rw [arrayOf, hcoherent.view_eq hg hunused hb ho, blocksOf, ArraySize.coord_blockIndex hi hj]

/-! ## The direct-mapped cache -/

def direct (fastHash : Bool) : CacheConfig := ⟨false, fastHash⟩

variable (g st lineBytes) in
theorem everyStep_direct (fastHash : Bool) (s : BlockCache σ α) (ops : List (Op α)) :
    EveryStep (direct fastHash) g st lineBytes (fun s op => op.MarkSafe (direct fastHash) s) s
      ops := by
  intro ops₁ op ops₂ q _ _
  cases op with
  | putBlock b mem m => exact Cache.markSafe_of_direct _ _ _ rfl
  | _ => trivial

/-- Over a lossless store, the direct-mapped cache is built and every sequence of operations on it
returns the values last written, hands the store only current blocks under their own index, and a
flush leaves the last written values in the store and no line in use, just in case no more than
2^31 lines are asked for. -/
theorem direct_mapped_coherence_iff (hg : g.Small) (hst : Lossless g st view) (fastHash : Bool)
    (lineBytes : ℕ) (n : BitVec 32) (fresh : ℕ → ℕ → α) (s₀ : σ) {ops : List (Op α)}
    (hops : ∀ op ∈ ops, op.Valid g) :
    (∃ s s', new n fresh s₀ = some s ∧
        run (direct fastHash) g st lineBytes s ops =
          some (s', specOutputs g (arrayOf g (view s₀)) ops) ∧
        (∀ ops₁ op ops₂, ops = ops₁ ++ op :: ops₂ → ∃ t t' out outs back,
          run (direct fastHash) g st lineBytes s ops₁ = some (t, outs) ∧
          step (direct fastHash) g st lineBytes t op = some (t', out, back) ∧
          BackOk g (blocksOf g (specRun g (arrayOf g (view s₀)) ops₁)) back) ∧
        (∀ x, g.Mem x → arrayOf g (view (flush st s').1.store) x =
          specRun g (arrayOf g (view s₀)) ops x) ∧
        BackOk g (blocksOf g (specRun g (arrayOf g (view s₀)) ops)) (flush st s').2 ∧
        ∀ k ≤ (flush st s').1.cache.mask.toNat, ((flush st s').1.cache.tag k).used = false) ↔
      n.toNat ≤ 2 ^ 31 ∧ ∀ op ∈ ops, op.LinesFit g lineBytes := by
  constructor
  · rintro ⟨s, s', hnew, hrun, -⟩
    exact ⟨(isSome_new n fresh s₀).mp (Option.isSome_of_eq_some hnew), linesFit_of_run hrun⟩
  · rintro ⟨hn, hfit⟩
    obtain ⟨s, hnew⟩ := Option.isSome_iff_exists.mp ((isSome_new n fresh s₀).mpr hn)
    have hcoherent := coherent_new (direct fastHash) view hg hnew
    obtain ⟨s', hrun, hs'⟩ := run_spec hcoherent hg hst hops hfit
      (everyStep_direct g st lineBytes fastHash s ops)
    obtain ⟨harray, hunused⟩ := flush_arrayOf hs' hg hst
    refine ⟨s, s', hnew, hrun, ?_, harray, (flush_spec hs' hg hst).2.2, hunused⟩
    rintro ops₁ op ops₂ rfl
    rw [List.forall_mem_append] at hops hfit
    obtain ⟨t, hrun₁, ht⟩ := run_spec hcoherent hg hst hops.1 hfit.1
      (everyStep_direct g st lineBytes fastHash s ops₁)
    obtain ⟨t', back, hstep, _, hback⟩ := step_spec ht hg hst (hops.2 op List.mem_cons_self)
      (hfit.2 op List.mem_cons_self)
      (everyStep_direct g st lineBytes fastHash s (ops₁ ++ op :: ops₂) ops₁ op ops₂ _ rfl hrun₁)
    exact ⟨t, t', _, _, back, hrun₁, hstep, hback⟩

/-- Two blocks in a cache of one line, which is written back whenever the other block is needed. -/
theorem direct_mapped_coherence_evicted :
    ∃ s s', new 1 (fun _ _ => 0) (fun _ _ => 0) = some s ∧
      run (direct false) ⟨8, 4, 4⟩ (Store.plain ⟨8, 4, 4⟩ ℤ) 256 s
          [Op.set 1 2 3 7, Op.set 5 2 3 9, Op.get 1 2 3, Op.flush, Op.get 5 2 3] =
        some (s', [Output.done, Output.done, Output.value 7, Output.done, Output.value 9]) := by
  have hg : ArraySize.Small ⟨8, 4, 4⟩ := by decide
  have hops : ∀ op ∈ [Op.set 1 2 3 (7 : ℤ), Op.set 5 2 3 9, Op.get 1 2 3, Op.flush, Op.get 5 2 3],
      op.Valid ⟨8, 4, 4⟩ ∧ op.LinesFit ⟨8, 4, 4⟩ 256 := by
    simp [Op.Valid, Op.LinesFit, ArraySize.Mem]
  obtain ⟨s, s', hnew, hrun, -⟩ :=
    (direct_mapped_coherence_iff hg (lossless_plain _ ℤ) false 256 1 (fun _ _ => 0) (fun _ _ => 0)
      fun op hop => (hops op hop).1).mpr ⟨by decide, fun op hop => (hops op hop).2⟩
  exact ⟨s, s', hnew, hrun⟩

/-- A cache of 2^31 + 1 lines of 256 bytes is asked for, and it is never returned. -/
theorem resize_does_not_return :
    (∀ op ∈ [Op.resize (2 ^ 39 + 1) fun _ _ => (0 : ℤ)], op.Valid ⟨4, 4, 4⟩) ∧
      ∃ s, new 1 (fun _ _ => 0) (fun _ _ => 0) = some s ∧
        run (direct false) ⟨4, 4, 4⟩ (Store.plain ⟨4, 4, 4⟩ ℤ) 256 s
          [Op.resize (2 ^ 39 + 1) fun _ _ => 0] = none := by
  refine ⟨by simp [Op.Valid], ?_⟩
  obtain ⟨s, hnew⟩ := Option.isSome_iff_exists.mp
    ((isSome_new 1 (fun _ _ => 0 : ℕ → ℕ → ℤ) (fun _ _ => 0 : ℕ → ℕ → ℤ)).mpr (by decide))
  refine ⟨s, hnew, ?_⟩
  rw [Option.eq_none_iff_forall_ne_some]
  intro q hq
  have hfit := linesFit_of_run hq _ List.mem_cons_self (2 ^ 31 + 1) (by decide)
  exact absurd hfit (by decide)

/-! ## The two-way cache -/

def twoway (fastHash : Bool) : CacheConfig := ⟨true, fastHash⟩

variable (cfg g) in
/-- If the operation finds its block in the cache with write intent, then it marks the tag of the
slot that it uses and no other. -/
def Op.MarksHit (s : BlockCache σ α) : Op α → Prop
  | .set i j k _ =>
    let x := cacheIndex (g.blockIndex i j k)
    (s.cache.tag (s.cache.access cfg x true).1).index = x →
      (s.cache.access cfg x true).2.2 = s.cache.markSlot (s.cache.access cfg x true).1
  | .ref i j k _ =>
    let x := cacheIndex (g.blockIndex i j k)
    (s.cache.tag (s.cache.access cfg x true).1).index = x →
      (s.cache.access cfg x true).2.2 = s.cache.markSlot (s.cache.access cfg x true).1
  | .putBlock b _ _ =>
    ∀ p, (s.cache.lookup cfg (cacheIndex b) true).1 = some p →
      (s.cache.lookup cfg (cacheIndex b) true).2 = s.cache.markSlot p
  | _ => True

theorem access_marks (c : Cache (ℕ → α)) (x : BitVec 32)
    (h : (c.tag (c.access cfg x true).1).index = x) :
    (c.access cfg x true).2.2 = c.markSlot (c.access cfg x true).1 := by
  rcases c.access_cases cfg x true with ⟨k, _, _, haccess⟩ | ⟨k, hhome, hmiss, haccess⟩
  · rw [haccess]
    rfl
  · rw [haccess] at h
    exact absurd h (hmiss k hhome)

/-- An operation marks what it modifies just in case it is safe. -/
theorem marksHit_iff (s : BlockCache σ α) (op : Op α) :
    op.MarksHit cfg g s ↔ op.MarkSafe cfg s := by
  cases op with
  | set i j k val => exact iff_of_true (access_marks _ _) trivial
  | ref i j k val => exact iff_of_true (access_marks _ _) trivial
  | putBlock b mem m => exact s.cache.lookup_marks_iff cfg (cacheIndex b)
  | _ => exact Iff.rfl

/-- The two-way cache returns the same values as the direct-mapped one, leaves the same array in
the store and marks the slot that it returns at every hit for writing, just in case no block is
put while it is in its secondary slot and the tags of both of its slots are not marked yet. -/
theorem two_way_equivalence_iff (hg : g.Small) (hst : Lossless g st view) (fastHash : Bool)
    (lineBytes : ℕ) {n n' : BitVec 32} (hn : n.toNat ≤ 2 ^ 31) (hn' : n'.toNat ≤ 2 ^ 31)
    (fresh fresh' : ℕ → ℕ → α) (s₀ : σ) {ops : List (Op α)} (hops : ∀ op ∈ ops, op.Valid g)
    (hfit : ∀ op ∈ ops, op.LinesFit g lineBytes) :
    ∃ s s', new n fresh s₀ = some s ∧ new n' fresh' s₀ = some s' ∧
      ((∃ t t' outs, run (twoway fastHash) g st lineBytes s ops = some (t, outs) ∧
          run (direct fastHash) g st lineBytes s' ops = some (t', outs) ∧
          (∀ x, g.Mem x → arrayOf g (view (flush st t).1.store) x =
            arrayOf g (view (flush st t').1.store) x) ∧
          EveryStep (twoway fastHash) g st lineBytes
            (fun s op => op.MarksHit (twoway fastHash) g s) s ops) ↔
        EveryStep (twoway fastHash) g st lineBytes (fun s op => op.MarkSafe (twoway fastHash) s)
          s ops) := by
  obtain ⟨s, hnew⟩ := Option.isSome_iff_exists.mp ((isSome_new n fresh s₀).mpr hn)
  obtain ⟨s', hnew'⟩ := Option.isSome_iff_exists.mp ((isSome_new n' fresh' s₀).mpr hn')
  refine ⟨s, s', hnew, hnew', ?_⟩
  constructor
  · rintro ⟨_, _, _, _, _, _, hmarks⟩ ops₁ op ops₂ q hsplit hq
    exact (marksHit_iff _ op).mp (hmarks ops₁ op ops₂ q hsplit hq)
  · intro hsafe
    obtain ⟨t, hrun, ht⟩ :=
      run_spec (coherent_new (twoway fastHash) view hg hnew) hg hst hops hfit hsafe
    obtain ⟨t', hrun', ht'⟩ := run_spec (coherent_new (direct fastHash) view hg hnew') hg hst hops
      hfit (everyStep_direct g st lineBytes fastHash _ ops)
    refine ⟨t, t', _, hrun, hrun', ?_, ?_⟩
    · intro x hx
      rw [(flush_arrayOf ht hg hst).1 x hx, (flush_arrayOf ht' hg hst).1 x hx]
    · intro ops₁ op ops₂ q hsplit hq
      exact (marksHit_iff _ op).mpr (hsafe ops₁ op ops₂ q hsplit hq)

/-- Three blocks in a two-way cache of four lines. The last one is read to its primary slot, as its
secondary one is taken, and put there: what is put is read, as from a cache of one line. -/
theorem two_way_equivalence_resident :
    ∃ s s' t t', new 4 (fun _ _ => 0) (fun _ _ => 0) = some s ∧
      new 1 (fun _ _ => 0) (fun _ _ => 0) = some s' ∧
      run (twoway false) ⟨12, 4, 4⟩ (Store.plain ⟨12, 4, 4⟩ ℤ) 256 s
          [Op.get 4 0 0, Op.get 8 0 0, Op.putBlock 2 (fun _ => 7) ⟨0, 1, 4, 16⟩, Op.flush,
            Op.get 8 0 0] =
        some (t, [Output.value 0, Output.value 0, Output.done, Output.done, Output.value 7]) ∧
      run (direct false) ⟨12, 4, 4⟩ (Store.plain ⟨12, 4, 4⟩ ℤ) 256 s'
          [Op.get 4 0 0, Op.get 8 0 0, Op.putBlock 2 (fun _ => 7) ⟨0, 1, 4, 16⟩, Op.flush,
            Op.get 8 0 0] =
        some (t', [Output.value 0, Output.value 0, Output.done, Output.done, Output.value 7]) := by
  have hg : ArraySize.Small ⟨12, 4, 4⟩ := by decide
  have hops : ∀ op ∈ [Op.get 4 0 0, Op.get 8 0 0, Op.putBlock 2 (fun _ => (7 : ℤ)) ⟨0, 1, 4, 16⟩,
      Op.flush, Op.get 8 0 0], op.Valid ⟨12, 4, 4⟩ ∧ op.LinesFit ⟨12, 4, 4⟩ 256 := by
    simp [Op.Valid, Op.LinesFit, ArraySize.Mem, ArraySize.blocks, ArraySize.bx, ArraySize.by',
      ArraySize.bz]
  obtain ⟨s, s', hnew, hnew', hiff⟩ := two_way_equivalence_iff hg (lossless_plain _ ℤ) false 256
    (show BitVec.toNat 4 ≤ 2 ^ 31 by decide) (show BitVec.toNat 1 ≤ 2 ^ 31 by decide)
    (fun _ _ => 0) (fun _ _ => 0) (fun _ _ => 0)
    (fun op hop => (hops op hop).1) fun op hop => (hops op hop).2
  have hmask : Cache.sizeMask 4 = 3 := by
    rw [Cache.sizeMask, Cache.growMask]
    rfl
  have hs := hnew
  rw [new, Cache.new, Cache.resize_eq _ hmask (by decide)] at hs
  obtain rfl := Option.some.inj hs
  obtain ⟨t, t', outs, hrun, hrun', -⟩ := hiff.mpr <| by
    refine everyStep_of_step trivial rfl (everyStep_of_step trivial rfl ?_)
    -- the tag of the primary slot has the index of the block that is put
    refine everyStep_of_step (fun hit => absurd rfl hit.2.1) rfl ?_
    exact everyStep_of_step trivial rfl (everyStep_of_step trivial rfl everyStep_nil)
  obtain ⟨-, rfl⟩ := Prod.mk.inj (Option.some.inj hrun)
  exact ⟨_, s', t, t', hnew, hnew', hrun, hrun'⟩

/-- An array of one block in a cache of four lines. The block is read to its secondary slot, put
and flushed: what was put is lost. -/
theorem two_way_loses_block :
    (∀ op ∈ [Op.get 0 0 0, Op.putBlock 0 (fun _ => (7 : ℤ)) ⟨0, 1, 4, 16⟩, Op.flush, Op.get 0 0 0],
        op.Valid ⟨4, 4, 4⟩) ∧
      ∃ s t t', new 4 (fun _ _ => 0) (fun _ _ => 0) = some s ∧
        run (twoway false) ⟨4, 4, 4⟩ (Store.plain ⟨4, 4, 4⟩ ℤ) 256 s
            [Op.get 0 0 0, Op.putBlock 0 (fun _ => 7) ⟨0, 1, 4, 16⟩, Op.flush, Op.get 0 0 0] =
          some (t, [Output.value 0, Output.done, Output.done, Output.value 0]) ∧
        run (direct false) ⟨4, 4, 4⟩ (Store.plain ⟨4, 4, 4⟩ ℤ) 256 s
            [Op.get 0 0 0, Op.putBlock 0 (fun _ => 7) ⟨0, 1, 4, 16⟩, Op.flush, Op.get 0 0 0] =
          some (t', [Output.value 0, Output.done, Output.done, Output.value 7]) := by
  constructor
  · intro op hop
    simp only [List.mem_cons, List.not_mem_nil, or_false] at hop
    rcases hop with rfl | rfl | rfl | rfl
    · exact ⟨by decide, by decide, by decide⟩
    · exact (by decide : 0 < ArraySize.blocks ⟨4, 4, 4⟩)
    · trivial
    · exact ⟨by decide, by decide, by decide⟩
  · have hmask : Cache.sizeMask 4 = 3 := by
      rw [Cache.sizeMask, Cache.growMask]
      rfl
    have hnew : new 4 (fun _ _ => 0) (fun _ _ => 0) = some (⟨Cache.clear ⟨3, by decide,
        fun _ => Tag.unused, fun _ _ => 0⟩, fun _ _ => 0⟩ : BlockCache (ℕ → ℕ → ℤ) ℤ) := by
      rw [new, Cache.new, Cache.resize_eq _ hmask (by decide)]
      rfl
    exact ⟨_, _, _, hnew, rfl, rfl⟩

end BlockCache

end Zfp

import Zfp.BlockGather

/-!
# The loops that gather and scatter a block

The nested loops advance the pointer to strided memory by mixed increments, and the one to the block
where it is not computed from the loop counters. They visit the elements of the box that the
strides address, in the order of the places of the block.
-/

namespace Zfp

variable {α σ : Type}

def advance (n : ℕ → ℕ) (stride : ℕ → ℤ) : ℕ → ℤ
  | 0 => stride 0
  | a + 1 => stride (a + 1) - n a * stride a

def advanceBlock (n : ℕ → ℕ) : ℕ → ℕ
  | 0 => 1
  | a + 1 => 4 ^ a * (4 - n a)

/-- The pointers of the loops and what their bodies work on. -/
structure Cursor (σ : Type) where
  state : σ
  q : ℕ
  p : ℤ

def loops (f : ℕ → ℤ → σ → σ) (n : ℕ → ℕ) (stride : ℕ → ℤ) : ℕ → Cursor σ → Cursor σ
  | 0, w => { w with state := f w.q w.p w.state }
  | d + 1, w => (List.range (n d)).foldl (fun w _ =>
      let w := loops f n stride d w
      { w with q := w.q + advanceBlock n d, p := w.p + advance n stride d }) w

/-- The loops of `scatter_partial`, and of `scatter` for four values in each dimension. -/
def scatterLoops (block : ℕ → α) (n : ℕ → ℕ) (stride : ℕ → ℤ) (d : ℕ) (mem : ℤ → α) (p : ℤ) :
    ℤ → α :=
  (loops (fun q p mem => Function.update mem p (block q)) n stride d ⟨mem, 0, p⟩).state

/-- The loops of `gather`. -/
def gatherLoops (mem : ℤ → α) (stride : ℕ → ℤ) (d : ℕ) (block : ℕ → α) (p : ℤ) : ℕ → α :=
  (loops (fun q p block => Function.update block q (mem p)) (fun _ => 4) stride d ⟨block, 0, p⟩).state

/-- The block and the pointer of `gather_partial`, and the addresses that it has read. -/
structure Gathering (α : Type) where
  block : ℕ → α
  p : ℤ
  reads : List ℤ

/-- The loops of `gather_partial`: the place in the block is computed from the counters, and the
lines of each dimension are padded when its loop ends. -/
def gatherPartialLoops [Zero α] (mem : ℤ → α) (n : ℕ → ℕ) (stride : ℕ → ℤ) :
    ℕ → ℕ → Gathering α → Gathering α
  | 0, i, g => { g with block := Function.update g.block i (mem g.p), reads := g.reads ++ [g.p] }
  | d + 1, i, g =>
    let g := (List.range (n d)).foldl (fun g z =>
      let g := gatherPartialLoops mem n stride d (i + 4 ^ d * z) g
      { g with p := g.p + advance n stride d }) g
    { g with block :=
        (List.range (4 ^ d)).foldl (fun q c => padBlock q (n d) (4 ^ d) (i + c)) g.block }

/-! ## The elements that the loops visit -/

/-- The places of the block and the addresses that the loops visit. -/
def visits (n : ℕ → ℕ) (stride : ℕ → ℤ) : ℕ → ℕ → ℤ → List (ℕ × ℤ)
  | 0, q, p => [(q, p)]
  | d + 1, q, p =>
    (List.range (n d)).flatMap fun z => visits n stride d (q + 4 ^ d * z) (p + z * stride d)

def blockPlace (c : ℕ → ℕ) : ℕ → ℕ
  | 0 => 0
  | d + 1 => blockPlace c d + 4 ^ d * c d

/-- What the inner loops have added to the pointers. -/
def inner (n : ℕ → ℕ) (stride : ℕ → ℤ) : ℕ → ℕ × ℤ
  | 0 => (0, 0)
  | d + 1 => (4 ^ d * n d, n d * stride d)

section

variable {n : ℕ → ℕ} (stride : ℕ → ℤ)

theorem inner_advance {a : ℕ} (hn : ∀ b < a, n b ≤ 4) :
    (inner n stride a).1 + advanceBlock n a = 4 ^ a ∧
      (inner n stride a).2 + advance n stride a = stride a := by
  cases a with
  | zero => exact ⟨rfl, zero_add _⟩
  | succ a =>
    have ha := hn a (Nat.lt_succ_self a)
    rw [inner, advanceBlock, advance]
    refine ⟨?_, by ring⟩
    dsimp only
    rw [← Nat.mul_add, Nat.add_sub_cancel' ha, pow_succ]

/-- The loops run their body over the elements visited. -/
theorem loops_eq (f : ℕ → ℤ → σ → σ) {d : ℕ} (hn : ∀ a < d, n a ≤ 4) (s : σ) (q : ℕ) (p : ℤ) :
    loops f n stride d ⟨s, q, p⟩ =
      ⟨(visits n stride d q p).foldl (fun s c => f c.1 c.2 s) s, q + (inner n stride d).1,
        p + (inner n stride d).2⟩ := by
  induction d generalizing s q p with
  | zero =>
    rw [inner, Nat.add_zero, add_zero]
    rfl
  | succ d ih =>
    have ih := ih fun a ha => hn a (by omega)
    obtain ⟨hq, hp⟩ := inner_advance stride fun b (hb : b < d) => hn b (by omega)
    have hloop : ∀ m, (List.range m).foldl (fun w _ =>
          let w := loops f n stride d w
          ({ w with q := w.q + advanceBlock n d, p := w.p + advance n stride d } : Cursor σ))
          ⟨s, q, p⟩ =
        ⟨((List.range m).flatMap fun z : ℕ =>
            visits n stride d (q + 4 ^ d * z) (p + z * stride d)).foldl (fun s c => f c.1 c.2 s) s,
          q + 4 ^ d * m, p + m * stride d⟩ := by
      intro m
      induction m with
      | zero => simp
      | succ m ihm =>
        rw [List.range_succ, List.foldl_append, ihm, List.foldl_cons, List.foldl_nil, ih]
        dsimp only
        rw [List.flatMap_append, List.foldl_append, List.flatMap_singleton, Nat.add_assoc, hq,
          add_assoc (p + _), hp, Nat.mul_succ, Nat.add_assoc]
        push_cast
        congr 1
        ring
    rw [loops, hloop, visits, inner]

theorem mem_visits {d q : ℕ} {p : ℤ} {e : ℕ × ℤ} :
    e ∈ visits n stride d q p ↔
      ∃ c : ℕ → ℕ, (∀ a < d, c a < n a) ∧ e = (q + blockPlace c d, p + span stride d c) := by
  induction d generalizing q p with
  | zero =>
    rw [visits, List.mem_singleton]
    simp only [blockPlace, span, add_zero]
    constructor
    · intro h
      exact ⟨fun _ => 0, fun a ha => absurd ha (Nat.not_lt_zero a), h⟩
    · rintro ⟨c, -, h⟩
      exact h
  | succ d ih =>
    rw [visits, List.mem_flatMap]
    constructor
    · rintro ⟨z, hz, he⟩
      obtain ⟨c, hc, rfl⟩ := ih.mp he
      have hupdate : ∀ a < d, Function.update c d z a = c a := fun a ha =>
        Function.update_of_ne ha.ne _ _
      refine ⟨Function.update c d z, fun a ha => ?_, ?_⟩
      · rcases Nat.lt_succ_iff_lt_or_eq.mp ha with ha | rfl
        · rw [hupdate a ha]
          exact hc a ha
        · rw [Function.update_self]
          exact List.mem_range.mp hz
      · have hplace : ∀ m ≤ d, blockPlace (Function.update c d z) m = blockPlace c m := by
          intro m hm
          induction m with
          | zero => rfl
          | succ m ihm => rw [blockPlace, blockPlace, ihm (by omega), hupdate m (by omega)]
        rw [blockPlace, span, hplace d (Nat.le_refl d), span_congr stride hupdate,
          Function.update_self]
        congr 1
        · ring
        · ring
    · rintro ⟨c, hc, rfl⟩
      refine ⟨c d, List.mem_range.mpr (hc d (Nat.lt_succ_self d)),
        ih.mpr ⟨c, fun a ha => hc a (by omega), ?_⟩⟩
      rw [blockPlace, span]
      congr 1
      · ring
      · ring

end

/-- The loops of `gather_partial` gather the block and read the elements visited. -/
theorem gatherPartialLoops_eq [Zero α] (mem : ℤ → α) {n : ℕ → ℕ} (stride : ℕ → ℤ) {d : ℕ}
    (hn : ∀ a < d, n a ≤ 4) (i : ℕ) (g : Gathering α) :
    gatherPartialLoops mem n stride d i g =
      ⟨gatherPartial mem n stride d g.block i g.p, g.p + (inner n stride d).2,
        g.reads ++ (visits n stride d i g.p).map Prod.snd⟩ := by
  induction d generalizing i g with
  | zero =>
    rw [inner, add_zero]
    rfl
  | succ d ih =>
    have ih := ih fun a ha => hn a (by omega)
    have hp := (inner_advance stride fun b (hb : b < d) => hn b (by omega)).2
    have hloop : ∀ m, (List.range m).foldl (fun g z =>
          let g := gatherPartialLoops mem n stride d (i + 4 ^ d * z) g
          ({ g with p := g.p + advance n stride d } : Gathering α)) g =
        ⟨(List.range m).foldl
            (fun q (z : ℕ) => gatherPartial mem n stride d q (i + 4 ^ d * z) (g.p + z * stride d))
            g.block,
          g.p + m * stride d, g.reads ++ ((List.range m).flatMap fun z : ℕ =>
            visits n stride d (i + 4 ^ d * z) (g.p + z * stride d)).map Prod.snd⟩ := by
      intro m
      induction m with
      | zero => simp
      | succ m ihm =>
        rw [List.range_succ, List.foldl_append, ihm, List.foldl_cons, List.foldl_nil, ih]
        dsimp only
        rw [List.foldl_append, List.foldl_cons, List.foldl_nil, List.flatMap_append,
          List.flatMap_singleton, List.map_append, List.append_assoc, add_assoc, hp]
        push_cast
        congr 1
        ring
    rw [gatherPartialLoops, hloop, gatherPartial, visits, inner]

/-! ## What is read and written -/

/-- After a run of stores a word holds the value of one of its stores, or is unchanged. -/
theorem foldl_store {β κ : Type} [DecidableEq κ] (k : β → κ) (v : β → α) (l : List β) (mem : κ → α)
    (x : κ) :
    (∃ e ∈ l, x = k e ∧ l.foldl (fun mem e => Function.update mem (k e) (v e)) mem x = v e) ∨
      (∀ e ∈ l, x ≠ k e) ∧
        l.foldl (fun mem e => Function.update mem (k e) (v e)) mem x = mem x := by
  induction l generalizing mem with
  | nil => exact .inr ⟨List.forall_mem_nil _, rfl⟩
  | cons e l ih =>
    rw [List.foldl_cons]
    obtain ⟨e', he', hx, hvalue⟩ | ⟨hne, hvalue⟩ := ih (Function.update mem (k e) (v e))
    · exact .inl ⟨e', List.mem_cons_of_mem e he', hx, hvalue⟩
    · rcases eq_or_ne x (k e) with hx | hx
      · refine .inl ⟨e, List.mem_cons_self, hx, ?_⟩
        rw [hvalue, hx, Function.update_self]
      · refine .inr ⟨List.forall_mem_cons.mpr ⟨hx, hne⟩, ?_⟩
        rw [hvalue, Function.update_of_ne hx]

/-- The recursive scatter stores the elements in the order of the loops. -/
theorem scatterPartial_eq [Zero α] (block : ℕ → α) (n : ℕ → ℕ) (stride : ℕ → ℤ) {d : ℕ}
    (mem : ℤ → α) (q : ℕ) (p : ℤ) : scatterPartial block n stride d mem q p =
      (visits n stride d q p).foldl (fun mem e => Function.update mem e.2 (block e.1)) mem := by
  induction d generalizing mem q p with
  | zero => rfl
  | succ d ih =>
    rw [scatterPartial, visits, List.foldl_flatMap]
    simp only [ih]

theorem scatterLoops_eq [Zero α] (block : ℕ → α) {n : ℕ → ℕ} (stride : ℕ → ℤ) {d : ℕ}
    (hn : ∀ a < d, n a ≤ 4) (mem : ℤ → α) (p : ℤ) :
    scatterLoops block n stride d mem p = scatterPartial block n stride d mem 0 p := by
  rw [scatterPartial_eq, scatterLoops, loops_eq stride _ hn]

theorem visits_congr {n n' : ℕ → ℕ} {stride stride' : ℕ → ℤ} {d : ℕ} (hn : ∀ a < d, n a = n' a)
    (hstride : ∀ a < d, stride a = stride' a) (q : ℕ) (p : ℤ) :
    visits n stride d q p = visits n' stride' d q p := by
  induction d generalizing q p with
  | zero => rfl
  | succ d ih =>
    have ih := ih (fun a ha => hn a (by omega)) fun a ha => hstride a (by omega)
    rw [visits, visits, hn d (Nat.lt_succ_self d), hstride d (Nat.lt_succ_self d)]
    simp only [ih]

theorem blockPlace_congr {d : ℕ} {c c' : ℕ → ℕ} (h : ∀ a < d, c a = c' a) :
    blockPlace c d = blockPlace c' d := by
  induction d with
  | zero => rfl
  | succ d ih => rw [blockPlace, blockPlace, ih fun a ha => h a (by omega), h d (Nat.lt_succ_self d)]

theorem blockPlace_lt {n c : ℕ → ℕ} {d : ℕ} (hn : ∀ a < d, n a ≤ 4) (hc : ∀ a < d, c a < n a) :
    blockPlace c d < 4 ^ d := by
  induction d with
  | zero => exact Nat.one_pos
  | succ d ih =>
    have hd := hc d (Nat.lt_succ_self d)
    have hd' := hn d (Nat.lt_succ_self d)
    have hlt := ih (fun a ha => hn a (by omega)) fun a ha => hc a (by omega)
    have hle := Nat.mul_le_mul_left (4 ^ d) (show c d + 1 ≤ 4 by omega)
    rw [Nat.mul_add, Nat.mul_one] at hle
    rw [blockPlace, pow_succ]
    omega

theorem place_blockPlace {n c : ℕ → ℕ} {d : ℕ} (hn : ∀ a < d, n a ≤ 4) (hc : ∀ a < d, c a < n a) :
    ∀ a < d, place (blockPlace c d) a = c a := by
  induction d with
  | zero => exact fun a ha => absurd ha (Nat.not_lt_zero a)
  | succ d ih =>
    have hd := hc d (Nat.lt_succ_self d)
    have hd' := hn d (Nat.lt_succ_self d)
    have hlt := blockPlace_lt (fun a ha => hn a (by omega)) fun a (ha : a < d) => hc a (by omega)
    intro a ha
    rcases Nat.lt_succ_iff_lt_or_eq.mp ha with ha | rfl
    · rw [blockPlace, ← place_mod ha, Nat.add_mul_mod_self_left, Nat.mod_eq_of_lt hlt,
        ih (fun a ha => hn a (by omega)) (fun a ha => hc a (by omega)) a ha]
    · rw [blockPlace, place, Nat.add_mul_div_left _ _ (Nat.pow_pos (by decide)),
        Nat.div_eq_of_lt hlt, Nat.zero_add, Nat.mod_eq_of_lt (by omega)]

/-- The contents of memory after `scatter_partial`. -/
theorem scatterLoops_apply (block : ℕ → α) {n : ℕ → ℕ} (stride : ℕ → ℤ) {d : ℕ}
    (hn : ∀ a < d, n a ≤ 4) (mem : ℤ → α) (p x : ℤ) :
    (∃ c : ℕ → ℕ, (∀ a < d, c a < n a) ∧ x = p + span stride d c ∧
        scatterLoops block n stride d mem p x = block (blockPlace c d)) ∨
      (∀ c : ℕ → ℕ, (∀ a < d, c a < n a) → x ≠ p + span stride d c) ∧
        scatterLoops block n stride d mem p x = mem x := by
  rw [scatterLoops, loops_eq stride _ hn]
  obtain ⟨e, he, hx, hvalue⟩ | ⟨hne, hvalue⟩ := foldl_store Prod.snd (fun e => block e.1)
    (visits n stride d 0 p) mem x
  · obtain ⟨c, hc, rfl⟩ := (mem_visits stride).mp he
    rw [Nat.zero_add] at hvalue
    exact .inl ⟨c, hc, hx, hvalue⟩
  · exact .inr ⟨fun c hc => hne _ ((mem_visits stride).mpr ⟨c, hc, rfl⟩), hvalue⟩

theorem blockPlace_place {d i : ℕ} (hi : i < 4 ^ d) :
    blockPlace (place i) d = i := by
  induction d generalizing i with
  | zero =>
    rw [pow_zero] at hi
    exact (Nat.lt_one_iff.mp hi).symm
  | succ d ih =>
    have hpos : 0 < 4 ^ d := Nat.pow_pos (by decide)
    have hcongr : ∀ m ≤ d, blockPlace (place i) m = blockPlace (place (i % 4 ^ d)) m := by
      intro m hm
      induction m with
      | zero => rfl
      | succ m ihm => rw [blockPlace, blockPlace, ihm (by omega), place_mod (show m < d by omega)]
    rw [pow_succ] at hi
    rw [blockPlace, hcongr d (Nat.le_refl d), ih (Nat.mod_lt i hpos), place,
      Nat.mod_eq_of_lt ((Nat.div_lt_iff_lt_mul hpos).mpr (by omega)), Nat.mod_add_div]

/-- The full gather stores the elements in the order of their places. -/
theorem gatherLoops_apply (mem : ℤ → α) (stride : ℕ → ℤ) {d : ℕ} (q : ℕ → α) (p : ℤ) {i : ℕ}
    (hi : i < 4 ^ d) :
    gatherLoops mem stride d q p i = mem (p + span stride d (place i)) := by
  have hn : ∀ a < d, (fun _ : ℕ => 4) a ≤ 4 := fun _ _ => Nat.le_refl 4
  rw [gatherLoops, loops_eq stride _ hn]
  obtain ⟨e, he, hx, hvalue⟩ | ⟨hne, -⟩ :=
    foldl_store Prod.fst (fun e => mem e.2) (visits (fun _ => 4) stride d 0 p) q i
  · obtain ⟨c, hc, rfl⟩ := (mem_visits stride).mp he
    dsimp only at hx hvalue ⊢
    rw [Nat.zero_add] at hx
    rw [hvalue, hx]
    exact congrArg (fun s => mem (p + s))
      (span_congr stride fun a ha => (place_blockPlace hn hc a ha).symm)
  · refine absurd ?_ (hne (i, p + span stride d (place i))
      ((mem_visits stride).mpr ⟨place i, fun a _ => place_lt i a, ?_⟩))
    · rfl
    · rw [blockPlace_place hi, Nat.zero_add]

section

variable [Zero α] (mem : ℤ → α) {n : ℕ → ℕ} (stride : ℕ → ℤ) {d : ℕ}

theorem gatherPartialLoops_block (hn : ∀ a < d, 1 ≤ n a ∧ n a ≤ 4) (q : ℕ → α) (p : ℤ) {i : ℕ}
    (hi : i < 4 ^ d) :
    (gatherPartialLoops mem n stride d 0 ⟨q, p, []⟩).block i =
      mem (p + span stride d fun a => padIndex (n a) (place i a)) := by
  rw [gatherPartialLoops_eq mem stride fun a ha => (hn a ha).2]
  dsimp only
  rw [gatherPartial_apply mem stride hn, if_pos (by omega), Nat.sub_zero]

theorem mem_reads (hn : ∀ a < d, n a ≤ 4) (q : ℕ → α) (p x : ℤ) :
    x ∈ (gatherPartialLoops mem n stride d 0 ⟨q, p, []⟩).reads ↔
      ∃ c : ℕ → ℕ, (∀ a < d, c a < n a) ∧ x = p + span stride d c := by
  rw [gatherPartialLoops_eq mem stride hn]
  dsimp only
  rw [List.nil_append, List.mem_map]
  constructor
  · rintro ⟨e, he, rfl⟩
    obtain ⟨c, hc, rfl⟩ := (mem_visits stride).mp he
    exact ⟨c, hc, rfl⟩
  · rintro ⟨c, hc, rfl⟩
    exact ⟨_, (mem_visits stride).mpr ⟨c, hc, rfl⟩, rfl⟩

/-- An element is gathered to its place. -/
theorem gatherPartialLoops_place (hn : ∀ a < d, 1 ≤ n a ∧ n a ≤ 4) (q : ℕ → α) (p : ℤ) {c : ℕ → ℕ}
    (hc : ∀ a < d, c a < n a) :
    (gatherPartialLoops mem n stride d 0 ⟨q, p, []⟩).block (blockPlace c d) =
      mem (p + span stride d c) := by
  have hn' : ∀ a < d, n a ≤ 4 := fun a ha => (hn a ha).2
  rw [gatherPartialLoops_block mem stride hn q p (blockPlace_lt hn' hc)]
  refine congrArg (fun s => mem (p + s)) (span_congr stride fun a ha => ?_)
  rw [place_blockPlace hn' hc a ha, padIndex_of_lt (hc a ha)]

/-- Scattering what was gathered changes nothing. -/
theorem scatter_gather_partial (hn : ∀ a < d, 1 ≤ n a ∧ n a ≤ 4) (q : ℕ → α) (p : ℤ) :
    scatterLoops (gatherPartialLoops mem n stride d 0 ⟨q, p, []⟩).block n stride d mem p = mem := by
  funext x
  obtain ⟨c, hc, rfl, hvalue⟩ | ⟨-, hvalue⟩ :=
    scatterLoops_apply (gatherPartialLoops mem n stride d 0 ⟨q, p, []⟩).block stride
      (fun a ha => (hn a ha).2) mem p x
  · rw [hvalue, gatherPartialLoops_place mem stride hn q p hc]
  · exact hvalue

end

/-- Where the addresses are distinct, each element receives its entry of the block. -/
theorem scatterLoops_place (block : ℕ → α) {n : ℕ → ℕ} (stride : ℕ → ℤ) {d : ℕ}
    (hn : ∀ a < d, n a ≤ 4) (mem : ℤ → α) (p : ℤ)
    (hinj : ∀ c c' : ℕ → ℕ, (∀ a < d, c a < n a) → (∀ a < d, c' a < n a) →
      span stride d c = span stride d c' → ∀ a < d, c a = c' a)
    {c : ℕ → ℕ} (hc : ∀ a < d, c a < n a) :
    scatterLoops block n stride d mem p (p + span stride d c) = block (blockPlace c d) := by
  obtain ⟨c', hc', hx, hvalue⟩ | ⟨hne, -⟩ :=
    scatterLoops_apply block stride hn mem p (p + span stride d c)
  · have hcc := hinj c c' hc hc' (add_left_cancel hx)
    rw [hvalue, blockPlace_congr hcc]
  · exact absurd rfl (hne c hc)

/-- Gathering, padding and scattering of partial blocks. -/
theorem partial_block [Zero α] {d : ℕ} {n : ℕ → ℕ} (hn : ∀ a < d, 1 ≤ n a ∧ n a ≤ 4)
    (stride : ℕ → ℤ) (mem : ℤ → α) (q : ℕ → α) (p : ℤ) :
    (∀ x, x ∈ (gatherPartialLoops mem n stride d 0 ⟨q, p, []⟩).reads ↔
        ∃ c : ℕ → ℕ, (∀ a < d, c a < n a) ∧ x = p + span stride d c) ∧
      (∀ i < 4 ^ d, ∃ c : ℕ → ℕ, (∀ a < d, c a < n a) ∧
        (gatherPartialLoops mem n stride d 0 ⟨q, p, []⟩).block i = mem (p + span stride d c)) ∧
      (∀ c : ℕ → ℕ, (∀ a < d, c a < n a) →
        (gatherPartialLoops mem n stride d 0 ⟨q, p, []⟩).block (blockPlace c d) =
          mem (p + span stride d c)) ∧
      ((∀ a < d, n a = 4) → ∀ i < 4 ^ d,
        (gatherPartialLoops mem n stride d 0 ⟨q, p, []⟩).block i =
          gatherLoops mem stride d q p i) ∧
      (∀ block x,
        (∃ c : ℕ → ℕ, (∀ a < d, c a < n a) ∧ x = p + span stride d c ∧
            scatterLoops block n stride d mem p x = block (blockPlace c d)) ∨
          (∀ c : ℕ → ℕ, (∀ a < d, c a < n a) → x ≠ p + span stride d c) ∧
            scatterLoops block n stride d mem p x = mem x) ∧
      ((∀ c c' : ℕ → ℕ, (∀ a < d, c a < n a) → (∀ a < d, c' a < n a) →
          span stride d c = span stride d c' → ∀ a < d, c a = c' a) →
        (∀ block, ∀ c : ℕ → ℕ, (∀ a < d, c a < n a) →
          scatterLoops block n stride d mem p (p + span stride d c) = block (blockPlace c d)) ∧
        scatterLoops (gatherPartialLoops mem n stride d 0 ⟨q, p, []⟩).block n stride d mem p =
          mem) := by
  have hn' : ∀ a < d, n a ≤ 4 := fun a ha => (hn a ha).2
  refine ⟨mem_reads mem stride hn' q p, ?_,
    fun c hc => gatherPartialLoops_place mem stride hn q p hc, ?_,
    fun block x => scatterLoops_apply block stride hn' mem p x, ?_⟩
  · intro i hi
    exact ⟨_, fun a ha => padIndex_lt (hn a ha).1 _, gatherPartialLoops_block mem stride hn q p hi⟩
  · intro hfull i hi
    rw [gatherPartialLoops_block mem stride hn q p hi, gatherLoops_apply mem stride q p hi]
    refine congrArg (fun s => mem (p + s)) (span_congr stride fun a ha => ?_)
    rw [hfull a ha, padIndex_of_lt (place_lt i a)]
  · intro hinj
    exact ⟨fun block c hc => scatterLoops_place block stride hn' mem p hinj hc,
      scatter_gather_partial mem stride hn q p⟩

theorem partial_block_plane :
    (gatherPartialLoops (fun x : ℤ => x) (fun a => 3 - a) (fun a => 8 * a - 1) 2 0
          ⟨fun _ => 0, 0, []⟩).block (blockPlace (fun _ => 1) 2) = 6 ∧
      scatterLoops (gatherPartialLoops (fun x : ℤ => x) (fun a => 3 - a) (fun a => 8 * a - 1) 2 0
          ⟨fun _ => 0, 0, []⟩).block (fun a => 3 - a) (fun a => 8 * a - 1) 2 (fun x : ℤ => x) 0 =
        fun x => x := by
  have hn : ∀ a < 2, 1 ≤ 3 - a ∧ 3 - a ≤ 4 := by decide
  have h := partial_block hn (fun a => 8 * a - 1) (fun x : ℤ => x) (fun _ => 0) 0
  refine ⟨(h.2.2.1 (fun _ => 1) (by decide)).trans rfl, (h.2.2.2.2.2 fun c c' hc hc' heq => ?_).2⟩
  have h0 := hc 0 (by decide)
  have h0' := hc' 0 (by decide)
  have heq' : (0 + (c 0 : ℤ) * (8 * 0 - 1)) + c 1 * (8 * 1 - 1) =
      (0 + (c' 0 : ℤ) * (8 * 0 - 1)) + c' 1 * (8 * 1 - 1) := heq
  intro a ha
  interval_cases a <;> omega

end Zfp

import Mathlib.Data.List.Basic
import Zfp.BlockLoops

/-!
# One-dimensional arrays

A contiguous array of one dimension has a path of its own: whole blocks are coded in place up to a
limit computed with a mask, and what is left goes to the coder of partial blocks. The mask is a
32-bit constant, so the limit is that of the size modulo `2 ^ 32`.
-/

namespace Zfp

variable {α σ : Type}

/-- The loop `for (x = 0; x < m; x += 4)` over a counter of 64 bits; none when out of fuel. -/
def blockLoop (m : ℕ) (body : ℕ → σ → σ) : ℕ → ℕ → σ → Option (ℕ × σ)
  | 0, _, _ => none
  | fuel + 1, x, s =>
    if x < m then blockLoop m body fuel ((x + 4) % 2 ^ 64) (body x s) else some (x, s)

/-- The limit `nx & ~3u` of the whole blocks. -/
def wholeLimit (nx : ℕ) : ℕ := nx &&& 0xfffffffc

/-- A block that the compressor visits: its first element, the number of values if it goes to the
coder of partial blocks, and the values that are coded. -/
structure Visit (α : Type) where
  x : ℕ
  size : Option ℕ
  values : List α
  deriving DecidableEq

def valuesOf (block : ℕ → α) : List α := (List.range 4).map block

/-- `compress` for one dimension: the blocks visited, given what an array on the stack holds. -/
def compress1 [Zero α] (mem : ℤ → α) (stack : ℕ → α) (data : ℤ) (nx fuel : ℕ) :
    Option (List (Visit α)) := do
  let (x, data, l) ← blockLoop (wholeLimit nx)
    (fun x (s : ℤ × List (Visit α)) =>
      (s.1 + 4, s.2 ++ [⟨x, none, valuesOf fun i => mem (s.1 + i)⟩])) fuel 0 (data, [])
  let block := (gatherPartialLoops mem (fun _ => nx - x) (fun _ => 1) 1 0 ⟨stack, data, []⟩).block
  return if x < nx then l ++ [⟨x, some (nx - x), valuesOf block⟩] else l

/-- `compress_strided` for one dimension. -/
def compressStrided1 [Zero α] (mem : ℤ → α) (stack : ℕ → α) (data : ℤ) (nx : ℕ) (sx : ℤ)
    (fuel : ℕ) : Option (List (Visit α)) := do
  let (_, l) ← blockLoop nx (fun x l =>
    let p := data + sx * x
    if nx - x < 4 then
      l ++ [⟨x, some (nx - x),
        valuesOf (gatherPartialLoops mem (fun _ => nx - x) (fun _ => sx) 1 0 ⟨stack, p, []⟩).block⟩]
    else l ++ [⟨x, none, valuesOf (gatherLoops mem (fun _ => sx) 1 stack p)⟩]) fuel 0 []
  return l

/-- The values of a decoded block at consecutive addresses. -/
def storeBlock (block : ℕ → α) (mem : ℤ → α) (p : ℤ) : ℤ → α :=
  (List.range 4).foldl (fun mem (i : ℕ) => Function.update mem (p + i) (block i)) mem

/-- `decompress` for one dimension, with the decoder of a block: the stream and the array. -/
def decompress1 (decode : σ → (ℕ → α) × σ) (s : σ) (mem : ℤ → α) (data : ℤ) (nx fuel : ℕ) :
    Option (σ × (ℤ → α)) := do
  let (x, data, s, mem) ← blockLoop (wholeLimit nx)
    (fun _ (w : ℤ × σ × (ℤ → α)) =>
      let (block, s) := decode w.2.1
      (w.1 + 4, s, storeBlock block w.2.2 w.1)) fuel 0 (data, s, mem)
  let (block, s') := decode s
  return if x < nx then (s', scatterLoops block (fun _ => nx - x) (fun _ => 1) 1 mem data)
    else (s, mem)

def decompressStrided1 (decode : σ → (ℕ → α) × σ) (s : σ) (mem : ℤ → α) (data : ℤ) (nx : ℕ)
    (sx : ℤ) (fuel : ℕ) : Option (σ × (ℤ → α)) := do
  let (_, w) ← blockLoop nx (fun x (w : σ × (ℤ → α)) =>
    let p := data + sx * x
    let (block, s) := decode w.1
    if nx - x < 4 then (s, scatterLoops block (fun _ => nx - x) (fun _ => sx) 1 w.2 p)
    else (s, scatterLoops block (fun _ => 4) (fun _ => sx) 1 w.2 p)) fuel 0 (s, mem)
  return w

/-- Both paths return, visit the same blocks with one to three values in a partial block, and leave
the same stream and array. -/
def Interchangeable [Zero α] (decode : σ → (ℕ → α) × σ) (s : σ) (mem : ℤ → α) (stack : ℕ → α)
    (data : ℤ) (nx : ℕ) : Prop :=
  (∃ fuel l, compress1 mem stack data nx fuel = some l ∧
    compressStrided1 mem stack data nx 1 fuel = some l ∧
    ∀ v ∈ l, ∀ n, v.size = some n → 1 ≤ n ∧ n ≤ 3) ∧
  ∃ fuel r, decompress1 decode s mem data nx fuel = some r ∧
    decompressStrided1 decode s mem data nx 1 fuel = some r

/-! ## The loop and its limit -/

/-- The loop visits every fourth element below its limit. -/
theorem blockLoop_eq {m k : ℕ} (hm : m ≤ 2 ^ 64 - 4) (hk : k = (m + 3) / 4) (body : ℕ → σ → σ)
    (extra : ℕ) (s : σ) :
    blockLoop m body (k + 1 + extra) 0 s =
      some (4 * k, (List.range k).foldl (fun s i => body (4 * i) s) s) := by
  have hrun : ∀ j ≤ k, blockLoop m body (k + 1 + extra) 0 s =
      blockLoop m body (k - j + 1 + extra) (4 * j)
        ((List.range j).foldl (fun s i => body (4 * i) s) s) := by
    intro j hj
    induction j with
    | zero => rfl
    | succ j ih =>
      have hsub : k - j + 1 + extra = (k - (j + 1) + 1 + extra) + 1 := by omega
      rw [ih (by omega), hsub, blockLoop, if_pos (by omega), Nat.mod_eq_of_lt (by omega),
        List.range_succ, List.foldl_append]
      rfl
  have hsub : k - k + 1 + extra = extra + 1 := by omega
  rw [hrun k (Nat.le_refl k), hsub, blockLoop, if_neg (by omega)]

/-- A loop that returns does so with more fuel. -/
theorem blockLoop_mono {m : ℕ} {body : ℕ → σ → σ} {fuel x : ℕ} {s : σ} {r : ℕ × σ}
    (h : blockLoop m body fuel x s = some r) (extra : ℕ) :
    blockLoop m body (fuel + extra) x s = some r := by
  induction fuel generalizing x s with
  | zero => cases h
  | succ fuel ih =>
    rw [Nat.succ_add, blockLoop]
    rw [blockLoop] at h
    split
    · next hx =>
      rw [if_pos hx] at h
      exact ih h
    · next hx =>
      rw [if_neg hx] at h
      exact h

theorem wholeLimit_le (nx : ℕ) : wholeLimit nx ≤ 0xfffffffc := Nat.and_le_right

/-- Below `2 ^ 32` the limit is the end of the whole blocks. -/
theorem wholeLimit_eq {nx : ℕ} (h : nx < 2 ^ 32) : wholeLimit nx = 4 * (nx / 4) := by
  have hdiv : wholeLimit nx / 2 ^ 2 = nx / 2 ^ 2 := by
    have hmask : 0xfffffffc / 2 ^ 2 = 2 ^ 30 - 1 := rfl
    rw [wholeLimit, Nat.and_div_two_pow, hmask, Nat.and_two_pow_sub_one_eq_mod,
      Nat.mod_eq_of_lt (by omega)]
  have hmod : wholeLimit nx % 2 ^ 2 = 0 := by
    have hmask : 0xfffffffc % 2 ^ 2 = 0 := rfl
    rw [wholeLimit, Nat.and_mod_two_pow, hmask, Nat.and_zero]
  omega

/-! ## The values of a block -/

theorem valuesOf_congr {p q : ℕ → α} (h : ∀ i < 4, p i = q i) : valuesOf p = valuesOf q :=
  List.map_congr_left fun i hi => h i (List.mem_range.mp hi)

theorem span_line (i : ℕ) (hi : i < 4) : span (fun _ => 1) 1 (place i) = i := by
  simp [span, place, Nat.mod_eq_of_lt hi]

/-- The gathered block of consecutive elements. -/
theorem valuesOf_gatherLoops [Zero α] (mem : ℤ → α) (stack : ℕ → α) (p : ℤ) :
    valuesOf (gatherLoops mem (fun _ => 1) 1 stack p) = valuesOf fun i => mem (p + i) := by
  apply valuesOf_congr
  intro i hi
  rw [gatherLoops_apply mem _ stack p hi, span_line i hi]

/-- The elements stored in place are those scattered. -/
theorem scatterLoops_line (block : ℕ → α) (mem : ℤ → α) (p : ℤ) :
    scatterLoops block (fun _ => 4) (fun _ => 1) 1 mem p = storeBlock block mem p := by
  rw [scatterLoops, loops_eq _ _ fun _ _ => Nat.le_refl 4]
  simp [visits, storeBlock, List.range_succ]

theorem foldl_concat {β : Type} (f : ℕ → β) (k : ℕ) :
    (List.range k).foldl (fun l i => l ++ [f i]) [] = (List.range k).map f := by
  induction k with
  | zero => rfl
  | succ k ih => simp [List.range_succ, ih]

/-- A fold that carries a pointer along. -/
theorem foldl_pointer {β : Type} (f : ℤ → ℕ → β → β) (data : ℤ) (k : ℕ) (b : β) :
    (List.range k).foldl (fun (w : ℤ × β) i => (w.1 + 4, f w.1 i w.2)) (data, b) =
      (data + 4 * k, (List.range k).foldl (fun b (i : ℕ) => f (data + 4 * i) i b) b) := by
  induction k with
  | zero => simp
  | succ k ih =>
    simp only [List.range_succ, List.foldl_append, List.foldl_cons, List.foldl_nil, ih]
    push_cast
    congr 1
    ring

/-- The loop of the strided path: whole blocks, then a partial one if elements are left. -/
theorem stridedLoop_eq {nx : ℕ} (h : nx < 2 ^ 32) (body whole : ℕ → σ → σ)
    (hwhole : ∀ i < nx / 4, ∀ s, body (4 * i) s = whole i s) (s : σ) :
    ∃ x, blockLoop nx body (nx / 4 + 1 + 1) 0 s = some (x,
      if 4 * (nx / 4) < nx then
        body (4 * (nx / 4)) ((List.range (nx / 4)).foldl (fun s i => whole i s) s)
      else (List.range (nx / 4)).foldl (fun s i => whole i s) s) := by
  have hfold : (List.range (nx / 4)).foldl (fun s i => body (4 * i) s) s =
      (List.range (nx / 4)).foldl (fun s i => whole i s) s :=
    List.foldl_ext _ _ _ fun s i hi => hwhole i (List.mem_range.mp hi) s
  split
  · have hloop := blockLoop_eq (m := nx) (k := nx / 4 + 1) (by omega) (by omega) body 0 s
    rw [List.range_succ, List.foldl_append, hfold] at hloop
    exact ⟨_, hloop⟩
  · have hloop := blockLoop_eq (m := nx) (k := nx / 4) (by omega) (by omega) body 1 s
    rw [hfold] at hloop
    exact ⟨_, hloop⟩

/-! ## Both paths -/

section

variable (mem : ℤ → α) (stack : ℕ → α) (data : ℤ) {nx : ℕ}

def wholeVisit (i : ℕ) : Visit α := ⟨4 * i, none, valuesOf fun j => mem (data + 4 * i + j)⟩

def partialVisit [Zero α] (nx i : ℕ) : Visit α :=
  ⟨4 * i, some (nx - 4 * i), valuesOf
    (gatherPartialLoops mem (fun _ => nx - 4 * i) (fun _ => 1) 1 0 ⟨stack, data + 4 * i, []⟩).block⟩

theorem compress1_eq [Zero α] (h : nx < 2 ^ 32) : compress1 mem stack data nx (nx / 4 + 1 + 1) =
    some (if 4 * (nx / 4) < nx then
      (List.range (nx / 4)).map (wholeVisit mem data) ++ [partialVisit mem stack data nx (nx / 4)]
    else (List.range (nx / 4)).map (wholeVisit mem data)) := by
  have hloop := blockLoop_eq (m := wholeLimit nx) (k := nx / 4)
    (by have := wholeLimit_le nx; omega) (by rw [wholeLimit_eq h]; omega)
    (fun x (s : ℤ × List (Visit α)) =>
      (s.1 + 4, s.2 ++ [⟨x, none, valuesOf fun i => mem (s.1 + i)⟩])) 1 (data, [])
  have hfold := foldl_pointer (fun p i l => l ++ [(⟨4 * i, none, valuesOf fun j => mem (p + j)⟩ :
    Visit α)]) data (nx / 4) []
  rw [compress1, hloop, hfold, foldl_concat fun i => (⟨4 * i, none, valuesOf fun j =>
    mem (data + 4 * i + j)⟩ : Visit α)]
  rfl

theorem compressStrided1_eq [Zero α] (h : nx < 2 ^ 32) :
    compressStrided1 mem stack data nx 1 (nx / 4 + 1 + 1) =
    some (if 4 * (nx / 4) < nx then
      (List.range (nx / 4)).map (wholeVisit mem data) ++ [partialVisit mem stack data nx (nx / 4)]
    else (List.range (nx / 4)).map (wholeVisit mem data)) := by
  have hpointer : ∀ i : ℕ, data + 1 * ((4 * i : ℕ) : ℤ) = data + 4 * i := fun i => by push_cast; ring
  obtain ⟨x, hloop⟩ := stridedLoop_eq h (fun x l =>
    let p := data + 1 * (x : ℤ)
    if nx - x < 4 then
      l ++ [⟨x, some (nx - x),
        valuesOf (gatherPartialLoops mem (fun _ => nx - x) (fun _ => 1) 1 0 ⟨stack, p, []⟩).block⟩]
    else l ++ [⟨x, none, valuesOf (gatherLoops mem (fun _ => 1) 1 stack p)⟩])
    (fun i l => l ++ [wholeVisit mem data i]) (fun i hi l => by
      dsimp only
      rw [if_neg (by omega), valuesOf_gatherLoops, hpointer, wholeVisit]) []
  rw [compressStrided1, hloop]
  dsimp only
  rw [foldl_concat, if_pos (show nx - 4 * (nx / 4) < 4 by omega), hpointer, partialVisit]
  rfl

theorem decompress1_eq (decode : σ → (ℕ → α) × σ) (s : σ) (h : nx < 2 ^ 32) :
    decompress1 decode s mem data nx (nx / 4 + 1 + 1) =
      decompressStrided1 decode s mem data nx 1 (nx / 4 + 1 + 1) := by
  have hpointer : ∀ i : ℕ, data + 1 * ((4 * i : ℕ) : ℤ) = data + 4 * i := fun i => by push_cast; ring
  have hloop := blockLoop_eq (m := wholeLimit nx) (k := nx / 4)
    (by have := wholeLimit_le nx; omega) (by rw [wholeLimit_eq h]; omega)
    (fun _ (w : ℤ × σ × (ℤ → α)) =>
      ((w.1 + 4, (decode w.2.1).2, storeBlock (decode w.2.1).1 w.2.2 w.1) : ℤ × σ × (ℤ → α))) 1
    (data, s, mem)
  have hfold := foldl_pointer (fun p _ (w : σ × (ℤ → α)) =>
    ((decode w.1).2, storeBlock (decode w.1).1 w.2 p)) data (nx / 4) (s, mem)
  obtain ⟨x, hstrided⟩ := stridedLoop_eq h (fun x (w : σ × (ℤ → α)) =>
    let p := data + 1 * (x : ℤ)
    let (block, s) := decode w.1
    if nx - x < 4 then (s, scatterLoops block (fun _ => nx - x) (fun _ => 1) 1 w.2 p)
    else (s, scatterLoops block (fun _ => 4) (fun _ => 1) 1 w.2 p))
    (fun i w => ((decode w.1).2, storeBlock (decode w.1).1 w.2 (data + 4 * i))) (fun i hi w => by
      dsimp only
      rw [if_neg (by omega), scatterLoops_line, hpointer]) (s, mem)
  rw [decompress1, decompressStrided1, hloop, hstrided, hfold]
  simp only [Option.bind_eq_bind, Option.bind_some, Option.pure_def]
  rw [if_pos (show nx - 4 * (nx / 4) < 4 by omega), hpointer]

theorem decompressStrided1_eq (decode : σ → (ℕ → α) × σ) (s : σ) (h : nx < 2 ^ 32) :
    ∃ r, decompressStrided1 decode s mem data nx 1 (nx / 4 + 1 + 1) = some r := by
  rw [decompressStrided1]
  obtain ⟨x, hloop⟩ := stridedLoop_eq h _ _ (fun i hi w => rfl) (s, mem)
  rw [hloop]
  exact ⟨_, rfl⟩

end

/-- From `2 ^ 32` elements on the partial block has more than three values. -/
theorem not_interchangeable_of_long [Zero α] (decode : σ → (ℕ → α) × σ) (s : σ) (mem : ℤ → α)
    (stack : ℕ → α) (data : ℤ) {nx : ℕ} (hlong : 2 ^ 32 ≤ nx) :
    ¬ Interchangeable decode s mem stack data nx := by
  rintro ⟨⟨fuel, l, hl, -, hsize⟩, -⟩
  have hlimit := wholeLimit_le nx
  have hloop := fun extra => blockLoop_eq (m := wholeLimit nx) (by omega) rfl
    (fun x (s : ℤ × List (Visit α)) =>
      (s.1 + 4, s.2 ++ [(⟨x, none, valuesOf fun i => mem (s.1 + i)⟩ : Visit α)])) extra (data, [])
  rw [compress1] at hl
  obtain ⟨r, hr, hl⟩ := Option.bind_eq_some_iff.mp hl
  have hmore := blockLoop_mono hr ((wholeLimit nx + 3) / 4 + 1)
  rw [Nat.add_comm, hloop fuel] at hmore
  obtain rfl := Option.some.inj hmore
  -- the loop ends at its limit, and all that is left is one partial block
  have hleft : 4 * ((wholeLimit nx + 3) / 4) < nx := by omega
  dsimp only at hl
  rw [if_pos hleft] at hl
  obtain rfl := Option.some.inj hl
  have hthree := (hsize _ (List.mem_append_right _ List.mem_cons_self) _ rfl).2
  omega

/-- The contiguous path equals the strided one exactly for the sizes below `2 ^ 32`. -/
theorem compress1_interchangeable_iff [Zero α] (decode : σ → (ℕ → α) × σ) (s : σ) (mem : ℤ → α)
    (stack : ℕ → α) (data : ℤ) (nx : ℕ) :
    Interchangeable decode s mem stack data nx ↔ nx < 2 ^ 32 := by
  constructor
  · intro h
    by_contra hlong
    exact not_interchangeable_of_long decode s mem stack data (Nat.le_of_not_lt hlong) h
  · intro h
    refine ⟨⟨nx / 4 + 1 + 1, _, compress1_eq mem stack data h, compressStrided1_eq mem stack data h,
      ?_⟩, ?_⟩
    · intro v hv n hn
      have hwhole : v ∉ (List.range (nx / 4)).map (wholeVisit mem data) := by
        intro hv
        obtain ⟨i, -, rfl⟩ := List.mem_map.mp hv
        cases hn
      split at hv
      · obtain hv | hv := List.mem_append.mp hv
        · exact absurd hv hwhole
        · obtain rfl := List.mem_singleton.mp hv
          obtain rfl := Option.some.inj hn
          omega
      · exact absurd hv hwhole
    · obtain ⟨r, hr⟩ := decompressStrided1_eq mem data decode s h
      exact ⟨nx / 4 + 1 + 1, r, (decompress1_eq mem data decode s h).trans hr, hr⟩

/-- With `2 ^ 32` elements the whole array goes to the coder of partial blocks. -/
theorem compress1_long :
    ¬ Interchangeable (fun s : ℕ → ℤ => (s, s)) (fun _ => 0) (fun x : ℤ => x) (fun _ => 0) 0
      (2 ^ 32) :=
  not_interchangeable_of_long _ _ _ _ _ (Nat.le_refl _)

end Zfp

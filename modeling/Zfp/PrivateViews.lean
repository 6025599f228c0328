import Zfp.CacheCoherence
import Zfp.FixedRate
import Zfp.Partition
import Zfp.SharedMemory

/-!
# Private views

A private view of a 3D array has a cache of its own over the block store of the array. Views in
different threads share the store. If no two of them share a block, then each thread works as if
it was the only one, in every interleaving of the loads and stores of all threads.
-/

namespace Zfp
open SharedMemory Bitstream

/-- The operations of a private view, at indices in the view. `update` is an in-place update such
as an addition. -/
inductive ViewOp (α : Type)
  | get (i j k : ℕ)
  | set (i j k : ℕ) (val : α)
  | update (i j k : ℕ) (f : α → α)
  | flushCache
  | clearCache
  | setCacheSize (bytes : ℕ) (fresh : ℕ → ℕ → α)

/-- The user of a view: what it does next depends on what its operations returned. -/
inductive Client (α : Type)
  | done
  | op (o : ViewOp α) (next : BlockCache.Output α → Client α)

/-- The indices of the operation are those of the view, and it does not ask for too many lines. -/
def ViewOp.Valid {α : Type} (g : ArraySize) (lineBytes : ℕ) (v : View) : ViewOp α → Prop
  | .get i j k | .set i j k _ | .update i j k _ =>
    i < (v 0).size ∧ j < (v 1).size ∧ k < (v 2).size
  | .flushCache | .clearCache => True
  | .setCacheSize bytes _ => ∀ n, lines lineBytes bytes g.blocks = .ok n → n.toNat ≤ 2 ^ 31

def Client.Valid {α : Type} (g : ArraySize) (lineBytes : ℕ) (v : View) : Client α → Prop
  | .done => True
  | .op o next => o.Valid g lineBytes v ∧ ∀ out, (next out).Valid g lineBytes v

namespace PrivateView
open BlockCache

variable {σ ι V α : Type} (cfg : CacheConfig) (g : ArraySize) (lineBytes : ℕ) (v : View)

/-! ## One view alone -/

section

variable (st : Store σ α)

/-- cache line of element (i, j, k) of the view -/
def viewLine (s : BlockCache σ α) (i j k : ℕ) (write : Bool) : ℕ × BlockCache σ α :=
  let r := line cfg g st s ((v 0).offset + i) ((v 1).offset + j) ((v 2).offset + k) write
  (r.1, r.2.1)

def viewElement (i j k : ℕ) : ℕ :=
  elementIndex ((v 0).offset + i) ((v 1).offset + j) ((v 2).offset + k)

def modifyLine (c : Cache (ℕ → α)) (p e : ℕ) (f : α → α) : Cache (ℕ → α) :=
  c.setLine p (Function.update (c.line p) e (f (c.line p e)))

def step (s : BlockCache σ α) : ViewOp α → Option (Output α × BlockCache σ α)
  | .get i j k =>
    let (p, s) := viewLine cfg g v st s i j k false
    some (.value (s.cache.line p (viewElement v i j k)), s)
  | .set i j k val =>
    let (p, s) := viewLine cfg g v st s i j k true
    some (.done, { s with cache := modifyLine s.cache p (viewElement v i j k) fun _ => val })
  | .update i j k f =>
    let (p, s) := viewLine cfg g v st s i j k true
    some (.done, { s with cache := modifyLine s.cache p (viewElement v i j k) f })
  | .flushCache => some (.done, (flush st s).1)
  | .clearCache => some (.done, { s with cache := s.cache.clear })
  | .setCacheSize bytes fresh =>
    (resize g st lineBytes s bytes fresh).map fun r => (r.2.1, r.1)

def run : Client α → BlockCache σ α → Option (List (Output α) × BlockCache σ α)
  | .done, s => some ([], s)
  | .op o next, s =>
    (step cfg g lineBytes v st s o).bind fun r =>
      (run (next r.1) r.2).map fun q => (r.1 :: q.1, q.2)

def runView (n : BitVec 32) (fresh : ℕ → ℕ → α) (client : Client α) (store : σ) :
    Option (List (Output α) × BlockCache σ α) :=
  (Cache.new n fresh).bind fun c => run cfg g lineBytes v st client ⟨c, store⟩

/-- A client that does not ask for too many lines is always returned to. -/
theorem run_isSome (hg : g.Small) {client : Client α} (hclient : client.Valid g lineBytes v)
    (s : BlockCache σ α) : ∃ q, run cfg g lineBytes v st client s = some q := by
  induction client generalizing s with
  | done => exact ⟨_, rfl⟩
  | op o next ih =>
    have hstep : ∃ r, step cfg g lineBytes v st s o = some r := by
      cases o with
      | setCacheSize bytes fresh =>
        obtain ⟨n, hn⟩ := exists_lines lineBytes bytes hg
        obtain ⟨c, hc⟩ := Option.isSome_iff_exists.mp
          (((flush st s).1.cache.isSome_resize n fresh).mpr (hclient.1 n hn))
        simp only [step, resize, hn, hc, Option.map_some]
        exact ⟨_, rfl⟩
      | _ => exact ⟨_, rfl⟩
    obtain ⟨r, hr⟩ := hstep
    obtain ⟨q, hq⟩ := ih r.1 (hclient.2 r.1) r.2
    refine ⟨(r.1 :: q.1, q.2), ?_⟩
    rw [run, hr, Option.bind_some, hq, Option.map_some]

theorem runView_isSome (hg : g.Small) {n : BitVec 32} (hn : n.toNat ≤ 2 ^ 31)
    (fresh : ℕ → ℕ → α) {client : Client α} (hclient : client.Valid g lineBytes v) (store : σ) :
    ∃ q, runView cfg g lineBytes v st n fresh client store = some q := by
  obtain ⟨c, hc⟩ := Option.isSome_iff_exists.mp ((Cache.isSome_resize _ n fresh).mpr hn)
  rw [runView, Cache.new, hc, Option.bind_some]
  exact run_isSome cfg g lineBytes v st hg hclient _

end

/-! ## A thread with a view

The calls of the codec are threads as well, which access the words of their block only. -/

/-- Threads that encode and decode blocks. -/
structure StoreThreads [DecidableEq ι] (st : Store (ι → V) α) (words : ℕ → ι → Prop) where
  encode : ℕ → (ℕ → α) → Thread ι V Unit
  decode : ℕ → (ℕ → α) → Thread ι V (ℕ → α)
  alone_encode : ∀ b a mem, (encode b a).alone mem = ((), st.encode mem b a)
  alone_decode : ∀ b a mem, (decode b a).alone mem = st.decode mem b a
  within_encode : ∀ b a mem, (encode b a).Within (words b) mem
  within_decode : ∀ b a mem, (decode b a).Within (words b) mem

section

variable [DecidableEq ι] {st : Store (ι → V) α} {words : ℕ → ι → Prop} (C : StoreThreads st words)

def writeBack (dirty : Bool) (b : ℕ) (a : ℕ → α) : Thread ι V Unit :=
  if dirty then C.encode b a else .done ()

/-- return cache line for element (i, j, k) of the view; may require write-back and fetch -/
def lineThread (c : Cache (ℕ → α)) (i j k : ℕ) (write : Bool) : Thread ι V (ℕ × Cache (ℕ → α)) :=
  let blockIndex := g.blockIndex ((v 0).offset + i) ((v 1).offset + j) ((v 2).offset + k)
  let (p, tag, c) := c.access cfg (cacheIndex blockIndex) write
  let storedBlockIndex := (tag.index - 1).toNat
  if storedBlockIndex ≠ blockIndex then
    (writeBack C tag.dirty storedBlockIndex (c.line p)).bind fun _ =>
      (C.decode blockIndex (c.line p)).bind fun a => .done (p, c.setLine p a)
  else .done (p, c)

def flushSlotThread (c : Cache (ℕ → α)) (i : ℕ) : Thread ι V (Cache (ℕ → α)) :=
  if (c.tag i).used then
    (writeBack C (c.tag i).dirty ((c.tag i).index - 1).toNat (c.line i)).bind fun _ =>
      .done (c.flushLine i)
  else .done c

def flushLoop : List ℕ → Cache (ℕ → α) → Thread ι V (Cache (ℕ → α))
  | [], c => .done c
  | i :: l, c => (flushSlotThread C c i).bind (flushLoop l)

def flushThread (c : Cache (ℕ → α)) : Thread ι V (Cache (ℕ → α)) :=
  flushLoop C (List.range (c.mask.toNat + 1)) c

def stepThread (c : Cache (ℕ → α)) : ViewOp α → Thread ι V (Option (Output α × Cache (ℕ → α)))
  | .get i j k =>
    (lineThread cfg g v C c i j k false).bind fun r =>
      .done (some (.value (r.2.line r.1 (viewElement v i j k)), r.2))
  | .set i j k val =>
    (lineThread cfg g v C c i j k true).bind fun r =>
      .done (some (.done, modifyLine r.2 r.1 (viewElement v i j k) fun _ => val))
  | .update i j k f =>
    (lineThread cfg g v C c i j k true).bind fun r =>
      .done (some (.done, modifyLine r.2 r.1 (viewElement v i j k) f))
  | .flushCache => (flushThread C c).bind fun c => .done (some (.done, c))
  | .clearCache => .done (some (.done, c.clear))
  | .setCacheSize bytes fresh =>
    (flushThread C c).bind fun c =>
      match lines lineBytes bytes g.blocks with
      | Except.error what => .done (some (.exception what, c))
      | Except.ok n => .done ((c.resize n fresh).map fun c => (.done, c))

/-- The thread of a client. It ends with `none` where an operation does not return: the shared words
are not accessed any more. -/
def thread : Client α → Cache (ℕ → α) → Thread ι V (Option (List (Output α)))
  | .done, _ => .done (some [])
  | .op o next, c =>
    (stepThread cfg g lineBytes v C c o).bind fun r =>
      match r with
      | none => .done none
      | some r => (thread (next r.1) r.2).bind fun outs => .done (outs.map (r.1 :: ·))

def viewThread (n : BitVec 32) (fresh : ℕ → ℕ → α) (client : Client α) :
    Thread ι V (Option (List (Output α))) :=
  match Cache.new n fresh with
  | none => .done none
  | some c => thread cfg g lineBytes v C client c

/-! ## The thread alone -/

theorem alone_writeBack (dirty : Bool) (b : ℕ) (a : ℕ → α) (mem : ι → V) :
    (writeBack C dirty b a).alone mem = ((), if dirty then st.encode mem b a else mem) := by
  cases dirty with
  | false => rfl
  | true => exact C.alone_encode b a mem

theorem alone_lineThread (c : Cache (ℕ → α)) (i j k : ℕ) (write : Bool) (mem : ι → V) :
    (lineThread cfg g v C c i j k write).alone mem =
      let r := viewLine cfg g v st ⟨c, mem⟩ i j k write
      ((r.1, r.2.cache), r.2.store) := by
  rw [lineThread, viewLine, line]
  rcases c.access cfg _ write with ⟨p, tag, c'⟩
  dsimp only
  rcases eq_or_ne (tag.index - 1).toNat
    (g.blockIndex ((v 0).offset + i) ((v 1).offset + j) ((v 2).offset + k)) with heq | hne
  · rw [if_neg (not_not.mpr heq), if_neg (not_not.mpr heq)]
    rfl
  · rw [if_pos hne, if_pos hne, Thread.alone_bind, alone_writeBack, Thread.alone_bind,
      C.alone_decode]
    rfl

theorem alone_flushLoop (l : List ℕ) (c : Cache (ℕ → α)) (mem : ι → V)
    (back : List (WriteBack α)) :
    (flushLoop C l c).alone mem =
      let r := l.foldl (flushSlot st) (⟨c, mem⟩, back)
      (r.1.cache, r.1.store) := by
  induction l generalizing c mem back with
  | nil => rfl
  | cons i l ih =>
    rw [flushLoop, Thread.alone_bind, List.foldl_cons, flushSlot, flushSlotThread]
    dsimp only
    by_cases hused : (c.tag i).used
    · rw [if_pos hused, if_pos hused, Thread.alone_bind, alone_writeBack, Thread.alone_done]
      exact ih _ _ _
    · rw [if_neg hused, if_neg hused, Thread.alone_done]
      exact ih c mem back

theorem alone_flushThread (c : Cache (ℕ → α)) (mem : ι → V) :
    (flushThread C c).alone mem = ((flush st ⟨c, mem⟩).1.cache, (flush st ⟨c, mem⟩).1.store) :=
  alone_flushLoop C _ c mem []

theorem alone_stepThread (c : Cache (ℕ → α)) (o : ViewOp α) (mem : ι → V) :
    ((stepThread cfg g lineBytes v C c o).alone mem).1 =
        (step cfg g lineBytes v st ⟨c, mem⟩ o).map (fun r => (r.1, r.2.cache)) ∧
      ∀ r, step cfg g lineBytes v st ⟨c, mem⟩ o = some r →
        ((stepThread cfg g lineBytes v C c o).alone mem).2 = r.2.store := by
  cases o with
  | get i j k =>
    rw [stepThread, Thread.alone_bind, alone_lineThread]
    exact ⟨rfl, by rintro r ⟨⟩; rfl⟩
  | set i j k val =>
    rw [stepThread, Thread.alone_bind, alone_lineThread]
    exact ⟨rfl, by rintro r ⟨⟩; rfl⟩
  | update i j k f =>
    rw [stepThread, Thread.alone_bind, alone_lineThread]
    exact ⟨rfl, by rintro r ⟨⟩; rfl⟩
  | flushCache =>
    rw [stepThread, Thread.alone_bind, alone_flushThread]
    exact ⟨rfl, by rintro r ⟨⟩; rfl⟩
  | clearCache => exact ⟨rfl, by rintro r ⟨⟩; rfl⟩
  | setCacheSize bytes fresh =>
    rw [stepThread, Thread.alone_bind, alone_flushThread, step, resize]
    dsimp only
    rcases lines lineBytes bytes g.blocks with what | n
    · exact ⟨rfl, by rintro r ⟨⟩; rfl⟩
    · dsimp only
      rcases (flush st ⟨c, mem⟩).1.cache.resize n fresh with - | c'
      · exact ⟨rfl, by rintro r ⟨⟩⟩
      · exact ⟨rfl, by rintro r ⟨⟩; rfl⟩

/-- A thread that is not interrupted does what its client does with the view. -/
theorem alone_thread (client : Client α) (c : Cache (ℕ → α)) (mem : ι → V)
    {q : List (Output α) × BlockCache (ι → V) α}
    (h : run cfg g lineBytes v st client ⟨c, mem⟩ = some q) :
    (thread cfg g lineBytes v C client c).alone mem = (some q.1, q.2.store) := by
  induction client generalizing c mem q with
  | done =>
    cases h
    rfl
  | op o next ih =>
    obtain ⟨r, hr, hrest⟩ := Option.bind_eq_some_iff.mp h
    obtain ⟨q', hq', rfl⟩ := Option.map_eq_some_iff.mp hrest
    obtain ⟨hout, hmem⟩ := alone_stepThread cfg g lineBytes v C c o mem
    rw [hr, Option.map_some] at hout
    rw [thread, Thread.alone_bind, hout, hmem r hr]
    dsimp only
    rw [Thread.alone_bind, ih r.1 r.2.cache r.2.store hq']
    rfl

theorem alone_viewThread {n : BitVec 32} {fresh : ℕ → ℕ → α} {client : Client α} {mem : ι → V}
    {q : List (Output α) × BlockCache (ι → V) α}
    (h : runView cfg g lineBytes v st n fresh client mem = some q) :
    (viewThread cfg g lineBytes v C n fresh client).alone mem = (some q.1, q.2.store) := by
  obtain ⟨c, hc, hrun⟩ := Option.bind_eq_some_iff.mp h
  rw [viewThread, hc]
  exact alone_thread cfg g lineBytes v C client c mem hrun

/-! ## The words that a thread accesses -/

/-- The dirty lines of the cache belong to blocks of the view. -/
def OwnTags (own : ℕ → Prop) (c : Cache (ℕ → α)) : Prop :=
  ∀ k ≤ c.mask.toNat, (c.tag k).dirty = true → own ((c.tag k).index - 1).toNat

theorem ownTags_of_unused (own : ℕ → Prop) {c : Cache (ℕ → α)}
    (h : ∀ k ≤ c.mask.toNat, c.tag k = Tag.unused) : OwnTags own c := by
  intro k hk hdirty
  rw [h k hk] at hdirty
  exact absurd hdirty (by decide)

theorem OwnTags.flushLine {own : ℕ → Prop} {c : Cache (ℕ → α)} (h : OwnTags own c) (i : ℕ) :
    OwnTags own (c.flushLine i) := by
  intro k hk hdirty
  change (Function.update c.tag i Tag.unused k).dirty = true at hdirty
  change own ((Function.update c.tag i Tag.unused k).index - 1).toNat
  rcases eq_or_ne k i with rfl | hne
  · rw [Function.update_self] at hdirty
    exact absurd hdirty (by decide)
  · rw [Function.update_of_ne hne] at hdirty ⊢
    exact h k hk hdirty

theorem OwnTags.modifyLine {own : ℕ → Prop} {c : Cache (ℕ → α)} (h : OwnTags own c) (p e : ℕ)
    (f : α → α) : OwnTags own (modifyLine c p e f) := h

/-- An access leaves dirty lines of own blocks only, and what it replaces is one of them. -/
theorem OwnTags.access {own : ℕ → Prop} {c : Cache (ℕ → α)} (h : OwnTags own c) {b : ℕ}
    (hown : own b) (hb : b + 1 < 2 ^ 31) (write : Bool) :
    OwnTags own (c.access cfg (cacheIndex b) write).2.2 ∧
      ((c.access cfg (cacheIndex b) write).2.1.dirty = true →
        own ((c.access cfg (cacheIndex b) write).2.1.index - 1).toNat) := by
  have hidx := toNat_cacheIndex_sub (b := b) (by omega)
  rcases c.access_cases cfg (cacheIndex b) write with
    ⟨p, hhome, hhit, haccess⟩ | ⟨p, hhome, -, haccess⟩
  · have hmark : OwnTags own (if write then c.markSlot p else c) := by
      cases write with
      | false => exact h
      | true =>
        intro k hk hdirty
        rcases eq_or_ne k p with rfl | hne
        · simpa only [if_true, Cache.tag_markSlot, Tag.index_mark, hhit, hidx] using hown
        · simp only [if_true, Cache.tag_markSlot_of_ne _ hne] at hdirty ⊢
          exact h k hk hdirty
    rw [haccess]
    refine ⟨hmark, fun hdirty => hmark p ?_ hdirty⟩
    cases write <;> exact hhome.le
  · rw [haccess]
    refine ⟨?_, h p hhome.le⟩
    intro k hk hdirty
    dsimp only at hk hdirty ⊢
    rcases eq_or_ne k p with rfl | hne
    · have htoNat : (cacheIndex b).toNat = b + 1 := toNat_cacheIndex (by omega)
      rw [Function.update_self, Tag.index_make (by omega), hidx]
      exact hown
    · rw [Function.update_of_ne hne] at hdirty ⊢
      exact h k hk hdirty

variable {own : ℕ → Prop}

def OwnWords (words : ℕ → ι → Prop) (own : ℕ → Prop) (i : ι) : Prop := ∃ b, own b ∧ words b i

theorem ensures_writeBack {dirty : Bool} {b : ℕ} (hb : dirty = true → own b) (a : ℕ → α)
    (mem : ι → V) :
    (writeBack C dirty b a).Ensures (OwnWords words own) (fun _ => True) mem := by
  cases dirty with
  | false => exact ⟨trivial, trivial⟩
  | true => exact ((C.within_encode b a mem).mono fun i hi => ⟨b, hb rfl, hi⟩).ensures

theorem ensures_lineThread {c : Cache (ℕ → α)} (h : OwnTags own c) {i j k : ℕ}
    (hown : own (g.blockIndex ((v 0).offset + i) ((v 1).offset + j) ((v 2).offset + k)))
    (hsmall : g.blockIndex ((v 0).offset + i) ((v 1).offset + j) ((v 2).offset + k) + 1 < 2 ^ 31)
    (write : Bool) (mem : ι → V) : (lineThread cfg g v C c i j k write).Ensures
      (OwnWords words own) (fun r => OwnTags own r.2) mem := by
  obtain ⟨hcache, hreplaced⟩ := h.access cfg hown hsmall write
  rw [lineThread]
  generalize c.access cfg _ write = r at hcache hreplaced ⊢
  obtain ⟨p, tag, c'⟩ := r
  dsimp only at hcache hreplaced ⊢
  split_ifs
  · refine (ensures_writeBack C hreplaced _ mem).bind fun _ mem _ => ?_
    have hdecode := (C.within_decode
      (g.blockIndex ((v 0).offset + i) ((v 1).offset + j) ((v 2).offset + k)) (c'.line p) mem).mono
      fun x hx => (⟨_, hown, hx⟩ : OwnWords words own x)
    exact hdecode.ensures.bind fun a _ _ => ⟨trivial, hcache⟩
  · exact ⟨trivial, hcache⟩

theorem ensures_flushLoop {l : List ℕ} {c : Cache (ℕ → α)} (h : OwnTags own c)
    (hl : ∀ i ∈ l, i ≤ c.mask.toNat) (mem : ι → V) :
    (flushLoop C l c).Ensures (OwnWords words own) (fun c' => OwnTags own c') mem := by
  induction l generalizing c mem with
  | nil => exact ⟨trivial, h⟩
  | cons i l ih =>
    have hslot : (flushSlotThread C c i).Ensures (OwnWords words own)
        (fun c' => OwnTags own c' ∧ c'.mask = c.mask) mem := by
      rw [flushSlotThread]
      split_ifs
      · exact (ensures_writeBack C (h i (hl i List.mem_cons_self)) _ mem).bind
          fun _ _ _ => ⟨trivial, h.flushLine i, rfl⟩
      · exact ⟨trivial, h, rfl⟩
    refine hslot.bind fun c' mem hc' => ih hc'.1 (fun j hj => ?_) mem
    rw [hc'.2]
    exact hl j (List.mem_cons_of_mem i hj)

theorem ensures_flushThread {c : Cache (ℕ → α)} (h : OwnTags own c) (mem : ι → V) :
    (flushThread C c).Ensures (OwnWords words own) (fun c' => OwnTags own c') mem := by
  refine ensures_flushLoop C h (fun i hi => ?_) mem
  rw [List.mem_range] at hi
  omega

/-- The blocks that a view meets. -/
def viewBlocks (b : ℕ) : Prop :=
  ∃ x, v.Mem 3 x ∧ g.blockIndex (x 0) (x 1) (x 2) = b

def Inside : Prop := ∀ x, v.Mem 3 x → g.Mem (x 0, x 1, x 2)

theorem ensures_element {c : Cache (ℕ → α)} (h : OwnTags (viewBlocks g v) c) (hg : g.Small)
    (hv : Inside g v) {i j k : ℕ} (hi : i < (v 0).size) (hj : j < (v 1).size)
    (hk : k < (v 2).size) (write : Bool) (mem : ι → V) :
    (lineThread cfg g v C c i j k write).Ensures (OwnWords words (viewBlocks g v))
      (fun r => OwnTags (viewBlocks g v) r.2) mem := by
  have hmem : v.Mem 3 fun a => (v a).offset + if a = 0 then i else if a = 1 then j else k := by
    intro a ha
    obtain rfl | rfl | rfl : a = 0 ∨ a = 1 ∨ a = 2 := by omega
    · simpa using hi
    · simpa using hj
    · simpa using hk
  have hlt := ArraySize.blockIndex_lt (hv _ hmem).1 (hv _ hmem).2.1 (hv _ hmem).2.2
  apply ensures_lineThread cfg g v C h
  · exact ⟨_, hmem, rfl⟩
  · exact lt_of_le_of_lt hlt hg

theorem ensures_stepThread {c : Cache (ℕ → α)} (h : OwnTags (viewBlocks g v) c) (hg : g.Small)
    (hv : Inside g v) {o : ViewOp α} (ho : o.Valid g lineBytes v) (mem : ι → V) :
    (stepThread cfg g lineBytes v C c o).Ensures (OwnWords words (viewBlocks g v))
      (fun r => ∀ r' ∈ r, OwnTags (viewBlocks g v) r'.2) mem := by
  have hsome {out : Output α} {c' : Cache (ℕ → α)} (hc' : OwnTags (viewBlocks g v) c')
      (mem : ι → V) : (Thread.done (some (out, c'))).Ensures (OwnWords words (viewBlocks g v))
        (fun r => ∀ r' ∈ r, OwnTags (viewBlocks g v) r'.2) mem := by
    refine ⟨trivial, ?_⟩
    rintro r' ⟨⟩
    exact hc'
  cases o with
  | get i j k =>
    exact (ensures_element cfg g v C h hg hv ho.1 ho.2.1 ho.2.2 false mem).bind
      fun r mem hr => hsome hr mem
  | set i j k val =>
    exact (ensures_element cfg g v C h hg hv ho.1 ho.2.1 ho.2.2 true mem).bind
      fun r mem hr => hsome (hr.modifyLine _ _ _) mem
  | update i j k f =>
    exact (ensures_element cfg g v C h hg hv ho.1 ho.2.1 ho.2.2 true mem).bind
      fun r mem hr => hsome (hr.modifyLine _ _ _) mem
  | flushCache => exact (ensures_flushThread C h mem).bind fun c' mem hc' => hsome hc' mem
  | clearCache => exact hsome (ownTags_of_unused _ fun k hk => c.tag_clear hk) mem
  | setCacheSize bytes fresh =>
    refine (ensures_flushThread C h mem).bind fun c' mem hc' => ?_
    cases lines lineBytes bytes g.blocks with
    | error what => exact hsome hc' mem
    | ok n =>
      refine ⟨trivial, ?_⟩
      intro r' hr'
      obtain ⟨c'', hc'', rfl⟩ := Option.map_eq_some_iff.mp hr'
      exact ownTags_of_unused _ fun k hk => Cache.tag_resize hc'' hk

/-- The thread of a view accesses the words of the blocks of the view only. -/
theorem within_viewThread (hg : g.Small) (hv : Inside g v) {client : Client α}
    (hclient : client.Valid g lineBytes v) (n : BitVec 32) (fresh : ℕ → ℕ → α) (mem : ι → V) :
    (viewThread cfg g lineBytes v C n fresh client).Within (OwnWords words (viewBlocks g v))
      mem := by
  have hensures : ∀ c mem, OwnTags (viewBlocks g v) c →
      (thread cfg g lineBytes v C client c).Ensures (OwnWords words (viewBlocks g v))
        (fun _ => True) mem := by
    induction client with
    | done => exact fun c mem hc => ⟨trivial, trivial⟩
    | op o next ih =>
      intro c mem hc
      rw [thread]
      refine (ensures_stepThread cfg g lineBytes v C hc hg hv hclient.1 mem).bind
        fun r mem hr => ?_
      cases r with
      | none => exact ⟨trivial, trivial⟩
      | some r =>
        exact (ih r.1 (hclient.2 r.1) r.2 mem (hr r rfl)).bind fun outs _ _ => ⟨trivial, trivial⟩
  rw [viewThread]
  cases hc : Cache.new n fresh with
  | none => trivial
  | some c => exact (hensures c mem (ownTags_of_unused _ fun k hk => Cache.tag_resize hc hk)).1

/-! ## Views in threads -/

variable {τ : Type}

/-- No two of the views share a block. -/
def BlockDisjoint (view : τ → View) : Prop :=
  ∀ t t' b, viewBlocks g (view t) b → viewBlocks g (view t') b → t = t'

/-- The threads at the start: each has a view with an empty cache, and they share `mem`. -/
def system (view : τ → View) (n : τ → BitVec 32) (fresh : τ → ℕ → ℕ → α) (client : τ → Client α)
    (mem : ι → V) : System ι V τ (Option (List (Output α))) where
  thread t := viewThread cfg g lineBytes (view t) C (n t) (fresh t) (client t)
  mem := mem

/-- Threads with views that share no block access different words. -/
theorem separated_system (hg : g.Small) (hwords : ∀ b b' i, words b i → words b' i → b = b')
    {view : τ → View} (hview : ∀ t, Inside g (view t)) (hdisj : BlockDisjoint g view)
    (n : τ → BitVec 32) (fresh : τ → ℕ → ℕ → α) {client : τ → Client α}
    (hclient : ∀ t, (client t).Valid g lineBytes (view t)) (mem : ι → V) :
    Separated (fun t => OwnWords words (viewBlocks g (view t)))
      (system cfg g lineBytes C view n fresh client mem) where
  within t := within_viewThread cfg g lineBytes (view t) C hg (hview t) (hclient t) (n t) (fresh t)
    mem
  disjoint t t' i := by
    rintro ⟨b, hb, hi⟩ ⟨b', hb', hi'⟩
    have hbb := hwords b b' i hi hi'
    subst hbb
    exact hdisj t t' b hb hb'

end

end PrivateView

end Zfp

import Zfp.BlockGeometry
import Zfp.Cache

/-!
# The cache of decompressed blocks of a 3D array

The operations of the cache over a block store, and the array that they stand for.
-/

namespace Zfp

/-- The block store below the cache. Blocks are coded from and to contiguous lines and strided
memory; decoding returns the memory as it is then and the store, whose stream has moved. -/
structure Store (σ α : Type) where
  encode : σ → ℕ → (ℕ → α) → σ
  encodeStrided : σ → ℕ → (ℤ → α) → Strided → σ
  decode : σ → ℕ → (ℕ → α) → (ℕ → α) × σ
  decodeStrided : σ → ℕ → (ℤ → α) → Strided → (ℤ → α) × σ

/-- The cache and the store that it backs. -/
structure BlockCache (σ α : Type) where
  cache : Cache (ℕ → α)
  store : σ

abbrev WriteBack (α : Type) := ℕ × (ℕ → α)

/-- (uint)block_index + 1 -/
def cacheIndex (blockIndex : ℕ) : BitVec 32 := BitVec.ofNat 32 blockIndex + 1

/-- compute m = O(sqrt(n)), from `m = 2 ^ e` -/
def linesLoop (blocks e : ℕ) : ℕ :=
  if 2 ^ e * 2 ^ e < blocks then linesLoop blocks (e + 1) else 2 ^ e
termination_by blocks - 2 ^ e
decreasing_by
  have hle : 2 ^ e ≤ 2 ^ e * 2 ^ e := Nat.le_mul_of_pos_left _ (Nat.two_pow_pos e)
  have hpos := Nat.two_pow_pos e
  rw [Nat.pow_succ]
  omega

/-- number of cache lines corresponding to size (or suggested size if zero), for lines of
`lineBytes` bytes -/
def lines (lineBytes bytes blocks : ℕ) : Except String (BitVec 32) :=
  -- ensure block index fits in tag
  if blocks / 2 ^ 31 ≠ 0 then Except.error "zfp array too large for cache"
  else
    let n :=
      if bytes ≠ 0 then BitVec.ofNat 32 ((bytes + lineBytes - 1) % 2 ^ 64 / lineBytes)
      else BitVec.ofNat 32 (linesLoop blocks 0)
    Except.ok (if n ≠ 0 then n else 1)

namespace BlockCache

variable {σ α : Type} (cfg : CacheConfig) (g : ArraySize) (st : Store σ α)

def new (n : BitVec 32) (fresh : ℕ → ℕ → α) (store : σ) : Option (BlockCache σ α) :=
  (Cache.new n fresh).map fun cache => ⟨cache, store⟩

/-- return cache line for (i, j, k); may require write-back and fetch -/
def line (s : BlockCache σ α) (i j k : ℕ) (write : Bool) :
    ℕ × BlockCache σ α × List (WriteBack α) :=
  let blockIndex := g.blockIndex i j k
  let (p, tag, cache) := s.cache.access cfg (cacheIndex blockIndex) write
  let storedBlockIndex := (tag.index - 1).toNat
  if storedBlockIndex ≠ blockIndex then
    -- write back occupied cache line if it is dirty
    let store := if tag.dirty then st.encode s.store storedBlockIndex (cache.line p) else s.store
    -- fetch cache line
    let (a, store) := st.decode store blockIndex (cache.line p)
    (p, ⟨cache.setLine p a, store⟩, if tag.dirty then [(storedBlockIndex, cache.line p)] else [])
  else (p, ⟨cache, s.store⟩, [])

/-- The body of the loop of a flush, for slot `i`. -/
def flushSlot (s : BlockCache σ α × List (WriteBack α)) (i : ℕ) :
    BlockCache σ α × List (WriteBack α) :=
  let (s, back) := s
  let tag := s.cache.tag i
  -- the iterator visits the lines in use
  if tag.used then
    let blockIndex := (tag.index - 1).toNat
    let store := if tag.dirty then st.encode s.store blockIndex (s.cache.line i) else s.store
    (⟨s.cache.flushLine i, store⟩,
      if tag.dirty then back ++ [(blockIndex, s.cache.line i)] else back)
  else (s, back)

def flush (s : BlockCache σ α) : BlockCache σ α × List (WriteBack α) :=
  (List.range (s.cache.mask.toNat + 1)).foldl (flushSlot st) (s, [])

/-- The operations of an array on its cache. `ref` is the assignment through a reference. -/
inductive Op (α : Type)
  | get (i j k : ℕ)
  | set (i j k : ℕ) (val : α)
  | ref (i j k : ℕ) (val : α)
  | getBlock (blockIndex : ℕ) (mem : ℤ → α) (m : Strided)
  | putBlock (blockIndex : ℕ) (mem : ℤ → α) (m : Strided)
  | flush
  | resize (bytes : ℕ) (fresh : ℕ → ℕ → α)

/-- What an operation returns: nothing, an element, or the memory of its caller. -/
inductive Output (α : Type)
  | done
  | value (val : α)
  | memory (mem : ℤ → α)
  | exception (what : String)

def assign (s : BlockCache σ α) (i j k : ℕ) (val : α) : BlockCache σ α × List (WriteBack α) :=
  let (p, s, back) := line cfg g st s i j k true
  ({ s with
      cache := s.cache.setLine p (Function.update (s.cache.line p) (elementIndex i j k) val) },
    back)

/-- read-no-allocate: copy block from cache on hit, else from store without caching -/
def getBlock (s : BlockCache σ α) (blockIndex : ℕ) (mem : ℤ → α) (m : Strided) :
    BlockCache σ α × (ℤ → α) :=
  let (p, cache) := s.cache.lookup cfg (cacheIndex blockIndex) false
  match p with
  | some p => (⟨cache, s.store⟩, lineGet (cache.line p) (g.blockShape blockIndex) m mem)
  | none =>
    let (mem, store) := st.decodeStrided s.store blockIndex mem m
    (⟨cache, store⟩, mem)

/-- write-no-allocate: copy block to cache on hit, else to store without caching -/
def putBlock (s : BlockCache σ α) (blockIndex : ℕ) (mem : ℤ → α) (m : Strided) :
    BlockCache σ α :=
  let (p, cache) := s.cache.lookup cfg (cacheIndex blockIndex) true
  match p with
  | some p =>
    ⟨cache.setLine p (linePut mem (g.blockShape blockIndex) m (cache.line p)), s.store⟩
  | none => ⟨cache, st.encodeStrided s.store blockIndex mem m⟩

/-- set minimum cache size in bytes (inferred from blocks if zero) -/
def resize (lineBytes : ℕ) (s : BlockCache σ α) (bytes : ℕ) (fresh : ℕ → ℕ → α) :
    Option (BlockCache σ α × Output α × List (WriteBack α)) :=
  let (s, back) := flush st s
  match lines lineBytes bytes g.blocks with
  | Except.error what => some (s, Output.exception what, back)
  | Except.ok n => (s.cache.resize n fresh).map fun cache => (⟨cache, s.store⟩, Output.done, back)

/-- One operation: the cache after it, what it returns, and the lines it writes back. There is
nothing of the kind if the operation does not return. -/
def step (lineBytes : ℕ) (s : BlockCache σ α) :
    Op α → Option (BlockCache σ α × Output α × List (WriteBack α))
  | .get i j k =>
    let (p, s, back) := line cfg g st s i j k false
    some (s, Output.value (s.cache.line p (elementIndex i j k)), back)
  | .set i j k val =>
    let (s, back) := assign cfg g st s i j k val
    some (s, Output.done, back)
  | .ref i j k val =>
    let (s, back) := assign cfg g st s i j k val
    some (s, Output.done, back)
  | .getBlock blockIndex mem m =>
    let (s, mem) := getBlock cfg g st s blockIndex mem m
    some (s, Output.memory mem, [])
  | .putBlock blockIndex mem m => some (putBlock cfg g st s blockIndex mem m, Output.done, [])
  | .flush =>
    let (s, back) := flush st s
    some (s, Output.done, back)
  | .resize bytes fresh => resize g st lineBytes s bytes fresh

def run (lineBytes : ℕ) (s : BlockCache σ α) :
    List (Op α) → Option (BlockCache σ α × List (Output α))
  | [] => some (s, [])
  | op :: ops => (step cfg g st lineBytes s op).bind fun r =>
      (run lineBytes r.1 ops).map fun q => (q.1, r.2.1 :: q.2)

/-! ## The array -/

def Op.Valid : Op α → Prop
  | .get i j k => g.Mem (i, j, k)
  | .set i j k _ => g.Mem (i, j, k)
  | .ref i j k _ => g.Mem (i, j, k)
  | .getBlock b _ _ => b < g.blocks
  | .putBlock b _ _ => b < g.blocks
  | .flush => True
  | .resize _ _ => True

/-- The operation does not ask for a cache of more than 2^31 lines. -/
def Op.LinesFit (lineBytes : ℕ) : Op α → Prop
  | .resize bytes _ => ∀ n, lines lineBytes bytes g.blocks = .ok n → n.toNat ≤ 2 ^ 31
  | _ => True

def Op.spec (A : ℕ × ℕ × ℕ → α) : Op α → (ℕ × ℕ × ℕ → α) × Output α
  | .get i j k => (A, Output.value (A (i, j, k)))
  | .set i j k val => (Function.update A (i, j, k) val, Output.done)
  | .ref i j k val => (Function.update A (i, j, k) val, Output.done)
  | .getBlock b mem m =>
    (A, Output.memory (lineGet (fun o => A (g.coord b o)) (g.blockShape b) m mem))
  | .putBlock b mem m =>
    (fun x => if g.Mem x ∧ g.blockIndex x.1 x.2.1 x.2.2 = b then
      mem (m.addr (elementIndex x.1 x.2.1 x.2.2)) else A x, Output.done)
  | .flush => (A, Output.done)
  | .resize _ _ => (A, Output.done)

def specRun (A : ℕ × ℕ × ℕ → α) (ops : List (Op α)) : ℕ × ℕ × ℕ → α :=
  ops.foldl (fun A op => (op.spec g A).1) A

def specOutputs : (ℕ × ℕ × ℕ → α) → List (Op α) → List (Output α)
  | _, [] => []
  | A, op :: ops => (op.spec g A).2 :: specOutputs (op.spec g A).1 ops

end BlockCache

/-- A store is lossless and isolated: `view` is what decoding returns for the elements of a block,
encoding a block sets its view and leaves the others. -/
structure Lossless {σ α : Type} (g : ArraySize) (st : Store σ α) (view : σ → ℕ → ℕ → α) : Prop where
  encode_self : ∀ s b a o, b < g.blocks → InBlock (g.blockShape b) o →
    view (st.encode s b a) b o = a o
  encode_ne : ∀ s b a b' o, b < g.blocks → b' < g.blocks → b' ≠ b → InBlock (g.blockShape b') o →
    view (st.encode s b a) b' o = view s b' o
  encodeStrided_self : ∀ s b mem m o, b < g.blocks → InBlock (g.blockShape b) o →
    view (st.encodeStrided s b mem m) b o = mem (m.addr o)
  encodeStrided_ne : ∀ s b mem m b' o, b < g.blocks → b' < g.blocks → b' ≠ b →
    InBlock (g.blockShape b') o → view (st.encodeStrided s b mem m) b' o = view s b' o
  decode : ∀ s b a o, b < g.blocks → InBlock (g.blockShape b) o →
    (st.decode s b a).1 o = view s b o
  decode_view : ∀ s b a b' o, b < g.blocks → b' < g.blocks → InBlock (g.blockShape b') o →
    view (st.decode s b a).2 b' o = view s b' o
  decodeStrided : ∀ s b mem m, b < g.blocks →
    (st.decodeStrided s b mem m).1 = lineGet (view s b) (g.blockShape b) m mem
  decodeStrided_view : ∀ s b mem m b' o, b < g.blocks → b' < g.blocks →
    InBlock (g.blockShape b') o → view (st.decodeStrided s b mem m).2 b' o = view s b' o

end Zfp

import Zfp.Chunks
import Zfp.Compress1d
import Zfp.FieldSpan

/-!
# Compression and decompression of fields

`zfp_compress` and `zfp_decompress` look up a routine by execution policy, layout and
dimensionality, call it, align the stream and return the size of the stream. The routines return
nothing. They are modelled with the list of the blocks that they hand to the block coder; what
runs on a device is a parameter.
-/

namespace Zfp

variable {T : WordType} {S : Scalar} {d : ℕ}

inductive ExecPolicy | serial | omp | cuda
  deriving DecidableEq

/-- `zfp_field_stride(field, NULL)`: whether any stride is set. -/
def zfpFieldStrided (field : Field) : Bool :=
  field.sx ≠ 0 ∨ field.sy ≠ 0 ∨ field.sz ≠ 0 ∨ field.sw ≠ 0

/-! ## Layouts on a device -/

def intT (x : ℤ) : ℤ := x.bmod (2 ^ 32)

/-- Whether the elements of an array are contiguous, and the offset of the first of them. Sizes
are of type `uint`, those of unused dimensions zero. -/
def isContiguous3d (dims : ℕ → ℕ) (stride : ℕ → ℤ) : Bool × ℤ :=
  let imin := fun a => min (stride a) 0 * ((dims a : ℤ) - 1)
  let imax := fun a => max (stride a) 0 * ((dims a : ℤ) - 1)
  match ((List.range 3).filter fun a => dims a ≠ 0).length with
  | 3 => (imax 0 + imax 1 + imax 2 - (imin 0 + imin 1 + imin 2) + 1 = dims 0 * dims 1 * dims 2,
      imin 0 + imin 1 + imin 2)
  | 2 => (imax 0 + imax 1 - (imin 0 + imin 1) + 1 = dims 0 * dims 1, imin 0 + imin 1)
  | _ => (|intT (stride 0)| = 1, if stride 0 < 0 then stride 0 * ((dims 0 : ℤ) - 1) else 0)

/-- How a backend starts on a field. -/
inductive Start | ready | rejected | undefined
  deriving DecidableEq

/-- The backends: CUDA, with the field in device memory or on the host, and Metal. -/
inductive Gpu
  | cuda (resident : Bool)
  | metal

def uintDims (field : Field) (a : ℕ) : ℕ := field.size a % 2 ^ 32

/-- Whether a backend takes the layout of a field, and the offset of the first element. -/
def Gpu.layout (field : Field) : Gpu → Bool × ℤ
  | .cuda true => (true, 0)
  | .cuda false => isContiguous3d (uintDims field) fun a => intT (zfpFieldStride field a)
  | .metal => isContiguous3d (uintDims field) (zfpFieldStride field)

/-- Whether memory for copies of the field and of the stream is obtained. -/
structure DeviceMemory where
  field : Bool
  stream : Bool

def Gpu.start (memory : DeviceMemory) (field : Field) (g : Gpu) : Start :=
  let (contig, offset) := g.layout field
  match g with
  | .cuda resident =>
    if contig ∧ (resident ∨ memory.field) then
      -- the kernels are given the stream without a check
      if memory.stream then .ready else .undefined
    -- null means the array is non-contiguous host mem, but the offset is added to it first
    else if offset = 0 then .rejected else .undefined
  | .metal => if contig ∧ memory.field then .ready else .rejected

/-! ## The environment -/

abbrev Data : Type := (S : Scalar) → ℤ → BitVec S.width

abbrev Floats : Type := (S : Scalar) → (d : ℕ) → FloatOps S (4 ^ d)

def unusedFloats : Floats := fun S _ =>
  { exponentBlock := fun _ => 0
    fwdCast := fun b _ => b
    invCast := fun b _ => b
    exponentBlock_mem := fun _ => by cases S <;> decide }

/-- The stream after a call, and the corners of the blocks that have been coded. -/
structure Run (T : WordType) where
  stream : Bitstream T
  blocks : List (ℕ → ℕ)

/-- The build and its surroundings: whether OpenMP is enabled and with how many threads and which
chunk size, the memory, the backend if there is one and what it does with a field once it has
started. `deviceCode` is the code that it gives to the block at a corner, `deviceBlock` the values
that it decodes for a block index. -/
structure Env (T : WordType) where
  openmp : Bool
  threads : ℕ
  threads_pos : 0 < threads
  chunkSize : ℕ
  memory : Memory T
  gpu : Option Gpu
  deviceMemory : DeviceMemory
  encode : Params → Data → Field → Bitstream T → Run T
  decode : Params → Data → Field → Bitstream T → Run T × Data
  deviceCode : Params → Data → Field → (ℕ → ℕ) → List Bool
  deviceBlock : Params → Field → Bitstream T → ℕ → (S : Scalar) → ℕ → BitVec S.width

def serialBuild (T : WordType) : Env T where
  openmp := false
  threads := 1
  threads_pos := Nat.one_pos
  chunkSize := 0
  memory := ⟨fun _ _ => none, fun _ _ => 0⟩
  gpu := none
  deviceMemory := ⟨false, false⟩
  encode _ _ _ s := ⟨s, []⟩
  decode _ mem _ s := (⟨s, []⟩, mem)
  deviceCode _ _ _ _ := []
  deviceBlock _ _ _ _ _ _ := 0

inductive Routine | contiguous | strided | omp | cuda

/-- function table [execution][strided][dimensionality]; the entries for all scalar types agree -/
def ftable (openmp gpu : Bool) : ExecPolicy → Bool → ℕ → Option Routine
  | .serial, strided, dims => some (if dims = 1 ∧ !strided then .contiguous else .strided)
  | .omp, _, _ => if openmp then some .omp else none
  | .cuda, _, dims => if gpu ∧ dims ≤ 3 then some .cuda else none

/-! ## Compression -/

section

variable (ops : FloatOps S (4 ^ d)) (zfp : Params) (mem : ℤ → BitVec S.width)

def encodeNext (r : Run T) (o : ℕ → ℕ) (block : ℕ → BitVec S.width) : Run T :=
  ⟨(zfpEncodeBlock ops zfp r.stream block).2, r.blocks ++ [o]⟩

def compressStrided (n : ℕ → ℕ) (stride : ℕ → ℤ) (s : Bitstream T) : Run T :=
  (corners n d).foldl (fun r o => encodeNext ops zfp r o (compressBlock d mem n stride o)) ⟨s, []⟩

/-- Whether the counters of the nested loops, which are of type `size_t`, get past the sizes. -/
def loopsEnd (n : ℕ → ℕ) (d : ℕ) : Bool := decide (∀ a < d, n a ≤ 2 ^ 64 - 4)

/-- The corner of the one-dimensional block that begins at `x`. -/
def corner1 (x : ℕ) : ℕ → ℕ := Function.update (fun _ => 0) 0 x

/-- `compress` for one dimension; undefined if the last, partial block overruns its array on the
stack. -/
def compressContiguous (nx : ℕ) (s : Bitstream T) : Option (Run T) :=
  if wholeLimit nx + 4 ≤ nx then none
  else (compress1 mem (fun _ => 0) 0 nx (nx / 4 + 1 + 1)).map fun l =>
    l.foldl (fun r v => encodeNext ops zfp r (corner1 v.x) fun i => v.values.getD i 0) ⟨s, []⟩

def blockRest (bx : ℕ → ℕ) (b : ℕ) : ℕ → ℕ
  | 0 => b
  | a + 1 => blockRest bx b a / bx a

/-- determine block origin within array -/
def blockOrigin (bx : ℕ → ℕ) (d b a : ℕ) : ℕ :=
  if a + 1 < d then 4 * (blockRest bx b a % bx a)
  else if a + 1 = d then 4 * blockRest bx b a else 0

def indexedBlock (d : ℕ) (mem : ℤ → BitVec S.width) (field : Field) (b : ℕ) : ℕ → BitVec S.width :=
  compressBlock d mem field.size (zfpFieldStride field)
    (blockOrigin (fun a => blocksAlong (field.size a)) d b)

def chunkCorners (d : ℕ) (field : Field) (blocks chunks : ℕ) : List (ℕ → ℕ) :=
  (List.range (chunkPasses chunks)).flatMap fun c =>
    (List.range' (chunkOffset blocks chunks c)
      (chunkOffset blocks chunks (c + 1) - chunkOffset blocks chunks c)).map
        (blockOrigin (fun a => blocksAlong (field.size a)) d)

/-- `compress_omp` and `compress_strided_omp`; undefined for zero chunks and where memory is freed
that was not allocated. -/
def compressOmp (env : Env T) (field : Field) (dst : Handle T) : Option (Run T) :=
  let blocks := zfpFieldBlocks field
  let chunks := chunkCountOmp env.chunkSize blocks env.threads
  if chunks = 0 then none
  else
    -- allocate per-thread streams
    match compressInitPar env.memory zfp dst field chunks blocks with
    | none => some ⟨dst.stream, []⟩
    | some bs =>
      -- compress chunks of blocks in parallel
      let src := compressChunks ops zfp (indexedBlock d mem field) blocks chunks bs
      let buffer := if copyChunks zfp dst.stream then dst.stream.mem else inPlaceBuffer dst src
      -- concatenate per-thread streams
      let (dst', freed) := compressFinishPar (dst.withBuffer buffer) src
      if freed = if copyChunks zfp dst.stream then bs.map Handle.data else [] then
        some ⟨dst'.stream, chunkCorners d field blocks chunks⟩
      else none

end

/-- `compress_cuda` and `decompress_cuda`: what they leave, given what was there and what the
backend makes of a field once it has started. -/
def onDevice {α : Type} (env : Env T) (zfp : Params) (field : Field) (idle done : α) : Option α :=
  if zfpStreamCompressionMode zfp = .fixedRate then
    match env.gpu.map (Gpu.start env.deviceMemory field) with
    | some .ready => some done
    | some .undefined => none
    | _ => some idle
  else some idle

def compressRoutine (env : Env T) (ops : Floats) (zfp : Params) (mem : Data) (field : Field)
    (S : Scalar) (dst : Handle T) : Routine → Option (Run T)
  | .contiguous => compressContiguous (ops S 1) zfp (mem S) field.nx dst.stream
  | .strided =>
    if loopsEnd field.size (zfpFieldDimensionality field) then
      some (compressStrided (ops S (zfpFieldDimensionality field)) zfp (mem S) field.size
        (zfpFieldStride field) dst.stream)
    else none
  | .omp => compressOmp (ops S (zfpFieldDimensionality field)) zfp (mem S) env field dst
  | .cuda => onDevice env zfp field ⟨dst.stream, []⟩ (env.encode zfp mem field dst.stream)

/-- The value returned and the run; undefined where the function table is read out of bounds, and
where the call does not return. -/
def zfpCompress (env : Env T) (ops : Floats) (policy : ExecPolicy) (zfp : Params) (mem : Data)
    (field : Field) (dst : Handle T) : Option (ℕ × Run T) :=
  match field.type with
  | none => some (0, ⟨dst.stream, []⟩)
  | some S =>
    if zfpFieldDimensionality field = 0 then none
    else
      -- return 0 if compression mode is not supported
      match ftable env.openmp env.gpu.isSome policy (zfpFieldStrided field)
          (zfpFieldDimensionality field) with
      | none => some (0, ⟨dst.stream, []⟩)
      | some routine => do
        -- compress field and align bit stream on word boundary
        let r ← compressRoutine env ops zfp mem field S dst routine
        let s := (streamFlush r.stream).2
        return (streamSize s, ⟨s, r.blocks⟩)

/-! ## Decompression -/

section

variable (ops : FloatOps S (4 ^ d)) (zfp : Params)

def decodeNext (r : Run T) (o : ℕ → ℕ) : (ℕ → BitVec S.width) × Run T :=
  let q := zfpDecodeBlock ops zfp r.stream fun _ => 0
  (q.2.2, ⟨q.2.1, r.blocks ++ [o]⟩)

/-- The block that `decompress_strided` scatters at a corner. -/
def decompressBlock (d : ℕ) (block : ℕ → BitVec S.width) (n : ℕ → ℕ) (stride : ℕ → ℤ) (o : ℕ → ℕ)
    (mem : ℤ → BitVec S.width) : ℤ → BitVec S.width :=
  if ∃ a, a < d ∧ n a - o a < 4 then
    scatterPartial block (fun a => min (n a - o a) 4) stride d mem 0 (span stride d o)
  else scatter block stride d mem 0 (span stride d o)

def decompressStrided (n : ℕ → ℕ) (stride : ℕ → ℤ) (s : Bitstream T) (mem : ℤ → BitVec S.width) :
    Run T × (ℤ → BitVec S.width) :=
  (corners n d).foldl (fun w o =>
    let (block, r) := decodeNext ops zfp w.1 o
    (r, decompressBlock d block n stride o w.2)) (⟨s, []⟩, mem)

def decompressContiguous (ops : FloatOps S (4 ^ 1)) (nx : ℕ) (s : Bitstream T)
    (mem : ℤ → BitVec S.width) : Option (Run T × (ℤ → BitVec S.width)) :=
  if wholeLimit nx + 4 ≤ nx then none
  else decompress1 (fun r => decodeNext ops zfp r (corner1 (4 * r.blocks.length))) ⟨s, []⟩ mem 0 nx
    (nx / 4 + 1 + 1)

end

def decompressRoutine (env : Env T) (ops : Floats) (zfp : Params) (mem : Data) (field : Field)
    (S : Scalar) (s : Bitstream T) : Routine → Option (Run T × Data)
  | .contiguous => (decompressContiguous zfp (ops S 1) field.nx s (mem S)).map fun w =>
      (w.1, Function.update mem S w.2)
  | .strided =>
    if loopsEnd field.size (zfpFieldDimensionality field) then
      let w := decompressStrided (ops S (zfpFieldDimensionality field)) zfp field.size
        (zfpFieldStride field) s (mem S)
      some (w.1, Function.update mem S w.2)
    else none
  -- the table has no entry for OpenMP
  | .omp => none
  | .cuda => onDevice env zfp field (⟨s, []⟩, mem) (env.decode zfp mem field s)

/-- The value returned, the run and the data; undefined where the function table is read out of
bounds, and where the call does not return. -/
def zfpDecompress (env : Env T) (ops : Floats) (policy : ExecPolicy) (zfp : Params) (mem : Data)
    (field : Field) (s : Bitstream T) : Option (ℕ × Run T × Data) :=
  match field.type with
  | none => some (0, ⟨s, []⟩, mem)
  | some S =>
    if zfpFieldDimensionality field = 0 then none
    else
      -- return 0 if decompression mode is not supported
      match ftable false env.gpu.isSome policy (zfpFieldStrided field)
          (zfpFieldDimensionality field) with
      | none => some (0, ⟨s, []⟩, mem)
      | some routine => do
        -- decompress field and align bit stream on word boundary
        let (r, mem) ← decompressRoutine env ops zfp mem field S s routine
        let s := (streamAlign r.stream).2
        return (streamSize s, ⟨s, r.blocks⟩, mem)

end Zfp

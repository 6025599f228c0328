import Zfp.ReadOnly
import Zfp.StoreSerial
import Zfp.ThreadSafety

/-!
# Read-only arrays

A read-only 3D array is configured, set and read through its cache. What it returns is what its
blocks decode to, each coded on its own, whatever the index, the cache and the order of the reads.
-/

namespace Zfp
open BitLists Bitstream MixedRadix

variable {T : WordType} {S : Scalar} {I : Type}

/-! ## Contents -/

def ArraySize.dims (g : ArraySize) : ℕ → ℕ
  | 0 => g.nx | 1 => g.ny | 2 => g.nz | _ => 0

/-- What a block decodes to that is encoded on its own. -/
def codedBlock {d : ℕ} (T : WordType) (ops : FloatOps S (4 ^ d)) (zfp : Params)
    (block : ℕ → BitVec S.width) : ℕ → BitVec S.width :=
  let s := zfpEncodeBlock ops zfp (streamOpen (T := T) fun _ => 0) block
  (zfpDecodeBlock ops zfp (streamRewind (streamFlush s.2).2) fun _ => 0).2.2

def codedArray (T : WordType) (ops : FloatOps S (4 ^ 3)) (zfp : Params) (g : ArraySize)
    (mem : ℤ → BitVec S.width) (x : ℕ × ℕ × ℕ) : BitVec S.width :=
  codedBlock T ops zfp (compressBlock 3 mem g.dims (zfpFieldStride (BlockStore.field S 3 g.dims))
    (cornerOf g.dims 3 (g.blockIndex x.1 x.2.1 x.2.2))) (elementIndex x.1 x.2.1 x.2.2)

/-! ## Operations -/

namespace ConstArray
open BlockCache BlockStore

/-- The storage of an array as the store below its cache. The cache of a read-only array never asks
it to encode a block. -/
def persistent (X : IndexOps I) (ops : FloatOps S (4 ^ 3))
    (encode : BlockStore T I → ℕ → (ℕ → BitVec S.width) → BlockStore T I)
    (encodeStrided : BlockStore T I → ℕ → (ℤ → BitVec S.width) → Strided → BlockStore T I) :
    Store (BlockStore T I) (BitVec S.width) where
  encode := encode
  encodeStrided := encodeStrided
  decode st b block :=
    let r := st.decode X ops b block
    (r.2.2, { st with stream := r.2.1 })
  decodeStrided st b mem m :=
    let r := st.decodeStrided X ops b mem m.p m.strides
    (r.2.2, { st with stream := r.2.1 })

/-- Why an operation has no result: it throws an exception, or it does not return. -/
inductive Failure
  | exception (what : String)
  | divergence

def raised {α : Type} (x : Except String α) : Except Failure α := x.mapError .exception

inductive Op (T : WordType) (S : Scalar)
  | config (c : Config)
  | set (fresh : ℕ → BitVec (wsize T)) (data : Option (ArrayData S))
  | read (op : CacheRead (BitVec S.width))

section

variable (X : IndexOps I) (ops : FloatOps S (4 ^ 3)) (cfg : CacheConfig) (g : ArraySize)
  (st : Store (BlockStore T I) (BitVec S.width)) (lineBytes : ℕ)

abbrev State (T : WordType) (S : Scalar) (I : Type) := BlockCache (BlockStore T I) (BitVec S.width)

def step (a : State T S I) : Op T S → Except Failure
    (State T S I × List (Output (BitVec S.width) × List (WriteBack (BitVec S.width))))
  | .config c => (raised (setConfig S 3 X a.store c)).map fun store => (⟨a.cache.clear, store⟩, [])
  | .set fresh data => (raised (a.store.set X ops fresh data true)).map fun store =>
      (⟨a.cache.clear, store⟩, [])
  | .read op =>
    match readStep cfg g st lineBytes a op with
    | none => .error .divergence
    | some r => .ok (r.1, [r.2])

def run (a : State T S I) : List (Op T S) → Except Failure
    (State T S I × List (Output (BitVec S.width) × List (WriteBack (BitVec S.width))))
  | [] => .ok (a, [])
  | op :: l => step X ops cfg g st lineBytes a op >>= fun r =>
      (run r.1 l).map fun q => (q.1, r.2 ++ q.2)

end

/-- The parameters of an array, and its elements once it is set. -/
structure Contents (S : Scalar) where
  zfp : Params
  elements : Option (ℕ × ℕ × ℕ → BitVec S.width)

section

variable (T) (ops : FloatOps S (4 ^ 3)) (g : ArraySize)

def specStep (s : Contents S) : Op T S → Contents S × List (Output (BitVec S.width))
  | .config c => (⟨c.params T S s.zfp, none⟩, [])
  | .set _ data => (⟨s.zfp, some (codedArray T ops s.zfp g (BlockStore.elements data))⟩, [])
  | .read op => (s, (s.elements.map fun A => op.spec g A).toList)

def specRun (s : Contents S) : List (Op T S) → List (Output (BitVec S.width))
  | [] => []
  | op :: l => (specStep T ops g s op).2 ++ specRun (specStep T ops g s op).1 l

end

/-! ## Blocks -/

section

variable {g : ArraySize} (hg : g.Small) (hpos : ∀ a < 3, 1 ≤ g.dims a)

include hg hpos

theorem dims_lt : ∀ a < 3, 1 ≤ g.dims a ∧ g.dims a < 2 ^ 62 := by
  have hx : 1 ≤ g.nx := hpos 0 (by omega)
  have hy : 1 ≤ g.ny := hpos 1 (by omega)
  have hz : 1 ≤ g.nz := hpos 2 (by omega)
  have hblocks : 0 < g.blocks := by
    refine Nat.mul_pos (Nat.mul_pos ?_ ?_) ?_
    · rw [ArraySize.bx]
      omega
    · rw [ArraySize.by']
      omega
    · rw [ArraySize.bz]
      omega
  obtain ⟨hnx, hny, hnz⟩ := hg.lt hblocks
  intro a ha
  refine ⟨hpos a ha, ?_⟩
  interval_cases a
  · exact hnx
  · exact hny
  · exact hnz

theorem blockSize_dims : ArrayBlocks.blockSize g.dims 0 = g.bx ∧
    ArrayBlocks.blockSize g.dims 1 = g.by' ∧ ArrayBlocks.blockSize g.dims 2 = g.bz := by
  have hlt := dims_lt hg hpos
  refine ⟨?_, ?_, ?_⟩
  · have hx := (hlt 0 (by omega)).2
    rw [ArrayBlocks.blockSize, sizeT_of_lt (by omega)]
    rfl
  · have hy := (hlt 1 (by omega)).2
    rw [ArrayBlocks.blockSize, sizeT_of_lt (by omega)]
    rfl
  · have hz := (hlt 2 (by omega)).2
    rw [ArrayBlocks.blockSize, sizeT_of_lt (by omega)]
    rfl

theorem total_blockSize : total (ArrayBlocks.blockSize g.dims) 3 = g.blocks := by
  obtain ⟨hx, hy, hz⟩ := blockSize_dims hg hpos
  simp [total, hx, hy, hz, ArraySize.blocks]

theorem blocks_dims : BlockStore.blocks 3 g.dims = g.blocks := by
  have hsmall : g.blocks < 2 ^ 31 := hg
  rw [BlockStore.blocks, total_blockSize hg hpos, sizeT_of_lt (by omega)]

theorem blockShape_dims {b : ℕ} (hb : b < g.blocks) :
    ArrayBlocks.blockShape 3 g.dims b = g.blockShape b := by
  obtain ⟨hx, hy, -⟩ := blockSize_dims hg hpos
  have hsmall : g.blocks < 2 ^ 31 := hg
  have hle (m : ℕ) : b % m ≤ b := Nat.mod_le b m
  have hdiv : b / g.bx ≤ b := Nat.div_le_self b _
  have hmod : b / g.bx % g.by' ≤ b / g.bx := Nat.mod_le _ _
  have hlast : b / g.bx / g.by' ≤ b / g.bx := Nat.div_le_self _ _
  have hshift : ArrayBlocks.blockSize (fun a => g.dims (a + 1)) 0 = g.by' := hy
  have hfirst := hle g.bx
  simp only [ArrayBlocks.blockShape, hx, hshift]
  rw [sizeT_of_lt (by omega), sizeT_of_lt (by omega), sizeT_of_lt (by omega)]
  rfl

end

/-- The loops of the cache and of the codec visit the same cells. -/
theorem cells_eq_visits (shape : ℕ) (m : Strided) :
    cells shape m = visits (blockDims shape) m.strides 3 0 m.p := by
  have hdiv : shape / 4 / 4 = shape / 4 ^ 2 := Nat.div_div_eq_div_mul _ _ _
  have hone : blockDims shape 1 = 4 - shape / 4 % 4 := by rw [blockDims, pow_one]
  have hzero : blockDims shape 0 = 4 - shape % 4 := by rw [blockDims, pow_zero, Nat.div_one]
  simp only [cells, boxCells, planeCells, rowCells, visits, boxSize, hzero, hone, hdiv]
  refine List.flatMap_congr fun z _ => List.flatMap_congr fun y _ => ?_
  rw [List.map_eq_flatMap]
  refine List.flatMap_congr fun x _ => ?_
  simp [Strided.strides]

theorem blockPlace_three (c : ℕ → ℕ) : blockPlace c 3 = c 0 + 4 * c 1 + 16 * c 2 := by
  simp [blockPlace]

theorem exists_place_of_inBlock {shape o : ℕ} (ho : InBlock shape o) :
    ∃ c : ℕ → ℕ, (∀ a < 3, c a < blockDims shape a) ∧ blockPlace c 3 = o := by
  have hdiv : shape / 4 / 4 = shape / 4 ^ 2 := Nat.div_div_eq_div_mul _ _ _
  obtain ⟨hx, hy, hz⟩ := ho
  rw [boxSize] at hx hy hz
  refine ⟨fun a => if a = 0 then o % 4 else if a = 1 then o / 4 % 4 else o / 16, fun a ha => ?_, ?_⟩
  · interval_cases a
    · simpa [blockDims] using hx
    · simpa [blockDims] using hy
    · simpa [blockDims, hdiv] using hz
  · rw [blockPlace_three]
    simp
    omega

/-! ## The stored array -/

/-- A block that is coded on its own decodes to the same values as anywhere else. -/
theorem codedBlock_eq {d : ℕ} (hd : 1 ≤ d) (hd' : d ≤ 4) (ops : FloatOps S (4 ^ d)) (zfp : Params)
    {block : ℕ → BitVec S.width} {r : Bitstream T} {o : ℕ}
    (h : Reads (memBit r.mem) o (blockCode ops zfp block)) :
    codedBlock T ops zfp block = (valuesAt ops zfp r o fun _ => 0).2 := by
  have hwf : (streamOpen (T := T) fun _ => 0).WF := streamOpen_wf _
  have hreads := reads_flush hwf (blockCode ops zfp block)
  rw [streamWtell_open] at hreads
  rw [codedBlock, zfpEncodeBlock_eq ops zfp hwf hd', streamRewind_eq,
    ← valuesAt_congr ops zfp hd hd' hreads h fun _ => 0]
  rfl

/-- The storage holds the array, under an index that knows where. -/
structure Loaded (X : IndexOps I) (V : IndexView I) (ops : FloatOps S (4 ^ 3)) (g : ArraySize)
    (zfp : Params) (data : Option (ArrayData S)) (v : BlockStore T I) : Prop where
  consistent : Consistent V 3 v
  size : v.size = g.dims
  zfp : v.zfp = zfp
  holds : BlockStore.Holds X ops v v (inputOf 3 g.dims data) (blocks 3 g.dims)

section

variable {X : IndexOps I} {V : IndexView I} {ops : FloatOps S (4 ^ 3)} {g : ArraySize} {zfp : Params}
  {data : Option (ArrayData S)} {v : BlockStore T I}

/-- What matters is the memory of the stream, not its position. -/
theorem Loaded.moved (h : Loaded X V ops g zfp data v) {s : Bitstream T}
    (hmem : s.mem = v.stream.mem) : Loaded X V ops g zfp data { v with stream := s } := by
  obtain ⟨⟨hvalid, hblocks, hsized⟩, hsize, hzfp, hholds⟩ := h
  have hreads := hholds.reads
  have hpad := hholds.pad
  rw [← hmem] at hreads hpad
  exact ⟨⟨hvalid, hblocks, hsized⟩, hsize, hzfp, hholds.size, hholds.zfp, hholds.bytes,
    hholds.offset, hreads, hpad⟩

variable (hg : g.Small) (hpos : ∀ a < 3, 1 ≤ g.dims a)

include hg hpos

/-- A block is decoded to the elements of the array that it holds. -/
theorem Loaded.decode (hS : S.isFloat = true) (h : Loaded X V ops g zfp data v) {b : ℕ}
    (hb : b < g.blocks) {o : ℕ} (ho : InBlock (g.blockShape b) o) (block : ℕ → BitVec S.width) :
    (v.decode X ops b block).2.2 o =
        codedArray T ops zfp g (BlockStore.elements data) (g.coord b o) ∧
      (decodeAt ops v.zfp v.stream (v.offset X b) fun _ => 0).2.2 o =
        codedArray T ops zfp g (BlockStore.elements data) (g.coord b o) := by
  have hlt := (ArraySize.mem_coord hg hb ho).1
  have hb' : b < blocks 3 g.dims := by rwa [blocks_dims hg hpos]
  have hvalues := values_inputOf (dims_lt hg hpos) (total_blockSize hg hpos ▸ hb) (by omega) data
  have hreads := reads_codeOf ops v (inputOf 3 g.dims data) hb' h.holds.reads
  obtain ⟨c, hc, rfl⟩ := exists_place_of_inBlock ho
  rw [← blockShape_dims hg hpos hb, ← h.size] at hc
  have hcoded : codedArray T ops zfp g (BlockStore.elements data) (g.coord b (blockPlace c 3)) =
      (valuesAt ops v.zfp v.stream (codesOf ops v (inputOf 3 g.dims data) b).length
        fun _ => 0).2 (blockPlace c 3) := by
    rw [codeOf, h.size, hvalues] at hreads
    rw [codedArray, ArraySize.blockIndex_coord hlt, ArraySize.elementIndex_coord hlt, ← h.zfp,
      codedBlock_eq (by omega) (by omega) ops v.zfp hreads]
  rw [hcoded]
  refine ⟨(h.holds.decode (by omega) (by omega) hS hb' block hreads).2 c hc, ?_⟩
  rw [h.holds.offset b hb']
  rfl

/-- Storage that holds the array is read like the array. -/
theorem steady_persistent (hS : S.isFloat = true) (hside : sideBits S (REVERSIBLE zfp) ≤ zfp.maxbits)
    (encode : BlockStore T I → ℕ → (ℕ → BitVec S.width) → BlockStore T I)
    (encodeStrided : BlockStore T I → ℕ → (ℤ → BitVec S.width) → Strided → BlockStore T I) :
    Steady g (persistent X ops encode encodeStrided) (Loaded X V ops g zfp data)
      (codedArray T ops zfp g (BlockStore.elements data)) := by
  refine ⟨fun v h b hb block => ⟨h.moved ?_, fun o ho => (h.decode hg hpos hS hb ho block).1⟩,
    fun v h b hb mem m => ⟨h.moved ?_, ?_⟩⟩
  · exact decodeBlock_mem ops v.zfp (by omega) (h.zfp.symm ▸ hside) v.stream _ _ block
  · exact decodeBlock_mem ops v.zfp (by omega) (h.zfp.symm ▸ hside) v.stream (v.offset X b) 0
      fun _ => 0
  · have hscatter : (v.decodeStrided X ops b mem m.p m.strides).2.2 =
        lineGet (decodeAt ops v.zfp v.stream (v.offset X b) fun _ => 0).2.2 (g.blockShape b) m mem := by
      rw [lineGet, walkBlock_eq, cells_eq_visits, ← scatterPartial_eq, decodeStrided,
        decodeBlockStrided, h.size, blockShape_dims hg hpos hb]
      dsimp only
      split_ifs with hshape
      · rfl
      · have hdims : ∀ a < 3, 4 = blockDims 0 a := fun a _ => by simp [blockDims]
        rw [not_not.mp hshape, scatter, scatterPartial_eq, scatterPartial_eq,
          visits_congr hdims fun _ _ => rfl]
    exact hscatter.trans (lineGet_congr (fun o ho => (h.decode hg hpos hS hb ho fun _ => 0).2) m mem)

end

/-! ## Setting the array -/

/-- The store takes an array: a block has room for its side information, and the buffer and the
index for all blocks. -/
structure Storable (T : WordType) (V : IndexView I) (ops : FloatOps S (4 ^ 3)) (g : ArraySize)
    (zfp : Params) (data : Option (ArrayData S)) : Prop where
  side : sideBits S (REVERSIBLE zfp) ≤ zfp.maxbits
  fits : Fits T S 3 g.dims zfp
  sizes : V.Admissible (fun i => BitVec.ofNat 64 (blockCode ops zfp
    (((inputOf 3 g.dims data i).source 3 g.dims i).values 3)).length) (blocks 3 g.dims)

section

variable {X : IndexOps I} {V : IndexView I} (hX : IndexSpec X V) {ops : FloatOps S (4 ^ 3)}
  {g : ArraySize} {st v : BlockStore T I}

include hX

theorem encodeAll_consistent {input : ℕ → Input S} {n : ℕ} {w : BlockStore T I × List (ℕ × ℕ)}
    (h : st.encodeAll X ops input n = .ok w) (hst : Consistent V 3 st) : Consistent V 3 w.1 := by
  induction n generalizing w with
  | zero =>
    cases h
    exact hst
  | succ n ih =>
    rw [encodeAll_succ] at h
    obtain ⟨u, hu, hnext⟩ := (bind_eq_ok_iff _ _ _).mp h
    obtain ⟨r, hr, rfl⟩ := (map_eq_ok_iff _ _ _).mp hnext
    have hstep : BlockStore.step X ops u.1 (.encode n (input n)) = .ok r.2 :=
      (map_eq_ok_iff _ _ _).mpr ⟨r, hr, rfl⟩
    exact step_consistent hX hstep (ih hu)

theorem set_consistent {fresh : ℕ → BitVec (wsize T)} {data : Option (ArrayData S)} {compact : Bool}
    (h : st.set X ops fresh data compact = .ok v)
    (hcount : total (ArrayBlocks.blockSize st.size) 3 < 2 ^ 64)
    (hst : Consistent V 3 st) : Consistent V 3 v := by
  rw [set_eq X ops fresh st data compact hcount] at h
  obtain ⟨w, hw, hrest⟩ := (bind_eq_ok_iff _ _ _).mp h
  obtain ⟨u, hu, rfl⟩ := (map_eq_ok_iff _ _ _).mp hrest
  have hkeeps := hX.clear st.index
  have hclear : Consistent V 3 (clear S 3 X st) :=
    ⟨hkeeps.valid hst.valid, hkeeps.blocks.trans hst.blocks, hst.sized⟩
  have hstep : BlockStore.step X ops w.1 .flush = .ok u := hu
  obtain ⟨hvalid, hblocks, hsized⟩ := step_consistent hX hstep (encodeAll_consistent hX hw hclear)
  split_ifs
  · rw [BlockStore.compact]
    split_ifs
    · exact ⟨hvalid, hblocks, hsized⟩
    · exact ⟨hvalid, hblocks, hsized⟩
  · exact ⟨hvalid, hblocks, hsized⟩

/-- An array that the store takes is held by it. -/
theorem set_loaded (hvariable : X.hasVariableRate = true) (hg : g.Small)
    (hpos : ∀ a < 3, 1 ≤ g.dims a) (hst : Consistent V 3 st) (hsize : st.size = g.dims)
    {data : Option (ArrayData S)} (h : Storable T V ops g st.zfp data)
    (fresh : ℕ → BitVec (wsize T)) :
    ∃ v, st.set X ops fresh data true = .ok v ∧ Loaded X V ops g st.zfp data v := by
  have hsmall : g.blocks < 2 ^ 31 := hg
  have hcount : total (ArrayBlocks.blockSize st.size) 3 < 2 ^ 64 := by
    rw [hsize, total_blockSize hg hpos]
    omega
  obtain ⟨hside, hfits, hadm⟩ := h
  have hsizes : sizesOf ops st (inputOf 3 st.size data) = fun i => BitVec.ofNat 64
      (blockCode ops st.zfp (((inputOf 3 g.dims data i).source 3 g.dims i).values 3)).length := by
    funext i
    rw [sizesOf, codeOf, hsize]
  obtain ⟨v, hv, hholds⟩ := set_holds hX ops (by omega) (by omega) hvariable hst hside hcount
    (hsize ▸ hfits) data (by rw [hsizes, hsize]; exact hadm) fresh
  have hcode : ∀ i, codeOf ops v (inputOf 3 st.size data) i =
      codeOf ops st (inputOf 3 st.size data) i := by
    intro i
    rw [codeOf, codeOf, hholds.size, hholds.zfp]
  have hcodes : codesOf ops v (inputOf 3 st.size data) = codesOf ops st (inputOf 3 st.size data) := by
    funext i
    exact List.flatMap_congr fun i _ => hcode i
  obtain ⟨hvsize, hvzfp, hbytes, hoffset, hreads, hpad⟩ := hholds
  rw [← hcodes] at hbytes hoffset hreads hpad
  refine ⟨v, hv, set_consistent hX hv hcount hst, hvsize.trans hsize, hvzfp, ?_⟩
  rw [← hsize]
  exact ⟨rfl, rfl, hbytes, hoffset, hreads, hpad⟩

end

/-! ## Configurations -/

/-- The index takes the configuration: at a fixed rate it holds the offsets of `n` equal blocks. -/
def Accepted (T : WordType) (S : Scalar) (V : IndexView I) (n : ℕ) : Config → Prop
  | .null => False
  | .fixedRate bits align =>
    V.Admissible (fun _ => BitVec.ofNat 64 (zfpStreamSetRate T S bits align).maxbits) n
  | _ => True

theorem setConfig_accepted {X : IndexOps I} {V : IndexView I} (hX : IndexSpec X V)
    (hvariable : X.hasVariableRate = true) {st : BlockStore T I} (hst : Consistent V 3 st)
    {c : Config} (hc : Accepted T S V (blocks 3 st.size) c) : ∃ t, setConfig S 3 X st c = .ok t := by
  have hrate : setVariableRate X st = .ok st := if_pos hvariable
  cases c with
  | null => exact hc.elim
  | fixedRate bits align =>
    rw [← hst.blocks] at hc
    obtain ⟨t, ht⟩ := hX.setAllSizes_total hst.valid hc
    exact ⟨_, (map_eq_ok_iff _ _ _).mpr ⟨t, ht, rfl⟩⟩
  | fixedPrecision precision => exact ⟨_, (map_eq_ok_iff _ _ _).mpr ⟨st, hrate, rfl⟩⟩
  | fixedAccuracy emin h => exact ⟨_, (map_eq_ok_iff _ _ _).mpr ⟨st, hrate, rfl⟩⟩
  | reversible => exact ⟨_, (map_eq_ok_iff _ _ _).mpr ⟨st, hrate, rfl⟩⟩
  | expert minbits maxbits maxprec minexp =>
    refine ⟨_, (map_eq_ok_iff _ _ _).mpr ⟨st, ?_, rfl⟩⟩
    split_ifs
    · exact hrate
    · rfl

/-! ## Runs -/

section

variable (T) (V : IndexView I) (ops : FloatOps S (4 ^ 3)) (g : ArraySize) (lineBytes : ℕ)

/-- A configuration is one that the index takes, and what is read was set after the last one. -/
def Op.Ok (s : Contents S) : Op T S → Prop
  | .config c => Accepted T S V (blocks 3 g.dims) c
  | .set _ data => Storable T V ops g s.zfp data
  | .read op => op.Valid g lineBytes ∧ s.elements.isSome

def Proper : Contents S → List (Op T S) → Prop
  | _, [] => True
  | s, op :: l => op.Ok T V ops g lineBytes s ∧ Proper (specStep T ops g s op).1 l

/-- The cache and the storage of an array with these contents. -/
structure Reached (X : IndexOps I) (s : Contents S) (a : State T S I) : Prop where
  consistent : Consistent V 3 a.store
  size : a.store.size = g.dims
  zfp : a.store.zfp = s.zfp
  elements : ∀ A, s.elements = some A →
    ∃ data, A = codedArray T ops s.zfp g (BlockStore.elements data) ∧
    sideBits S (REVERSIBLE s.zfp) ≤ s.zfp.maxbits ∧ Clean g (Loaded X V ops g s.zfp data) A a

end

section

variable {X : IndexOps I} {V : IndexView I} (hX : IndexSpec X V)
  (hvariable : X.hasVariableRate = true) {ops : FloatOps S (4 ^ 3)} {g : ArraySize} (hg : g.Small)
  (hpos : ∀ a < 3, 1 ≤ g.dims a) (hS : S.isFloat = true) (cfg : CacheConfig)
  (encode : BlockStore T I → ℕ → (ℕ → BitVec S.width) → BlockStore T I)
  (encodeStrided : BlockStore T I → ℕ → (ℤ → BitVec S.width) → Strided → BlockStore T I)
  (lineBytes : ℕ)

include hX hvariable hg hpos hS

theorem step_reached {s : Contents S} {a : State T S I} (h : Reached T V ops g X s a) {op : Op T S}
    (hop : op.Ok T V ops g lineBytes s) :
    ∃ a', step X ops cfg g (persistent X ops encode encodeStrided) lineBytes a op =
        .ok (a', (specStep T ops g s op).2.map fun out => (out, [])) ∧
      Reached T V ops g X (specStep T ops g s op).1 a' := by
  cases op with
  | config c =>
    have haccepted : Accepted T S V (blocks 3 a.store.size) c := by
      rw [h.size]
      exact hop
    obtain ⟨t, ht⟩ := setConfig_accepted hX hvariable h.consistent haccepted
    have hconfigured := setConfig_ok ht
    refine ⟨⟨a.cache.clear, t⟩, ?_, (hconfigured.fresh hX h.consistent).2,
      hconfigured.size.trans h.size, ?_, fun A hA => ?_⟩
    · rw [step, ht]
      rfl
    · rw [hconfigured.zfp, h.zfp]
      rfl
    · cases hA
  | set fresh data =>
    have hstorable : Storable T V ops g a.store.zfp data := h.zfp ▸ hop
    obtain ⟨v, hv, hloaded⟩ := set_loaded hX hvariable hg hpos h.consistent h.size hstorable fresh
    rw [h.zfp] at hloaded
    refine ⟨⟨a.cache.clear, v⟩, ?_, hloaded.consistent, hloaded.size, hloaded.zfp,
      fun A hA => ⟨data, ?_, hop.side, ?_⟩⟩
    · rw [step, hv]
      rfl
    · cases hA
      rfl
    · refine clean_of_unused hg hloaded fun k hk => ?_
      dsimp only
      rw [Cache.tag_clear a.cache hk, Tag.used_unused]
  | read op =>
    obtain ⟨hvalid, hsome⟩ := hop
    obtain ⟨A, hA⟩ := Option.isSome_iff_exists.mp hsome
    obtain ⟨data, hdata, hside, hclean⟩ := h.elements A hA
    have hsteady : Steady g (persistent X ops encode encodeStrided) (Loaded X V ops g s.zfp data) A :=
      hdata ▸ steady_persistent hg hpos hS hside encode encodeStrided
    obtain ⟨a', hread, hclean'⟩ := readStep_spec cfg hclean hg hsteady hvalid
    refine ⟨a', ?_, hclean'.store.consistent, hclean'.store.size, hclean'.store.zfp, fun A' hA' => ?_⟩
    · rw [step, hread]
      simp [specStep, hA]
    · cases hA.symm.trans hA'
      exact ⟨data, hdata, hside, hclean'⟩

theorem run_reached {l : List (Op T S)} {s : Contents S} {a : State T S I}
    (h : Reached T V ops g X s a) (hl : Proper T V ops g lineBytes s l) :
    ∃ a', run X ops cfg g (persistent X ops encode encodeStrided) lineBytes a l =
      .ok (a', (specRun T ops g s l).map fun out => (out, [])) := by
  induction l generalizing s a with
  | nil => exact ⟨a, rfl⟩
  | cons op l ih =>
    obtain ⟨hop, hrest⟩ := hl
    obtain ⟨a', hstep, hreached⟩ := step_reached hX hvariable hg hpos hS cfg encode encodeStrided
      lineBytes h hop
    obtain ⟨a'', hrun⟩ := ih hreached hrest
    refine ⟨a'', (bind_eq_ok_iff _ _ _).mpr ⟨_, hstep, (map_eq_ok_iff _ _ _).mpr ⟨_, hrun, ?_⟩⟩⟩
    rw [specRun, List.map_append]

end

/-! ## Elements -/

theorem cornerOf_blockIndex {g : ArraySize} (hg : g.Small) (hpos : ∀ a < 3, 1 ≤ g.dims a) {i j k : ℕ}
    (hmem : g.Mem (i, j, k)) :
    let o := cornerOf g.dims 3 (g.blockIndex i j k)
    o 0 = 4 * (i / 4) ∧ o 1 = 4 * (j / 4) ∧ o 2 = 4 * (k / 4) := by
  obtain ⟨hi, hj, hk⟩ := hmem
  have hb := ArraySize.blockIndex_lt hi hj hk
  dsimp only at hi hj hk hb
  rw [← total_blockSize hg hpos] at hb
  obtain ⟨hx, hy, hz⟩ := blockSize_dims hg hpos
  have hi' : i / 4 < g.bx := by
    rw [ArraySize.bx]
    omega
  have hj' : j / 4 < g.by' := by
    rw [ArraySize.by']
    omega
  have hk' : k / 4 < g.bz := by
    rw [ArraySize.bz]
    omega
  obtain ⟨hdx, hdy, hdz⟩ := ArraySize.div_mod_add_mul (c := k / 4) hi' hj'
  have hcorner {a : ℕ} (ha : a < 3) := cornerOf_eq_digit (dims_lt hg hpos) hb ha
  refine ⟨?_, ?_, ?_⟩
  · rw [hcorner (by omega), digit, total, Nat.div_one, hx, ArraySize.blockIndex, hdx]
  · rw [hcorner (by omega), digit, total, total, Nat.one_mul, hx, hy, ArraySize.blockIndex, hdy]
  · rw [hcorner (by omega), digit, total, total, total, Nat.one_mul, hx, hy, hz,
      ArraySize.blockIndex, ← Nat.div_div_eq_div_mul, hdz, Nat.mod_eq_of_lt hk']

/-- In reversible mode the elements are those of the memory. -/
theorem codedArray_reversible (T : WordType) (ops : FloatOps S (4 ^ 3)) {g : ArraySize} (hg : g.Small)
    (hpos : ∀ a < 3, 1 ≤ g.dims a) (mem : ℤ → BitVec S.width) {i j k : ℕ} (hmem : g.Mem (i, j, k)) :
    codedArray T ops zfpStreamSetReversible g mem (i, j, k) =
      mem (span (zfpFieldStride (field S 3 g.dims)) 3
        fun a => if a = 0 then i else if a = 1 then j else k) := by
  obtain ⟨hx, hy, hz⟩ := cornerOf_blockIndex hg hpos hmem
  set o := cornerOf g.dims 3 (g.blockIndex i j k)
  obtain ⟨hi, hj, hk⟩ := hmem
  have hc : InCorner 3 g.dims o fun a => if a = 0 then i else if a = 1 then j else k := by
    intro a ha
    interval_cases a
    · exact ⟨by simp; omega, by simp; omega, hi⟩
    · exact ⟨by simp; omega, by simp; omega, hj⟩
    · exact ⟨by simp; omega, by simp; omega, hk⟩
  have hplace : elementIndex i j k =
      blockPlace (fun a => (if a = 0 then i else if a = 1 then j else k) - o a) 3 := by
    rw [elementIndex_eq, blockPlace_three]
    simp
    omega
  have hlt : elementIndex i j k < 4 ^ 3 := by
    rw [elementIndex_eq]
    omega
  have hvalue : compressBlock 3 mem g.dims (zfpFieldStride (field S 3 g.dims)) o (elementIndex i j k) =
      mem (span (zfpFieldStride (field S 3 g.dims)) 3
        fun a => if a = 0 then i else if a = 1 then j else k) := by
    rw [hplace]
    exact compressBlock_place hc
  rw [← hvalue]
  have hreads := reads_flush (streamOpen_wf (T := T) fun _ => 0) (blockCode ops zfpStreamSetReversible
    (compressBlock 3 mem g.dims (zfpFieldStride (field S 3 g.dims)) o))
  rw [streamWtell_open] at hreads
  rw [codedArray, codedBlock_eq (by omega) (by omega) ops _ hreads]
  exact (zfpDecodeBlock_reversible ops (by omega) (by omega) (fun _ => 0) hreads).2.2 _ hlt

/-- A read-only array over an index of variable rate, through any cache, in any order of
configurations, settings and reads: what is read is what the blocks that were set last decode to,
each coded on its own, and nothing is ever written back. In reversible mode it is what was set. -/
theorem const_array_runs {k : IndexKind} (hvariable : (k.ops 3).hasVariableRate = true)
    (ops : FloatOps S (4 ^ 3)) (hS : S.isFloat = true) {g : ArraySize} (hg : g.Small)
    (hpos : ∀ a < 3, 1 ≤ g.dims a) (cfg : CacheConfig) (lineBytes : ℕ) (garbage : k.State)
    {n : BitVec 32} (hn : n.toNat ≤ 2 ^ 31) (fresh : ℕ → ℕ → BitVec S.width) {l : List (Op T S)}
    (hl : Proper T (k.view 3) ops g lineBytes ⟨zfpStreamOpen, none⟩ l)
    (encode : BlockStore T k.State → ℕ → (ℕ → BitVec S.width) → BlockStore T k.State)
    (encodeStrided : BlockStore T k.State → ℕ → (ℤ → BitVec S.width) → Strided →
      BlockStore T k.State) :
    (∃ a a', BlockCache.new n fresh (create 3 (k.ops 3) T garbage g.dims) = some a ∧
      run (k.ops 3) ops cfg g (persistent (k.ops 3) ops encode encodeStrided) lineBytes a l =
        .ok (a', (specRun T ops g ⟨zfpStreamOpen, none⟩ l).map fun out => (out, []))) ∧
    ∀ (mem : ℤ → BitVec S.width) (x y z : ℕ), g.Mem (x, y, z) →
      codedArray T ops zfpStreamSetReversible g mem (x, y, z) =
        mem (span (zfpFieldStride (field S 3 g.dims)) 3
          fun a => if a = 0 then x else if a = 1 then y else z) := by
  have hX := k.spec (d := 3) (by omega)
  have hsize : (create 3 (k.ops 3) T garbage g.dims).size = g.dims := by
    refine if_neg ?_
    rintro ⟨b, hb, hzero⟩
    have := hpos b hb
    omega
  obtain ⟨c, hc⟩ := Option.isSome_iff_exists.mp ((Cache.isSome_resize _ n fresh).mpr hn)
  have hreached : Reached T (k.view 3) ops g (k.ops 3) ⟨zfpStreamOpen, none⟩
      (⟨c, create 3 (k.ops 3) T garbage g.dims⟩ : State T S k.State) :=
    ⟨consistent_create hX g.dims garbage, hsize, rfl, fun A hA => by cases hA⟩
  obtain ⟨a', hrun⟩ :=
    run_reached hX hvariable hg hpos hS cfg encode encodeStrided lineBytes hreached hl
  refine ⟨⟨_, a', ?_, hrun⟩, fun mem x y z hmem => codedArray_reversible T ops hg hpos mem hmem⟩
  rw [BlockCache.new, Cache.new, hc, Option.map_some]

/-- A rate is set and given up again before the array is set and read. -/
theorem const_array_runs_plane :
    let g : ArraySize := ⟨5, 2, 1⟩
    let ops := ieeeOps .float (4 ^ 3)
    let data : Option (ArrayData .float) := some ⟨fun a => BitVec.ofNat 32 (a.toNat / 4), 0⟩
    let st := persistent (T := .uint64) Index.verbatim ops (fun st _ _ => st) fun st _ _ _ => st
    ∃ a a', BlockCache.new 1 (fun _ _ => 0)
        (create 3 Index.verbatim .uint64 ⟨fun _ => 0, 0, 0⟩ g.dims) = some a ∧
      run Index.verbatim ops ⟨true, true⟩ g st 256 a
        [.config (.fixedRate 512 false), .config .reversible, .set (fun _ => 0) data,
          .read (.get 4 1 0), .read (.resize 1024 fun _ _ => 0), .read (.get 4 1 0)] =
        .ok (a', [(Output.value 9, []), (Output.done, []), (Output.value 9, [])]) := by
  intro g ops data st
  have hfits : Fits .uint64 .float 3 g.dims zfpStreamSetReversible := by
    rw [Fits]
    decide +kernel
  have hstorable : Storable .uint64 verbatimView ops g zfpStreamSetReversible data :=
    ⟨by decide, hfits, trivial⟩
  have hmem : g.Mem (4, 1, 0) := by decide
  have hlines : ∀ n, lines 256 1024 g.blocks = .ok n → n.toNat ≤ 2 ^ 31 := by
    intro n h
    have hfour : lines 256 1024 g.blocks = .ok 4 := by decide
    obtain rfl := Except.ok.inj (hfour.symm.trans h)
    decide
  obtain ⟨⟨a, a', hnew, hrun⟩, hvalues⟩ := const_array_runs (k := .verbatim) rfl ops rfl (g := g)
    (by decide) (by decide) ⟨true, true⟩ 256 ⟨fun _ => 0, 0, 0⟩ (n := 1) (by decide)
    (fun _ _ => 0)
    (l := [.config (.fixedRate 512 false), .config .reversible, .set (fun _ => 0) data,
      .read (.get 4 1 0), .read (.resize 1024 fun _ _ => 0), .read (.get 4 1 0)])
    ⟨trivial, trivial, hstorable, ⟨hmem, rfl⟩, ⟨hlines, rfl⟩, ⟨hmem, rfl⟩, trivial⟩
    (fun st _ _ => st) fun st _ _ _ => st
  refine ⟨a, a', hnew, hrun.trans ?_⟩
  have hvalue := hvalues (BlockStore.elements data) 4 1 0 hmem
  have hbits : BlockStore.elements data (span (zfpFieldStride (field .float 3 g.dims)) 3
      fun a => if a = 0 then 4 else if a = 1 then 1 else 0) = 9 := by decide +kernel
  rw [hbits] at hvalue
  exact congrArg (fun v => Except.ok (a', [(Output.value v, []), (Output.done, []),
    (Output.value v, [])])) hvalue

end ConstArray

end Zfp

import Zfp.DecodeCode
import Zfp.StoreField

/-!
# The block store and the serial stream

An array that is set over an index of variable rate holds the bits of the serial stream of its
field, and each block is decoded from them as the serial decoder decodes it in its turn. A block of
zeros that the reversible encoder does not pad makes the serial decoder miss the blocks behind it.
-/

namespace Zfp
open BitLists Bitstream MixedRadix ArrayBlocks

variable {T : WordType} {S : Scalar} {I : Type} {d : ℕ}

/-! ## Values of a code -/

section

variable (ops : FloatOps S (4 ^ d)) (zfp : Params)

/-- A decoder skips to `minbits` bits, whether they were written or not. -/
theorem zfpDecodeBlock_max (hd : 1 ≤ d) (hd' : d ≤ 4) {block : ℕ → BitVec S.width}
    {r : Bitstream T} {o : ℕ} (h : Reads (memBit r.mem) o (blockCode ops zfp block))
    (out : ℕ → BitVec S.width) :
    let q := zfpDecodeBlock ops zfp (streamRseek r o) out
    let len := max (blockCode ops zfp block).length zfp.minbits
    q.1 = len ∧ q.2.1 = streamRseek r (o + len) := by
  by_cases hun : unpadded ops zfp block
  · have hbit : memBit r.mem o = false := by
      rw [blockCode, if_pos hun.1, if_pos hun.2.1,
        revFloatBlockCode_of_zero ops zfp hun.2.2.1] at h
      exact h.1
    have hskip := readMinbits_rseek r o zfp.minbits [false]
    rw [length_padded, List.length_singleton] at hskip
    simp only [zfpDecodeBlock, if_pos hun.1, if_pos hun.2.1, revDecodeFloatBlock,
      streamReadBit_rseek, hbit, hskip, length_of_unpadded ops zfp hun, Bool.false_eq_true, if_false,
      and_self]
  · have hmin := minbits_le_length ops zfp hun
    dsimp only
    rw [max_eq_left hmin]
    exact zfpDecodeBlock_rseek ops zfp hd hd' out h hun

/-- What is decoded from the code of a block does not depend on the place of the code. -/
theorem valuesAt_congr (hd : 1 ≤ d) (hd' : d ≤ 4) {block : ℕ → BitVec S.width} {r r' : Bitstream T}
    {o o' : ℕ} (h : Reads (memBit r.mem) o (blockCode ops zfp block))
    (h' : Reads (memBit r'.mem) o' (blockCode ops zfp block)) (out : ℕ → BitVec S.width) :
    valuesAt ops zfp r o out = valuesAt ops zfp r' o' out := by
  have hsize := (zfpDecodeBlock_max ops zfp hd hd' h out).1
  have hsize' := (zfpDecodeBlock_max ops zfp hd hd' h' out).1
  exact Prod.ext (hsize.trans hsize'.symm)
    (determines_zfpDecodeBlock ops zfp hd' block out r r' o o' h h')

end

/-! ## The serial decoder -/

section

variable (ops : FloatOps S (4 ^ d)) (zfp : Params) (n : ℕ → ℕ) (stride : ℕ → ℤ)

/-- The stream of the serial decoder before block `i`. -/
def serialStream (s : Bitstream T) (i : ℕ) : Bitstream T :=
  (((corners n d).take i).foldl (decompressNext ops zfp n stride) (⟨s, []⟩, fun _ => 0)).1.stream

/-- What the serial decoder gets for block `i`: the number of bits and the values. -/
def serialBlock (s : Bitstream T) (i : ℕ) : ℕ × (ℕ → BitVec S.width) :=
  let q := zfpDecodeBlock ops zfp (serialStream ops zfp n stride s i) fun _ => 0
  (q.1, q.2.2)

theorem serialStream_succ (s : Bitstream T) {i : ℕ} (hi : i < blocksOf n d) :
    serialStream ops zfp n stride s (i + 1) =
      (zfpDecodeBlock ops zfp (serialStream ops zfp n stride s i) fun _ => 0).2.1 := by
  have hlen : i < (corners n d).length := by rwa [length_corners]
  rw [serialStream, List.take_succ_eq_append_getElem hlen, List.foldl_append]
  rfl

end

namespace BlockStore

section

variable (ops : FloatOps S (4 ^ d)) (st : BlockStore T I) (input : ℕ → Input S)

def Unpadded (i : ℕ) : Prop := unpadded ops st.zfp (((input i).source d st.size i).values d)

variable {n : ℕ → ℕ} (stride : ℕ → ℤ) {r : Bitstream T} {k : ℕ}
  (h : Reads (memBit r.mem) 0 (codesOf ops st input k)) (hk : k ≤ blocksOf n d)

include h hk

/-- The serial decoder steps from code to code as long as the codes are padded. -/
theorem serialStream_eq (hd : 1 ≤ d) (hd' : d ≤ 4) {i : ℕ} (hi : i ≤ k)
    (hpadded : ∀ j < i, ¬ Unpadded ops st input j) :
    serialStream ops st.zfp n stride (streamRewind r) i =
      streamRseek r (codesOf ops st input i).length := by
  induction i with
  | zero => exact streamRewind_eq r
  | succ i ih =>
    have hreads := reads_codeOf ops st input (show i < k by omega) h
    have hnext := zfpDecodeBlock_rseek ops st.zfp hd hd' (fun _ => 0) hreads
      (hpadded i (Nat.lt_succ_self i))
    rw [serialStream_succ ops st.zfp n stride _ (show i < blocksOf n d by omega),
      ih (by omega) fun j hj => hpadded j (by omega), codesOf_succ, List.length_append]
    exact hnext.2

/-- It finds each block where its code starts if no block before the last one is unpadded, and only
then. -/
theorem serialStream_tell_iff (hd : 1 ≤ d) (hd' : d ≤ 4) :
    (∀ i < k, streamRtell (serialStream ops st.zfp n stride (streamRewind r) i) =
        (codesOf ops st input i).length) ↔
      ∀ i, i + 1 < k → ¬ Unpadded ops st input i := by
  constructor
  · intro htell i
    induction i using Nat.strong_induction_on with
    | _ i ih =>
      intro hi hun
      have hreads := reads_codeOf ops st input (show i < k by omega) h
      have hstream := serialStream_eq ops st input stride h hk hd hd'
        (show i ≤ k by omega) fun j hj => ih j hj (by omega)
      have hnext := htell (i + 1) hi
      have hone : (codeOf ops st input i).length = 1 := length_of_unpadded ops st.zfp hun
      have hmax : max (codeOf ops st input i).length st.zfp.minbits = st.zfp.minbits := by
        rw [hone]
        exact max_eq_right hun.2.2.2.le
      have hend := (zfpDecodeBlock_max ops st.zfp hd hd' hreads fun _ => 0).2
      rw [← codeOf, hmax] at hend
      rw [serialStream_succ ops st.zfp n stride _ (show i < blocksOf n d by omega), hstream, hend,
        streamRtell_rseek, codesOf_succ, List.length_append, hone] at hnext
      have hmin := hun.2.2.2
      omega
  · intro hpadded i hi
    rw [serialStream_eq ops st input stride h hk hd hd' hi.le fun j hj => hpadded j (by omega),
      streamRtell_rseek]

/-- What it gets for a block is what is decoded from the code of the block. -/
theorem serialBlock_eq (hd : 1 ≤ d) (hd' : d ≤ 4) {i : ℕ} (hi : i < k)
    (hpadded : ∀ j, j + 1 < k → ¬ Unpadded ops st input j) :
    serialBlock ops st.zfp n stride (streamRewind r) i =
      valuesAt ops st.zfp r (codesOf ops st input i).length fun _ => 0 := by
  rw [serialBlock, serialStream_eq ops st input stride h hk hd hd' hi.le fun j hj => hpadded j
    (by omega)]
  rfl

end

end BlockStore

/-! ## Decoding a block -/

theorem span_contiguous (c : ℕ → ℕ) (d : ℕ) : span contiguous d c = blockPlace c d := by
  induction d with
  | zero => rfl
  | succ d ih =>
    rw [span, ih, blockPlace, contiguous]
    push_cast
    ring

section

variable (ops : FloatOps S (4 ^ d)) (zfp : Params)

/-- A floating-point block replaces all its values. -/
theorem zfpDecodeBlock_values (hS : S.isFloat = true) (s : Bitstream T) :
    ∃ b : Fin (4 ^ d) → BitVec S.width, ∀ out : ℕ → BitVec S.width,
      (zfpDecodeBlock ops zfp s out).2.2 = putBlock out b := by
  simp only [zfpDecodeBlock, if_pos hS]
  split
  · simp only [revDecodeFloatBlock]
    split
    · split
      · exact ⟨fun i => revReinterpret S ((revDecodeIntBlock S d (streamReadBit (streamReadBit s).2).2
          (zfp.minbits - min 2 zfp.minbits) (uintSub zfp.maxbits 2) fun _ => 0).2.2 i), fun _ => rfl⟩
      · exact ⟨_, fun _ => rfl⟩
    · exact ⟨fun _ => 0, fun _ => rfl⟩
  · simp only [decodeFloatBlock]
    split
    · exact ⟨_, fun _ => rfl⟩
    · exact ⟨fun _ => 0, fun _ => rfl⟩

/-- The elements of a block go to their places. -/
theorem decodeBlock_place (hS : S.isFloat = true) (s : Bitstream T) (o shape : ℕ)
    (block : ℕ → BitVec S.width) {x : ℕ → ℕ} (hx : ∀ a < d, x a < blockDims shape a) :
    (decodeBlock ops zfp s o shape block).2.2 (blockPlace x d) =
      (zfpDecodeBlock ops zfp (streamRseek s o) fun _ => 0).2.2 (blockPlace x d) := by
  have hdims : ∀ a < d, blockDims shape a ≤ 4 := fun a _ => Nat.sub_le _ _
  have hlt := blockPlace_lt hdims hx
  rw [decodeBlock]
  split
  · next hshape =>
    show decodeBlockStrided _ _ _ _ _ _ _ _ |>.2.2 _ = _
    rw [decodeBlockStrided, if_pos hshape, ← scatterLoops_eq _ _ hdims]
    dsimp only
    obtain ⟨c, hc, heq, hvalue⟩ | ⟨hne, -⟩ := scatterLoops_apply
      (decodeAt ops zfp s o fun _ => 0).2.2 contiguous hdims (fun z => block z.toNat) 0 (blockPlace x d)
    · rw [zero_add, span_contiguous, Int.natCast_inj] at heq
      rw [hvalue, ← heq]
      rfl
    · exact absurd (by rw [zero_add, span_contiguous]) (hne x hx)
  · obtain ⟨b, hb⟩ := zfpDecodeBlock_values ops zfp hS (streamRseek s o)
    show (zfpDecodeBlock ops zfp (streamRseek s o) block).2.2 _ = _
    rw [hb, hb, putBlock_of_lt _ _ hlt, putBlock_of_lt _ _ hlt]

/-- Decoding leaves the memory of the stream as it is. -/
theorem decodeBlock_mem (hd : d ≤ 4) (hside : sideBits S (REVERSIBLE zfp) ≤ zfp.maxbits)
    (s : Bitstream T) (o shape : ℕ) (block : ℕ → BitVec S.width) :
    (decodeBlock ops zfp s o shape block).2.1.mem = s.mem := by
  have hat (out : ℕ → BitVec S.width) : (decodeAt ops zfp s o out).2.1.mem = s.mem := by
    obtain ⟨n, m, a, ha, _⟩ := zfpDecodeBlock_window ops zfp hd
      (fun k (_ : k < zfp.maxbits) => (rfl : memBit s.mem (o + k) = _)) hside out
    rw [decodeAt, ha]
    dsimp only
    rw [streamAlign_rseek, streamRseek_mem]
  rw [decodeBlock]
  split
  · exact hat fun _ => 0
  · exact hat block

end

/-! ## Setting a store -/

/-- Two buffers that hold the same bits, with zeros up to the end of a word, have the same words. -/
theorem word_eq_of_reads {mem mem' : ℕ → BitVec (wsize T)} {l : List Bool}
    (h : Reads (memBit mem) 0 l) (h' : Reads (memBit mem') 0 l)
    (hpad : ∀ i, l.length ≤ i → i < wordEnd T l.length → memBit mem i = false)
    (hpad' : ∀ i, l.length ≤ i → i < wordEnd T l.length → memBit mem' i = false) {w : ℕ}
    (hw : w * wsize T < wordEnd T l.length) : mem w = mem' w := by
  have hend : (w + 1) * wsize T ≤ wordEnd T l.length :=
    Nat.mul_le_mul_right _ (Nat.lt_of_mul_lt_mul_right hw)
  rw [Nat.succ_mul] at hend
  rw [reads_iff] at h h'
  apply BitVec.eq_of_getLsbD_eq
  intro k hk
  rw [← memBit_word mem w hk, ← memBit_word mem' w hk]
  rcases Nat.lt_or_ge (w * wsize T + k) l.length with hlt | hge
  · have hbit := (h _ hlt).trans (h' _ hlt).symm
    rwa [Nat.zero_add] at hbit
  · rw [hpad _ hge (by omega), hpad' _ hge (by omega)]

namespace BlockStore

section

variable (X : IndexOps I) (ops : FloatOps S (4 ^ d))

theorem run_size {st t : BlockStore T I} {l : List (Op S)} (h : run X ops st l = .ok t) :
    t.size = st.size := by
  induction l generalizing st with
  | nil =>
    cases h
    rfl
  | cons op l ih =>
    obtain ⟨u, hu, hrest⟩ := (bind_eq_ok_iff _ _ _).mp h
    refine (ih hrest).trans ?_
    cases op with
    | config c => exact (setConfig_ok hu).size
    | encode i input =>
      obtain ⟨r, hr, rfl⟩ := (map_eq_ok_iff _ _ _).mp hu
      obtain ⟨index, -, rfl⟩ := (map_eq_ok_iff _ _ _).mp hr
      rfl
    | flush =>
      obtain ⟨index, -, rfl⟩ := (map_eq_ok_iff _ _ _).mp hu
      rfl

/-- What compaction to `o` bits does. -/
structure Compacted (st t : BlockStore T I) (o : ℕ) : Prop where
  size : t.size = st.size
  zfp : t.zfp = st.zfp
  index : t.index = st.index
  bytes : t.bytes = wordBytes T o
  mem : ∀ w, w * wsize T < wordEnd T o → t.stream.mem w = st.stream.mem w

theorem compact_spec (fresh : ℕ → BitVec (wsize T)) {st : BlockStore T I} {o : ℕ}
    (hrange : (X.range st.index).toNat = o) (hfit : o + wsize T ≤ 2 ^ 64)
    (hbytes : wordBytes T o ≤ st.bytes) : Compacted st (st.compact X fresh) o := by
  have hsize : roundUp o (wsize T) / 8 = wordBytes T o := by
    rw [roundUp_eq (wsize_pos T) hfit, Nat.mul_div_assoc _ (eight_dvd_wsize T), wordBytes]
  rw [compact, hrange, hsize]
  split
  · refine ⟨rfl, rfl, rfl, rfl, fun w hw => if_pos ?_⟩
    rwa [eight_mul_wordBytes]
  · exact ⟨rfl, rfl, rfl, by omega, fun _ _ => rfl⟩

end

/-- The store `v` holds the codes of the blocks, one behind the other and zero padded. -/
structure Holds (X : IndexOps I) (ops : FloatOps S (4 ^ d)) (st v : BlockStore T I)
    (input : ℕ → Input S) (n : ℕ) : Prop where
  size : v.size = st.size
  zfp : v.zfp = st.zfp
  bytes : v.bytes = wordBytes T (codesOf ops st input n).length
  offset : ∀ i < n, v.offset X i = (codesOf ops st input i).length
  reads : Reads (memBit v.stream.mem) 0 (codesOf ops st input n)
  pad : ∀ i, (codesOf ops st input n).length ≤ i →
    i < wordEnd T (codesOf ops st input n).length → memBit v.stream.mem i = false

/-- The bits before the end of a buffer are kept when its words are. -/
theorem memBit_congr {mem mem' : ℕ → BitVec (wsize T)} {o : ℕ}
    (h : ∀ w, w * wsize T < wordEnd T o → mem' w = mem w) {i : ℕ} (hi : i < wordEnd T o) :
    memBit mem' i = memBit mem i := by
  have hle := Nat.div_mul_le_self i (wsize T)
  rw [memBit, memBit, h _ (by omega)]

section

variable {X : IndexOps I} {V : IndexView I} (hX : IndexSpec X V) (ops : FloatOps S (4 ^ d))
  {st : BlockStore T I}

include hX

/-- A store over an index of variable rate that is set and compacted holds the codes. -/
theorem set_holds (hd : 1 ≤ d) (hd' : d ≤ 4) (hvariable : X.hasVariableRate = true)
    (hst : Consistent V d st) (hside : sideBits S (REVERSIBLE st.zfp) ≤ st.zfp.maxbits)
    (hcount : total (blockSize st.size) d < 2 ^ 64) (hfits : Fits T S d st.size st.zfp)
    (data : Option (ArrayData S))
    (hadm : V.Admissible (sizesOf ops st (inputOf d st.size data)) (blocks d st.size))
    (fresh : ℕ → BitVec (wsize T)) :
    ∃ v, st.set X ops fresh data true = .ok v ∧
      Holds X ops st v (inputOf d st.size data) (blocks d st.size) := by
  have hfresh : V.Fresh (clear S d X st).index := hX.fresh_clear hst.valid
  have hblocks : V.blocks (clear S d X st).index = blocks d st.size :=
    (hX.clear st.index).blocks.trans hst.blocks
  have hagree : V.Agrees (clear S d X st).index (sizesOf ops st (inputOf d st.size data)) := by
    intro b hb
    have hnone := hX.fixed_isSome (clear S d X st).index
    rw [hb, hvariable] at hnone
    exact absurd hnone (by simp)
  set input := inputOf d st.size data with hinput
  have hbound := length_codesOf_le ops st input (n := blocks d st.size) fun i _ =>
    length_blockCode_bound ops st.zfp hside (((input i).source d st.size i).values d)
  have hbytes := wordBytes_le_bufferSize (T := T) hd hd' hst.sized hfits hbound
  have hpos := wsize_pos T
  have hroom := hfits
  rw [Fits] at hroom
  have hlt : (codesOf ops st input (blocks d st.size)).length < 2 ^ 64 := by omega
  -- every block is encoded to the cleared store
  obtain ⟨index, index', hsizes, hflush⟩ := hX.total hfresh (hblocks ▸ hadm)
  rw [hblocks] at hsizes
  obtain ⟨u, ranges, hu, hindex, hkept⟩ | ⟨e, -, he⟩ :=
    encodeAll_cases (X := X) ops hd' (clear S d X st) input (blocks d st.size)
  · have hstored := encodeAll_stored hX hd' hfresh hagree hblocks.ge hlt hu
    have hindex' : Except.ok index = Except.ok u.index := hsizes.symm.trans hindex
    have hflushed : u.flush X = .ok { u with index := index' } := by
      rw [flush, ← Except.ok.inj hindex', hflush]
      rfl
    obtain ⟨hoffset, hrange⟩ := offset_flush hX hd' hfresh hagree
      (hblocks ▸ hlt) (hblocks ▸ hu) hflushed
    rw [hblocks] at hoffset hrange
    have hcompact := compact_spec X fresh hrange
      (show (codesOf ops st input (blocks d st.size)).length + wsize T ≤ 2 ^ 64 by omega)
      (hbytes.trans_eq hkept.bytes.symm)
    have hset : st.set X ops fresh data true = .ok (compact X fresh { u with index := index' }) := by
      rw [set_eq X ops fresh st data true hcount, hu]
      show (u.flush X).map _ = _
      rw [hflushed]
      rfl
    refine ⟨_, hset, hcompact.size.trans hkept.size, hcompact.zfp.trans hkept.zfp, hcompact.bytes,
      fun i hi => ?_, ?_, fun i hi hend => ?_⟩
    · rw [offset, hcompact.index]
      exact hoffset i hi
    · have hreads := hstored.reads
      rw [reads_iff] at hreads ⊢
      intro i hi
      have hend : i < wordEnd T (codesOf ops st input (blocks d st.size)).length :=
        Nat.lt_of_lt_of_le hi (le_wordEnd _)
      have hbit := hreads i hi
      rw [Nat.zero_add] at hbit ⊢
      exact (memBit_congr hcompact.mem hend).trans hbit
    · rw [memBit_congr hcompact.mem hend]
      exact hstored.pad i hi hend
  · exact absurd (he.symm.trans hsizes) (by simp)

end

/-! ## Decoding -/

section

variable (X : IndexOps I) (ops : FloatOps S (4 ^ d))

def decodes (st : BlockStore T I) (l : List (ℕ × (ℕ → BitVec S.width))) : BlockStore T I :=
  l.foldl (fun st r => { st with stream := (st.decode X ops r.1 r.2).2.1 }) st

variable {X ops}

theorem Holds.decodes (hd : d ≤ 4) {st v : BlockStore T I} {input : ℕ → Input S} {n : ℕ}
    (h : Holds X ops st v input n) (hside : sideBits S (REVERSIBLE st.zfp) ≤ st.zfp.maxbits)
    (l : List (ℕ × (ℕ → BitVec S.width))) : Holds X ops st (decodes X ops v l) input n := by
  induction l generalizing v with
  | nil => exact h
  | cons r l ih =>
    have hmem : (v.decode X ops r.1 r.2).2.1.mem = v.stream.mem :=
      decodeBlock_mem ops v.zfp hd (h.zfp ▸ hside) v.stream _ _ r.2
    have hreads := h.reads
    have hpad := h.pad
    rw [← hmem] at hreads hpad
    exact ih ⟨h.size, h.zfp, h.bytes, h.offset, hreads, hpad⟩

/-- A block that is decoded has the values of its code. -/
theorem Holds.decode (hd : 1 ≤ d) (hd' : d ≤ 4) (hS : S.isFloat = true) {st v : BlockStore T I}
    {input : ℕ → Input S} {n : ℕ} (h : Holds X ops st v input n) {i : ℕ} (hi : i < n)
    (block : ℕ → BitVec S.width) {r : Bitstream T} {o : ℕ}
    (hr : Reads (memBit r.mem) o (codeOf ops st input i)) :
    (v.decode X ops i block).1 = (valuesAt ops st.zfp r o fun _ => 0).1 ∧
      ∀ x : ℕ → ℕ, (∀ a < d, x a < blockDims (ArrayBlocks.blockShape d st.size i) a) →
        (v.decode X ops i block).2.2 (blockPlace x d) =
          (valuesAt ops st.zfp r o fun _ => 0).2 (blockPlace x d) := by
  have hreads := reads_codeOf ops st input hi h.reads
  have hvalues := valuesAt_congr ops st.zfp hd hd' hreads hr fun _ => 0
  rw [← hvalues]
  refine ⟨decode_fst X ops v i _ (fun out => ?_) block, fun x hx => ?_⟩
  · rw [h.offset i hi, h.zfp, (zfpDecodeBlock_max ops st.zfp hd hd' hreads out).1]
    exact (zfpDecodeBlock_max ops st.zfp hd hd' hreads fun _ => 0).1.symm
  · rw [← h.size] at hx
    have hplace := decodeBlock_place ops v.zfp hS v.stream (v.offset X i)
      (ArrayBlocks.blockShape d v.size i) block hx
    rw [h.offset i hi, h.zfp] at hplace
    rw [BlockStore.decode, h.offset i hi, h.zfp, hplace]
    rfl

end

/-! ## The serial stream -/

/-- The serial stream holds the same bits, zero padded. -/
theorem zfpCompress_holds (env : Env T) (floats : Floats) (zfp : Params) (mem : Data) {f : Field}
    (htype : f.type = some S) (hdims : zfpFieldDimensionality f ≠ 0) (hreturns : SerialReturns f)
    (dst : Handle T) :
    ∃ r, zfpCompress env floats .serial zfp mem f { dst with stream := streamRewind dst.stream } =
        some (wordBytes T (fieldCode floats zfp mem f S).length, r) ∧
      Appended dst.stream r.stream 0 (fieldCode floats zfp mem f S) := by
  have hrewind : streamRewind dst.stream = streamWseek dst.stream 0 := by
    have haligned := streamWseek_aligned dst.stream 0
    rw [Nat.zero_mul] at haligned
    exact haligned.symm
  have hwf : (streamRewind dst.stream).WF := hrewind ▸ streamWseek_wf dst.stream 0
  have hcode : zfpCompress env floats .serial zfp mem f ⟨dst.data, streamRewind dst.stream⟩ = _ :=
    zfpCompress_code htype hdims hreturns zfp mem hwf
  have happ := appended_flush dst.stream 0 (fieldCode floats zfp mem f S)
  rw [streamWtell_rewind, Nat.zero_add] at hcode
  rw [← hrewind] at happ
  exact ⟨_, hcode, happ⟩

/-- An array that is set over an index of variable rate and compacted holds the bits of the serial
stream of its field. The serial decoder finds each block at its offset if no block before the last
one is a block of zeros that is not padded, and only then; and then any block is decoded, in any
order and any number of times, as the serial decoder decodes it. -/
theorem set_serial (hd : 1 ≤ d) (hd' : d ≤ 4) (hS : S.isFloat = true) {k : IndexKind}
    (hvariable : (k.ops d).hasVariableRate = true) (env : Env T) (floats : Floats) {n : ℕ → ℕ}
    (hn : ∀ a < d, 1 ≤ n a ∧ n a < 2 ^ 32) {garbage : k.State} {l : List (Op S)}
    {st : BlockStore T k.State}
    (hrun : run (k.ops d) (floats S d) (create d (k.ops d) T garbage n) l = .ok st)
    (hside : sideBits S (REVERSIBLE st.zfp) ≤ st.zfp.maxbits)
    (hcount : total (blockSize n) d < 2 ^ 64) (hfits : Fits T S d n st.zfp)
    (data : Option (ArrayData S))
    (hadm : (k.view d).Admissible (sizesOf (floats S d) st (inputOf d n data)) (blocks d n))
    (fresh : ℕ → BitVec (wsize T)) (dst : Handle T) :
    let X := k.ops d
    let ops := floats S d
    let f := field S d n
    ∃ v r, st.set X ops fresh data true = .ok v ∧
      zfpCompress env floats .serial st.zfp (Function.update (fun _ _ => 0) S (elements data)) f
        { dst with stream := streamRewind dst.stream } = some (v.bytes, r) ∧
      (∀ w, w * wsize T < 8 * v.bytes → v.stream.mem w = r.stream.mem w) ∧
      ((∀ i < blocks d n, streamRtell (serialStream ops st.zfp f.size (zfpFieldStride f)
          (streamRewind r.stream) i) = v.offset X i) ↔
        ∀ i, i + 1 < blocks d n → ¬ Unpadded ops st (inputOf d n data) i) ∧
      ((∀ i, i + 1 < blocks d n → ¬ Unpadded ops st (inputOf d n data) i) →
        ∀ (reads : List (ℕ × (ℕ → BitVec S.width))) (i : ℕ) (block : ℕ → BitVec S.width),
          i < blocks d n →
          let q := (decodes X ops v reads).decode X ops i block
          let q' := serialBlock ops st.zfp f.size (zfpFieldStride f) (streamRewind r.stream) i
          q.1 = q'.1 ∧ ∀ c, InCorner d n (cornerOf n d i) c →
            q.2.2 (blockPlace (fun a => c a - cornerOf n d i a) d) =
              q'.2 (blockPlace (fun a => c a - cornerOf n d i a) d)) := by
  intro X ops f
  have hX := k.spec ⟨hd, hd'⟩
  have hn' : ∀ a < d, 1 ≤ n a ∧ n a < 2 ^ 62 := fun a ha => by
    have := hn a ha
    omega
  have hnonzero : ∀ a < d, n a ≠ 0 := fun a ha => Nat.one_le_iff_ne_zero.mp (hn a ha).1
  have hst := run_consistent hX hrun (consistent_create hX n garbage)
  have hsize : st.size = n := by
    have hset : setSize d n = n := if_neg (by rintro ⟨a, ha, hzero⟩; exact hnonzero a ha hzero)
    exact (run_size _ _ hrun).trans hset
  subst hsize
  have hdims := zfpFieldDimensionality_field S hd hd' hnonzero
  have hfield : ∀ a < d, f.size a = st.size a := fun a ha => size_field S hd' ha
  have hblocks : blocks d st.size = blocksOf f.size d := by
    rw [blocksOf_congr hfield, blocksOf_eq_total hn', blocks, sizeT_of_lt hcount]
  -- both hold the same codes
  obtain ⟨v, hv, hholds⟩ := set_holds hX ops hd hd' hvariable hst hside hcount hfits data hadm fresh
  have hcode := fieldCode_field hd hd' hn' hcount floats st.zfp data
    (Function.update (fun _ _ => 0) S (elements data)) (Function.update_self ..)
    (show st.size = st.size from rfl) rfl
  have hreturns : SerialReturns f := by
    refine ⟨fun a ha => ?_, .inr (.inr ?_)⟩
    · have ha' : a < d := hdims ▸ ha
      have hsmall := (hn a ha').2
      rw [hfield a ha']
      omega
    · have hfirst : f.nx = st.size 0 := hfield 0 hd
      rw [hfirst]
      exact (hn 0 hd).2
  obtain ⟨r, hr, happ⟩ := zfpCompress_holds env floats st.zfp
    (Function.update (fun _ _ => 0) S (elements data)) (f := f) (S := S) rfl
    (hdims.trans_ne (Nat.one_le_iff_ne_zero.mp hd)) hreturns dst
  rw [hcode] at hr happ
  have hpad := happ.pad
  rw [Nat.zero_add] at hpad
  refine ⟨v, r, hv, hholds.bytes ▸ hr, fun w hw => ?_, ?_, fun hpadded reads i block hi => ?_⟩
  · rw [hholds.bytes, eight_mul_wordBytes] at hw
    exact word_eq_of_reads hholds.reads happ.new hholds.pad hpad hw
  · rw [← serialStream_tell_iff ops st (inputOf d st.size data) (zfpFieldStride f) happ.new
      hblocks.le hd hd']
    refine forall₂_congr fun i hi => ?_
    rw [hholds.offset i hi]
  · intro q q'
    have hreads := reads_codeOf ops st (inputOf d st.size data) hi happ.new
    have hserial : q' = _ := serialBlock_eq ops st (inputOf d st.size data) (zfpFieldStride f) happ.new
      hblocks.le hd hd' hi hpadded
    obtain ⟨hbits, hvalues⟩ := (hholds.decodes hd' hside reads).decode hd hd' hS hi block hreads
    rw [hserial]
    refine ⟨hbits, fun c hc => hvalues _ fun a ha => ?_⟩
    have hb : i < total (blockSize st.size) d := by
      rwa [blocks, sizeT_of_lt hcount] at hi
    have hca := hc a ha
    rw [blockDims_blockShape hn' hb ha]
    omega

/-! ## Zeros and ones -/

def onesFloats : Floats := fun S _ =>
  { exponentBlock := fun b => if b = fun _ => 0 then -EBIAS S else min 1 (2 ^ EBITS S - 1 - EBIAS S)
    fwdCast := fun _ _ _ => 0x20000000
    invCast := fun _ _ _ => 0x3f800000
    exponentBlock_mem := fun b => by split_ifs <;> cases S <;> decide }

/-- Two blocks of ones. -/
theorem set_serial_ones :
    let ops := onesFloats .float 1
    let f := field .float 1 fun _ => 8
    let st := create 1 Index.verbatim .uint64 ⟨fun _ => 0, 0, 0⟩ fun _ => 8
    let data : Option (ArrayData .float) := some ⟨fun _ => 0x3f800000, 0⟩
    ∃ v r, st.set Index.verbatim ops (fun _ => 0) data true = .ok v ∧
      zfpCompress (serialBuild .uint64) onesFloats .serial st.zfp
        (Function.update (fun _ _ => 0) .float (elements data)) f
        ⟨0, streamRewind (streamOpen fun _ => 0)⟩ =
          some (v.bytes, r) ∧
      (∀ w, w * 64 < 8 * v.bytes → v.stream.mem w = r.stream.mem w) ∧
      ∀ (reads : List (ℕ × (ℕ → BitVec 32))) (i : ℕ), i < 2 →
        ((decodes Index.verbatim ops v reads).decode Index.verbatim ops i fun _ => 0).1 =
          (serialBlock ops st.zfp f.size (zfpFieldStride f) (streamRewind r.stream) i).1 := by
  intro ops f st data
  have hfits : Fits .uint64 .float 1 (fun _ => 8) st.zfp := by
    rw [Fits]
    decide
  obtain ⟨v, r, hv, hr, hwords, -, hdecode⟩ := set_serial (k := .verbatim) (l := []) (by decide)
    (by decide) rfl rfl (serialBuild .uint64) onesFloats (n := fun _ => 8) (by decide) rfl
    (by decide) (by decide) hfits data trivial (fun _ => 0) ⟨0, streamOpen fun _ => 0⟩
  exact ⟨v, r, hv, hr, hwords, fun reads i hi => (hdecode (fun i _ h => absurd h.2.1 (by decide))
    reads i (fun _ => 0) hi).1⟩

def zeroBlock : Option (ArrayData .float) :=
  some ⟨fun a => if a.toNat < 16 then 0 else 0x3f800000, 0⟩

section

variable {st : BlockStore .uint64 Verbatim}
  (hrun : run Index.verbatim (onesFloats .float 1)
    (create 1 Index.verbatim .uint64 ⟨fun _ => 0, 0, 0⟩ fun _ => 8)
    [.config (.expert 64 200 64 (-1075))] = .ok st)

include hrun

theorem run_expert : st.size = (fun _ => 8) ∧ zfpStreamSetParams 64 200 64 (-1075) = some st.zfp ∧
    sideBits .float (REVERSIBLE st.zfp) ≤ st.zfp.maxbits ∧ Fits .uint64 .float 1 st.size st.zfp ∧
    sideBits .float true ≤ st.zfp.maxbits ∧ unpadded (onesFloats .float 1) st.zfp (fun _ => 0) ∧
    st.zfp.minbits = 64 := by
  have hset : setSize 1 (fun _ => 8) = fun _ => 8 := if_neg (by decide)
  refine ⟨(run_size _ _ hrun).trans hset, ?_⟩
  cases hrun
  refine ⟨rfl, by decide, ?_, by decide, ⟨rfl, by decide, by decide, by decide⟩, rfl⟩
  rw [Fits]
  decide

/-- A single bit, and a word that ends with a zero. -/
theorem codeOf_zeroBlock :
    blockCode (onesFloats .float 1) st.zfp (fun _ => 0) = [false] ∧
    codeOf (onesFloats .float 1) st (inputOf 1 st.size zeroBlock) 0 = [false] ∧
    ∃ code, codeOf (onesFloats .float 1) st (inputOf 1 st.size zeroBlock) 1 = code ++ [false] ∧
      code.length = 63 ∧ (valuesAt (onesFloats .float 1) st.zfp
        (streamFlush ((streamOpen (T := .uint64) fun _ => 0).append (code ++ [false]))).2 0
          fun _ => 0).2 0 = 0x3f800000 := by
  refine ⟨?_, ?_, (codeOf (onesFloats .float 1) st (inputOf 1 st.size zeroBlock) 1).take 63, ?_⟩
  · cases hrun
    decide +kernel
  · cases hrun
    decide +kernel
  · cases hrun
    decide +kernel

end

/-- With blocks of at least a word in reversible mode, the serial decoder misses a block of ones. -/
theorem set_serial_zeros :
    let ops := onesFloats .float 1
    let f := field .float 1 fun _ => 8
    ∃ st v r, run Index.verbatim ops (create 1 Index.verbatim .uint64 ⟨fun _ => 0, 0, 0⟩ fun _ => 8)
        [.config (.expert 64 200 64 (-1075))] = .ok st ∧
      zfpStreamSetParams 64 200 64 (-1075) = some st.zfp ∧ sideBits .float true ≤ st.zfp.maxbits ∧
      st.set Index.verbatim ops (fun _ => 0) zeroBlock true = .ok v ∧
      zfpCompress (serialBuild .uint64) onesFloats .serial st.zfp
        (Function.update (fun _ _ => 0) .float (elements zeroBlock)) f ⟨0, streamOpen fun _ => 0⟩ =
          some (v.bytes, r) ∧
      (v.decode Index.verbatim ops 1 fun _ => 0).2.2 0 = 0x3f800000 ∧
      (serialBlock ops st.zfp f.size (zfpFieldStride f) (streamRewind r.stream) 1).2 0 = 0 := by
  intro ops f
  obtain ⟨st, hrun⟩ : ∃ st, run Index.verbatim ops
    (create 1 Index.verbatim .uint64 ⟨fun _ => 0, 0, 0⟩ fun _ => 8)
    [.config (.expert 64 200 64 (-1075))] = .ok st := ⟨_, rfl⟩
  have hst := run_consistent verbatim_spec hrun (consistent_create verbatim_spec _ _)
  obtain ⟨hsize, hzfp, hside, hfits, hside', hun, hminbits⟩ := run_expert hrun
  obtain ⟨hzero, hfirst, code, hcode, hlength, hones⟩ := codeOf_zeroBlock hrun
  have hblocks : blocks 1 st.size = 2 := by
    rw [hsize]
    decide
  have hn : ∀ a < 1, 1 ≤ st.size a ∧ st.size a < 2 ^ 62 := by
    rw [hsize]
    decide
  have hcount : total (blockSize st.size) 1 < 2 ^ 64 := by
    rw [hsize]
    decide
  obtain ⟨v, hv, hholds⟩ := set_holds verbatim_spec ops (by decide) (by decide) rfl hst hside
    hcount hfits zeroBlock trivial fun _ => 0
  rw [hblocks] at hholds
  have hfield := fieldCode_field (T := .uint64) (by decide) (by decide) hn hcount onesFloats st.zfp
    zeroBlock (Function.update (fun _ _ => 0) .float (elements zeroBlock)) (Function.update_self ..)
    (show st.size = st.size from rfl) rfl
  have hdims : zfpFieldDimensionality (field .float 1 st.size) ≠ 0 := by
    rw [hsize]
    decide
  have hreturns : SerialReturns (field .float 1 st.size) := by
    rw [hsize]
    decide
  obtain ⟨r, hr, happ⟩ := zfpCompress_holds (serialBuild .uint64) onesFloats st.zfp
    (Function.update (fun _ _ => 0) .float (elements zeroBlock)) (f := field .float 1 st.size)
    (S := .float) rfl hdims hreturns ⟨0, streamOpen fun _ => 0⟩
  rw [hfield, hblocks] at hr happ
  have hcodes : codesOf ops st (inputOf 1 st.size zeroBlock) 2 = [false] ++ (code ++ [false]) := by
    rw [codesOf_succ, codesOf_succ, hfirst, hcode]
    rfl
  have hreads := happ.new
  rw [hcodes, reads_append, reads_append, hlength, ← hzero, length_of_unpadded ops st.zfp hun] at hreads
  obtain ⟨hbit, -, hlast⟩ := hreads
  -- the serial decoder skips to bit 64, where it reads the zero that ends the word
  have hserial : serialStream ops st.zfp f.size (zfpFieldStride f) (streamRewind r.stream) 1 =
      streamRseek r.stream 64 := by
    have hskip := (zfpDecodeBlock_max ops st.zfp (by decide) (by decide) hbit fun _ => 0).2
    rw [length_of_unpadded ops st.zfp hun, hminbits] at hskip
    rw [serialStream_succ ops st.zfp f.size _ _ (by decide)]
    show (zfpDecodeBlock ops st.zfp (streamRewind r.stream) fun _ => 0).2.1 = _
    rw [streamRewind_eq]
    exact hskip
  have hone : Reads (memBit (streamFlush ((streamOpen (T := .uint64) fun _ => 0).append
      (code ++ [false]))).2.mem) 0 (codeOf ops st (inputOf 1 st.size zeroBlock) 1) := by
    rw [hcode]
    exact reads_flush (streamOpen_wf fun _ => 0) _
  have hvalue := hholds.decode (by decide) (by decide) rfl (show 1 < 2 by decide) (fun _ => 0) hone
  have hopen : streamRewind (streamOpen (T := .uint64) fun _ => 0) = streamOpen fun _ => 0 := rfl
  rw [hopen, ← hholds.bytes, hsize] at hr
  refine ⟨st, v, r, hrun, hzfp, hside', hv, hr, ?_, ?_⟩
  · refine (hvalue.2 (fun _ => 0) ?_).trans hones
    rw [hsize]
    decide
  · rw [serialBlock, hserial]
    exact congrFun (congrArg Prod.snd (valuesAt_unpadded ops hun hlast fun _ => 0)) 0

end BlockStore

end Zfp

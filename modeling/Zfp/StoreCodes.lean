import Zfp.BlockStore
import Zfp.MaximumSize

/-!
# The blocks in a store

Blocks that are encoded in the order of their indices follow each other in the buffer: the index
adds up their sizes, and each code is appended to the bits before it. The buffer has room for them.
-/

namespace Zfp
open BitLists Bitstream MixedRadix

variable {T : WordType} {S : Scalar} {I : Type} {d : ℕ}

namespace BlockStore

/-! ## Codes -/

section

variable (ops : FloatOps S (4 ^ d)) (st : BlockStore T I) (input : ℕ → Input S)

def codeOf (i : ℕ) : List Bool :=
  blockCode ops st.zfp (((input i).source d st.size i).values d)

def codesOf (n : ℕ) : List Bool := (List.range n).flatMap (codeOf ops st input)

def sizesOf (i : ℕ) : U64 := BitVec.ofNat 64 (codeOf ops st input i).length

theorem codesOf_succ (n : ℕ) :
    codesOf ops st input (n + 1) = codesOf ops st input n ++ codeOf ops st input n := by
  rw [codesOf, List.range_succ, List.flatMap_append, List.flatMap_singleton]
  rfl

theorem length_codesOf_mono {i n : ℕ} (h : i ≤ n) :
    (codesOf ops st input i).length ≤ (codesOf ops st input n).length := by
  induction n, h using Nat.le_induction with
  | base => exact Nat.le_refl _
  | succ n hn ih =>
    rw [codesOf_succ, List.length_append]
    omega

theorem length_codesOf_le {bound n : ℕ} (h : ∀ i < n, (codeOf ops st input i).length ≤ bound) :
    (codesOf ops st input n).length ≤ n * bound := by
  induction n with
  | zero => exact Nat.zero_le _
  | succ n ih =>
    have hlast := h n (Nat.lt_succ_self n)
    have hrest := ih fun i hi => h i (by omega)
    rw [codesOf_succ, List.length_append, Nat.succ_mul]
    omega

/-- A reader of the first blocks reads each of them. -/
theorem reads_codeOf {b : ℕ → Bool} {i n : ℕ} (hi : i < n) (h : Reads b 0 (codesOf ops st input n)) :
    Reads b (codesOf ops st input i).length (codeOf ops st input i) := by
  induction n with
  | zero => exact absurd hi (Nat.not_lt_zero i)
  | succ n ih =>
    rw [codesOf_succ, reads_append, Nat.zero_add] at h
    rcases Nat.lt_or_eq_of_le (Nat.lt_succ_iff.mp hi) with hlt | rfl
    · exact ih hlt h.1
    · exact h.2

/-- The index adds up the sizes. -/
theorem toNat_offsetOf_sizesOf {n : ℕ} (h : (codesOf ops st input n).length < 2 ^ 64) :
    (offsetOf (sizesOf ops st input) n).toNat = (codesOf ops st input n).length := by
  induction n with
  | zero => rfl
  | succ n ih =>
    rw [codesOf_succ, List.length_append] at h ⊢
    have hsize : (sizesOf ops st input n).toNat = (codeOf ops st input n).length := by
      rw [sizesOf, BitVec.toNat_ofNat, Nat.mod_eq_of_lt (by omega)]
    rw [offsetOf_succ, BitVec.toNat_add, ih (by omega), hsize, Nat.mod_eq_of_lt h]

end

section

variable (X : IndexOps I) (ops : FloatOps S (4 ^ d))

/-- A block is coded at its offset, and the index is told the length of its code. -/
theorem encode_eq (hd : d ≤ 4) (st : BlockStore T I) (input : ℕ → Input S) (i : ℕ) :
    st.encode X ops i (input i) =
      (X.setBlockSize st.index i (sizesOf ops st input i)).map fun index =>
        ((codeOf ops st input i).length, { st with
          index := index
          stream := (streamFlush ((streamWseek st.stream (st.offset X i)).append
            (codeOf ops st input i))).2 }) := by
  have hwf := streamWseek_wf st.stream (st.offset X i)
  rw [encode, encodeSource_eq, encodeAt, zfpEncodeBlock_eq ops st.zfp hwf hd]
  rfl

theorem encodeAll_succ (st : BlockStore T I) (input : ℕ → Input S) (n : ℕ) :
    st.encodeAll X ops input (n + 1) = encodeNext X ops n (input n) (st.encodeAll X ops input n) := by
  rw [encodeAll, List.range_succ, List.foldl_append]
  rfl

/-- What encoding a block leaves as it is. -/
structure Kept (st t : BlockStore T I) : Prop where
  size : t.size = st.size
  bytes : t.bytes = st.bytes
  zfp : t.zfp = st.zfp

variable {X}

theorem Kept.codeOf_eq {st t : BlockStore T I} (h : Kept st t) (input : ℕ → Input S) (i : ℕ) :
    codeOf ops t input i = codeOf ops st input i := by
  rw [codeOf, codeOf, h.zfp, h.size]

theorem encodeNext_eq (hd : d ≤ 4) {st t : BlockStore T I} (h : Kept st t) (input : ℕ → Input S)
    (i : ℕ) (ranges : List (ℕ × ℕ)) :
    encodeNext X ops i (input i) (.ok (t, ranges)) =
      (X.setBlockSize t.index i (sizesOf ops st input i)).map fun index =>
        ({ t with
            index := index
            stream := (streamFlush ((streamWseek t.stream (t.offset X i)).append
              (codeOf ops st input i))).2 },
          ranges ++ [(t.offset X i, (codeOf ops st input i).length)]) := by
  have hcode := h.codeOf_eq ops input i
  have hsize : sizesOf ops t input i = sizesOf ops st input i := by rw [sizesOf, hcode, sizesOf]
  have hencode := encode_eq X ops hd t input i
  rw [hsize, hcode] at hencode
  show (t.encode X ops i (input i)).map _ = _
  rw [hencode]
  cases X.setBlockSize t.index i (sizesOf ops st input i) <;> rfl

/-- The blocks are encoded if the index takes their sizes. -/
theorem encodeAll_cases (hd : d ≤ 4) (st : BlockStore T I) (input : ℕ → Input S) (n : ℕ) :
    (∃ t ranges, st.encodeAll X ops input n = .ok (t, ranges) ∧
      X.setSizes st.index (sizesOf ops st input) n = .ok t.index ∧ Kept st t) ∨
    ∃ e, st.encodeAll X ops input n = .error e ∧
      X.setSizes st.index (sizesOf ops st input) n = .error e := by
  induction n with
  | zero => exact .inl ⟨st, [], rfl, rfl, rfl, rfl, rfl⟩
  | succ n ih =>
    rw [encodeAll_succ, IndexOps.setSizes]
    obtain ⟨t, ranges, ht, hindex, hkept⟩ | ⟨e, he, he'⟩ := ih
    · rw [ht, hindex, encodeNext_eq ops hd hkept]
      cases hset : X.setBlockSize t.index n (sizesOf ops st input n) with
      | error e => exact .inr ⟨e, rfl, hset⟩
      | ok u => exact .inl ⟨_, _, rfl, hset, hkept.size, hkept.bytes, hkept.zfp⟩
    · rw [he, he']
      exact .inr ⟨e, rfl, rfl⟩

theorem encodeAll_ok (hd : d ≤ 4) {st t : BlockStore T I} {input : ℕ → Input S} {n : ℕ}
    {ranges : List (ℕ × ℕ)} (h : st.encodeAll X ops input n = .ok (t, ranges)) :
    X.setSizes st.index (sizesOf ops st input) n = .ok t.index ∧ Kept st t := by
  obtain ⟨t', ranges', ht, hindex, hkept⟩ | ⟨e, he, -⟩ := encodeAll_cases (X := X) ops hd st input n
  · rw [ht] at h
    cases h
    exact ⟨hindex, hkept⟩
  · rw [he] at h
    cases h

/-! ## The buffer -/

/-- The blocks lie one behind the other in the buffer, and zeros fill the last word. -/
structure Stored (ops : FloatOps S (4 ^ d)) (st t : BlockStore T I) (input : ℕ → Input S) (n : ℕ)
    (ranges : List (ℕ × ℕ)) : Prop where
  ranges_eq : ranges = (List.range n).map fun i =>
    ((codesOf ops st input i).length, (codeOf ops st input i).length)
  reads : Reads (memBit t.stream.mem) 0 (codesOf ops st input n)
  pad : ∀ i, (codesOf ops st input n).length ≤ i →
    i < wordEnd T (codesOf ops st input n).length → memBit t.stream.mem i = false

variable {ops}

theorem encodeAll_stored {V : IndexView I} (hX : IndexSpec X V) (hd : d ≤ 4) {st : BlockStore T I}
    {input : ℕ → Input S} (hfresh : V.Fresh st.index)
    (hagree : V.Agrees st.index (sizesOf ops st input)) {n : ℕ} (hn : n ≤ V.blocks st.index)
    (hfit : (codesOf ops st input n).length < 2 ^ 64) {t : BlockStore T I} {ranges : List (ℕ × ℕ)}
    (h : st.encodeAll X ops input n = .ok (t, ranges)) : Stored ops st t input n ranges := by
  induction n generalizing t ranges with
  | zero =>
    cases h
    refine ⟨rfl, trivial, fun i _ hi => ?_⟩
    have hend : wordEnd T 0 = 0 := by
      have hpos := wsize_pos T
      rw [wordEnd, Nat.div_eq_of_lt (by omega), Nat.zero_mul]
    exact absurd (hend ▸ hi) (Nat.not_lt_zero i)
  | succ n ih =>
    have hlt : (codesOf ops st input n).length < 2 ^ 64 :=
      (length_codesOf_mono ops st input (Nat.le_succ n)).trans_lt hfit
    rw [encodeAll_succ] at h
    obtain ⟨⟨u, prev⟩, hu, -⟩ := (bind_eq_ok_iff _ _ _).mp h
    obtain ⟨hindex, hkept⟩ := encodeAll_ok ops hd hu
    obtain ⟨hranges, hreads, hpad⟩ := ih (by omega) hlt hu
    have hoffset : u.offset X n = (codesOf ops st input n).length := by
      rw [offset, hX.build hfresh hagree hn hindex, toNat_offsetOf_sizesOf ops st input hlt]
    rw [hu, encodeNext_eq ops hd hkept, hoffset] at h
    obtain ⟨index, -, heq⟩ := (map_eq_ok_iff _ _ _).mp h
    obtain ⟨rfl, rfl⟩ := Prod.mk.inj heq
    have happ := appended_flush u.stream (codesOf ops st input n).length (codeOf ops st input n)
    refine ⟨?_, ?_, ?_⟩
    · rw [List.range_succ, List.map_append, hranges]
      rfl
    · rw [codesOf_succ, reads_append, Nat.zero_add]
      refine ⟨?_, happ.new⟩
      rw [reads_iff] at hreads ⊢
      intro i hi
      rw [Nat.zero_add, happ.old i hi, ← hreads i hi, Nat.zero_add]
    · rw [codesOf_succ, List.length_append]
      exact happ.pad

/-- A flushed index answers with the positions of the blocks. -/
theorem offset_flush {V : IndexView I} (hX : IndexSpec X V) (hd : d ≤ 4) {st : BlockStore T I}
    {input : ℕ → Input S} (hfresh : V.Fresh st.index)
    (hagree : V.Agrees st.index (sizesOf ops st input))
    (hfit : (codesOf ops st input (V.blocks st.index)).length < 2 ^ 64) {t u : BlockStore T I}
    {ranges : List (ℕ × ℕ)}
    (h : st.encodeAll X ops input (V.blocks st.index) = .ok (t, ranges))
    (hflush : t.flush X = .ok u) :
    (∀ i < V.blocks st.index, u.offset X i = (codesOf ops st input i).length) ∧
      (X.range u.index).toNat = (codesOf ops st input (V.blocks st.index)).length := by
  obtain ⟨index, hindex, rfl⟩ := (map_eq_ok_iff _ _ _).mp hflush
  obtain ⟨hsizes, -⟩ := encodeAll_ok ops hd h
  obtain ⟨hoffset, hrange⟩ := hX.built hfresh hagree hsizes hindex
  refine ⟨fun i hi => ?_, ?_⟩
  · have hlt := (length_codesOf_mono ops st input (Nat.le_of_lt hi)).trans_lt hfit
    rw [offset, hoffset i hi, toNat_offsetOf_sizesOf ops st input hlt]
  · rw [hrange, toNat_offsetOf_sizesOf ops st input hfit]

end

/-! ## The size of the buffer -/

/-- An array has no elements or sizes that are not zero. -/
def Sized (d : ℕ) (size : ℕ → ℕ) : Prop := (∀ a < d, size a = 0) ∨ ∀ a < d, size a ≠ 0

theorem sized_setSize (d : ℕ) (n : ℕ → ℕ) : Sized d (setSize d n) := by
  rw [setSize]
  split
  · exact .inl fun _ _ => rfl
  · next h => exact .inr fun a ha hzero => h ⟨a, ha, hzero⟩

section

variable (S) {size : ℕ → ℕ}

theorem size_field (hd : d ≤ 4) {a : ℕ} (ha : a < d) : (field S d size).size a = size a := by
  have hcase : a = 0 ∨ a = 1 ∨ a = 2 ∨ a = 3 := by omega
  rcases hcase with rfl | rfl | rfl | rfl
  · exact if_pos ha
  · exact if_pos ha
  · exact if_pos ha
  · exact if_pos ha

theorem zfpFieldDimensionality_field (hd : 1 ≤ d) (hd' : d ≤ 4) (h : ∀ a < d, size a ≠ 0) :
    zfpFieldDimensionality (field S d size) = d := by
  interval_cases d
  · simp [zfpFieldDimensionality, field, h 0]
  · simp [zfpFieldDimensionality, field, h 0, h 1]
  · simp [zfpFieldDimensionality, field, h 0, h 1, h 2]
  · simp [zfpFieldDimensionality, field, h 0, h 1, h 2, h 3]

theorem zfpFieldBlocks_field (hd : 1 ≤ d) (hd' : d ≤ 4) (h : ∀ a < d, size a ≠ 0) :
    zfpFieldBlocks (field S d size) = blocks d size := by
  rw [zfpFieldBlocks, zfpFieldDimensionality_field S hd hd' h]
  have hone : sizeT (ArrayBlocks.blockSize size 0) = ArrayBlocks.blockSize size 0 := by
    apply sizeT_of_lt
    exact (Nat.div_le_self _ _).trans_lt (Nat.mod_lt _ (by decide))
  interval_cases d
  · simp only [blocks, total, Nat.one_mul, hone]
    rfl
  · simp only [blocks, total, Nat.one_mul]
    rfl
  · simp only [blocks, total, Nat.one_mul]
    rfl
  · simp only [blocks, total, Nat.one_mul]
    rfl

end

/-- The size of the buffer can be computed. -/
def Fits (T : WordType) (S : Scalar) (d : ℕ) (size : ℕ → ℕ) (zfp : Params) : Prop :=
  (if zfpStreamCompressionMode zfp = .fixedRate then 0 else ZFP_HEADER_MAX_BITS) +
    blocks d size * blockMaxbits S d zfp + wsize T ≤ 2 ^ 64

theorem blockMaxbits_of_fixedRate {zfp : Params} (h : zfpStreamCompressionMode zfp = .fixedRate) :
    blockMaxbits S d zfp = zfp.maxbits := by
  have hrate : zfp.minbits = zfp.maxbits := by
    rw [zfpStreamCompressionMode] at h
    split_ifs at h
    next hfixed => exact hfixed.1
  have hle := blockMaxbits_le S d zfp
  have hge : zfp.minbits ≤ blockMaxbits S d zfp := le_max_right _ _
  omega

/-- The buffer holds as many bits as are set aside for the blocks. -/
theorem wordBytes_le_bufferSize (hd : 1 ≤ d) (hd' : d ≤ 4) {size : ℕ → ℕ} (hsize : Sized d size)
    {zfp : Params} (hfit : Fits T S d size zfp) {bits : ℕ}
    (hbits : bits ≤ blocks d size * blockMaxbits S d zfp) :
    wordBytes T bits ≤ bufferSize T S d size zfp := by
  have hpos := wsize_pos T
  rw [Fits] at hfit
  rw [bufferSize]
  rcases hsize with hzero | hsize
  · have hnone : blocks d size = 0 := by
      obtain ⟨k, rfl⟩ := Nat.exists_eq_add_of_le' hd
      rw [blocks, total_succ, ArrayBlocks.blockSize, hzero 0 (Nat.succ_pos k),
        show sizeT (0 + 3) / 4 = 0 by decide,
        Nat.zero_mul]
      rfl
    rw [hnone, Nat.zero_mul, Nat.le_zero] at hbits
    rw [hbits, wordBytes_eq_zero.mpr rfl]
    exact Nat.zero_le _
  · have hnx : (field S d size).nx ≠ 0 :=
      (size_field S hd' (show 0 < d from hd)).trans_ne (hsize 0 hd)
    have hdims := zfpFieldDimensionality_field S hd hd' hsize
    rw [if_neg fun h => hnx h.1]
    by_cases hmode : zfpStreamCompressionMode zfp = .fixedRate
    · rw [if_pos hmode, Nat.zero_add] at hfit
      rw [if_neg (not_not.mpr hmode), zfpFieldBlocks_field S hd hd' hsize,
        ← blockMaxbits_of_fixedRate (S := S) (d := d) hmode, Nat.mod_eq_of_lt (by omega)]
      exact wordBytes_le_roundUp hbits hfit
    · rw [if_neg hmode] at hfit
      rw [if_pos hmode, zfpStreamMaximumSize_eq rfl hdims hd, maximumBytes,
        zfpFieldBlocks_field S hd hd' hsize, Nat.mod_eq_of_lt (by omega)]
      exact wordBytes_le_roundUp (by omega) hfit

end BlockStore

end Zfp

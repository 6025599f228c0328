import Zfp.StoreCodes

/-!
# The ranges of the blocks

After any configurations that the store accepts, the blocks are encoded to disjoint ranges of the
buffer and decoded from them. An expert configuration does not tell the index the size of a block,
so it must keep the size that the index relies on.
-/

namespace Zfp
open BitLists Bitstream MixedRadix

variable {T : WordType} {S : Scalar} {I : Type} {d : ℕ}

namespace BlockStore

/-! ## Runs -/

structure Consistent (V : IndexView I) (d : ℕ) (st : BlockStore T I) : Prop where
  valid : V.Valid st.index
  blocks : V.blocks st.index = BlockStore.blocks d st.size
  sized : Sized d st.size

section

variable {X : IndexOps I} {V : IndexView I} (hX : IndexSpec X V) {ops : FloatOps S (4 ^ d)}

include hX

theorem consistent_create (n : ℕ → ℕ) (garbage : I) : Consistent V d (create d X T garbage n) :=
  ⟨(hX.resize _ _).1, (hX.resize _ _).2, sized_setSize d n⟩

/-- A configuration leaves an index that a build can start from. -/
theorem Configured.fresh {st t : BlockStore T I} {c : Config} (h : Configured S d X st t c)
    (hst : Consistent V d st) : V.Fresh t.index ∧ Consistent V d t := by
  have hindex : V.Fresh t.index ∧ V.blocks t.index = V.blocks st.index := by
    rcases h.index with ⟨hset, -⟩ | ⟨hclear, -⟩
    · obtain ⟨hfresh, hblocks, -⟩ := hX.setAllSizes hset hst.valid
      exact ⟨hfresh, hblocks⟩
    · rw [hclear]
      exact ⟨hX.fresh_clear hst.valid, (hX.clear st.index).blocks⟩
  refine ⟨hindex.1, hX.valid_of_fresh hindex.1, ?_, ?_⟩
  · rw [hindex.2, hst.blocks, h.size]
  · rw [h.size]
    exact hst.sized

theorem step_consistent {st t : BlockStore T I} {op : Op S} (h : step X ops st op = .ok t)
    (hst : Consistent V d st) : Consistent V d t := by
  cases op with
  | config c => exact ((setConfig_ok h).fresh hX hst).2
  | encode i input =>
    obtain ⟨r, hr, rfl⟩ := (map_eq_ok_iff _ _ _).mp h
    obtain ⟨index, hindex, rfl⟩ := (map_eq_ok_iff _ _ _).mp hr
    have hkeeps := hX.setBlockSize hindex
    exact ⟨hkeeps.valid hst.valid, hkeeps.blocks.trans hst.blocks, hst.sized⟩
  | flush =>
    obtain ⟨index, hindex, rfl⟩ := (map_eq_ok_iff _ _ _).mp h
    have hkeeps := hX.flush hindex
    exact ⟨hkeeps.valid hst.valid, hkeeps.blocks.trans hst.blocks, hst.sized⟩

theorem run_consistent {st t : BlockStore T I} {l : List (Op S)} (h : run X ops st l = .ok t)
    (hst : Consistent V d st) : Consistent V d t := by
  induction l generalizing st with
  | nil =>
    cases h
    exact hst
  | cons op l ih =>
    obtain ⟨u, hu, hrest⟩ := (bind_eq_ok_iff _ _ _).mp h
    exact ih hrest (step_consistent hX hu hst)

end

/-! ## Configurations -/

/-- The configurations of a store that keep codec and index in step, with room for every block of
the contents. -/
structure Keeps (V : IndexView I) (ops : FloatOps S (4 ^ d)) (st : BlockStore T I) (c : Config)
    (input : ℕ → Input S) : Prop where
  /-- an expert configuration keeps the size that the index relies on -/
  rate : c.IsExpert → ∀ b, V.fixed st.index = some b →
    (c.params T S st.zfp).minbits = (c.params T S st.zfp).maxbits ∧
      b = BitVec.ofNat 64 (c.params T S st.zfp).maxbits
  side : sideBits S (REVERSIBLE (c.params T S st.zfp)) ≤ (c.params T S st.zfp).maxbits
  padded : ∀ i < blocks d st.size, ¬ unpadded ops (c.params T S st.zfp)
    (((input i).source d st.size i).values d)
  fits : Fits T S d st.size (c.params T S st.zfp)

section

variable {X : IndexOps I} {V : IndexView I} (hX : IndexSpec X V)

include hX in
/-- A size that the index relies on is that of the codec. -/
theorem Configured.fixed {st t : BlockStore T I} {c : Config} (h : Configured S d X st t c)
    (hst : Consistent V d st) {ops : FloatOps S (4 ^ d)} {input : ℕ → Input S}
    (hkeeps : Keeps V ops st c input) {b : U64} (hb : V.fixed t.index = some b) :
    t.zfp.minbits = t.zfp.maxbits ∧ b = BitVec.ofNat 64 t.zfp.maxbits := by
  rcases h.index with ⟨hset, hrate⟩ | ⟨hclear, hvariable | hexpert⟩
  · exact ⟨hrate, (hX.setAllSizes hset hst.valid).2.2 b hb⟩
  · have hnone := hX.fixed_isSome t.index
    rw [hb, hvariable] at hnone
    exact absurd hnone (by simp)
  · rw [hclear, (hX.clear st.index).fixed] at hb
    rw [h.zfp]
    exact hkeeps.rate hexpert b hb

/-- The sizes of the blocks agree with the index and are covered by what is set aside. -/
theorem Keeps.codes {st t : BlockStore T I} {c : Config} {ops : FloatOps S (4 ^ d)}
    {input : ℕ → Input S} (hkeeps : Keeps V ops st c input) (h : Configured S d X st t c) {i : ℕ}
    (hi : i < blocks d t.size) :
    ¬ unpadded ops t.zfp (((input i).source d t.size i).values d) ∧
      (codeOf ops t input i).length ≤ blockMaxbits S d t.zfp ∧
      (t.zfp.minbits = t.zfp.maxbits → (codeOf ops t input i).length = t.zfp.maxbits) := by
  have hside := hkeeps.side
  rw [h.size] at hi
  have hun := hkeeps.padded i hi
  rw [← h.zfp] at hside hun
  rw [← h.size] at hun
  exact ⟨hun, length_blockCode_bound ops t.zfp hside _, fun hrate =>
    length_blockCode_of_fixed ops t.zfp hrate hside hun⟩

end

/-! ## Ranges -/

theorem eight_mul_wordBytes (o : ℕ) : 8 * wordBytes T o = wordEnd T o := by
  rw [wordBytes, wordEnd, Nat.mul_left_comm, Nat.mul_div_cancel' (eight_dvd_wsize T)]

theorem le_wordEnd (o : ℕ) : o ≤ wordEnd T o := by
  rw [← add_flushCount]
  exact Nat.le_add_right _ _

/-- No bit lies in both ranges; a range is given by its offset and its size. -/
def Apart (r r' : ℕ × ℕ) : Prop := ∀ x, r.1 ≤ x ∧ x < r.1 + r.2 → ¬ (r'.1 ≤ x ∧ x < r'.1 + r'.2)

/-- Encoding all blocks in order and flushing the index puts the blocks to disjoint ranges of bits
inside the buffer, and each of them is decoded from its range. -/
def RangesKept (X : IndexOps I) (ops : FloatOps S (4 ^ d)) (t : BlockStore T I)
    (input : ℕ → Input S) : Prop :=
  ∀ u ranges v, t.encodeAll X ops input (blocks d t.size) = .ok (u, ranges) → u.flush X = .ok v →
    ranges.length = blocks d t.size ∧
    ranges.Pairwise Apart ∧
    (∀ r ∈ ranges, r.1 + r.2 ≤ 8 * v.bytes) ∧
    ∀ (i : ℕ) (hi : i < ranges.length) (block : ℕ → BitVec S.width),
      v.offset X i = ranges[i].1 ∧ (v.decode X ops i block).1 = ranges[i].2 ∧
        streamRtell (zfpDecodeBlock ops v.zfp (streamRseek v.stream (v.offset X i)) block).2.1 =
          ranges[i].1 + ranges[i].2

theorem decode_fst (X : IndexOps I) (ops : FloatOps S (4 ^ d)) (st : BlockStore T I) (i n : ℕ)
    (h : ∀ out, (zfpDecodeBlock ops st.zfp (streamRseek st.stream (st.offset X i)) out).1 = n)
    (block : ℕ → BitVec S.width) : (st.decode X ops i block).1 = n := by
  rw [decode, decodeBlock]
  split
  · exact h fun _ => 0
  · exact h block

theorem pairwise_ranges (ops : FloatOps S (4 ^ d)) (st : BlockStore T I) (input : ℕ → Input S)
    (n : ℕ) : ((List.range n).map fun i =>
      ((codesOf ops st input i).length, (codeOf ops st input i).length)).Pairwise Apart := by
  rw [List.pairwise_map]
  refine List.Pairwise.imp (fun {i j} hij => ?_) List.pairwise_lt_range
  have hle := length_codesOf_mono ops st input (show i + 1 ≤ j from hij)
  rw [codesOf_succ, List.length_append] at hle
  intro x hx hx'
  have hend := hx.2
  have hstart := hx'.1
  dsimp only at hend hstart
  omega

section

variable {X : IndexOps I} {V : IndexView I} (hX : IndexSpec X V) (ops : FloatOps S (4 ^ d))
  {st t : BlockStore T I} {c : Config} (hconfig : Configured S d X st t c)
  (hst : Consistent V d st) {input : ℕ → Input S} (hkeeps : Keeps V ops st c input)

include hX hconfig hst hkeeps

/-- The sizes that the index is told are those that it relies on. -/
theorem agrees_of_keeps : V.Agrees t.index (sizesOf ops t input) := by
  intro b hb i hi
  obtain ⟨hrate, rfl⟩ := hconfig.fixed hX hst hkeeps hb
  rw [(hconfig.fresh hX hst).2.blocks] at hi
  rw [sizesOf, (hkeeps.codes hconfig hi).2.2 hrate]

omit hX hst in
theorem length_codesOf_bound : (codesOf ops t input (blocks d t.size)).length ≤
      blocks d t.size * blockMaxbits S d t.zfp ∧
    (codesOf ops t input (blocks d t.size)).length < 2 ^ 64 := by
  have hle := length_codesOf_le ops t input (n := blocks d t.size) fun i hi =>
    (hkeeps.codes hconfig hi).2.1
  have hfits := hkeeps.fits
  have hpos := wsize_pos T
  rw [Fits, ← hconfig.zfp, ← hconfig.size] at hfits
  exact ⟨hle, by omega⟩

omit hX in
/-- The buffer has room for all codes. -/
theorem length_codesOf_le_bytes (hd : 1 ≤ d) (hd' : d ≤ 4) :
    (codesOf ops t input (blocks d t.size)).length ≤ 8 * t.bytes := by
  obtain ⟨hbound, -⟩ := length_codesOf_bound ops hconfig hkeeps
  have hfits := hkeeps.fits
  rw [← hconfig.zfp, ← hconfig.size] at hfits
  have hsized : Sized d t.size := by
    rw [hconfig.size]
    exact hst.sized
  have hbytes := wordBytes_le_bufferSize hd hd' hsized hfits hbound
  rw [← hconfig.bytes] at hbytes
  calc (codesOf ops t input (blocks d t.size)).length
      ≤ 8 * wordBytes T (codesOf ops t input (blocks d t.size)).length := by
        rw [eight_mul_wordBytes]
        exact le_wordEnd _
    _ ≤ 8 * t.bytes := Nat.mul_le_mul_left 8 hbytes

omit hX hst in
/-- A stored block is decoded from its range. -/
theorem decode_of_stored (hd : 1 ≤ d) (hd' : d ≤ 4) {u : BlockStore T I} {ranges : List (ℕ × ℕ)}
    (hstored : Stored ops t u input (blocks d t.size) ranges) (hzfp : u.zfp = t.zfp) {i : ℕ}
    (hi : i < blocks d t.size) (out : ℕ → BitVec S.width) :
    (zfpDecodeBlock ops u.zfp (streamRseek u.stream (codesOf ops t input i).length) out).1 =
        (codeOf ops t input i).length ∧
      (zfpDecodeBlock ops u.zfp (streamRseek u.stream (codesOf ops t input i).length) out).2.1 =
        streamRseek u.stream ((codesOf ops t input i).length + (codeOf ops t input i).length) := by
  rw [hzfp]
  exact zfpDecodeBlock_rseek ops t.zfp hd hd' out (reads_codeOf ops t input hi hstored.reads)
    (hkeeps.codes hconfig hi).1

/-- All ranges follow from the codes. -/
theorem rangesKept_of_keeps (hd : 1 ≤ d) (hd' : d ≤ 4) : RangesKept X ops t input := by
  obtain ⟨hfresh, hcons⟩ := hconfig.fresh hX hst
  have hagree := agrees_of_keeps hX ops hconfig hst hkeeps
  obtain ⟨-, hlt⟩ := length_codesOf_bound ops hconfig hkeeps
  have hbytes := length_codesOf_le_bytes ops hconfig hst hkeeps hd hd'
  intro u ranges v hu hv
  rw [← hcons.blocks] at hu hlt
  have hstored := encodeAll_stored hX hd' hfresh hagree (Nat.le_refl _) hlt hu
  obtain ⟨hoffset, -⟩ := offset_flush hX hd' hfresh hagree hlt hu hv
  obtain ⟨-, hkept⟩ := encodeAll_ok ops hd' hu
  obtain ⟨index, -, rfl⟩ := (map_eq_ok_iff _ _ _).mp hv
  rw [hcons.blocks] at hstored hoffset
  have hlength : ranges.length = blocks d t.size := by
    rw [hstored.ranges_eq, List.length_map, List.length_range]
  refine ⟨hlength, ?_, fun r hr => ?_, fun i hi block => ?_⟩
  · rw [hstored.ranges_eq]
    exact pairwise_ranges ops t input _
  · rw [hstored.ranges_eq, List.mem_map] at hr
    obtain ⟨i, hi, rfl⟩ := hr
    have hmono := length_codesOf_mono ops t input (show i + 1 ≤ blocks d t.size from
      List.mem_range.mp hi)
    rw [codesOf_succ, List.length_append] at hmono
    rw [← hkept.bytes] at hbytes
    exact hmono.trans hbytes
  · have hi' : i < blocks d t.size := hlength ▸ hi
    have hdecode := decode_of_stored ops hconfig hkeeps hd hd' hstored hkept.zfp hi'
    have hrange : ranges[i] =
        ((codesOf ops t input i).length, (codeOf ops t input i).length) := by
      simp only [hstored.ranges_eq, List.getElem_map, List.getElem_range]
    rw [hrange]
    refine ⟨hoffset i hi', decode_fst X ops _ i _ (fun out => ?_) block, ?_⟩
    · rw [hoffset i hi']
      exact (hdecode out).1
    · rw [hoffset i hi', (hdecode block).2, streamRtell_rseek]

end

/-- After any run of a store over any index, and a configuration that keeps codec and index in step,
the blocks are encoded to disjoint ranges inside the buffer and decoded from them; and all of them
are encoded if the index can represent their sizes. -/
theorem ranges_kept (hd : 1 ≤ d) (hd' : d ≤ 4) (k : IndexKind) (ops : FloatOps S (4 ^ d))
    (n : ℕ → ℕ) (garbage : k.State) {l : List (Op S)} {c : Config}
    {st t : BlockStore T k.State}
    (hrun : run (k.ops d) ops (create d (k.ops d) T garbage n) l = .ok st)
    (hconfig : setConfig S d (k.ops d) st c = .ok t) {input : ℕ → Input S}
    (hkeeps : Keeps (k.view d) ops st c input) :
    RangesKept (k.ops d) ops t input ∧
      ((k.view d).Admissible (sizesOf ops t input) (blocks d t.size) →
        ∃ u ranges v, t.encodeAll (k.ops d) ops input (blocks d t.size) = .ok (u, ranges) ∧
          u.flush (k.ops d) = .ok v) := by
  have hX := k.spec ⟨hd, hd'⟩
  have hst := run_consistent hX hrun (consistent_create hX n garbage)
  have hdone := setConfig_ok hconfig
  refine ⟨rangesKept_of_keeps hX ops hdone hst hkeeps hd hd', fun hadm => ?_⟩
  obtain ⟨hfresh, hcons⟩ := hdone.fresh hX hst
  rw [← hcons.blocks] at hadm ⊢
  obtain ⟨index, index', hsizes, hflush⟩ := hX.total hfresh hadm
  obtain ⟨u, ranges, hu, hindex, -⟩ | ⟨e, -, he⟩ :=
    encodeAll_cases (X := k.ops d) ops hd' t input ((k.view d).blocks t.index)
  · rw [hsizes] at hindex
    refine ⟨u, ranges, { u with index := index' }, hu, ?_⟩
    rw [flush, ← Except.ok.inj hindex, hflush]
    rfl
  · rw [hsizes] at he
    cases he

/-- A rate of two words for each block, blocks that are encoded, then an expert configuration that
keeps the size of the blocks. -/
theorem ranges_kept_rate :
    let X := IndexKind.implicit.ops 1
    let ops := onesOps
    let input : ℕ → Input .float := fun _ => .block ones
    ∃ st t u ranges v, run X ops (create 1 X .uint64 ⟨0, 0⟩ fun _ => 8)
        [.config (.fixedRate 128 true), .encode 1 (.block ones), .flush] = .ok st ∧
      setConfig .float 1 X st (.expert 128 128 64 (-1074)) = .ok t ∧ RangesKept X ops t input ∧
      t.encodeAll X ops input (blocks 1 t.size) = .ok (u, ranges) ∧ u.flush X = .ok v := by
  intro X ops input
  obtain ⟨st, hst⟩ : ∃ st, run X ops (create 1 X .uint64 ⟨0, 0⟩ fun _ => 8)
      [.config (.fixedRate 128 true), .encode 1 (.block ones), .flush] = .ok st := ⟨_, rfl⟩
  obtain ⟨t, ht⟩ : ∃ t, setConfig .float 1 X st (.expert 128 128 64 (-1074)) = .ok t := ⟨_, rfl⟩
  have hindex : st.index = ⟨2, 128⟩ ∧ blocks 1 st.size = 2 := by
    cases hst
    exact ⟨rfl, by decide⟩
  have hparams : (Config.expert 128 128 64 (-1074)).params .uint64 .float st.zfp =
      ⟨128, 128, 64, -1074, by decide, by decide, by decide, by decide⟩ := rfl
  have hkeeps : Keeps (IndexKind.implicit.view 1) ops st (.expert 128 128 64 (-1074)) input := by
    refine ⟨fun _ b hb => ?_, ?_, fun i _ h => ?_, ?_⟩
    · rw [hindex.1] at hb
      cases hb
      exact ⟨rfl, rfl⟩
    · rw [hparams]
      decide
    · rw [hparams] at h
      exact absurd h.2.1 (by decide)
    · rw [hparams, Fits, hindex.2]
      decide
  obtain ⟨hranges, htotal⟩ := ranges_kept (by decide) (by decide) .implicit ops (fun _ => 8) ⟨0, 0⟩
    hst ht hkeeps
  obtain ⟨u, ranges, v, hu, hv⟩ := htotal trivial
  exact ⟨st, t, u, ranges, v, hst, ht, hranges, hu, hv⟩

/-- An expert configuration with blocks of a word does not reach the index: both blocks are put to
the first word. -/
theorem ranges_overlap :
    let X := IndexKind.implicit.ops 1
    ∃ t u v, setConfig .float 1 X (create 1 X .uint64 ⟨0, 0⟩ fun _ => 8)
        (.expert 64 64 64 (-1074)) = .ok t ∧
      t.encodeAll X onesOps (fun _ => .block ones) (blocks 1 t.size) =
        .ok (u, [(0, 64), (0, 64)]) ∧
      u.flush X = .ok v ∧ ¬ RangesKept X onesOps t fun _ => .block ones := by
  intro X
  obtain ⟨t, ht⟩ : ∃ t, setConfig .float 1 X (create 1 X .uint64 ⟨0, 0⟩ fun _ => 8)
      (.expert 64 64 64 (-1074)) = .ok t := ⟨_, rfl⟩
  have hzfp : t.zfp.minbits = 64 ∧ t.zfp.maxbits = 64 ∧ REVERSIBLE t.zfp = false ∧
      t.index = ⟨2, 0⟩ ∧ blocks 1 t.size = 2 := by
    cases ht
    exact ⟨rfl, rfl, by decide, rfl, by decide⟩
  obtain ⟨hmin, hmax, hlossy, hindex, hblocks⟩ := hzfp
  have hlen : ∀ i, (codeOf onesOps t (fun _ => .block ones) i).length = 64 := by
    intro i
    rw [codeOf, length_blockCode_of_fixed onesOps t.zfp (hmin.trans hmax.symm) ?_ ?_, hmax]
    · rw [hlossy, hmax]
      decide
    · exact fun h => absurd (hlossy.symm.trans h.2.1) (by decide)
  have hnext : ∀ (u : BlockStore .uint64 Implicit) ranges i, Kept t u → u.index = t.index →
      ∃ v, encodeNext X onesOps i (.block ones) (.ok (u, ranges)) = .ok (v, ranges ++ [(0, 64)]) ∧
        Kept t v ∧ v.index = t.index := by
    intro u ranges i hkept hu
    have hnext := encodeNext_eq (X := X) onesOps (by decide) hkept (fun _ => .block ones) i
      ranges
    have hoffset : u.offset X i = 0 := by
      show (X.blockOffset u.index i).toNat = 0
      rw [hu, hindex]
      exact congrArg BitVec.toNat (BitVec.mul_zero (x := BitVec.ofNat 64 i))
    rw [hoffset, hlen] at hnext
    exact ⟨_, hnext, ⟨hkept.size, hkept.bytes, hkept.zfp⟩, hu⟩
  obtain ⟨u, hu, hkept, hindex'⟩ := hnext t [] 0 ⟨rfl, rfl, rfl⟩ rfl
  obtain ⟨v, hv, -⟩ := hnext u [(0, 64)] 1 hkept hindex'
  have hall : t.encodeAll X onesOps (fun _ => .block ones) (blocks 1 t.size) =
      .ok (v, [(0, 64), (0, 64)]) := by
    rw [hblocks, encodeAll_succ, encodeAll_succ]
    exact (congrArg (encodeNext X onesOps 1 (.block ones)) hu).trans hv
  refine ⟨t, v, v, ht, hall, rfl, fun h => ?_⟩
  have hdisjoint := (h v _ v hall rfl).2.1
  rw [List.pairwise_cons] at hdisjoint
  exact hdisjoint.1 (0, 64) List.mem_cons_self 0 (by decide) (by decide)

end BlockStore

end Zfp

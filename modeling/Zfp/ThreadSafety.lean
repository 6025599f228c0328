import Zfp.BlockStore
import Zfp.CodecPrograms
import Zfp.CodeWindow
import Zfp.FloatCasts
import Zfp.PrivateViews

/-!
# Thread safety of compressed arrays

While an array has more than one private view, its codec works on copies of the bit stream, and
views share the compressed words only. At a fixed rate a block has words of its own, so that the
threads of a partitioned view never get in each other's way.
-/

namespace Zfp
open BitLists Bitstream SharedMemory PrivateView

variable {T : WordType} {S : Scalar}

def Strided.strides (m : Strided) (a : ℕ) : ℤ := if a = 0 then m.sx else if a = 1 then m.sy else m.sz

/-- make a thread-local copy of zfp stream and bit stream, over the words that all threads share -/
def cloneStream (stream : Bitstream T) (mem : ℕ → BitVec (wsize T)) : Bitstream T :=
  { stream with mem := mem }

/-- The words of a fixed-rate array as a block store that is thread-safe. -/
def threadSafeStore (ops : FloatOps S (4 ^ 3)) (zfp : Params) (g : ArraySize)
    (stream : Bitstream T) : Store (ℕ → BitVec (wsize T)) (BitVec S.width) where
  encode mem b block :=
    (encodeBlock ops zfp (cloneStream stream mem) (b * zfp.maxbits) (g.blockShape b) block).2.mem
  encodeStrided mem b p m :=
    (encodeBlockStrided ops zfp (cloneStream stream mem) (b * zfp.maxbits) (g.blockShape b) p m.p
      m.strides).2.mem
  decode mem b block :=
    let r := decodeBlock ops zfp (cloneStream stream mem) (b * zfp.maxbits) (g.blockShape b) block
    (r.2.2, r.2.1.mem)
  decodeStrided mem b p m :=
    let r := decodeBlockStrided ops zfp (cloneStream stream mem) (b * zfp.maxbits)
      (g.blockShape b) p m.p m.strides
    (r.2.2, r.2.1.mem)

def blockWords (T : WordType) (zfp : Params) (b i : ℕ) : Prop :=
  b * (zfp.maxbits / wsize T) ≤ i ∧ i < (b + 1) * (zfp.maxbits / wsize T)

theorem blockWords_unique {zfp : Params} {b b' i : ℕ} (h : blockWords T zfp b i)
    (h' : blockWords T zfp b' i) : b = b' := by
  have hlt := Nat.lt_of_mul_lt_mul_right (h.1.trans_lt h'.2)
  have hlt' := Nat.lt_of_mul_lt_mul_right (h'.1.trans_lt h.2)
  omega

/-! ## The calls of the codec as threads -/

section

variable {d : ℕ} {ops : FloatOps S (4 ^ d)} {zfp : Params} (C : CodecPrograms T ops zfp)

/-- Seek, encode and flush. -/
def encodeThread (offset : ℕ) (block : ℕ → BitVec S.width) : StreamThread T ℕ :=
  (StreamThread.wseek offset).bind fun q =>
    ((C.encode block).thread WriterOp.thread q.2).bind fun q =>
      (StreamThread.flush q.2).bind fun r => .done (q.1, r.2)

/-- Seek, decode and align. -/
def decodeThread (offset : ℕ) (block : ℕ → BitVec S.width) :
    StreamThread T (ℕ × (ℕ → BitVec S.width)) :=
  (StreamThread.rseek offset).bind fun q =>
    ((C.decode block).thread ReaderOp.thread q.2).bind fun q =>
      (StreamThread.align q.2).bind fun r => .done (q.1, r.2)

theorem does_encodeThread (s : Bitstream T) (offset : ℕ) (block : ℕ → BitVec S.width) :
    (encodeThread C offset block).Does Registers.over s.mem (encodeAt ops zfp s offset block) := by
  apply (StreamThread.does_wseek s offset s.mem rfl).bind
    (g := fun _ s => ((zfpEncodeBlock ops zfp s block).1,
      (streamFlush (zfpEncodeBlock ops zfp s block).2).2))
  intro _ r mem
  have hencode := Program.does_thread WriterOp.does_thread (C.encode block) r mem
  rw [C.run_encode] at hencode
  apply hencode.bind (g := fun n s => (n, (streamFlush s).2))
  intro n r mem
  exact (StreamThread.does_flush r mem).bind (g := fun _ s => (n, s)) fun _ _ _ => ⟨rfl, rfl⟩

theorem does_decodeThread (s : Bitstream T) (offset : ℕ) (block : ℕ → BitVec S.width) :
    (decodeThread C offset block).Does Registers.over s.mem
      (middle (decodeAt ops zfp s offset block)) := by
  apply (StreamThread.does_rseek s offset s.mem rfl).bind
    (g := fun _ s => middle ((zfpDecodeBlock ops zfp s block).1,
      (streamAlign (zfpDecodeBlock ops zfp s block).2.1).2, (zfpDecodeBlock ops zfp s block).2.2))
  intro _ r mem
  have hdecode := Program.does_thread ReaderOp.does_thread (C.decode block) r mem
  rw [C.run_decode] at hdecode
  apply hdecode.bind (g := fun a s => (a, (streamAlign s).2))
  intro a r mem
  exact (StreamThread.does_align r mem).bind (g := fun _ s => (a, s)) fun _ _ _ => ⟨rfl, rfl⟩

def encodeBlockThread (offset shape : ℕ) (block : ℕ → BitVec S.width) : StreamThread T ℕ :=
  encodeThread C offset
    (if shape ≠ 0 then gatherBlock d shape (fun z => block z.toNat) 0 contiguous else block)

def decodeBlockThread (offset shape : ℕ) (block : ℕ → BitVec S.width) :
    StreamThread T (ℕ → BitVec S.width) :=
  if shape ≠ 0 then
    (decodeThread C offset fun _ => 0).bind fun q =>
      let mem := scatterPartial q.1.2 (blockDims shape) contiguous d (fun z => block z.toNat) 0 0
      .done (fun i => mem i, q.2)
  else (decodeThread C offset block).bind fun q => .done (q.1.2, q.2)

theorem does_encodeBlockThread (s : Bitstream T) (offset shape : ℕ) (block : ℕ → BitVec S.width) :
    (encodeBlockThread C offset shape block).Does Registers.over s.mem
      (encodeBlock ops zfp s offset shape block) := by
  have hsource : encodeSource ops zfp s offset (.block shape block) = _ :=
    encodeSource_eq ops s offset _
  rw [encodeSource, Source.values] at hsource
  rw [encodeBlockThread, hsource]
  exact does_encodeThread C s offset _

theorem does_decodeBlockThread (s : Bitstream T) (offset shape : ℕ) (block : ℕ → BitVec S.width) :
    (decodeBlockThread C offset shape block).Does Registers.over s.mem
      ((decodeBlock ops zfp s offset shape block).2.2,
        (decodeBlock ops zfp s offset shape block).2.1) := by
  rw [decodeBlockThread, decodeBlock]
  split_ifs with hshape
  · have hdecode := does_decodeThread C s offset fun _ => 0
    rw [decodeBlockStrided, if_pos hshape]
    apply hdecode.bind (g := fun a s => (fun i : ℕ => scatterPartial a.2 (blockDims shape) contiguous
      d (fun z => block z.toNat) 0 0 (i : ℤ), s))
    intro _ _ _
    exact ⟨rfl, rfl⟩
  · apply (does_decodeThread C s offset block).bind (g := fun a s => (a.2, s))
    intro _ _ _
    exact ⟨rfl, rfl⟩

variable (h : FixedRate T S zfp)

include h

variable (ops) in
/-- An encoder stops at the next block. -/
theorem FixedRate.encodeAt_ptr_le (hd : d ≤ 4) (s : Bitstream T) (b : ℕ)
    (block : ℕ → BitVec S.width) :
    (encodeAt ops zfp s (b * zfp.maxbits) block).2.ptr ≤ (b + 1) * (zfp.maxbits / wsize T) := by
  have hlen := h.length_le ops block
  have hnext := h.mul (b + 1)
  rw [Nat.succ_mul] at hnext
  have happended := appended_flush s (b * zfp.maxbits) (blockCode ops zfp block)
  rw [encodeAt, zfpEncodeBlock_eq ops zfp (streamWseek_wf _ _) hd]
  have hend : wordEnd T (b * zfp.maxbits + (blockCode ops zfp block).length) ≤
      (b + 1) * (zfp.maxbits / wsize T) * wsize T := by
    rw [← add_flushCount]
    exact add_flushCount_le (by omega)
  have htell := happended.wtell
  rw [streamWtell] at htell
  dsimp only
  exact Nat.le_of_mul_le_mul_right (by omega) (wsize_pos T)

variable (ops) in
/-- A decoder stops at the next block. -/
theorem FixedRate.decodeAt_ptr_le (hd : d ≤ 4) (s : Bitstream T) (b : ℕ)
    (block : ℕ → BitVec S.width) :
    (decodeAt ops zfp s (b * zfp.maxbits) block).2.1.ptr ≤ (b + 1) * (zfp.maxbits / wsize T) := by
  have hpos := wsize_pos T
  have hnext := h.mul (b + 1)
  rw [Nat.succ_mul] at hnext
  have hwindow : codeWindow S d zfp = zfp.maxbits := if_pos h.side
  obtain ⟨m, hm, n, a, ha, -⟩ := zfpDecodeBlock_within ops hd zfp.minbits_le
    (fun k (_ : k < codeWindow S d zfp) => (rfl : memBit s.mem (b * zfp.maxbits + k) = _)) block
  rw [hwindow] at hm
  rw [decodeAt, ha]
  dsimp only
  rw [streamAlign_rseek, streamRseek_ptr]
  have hword : (b * zfp.maxbits + m + wsize T - 1) / wsize T ≤
      (b + 1) * (zfp.maxbits / wsize T) := by
    rw [← Nat.lt_succ_iff, Nat.div_lt_iff_lt_mul hpos, Nat.succ_mul]
    omega
  have hmul := Nat.mul_le_mul_right (wsize T) hword
  rw [← Nat.lt_succ_iff, Nat.div_lt_iff_lt_mul hpos, Nat.succ_mul]
  omega

/-- The encoder stores the words of its block. -/
theorem FixedRate.within_encodeBlockThread (hd : d ≤ 4) (b shape : ℕ) (block : ℕ → BitVec S.width)
    (mem : ℕ → BitVec (wsize T)) :
    (encodeBlockThread C (b * zfp.maxbits) shape block).Within (blockWords T zfp b) mem := by
  rw [encodeBlockThread]
  generalize (if shape ≠ 0 then gatherBlock d shape (fun z => block z.toNat) 0 contiguous
    else block) = values
  have hend := h.encodeAt_ptr_le ops hd ⟨0, 0, 0, mem⟩ b values
  rw [← (does_encodeThread C ⟨0, 0, 0, mem⟩ (b * zfp.maxbits) values).2] at hend
  rw [encodeThread, h.mul b, StreamThread.wseek_mul] at hend ⊢
  have hstores : StreamThread.Stores
      (((C.encode values).thread WriterOp.thread ⟨0, 0, b * (zfp.maxbits / wsize T)⟩).bind fun q =>
        (StreamThread.flush q.2).bind fun r => .done (q.1, r.2))
      ⟨0, 0, b * (zfp.maxbits / wsize T)⟩ mem := by
    apply (Program.advances_thread (fun β op r mem _ => WriterOp.stores_thread β op r mem)
      (C.encode values) trivial mem).bind
    intro n r mem _
    apply (StreamThread.stores_flush r mem).bind
    intro _ r mem _
    exact .done _ trivial mem
  exact hstores.within.mono fun i hi => ⟨hi.1, hi.2.trans_le hend⟩

/-- The decoder loads the words of its block. -/
theorem FixedRate.within_decodeThread (hd : d ≤ 4) (b : ℕ) (block : ℕ → BitVec S.width)
    (mem : ℕ → BitVec (wsize T)) :
    (decodeThread C (b * zfp.maxbits) block).Within (blockWords T zfp b) mem := by
  have hend := h.decodeAt_ptr_le ops hd ⟨0, 0, 0, mem⟩ b block
  have hdoes : _ = (decodeAt ops zfp ⟨0, 0, 0, mem⟩ (b * zfp.maxbits) block).2.1 :=
    (does_decodeThread C ⟨0, 0, 0, mem⟩ (b * zfp.maxbits) block).2
  rw [← hdoes, decodeThread, h.mul b, StreamThread.rseek_mul] at hend
  rw [decodeThread, h.mul b, StreamThread.rseek_mul]
  have hloads : StreamThread.Loads
      (((C.decode block).thread ReaderOp.thread ⟨0, 0, b * (zfp.maxbits / wsize T)⟩).bind fun q =>
        (StreamThread.align q.2).bind fun r => .done (q.1, r.2))
      ⟨0, 0, b * (zfp.maxbits / wsize T)⟩ mem := by
    have hstart : StreamThread.Reading (⟨0, 0, b * (zfp.maxbits / wsize T)⟩ : Registers T) :=
      wsize_pos T
    apply (Program.advances_thread ReaderOp.loads_thread (C.decode block) hstart mem).bind
    intro a r mem hr
    apply (StreamThread.loads_align hr mem).bind
    intro _ r mem hr
    exact .done _ hr mem
  exact hloads.within.mono fun i hi => ⟨hi.1, hi.2.trans_le hend⟩

theorem FixedRate.within_decodeBlockThread (hd : d ≤ 4) (b shape : ℕ) (block : ℕ → BitVec S.width)
    (mem : ℕ → BitVec (wsize T)) :
    (decodeBlockThread C (b * zfp.maxbits) shape block).Within (blockWords T zfp b) mem := by
  rw [decodeBlockThread]
  split_ifs
  · exact (h.within_decodeThread C hd b _ mem).bind trivial
  · exact (h.within_decodeThread C hd b block mem).bind trivial

end

/-- The calls of the codec as threads: all that they load and store is in the words of the block. -/
def FixedRate.storeThreads {ops : FloatOps S (4 ^ 3)} {zfp : Params} (h : FixedRate T S zfp)
    (C : CodecPrograms T ops zfp) (g : ArraySize) (stream : Bitstream T) :
    StoreThreads (threadSafeStore ops zfp g stream) (blockWords T zfp) where
  encode b block :=
    (encodeBlockThread C (b * zfp.maxbits) (g.blockShape b) block).bind fun _ => .done ()
  decode b block :=
    (decodeBlockThread C (b * zfp.maxbits) (g.blockShape b) block).bind fun q => .done q.1
  alone_encode b block mem := by
    have hdoes := does_encodeBlockThread C (cloneStream stream mem) (b * zfp.maxbits)
      (g.blockShape b) block
    rw [Thread.alone_bind]
    exact Prod.ext rfl (congrArg Bitstream.mem hdoes.2)
  alone_decode b block mem := by
    have hdoes := does_decodeBlockThread C (cloneStream stream mem) (b * zfp.maxbits)
      (g.blockShape b) block
    rw [Thread.alone_bind]
    exact Prod.ext hdoes.1 (congrArg Bitstream.mem hdoes.2)
  within_encode b block mem :=
    (h.within_encodeBlockThread C (by decide) b (g.blockShape b) block mem).bind trivial
  within_decode b block mem :=
    (h.within_decodeBlockThread C (by decide) b (g.blockShape b) block mem).bind trivial

/-! ## Threads with views -/

/-- Elements of the same block. -/
theorem ArraySize.div_eq_of_blockIndex {g : ArraySize} {i j k i' j' k' : ℕ}
    (hx : g.Mem (i, j, k)) (hx' : g.Mem (i', j', k'))
    (h : g.blockIndex i j k = g.blockIndex i' j' k') :
    i / 4 = i' / 4 ∧ j / 4 = j' / 4 ∧ k / 4 = k' / 4 := by
  obtain ⟨hi, hj, -⟩ : i < g.nx ∧ j < g.ny ∧ k < g.nz := hx
  obtain ⟨hi', hj', -⟩ : i' < g.nx ∧ j' < g.ny ∧ k' < g.nz := hx'
  obtain ⟨hcx, hcy, hcz⟩ := div_mod_add_mul (c := k / 4) (n := g.bx) (m := g.by')
    (show i / 4 < _ by rw [bx]; omega) (show j / 4 < _ by rw [by']; omega)
  obtain ⟨hcx', hcy', hcz'⟩ := div_mod_add_mul (c := k' / 4) (n := g.bx) (m := g.by')
    (show i' / 4 < _ by rw [bx]; omega) (show j' / 4 < _ by rw [by']; omega)
  rw [blockIndex, blockIndex] at h
  rw [h] at hcx hcy hcz
  exact ⟨hcx.symm.trans hcx', hcy.symm.trans hcy', hcz.symm.trans hcz'⟩

/-- The pieces of a view share no block, and they are inside the array if the view is. -/
theorem blockDisjoint_pieces {v : View} {ps : List View} (hps : BlockPartition 3 v ps)
    {g : ArraySize} (hv : Inside g v) :
    (∀ t : Fin ps.length, Inside g (ps.get t)) ∧
      BlockDisjoint g fun t : Fin ps.length => ps.get t := by
  have hinside : ∀ t : Fin ps.length, Inside g (ps.get t) := fun t x hx =>
    hv x ((hps.cover x).mpr ⟨_, List.get_mem ps t, hx⟩)
  refine ⟨hinside, ?_⟩
  have hlt : ∀ t t' : Fin ps.length, t < t' → ∀ b, viewBlocks g (ps.get t) b →
      ¬ viewBlocks g (ps.get t') b := by
    rintro t t' htt' b ⟨x, hx, rfl⟩ ⟨x', hx', hb⟩
    obtain ⟨a, ha, hne⟩ := List.pairwise_iff_get.mp hps.blocks t t' htt' x x' hx hx'
    obtain ⟨h0, h1, h2⟩ := ArraySize.div_eq_of_blockIndex (hinside t x hx) (hinside t' x' hx')
      hb.symm
    obtain rfl | rfl | rfl : a = 0 ∨ a = 1 ∨ a = 2 := by omega
    · exact hne h0
    · exact hne h1
    · exact hne h2
  intro t t' b hb hb'
  rcases lt_trichotomy t t' with h | h | h
  · exact absurd hb' (hlt t t' h b hb)
  · exact h
  · exact absurd hb (hlt t' t h b hb')

/-- Partition a view of a fixed-rate array and give each piece to a thread, with a cache of its own
over the shared words. Whichever operations on the bit stream the codec calls to compute what it
computes, the loads and stores of these operations are the thread's accesses. In every interleaving,
a thread that is done has returned what it returns alone and left the words of its blocks as it
leaves them alone. Words of other blocks do not change, no interleaving goes on forever, and none
stops before all threads are done. -/
theorem private_views_thread_safe (ops : FloatOps S (4 ^ 3)) {zfp : Params}
    (hfixed : FixedRate T S zfp) {g : ArraySize} (hg : g.Small) (cfg : CacheConfig)
    (lineBytes : ℕ) (stream : Bitstream T) {v : View} (hv : Inside g v)
    (hfit : ∀ a < 3, (v a).offset + (v a).size + 3 < 2 ^ 64) {counts : List ℕ}
    (hdiv : v.Divisible 3 counts) {n : Fin (v.leaves 3 counts).length → BitVec 32}
    (hn : ∀ t, (n t).toNat ≤ 2 ^ 31)
    (fresh : Fin (v.leaves 3 counts).length → ℕ → ℕ → BitVec S.width)
    (client : Fin (v.leaves 3 counts).length → Client (BitVec S.width))
    (hclient : ∀ t, (client t).Valid g lineBytes ((v.leaves 3 counts).get t))
    (mem : ℕ → BitVec (wsize T)) :
    Nonempty (CodecPrograms T ops zfp) ∧
      ∀ (C : CodecPrograms T ops zfp) s,
        Relation.ReflTransGen Step
          (system cfg g lineBytes (hfixed.storeThreads C g stream) (v.leaves 3 counts).get n fresh
            client mem) s →
        (∀ t, ∃ r, runView cfg g lineBytes ((v.leaves 3 counts).get t)
            (threadSafeStore ops zfp g stream) (n t) (fresh t) (client t) mem = some r ∧
          ∀ outs, s.thread t = .done outs → outs = some r.1 ∧
            ∀ b, viewBlocks g ((v.leaves 3 counts).get t) b →
              ∀ i, blockWords T zfp b i → s.mem i = r.2.store i) ∧
        (∀ i, (∀ t b, viewBlocks g ((v.leaves 3 counts).get t) b → ¬ blockWords T zfp b i) →
          s.mem i = mem i) ∧
        Acc (fun s' s => Step s s') s ∧
        ((∀ t, ∃ outs, s.thread t = .done outs) ∨ ∃ s', Step s s') := by
  refine ⟨nonempty_codecPrograms ops zfp (by decide), fun C s hsteps => ?_⟩
  obtain ⟨hinside, hdisj⟩ :=
    blockDisjoint_pieces (blockPartition_leaves (by decide) (by decide) hfit hdiv) hv
  have hsep := separated_system cfg g lineBytes (hfixed.storeThreads C g stream) hg
    (fun b b' i => blockWords_unique) hinside hdisj n fresh hclient mem
  have halone := AsAlone.steps hsep hsteps
  refine ⟨?_, ?_, halone.separated.terminates, done_or_step s⟩
  · intro t
    obtain ⟨r, hr⟩ := runView_isSome cfg g lineBytes ((v.leaves 3 counts).get t)
      (threadSafeStore ops zfp g stream) hg (hn t) (fresh t) (hclient t) mem
    have hthread := alone_viewThread cfg g lineBytes ((v.leaves 3 counts).get t)
      (hfixed.storeThreads C g stream) hr
    refine ⟨r, hr, fun outs ht => ⟨?_, ?_⟩⟩
    · rw [halone.done ht]
      exact congrArg Prod.fst hthread
    · intro b hb i hi
      rw [halone.mem_done ht ⟨b, hb, hi⟩]
      exact congrFun (congrArg Prod.snd hthread) i
  · intro i hi
    apply halone.rest
    rintro t ⟨b, hb, hbi⟩
    exact hi t b hb hbi

/-- Two threads share an array of two blocks: each sets an element of its half and flushes. -/
theorem private_views_thread_safe_halves :
    let g : ArraySize := ⟨8, 4, 4⟩
    let v : View := fun a => if a = 0 then ⟨0, 8⟩ else ⟨0, 4⟩
    let zfp := zfpStreamSetRate .uint64 .float 512 true
    let ops : FloatOps .float (4 ^ 3) := ieeeOps .float (4 ^ 3)
    let stream : Bitstream .uint64 := streamOpen fun _ => 0
    let st := threadSafeStore ops zfp g stream
    let client : Client (BitVec 32) :=
      .op (.set 1 2 3 0x3f800000) fun _ => .op .flushCache fun _ => .done
    ∃ hfixed : FixedRate .uint64 .float zfp, Nonempty (CodecPrograms .uint64 ops zfp) ∧
      ∀ (C : CodecPrograms .uint64 ops zfp) s,
        Relation.ReflTransGen Step (system ⟨false, false⟩ g 256 (hfixed.storeThreads C g stream)
          (v.leaves 3 [2]).get (fun _ => 1) (fun _ _ _ => 0) (fun _ => client) fun _ => 0) s →
        (∀ t, ∃ r, runView ⟨false, false⟩ g 256 ((v.leaves 3 [2]).get t) st 1 (fun _ _ => 0) client
            (fun _ => 0) = some r ∧
          ∀ outs, s.thread t = .done outs → ∀ b, viewBlocks g ((v.leaves 3 [2]).get t) b →
            ∀ i, blockWords .uint64 zfp b i → s.mem i = r.2.store i) ∧
        ((∀ t, ∃ outs, s.thread t = .done outs) ∨ ∃ s', Step s s') := by
  intro g v zfp ops stream st client
  have hv : Inside g v := fun x hx =>
    ⟨(hx 0 (by decide)).2, (hx 1 (by decide)).2, (hx 2 (by decide)).2⟩
  have hdiv : v.Divisible 3 [2] := ⟨by decide, by decide, fun _ _ => trivial⟩
  have hsize : ∀ t : Fin (v.leaves 3 [2]).length, 1 < ((v.leaves 3 [2]).get t 0).size ∧
      2 < ((v.leaves 3 [2]).get t 1).size ∧ 3 < ((v.leaves 3 [2]).get t 2).size := by decide
  have hfixed : FixedRate .uint64 .float zfp := ⟨rfl, by decide, by decide, by decide⟩
  obtain ⟨hprograms, hsafe⟩ := private_views_thread_safe ops hfixed
    (show ArraySize.Small g by decide) ⟨false, false⟩ 256 stream hv (by decide) hdiv
    (n := fun _ => 1) (fun _ => by decide) (fun _ _ _ => 0) (fun _ => client)
    (fun t => ⟨hsize t, fun _ => ⟨trivial, fun _ => trivial⟩⟩) fun _ => 0
  refine ⟨hfixed, hprograms, fun C s hsteps => ?_⟩
  obtain ⟨hdone, -, -, hprogress⟩ := hsafe C s hsteps
  refine ⟨fun t => ?_, hprogress⟩
  obtain ⟨r, hr, hend⟩ := hdone t
  exact ⟨r, hr, fun outs ht => (hend outs ht).2⟩

end Zfp

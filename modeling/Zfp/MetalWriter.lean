import Zfp.Interleaving
import Zfp.PlacedBits

/-!
# The block writer of the Metal kernels

A writer sets bits in a stream of zeros. In one mode it collects them in a buffer and sets the bits
of a 64-bit word by a load and a store; in the other one it sets the bits of 32-bit words
atomically. The stream is never read otherwise, so a writer is a list of accesses. The offset of a
block, a product of two `uint`, fits a `ulong`, but the index of a word is a `uint`.
-/

namespace Zfp.Metal
open BitLists Interleaving

/-- Shift counts are taken modulo the width. -/
def shl (x : BitVec 64) (n : ℕ) : BitVec 64 := x <<< (n % 64)

def shr (x : BitVec 64) (n : ℕ) : BitVec 64 := x >>> (n % 64)

theorem shl_of_lt (x : BitVec 64) {n : ℕ} (h : n < 64) : shl x n = x <<< n := by
  rw [shl, Nat.mod_eq_of_lt h]

theorem shr_of_lt (x : BitVec 64) {n : ℕ} (h : n < 64) : shr x n = x >>> n := by
  rw [shr, Nat.mod_eq_of_lt h]

/-! ## `ZfpBlockWriter1` -/

inductive Access
  /-- `stream64[i] |= v` -/
  | word (i : ℕ) (v : BitVec 64)
  /-- an atomic OR of `v` to the 32-bit word `i` -/
  | atomic (i : ℕ) (v : BitVec 32)

structure ZfpBlockWriter1 where
  /-- 64-bit accumulation buffer -/
  buf : BitVec 64
  /-- how many valid bits in buf (0..64) -/
  bufBits : ℕ
  /-- current 64-bit word index in stream -/
  wi64 : ℕ
  /-- absolute bit offset (for atomic mode) -/
  startBit : ℕ
  /-- bits written so far -/
  totalBits : ℕ
  atomicMode : Bool
  accesses : List Access

def zfpMakeWriter1 (maxbits blockIdx : ℕ) (atomicMode : Bool) : ZfpBlockWriter1 :=
  let bit0 := blockIdx * maxbits
  if !atomicMode then ⟨0, bit0 % 64, bit0 / 64 % 2 ^ 32, bit0, 0, false, []⟩
  else ⟨0, 0, 0, bit0, 0, true, []⟩

def zfpWriterFlush (w : ZfpBlockWriter1) : ZfpBlockWriter1 :=
  if w.atomicMode = false ∧ 0 < w.bufBits then
    { w with accesses := w.accesses ++ [.word w.wi64 w.buf], buf := 0 }
  else w

/-- Atomic path: write 32-bit chunks via atomic OR. -/
def writeAtomic (pos remaining : ℕ) (val : BitVec 64) : List Access :=
  if remaining ≠ 0 then
    let wi32 := pos / 32 % 2 ^ 32
    let bo := pos % 32
    let chunk := min remaining (32 - bo)
    let cmask := if 32 ≤ chunk then 0xffffffff#64 else shl 1#64 chunk - 1#64
    let part := (shl (val &&& cmask) bo).setWidth 32
    .atomic wi32 part :: writeAtomic (pos + chunk) (remaining - chunk) (shr val chunk)
  else []
termination_by remaining

def zfpWriterWriteBits (w : ZfpBlockWriter1) (bits : BitVec 64) (nbits : ℕ) :
    BitVec 64 × ZfpBlockWriter1 :=
  if nbits = 0 then (bits, w)
  else
    let keep := bits &&& if 64 ≤ nbits then BitVec.allOnes 64 else shl 1#64 nbits - 1#64
    let w :=
      if !w.atomicMode then
        -- fast path: accumulate into 64-bit buffer
        let buf := w.buf ||| shl keep w.bufBits
        let bufBits := w.bufBits + nbits
        if 64 ≤ bufBits then
          let overflow := bufBits - 64
          { w with
            accesses := w.accesses ++ [.word w.wi64 buf]
            wi64 := (w.wi64 + 1) % 2 ^ 32
            buf := if 0 < overflow then shr keep (nbits - overflow) else 0
            bufBits := overflow }
        else { w with buf := buf, bufBits := bufBits }
      else { w with accesses := w.accesses ++ writeAtomic (w.startBit + w.totalBits) nbits keep }
    (shr bits nbits, { w with totalBits := (w.totalBits + nbits) % 2 ^ 32 })

def zfpWriterWriteBit (w : ZfpBlockWriter1) (bit : Bool) : ZfpBlockWriter1 :=
  let bits := (BitVec.ofBool bit).setWidth 64
  if !w.atomicMode then
    let buf := w.buf ||| shl bits w.bufBits
    let bufBits := w.bufBits + 1
    let w :=
      if 64 ≤ bufBits then
        { w with
          accesses := w.accesses ++ [.word w.wi64 buf]
          wi64 := (w.wi64 + 1) % 2 ^ 32
          buf := 0
          bufBits := 0 }
      else { w with buf := buf, bufBits := bufBits }
    { w with totalBits := (w.totalBits + 1) % 2 ^ 32 }
  else (zfpWriterWriteBits w bits 1).2

/-! ## What a writer writes -/

/-- `s'` is the writer `s` after calls that write the bits `l`. -/
inductive Emits (s : ZfpBlockWriter1) : List Bool → ZfpBlockWriter1 → Prop
  | refl : Emits s [] s
  | bits {l : List Bool} {s' : ZfpBlockWriter1} (h : Emits s l s') (v : BitVec 64) {n : ℕ}
      (hn : n ≤ 64) : Emits s (l ++ lowBits v n) (zfpWriterWriteBits s' v n).2
  | bit {l : List Bool} {s' : ZfpBlockWriter1} (h : Emits s l s') (b : Bool) :
      Emits s (l ++ [b]) (zfpWriterWriteBit s' b)

theorem Emits.trans {a b c : ZfpBlockWriter1} {l l' : List Bool} (h : Emits a l b)
    (h' : Emits b l' c) : Emits a (l ++ l') c := by
  induction h' with
  | refl => rwa [List.append_nil]
  | bits _ v hn ih => rw [← List.append_assoc]; exact ih.bits v hn
  | bit _ b ih => rw [← List.append_assoc]; exact ih.bit b

/-- The access as bits set in a 64-bit word. -/
def Access.setBits : Access → ℕ × BitVec 64
  | .word i v => (i, v)
  | .atomic i v => (i / 2, v.setWidth 64 <<< (32 * (i % 2)))

/-- The number of 64-bit words that a `uint` can index. -/
def indexLimit (atomicMode : Bool) : ℕ := if atomicMode then 2 ^ 31 else 2 ^ 32

/-- The access with the index of its word cut off to a `uint`. -/
def truncated (atomicMode : Bool) (a : ℕ × BitVec 64) : ℕ × BitVec 64 :=
  (a.1 % indexLimit atomicMode, a.2)

/-- The low bits that a write keeps. -/
theorem getLsbD_keep (v : BitVec 64) {n : ℕ} (i : ℕ) :
    (v &&& if 64 ≤ n then BitVec.allOnes 64 else shl 1#64 n - 1#64).getLsbD i =
      (decide (i < n) && v.getLsbD i) := by
  rw [BitVec.getLsbD_and, Bool.and_comm]
  split
  · next h =>
    rw [BitVec.getLsbD_allOnes]
    rcases Nat.lt_or_ge i 64 with hi | hi
    · rw [decide_eq_true hi, decide_eq_true (hi.trans_le h)]
    · rw [BitVec.getLsbD_of_ge v i hi, Bool.and_false, Bool.and_false]
  · next h => rw [shl_of_lt _ (by omega), getLsbD_mask (by omega)]

theorem lowBits_keep (v : BitVec 64) (n : ℕ) :
    lowBits (v &&& if 64 ≤ n then BitVec.allOnes 64 else shl 1#64 n - 1#64) n = lowBits v n :=
  lowBits_congr fun i hi => by rw [getLsbD_keep, decide_eq_true hi, Bool.true_and]

/-! ### Accumulated bits -/

/-- The writer of a block at offset `start` has accumulated the bits `l`: full words are stored, the
last bits are in the buffer. -/
structure Buffered (start : ℕ) (l : List Bool) (s : ZfpBlockWriter1) : Prop where
  mode : s.atomicMode = false
  bufBits : s.bufBits = (start + l.length) % 64
  wi64 : s.wi64 = (start + l.length) / 64 % 2 ^ 32
  stored : ∃ t : List (ℕ × BitVec 64), s.accesses = t.map (fun a => .word (a.1 % 2 ^ 32) a.2) ∧
    t.map Prod.fst = List.range' (start / 64) ((start + l.length) / 64 - start / 64) ∧
    ∀ j, union t j ||| (if (start + l.length) / 64 = j then s.buf else 0) = placed 64 start l j

theorem buffered_make (maxbits blockIdx : ℕ) :
    Buffered (blockIdx * maxbits) [] (zfpMakeWriter1 maxbits blockIdx false) :=
  ⟨rfl, rfl, rfl, [], rfl, by simp, fun j => by simp [zfpMakeWriter1]⟩

/-- Bits placed at the end of the buffer. -/
theorem Buffered.push {start : ℕ} {l : List Bool} {s : ZfpBlockWriter1} (h : Buffered start l s)
    {v : BitVec 64} {n : ℕ} (hn : n ≤ 64) (hv : ∀ i, n ≤ i → v.getLsbD i = false)
    {s' : ZfpBlockWriter1} (hmode : s'.atomicMode = false)
    (hstay : s.bufBits + n < 64 → s'.accesses = s.accesses ∧ s'.wi64 = s.wi64 ∧
      s'.bufBits = s.bufBits + n ∧ s'.buf = s.buf ||| v <<< s.bufBits)
    (hnext : 64 ≤ s.bufBits + n →
      s'.accesses = s.accesses ++ [.word s.wi64 (s.buf ||| v <<< s.bufBits)] ∧
      s'.wi64 = (s.wi64 + 1) % 2 ^ 32 ∧ s'.bufBits = s.bufBits + n - 64 ∧
      s'.buf = v >>> (64 - s.bufBits)) : Buffered start (l ++ lowBits v n) s' := by
  obtain ⟨t, haccesses, hwords, hunion⟩ := h.stored
  have hbuf := h.bufBits
  have hwi := h.wi64
  have hlen : start + (l ++ lowBits v n).length = start + l.length + n := by
    rw [List.length_append, length_lowBits, Nat.add_assoc]
  have hplaced := placed_lowBits (v := v) hn (Nat.mod_lt (start + l.length) (by decide)) hv
    ((start + l.length) / 64)
  rw [Nat.div_add_mod'] at hplaced
  rcases Nat.lt_or_ge (s.bufBits + n) 64 with hlt | hge
  · obtain ⟨ha, hw, hb, hbuf'⟩ := hstay hlt
    have hdiv : (start + l.length + n) / 64 = (start + l.length) / 64 := by omega
    have hmod : (start + l.length + n) % 64 = (start + l.length) % 64 + n := by omega
    refine ⟨hmode, by rw [hb, hlen, hmod, hbuf], by rw [hw, hlen, hdiv, hwi],
      t, ha.trans haccesses, by rw [hlen, hdiv, hwords], fun j => ?_⟩
    have hhigh : v >>> (64 - (start + l.length) % 64) = 0 := by
      refine eq_zero_iff_getLsbD.mpr fun i _ => ?_
      rw [BitVec.getLsbD_ushiftRight, hv _ (by omega)]
    rw [placed_append_or, ← hunion, hplaced, hlen, hdiv, hbuf', hbuf, hhigh, ite_self,
      BitVec.or_assoc, BitVec.ofNat_eq_ofNat, BitVec.add_zero]
    split_ifs <;> simp
  · obtain ⟨ha, hw, hb, hbuf'⟩ := hnext hge
    have hdiv : (start + l.length + n) / 64 = (start + l.length) / 64 + 1 := by omega
    have hmod : (start + l.length + n) % 64 = (start + l.length) % 64 + n - 64 := by omega
    refine ⟨hmode, by rw [hb, hlen, hmod, hbuf], by rw [hw, hlen, hdiv, hwi]; omega,
      t ++ [((start + l.length) / 64, s.buf ||| v <<< s.bufBits)], ?_, ?_, fun j => ?_⟩
    · rw [ha, haccesses, List.map_append, List.map_singleton, hwi]
    · have hle : start / 64 ≤ (start + l.length) / 64 := Nat.div_le_div_right (Nat.le_add_right _ _)
      rw [hlen, hdiv, List.map_append, List.map_singleton, hwords, Nat.succ_sub hle,
        List.range'_concat, Nat.one_mul, Nat.add_sub_cancel' hle]
    · rw [placed_append_or, ← hunion, hplaced, hlen, hdiv, union_append, union_cons, union_nil,
        hbuf', hbuf]
      by_cases hj : (start + l.length) / 64 = j
      · simp [hj, BitVec.or_assoc]
      · simp [hj]

theorem Buffered.writeBits {start : ℕ} {l : List Bool} {s : ZfpBlockWriter1}
    (h : Buffered start l s) (v : BitVec 64) {n : ℕ} (hn : n ≤ 64) :
    Buffered start (l ++ lowBits v n) (zfpWriterWriteBits s v n).2 := by
  rcases Nat.eq_zero_or_pos n with rfl | hn0
  · rw [zfpWriterWriteBits, if_pos rfl, lowBits_zero, List.append_nil]
    exact h
  have hlt : s.bufBits < 64 := by rw [h.bufBits]; exact Nat.mod_lt _ (by decide)
  have hzero : ∀ i, n ≤ i → (v &&& if 64 ≤ n then BitVec.allOnes 64 else
      shl 1#64 n - 1#64).getLsbD i = false := fun i hi => by
    rw [getLsbD_keep, decide_eq_false (by omega), Bool.false_and]
  rw [zfpWriterWriteBits, if_neg hn0.ne', ← lowBits_keep]
  generalize (v &&& if 64 ≤ n then BitVec.allOnes 64 else shl 1#64 n - 1#64) = keep at hzero ⊢
  dsimp only
  rw [h.mode, Bool.not_false, if_pos rfl, shl_of_lt _ hlt]
  refine h.push hn hzero ?_ (fun hstay => ?_) fun hnext => ?_
  · split_ifs <;> rfl
  · rw [if_neg (by omega)]
    exact ⟨rfl, rfl, rfl, rfl⟩
  · rw [if_pos hnext]
    refine ⟨rfl, rfl, rfl, ?_⟩
    dsimp only
    split
    · have hshift : n - (s.bufBits + n - 64) = 64 - s.bufBits := by omega
      rw [hshift, shr_of_lt _ (by omega)]
    · refine (eq_zero_iff_getLsbD.mpr fun i _ => ?_).symm
      rw [BitVec.getLsbD_ushiftRight, hzero _ (by omega)]

theorem Buffered.writeBit {start : ℕ} {l : List Bool} {s : ZfpBlockWriter1}
    (h : Buffered start l s) (b : Bool) : Buffered start (l ++ [b]) (zfpWriterWriteBit s b) := by
  have hlt : s.bufBits < 64 := by rw [h.bufBits]; exact Nat.mod_lt _ (by decide)
  have hv : ∀ i, ((BitVec.ofBool b).setWidth 64).getLsbD i = (decide (i = 0) && b) := by
    intro i
    have h := getLsbD_ofBool_shiftLeft (w := 64) b (show 0 < 64 by decide) i
    rwa [BitVec.shiftLeft_zero] at h
  have hlow : [b] = lowBits ((BitVec.ofBool b).setWidth 64) 1 := by
    rw [lowBits_succ, lowBits_zero, hv]
    rfl
  have hzero : ∀ i, 1 ≤ i → ((BitVec.ofBool b).setWidth 64).getLsbD i = false := fun i hi => by
    rw [hv, decide_eq_false (by omega), Bool.false_and]
  rw [zfpWriterWriteBit, hlow]
  dsimp only
  rw [h.mode, Bool.not_false, if_pos rfl, shl_of_lt _ hlt]
  refine h.push (by decide) hzero ?_ (fun hstay => ?_) fun hnext => ?_
  · split_ifs <;> rfl
  · rw [if_neg (by omega)]
    exact ⟨rfl, rfl, rfl, rfl⟩
  · rw [if_pos hnext]
    refine ⟨rfl, rfl, by dsimp only; omega, ?_⟩
    refine (eq_zero_iff_getLsbD.mpr fun i _ => ?_).symm
    rw [BitVec.getLsbD_ushiftRight, hzero _ (by omega)]

theorem Emits.buffered {start : ℕ} {s s' : ZfpBlockWriter1} {l : List Bool} (h : Emits s l s')
    (hs : Buffered start [] s) : Buffered start l s' := by
  induction h with
  | refl => exact hs
  | bits _ v hn ih => exact ih.writeBits v hn
  | bit _ b ih => exact ih.writeBit b

/-- The accesses of a whole block: one for each word from that of the first bit to that of the last
bit. -/
theorem Buffered.flush {start : ℕ} {l : List Bool} {s : ZfpBlockWriter1} (h : Buffered start l s) :
    ∃ t : List (ℕ × BitVec 64),
      (zfpWriterFlush s).accesses = t.map (fun a => .word (a.1 % 2 ^ 32) a.2) ∧
      t.map Prod.fst = List.range' (start / 64) ((start + l.length + 63) / 64 - start / 64) ∧
      ∀ j, union t j = placed 64 start l j := by
  obtain ⟨t, haccesses, hwords, hunion⟩ := h.stored
  have hbuf := h.bufBits
  have hle : start / 64 ≤ (start + l.length) / 64 := Nat.div_le_div_right (Nat.le_add_right _ _)
  rw [zfpWriterFlush]
  split
  · next hflush =>
    have hup : (start + l.length + 63) / 64 = (start + l.length) / 64 + 1 := by omega
    refine ⟨t ++ [((start + l.length) / 64, s.buf)], ?_, ?_, fun j => ?_⟩
    · rw [haccesses, List.map_append, List.map_singleton, h.wi64]
    · rw [hup, List.map_append, List.map_singleton, hwords, Nat.succ_sub hle, List.range'_concat,
        Nat.one_mul, Nat.add_sub_cancel' hle]
    · rw [← hunion, union_append, union_cons, union_nil, BitVec.ofNat_eq_ofNat, BitVec.or_zero]
  · next hflush =>
    have hmod : (start + l.length) % 64 = 0 := by
      rw [← hbuf]
      by_contra hne
      exact hflush ⟨h.mode, Nat.pos_of_ne_zero hne⟩
    have hup : (start + l.length + 63) / 64 = (start + l.length) / 64 := by omega
    refine ⟨t, haccesses, by rw [hup, hwords], fun j => ?_⟩
    -- the buffer is empty
    have hnone : s.buf = 0 := by
      have hlast := hunion ((start + l.length) / 64)
      have hplaced : placed 64 start l ((start + l.length) / 64) = 0 :=
        placed_eq_zero fun i _ => placedBit_of_ge (by omega)
      rw [if_pos rfl, hplaced] at hlast
      exact (BitVec.or_eq_zero_iff.mp hlast).2
    rw [← hunion, hnone, ite_self, BitVec.ofNat_eq_ofNat, BitVec.or_zero]

/-! ### Atomic chunks -/

/-- The chunks of a write as bits of 64-bit words. -/
theorem writeAtomic_spec (pos n : ℕ) {v : BitVec 64} (hn : n ≤ 64)
    (hv : ∀ i, n ≤ i → v.getLsbD i = false) :
    ∃ t : List (ℕ × BitVec 64),
      (writeAtomic pos n v).map Access.setBits = t.map (fun a => (a.1 % 2 ^ 31, a.2)) ∧
      ∀ j, union t j = placed 64 pos (lowBits v n) j := by
  induction n using Nat.strong_induction_on generalizing pos v with
  | _ n ih =>
    rw [writeAtomic]
    split
    · next hpos =>
      have hchunk : min n (32 - pos % 32) ≤ 32 ∧ 0 < min n (32 - pos % 32) ∧
          min n (32 - pos % 32) ≤ n ∧ pos % 32 + min n (32 - pos % 32) ≤ 32 := by omega
      dsimp only
      generalize min n (32 - pos % 32) = chunk at hchunk ⊢
      have hmask : (if 32 ≤ chunk then 0xffffffff#64 else shl 1#64 chunk - 1#64) =
          1#64 <<< chunk - 1#64 := by
        split
        · obtain rfl : chunk = 32 := by omega
          decide
        · rw [shl_of_lt _ (by omega)]
      have hlow : ∀ i, (v &&& (1#64 <<< chunk - 1#64)).getLsbD i =
          (decide (i < chunk) && v.getLsbD i) := fun i => by
        rw [BitVec.getLsbD_and, getLsbD_mask (by omega), Bool.and_comm]
      obtain ⟨t, ht, hunion⟩ := ih (n - chunk) (by omega) (pos + chunk) (v := v >>> chunk) (by omega)
        fun i hi => by rw [BitVec.getLsbD_ushiftRight, hv _ (by omega)]
      rw [hmask, shl_of_lt _ (by omega), shr_of_lt _ (by omega)]
      refine ⟨(pos / 64, (v &&& (1#64 <<< chunk - 1#64)) <<< (pos % 64)) :: t, ?_, fun j => ?_⟩
      · rw [List.map_cons, List.map_cons, ht, Access.setBits]
        congr 2
        · omega
        · -- a chunk lies in one half of a word
          apply BitVec.eq_of_getLsbD_eq
          intro i hi
          have hhalf : pos % 64 = 32 * (pos / 32 % 2 ^ 32 % 2) + pos % 32 := by omega
          have hbit : pos / 32 % 2 ^ 32 % 2 ≤ 1 := by omega
          rw [hhalf]
          generalize pos / 32 % 2 ^ 32 % 2 = q at hbit ⊢
          rcases Nat.lt_or_ge i (32 * q + pos % 32) with hlt | hge
          · rw [BitVec.getLsbD_shiftLeft, BitVec.getLsbD_setWidth, BitVec.getLsbD_setWidth,
              BitVec.getLsbD_shiftLeft, BitVec.getLsbD_shiftLeft, decide_eq_true hlt]
            by_cases hq : i < 32 * q
            · rw [decide_eq_true hq]
              simp
            · rw [decide_eq_true (by omega : i - 32 * q < pos % 32)]
              simp
          · obtain ⟨k, rfl⟩ := Nat.exists_eq_add_of_le hge
            have hsub : 32 * q + pos % 32 + k - 32 * q = pos % 32 + k := by omega
            rw [BitVec.getLsbD_shiftLeft, BitVec.getLsbD_setWidth, BitVec.getLsbD_setWidth,
              BitVec.getLsbD_shiftLeft, BitVec.getLsbD_shiftLeft, hsub, Nat.add_sub_cancel_left,
              Nat.add_sub_cancel_left, hlow, decide_eq_false (by omega : ¬ pos % 32 + k < pos % 32),
              decide_eq_false (by omega : ¬ 32 * q + pos % 32 + k < 32 * q),
              decide_eq_false (by omega : ¬ 32 * q + pos % 32 + k < 32 * q + pos % 32)]
            by_cases hk : k < chunk
            · rw [decide_eq_true (by omega : pos % 32 + k < 64),
                decide_eq_true (by omega : pos % 32 + k < 32)]
              rfl
            · rw [decide_eq_false hk]
              simp
      · have hcat : lowBits v n = lowBits (v &&& (1#64 <<< chunk - 1#64)) chunk ++
            lowBits (v >>> chunk) (n - chunk) := by
          have hfirst : lowBits (v &&& (1#64 <<< chunk - 1#64)) chunk = lowBits v chunk :=
            lowBits_congr fun i hi => by rw [hlow, decide_eq_true hi, Bool.true_and]
          rw [hfirst, ← lowBits_add, Nat.add_sub_cancel' hchunk.2.2.1]
        have hplaced := placed_lowBits (v := v &&& (1#64 <<< chunk - 1#64)) (n := chunk) (by omega)
          (Nat.mod_lt pos (by decide))
          (fun i hi => by rw [hlow, decide_eq_false (by omega), Bool.false_and])
          (pos / 64) j
        have hhigh : (v &&& (1#64 <<< chunk - 1#64)) >>> (64 - pos % 64) = 0 := by
          refine eq_zero_iff_getLsbD.mpr fun i _ => ?_
          rw [BitVec.getLsbD_ushiftRight, hlow, decide_eq_false (by omega), Bool.false_and]
        rw [Nat.div_add_mod'] at hplaced
        rw [union_cons, hunion, hcat, placed_append_or, length_lowBits, hplaced, hhigh, ite_self,
          BitVec.ofNat_eq_ofNat, BitVec.add_zero]
    · next hzero =>
      obtain rfl : n = 0 := by omega
      exact ⟨[], rfl, fun j => by simp⟩

/-- The writer of a block at offset `start` has set the bits `l` atomically. -/
structure Chunked (start : ℕ) (l : List Bool) (s : ZfpBlockWriter1) : Prop where
  mode : s.atomicMode = true
  startBit : s.startBit = start
  totalBits : s.totalBits = l.length
  stored : ∃ t : List (ℕ × BitVec 64),
    s.accesses.map Access.setBits = t.map (fun a => (a.1 % 2 ^ 31, a.2)) ∧
    ∀ j, union t j = placed 64 start l j

theorem chunked_make (maxbits blockIdx : ℕ) :
    Chunked (blockIdx * maxbits) [] (zfpMakeWriter1 maxbits blockIdx true) :=
  ⟨rfl, rfl, rfl, [], rfl, fun j => by simp⟩

theorem Chunked.writeBits {start : ℕ} {l : List Bool} {s : ZfpBlockWriter1}
    (h : Chunked start l s) (v : BitVec 64) {n : ℕ} (hn : n ≤ 64) (hlen : l.length + n < 2 ^ 32) :
    Chunked start (l ++ lowBits v n) (zfpWriterWriteBits s v n).2 := by
  rcases Nat.eq_zero_or_pos n with rfl | hn0
  · rw [zfpWriterWriteBits, if_pos rfl, lowBits_zero, List.append_nil]
    exact h
  have hzero : ∀ i, n ≤ i → (v &&& if 64 ≤ n then BitVec.allOnes 64 else
      shl 1#64 n - 1#64).getLsbD i = false := fun i hi => by
    rw [getLsbD_keep, decide_eq_false (by omega), Bool.false_and]
  obtain ⟨t, ht, hunion⟩ := h.stored
  rw [zfpWriterWriteBits, if_neg hn0.ne', ← lowBits_keep]
  generalize (v &&& if 64 ≤ n then BitVec.allOnes 64 else shl 1#64 n - 1#64) = keep at hzero ⊢
  obtain ⟨t', ht', hunion'⟩ := writeAtomic_spec (start + l.length) n hn hzero
  dsimp only
  rw [h.mode, Bool.not_true, if_neg Bool.false_ne_true]
  refine ⟨rfl, h.startBit, ?_, t ++ t', ?_, fun j => ?_⟩
  · rw [List.length_append, length_lowBits, ← h.totalBits]
    exact Nat.mod_eq_of_lt (by rw [h.totalBits]; exact hlen)
  · rw [List.map_append, List.map_append, ht, h.startBit, h.totalBits, ht']
  · rw [union_append, hunion, hunion', placed_append_or]

theorem Emits.chunked {start : ℕ} {s s' : ZfpBlockWriter1} {l : List Bool} (h : Emits s l s')
    (hs : Chunked start [] s) (hlen : l.length < 2 ^ 32) : Chunked start l s' := by
  induction h with
  | refl => exact hs
  | bits _ v hn ih =>
    rw [List.length_append, length_lowBits] at hlen
    exact (ih (by omega)).writeBits v hn hlen
  | @bit l s' _ b ih =>
    rw [List.length_append, List.length_singleton] at hlen
    have hlow : [b] = lowBits ((BitVec.ofBool b).setWidth 64) 1 := by
      cases b <;> rfl
    have h := ih (by omega)
    rw [zfpWriterWriteBit, hlow]
    dsimp only
    rw [h.mode, Bool.not_true, if_neg Bool.false_ne_true]
    exact h.writeBits _ (by decide) hlen

/-! ### The bits of a block -/

theorem Emits.stored {maxbits blockIdx : ℕ} {atomicMode : Bool} {s : ZfpBlockWriter1}
    {l : List Bool} (h : Emits (zfpMakeWriter1 maxbits blockIdx atomicMode) l s)
    (hlen : l.length < 2 ^ 32) :
    ∃ t : List (ℕ × BitVec 64),
      (zfpWriterFlush s).accesses.map Access.setBits = t.map (truncated atomicMode) ∧
      ∀ j, union t j = placed 64 (blockIdx * maxbits) l j := by
  cases atomicMode with
  | false =>
    obtain ⟨t, ht, -, hunion⟩ := (h.buffered (buffered_make maxbits blockIdx)).flush
    refine ⟨t, ?_, hunion⟩
    rw [ht, List.map_map]
    rfl
  | true =>
    have hs := h.chunked (chunked_make maxbits blockIdx) hlen
    obtain ⟨t, ht, hunion⟩ := hs.stored
    refine ⟨t, ?_, hunion⟩
    have hflush : ¬ (s.atomicMode = false ∧ 0 < s.bufBits) := by simp [hs.mode]
    rw [zfpWriterFlush, if_neg hflush, ht]
    rfl

/-- Indices that are cut off do no harm if no bits belong there. -/
theorem union_truncated (atomicMode : Bool) {t : List (ℕ × BitVec 64)}
    (h : ∀ j, indexLimit atomicMode ≤ j → union t j = 0) (j : ℕ) :
    union (t.map (truncated atomicMode)) j = union t j := by
  induction t with
  | nil => rfl
  | cons a t ih =>
    have htail := ih fun j hj => (BitVec.or_eq_zero_iff.mp (h j hj)).2
    rw [List.map_cons, union_cons, union_cons, htail]
    congr 1
    rcases Nat.lt_or_ge a.1 (indexLimit atomicMode) with hlt | hge
    · rw [truncated, Nat.mod_eq_of_lt hlt]
    · have hzero := (BitVec.or_eq_zero_iff.mp (h a.1 hge)).1
      rw [if_pos rfl] at hzero
      rw [truncated, hzero, BitVec.ofNat_eq_ofNat, ite_self, ite_self]

theorem union_truncated_of_le (atomicMode : Bool) (t : List (ℕ × BitVec 64)) {j : ℕ}
    (h : indexLimit atomicMode ≤ j) : union (t.map (truncated atomicMode)) j = 0 := by
  refine union_of_not_mem fun hmem => ?_
  rw [List.map_map, List.mem_map] at hmem
  obtain ⟨a, -, rfl⟩ := hmem
  have hpos : 0 < indexLimit atomicMode := by cases atomicMode <;> decide
  exact absurd (Nat.mod_lt a.1 hpos) (Nat.not_lt.mpr h)

/-- No one-bit lies at or beyond the last word that a `uint` can index. -/
def InReach (atomicMode : Bool) (o : ℕ) (l : List Bool) : Prop :=
  ∀ i, l.getD i false = true → o + i < indexLimit atomicMode * 64

theorem inReach_iff (atomicMode : Bool) (o : ℕ) (l : List Bool) :
    InReach atomicMode o l ↔ ∀ j, indexLimit atomicMode ≤ j → placed 64 o l j = 0 := by
  constructor
  · intro h j hj
    refine placed_eq_zero fun i _ => ?_
    by_contra hbit
    rw [Bool.not_eq_false, placedBit, Bool.and_eq_true, decide_eq_true_eq] at hbit
    have hlt := h _ hbit.2
    have hle := Nat.mul_le_mul_right 64 hj
    omega
  · intro h i hi
    by_contra hge
    have hbit := getLsbD_placed (w := 64) o l ((o + i) / 64) ((o + i) % 64)
    rw [h _ ((Nat.le_div_iff_mul_le (by decide)).mpr (Nat.le_of_not_lt hge)), Nat.div_add_mod',
      placedBit_add, hi, decide_eq_true (Nat.mod_lt _ (by decide)), Bool.and_self] at hbit
    exact absurd (BitVec.getLsbD_zero.symm.trans hbit) Bool.false_ne_true

theorem inReach_of_le {atomicMode : Bool} {o : ℕ} {l : List Bool}
    (h : o + l.length ≤ indexLimit atomicMode * 64) : InReach atomicMode o l := by
  intro i hi
  by_contra hge
  rw [List.getD_eq_default _ _ (by omega)] at hi
  cases hi

def written (mem : ℕ → BitVec 64) (s : ZfpBlockWriter1) : ℕ → BitVec 64 :=
  (s.accesses.map Access.setBits).foldl orWord mem

/-- A block is placed at its offset in a stream of zeros unless a one-bit is out of reach. -/
theorem Emits.written_iff {maxbits blockIdx : ℕ} {atomicMode : Bool} {s : ZfpBlockWriter1}
    {l : List Bool} (h : Emits (zfpMakeWriter1 maxbits blockIdx atomicMode) l s)
    (hlen : l.length < 2 ^ 32) :
    written (fun _ => 0) (zfpWriterFlush s) = placed 64 (blockIdx * maxbits) l ↔
      InReach atomicMode (blockIdx * maxbits) l := by
  obtain ⟨t, ht, hunion⟩ := h.stored hlen
  have hmem : ∀ j, written (fun _ => 0) (zfpWriterFlush s) j =
      union (t.map (truncated atomicMode)) j := fun j => by
    rw [written, ht, foldl_orWord, BitVec.ofNat_eq_ofNat, BitVec.zero_or]
  rw [inReach_iff]
  constructor
  · intro heq j hj
    rw [← heq, hmem, union_truncated_of_le atomicMode t hj]
  · intro hzero
    funext j
    rw [hmem, union_truncated atomicMode (fun j hj => by rw [hunion, hzero j hj]), hunion]

/-- In a stream with other contents it only sets its bits. -/
theorem Emits.written_mem {maxbits blockIdx : ℕ} {atomicMode : Bool} {s : ZfpBlockWriter1}
    {l : List Bool} (h : Emits (zfpMakeWriter1 maxbits blockIdx atomicMode) l s)
    (hlen : l.length < 2 ^ 32) (hreach : InReach atomicMode (blockIdx * maxbits) l)
    (mem : ℕ → BitVec 64) (j : ℕ) :
    written mem (zfpWriterFlush s) j = mem j ||| placed 64 (blockIdx * maxbits) l j := by
  have hzero := congrFun ((h.written_iff hlen).mpr hreach) j
  rw [written, foldl_orWord, BitVec.ofNat_eq_ofNat, BitVec.zero_or] at hzero
  rw [written, foldl_orWord, hzero]

end Zfp.Metal

import Zfp.Bitstream
import Zfp.ThreadPrograms

/-!
# The bit stream as a thread

A thread that works on a bit stream has the fields of the stream for itself. The words are shared:
it loads and stores them one at a time, where the operations of the stream read and write words.
-/

namespace Zfp
open SharedMemory

variable {T : WordType}

/-- The fields of a bit stream other than its words. -/
structure Registers (T : WordType) where
  bits : ℕ
  buffer : BitVec (wsize T)
  ptr : ℕ

def Registers.over (r : Registers T) (mem : ℕ → BitVec (wsize T)) : Bitstream T :=
  ⟨r.bits, r.buffer, r.ptr, mem⟩

/-- A thread that returns a value and the registers of its stream. -/
abbrev StreamThread (T : WordType) (α : Type) := Thread ℕ (BitVec (wsize T)) (α × Registers T)

namespace StreamThread

/-! ## Operations of a reader -/

def readBit (r : Registers T) : StreamThread T Bool :=
  if r.bits = 0 then
    .load r.ptr fun w => .done (w.getLsbD 0, ⟨wsize T - 1, w >>> 1, r.ptr + 1⟩)
  else .done (r.buffer.getLsbD 0, ⟨r.bits - 1, r.buffer >>> 1, r.ptr⟩)

def readBitsLoop (r : Registers T) (value : BitVec 64) (n : ℕ) : StreamThread T (BitVec 64) :=
  .load r.ptr fun w =>
    let value := value + w.setWidth 64 <<< r.bits
    let r' : Registers T := ⟨r.bits + wsize T, w, r.ptr + 1⟩
    if wsize T < 64 ∧ r'.bits < n then readBitsLoop r' value n else .done (value, r')
termination_by n - r.bits
decreasing_by
  have := wsize_pos T
  have : r'.bits = r.bits + wsize T := rfl
  omega

/-- The bits that are returned and the ones that stay in the buffer, after the loop. -/
def readBitsRest (n : ℕ) (q : BitVec 64 × Registers T) : BitVec 64 × Registers T :=
  let r : Registers T := { q.2 with bits := q.2.bits - n }
  if r.bits = 0 then (q.1, { r with buffer := 0 })
  else (q.1 &&& (2#64 <<< (n - 1) - 1#64), { r with buffer := r.buffer >>> (wsize T - r.bits) })

def readBits (r : Registers T) (n : ℕ) : StreamThread T (BitVec 64) :=
  let value := r.buffer.setWidth 64
  if r.bits < n then (readBitsLoop r value n).bind fun q => .done (readBitsRest n q)
  else
    .done (value &&& (1#64 <<< n - 1#64), { r with bits := r.bits - n, buffer := r.buffer >>> n })

def rseek (offset : ℕ) : StreamThread T Unit :=
  let n := offset % wsize T
  let ptr := offset / wsize T
  if n ≠ 0 then .load ptr fun w => .done ((), ⟨wsize T - n, w >>> n, ptr + 1⟩)
  else .done ((), ⟨0, 0, ptr⟩)

def skip (r : Registers T) (n : ℕ) : StreamThread T Unit := rseek (r.ptr * wsize T - r.bits + n)

def align (r : Registers T) : StreamThread T Unit :=
  if r.bits ≠ 0 then skip r r.bits else .done ((), r)

/-! ## Operations of a writer -/

def writeBit (r : Registers T) (bit : Bool) : StreamThread T Unit :=
  let buffer := r.buffer + (BitVec.ofBool bit).setWidth (wsize T) <<< r.bits
  if r.bits + 1 = wsize T then .store r.ptr buffer (.done ((), ⟨0, 0, r.ptr + 1⟩))
  else .done ((), ⟨r.bits + 1, buffer, r.ptr⟩)

def writeBitsLoop (r : Registers T) (value : BitVec 64) (n : ℕ) : StreamThread T Unit :=
  let bits := r.bits - wsize T
  let r' : Registers T := ⟨bits, (value >>> (n - bits)).setWidth (wsize T), r.ptr + 1⟩
  .store r.ptr r.buffer
    (if wsize T < 64 ∧ wsize T ≤ r'.bits then writeBitsLoop r' value n else .done ((), r'))
termination_by r.bits
decreasing_by
  have := wsize_pos T
  have : r'.bits = r.bits - wsize T := rfl
  omega

/-- The buffer with the bits beyond the buffered ones cleared. -/
def clearRest (r : Registers T) : Registers T :=
  { r with buffer := r.buffer &&& (1#(wsize T) <<< r.bits - 1#(wsize T)) }

def writeBits (r : Registers T) (value : BitVec 64) (n : ℕ) : StreamThread T (BitVec 64) :=
  let r : Registers T :=
    ⟨r.bits + n, r.buffer + (value <<< r.bits).setWidth (wsize T), r.ptr⟩
  if wsize T ≤ r.bits then
    (writeBitsLoop r (value >>> 1) (n - 1)).bind fun q =>
      .done (value >>> 1 >>> (n - 1), clearRest q.2)
  else .done (value >>> n, clearRest r)

def padLoop (r : Registers T) (bits : ℕ) : StreamThread T Unit :=
  if wsize T ≤ bits then .store r.ptr r.buffer (padLoop ⟨r.bits, 0, r.ptr + 1⟩ (bits - wsize T))
  else .done ((), ⟨bits, r.buffer, r.ptr⟩)
termination_by bits
decreasing_by
  have := wsize_pos T
  omega

def pad (r : Registers T) (n : ℕ) : StreamThread T Unit := padLoop r (r.bits + n)

def flush (r : Registers T) : StreamThread T Unit :=
  let bits := (wsize T - r.bits) % wsize T
  if bits ≠ 0 then pad r bits else .done ((), r)

def wseek (offset : ℕ) : StreamThread T Unit :=
  let n := offset % wsize T
  let ptr := offset / wsize T
  if n ≠ 0 then
    .load ptr fun w => .done ((), ⟨n, w &&& (1#(wsize T) <<< n - 1#(wsize T)), ptr⟩)
  else .done ((), ⟨0, 0, ptr⟩)

/-! ## The threads alone -/

theorem does_readBit (r : Registers T) (mem : ℕ → BitVec (wsize T)) :
    (readBit r).Does Registers.over mem (streamReadBit (r.over mem)) := by
  rw [readBit, streamReadBit]
  by_cases h : r.bits = 0
  · rw [if_pos h, if_pos (show (r.over mem).bits = 0 from h)]
    exact ⟨rfl, rfl⟩
  · rw [if_neg h, if_neg (show ¬ (r.over mem).bits = 0 from h)]
    exact ⟨rfl, rfl⟩

theorem does_readBitsLoop (r : Registers T) (value : BitVec 64) (n : ℕ)
    (mem : ℕ → BitVec (wsize T)) : (readBitsLoop r value n).Does Registers.over mem
      (Zfp.readBitsLoop (r.over mem) value n) := by
  induction hk : n - r.bits using Nat.strong_induction_on generalizing r value with
  | _ k ih =>
    rw [readBitsLoop, Zfp.readBitsLoop, Thread.Does, Thread.alone]
    dsimp only
    have hpos := wsize_pos T
    by_cases h : wsize T < 64 ∧ r.bits + wsize T < n
    · rw [if_pos h, if_pos (show wsize T < 64 ∧ (r.over mem).bits + wsize T < n from h)]
      exact ih (n - (r.bits + wsize T)) (by omega) ⟨_, _, _⟩ _ rfl
    · rw [if_neg h, if_neg (show ¬ (wsize T < 64 ∧ (r.over mem).bits + wsize T < n) from h)]
      exact ⟨rfl, rfl⟩

theorem does_readBits (r : Registers T) (n : ℕ) (mem : ℕ → BitVec (wsize T)) :
    (readBits r n).Does Registers.over mem (streamReadBits (r.over mem) n) := by
  rw [readBits, streamReadBits]
  dsimp only
  by_cases h : r.bits < n
  · rw [if_pos h, if_pos (show (r.over mem).bits < n from h)]
    have hdoes := does_readBitsLoop r (r.buffer.setWidth 64) n mem
    rw [Thread.Does] at hdoes
    rw [Thread.Does, Thread.alone_bind, Thread.alone_done]
    generalize (readBitsLoop r (r.buffer.setWidth 64) n).alone mem = q at hdoes ⊢
    have hloop : Zfp.readBitsLoop (r.over mem) ((r.over mem).buffer.setWidth 64) n =
        (q.1.1, q.1.2.over q.2) := Prod.ext hdoes.1.symm hdoes.2.symm
    rw [hloop, readBitsRest]
    dsimp only
    by_cases hbits : q.1.2.bits - n = 0
    · rw [if_pos hbits, if_pos (show (q.1.2.over q.2).bits - n = 0 from hbits)]
      exact ⟨rfl, rfl⟩
    · rw [if_neg hbits, if_neg (show ¬ (q.1.2.over q.2).bits - n = 0 from hbits)]
      exact ⟨rfl, rfl⟩
  · rw [if_neg h, if_neg (show ¬ (r.over mem).bits < n from h)]
    exact ⟨rfl, rfl⟩

theorem does_rseek (s : Bitstream T) (offset : ℕ) (mem : ℕ → BitVec (wsize T))
    (hmem : s.mem = mem) :
    (rseek offset).Does Registers.over mem ((), streamRseek s offset) := by
  subst hmem
  rw [rseek, streamRseek]
  dsimp only
  split_ifs
  · exact ⟨rfl, rfl⟩
  · exact ⟨rfl, rfl⟩

theorem does_skip (r : Registers T) (n : ℕ) (mem : ℕ → BitVec (wsize T)) :
    (skip r n).Does Registers.over mem ((), streamSkip (r.over mem) n) :=
  does_rseek (r.over mem) _ mem rfl

theorem does_align (r : Registers T) (mem : ℕ → BitVec (wsize T)) :
    (align r).Does Registers.over mem ((), (streamAlign (r.over mem)).2) := by
  rw [align, streamAlign]
  dsimp only
  by_cases h : r.bits ≠ 0
  · rw [if_pos h, if_pos (show (r.over mem).bits ≠ 0 from h)]
    exact does_skip r r.bits mem
  · rw [if_neg h, if_neg (show ¬ (r.over mem).bits ≠ 0 from h)]
    exact ⟨rfl, rfl⟩

theorem does_writeBit (r : Registers T) (bit : Bool) (mem : ℕ → BitVec (wsize T)) :
    (writeBit r bit).Does Registers.over mem ((), streamWriteBit (r.over mem) bit) := by
  rw [writeBit, streamWriteBit]
  dsimp only
  by_cases h : r.bits + 1 = wsize T
  · rw [if_pos h, if_pos (show (r.over mem).bits + 1 = wsize T from h)]
    exact ⟨rfl, rfl⟩
  · rw [if_neg h, if_neg (show ¬ (r.over mem).bits + 1 = wsize T from h)]
    exact ⟨rfl, rfl⟩

theorem does_writeBitsLoop (r : Registers T) (value : BitVec 64) (n : ℕ)
    (mem : ℕ → BitVec (wsize T)) : (writeBitsLoop r value n).Does Registers.over mem
      ((), Zfp.writeBitsLoop (r.over mem) value n) := by
  induction hk : r.bits using Nat.strong_induction_on generalizing r mem with
  | _ k ih =>
    have hpos := wsize_pos T
    rw [writeBitsLoop, Zfp.writeBitsLoop, Thread.Does, Thread.alone]
    dsimp only
    by_cases h : wsize T < 64 ∧ wsize T ≤ r.bits - wsize T
    · rw [if_pos h, if_pos (show wsize T < 64 ∧ wsize T ≤ (r.over mem).bits - wsize T from h)]
      exact ih (r.bits - wsize T) (by omega) ⟨_, _, _⟩ _ rfl
    · rw [if_neg h, if_neg (show ¬ (wsize T < 64 ∧ wsize T ≤ (r.over mem).bits - wsize T) from h)]
      exact ⟨rfl, rfl⟩

theorem does_writeBits (r : Registers T) (value : BitVec 64) (n : ℕ)
    (mem : ℕ → BitVec (wsize T)) :
    (writeBits r value n).Does Registers.over mem (streamWriteBits (r.over mem) value n) := by
  rw [writeBits, streamWriteBits]
  dsimp only
  by_cases h : wsize T ≤ r.bits + n
  · rw [if_pos h, if_pos (show wsize T ≤ (r.over mem).bits + n from h)]
    obtain ⟨-, hstate⟩ := does_writeBitsLoop
      ⟨r.bits + n, r.buffer + (value <<< r.bits).setWidth (wsize T), r.ptr⟩ (value >>> 1) (n - 1) mem
    rw [Thread.Does, Thread.alone_bind, Thread.alone_done]
    refine ⟨rfl, ?_⟩
    exact congrArg (fun s : Bitstream T =>
      { s with buffer := s.buffer &&& (1#(wsize T) <<< s.bits - 1#(wsize T)) }) hstate
  · rw [if_neg h, if_neg (show ¬ wsize T ≤ (r.over mem).bits + n from h)]
    exact ⟨rfl, rfl⟩

theorem does_padLoop (r : Registers T) (bits : ℕ) (mem : ℕ → BitVec (wsize T)) :
    (padLoop r bits).Does Registers.over mem ((), Zfp.padLoop (r.over mem) bits) := by
  induction bits using Nat.strong_induction_on generalizing r mem with
  | _ bits ih =>
    have hpos := wsize_pos T
    rw [padLoop, Zfp.padLoop]
    split_ifs with h
    · exact ih (bits - wsize T) (by omega) ⟨_, _, _⟩ _
    · exact ⟨rfl, rfl⟩

theorem does_pad (r : Registers T) (n : ℕ) (mem : ℕ → BitVec (wsize T)) :
    (pad r n).Does Registers.over mem ((), streamPad (r.over mem) n) := does_padLoop r _ mem

theorem does_flush (r : Registers T) (mem : ℕ → BitVec (wsize T)) :
    (flush r).Does Registers.over mem ((), (streamFlush (r.over mem)).2) := by
  rw [flush, streamFlush]
  dsimp only
  by_cases h : (wsize T - r.bits) % wsize T ≠ 0
  · rw [if_pos h, if_pos (show (wsize T - (r.over mem).bits) % wsize T ≠ 0 from h)]
    exact does_pad r _ mem
  · rw [if_neg h, if_neg (show ¬ (wsize T - (r.over mem).bits) % wsize T ≠ 0 from h)]
    exact ⟨rfl, rfl⟩

theorem does_wseek (s : Bitstream T) (offset : ℕ) (mem : ℕ → BitVec (wsize T))
    (hmem : s.mem = mem) :
    (wseek offset).Does Registers.over mem ((), streamWseek s offset) := by
  subst hmem
  rw [wseek, streamWseek]
  dsimp only
  split_ifs
  · exact ⟨rfl, rfl⟩
  · exact ⟨rfl, rfl⟩

/-! ## The words that the threads access -/

/-- The word that the buffered bits of a reader are from, else the next one. -/
def word (r : Registers T) : ℕ := if r.bits = 0 then r.ptr else r.ptr - 1

/-- A reader buffers less than a word. -/
def Reading (r : Registers T) : Prop := r.bits < wsize T

/-- The thread of a reader loads the words that it moves over. -/
abbrev Loads {α : Type} (th : StreamThread T α) (r : Registers T) (mem : ℕ → BitVec (wsize T)) :
    Prop := th.Advances word Registers.ptr Reading r mem

/-- The thread of a writer stores the words that it moves over. -/
abbrev Stores {α : Type} (th : StreamThread T α) (r : Registers T) (mem : ℕ → BitVec (wsize T)) :
    Prop := th.Advances Registers.ptr Registers.ptr (fun _ => True) r mem

/-- A seek to the beginning of a word loads nothing. -/
theorem rseek_mul (k : ℕ) : rseek (k * wsize T) = .done ((), (⟨0, 0, k⟩ : Registers T)) := by
  have hmod : k * wsize T % wsize T = 0 := Nat.mul_mod_left _ _
  have hdiv : k * wsize T / wsize T = k := Nat.mul_div_cancel _ (wsize_pos T)
  rw [rseek, if_neg (not_not.mpr hmod), hdiv]

theorem wseek_mul (k : ℕ) : wseek (k * wsize T) = .done ((), (⟨0, 0, k⟩ : Registers T)) := by
  have hmod : k * wsize T % wsize T = 0 := Nat.mul_mod_left _ _
  have hdiv : k * wsize T / wsize T = k := Nat.mul_div_cancel _ (wsize_pos T)
  rw [wseek, if_neg (not_not.mpr hmod), hdiv]

theorem word_le (r : Registers T) : word r ≤ r.ptr := by
  rw [word]
  split_ifs <;> omega

theorem le_word {r q : Registers T} (h : r.ptr < q.ptr) : r.ptr ≤ word q := by
  rw [word]
  split_ifs <;> omega

theorem Loads.of_lt {α : Type} {th : StreamThread T α} {r : Registers T}
    {mem : ℕ → BitVec (wsize T)} (hreading : Reading (th.alone mem).1.2)
    (hlt : r.ptr < (th.alone mem).1.2.ptr)
    (hwithin : th.Within (fun i => r.ptr ≤ i ∧ i < (th.alone mem).1.2.ptr) mem) :
    Loads th r mem where
  inv := hreading
  lo_le := (word_le r).trans (le_word hlt)
  hi_le := hlt.le
  within := hwithin.mono fun _ hi => ⟨(word_le r).trans hi.1, hi.2⟩

/-- The buffered bits are enough. -/
theorem Loads.done {α : Type} (a : α) {r : Registers T} (hr : Reading r) {bits : ℕ}
    (hbits : bits ≤ r.bits) (buffer : BitVec (wsize T)) (mem : ℕ → BitVec (wsize T)) :
    Loads (.done (a, ⟨bits, buffer, r.ptr⟩)) r mem where
  inv := hbits.trans_lt hr
  lo_le := by
    rw [word, word, Thread.alone_done]
    dsimp only
    split_ifs <;> omega
  hi_le := le_rfl
  within := trivial

theorem loads_readBit {r : Registers T} (h : Reading r) (mem : ℕ → BitVec (wsize T)) :
    Loads (readBit r) r mem := by
  have hpos := wsize_pos T
  rw [readBit]
  split_ifs with hbits
  · apply Loads.of_lt
    · exact Nat.sub_lt hpos one_pos
    · exact Nat.lt_succ_self _
    · exact ⟨⟨le_rfl, Nat.lt_succ_self _⟩, trivial⟩
  · exact Loads.done _ h (Nat.sub_le _ _) _ mem

theorem readBitsLoop_spec {r : Registers T} {n : ℕ} (h : r.bits < n) (value : BitVec 64)
    (mem : ℕ → BitVec (wsize T)) :
    r.ptr < ((readBitsLoop r value n).alone mem).1.2.ptr ∧
      ((readBitsLoop r value n).alone mem).1.2.bits < n + wsize T ∧
      (readBitsLoop r value n).Within
        (fun i => r.ptr ≤ i ∧ i < ((readBitsLoop r value n).alone mem).1.2.ptr) mem := by
  induction hk : n - r.bits using Nat.strong_induction_on generalizing r value with
  | _ k ih =>
    have hpos := wsize_pos T
    rw [readBitsLoop, Thread.alone, Thread.Within]
    dsimp only
    by_cases hmore : wsize T < 64 ∧ r.bits + wsize T < n
    · rw [if_pos hmore]
      obtain ⟨hptr, hbits, hwithin⟩ := ih (n - (r.bits + wsize T)) (by omega)
        (r := ⟨r.bits + wsize T, mem r.ptr, r.ptr + 1⟩) hmore.2
        (value + (mem r.ptr).setWidth 64 <<< r.bits) rfl
      dsimp only at hptr hwithin
      refine ⟨by omega, hbits, ⟨le_rfl, by omega⟩, hwithin.mono fun i hi => ⟨by omega, hi.2⟩⟩
    · rw [if_neg hmore, Thread.alone_done]
      exact ⟨Nat.lt_succ_self _, by dsimp only; omega, ⟨le_rfl, Nat.lt_succ_self _⟩, trivial⟩

theorem loads_readBits {r : Registers T} (h : Reading r) (n : ℕ) (mem : ℕ → BitVec (wsize T)) :
    Loads (readBits r n) r mem := by
  have hpos := wsize_pos T
  rw [readBits]
  split_ifs with hbits
  · obtain ⟨hptr, hlt, hwithin⟩ := readBitsLoop_spec hbits (r.buffer.setWidth 64) mem
    have hrest (q : BitVec 64 × Registers T) (hq : q.2.bits < n + wsize T) :
        (readBitsRest n q).2.ptr = q.2.ptr ∧ Reading (readBitsRest n q).2 := by
      rw [readBitsRest, Reading]
      dsimp only
      split_ifs
      · exact ⟨rfl, by dsimp only; omega⟩
      · exact ⟨rfl, by dsimp only; omega⟩
    obtain ⟨hsame, hreading⟩ := hrest _ hlt
    apply Loads.of_lt
    · rw [Thread.alone_bind]
      exact hreading
    · rw [Thread.alone_bind, Thread.alone_done, hsame]
      exact hptr
    · rw [Thread.alone_bind, Thread.alone_done, hsame]
      exact hwithin.bind trivial
  · exact Loads.done _ h (Nat.sub_le _ _) _ mem

/-- The position of a reader lies in its word. -/
theorem word_mul_le {r : Registers T} (h : Reading r) :
    word r * wsize T ≤ r.ptr * wsize T - r.bits ∧
      (word r < r.ptr → word r * wsize T < r.ptr * wsize T - r.bits) := by
  rw [Reading] at h
  rw [word]
  split_ifs with hbits
  · exact ⟨by rw [hbits, Nat.sub_zero], fun hlt => absurd hlt (lt_irrefl _)⟩
  · have hmul : (r.ptr - 1) * wsize T = r.ptr * wsize T - wsize T := by
      rw [Nat.sub_mul, Nat.one_mul]
    have hle : r.ptr ≠ 0 → wsize T ≤ r.ptr * wsize T := fun hne =>
      Nat.le_mul_of_pos_left _ (Nat.pos_of_ne_zero hne)
    omega

theorem loads_skip {r : Registers T} (h : Reading r) (n : ℕ) (mem : ℕ → BitVec (wsize T)) :
    Loads (skip r n) r mem := by
  have hpos := wsize_pos T
  obtain ⟨hle, hlt⟩ := word_mul_le h
  have hword := word_le r
  have hptr : r.ptr ≤ word r + 1 := by
    rw [word]
    split_ifs <;> omega
  rw [skip]
  generalize ho : r.ptr * wsize T - r.bits + n = o
  have hdiv : word r ≤ o / wsize T := by
    rw [Nat.le_div_iff_mul_le hpos]
    omega
  rw [rseek]
  split_ifs with hmod
  · refine ⟨?_, ?_, ?_, ?_⟩
    · exact Nat.sub_lt hpos (Nat.pos_of_ne_zero hmod)
    · exact hdiv.trans (le_word (r := ⟨0, 0, o / wsize T⟩) (Nat.lt_succ_self _))
    · exact hptr.trans (Nat.succ_le_succ hdiv)
    · exact ⟨⟨hdiv, Nat.lt_succ_self _⟩, trivial⟩
  · have hmul : o / wsize T * wsize T = o := by
      rw [Nat.mul_comm]
      exact Nat.mul_div_cancel' (Nat.dvd_of_mod_eq_zero (not_not.mp hmod))
    have hptr' : r.ptr ≤ o / wsize T := by
      rcases hword.lt_or_eq with hless | heq
      · have hnext : word r < o / wsize T := by
          apply Nat.lt_of_mul_lt_mul_right (a := wsize T)
          have := hlt hless
          omega
        omega
      · omega
    refine ⟨?_, ?_, ?_, ?_⟩
    · exact hpos
    · exact hdiv
    · exact hptr'
    · trivial

theorem loads_align {r : Registers T} (h : Reading r) (mem : ℕ → BitVec (wsize T)) :
    Loads (align r) r mem := by
  rw [align]
  split_ifs
  · exact loads_skip h r.bits mem
  · exact Thread.Advances.done _ h mem

theorem stores_writeBit (r : Registers T) (bit : Bool) (mem : ℕ → BitVec (wsize T)) :
    Stores (writeBit r bit) r mem := by
  rw [writeBit]
  split_ifs
  · exact ⟨trivial, Nat.le_succ _, Nat.le_succ _, ⟨le_rfl, Nat.lt_succ_self _⟩, trivial⟩
  · exact ⟨trivial, le_rfl, le_rfl, trivial⟩

/-- A store at the pointer, then a thread that goes on behind it. -/
theorem Stores.store {r : Registers T} (buffer : BitVec (wsize T)) {α : Type}
    {th : StreamThread T α} {bits : ℕ} {next : BitVec (wsize T)} {mem : ℕ → BitVec (wsize T)}
    (h : Stores th ⟨bits, next, r.ptr + 1⟩ (Function.update mem r.ptr buffer)) :
    Stores (.store r.ptr buffer th) r mem := by
  have hlt : r.ptr < (th.alone (Function.update mem r.ptr buffer)).1.2.ptr := h.hi_le
  exact ⟨trivial, hlt.le, hlt.le, ⟨le_rfl, hlt⟩,
    h.within.mono fun _ hi => ⟨(Nat.le_succ _).trans hi.1, hi.2⟩⟩

theorem stores_writeBitsLoop (r : Registers T) (value : BitVec 64) (n : ℕ)
    (mem : ℕ → BitVec (wsize T)) : Stores (writeBitsLoop r value n) r mem := by
  induction hk : r.bits using Nat.strong_induction_on generalizing r mem with
  | _ k ih =>
    have hpos := wsize_pos T
    rw [writeBitsLoop]
    apply Stores.store
    dsimp only
    split_ifs with h
    · exact ih (r.bits - wsize T) (by omega) ⟨_, _, _⟩ _ rfl
    · exact .done _ trivial _

theorem stores_writeBits (r : Registers T) (value : BitVec 64) (n : ℕ)
    (mem : ℕ → BitVec (wsize T)) : Stores (writeBits r value n) r mem := by
  rw [writeBits]
  split_ifs
  · -- the fields change before the loop, the pointer does not
    obtain ⟨hinv, hle, -, hwithin⟩ := stores_writeBitsLoop
      ⟨r.bits + n, r.buffer + (value <<< r.bits).setWidth (wsize T), r.ptr⟩ (value >>> 1) (n - 1) mem
    have hloop : Stores (writeBitsLoop _ (value >>> 1) (n - 1)) r mem := ⟨hinv, hle, hle, hwithin⟩
    apply hloop.bind
    intro _ r mem _
    exact ⟨trivial, le_rfl, le_rfl, trivial⟩
  · exact ⟨trivial, le_rfl, le_rfl, trivial⟩

theorem stores_padLoop (r : Registers T) (bits : ℕ) (mem : ℕ → BitVec (wsize T)) :
    Stores (padLoop r bits) r mem := by
  induction bits using Nat.strong_induction_on generalizing r mem with
  | _ bits ih =>
    have hpos := wsize_pos T
    rw [padLoop]
    split_ifs with h
    · exact .store r.buffer (ih (bits - wsize T) (by omega) ⟨_, _, _⟩ _)
    · exact ⟨trivial, le_rfl, le_rfl, trivial⟩

theorem stores_flush (r : Registers T) (mem : ℕ → BitVec (wsize T)) : Stores (flush r) r mem := by
  rw [flush]
  split_ifs
  · exact stores_padLoop r _ mem
  · exact ⟨trivial, le_rfl, le_rfl, trivial⟩

end StreamThread

/-! ## Readers and writers -/

/-- What a decoder does with its bit stream. -/
inductive ReaderOp : Type → Type
  | readBit : ReaderOp Bool
  | readBits (n : ℕ) : ReaderOp (BitVec 64)
  | skip (n : ℕ) : ReaderOp Unit
  | rtell : ReaderOp ℕ

/-- What an encoder does with its bit stream. -/
inductive WriterOp : Type → Type
  | writeBit (bit : Bool) : WriterOp Unit
  | writeBits (value : BitVec 64) (n : ℕ) : WriterOp (BitVec 64)
  | pad (n : ℕ) : WriterOp Unit
  | wtell : WriterOp ℕ

def ReaderOp.step : ∀ β, ReaderOp β → Bitstream T → β × Bitstream T
  | _, readBit, s => streamReadBit s
  | _, readBits n, s => streamReadBits s n
  | _, skip n, s => ((), streamSkip s n)
  | _, rtell, s => (streamRtell s, s)

def WriterOp.step : ∀ β, WriterOp β → Bitstream T → β × Bitstream T
  | _, writeBit bit, s => ((), streamWriteBit s bit)
  | _, writeBits value n, s => streamWriteBits s value n
  | _, pad n, s => ((), streamPad s n)
  | _, wtell, s => (streamWtell s, s)

def ReaderOp.thread : ∀ β, ReaderOp β → Registers T → StreamThread T β
  | _, readBit, r => StreamThread.readBit r
  | _, readBits n, r => StreamThread.readBits r n
  | _, skip n, r => StreamThread.skip r n
  | _, rtell, r => .done (r.ptr * wsize T - r.bits, r)

def WriterOp.thread : ∀ β, WriterOp β → Registers T → StreamThread T β
  | _, writeBit bit, r => StreamThread.writeBit r bit
  | _, writeBits value n, r => StreamThread.writeBits r value n
  | _, pad n, r => StreamThread.pad r n
  | _, wtell, r => .done (r.ptr * wsize T + r.bits, r)

open StreamThread

theorem ReaderOp.does_thread (β : Type) (op : ReaderOp β) (r : Registers T)
    (mem : ℕ → BitVec (wsize T)) :
    (op.thread β r).Does Registers.over mem (op.step β (r.over mem)) := by
  cases op with
  | readBit => exact does_readBit r mem
  | readBits n => exact does_readBits r n mem
  | skip n => exact does_skip r n mem
  | rtell => exact ⟨rfl, rfl⟩

theorem WriterOp.does_thread (β : Type) (op : WriterOp β) (r : Registers T)
    (mem : ℕ → BitVec (wsize T)) :
    (op.thread β r).Does Registers.over mem (op.step β (r.over mem)) := by
  cases op with
  | writeBit bit => exact does_writeBit r bit mem
  | writeBits value n => exact does_writeBits r value n mem
  | pad n => exact does_pad r n mem
  | wtell => exact ⟨rfl, rfl⟩

theorem ReaderOp.loads_thread (β : Type) (op : ReaderOp β) (r : Registers T)
    (mem : ℕ → BitVec (wsize T)) (h : Reading r) : Loads (op.thread β r) r mem := by
  cases op with
  | readBit => exact loads_readBit h mem
  | readBits n => exact loads_readBits h n mem
  | skip n => exact loads_skip h n mem
  | rtell => exact Thread.Advances.done _ h mem

theorem WriterOp.stores_thread (β : Type) (op : WriterOp β) (r : Registers T)
    (mem : ℕ → BitVec (wsize T)) : Stores (op.thread β r) r mem := by
  cases op with
  | writeBit bit => exact stores_writeBit r bit mem
  | writeBits value n => exact stores_writeBits r value n mem
  | pad n => exact stores_padLoop r _ mem
  | wtell => exact Thread.Advances.done _ trivial mem

end Zfp

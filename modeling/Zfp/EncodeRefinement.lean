import Zfp.BitstreamWriter
import Zfp.Encode
import Zfp.PlaneCode

/-!
# The encoders write the bit-plane code

The four encoder loops write the same code, cut off at the end of the budget, whatever the
stream they write to. They differ in how they look ahead: small blocks shift a plane word,
large blocks count the one-bits that remain.
-/

namespace Zfp
open BitLists Bitstream PlaneCode

variable {T : WordType} {w : ℕ}

def plane (data : ℕ → BitVec w) (k i : ℕ) : Bool := (data i).getLsbD k

/-- The bits that spell the coefficients, without a budget. -/
def intsCode (data : ℕ → BitVec w) (maxprec size : ℕ) : List Bool :=
  planesCode (plane data) size (w - maxprec) w 0

/-! ## Codes within a budget -/

/-- The state after writing the code `c` within the budget `bits`; the index is that of
the code as long as bits are left. -/
def Coded (c : List Bool × ℕ) (s : Bitstream T) (bits : ℕ) (r : Bitstream T × ℕ × ℕ) : Prop :=
  r.1 = s.append (c.1.take bits) ∧ r.2.1 = bits - c.1.length ∧ (r.2.1 ≠ 0 → r.2.2 = c.2)

theorem coded_nil (s : Bitstream T) (bits n : ℕ) : Coded ([], n) s bits (s, bits, n) := by
  simp [Coded]

theorem coded_zero (c : List Bool × ℕ) (s : Bitstream T) (n : ℕ) : Coded c s 0 (s, 0, n) := by
  simp [Coded]

theorem Coded.cons {l : List Bool} {n bits : ℕ} {b : Bool} {s : Bitstream T}
    {r : Bitstream T × ℕ × ℕ} (h : Coded (l, n) (streamWriteBit s b) (bits - 1) r)
    (hb : bits ≠ 0) : Coded (b :: l, n) s bits r := by
  obtain ⟨h1, h2, h3⟩ := h
  obtain ⟨bits, rfl⟩ := Nat.exists_eq_succ_of_ne_zero hb
  exact ⟨by simpa using h1, by simpa using h2, h3⟩

/-! ## Plane words and plane counts -/

/-- The word `x` holds the coefficients of the plane `f` from index `n` on. -/
def Holds (f : ℕ → Bool) (size n : ℕ) (x : BitVec 64) : Prop :=
  ∀ i, x.getLsbD i = (decide (n + i < size) && f (n + i))

theorem Holds.shift {f : ℕ → Bool} {size n : ℕ} {x : BitVec 64} (h : Holds f size n x) (m : ℕ) :
    Holds f size (n + m) (x >>> m) := by
  intro i
  rw [BitVec.getLsbD_ushiftRight, h, Nat.add_assoc]

theorem Holds.bit {f : ℕ → Bool} {size n : ℕ} {x : BitVec 64} (h : Holds f size n x)
    (hn : n < size) : x.getLsbD 0 = f n := by
  rw [h 0, Nat.add_zero, decide_eq_true hn, Bool.true_and]

theorem Holds.ne_zero {f : ℕ → Bool} {size n : ℕ} {x : BitVec 64} (h : Holds f size n x) :
    (x != 0) = (List.range' n (size - n)).any f := by
  have hzero : x = 0 ↔ (List.range' n (size - n)).any f = false := by
    rw [any_range'_eq_false, show (0 : BitVec 64) = 0#64 from rfl, eq_zero_iff_getLsbD]
    constructor
    · intro hx i hn hi
      have hb := h (i - n)
      rw [Nat.add_sub_cancel' hn, decide_eq_true (by omega), Bool.true_and] at hb
      rw [← hb]
      by_cases h64 : i - n < 64
      · exact hx _ h64
      · exact BitVec.getLsbD_of_ge _ _ (by omega)
    · intro hf i _
      rw [h]
      by_cases hi : n + i < size
      · rw [hf _ (by omega) (by omega), Bool.and_false]
      · rw [decide_eq_false hi, Bool.false_and]
  cases hany : (List.range' n (size - n)).any f
  · rw [hzero.mpr hany]
    rfl
  · rw [bne_iff_ne, ne_eq, hzero, hany]
    decide

theorem holds_extractPlane (data : ℕ → BitVec w) (k : ℕ) {size : ℕ} (hsize : size ≤ 64) :
    Holds (plane data k) size 0 (extractPlane data k size) := by
  intro i
  rw [Nat.zero_add]
  induction size generalizing i with
  | zero => simp [extractPlane]
  | succ size ih =>
    have ih := ih (by omega)
    have hbit := getLsbD_ofBool_shiftLeft (w := 64) (plane data k size) (k := size) (by omega)
    rw [extractPlane, List.range_succ, List.foldl_append]
    change (extractPlane data k size +
      (BitVec.ofBool (plane data k size)).setWidth 64 <<< size).getLsbD i = _
    rw [getLsbD_add_of_disjoint, ih, hbit]
    · by_cases hi : i = size
      · simp [hi]
      · have : i < size + 1 ↔ i < size := by omega
        simp only [hi, this, decide_false, Bool.false_and, Bool.or_false]
    · intro j hj
      rw [ih] at hj
      rw [hbit]
      have : j ≠ size := by
        rintro rfl
        simp at hj
      simp [this]

theorem writePlane_eq (data : ℕ → BitVec w) (k m : ℕ) (s : Bitstream T) :
    writePlane data k m s = s.append ((List.range m).map (plane data k)) := by
  rw [writePlane, append, List.foldl_map]
  rfl

theorem countOnes_eq (data : ℕ → BitVec w) (k m size : ℕ) :
    countOnes data k m size = (List.range' m (size - m)).countP (plane data k) := by
  have h : ∀ (l : List ℕ) (c : ℕ),
      l.foldl (fun c i => c + ((data i).getLsbD k).toNat) c = c + l.countP (plane data k) := by
    intro l
    induction l with
    | nil => simp
    | cons i l ih =>
      intro c
      rw [List.foldl_cons, ih, List.countP_cons, plane]
      cases (data i).getLsbD k <;> simp [Nat.add_comm, Nat.add_assoc]
  rw [countOnes, h, Nat.zero_add]

/-! ## The group loops -/

theorem encodeFewScan_index {size : ℕ} (s : Bitstream T) (bits : ℕ) (x : BitVec 64) {n : ℕ}
    (hn : n < size) : (encodeFewScan size s bits x n).2.2.2 < size := by
  fun_induction encodeFewScan with
  | case1 => exact hn
  | case2 s bits x n h s' hx ih => exact ih (by omega)
  | case3 => exact hn

theorem encodeFewGroups_index {size : ℕ} (s : Bitstream T) (bits : ℕ) (x : BitVec 64) {n : ℕ}
    (hn : n ≤ size) : (encodeFewGroups size s bits x n).2.2 ≤ size := by
  fun_induction encodeFewGroups with
  | case1 s bits x n h s' hx r ih => exact ih (encodeFewScan_index s' (bits - 1) x h.2)
  | case2 => exact hn
  | case3 => exact hn

/-- The groups of a small block, after a positive test if the flag is set. -/
private def fewRest (size : ℕ) (t : Bool) (s : Bitstream T) (bits : ℕ) (x : BitVec 64) (n : ℕ) :
    Bitstream T × ℕ × ℕ :=
  if t then
    let r := encodeFewScan size s bits x n
    encodeFewGroups size r.1 r.2.1 (r.2.2.1 >>> 1) (r.2.2.2 + 1)
  else encodeFewGroups size s bits x n

private theorem encodeFewGroups_zero (size : ℕ) (s : Bitstream T) (x : BitVec 64) (n : ℕ) :
    encodeFewGroups size s 0 x n = (s, 0, n) := by
  rw [encodeFewGroups]
  simp

private theorem fewRest_coded {f : ℕ → Bool} {size : ℕ} (m : ℕ) {n : ℕ} (hm : n + m = size)
    (s : Bitstream T) (bits : ℕ) {x : BitVec 64} (hx : Holds f size n x) (t : Bool)
    (ht : t = true → 0 < m) : Coded (groupCode f t m n) s bits (fewRest size t s bits x n) := by
  induction m generalizing n s bits x t with
  | zero =>
    obtain rfl : t = false := by simpa using ht
    rw [fewRest, if_neg (by simp), encodeFewGroups, if_neg (by omega)]
    exact coded_nil s bits n
  | succ m ih =>
    have hnext := hx.shift 1
    have hscan : ∀ (s : Bitstream T) bits, Coded (groupCode f true (m + 1) n) s bits
        (fewRest size true s bits x n) := by
      intro s bits
      rw [fewRest, if_pos rfl, encodeFewScan]
      obtain - | m := m
      · rw [if_neg (by omega)]
        exact ih (by omega) s bits hnext false (by simp)
      · by_cases hbits : bits = 0
        · subst hbits
          rw [if_neg (by omega)]
          simp only [encodeFewGroups_zero]
          exact coded_zero _ s _
        · rw [if_pos (by omega), groupCode_scan]
          simp only [hx.bit (by omega)]
          refine Coded.cons ?_ hbits
          have hi := ih (n := n + 1) (by omega) (streamWriteBit s (f n)) (bits - 1) hnext (!f n)
            (by omega)
          cases hf : f n <;> simpa [fewRest, hf] using hi
    cases t
    · by_cases hbits : bits = 0
      · subst hbits
        rw [fewRest, if_neg (by simp), encodeFewGroups_zero]
        exact coded_zero _ s _
      · have hany := hx.ne_zero
        rw [show size - n = m + 1 by omega] at hany
        rw [fewRest, if_neg (by simp), encodeFewGroups, if_pos (by omega)]
        cases h : (List.range' n (m + 1)).any f
        · rw [groupCode_none h]
          simp only [hany, h, Bool.false_eq_true, if_false]
          exact (coded_nil _ _ n).cons hbits
        · rw [groupCode_test h]
          simp only [hany, h, if_true]
          exact (hscan _ _).cons hbits
    · exact hscan s bits

/-- The groups of a large block, after a positive test if the flag is set. -/
private def manyRest (data : ℕ → BitVec w) (k size : ℕ) (t : Bool) (s : Bitstream T)
    (bits c n : ℕ) : Bitstream T × ℕ × ℕ :=
  if t then
    let r := encodeManyScan data k size s bits n
    encodeManyGroups data k size r.1 r.2.1 c (r.2.2 + 1)
  else encodeManyGroups data k size s bits c n

private theorem encodeManyGroups_zero (data : ℕ → BitVec w) (k size : ℕ) (s : Bitstream T)
    (c n : ℕ) : encodeManyGroups data k size s 0 c n = (s, 0, n) := by
  rw [encodeManyGroups]
  simp

private theorem countP_ne_zero (f : ℕ → Bool) (l : List ℕ) : (l.countP f != 0) = l.any f := by
  rw [Bool.eq_iff_iff, bne_iff_ne, ne_eq, List.countP_eq_zero, List.any_eq_true]
  push Not
  rfl

private theorem manyRest_coded (data : ℕ → BitVec w) (k : ℕ) {size : ℕ} (m : ℕ) {n : ℕ}
    (hm : n + m = size) (s : Bitstream T) (bits : ℕ) {c : ℕ} (t : Bool) (ht : t = true → 0 < m)
    (hc : c + t.toNat = (List.range' n m).countP (plane data k)) :
    Coded (groupCode (plane data k) t m n) s bits (manyRest data k size t s bits c n) := by
  induction m generalizing n s bits c t with
  | zero =>
    obtain rfl : t = false := by simpa using ht
    rw [manyRest, if_neg (by simp), encodeManyGroups, if_neg (by omega)]
    exact coded_nil s bits n
  | succ m ih =>
    have hscan : ∀ (s : Bitstream T) bits c,
        c + 1 = (List.range' n (m + 1)).countP (plane data k) →
        Coded (groupCode (plane data k) true (m + 1) n) s bits
          (manyRest data k size true s bits c n) := by
      intro s bits c hc
      rw [List.range'_succ, List.countP_cons] at hc
      rw [manyRest, if_pos rfl, encodeManyScan]
      obtain - | m := m
      · rw [if_neg (by omega)]
        refine ih (c := c) (by omega) s bits false (by simp) ?_
        simp only [List.range'_zero, List.countP_nil] at hc ⊢
        split at hc <;> simp <;> omega
      · by_cases hbits : bits = 0
        · subst hbits
          rw [if_neg (by omega)]
          simp only [encodeManyGroups_zero]
          exact coded_zero _ s _
        · rw [if_pos (by omega), groupCode_scan]
          refine Coded.cons ?_ hbits
          have hi := ih (n := n + 1) (c := c) (by omega)
            (streamWriteBit s (plane data k n)) (bits - 1) (!plane data k n) (by omega)
          simp only [plane] at hi hc ⊢
          cases hf : (data n).getLsbD k
          · simp only [hf, Bool.false_eq_true, if_false, Nat.add_zero] at hi hc
            simpa [manyRest, hf] using hi hc
          · simp only [hf, if_true, Nat.add_right_cancel_iff] at hi hc
            simpa [manyRest, hf] using hi hc
    cases t
    · by_cases hbits : bits = 0
      · subst hbits
        rw [manyRest, if_neg (by simp), encodeManyGroups_zero]
        exact coded_zero _ s _
      · rw [Bool.toNat_false, Nat.add_zero] at hc
        have hany := countP_ne_zero (plane data k) (List.range' n (m + 1))
        rw [manyRest, if_neg (by simp), encodeManyGroups, if_pos (by omega)]
        rw [← hc] at hany
        cases h : (List.range' n (m + 1)).any (plane data k)
        · rw [groupCode_none h]
          simp only [hany, h, Bool.false_eq_true, if_false]
          exact (coded_nil _ _ n).cons hbits
        · rw [groupCode_test h]
          rw [h, bne_iff_ne] at hany
          simp only [bne_iff_ne.mpr hany, if_true]
          exact (hscan _ _ _ (by omega)).cons hbits
    · exact hscan s bits c hc

/-! ## All planes -/

/-- The verbatim prefix of a plane is cut by the budget like the rest of its code. -/
theorem Coded.verbatim {c : List Bool × ℕ} {s : Bitstream T} {bits : ℕ} {l : List Bool}
    {r : Bitstream T × ℕ × ℕ} (h : Coded c (s.append (l.take bits)) (bits - l.length) r) :
    Coded (l ++ c.1, c.2) s bits r := by
  obtain ⟨h1, h2, h3⟩ := h
  refine ⟨?_, ?_, h3⟩
  · rw [h1, ← append_append, List.take_append]
  · rw [h2, List.length_append, Nat.sub_sub]

/-- After a plane the remaining planes are written within the remaining budget. -/
theorem Coded.next {c : List Bool × ℕ} {s : Bitstream T} {bits : ℕ} {l : List Bool}
    {r : Bitstream T × ℕ × ℕ} (h : Coded c s bits r) {p : Bitstream T × ℕ}
    (hp : p = (r.1.append (l.take r.2.1), r.2.1 - l.length)) :
    p = (s.append ((c.1 ++ l).take bits), bits - (c.1 ++ l).length) := by
  rw [hp, h.1, h.2.1, ← append_append, List.take_append, List.length_append, Nat.sub_sub]

/-- `planes` writes the code of the planes below `k` within its budget. -/
private structure WritesPlanes (data : ℕ → BitVec w) (size kmin k : ℕ)
    (planes : Bitstream T → ℕ → ℕ → Bitstream T × ℕ) : Prop where
  stop : ∀ s n, planes s 0 n = (s, 0)
  code : ∀ s bits n, s.WF → n ≤ size →
    planes s bits n = (s.append ((planesCode (plane data) size kmin k n).take bits),
      bits - (planesCode (plane data) size kmin k n).length)

/-- One more plane: `r` is the state after its groups, which follow the verbatim prefix. -/
private theorem WritesPlanes.succ {data : ℕ → BitVec w} {size kmin k : ℕ}
    {planes : Bitstream T → ℕ → ℕ → Bitstream T × ℕ} (h : WritesPlanes data size kmin k planes)
    {s : Bitstream T} (hs : s.WF) {bits n : ℕ} (hn : n ≤ size) (hk : kmin ≤ k)
    {r : Bitstream T × ℕ × ℕ}
    (hr : Coded (groupCode (plane data k) false (size - n) n)
      (s.append (((List.range n).map (plane data k)).take bits)) (bits - min n bits) r) :
    planes r.1 r.2.1 r.2.2 =
      (s.append ((planesCode (plane data) size kmin (k + 1) n).take bits),
        bits - (planesCode (plane data) size kmin (k + 1) n).length) := by
  have hlen : bits - min n bits = bits - ((List.range n).map (plane data k)).length := by
    rw [List.length_map, List.length_range]
    omega
  rw [hlen] at hr
  have hplane : Coded (planeCode (plane data k) size n) s bits r := hr.verbatim
  rw [planesCode, if_pos hk]
  refine hplane.next ?_
  by_cases hr0 : r.2.1 = 0
  · simp [hr0, h.stop]
  · rw [hplane.2.2 hr0]
    exact h.code _ _ _ (hplane.1 ▸ hs.append _) (planeCode_bounds hn).2

private theorem encodeFewPlanes_writes (data : ℕ → BitVec w) {size : ℕ} (hsize : size ≤ 64)
    (kmin k : ℕ) : WritesPlanes (T := T) data size kmin k (encodeFewPlanes data size kmin k) := by
  induction k with
  | zero => exact ⟨fun _ _ => rfl, fun s bits n _ _ => by simp [encodeFewPlanes, planesCode]⟩
  | succ k ih =>
    refine ⟨fun s n => by simp [encodeFewPlanes], fun s bits n hs hn => ?_⟩
    by_cases hbits : bits = 0
    · simp [encodeFewPlanes, hbits]
    by_cases hk : kmin ≤ k
    · have hx := holds_extractPlane data k hsize
      have hverb : lowBits (extractPlane data k size) (min n bits) =
          ((List.range n).map (plane data k)).take bits := by
        rw [← List.map_take, List.take_range, Nat.min_comm n bits]
        refine List.map_congr_left fun i hi => ?_
        rw [List.mem_range] at hi
        rw [hx, Nat.zero_add, decide_eq_true (by omega), Bool.true_and]
      rw [encodeFewPlanes, if_pos ⟨hbits, hk⟩]
      simp only [streamWriteBits_eq hs _ (show min n bits ≤ 64 by omega), hverb]
      refine ih.succ hs hn hk ?_
      by_cases hnb : n ≤ bits
      · rw [Nat.min_eq_left hnb]
        have hx' := hx.shift n
        rw [Nat.zero_add] at hx'
        exact fewRest_coded (size - n) (by omega) _ _ hx' false (by simp)
      · rw [show bits - min n bits = 0 by omega, encodeFewGroups_zero]
        exact coded_zero _ _ _
    · rw [encodeFewPlanes, if_neg (by omega), planesCode, if_neg hk]
      simp

private theorem encodeManyPlanes_writes (data : ℕ → BitVec w) (size kmin k : ℕ) :
    WritesPlanes (T := T) data size kmin k (encodeManyPlanes data size kmin k) := by
  induction k with
  | zero => exact ⟨fun _ _ => rfl, fun s bits n _ _ => by simp [encodeManyPlanes, planesCode]⟩
  | succ k ih =>
    refine ⟨fun s n => by simp [encodeManyPlanes], fun s bits n hs hn => ?_⟩
    by_cases hbits : bits = 0
    · simp [encodeManyPlanes, hbits]
    by_cases hk : kmin ≤ k
    · have hverb : (List.range (min n bits)).map (plane data k) =
          ((List.range n).map (plane data k)).take bits := by
        rw [← List.map_take, List.take_range, Nat.min_comm]
      rw [encodeManyPlanes, if_pos ⟨hbits, hk⟩]
      simp only [writePlane_eq, hverb]
      refine ih.succ hs hn hk ?_
      by_cases hnb : n ≤ bits
      · rw [Nat.min_eq_left hnb]
        exact manyRest_coded data k (size - n) (by omega) _ _ false (by simp) (countOnes_eq ..)
      · rw [show bits - min n bits = 0 by omega, encodeManyGroups_zero]
        exact coded_zero _ _ _
    · rw [encodeManyPlanes, if_neg (by omega), planesCode, if_neg hk]
      simp

/-- The budgeted encoder of small blocks writes the code up to the end of the budget. -/
theorem encodeFewInts_eq {s : Bitstream T} (hs : s.WF) (maxbits maxprec : ℕ)
    (data : ℕ → BitVec w) {size : ℕ} (hsize : size ≤ 64) :
    encodeFewInts s maxbits maxprec data size =
      (min maxbits (intsCode data maxprec size).length,
        s.append ((intsCode data maxprec size).take maxbits)) := by
  have h := (encodeFewPlanes_writes data hsize (w - maxprec) w).code s maxbits 0 hs (Nat.zero_le _)
  rw [encodeFewInts, h, intsCode]
  simp only [Prod.mk.injEq, and_true]
  omega

/-- The budgeted encoder of large blocks writes the code up to the end of the budget. -/
theorem encodeManyInts_eq {s : Bitstream T} (hs : s.WF) (maxbits maxprec : ℕ)
    (data : ℕ → BitVec w) (size : ℕ) :
    encodeManyInts s maxbits maxprec data size =
      (min maxbits (intsCode data maxprec size).length,
        s.append ((intsCode data maxprec size).take maxbits)) := by
  have h := (encodeManyPlanes_writes data size (w - maxprec) w).code s maxbits 0 hs (Nat.zero_le _)
  rw [encodeManyInts, h, intsCode]
  simp only [Prod.mk.injEq, and_true]
  omega

/-! ## The encoders without a budget -/

private def fewRestPrec (size : ℕ) (t : Bool) (s : Bitstream T) (x : BitVec 64) (n : ℕ) :
    Bitstream T × ℕ :=
  if t then
    let r := encodeFewScanPrec size s x n
    encodeFewGroupsPrec size r.1 (r.2.1 >>> 1) (r.2.2 + 1)
  else encodeFewGroupsPrec size s x n

private theorem fewRestPrec_eq {f : ℕ → Bool} {size : ℕ} (m : ℕ) {n : ℕ} (hm : n + m = size)
    (s : Bitstream T) {x : BitVec 64} (hx : Holds f size n x) (t : Bool) (ht : t = true → 0 < m) :
    fewRestPrec size t s x n = (s.append (groupCode f t m n).1, (groupCode f t m n).2) := by
  induction m generalizing n s x t with
  | zero =>
    obtain rfl : t = false := by simpa using ht
    rw [fewRestPrec, if_neg (by simp), encodeFewGroupsPrec, if_neg (by omega)]
    simp
  | succ m ih =>
    have hnext := hx.shift 1
    have hscan : ∀ s : Bitstream T, fewRestPrec size true s x n =
        (s.append (groupCode f true (m + 1) n).1, (groupCode f true (m + 1) n).2) := by
      intro s
      rw [fewRestPrec, if_pos rfl, encodeFewScanPrec]
      obtain - | m := m
      · rw [if_neg (by omega)]
        exact ih (by omega) s hnext false (by simp)
      · rw [if_pos (by omega), groupCode_scan]
        simp only [hx.bit (by omega)]
        have hi := ih (n := n + 1) (by omega) (streamWriteBit s (f n)) hnext (!f n) (by omega)
        cases hf : f n <;> simpa [fewRestPrec, hf] using hi
    cases t
    · have hany := hx.ne_zero
      rw [show size - n = m + 1 by omega] at hany
      rw [fewRestPrec, if_neg (by simp), encodeFewGroupsPrec, if_pos (by omega)]
      cases h : (List.range' n (m + 1)).any f
      · rw [groupCode_none h]
        simp only [hany, h, Bool.false_eq_true, if_false]
        rfl
      · rw [groupCode_test h]
        simp only [hany, h, if_true]
        exact hscan _
    · exact hscan s

private def manyRestPrec (data : ℕ → BitVec w) (k size : ℕ) (t : Bool) (s : Bitstream T)
    (c n : ℕ) : Bitstream T × ℕ :=
  if t then
    let r := encodeManyScanPrec data k size s n
    encodeManyGroupsPrec data k size r.1 c (r.2 + 1)
  else encodeManyGroupsPrec data k size s c n

private theorem manyRestPrec_eq (data : ℕ → BitVec w) (k : ℕ) {size : ℕ} (m : ℕ) {n : ℕ}
    (hm : n + m = size) (s : Bitstream T) {c : ℕ} (t : Bool) (ht : t = true → 0 < m)
    (hc : c + t.toNat = (List.range' n m).countP (plane data k)) :
    manyRestPrec data k size t s c n =
      (s.append (groupCode (plane data k) t m n).1, (groupCode (plane data k) t m n).2) := by
  induction m generalizing n s c t with
  | zero =>
    obtain rfl : t = false := by simpa using ht
    rw [manyRestPrec, if_neg (by simp), encodeManyGroupsPrec, if_neg (by omega)]
    simp
  | succ m ih =>
    have hscan : ∀ (s : Bitstream T) c,
        c + 1 = (List.range' n (m + 1)).countP (plane data k) →
        manyRestPrec data k size true s c n =
          (s.append (groupCode (plane data k) true (m + 1) n).1,
            (groupCode (plane data k) true (m + 1) n).2) := by
      intro s c hc
      rw [List.range'_succ, List.countP_cons] at hc
      rw [manyRestPrec, if_pos rfl, encodeManyScanPrec]
      obtain - | m := m
      · rw [if_neg (by omega)]
        refine ih (c := c) (by omega) s false (by simp) ?_
        simp only [List.range'_zero, List.countP_nil] at hc ⊢
        split at hc <;> simp <;> omega
      · rw [if_pos (by omega), groupCode_scan]
        have hi := ih (n := n + 1) (c := c) (by omega) (streamWriteBit s (plane data k n))
          (!plane data k n) (by omega)
        simp only [plane] at hi hc ⊢
        cases hf : (data n).getLsbD k
        · simp only [hf, Bool.false_eq_true, if_false, Nat.add_zero] at hi hc
          simpa [manyRestPrec, hf] using hi hc
        · simp only [hf, if_true, Nat.add_right_cancel_iff] at hi hc
          simpa [manyRestPrec, hf] using hi hc
    cases t
    · rw [Bool.toNat_false, Nat.add_zero] at hc
      have hany := countP_ne_zero (plane data k) (List.range' n (m + 1))
      rw [manyRestPrec, if_neg (by simp), encodeManyGroupsPrec, if_pos (by omega)]
      rw [← hc] at hany
      cases h : (List.range' n (m + 1)).any (plane data k)
      · rw [groupCode_none h]
        simp [hany, h]
      · rw [groupCode_test h]
        rw [h, bne_iff_ne] at hany
        simp only [bne_iff_ne.mpr hany, if_true]
        exact hscan _ _ (by omega)
    · exact hscan s c hc

private theorem encodeFewPlanesPrec_eq (data : ℕ → BitVec w) {size : ℕ} (hsize : size ≤ 64)
    (kmin k : ℕ) {s : Bitstream T} (hs : s.WF) {n : ℕ} (hn : n ≤ size) :
    encodeFewPlanesPrec data size kmin k s n =
      s.append (planesCode (plane data) size kmin k n) := by
  induction k generalizing s n with
  | zero => rfl
  | succ k ih =>
    rw [encodeFewPlanesPrec, planesCode]
    by_cases hk : kmin ≤ k
    · have hx := holds_extractPlane data k hsize
      have hx' := hx.shift n
      rw [Nat.zero_add] at hx'
      have hverb : lowBits (extractPlane data k size) n = (List.range n).map (plane data k) := by
        refine List.map_congr_left fun i hi => ?_
        rw [List.mem_range] at hi
        rw [hx, Nat.zero_add, decide_eq_true (by omega), Bool.true_and]
      have hg := fewRestPrec_eq (size - n) (by omega)
        (s.append ((List.range n).map (plane data k))) hx' false (by simp)
      simp only [fewRestPrec, Bool.false_eq_true, if_false] at hg
      rw [if_pos hk, if_pos hk]
      simp only [streamWriteBits_eq hs _ (show n ≤ 64 by omega), hverb, hg, ← append_append]
      exact (ih (hs.append _) (planeCode_bounds hn).2).trans (append_append ..).symm
    · rw [if_neg hk, if_neg hk]
      rfl

private theorem encodeManyPlanesPrec_eq (data : ℕ → BitVec w) (size kmin k : ℕ)
    {s : Bitstream T} (hs : s.WF) {n : ℕ} (hn : n ≤ size) :
    encodeManyPlanesPrec data size kmin k s n =
      s.append (planesCode (plane data) size kmin k n) := by
  induction k generalizing s n with
  | zero => rfl
  | succ k ih =>
    rw [encodeManyPlanesPrec, planesCode]
    by_cases hk : kmin ≤ k
    · have hc : countOnes data k n size + false.toNat = _ := countOnes_eq data k n size
      have hg := manyRestPrec_eq data k (size - n) (Nat.add_sub_cancel' hn)
        (s.append ((List.range n).map (plane data k))) false (by simp) hc
      simp only [manyRestPrec, Bool.false_eq_true, if_false] at hg
      rw [if_pos hk, if_pos hk]
      simp only [writePlane_eq, hg, ← append_append]
      exact (ih (hs.append _) (planeCode_bounds hn).2).trans (append_append ..).symm
    · rw [if_neg hk, if_neg hk]
      rfl

theorem encodeFewIntsPrec_eq {s : Bitstream T} (hs : s.WF) (maxprec : ℕ) (data : ℕ → BitVec w)
    {size : ℕ} (hsize : size ≤ 64) :
    encodeFewIntsPrec s maxprec data size =
      ((intsCode data maxprec size).length % 2 ^ 32, s.append (intsCode data maxprec size)) := by
  simp only [encodeFewIntsPrec, encodeFewPlanesPrec_eq data hsize _ _ hs (Nat.zero_le _),
    streamWtell_append hs, Nat.add_sub_cancel_left]
  rfl

theorem encodeManyIntsPrec_eq {s : Bitstream T} (hs : s.WF) (maxprec : ℕ) (data : ℕ → BitVec w)
    (size : ℕ) :
    encodeManyIntsPrec s maxprec data size =
      ((intsCode data maxprec size).length % 2 ^ 32, s.append (intsCode data maxprec size)) := by
  simp only [encodeManyIntsPrec, encodeManyPlanesPrec_eq data _ _ _ hs (Nat.zero_le _),
    streamWtell_append hs, Nat.add_sub_cancel_left]
  rfl

/-! ## The dispatch -/

theorem intsCode_length (data : ℕ → BitVec w) (maxprec : ℕ) {size : ℕ} (hsize : 0 < size) :
    (intsCode data maxprec size).length ≤ (min maxprec w + 1) * size - 1 := by
  have h := planesCode_length (plane data) hsize (w - maxprec) w
  have hmin : w - (w - maxprec) = min maxprec w := by omega
  rwa [hmin] at h

/-- Without overflow of the product the dispatch compares the budget with the bound. -/
theorem withMaxbits_eq {maxbits maxprec size : ℕ} (hsize : 0 < size)
    (h : (maxprec + 1) * size ≤ 2 ^ 32) :
    withMaxbits maxbits maxprec size = decide (maxbits < (maxprec + 1) * size - 1) := by
  have hpos : 0 < (maxprec + 1) * size := Nat.mul_pos (Nat.succ_pos _) hsize
  have he : (maxprec + 1) * size + (2 ^ 32 - 1) = (maxprec + 1) * size - 1 + 2 ^ 32 := by omega
  rw [withMaxbits, he, Nat.add_mod_right, Nat.mod_eq_of_lt (by omega)]

theorem prec_mul_size_le {maxprec size : ℕ} (hprec : maxprec ≤ 64) (hsize : size ≤ 2 ^ 24) :
    (maxprec + 1) * size ≤ 2 ^ 32 :=
  (Nat.mul_le_mul (Nat.succ_le_succ hprec) hsize).trans (by decide)

theorem intsCode_length_le (data : ℕ → BitVec w) (maxprec : ℕ) {size : ℕ} (hsize : 0 < size) :
    (intsCode data maxprec size).length ≤ (maxprec + 1) * size - 1 :=
  (intsCode_length data maxprec hsize).trans
    (Nat.sub_le_sub_right (Nat.mul_le_mul_right _ (by omega)) _)

/-- Every variant that the dispatch may choose writes the code within the budget. -/
theorem encodeInts_eq {s : Bitstream T} (hs : s.WF) (maxbits : ℕ) {maxprec : ℕ}
    (data : ℕ → BitVec w) {size : ℕ} (hsize : 0 < size) (hsize' : size ≤ 2 ^ 24)
    (hprec : maxprec ≤ 64) :
    encodeInts s maxbits maxprec data size =
      (min maxbits (intsCode data maxprec size).length,
        s.append ((intsCode data maxprec size).take maxbits)) := by
  have hmul := prec_mul_size_le hprec hsize'
  have hlen := intsCode_length_le data maxprec hsize
  rw [encodeInts, withMaxbits_eq hsize hmul]
  split
  · split
    · exact encodeFewInts_eq hs maxbits maxprec data ‹_›
    · exact encodeManyInts_eq hs maxbits maxprec data size
  · next h =>
    rw [decide_eq_true_eq] at h
    rw [Nat.min_eq_right (by omega), List.take_of_length_le (by omega)]
    have hmod : (intsCode data maxprec size).length % 2 ^ 32 =
      (intsCode data maxprec size).length := Nat.mod_eq_of_lt (by omega)
    split
    · rw [encodeFewIntsPrec_eq hs maxprec data ‹_›, hmod]
    · rw [encodeManyIntsPrec_eq hs maxprec data size, hmod]

/-- All encoder variants are one embedded coder. -/
theorem encoder_variants_agree (data : ℕ → BitVec w) {size maxprec : ℕ} (hsize : 0 < size)
    (hsize' : size ≤ 2 ^ 24) (hprec : maxprec ≤ 64) :
    ∃ code : List Bool, code.length ≤ (min maxprec w + 1) * size - 1 ∧
      ∀ (T : WordType) (s : Bitstream T), s.WF → ∀ maxbits,
        encodeManyIntsPrec s maxprec data size = (code.length, s.append code) ∧
        encodeManyInts s maxbits maxprec data size =
          (min maxbits code.length, s.append (code.take maxbits)) ∧
        (size ≤ 64 →
          encodeFewIntsPrec s maxprec data size = encodeManyIntsPrec s maxprec data size ∧
          encodeFewInts s maxbits maxprec data size =
            encodeManyInts s maxbits maxprec data size) ∧
        encodeInts s maxbits maxprec data size = encodeManyInts s maxbits maxprec data size := by
  refine ⟨intsCode data maxprec size, intsCode_length data maxprec hsize, ?_⟩
  intro T s hs maxbits
  have hmul := prec_mul_size_le hprec hsize'
  have hlen := intsCode_length_le data maxprec hsize
  have hmany := encodeManyIntsPrec_eq hs maxprec data size
  have hmod : (intsCode data maxprec size).length % 2 ^ 32 =
    (intsCode data maxprec size).length := Nat.mod_eq_of_lt (by omega)
  refine ⟨by rw [hmany, hmod], encodeManyInts_eq hs maxbits maxprec data size, ?_, ?_⟩
  · intro h64
    rw [hmany, encodeFewIntsPrec_eq hs maxprec data h64, encodeFewInts_eq hs maxbits maxprec data h64,
      encodeManyInts_eq hs maxbits maxprec data size]
    exact ⟨rfl, rfl⟩
  · rw [encodeInts_eq hs maxbits data hsize hsize' hprec,
      encodeManyInts_eq hs maxbits maxprec data size]

theorem encoder_variants_agree_four :
    ∃ code : List Bool, code.length ≤ 15 ∧
      let s := streamOpen (T := .uint8) fun _ => 0
      encodeManyIntsPrec s 3 (fun i => BitVec.ofNat 32 (i <<< 30)) 4 =
        (code.length, s.append code) ∧
      encodeInts s 5 3 (fun i => BitVec.ofNat 32 (i <<< 30)) 4 =
        (min 5 code.length, s.append (code.take 5)) := by
  obtain ⟨code, hlen, h⟩ := encoder_variants_agree (fun i => BitVec.ofNat 32 (i <<< 30))
    (show 0 < 4 by decide) (by decide) (show 3 ≤ 64 by decide)
  obtain ⟨hprec, hmany, -, hints⟩ := h .uint8 _ (WF.rewind ⟨0, 0, 0, fun _ => 0⟩) 5
  exact ⟨code, hlen, hprec, hints.trans hmany⟩

end Zfp

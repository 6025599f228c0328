import Zfp.BitstreamReader
import Zfp.Decode
import Zfp.EncodeRefinement
import Zfp.PlaneCodeRoundTrip

/-!
# The decoders read the bit-plane code

Each decoder loop, started at an offset of the memory, computes the abstract decoder of
the bits of memory: with the budget of its caller, or without one. The plane word of a
small block and the stores to a large block deposit the same planes.
-/

namespace Zfp
open BitLists Bitstream PlaneCode

variable {T : WordType} {w : ℕ}

/-! ## Planes in words -/

private theorem ofBool_true_setWidth (v : ℕ) : (BitVec.ofBool true).setWidth v = 1#v := by
  apply BitVec.eq_of_toNat_eq
  simp

private theorem ofBool_false_shl (v k : ℕ) : (BitVec.ofBool false).setWidth v <<< k = 0#v := by
  apply BitVec.eq_of_toNat_eq
  simp

/-- A word that gains a plane. -/
theorem wordOf_add_bit {v k : ℕ} (hk : k < v) (f : ℕ → Bool) (b : Bool) (hf : f k = false) :
    (BitVec.ofBool b).setWidth v <<< k + wordOf v f = wordOf v (Function.update f k b) := by
  apply BitVec.eq_of_getLsbD_eq
  intro i hi
  rw [getLsbD_add_of_disjoint, getLsbD_ofBool_shiftLeft b hk, getLsbD_wordOf, getLsbD_wordOf]
  · by_cases hik : i = k
    · subst hik
      simp [hf, hi]
    · simp [hik]
  · intro j hj
    rw [getLsbD_ofBool_shiftLeft b hk, Bool.and_eq_true, decide_eq_true_eq] at hj
    rw [getLsbD_wordOf, hj.1, hf, Bool.and_false]

/-- The integers after plane `k` of each was increased by its bit of `f`. -/
def addPlane (data : ℕ → BitVec w) (k : ℕ) (f : ℕ → Bool) (i : ℕ) : BitVec w :=
  data i + (BitVec.ofBool (f i)).setWidth w <<< k

def addPlanes (data : ℕ → BitVec w) (g : ℕ → ℕ → Bool) (i : ℕ) : BitVec w :=
  data i + wordOf w (fun k => g k i)

/-- The integers whose first `size` elements are spelled by the planes `g`. -/
def storeInts (data : ℕ → BitVec w) (size : ℕ) (g : ℕ → ℕ → Bool) (i : ℕ) : BitVec w :=
  if i < size then wordOf w (fun k => g k i) else data i

theorem storeInts_of_lt (data : ℕ → BitVec w) (g : ℕ → ℕ → Bool) {size i : ℕ} (h : i < size) :
    storeInts data size g i = wordOf w (fun k => g k i) := if_pos h

theorem storeInts_of_le (data : ℕ → BitVec w) (g : ℕ → ℕ → Bool) {size i : ℕ} (h : size ≤ i) :
    storeInts data size g i = data i := if_neg (Nat.not_lt.mpr h)

theorem addBit_addPlane (data : ℕ → BitVec w) (k : ℕ) {f : ℕ → Bool} {n : ℕ} (hf : f n = false) :
    addBit (addPlane data k f) k n = addPlane data k (Function.update f n true) := by
  funext i
  by_cases hi : i = n
  · subst hi
    rw [addBit, Function.update_self, addPlane, addPlane, Function.update_self, hf,
      ofBool_false_shl, ofBool_true_setWidth, BitVec.add_zero]
  · rw [addBit, Function.update_of_ne hi, addPlane, addPlane, Function.update_of_ne hi]

theorem addPlane_zero (data : ℕ → BitVec w) (k : ℕ) : addPlane data k (fun _ => false) = data := by
  funext i
  rw [addPlane, ofBool_false_shl, BitVec.add_zero]

theorem addPlanes_addPlane (data : ℕ → BitVec w) {k : ℕ} (hk : k < w) (f : ℕ → Bool)
    {g : ℕ → ℕ → Bool} (hg : ∀ i, g k i = false) :
    addPlanes (addPlane data k f) g = addPlanes data (Function.update g k f) := by
  funext i
  have hu : (fun j => Function.update g k f j i) = Function.update (fun j => g j i) k (f i) := by
    funext j
    by_cases hj : j = k
    · subst hj
      rw [Function.update_self, Function.update_self]
    · rw [Function.update_of_ne hj, Function.update_of_ne hj]
  rw [addPlanes, addPlane, addPlanes, BitVec.add_assoc, hu, wordOf_add_bit hk _ _ (hg i)]

private theorem wordOf_false (v : ℕ) : wordOf v (fun _ => false) = 0#v := by
  apply BitVec.eq_of_getLsbD_eq
  intro i _
  simp

theorem addPlanes_zero (data : ℕ → BitVec w) : addPlanes data (fun _ _ => false) = data := by
  funext i
  rw [addPlanes, wordOf_false, BitVec.add_zero]

theorem zeroInts_eq (data : ℕ → BitVec w) (size i : ℕ) :
    zeroInts data size i = if i < size then 0 else data i := by
  induction size with
  | zero => rfl
  | succ size ih =>
    rw [zeroInts, List.range_succ, List.foldl_append]
    change Function.update (zeroInts data size) size 0 i = _
    by_cases hi : i = size
    · simp [hi]
    · have : i < size + 1 ↔ i < size := by omega
      rw [Function.update_of_ne hi, ih]
      simp only [this]

theorem addPlanes_zeroInts (data : ℕ → BitVec w) {size : ℕ} {g : ℕ → ℕ → Bool}
    (hg : ∀ k i, size ≤ i → g k i = false) :
    addPlanes (zeroInts data size) g = storeInts data size g := by
  funext i
  rw [addPlanes, zeroInts_eq, storeInts]
  by_cases hi : i < size
  · rw [if_pos hi, if_pos hi]
    exact BitVec.zero_add _
  · have h0 : (fun k => g k i) = fun _ => false := funext fun k => hg k i (by omega)
    rw [if_neg hi, if_neg hi, h0, wordOf_false, BitVec.add_zero]

theorem depositPlane_eq (data : ℕ → BitVec w) (k : ℕ) (x : BitVec 64) (i j : ℕ) :
    depositPlane data k x i j =
      if i ≤ j then data j + (BitVec.ofBool (x.getLsbD (j - i))).setWidth w <<< k else data j := by
  induction data, x, i using depositPlane.induct (k := k) with
  | case1 data x i h ih =>
    rw [depositPlane, if_pos h, ih]
    by_cases hij : j = i
    · subst hij
      rw [if_neg (by omega), if_pos le_rfl, Function.update_self, Nat.sub_self]
    · rw [Function.update_of_ne hij, BitVec.getLsbD_ushiftRight]
      by_cases hlt : i + 1 ≤ j
      · rw [if_pos hlt, if_pos (by omega), show 1 + (j - (i + 1)) = j - i by omega]
      · rw [if_neg hlt, if_neg (by omega)]
  | case2 data x i h =>
    have hx : x = 0#64 := by simpa using h
    rw [depositPlane, if_neg h, hx, BitVec.getLsbD_zero, ofBool_false_shl, BitVec.add_zero]
    split <;> rfl

theorem depositPlane_wordOf (data : ℕ → BitVec w) (k : ℕ) {f : ℕ → Bool}
    (hf : ∀ i, 64 ≤ i → f i = false) : depositPlane data k (wordOf 64 f) 0 = addPlane data k f := by
  funext i
  rw [depositPlane_eq, if_pos (Nat.zero_le i), Nat.sub_zero, getLsbD_wordOf, addPlane]
  by_cases hi : i < 64
  · simp [hi]
  · simp [hi, hf i (by omega)]

/-! ## The group loops -/

theorem decodeScan_lt (size : ℕ) (s : Bitstream T) (bits : ℕ) {n : ℕ} (hn : n < size) :
    (decodeScan size s bits n).1 < size := by
  fun_induction decodeScan with
  | case1 => exact hn
  | case2 s bits n h r hr ih => exact ih (by omega)
  | case3 => exact hn

theorem decodeFewGroups_index {size : ℕ} (s : Bitstream T) (bits : ℕ) (x : BitVec 64) {n : ℕ}
    (hn : n ≤ size) : (decodeFewGroups size s bits x n).2.1 ≤ size := by
  fun_induction decodeFewGroups with
  | case1 s bits x n h r hr r' ih => exact ih (decodeScan_lt size r.2 (bits - 1) h.2)
  | case2 => exact hn
  | case3 => exact hn

private theorem bits_ne_zero {e p : ℕ} : e - p ≠ 0 ↔ p < e := by omega

private theorem decodeFewGroups_zero (size : ℕ) (s : Bitstream T) (x : BitVec 64) (n : ℕ) :
    decodeFewGroups size s 0 x n = (x, n, 0, s) := by
  rw [decodeFewGroups]
  simp

private def fewUnread (size : ℕ) (t : Bool) (s : Bitstream T) (bits : ℕ) (x : BitVec 64) (n : ℕ) :
    BitVec 64 × ℕ × ℕ × Bitstream T :=
  if t then
    let r := decodeScan size s bits n
    decodeFewGroups size r.2.2 r.2.1 (x + 1#64 <<< r.1) (r.1 + 1)
  else decodeFewGroups size s bits x n

private theorem wordOf_push {f : ℕ → Bool} {n : ℕ} (hn : n < 64) (hf : f n = false) :
    wordOf 64 f + 1#64 <<< n = wordOf 64 (Function.update f n true) := by
  rw [BitVec.add_comm, ← ofBool_true_setWidth, wordOf_add_bit hn f true hf]

private theorem update_zero_above {f : ℕ → Bool} {n : ℕ} (hf : ∀ i, n ≤ i → f i = false) (b : Bool) :
    ∀ i, n + 1 ≤ i → (if b then Function.update f n true else f) i = false := by
  intro i hi
  cases b
  · exact hf i (by omega)
  · rw [if_pos rfl, Function.update_of_ne (by omega), hf i (by omega)]

private theorem fewUnread_eq (s : Bitstream T) {e size : ℕ} (hsize : size ≤ 64) (m : ℕ) {n p : ℕ}
    (hm : n + m = size) (hp : p ≤ e) {f : ℕ → Bool} (hf : ∀ i, n ≤ i → f i = false) (t : Bool)
    (ht : t = true → 0 < m) :
    let r := groupDecode (memBit s.mem) (some e) t m n p f
    fewUnread size t (streamRseek s p) (e - p) (wordOf 64 f) n =
      (wordOf 64 r.1, r.2.1, e - r.2.2, streamRseek s r.2.2) := by
  induction m generalizing n p f t with
  | zero =>
    obtain rfl : t = false := by simpa using ht
    rw [fewUnread, if_neg (by simp), decodeFewGroups, if_neg (by omega)]
    rfl
  | succ m ih =>
    have hscan : ∀ p ≤ e, let r := groupDecode (memBit s.mem) (some e) true (m + 1) n p f
        fewUnread size true (streamRseek s p) (e - p) (wordOf 64 f) n =
          (wordOf 64 r.1, r.2.1, e - r.2.2, streamRseek s r.2.2) := by
      intro p hp
      have hpush := wordOf_push (f := f) (n := n) (by omega) (hf n le_rfl)
      rw [fewUnread, if_pos rfl, decodeScan]
      obtain - | m := m
      · rw [if_neg (by omega), groupDecode_one]
        simp only [hpush]
        exact ih (by omega) hp (update_zero_above hf true) false (by simp)
      · by_cases hpe : p < e
        · rw [if_pos ⟨bits_ne_zero.mpr hpe, by omega⟩, groupDecode_scan _ (by simpa)]
          simp only [streamReadBit_rseek]
          have hi := ih (n := n + 1) (p := p + 1) (by omega) hpe
            (update_zero_above hf (memBit s.mem p)) (!memBit s.mem p) (by omega)
          rw [Nat.sub_sub]
          cases hb : memBit s.mem p <;> simpa [fewUnread, hb, hpush] using hi
        · rw [if_neg (by omega), groupDecode_scan_stop _ (by simpa using hpe)]
          simp only [show e - p = 0 by omega, decodeFewGroups_zero, hpush]
    cases t
    · by_cases hpe : p < e
      · rw [fewUnread, if_neg (by simp), decodeFewGroups, if_pos ⟨bits_ne_zero.mpr hpe, by omega⟩]
        simp only [streamReadBit_rseek]
        rw [Nat.sub_sub]
        cases hb : memBit s.mem p
        · rw [groupDecode_none _ (by simpa) hb]
          simp
        · rw [groupDecode_test _ (by simpa) hb]
          exact hscan (p + 1) hpe
      · rw [fewUnread, if_neg (by simp), groupDecode_stop _ (by simpa using hpe),
          show e - p = 0 by omega, decodeFewGroups_zero]
        simp only [show e - p = 0 by omega]
    · exact hscan p hp

private theorem decodeManyGroups_zero (k size : ℕ) (s : Bitstream T) (data : ℕ → BitVec w) (n : ℕ) :
    decodeManyGroups k size s 0 data n = (data, n, 0, s) := by
  rw [decodeManyGroups]
  simp

private def manyUnread (k size : ℕ) (t : Bool) (s : Bitstream T) (bits : ℕ) (data : ℕ → BitVec w)
    (n : ℕ) : (ℕ → BitVec w) × ℕ × ℕ × Bitstream T :=
  if t then
    let r := decodeScan size s bits n
    decodeManyGroups k size r.2.2 r.2.1 (addBit data k r.1) (r.1 + 1)
  else decodeManyGroups k size s bits data n

private theorem manyUnread_eq (s : Bitstream T) (data : ℕ → BitVec w) (k : ℕ) {e size : ℕ} (m : ℕ)
    {n p : ℕ} (hm : n + m = size) (hp : p ≤ e) {f : ℕ → Bool} (hf : ∀ i, n ≤ i → f i = false)
    (t : Bool) (ht : t = true → 0 < m) :
    let r := groupDecode (memBit s.mem) (some e) t m n p f
    manyUnread k size t (streamRseek s p) (e - p) (addPlane data k f) n =
      (addPlane data k r.1, r.2.1, e - r.2.2, streamRseek s r.2.2) := by
  induction m generalizing n p f t with
  | zero =>
    obtain rfl : t = false := by simpa using ht
    rw [manyUnread, if_neg (by simp), decodeManyGroups, if_neg (by omega)]
    rfl
  | succ m ih =>
    have hscan : ∀ p ≤ e, let r := groupDecode (memBit s.mem) (some e) true (m + 1) n p f
        manyUnread k size true (streamRseek s p) (e - p) (addPlane data k f) n =
          (addPlane data k r.1, r.2.1, e - r.2.2, streamRseek s r.2.2) := by
      intro p hp
      have hpush := addBit_addPlane data k (hf n le_rfl)
      rw [manyUnread, if_pos rfl, decodeScan]
      obtain - | m := m
      · rw [if_neg (by omega), groupDecode_one]
        simp only [hpush]
        exact ih (by omega) hp (update_zero_above hf true) false (by simp)
      · by_cases hpe : p < e
        · rw [if_pos ⟨bits_ne_zero.mpr hpe, by omega⟩, groupDecode_scan _ (by simpa)]
          simp only [streamReadBit_rseek]
          have hi := ih (n := n + 1) (p := p + 1) (by omega) hpe
            (update_zero_above hf (memBit s.mem p)) (!memBit s.mem p) (by omega)
          rw [Nat.sub_sub]
          cases hb : memBit s.mem p <;> simpa [manyUnread, hb, hpush] using hi
        · rw [if_neg (by omega), groupDecode_scan_stop _ (by simpa using hpe)]
          simp only [show e - p = 0 by omega, decodeManyGroups_zero, hpush]
    cases t
    · by_cases hpe : p < e
      · rw [manyUnread, if_neg (by simp), decodeManyGroups, if_pos ⟨bits_ne_zero.mpr hpe, by omega⟩]
        simp only [streamReadBit_rseek]
        rw [Nat.sub_sub]
        cases hb : memBit s.mem p
        · rw [groupDecode_none _ (by simpa) hb]
          simp
        · rw [groupDecode_test _ (by simpa) hb]
          exact hscan (p + 1) hpe
      · rw [manyUnread, if_neg (by simp), groupDecode_stop _ (by simpa using hpe),
          show e - p = 0 by omega, decodeManyGroups_zero]
        simp only [show e - p = 0 by omega]
    · exact hscan p hp

private def fewUnreadPrec (size : ℕ) (t : Bool) (s : Bitstream T) (x : BitVec 64) (n : ℕ) :
    BitVec 64 × ℕ × Bitstream T :=
  if t then
    let r := decodeScanPrec size s n
    decodeFewGroupsPrec size r.2 (x + 1#64 <<< r.1) (r.1 + 1)
  else decodeFewGroupsPrec size s x n

private theorem fewUnreadPrec_eq (s : Bitstream T) {size : ℕ} (hsize : size ≤ 64) (m : ℕ) {n p : ℕ}
    (hm : n + m = size) {f : ℕ → Bool} (hf : ∀ i, n ≤ i → f i = false) (t : Bool)
    (ht : t = true → 0 < m) :
    let r := groupDecode (memBit s.mem) none t m n p f
    fewUnreadPrec size t (streamRseek s p) (wordOf 64 f) n =
      (wordOf 64 r.1, r.2.1, streamRseek s r.2.2) := by
  induction m generalizing n p f t with
  | zero =>
    obtain rfl : t = false := by simpa using ht
    rw [fewUnreadPrec, if_neg (by simp), decodeFewGroupsPrec, if_neg (by omega)]
    rfl
  | succ m ih =>
    have hscan : ∀ p, let r := groupDecode (memBit s.mem) none true (m + 1) n p f
        fewUnreadPrec size true (streamRseek s p) (wordOf 64 f) n =
          (wordOf 64 r.1, r.2.1, streamRseek s r.2.2) := by
      intro p
      have hpush := wordOf_push (f := f) (n := n) (by omega) (hf n le_rfl)
      rw [fewUnreadPrec, if_pos rfl, decodeScanPrec]
      obtain - | m := m
      · rw [if_neg (by omega), groupDecode_one]
        simp only [hpush]
        exact ih (by omega) (update_zero_above hf true) false (by simp)
      · rw [if_pos (by omega), groupDecode_scan _ rfl]
        simp only [streamReadBit_rseek]
        have hi := ih (n := n + 1) (p := p + 1) (by omega)
          (update_zero_above hf (memBit s.mem p)) (!memBit s.mem p) (by omega)
        cases hb : memBit s.mem p <;> simpa [fewUnreadPrec, hb, hpush] using hi
    cases t
    · rw [fewUnreadPrec, if_neg (by simp), decodeFewGroupsPrec, if_pos (by omega)]
      simp only [streamReadBit_rseek]
      cases hb : memBit s.mem p
      · rw [groupDecode_none _ rfl hb]
        simp
      · rw [groupDecode_test _ rfl hb]
        exact hscan (p + 1)
    · exact hscan p

private def manyUnreadPrec (k size : ℕ) (t : Bool) (s : Bitstream T) (data : ℕ → BitVec w) (n : ℕ) :
    (ℕ → BitVec w) × ℕ × Bitstream T :=
  if t then
    let r := decodeScanPrec size s n
    decodeManyGroupsPrec k size r.2 (addBit data k r.1) (r.1 + 1)
  else decodeManyGroupsPrec k size s data n

private theorem manyUnreadPrec_eq (s : Bitstream T) (data : ℕ → BitVec w) (k : ℕ) {size : ℕ} (m : ℕ)
    {n p : ℕ} (hm : n + m = size) {f : ℕ → Bool} (hf : ∀ i, n ≤ i → f i = false) (t : Bool)
    (ht : t = true → 0 < m) :
    let r := groupDecode (memBit s.mem) none t m n p f
    manyUnreadPrec k size t (streamRseek s p) (addPlane data k f) n =
      (addPlane data k r.1, r.2.1, streamRseek s r.2.2) := by
  induction m generalizing n p f t with
  | zero =>
    obtain rfl : t = false := by simpa using ht
    rw [manyUnreadPrec, if_neg (by simp), decodeManyGroupsPrec, if_neg (by omega)]
    rfl
  | succ m ih =>
    have hscan : ∀ p, let r := groupDecode (memBit s.mem) none true (m + 1) n p f
        manyUnreadPrec k size true (streamRseek s p) (addPlane data k f) n =
          (addPlane data k r.1, r.2.1, streamRseek s r.2.2) := by
      intro p
      have hpush := addBit_addPlane data k (hf n le_rfl)
      rw [manyUnreadPrec, if_pos rfl, decodeScanPrec]
      obtain - | m := m
      · rw [if_neg (by omega), groupDecode_one]
        simp only [hpush]
        exact ih (by omega) (update_zero_above hf true) false (by simp)
      · rw [if_pos (by omega), groupDecode_scan _ rfl]
        simp only [streamReadBit_rseek]
        have hi := ih (n := n + 1) (p := p + 1) (by omega)
          (update_zero_above hf (memBit s.mem p)) (!memBit s.mem p) (by omega)
        cases hb : memBit s.mem p <;> simpa [manyUnreadPrec, hb, hpush] using hi
    cases t
    · rw [manyUnreadPrec, if_neg (by simp), decodeManyGroupsPrec, if_pos (by omega)]
      simp only [streamReadBit_rseek]
      cases hb : memBit s.mem p
      · rw [groupDecode_none _ rfl hb]
        simp
      · rw [groupDecode_test _ rfl hb]
        exact hscan (p + 1)
    · exact hscan p

/-! ## All planes -/

theorem fieldAt_eq (mem : ℕ → BitVec (wsize T)) (p m : ℕ) :
    fieldAt mem p m = wordOf 64 (verbatim (memBit mem) p m) := rfl

theorem readPlane_rseek (s : Bitstream T) (data : ℕ → BitVec w) (k m p : ℕ) :
    readPlane data k m (streamRseek s p) =
      (addPlane data k (verbatim (memBit s.mem) p m), streamRseek s (p + m)) := by
  induction m with
  | zero =>
    have h0 : verbatim (memBit s.mem) p 0 = fun _ => false :=
      funext fun i => verbatim_of_le (Nat.zero_le i)
    rw [h0, addPlane_zero]
    rfl
  | succ m ih =>
    have hv : verbatim (memBit s.mem) p (m + 1) =
        if memBit s.mem (p + m) then Function.update (verbatim (memBit s.mem) p m) m true
        else verbatim (memBit s.mem) p m := by
      funext i
      by_cases hi : i = m
      · subst hi
        cases hb : memBit s.mem (p + i) <;> simp [verbatim, hb]
      · have : i < m + 1 ↔ i < m := by omega
        split
        · rw [Function.update_of_ne hi]
          simp only [verbatim, this]
        · simp only [verbatim, this]
    rw [readPlane] at ih ⊢
    rw [List.range_succ, List.foldl_append, ih]
    simp only [List.foldl_cons, List.foldl_nil, streamReadBit_rseek, hv, Nat.add_assoc]
    rw [apply_ite (addPlane data k), addBit_addPlane data k (verbatim_of_le le_rfl)]

/-- What the groups of plane `k` of a small block compute after its verbatim prefix. -/
theorem decodeFewGroups_rseek (s : Bitstream T) {e size : ℕ} (hsize : size ≤ 64) {n p : ℕ}
    (hn : n ≤ size) (hp : p ≤ e) :
    decodeFewGroups size (streamRseek s (p + min n (e - p))) (e - (p + min n (e - p)))
      (wordOf 64 (verbatim (memBit s.mem) p (min n (e - p)))) n =
      (wordOf 64 (planeDecode (memBit s.mem) (some e) size n p).1,
        (planeDecode (memBit s.mem) (some e) size n p).2.1,
        e - (planeDecode (memBit s.mem) (some e) size n p).2.2,
        streamRseek s (planeDecode (memBit s.mem) (some e) size n p).2.2) :=
  fewUnread_eq s hsize (size - n) (by omega) (by omega) (fun i hi => verbatim_of_le (by omega))
    false (by simp)

theorem decodeManyGroups_rseek (s : Bitstream T) (data : ℕ → BitVec w) (k : ℕ) {e size n p : ℕ}
    (hn : n ≤ size) (hp : p ≤ e) :
    decodeManyGroups k size (streamRseek s (p + min n (e - p))) (e - (p + min n (e - p)))
      (addPlane data k (verbatim (memBit s.mem) p (min n (e - p)))) n =
      (addPlane data k (planeDecode (memBit s.mem) (some e) size n p).1,
        (planeDecode (memBit s.mem) (some e) size n p).2.1,
        e - (planeDecode (memBit s.mem) (some e) size n p).2.2,
        streamRseek s (planeDecode (memBit s.mem) (some e) size n p).2.2) :=
  manyUnread_eq s data k (size - n) (by omega) (by omega) (fun i hi => verbatim_of_le (by omega))
    false (by simp)

theorem decodeFewGroupsPrec_rseek (s : Bitstream T) {size : ℕ} (hsize : size ≤ 64) {n : ℕ}
    (hn : n ≤ size) (p : ℕ) :
    decodeFewGroupsPrec size (streamRseek s (p + n)) (wordOf 64 (verbatim (memBit s.mem) p n)) n =
      (wordOf 64 (planeDecode (memBit s.mem) none size n p).1,
        (planeDecode (memBit s.mem) none size n p).2.1,
        streamRseek s (planeDecode (memBit s.mem) none size n p).2.2) :=
  fewUnreadPrec_eq s hsize (size - n) (by omega) (fun i hi => verbatim_of_le hi) false (by simp)

theorem decodeManyGroupsPrec_rseek (s : Bitstream T) (data : ℕ → BitVec w) (k : ℕ) {size n : ℕ}
    (hn : n ≤ size) (p : ℕ) :
    decodeManyGroupsPrec k size (streamRseek s (p + n))
      (addPlane data k (verbatim (memBit s.mem) p n)) n =
      (addPlane data k (planeDecode (memBit s.mem) none size n p).1,
        (planeDecode (memBit s.mem) none size n p).2.1,
        streamRseek s (planeDecode (memBit s.mem) none size n p).2.2) :=
  manyUnreadPrec_eq s data k (size - n) (by omega) (fun i hi => verbatim_of_le hi) false (by simp)

theorem decodeFewPlanes_rseek (s : Bitstream T) {e size : ℕ} (hsize : size ≤ 64) (kmin : ℕ)
    {k : ℕ} (hk : k ≤ w) (data : ℕ → BitVec w) {n p : ℕ} (hn : n ≤ size) (hp : p ≤ e) :
    decodeFewPlanes size kmin k (streamRseek s p) (e - p) data n =
      (addPlanes data (planesDecode (memBit s.mem) (some e) size kmin k n p).1,
        e - (planesDecode (memBit s.mem) (some e) size kmin k n p).2,
        streamRseek s (planesDecode (memBit s.mem) (some e) size kmin k n p).2) := by
  induction k generalizing data n p with
  | zero => simp [decodeFewPlanes, addPlanes_zero]
  | succ k ih =>
    by_cases hk' : p < e ∧ kmin ≤ k
    · have hb := planeDecode_bounds (b := memBit s.mem) (e := some e) (p := p) hn
      have hle := planeDecode_le (memBit s.mem) size n hp
      rw [planesDecode_succ (by simpa using hk'.1) hk'.2, decodeFewPlanes,
        if_pos ⟨bits_ne_zero.mpr hk'.1, hk'.2⟩]
      simp only [streamReadBits_rseek s p (show min n (e - p) ≤ 64 by omega), fieldAt_eq,
        Nat.sub_sub, decodeFewGroups_rseek s hsize hn hp]
      rw [ih (by omega) _ hb.2.1 hle, depositPlane_wordOf, addPlanes_addPlane data (by omega)]
      · exact fun i => planesDecode_of_not_mem hb.2.1 (.inr (.inl le_rfl))
      · exact fun i hi => planeDecode_of_le hn (hsize.trans hi)
    · rw [planesDecode_stop (by rw [more_some, decide_eq_false_iff_not]; omega), decodeFewPlanes,
        if_neg (by omega), addPlanes_zero]

theorem decodeManyPlanes_rseek (s : Bitstream T) {e size : ℕ} (kmin : ℕ) {k : ℕ} (hk : k ≤ w)
    (data : ℕ → BitVec w) {n p : ℕ} (hn : n ≤ size) (hp : p ≤ e) :
    decodeManyPlanes size kmin k (streamRseek s p) (e - p) data n =
      (addPlanes data (planesDecode (memBit s.mem) (some e) size kmin k n p).1,
        e - (planesDecode (memBit s.mem) (some e) size kmin k n p).2,
        streamRseek s (planesDecode (memBit s.mem) (some e) size kmin k n p).2) := by
  induction k generalizing data n p with
  | zero => simp [decodeManyPlanes, addPlanes_zero]
  | succ k ih =>
    by_cases hk' : p < e ∧ kmin ≤ k
    · have hb := planeDecode_bounds (b := memBit s.mem) (e := some e) (p := p) hn
      have hle := planeDecode_le (memBit s.mem) size n hp
      rw [planesDecode_succ (by simpa using hk'.1) hk'.2, decodeManyPlanes,
        if_pos ⟨bits_ne_zero.mpr hk'.1, hk'.2⟩]
      simp only [readPlane_rseek, Nat.sub_sub, decodeManyGroups_rseek s data k hn hp]
      rw [ih (by omega) _ hb.2.1 hle, addPlanes_addPlane data (by omega)]
      exact fun i => planesDecode_of_not_mem hb.2.1 (.inr (.inl le_rfl))
    · rw [planesDecode_stop (by rw [more_some, decide_eq_false_iff_not]; omega), decodeManyPlanes,
        if_neg (by omega), addPlanes_zero]

theorem decodeFewPlanesPrec_rseek (s : Bitstream T) {size : ℕ} (hsize : size ≤ 64) (kmin : ℕ)
    {k : ℕ} (hk : k ≤ w) (data : ℕ → BitVec w) {n : ℕ} (hn : n ≤ size) (p : ℕ) :
    decodeFewPlanesPrec size kmin k (streamRseek s p) data n =
      (addPlanes data (planesDecode (memBit s.mem) none size kmin k n p).1,
        streamRseek s (planesDecode (memBit s.mem) none size kmin k n p).2) := by
  induction k generalizing data n p with
  | zero => simp [decodeFewPlanesPrec, addPlanes_zero]
  | succ k ih =>
    by_cases hk' : kmin ≤ k
    · have hb := planeDecode_bounds (b := memBit s.mem) (e := none) (p := p) hn
      rw [planesDecode_succ rfl hk', decodeFewPlanesPrec, if_pos hk']
      simp only [streamReadBits_rseek s p (hn.trans hsize), fieldAt_eq,
        decodeFewGroupsPrec_rseek s hsize hn]
      rw [ih (by omega) _ hb.2.1, depositPlane_wordOf, addPlanes_addPlane data (by omega)]
      · exact fun i => planesDecode_of_not_mem hb.2.1 (.inr (.inl le_rfl))
      · exact fun i hi => planeDecode_of_le hn (hsize.trans hi)
    · rw [planesDecode_stop (.inr (by omega)), decodeFewPlanesPrec, if_neg hk', addPlanes_zero]

theorem decodeManyPlanesPrec_rseek (s : Bitstream T) {size : ℕ} (kmin : ℕ) {k : ℕ} (hk : k ≤ w)
    (data : ℕ → BitVec w) {n : ℕ} (hn : n ≤ size) (p : ℕ) :
    decodeManyPlanesPrec size kmin k (streamRseek s p) data n =
      (addPlanes data (planesDecode (memBit s.mem) none size kmin k n p).1,
        streamRseek s (planesDecode (memBit s.mem) none size kmin k n p).2) := by
  induction k generalizing data n p with
  | zero => simp [decodeManyPlanesPrec, addPlanes_zero]
  | succ k ih =>
    by_cases hk' : kmin ≤ k
    · have hb := planeDecode_bounds (b := memBit s.mem) (e := none) (p := p) hn
      rw [planesDecode_succ rfl hk', decodeManyPlanesPrec, if_pos hk']
      simp only [readPlane_rseek, decodeManyGroupsPrec_rseek s data k hn]
      rw [ih (by omega) _ hb.2.1, addPlanes_addPlane data (by omega)]
      exact fun i => planesDecode_of_not_mem hb.2.1 (.inr (.inl le_rfl))
    · rw [planesDecode_stop (.inr (by omega)), decodeManyPlanesPrec, if_neg hk', addPlanes_zero]

/-! ## The decoders -/

/-- The planes decoded from the bits `b` at position `o`, and the position after them. -/
def intsDecode (b : ℕ → Bool) (e : Option ℕ) (w maxprec size o : ℕ) : (ℕ → ℕ → Bool) × ℕ :=
  planesDecode b e size (w - maxprec) w 0 o

private theorem addPlanes_intsDecode (b : ℕ → Bool) (e : Option ℕ) (maxprec : ℕ)
    (data : ℕ → BitVec w) (size o : ℕ) :
    addPlanes (zeroInts data size) (planesDecode b e size (w - maxprec) w 0 o).1 =
      storeInts data size (intsDecode b e w maxprec size o).1 :=
  addPlanes_zeroInts data fun _ _ hi => planesDecode_of_not_mem (Nat.zero_le _) (.inr (.inr hi))

theorem intsDecode_le (b : ℕ → Bool) (e : Option ℕ) (w maxprec : ℕ) {size : ℕ} (hsize : 0 < size)
    (o : ℕ) : (intsDecode b e w maxprec size o).2 ≤ o + ((min maxprec w + 1) * size - 1) := by
  have h := (planesDecode_length b e (w - maxprec) o (Nat.zero_le size) w).2
  have hmin : w - (w - maxprec) = min maxprec w := by omega
  rw [hmin] at h
  rw [intsDecode, Nat.add_mul, Nat.one_mul]
  omega

theorem le_intsDecode (b : ℕ → Bool) (e : Option ℕ) (w maxprec size o : ℕ) :
    o ≤ (intsDecode b e w maxprec size o).2 :=
  (planesDecode_length b e (w - maxprec) o (Nat.zero_le size) w).1

/-- A budget that covers the longest code does not change what is decoded. -/
theorem intsDecode_budget (b : ℕ → Bool) {w maxprec size maxbits : ℕ} (hsize : 0 < size) (o : ℕ)
    (h : (min maxprec w + 1) * size - 1 ≤ maxbits) :
    intsDecode b (some (o + maxbits)) w maxprec size o = intsDecode b none w maxprec size o := by
  have hle := intsDecode_le b none w maxprec hsize o
  obtain h' | h' := planesDecode_budget b (w - maxprec) w hsize (Nat.zero_le size)
    (Nat.le_add_right o maxbits)
  · exact h'.2
  · rw [intsDecode] at hle
    omega

theorem intsDecode_le_budget (b : ℕ → Bool) (w maxprec : ℕ) {size : ℕ} (hsize : 0 < size)
    (o maxbits : ℕ) : (intsDecode b (some (o + maxbits)) w maxprec size o).2 ≤ o + maxbits := by
  obtain ⟨hle, heq⟩ | ⟨-, heq⟩ := planesDecode_budget b (w - maxprec) w hsize (Nat.zero_le size)
    (Nat.le_add_right o maxbits)
  · rw [intsDecode, heq]
    exact hle
  · exact heq.le

/-- What a decoder returns for the decoded planes `r`, started at offset `o`. -/
def decoded (s : Bitstream T) (data : ℕ → BitVec w) (size o : ℕ) (r : (ℕ → ℕ → Bool) × ℕ) :
    (ℕ → BitVec w) × ℕ × Bitstream T :=
  (storeInts data size r.1, r.2 - o, streamRseek s r.2)

theorem decodeFewInts_rseek (s : Bitstream T) (o maxbits maxprec : ℕ) (data : ℕ → BitVec w)
    {size : ℕ} (hsize : 0 < size) (hsize' : size ≤ 64) :
    decodeFewInts (streamRseek s o) maxbits maxprec data size =
      decoded s data size o
        (intsDecode (memBit s.mem) (some (o + maxbits)) w maxprec size o) := by
  have h := decodeFewPlanes_rseek s hsize' (w - maxprec) le_rfl (zeroInts data size)
    (Nat.zero_le size) (Nat.le_add_right o maxbits)
  have hle := intsDecode_le_budget (memBit s.mem) w maxprec hsize o maxbits
  have hge := le_intsDecode (memBit s.mem) (some (o + maxbits)) w maxprec size o
  rw [Nat.add_sub_cancel_left] at h
  rw [decodeFewInts, h, addPlanes_intsDecode]
  rw [intsDecode] at hle hge
  simp only [decoded, intsDecode, Prod.mk.injEq, and_true, true_and]
  omega

theorem decodeManyInts_rseek (s : Bitstream T) (o maxbits maxprec : ℕ) (data : ℕ → BitVec w)
    {size : ℕ} (hsize : 0 < size) :
    decodeManyInts (streamRseek s o) maxbits maxprec data size =
      decoded s data size o
        (intsDecode (memBit s.mem) (some (o + maxbits)) w maxprec size o) := by
  have h := decodeManyPlanes_rseek s (w - maxprec) le_rfl (zeroInts data size)
    (Nat.zero_le size) (Nat.le_add_right o maxbits)
  have hle := intsDecode_le_budget (memBit s.mem) w maxprec hsize o maxbits
  have hge := le_intsDecode (memBit s.mem) (some (o + maxbits)) w maxprec size o
  rw [Nat.add_sub_cancel_left] at h
  rw [decodeManyInts, h, addPlanes_intsDecode]
  rw [intsDecode] at hle hge
  simp only [decoded, intsDecode, Prod.mk.injEq, and_true, true_and]
  omega

/-- What a decoder without a budget returns: its count has the width of `uint`. -/
def decodedPrec (s : Bitstream T) (data : ℕ → BitVec w) (size o : ℕ) (r : (ℕ → ℕ → Bool) × ℕ) :
    (ℕ → BitVec w) × ℕ × Bitstream T :=
  (storeInts data size r.1, (r.2 - o) % 2 ^ 32, streamRseek s r.2)

theorem decodeFewIntsPrec_rseek (s : Bitstream T) (o maxprec : ℕ) (data : ℕ → BitVec w)
    {size : ℕ} (hsize : size ≤ 64) :
    decodeFewIntsPrec (streamRseek s o) maxprec data size =
      decodedPrec s data size o (intsDecode (memBit s.mem) none w maxprec size o) := by
  have h := decodeFewPlanesPrec_rseek s hsize (w - maxprec) le_rfl (zeroInts data size)
    (Nat.zero_le size) o
  rw [decodeFewIntsPrec, h, addPlanes_intsDecode]
  simp only [streamRtell_rseek]
  rfl

theorem decodeManyIntsPrec_rseek (s : Bitstream T) (o maxprec : ℕ) (data : ℕ → BitVec w)
    (size : ℕ) :
    decodeManyIntsPrec (streamRseek s o) maxprec data size =
      decodedPrec s data size o (intsDecode (memBit s.mem) none w maxprec size o) := by
  have h := decodeManyPlanesPrec_rseek s (w - maxprec) le_rfl (zeroInts data size)
    (Nat.zero_le size) o
  rw [decodeManyIntsPrec, h, addPlanes_intsDecode]
  simp only [streamRtell_rseek]
  rfl

theorem decodedPrec_eq (s : Bitstream T) (data : ℕ → BitVec w) {size maxprec : ℕ} (o : ℕ)
    (hsize : 0 < size) (h : (min maxprec w + 1) * size ≤ 2 ^ 32) :
    decodedPrec s data size o (intsDecode (memBit s.mem) none w maxprec size o) =
      decoded s data size o (intsDecode (memBit s.mem) none w maxprec size o) := by
  have hle := intsDecode_le (memBit s.mem) none w maxprec hsize o
  have hpos : 0 < (min maxprec w + 1) * size := Nat.mul_pos (Nat.succ_pos _) hsize
  rw [decodedPrec, decoded, Nat.mod_eq_of_lt (by omega)]

/-- Every variant that the dispatch may choose decodes within the budget. -/
theorem decodeInts_rseek (s : Bitstream T) (o maxbits : ℕ) {maxprec : ℕ} (data : ℕ → BitVec w)
    {size : ℕ} (hsize : 0 < size) (hsize' : size ≤ 2 ^ 24) (hprec : maxprec ≤ 64) :
    decodeInts (streamRseek s o) maxbits maxprec data size =
      decoded s data size o
        (intsDecode (memBit s.mem) (some (o + maxbits)) w maxprec size o) := by
  have hmul := prec_mul_size_le hprec hsize'
  have hmin : (min maxprec w + 1) * size ≤ (maxprec + 1) * size :=
    Nat.mul_le_mul_right _ (by omega)
  rw [decodeInts, withMaxbits_eq hsize hmul]
  split
  · split
    · exact decodeFewInts_rseek s o maxbits maxprec data hsize ‹_›
    · exact decodeManyInts_rseek s o maxbits maxprec data hsize
  · next h =>
    rw [decide_eq_true_eq] at h
    rw [intsDecode_budget _ hsize o (by omega), ← decodedPrec_eq s data o hsize (by omega)]
    split
    · exact decodeFewIntsPrec_rseek s o maxprec data ‹_›
    · exact decodeManyIntsPrec_rseek s o maxprec data size

end Zfp

import Zfp.BitstreamShifts
import Zfp.DecodeRefinement

/-!
# Decoding arbitrary bits is defined

The decoders in the semantics of `BitstreamShifts`, where a shift by the width of its
operand and a store to an integer past the end of the array end the run with `none`.
On every input the checked run succeeds and agrees with the plain one.
-/

namespace Zfp
open BitLists Bitstream PlaneCode

variable {T : WordType} {w : ℕ}

/-- Store to the integer with index `i` of an array of `size` integers. -/
def checkedStore (data : ℕ → BitVec w) (size i : ℕ) (v : BitVec w) : Option (ℕ → BitVec w) :=
  if i < size then some (Function.update data i v) else none

def addBitChecked (data : ℕ → BitVec w) (size k i : ℕ) : Option (ℕ → BitVec w) :=
  (checkedShl 1#w k).bind fun b => checkedStore data size i (data i + b)

def depositPlaneChecked (data : ℕ → BitVec w) (size k : ℕ) (x : BitVec 64) (i : ℕ) :
    Option (ℕ → BitVec w) :=
  if x ≠ 0 then
    (checkedShl ((BitVec.ofBool (x.getLsbD 0)).setWidth w) k).bind fun b =>
      (checkedStore data size i (data i + b)).bind fun data =>
        depositPlaneChecked data size k (x >>> 1) (i + 1)
  else some data
termination_by x.toNat
decreasing_by
  rename_i h
  have : x.toNat ≠ 0 := fun h0 => h (BitVec.eq_of_toNat_eq h0)
  rw [BitVec.toNat_ushiftRight, Nat.shiftRight_eq_div_pow]
  omega

def readPlaneChecked (data : ℕ → BitVec w) (size k m : ℕ) (s : Bitstream T) :
    Option ((ℕ → BitVec w) × Bitstream T) :=
  (List.range m).foldlM
    (fun (data, s) i =>
      (streamReadBitChecked s).bind fun r =>
        (if r.1 then addBitChecked data size k i else some data).map fun data => (data, r.2))
    (data, s)

def decodeScanChecked (size : ℕ) (s : Bitstream T) (bits n : ℕ) : Option (ℕ × ℕ × Bitstream T) :=
  if bits ≠ 0 ∧ n < size - 1 then
    (streamReadBitChecked s).bind fun r =>
      if r.1 then some (n, bits - 1, r.2)
      else decodeScanChecked size r.2 (bits - 1) (n + 1)
  else some (n, bits, s)
termination_by bits

/-- The loop also ends with `none` if the scan did not keep to the budget. -/
def decodeFewGroupsChecked (size : ℕ) (s : Bitstream T) (bits : ℕ) (x : BitVec 64) (n : ℕ) :
    Option (BitVec 64 × ℕ × ℕ × Bitstream T) :=
  if bits ≠ 0 ∧ n < size then
    (streamReadBitChecked s).bind fun r =>
      if r.1 then
        (decodeScanChecked size r.2 (bits - 1) n).bind fun r =>
          (checkedShl 1#64 r.1).bind fun b =>
            if r.2.1 < bits then decodeFewGroupsChecked size r.2.2 r.2.1 (x + b) (r.1 + 1)
            else none
      else some (x, n, bits - 1, r.2)
  else some (x, n, bits, s)
termination_by bits

def decodeManyGroupsChecked (k size : ℕ) (s : Bitstream T) (bits : ℕ) (data : ℕ → BitVec w)
    (n : ℕ) : Option ((ℕ → BitVec w) × ℕ × ℕ × Bitstream T) :=
  if bits ≠ 0 ∧ n < size then
    (streamReadBitChecked s).bind fun r =>
      if r.1 then
        (decodeScanChecked size r.2 (bits - 1) n).bind fun r =>
          (addBitChecked data size k r.1).bind fun data =>
            if r.2.1 < bits then decodeManyGroupsChecked k size r.2.2 r.2.1 data (r.1 + 1)
            else none
      else some (data, n, bits - 1, r.2)
  else some (data, n, bits, s)
termination_by bits

def decodeFewPlanesChecked (size kmin : ℕ) :
    ℕ → Bitstream T → ℕ → (ℕ → BitVec w) → ℕ → Option ((ℕ → BitVec w) × ℕ × Bitstream T)
  | 0, s, bits, data, _ => some (data, bits, s)
  | k + 1, s, bits, data, n =>
    if bits ≠ 0 ∧ kmin ≤ k then
      let m := min n bits
      (streamReadBitsChecked s m).bind fun (x, s) =>
        (decodeFewGroupsChecked size s (bits - m) x n).bind fun r =>
          (depositPlaneChecked data size k r.1 0).bind fun data =>
            decodeFewPlanesChecked size kmin k r.2.2.2 r.2.2.1 data r.2.1
    else some (data, bits, s)

def decodeManyPlanesChecked (size kmin : ℕ) :
    ℕ → Bitstream T → ℕ → (ℕ → BitVec w) → ℕ → Option ((ℕ → BitVec w) × ℕ × Bitstream T)
  | 0, s, bits, data, _ => some (data, bits, s)
  | k + 1, s, bits, data, n =>
    if bits ≠ 0 ∧ kmin ≤ k then
      let m := min n bits
      (readPlaneChecked data size k m s).bind fun (data, s) =>
        (decodeManyGroupsChecked k size s (bits - m) data n).bind fun r =>
          decodeManyPlanesChecked size kmin k r.2.2.2 r.2.2.1 r.1 r.2.1
    else some (data, bits, s)

def decodeFewIntsChecked (s : Bitstream T) (maxbits maxprec : ℕ) (data : ℕ → BitVec w)
    (size : ℕ) : Option ((ℕ → BitVec w) × ℕ × Bitstream T) :=
  (decodeFewPlanesChecked size (w - maxprec) w s maxbits (zeroInts data size) 0).bind
    fun (data, bits, s) => (checkedSub maxbits bits).map fun bits => (data, bits, s)

def decodeManyIntsChecked (s : Bitstream T) (maxbits maxprec : ℕ) (data : ℕ → BitVec w)
    (size : ℕ) : Option ((ℕ → BitVec w) × ℕ × Bitstream T) :=
  (decodeManyPlanesChecked size (w - maxprec) w s maxbits (zeroInts data size) 0).bind
    fun (data, bits, s) => (checkedSub maxbits bits).map fun bits => (data, bits, s)

def decodeScanPrecChecked (size : ℕ) (s : Bitstream T) (n : ℕ) : Option (ℕ × Bitstream T) :=
  if n < size - 1 then
    (streamReadBitChecked s).bind fun r =>
      if r.1 then some (n, r.2) else decodeScanPrecChecked size r.2 (n + 1)
  else some (n, s)
termination_by size - n

/-- The loop also ends with `none` if the scan did not move forward. -/
def decodeFewGroupsPrecChecked (size : ℕ) (s : Bitstream T) (x : BitVec 64) (n : ℕ) :
    Option (BitVec 64 × ℕ × Bitstream T) :=
  if n < size then
    (streamReadBitChecked s).bind fun r =>
      if r.1 then
        (decodeScanPrecChecked size r.2 n).bind fun r =>
          (checkedShl 1#64 r.1).bind fun b =>
            if n ≤ r.1 then decodeFewGroupsPrecChecked size r.2 (x + b) (r.1 + 1) else none
      else some (x, n, r.2)
  else some (x, n, s)
termination_by size - n

def decodeManyGroupsPrecChecked (k size : ℕ) (s : Bitstream T) (data : ℕ → BitVec w) (n : ℕ) :
    Option ((ℕ → BitVec w) × ℕ × Bitstream T) :=
  if n < size then
    (streamReadBitChecked s).bind fun r =>
      if r.1 then
        (decodeScanPrecChecked size r.2 n).bind fun r =>
          (addBitChecked data size k r.1).bind fun data =>
            if n ≤ r.1 then decodeManyGroupsPrecChecked k size r.2 data (r.1 + 1) else none
      else some (data, n, r.2)
  else some (data, n, s)
termination_by size - n

def decodeFewPlanesPrecChecked (size kmin : ℕ) :
    ℕ → Bitstream T → (ℕ → BitVec w) → ℕ → Option ((ℕ → BitVec w) × Bitstream T)
  | 0, s, data, _ => some (data, s)
  | k + 1, s, data, n =>
    if kmin ≤ k then
      (streamReadBitsChecked s n).bind fun (x, s) =>
        (decodeFewGroupsPrecChecked size s x n).bind fun r =>
          (depositPlaneChecked data size k r.1 0).bind fun data =>
            decodeFewPlanesPrecChecked size kmin k r.2.2 data r.2.1
    else some (data, s)

def decodeManyPlanesPrecChecked (size kmin : ℕ) :
    ℕ → Bitstream T → (ℕ → BitVec w) → ℕ → Option ((ℕ → BitVec w) × Bitstream T)
  | 0, s, data, _ => some (data, s)
  | k + 1, s, data, n =>
    if kmin ≤ k then
      (readPlaneChecked data size k n s).bind fun (data, s) =>
        (decodeManyGroupsPrecChecked k size s data n).bind fun r =>
          decodeManyPlanesPrecChecked size kmin k r.2.2 r.1 r.2.1
    else some (data, s)

def decodeFewIntsPrecChecked (s : Bitstream T) (maxprec : ℕ) (data : ℕ → BitVec w) (size : ℕ) :
    Option ((ℕ → BitVec w) × ℕ × Bitstream T) :=
  (decodeFewPlanesPrecChecked size (w - maxprec) w s (zeroInts data size) 0).bind fun r =>
    (checkedSub (streamRtell r.2) (streamRtell s)).map fun bits => (r.1, bits % 2 ^ 32, r.2)

def decodeManyIntsPrecChecked (s : Bitstream T) (maxprec : ℕ) (data : ℕ → BitVec w) (size : ℕ) :
    Option ((ℕ → BitVec w) × ℕ × Bitstream T) :=
  (decodeManyPlanesPrecChecked size (w - maxprec) w s (zeroInts data size) 0).bind fun r =>
    (checkedSub (streamRtell r.2) (streamRtell s)).map fun bits => (r.1, bits % 2 ^ 32, r.2)

/-! ## The checks succeed -/

theorem addBitChecked_eq (data : ℕ → BitVec w) {size k i : ℕ} (hk : k < w) (hi : i < size) :
    addBitChecked data size k i = some (addBit data k i) := by
  rw [addBitChecked, checkedShl_eq _ hk, Option.bind_some, checkedStore, if_pos hi]
  rfl

theorem depositPlaneChecked_eq (data : ℕ → BitVec w) {size k : ℕ} (hk : k < w) (x : BitVec 64)
    (i : ℕ) (hx : ∀ j, size ≤ i + j → x.getLsbD j = false) :
    depositPlaneChecked data size k x i = some (depositPlane data k x i) := by
  induction data, x, i using depositPlane.induct (k := k) with
  | case1 data x i h ih =>
    have hi : i < size := by
      by_contra hi
      apply h
      rw [show (0 : BitVec 64) = 0#64 from rfl, eq_zero_iff_getLsbD]
      exact fun j _ => hx j (by omega)
    rw [depositPlaneChecked, depositPlane, if_pos h, if_pos h, checkedShl_eq _ hk,
      Option.bind_some, checkedStore, if_pos hi, Option.bind_some]
    refine ih fun j hj => ?_
    rw [BitVec.getLsbD_ushiftRight]
    exact hx _ (by omega)
  | case2 data x i h => rw [depositPlaneChecked, depositPlane, if_neg h, if_neg h]

theorem readPlaneChecked_eq (data : ℕ → BitVec w) {size k m : ℕ} (hk : k < w) (hm : m ≤ size)
    (s : Bitstream T) : readPlaneChecked data size k m s = some (readPlane data k m s) := by
  induction m with
  | zero => rfl
  | succ m ih =>
    have hi := ih (by omega)
    rw [readPlaneChecked, readPlane] at hi ⊢
    rw [List.range_succ, List.foldlM_append, List.foldl_append, hi]
    simp only [Option.bind_eq_bind, Option.bind_some, List.foldlM_cons, List.foldlM_nil,
      streamReadBitChecked_eq, List.foldl_cons, List.foldl_nil]
    split
    · rw [addBitChecked_eq _ hk (by omega)]
      rfl
    · rfl

theorem decodeScanChecked_eq (size : ℕ) (s : Bitstream T) (bits n : ℕ) :
    decodeScanChecked size s bits n = some (decodeScan size s bits n) := by
  fun_induction decodeScan with
  | case1 s bits n h r hr =>
    rw [decodeScanChecked, if_pos h, streamReadBitChecked_eq, Option.bind_some, if_pos hr]
  | case2 s bits n h r hr ih =>
    rw [decodeScanChecked, if_pos h, streamReadBitChecked_eq, Option.bind_some, if_neg hr, ih]
  | case3 s bits n h => rw [decodeScanChecked, if_neg h]

theorem decodeFewGroupsChecked_eq {size : ℕ} (hsize : size ≤ 64) (s : Bitstream T) (bits : ℕ)
    (x : BitVec 64) (n : ℕ) :
    decodeFewGroupsChecked size s bits x n = some (decodeFewGroups size s bits x n) := by
  fun_induction decodeFewGroups with
  | case1 s bits x n h r hr r' ih =>
    have hlt := decodeScan_lt size (streamReadBit s).2 (bits - 1) h.2
    have hbits := decodeScan_bits size (streamReadBit s).2 (bits - 1) n
    rw [decodeFewGroupsChecked, if_pos h, streamReadBitChecked_eq, Option.bind_some, if_pos hr,
      decodeScanChecked_eq, Option.bind_some, checkedShl_eq _ (by omega), Option.bind_some,
      if_pos (by omega)]
    exact ih
  | case2 s bits x n h r hr =>
    rw [decodeFewGroupsChecked, if_pos h, streamReadBitChecked_eq, Option.bind_some, if_neg hr]
  | case3 s bits x n h => rw [decodeFewGroupsChecked, if_neg h]

theorem decodeManyGroupsChecked_eq {k size : ℕ} (hk : k < w) (s : Bitstream T) (bits : ℕ)
    (data : ℕ → BitVec w) (n : ℕ) :
    decodeManyGroupsChecked k size s bits data n =
      some (decodeManyGroups k size s bits data n) := by
  fun_induction decodeManyGroups with
  | case1 s bits data n h r hr r' ih =>
    have hlt := decodeScan_lt size (streamReadBit s).2 (bits - 1) h.2
    have hbits := decodeScan_bits size (streamReadBit s).2 (bits - 1) n
    rw [decodeManyGroupsChecked, if_pos h, streamReadBitChecked_eq, Option.bind_some, if_pos hr,
      decodeScanChecked_eq, Option.bind_some, addBitChecked_eq _ hk hlt, Option.bind_some,
      if_pos (by omega)]
    exact ih
  | case2 s bits data n h r hr =>
    rw [decodeManyGroupsChecked, if_pos h, streamReadBitChecked_eq, Option.bind_some, if_neg hr]
  | case3 s bits data n h => rw [decodeManyGroupsChecked, if_neg h]

theorem decodeScanPrecChecked_eq (size : ℕ) (s : Bitstream T) (n : ℕ) :
    decodeScanPrecChecked size s n = some (decodeScanPrec size s n) := by
  fun_induction decodeScanPrec with
  | case1 s n h r hr =>
    rw [decodeScanPrecChecked, if_pos h, streamReadBitChecked_eq, Option.bind_some, if_pos hr]
  | case2 s n h r hr ih =>
    rw [decodeScanPrecChecked, if_pos h, streamReadBitChecked_eq, Option.bind_some, if_neg hr, ih]
  | case3 s n h => rw [decodeScanPrecChecked, if_neg h]

theorem decodeScanPrec_lt (size : ℕ) (s : Bitstream T) {n : ℕ} (hn : n < size) :
    (decodeScanPrec size s n).1 < size := by
  fun_induction decodeScanPrec with
  | case1 => exact hn
  | case2 s n h r hr ih => exact ih (by omega)
  | case3 => exact hn

theorem decodeFewGroupsPrecChecked_eq {size : ℕ} (hsize : size ≤ 64) (s : Bitstream T)
    (x : BitVec 64) (n : ℕ) :
    decodeFewGroupsPrecChecked size s x n = some (decodeFewGroupsPrec size s x n) := by
  fun_induction decodeFewGroupsPrec with
  | case1 s x n h r hr r' ih =>
    have hlt := decodeScanPrec_lt size (streamReadBit s).2 h
    have hn := decodeScanPrec_n size (streamReadBit s).2 n
    rw [decodeFewGroupsPrecChecked, if_pos h, streamReadBitChecked_eq, Option.bind_some, if_pos hr,
      decodeScanPrecChecked_eq, Option.bind_some, checkedShl_eq _ (by omega), Option.bind_some,
      if_pos hn]
    exact ih
  | case2 s x n h r hr =>
    rw [decodeFewGroupsPrecChecked, if_pos h, streamReadBitChecked_eq, Option.bind_some, if_neg hr]
  | case3 s x n h => rw [decodeFewGroupsPrecChecked, if_neg h]

theorem decodeManyGroupsPrecChecked_eq {k size : ℕ} (hk : k < w) (s : Bitstream T)
    (data : ℕ → BitVec w) (n : ℕ) :
    decodeManyGroupsPrecChecked k size s data n =
      some (decodeManyGroupsPrec k size s data n) := by
  fun_induction decodeManyGroupsPrec with
  | case1 s data n h r hr r' ih =>
    have hlt := decodeScanPrec_lt size (streamReadBit s).2 h
    have hn := decodeScanPrec_n size (streamReadBit s).2 n
    rw [decodeManyGroupsPrecChecked, if_pos h, streamReadBitChecked_eq, Option.bind_some,
      if_pos hr, decodeScanPrecChecked_eq, Option.bind_some, addBitChecked_eq _ hk hlt,
      Option.bind_some, if_pos hn]
    exact ih
  | case2 s data n h r hr =>
    rw [decodeManyGroupsPrecChecked, if_pos h, streamReadBitChecked_eq, Option.bind_some, if_neg hr]
  | case3 s data n h => rw [decodeManyGroupsPrecChecked, if_neg h]

/-- The plane word has no bit at or above `size`, so the deposit stays inside the array. -/
private theorem depositPlaneChecked_plane (data : ℕ → BitVec w) {k : ℕ} (hk : k < w) (b : ℕ → Bool)
    (e : Option ℕ) {size n : ℕ} (hn : n ≤ size) (p : ℕ) :
    depositPlaneChecked data size k (wordOf 64 (planeDecode b e size n p).1) 0 =
      some (depositPlane data k (wordOf 64 (planeDecode b e size n p).1) 0) := by
  refine depositPlaneChecked_eq data hk _ 0 fun j hj => ?_
  rw [getLsbD_wordOf, planeDecode_of_le hn (by omega), Bool.and_false]

private theorem decodeFewPlanesChecked_eq (s : Bitstream T) {e size : ℕ} (hsize : size ≤ 64)
    (kmin : ℕ) {k : ℕ} (hk : k ≤ w) (data : ℕ → BitVec w) {n p : ℕ} (hn : n ≤ size) (hp : p ≤ e) :
    decodeFewPlanesChecked size kmin k (streamRseek s p) (e - p) data n =
      some (decodeFewPlanes size kmin k (streamRseek s p) (e - p) data n) := by
  induction k generalizing data n p with
  | zero => rfl
  | succ k ih =>
    rw [decodeFewPlanesChecked, decodeFewPlanes]
    split
    · have h64 : min n (e - p) ≤ 64 := by omega
      simp only [streamReadBitsChecked_eq (streamRseek_wf s p) h64, Option.bind_some,
        streamReadBits_rseek s p h64, fieldAt_eq, Nat.sub_sub,
        decodeFewGroupsChecked_eq hsize, decodeFewGroups_rseek s hsize hn hp]
      rw [depositPlaneChecked_plane data (by omega) _ _ hn, Option.bind_some]
      exact ih (by omega) _ (planeDecode_bounds hn).2.1 (planeDecode_le _ _ _ hp)
    · rfl

private theorem decodeManyPlanesChecked_eq (s : Bitstream T) {e size : ℕ} (kmin : ℕ) {k : ℕ}
    (hk : k ≤ w) (data : ℕ → BitVec w) {n p : ℕ} (hn : n ≤ size) (hp : p ≤ e) :
    decodeManyPlanesChecked size kmin k (streamRseek s p) (e - p) data n =
      some (decodeManyPlanes size kmin k (streamRseek s p) (e - p) data n) := by
  induction k generalizing data n p with
  | zero => rfl
  | succ k ih =>
    rw [decodeManyPlanesChecked, decodeManyPlanes]
    split
    · simp only [readPlaneChecked_eq data (show k < w by omega) (show min n (e - p) ≤ size by omega),
        Option.bind_some, readPlane_rseek, Nat.sub_sub,
        decodeManyGroupsChecked_eq (show k < w by omega), decodeManyGroups_rseek s data k hn hp]
      exact ih (by omega) _ (planeDecode_bounds hn).2.1 (planeDecode_le _ _ _ hp)
    · rfl

private theorem decodeFewPlanesPrecChecked_eq (s : Bitstream T) {size : ℕ} (hsize : size ≤ 64)
    (kmin : ℕ) {k : ℕ} (hk : k ≤ w) (data : ℕ → BitVec w) {n : ℕ} (hn : n ≤ size) (p : ℕ) :
    decodeFewPlanesPrecChecked size kmin k (streamRseek s p) data n =
      some (decodeFewPlanesPrec size kmin k (streamRseek s p) data n) := by
  induction k generalizing data n p with
  | zero => rfl
  | succ k ih =>
    rw [decodeFewPlanesPrecChecked, decodeFewPlanesPrec]
    split
    · have h64 : n ≤ 64 := hn.trans hsize
      simp only [streamReadBitsChecked_eq (streamRseek_wf s p) h64, Option.bind_some,
        streamReadBits_rseek s p h64, fieldAt_eq,
        decodeFewGroupsPrecChecked_eq hsize, decodeFewGroupsPrec_rseek s hsize hn]
      rw [depositPlaneChecked_plane data (by omega) _ _ hn, Option.bind_some]
      exact ih (by omega) _ (planeDecode_bounds hn).2.1 _
    · rfl

private theorem decodeManyPlanesPrecChecked_eq (s : Bitstream T) {size : ℕ} (kmin : ℕ) {k : ℕ}
    (hk : k ≤ w) (data : ℕ → BitVec w) {n : ℕ} (hn : n ≤ size) (p : ℕ) :
    decodeManyPlanesPrecChecked size kmin k (streamRseek s p) data n =
      some (decodeManyPlanesPrec size kmin k (streamRseek s p) data n) := by
  induction k generalizing data n p with
  | zero => rfl
  | succ k ih =>
    rw [decodeManyPlanesPrecChecked, decodeManyPlanesPrec]
    split
    · simp only [readPlaneChecked_eq data (show k < w by omega) hn, Option.bind_some,
        readPlane_rseek, decodeManyGroupsPrecChecked_eq (show k < w by omega),
        decodeManyGroupsPrec_rseek s data k hn]
      exact ih (by omega) _ (planeDecode_bounds hn).2.1 _
    · rfl

theorem decodeFewIntsChecked_eq (s : Bitstream T) (o maxbits maxprec : ℕ) (data : ℕ → BitVec w)
    {size : ℕ} (hsize : size ≤ 64) :
    decodeFewIntsChecked (streamRseek s o) maxbits maxprec data size =
      some (decodeFewInts (streamRseek s o) maxbits maxprec data size) := by
  have hle := Nat.le_add_right o maxbits
  have h := decodeFewPlanesChecked_eq s hsize (w - maxprec) le_rfl (zeroInts data size)
    (Nat.zero_le size) hle
  have hplain := decodeFewPlanes_rseek s hsize (w - maxprec) le_rfl (zeroInts data size)
    (Nat.zero_le size) hle
  have hge := le_intsDecode (memBit s.mem) (some (o + maxbits)) w maxprec size o
  rw [intsDecode] at hge
  rw [Nat.add_sub_cancel_left] at h hplain
  rw [decodeFewIntsChecked, decodeFewInts, h, Option.bind_some, hplain]
  simp only
  rw [checkedSub_eq (by omega)]
  rfl

theorem decodeManyIntsChecked_eq (s : Bitstream T) (o maxbits maxprec : ℕ) (data : ℕ → BitVec w)
    (size : ℕ) :
    decodeManyIntsChecked (streamRseek s o) maxbits maxprec data size =
      some (decodeManyInts (streamRseek s o) maxbits maxprec data size) := by
  have hle := Nat.le_add_right o maxbits
  have h := decodeManyPlanesChecked_eq s (w - maxprec) le_rfl (zeroInts data size)
    (Nat.zero_le size) hle
  have hplain := decodeManyPlanes_rseek s (w - maxprec) le_rfl (zeroInts data size)
    (Nat.zero_le size) hle
  have hge := le_intsDecode (memBit s.mem) (some (o + maxbits)) w maxprec size o
  rw [intsDecode] at hge
  rw [Nat.add_sub_cancel_left] at h hplain
  rw [decodeManyIntsChecked, decodeManyInts, h, Option.bind_some, hplain]
  simp only
  rw [checkedSub_eq (by omega)]
  rfl

theorem decodeFewIntsPrecChecked_eq (s : Bitstream T) (o maxprec : ℕ) (data : ℕ → BitVec w)
    {size : ℕ} (hsize : size ≤ 64) :
    decodeFewIntsPrecChecked (streamRseek s o) maxprec data size =
      some (decodeFewIntsPrec (streamRseek s o) maxprec data size) := by
  have h := decodeFewPlanesPrecChecked_eq s hsize (w - maxprec) le_rfl (zeroInts data size)
    (Nat.zero_le size) o
  have hplain := decodeFewPlanesPrec_rseek s hsize (w - maxprec) le_rfl (zeroInts data size)
    (Nat.zero_le size) o
  have hge := le_intsDecode (memBit s.mem) none w maxprec size o
  rw [intsDecode] at hge
  rw [decodeFewIntsPrecChecked, decodeFewIntsPrec, h, Option.bind_some, hplain]
  simp only [streamRtell_rseek]
  rw [checkedSub_eq hge]
  rfl

theorem decodeManyIntsPrecChecked_eq (s : Bitstream T) (o maxprec : ℕ) (data : ℕ → BitVec w)
    (size : ℕ) :
    decodeManyIntsPrecChecked (streamRseek s o) maxprec data size =
      some (decodeManyIntsPrec (streamRseek s o) maxprec data size) := by
  have h := decodeManyPlanesPrecChecked_eq s (w - maxprec) le_rfl (zeroInts data size)
    (Nat.zero_le size) o
  have hplain := decodeManyPlanesPrec_rseek s (w - maxprec) le_rfl (zeroInts data size)
    (Nat.zero_le size) o
  have hge := le_intsDecode (memBit s.mem) none w maxprec size o
  rw [intsDecode] at hge
  rw [decodeManyIntsPrecChecked, decodeManyIntsPrec, h, Option.bind_some, hplain]
  simp only [streamRtell_rseek]
  rw [checkedSub_eq hge]
  rfl

/-- On every bit string the decoders of small and of large blocks agree, with and without a
budget, and every shift and store they execute is defined. -/
theorem decoder_variants_agree (hw : w = 32 ∨ w = 64) (s : Bitstream T) (o maxbits maxprec : ℕ)
    (data : ℕ → BitVec w) {size : ℕ} (hsize : 0 < size) (hsize' : size ≤ 64) :
    let r := decodeFewInts (streamRseek s o) maxbits maxprec data size
    let r' := decodeFewIntsPrec (streamRseek s o) maxprec data size
    r = decodeManyInts (streamRseek s o) maxbits maxprec data size ∧
    r' = decodeManyIntsPrec (streamRseek s o) maxprec data size ∧
    ((maxprec + 1) * size - 1 ≤ maxbits → r = r') ∧
    (r.2.1 ≤ maxbits ∧ r.2.2 = streamRseek s (o + r.2.1)) ∧
    (∀ i, size ≤ i → r.1 i = data i ∧ r'.1 i = data i) ∧
    decodeFewIntsChecked (streamRseek s o) maxbits maxprec data size = some r ∧
    decodeManyIntsChecked (streamRseek s o) maxbits maxprec data size = some r ∧
    decodeFewIntsPrecChecked (streamRseek s o) maxprec data size = some r' ∧
    decodeManyIntsPrecChecked (streamRseek s o) maxprec data size = some r' := by
  intro r r'
  have hr := decodeFewInts_rseek s o maxbits maxprec data hsize hsize'
  have hr' := decodeFewIntsPrec_rseek s o maxprec data hsize'
  have hmany := decodeManyInts_rseek s o maxbits maxprec data hsize
  have hmany' := decodeManyIntsPrec_rseek s o maxprec data size
  have hge := le_intsDecode (memBit s.mem) (some (o + maxbits)) w maxprec size o
  have hle := intsDecode_le_budget (memBit s.mem) w maxprec hsize o maxbits
  refine ⟨hr.trans hmany.symm, hr'.trans hmany'.symm, ?_, ?_, ?_, ?_, ?_, ?_, ?_⟩
  · intro hbits
    have hmin : (min maxprec w + 1) * size ≤ (maxprec + 1) * size :=
      Nat.mul_le_mul_right _ (by omega)
    have hmul : (min maxprec w + 1) * size ≤ (64 + 1) * 64 :=
      Nat.mul_le_mul (by omega) hsize'
    show decodeFewInts _ _ _ _ _ = decodeFewIntsPrec _ _ _ _
    rw [hr, hr', decodedPrec_eq s data o hsize (by omega), intsDecode_budget _ hsize o (by omega)]
  · rw [show r = _ from hr]
    refine ⟨?_, by rw [decoded, Nat.add_sub_cancel' hge]⟩
    show (intsDecode (memBit s.mem) (some (o + maxbits)) w maxprec size o).2 - o ≤ maxbits
    omega
  · intro i hi
    rw [show r = _ from hr, show r' = _ from hr']
    exact ⟨storeInts_of_le data _ hi, storeInts_of_le data _ hi⟩
  · exact decodeFewIntsChecked_eq s o maxbits maxprec data hsize'
  · rw [decodeManyIntsChecked_eq, hmany, ← hr]
  · exact decodeFewIntsPrecChecked_eq s o maxprec data hsize'
  · rw [decodeManyIntsPrecChecked_eq, hmany', ← hr']

theorem decoder_variants_agree_four :
    let s := streamRseek (streamOpen (T := .uint16) fun i => BitVec.ofNat 16 (3 * i + 5)) 3
    decodeFewInts s 9 20 (fun _ => 0#32) 4 = decodeManyInts s 9 20 (fun _ => 0#32) 4 ∧
    decodeFewIntsPrec s 1 (fun _ => 0#32) 4 = decodeManyIntsPrec s 1 (fun _ => 0#32) 4 :=
  ⟨(decoder_variants_agree (.inl rfl) _ 3 9 20 _ (by decide) (by decide)).1,
    (decoder_variants_agree (.inl rfl) _ 3 9 1 _ (by decide) (by decide)).2.1⟩

end Zfp

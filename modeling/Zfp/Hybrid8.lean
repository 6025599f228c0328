import Zfp.HybridIndex
import Zfp.PackedFields

/-!
# The index of 16 bits per block

A record of eight blocks is a pair of words of packed fields. The low word holds the low bytes of
the base offset and of the first seven sizes, the high word their high bits; the top field of the
high word is wider and takes the rest of the base offset. The sum of the fields of a word is found
in parallel.
-/

namespace Zfp

open PackedFields

namespace Hybrid8

/-- 64 bits partitioned into 8 -/
def lbits : ℕ := 8

/-- log2(4^d * maxprec / 2^lbits) -/
def hbits (dims : ℕ) : ℕ := 2 * (dims - 1)

/-- One pass of the loop that stores the sizes of blocks 0-6, on `(hi, lo, ptr)`. -/
def storeSize (dims : ℕ) (buffer : ℕ → U64) (acc : U64 × U64 × U64) (k : ℕ) : U64 × U64 × U64 :=
  let size := buffer k
  -- partition block size into hbits high and lbits low bits
  let h := size >>> lbits
  let l := size - h <<< lbits
  (acc.1 + h <<< ((6 - k) * hbits dims), acc.2.1 + l <<< ((6 - k) * lbits), acc.2.2 + size)

def encode (dims : ℕ) (ptr : U64) (buffer : ℕ → U64) : Option ((U64 × U64) × U64) :=
  -- partition chunk offset into low and high bits
  let h := ptr >>> lbits
  let l := ptr - h <<< lbits
  let hi := h <<< (7 * hbits dims)
  let lo := l <<< (7 * lbits)
  -- make sure base offset does not overflow
  if hi >>> (7 * hbits dims) ≠ h then none
  else
    let acc := (List.range 7).foldl (storeSize dims buffer) (hi, lo, ptr)
    some ((acc.1, acc.2.1), acc.2.2 + buffer 7)

/-- kth size in chunk, 0 <= k <= 6 -/
def size (dims : ℕ) (record : U64 × U64) (k : ℕ) : U64 :=
  let h := record.1 >>> ((6 - k) * hbits dims) &&& (((1 : U64) <<< hbits dims) - 1)
  let l := record.2 >>> ((6 - k) * lbits) &&& (((1 : U64) <<< lbits) - 1)
  h <<< lbits + l

/-- sum of eight packed n-bit values -/
def sum8 (x : U64) (n : ℕ) : U64 :=
  -- bit masks for extracting terms of sums
  let m3 := ~~~(0 : U64) <<< (4 * n)
  let m2 := m3 ^^^ m3 <<< (4 * n)
  let m1 := m2 ^^^ m2 >>> (2 * n)
  let m0 := m1 ^^^ m1 >>> n
  -- four summations, two summations, final summation
  foldFields (foldFields (foldFields x m0 n) m1 (2 * n)) m2 (4 * n)

def lsum (x : U64) : U64 :=
  let x := foldFields x 0xff00ff00ff00ff00#64 8
  let x := x + x >>> 16
  let x := x + x >>> 32
  x &&& 0xffff#64

def hsum (dims : ℕ) (x : U64) : U64 := sum8 x (hbits dims)

/-- kth offset in chunk, 0 <= k <= 7 -/
def offset (dims : ℕ) (record : U64 × U64) (k : ℕ) : U64 :=
  -- extract all but lowest (8 * hbits) bits
  let base := record.1 >>> (8 * hbits dims)
  let h := record.1 - base <<< (8 * hbits dims)
  -- add LSBs of base offset and k block sizes
  let h := hsum dims (h >>> ((7 - k) * hbits dims))
  let l := lsum (record.2 >>> ((7 - k) * lbits))
  -- combine base offset with high and low bits
  (base <<< hbits dims + h) <<< lbits + l

end Hybrid8

def hybrid8 (dims : ℕ) : ChunkCodec (U64 × U64) where
  width := 8
  oversize size := decide (size >>> (Hybrid8.hbits dims + Hybrid8.lbits) ≠ 0)
  oversizeError := "zfp block size is too large for hybrid8 index"
  encode := Hybrid8.encode dims
  encodeError := "zfp block offset is too large for hybrid8 index"
  size := Hybrid8.size dims
  offset := Hybrid8.offset dims

namespace Hybrid8

/-! ## Sums of fields -/

theorem add_lt_field {n a b : ℕ} (ha : a < 2 ^ n) (hb : b < 2 ^ n) : a + b < 2 ^ (2 * n) := by
  have hpos := Nat.two_pow_pos n
  have hsq : (2 ^ n) * 2 ≤ 2 ^ n * 2 ^ n + 1 := by
    rcases Nat.lt_or_ge 1 (2 ^ n) with h | h
    · have := Nat.mul_le_mul_left (2 ^ n) h
      omega
    · obtain h : 2 ^ n = 1 := by omega
      rw [h]
  rw [Nat.two_mul, pow_add]
  omega

/-- Masks of the odd fields select the terms of the sums. -/
def Masked (n : ℕ) (m0 m1 m2 : U64) : Prop :=
  m0.toNat = oddMask n 4 ∧ m1.toNat = oddMask (2 * n) 2 ∧ m2.toNat = oddMask (4 * n) 1

theorem toNat_foldFields_three {n : ℕ} {x m0 m1 m2 : U64} (hm : Masked n m0 m1 m2)
    (a b c d e f g h : ℕ)
    (hx : x.toNat = Nat.ofDigits (2 ^ n) [a, b, c, d, e, f, g, h])
    (hlt : ∀ i ∈ [a, b, c, d, e, f, g, h], i < 2 ^ n) :
    (foldFields (foldFields (foldFields x m0 n) m1 (2 * n)) m2 (4 * n)).toNat =
      a + b + c + d + e + f + g + h := by
  simp only [List.forall_mem_cons, List.not_mem_nil, false_implies, implies_true, and_true] at hlt
  obtain ⟨ha, hb, hc, hd, he, hf, hg, hh⟩ := hlt
  obtain ⟨hm0, hm1, hm2⟩ := hm
  have h1 := toNat_foldFields [(a, b), (c, d), (e, f), (g, h)]
    (by
      rw [hx]
      simp only [pairs, List.map_cons, List.map_nil, Nat.ofDigits_cons, Nat.ofDigits_nil]
      ring) hm0
    (by simp [ha, hb, hc, hd, he, hf, hg, hh])
  have h2 := toNat_foldFields [(a + b, c + d), (e + f, g + h)]
    (by
      rw [h1]
      simp only [pairs, List.map_cons, List.map_nil, Nat.ofDigits_cons, Nat.ofDigits_nil]
      ring) hm1
    (by simp [add_lt_field, ha, hb, hc, hd, he, hf, hg, hh])
  have h3 := toNat_foldFields [(a + b + (c + d), e + f + (g + h))]
    (by
      rw [h2]
      simp only [pairs, List.map_cons, List.map_nil, Nat.ofDigits_cons, Nat.ofDigits_nil]
      ring) (n := 4 * n) hm2
    (by
      have hl := add_lt_field (add_lt_field ha hb) (add_lt_field hc hd)
      have hr := add_lt_field (add_lt_field he hf) (add_lt_field hg hh)
      simp only [← Nat.mul_assoc] at hl hr
      simp [hl, hr])
  rw [h3]
  simp only [List.map_cons, List.map_nil, Nat.ofDigits_cons, Nat.ofDigits_nil]
  omega

theorem masked (n : ℕ) (hn : n = 0 ∨ n = 2 ∨ n = 4 ∨ n = 6) :
    let m3 := ~~~(0 : U64) <<< (4 * n)
    let m2 := m3 ^^^ m3 <<< (4 * n)
    let m1 := m2 ^^^ m2 >>> (2 * n)
    let m0 := m1 ^^^ m1 >>> n
    Masked n m0 m1 m2 := by
  rcases hn with rfl | rfl | rfl | rfl <;> exact ⟨rfl, rfl, rfl⟩

/-- A list of at most eight fields is padded to eight. -/
theorem exists_eight {l : List ℕ} (hl : l.length ≤ 8) {b : ℕ} (hb : 0 < b) (hlt : ∀ d ∈ l, d < b) :
    ∃ c d e f g h i j : ℕ, (∀ x ∈ [c, d, e, f, g, h, i, j], x < b) ∧
      (∀ base : ℕ, Nat.ofDigits base [c, d, e, f, g, h, i, j] = Nat.ofDigits base l) ∧
      c + d + e + f + g + h + i + j = l.sum := by
  have hlen : (l ++ List.replicate (8 - l.length) 0).length = 8 := by simp; omega
  match heq : l ++ List.replicate (8 - l.length) 0, hlen with
  | [c, d, e, f, g, h, i, j], _ =>
    refine ⟨c, d, e, f, g, h, i, j, ?_, fun base => ?_, ?_⟩
    · rw [← heq]
      intro x hx
      rcases List.mem_append.mp hx with hx | hx
      · exact hlt x hx
      · rw [List.eq_of_mem_replicate hx]
        exact hb
    · rw [← heq, Nat.ofDigits_append_replicate_zero]
    · have hsum := congrArg List.sum heq
      simp only [List.sum_append, List.sum_replicate_nat, Nat.mul_zero, List.sum_cons, List.sum_nil]
        at hsum
      omega

theorem toNat_sum8 {n : ℕ} (hn : n = 0 ∨ n = 2 ∨ n = 4 ∨ n = 6) {x : U64} {l : List ℕ}
    (hl : l.length ≤ 8) (hx : x.toNat = Nat.ofDigits (2 ^ n) l) (hlt : ∀ d ∈ l, d < 2 ^ n) :
    (sum8 x n).toNat = l.sum := by
  obtain ⟨c, d, e, f, g, h, i, j, hbound, hdigits, hsum⟩ :=
    exists_eight hl (Nat.two_pow_pos n) hlt
  rw [← hsum, sum8]
  exact toNat_foldFields_three (masked n hn) c d e f g h i j (by rw [hdigits, hx]) hbound

/-- Four sums in fields of 16 bits are added to each other from the top down. -/
theorem add_four_fields {p q r s : ℕ} (hp : p < 2 ^ 9) (hq : q < 2 ^ 9) (hr : r < 2 ^ 9)
    (hs : s < 2 ^ 9) {y z : ℕ} (hy : y = p + 2 ^ 16 * (q + 2 ^ 16 * (r + 2 ^ 16 * s)))
    (hz : z = y + y / 2 ^ 16) : (z + z / 2 ^ 32) % 2 ^ 16 = p + q + r + s := by
  have hdiv : y / 2 ^ 16 = q + 2 ^ 16 * (r + 2 ^ 16 * s) := by omega
  have hz' : z = (p + q) + 2 ^ 16 * ((q + r) + 2 ^ 16 * ((r + s) + 2 ^ 16 * s)) := by omega
  have hdiv' : z / 2 ^ 32 = (r + s) + 2 ^ 16 * s := by omega
  omega

theorem toNat_lsum {x : U64} {l : List ℕ} (hl : l.length ≤ 8)
    (hx : x.toNat = Nat.ofDigits (2 ^ 8) l) (hlt : ∀ d ∈ l, d < 2 ^ 8) :
    (lsum x).toNat = l.sum := by
  obtain ⟨c, d, e, f, g, h, i, j, hbound, hdigits, hsum⟩ :=
    exists_eight hl (Nat.two_pow_pos 8) hlt
  simp only [List.forall_mem_cons, List.not_mem_nil, false_implies, implies_true, and_true] at hbound
  obtain ⟨hc, hd, he, hf, hg, hh, hi, hj⟩ := hbound
  have h1 := toNat_foldFields (n := 8) (m := 0xff00ff00ff00ff00#64) [(c, d), (e, f), (g, h), (i, j)]
    (by
      rw [hx, ← hdigits]
      simp only [pairs, List.map_cons, List.map_nil, Nat.ofDigits_cons, Nat.ofDigits_nil]
      ring) rfl
    (by simp [hc, hd, he, hf, hg, hh, hi, hj])
  simp only [List.map_cons, List.map_nil, Nat.ofDigits_cons, Nat.ofDigits_nil] at h1
  rw [lsum]
  generalize foldFields x 0xff00ff00ff00ff00#64 8 = y at h1 ⊢
  have h2 : (y + y >>> 16).toNat = y.toNat + y.toNat / 2 ^ 16 := by
    rw [BitVec.toNat_add, BitVec.toNat_ushiftRight, Nat.shiftRight_eq_div_pow]
    omega
  have h3 : (y + y >>> 16 + (y + y >>> 16) >>> 32).toNat =
      y.toNat + y.toNat / 2 ^ 16 + (y.toNat + y.toNat / 2 ^ 16) / 2 ^ 32 := by
    rw [BitVec.toNat_add, BitVec.toNat_ushiftRight, h2, Nat.shiftRight_eq_div_pow]
    omega
  have hmask : (0xffff#64).toNat = 2 ^ 16 - 1 := rfl
  rw [BitVec.toNat_and, hmask, Nat.and_two_pow_sub_one_eq_mod, h3,
    add_four_fields (p := c + d) (q := e + f) (r := g + h) (s := i + j) (by omega) (by omega)
      (by omega) (by omega) (by omega) rfl]
  omega

/-! ## Records -/

def high (x : U64) : ℕ := x.toNat / 2 ^ lbits

def low (x : U64) : ℕ := x.toNat % 2 ^ lbits

theorem low_add_high (x : U64) : low x + 2 ^ lbits * high x = x.toNat := Nat.mod_add_div _ _

theorem low_lt (x : U64) : low x < 2 ^ lbits := Nat.mod_lt _ (Nat.two_pow_pos _)

theorem shiftLeft_eq_ofNat (x : U64) (n : ℕ) : x <<< n = BitVec.ofNat 64 (x.toNat * 2 ^ n) := by
  apply BitVec.eq_of_toNat_eq
  rw [BitVec.toNat_shiftLeft, BitVec.toNat_ofNat, Nat.shiftLeft_eq]

theorem toNat_high (x : U64) : (x >>> lbits).toNat = high x := by
  rw [BitVec.toNat_ushiftRight, Nat.shiftRight_eq_div_pow, high]

theorem toNat_low (x : U64) : (x - x >>> lbits <<< lbits).toNat = low x := by
  have hmul : (x >>> lbits <<< lbits).toNat = 2 ^ lbits * high x := by
    have hle := low_add_high x
    rw [BitVec.toNat_shiftLeft, toNat_high, Nat.shiftLeft_eq, Nat.mul_comm]
    exact Nat.mod_eq_of_lt (by omega)
  have hle := low_add_high x
  rw [BitVec.toNat_sub_of_le (by rw [BitVec.le_def, hmul]; omega), hmul]
  omega

/-- A field stored below the fields of a word. -/
theorem ofDigits_stack_succ_shift {b n : ℕ} (hn : n < 7) (f : ℕ → ℕ) (top : ℕ) :
    Nat.ofDigits (2 ^ b) (stack f top n) * 2 ^ ((7 - n) * b) + f n * 2 ^ ((6 - n) * b) =
      Nat.ofDigits (2 ^ b) (stack f top (n + 1)) * 2 ^ ((7 - (n + 1)) * b) := by
  have hsub : 7 - n = (6 - n) + 1 := by omega
  have hsub' : 7 - (n + 1) = 6 - n := by omega
  rw [hsub, hsub', stack, Nat.ofDigits_cons]
  ring

/-- After `n` passes of the loop both words hold the base offset and `n` sizes in their top
fields. -/
theorem foldl_storeSize (dims : ℕ) (buffer : ℕ → U64) (hi lo ptr : U64) {n : ℕ} (hn : n ≤ 7) :
    (List.range n).foldl (storeSize dims buffer)
        (hi <<< (7 * hbits dims), lo <<< (7 * lbits), ptr) =
      (BitVec.ofNat 64 (Nat.ofDigits (2 ^ hbits dims)
          (stack (fun k => high (buffer k)) hi.toNat n) * 2 ^ ((7 - n) * hbits dims)),
        BitVec.ofNat 64 (Nat.ofDigits (2 ^ lbits)
          (stack (fun k => low (buffer k)) lo.toNat n) * 2 ^ ((7 - n) * lbits)),
        ptr + offsetOf buffer n) := by
  induction n with
  | zero =>
    simp only [List.range_zero, List.foldl_nil, stack, Nat.ofDigits_singleton, Nat.sub_zero,
      offsetOf_zero, add_zero, shiftLeft_eq_ofNat]
  | succ n ih =>
    rw [List.range_succ, List.foldl_append, ih (by omega), List.foldl_cons, List.foldl_nil,
      storeSize, shiftLeft_eq_ofNat (_ >>> _), shiftLeft_eq_ofNat (_ - _), toNat_high, toNat_low,
      ← BitVec.ofNat_add, ← BitVec.ofNat_add, offsetOf_succ, add_assoc,
      ofDigits_stack_succ_shift hn (fun k => high (buffer k)),
      ofDigits_stack_succ_shift hn (fun k => low (buffer k))]

theorem hbits_cases {dims : ℕ} (hdims : 1 ≤ dims ∧ dims ≤ 4) :
    hbits dims = 0 ∨ hbits dims = 2 ∨ hbits dims = 4 ∨ hbits dims = 6 := by
  rw [hbits]
  omega

theorem shiftLeft_ushiftRight_iff {n : ℕ} (hn : n ≤ 64) (x : U64) :
    x <<< n >>> n = x ↔ x.toNat < 2 ^ (64 - n) := by
  have hpos := Nat.two_pow_pos n
  have hpow : 2 ^ 64 = 2 ^ n * 2 ^ (64 - n) := by rw [← pow_add, Nat.add_sub_cancel' hn]
  rw [← BitVec.toNat_inj, BitVec.toNat_ushiftRight, BitVec.toNat_shiftLeft, Nat.shiftLeft_eq,
    Nat.shiftRight_eq_div_pow, hpow, Nat.mul_comm]
  constructor
  · intro h
    rw [← h]
    apply Nat.div_lt_of_lt_mul
    exact Nat.mod_lt _ (Nat.mul_pos hpos (Nat.two_pow_pos _))
  · intro h
    rw [Nat.mod_eq_of_lt (Nat.mul_lt_mul_of_pos_left h hpos), Nat.mul_div_cancel_left _ hpos]

/-- The high bits of a base offset that fits. -/
theorem high_lt_iff {dims : ℕ} (hdims : 1 ≤ dims ∧ dims ≤ 4) (ptr : U64) :
    high ptr < 2 ^ (64 - 7 * hbits dims) ↔ ptr.toNat < 2 ^ (86 - 14 * dims) := by
  have hexp : 86 - 14 * dims = (64 - 7 * hbits dims) + 8 := by
    rw [hbits]
    omega
  rw [high, lbits, Nat.div_lt_iff_lt_mul (by decide), hexp, pow_add]

theorem encode_eq {dims : ℕ} (hdims : 1 ≤ dims ∧ dims ≤ 4) (ptr : U64) (buffer : ℕ → U64) :
    encode dims ptr buffer =
      if ptr.toNat < 2 ^ (86 - 14 * dims) then
        some ((BitVec.ofNat 64 (Nat.ofDigits (2 ^ hbits dims)
            (stack (fun k => high (buffer k)) (high ptr) 7)),
          BitVec.ofNat 64 (Nat.ofDigits (2 ^ lbits) (stack (fun k => low (buffer k)) (low ptr) 7))),
          ptr + offsetOf buffer 8)
      else none := by
  have hshift : 7 * hbits dims ≤ 64 := by
    rw [hbits]
    omega
  have hiff := shiftLeft_ushiftRight_iff hshift (ptr >>> lbits)
  rw [toNat_high, high_lt_iff hdims] at hiff
  rw [encode, foldl_storeSize dims buffer _ _ _ (Nat.le_refl 7), toNat_high, toNat_low]
  simp only [Nat.sub_self, Nat.zero_mul, pow_zero, Nat.mul_one, add_assoc, ← offsetOf_succ]
  split_ifs with h h' h'
  · exact absurd (hiff.mpr h') h
  · rfl
  · rfl
  · exact absurd (hiff.mp (not_not.mp h)) h'

theorem high_lt {n : ℕ} {size : U64} (h : size.toNat < 2 ^ (n + lbits)) : high size < 2 ^ n := by
  rw [high]
  apply Nat.div_lt_of_lt_mul
  rwa [← pow_add, Nat.add_comm]

/-- The words of a record. -/
theorem encode_fields {dims : ℕ} (hdims : 1 ≤ dims ∧ dims ≤ 4) {ptr p : U64} {buffer : ℕ → U64}
    {r : U64 × U64} (h : encode dims ptr buffer = some (r, p))
    (hsize : ∀ j < 8, (buffer j).toNat < 2 ^ (hbits dims + lbits)) :
    r.1.toNat = Nat.ofDigits (2 ^ hbits dims) (stack (fun k => high (buffer k)) (high ptr) 7) ∧
      r.2.toNat = Nat.ofDigits (2 ^ lbits) (stack (fun k => low (buffer k)) (low ptr) 7) := by
  rw [encode_eq hdims] at h
  split_ifs at h with hptr
  rw [← high_lt_iff hdims] at hptr
  rw [Option.some.injEq, Prod.mk.injEq] at h
  obtain ⟨rfl, -⟩ := h
  have hhi := ofDigits_stack_zero_lt (b := 2 ^ hbits dims) (n := 7)
    (f := fun k => high (buffer k)) fun j hj => high_lt (hsize j (by omega))
  have hlo := ofDigits_stack_zero_lt (b := 2 ^ lbits) (n := 7) (f := fun k => low (buffer k))
    fun j _ => low_lt (buffer j)
  have hpow : (2 ^ hbits dims) ^ 7 * 2 ^ (64 - 7 * hbits dims) = 2 ^ 64 := by
    rw [← pow_mul, ← pow_add]
    congr 1
    rw [hbits]
    omega
  have hlow := low_lt ptr
  have hmul := Nat.mul_le_mul_left ((2 ^ hbits dims) ^ 7) hptr
  rw [hpow, Nat.succ_eq_add_one, Nat.mul_add, Nat.mul_one] at hmul
  rw [lbits] at hlo hlow
  constructor
  · rw [BitVec.toNat_ofNat, ofDigits_stack_eq, Nat.mod_eq_of_lt (by omega)]
  · rw [BitVec.toNat_ofNat, ofDigits_stack_eq, Nat.mod_eq_of_lt (by rw [lbits]; omega)]

theorem toNat_ushiftRight_div (x : U64) (n : ℕ) : (x >>> n).toNat = x.toNat / 2 ^ n := by
  rw [BitVec.toNat_ushiftRight, Nat.shiftRight_eq_div_pow]

/-- The high and the low part of a sum are put together. -/
theorem combine (n : ℕ) (h l : U64) :
    h <<< n + l = BitVec.ofNat 64 (2 ^ n * h.toNat + l.toNat) := by
  rw [shiftLeft_eq_ofNat, BitVec.ofNat_add, BitVec.ofNat_toNat, BitVec.setWidth_eq, Nat.mul_comm]

theorem combine_ofNat (h : ℕ) (l : U64) :
    BitVec.ofNat 64 h <<< lbits + l = BitVec.ofNat 64 (2 ^ lbits * h + l.toNat) := by
  apply BitVec.eq_of_toNat_eq
  rw [BitVec.toNat_add, BitVec.toNat_shiftLeft, BitVec.toNat_ofNat, BitVec.toNat_ofNat,
    Nat.shiftLeft_eq, lbits]
  omega

theorem sum_low_high (buffer : ℕ → U64) (k : ℕ) :
    2 ^ lbits * (∑ j ∈ Finset.range k, high (buffer j)) + ∑ j ∈ Finset.range k, low (buffer j) =
      ∑ j ∈ Finset.range k, (buffer j).toNat := by
  induction k with
  | zero => rfl
  | succ k ih =>
    have hlast := low_add_high (buffer k)
    rw [Finset.sum_range_succ, Finset.sum_range_succ, Finset.sum_range_succ, Nat.mul_add]
    omega

theorem ofNat_sum (buffer : ℕ → U64) (k : ℕ) :
    BitVec.ofNat 64 (∑ j ∈ Finset.range k, (buffer j).toNat) = offsetOf buffer k := by
  apply BitVec.eq_of_toNat_eq
  rw [BitVec.toNat_ofNat, toNat_offsetOf_mod]

theorem toNat_fieldMask {n : ℕ} (hn : n < 64) : (((1 : U64) <<< n) - 1).toNat = 2 ^ n - 1 := by
  have hlt : 2 ^ n < 2 ^ 64 := Nat.pow_lt_pow_right (by decide) hn
  have hpos := Nat.two_pow_pos n
  have htoNat : (1 : U64).toNat = 1 := rfl
  have hone : ((1 : U64) <<< n).toNat = 2 ^ n := by
    rw [BitVec.toNat_shiftLeft, Nat.shiftLeft_eq, htoNat, Nat.one_mul, Nat.mod_eq_of_lt hlt]
  rw [BitVec.toNat_sub_of_le (by rw [BitVec.le_def, hone]; exact hpos), hone, htoNat]

/-- A field is cut out of a word. -/
theorem toNat_field {n : ℕ} (hn : n < 64) {x : U64} {f : ℕ → ℕ} {top k : ℕ} (hk : k < 7)
    (hf : ∀ j < 7, f j < 2 ^ n) (hx : x.toNat = Nat.ofDigits (2 ^ n) (stack f top 7)) :
    (x >>> ((6 - k) * n) &&& (((1 : U64) <<< n) - 1)).toNat = f k := by
  have hseven : k + 1 + (6 - k) = 7 := by omega
  have hdiv := ofDigits_stack_div top (n := k + 1) (i := 6 - k) (b := 2 ^ n) (f := f)
    fun j hj => hf j (by omega)
  rw [hseven, ← hx, ← pow_mul', stack, Nat.ofDigits_cons] at hdiv
  rw [BitVec.toNat_and, toNat_fieldMask hn, toNat_ushiftRight_div, hdiv,
    Nat.and_two_pow_sub_one_eq_mod, Nat.add_mul_mod_self_left]
  exact Nat.mod_eq_of_lt (hf k hk)

theorem size_encode {dims : ℕ} (hdims : 1 ≤ dims ∧ dims ≤ 4) {ptr p : U64} {buffer : ℕ → U64}
    {r : U64 × U64} (h : encode dims ptr buffer = some (r, p))
    (hsize : ∀ j < 8, (buffer j).toNat < 2 ^ (hbits dims + lbits)) {k : ℕ} (hk : k + 1 < 8) :
    size dims r k = buffer k := by
  obtain ⟨hhi, hlo⟩ := encode_fields hdims h hsize
  have hn : hbits dims < 64 := by
    rw [hbits]
    omega
  have hhigh := toNat_field hn (by omega : k < 7)
    (fun j hj => high_lt (hsize j (by omega))) hhi
  have hlow := toNat_field (by decide) (by omega : k < 7) (fun j _ => low_lt (buffer j)) hlo
  have hsum := low_add_high (buffer k)
  rw [size, combine, hhigh, hlow, Nat.add_comm, hsum, BitVec.ofNat_toNat, BitVec.setWidth_eq]

/-- The sum of the top fields of a word. -/
theorem stack_top {n : ℕ} {x : U64} {f : ℕ → ℕ} {top k : ℕ} (hk : k < 8)
    (hf : ∀ j < 7, f j < 2 ^ n) (hx : x.toNat = Nat.ofDigits (2 ^ n) (stack f top 7)) :
    (x >>> ((7 - k) * n)).toNat = Nat.ofDigits (2 ^ n) (stack f top k) := by
  have hseven : k + (7 - k) = 7 := by omega
  have hdiv := ofDigits_stack_div top (n := k) (i := 7 - k) (b := 2 ^ n) (f := f)
    fun j hj => hf j (by omega)
  rw [hseven, ← hx, ← pow_mul'] at hdiv
  rw [toNat_ushiftRight_div, hdiv]

theorem toNat_lsum_stack {x : U64} {buffer : ℕ → U64} {ptr : U64} {k : ℕ} (hk : k < 8)
    (hx : x.toNat = Nat.ofDigits (2 ^ lbits) (stack (fun k => low (buffer k)) (low ptr) 7)) :
    (lsum (x >>> ((7 - k) * lbits))).toNat = low ptr + ∑ j ∈ Finset.range k, low (buffer j) := by
  have hlow : ∀ j, low (buffer j) < 2 ^ lbits := fun j => low_lt (buffer j)
  rw [← sum_stack (fun j => low (buffer j))]
  apply toNat_lsum
  · rw [length_stack]
    omega
  · exact stack_top hk (fun j _ => hlow j) hx
  · exact lt_of_mem_stack (low_lt ptr) fun j _ => hlow j

/-- The bits above the eight fields of the high word are removed before the fields are added. -/
theorem toNat_sub_base {n : ℕ} {x : U64} {f : ℕ → ℕ} {top : ℕ}
    (hf : ∀ j < 7, f j < 2 ^ n) (hx : x.toNat = Nat.ofDigits (2 ^ n) (stack f top 7)) :
    (x >>> (8 * n)).toNat = top / 2 ^ n ∧
      (x - x >>> (8 * n) <<< (8 * n)).toNat = Nat.ofDigits (2 ^ n) (stack f (top % 2 ^ n) 7) := by
  have hdiv := ofDigits_stack_div top (n := 0) (i := 7) (b := 2 ^ n) (f := f)
    fun j hj => hf j (by omega)
  rw [Nat.zero_add, ← hx, stack, Nat.ofDigits_singleton] at hdiv
  have hbase : (x >>> (8 * n)).toNat = top / 2 ^ n := by
    rw [toNat_ushiftRight_div, ← hdiv, Nat.div_div_eq_div_mul, ← pow_succ, ← pow_mul']
  have hsplit := Nat.mod_add_div top (2 ^ n)
  have hword : x.toNat = Nat.ofDigits (2 ^ n) (stack f (top % 2 ^ n) 7) +
      2 ^ (8 * n) * (top / 2 ^ n) := by
    rw [hx, ofDigits_stack_eq _ _ top, ofDigits_stack_eq _ _ (top % 2 ^ n), add_assoc]
    congr 1
    nth_rewrite 1 [← hsplit]
    ring
  have hmul : (x >>> (8 * n) <<< (8 * n)).toNat = 2 ^ (8 * n) * (top / 2 ^ n) := by
    rw [BitVec.toNat_shiftLeft, hbase, Nat.shiftLeft_eq, Nat.mul_comm]
    have := x.isLt
    exact Nat.mod_eq_of_lt (by omega)
  refine ⟨hbase, ?_⟩
  rw [BitVec.toNat_sub_of_le (by rw [BitVec.le_def, hmul]; omega), hmul]
  omega

theorem toNat_hsum_stack {dims : ℕ} (hdims : 1 ≤ dims ∧ dims ≤ 4) {x : U64} {f : ℕ → ℕ}
    {top k : ℕ} (hk : k < 8) (hf : ∀ j < 7, f j < 2 ^ hbits dims) (htop : top < 2 ^ hbits dims)
    (hx : x.toNat = Nat.ofDigits (2 ^ hbits dims) (stack f top 7)) :
    (hsum dims (x >>> ((7 - k) * hbits dims))).toNat = top + ∑ j ∈ Finset.range k, f j := by
  rw [← sum_stack, hsum]
  apply toNat_sum8 (hbits_cases hdims)
  · rw [length_stack]
    omega
  · exact stack_top hk hf hx
  · exact lt_of_mem_stack htop fun j hj => hf j (by omega)

theorem offset_encode {dims : ℕ} (hdims : 1 ≤ dims ∧ dims ≤ 4) {ptr p : U64} {buffer : ℕ → U64}
    {r : U64 × U64} (h : encode dims ptr buffer = some (r, p))
    (hsize : ∀ j < 8, (buffer j).toNat < 2 ^ (hbits dims + lbits)) {k : ℕ} (hk : k < 8) :
    offset dims r k = ptr + offsetOf buffer k := by
  obtain ⟨hhi, hlo⟩ := encode_fields hdims h hsize
  have hf : ∀ j < 7, high (buffer j) < 2 ^ hbits dims := fun j hj => high_lt (hsize j (by omega))
  obtain ⟨hbase, hrest⟩ := toNat_sub_base hf hhi
  have hh := toNat_hsum_stack hdims hk hf (Nat.mod_lt _ (Nat.two_pow_pos _)) hrest
  have hl := toNat_lsum_stack hk hlo
  have htop := Nat.mod_add_div (high ptr) (2 ^ hbits dims)
  have hptr := low_add_high ptr
  have hsum := sum_low_high buffer k
  have hhigh : 2 ^ hbits dims * (high ptr / 2 ^ hbits dims) + (high ptr % 2 ^ hbits dims +
      ∑ j ∈ Finset.range k, high (buffer j)) =
        high ptr + ∑ j ∈ Finset.range k, high (buffer j) := by omega
  have htotal : 2 ^ lbits * (high ptr + ∑ j ∈ Finset.range k, high (buffer j)) +
      (low ptr + ∑ j ∈ Finset.range k, low (buffer j)) =
        ptr.toNat + ∑ j ∈ Finset.range k, (buffer j).toNat := by
    rw [Nat.mul_add]
    omega
  rw [offset, combine (hbits dims), hbase, hh, hhigh, combine_ofNat, hl, htotal, BitVec.ofNat_add,
    ofNat_sum, BitVec.ofNat_toNat, BitVec.setWidth_eq]

theorem isSome_encode {dims : ℕ} (hdims : 1 ≤ dims ∧ dims ≤ 4) (ptr : U64) (buffer : ℕ → U64) :
    (encode dims ptr buffer).isSome = true ↔ ptr.toNat < 2 ^ (86 - 14 * dims) := by
  rw [encode_eq hdims]
  split_ifs with h <;> simp [h]

theorem ptr_encode {dims : ℕ} (hdims : 1 ≤ dims ∧ dims ≤ 4) {ptr p : U64} {buffer : ℕ → U64}
    {r : U64 × U64} (h : encode dims ptr buffer = some (r, p)) : p = ptr + offsetOf buffer 8 := by
  rw [encode_eq hdims] at h
  split_ifs at h
  rw [Option.some.injEq, Prod.mk.injEq] at h
  exact h.2.symm

theorem oversize_iff (dims : ℕ) (size : U64) :
    (hybrid8 dims).oversize size = true ↔ 2 ^ (hbits dims + lbits) ≤ size.toNat := by
  have hzero : size >>> (hbits dims + lbits) = 0 ↔ size.toNat < 2 ^ (hbits dims + lbits) := by
    rw [← BitVec.toNat_inj, toNat_ushiftRight_div]
    exact Nat.div_eq_zero_iff_lt (Nat.two_pow_pos _)
  rw [hybrid8, decide_eq_true_eq, Ne, hzero, Nat.not_lt]

end Hybrid8

theorem lawful_hybrid8 {dims : ℕ} (hdims : 1 ≤ dims ∧ dims ≤ 4) :
    (hybrid8 dims).Lawful (2 ^ (2 * (dims - 1) + 8)) (2 ^ (86 - 14 * dims)) where
  width_pos := Nat.succ_pos 7
  sizeLimit_pos := Nat.two_pow_pos _
  oversize_iff := Hybrid8.oversize_iff dims
  isSome_encode := Hybrid8.isSome_encode hdims
  ptr_encode := Hybrid8.ptr_encode hdims
  offset_encode := Hybrid8.offset_encode hdims
  size_encode := Hybrid8.size_encode hdims

/-! ## Prefix sums -/

section PrefixSums

variable {dims blocks : ℕ} {sizes : ℕ → U64}

/-- A size is too wide for its two fields. -/
def SizeOverflow (dims : ℕ) (sizes : ℕ → U64) (blocks : ℕ) : Prop :=
  ∃ i < blocks, 2 ^ (2 * (dims - 1) + 8) ≤ (sizes i).toNat

/-- The offset of the first block of a chunk reaches `limit`. -/
def BaseOverflow (limit : ℕ) (sizes : ℕ → U64) (blocks : ℕ) : Prop :=
  ∃ c, 8 * c < blocks ∧ limit ≤ ∑ j ∈ Finset.range (8 * c), (sizes j).toNat

theorem sum_add_le {limit : ℕ} (hsize : ∀ i < blocks, (sizes i).toNat < limit) {i k : ℕ}
    (hk : i + k ≤ blocks) :
    ∑ j ∈ Finset.range (i + k), (sizes j).toNat ≤
      ∑ j ∈ Finset.range i, (sizes j).toNat + k * limit := by
  induction k with
  | zero => simp
  | succ k ih =>
    have hle := ih (by omega)
    have hlast := hsize (i + k) (by omega)
    rw [← Nat.add_assoc, Finset.sum_range_succ, Nat.succ_mul]
    omega

/-- Beyond one dimension the bases are bounded so far below `2 ^ 64` that no sum wraps. -/
theorem base_lt_of_admissible (hdims : 2 ≤ dims ∧ dims ≤ 4)
    (h : (hybrid8 dims).Admissible (2 ^ (2 * (dims - 1) + 8)) (2 ^ (86 - 14 * dims)) sizes blocks)
    {c : ℕ} (hc : 8 * c < blocks) :
    ∑ j ∈ Finset.range (8 * c), (sizes j).toNat < 2 ^ (86 - 14 * dims) := by
  obtain ⟨hsize, hbase⟩ := h
  have hlimit : 2 ^ (86 - 14 * dims) ≤ 2 ^ 58 := Nat.pow_le_pow_right (by decide) (by omega)
  have hwide : 2 ^ (2 * (dims - 1) + 8) ≤ 2 ^ 14 := Nat.pow_le_pow_right (by decide) (by omega)
  induction c with
  | zero => exact Nat.two_pow_pos _
  | succ c ih =>
    have hlt := ih (by omega)
    have hle := sum_add_le hsize (by omega : 8 * c + 8 ≤ blocks)
    have hb := hbase (c + 1) hc
    rw [Nat.mul_succ] at hb ⊢
    change (offsetOf sizes (8 * c + 8)).toNat < _ at hb
    rwa [toNat_offsetOf (by omega)] at hb

/-- What is accepted is what can be represented. -/
theorem admissible_iff (hdims : 1 ≤ dims ∧ dims ≤ 4)
    (htotal : dims = 1 → ∑ j ∈ Finset.range blocks, (sizes j).toNat < 2 ^ 64) :
    (hybrid8 dims).Admissible (2 ^ (2 * (dims - 1) + 8)) (2 ^ (86 - 14 * dims)) sizes blocks ↔
      ¬ (SizeOverflow dims sizes blocks ∨ BaseOverflow (2 ^ (86 - 14 * dims)) sizes blocks) := by
  constructor
  · rintro h (⟨i, hi, hsize⟩ | ⟨c, hc, hbase⟩)
    · have := h.1 i hi
      omega
    · rcases Nat.lt_or_ge 1 dims with hd | hd
      · have := base_lt_of_admissible ⟨hd, hdims.2⟩ h hc
        omega
      · obtain rfl : dims = 1 := by omega
        have hle := sum_mono sizes hc.le
        have hlt := htotal rfl
        omega
  · intro h
    refine ⟨fun i hi => ?_, fun c hc => ?_⟩
    · by_contra hge
      exact h (.inl ⟨i, hi, by omega⟩)
    · have hlt : ∑ j ∈ Finset.range (8 * c), (sizes j).toNat < 2 ^ (86 - 14 * dims) := by
        by_contra hge
        exact h (.inr ⟨c, hc, by omega⟩)
      have hmod := toNat_offsetOf_mod sizes (8 * c)
      have hle := Nat.mod_le (∑ j ∈ Finset.range (8 * c), (sizes j).toNat) (2 ^ 64)
      change (offsetOf sizes (8 * c)).toNat < _
      omega

/-- No offset of an accepted index wraps. -/
theorem sum_lt_of_admissible (hdims : 1 ≤ dims ∧ dims ≤ 4)
    (htotal : dims = 1 → ∑ j ∈ Finset.range blocks, (sizes j).toNat < 2 ^ 64)
    (h : (hybrid8 dims).Admissible (2 ^ (2 * (dims - 1) + 8)) (2 ^ (86 - 14 * dims)) sizes blocks)
    {i : ℕ} (hi : i ≤ blocks) : ∑ j ∈ Finset.range i, (sizes j).toNat < 2 ^ 64 := by
  rcases Nat.lt_or_ge 1 dims with hd | hd
  · rcases Nat.eq_zero_or_pos i with rfl | hpos
    · simp
    · have hlimit : 2 ^ (86 - 14 * dims) ≤ 2 ^ 58 := Nat.pow_le_pow_right (by decide) (by omega)
      have hwide : 2 ^ (2 * (dims - 1) + 8) ≤ 2 ^ 14 := Nat.pow_le_pow_right (by decide) (by omega)
      have hbase := base_lt_of_admissible ⟨hd, hdims.2⟩ h (c := (i - 1) / 8) (by omega)
      have hle := sum_add_le h.1 (i := 8 * ((i - 1) / 8)) (k := i - 8 * ((i - 1) / 8)) (by omega)
      have hk : (i - 8 * ((i - 1) / 8)) * 2 ^ (2 * (dims - 1) + 8) ≤ 8 * 2 ^ 14 :=
        Nat.mul_le_mul (by omega) hwide
      rw [Nat.add_sub_cancel' (by omega)] at hle
      omega
  · have hle := sum_mono sizes hi
    have hlt := htotal (by omega)
    omega

/-- The index reports the sums of the sizes, as numbers. -/
structure Reports (dims : ℕ) (sizes : ℕ → U64) (blocks : ℕ) (s : HybridIndex (U64 × U64)) :
    Prop where
  offset : ∀ i < blocks,
    ((hybrid8 dims).blockOffset s i).toNat = ∑ j ∈ Finset.range i, (sizes j).toNat
  size : ∀ i < blocks, (hybrid8 dims).blockSize s i = sizes i
  range : s.range.toNat = ∑ j ∈ Finset.range blocks, (sizes j).toNat

theorem reports_of_prefixSums (hdims : 1 ≤ dims ∧ dims ≤ 4)
    (htotal : dims = 1 → ∑ j ∈ Finset.range blocks, (sizes j).toNat < 2 ^ 64)
    (h : (hybrid8 dims).Admissible (2 ^ (2 * (dims - 1) + 8)) (2 ^ (86 - 14 * dims)) sizes blocks)
    {s : HybridIndex (U64 × U64)} (hs : (hybrid8 dims).PrefixSums sizes blocks s) :
    Reports dims sizes blocks s where
  offset i hi := by
    rw [hs.blockOffset_eq i hi.le, toNat_offsetOf (sum_lt_of_admissible hdims htotal h hi.le)]
  size := hs.blockSize_eq
  range := by
    rw [hs.range_eq, toNat_offsetOf (sum_lt_of_admissible hdims htotal h (Nat.le_refl _))]

/-- The records stored by the first `n` calls are those of the sums of the sizes. -/
def Stored (dims : ℕ) (sizes : ℕ → U64) (n : ℕ) (s : HybridIndex (U64 × U64)) : Prop :=
  ∀ i < 8 * (n / 8),
    ((hybrid8 dims).blockOffset s i).toNat = ∑ j ∈ Finset.range i, (sizes j).toNat ∧
      (i % 8 ≠ 7 → (hybrid8 dims).blockSize s i = sizes i)

theorem stored_of_setBlockSizes (hdims : 1 ≤ dims ∧ dims ≤ 4) (data : ℕ → U64 × U64)
    (buffer : ℕ → U64) (htotal : dims = 1 → ∑ j ∈ Finset.range blocks, (sizes j).toNat < 2 ^ 64)
    {n : ℕ} (hn : n ≤ blocks) {s : HybridIndex (U64 × U64)}
    (hs : (hybrid8 dims).setBlockSizes (.resize data buffer blocks) sizes n = .ok s) :
    Stored dims sizes n s := by
  have hC := lawful_hybrid8 hdims
  have hb := ChunkCodec.built_zero (hybrid8 dims) sizes data buffer blocks
  rcases ChunkCodec.setBlockSizes_spec hC hb fun i hi => .inl (Nat.lt_of_lt_of_le hi hn) with
    ⟨⟨hsize, hbase⟩, t, ht, hbt⟩ | ⟨-, e, he⟩
  · rw [hs, Except.ok.injEq] at ht
    subst ht
    -- the complete chunks form an index of their own
    have hadm : (hybrid8 dims).Admissible (2 ^ (2 * (dims - 1) + 8)) (2 ^ (86 - 14 * dims)) sizes
        (8 * (n / 8)) := by
      refine ⟨fun i hi => hsize i (by omega), fun c hc => hbase c ?_⟩
      change 8 * c < _ at hc
      change 8 * (c + 1) ≤ n
      omega
    have hlt := sum_lt_of_admissible (i := 8 * (n / 8)) hdims (fun h => by
      have hle := sum_mono sizes (by omega : 8 * (n / 8) ≤ blocks)
      have := htotal h
      omega) hadm (Nat.le_refl _)
    intro i hi
    have hdiv : i / (hybrid8 dims).width < n / (hybrid8 dims).width := by
      change i / 8 < n / 8
      omega
    constructor
    · have hle := sum_mono sizes hi.le
      rw [hbt.blockOffset_eq hC hsize (.inr hdiv), toNat_offsetOf (by omega)]
    · intro hlast
      refine hbt.blockSize_eq hC hsize hdiv (.inr ?_)
      change (i + 1) / 8 < n / 8
      omega
  · rw [hs] at he
    nomatch he

/-- The build fails exactly when a size or a base offset cannot be represented; else the index
reports the sums of the sizes, and no wrong record is ever stored. -/
theorem hybrid8_prefix_sums (hdims : 1 ≤ dims ∧ dims ≤ 4) (data : ℕ → U64 × U64)
    (buffer : ℕ → U64) (blocks : ℕ) (sizes : ℕ → U64)
    (htotal : dims = 1 → ∑ j ∈ Finset.range blocks, (sizes j).toNat < 2 ^ 64) :
    ((∀ i < blocks, (sizes i).toNat < 2 ^ (2 * (dims - 1) + 8)) →
      ∑ j ∈ Finset.range blocks, (sizes j).toNat < 2 ^ (86 - 14 * dims) →
      ∃ s, (hybrid8 dims).build (.resize data buffer blocks) sizes = .ok s ∧
        Reports dims sizes blocks s) ∧
    ((∃ e, (hybrid8 dims).build (.resize data buffer blocks) sizes = .error e) ↔
      SizeOverflow dims sizes blocks ∨ BaseOverflow (2 ^ (86 - 14 * dims)) sizes blocks) ∧
    (∀ s, (hybrid8 dims).build (.resize data buffer blocks) sizes = .ok s →
      Reports dims sizes blocks s) ∧
    ∀ n ≤ blocks, ∀ s,
      (hybrid8 dims).setBlockSizes (.resize data buffer blocks) sizes n = .ok s →
        Stored dims sizes n s := by
  have hC := lawful_hybrid8 hdims
  have hiff := admissible_iff hdims htotal
  refine ⟨fun hsize hsum => ?_, ?_, fun s hs => ?_, fun n hn s hs =>
    stored_of_setBlockSizes hdims data buffer htotal hn hs⟩
  · have hadm : (hybrid8 dims).Admissible (2 ^ (2 * (dims - 1) + 8)) (2 ^ (86 - 14 * dims)) sizes
        blocks := by
      rw [hiff]
      rintro (⟨i, hi, hge⟩ | ⟨c, hc, hge⟩)
      · have := hsize i hi
        omega
      · have := sum_mono sizes hc.le
        omega
    obtain ⟨s, hs, hq, -⟩ := ChunkCodec.build_ok hC data buffer hadm
    exact ⟨s, hs, reports_of_prefixSums hdims htotal hadm hq⟩
  · constructor
    · rintro ⟨e, he⟩
      by_contra hgood
      obtain ⟨s, hs, -⟩ := ChunkCodec.build_ok hC data buffer (hiff.mpr hgood)
      rw [hs] at he
      nomatch he
    · intro hbad
      exact ChunkCodec.build_error hC data buffer fun hadm => hiff.mp hadm hbad
  · by_cases hadm : (hybrid8 dims).Admissible (2 ^ (2 * (dims - 1) + 8)) (2 ^ (86 - 14 * dims))
        sizes blocks
    · obtain ⟨t, ht, hq, -⟩ := ChunkCodec.build_ok hC data buffer hadm
      rw [hs, Except.ok.injEq] at ht
      exact ht ▸ reports_of_prefixSums hdims htotal hadm hq
    · obtain ⟨e, he⟩ := ChunkCodec.build_error hC data buffer hadm
      rw [hs] at he
      nomatch he

end PrefixSums

/-- Nine blocks, so that the second chunk is padded. -/
theorem hybrid8_prefix_sums_nine :
    ∃ s, (hybrid8 3).build (.resize (fun _ => (0, 0)) (fun _ => 0) 9)
        (fun i => BitVec.ofNat 64 (100 * i)) =
      .ok s ∧ Reports 3 (fun i => BitVec.ofNat 64 (100 * i)) 9 s :=
  (hybrid8_prefix_sums ⟨by decide, by decide⟩ (fun _ => (0, 0)) (fun _ => 0) 9
    (fun i => BitVec.ofNat 64 (100 * i)) (fun h => by omega)).1 (by decide) (by decide)

/-- In one dimension the check on the base offset never fires. -/
theorem hybrid8_one_builds (blocks : ℕ) (sizes : ℕ → U64) (data : ℕ → U64 × U64)
    (buffer : ℕ → U64) (hsize : ∀ i < blocks, (sizes i).toNat < 2 ^ 8) :
    ∃ s, (hybrid8 1).build (.resize data buffer blocks) sizes = .ok s := by
  have hadm : (hybrid8 1).Admissible (2 ^ (2 * (1 - 1) + 8)) (2 ^ (86 - 14 * 1)) sizes blocks := by
    refine ⟨hsize, fun c _ => ?_⟩
    have := (offsetOf sizes ((hybrid8 1).width * c)).isLt
    omega
  obtain ⟨s, hs, -⟩ := ChunkCodec.build_ok (lawful_hybrid8 (by decide)) data buffer hadm
  exact ⟨s, hs⟩

/-- An index of `2 ^ 57` blocks of 255 bits: the base offsets of the last chunks exceed 64 bits. -/
theorem hybrid8_one_wraps :
    ¬ ((∃ e, (hybrid8 1).build (.resize (fun _ => (0, 0)) (fun _ => 0) (2 ^ 57)) (fun _ => 255) =
        .error e) ↔
      SizeOverflow 1 (fun _ => 255) (2 ^ 57) ∨ BaseOverflow (2 ^ 64) (fun _ => 255) (2 ^ 57)) := by
  obtain ⟨s, hs⟩ := hybrid8_one_builds (2 ^ 57) (fun _ => 255) (fun _ => (0, 0)) (fun _ => 0)
    fun _ _ => by decide
  intro h
  obtain ⟨e, he⟩ := h.mpr (.inr ⟨2 ^ 54 - 1, by decide, by
    rw [Finset.sum_const, Finset.card_range]
    decide⟩)
  rw [hs] at he
  nomatch he

end Zfp

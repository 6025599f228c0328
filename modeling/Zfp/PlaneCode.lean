import Mathlib.Data.List.Basic
import Mathlib.Logic.Function.Basic
import Mathlib.Tactic.Linarith

/-!
# Group-tested bit planes

The code of a sequence of bit planes, without budgets and streams. A plane has a prefix
of coefficients that are already significant, coded verbatim, and a rest that is coded by
group tests and runs; the length of the prefix carries over from one plane to the next.
A positive test of a single remaining coefficient is not followed by its bit.
-/

namespace PlaneCode

/-- Code of the coefficients `n, …, n + m - 1` of the plane `x`, and the length of the
prefix after it. The flag says that a positive group test was just coded. -/
def groupCode (x : ℕ → Bool) : Bool → ℕ → ℕ → List Bool × ℕ
  | _, 0, n => ([], n)
  | tested, m + 1, n =>
    if tested || (List.range' n (m + 1)).any x then
      let test := if tested then [] else [true]
      if m = 0 then (test, n + 1)
      else
        let r := groupCode x (!x n) m (n + 1)
        (test ++ x n :: r.1, r.2)
    else ([false], n)

/-- Code of a plane of `size` coefficients with a verbatim prefix of length `n`. -/
def planeCode (x : ℕ → Bool) (size n : ℕ) : List Bool × ℕ :=
  let r := groupCode x false (size - n) n
  ((List.range n).map x ++ r.1, r.2)

/-- Code of the planes `k - 1, …, kmin`. -/
def planesCode (x : ℕ → ℕ → Bool) (size kmin : ℕ) : ℕ → ℕ → List Bool
  | 0, _ => []
  | k + 1, n =>
    if kmin ≤ k then
      (planeCode (x k) size n).1 ++ planesCode x size kmin k (planeCode (x k) size n).2
    else []

section Encoder

variable {x : ℕ → Bool}

@[simp] theorem groupCode_zero (t : Bool) (n : ℕ) : groupCode x t 0 n = ([], n) := rfl

@[simp] theorem groupCode_one (n : ℕ) : groupCode x true 1 n = ([], n + 1) := rfl

theorem groupCode_succ (t : Bool) (m n : ℕ) : groupCode x t (m + 1) n =
    if t || (List.range' n (m + 1)).any x then
      let test := if t then [] else [true]
      if m = 0 then (test, n + 1)
      else
        let r := groupCode x (!x n) m (n + 1)
        (test ++ x n :: r.1, r.2)
    else ([false], n) := rfl

theorem groupCode_scan (m n : ℕ) : groupCode x true (m + 2) n =
    (x n :: (groupCode x (!x n) (m + 1) (n + 1)).1, (groupCode x (!x n) (m + 1) (n + 1)).2) := by
  rw [groupCode_succ]
  simp

theorem groupCode_test {m n : ℕ} (h : (List.range' n (m + 1)).any x = true) :
    groupCode x false (m + 1) n =
      (true :: (groupCode x true (m + 1) n).1, (groupCode x true (m + 1) n).2) := by
  rw [groupCode_succ, groupCode_succ]
  simp only [h]
  by_cases hm : m = 0 <;> simp [hm]

theorem groupCode_none {m n : ℕ} (h : (List.range' n (m + 1)).any x = false) :
    groupCode x false (m + 1) n = ([false], n) := by
  rw [groupCode_succ]
  simp [h]

theorem any_range'_eq_false {x : ℕ → Bool} {n m : ℕ} :
    (List.range' n m).any x = false ↔ ∀ i, n ≤ i → i < n + m → x i = false := by
  simp [List.any_eq_false, List.mem_range'_1]

theorem groupCode_bounds (t : Bool) (m n : ℕ) :
    n ≤ (groupCode x t m n).2 ∧ (groupCode x t m n).2 ≤ n + m := by
  induction m generalizing t n with
  | zero => simp
  | succ m ih =>
    have h := ih (!x n) (n + 1)
    rw [groupCode_succ]
    split
    · by_cases hm : m = 0
      · simp [hm]
      · simp only [hm, if_false]
        omega
    · simp

/-- Every coefficient costs at most two bits, and the last one of a full plane only its
group test. -/
theorem groupCode_length (m n : ℕ) :
    (groupCode x false m n).1.length + max (n + m - (groupCode x false m n).2) 1 ≤ m + max m 1 ∧
    (0 < m → (groupCode x true m n).1.length + max (n + m - (groupCode x true m n).2) 1 + 1 ≤
      2 * m) := by
  induction m generalizing n with
  | zero => simp
  | succ m ih =>
    have hscan : (groupCode x true (m + 1) n).1.length +
        max (n + (m + 1) - (groupCode x true (m + 1) n).2) 1 + 1 ≤ 2 * (m + 1) := by
      obtain - | m := m
      · simp
      · obtain ⟨hf, ht⟩ := ih (n + 1)
        rw [groupCode_scan]
        cases x n
        · have := ht (by omega)
          simp only [Bool.not_false, List.length_cons]
          omega
        · simp only [Bool.not_true, List.length_cons]
          omega
    refine ⟨?_, fun _ => hscan⟩
    cases h : (List.range' n (m + 1)).any x
    · rw [groupCode_none h]
      simp only [List.length_singleton]
      omega
    · rw [groupCode_test h, List.length_cons]
      omega

theorem planeCode_bounds {size n : ℕ} (hn : n ≤ size) :
    n ≤ (planeCode x size n).2 ∧ (planeCode x size n).2 ≤ size := by
  have h := groupCode_bounds (x := x) false (size - n) n
  simp only [planeCode]
  omega

theorem planeCode_length {size n : ℕ} (hn : n ≤ size) :
    (planeCode x size n).1.length + max (size - (planeCode x size n).2) 1 ≤
      size + max (size - n) 1 := by
  have h := (groupCode_length (x := x) (size - n) n).1
  rw [Nat.add_sub_cancel' hn] at h
  simp only [planeCode, List.length_append, List.length_map, List.length_range]
  omega

end Encoder

theorem planesCode_length_aux (x : ℕ → ℕ → Bool) {size : ℕ} (kmin k : ℕ) {n : ℕ} (hn : n ≤ size) :
    (planesCode x size kmin k n).length + 1 ≤ (k - kmin) * size + max (size - n) 1 := by
  induction k generalizing n with
  | zero =>
    simp only [planesCode, List.length_nil]
    omega
  | succ k ih =>
    rw [planesCode]
    split
    · next hk =>
      have hp := planeCode_length (x := x k) hn
      have hr := ih (planeCode_bounds (x := x k) hn).2
      rw [List.length_append, Nat.succ_sub hk, Nat.succ_mul]
      omega
    · rw [List.length_nil]
      omega

/-- All planes together take at most `(planes + 1) * size - 1` bits. -/
theorem planesCode_length (x : ℕ → ℕ → Bool) {size : ℕ} (hsize : 0 < size) (kmin k : ℕ) :
    (planesCode x size kmin k 0).length ≤ (k - kmin + 1) * size - 1 := by
  have h := planesCode_length_aux x kmin k (Nat.zero_le size)
  rw [Nat.add_mul, Nat.one_mul]
  omega

/-! ## More planes -/

section

variable {x : ℕ → ℕ → Bool} {size : ℕ}

/-- The code of more planes continues that of fewer ones. -/
theorem planesCode_split {kmin kmin' k : ℕ} (hmin : kmin' ≤ kmin) (hk : kmin ≤ k) {n : ℕ}
    (hn : n ≤ size) : ∃ n' ≤ size, planesCode x size kmin' k n =
      planesCode x size kmin k n ++ planesCode x size kmin' kmin n' := by
  induction k generalizing n with
  | zero =>
    obtain rfl : kmin = 0 := by omega
    obtain rfl : kmin' = 0 := by omega
    exact ⟨n, hn, rfl⟩
  | succ k ih =>
    rcases Nat.lt_or_ge k kmin with hlt | hge
    · obtain rfl : kmin = k + 1 := by omega
      have hnil : planesCode x size (k + 1) (k + 1) n = [] := by rw [planesCode, if_neg (by omega)]
      exact ⟨n, hn, by rw [hnil, List.nil_append]⟩
    · obtain ⟨n', hn', h⟩ := ih hge (planeCode_bounds (x := x k) hn).2
      refine ⟨n', hn', ?_⟩
      rw [planesCode, if_pos (by omega), h, planesCode, if_pos hge, List.append_assoc]

/-- A plane is zero if and only if its code is. -/
theorem planeCode_false {x : ℕ → Bool} {n : ℕ} (hn : n ≤ size) :
    (∀ b ∈ (planeCode x size n).1, b = false) ↔ ∀ i < size, x i = false := by
  rw [planeCode, List.forall_mem_append, List.forall_mem_map]
  have hrest : (∀ b ∈ (groupCode x false (size - n) n).1, b = false) ↔
      ∀ i, n ≤ i → i < size → x i = false := by
    obtain ⟨m, rfl⟩ := Nat.exists_eq_add_of_le hn
    rw [Nat.add_sub_cancel_left, ← any_range'_eq_false]
    cases m with
    | zero => simp
    | succ m =>
      cases h : (List.range' n (m + 1)).any x
      · simp [groupCode_none h]
      · simp [groupCode_test h]
  rw [hrest]
  constructor
  · rintro ⟨hlow, hhigh⟩ i hi
    rcases Nat.lt_or_ge i n with h | h
    · exact hlow i (List.mem_range.mpr h)
    · exact hhigh i h hi
  · intro h
    exact ⟨fun i hi => h i ((List.mem_range.mp hi).trans_le hn), fun i _ hi => h i hi⟩

/-- Planes are zero if and only if their code is. -/
theorem planesCode_false (kmin k : ℕ) {n : ℕ} (hn : n ≤ size) :
    (∀ b ∈ planesCode x size kmin k n, b = false) ↔
      ∀ j, kmin ≤ j → j < k → ∀ i < size, x j i = false := by
  induction k generalizing n with
  | zero =>
    rw [planesCode]
    exact iff_of_true (fun b hb => nomatch hb) fun j _ hj => nomatch hj
  | succ k ih =>
    rw [planesCode]
    split
    · next hk =>
      rw [List.forall_mem_append, planeCode_false hn, ih (planeCode_bounds hn).2]
      constructor
      · rintro ⟨hlast, hrest⟩ j hj hjk
        rcases Nat.lt_succ_iff_lt_or_eq.mp hjk with h | rfl
        · exact hrest j hj h
        · exact hlast
      · intro h
        exact ⟨h k hk (Nat.lt_succ_self k), fun j hj hjk => h j hj (hjk.trans (Nat.lt_succ_self k))⟩
    · exact iff_of_true (fun b hb => nomatch hb) fun j hj hjk => absurd hjk (by omega)

end

/-! ## Decoding -/

/-- Whether a bit may be read at position `p`, when the budget ends at `e`. -/
def more (e : Option ℕ) (p : ℕ) : Bool := e.all (p < ·)

/-- How many of `n` bits may be read from position `p` on. -/
def allowed (e : Option ℕ) (p n : ℕ) : ℕ := e.elim n fun e => min n (e - p)

/-- Decode the coefficients `n, …, n + m - 1` of a plane from the bits `b` from position
`p` on, adding the ones found to the plane `f`. -/
def groupDecode (b : ℕ → Bool) (e : Option ℕ) :
    Bool → ℕ → ℕ → ℕ → (ℕ → Bool) → (ℕ → Bool) × ℕ × ℕ
  | _, 0, n, p, f => (f, n, p)
  | tested, m + 1, n, p, f =>
    if tested || (more e p && b p) then
      let p := if tested then p else p + 1
      if m ≠ 0 ∧ more e p then
        groupDecode b e (!b p) m (n + 1) (p + 1) (if b p then Function.update f n true else f)
      else (Function.update f n true, n + 1, p)
    else (f, n, if more e p then p + 1 else p)

/-- The plane that begins with the `m` bits from position `p` on and is zero after them. -/
def verbatim (b : ℕ → Bool) (p m i : ℕ) : Bool := decide (i < m) && b (p + i)

/-- Decode a plane of `size` coefficients with a verbatim prefix of length `n`. -/
def planeDecode (b : ℕ → Bool) (e : Option ℕ) (size n p : ℕ) : (ℕ → Bool) × ℕ × ℕ :=
  let m := allowed e p n
  groupDecode b e false (size - n) n (p + m) (verbatim b p m)

/-- Decode the planes `k - 1, …, kmin`. -/
def planesDecode (b : ℕ → Bool) (e : Option ℕ) (size kmin : ℕ) :
    ℕ → ℕ → ℕ → (ℕ → ℕ → Bool) × ℕ
  | 0, _, p => (fun _ _ => false, p)
  | k + 1, n, p =>
    if more e p ∧ kmin ≤ k then
      let r := planeDecode b e size n p
      let r' := planesDecode b e size kmin k r.2.1 r.2.2
      (Function.update r'.1 k r.1, r'.2)
    else (fun _ _ => false, p)

section Decoder

variable {b : ℕ → Bool} {e : Option ℕ} {f : ℕ → Bool} {n p : ℕ}

@[simp] theorem more_none (p : ℕ) : more none p = true := rfl

@[simp] theorem more_some (e p : ℕ) : more (some e) p = decide (p < e) := rfl

@[simp] theorem allowed_none (p n : ℕ) : allowed none p n = n := rfl

@[simp] theorem allowed_some (e p n : ℕ) : allowed (some e) p n = min n (e - p) := rfl

theorem allowed_le (e : Option ℕ) (p n : ℕ) : allowed e p n ≤ n := by
  cases e
  · exact le_refl n
  · exact Nat.min_le_left _ _

@[simp] theorem groupDecode_zero (t : Bool) : groupDecode b e t 0 n p f = (f, n, p) := rfl

theorem groupDecode_succ (t : Bool) (m : ℕ) : groupDecode b e t (m + 1) n p f =
    if t || (more e p && b p) then
      let p := if t then p else p + 1
      if m ≠ 0 ∧ more e p then
        groupDecode b e (!b p) m (n + 1) (p + 1) (if b p then Function.update f n true else f)
      else (Function.update f n true, n + 1, p)
    else (f, n, if more e p then p + 1 else p) := rfl

theorem groupDecode_stop (m : ℕ) (h : more e p = false) :
    groupDecode b e false m n p f = (f, n, p) := by
  cases m
  · rfl
  · simp [groupDecode_succ, h]

theorem groupDecode_none (m : ℕ) (h : more e p = true) (hb : b p = false) :
    groupDecode b e false (m + 1) n p f = (f, n, p + 1) := by
  simp [groupDecode_succ, h, hb]

theorem groupDecode_test (m : ℕ) (h : more e p = true) (hb : b p = true) :
    groupDecode b e false (m + 1) n p f = groupDecode b e true (m + 1) n (p + 1) f := by
  simp [groupDecode_succ, h, hb]

@[simp] theorem groupDecode_one :
    groupDecode b e true 1 n p f = (Function.update f n true, n + 1, p) := by
  simp [groupDecode_succ]

theorem groupDecode_scan_stop (m : ℕ) (h : more e p = false) :
    groupDecode b e true (m + 1) n p f = (Function.update f n true, n + 1, p) := by
  simp [groupDecode_succ, h]

theorem groupDecode_scan (m : ℕ) (h : more e p = true) :
    groupDecode b e true (m + 2) n p f =
      groupDecode b e (!b p) (m + 1) (n + 1) (p + 1)
        (if b p then Function.update f n true else f) := by
  rw [groupDecode_succ]
  simp [h]

theorem groupDecode_bounds (t : Bool) (m : ℕ) :
    n ≤ (groupDecode b e t m n p f).2.1 ∧ (groupDecode b e t m n p f).2.1 ≤ n + m ∧
      p ≤ (groupDecode b e t m n p f).2.2 := by
  fun_induction groupDecode with
  | case1 => simp
  | case2 t m n p f h p' hm ih =>
    have : p ≤ p' := by simp only [p']; split <;> omega
    omega
  | case3 t m n p f h p' hm =>
    have : p ≤ p' := by simp only [p']; split <;> omega
    simp only
    omega
  | case4 t m n p f h =>
    have : p ≤ if more e p then p + 1 else p := by split <;> omega
    simp only
    omega

/-- The bits read are bounded like the bits written, on any input. -/
theorem groupDecode_length (t : Bool) (m : ℕ) (hm : t = true → 0 < m) :
    (groupDecode b e t m n p f).2.2 + max (n + m - (groupDecode b e t m n p f).2.1) 1 ≤
      p + m + if t then m - 1 else max m 1 := by
  fun_induction groupDecode with
  | case1 t n p f =>
    cases t
    · simp
    · exact absurd (hm rfl) (by omega)
  | case2 t m n p f h p' hm' ih =>
    have hp : p' = if t then p else p + 1 := rfl
    have hi := ih (by omega)
    clear ih
    cases t <;> cases hb : b p' <;> simp [hb] at hi hp ⊢ <;> omega
  | case3 t m n p f h p' hm' =>
    have hp : p' = if t then p else p + 1 := rfl
    cases t <;> simp at hp ⊢ <;> omega
  | case4 t m n p f h =>
    cases t
    · simp only [Bool.false_eq_true, if_false]
      split <;> omega
    · simp at h

/-- Only the coefficients `n, …, n + m - 1` are changed. -/
theorem groupDecode_of_not_mem (t : Bool) (m : ℕ) {i : ℕ} (hm : t = true → 0 < m)
    (hi : i < n ∨ n + m ≤ i) : (groupDecode b e t m n p f).1 i = f i := by
  fun_induction groupDecode with
  | case1 => rfl
  | case2 t m n p f h p' hm' ih =>
    rw [ih (by omega) (by omega)]
    split
    · exact Function.update_of_ne (by omega) _ _
    · rfl
  | case3 t m n p f h p' hm' => exact Function.update_of_ne (by omega) _ _
  | case4 => rfl

/-- The decoder depends on the bits within the budget only. -/
theorem groupDecode_congr {b b' : ℕ → Bool} {e : ℕ} (m n p : ℕ) (f : ℕ → Bool)
    (h : ∀ i, p ≤ i → i < e → b i = b' i) (t : Bool) (ht : t = true → 0 < m) :
    groupDecode b (some e) t m n p f = groupDecode b' (some e) t m n p f := by
  induction m generalizing n p f t with
  | zero => rfl
  | succ m ih =>
    have hscan : ∀ q, p ≤ q → groupDecode b (some e) true (m + 1) n q f =
        groupDecode b' (some e) true (m + 1) n q f := by
      intro q hq
      obtain - | m := m
      · simp
      by_cases hm : q < e
      · rw [groupDecode_scan _ (by simpa), groupDecode_scan _ (by simpa), ← h q hq hm]
        exact ih (n + 1) (q + 1) _ (fun i h1 h2 => h i (by omega) h2) _ (by omega)
      · rw [groupDecode_scan_stop _ (by simpa using hm), groupDecode_scan_stop _ (by simpa using hm)]
    cases t
    · by_cases hm : p < e
      · have hb := h p le_rfl hm
        cases hbp : b p
        · rw [groupDecode_none _ (by simpa) hbp, groupDecode_none _ (by simpa) (hb ▸ hbp)]
        · rw [groupDecode_test _ (by simpa) hbp, groupDecode_test _ (by simpa) (hb ▸ hbp)]
          exact hscan (p + 1) (Nat.le_succ p)
      · rw [groupDecode_stop _ (by simpa using hm), groupDecode_stop _ (by simpa using hm)]
    · exact hscan p le_rfl

/-- A decoder whose budget suffices is the one without a budget; otherwise it stops at the
end of the budget. -/
theorem groupDecode_budget (b : ℕ → Bool) {e : ℕ} (m n : ℕ) {p : ℕ} (f : ℕ → Bool) (hp : p ≤ e)
    (t : Bool) (ht : t = true → 0 < m) :
    let r := groupDecode b none t m n p f
    let r' := groupDecode b (some e) t m n p f
    r.2.2 ≤ e ∧ r' = r ∨ e < r.2.2 ∧ r'.2.2 = e := by
  induction m generalizing n p f t with
  | zero => exact .inl ⟨hp, rfl⟩
  | succ m ih =>
    have hscan : ∀ q ≤ e,
        let r := groupDecode b none true (m + 1) n q f
        let r' := groupDecode b (some e) true (m + 1) n q f
        r.2.2 ≤ e ∧ r' = r ∨ e < r.2.2 ∧ r'.2.2 = e := by
      intro q hq
      obtain - | m := m
      · exact .inl (by simpa)
      by_cases hm : q < e
      · rw [groupDecode_scan _ rfl, groupDecode_scan _ (by simpa)]
        exact ih (n + 1) _ hm _ (by omega)
      · obtain rfl : q = e := by omega
        right
        rw [groupDecode_scan _ rfl, groupDecode_scan_stop _ (by simp)]
        exact ⟨(groupDecode_bounds _ _).2.2, rfl⟩
    cases t
    · by_cases hm : p < e
      · cases hbp : b p
        · rw [groupDecode_none _ rfl hbp, groupDecode_none _ (by simpa) hbp]
          exact .inl ⟨hm, rfl⟩
        · rw [groupDecode_test _ rfl hbp, groupDecode_test _ (by simpa) hbp]
          exact hscan (p + 1) hm
      · obtain rfl : p = e := by omega
        right
        rw [groupDecode_stop (e := some p) _ (by simp)]
        refine ⟨?_, rfl⟩
        cases hbp : b p
        · rw [groupDecode_none _ rfl hbp]
          exact Nat.lt_succ_self p
        · rw [groupDecode_test _ rfl hbp]
          exact (groupDecode_bounds (p := p + 1) _ _).2.2
    · exact hscan p hp

end Decoder

end PlaneCode

import Zfp.BitLists
import Zfp.PlaneCode

/-!
# Decoding the code of bit planes

A decoder without a budget inverts the code. A decoder with a budget agrees with it on
every plane that ends within the budget and leaves the planes after the budget at zero.
-/

namespace PlaneCode
open BitLists

section RoundTrip

variable {b x : ℕ → Bool}

/-- The plane `f` completed by the coefficients `n, …, n + m - 1` of `x`. -/
private def fill (x : ℕ → Bool) (m n : ℕ) (f : ℕ → Bool) (i : ℕ) : Bool :=
  if n ≤ i ∧ i < n + m then x i else f i

private theorem fill_succ (m n : ℕ) {f : ℕ → Bool} (hf : f n = false) :
    fill x m (n + 1) (if x n then Function.update f n true else f) = fill x (m + 1) n f := by
  funext i
  simp only [fill]
  by_cases hi : i = n
  · subst hi
    cases hx : x i <;> simp [hf]
  · have h : (n + 1 ≤ i ∧ i < n + 1 + m) ↔ (n ≤ i ∧ i < n + (m + 1)) := by omega
    simp only [h]
    split
    · rfl
    · split
      · exact Function.update_of_ne hi _ _
      · rfl

/-- The decoder inverts the code of a group. -/
theorem groupDecode_groupCode (m n p : ℕ) (f : ℕ → Bool) (t : Bool)
    (ht : t = true → (List.range' n m).any x = true) (hf : ∀ i, n ≤ i → f i = false)
    (hr : Reads b p (groupCode x t m n).1) :
    groupDecode b none t m n p f =
      (fill x m n f, (groupCode x t m n).2, p + (groupCode x t m n).1.length) := by
  induction m generalizing n p f t with
  | zero =>
    have : fill x 0 n f = f := funext fun i => if_neg (by omega)
    simp [this]
  | succ m ih =>
    have hscan : ∀ q, (List.range' n (m + 1)).any x = true →
        Reads b q (groupCode x true (m + 1) n).1 →
        groupDecode b none true (m + 1) n q f =
          (fill x (m + 1) n f, (groupCode x true (m + 1) n).2,
            q + (groupCode x true (m + 1) n).1.length) := by
      intro q hany hq
      rw [List.range'_succ, List.any_cons, Bool.or_eq_true] at hany
      rw [← fill_succ m n (hf n le_rfl)]
      obtain - | m := m
      · have hx : x n = true := by simpa using hany
        have : fill x 0 (n + 1) (Function.update f n true) = Function.update f n true :=
          funext fun i => if_neg (by omega)
        simp [hx, this]
      · rw [groupCode_scan] at hq ⊢
        obtain ⟨hb, hq⟩ := hq
        rw [groupDecode_scan _ rfl, hb, ih (n + 1) (q + 1) _ (!x n) _ _ hq, List.length_cons,
          Nat.add_assoc, Nat.add_comm 1]
        · intro h
          have hx : x n = false := by simpa using h
          simpa [hx] using hany
        · intro i hi
          split
          · rw [Function.update_of_ne (by omega), hf i (by omega)]
          · exact hf i (by omega)
    cases t
    · cases hany : (List.range' n (m + 1)).any x
      · rw [groupCode_none hany] at hr ⊢
        rw [groupDecode_none _ rfl hr.1]
        have hfill : fill x (m + 1) n f = f := by
          funext i
          simp only [fill]
          split
          · next h => rw [any_range'_eq_false.mp hany i h.1 h.2, hf i h.1]
          · rfl
        rw [hfill]
        rfl
      · rw [groupCode_test hany] at hr ⊢
        rw [groupDecode_test _ rfl hr.1, hscan (p + 1) hany hr.2, List.length_cons,
          Nat.add_assoc, Nat.add_comm 1]
    · exact hscan p (ht rfl) hr

theorem verbatim_of_le {b : ℕ → Bool} {p m i : ℕ} (h : m ≤ i) : verbatim b p m i = false := by
  rw [verbatim, decide_eq_false (Nat.not_lt.mpr h), Bool.false_and]

theorem planeDecode_planeCode {size n p : ℕ} (hn : n ≤ size)
    (hr : Reads b p (planeCode x size n).1) :
    planeDecode b none size n p =
      (fun i => decide (i < size) && x i, (planeCode x size n).2,
        p + (planeCode x size n).1.length) := by
  simp only [planeCode] at hr ⊢
  rw [reads_append, List.length_map, List.length_range] at hr
  obtain ⟨hv, hg⟩ := hr
  have hverb : ∀ i < n, b (p + i) = x i := by
    intro i hi
    rw [reads_iff.mp hv i (by simpa)]
    simp [hi]
  rw [planeDecode, allowed_none, groupDecode_groupCode (size - n) n _ _ false (by simp) _ hg]
  · simp only [List.length_append, List.length_map, List.length_range, Nat.add_assoc, Prod.mk.injEq,
      and_true]
    funext i
    by_cases hi : i < n
    · simp [fill, verbatim, hi, hi.trans_le hn, hverb i hi, Nat.not_le.mpr hi]
    · by_cases hs : i < size <;>
        simp [fill, verbatim, hi, hs, Nat.not_lt.mp hi, Nat.add_sub_cancel' hn]
  · exact fun i hi => verbatim_of_le hi

end RoundTrip

section Planes

variable {b : ℕ → Bool} {e : Option ℕ} {size n p : ℕ}

theorem planeDecode_bounds (hn : n ≤ size) :
    n ≤ (planeDecode b e size n p).2.1 ∧ (planeDecode b e size n p).2.1 ≤ size ∧
      p ≤ (planeDecode b e size n p).2.2 := by
  have h := groupDecode_bounds (b := b) (e := e) (p := p + allowed e p n) (n := n)
    (f := verbatim b p (allowed e p n)) false (size - n)
  rw [planeDecode]
  omega

theorem planeDecode_length (hn : n ≤ size) :
    (planeDecode b e size n p).2.2 + max (size - (planeDecode b e size n p).2.1) 1 ≤
      p + size + max (size - n) 1 := by
  have h := groupDecode_length (b := b) (e := e) (p := p + allowed e p n) (n := n)
    (f := verbatim b p (allowed e p n)) false (size - n) (by simp)
  have ha := allowed_le e p n
  simp only [Bool.false_eq_true, if_false, Nat.add_sub_cancel' hn] at h
  rw [planeDecode]
  omega

theorem planeDecode_of_le (hn : n ≤ size) {i : ℕ} (hi : size ≤ i) :
    (planeDecode b e size n p).1 i = false := by
  have ha := allowed_le e p n
  rw [planeDecode, groupDecode_of_not_mem _ _ (by simp) (by omega), verbatim_of_le (by omega)]

theorem planeDecode_congr {b b' : ℕ → Bool} {e : ℕ} (h : ∀ i, p ≤ i → i < e → b i = b' i) :
    planeDecode b (some e) size n p = planeDecode b' (some e) size n p := by
  have hf : verbatim b p (allowed (some e) p n) = verbatim b' p (allowed (some e) p n) := by
    funext i
    by_cases hi : i < allowed (some e) p n
    · rw [allowed_some] at hi
      rw [verbatim, verbatim, h (p + i) (by omega) (by omega)]
    · rw [verbatim_of_le (by omega), verbatim_of_le (by omega)]
  rw [planeDecode, planeDecode, hf]
  exact groupDecode_congr _ _ _ _ (fun i h1 h2 => h i (by omega) h2) false (by simp)

theorem planeDecode_budget (b : ℕ → Bool) {e : ℕ} (size n : ℕ) (hp : p ≤ e) :
    let r := planeDecode b none size n p
    let r' := planeDecode b (some e) size n p
    r.2.2 ≤ e ∧ r' = r ∨ e < r.2.2 ∧ r'.2.2 = e := by
  rw [planeDecode, planeDecode, allowed_none, allowed_some]
  by_cases h : p + n ≤ e
  · rw [Nat.min_eq_left (by omega)]
    exact groupDecode_budget b (size - n) n _ h false (by simp)
  · right
    have he : p + min n (e - p) = e := by omega
    have hg := (groupDecode_bounds (b := b) (e := none) (p := p + n) (n := n)
      (f := verbatim b p n) false (size - n)).2.2
    rw [he, groupDecode_stop (e := some e) _ (by simp)]
    exact ⟨by omega, rfl⟩

theorem planeDecode_le (b : ℕ → Bool) {e : ℕ} (size n : ℕ) (hp : p ≤ e) :
    (planeDecode b (some e) size n p).2.2 ≤ e := by
  obtain ⟨hle, heq⟩ | ⟨-, heq⟩ := planeDecode_budget b size n hp
  · exact heq ▸ hle
  · exact heq.le

/-- Every plane of a nonempty sequence costs at least one bit. -/
theorem planeDecode_progress (b : ℕ → Bool) (hsize : 0 < size) (hn : n ≤ size) :
    p < (planeDecode b none size n p).2.2 := by
  rw [planeDecode, allowed_none]
  obtain ⟨m, hm⟩ := Nat.exists_eq_add_of_le hn
  rw [hm, Nat.add_sub_cancel_left]
  obtain - | m := m
  · simp
    omega
  · cases hb : b (p + n)
    · rw [groupDecode_none _ rfl hb]
      simp only
      omega
    · rw [groupDecode_test _ rfl hb]
      have := (groupDecode_bounds (b := b) (e := none) (p := p + n + 1) (n := n)
        (f := verbatim b p n) true (m + 1)).2.2
      omega

@[simp] theorem planesDecode_zero {kmin : ℕ} :
    planesDecode b e size kmin 0 n p = (fun _ _ => false, p) := rfl

variable {kmin : ℕ}

theorem planesDecode_stop {k : ℕ} (h : more e p = false ∨ k ≤ kmin) :
    planesDecode b e size kmin k n p = (fun _ _ => false, p) := by
  cases k
  · rfl
  · rw [planesDecode, if_neg]
    rintro ⟨h1, h2⟩
    rcases h with h | h
    · rw [h1] at h
      exact absurd h (by decide)
    · omega

theorem planesDecode_succ {k : ℕ} (h : more e p = true) (hk : kmin ≤ k) :
    planesDecode b e size kmin (k + 1) n p =
      (Function.update (planesDecode b e size kmin k (planeDecode b e size n p).2.1
          (planeDecode b e size n p).2.2).1 k (planeDecode b e size n p).1,
        (planesDecode b e size kmin k (planeDecode b e size n p).2.1
          (planeDecode b e size n p).2.2).2) := by
  rw [planesDecode, if_pos ⟨h, hk⟩]

/-- Planes outside `kmin, …, k - 1` and coefficients from `size` on are not set. -/
theorem planesDecode_of_not_mem (hn : n ≤ size) {k j i : ℕ} (h : j < kmin ∨ k ≤ j ∨ size ≤ i) :
    (planesDecode b e size kmin k n p).1 j i = false := by
  induction k generalizing n p with
  | zero => rfl
  | succ k ih =>
    by_cases hk : more e p = true ∧ kmin ≤ k
    · rw [planesDecode_succ hk.1 hk.2]
      dsimp only
      by_cases hj : j = k
      · subst hj
        rw [Function.update_self]
        exact planeDecode_of_le hn (by omega)
      · rw [Function.update_of_ne hj]
        exact ih (planeDecode_bounds hn).2.1 (by omega)
    · rw [planesDecode, if_neg hk]

theorem planesDecode_length (b : ℕ → Bool) (e : Option ℕ) (kmin p : ℕ) (hn : n ≤ size) (k : ℕ) :
    p ≤ (planesDecode b e size kmin k n p).2 ∧
    (planesDecode b e size kmin k n p).2 + 1 ≤ p + (k - kmin) * size + max (size - n) 1 := by
  induction k generalizing n p with
  | zero =>
    rw [planesDecode_zero]
    omega
  | succ k ih =>
    by_cases h : more e p = true ∧ kmin ≤ k
    · have hb := planeDecode_bounds (b := b) (e := e) (p := p) hn
      have hl := planeDecode_length (b := b) (e := e) (p := p) hn
      have hi := ih (planeDecode b e size n p).2.2 hb.2.1
      rw [planesDecode_succ h.1 h.2, Nat.succ_sub h.2, Nat.succ_mul]
      omega
    · rw [planesDecode, if_neg h]
      simp only
      omega

theorem planesDecode_congr {b b' : ℕ → Bool} {e : ℕ} (k : ℕ) (hn : n ≤ size)
    (h : ∀ i, p ≤ i → i < e → b i = b' i) :
    planesDecode b (some e) size kmin k n p = planesDecode b' (some e) size kmin k n p := by
  induction k generalizing n p with
  | zero => rfl
  | succ k ih =>
    have hb := planeDecode_bounds (b := b') (e := some e) (p := p) hn
    have hi := ih (p := (planeDecode b' (some e) size n p).2.2) hb.2.1
      fun i h1 h2 => h i (by omega) h2
    simp only [planesDecode, planeDecode_congr h, hi]

/-- A decoder whose budget suffices is the one without a budget; otherwise it stops at the
end of the budget. -/
theorem planesDecode_budget (b : ℕ → Bool) {e : ℕ} (kmin k : ℕ) (hsize : 0 < size) (hn : n ≤ size)
    (hp : p ≤ e) :
    let r := planesDecode b none size kmin k n p
    let r' := planesDecode b (some e) size kmin k n p
    r.2 ≤ e ∧ r' = r ∨ e < r.2 ∧ r'.2 = e := by
  induction k generalizing n p with
  | zero => exact .inl ⟨hp, rfl⟩
  | succ k ih =>
    have hb := planeDecode_bounds (b := b) (e := none) (p := p) hn
    by_cases hk : kmin ≤ k
    · have hlast := (planesDecode_length b none kmin (planeDecode b none size n p).2.2 hb.2.1 k).1
      have hprog := planeDecode_progress (p := p) b hsize hn
      rw [planesDecode_succ rfl hk]
      by_cases hm : p < e
      · rw [planesDecode_succ (by simpa) hk]
        obtain ⟨hle, heq⟩ | ⟨hlt, heq⟩ := planeDecode_budget b size n hp
        · rw [heq]
          obtain ⟨hle', heq'⟩ | h := ih hb.2.1 hle
          · rw [heq']
            exact .inl ⟨hle', rfl⟩
          · exact .inr h
        · right
          rw [heq, planesDecode_stop (e := some e) (p := e) (.inl (by simp))]
          exact ⟨by simp only; omega, rfl⟩
      · right
        rw [planesDecode_stop (e := some e) (.inl (by simpa using hm))]
        exact ⟨by simp only; omega, by simp only; omega⟩
    · rw [planesDecode_stop (.inr (by omega)), planesDecode_stop (.inr (by omega))]
      exact .inl ⟨hp, rfl⟩

/-- Two equal bits at the start decide on the first coefficient of the first plane. -/
theorem planesDecode_first {k : ℕ} (hsize : 0 < size) (h : more e p = true) (hk : kmin ≤ k)
    (hb : b (p + 1) = b p) : (planesDecode b e size kmin (k + 1) 0 p).1 k 0 = b p := by
  obtain ⟨m, rfl⟩ := Nat.exists_eq_add_of_le' hsize
  have hnone : allowed e p 0 = 0 := Nat.le_zero.mp (allowed_le e p 0)
  rw [planesDecode_succ h hk]
  dsimp only
  rw [Function.update_self, planeDecode, hnone]
  simp only [Nat.add_zero, Nat.sub_zero]
  cases hp : b p
  · rw [groupDecode_none m h hp]
    rfl
  · rw [groupDecode_test m h hp]
    obtain - | m := m
    · rw [groupDecode_one]
      dsimp only
      rw [Function.update_self]
    cases hmore : more e (p + 1)
    · rw [groupDecode_scan_stop _ hmore]
      dsimp only
      rw [Function.update_self]
    · rw [groupDecode_scan _ hmore, hb, hp, groupDecode_of_not_mem _ _ (by simp) (.inl Nat.one_pos),
        if_pos rfl, Function.update_self]

/-- A plane that ends within the budget is decoded as without a budget. -/
theorem planesDecode_plane (b : ℕ → Bool) {e k j : ℕ} (hsize : 0 < size) (hn : n ≤ size)
    (hj : kmin ≤ j) (hk : j < k) (h : (planesDecode b none size j k n p).2 ≤ e) :
    (planesDecode b (some e) size kmin k n p).1 j = (planesDecode b none size kmin k n p).1 j := by
  induction k generalizing n p with
  | zero => exact absurd hk (Nat.not_lt_zero j)
  | succ k ih =>
    have hb := planeDecode_bounds (b := b) (e := none) (p := p) hn
    have hprog := planeDecode_progress (p := p) b hsize hn
    rw [planesDecode_succ rfl (by omega)] at h
    have hlast := (planesDecode_length b none j (planeDecode b none size n p).2.2 hb.2.1 k).1
    have hplane : planeDecode b (some e) size n p = planeDecode b none size n p := by
      obtain h' | h' := planeDecode_budget (p := p) (e := e) b size n (by omega)
      · exact h'.2
      · omega
    rw [planesDecode_succ (e := none) rfl (by omega), planesDecode_succ (by simp; omega) (by omega),
      hplane]
    dsimp only
    by_cases hjk : j = k
    · rw [hjk, Function.update_self, Function.update_self]
    · rw [Function.update_of_ne hjk, Function.update_of_ne hjk]
      exact ih hb.2.1 (by omega) h

/-- A plane that starts after the end of the budget is not decoded. -/
theorem planesDecode_plane_zero (b : ℕ → Bool) {e k j : ℕ} (hn : n ≤ size) (hp : p ≤ e) (i : ℕ)
    (h : e ≤ (planesDecode b none size (j + 1) k n p).2) :
    (planesDecode b (some e) size kmin k n p).1 j i = false := by
  induction k generalizing n p with
  | zero => rfl
  | succ k ih =>
    by_cases hstop : more (some e) p = false ∨ k + 1 ≤ kmin
    · rw [planesDecode_stop hstop]
    rw [more_some, decide_eq_false_iff_not] at hstop
    have hb := planeDecode_bounds (b := b) (e := none) (p := p) hn
    have hjk : j < k := by
      by_contra hjk
      rw [planesDecode_stop (.inr (by omega))] at h
      simp only at h
      omega
    rw [planesDecode_succ rfl hjk] at h
    rw [planesDecode_succ (by simp; omega) (by omega)]
    dsimp only
    rw [Function.update_of_ne hjk.ne]
    obtain ⟨hle, heq⟩ | ⟨-, heq⟩ := planeDecode_budget b size n hp
    · rw [heq]
      exact ih hb.2.1 hle h
    · rw [heq, planesDecode_stop (.inl (by simp))]

/-- The code of the upper planes begins the code of all planes. -/
theorem planesCode_prefix (x : ℕ → ℕ → Bool) (size : ℕ) {kmin j : ℕ} (h : kmin ≤ j) (k n : ℕ) :
    ∃ l, planesCode x size kmin k n = planesCode x size j k n ++ l := by
  induction k generalizing n with
  | zero => exact ⟨[], rfl⟩
  | succ k ih =>
    by_cases hj : j ≤ k
    · obtain ⟨l, hl⟩ := ih (planeCode (x k) size n).2
      refine ⟨l, ?_⟩
      rw [planesCode, planesCode, if_pos (h.trans hj), if_pos hj, hl, List.append_assoc]
    · exact ⟨planesCode x size kmin (k + 1) n, by simp [planesCode, hj]⟩

/-- The decoder inverts the code of all planes. -/
theorem planesDecode_planesCode (x : ℕ → ℕ → Bool) (k : ℕ) (hn : n ≤ size)
    (hr : Reads b p (planesCode x size kmin k n)) :
    planesDecode b none size kmin k n p =
      (fun j i => decide (kmin ≤ j ∧ j < k ∧ i < size) && x j i,
        p + (planesCode x size kmin k n).length) := by
  induction k generalizing n p with
  | zero => simp [planesCode]
  | succ k ih =>
    by_cases hk : kmin ≤ k
    · rw [planesCode, if_pos hk] at hr ⊢
      rw [reads_append] at hr
      have hplane := planeDecode_planeCode hn hr.1
      rw [planesDecode_succ rfl hk, hplane, ih (planeCode_bounds hn).2 hr.2, List.length_append,
        Nat.add_assoc]
      congr 1
      funext j i
      by_cases hj : j = k
      · subst hj
        simp [hk]
      · have : j < k + 1 ↔ j < k := by omega
        rw [Function.update_of_ne hj]
        simp only [this]
    · rw [planesDecode_stop (.inr (by omega)), planesCode, if_neg hk]
      congr 1
      funext j i
      rw [decide_eq_false (by omega), Bool.false_and]

end Planes

end PlaneCode

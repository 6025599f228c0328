import Mathlib.Data.List.Nodup
import Mathlib.Data.List.Pairwise
import Mathlib.Logic.Function.Basic
import Mathlib.Tactic.IntervalCases
import Mathlib.Tactic.Linarith

/-!
# Separable transforms of an array

A map of 4-vectors is applied in place to lines of an array: the elements at a base and at
three more positions, a stride apart. A pass applies it to disjoint lines, and acts on each
line as if it were alone; a transform is a sequence of passes.
-/

namespace Lines

variable {α : Type*}

@[ext] structure Vec4 (α : Type*) where
  x : α
  y : α
  z : α
  w : α

def Vec4.get (v : Vec4 α) : ℕ → α
  | 0 => v.x | 1 => v.y | 2 => v.z | _ => v.w

theorem Vec4.ext_get {u v : Vec4 α} (h : ∀ i < 4, u.get i = v.get i) : u = v :=
  Vec4.ext (h 0 (by decide)) (h 1 (by decide)) (h 2 (by decide)) (h 3 (by decide))

def load (p : ℕ → α) (s b : ℕ) : Vec4 α := ⟨p b, p (b + s), p (b + 2 * s), p (b + 3 * s)⟩

def store (p : ℕ → α) (s b : ℕ) (v : Vec4 α) : ℕ → α :=
  Function.update (Function.update (Function.update (Function.update p (b + 3 * s) v.w)
    (b + 2 * s) v.z) (b + s) v.y) b v.x

/-- Transform one line in place. -/
def onLine (f : Vec4 α → Vec4 α) (s : ℕ) (p : ℕ → α) (b : ℕ) : ℕ → α :=
  store p s b (f (load p s b))

/-- Transform the lines with the given bases, one after the other. -/
def pass (f : Vec4 α → Vec4 α) (s : ℕ) (bases : List ℕ) (p : ℕ → α) : ℕ → α :=
  bases.foldl (onLine f s) p

/-- A sequence of passes, each with its bases and its stride. -/
def passes (f : Vec4 α → Vec4 α) (l : List (List ℕ × ℕ)) (p : ℕ → α) : ℕ → α :=
  l.foldl (fun p q => pass f q.2 q.1 p) p

/-- Transform the lines that two nested loops visit. -/
def lineLoops (f : Vec4 α → Vec4 α) (s : ℕ) (base : ℕ → ℕ → ℕ) (p : ℕ → α) : ℕ → α :=
  (List.range 4).foldl (fun p i => (List.range 4).foldl (fun p j => onLine f s p (base i j)) p) p

def line (s b : ℕ) : List ℕ := [b, b + s, b + 2 * s, b + 3 * s]

/-- No two of the lines share a position, and no line meets itself. -/
def Disjoint (bases : List ℕ) (s : ℕ) : Prop := (bases.flatMap (line s)).Nodup

instance (bases : List ℕ) (s : ℕ) : Decidable (Disjoint bases s) :=
  inferInstanceAs (Decidable (List.Nodup _))

theorem mem_line {s b j : ℕ} : j ∈ line s b ↔ ∃ i < 4, j = b + i * s := by
  simp only [line, List.mem_cons, List.not_mem_nil, or_false]
  constructor
  · rintro (h | h | h | h)
    · exact ⟨0, by decide, by omega⟩
    · exact ⟨1, by decide, by omega⟩
    · exact ⟨2, by decide, h⟩
    · exact ⟨3, by decide, h⟩
  · rintro ⟨i, hi, rfl⟩
    interval_cases i <;> simp

theorem load_get (p : ℕ → α) (s b : ℕ) {i : ℕ} (hi : i < 4) :
    (load p s b).get i = p (b + i * s) := by
  interval_cases i <;> simp [load, Vec4.get]

theorem load_congr {p q : ℕ → α} {s b : ℕ} (h : ∀ j ∈ line s b, p j = q j) :
    load p s b = load q s b := by
  refine Vec4.ext_get fun i hi => ?_
  rw [load_get _ _ _ hi, load_get _ _ _ hi]
  exact h _ (mem_line.mpr ⟨i, hi, rfl⟩)

theorem store_of_not_mem (p : ℕ → α) {s b j : ℕ} (v : Vec4 α) (h : j ∉ line s b) :
    store p s b v j = p j := by
  simp only [line, List.mem_cons, List.not_mem_nil, or_false, not_or] at h
  obtain ⟨h0, h1, h2, h3⟩ := h
  rw [store, Function.update_of_ne h0, Function.update_of_ne h1, Function.update_of_ne h2,
    Function.update_of_ne h3]

theorem load_store_of_not_mem (p : ℕ → α) {s b b' : ℕ} (v : Vec4 α)
    (h : ∀ j ∈ line s b, j ∉ line s b') : load (store p s b' v) s b = load p s b :=
  load_congr fun j hj => store_of_not_mem p v (h j hj)

theorem load_store (p : ℕ → α) {s : ℕ} (hs : 0 < s) (b : ℕ) (v : Vec4 α) :
    load (store p s b v) s b = v := by
  have h1 : b + s ≠ b := by omega
  have h2 : b + 2 * s ≠ b := by omega
  have h3 : b + 3 * s ≠ b := by omega
  have h21 : b + 2 * s ≠ b + s := by omega
  have h31 : b + 3 * s ≠ b + s := by omega
  have h32 : b + 3 * s ≠ b + 2 * s := by omega
  apply Vec4.ext
  · exact Function.update_self ..
  · exact (Function.update_of_ne h1 ..).trans (Function.update_self ..)
  · exact (Function.update_of_ne h2 ..).trans
      ((Function.update_of_ne h21 ..).trans (Function.update_self ..))
  · exact (Function.update_of_ne h3 ..).trans
      ((Function.update_of_ne h31 ..).trans
        ((Function.update_of_ne h32 ..).trans (Function.update_self ..)))

theorem Disjoint.of_cons {b : ℕ} {bases : List ℕ} {s : ℕ} (h : Disjoint (b :: bases) s) :
    Disjoint bases s := (List.nodup_append.mp h).2.1

theorem Disjoint.not_mem {b b' : ℕ} {bases : List ℕ} {s : ℕ} (h : Disjoint (b :: bases) s)
    (hb' : b' ∈ bases) {j : ℕ} (hj : j ∈ line s b) : j ∉ line s b' := by
  intro hj'
  exact (List.nodup_append.mp h).2.2 j hj j (List.mem_flatMap.mpr ⟨b', hb', hj'⟩) rfl

theorem lineLoops_eq_pass (f : Vec4 α → Vec4 α) (s : ℕ) (base : ℕ → ℕ → ℕ) (p : ℕ → α) :
    lineLoops f s base p =
      pass f s ((List.range 4).flatMap fun i => (List.range 4).map (base i)) p := by
  simp only [lineLoops, pass, List.foldl_flatMap, List.foldl_map]

/-- A pass leaves the positions outside its lines unchanged. -/
theorem pass_of_not_mem (f : Vec4 α → Vec4 α) (s : ℕ) (bases : List ℕ) (p : ℕ → α) {j : ℕ}
    (h : ∀ b ∈ bases, j ∉ line s b) : pass f s bases p j = p j := by
  induction bases generalizing p with
  | nil => rfl
  | cons b bases ih =>
    have hrest := ih (onLine f s p b) fun b' hb' => h b' (List.mem_cons_of_mem b hb')
    rw [pass, List.foldl_cons]
    exact hrest.trans (store_of_not_mem p _ (h b List.mem_cons_self))

/-- A pass acts on each of its lines as if it were alone. -/
theorem load_pass (f : Vec4 α → Vec4 α) {s : ℕ} (hs : 0 < s) {bases : List ℕ}
    (hd : Disjoint bases s) (p : ℕ → α) {b : ℕ} (hb : b ∈ bases) :
    load (pass f s bases p) s b = f (load p s b) := by
  induction bases generalizing p with
  | nil => exact absurd hb List.not_mem_nil
  | cons a bases ih =>
    have hcons : pass f s (a :: bases) p = pass f s bases (onLine f s p a) := rfl
    rw [hcons]
    obtain rfl | hb := List.mem_cons.mp hb
    · have hkeep : ∀ j ∈ line s b, pass f s bases (onLine f s p b) j = onLine f s p b j :=
        fun j hj => pass_of_not_mem f s bases _ fun b' hb' => hd.not_mem hb' hj
      rw [load_congr hkeep, onLine, load_store p hs]
    · rw [ih hd.of_cons _ hb]
      congr 1
      refine load_congr fun j hj => store_of_not_mem p _ fun hj' => ?_
      exact hd.not_mem hb hj' hj

/-- Inverse maps of lines give inverse passes. -/
theorem pass_inverse {f g : Vec4 α → Vec4 α} (h : ∀ v, g (f v) = v) {s : ℕ} (hs : 0 < s)
    {bases : List ℕ} (hd : Disjoint bases s) (p : ℕ → α) :
    pass g s bases (pass f s bases p) = p := by
  funext j
  by_cases hj : ∃ b ∈ bases, j ∈ line s b
  · obtain ⟨b, hb, hj⟩ := hj
    obtain ⟨i, hi, rfl⟩ := mem_line.mp hj
    have hload : load (pass g s bases (pass f s bases p)) s b = load p s b := by
      rw [load_pass g hs hd _ hb, load_pass f hs hd p hb, h]
    rw [← load_get (pass g s bases (pass f s bases p)) s b hi, hload, load_get p s b hi]
  · push Not at hj
    rw [pass_of_not_mem g s bases _ hj, pass_of_not_mem f s bases p hj]

/-- The inverse passes in reverse order undo a transform. -/
theorem passes_inverse {f g : Vec4 α → Vec4 α} (h : ∀ v, g (f v) = v) {l : List (List ℕ × ℕ)}
    (hl : ∀ q ∈ l, 0 < q.2 ∧ Disjoint q.1 q.2) (p : ℕ → α) :
    passes g l.reverse (passes f l p) = p := by
  induction l generalizing p with
  | nil => rfl
  | cons q l ih =>
    have hq := hl q List.mem_cons_self
    have hcons : passes f (q :: l) p = passes f l (pass f q.2 q.1 p) := rfl
    have hlast : ∀ r, passes g (q :: l).reverse r = pass g q.2 q.1 (passes g l.reverse r) := by
      intro r
      rw [List.reverse_cons, passes, List.foldl_append]
      rfl
    rw [hcons, hlast, ih fun q hq => hl q (List.mem_cons_of_mem _ hq)]
    exact pass_inverse h hq.1 hq.2 p

/-- A transform reads and writes only the first `n` elements when its lines lie there. -/
theorem pass_congr (f : Vec4 α → Vec4 α) {s n : ℕ} {bases : List ℕ}
    (hn : ∀ b ∈ bases, ∀ j ∈ line s b, j < n) {p q : ℕ → α} (h : ∀ j < n, p j = q j) :
    ∀ j < n, pass f s bases p j = pass f s bases q j := by
  induction bases generalizing p q with
  | nil => exact h
  | cons b bases ih =>
    refine ih (fun b' hb' => hn b' (List.mem_cons_of_mem b hb')) fun j hj => ?_
    have hload : load p s b = load q s b :=
      load_congr fun j hj => h j (hn b List.mem_cons_self j hj)
    rw [onLine, onLine, hload]
    simp only [store, Function.update_apply, h j hj]

theorem passes_congr (f : Vec4 α → Vec4 α) {n : ℕ} {l : List (List ℕ × ℕ)}
    (hl : ∀ q ∈ l, ∀ b ∈ q.1, ∀ j ∈ line q.2 b, j < n) {p q : ℕ → α} (h : ∀ j < n, p j = q j) :
    ∀ j < n, passes f l p j = passes f l q j := by
  induction l generalizing p q with
  | nil => exact h
  | cons r l ih =>
    exact ih (fun q hq => hl q (List.mem_cons_of_mem _ hq))
      (pass_congr f (hl r List.mem_cons_self) h)

/-! ## Relations between transforms -/

section

variable {β : Type*} {R : α → β → Prop} {f : Vec4 α → Vec4 α} {g : Vec4 β → Vec4 β}

/-- A relation of elements that two maps of lines preserve is preserved by their passes. -/
theorem pass_rel
    (hfg : ∀ u v, (∀ i < 4, R (u.get i) (v.get i)) → ∀ i < 4, R ((f u).get i) ((g v).get i))
    {s n : ℕ} {bases : List ℕ} (hn : ∀ b ∈ bases, ∀ j ∈ line s b, j < n) {p : ℕ → α} {q : ℕ → β}
    (h : ∀ j < n, R (p j) (q j)) : ∀ j < n, R (pass f s bases p j) (pass g s bases q j) := by
  induction bases generalizing p q with
  | nil => exact h
  | cons b bases ih =>
    refine ih (fun b' hb' => hn b' (List.mem_cons_of_mem b hb')) fun j hj => ?_
    have hload : ∀ i < 4, R ((load p s b).get i) ((load q s b).get i) := by
      intro i hi
      rw [load_get _ _ _ hi, load_get _ _ _ hi]
      exact h _ (hn b List.mem_cons_self _ (mem_line.mpr ⟨i, hi, rfl⟩))
    have hline := hfg _ _ hload
    simp only [onLine, store, Function.update_apply]
    split_ifs
    · exact hline 0 (by decide)
    · exact hline 1 (by decide)
    · exact hline 2 (by decide)
    · exact hline 3 (by decide)
    · exact h j hj

theorem passes_rel
    (hfg : ∀ u v, (∀ i < 4, R (u.get i) (v.get i)) → ∀ i < 4, R ((f u).get i) ((g v).get i))
    {n : ℕ} {l : List (List ℕ × ℕ)} (hl : ∀ q ∈ l, ∀ b ∈ q.1, ∀ j ∈ line q.2 b, j < n)
    {p : ℕ → α} {q : ℕ → β} (h : ∀ j < n, R (p j) (q j)) :
    ∀ j < n, R (passes f l p j) (passes g l q j) := by
  induction l generalizing p q with
  | nil => exact h
  | cons r l ih =>
    exact ih (fun q hq => hl q (List.mem_cons_of_mem _ hq))
      (pass_rel hfg (hl r List.mem_cons_self) h)

end

section

variable {β : Type*} {P : α → Prop} {R : ℕ → α → β → Prop} {f : Vec4 α → Vec4 α}
  {g : Vec4 β → Vec4 β}

/-- A map of lines that undoes another up to a relation does so pass by pass; the relation may
change from one pass to the next. -/
theorem pass_undo {k : ℕ}
    (hfg : ∀ v u, (∀ i < 4, P (v.get i)) → (∀ i < 4, R k ((f v).get i) (u.get i)) →
      ∀ i < 4, R (k + 1) (v.get i) ((g u).get i))
    {s n : ℕ} {bases : List ℕ} (hs : 0 < s) (hd : Disjoint bases s)
    (hn : ∀ j, j ∈ bases.flatMap (line s) ↔ j < n) {p : ℕ → α} {u : ℕ → β} (hp : ∀ j < n, P (p j))
    (h : ∀ j < n, R k (pass f s bases p j) (u j)) :
    ∀ j < n, R (k + 1) (p j) (pass g s bases u j) := by
  intro j hj
  obtain ⟨b, hb, hline⟩ := List.mem_flatMap.mp ((hn j).mpr hj)
  obtain ⟨i, hi, rfl⟩ := mem_line.mp hline
  have hmem : ∀ i < 4, b + i * s < n := fun i hi =>
    (hn _).mp (List.mem_flatMap.mpr ⟨b, hb, mem_line.mpr ⟨i, hi, rfl⟩⟩)
  have hbefore : ∀ i < 4, P ((load p s b).get i) := by
    intro i hi
    rw [load_get _ _ _ hi]
    exact hp _ (hmem i hi)
  have hload : ∀ i < 4, R k ((f (load p s b)).get i) ((load u s b).get i) := by
    intro i hi
    rw [← load_pass f hs hd p hb, load_get _ _ _ hi, load_get _ _ _ hi]
    exact h _ (hmem i hi)
  have hundo := hfg _ _ hbefore hload i hi
  rwa [← load_pass g hs hd u hb, load_get _ _ _ hi, load_get _ _ _ hi] at hundo

theorem passes_undo (hf : ∀ v, (∀ i < 4, P (v.get i)) → ∀ i < 4, P ((f v).get i))
    (hfg : ∀ k v u, (∀ i < 4, P (v.get i)) → (∀ i < 4, R k ((f v).get i) (u.get i)) →
      ∀ i < 4, R (k + 1) (v.get i) ((g u).get i))
    {n : ℕ} {l : List (List ℕ × ℕ)}
    (hl : ∀ q ∈ l, 0 < q.2 ∧ Disjoint q.1 q.2 ∧ ∀ j, j ∈ q.1.flatMap (line q.2) ↔ j < n)
    {k : ℕ} {p : ℕ → α} {u : ℕ → β} (hp : ∀ j < n, P (p j))
    (h : ∀ j < n, R k (passes f l p j) (u j)) :
    ∀ j < n, R (k + l.length) (p j) (passes g l.reverse u j) := by
  induction l generalizing p with
  | nil => exact h
  | cons q l ih =>
    obtain ⟨hs, hd, hn⟩ := hl q List.mem_cons_self
    have hlast : passes g (q :: l).reverse u = pass g q.2 q.1 (passes g l.reverse u) := by
      rw [List.reverse_cons, passes, List.foldl_append]
      rfl
    have hlines : ∀ b ∈ q.1, ∀ j ∈ line q.2 b, j < n := fun b hb j hj =>
      (hn j).mp (List.mem_flatMap.mpr ⟨b, hb, hj⟩)
    have hnext : ∀ j < n, P (pass f q.2 q.1 p j) :=
      pass_rel (R := fun x (_ : α) => P x) (g := id) (fun v _ hv => hf v hv) hlines (q := p) hp
    have hrest := ih (p := pass f q.2 q.1 p) (fun q hq => hl q (List.mem_cons_of_mem _ hq)) hnext h
    rw [hlast]
    exact pass_undo (hfg _) hs hd hn hp hrest

end

end Lines

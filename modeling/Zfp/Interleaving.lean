import Mathlib.Algebra.BigOperators.Group.List.Basic
import Mathlib.Data.List.Perm.Basic
import Mathlib.Logic.Function.Basic

/-!
# Interleavings of threads

A thread is the list of the instructions that it still has to execute. In each step some thread
executes its next instruction, until nothing is left. Threads with states of their own reach them in
every order, and instructions that commute have the same effect; additions to words do.
-/

namespace Interleaving

variable {α σ ι M : Type*}

/-- A complete schedule of the threads: the instructions in the order of their execution. -/
inductive Schedule : List (List α) → List α → Prop
  | done {ps : List (List α)} (h : ∀ p ∈ ps, p = []) : Schedule ps []
  | step {ps : List (List α)} {i : ℕ} {a : α} {rest l : List α} (h : ps[i]? = some (a :: rest))
      (tail : Schedule (ps.set i rest) l) : Schedule ps (a :: l)

theorem flatten_set_perm {ps : List (List α)} {i : ℕ} {a : α} {rest : List α}
    (h : ps[i]? = some (a :: rest)) : (a :: (ps.set i rest).flatten).Perm ps.flatten := by
  induction ps generalizing i with
  | nil => cases h
  | cons p ps ih =>
    cases i with
    | zero =>
      obtain rfl : p = a :: rest := Option.some.inj h
      exact List.Perm.refl _
    | succ i =>
      have htail := (ih (i := i) h).append_left p
      exact List.perm_middle.symm.trans htail

theorem Schedule.perm {ps : List (List α)} {l : List α} (h : Schedule ps l) :
    l.Perm ps.flatten := by
  induction h with
  | done h => rw [List.flatten_eq_nil_iff.mpr h]
  | step h _ ih => exact (ih.cons _).trans (flatten_set_perm h)

theorem Schedule.nil_cons {ps : List (List α)} {l : List α} (h : Schedule ps l) :
    Schedule ([] :: ps) l := by
  induction h with
  | done h => exact .done (List.forall_mem_cons.mpr ⟨rfl, h⟩)
  | @step ps i a rest l h _ ih => exact .step (i := i + 1) h ih

/-- The threads one after the other. -/
theorem schedule_flatten (ps : List (List α)) : Schedule ps ps.flatten := by
  induction ps with
  | nil => exact .done fun p hp => nomatch hp
  | cons p ps ih =>
    rw [List.flatten_cons]
    induction p with
    | nil => exact ih.nil_cons
    | cons a p ihp => exact .step (i := 0) rfl ihp

/-- One thread executes several instructions in a row. -/
theorem Schedule.prepend {ps : List (List α)} {i : ℕ} {p rest l : List α}
    (h : ps[i]? = some (p ++ rest)) (tail : Schedule (ps.set i rest) l) :
    Schedule ps (p ++ l) := by
  induction p generalizing ps with
  | nil =>
    obtain ⟨hi, hget⟩ := List.getElem?_eq_some_iff.mp h
    rwa [← List.nil_append rest, ← hget, List.set_getElem_self] at tail
  | cons a p ih =>
    have hi := (List.getElem?_eq_some_iff.mp h).1
    refine .step h (ih (List.getElem?_set_self hi) ?_)
    rwa [List.set_set]

/-- The instructions of one thread, in its own order. -/
theorem Schedule.filter_owner {owner : α → ℕ} {ps : List (List α)} {l : List α}
    (h : Schedule ps l) (howner : ∀ i p, ps[i]? = some p → ∀ a ∈ p, owner a = i) (t : ℕ) :
    l.filter (owner · = t) = ps.getD t [] := by
  induction h with
  | @done ps h =>
    rw [List.filter_nil, List.getD_eq_getElem?_getD]
    cases ht : ps[t]? with
    | none => rfl
    | some p => exact (h p (List.mem_of_getElem? ht)).symm
  | @step ps i a rest l h tail ih =>
    have hi := (List.getElem?_eq_some_iff.mp h).1
    have hset : ∀ j p, (ps.set i rest)[j]? = some p → ∀ b ∈ p, owner b = j := by
      intro j p hp b hb
      rw [List.getElem?_set] at hp
      split at hp
      · next hij =>
        subst hij
        cases hp
        exact howner i _ h b (List.mem_cons_of_mem a hb)
      · exact howner j p hp b hb
    have ha := howner i _ h a List.mem_cons_self
    rw [List.filter_cons, ih hset, List.getD_eq_getElem?_getD, List.getD_eq_getElem?_getD,
      List.getElem?_set, if_pos hi, ha]
    by_cases hit : i = t
    · subst hit
      rw [if_pos (decide_eq_true rfl), if_pos rfl, h]
      rfl
    · rw [if_neg (by simpa using hit), if_neg hit]

/-! ## States of their own -/

section

variable [DecidableEq ι] [AddCommMonoid M]

def addWord (mem : ι → M) (a : ι × M) : ι → M := Function.update mem a.1 (mem a.1 + a.2)

/-- What a list of additions adds to a word. -/
def total (l : List (ι × M)) (i : ι) : M := (l.map fun a => if a.1 = i then a.2 else 0).sum

@[simp] theorem total_nil (i : ι) : total ([] : List (ι × M)) i = 0 := rfl

@[simp] theorem total_cons (a : ι × M) (l : List (ι × M)) (i : ι) :
    total (a :: l) i = (if a.1 = i then a.2 else 0) + total l i := List.sum_cons

theorem total_append (l l' : List (ι × M)) (i : ι) :
    total (l ++ l') i = total l i + total l' i := by
  rw [total, List.map_append, List.sum_append]
  rfl

theorem total_flatten (ps : List (List (ι × M))) (i : ι) :
    total ps.flatten i = (ps.map (total · i)).sum := by
  induction ps with
  | nil => rfl
  | cons p ps ih => rw [List.flatten_cons, total_append, ih, List.map_cons, List.sum_cons]

theorem total_perm {l l' : List (ι × M)} (h : l.Perm l') (i : ι) : total l i = total l' i :=
  (h.map _).sum_eq

theorem foldl_addWord (mem : ι → M) (l : List (ι × M)) (i : ι) :
    l.foldl addWord mem i = mem i + total l i := by
  induction l generalizing mem with
  | nil => rw [List.foldl_nil, total_nil, add_zero]
  | cons a l ih =>
    rw [List.foldl_cons, ih, total_cons, addWord, ← add_assoc]
    congr 1
    by_cases h : a.1 = i
    · subst h
      rw [Function.update_self, if_pos rfl]
    · rw [Function.update_of_ne (Ne.symm h), if_neg h, add_zero]

/-- The memory after a schedule of additions. -/
theorem Schedule.foldl_addWord {ps : List (List (ι × M))} {l : List (ι × M)} (h : Schedule ps l)
    (mem : ι → M) (i : ι) : l.foldl addWord mem i = mem i + (ps.map (total · i)).sum := by
  rw [Interleaving.foldl_addWord, total_perm h.perm, total_flatten]

end

/-! ## Bits set in words -/

section

variable [DecidableEq ι] {w : ℕ}

def orWord (mem : ι → BitVec w) (a : ι × BitVec w) : ι → BitVec w :=
  Function.update mem a.1 (mem a.1 ||| a.2)

/-- The bits that a list of writes sets in a word. -/
def union : List (ι × BitVec w) → ι → BitVec w
  | [], _ => 0
  | a :: l, i => (if a.1 = i then a.2 else 0) ||| union l i

@[simp] theorem union_nil (i : ι) : union ([] : List (ι × BitVec w)) i = 0 := rfl

@[simp] theorem union_cons (a : ι × BitVec w) (l : List (ι × BitVec w)) (i : ι) :
    union (a :: l) i = (if a.1 = i then a.2 else 0) ||| union l i := rfl

theorem union_append (l l' : List (ι × BitVec w)) (i : ι) :
    union (l ++ l') i = union l i ||| union l' i := by
  induction l with
  | nil => simp
  | cons a l ih => rw [List.cons_append, union_cons, ih, union_cons, BitVec.or_assoc]

/-- Only words that are written have bits. -/
theorem union_of_not_mem {l : List (ι × BitVec w)} {i : ι} (h : i ∉ l.map Prod.fst) :
    union l i = 0 := by
  induction l with
  | nil => rfl
  | cons a l ih =>
    rw [List.map_cons, List.mem_cons, not_or] at h
    rw [union_cons, ih h.2, if_neg (Ne.symm h.1), BitVec.or_self]

theorem foldl_orWord (mem : ι → BitVec w) (l : List (ι × BitVec w)) (i : ι) :
    l.foldl orWord mem i = mem i ||| union l i := by
  induction l generalizing mem with
  | nil => simp
  | cons a l ih =>
    rw [List.foldl_cons, ih, union_cons, ← BitVec.or_assoc]
    congr 1
    by_cases h : a.1 = i
    · subst h
      rw [orWord, Function.update_self, if_pos rfl]
    · rw [orWord, Function.update_of_ne (Ne.symm h), if_neg h, BitVec.ofNat_eq_ofNat, BitVec.or_zero]

end

/-! ## Loads and stores

A thread that sets bits in a word without an atomic instruction loads the word into its register and
stores it with the bits.
-/

section

variable [DecidableEq ι] {w : ℕ}

inductive Instr (ι : Type*) (w : ℕ)
  | load (t : ℕ) (i : ι)
  | store (t : ℕ) (i : ι) (v : BitVec w)
  | fetchOr (t : ℕ) (i : ι) (v : BitVec w)

namespace Instr

def thread : Instr ι w → ℕ
  | load t _ | store t _ _ | fetchOr t _ _ => t

def word : Instr ι w → ι
  | load _ i | store _ i _ | fetchOr _ i _ => i

end Instr

/-- A memory, and a register for each thread. -/
structure Machine (ι : Type*) (w : ℕ) where
  mem : ι → BitVec w
  reg : ℕ → BitVec w

def exec (s : Machine ι w) : Instr ι w → Machine ι w
  | .load t i => { s with reg := Function.update s.reg t (s.mem i) }
  | .store t i v => { s with mem := Function.update s.mem i (s.reg t ||| v) }
  | .fetchOr _ i v => { s with mem := orWord s.mem (i, v) }

def loadStore (t : ℕ) (a : ι × BitVec w) : List (Instr ι w) := [.load t a.1, .store t a.1 a.2]

/-- A thread that is not interrupted sets its bits. -/
theorem foldl_loadStore (s : Machine ι w) (t : ℕ) (l : List (ι × BitVec w)) :
    ((l.flatMap (loadStore t)).foldl exec s).mem = l.foldl orWord s.mem := by
  induction l generalizing s with
  | nil => rfl
  | cons a l ih =>
    rw [List.flatMap_cons, List.foldl_append, ih, List.foldl_cons]
    congr 1
    simp only [loadStore, List.foldl_cons, List.foldl_nil, exec, Function.update_self, orWord]

/-- Only its own instructions change the register of a thread. -/
theorem foldl_exec_reg {t : ℕ} {l : List (Instr ι w)} (h : ∀ a ∈ l, a.thread ≠ t)
    (s : Machine ι w) : (l.foldl exec s).reg t = s.reg t := by
  induction l generalizing s with
  | nil => rfl
  | cons a l ih =>
    rw [List.foldl_cons, ih fun b hb => h b (List.mem_cons_of_mem a hb)]
    have ha := h a List.mem_cons_self
    cases a with
    | load t' i => exact Function.update_of_ne ha.symm _ _
    | store t' i v => rfl
    | fetchOr t' i v => rfl

/-- A word that no instruction names keeps its contents. -/
theorem foldl_exec_mem {i : ι} {l : List (Instr ι w)} (h : ∀ a ∈ l, a.word ≠ i)
    (s : Machine ι w) : (l.foldl exec s).mem i = s.mem i := by
  induction l generalizing s with
  | nil => rfl
  | cons a l ih =>
    rw [List.foldl_cons, ih fun b hb => h b (List.mem_cons_of_mem a hb)]
    have ha := h a List.mem_cons_self
    cases a with
    | load t i' => rfl
    | store t i' v => exact Function.update_of_ne ha.symm _ _
    | fetchOr t i' v => exact Function.update_of_ne ha.symm _ _

/-- Two states that one thread with its own words cannot tell apart. -/
def Agree (t : ℕ) (own : ι → Prop) (s s' : Machine ι w) : Prop :=
  s.reg t = s'.reg t ∧ ∀ i, own i → s.mem i = s'.mem i

theorem Agree.own {t : ℕ} {own : ι → Prop} {s s' : Machine ι w} (h : Agree t own s s')
    {a : Instr ι w} (ht : a.thread = t) (ha : own a.word) :
    Agree t own (exec s a) (exec s' a) := by
  subst ht
  have hupdate : ∀ v v' : BitVec w, v = v' → ∀ i, own i →
      Function.update s.mem a.word v i = Function.update s'.mem a.word v' i := fun v v' hv i hi => by
    rw [Function.update_apply, Function.update_apply, hv, h.2 i hi]
  cases a with
  | load t i =>
    refine ⟨?_, h.2⟩
    change Function.update s.reg t (s.mem i) t = Function.update s'.reg t (s'.mem i) t
    rw [Function.update_self, Function.update_self, h.2 i ha]
  | store t i v => exact ⟨h.1, hupdate _ _ (congrArg (· ||| v) h.1)⟩
  | fetchOr t i v => exact ⟨h.1, hupdate _ _ (congrArg (· ||| v) (h.2 i ha))⟩

theorem Agree.other {t : ℕ} {own : ι → Prop} {s s' : Machine ι w} (h : Agree t own s s')
    {a : Instr ι w} (ht : a.thread ≠ t) (ha : ¬ own a.word) : Agree t own (exec s a) s' := by
  have hmem : ∀ (v : BitVec w) i, own i → Function.update s.mem a.word v i = s'.mem i :=
    fun v i hi => by
      have hne : i ≠ a.word := by
        rintro rfl
        exact ha hi
      rw [Function.update_of_ne hne, h.2 i hi]
  cases a with
  | load t' i => exact ⟨(Function.update_of_ne ht.symm _ _).trans h.1, h.2⟩
  | store t' i v => exact ⟨h.1, hmem _⟩
  | fetchOr t' i v => exact ⟨h.1, hmem _⟩

/-- The words that only one thread names hold what that thread alone leaves in them. -/
theorem Agree.foldl {t : ℕ} {own : ι → Prop} {l : List (Instr ι w)}
    (hin : ∀ a ∈ l, a.thread = t → own a.word) (hout : ∀ a ∈ l, a.thread ≠ t → ¬ own a.word)
    {s s' : Machine ι w} (h : Agree t own s s') :
    Agree t own (l.foldl exec s)
      ((l.filter (Instr.thread · = t)).foldl exec s') := by
  induction l generalizing s s' with
  | nil => exact h
  | cons a l ih =>
    have hin' := fun b hb => hin b (List.mem_cons_of_mem a hb)
    have hout' := fun b hb => hout b (List.mem_cons_of_mem a hb)
    rw [List.foldl_cons, List.filter_cons]
    by_cases ht : a.thread = t
    · rw [if_pos (decide_eq_true ht), List.foldl_cons]
      exact ih hin' hout' (h.own ht (hin a List.mem_cons_self ht))
    · rw [if_neg (by simpa using ht)]
      exact ih hin' hout' (h.other ht (hout a List.mem_cons_self ht))

end

end Interleaving

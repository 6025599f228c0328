import Mathlib.Algebra.BigOperators.Group.Finset.Basic
import Mathlib.Data.Fintype.Basic
import Mathlib.Logic.Function.Basic
import Mathlib.Logic.Relation

/-!
# Threads that share a memory

A thread is a tree: it returns, or it loads or stores a word and goes on. Threads that access
disjoint parts of the memory do not notice each other. In every interleaving each of them makes
the accesses that it makes alone, returns what it returns alone and leaves its part of the memory
as it does alone.
-/

namespace SharedMemory

/-- What a thread still does. -/
inductive Thread (ι V α : Type*)
  | done (a : α)
  | load (i : ι) (next : V → Thread ι V α)
  | store (i : ι) (v : V) (next : Thread ι V α)

variable {ι V α β τ : Type*}

namespace Thread

def bind : Thread ι V α → (α → Thread ι V β) → Thread ι V β
  | done a, f => f a
  | load i next, f => load i fun v => (next v).bind f
  | store i v next, f => store i v (next.bind f)

variable [DecidableEq ι]

/-- What the thread returns when nothing interrupts it, and the memory after it. -/
def alone : Thread ι V α → (ι → V) → α × (ι → V)
  | done a, mem => (a, mem)
  | load i next, mem => (next (mem i)).alone mem
  | store i v next, mem => next.alone (Function.update mem i v)

def accesses : Thread ι V α → (ι → V) → ℕ
  | done _, _ => 0
  | load i next, mem => (next (mem i)).accesses mem + 1
  | store i v next, mem => next.accesses (Function.update mem i v) + 1

@[simp] theorem alone_done (a : α) (mem : ι → V) : (done a).alone mem = (a, mem) := rfl

theorem alone_bind (th : Thread ι V α) (f : α → Thread ι V β) (mem : ι → V) :
    (th.bind f).alone mem = (f (th.alone mem).1).alone (th.alone mem).2 := by
  induction th generalizing mem with
  | done a => rfl
  | load i next ih => exact ih (mem i) mem
  | store i v next ih => exact ih _

/-- Every access that the thread makes alone is to its own part of the memory. -/
def Within (own : ι → Prop) : Thread ι V α → (ι → V) → Prop
  | done _, _ => True
  | load i next, mem => own i ∧ (next (mem i)).Within own mem
  | store i v next, mem => own i ∧ next.Within own (Function.update mem i v)

/-- Besides, what it returns has the property. -/
def Ensures (own : ι → Prop) (P : α → Prop) (th : Thread ι V α) (mem : ι → V) : Prop :=
  th.Within own mem ∧ P (th.alone mem).1

theorem Within.mono {own own' : ι → Prop} (hown : ∀ i, own i → own' i) {th : Thread ι V α}
    {mem : ι → V} (h : th.Within own mem) : th.Within own' mem := by
  induction th generalizing mem with
  | done a => trivial
  | load i next ih => exact ⟨hown i h.1, ih (mem i) h.2⟩
  | store i v next ih => exact ⟨hown i h.1, ih h.2⟩

theorem Within.bind {own : ι → Prop} {th : Thread ι V α} {f : α → Thread ι V β} {mem : ι → V}
    (h : th.Within own mem) (hf : (f (th.alone mem).1).Within own (th.alone mem).2) :
    (th.bind f).Within own mem := by
  induction th generalizing mem with
  | done a => exact hf
  | load i next ih => exact ⟨h.1, ih (mem i) h.2 hf⟩
  | store i v next ih => exact ⟨h.1, ih h.2 hf⟩

theorem Within.ensures {own : ι → Prop} {th : Thread ι V α} {mem : ι → V}
    (h : th.Within own mem) : th.Ensures own (fun _ => True) mem := ⟨h, trivial⟩

theorem Ensures.bind {own : ι → Prop} {P : α → Prop} {Q : β → Prop} {th : Thread ι V α}
    {f : α → Thread ι V β} {mem : ι → V} (h : th.Ensures own P mem)
    (hf : ∀ a mem, P a → (f a).Ensures own Q mem) : (th.bind f).Ensures own Q mem := by
  obtain ⟨hwithin, hresult⟩ := hf _ (th.alone mem).2 h.2
  exact ⟨h.1.bind hwithin, by rwa [alone_bind]⟩

/-- The thread sees its own part of the memory only. -/
theorem Within.alone_congr {own : ι → Prop} {th : Thread ι V α} {mem mem' : ι → V}
    (h : th.Within own mem) (hmem : ∀ i, own i → mem i = mem' i) :
    th.Within own mem' ∧ (th.alone mem).1 = (th.alone mem').1 ∧
      th.accesses mem = th.accesses mem' ∧
      ∀ i, own i → (th.alone mem).2 i = (th.alone mem').2 i := by
  induction th generalizing mem mem' with
  | done a => exact ⟨trivial, rfl, rfl, hmem⟩
  | load j next ih =>
    have hnext := h.2
    rw [hmem j h.1] at hnext
    rw [alone, alone, accesses, accesses, hmem j h.1]
    obtain ⟨hwithin, hresult, hcount, hpart⟩ := ih (mem' j) hnext hmem
    exact ⟨⟨h.1, hwithin⟩, hresult, congrArg (· + 1) hcount, hpart⟩
  | store j v next ih =>
    have hupdate : ∀ i, own i → Function.update mem j v i = Function.update mem' j v i := by
      intro i hi
      rw [Function.update_apply, Function.update_apply, hmem i hi]
    obtain ⟨hwithin, hresult, hcount, hpart⟩ := ih h.2 hupdate
    exact ⟨⟨h.1, hwithin⟩, hresult, congrArg (· + 1) hcount, hpart⟩

end Thread

/-! ## Systems of threads -/

structure System (ι V τ α : Type*) where
  thread : τ → Thread ι V α
  mem : ι → V

variable [DecidableEq ι]

/-- Each thread accesses a part of the memory of its own. -/
structure Separated (own : τ → ι → Prop) (s : System ι V τ α) : Prop where
  within : ∀ t, (s.thread t).Within (own t) s.mem
  disjoint : ∀ t t' i, own t i → own t' i → t = t'

/-- The threads of `s` go on as the ones of `s₀` would alone. -/
structure AsAlone (own : τ → ι → Prop) (s₀ s : System ι V τ α) : Prop where
  separated : Separated own s
  result : ∀ t, ((s.thread t).alone s.mem).1 = ((s₀.thread t).alone s₀.mem).1
  part : ∀ t i, own t i → ((s.thread t).alone s.mem).2 i = ((s₀.thread t).alone s₀.mem).2 i
  rest : ∀ i, (∀ t, ¬ own t i) → s.mem i = s₀.mem i

theorem Separated.asAlone {own : τ → ι → Prop} {s : System ι V τ α} (h : Separated own s) :
    AsAlone own s s := ⟨h, fun _ => rfl, fun _ _ _ => rfl, fun _ _ => rfl⟩

/-- A thread that is done has returned what it returns alone. -/
theorem AsAlone.done {own : τ → ι → Prop} {s₀ s : System ι V τ α} (h : AsAlone own s₀ s)
    {t : τ} {a : α} (ht : s.thread t = .done a) : a = ((s₀.thread t).alone s₀.mem).1 := by
  rw [← h.result t, ht, Thread.alone_done]

/-- The part of a thread that is done is as the thread leaves it alone. -/
theorem AsAlone.mem_done {own : τ → ι → Prop} {s₀ s : System ι V τ α} (h : AsAlone own s₀ s)
    {t : τ} {a : α} (ht : s.thread t = .done a) {i : ι} (hi : own t i) :
    s.mem i = ((s₀.thread t).alone s₀.mem).2 i := by
  rw [← h.part t i hi, ht, Thread.alone_done]

variable [DecidableEq τ]

/-- One of the threads makes its next access. -/
inductive Step : System ι V τ α → System ι V τ α → Prop
  | load {s : System ι V τ α} {t : τ} {i : ι} {next : V → Thread ι V α}
      (h : s.thread t = .load i next) :
      Step s ⟨Function.update s.thread t (next (s.mem i)), s.mem⟩
  | store {s : System ι V τ α} {t : τ} {i : ι} {v : V} {next : Thread ι V α}
      (h : s.thread t = .store i v next) :
      Step s ⟨Function.update s.thread t next, Function.update s.mem i v⟩

/-- A system stops only when every thread is done. -/
theorem done_or_step (s : System ι V τ α) :
    (∀ t, ∃ a, s.thread t = .done a) ∨ ∃ s', Step s s' := by
  by_cases h : ∀ t, ∃ a, s.thread t = .done a
  · exact Or.inl h
  · right
    push Not at h
    obtain ⟨t, ht⟩ := h
    cases hth : s.thread t with
    | done a => exact absurd hth (ht a)
    | load i next => exact ⟨_, .load hth⟩
    | store i v next => exact ⟨_, .store hth⟩

/-- A step: one thread has one access less, its further course is the same, and the other parts
of the memory are unchanged. -/
theorem Step.cases {own : τ → ι → Prop} {s s' : System ι V τ α} (h : Step s s')
    (hwithin : ∀ t, (s.thread t).Within (own t) s.mem) :
    ∃ t th mem, s' = ⟨Function.update s.thread t th, mem⟩ ∧ th.Within (own t) mem ∧
      th.alone mem = (s.thread t).alone s.mem ∧
      th.accesses mem + 1 = (s.thread t).accesses s.mem ∧
      ∀ i, ¬ own t i → mem i = s.mem i := by
  cases h with
  | @load t i next h =>
    have hin := hwithin t
    rw [h] at hin
    exact ⟨t, _, _, rfl, hin.2, by rw [h, Thread.alone], by rw [h, Thread.accesses],
      fun _ _ => rfl⟩
  | @store t i v next h =>
    have hin := hwithin t
    rw [h] at hin
    refine ⟨t, _, _, rfl, hin.2, by rw [h, Thread.alone], by rw [h, Thread.accesses], ?_⟩
    intro j hj
    have hne : j ≠ i := by
      rintro rfl
      exact hj hin.1
    exact Function.update_of_ne hne _ _

/-- One step of any thread. -/
theorem AsAlone.step {own : τ → ι → Prop} {s₀ s s' : System ι V τ α} (h : AsAlone own s₀ s)
    (hstep : Step s s') : AsAlone own s₀ s' := by
  obtain ⟨t, th, mem, rfl, hth, halone, -, hframe⟩ := hstep.cases h.separated.within
  -- another thread sees no difference
  have hother : ∀ t', t' ≠ t → ∀ i, own t' i → mem i = s.mem i := by
    intro t' hne i hi
    refine hframe i fun hti => hne ?_
    exact h.separated.disjoint t' t i hi hti
  refine ⟨⟨?_, h.separated.disjoint⟩, ?_, ?_, ?_⟩
  · intro t'
    dsimp only
    by_cases ht : t' = t
    · subst ht
      rwa [Function.update_self]
    · rw [Function.update_of_ne ht]
      exact ((h.separated.within t').alone_congr fun i hi => (hother t' ht i hi).symm).1
  · intro t'
    dsimp only
    by_cases ht : t' = t
    · subst ht
      rw [Function.update_self, halone]
      exact h.result t'
    · rw [Function.update_of_ne ht, ← h.result t']
      exact ((h.separated.within t').alone_congr fun i hi => (hother t' ht i hi).symm).2.1.symm
  · intro t' i hi
    dsimp only
    by_cases ht : t' = t
    · subst ht
      rw [Function.update_self, halone]
      exact h.part t' i hi
    · rw [Function.update_of_ne ht, ← h.part t' i hi]
      exact (((h.separated.within t').alone_congr
        fun i hi => (hother t' ht i hi).symm).2.2.2 i hi).symm
  · intro i hi
    rw [← h.rest i hi]
    exact hframe i (hi t)

/-- Every interleaving. -/
theorem AsAlone.steps {own : τ → ι → Prop} {s₀ s : System ι V τ α} (h : Separated own s₀)
    (hsteps : Relation.ReflTransGen Step s₀ s) : AsAlone own s₀ s := by
  induction hsteps with
  | refl => exact h.asAlone
  | tail _ hstep ih => exact ih.step hstep

/-! ## The number of steps -/

variable [Fintype τ]

/-- The accesses that the threads would still make alone. -/
def remaining (s : System ι V τ α) : ℕ := ∑ t, (s.thread t).accesses s.mem

theorem Separated.remaining_step {own : τ → ι → Prop} {s s' : System ι V τ α}
    (h : Separated own s) (hstep : Step s s') : remaining s' + 1 = remaining s := by
  obtain ⟨t, th, mem, rfl, -, -, hcount, hframe⟩ := hstep.cases h.within
  rw [remaining, remaining, ← Finset.add_sum_erase _ _ (Finset.mem_univ t),
    ← Finset.add_sum_erase _ _ (Finset.mem_univ t)]
  dsimp only
  rw [Function.update_self]
  have hrest : ∑ t' ∈ Finset.univ.erase t, (Function.update s.thread t th t').accesses mem =
      ∑ t' ∈ Finset.univ.erase t, (s.thread t').accesses s.mem := by
    apply Finset.sum_congr rfl
    intro t' ht'
    have hne : t' ≠ t := Finset.ne_of_mem_erase ht'
    rw [Function.update_of_ne hne]
    refine ((h.within t').alone_congr fun i hi => (hframe i fun hti => hne ?_).symm).2.2.1.symm
    exact h.disjoint t' t i hi hti
  rw [hrest]
  omega

/-- No interleaving goes on forever. -/
theorem Separated.terminates {own : τ → ι → Prop} {s : System ι V τ α} (h : Separated own s) :
    Acc (fun s' s => Step s s') s := by
  induction hn : remaining s generalizing s with
  | zero =>
    refine ⟨_, fun s' hstep => ?_⟩
    have := h.remaining_step hstep
    omega
  | succ n ih =>
    refine ⟨_, fun s' hstep => ih (h.asAlone.step hstep).separated ?_⟩
    have := h.remaining_step hstep
    omega

end SharedMemory

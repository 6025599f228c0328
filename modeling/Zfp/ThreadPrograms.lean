import Zfp.SharedMemory

/-!
# Programs on registers and a shared memory

A program calls operations on a state and goes on with what they return. Where the state is made
of registers and a shared memory, and each operation is done by a thread, the program is done by
a thread as well. Alone it computes what the program computes, and it accesses the part of the
memory that its registers move over.
-/

namespace SharedMemory

/-- A program that calls operations. -/
inductive Program (Op : Type → Type) (α : Type) : Type 1
  | done (a : α)
  | call {β : Type} (op : Op β) (next : β → Program Op α)

variable {Op : Type → Type} {σ R ι V : Type*} {α β : Type}

namespace Program

def bind : Program Op α → (α → Program Op β) → Program Op β
  | done a, f => f a
  | call op next, f => call op fun b => (next b).bind f

section

variable (step : ∀ β, Op β → σ → β × σ)

/-- What the program returns, and the state after it. -/
def run : Program Op α → σ → α × σ
  | done a, s => (a, s)
  | call op next, s => (next (step _ op s).1).run (step _ op s).2

@[simp] theorem run_done (a : α) (s : σ) : (done a : Program Op α).run step s = (a, s) := rfl

@[simp] theorem run_call (op : Op β) (next : β → Program Op α) (s : σ) :
    (call op next).run step s = (next (step _ op s).1).run step (step _ op s).2 := rfl

@[simp] theorem run_bind (p : Program Op α) (f : α → Program Op β) (s : σ) :
    (p.bind f).run step s = (f (p.run step s).1).run step (p.run step s).2 := by
  induction p generalizing s with
  | done a => rfl
  | call op next ih => exact ih _ _

/-- A program computes the function. -/
def Realizes (f : σ → α × σ) : Prop := ∃ p : Program Op α, ∀ s, p.run step s = f s

end

/-- The thread of the program, from the threads of the operations. -/
def thread (impl : ∀ β, Op β → R → Thread ι V (β × R)) : Program Op α → R → Thread ι V (α × R)
  | done a, r => .done (a, r)
  | call op next, r => (impl _ op r).bind fun q => (next q.1).thread impl q.2

end Program

/-! ## What a thread does to a state of registers and memory -/

section

variable [DecidableEq ι] (state : R → (ι → V) → σ)

/-- Alone, the thread returns the value and leaves the state. -/
def Thread.Does (th : Thread ι V (α × R)) (mem : ι → V) (q : α × σ) : Prop :=
  (th.alone mem).1.1 = q.1 ∧ state (th.alone mem).1.2 (th.alone mem).2 = q.2

variable {state}

theorem Thread.Does.bind {th : Thread ι V (α × R)} {f : α × R → Thread ι V (β × R)} {mem : ι → V}
    {q : α × σ} {g : α → σ → β × σ} (h : th.Does state mem q)
    (hf : ∀ a r mem, (f (a, r)).Does state mem (g a (state r mem))) :
    (th.bind f).Does state mem (g q.1 q.2) := by
  rw [Thread.Does, Thread.alone_bind, ← h.1, ← h.2]
  exact hf _ _ _

theorem Program.does_thread {step : ∀ β, Op β → σ → β × σ}
    {impl : ∀ β, Op β → R → Thread ι V (β × R)}
    (himpl : ∀ β (op : Op β) r mem, (impl β op r).Does state mem (step β op (state r mem)))
    (p : Program Op α) (r : R) (mem : ι → V) :
    (p.thread impl r).Does state mem (p.run step (state r mem)) := by
  induction p generalizing r mem with
  | done a => exact ⟨rfl, rfl⟩
  | call op next ih =>
    exact (himpl _ op r mem).bind (g := fun b s => (next b).run step s) fun b r mem => ih b r mem

end

/-! ## What a thread accesses -/

/-- The thread moves its registers forward and accesses what it moves over: from `lo` of the
registers before to `hi` of the registers after. -/
structure Thread.Advances (lo hi : R → ℕ) (inv : R → Prop) (th : Thread ℕ V (α × R)) (r : R)
    (mem : ℕ → V) : Prop where
  inv : inv (th.alone mem).1.2
  lo_le : lo r ≤ lo (th.alone mem).1.2
  hi_le : hi r ≤ hi (th.alone mem).1.2
  within : th.Within (fun i => lo r ≤ i ∧ i < hi (th.alone mem).1.2) mem

variable {lo hi : R → ℕ} {inv : R → Prop}

theorem Thread.Advances.done (a : α) {r : R} (h : inv r) (mem : ℕ → V) :
    (Thread.done (a, r)).Advances lo hi inv r mem := ⟨h, le_rfl, le_rfl, trivial⟩

theorem Thread.Advances.bind {th : Thread ℕ V (α × R)} {f : α × R → Thread ℕ V (β × R)} {r : R}
    {mem : ℕ → V} (h : th.Advances lo hi inv r mem)
    (hf : ∀ a r mem, inv r → (f (a, r)).Advances lo hi inv r mem) :
    (th.bind f).Advances lo hi inv r mem := by
  have hnext := hf (th.alone mem).1.1 (th.alone mem).1.2 (th.alone mem).2 h.inv
  refine ⟨?_, ?_, ?_, ?_⟩
  · rw [Thread.alone_bind]
    exact hnext.inv
  · rw [Thread.alone_bind]
    exact h.lo_le.trans hnext.lo_le
  · rw [Thread.alone_bind]
    exact h.hi_le.trans hnext.hi_le
  · rw [Thread.alone_bind]
    apply Thread.Within.bind
    · exact h.within.mono fun i hi => ⟨hi.1, hi.2.trans_le hnext.hi_le⟩
    · exact hnext.within.mono fun i hi => ⟨h.lo_le.trans hi.1, hi.2⟩

theorem Program.advances_thread {impl : ∀ β, Op β → R → Thread ℕ V (β × R)}
    (himpl : ∀ β (op : Op β) r mem, inv r → (impl β op r).Advances lo hi inv r mem)
    (p : Program Op α) {r : R} (hr : inv r) (mem : ℕ → V) :
    (p.thread impl r).Advances lo hi inv r mem := by
  induction p generalizing r mem with
  | done a => exact .done a hr mem
  | call op next ih => exact (himpl _ op r mem hr).bind fun b r mem hr => ih b hr mem

end SharedMemory

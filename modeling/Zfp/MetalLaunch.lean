import Zfp.MetalEncode

/-!
# Threads of the Metal kernels

Each thread encodes one block. Where the size of a block is a multiple of 32 bits its writer loads
and stores whole 64-bit words, in any order with the loads and stores of the other threads.
-/

namespace Zfp.Metal
open BitLists Interleaving WordReader

/-- The mode that the encode kernels choose. -/
def atomicMode (maxbits : ℕ) : Bool := maxbits &&& 31 != 0

theorem atomicMode_eq_false {maxbits : ℕ} : atomicMode maxbits = false ↔ 32 ∣ maxbits := by
  have hmod : maxbits &&& 31 = maxbits % 32 := Nat.and_two_pow_sub_one_eq_mod maxbits 5
  rw [atomicMode, hmod, bne_eq_false_iff_eq, Nat.dvd_iff_mod_eq_zero]

/-! ## Threads -/

def Access.instrs (t : ℕ) (a : Access) : List (Instr ℕ 64) :=
  match a with
  | .word i v => loadStore t (i, v)
  | .atomic .. => [.fetchOr t a.setBits.1 a.setBits.2]

theorem mem_instrs {t : ℕ} {x : Access} {a : Instr ℕ 64} (h : a ∈ x.instrs t) :
    a.thread = t ∧ a.word = x.setBits.1 := by
  cases x with
  | word i v =>
    rw [Access.instrs, loadStore, List.mem_cons, List.mem_singleton] at h
    obtain rfl | rfl := h
    · exact ⟨rfl, rfl⟩
    · exact ⟨rfl, rfl⟩
  | atomic i v =>
    obtain rfl := List.mem_singleton.mp h
    exact ⟨rfl, rfl⟩

def threads (blocks : ℕ) (accesses : ℕ → List Access) : List (List (Instr ℕ 64)) :=
  (List.range blocks).map fun b => (accesses b).flatMap (Access.instrs b)

theorem getElem?_threads {blocks b : ℕ} (accesses : ℕ → List Access) (h : b < blocks) :
    (threads blocks accesses)[b]? = some ((accesses b).flatMap (Access.instrs b)) := by
  rw [threads, List.getElem?_map, List.getElem?_range h, Option.map_some]

theorem mem_threads {blocks b : ℕ} {accesses : ℕ → List Access} {p : List (Instr ℕ 64)}
    (h : (threads blocks accesses)[b]? = some p) :
    b < blocks ∧ p = (accesses b).flatMap (Access.instrs b) := by
  have hb := (List.getElem?_eq_some_iff.mp h).1
  rw [threads, List.length_map, List.length_range] at hb
  exact ⟨hb, (Option.some.inj ((getElem?_threads accesses hb).symm.trans h)).symm⟩

/-- Every instruction of a schedule is one of an access of its thread. -/
theorem mem_schedule {blocks : ℕ} {accesses : ℕ → List Access} {sched : List (Instr ℕ 64)}
    (h : Schedule (threads blocks accesses) sched) {a : Instr ℕ 64} (ha : a ∈ sched) :
    a.thread < blocks ∧ ∃ x ∈ accesses a.thread, a.word = x.setBits.1 := by
  obtain ⟨p, hp, hap⟩ := List.mem_flatten.mp (h.perm.mem_iff.mp ha)
  obtain ⟨b, hb⟩ := List.getElem?_of_mem hp
  obtain ⟨hblocks, rfl⟩ := mem_threads hb
  obtain ⟨x, hx, hax⟩ := List.mem_flatMap.mp hap
  obtain ⟨rfl, hword⟩ := mem_instrs hax
  exact ⟨hblocks, x, hx, hword⟩

def clearMachine : Machine ℕ 64 := ⟨fun _ => 0, fun _ => 0⟩

def streamAfter (sched : List (Instr ℕ 64)) : ℕ → BitVec 64 := (sched.foldl exec clearMachine).mem

theorem foldl_instrs (s : Machine ℕ 64) (t : ℕ) (accesses : List Access) :
    ((accesses.flatMap (Access.instrs t)).foldl exec s).mem =
      (accesses.map Access.setBits).foldl orWord s.mem := by
  induction accesses generalizing s with
  | nil => rfl
  | cons a l ih =>
    rw [List.flatMap_cons, List.foldl_append, ih, List.map_cons, List.foldl_cons]
    congr 1
    cases a with
    | word i v => exact (foldl_loadStore s t [(i, v)]).trans rfl
    | atomic i v => rfl

/-! ## Writers of blocks -/

/-- The bits of a block, and what its thread does to the stream: nothing at all, or what a writer
does that is flushed after the last bit. -/
def Writes (maxbits blockIdx : ℕ) (l : List Bool) (accesses : List Access) : Prop :=
  l = [] ∧ accesses = [] ∨
    ∃ s, Emits (zfpMakeWriter1 maxbits blockIdx (atomicMode maxbits)) l s ∧
      accesses = (zfpWriterFlush s).accesses

theorem zfpEncodeBlock_writes {S : Scalar} {d : ℕ} (ops : FloatOps S (4 ^ d))
    (block : ℕ → BitVec S.width) (hS : S ≠ .double) (hd : 1 ≤ d) (hd' : d ≤ 3)
    (maxbits blockIdx : ℕ) :
    Writes maxbits blockIdx (Cuda.blockCode ops maxbits block)
      (zfpEncodeBlock S d ops block maxbits blockIdx (atomicMode maxbits)).accesses := by
  obtain h | ⟨s, hs, hflush⟩ :=
    zfpEncodeBlock_emits ops block hS hd hd' maxbits blockIdx (atomicMode maxbits)
  · exact .inl h
  · exact .inr ⟨s, hs, congrArg ZfpBlockWriter1.accesses hflush⟩

/-- What the threads of a launch do to the stream, with the bits of the blocks. -/
structure Launch (maxbits blocks : ℕ) (l : ℕ → List Bool) (accesses : ℕ → List Access) : Prop where
  length : ∀ b < blocks, (l b).length ≤ maxbits
  writes : ∀ b < blocks, Writes maxbits b (l b) (accesses b)

section

variable {maxbits blockIdx : ℕ} {l : List Bool} {accesses : List Access}

/-- A writer touches the words of its bits only, with an index that is a `uint`. -/
theorem Writes.words (h : Writes maxbits blockIdx l accesses) (hmode : atomicMode maxbits = false) :
    ∀ x ∈ accesses, ∃ j, x.setBits.1 = j % 2 ^ 32 ∧ blockIdx * maxbits / 64 ≤ j ∧
      j < (blockIdx * maxbits + l.length + 63) / 64 := by
  obtain ⟨-, rfl⟩ | ⟨s, hs, rfl⟩ := h
  · exact fun x hx => nomatch hx
  · rw [hmode] at hs
    obtain ⟨t, ht, hwords, -⟩ := (hs.buffered (buffered_make maxbits blockIdx)).flush
    intro x hx
    rw [ht] at hx
    obtain ⟨a, ha, rfl⟩ := List.mem_map.mp hx
    have hmem := List.mem_map_of_mem (f := Prod.fst) ha
    rw [hwords, List.mem_range'_1] at hmem
    exact ⟨a.1, rfl, hmem.1, by omega⟩

/-- Alone it leaves its bits in a stream of zeros. -/
theorem Writes.placed (h : Writes maxbits blockIdx l accesses) (hmode : atomicMode maxbits = false)
    (hmax : maxbits < 2 ^ 32) (hlen : l.length ≤ maxbits)
    (hreach : blockIdx * maxbits + l.length ≤ 2 ^ 38) :
    (accesses.map Access.setBits).foldl orWord (fun _ => 0) =
      BitLists.placed 64 (blockIdx * maxbits) l := by
  obtain ⟨rfl, rfl⟩ | ⟨s, hs, rfl⟩ := h
  · funext j
    exact (placed_nil _ j).symm
  · rw [hmode] at hs
    exact (hs.written_iff (hlen.trans_lt hmax)).mpr (inReach_of_le hreach)

/-- A block with few bits takes one access. -/
theorem Writes.single (h : Writes maxbits blockIdx l accesses) (hmode : atomicMode maxbits = false)
    (hpos : l ≠ []) (hlen : blockIdx * maxbits % 64 + l.length ≤ 64) :
    accesses = [.word (blockIdx * maxbits / 64 % 2 ^ 32)
      (BitLists.placed 64 (blockIdx * maxbits) l (blockIdx * maxbits / 64))] := by
  obtain ⟨hnil, -⟩ | ⟨s, hs, rfl⟩ := h
  · exact absurd hnil hpos
  · rw [hmode] at hs
    obtain ⟨t, ht, hwords, hunion⟩ := (hs.buffered (buffered_make maxbits blockIdx)).flush
    have hlen' := List.length_pos_of_ne_nil hpos
    have hcount : (blockIdx * maxbits + l.length + 63) / 64 - blockIdx * maxbits / 64 = 1 := by omega
    rw [hcount, List.range'_one] at hwords
    obtain ⟨⟨i, v⟩, rfl⟩ : ∃ a, t = [a] := List.length_eq_one_iff.mp (by
      rw [← List.length_map (f := Prod.fst), hwords, List.length_singleton])
    obtain rfl : i = blockIdx * maxbits / 64 := List.singleton_inj.mp hwords
    have hv := hunion (blockIdx * maxbits / 64)
    rw [union_cons, union_nil, if_pos rfl, BitVec.ofNat_eq_ofNat, BitVec.or_zero] at hv
    rw [ht, ← hv]
    rfl

theorem exists_emits (s : ZfpBlockWriter1) (l : List Bool) : ∃ s', Emits s l s' := by
  induction l generalizing s with
  | nil => exact ⟨s, .refl⟩
  | cons b l ih =>
    have hbit : Emits s [b] (zfpWriterWriteBit s b) := .bit .refl b
    obtain ⟨s', hs'⟩ := ih (zfpWriterWriteBit s b)
    exact ⟨s', hbit.trans hs'⟩

/-- There is a writer for all bits, and it touches all words of the bits. -/
theorem exists_writes (hmode : atomicMode maxbits = false) (blockIdx : ℕ) (l : List Bool) :
    ∃ t : List (ℕ × BitVec 64),
      Writes maxbits blockIdx l (t.map fun a => .word (a.1 % 2 ^ 32) a.2) ∧
      t.map Prod.fst = List.range' (blockIdx * maxbits / 64)
        ((blockIdx * maxbits + l.length + 63) / 64 - blockIdx * maxbits / 64) ∧
      ∀ j, union t j = BitLists.placed 64 (blockIdx * maxbits) l j := by
  obtain ⟨s, hs⟩ := exists_emits (zfpMakeWriter1 maxbits blockIdx false) l
  obtain ⟨t, ht, hwords, hunion⟩ := (hs.buffered (buffered_make maxbits blockIdx)).flush
  refine ⟨t, .inr ⟨s, ?_, ht.symm⟩, hwords, hunion⟩
  rw [hmode]
  exact hs

end

/-! ## Words of their own -/

section

variable {maxbits blocks : ℕ} {l : ℕ → List Bool} {accesses : ℕ → List Access}

/-- The words of a block that starts at a multiple of 64 bits. -/
theorem Launch.own (h : Launch maxbits blocks l accesses) (hmode : atomicMode maxbits = false)
    (hreach : blocks * maxbits ≤ 2 ^ 38) {b : ℕ} (hb : b < blocks) {x : Access}
    (hx : x ∈ accesses b) :
    b * maxbits / 64 ≤ x.setBits.1 ∧ x.setBits.1 < ((b + 1) * maxbits + 63) / 64 := by
  obtain ⟨j, hj, hlow, hhigh⟩ := (h.writes b hb).words hmode x hx
  have hlen := h.length b hb
  have hnext : (b + 1) * maxbits ≤ blocks * maxbits := Nat.mul_le_mul_right _ hb
  rw [Nat.add_mul, Nat.one_mul] at hnext ⊢
  rw [hj, Nat.mod_eq_of_lt (by omega)]
  exact ⟨hlow, by omega⟩

/-- The parts of two blocks have no word in common. -/
theorem words_disjoint {b b' j : ℕ} (hdvd : 64 ∣ maxbits) (hne : b ≠ b')
    (h : b * maxbits / 64 ≤ j ∧ j < ((b + 1) * maxbits + 63) / 64) :
    ¬ (b' * maxbits / 64 ≤ j ∧ j < ((b' + 1) * maxbits + 63) / 64) := by
  obtain ⟨m, rfl⟩ := hdvd
  have hdiv : ∀ c, c * (64 * m) / 64 = c * m ∧ (c * (64 * m) + 63) / 64 = c * m := fun c => by
    have hcomm : c * (64 * m) = 64 * (c * m) := by ring
    rw [hcomm]
    omega
  rw [(hdiv b).1, (hdiv (b + 1)).2] at h
  rw [(hdiv b').1, (hdiv (b' + 1)).2]
  rintro ⟨hlow, hhigh⟩
  rcases Nat.lt_or_gt_of_ne hne with hlt | hgt
  · have hle : (b + 1) * m ≤ b' * m := Nat.mul_le_mul_right m hlt
    omega
  · have hle : (b' + 1) * m ≤ b * m := Nat.mul_le_mul_right m hgt
    omega

/-- Threads that have no word in common leave all bits, whatever their order. -/
theorem Launch.preserved (h : Launch maxbits blocks l accesses) (hmode : atomicMode maxbits = false)
    (hmax : maxbits < 2 ^ 32) (hreach : blocks * maxbits ≤ 2 ^ 38)
    (hown : blocks ≤ 1 ∨ 64 ∣ maxbits) {sched : List (Instr ℕ 64)}
    (hsched : Schedule (threads blocks accesses) sched) {b i : ℕ} (hb : b < blocks)
    (hi : i < maxbits) :
    bitOf (streamAfter sched) (b * maxbits + i) = (l b).getD i false := by
  have hlen := h.length b hb
  have hnext : (b + 1) * maxbits ≤ blocks * maxbits := Nat.mul_le_mul_right _ hb
  have hfilter : sched.filter (Instr.thread · = b) = (threads blocks accesses).getD b [] :=
    hsched.filter_owner (fun c p hp a ha => by
      obtain ⟨-, rfl⟩ := mem_threads hp
      obtain ⟨x, -, hax⟩ := List.mem_flatMap.mp ha
      exact (mem_instrs hax).1) b
  rw [List.getD_eq_getElem?_getD, getElem?_threads accesses hb, Option.getD_some] at hfilter
  have hagree : Agree b (fun j => b * maxbits / 64 ≤ j ∧ j < ((b + 1) * maxbits + 63) / 64)
      (sched.foldl exec clearMachine)
      ((sched.filter (Instr.thread · = b)).foldl exec clearMachine) :=
    Agree.foldl (fun a ha ht => by
      obtain ⟨-, x, hx, hword⟩ := mem_schedule hsched ha
      rw [ht] at hx
      rw [hword]
      exact h.own hmode hreach hb hx) (fun a ha ht => by
      obtain ⟨hlt, x, hx, hword⟩ := mem_schedule hsched ha
      rcases hown with hone | hdvd
      · exact absurd ht (by omega)
      · rw [hword]
        exact words_disjoint hdvd ht (h.own hmode hreach hlt hx))
    ⟨rfl, fun _ _ => rfl⟩
  rw [Nat.add_mul, Nat.one_mul] at hnext hagree
  have hmem := hagree.2 ((b * maxbits + i) / 64) ⟨Nat.div_le_div_right (Nat.le_add_right _ _), by omega⟩
  rw [hfilter, foldl_instrs, clearMachine, (h.writes b hb).placed hmode hmax hlen (by omega)] at hmem
  rw [bitOf, streamAfter, clearMachine, hmem, getLsbD_placed, Nat.div_add_mod', placedBit_add,
    decide_eq_true (Nat.mod_lt _ (by decide)), Bool.true_and]

/-- The bits of two blocks, one full and one of a single bit, and what their threads do. -/
theorem exists_launch (hmode : atomicMode maxbits = false) (hpos : 0 < maxbits) (blocks : ℕ) {k k' : ℕ}
    (hne : k ≠ k') :
    ∃ l accesses, Launch maxbits blocks l accesses ∧ l k = List.replicate maxbits true ∧
      (∀ b < blocks, b ≠ k → b ≠ k' → accesses b = []) ∧
      (∀ j, k * maxbits / 64 ≤ j → j < (k * maxbits + maxbits + 63) / 64 →
        ∃ x ∈ accesses k, x.setBits.1 = j % 2 ^ 32) ∧
      accesses k' = [.word (k' * maxbits / 64 % 2 ^ 32)
        (placed 64 (k' * maxbits) [true] (k' * maxbits / 64))] := by
  obtain ⟨t, ht, hwords, -⟩ := exists_writes hmode k (List.replicate maxbits true)
  obtain ⟨t', ht', -⟩ := exists_writes hmode k' [true]
  have hsingle := ht'.single hmode (List.cons_ne_nil true []) (Nat.mod_lt _ (by decide))
  rw [hsingle] at ht'
  have hright : ∀ {β : Type} (x y z : β),
      Function.update (Function.update (fun _ : ℕ => z) k' y) k x k' = y := fun x y z => by
    rw [Function.update_of_ne hne.symm, Function.update_self]
  have hother : ∀ {β : Type} (x y z : β) {b : ℕ}, b ≠ k → b ≠ k' →
      Function.update (Function.update (fun _ : ℕ => z) k' y) k x b = z := fun x y z b hk hk' => by
    rw [Function.update_of_ne hk, Function.update_of_ne hk']
  refine ⟨Function.update (Function.update (fun _ => []) k' [true]) k (List.replicate maxbits true),
    Function.update (Function.update (fun _ => []) k' [.word (k' * maxbits / 64 % 2 ^ 32)
      (placed 64 (k' * maxbits) [true] (k' * maxbits / 64))]) k
      (t.map fun a => .word (a.1 % 2 ^ 32) a.2), ⟨fun b _ => ?_, fun b _ => ?_⟩,
    Function.update_self .., fun b _ hk hk' => hother _ _ _ hk hk', ?_, hright ..⟩
  · by_cases hk : b = k
    · rw [hk, Function.update_self, List.length_replicate]
    by_cases hk' : b = k'
    · rw [hk', hright]
      exact hpos
    · rw [hother _ _ _ hk hk']
      exact Nat.zero_le _
  · by_cases hk : b = k
    · rw [hk, Function.update_self, Function.update_self]
      exact ht
    by_cases hk' : b = k'
    · rw [hk', hright, hright]
      exact ht'
    · rw [hother _ _ _ hk hk', hother _ _ _ hk hk']
      exact .inl ⟨rfl, rfl⟩
  · intro j hlow hhigh
    have hmem : j ∈ t.map Prod.fst := by
      rw [hwords, List.mem_range'_1, List.length_replicate]
      omega
    obtain ⟨a, ha, rfl⟩ := List.mem_map.mp hmem
    rw [Function.update_self]
    exact ⟨_, List.mem_map_of_mem ha, rfl⟩

/-- A store of a thread that has loaded the word before another thread stores it. -/
theorem exists_losing_schedule (accesses : ℕ → List Access) {k k' j : ℕ} (hk : k < blocks)
    (hk' : k' < blocks) (hne : k ≠ k') {v : BitVec 64} (haccesses : accesses k' = [.word j v])
    (hother : ∀ b < blocks, b ≠ k → b ≠ k' → accesses b = []) :
    ∃ sched, Schedule (threads blocks accesses) sched ∧ streamAfter sched j = v := by
  have hlen : (threads blocks accesses).length = blocks := by
    rw [threads, List.length_map, List.length_range]
  have hthread : (threads blocks accesses)[k']? = some [.load k' j, .store k' j v] := by
    rw [getElem?_threads accesses hk', haccesses]
    rfl
  have hfull := getElem?_threads accesses hk
  refine ⟨.load k' j :: ((accesses k).flatMap (Access.instrs k) ++ [.store k' j v]),
    .step hthread (@Schedule.prepend _ _ k _ [] _ ?_ (@Schedule.step _ _ k' _ [] _ ?_ (.done ?_))), ?_⟩
  · rw [List.getElem?_set_ne hne.symm, hfull, List.append_nil]
  · rw [List.getElem?_set_ne hne, List.getElem?_set_self (by rw [hlen]; exact hk')]
  · intro p hp
    obtain ⟨b, hb⟩ := List.getElem?_of_mem hp
    by_cases hbk' : b = k'
    · subst hbk'
      rw [List.getElem?_set_self (by simpa [hlen] using hk')] at hb
      exact (Option.some.inj hb).symm
    by_cases hbk : b = k
    · subst hbk
      rw [List.getElem?_set_ne (Ne.symm hbk'), List.getElem?_set_self (by simpa [hlen] using hk)] at hb
      exact (Option.some.inj hb).symm
    · rw [List.getElem?_set_ne (Ne.symm hbk'), List.getElem?_set_ne (Ne.symm hbk),
        List.getElem?_set_ne (Ne.symm hbk')] at hb
      rw [(mem_threads hb).2, hother b (mem_threads hb).1 hbk hbk', List.flatMap_nil]
  · have hreg := foldl_exec_reg (t := k') (l := (accesses k).flatMap (Access.instrs k)) (fun a ha => by
      obtain ⟨x, -, hax⟩ := List.mem_flatMap.mp ha
      rw [(mem_instrs hax).1]
      exact hne) (exec clearMachine (.load k' j))
    have hfirst : (exec clearMachine (.load k' j)).reg k' = 0 := Function.update_self ..
    have hlast : ∀ s : Machine ℕ 64, (exec s (.store k' j v)).mem j = s.reg k' ||| v :=
      fun s => Function.update_self ..
    rw [streamAfter, List.foldl_cons, List.foldl_append, List.foldl_cons, List.foldl_nil, hlast, hreg,
      hfirst, BitVec.ofNat_eq_ofNat, BitVec.zero_or]

/-- Where two blocks meet in a word: in the middle of a word, or where the index starts again. -/
theorem blocks_meet (hmode : atomicMode maxbits = false) (hmax : maxbits < 2 ^ 32)
    (h : ¬ (blocks ≤ 1 ∨ 64 ∣ maxbits ∧ blocks * maxbits ≤ 2 ^ 38)) :
    1 < blocks ∧ maxbits % 64 = 32 ∨
      ∃ k, 0 < k ∧ k < blocks ∧ k * maxbits ≤ 2 ^ 38 ∧ 2 ^ 38 < k * maxbits + maxbits := by
  rw [atomicMode_eq_false] at hmode
  rw [not_or, not_and, Nat.not_le, Nat.not_le] at h
  by_cases hdvd : 64 ∣ maxbits
  · have hpast := h.2 hdvd
    have hpos : 0 < maxbits := by
      rcases Nat.eq_zero_or_pos maxbits with hzero | hpos
      · rw [hzero, Nat.mul_zero] at hpast
        exact absurd hpast (Nat.not_lt_zero _)
      · exact hpos
    refine .inr ⟨2 ^ 38 / maxbits, ?_, ?_, Nat.div_mul_le_self .., ?_⟩
    · exact Nat.div_pos (hmax.le.trans (Nat.pow_le_pow_right (by decide) (by decide))) hpos
    · exact (Nat.div_lt_iff_lt_mul hpos).mpr hpast
    · have hlt := Nat.lt_div_mul_add (a := 2 ^ 38) hpos
      exact hlt
  · exact .inl ⟨h.1, by omega⟩

/-- In the mode of the writers without atomic instructions no bit of a block is lost in any order of
their loads and stores, and no two blocks use the same word, if and only if each block starts at a
word of the stream that a `uint` can index. -/
theorem metal_writers_iff (hmode : atomicMode maxbits = false) (hmax : maxbits < 2 ^ 32)
    (blocks : ℕ) :
    ((∀ l accesses, Launch maxbits blocks l accesses →
        ∀ sched, Schedule (threads blocks accesses) sched → ∀ b < blocks, ∀ i < maxbits,
          bitOf (streamAfter sched) (b * maxbits + i) = (l b).getD i false) ↔
      blocks ≤ 1 ∨ 64 ∣ maxbits ∧ blocks * maxbits ≤ 2 ^ 38) ∧
    ((∀ l accesses, Launch maxbits blocks l accesses →
        ∀ b < blocks, ∀ b' < blocks, b ≠ b' → ∀ x ∈ accesses b, ∀ x' ∈ accesses b',
          x.setBits.1 ≠ x'.setBits.1) ↔
      blocks ≤ 1 ∨ 64 ∣ maxbits ∧ blocks * maxbits ≤ 2 ^ 38) := by
  refine ⟨⟨fun h => ?_, fun h l accesses hl sched hsched b hb i hi => ?_⟩,
    ⟨fun h => ?_, fun h l accesses hl b hb b' hb' hne x hx x' hx' => ?_⟩⟩
  · by_contra hcond
    obtain ⟨hblocks, hmod⟩ | ⟨k, hpos, hk, hlow, hhigh⟩ := blocks_meet hmode hmax hcond
    · -- the second block stores the word that it has loaded before the last store of the first one
      obtain ⟨l, accesses, hl, hone, hother, -, haccesses⟩ :=
        exists_launch hmode (by omega) blocks Nat.zero_ne_one
      obtain ⟨sched, hsched, hword⟩ :=
        exists_losing_schedule accesses (by omega) hblocks Nat.zero_ne_one haccesses hother
      have hbit := h l accesses hl sched hsched 0 (by omega) (maxbits - 1) (by omega)
      have hindex : (0 * maxbits + (maxbits - 1)) / 64 = 1 * maxbits / 64 % 2 ^ 32 := by omega
      rw [bitOf, hindex, hword, getLsbD_placed, placedBit_of_lt _ (by omega), Bool.and_false, hone,
        List.getD_replicate _ (by omega)] at hbit
      exact absurd hbit Bool.false_ne_true
    · -- no thread writes the word beyond the last index
      obtain ⟨l, accesses, hl, hone, -⟩ := exists_launch hmode (by omega) blocks hpos.ne'
      have hsched := schedule_flatten (threads blocks accesses)
      have hbit := h l accesses hl _ hsched k hk (2 ^ 38 - k * maxbits) (by omega)
      have hmem : streamAfter (threads blocks accesses).flatten (2 ^ 32) = 0 := by
        refine foldl_exec_mem (fun a ha => ?_) clearMachine
        obtain ⟨hlt, x, hx, hword⟩ := mem_schedule hsched ha
        obtain ⟨j, hj, -⟩ := (hl.writes _ hlt).words hmode x hx
        rw [hword, hj]
        exact (Nat.mod_lt j (by decide)).ne
      have hindex : k * maxbits + (2 ^ 38 - k * maxbits) = 2 ^ 32 * 64 := by omega
      rw [hindex, bitOf, Nat.mul_div_cancel _ (by decide), hmem, BitVec.ofNat_eq_ofNat,
        BitVec.getLsbD_zero, hone, List.getD_replicate _ (by omega)] at hbit
      exact absurd hbit Bool.false_ne_true
  · obtain hone | ⟨hdvd, hreach⟩ := h
    · have hle : blocks * maxbits ≤ 1 * maxbits := Nat.mul_le_mul_right _ hone
      exact hl.preserved hmode hmax (by omega) (.inl hone) hsched hb hi
    · exact hl.preserved hmode hmax hreach (.inr hdvd) hsched hb hi
  · by_contra hcond
    obtain ⟨hblocks, hmod⟩ | ⟨k, hpos, hk, hlow, hhigh⟩ := blocks_meet hmode hmax hcond
    · obtain ⟨l, accesses, hl, -, -, hwords, haccesses⟩ :=
        exists_launch hmode (by omega) blocks Nat.zero_ne_one
      obtain ⟨x, hx, hword⟩ := hwords (1 * maxbits / 64) (by omega) (by omega)
      refine h l accesses hl 0 (by omega) 1 hblocks Nat.zero_ne_one x hx _ (by
        rw [haccesses]
        exact List.mem_singleton_self _) ?_
      exact hword
    · obtain ⟨l, accesses, hl, -, -, hwords, haccesses⟩ :=
        exists_launch hmode (by omega) blocks hpos.ne'
      obtain ⟨x, hx, hword⟩ := hwords (2 ^ 32) (by omega) (by omega)
      refine h l accesses hl k hk 0 (by omega) hpos.ne' x hx _ (by
        rw [haccesses]
        exact List.mem_singleton_self _) ?_
      rw [hword, Access.setBits, Nat.zero_mul, Nat.zero_div, Nat.mod_self, Nat.zero_mod]
  · obtain hone | ⟨hdvd, hreach⟩ := h
    · omega
    · have hown := hl.own hmode hreach hb hx
      have hown' := hl.own hmode hreach hb' hx'
      intro heq
      rw [← heq] at hown'
      exact words_disjoint hdvd hne hown hown'

end

def low (_ : ℕ) : BitVec Scalar.int32.width := 0xC0000000#32

/-- Two blocks of 32 bits in one word: the first bit of the first block is lost. -/
theorem metal_writers_lose :
    ¬ ∀ sched, Schedule (threads 2 fun b =>
        (zfpEncodeBlock .int32 1 (CudaMemory.intOps 1) low 32 b (atomicMode 32)).accesses) sched →
      ∀ b < 2, ∀ i < 32, bitOf (streamAfter sched) (b * 32 + i) =
        (Cuda.blockCode (d := 1) (CudaMemory.intOps 1) 32 low).getD i false := by
  intro h
  have hmode : atomicMode 32 = false := by decide
  have hfirst : (Cuda.blockCode (d := 1) (CudaMemory.intOps 1) 32 low).getD 0 false = true := by
    decide
  have hnil : Cuda.blockCode (d := 1) (CudaMemory.intOps 1) 32 low ≠ [] := by
    intro hnil
    rw [hnil] at hfirst
    exact absurd hfirst Bool.false_ne_true
  have hlen := Cuda.length_blockCode_le (d := 1) (CudaMemory.intOps 1) 32 low (by decide) (by decide)
  have hsecond := (zfpEncodeBlock_writes (d := 1) (CudaMemory.intOps 1) low (by decide) (by decide)
    (by decide) 32 1).single hmode hnil (by omega)
  obtain ⟨sched, hsched, hword⟩ := @exists_losing_schedule 2
    (fun b => (zfpEncodeBlock .int32 1 (CudaMemory.intOps 1) low 32 b (atomicMode 32)).accesses)
    0 1 _ (by decide) (by decide) (by decide) _ hsecond (fun b hb => by omega)
  have hbit := h sched hsched 0 (by decide) 0 (by decide)
  have hindex : (0 * 32 + 0) / 64 = 1 * 32 / 64 % 2 ^ 32 := by decide
  rw [hfirst, bitOf, hindex, hword, getLsbD_placed, placedBit_of_lt _ (by decide), Bool.and_false]
    at hbit
  exact absurd hbit Bool.false_ne_true

/-- Two blocks of 64 bits: no order of the loads and stores loses the first bit of the second
block. -/
theorem metal_writers_keep :
    ¬ ∃ sched, Schedule (threads 2 fun b =>
        (zfpEncodeBlock .int32 1 (CudaMemory.intOps 1) low 64 b (atomicMode 64)).accesses) sched ∧
      bitOf (streamAfter sched) (1 * 64 + 0) ≠ true := by
  rintro ⟨sched, hsched, hne⟩
  have hlaunch : Launch 64 2 (fun _ => Cuda.blockCode (d := 1) (CudaMemory.intOps 1) 64 low)
      fun b => (zfpEncodeBlock .int32 1 (CudaMemory.intOps 1) low 64 b (atomicMode 64)).accesses :=
    ⟨fun b _ => Cuda.length_blockCode_le (d := 1) (CudaMemory.intOps 1) 64 low (by decide) (by decide),
      fun b _ => zfpEncodeBlock_writes (d := 1) (CudaMemory.intOps 1) low (by decide) (by decide)
        (by decide) 64 b⟩
  have hbit := (metal_writers_iff (show atomicMode 64 = false by decide) (by decide) 2).1.mpr
    (.inr ⟨by decide, by decide⟩) _ _ hlaunch sched hsched 1 (by decide) 0 (by decide)
  exact hne (hbit.trans (by decide))

end Zfp.Metal

import Zfp.CacheRuns
import Zfp.CacheSimulation

/-!
# The generic codec

Blocks of a 3D array are stored uncompressed, in a type that may be less precise than the type of
the array. Values are converted when a block leaves the cache and when it comes back.
-/

namespace Zfp
open BlockCache

/-- The codec: the conversions between the type of the array and the type in memory, and the bits
of the latter. -/
structure GenericCodec (External Internal : Type) where
  toInternal : External → Internal
  toExternal : Internal → External
  internalSizeBits : ℕ
  internalSizeBits_pos : 0 < internalSizeBits

namespace GenericCodec

variable {External Internal : Type} (C : GenericCodec External Internal)

/-- 1u << (2 * dims) -/
def blockSize : ℕ := 2 ^ (2 * 3)

def blockSizeBits : ℕ := blockSize * C.internalSizeBits

def begin (offset : ℕ) : Except String ℕ :=
  if offset % C.internalSizeBits ≠ 0 then .error "zfp generic codec bit offset alignment error"
  else .ok (offset / C.internalSizeBits)

def encodeBlockStrided (offset shape : ℕ) (mem : ℤ → External) (m : Strided)
    (buffer : ℕ → Internal) : Except String (ℕ × (ℕ → Internal)) :=
  (C.begin offset).map fun q =>
    (C.blockSizeBits, walkBlock
      (fun buffer e => Function.update buffer (q + e.1) (C.toInternal (mem e.2))) shape m buffer)

def decodeBlockStrided (offset shape : ℕ) (mem : ℤ → External) (m : Strided)
    (buffer : ℕ → Internal) : Except String (ℕ × (ℤ → External)) :=
  (C.begin offset).map fun q =>
    (C.blockSizeBits, walkBlock
      (fun mem e => Function.update mem e.2 (C.toExternal (buffer (q + e.1)))) shape m mem)

def contiguousBlock : Strided := ⟨0, 1, 4, 16⟩

def encodeBlock (offset shape : ℕ) (block : ℕ → External) (buffer : ℕ → Internal) :
    Except String (ℕ × (ℕ → Internal)) :=
  if shape ≠ 0 then
    C.encodeBlockStrided offset shape (fun p => block p.toNat) contiguousBlock buffer
  else
    -- store full contiguous block to memory
    (C.begin offset).map fun ptr =>
      (C.blockSizeBits, (List.range blockSize).foldl
        (fun buffer n => Function.update buffer (ptr + n) (C.toInternal (block n))) buffer)

def decodeBlock (offset shape : ℕ) (block : ℕ → External) (buffer : ℕ → Internal) :
    Except String (ℕ × (ℕ → External)) :=
  if shape ≠ 0 then
    (C.decodeBlockStrided offset shape (fun p => block p.toNat) contiguousBlock buffer).map
      fun r => (r.1, fun (n : ℕ) => r.2 n)
  else
    -- load full contiguous block from memory
    (C.begin offset).map fun ptr =>
      (C.blockSizeBits, (List.range blockSize).foldl
        (fun block n => Function.update block n (C.toExternal (buffer (ptr + n)))) block)

def store (g : ArraySize) : Store (ℕ → Internal) External where
  encode buffer b block :=
    match C.encodeBlock (b * C.blockSizeBits) (g.blockShape b) block buffer with
    | .ok r => r.2
    | .error _ => buffer
  encodeStrided buffer b mem m :=
    match C.encodeBlockStrided (b * C.blockSizeBits) (g.blockShape b) mem m buffer with
    | .ok r => r.2
    | .error _ => buffer
  decode buffer b block :=
    match C.decodeBlock (b * C.blockSizeBits) (g.blockShape b) block buffer with
    | .ok r => (r.2, buffer)
    | .error _ => (block, buffer)
  decodeStrided buffer b mem m :=
    match C.decodeBlockStrided (b * C.blockSizeBits) (g.blockShape b) mem m buffer with
    | .ok r => (r.2, buffer)
    | .error _ => (mem, buffer)

/-- The offsets of blocks are aligned. -/
theorem begin_block (b : ℕ) : C.begin (b * C.blockSizeBits) = .ok (b * blockSize) := by
  rw [begin, blockSizeBits, ← Nat.mul_assoc, Nat.mul_mod_left, if_neg (not_not.mpr rfl),
    Nat.mul_div_cancel _ C.internalSizeBits_pos]

/-- The same arrangement of values that are not converted. -/
def plain : GenericCodec External External where
  toInternal := id
  toExternal := id
  internalSizeBits := C.internalSizeBits
  internalSizeBits_pos := C.internalSizeBits_pos

/-! ## Conversions -/

/-- `a` is `w` after some number of conversions to the type in memory and back. -/
def Converted (a w : External) : Prop := ∃ k, a = (C.toExternal ∘ C.toInternal)^[k] w

theorem Converted.refl (w : External) : C.Converted w w := ⟨0, rfl⟩

theorem Converted.again {a w : External} (h : C.Converted a w) :
    C.Converted (C.toExternal (C.toInternal a)) w := by
  obtain ⟨k, rfl⟩ := h
  refine ⟨k + 1, ?_⟩
  rw [Function.iterate_succ_apply']
  rfl

/-- If a second conversion changes nothing more, then a value is converted once at most. -/
theorem converted_iff (hidem : ∀ x, C.toExternal (C.toInternal (C.toExternal (C.toInternal x))) =
    C.toExternal (C.toInternal x)) (a w : External) :
    C.Converted a w ↔ a = w ∨ a = C.toExternal (C.toInternal w) := by
  constructor
  · rintro ⟨k, rfl⟩
    induction k with
    | zero => exact Or.inl rfl
    | succ k ih =>
      rw [Function.iterate_succ_apply', Function.comp_apply]
      rcases ih with h | h
      · rw [h]
        exact Or.inr rfl
      · rw [h]
        exact Or.inr (hidem w)
  · rintro (rfl | rfl)
    · exact Converted.refl C _
    · exact Converted.again C (Converted.refl C w)

/-! ## What the store does -/

section

variable (g : ArraySize) (buffer : ℕ → Internal) (b : ℕ)

theorem store_encode (block : ℕ → External) : (C.store g).encode buffer b block =
    if g.blockShape b ≠ 0 then
      walkBlock (fun buffer e => Function.update buffer (b * blockSize + e.1)
        (C.toInternal (block e.2.toNat))) (g.blockShape b) contiguousBlock buffer
    else (List.range blockSize).foldl (fun buffer n => Function.update buffer (b * blockSize + n)
      (C.toInternal (block n))) buffer := by
  simp only [store, encodeBlock, encodeBlockStrided, begin_block]
  split_ifs
  · rfl
  · rfl

theorem store_encodeStrided (mem : ℤ → External) (m : Strided) :
    (C.store g).encodeStrided buffer b mem m =
      walkBlock (fun buffer e => Function.update buffer (b * blockSize + e.1)
        (C.toInternal (mem e.2))) (g.blockShape b) m buffer := by
  simp only [store, encodeBlockStrided, begin_block]
  rfl

theorem store_decode (block : ℕ → External) : (C.store g).decode buffer b block =
    (if g.blockShape b ≠ 0 then fun (n : ℕ) =>
      walkBlock (fun mem e => Function.update mem e.2
        (C.toExternal (buffer (b * blockSize + e.1)))) (g.blockShape b) contiguousBlock
        (fun p : ℤ => block p.toNat) n
    else (List.range blockSize).foldl (fun block n => Function.update block n
      (C.toExternal (buffer (b * blockSize + n)))) block, buffer) := by
  simp only [store, decodeBlock, decodeBlockStrided, begin_block]
  split_ifs
  · rfl
  · rfl

theorem store_decodeStrided (mem : ℤ → External) (m : Strided) :
    (C.store g).decodeStrided buffer b mem m =
      (walkBlock (fun mem e => Function.update mem e.2
        (C.toExternal (buffer (b * blockSize + e.1)))) (g.blockShape b) m mem, buffer) := by
  simp only [store, decodeBlockStrided, begin_block]
  rfl

end

/-- A store of converted values follows the store of plain ones. -/
theorem storeRel (g : ArraySize) :
    StoreRel C.Converted (fun buffer buffer' => ∀ i, C.Converted (C.toExternal (buffer i)) (buffer' i))
      (C.store g) (C.plain.store g) where
  encode {s s'} b {a a'} hs ha := by
    have hconv (e : ℕ × ℤ) := Converted.again C (ha e.2.toNat)
    have hconv' (n : ℕ) := Converted.again C (ha n)
    rw [store_encode, store_encode]
    intro i
    split_ifs
    · exact rel_walkBlock (R := fun c w => C.Converted (C.toExternal c) w)
        (fun e => b * blockSize + e.1) hconv _ _ hs i
    · exact rel_foldl (R := fun c w => C.Converted (C.toExternal c) w) (b * blockSize + ·) hconv' _ hs i
  encodeStrided {s s'} b {mem mem'} m hs hmem := by
    have hconv (e : ℕ × ℤ) := Converted.again C (hmem e.2)
    rw [store_encodeStrided, store_encodeStrided]
    exact rel_walkBlock (R := fun c w => C.Converted (C.toExternal c) w)
        (fun e => b * blockSize + e.1) hconv _ _ hs
  decode {s s'} b {a a'} hs ha := by
    have hconv (n : ℕ) : C.Converted (C.toExternal (s (b * blockSize + n)))
        (C.plain.toExternal (s' (b * blockSize + n))) := hs _
    rw [store_decode, store_decode]
    refine ⟨fun o => ?_, hs⟩
    dsimp only
    split_ifs
    · exact rel_walkBlock (R := C.Converted) Prod.snd (fun e => hconv e.1) _ _ (fun p => ha p.toNat) o
    · exact rel_foldl (R := C.Converted) (fun n => n) hconv _ ha o
  decodeStrided {s s'} b {mem mem'} m hs hmem := by
    have hconv (e : ℕ × ℤ) : C.Converted (C.toExternal (s (b * blockSize + e.1)))
        (C.plain.toExternal (s' (b * blockSize + e.1))) := hs _
    rw [store_decodeStrided, store_decodeStrided]
    exact ⟨rel_walkBlock (R := C.Converted) Prod.snd hconv _ _ hmem, hs⟩

/-! ## The store of values that are not converted -/

section

variable {ε κ V : Type} [DecidableEq κ] (key : ε → κ) (f : ε → V)

theorem foldl_update_of_not_mem {L : List ε} {x : κ} (hx : x ∉ L.map key) (mem : κ → V) :
    L.foldl (fun mem e => Function.update mem (key e) (f e)) mem x = mem x := by
  induction L generalizing mem with
  | nil => rfl
  | cons e L ih =>
    rw [List.map_cons, List.mem_cons, not_or] at hx
    rw [List.foldl_cons, ih hx.2, Function.update_of_ne hx.1]

theorem foldl_update_of_mem {L : List ε} {x : κ} {v : V} (hv : ∀ e ∈ L, key e = x → f e = v)
    (hx : x ∈ L.map key) (mem : κ → V) :
    L.foldl (fun mem e => Function.update mem (key e) (f e)) mem x = v := by
  induction L generalizing mem with
  | nil => exact absurd hx List.not_mem_nil
  | cons e L ih =>
    have htail := fun e' he' => hv e' (List.mem_cons_of_mem e he')
    rw [List.foldl_cons]
    by_cases hL : x ∈ L.map key
    · exact ih htail hL _
    · rw [foldl_update_of_not_mem key f hL]
      rw [List.map_cons, List.mem_cons] at hx
      rcases hx with rfl | hx
      · rw [Function.update_self]
        exact hv e List.mem_cons_self rfl
      · exact absurd hx hL

end

theorem lt_blockSize {shape o : ℕ} (h : InBlock shape o) : o < blockSize := by
  have hle := (boxSize_le shape).2.2
  have hlt := h.2.2
  change o < 64
  omega

theorem addr_contiguousBlock (o : ℕ) : contiguousBlock.addr o = o := by
  rw [Strided.addr]
  change (0 : ℤ) + (o % 4 : ℕ) * 1 + (o / 4 % 4 : ℕ) * 4 + (o / 16 : ℕ) * 16 = o
  omega

section

variable (g : ArraySize) (buffer : ℕ → External) (b : ℕ)

/-- Encoding sets the elements of the block, from wherever they are. -/
theorem walk_encode (shape : ℕ) (m : Strided) (v : ℤ → External) {o : ℕ} (ho : InBlock shape o) :
    walkBlock (fun buffer e => Function.update buffer (b * blockSize + e.1) (v e.2)) shape m
      buffer (b * blockSize + o) = v (m.addr o) := by
  rw [walkBlock_eq]
  apply foldl_update_of_mem (fun e : ℕ × ℤ => b * blockSize + e.1)
  · intro e he heq
    rw [((mem_cells shape m e).mp he).2, show e.1 = o by omega]
  · rw [List.mem_map]
    exact ⟨(o, m.addr o), (mem_cells shape m _).mpr ⟨ho, rfl⟩, rfl⟩

/-- Encoding a block leaves the others. -/
theorem walk_encode_ne (shape : ℕ) (m : Strided) (v : ℤ → External) {b' o : ℕ} (hne : b' ≠ b)
    (ho : o < blockSize) :
    walkBlock (fun buffer e => Function.update buffer (b * blockSize + e.1) (v e.2)) shape m
      buffer (b' * blockSize + o) = buffer (b' * blockSize + o) := by
  rw [walkBlock_eq]
  apply foldl_update_of_not_mem (fun e : ℕ × ℤ => b * blockSize + e.1)
  rw [List.mem_map]
  rintro ⟨e, he, heq⟩
  have hlt := lt_blockSize ((mem_cells shape m e).mp he).1
  have hsize : blockSize = 64 := rfl
  rw [hsize] at hlt heq ho
  omega

/-- Decoding to a contiguous block. -/
theorem walk_decode (shape : ℕ) (mem : ℤ → External) {o : ℕ} (ho : InBlock shape o) :
    walkBlock (fun mem e => Function.update mem e.2 (buffer (b * blockSize + e.1))) shape
      contiguousBlock mem (o : ℤ) = buffer (b * blockSize + o) := by
  rw [walkBlock_eq]
  apply foldl_update_of_mem Prod.snd (fun e : ℕ × ℤ => buffer (b * blockSize + e.1))
  · intro e he heq
    have haddr := ((mem_cells shape contiguousBlock e).mp he).2
    rw [addr_contiguousBlock] at haddr
    rw [show e.1 = o by omega]
  · rw [List.mem_map]
    exact ⟨(o, contiguousBlock.addr o), (mem_cells shape _ _).mpr ⟨ho, rfl⟩, addr_contiguousBlock o⟩

end

/-- The store of values that are not converted is lossless, and blocks are isolated. -/
theorem lossless_store (g : ArraySize) :
    Lossless g (C.plain.store g) fun buffer b o => buffer (b * blockSize + o) where
  encode_self s b a o hb ho := by
    rw [store_encode]
    split_ifs
    · have hwalk := walk_encode s b _ contiguousBlock (fun p => a p.toNat) ho
      rwa [addr_contiguousBlock, Int.toNat_natCast] at hwalk
    · apply foldl_update_of_mem (b * blockSize + ·)
      · intro n _ hn
        rw [show n = o by omega]
        rfl
      · exact List.mem_map_of_mem (List.mem_range.mpr (lt_blockSize ho))
  encode_ne s b a b' o hb hb' hne ho := by
    rw [store_encode]
    split_ifs
    · exact walk_encode_ne s b _ _ (fun p => a p.toNat) hne (lt_blockSize ho)
    · apply foldl_update_of_not_mem (b * blockSize + ·)
      rw [List.mem_map]
      rintro ⟨n, hn, heq⟩
      have hlt := lt_blockSize ho
      have hsize : blockSize = 64 := rfl
      rw [List.mem_range] at hn
      rw [hsize] at hlt heq hn
      omega
  encodeStrided_self s b mem m o hb ho := by
    rw [store_encodeStrided]
    exact walk_encode s b _ m mem ho
  encodeStrided_ne s b mem m b' o hb hb' hne ho := by
    rw [store_encodeStrided]
    exact walk_encode_ne s b _ m mem hne (lt_blockSize ho)
  decode s b a o hb ho := by
    rw [store_decode]
    dsimp only
    split_ifs
    · exact walk_decode s b _ _ ho
    · apply foldl_update_of_mem (fun n => n)
      · intro n _ hn
        rw [show n = o from hn]
        rfl
      · exact List.mem_map_of_mem (List.mem_range.mpr (lt_blockSize ho))
  decode_view s b a b' o hb hb' ho := by rw [store_decode]
  decodeStrided s b mem m hb := by
    rw [store_decodeStrided, lineGet]
    simp only [plain, id]
  decodeStrided_view s b mem m b' o hb hb' ho := by rw [store_decodeStrided]

/-! ## Arrays -/

def arrayIn (g : ArraySize) (buffer : ℕ → Internal) : ℕ × ℕ × ℕ → External :=
  arrayOf g fun b o => C.toExternal (buffer (b * blockSize + o))

/-- An array with the generic codec behind the default cache is a plain array up to conversions:
each operation returns what was last written, converted to the type in memory and back some number
of times, and so does the buffer after a flush hold what was last written. If a second conversion
changes nothing more, then a value is converted once at most. -/
theorem generic_array_runs {g : ArraySize} (hg : g.Small) (fastHash : Bool) (lineBytes : ℕ)
    {n : BitVec 32} (hn : n.toNat ≤ 2 ^ 31) (fresh : ℕ → ℕ → External) (buffer : ℕ → Internal)
    {ops : List (Op External)} (hops : ∀ op ∈ ops, op.Valid g)
    (hfit : ∀ op ∈ ops, op.LinesFit g lineBytes) :
    ∃ s s' outs, new n fresh buffer = some s ∧
      run (direct fastHash) g (C.store g) lineBytes s ops = some (s', outs) ∧
      (List.Forall₂ (OutputRel C.Converted) outs (specOutputs g (C.arrayIn g buffer) ops) ∧
        ∀ x, g.Mem x → C.Converted (C.arrayIn g (flush (C.store g) s').1.store x)
          (specRun g (C.arrayIn g buffer) ops x)) ∧
      ((∀ x, C.toExternal (C.toInternal (C.toExternal (C.toInternal x))) =
          C.toExternal (C.toInternal x)) →
        List.Forall₂ (OutputRel fun a w => a = w ∨ a = C.toExternal (C.toInternal w)) outs
            (specOutputs g (C.arrayIn g buffer) ops) ∧
          ∀ x, g.Mem x → C.arrayIn g (flush (C.store g) s').1.store x =
              specRun g (C.arrayIn g buffer) ops x ∨
            C.arrayIn g (flush (C.store g) s').1.store x =
              C.toExternal (C.toInternal (specRun g (C.arrayIn g buffer) ops x))) := by
  have hst := C.storeRel g
  have hlossless := C.lossless_store g
  obtain ⟨c, hc⟩ := Option.isSome_iff_exists.mp ((Cache.isSome_resize _ n fresh).mpr hn)
  have hstart : BlockCacheRel C.Converted
      (fun buffer buffer' => ∀ i, C.Converted (C.toExternal (buffer i)) (buffer' i))
      (⟨c, buffer⟩ : BlockCache (ℕ → Internal) External)
      (⟨c, fun i => C.toExternal (buffer i)⟩ : BlockCache (ℕ → External) External) :=
    ⟨⟨rfl, rfl, fun _ _ => Converted.refl C _⟩, fun _ => Converted.refl C _⟩
  have hsame : List.Forall₂ (OpRel C.Converted) ops ops :=
    List.forall₂_same.mpr fun op _ => OpRel.refl (Converted.refl C) op
  have hrel := run_related (direct fastHash) g lineBytes hst hsame hstart
  -- the plain store behaves as the array
  have hnew : new n fresh (fun i => C.toExternal (buffer i)) =
      some (⟨c, fun i => C.toExternal (buffer i)⟩ : BlockCache (ℕ → External) External) := by
    rw [new, Cache.new, hc, Option.map_some]
  obtain ⟨t, hplain, ht⟩ := run_spec (coherent_new (direct fastHash) _ hg hnew) hg hlossless hops
    hfit (everyStep_direct g (C.plain.store g) lineBytes fastHash _ ops)
  rw [hplain] at hrel
  generalize hrun : run (direct fastHash) g (C.store g) lineBytes ⟨c, buffer⟩ ops = q at hrel
  cases hrel with
  | @some q _ hq =>
    obtain ⟨s', outs⟩ := q
    obtain ⟨hend, houts⟩ := hq
    have harray : ∀ x, g.Mem x → C.Converted (C.arrayIn g (flush (C.store g) s').1.store x)
        (specRun g (C.arrayIn g buffer) ops x) := by
      intro x hx
      change C.Converted _
        (specRun g (arrayOf g fun b o => C.toExternal (buffer (b * blockSize + o))) ops x)
      rw [← (flush_arrayOf ht hg hlossless).1 x hx]
      exact (flush_related hst hend).store _
    refine ⟨⟨c, buffer⟩, s', outs, ?_, hrun, ⟨houts, harray⟩, fun hidem => ⟨?_, ?_⟩⟩
    · rw [new, Cache.new, hc, Option.map_some]
    · exact houts.imp fun _ _ h => h.mono fun a w => (C.converted_iff hidem a w).mp
    · exact fun x hx => (C.converted_iff hidem _ _).mp (harray x hx)

/-- Even numbers only are stored: a number that is written and read is itself or one less. -/
theorem generic_array_runs_halves :
    let C : GenericCodec ℤ ℤ := ⟨(· / 2), (2 * ·), 32, by decide⟩
    ∃ s s' outs, new 1 (fun _ _ => 0) (fun _ => 0) = some s ∧
      run (direct false) ⟨5, 4, 4⟩ (C.store ⟨5, 4, 4⟩) 256 s
        [Op.set 1 2 3 7, Op.set 4 0 0 9, Op.get 1 2 3] = some (s', outs) ∧
      List.Forall₂ (OutputRel fun a w => a = w ∨ a = 2 * (w / 2)) outs
        [Output.done, Output.done, Output.value 7] := by
  intro C
  have hops : ∀ op ∈ [Op.set 1 2 3 (7 : ℤ), Op.set 4 0 0 9, Op.get 1 2 3],
      op.Valid ⟨5, 4, 4⟩ ∧ op.LinesFit ⟨5, 4, 4⟩ 256 := by
    simp [Op.Valid, Op.LinesFit, ArraySize.Mem]
  obtain ⟨s, s', outs, hnew, hrun, -, hhalves⟩ :=
    generic_array_runs C (show ArraySize.Small ⟨5, 4, 4⟩ by decide) false 256 (n := 1) (by decide)
      (fun _ _ => 0) (fun _ => 0) (fun op hop => (hops op hop).1) fun op hop => (hops op hop).2
  refine ⟨s, s', outs, hnew, hrun, (hhalves fun x => ?_).1⟩
  change 2 * (2 * (x / 2) / 2) = 2 * (x / 2)
  omega

end GenericCodec

end Zfp

import Zfp.ArrayBlocks
import Zfp.BlockIndex
import Zfp.BlockSize
import Zfp.FixedRate

/-!
# The block store of an array

Compressed blocks are stored in one buffer. The codec determines the sizes of blocks, the index
their offsets; every configuration of the codec has to keep the index in step. What the
floating-point arguments of a configuration stand for is a parameter: a rate is given by the bits
per block that it is rounded to, a tolerance by its exponent.
-/

namespace Zfp
open Bitstream MixedRadix

variable {T : WordType} {S : Scalar} {I : Type} {d : ℕ}

/-! ## Parameters of the codec -/

def roundUpUint (size unit : ℕ) : ℕ :=
  let size := (size + unit - 1) % 2 ^ 32
  size - size % unit

theorem roundUpUint_lt (size unit : ℕ) : roundUpUint size unit < 2 ^ 32 :=
  (Nat.sub_le _ _).trans_lt (Nat.mod_lt _ (by decide))

/-- The default parameters. -/
def zfpStreamOpen : Params where
  minbits := ZFP_MIN_BITS
  maxbits := ZFP_MAX_BITS
  maxprec := ZFP_MAX_PREC
  minexp := ZFP_MIN_EXP
  minbits_le := by decide
  maxbits_lt := by decide
  maxprec_pos := by decide
  maxprec_le := by decide

/-- The bits of a block at a rate: at least those of the exponent, and whole words on demand. -/
def rateBits (T : WordType) (S : Scalar) (bits : UInt32) (align : Bool) : ℕ :=
  let bits :=
    match S with
    | .float => max bits.toNat (1 + 8)
    | .double => max bits.toNat (1 + 11)
    | _ => bits.toNat
  -- for write random access, round up to next multiple of stream word size
  if align then roundUpUint bits (wsize T) else bits

theorem rateBits_lt (T : WordType) (S : Scalar) (bits : UInt32) (align : Bool) :
    rateBits T S bits align < 2 ^ 32 := by
  have hbits := bits.toNat_lt
  cases align with
  | true => exact roundUpUint_lt _ _
  | false => cases S <;> simp only [rateBits, Bool.false_eq_true, if_false] <;> omega

def zfpStreamSetRate (T : WordType) (S : Scalar) (bits : UInt32) (align : Bool) : Params where
  minbits := rateBits T S bits align
  maxbits := rateBits T S bits align
  maxprec := ZFP_MAX_PREC
  minexp := ZFP_MIN_EXP
  minbits_le := Nat.le_refl _
  maxbits_lt := rateBits_lt T S bits align
  maxprec_pos := by decide
  maxprec_le := by decide

def zfpStreamSetPrecision (precision : UInt32) : Params where
  minbits := ZFP_MIN_BITS
  maxbits := ZFP_MAX_BITS
  maxprec := if precision.toNat ≠ 0 then min precision.toNat ZFP_MAX_PREC else ZFP_MAX_PREC
  minexp := ZFP_MIN_EXP
  minbits_le := by decide
  maxbits_lt := by decide
  maxprec_pos := by
    have hpos : 0 < ZFP_MAX_PREC := by decide
    split_ifs <;> omega
  maxprec_le := by
    have hle : ZFP_MAX_PREC = 64 := rfl
    split_ifs <;> omega

def zfpStreamSetAccuracy (emin : ℤ) : Params := { zfpStreamOpen with minexp := emin }

/-! ## The store -/

structure BlockStore (T : WordType) (I : Type) where
  /-- array dimensions -/
  size : ℕ → ℕ
  /-- compressed data size -/
  bytes : ℕ
  /-- block index (size and offset) -/
  index : I
  /-- compression codec: its parameters and its bit stream -/
  zfp : Params
  stream : Bitstream T

inductive Config
  | null
  | fixedRate (bits : UInt32) (align : Bool)
  | fixedPrecision (precision : UInt32)
  | fixedAccuracy (emin : ℤ) (h : ZFP_MIN_EXP ≤ emin)
  | reversible
  | expert (minbits maxbits maxprec : UInt32) (minexp : ℤ)

inductive Input (S : Scalar)
  | block (p : ℕ → BitVec S.width)
  | strided (mem : ℤ → BitVec S.width) (p : ℤ) (stride : ℕ → ℤ)

def Input.source (d : ℕ) (size : ℕ → ℕ) (i : ℕ) : Input S → Source S
  | .block p => .block (ArrayBlocks.blockShape d size i) p
  | .strided mem p stride => .strided (ArrayBlocks.blockShape d size i) mem p stride

structure ArrayData (S : Scalar) where
  memory : BitVec 64 → BitVec S.width
  p : BitVec 64

namespace BlockStore

def setSize (d : ℕ) (n : ℕ → ℕ) : ℕ → ℕ := if ∃ a < d, n a = 0 then fun _ => 0 else n

def blocks (d : ℕ) (size : ℕ → ℕ) : ℕ := sizeT (total (ArrayBlocks.blockSize size) d)

def field (S : Scalar) (d : ℕ) (size : ℕ → ℕ) : Field where
  type := some S
  nx := if 0 < d then size 0 else 0
  ny := if 1 < d then size 1 else 0
  nz := if 2 < d then size 2 else 0
  nw := if 3 < d then size 3 else 0
  sx := 0
  sy := 0
  sz := 0
  sw := 0

/-- conservative buffer size for current codec settings -/
def bufferSize (T : WordType) (S : Scalar) (d : ℕ) (size : ℕ → ℕ) (zfp : Params) : ℕ :=
  let field := field S d size
  -- empty field case
  if field.nx = 0 ∧ field.ny = 0 ∧ field.nz = 0 ∧ field.nw = 0 then 0
  -- variable-rate case
  else if zfpStreamCompressionMode zfp ≠ .fixedRate then zfpStreamMaximumSize T zfp field
  -- fixed-rate case: exclude header
  else roundUp (zfpFieldBlocks field * zfp.maxbits % 2 ^ 64) (wsize T) / 8

section

variable (S) (d) (X : IndexOps I)

def alloc (st : BlockStore T I) : BlockStore T I :=
  { st with bytes := bufferSize T S d st.size st.zfp, stream := streamOpen fun _ => 0 }

/-- clear store and reallocate memory for buffer -/
def clear (st : BlockStore T I) : BlockStore T I :=
  alloc S d { st with index := X.clear st.index }

def setVariableRate (st : BlockStore T I) : Except String (BlockStore T I) :=
  if X.hasVariableRate then .ok st else .error "zfp index does not support variable rate"

def setReversible (st : BlockStore T I) : Except String (BlockStore T I) :=
  (setVariableRate X st).map fun st => clear S d X { st with zfp := zfpStreamSetReversible }

def setRate (st : BlockStore T I) (bits : UInt32) (align : Bool) :
    Except String (BlockStore T I) :=
  let zfp := zfpStreamSetRate T S bits align
  (X.setAllSizes st.index (BitVec.ofNat 64 zfp.maxbits)).map fun index =>
    alloc S d { st with zfp := zfp, index := index }

def setPrecision (st : BlockStore T I) (precision : UInt32) : Except String (BlockStore T I) :=
  (setVariableRate X st).map fun st => clear S d X { st with zfp := zfpStreamSetPrecision precision }

def setAccuracy (st : BlockStore T I) (emin : ℤ) : Except String (BlockStore T I) :=
  (setVariableRate X st).map fun st => clear S d X { st with zfp := zfpStreamSetAccuracy emin }

/-- set expert mode compression parameters; parameters that the codec refuses leave the old ones -/
def setParams (st : BlockStore T I) (minbits maxbits maxprec : UInt32) (minexp : ℤ) :
    Except String (BlockStore T I) :=
  (if minbits ≠ maxbits then setVariableRate X st else .ok st).map fun st =>
    clear S d X { st with zfp := (zfpStreamSetParams minbits maxbits maxprec minexp).getD st.zfp }

def setConfig (st : BlockStore T I) : Config → Except String (BlockStore T I)
  | .reversible => setReversible S d X st
  | .fixedRate bits align => setRate S d X st bits align
  | .fixedPrecision precision => setPrecision S d X st precision
  | .fixedAccuracy emin _ => setAccuracy S d X st emin
  | .expert minbits maxbits maxprec minexp => setParams S d X st minbits maxbits maxprec minexp
  | .null => .error "zfp compression mode not supported by array"

def create (T : WordType) (garbage : I) (n : ℕ → ℕ) : BlockStore T I where
  size := setSize d n
  bytes := 0
  index := X.resize (X.new garbage 0) (blocks d (setSize d n))
  zfp := zfpStreamOpen
  stream := streamOpen fun _ => 0

end

section

variable (X : IndexOps I) (ops : FloatOps S (4 ^ d))

def offset (st : BlockStore T I) (i : ℕ) : ℕ := (X.blockOffset st.index i).toNat

def encode (st : BlockStore T I) (i : ℕ) (input : Input S) : Except String (ℕ × BlockStore T I) :=
  let r := encodeSource ops st.zfp st.stream (st.offset X i) (input.source d st.size i)
  (X.setBlockSize st.index i (BitVec.ofNat 64 r.1)).map fun index =>
    (r.1, { st with stream := r.2, index := index })

def decode (st : BlockStore T I) (i : ℕ) (block : ℕ → BitVec S.width) :
    ℕ × Bitstream T × (ℕ → BitVec S.width) :=
  decodeBlock ops st.zfp st.stream (st.offset X i) (ArrayBlocks.blockShape d st.size i) block

def decodeStrided (st : BlockStore T I) (i : ℕ) (mem : ℤ → BitVec S.width) (p : ℤ)
    (stride : ℕ → ℤ) : ℕ × Bitstream T × (ℤ → BitVec S.width) :=
  decodeBlockStrided ops st.zfp st.stream (st.offset X i) (ArrayBlocks.blockShape d st.size i)
    mem p stride

def flush (st : BlockStore T I) : Except String (BlockStore T I) :=
  (X.flush st.index).map fun index => { st with index := index }

/-- shrink buffer to match size of compressed data; the memory behind the new buffer is taken from
`fresh` -/
def compact (fresh : ℕ → BitVec (wsize T)) (st : BlockStore T I) : BlockStore T I :=
  let size := roundUp (X.range st.index).toNat (wsize T) / 8
  if st.bytes > size then
    { st with
      bytes := size
      stream := streamOpen fun w => if w * wsize T < 8 * size then st.stream.mem w else fresh w }
  else st

def encodeNext (i : ℕ) (input : Input S) (w : Except String (BlockStore T I × List (ℕ × ℕ))) :
    Except String (BlockStore T I × List (ℕ × ℕ)) :=
  w >>= fun w => (w.1.encode X ops i input).map fun r => (r.2, w.2 ++ [(w.1.offset X i, r.1)])

def encodeAll (st : BlockStore T I) (input : ℕ → Input S) (n : ℕ) :
    Except String (BlockStore T I × List (ℕ × ℕ)) :=
  (List.range n).foldl (fun w i => encodeNext X ops i (input i) w) (.ok (st, []))

def blockAt (memory : BitVec 64 → BitVec S.width) (size : ℕ → ℕ) (q : BitVec 64) : Input S :=
  .strided (fun x => memory (ArrayBlocks.addr (BitVec.ofNat 64 (S.width / 8)) q x)) 0
    fun a => (ArrayBlocks.stride size a).toInt

/-- initialize array by copying and compressing data, or with zeros where there is none -/
def set (fresh : ℕ → BitVec (wsize T)) (st : BlockStore T I) (data : Option (ArrayData S))
    (compact : Bool) : Except String (BlockStore T I) :=
  let st := clear S d X st
  let w :=
    match data with
    -- compress data stored at p
    | some data => ArrayBlocks.traverse
        (fun i q => encodeNext X ops i (blockAt data.memory st.size q)) st.size
        (BitVec.ofNat 64 (S.width / 8)) d data.p (.ok (st, []))
    -- zero-initialize array
    | none => encodeAll X ops st (fun _ => .block fun _ => 0) (blocks d st.size)
  w >>= fun w => (w.1.flush X).map fun st => if compact then st.compact X fresh else st

inductive Op (S : Scalar)
  | config (c : Config)
  | encode (i : ℕ) (input : Input S)
  | flush

def step (st : BlockStore T I) : Op S → Except String (BlockStore T I)
  | .config c => setConfig S d X st c
  | .encode i input => (st.encode X ops i input).map Prod.snd
  | .flush => st.flush X

def run (st : BlockStore T I) : List (Op S) → Except String (BlockStore T I)
  | [] => .ok st
  | op :: rest => step X ops st op >>= fun st => run st rest

end

end BlockStore

/-! ## What a configuration does -/

def Config.params (T : WordType) (S : Scalar) (zfp : Params) : Config → Params
  | .null => zfp
  | .fixedRate bits align => zfpStreamSetRate T S bits align
  | .fixedPrecision precision => zfpStreamSetPrecision precision
  | .fixedAccuracy emin _ => zfpStreamSetAccuracy emin
  | .reversible => zfpStreamSetReversible
  | .expert minbits maxbits maxprec minexp =>
    (zfpStreamSetParams minbits maxbits maxprec minexp).getD zfp

/-- The expert configuration does not tell the index the size of a block. -/
def Config.IsExpert : Config → Prop
  | .expert _ _ _ _ => True
  | _ => False

namespace BlockStore

/-- A configuration that is accepted: the index was told the size of a block, or it was cleared
because it supports a variable rate or because the configuration is an expert one. -/
structure Configured (S : Scalar) (d : ℕ) (X : IndexOps I) (st t : BlockStore T I) (c : Config) :
    Prop where
  size : t.size = st.size
  zfp : t.zfp = c.params T S st.zfp
  bytes : t.bytes = bufferSize T S d t.size t.zfp
  stream : t.stream = streamOpen fun _ => 0
  index : X.setAllSizes st.index (BitVec.ofNat 64 t.zfp.maxbits) = .ok t.index ∧
      t.zfp.minbits = t.zfp.maxbits ∨
    t.index = X.clear st.index ∧ (X.hasVariableRate = true ∨ c.IsExpert)

theorem setVariableRate_ok {X : IndexOps I} {st t : BlockStore T I}
    (h : setVariableRate X st = .ok t) : t = st ∧ X.hasVariableRate = true := by
  rw [setVariableRate] at h
  split at h
  · exact ⟨(Except.ok.inj h).symm, by assumption⟩
  · cases h

/-- The three modes that need a variable rate. -/
theorem configured_variable {X : IndexOps I} {st t : BlockStore T I} {c : Config}
    (h : (setVariableRate X st).map (fun st => clear S d X { st with zfp := c.params T S st.zfp }) =
      .ok t) : Configured S d X st t c := by
  obtain ⟨u, hu, rfl⟩ := (map_eq_ok_iff _ _ _).mp h
  obtain ⟨rfl, hrate⟩ := setVariableRate_ok hu
  exact ⟨rfl, rfl, rfl, rfl, .inr ⟨rfl, .inl hrate⟩⟩

theorem setConfig_ok {X : IndexOps I} {st t : BlockStore T I} {c : Config}
    (h : setConfig S d X st c = .ok t) : Configured S d X st t c := by
  cases c with
  | null => cases h
  | fixedRate bits align =>
    obtain ⟨index, hindex, rfl⟩ := (map_eq_ok_iff _ _ _).mp h
    exact ⟨rfl, rfl, rfl, rfl, .inl ⟨hindex, rfl⟩⟩
  | fixedPrecision precision => exact configured_variable (c := .fixedPrecision precision) h
  | fixedAccuracy emin hemin => exact configured_variable (c := .fixedAccuracy emin hemin) h
  | reversible => exact configured_variable (c := .reversible) h
  | expert minbits maxbits maxprec minexp =>
    obtain ⟨u, hu, rfl⟩ := (map_eq_ok_iff _ _ _).mp h
    have hst : u = st := by
      split at hu
      · exact (setVariableRate_ok hu).1
      · exact (Except.ok.inj hu).symm
    subst hst
    exact ⟨rfl, rfl, rfl, rfl, .inr ⟨rfl, .inr trivial⟩⟩

end BlockStore

end Zfp

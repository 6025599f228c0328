import Zfp.BlockLockstep
import Zfp.Field

/-!
# The header

A header holds, as its mask selects, a magic word, the metadata of the field and the mode word.
What `zfp_write_header` writes, `zfp_read_header` reads back, at every bit offset.
-/

namespace Zfp
open BitLists Bitstream

variable {T : WordType}

def ZFP_HEADER_MAGIC : ℕ := 0x1
def ZFP_HEADER_META : ℕ := 0x2
def ZFP_HEADER_MODE : ℕ := 0x4

def ZFP_MAGIC_BITS : ℕ := 32

def zfpCodecVersion : ℕ := 5

/-- The four bytes of the magic word: the letters of the name and the codec version. -/
def magic : List ℕ := [122, 102, 112, zfpCodecVersion]

def writeMagic (s : Bitstream T) : Bitstream T :=
  magic.foldl (fun s c => (streamWriteBits s (BitVec.ofNat 64 c) 8).2) s

/-- Read the magic word up to the first byte that differs. -/
def readMagic (s : Bitstream T) : List ℕ → Bool × Bitstream T
  | [] => (true, s)
  | c :: l =>
    let r := streamReadBits s 8
    if r.1 ≠ BitVec.ofNat 64 c then (false, r.2) else readMagic r.2 l

/-- write header; the number of bits written is zero upon failure -/
def zfpWriteHeader (zfp : Params) (s : Bitstream T) (field : Field) (mask : ℕ) :
    ℕ × Bitstream T :=
  let word := if mask &&& ZFP_HEADER_META ≠ 0 then zfpFieldMetadata field else 0
  -- first make sure field dimensions fit in header
  if mask &&& ZFP_HEADER_META ≠ 0 ∧ word = ZFP_META_NULL then (0, s)
  else
    let r := if mask &&& ZFP_HEADER_MAGIC ≠ 0 then (ZFP_MAGIC_BITS, writeMagic s) else (0, s)
    let r := if mask &&& ZFP_HEADER_META ≠ 0 then
        (r.1 + ZFP_META_BITS, (streamWriteBits r.2 word ZFP_META_BITS).2)
      else r
    if mask &&& ZFP_HEADER_MODE ≠ 0 then
      let mode := zfpStreamMode zfp
      let size := if mode.toNat > ZFP_MODE_SHORT_MAX then ZFP_MODE_LONG_BITS else ZFP_MODE_SHORT_BITS
      (r.1 + size, (streamWriteBits r.2 mode size).2)
    else r

/-- The mode word at the start of a stream, and its length. -/
def readMode (s : Bitstream T) : BitVec 64 × ℕ × Bitstream T :=
  let r := streamReadBits s ZFP_MODE_SHORT_BITS
  if r.1.toNat > ZFP_MODE_SHORT_MAX then
    let size := ZFP_MODE_LONG_BITS - ZFP_MODE_SHORT_BITS
    let q := streamReadBits r.2 size
    (r.1 + q.1 <<< ZFP_MODE_SHORT_BITS, ZFP_MODE_SHORT_BITS + size, q.2)
  else (r.1, ZFP_MODE_SHORT_BITS, r.2)

/-- read header; the number of bits read is zero upon failure -/
def zfpReadHeader (zfp : Params) (s : Bitstream T) (field : Field) (mask : ℕ) :
    ℕ × Params × Bitstream T × Field :=
  let m := if mask &&& ZFP_HEADER_MAGIC ≠ 0 then readMagic s magic else (true, s)
  if m.1 = false then (0, zfp, m.2, field)
  else
    let bits := if mask &&& ZFP_HEADER_MAGIC ≠ 0 then ZFP_MAGIC_BITS else 0
    let r := if mask &&& ZFP_HEADER_META ≠ 0 then
        let word := streamReadBits m.2 ZFP_META_BITS
        (zfpFieldSetMetadata word.1, bits + ZFP_META_BITS, word.2)
      else (some field, bits, m.2)
    match r.1 with
    | none => (0, zfp, r.2.2, field)
    | some field =>
      if mask &&& ZFP_HEADER_MODE ≠ 0 then
        let mode := readMode r.2.2
        let q := zfpStreamSetMode zfp mode.1
        if q.1 = .null then (0, q.2, mode.2.2, field)
        else (r.2.1 + mode.2.1, q.2, mode.2.2, field)
      else (r.2.1, zfp, r.2.2, field)

/-! ## What is written -/

def magicCode : List Bool := magic.flatMap fun c => lowBits (BitVec.ofNat 64 c) 8

def modeCode (zfp : Params) : List Bool :=
  lowBits (zfpStreamMode zfp) (if (zfpStreamMode zfp).toNat > ZFP_MODE_SHORT_MAX then
    ZFP_MODE_LONG_BITS else ZFP_MODE_SHORT_BITS)

def headerCode (zfp : Params) (field : Field) (mask : ℕ) : List Bool :=
  (if mask &&& ZFP_HEADER_MAGIC ≠ 0 then magicCode else []) ++
    ((if mask &&& ZFP_HEADER_META ≠ 0 then lowBits (zfpFieldMetadata field) ZFP_META_BITS else []) ++
      if mask &&& ZFP_HEADER_MODE ≠ 0 then modeCode zfp else [])

theorem writeMagic_eq {s : Bitstream T} (hs : s.WF) : writeMagic s = s.append magicCode := by
  rw [writeMagic, magicCode]
  generalize magic = l
  induction l generalizing s with
  | nil => rfl
  | cons c l ih =>
    rw [List.foldl_cons, List.flatMap_cons, append_append, streamWriteBits_eq hs _ (by decide)]
    exact ih (hs.append _)

theorem length_magicCode : magicCode.length = ZFP_MAGIC_BITS := by decide

theorem length_modeCode (zfp : Params) : (modeCode zfp).length =
    if (zfpStreamMode zfp).toNat > ZFP_MODE_SHORT_MAX then ZFP_MODE_LONG_BITS
    else ZFP_MODE_SHORT_BITS := by
  rw [modeCode, length_lowBits]

theorem zfpWriteHeader_eq (zfp : Params) {s : Bitstream T} (hs : s.WF) {field : Field} {mask : ℕ}
    (h : mask &&& ZFP_HEADER_META ≠ 0 → zfpFieldMetadata field ≠ ZFP_META_NULL) :
    zfpWriteHeader zfp s field mask =
      ((headerCode zfp field mask).length, s.append (headerCode zfp field mask)) := by
  have hmeta := fun l => streamWriteBits_eq (hs.append l) (zfpFieldMetadata field)
    (show ZFP_META_BITS ≤ 64 by decide)
  have hsize : (if (zfpStreamMode zfp).toNat > ZFP_MODE_SHORT_MAX then ZFP_MODE_LONG_BITS
      else ZFP_MODE_SHORT_BITS) ≤ 64 := by
    split <;> decide
  have hmode := fun l => streamWriteBits_eq (hs.append l) (zfpStreamMode zfp) hsize
  have hnil : s = s.append [] := rfl
  rw [zfpWriteHeader, headerCode, List.length_append, List.length_append, append_append,
    append_append]
  dsimp only
  rw [if_neg fun hn => h hn.1 (by rw [← hn.2, if_pos hn.1])]
  -- one step for each part of the header
  have hfirst : (if mask &&& ZFP_HEADER_MAGIC ≠ 0 then (ZFP_MAGIC_BITS, writeMagic s) else (0, s)) =
      ((if mask &&& ZFP_HEADER_MAGIC ≠ 0 then magicCode else []).length,
        s.append (if mask &&& ZFP_HEADER_MAGIC ≠ 0 then magicCode else [])) := by
    split
    · rw [writeMagic_eq hs, length_magicCode]
    · rfl
  rw [hfirst]
  generalize (if mask &&& ZFP_HEADER_MAGIC ≠ 0 then magicCode else []) = l
  dsimp only
  by_cases hm : mask &&& ZFP_HEADER_META ≠ 0
  · rw [if_pos hm, if_pos hm, if_pos hm, hmeta, length_lowBits]
    dsimp only
    rw [← append_append]
    by_cases hd : mask &&& ZFP_HEADER_MODE ≠ 0
    · rw [if_pos hd, if_pos hd, hmode, length_modeCode, Nat.add_assoc, modeCode]
    · rw [if_neg hd, if_neg hd]
      rfl
  · rw [if_neg hm, if_neg hm]
    by_cases hd : mask &&& ZFP_HEADER_MODE ≠ 0
    · rw [if_pos hd, if_pos hd, hmode, length_modeCode, modeCode]
      simp
    · rw [if_neg hd, if_neg hd]
      rfl

/-! ## What is read -/

theorem streamReadBits_word {r : Bitstream T} {o n : ℕ} {v : BitVec 64} (hn : n ≤ 64)
    (hv : v.toNat < 2 ^ n) (h : Reads (memBit r.mem) o (lowBits v n)) :
    streamReadBits (streamRseek r o) n = (v, streamRseek r (o + n)) := by
  rw [streamReadBits_rseek r o hn, fieldAt_of_reads h hv]

theorem readMagic_rseek {r : Bitstream T} {l : List ℕ} (hl : ∀ c ∈ l, c < 2 ^ 8) {o : ℕ}
    (h : Reads (memBit r.mem) o (l.flatMap fun c => lowBits (BitVec.ofNat 64 c) 8)) :
    readMagic (streamRseek r o) l = (true, streamRseek r (o + 8 * l.length)) := by
  induction l generalizing o with
  | nil => rfl
  | cons c l ih =>
    rw [List.flatMap_cons, reads_append, length_lowBits] at h
    have hread := streamReadBits_field (by decide) (hl c List.mem_cons_self) h.1
    rw [readMagic, hread]
    dsimp only
    rw [if_neg (not_not.mpr rfl), ih (fun c' hc => hl c' (List.mem_cons_of_mem _ hc)) h.2,
      List.length_cons, Nat.mul_succ, Nat.add_assoc, Nat.add_comm 8]

/-- Words that agree modulo `2 ^ n` have the same low bits. -/
theorem lowBits_eq_of_mod {v u : BitVec 64} {n : ℕ} (h : v.toNat % 2 ^ n = u.toNat % 2 ^ n) :
    lowBits v n = lowBits u n := by
  refine lowBits_congr fun i hi => ?_
  have hbit := congrArg (fun m => m.testBit i) h
  simp only [Nat.testBit_mod_two_pow, decide_eq_true hi, Bool.true_and, BitVec.testBit_toNat] at hbit
  exact hbit

theorem readMode_rseek {r : Bitstream T} {o : ℕ} {p : Params} (hlow : -2 ^ 31 ≤ p.minexp)
    (hhigh : p.minexp ≤ 2 ^ 31 - 1 - 16495) (h : Reads (memBit r.mem) o (modeCode p)) :
    readMode (streamRseek r o) =
      (zfpStreamMode p, (modeCode p).length, streamRseek r (o + (modeCode p).length)) := by
  have hlen := length_modeCode p
  rw [modeCode] at h
  rw [readMode]
  by_cases hs : (zfpStreamMode p).toNat > ZFP_MODE_SHORT_MAX
  · rw [if_pos hs] at h hlen
    have hlong : (zfpStreamMode p).toNat % 2 ^ 12 = 0xfff := by
      rcases zfpStreamMode_cases p with ⟨-, hb, hval⟩ | ⟨-, hval⟩ | ⟨-, hexp, hval⟩ | ⟨-, hval⟩ |
        ⟨-, heq⟩
      · rw [hval, ZFP_MODE_SHORT_MAX, ZFP_MODE_SHORT_BITS] at hs
        omega
      · have := p.maxprec_le
        rw [hval, ZFP_MODE_SHORT_MAX, ZFP_MODE_SHORT_BITS] at hs
        omega
      · rw [ZFP_MODE_SHORT_MAX, ZFP_MODE_SHORT_BITS] at hs
        omega
      · rw [hval] at hs
        exact absurd hs (by decide)
      · rw [heq]
        exact (modeParams_longMode hlow hhigh).1
    generalize zfpStreamMode p = v at *
    have hsplit : lowBits v ZFP_MODE_LONG_BITS =
        lowBits (BitVec.ofNat 64 0xfff) 12 ++ lowBits (v >>> 12) 52 := by
      rw [← lowBits_eq_of_mod (v := v) (n := 12) (by rw [hlong]; rfl), ← lowBits_add]
      rfl
    rw [hsplit, reads_append, length_lowBits] at h
    have hfirst := streamReadBits_field (by decide) (by decide) h.1
    have hv := v.isLt
    have hrest := streamReadBits_word (by decide) (by rw [toNat_ushiftRight_eq]; omega) h.2
    rw [show ZFP_MODE_SHORT_BITS = 12 from rfl, hfirst]
    dsimp only
    rw [if_pos (by decide), show ZFP_MODE_LONG_BITS - 12 = 52 from rfl, hrest, hlen]
    have hword : BitVec.ofNat 64 0xfff + (v >>> 12) <<< 12 = v := by
      apply BitVec.eq_of_toNat_eq
      rw [BitVec.toNat_add, BitVec.toNat_shiftLeft, toNat_ushiftRight_eq, Nat.shiftLeft_eq,
        BitVec.toNat_ofNat]
      omega
    rw [hword]
    rfl
  · rw [if_neg hs] at h hlen
    generalize zfpStreamMode p = v at *
    have hlt : v.toNat < 2 ^ ZFP_MODE_SHORT_BITS := by
      rw [ZFP_MODE_SHORT_MAX] at hs
      rw [ZFP_MODE_SHORT_BITS] at *
      omega
    rw [streamReadBits_word (by decide) hlt h]
    dsimp only
    rw [if_neg hs, hlen]

theorem zfpReadHeader_rseek {zfp : Params} {field : Field} {mask : ℕ} (zfp' : Params)
    (field' : Field) (hmode : (zfpStreamSetMode zfp' (zfpStreamMode zfp)).1 ≠ .null)
    (hlow : -2 ^ 31 ≤ zfp.minexp) (hhigh : zfp.minexp ≤ 2 ^ 31 - 1 - 16495)
    (hmeta : mask &&& ZFP_HEADER_META ≠ 0 →
      zfpFieldSetMetadata (zfpFieldMetadata field) = some field.contiguous ∧
        (zfpFieldMetadata field).toNat < 2 ^ ZFP_META_BITS)
    {r : Bitstream T} {o : ℕ} (h : Reads (memBit r.mem) o (headerCode zfp field mask)) :
    zfpReadHeader zfp' (streamRseek r o) field' mask =
      ((headerCode zfp field mask).length,
        if mask &&& ZFP_HEADER_MODE ≠ 0 then (zfpStreamSetMode zfp' (zfpStreamMode zfp)).2 else zfp',
        streamRseek r (o + (headerCode zfp field mask).length),
        if mask &&& ZFP_HEADER_META ≠ 0 then field.contiguous else field') := by
  rw [headerCode, reads_append, reads_append] at h
  obtain ⟨hmagic, hm, hd⟩ := h
  rw [headerCode, List.length_append, List.length_append, zfpReadHeader]
  have hfirst : (if mask &&& ZFP_HEADER_MAGIC ≠ 0 then readMagic (streamRseek r o) magic
      else (true, streamRseek r o)) = (true, streamRseek r (o +
        (if mask &&& ZFP_HEADER_MAGIC ≠ 0 then magicCode else []).length)) := by
    split
    · next hon =>
      rw [if_pos hon] at hmagic
      rw [readMagic_rseek (by decide) hmagic, length_magicCode]
      rfl
    · rfl
  have hbits : (if mask &&& ZFP_HEADER_MAGIC ≠ 0 then ZFP_MAGIC_BITS else 0) =
      (if mask &&& ZFP_HEADER_MAGIC ≠ 0 then magicCode else []).length := by
    split
    · exact length_magicCode.symm
    · rfl
  rw [hfirst, hbits]
  generalize (if mask &&& ZFP_HEADER_MAGIC ≠ 0 then magicCode else []).length = n at *
  dsimp only
  rw [if_neg (by decide)]
  by_cases hon : mask &&& ZFP_HEADER_META ≠ 0
  · obtain ⟨hset, hlt⟩ := hmeta hon
    rw [if_pos hon] at hm hd ⊢
    rw [length_lowBits] at hd
    rw [streamReadBits_word (by decide) hlt hm, if_pos hon, length_lowBits]
    dsimp only
    rw [hset]
    dsimp only
    by_cases hon' : mask &&& ZFP_HEADER_MODE ≠ 0
    · rw [if_pos hon'] at hd
      rw [if_pos hon', if_pos hon', if_pos hon', readMode_rseek hlow hhigh hd]
      dsimp only
      rw [if_neg hmode, if_pos hon, Nat.add_assoc, Nat.add_assoc o, Nat.add_assoc o, Nat.add_assoc n]
    · rw [if_neg hon', if_neg hon', if_neg hon', if_pos hon, List.length_nil, Nat.add_zero,
        Nat.add_assoc]
  · rw [if_neg hon] at hm hd ⊢
    rw [List.length_nil, Nat.add_zero] at hd
    rw [if_neg hon, List.length_nil, Nat.zero_add]
    dsimp only
    by_cases hon' : mask &&& ZFP_HEADER_MODE ≠ 0
    · rw [if_pos hon'] at hd
      rw [if_pos hon', if_pos hon', if_pos hon', readMode_rseek hlow hhigh hd]
      dsimp only
      rw [if_neg hmode, if_neg hon, Nat.add_assoc]
    · rw [if_neg hon', if_neg hon', if_neg hon', if_neg hon, List.length_nil, Nat.add_zero]

theorem headerCode_eq_nil_iff (zfp : Params) (field : Field) (mask : ℕ) :
    (headerCode zfp field mask).length = 0 ↔ mask &&& ZFP_HEADER_MAGIC = 0 ∧
      mask &&& ZFP_HEADER_META = 0 ∧ mask &&& ZFP_HEADER_MODE = 0 := by
  have hmode : (modeCode zfp).length ≠ 0 := by
    rw [length_modeCode]
    split <;> decide
  have hmagic : magicCode.length ≠ 0 := by decide
  have hmeta : ZFP_META_BITS ≠ 0 := by decide
  rw [headerCode, List.length_append, List.length_append]
  split_ifs with h1 h2 h3 <;> simp_all

/-- A header that is written is read back: same length, same field, and parameters that encode
every block alike. A field that does not fit is rejected before anything is written. -/
theorem header_round_trip (zfp : Params) (hmin : 1 ≤ zfp.minbits) (hmax : zfp.maxbits ≤ 2 ^ 15)
    (hlow : -16495 ≤ zfp.minexp) (hhigh : zfp.minexp ≤ 16272) (field : Field) (hf : field.Valid)
    (hx : zfpFieldDimensionality field = 1 → field.nx ≤ 2 ^ 32) (mask : ℕ) (zfp' : Params)
    (field' : Field) {s : Bitstream T} (hs : s.WF) (rest : List Bool) :
    let w := zfpWriteHeader zfp s field mask
    let r := (streamFlush (w.2.append rest)).2
    let q := zfpReadHeader zfp' (streamRseek r (streamWtell s)) field' mask
    (mask &&& ZFP_HEADER_META ≠ 0 ∧ zfpFieldMetadata field = ZFP_META_NULL → w = (0, s)) ∧
    (¬ (mask &&& ZFP_HEADER_META ≠ 0 ∧ zfpFieldMetadata field = ZFP_META_NULL) →
      q.1 = w.1 ∧ (w.1 = 0 ↔ mask &&& ZFP_HEADER_MAGIC = 0 ∧ mask &&& ZFP_HEADER_META = 0 ∧
        mask &&& ZFP_HEADER_MODE = 0) ∧
      streamWtell w.2 = streamWtell s + w.1 ∧
      q.2.2.1 = streamRseek r (streamWtell s + w.1) ∧
      (mask &&& ZFP_HEADER_META ≠ 0 → q.2.2.2 = field.contiguous) ∧
      (mask &&& ZFP_HEADER_MODE ≠ 0 → ∀ (T : WordType) (S : Scalar) (d : ℕ)
        (ops : FloatOps S (4 ^ d)) (s : Bitstream T) (block : ℕ → BitVec S.width), d ≤ 4 → s.WF →
        zfpEncodeBlock ops q.2.1 s block = zfpEncodeBlock ops zfp s block)) := by
  intro w r q
  constructor
  · rintro ⟨hon, hnull⟩
    show zfpWriteHeader zfp s field mask = (0, s)
    rw [zfpWriteHeader, if_pos ⟨hon, by rw [if_pos hon, hnull]⟩]
  · intro hfit
    have hmeta : mask &&& ZFP_HEADER_META ≠ 0 → zfpFieldMetadata field ≠ ZFP_META_NULL :=
      fun hon hnull => hfit ⟨hon, hnull⟩
    have hw : w = _ := zfpWriteHeader_eq zfp hs hmeta
    have hreads : Reads (memBit r.mem) (streamWtell s) (headerCode zfp field mask) := by
      have h := reads_flush hs (headerCode zfp field mask ++ rest)
      rw [append_append, reads_append] at h
      rw [show r = (streamFlush (w.2.append rest)).2 from rfl, hw]
      exact h.1
    have hmaxbits := hmin.trans zfp.minbits_le
    obtain ⟨p, hset, hp⟩ := zfpStreamSetMode_mode zfp' hmaxbits (by omega) (by omega)
    have hsame := sameCodes_of_mode hmaxbits (zfp.minbits_le.trans hmax) (by omega) (by omega) hp
    have hq : q = _ := zfpReadHeader_rseek zfp' field'
      (by rw [hset]; exact compressionMode_ne_null p) (by omega) (by omega)
      (fun hon => zfpFieldSetMetadata_metadata hf (hmeta hon) hx) hreads
    rw [hq, hw]
    refine ⟨rfl, headerCode_eq_nil_iff zfp field mask, streamWtell_append hs _, rfl, ?_, ?_⟩
    · intro hon
      exact if_pos hon
    · intro hon T S d ops s block hd hs
      dsimp only
      rw [if_pos hon, hset, zfpEncodeBlock_eq ops p hs hd, zfpEncodeBlock_eq ops zfp hs hd,
        hsame.blockCode_eq hd]

theorem header_round_trip_full :
    let field : Field := ⟨some .double, 33, 401, 0, 0, 0, 0, 0, 0⟩
    let s := streamOpen (T := .uint32) fun _ => 0
    let w := zfpWriteHeader zfpStreamSetReversible s field 0x7
    let r := (streamFlush (w.2.append [true])).2
    (zfpReadHeader zfpStreamSetReversible (streamRseek r (streamWtell s))
      ⟨none, 0, 0, 0, 0, 0, 0, 0, 0⟩ 0x7).1 = w.1 :=
  ((header_round_trip zfpStreamSetReversible (by decide) (by decide) (by decide) (by decide)
    ⟨some .double, 33, 401, 0, 0, 0, 0, 0, 0⟩ ⟨by decide, by decide, by decide, by decide⟩
    (by decide) 0x7 zfpStreamSetReversible ⟨none, 0, 0, 0, 0, 0, 0, 0, 0⟩ (streamOpen_wf _)
    [true]).2 fun h => absurd h.2 (by decide +kernel)).1

end Zfp

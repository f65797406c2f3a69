import SlhaV2.EventLog
import SlhaV2.Learned

/-!
# Weight files of learned projections

A file is a header and the projection, little-endian. The current version adds
a checksum over the header without it and the payload. The loader checks every
field before it reads past it.
-/
namespace SlhaV2.WeightsFile
open ByteBuffer MachineWord CheckedSteps SlhaTile EventLog Learned IeeeFloat

/-- "SLHW". -/
def weightsMagic : ℕ := 0x534C4857

def weightsV1 : ℕ := 1
def weightsVersion : ℕ := 2

/-- Magic, version, dimension, seed, flag and three padding bytes. -/
abbrev commonHeader : ℕ := 4 + 4 + 4 + 8 + 4
abbrev weightsHeader : ℕ := commonHeader + 4

def orError {α : Type} (o : Option α) (msg : String) : Outcome α :=
  o.elim (.error (.err msg)) .ok

def projectionLen (d : ℕ) : Outcome ℕ :=
  orError (checkedMul dC d) "weights: projection element count overflow"

def payloadBytes (d : ℕ) : Outcome ℕ := do
  orError (checkedMul (← projectionLen d) 4) "weights: projection byte count overflow"

def expectedFileSize (header d : ℕ) : Outcome ℕ := do
  orError (checkedAdd header (← payloadBytes d)) "weights: file-size calculation overflow"

/-- FNV-1a over the common header and the payload. -/
def weightsChecksum (common payload : List UInt8) : UInt32 :=
  (common ++ payload).foldl fnvStep fnvOffset

def encodeProjection (p : List Float32) : List UInt8 :=
  p.flatMap fun value => leBytes 4 value.toBits.toNat

/-- The header up to the checksum. -/
def encodeCommon (d : ℕ) (seed : UInt64) (rht : Bool) : List UInt8 :=
  leBytes 4 weightsMagic ++ leBytes 4 weightsVersion ++ leBytes 4 d ++ leBytes 8 seed.toNat ++
    [if rht then 1 else 0] ++ [0, 0, 0]

/-- The index of the first coefficient which is not a number. -/
def firstNonFinite (p : List Float32) : Option ℕ := p.findIdx? fun x => !x.isFinite

def tryToBytes (m : LearnedModel) (seed : UInt64) (rht : Bool) : Outcome (List UInt8) := do
  require (dC < m.d)
    s!"weights: invalid dimension {m.d} (must be greater than D_C={dC})"
  require (m.d < 2 ^ 32) s!"weights: dimension {m.d} does not fit in u32"
  let expected ← projectionLen m.d
  require (m.projection.length = expected)
    s!"weights: projection length mismatch (got {m.projection.length}, expected {expected})"
  require (firstNonFinite m.projection = none)
    s!"weights: non-finite projection value at index {(firstNonFinite m.projection).getD 0}"
  let _capacity ← expectedFileSize weightsHeader m.d
  let out := encodeCommon m.d seed rht ++ leBytes 4 0 ++ encodeProjection m.projection
  let checksum := weightsChecksum (slice out 0 commonHeader) (out.drop weightsHeader)
  return splice out commonHeader (leBytes 4 checksum.toNat)

/-- A little-endian field of a file. -/
def fieldAt (bytes : List UInt8) (offset width : ℕ) : Outcome ℕ := do
  return leNat (← indexRange bytes offset width)

def headerOf (version : ℕ) : Outcome ℕ :=
  if version = weightsV1 then .ok commonHeader
  else if version = weightsVersion then .ok weightsHeader
  else .error (.err (s!"weights: unsupported version {version} " ++
    s!"(supported: {weightsV1} and {weightsVersion})"))

def rhtOf (flag : UInt8) : Outcome Bool :=
  if flag = 0 then .ok false
  else if flag = 1 then .ok true
  else .error (.err s!"weights: invalid RHT flag {flag} (expected 0 or 1)")

/-- Hexadecimal with a prefix, padded to ten characters. -/
def hex10 (x : UInt32) : String :=
  let digits := String.ofList (Nat.toDigits 16 x.toNat)
  "0x" ++ "".pushn '0' (8 - digits.length) ++ digits

/-- Read so many coefficients, from an index on. -/
def readProjection (bytes : List UInt8) (header : ℕ) : ℕ → ℕ → Outcome (List Float32)
  | 0, _ => .ok []
  | n + 1, i => do
      let offset ← wordAdd header (← wordMul i 4)
      let _stop ← wordAdd offset 4
      let value := Float32.ofBits (UInt32.ofNat (← fieldAt bytes offset 4))
      require (value.isFinite = true) s!"weights: non-finite projection value at index {i}"
      return value :: (← readProjection bytes header n (i + 1))

def prefixError {α : Type} (text : String) : Outcome α → Outcome α
  | .error (.err e) => .error (.err (text ++ e))
  | r => r

/-- The fields of a header. -/
structure Header where
  version : ℕ
  size : ℕ
  d : ℕ
  seed : UInt64
  rht : Bool
deriving DecidableEq

/-- The checksum of a current file agrees with its contents. -/
def verifyChecksum (version : ℕ) (bytes : List UInt8) : Outcome Unit :=
  if version = weightsVersion then do
    let stored := UInt32.ofNat (← fieldAt bytes commonHeader 4)
    let calculated := weightsChecksum (← indexRange bytes 0 commonHeader)
      (← indexRange bytes weightsHeader (bytes.length - weightsHeader))
    require (stored = calculated) ("weights: checksum mismatch " ++
      s!"(stored {hex10 stored}, calculated {hex10 calculated})")
  else .ok ()

/-- Everything which is checked before the coefficients are read. -/
def readHeader (bytes : List UInt8) : Outcome Header := do
  require (commonHeader ≤ bytes.length) "weights: truncated header"
  require ((← fieldAt bytes 0 4) = weightsMagic) "weights: bad magic (not an SLHW file)"
  let version ← fieldAt bytes 4 4
  let header ← headerOf version
  require (header ≤ bytes.length) "weights: truncated header"
  let d ← fieldAt bytes 8 4
  require (dC < d) s!"weights: invalid dimension {d} (must be greater than D_C={dC})"
  let seed := UInt64.ofNat (← fieldAt bytes 12 8)
  let rht ← rhtOf (← index bytes 20)
  require ((← indexRange bytes 21 3) = [0, 0, 0]) "weights: non-zero reserved header bytes"
  let expected ← expectedFileSize header d
  require (bytes.length = expected)
    s!"weights: size mismatch (got {bytes.length}, expected {expected})"
  verifyChecksum version bytes
  return ⟨version, header, d, seed, rht⟩

def fromBytes (bytes : List UInt8) : Outcome LearnedModel := do
  let h ← readHeader bytes
  let elements ← projectionLen h.d
  let projection ← readProjection bytes h.size elements 0
  prefixError "weights: " (tryFromProjectionWith projection h.d h.seed h.rht)

theorem fieldAt_eq_ok {bytes : List UInt8} {offset width n : ℕ} :
    fieldAt bytes offset width = .ok n ↔
      offset + width ≤ bytes.length ∧ n = leNat (slice bytes offset width) := by
  unfold fieldAt
  rw [bind_eq_ok]
  constructor
  · rintro ⟨r, hr, hn⟩
    obtain ⟨hle, rfl⟩ := indexRange_eq_ok.mp hr
    exact ⟨hle, (Except.ok.inj hn).symm⟩
  · rintro ⟨hle, rfl⟩
    exact ⟨_, indexRange_of_le hle, rfl⟩

theorem fieldAt_of_le {bytes : List UInt8} {offset width : ℕ}
    (h : offset + width ≤ bytes.length) :
    fieldAt bytes offset width = .ok (leNat (slice bytes offset width)) :=
  fieldAt_eq_ok.mpr ⟨h, rfl⟩

/-- No size in the checked arithmetic overflows for a dimension of four bytes. -/
theorem projectionLen_of_lt {d : ℕ} (hd : d < 2 ^ 32) : projectionLen d = .ok (dC * d) := by
  have hlen : dC * d ≤ maxWord := by
    unfold dC maxWord
    omega
  simp [projectionLen, checkedMul, orError, hlen]

theorem expectedFileSize_of_lt {header d : ℕ} (hh : header ≤ weightsHeader) (hd : d < 2 ^ 32) :
    expectedFileSize header d = .ok (header + dC * d * 4) := by
  have hheader : header ≤ 28 := hh
  have hbytes : dC * d * 4 ≤ maxWord := by
    unfold dC maxWord
    omega
  have hfile : header + dC * d * 4 ≤ maxWord := by
    unfold dC maxWord
    omega
  simp [expectedFileSize, payloadBytes, projectionLen_of_lt hd, checkedMul, checkedAdd, orError,
    hbytes, hfile]

theorem headerOf_eq_ok {version size : ℕ} : headerOf version = .ok size ↔
    (version = weightsV1 ∧ size = commonHeader) ∨
      (version = weightsVersion ∧ size = weightsHeader) := by
  unfold headerOf
  split_ifs with h₁ h₂
  · simp [h₁, eq_comm, weightsV1, weightsVersion]
  · simp [h₂, eq_comm, weightsV1, weightsVersion]
  · simp [h₁, h₂]

theorem headerOf_le {version size : ℕ} (h : headerOf version = .ok size) :
    commonHeader ≤ size ∧ size ≤ weightsHeader := by
  obtain ⟨-, rfl⟩ | ⟨-, rfl⟩ := headerOf_eq_ok.mp h
  · exact ⟨le_rfl, by decide⟩
  · exact ⟨by decide, le_rfl⟩

/-- What a file looks like whose header is accepted. -/
structure Layout (bytes : List UInt8) (h : Header) : Prop where
  magic : leNat (slice bytes 0 4) = weightsMagic
  version : h.version = leNat (slice bytes 4 4)
  size : headerOf h.version = .ok h.size
  dimension : h.d = leNat (slice bytes 8 4)
  wide : dC < h.d
  seed : h.seed = UInt64.ofNat (leNat (slice bytes 12 8))
  flag : ∃ flag, bytes[20]? = some flag ∧ rhtOf flag = .ok h.rht
  reserved : slice bytes 21 3 = [0, 0, 0]
  length : bytes.length = h.size + dC * h.d * 4
  checksum : h.version = weightsVersion → UInt32.ofNat (leNat (slice bytes commonHeader 4)) =
    weightsChecksum (slice bytes 0 commonHeader) (bytes.drop weightsHeader)

theorem verifyChecksum_eq_ok {version : ℕ} {bytes : List UInt8} {u : Unit}
    (hlen : version = weightsVersion → weightsHeader ≤ bytes.length) :
    verifyChecksum version bytes = .ok u ↔
      (version = weightsVersion → UInt32.ofNat (leNat (slice bytes commonHeader 4)) =
        weightsChecksum (slice bytes 0 commonHeader) (bytes.drop weightsHeader)) := by
  unfold verifyChecksum
  split_ifs with hv
  · have h28 : 28 ≤ bytes.length := hlen hv
    have hdrop : (bytes.drop weightsHeader).take (bytes.length - weightsHeader) =
        bytes.drop weightsHeader := List.take_of_length_le (by rw [List.length_drop])
    have hrest : weightsHeader + (bytes.length - weightsHeader) ≤ bytes.length :=
      (Nat.add_sub_of_le h28).le
    rw [fieldAt_of_le h28, indexRange_of_le (le_trans (by decide) h28), indexRange_of_le hrest,
      hdrop]
    simp only [ok_bind, require_eq_ok, hv, true_imp_iff]
    exact Iff.rfl
  · simp [hv]

theorem dimension_lt (bytes : List UInt8) : leNat (slice bytes 8 4) < 2 ^ 32 := by
  have hwidth : (slice bytes 8 4).length ≤ 4 := length_slice_eq.trans_le (min_le_left _ _)
  calc leNat (slice bytes 8 4) < 256 ^ (slice bytes 8 4).length := leNat_lt _
    _ ≤ 256 ^ 4 := Nat.pow_le_pow_right (by decide) hwidth

theorem readHeader_eq_ok {bytes : List UInt8} {h : Header} :
    readHeader bytes = .ok h ↔ Layout bytes h := by
  have hd := dimension_lt bytes
  constructor
  · intro hok
    unfold readHeader at hok
    simp only [bind_eq_ok, require_eq_ok, fieldAt_eq_ok, exists_and_left, exists_const] at hok
    obtain ⟨-, _, ⟨-, rfl⟩, hmagic, _, ⟨-, rfl⟩, size, hsize, -, _, ⟨-, rfl⟩, hwide, _, ⟨-, rfl⟩,
      flag, hflag, rht, hrht, _, hrange, hzero, expected, hexpected, hlen, _, hsum, hret⟩ := hok
    have hbound := headerOf_le hsize
    rw [expectedFileSize_of_lt hbound.2 hd] at hexpected
    have hlength : bytes.length = size + dC * leNat (slice bytes 8 4) * 4 :=
      hlen.trans (Except.ok.inj hexpected).symm
    obtain ⟨-, rfl⟩ := indexRange_eq_ok.mp hrange
    have hwidth : leNat (slice bytes 4 4) = weightsVersion → weightsHeader ≤ bytes.length := by
      intro hv
      have hh : size = weightsHeader := by
        rw [hv] at hsize
        exact (Except.ok.inj hsize).symm
      omega
    cases hret
    exact ⟨hmagic, rfl, hsize, rfl, hwide, rfl, ⟨flag, index_eq_ok.mp hflag, hrht⟩, hzero,
      hlength, (verifyChecksum_eq_ok hwidth).mp hsum⟩
  · intro hl
    obtain ⟨flag, hflag, hrht⟩ := hl.flag
    have hbound := headerOf_le hl.size
    have hlen : 24 ≤ bytes.length := by
      rw [hl.length]
      exact hbound.1.trans (Nat.le_add_right _ _)
    have hwidth : h.version = weightsVersion → weightsHeader ≤ bytes.length := by
      intro hv
      have hh : h.size = weightsHeader := by
        have hs := hl.size
        rw [hv] at hs
        exact (Except.ok.inj hs).symm
      rw [hl.length, hh]
      exact Nat.le_add_right _ _
    have hexp : expectedFileSize h.size h.d = .ok bytes.length := by
      rw [expectedFileSize_of_lt hbound.2 (by rw [hl.dimension]; exact hd), hl.length]
    unfold readHeader
    simp only [bind_eq_ok, require_eq_ok, fieldAt_eq_ok, exists_and_left, exists_const]
    refine ⟨hlen, _, ⟨by omega, rfl⟩, hl.magic, _, ⟨by omega, rfl⟩, h.size, ?_, ?_, _,
      ⟨by omega, rfl⟩, ?_, _, ⟨by omega, rfl⟩, flag, index_eq_ok.mpr hflag, h.rht, hrht, _,
      indexRange_of_le (by omega), hl.reserved, bytes.length, ?_, rfl, (), ?_, ?_⟩
    · exact hl.version ▸ hl.size
    · rw [hl.length]
      exact Nat.le_add_right _ _
    · exact hl.dimension ▸ hl.wide
    · exact hl.dimension ▸ hexp
    · exact hl.version ▸ (verifyChecksum_eq_ok hwidth).mpr hl.checksum
    · rw [← hl.version, ← hl.dimension, ← hl.seed]
      rfl

theorem leBytes_ofNat_leNat {l : List UInt8} (h : l.length = 4) :
    leBytes 4 (UInt32.ofNat (leNat l)).toNat = l := by
  have hlt : leNat l < 2 ^ 32 := (leNat_lt l).trans_eq (by rw [h]; rfl)
  rw [UInt32.toNat_ofNat', Nat.mod_eq_of_lt hlt, leBytes_leNat_of_length h]

theorem encodeProjection_cons (x : Float32) (p : List Float32) :
    encodeProjection (x :: p) = leBytes 4 x.toBits.toNat ++ encodeProjection p := rfl

theorem length_encodeProjection (p : List Float32) :
    (encodeProjection p).length = 4 * p.length := by
  induction p with
  | nil => rfl
  | cons x p ih =>
      rw [encodeProjection_cons, List.length_append, length_leBytes, ih, List.length_cons]
      omega

/-- Reading a coefficient which is a number gives the value whose bytes are there. -/
theorem leBytes_toBits {l : List UInt8} (h : l.length = 4) {x : Float32}
    (hx : x.isFinite = true) :
    Float32.ofBits (UInt32.ofNat (leNat l)) = x ↔ leBytes 4 x.toBits.toNat = l := by
  constructor
  · intro heq
    rw [← heq] at hx ⊢
    rw [toBits_ofBits hx, leBytes_ofNat_leNat h]
  · intro heq
    rw [← heq, u32_roundtrip, Float32.ofBits_toBits]

theorem readProjection_eq_ok {bytes : List UInt8} {header : ℕ} (hmax : bytes.length ≤ maxWord)
    {n i : ℕ} (hle : header + 4 * (i + n) ≤ bytes.length) {p : List Float32} :
    readProjection bytes header n i = .ok p ↔ p.length = n ∧ (∀ x ∈ p, x.isFinite = true) ∧
      encodeProjection p = slice bytes (header + 4 * i) (4 * n) := by
  induction n generalizing i p with
  | zero =>
      have hnil : slice bytes (header + 4 * i) (4 * 0) = [] := List.take_zero
      rw [hnil]
      simp only [readProjection, Except.ok.injEq, List.length_eq_zero_iff]
      constructor
      · rintro rfl
        exact ⟨rfl, by simp, rfl⟩
      · rintro ⟨rfl, -, -⟩
        rfl
  | succ n ih =>
      have hlen : (slice bytes (header + i * 4) 4).length = 4 := length_slice (by omega)
      have hnext : header + 4 * (i + 1 + n) ≤ bytes.length := by omega
      have hjoin : slice bytes (header + 4 * i) (4 * (n + 1)) =
          slice bytes (header + i * 4) 4 ++ slice bytes (header + 4 * (i + 1)) (4 * n) := by
        rw [slice_append_slice (by omega), Nat.mul_comm i 4, Nat.mul_succ, Nat.add_comm (4 * n)]
      unfold readProjection
      rw [wordMul_of_le (by omega), ok_bind, wordAdd_of_le (by omega), ok_bind,
        wordAdd_of_le (by omega), ok_bind, fieldAt_of_le (by omega), ok_bind]
      simp only [bind_eq_ok, require_eq_ok, exists_and_left, exists_const]
      constructor
      · rintro ⟨hfin, q, hq, hp⟩
        cases hp
        obtain ⟨hn, hall, henc⟩ := (ih hnext).mp hq
        refine ⟨congrArg (· + 1) hn, ?_, ?_⟩
        · intro x hx
          rcases List.mem_cons.mp hx with rfl | hx
          · exact hfin
          · exact hall x hx
        · rw [encodeProjection_cons, (leBytes_toBits hlen hfin).mp rfl, henc, hjoin]
      · rintro ⟨hn, hall, henc⟩
        cases p with
        | nil => cases hn
        | cons x p =>
            rw [encodeProjection_cons, hjoin] at henc
            have hx := hall x List.mem_cons_self
            obtain ⟨hhead, htail⟩ := List.append_inj henc (by rw [length_leBytes, hlen])
            have hval := (leBytes_toBits hlen hx).mpr hhead
            have hq := (ih hnext).mpr ⟨Nat.succ.inj hn, fun y hy =>
              hall y (List.mem_cons_of_mem _ hy), htail⟩
            rw [hval]
            exact ⟨hx, p, hq, rfl⟩

theorem Layout.bounds {bytes : List UInt8} {h : Header} (hl : Layout bytes h) :
    h.d < 2 ^ 32 ∧ bytes.length = h.size + 4 * (dC * h.d) ∧ bytes.length ≤ maxWord := by
  have hd : h.d < 2 ^ 32 := by
    rw [hl.dimension]
    exact dimension_lt bytes
  have hsize : h.size ≤ 28 := (headerOf_le hl.size).2
  have hlen : bytes.length = h.size + 128 * h.d * 4 := hl.length
  refine ⟨hd, ?_, ?_⟩
  · unfold dC
    omega
  · unfold maxWord
    omega

/-- A file is accepted exactly when its layout is right and its payload encodes numbers; the
model is then the one these and the header determine. -/
theorem fromBytes_eq_ok {bytes : List UInt8} {m : LearnedModel} :
    fromBytes bytes = .ok m ↔ ∃ h p, Layout bytes h ∧ p.length = dC * h.d ∧
      (∀ x ∈ p, x.isFinite = true) ∧ encodeProjection p = bytes.drop h.size ∧
        m = ofProjection p h.d h.seed h.rht := by
  have hpayload : ∀ h p, Layout bytes h →
      (readProjection bytes h.size (dC * h.d) 0 = .ok p ↔ p.length = dC * h.d ∧
        (∀ x ∈ p, x.isFinite = true) ∧ encodeProjection p = bytes.drop h.size) := by
    intro h p hl
    obtain ⟨-, hlen, hmax⟩ := hl.bounds
    have hdrop : slice bytes (h.size + 4 * 0) (4 * (dC * h.d)) = bytes.drop h.size :=
      List.take_of_length_le (by rw [List.length_drop]; omega)
    rw [readProjection_eq_ok hmax (by rw [hlen, Nat.zero_add]), hdrop]
  have hbuild : ∀ h p, Layout bytes h → p.length = dC * h.d →
      prefixError "weights: " (tryFromProjectionWith p h.d h.seed h.rht) =
        .ok (ofProjection p h.d h.seed h.rht) := by
    intro h p hl hp
    rw [tryFromProjectionWith_ok ((Nat.zero_le _).trans_lt hl.wide) hl.bounds.1 hp]
    rfl
  unfold fromBytes
  simp only [bind_eq_ok]
  constructor
  · rintro ⟨h, hh, elements, helements, p, hp, hm⟩
    have hl := readHeader_eq_ok.mp hh
    rw [projectionLen_of_lt hl.bounds.1] at helements
    cases helements
    obtain ⟨hlen, hfin, henc⟩ := (hpayload h p hl).mp hp
    rw [hbuild h p hl hlen] at hm
    exact ⟨h, p, hl, hlen, hfin, henc, (Except.ok.inj hm).symm⟩
  · rintro ⟨h, p, hl, hlen, hfin, henc, rfl⟩
    exact ⟨h, readHeader_eq_ok.mpr hl, _, projectionLen_of_lt hl.bounds.1, p,
      (hpayload h p hl).mpr ⟨hlen, hfin, henc⟩, hbuild h p hl hlen⟩

/-- The bytes of a file. -/
def encodeFile (d : ℕ) (seed : UInt64) (rht : Bool) (p : List Float32) : List UInt8 :=
  encodeCommon d seed rht ++
    leBytes 4 (weightsChecksum (encodeCommon d seed rht) (encodeProjection p)).toNat ++
      encodeProjection p

theorem length_encodeCommon (d : ℕ) (seed : UInt64) (rht : Bool) :
    (encodeCommon d seed rht).length = commonHeader := by
  simp [encodeCommon]

theorem firstNonFinite_eq_none {p : List Float32} :
    firstNonFinite p = none ↔ ∀ x ∈ p, x.isFinite = true := by
  simp [firstNonFinite, List.findIdx?_eq_none_iff]

theorem tryToBytes_eq_ok {m : LearnedModel} {seed : UInt64} {rht : Bool} {b : List UInt8} :
    tryToBytes m seed rht = .ok b ↔ dC < m.d ∧ m.d < 2 ^ 32 ∧ m.evec.length = dC * m.d ∧
      (∀ x ∈ m.evec, x.isFinite = true) ∧ b = encodeFile m.d seed rht m.evec := by
  have hcommon := length_encodeCommon m.d seed rht
  have hout : ∀ c : List UInt8, c.length = 4 →
      splice (encodeCommon m.d seed rht ++ leBytes 4 0 ++ encodeProjection m.evec) commonHeader c =
        encodeCommon m.d seed rht ++ c ++ encodeProjection m.evec := by
    intro c hc
    rw [List.append_assoc, splice_append_right hcommon.le, hcommon, Nat.sub_self,
      splice_append_left (by rw [hc, length_leBytes]), List.append_assoc]
  have hhead : slice (encodeCommon m.d seed rht ++ leBytes 4 0 ++ encodeProjection m.evec) 0
      commonHeader = encodeCommon m.d seed rht := by
    rw [List.append_assoc, slice_append_left hcommon]
  have htail : (encodeCommon m.d seed rht ++ leBytes 4 0 ++ encodeProjection m.evec).drop
      weightsHeader = encodeProjection m.evec := by
    apply List.drop_left'
    rw [List.length_append, hcommon, length_leBytes]
  unfold tryToBytes LearnedModel.projection
  simp only [bind_eq_ok, require_eq_ok, exists_const, hhead, htail]
  constructor
  · rintro ⟨hwide, hlt, expected, hexpected, hlen, hfin, capacity, -, hb⟩
    rw [projectionLen_of_lt hlt] at hexpected
    cases hexpected
    rw [hout _ (length_leBytes 4 _)] at hb
    exact ⟨hwide, hlt, hlen, firstNonFinite_eq_none.mp hfin, (Except.ok.inj hb).symm⟩
  · rintro ⟨hwide, hlt, hlen, hfin, rfl⟩
    refine ⟨hwide, hlt, dC * m.d, projectionLen_of_lt hlt, hlen, firstNonFinite_eq_none.mpr hfin,
      _, expectedFileSize_of_lt le_rfl hlt, ?_⟩
    rw [hout _ (length_leBytes 4 _)]
    rfl

def flagByte (rht : Bool) : UInt8 := if rht then 1 else 0

theorem rhtOf_eq_ok {flag : UInt8} {rht : Bool} : rhtOf flag = .ok rht ↔ flag = flagByte rht := by
  unfold rhtOf flagByte
  cases rht <;> split_ifs with h₁ h₂ <;> simp_all

theorem encodeCommon_append (d : ℕ) (seed : UInt64) (rht : Bool) (rest : List UInt8) :
    encodeCommon d seed rht ++ rest = leBytes 4 weightsMagic ++ (leBytes 4 weightsVersion ++
      (leBytes 4 d ++ (leBytes 8 seed.toNat ++ ([flagByte rht] ++ ([0, 0, 0] ++ rest))))) := by
  unfold encodeCommon flagByte
  simp only [List.append_assoc]

theorem layout_encodeFile {d : ℕ} (hwide : dC < d) (hd : d < 2 ^ 32) (seed : UInt64) (rht : Bool)
    {p : List Float32} (hp : p.length = dC * d) :
    Layout (encodeFile d seed rht p) ⟨weightsVersion, weightsHeader, d, seed, rht⟩ := by
  have hcommon := length_encodeCommon d seed rht
  obtain ⟨c, hc⟩ : ∃ c, c = weightsChecksum (encodeCommon d seed rht) (encodeProjection p) :=
    ⟨_, rfl⟩
  have hfile : encodeFile d seed rht p = encodeCommon d seed rht ++
      (leBytes 4 c.toNat ++ encodeProjection p) := by
    rw [encodeFile, List.append_assoc, hc]
  have hseed : seed.toNat < 256 ^ 8 := seed.toNat_lt
  constructor
  · rw [hfile, encodeCommon_append, slice_append_left (length_leBytes 4 _)]
    rfl
  · simp [hfile, encodeCommon_append, slice_append_right, slice_append_left, leNat_leBytes_of_lt,
      weightsVersion]
  · rfl
  · simp [hfile, encodeCommon_append, slice_append_right, slice_append_left,
      leNat_leBytes_of_lt (show d < 256 ^ 4 from hd)]
  · exact hwide
  · simp [hfile, encodeCommon_append, slice_append_right, slice_append_left,
      leNat_leBytes_of_lt hseed]
  · refine ⟨flagByte rht, ?_, rhtOf_eq_ok.mpr rfl⟩
    simp [hfile, encodeCommon_append, List.getElem?_append]
  · simp [hfile, encodeCommon_append, slice_append_right]
    rfl
  · rw [hfile, List.length_append, List.length_append, hcommon, length_leBytes,
      length_encodeProjection, hp]
    change commonHeader + (4 + 4 * (dC * d)) = commonHeader + 4 + dC * d * 4
    omega
  · intro _
    have hsum : slice (encodeFile d seed rht p) commonHeader 4 = leBytes 4 c.toNat := by
      rw [hfile, slice_append_right hcommon.le, hcommon, Nat.sub_self,
        slice_append_left (length_leBytes 4 _)]
    have hhead : slice (encodeFile d seed rht p) 0 commonHeader = encodeCommon d seed rht := by
      rw [hfile, slice_append_left hcommon]
    have htail : (encodeFile d seed rht p).drop weightsHeader = encodeProjection p := by
      apply List.drop_left'
      rw [List.length_append, hcommon, length_leBytes]
    rw [hsum, hhead, htail, u32_roundtrip, hc]

theorem slice_singleton {l : List UInt8} {i : ℕ} {b : UInt8} (h : l[i]? = some b) :
    slice l i 1 = [b] := by
  obtain ⟨hi, rfl⟩ := List.getElem?_eq_some_iff.mp h
  rw [slice, List.drop_eq_getElem_cons hi]
  rfl

/-- A current file is determined by what is read from it. -/
theorem Layout.eq_encodeFile {bytes : List UInt8} {h : Header} (hl : Layout bytes h)
    (hv : h.version = weightsVersion) {p : List Float32}
    (hp : encodeProjection p = bytes.drop h.size) :
    bytes = encodeFile h.d h.seed h.rht p := by
  have hsize : h.size = weightsHeader := by
    have hs := hl.size
    rw [hv] at hs
    exact (Except.ok.inj hs).symm
  have hlen : 28 ≤ bytes.length := by
    rw [hl.length, hsize]
    exact Nat.le_add_right _ _
  obtain ⟨flag, hflag, hrht⟩ := hl.flag
  have hfield : ∀ off, off + 4 ≤ 28 → leBytes 4 (leNat (slice bytes off 4)) = slice bytes off 4 :=
    fun off hoff => leBytes_leNat_of_length (length_slice (by omega))
  have hseedlen : (slice bytes 12 8).length = 8 := length_slice (by omega)
  have hseed : leBytes 8 h.seed.toNat = slice bytes 12 8 := by
    have hlt : leNat (slice bytes 12 8) < 2 ^ 64 := (leNat_lt _).trans_eq (by rw [hseedlen]; rfl)
    rw [hl.seed, UInt64.toNat_ofNat', Nat.mod_eq_of_lt hlt, leBytes_leNat_of_length hseedlen]
  have hdim : leBytes 4 h.d = slice bytes 8 4 := by rw [hl.dimension, hfield 8 (by omega)]
  have hcommon : encodeCommon h.d h.seed h.rht = slice bytes 0 commonHeader := by
    have happ := encodeCommon_append h.d h.seed h.rht []
    rw [List.append_nil, List.append_nil, hseed, ← hl.reserved, ← rhtOf_eq_ok.mp hrht,
      ← slice_singleton hflag, hdim, ← hl.magic, hfield 0 (by omega), ← hv, hl.version,
      hfield 4 (by omega)] at happ
    rw [happ]
    simp (disch := decide) only [slice_append_slice]
  have hsum : leBytes 4 (weightsChecksum (encodeCommon h.d h.seed h.rht)
      (encodeProjection p)).toNat = slice bytes commonHeader 4 := by
    rw [hcommon, hp, hsize, ← hl.checksum hv]
    exact leBytes_ofNat_leNat (length_slice hlen)
  have hsplit : bytes = slice bytes 0 weightsHeader ++ bytes.drop weightsHeader :=
    (List.take_append_drop weightsHeader bytes).symm
  rw [encodeFile, hsum, hcommon, slice_append_slice (by decide), hp, hsize]
  exact hsplit

end SlhaV2.WeightsFile

import SlhaV2.AtomicPrograms
import SlhaV2.ElasticFfi
import SlhaV2.HandleRegistries
import SlhaV2.Learned

/-!
# The output buffers of the C interface

Nine calls write to buffers of their caller. Each promises that its output is
not modified on failure. Eight of them check everything before they write;
`slha_score_tiles` stores the score of a tile before it reads the next one. The
score of a tile is a parameter, for it depends on the processor.
-/
namespace SlhaV2.OutputContract
open MachineWord ByteBuffer TileCodec SlotVector FloatingPoint PhysicalCache SlhaTile LatentCodecs
open Learned ElasticFfi AtomicPrograms Incoherence SingleFloat Single CheckedSteps
open HandleRegistries (Process FfiError modelArc cacheArc)

def slhaErrCodec : ℤ := -4

/-- What stands behind the output pointers of a call, from each pointer on. -/
structure Buffers where
  floats : ℕ → F32
  words : ℕ → UInt64
  tile : Tile

/-- The body of a call: an error is a status word, and what was written before it stays. -/
abbrev Ffi := EStateM ℤ Buffers

def ffiStatus (p : Ffi Unit) (b : Buffers) : ℤ × Buffers :=
  match p b with
  | .ok _ b => (slhaOk, b)
  | .error code b => (code, b)

/-- How a tile is scored, in the two crates. -/
structure Kernel where
  computeScore : SciRustSlhaTile → List F32 → List UInt64 → Outcome F32
  tryScore : TryScore

def orNull {α : Type} : Option α → Except ℤ α
  | some a => .ok a
  | none => .error slhaErrNull

def ensure (c : Prop) [Decidable c] (code : ℤ) : Except ℤ Unit :=
  if c then .ok () else .error code

/-- `catch_unwind` gives a panic a status word of its own. -/
def caught {α : Type} : Outcome α → Except ℤ α
  | .ok a => .ok a
  | .error _ => .error slhaErrPanic

def validateFinite (values : List F32) : Except ℤ Unit :=
  ensure (values.all F32.isFinite = true) slhaErrNonfinite

variable {F : Type}

def modelOf (p : Process (ElasticKvCache F) LearnedModel) (model : ℕ) : Except ℤ LearnedModel :=
  (modelArc p model).mapError FfiError.code

def cacheOf (p : Process (ElasticKvCache F) LearnedModel) (handle : ℕ) :
    Except ℤ (ElasticKvCache F) :=
  (cacheArc p handle).mapError FfiError.code

def codecFromInt : ℤ → Option LatentCodec
  | 0 => some .int4Single
  | 1 => some .int4Grouped
  | 2 => some .nf4
  | 3 => some .mixed
  | 4 => some .tq3
  | 5 => some .mix3
  | _ => none

/-- Everything `slha_score_tiles` does with one tile but storing its score. -/
def tileScore (kernel : Kernel) (tile : SciRustSlhaTile) (qCoarse : List F32)
    (qSign : List UInt64) : Except ℤ F32 := do
  validateTile tile
  let score ← caught (kernel.computeScore tile qCoarse qSign)
  ensure (score.isFinite = true) slhaErrNonfinite
  return score

def writeSlice {α : Type} (values : List α) (out : ℕ → α) : ℕ → α := fun i => values.getD i (out i)

def writeFloats (values : List F32) : Ffi Unit :=
  assign fun b => { b with floats := writeSlice values b.floats }

def writeWords (values : List UInt64) : Ffi Unit :=
  assign fun b => { b with words := writeSlice values b.words }

def writeTile (tile : Tile) : Ffi Unit := assign fun b => { b with tile := tile }

/-- Score the tiles one by one; each score is stored before the next tile is read. -/
def storeScores (kernel : Kernel) (tiles : ℕ → SciRustSlhaTile) (nTiles : ℕ) (qCoarse : List F32)
    (qSign : List UInt64) : Ffi Unit :=
  onPart Buffers.floats (fun floats b => { b with floats := floats })
    (storeEach (fun i => tileScore kernel (tiles i) qCoarse qSign) nTiles 0)

/-- The signs of the sketch of a tile, as factors. -/
def sketchSign (tile : SciRustSlhaTile) (s : ℕ) : Float32 :=
  if ((tile.residualBitmap.1.getD (s >>> 6) 0).toNat >>> (s &&& 63)) &&& 1 ≠ 0 then lit (-1)
  else lit 1

/-- One row of the random data, added to the first `d` entries of the key. -/
def addSketchRow (m : LearnedModel) (tile : SciRustSlhaTile) (scale : Float32)
    (key : List Float32) (s : ℕ) : Outcome (List Float32) := do
  let row ← indexRange m.z (s * m.dPad) m.dPad
  (List.range m.d).mapM fun i => do
    return (← index key i) + sketchSign tile s * scale * (← index row i)

def reconstructFromTile (m : LearnedModel) (tile : SciRustSlhaTile) : Outcome (List Float32) := do
  let key ← m.reconstruct (List.ofFn (dequantLatent readF32 tile))
  if m.rht.isSome then return key
  else
    let scale := readF32 tile.residualSigma * (Rng.pi / lit 2).sqrt / ofNat dS
    (List.range dS).foldlM (addSketchRow m tile scale) key

/-- The tile of a slot that can be scored. -/
def residentTile (c : ElasticKvCache F) (slot : ℕ) : Option Tile :=
  match slotAt c.slots slot with
  | none => none
  | some state =>
    match state.tier with
    | .hot | .pinned => tryInto tileBytes state.bytes
    | .warm => (tryInto warmPackedBytes state.bytes).map unpackWarm
    | .cold => none

-- An output pointer is given by whether it is not NULL; what stands behind it is the state.
section Calls
variable (kernel : Kernel) (p : Process (ElasticKvCache F) LearnedModel)

def slhaPrepareQuery (model : ℕ) (q : Option (ℕ → F32)) (d : ℕ) (qCoarse qSign : Bool) :
    Ffi Unit := do
  let q ← check (orNull q)
  check (ensure (qCoarse && qSign) slhaErrNull)
  let m ← check (modelOf p model)
  check (ensure (d = m.d) slhaErrDimension)
  let q := (List.range d).map q
  check (validateFinite q)
  let coarse ← check (caught (m.queryCoarse (q.map readF32)))
  let signs ← check (caught (m.signBits (q.map readF32)))
  check (validateFinite (coarse.map writeF32))
  writeFloats (coarse.map writeF32)
  writeWords signs.1

def slhaScoreTile (model : ℕ) (tile : Option SciRustSlhaTile) (qCoarse : Option (ℕ → F32))
    (qSign : Option (ℕ → UInt64)) (scoreOut : Bool) : Ffi Unit := do
  let tile ← check (orNull tile)
  let qCoarse ← check (orNull qCoarse)
  let qSign ← check (orNull qSign)
  check (ensure scoreOut slhaErrNull)
  let _ ← check (modelOf p model)
  let qCoarse := (List.range dC).map qCoarse
  let qSign := (List.range residualWords).map qSign
  check (validateTile tile)
  check (validateFinite qCoarse)
  let score ← check (caught (kernel.computeScore tile qCoarse qSign))
  check (ensure (score.isFinite = true) slhaErrNonfinite)
  writeFloats [score]

def slhaScoreTiles (model : ℕ) (tiles : Option (ℕ → SciRustSlhaTile)) (nTiles : ℕ)
    (qCoarse : Option (ℕ → F32)) (qSign : Option (ℕ → UInt64)) (scoresOut : Bool) :
    Ffi Unit := do
  let tiles ← check (orNull tiles)
  let qCoarse ← check (orNull qCoarse)
  let qSign ← check (orNull qSign)
  check (ensure scoresOut slhaErrNull)
  let _ ← check (modelOf p model)
  check (ensure (nTiles ≤ maxTiles) slhaErrDimension)
  if nTiles = 0 then return ()
  else
    let qCoarse := (List.range dC).map qCoarse
    let qSign := (List.range residualWords).map qSign
    check (validateFinite qCoarse)
    storeScores kernel tiles nTiles qCoarse qSign

def slhaEncodeKey (model : ℕ) (key : Option (ℕ → F32)) (d : ℕ) (pos : UInt32) (codec : ℤ)
    (outTile : Bool) : Ffi Unit := do
  let key ← check (orNull key)
  check (ensure outTile slhaErrNull)
  let m ← check (modelOf p model)
  check (ensure (d = m.d) slhaErrDimension)
  let codec ← check ((codecFromInt codec).elim (.error slhaErrCodec) .ok)
  let key := (List.range d).map key
  check (validateFinite key)
  let tile ← check (caught (m.encodeWith (key.map readF32) pos false codec))
  check (validateTile tile)
  writeTile (tileToBytes tile)

def slhaDecodeLatent (model : ℕ) (tile : Option SciRustSlhaTile) (out : Bool) (d : ℕ) :
    Ffi Unit := do
  let tile ← check (orNull tile)
  check (ensure out slhaErrNull)
  let m ← check (modelOf p model)
  check (ensure (d = m.d) slhaErrDimension)
  check (validateTile tile)
  let latent := List.ofFn (dequantLatent readF32 tile)
  check (validateFinite (latent.map writeF32))
  let reconstruction ← check (caught (m.reconstruct latent))
  check (ensure (reconstruction.length = d) slhaErrDimension)
  check (validateFinite (reconstruction.map writeF32))
  writeFloats (reconstruction.map writeF32)

def slhaDecodeKey (model : ℕ) (tile : Option SciRustSlhaTile) (out : Bool) (d : ℕ) :
    Ffi Unit := do
  let tile ← check (orNull tile)
  check (ensure out slhaErrNull)
  let m ← check (modelOf p model)
  check (ensure (d = m.d) slhaErrDimension)
  check (validateTile tile)
  let reconstruction ← check (caught (reconstructFromTile m tile))
  check (ensure (reconstruction.length = d) slhaErrDimension)
  check (validateFinite (reconstruction.map writeF32))
  writeFloats (reconstruction.map writeF32)

/-- The scores of a range are those of a progression with step one; the step is not checked. -/
def scoreRange (c : ElasticKvCache F) (startSlot count : ℕ) (q : Query)
    (scoresOut reserve : Bool) : Except ℤ (List F32) :=
  if count > maxTiles then .error slhaErrDimension
  else if count = 0 then .ok []
  else if !scoresOut then .error slhaErrNull
  else do
    let q ← readQuery q
    if !reserve then .error slhaErrPanic
    else scoreLoop kernel.tryScore c startSlot 1 q count 0

def slhaElasticCacheScoreRange (handle startSlot count : ℕ) (q : Query)
    (scoresOut reserve : Bool) : Ffi Unit := do
  let c ← check (cacheOf p handle)
  let values ← check (scoreRange kernel c startSlot count q scoresOut reserve)
  writeFloats values

def slhaElasticCacheScoreStrided (handle startSlot stride count : ℕ) (q : Query)
    (scoresOut reserve : Bool) : Ffi Unit := do
  let c ← check (cacheOf p handle)
  let values ← check (ElasticFfi.slhaElasticCacheScoreStrided kernel.tryScore c startSlot stride
    count q scoresOut reserve)
  writeFloats values

def slhaElasticCacheResidentTile (handle slot : ℕ) (outTile : Bool) : Ffi Unit := do
  let c ← check (cacheOf p handle)
  check (ensure outTile slhaErrNull)
  let bytes ← check ((residentTile c slot).elim (.error slhaErrNotResident) .ok)
  writeTile bytes

end Calls

/-- A call with the inputs behind its pointers. -/
inductive Call where
  | prepareQuery (model : ℕ) (q : Option (ℕ → F32)) (d : ℕ) (qCoarse qSign : Bool)
  | scoreTile (model : ℕ) (tile : Option SciRustSlhaTile) (qCoarse : Option (ℕ → F32))
      (qSign : Option (ℕ → UInt64)) (scoreOut : Bool)
  | scoreTiles (model : ℕ) (tiles : Option (ℕ → SciRustSlhaTile)) (nTiles : ℕ)
      (qCoarse : Option (ℕ → F32)) (qSign : Option (ℕ → UInt64)) (scoresOut : Bool)
  | encodeKey (model : ℕ) (key : Option (ℕ → F32)) (d : ℕ) (pos : UInt32) (codec : ℤ)
      (outTile : Bool)
  | decodeLatent (model : ℕ) (tile : Option SciRustSlhaTile) (out : Bool) (d : ℕ)
  | decodeKey (model : ℕ) (tile : Option SciRustSlhaTile) (out : Bool) (d : ℕ)
  | scoreRange (handle startSlot count : ℕ) (q : Query) (scoresOut reserve : Bool)
  | scoreStrided (handle startSlot stride count : ℕ) (q : Query) (scoresOut reserve : Bool)
  | residentTile (handle slot : ℕ) (outTile : Bool)

def Call.body (kernel : Kernel) (p : Process (ElasticKvCache F) LearnedModel) : Call → Ffi Unit
  | .prepareQuery model q d qCoarse qSign => slhaPrepareQuery p model q d qCoarse qSign
  | .scoreTile model tile qCoarse qSign scoreOut =>
      slhaScoreTile kernel p model tile qCoarse qSign scoreOut
  | .scoreTiles model tiles nTiles qCoarse qSign scoresOut =>
      slhaScoreTiles kernel p model tiles nTiles qCoarse qSign scoresOut
  | .encodeKey model key d pos codec outTile => slhaEncodeKey p model key d pos codec outTile
  | .decodeLatent model tile out d => slhaDecodeLatent p model tile out d
  | .decodeKey model tile out d => slhaDecodeKey p model tile out d
  | .scoreRange handle startSlot count q scoresOut reserve =>
      slhaElasticCacheScoreRange kernel p handle startSlot count q scoresOut reserve
  | .scoreStrided handle startSlot stride count q scoresOut reserve =>
      slhaElasticCacheScoreStrided kernel p handle startSlot stride count q scoresOut reserve
  | .residentTile handle slot outTile => slhaElasticCacheResidentTile p handle slot outTile

def Call.run (kernel : Kernel) (p : Process (ElasticKvCache F) LearnedModel) (call : Call)
    (b : Buffers) : ℤ × Buffers :=
  ffiStatus (call.body kernel p) b

section Atomic
variable (kernel : Kernel) (p : Process (ElasticKvCache F) LearnedModel)

theorem atomic_prepareQuery (model : ℕ) (q : Option (ℕ → F32)) (d : ℕ) (qCoarse qSign : Bool) :
    Atomic (slhaPrepareQuery p model q d qCoarse qSign) := by
  unfold slhaPrepareQuery
  iterate 8
    apply atomic_check_bind
    intro _ _
  apply Succeeds.atomic
  apply (succeeds_assign _).bind
  intro _
  exact succeeds_assign _

theorem atomic_scoreTile (model : ℕ) (tile : Option SciRustSlhaTile)
    (qCoarse : Option (ℕ → F32)) (qSign : Option (ℕ → UInt64)) (scoreOut : Bool) :
    Atomic (slhaScoreTile kernel p model tile qCoarse qSign scoreOut) := by
  unfold slhaScoreTile
  iterate 9
    apply atomic_check_bind
    intro _ _
  exact (succeeds_assign _).atomic

theorem atomic_encodeKey (model : ℕ) (key : Option (ℕ → F32)) (d : ℕ) (pos : UInt32) (codec : ℤ)
    (outTile : Bool) : Atomic (slhaEncodeKey p model key d pos codec outTile) := by
  unfold slhaEncodeKey
  iterate 8
    apply atomic_check_bind
    intro _ _
  exact (succeeds_assign _).atomic

theorem atomic_decodeLatent (model : ℕ) (tile : Option SciRustSlhaTile) (out : Bool) (d : ℕ) :
    Atomic (slhaDecodeLatent p model tile out d) := by
  unfold slhaDecodeLatent
  iterate 9
    apply atomic_check_bind
    intro _ _
  exact (succeeds_assign _).atomic

theorem atomic_decodeKey (model : ℕ) (tile : Option SciRustSlhaTile) (out : Bool) (d : ℕ) :
    Atomic (slhaDecodeKey p model tile out d) := by
  unfold slhaDecodeKey
  iterate 8
    apply atomic_check_bind
    intro _ _
  exact (succeeds_assign _).atomic

theorem atomic_scoreRange (handle startSlot count : ℕ) (q : Query) (scoresOut reserve : Bool) :
    Atomic (slhaElasticCacheScoreRange kernel p handle startSlot count q scoresOut reserve) := by
  unfold slhaElasticCacheScoreRange
  iterate 2
    apply atomic_check_bind
    intro _ _
  exact (succeeds_assign _).atomic

theorem atomic_scoreStrided (handle startSlot stride count : ℕ) (q : Query)
    (scoresOut reserve : Bool) : Atomic (slhaElasticCacheScoreStrided kernel p handle startSlot
      stride count q scoresOut reserve) := by
  unfold slhaElasticCacheScoreStrided
  iterate 2
    apply atomic_check_bind
    intro _ _
  exact (succeeds_assign _).atomic

theorem atomic_residentTile (handle slot : ℕ) (outTile : Bool) :
    Atomic (slhaElasticCacheResidentTile p handle slot outTile) := by
  unfold slhaElasticCacheResidentTile
  iterate 3
    apply atomic_check_bind
    intro _ _
  exact (succeeds_assign _).atomic

end Atomic

section Batch
variable {kernel : Kernel} {p : Process (ElasticKvCache F) LearnedModel}

/-- The call gets as far as a first score, and a later tile has none. -/
def Call.FailsLate (kernel : Kernel) (p : Process (ElasticKvCache F) LearnedModel) : Call → Prop
  | .scoreTiles model (some tiles) nTiles (some qCoarse) (some qSign) true =>
      (∃ m, modelOf p model = .ok m) ∧ nTiles ≤ maxTiles ∧
        (∀ i < dC, (qCoarse i).isFinite = true) ∧
        (∃ score, tileScore kernel (tiles 0) ((List.range dC).map qCoarse)
          ((List.range residualWords).map qSign) = .ok score) ∧
        ∃ i < nTiles, ∃ code, tileScore kernel (tiles i) ((List.range dC).map qCoarse)
          ((List.range residualWords).map qSign) = .error code
  | _ => False

/-- Whatever its output buffers hold, they hold it still when the call reports an error. -/
def Call.KeepsOutput (kernel : Kernel) (p : Process (ElasticKvCache F) LearnedModel)
    (call : Call) : Prop :=
  ∀ b, (call.run kernel p b).1 ≠ slhaOk → (call.run kernel p b).2 = b

theorem ensure_eq_ok {c : Prop} [Decidable c] {code : ℤ} {u : Unit} :
    ensure c code = .ok u ↔ c := by
  unfold ensure
  split_ifs with h
  · exact ⟨fun _ => h, fun _ => rfl⟩
  · exact ⟨fun hok => (nomatch hok), fun hc => absurd hc h⟩

theorem validateFinite_eq_ok {q : ℕ → F32} {n : ℕ} {u : Unit} :
    validateFinite ((List.range n).map q) = .ok u ↔ ∀ i < n, (q i).isFinite = true := by
  unfold validateFinite
  rw [ensure_eq_ok, List.all_eq_true]
  constructor
  · intro h i hi
    exact h _ (List.mem_map_of_mem (List.mem_range.mpr hi))
  · intro h x hx
    obtain ⟨i, hi, rfl⟩ := List.mem_map.mp hx
    exact h i (List.mem_range.mp hi)

theorem tileScore_error {tile : SciRustSlhaTile} {qCoarse : List F32} {qSign : List UInt64}
    {code : ℤ} (h : tileScore kernel tile qCoarse qSign = .error code) : code ≠ slhaOk := by
  unfold tileScore at h
  cases hvalid : validateTile tile with
  | error e =>
      rw [hvalid] at h
      cases h
      exact validateTile_error hvalid
  | ok _ =>
      rw [hvalid] at h
      cases hscore : kernel.computeScore tile qCoarse qSign with
      | error e =>
          rw [hscore] at h
          cases h
          decide
      | ok score =>
          rw [hscore] at h
          unfold ensure at h
          cases hfinite : score.isFinite with
          | true =>
              simp only [caught, bind, Except.bind, hfinite, if_true] at h
              cases h
          | false =>
              simp only [caught, bind, Except.bind, hfinite] at h
              cases h
              decide

theorem ffiStatus_snd (q : Ffi Unit) (b : Buffers) : (ffiStatus q b).2 = after q b := by
  unfold ffiStatus after
  cases q b <;> rfl

theorem fails_of_status {q : Ffi Unit} {b : Buffers} (h : (ffiStatus q b).1 ≠ slhaOk) :
    Fails q b := by
  unfold ffiStatus at h
  cases hq : q b with
  | ok _ b' =>
      rw [hq] at h
      exact absurd rfl h
  | error e b' => exact ⟨e, b', hq⟩

theorem Call.keepsOutput_of_atomic {call : Call} (h : Atomic (call.body kernel p)) :
    call.KeepsOutput kernel p := by
  intro b hb
  unfold Call.run at *
  rw [ffiStatus_snd, h b (fails_of_status hb)]

theorem atomic_storeScores_iff {tiles : ℕ → SciRustSlhaTile} {nTiles : ℕ} {qCoarse : List F32}
    {qSign : List UInt64} : Atomic (storeScores kernel tiles nTiles qCoarse qSign) ↔
      (∃ e, tileScore kernel (tiles 0) qCoarse qSign = .error e) ∨
        ∀ i < nTiles, ∃ a, tileScore kernel (tiles i) qCoarse qSign = .ok a := by
  have : Nontrivial F32 := ⟨F32.zero, F32.negInfinity, by decide⟩
  have : Nonempty Buffers := ⟨⟨fun _ => F32.zero, fun _ => 0, zeros tileBytes⟩⟩
  unfold storeScores
  rw [atomic_onPart_iff (fun _ _ => rfl) (fun _ => rfl), atomic_storeEach_iff]

/-- Once its checks succeed, the call is its loop. -/
theorem scoreTiles_of_ready {model nTiles : ℕ} {m : LearnedModel} {tiles : ℕ → SciRustSlhaTile}
    {qCoarse : ℕ → F32} {qSign : ℕ → UInt64} (hmodel : modelOf p model = .ok m)
    (hpos : 0 < nTiles) (hmax : nTiles ≤ maxTiles)
    (hfinite : ∀ i < dC, (qCoarse i).isFinite = true) :
    slhaScoreTiles kernel p model (some tiles) nTiles (some qCoarse) (some qSign) true =
      storeScores kernel tiles nTiles ((List.range dC).map qCoarse)
        ((List.range residualWords).map qSign) := by
  have hcoarse : validateFinite ((List.range dC).map qCoarse) = .ok () :=
    validateFinite_eq_ok.mpr hfinite
  have hcount : ensure (nTiles ≤ maxTiles) slhaErrDimension = .ok () := ensure_eq_ok.mpr hmax
  have hout : ensure (true = true) slhaErrNull = .ok () := rfl
  unfold slhaScoreTiles orNull
  dsimp only
  rw [check_ok_bind, check_ok_bind, check_ok_bind, hout, check_ok_bind, hmodel, check_ok_bind,
    hcount, check_ok_bind, if_neg (Nat.ne_of_gt hpos), hcoarse, check_ok_bind]

theorem atomic_scoreTiles {model : ℕ} {tiles : Option (ℕ → SciRustSlhaTile)} {nTiles : ℕ}
    {qCoarse : Option (ℕ → F32)} {qSign : Option (ℕ → UInt64)} {scoresOut : Bool}
    (h : ¬ (Call.scoreTiles model tiles nTiles qCoarse qSign scoresOut).FailsLate kernel p) :
    Atomic (slhaScoreTiles kernel p model tiles nTiles qCoarse qSign scoresOut) := by
  unfold slhaScoreTiles
  apply atomic_check_bind
  intro tiles' htiles
  apply atomic_check_bind
  intro qCoarse' hqCoarse
  apply atomic_check_bind
  intro qSign' hqSign
  apply atomic_check_bind
  intro _ hout
  apply atomic_check_bind
  intro m hmodel
  apply atomic_check_bind
  intro _ hmax
  split
  · exact (readOnly_pure ()).atomic
  · apply atomic_check_bind
    intro _ hfinite
    rw [validateFinite_eq_ok] at hfinite
    rw [ensure_eq_ok] at hmax hout
    apply atomic_storeScores_iff.mpr
    cases tiles <;> cases htiles
    cases qCoarse <;> cases hqCoarse
    cases qSign <;> cases hqSign
    cases hout
    cases hfirst : tileScore kernel (tiles' 0) ((List.range dC).map qCoarse')
        ((List.range residualWords).map qSign') with
    | error e => exact .inl ⟨e, rfl⟩
    | ok score =>
        apply Or.inr
        intro i hi
        cases hlater : tileScore kernel (tiles' i) ((List.range dC).map qCoarse')
            ((List.range residualWords).map qSign') with
        | ok a => exact ⟨a, rfl⟩
        | error e =>
            exact absurd ⟨⟨m, hmodel⟩, hmax, hfinite, ⟨score, hfirst⟩, i, hi, e, hlater⟩ h

/-- A late failure leaves a score behind. -/
theorem Call.FailsLate.not_keepsOutput {call : Call} (h : call.FailsLate kernel p) :
    ¬ call.KeepsOutput kernel p := by
  intro hkeeps
  unfold Call.FailsLate at h
  split at h
  · rename_i model tiles nTiles qCoarse qSign
    obtain ⟨⟨m, hmodel⟩, hmax, hfinite, ⟨score, hfirst⟩, i, hi, code, hlater⟩ := h
    have hbody : slhaScoreTiles kernel p model (some tiles) nTiles (some qCoarse) (some qSign)
        true = storeScores kernel tiles nTiles ((List.range dC).map qCoarse)
          ((List.range residualWords).map qSign) :=
      scoreTiles_of_ready hmodel (Nat.zero_lt_of_lt hi) hmax hfinite
    have hatomic : Atomic (storeScores kernel tiles nTiles ((List.range dC).map qCoarse)
        ((List.range residualWords).map qSign)) := by
      intro b ⟨e, b', hb⟩
      rw [← ffiStatus_snd, ← hbody]
      apply hkeeps b
      have hcode : e ≠ slhaOk := by
        unfold storeScores onPart at hb
        split at hb
        · cases hb
        · rename_i heach
          cases hb
          obtain ⟨j, hj⟩ := error_of_storeEach heach
          exact tileScore_error hj
      change (ffiStatus (slhaScoreTiles kernel p model (some tiles) nTiles (some qCoarse)
        (some qSign) true) b).1 ≠ slhaOk
      rw [hbody]
      unfold ffiStatus
      rw [hb]
      exact hcode
    rcases atomic_storeScores_iff.mp hatomic with ⟨e, he⟩ | hall
    · rw [hfirst] at he
      cases he
    · obtain ⟨a, ha⟩ := hall i hi
      rw [hlater] at ha
      cases ha
  · exact h

/-- A call keeps its promise about the output exactly when it is no batch that fails late. -/
theorem keepsOutput_iff (call : Call) :
    call.KeepsOutput kernel p ↔ ¬ call.FailsLate kernel p := by
  constructor
  · intro hkeeps hlate
    exact hlate.not_keepsOutput hkeeps
  · intro h
    apply Call.keepsOutput_of_atomic
    cases call with
    | prepareQuery => exact atomic_prepareQuery p _ _ _ _ _
    | scoreTile => exact atomic_scoreTile kernel p _ _ _ _ _
    | scoreTiles => exact atomic_scoreTiles h
    | encodeKey => exact atomic_encodeKey p _ _ _ _ _ _
    | decodeLatent => exact atomic_decodeLatent p _ _ _ _
    | decodeKey => exact atomic_decodeKey p _ _ _ _
    | scoreRange => exact atomic_scoreRange kernel p _ _ _ _ _ _
    | scoreStrided => exact atomic_scoreStrided kernel p _ _ _ _ _ _ _
    | residentTile => exact atomic_residentTile p _ _ _

end Batch

-- The first tile scores zero; the second has a flag nobody knows.
def zeroScores : Kernel where
  computeScore _ _ _ := .ok F32.zero
  tryScore _ _ _ := some F32.zero

def zeroTile : SciRustSlhaTile := tileFromBytes (zeros tileBytes)

def oneModel : Process (ElasticKvCache ℚ) LearnedModel where
  caches := .empty
  models := (Quarantine.Registry.empty.register 8
    (ofProjection (List.replicate dC (lit 1)) 1 7 false)).1
  others := []

def lateCall : Call :=
  .scoreTiles 8 (some fun i => if i = 0 then zeroTile else { zeroTile with flags := 1 <<< 15 }) 2
    (some fun _ => F32.zero) (some fun _ => 0) true

/-- One in every float. -/
def onesBuffer : Buffers := ⟨fun _ => ⟨0x3F800000⟩, fun _ => 0, zeros tileBytes⟩

theorem score_left_behind :
    (lateCall.run zeroScores oneModel onesBuffer).1 = slhaErrInvalidTile ∧
      (lateCall.run zeroScores oneModel onesBuffer).2.floats 0 = F32.zero ∧
      (lateCall.run zeroScores oneModel onesBuffer).2 ≠ onesBuffer := by
  have hzero : (lateCall.run zeroScores oneModel onesBuffer).2.floats 0 = F32.zero := by rfl
  refine ⟨by rfl, hzero, fun h => ?_⟩
  rw [h] at hzero
  exact absurd hzero (by decide)

end SlhaV2.OutputContract

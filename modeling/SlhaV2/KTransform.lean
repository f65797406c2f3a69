import SlhaV2.ByteMemory
import SlhaV2.OutputContract
import SlhaV2.ThreadSchedules

/-!
# The K transform of the inference shim

The threads of one graph operation share a layer and divide the tokens among
themselves. What a thread does with its rows depends on the mode of the layer,
which it reads without a lock, twice on entering and again after the model was
loaded; a failed load turns the layer off. Every read of the mode, every locked
section and every row is one step, so that schedules are the interleavings.
-/
namespace SlhaV2.KTransform
open ByteBuffer FloatingPoint SlhaTile ElasticFfi AtomicPrograms OutputContract Learned
open ByteMemory ThreadSchedules PhysicalCache CheckedSteps
open HandleRegistries (Process)

inductive KvMode where
  | off
  | passthrough
  | collect
  | tilestore
  | roundtrip
deriving DecidableEq

/-- The type of a tensor, as far as the shim asks ggml about it. -/
structure GgmlType where
  isF32 : Bool
  typeSize : ℕ
  blckSize : ℕ
  rowSize : ℕ → ℕ
  sizes_f32 : isF32 = true → typeSize = 4 ∧ blckSize = 1
  rowSize_eq : ∀ ne, rowSize ne = typeSize * ne / blckSize

theorem GgmlType.rowSize_f32 {type : GgmlType} (h : type.isF32 = true) (ne : ℕ) :
    type.rowSize ne = 4 * ne := by
  obtain ⟨htype, hblck⟩ := type.sizes_f32 h
  rw [type.rowSize_eq, htype, hblck]
  exact Nat.div_one _

/-- Shape and strides; a stride is in bytes, and that of the elements is their size. -/
structure Layout where
  ne1 : ℕ
  ne2 : ℕ
  ne3 : ℕ
  nb1 : ℕ
  nb2 : ℕ
  nb3 : ℕ

/-- The K indices: whether they are there as 64-bit integers, and how many. -/
structure KIdxs where
  isI64 : Bool
  ne0 : ℕ
  data : ℕ → ℤ

/-- One call of the operation: what all its threads are given. -/
structure Call (F : Type) where
  type : GgmlType
  ne0 : ℕ
  a : Layout
  dst : Layout
  src : Memory
  b : Option KIdxs
  nth : ℕ
  layerId : ℕ
  codec : ℤ
  process : Process (ElasticKvCache F) LearnedModel
  /-- What `slha_weights_load` returns for the layer, zero for NULL. -/
  weights : ℕ
  /-- Whether the tile of a token is encoded and stored. -/
  stored : ℕ → Bool

structure LayerState where
  kvMode : KvMode
  nEmbdGqa : ℕ
  /-- Zero for NULL. -/
  modelHandle : ℕ
  /-- The rows collected so far. -/
  collectedK : List (List UInt8)

/-- What the threads share, with a record of which thread wrote which row. -/
structure Shared where
  layer : LayerState
  dst : Memory
  tilesWritten : ℕ
  produced : List (ℕ × ℕ)

section Coding
variable {F : Type} (p : Process (ElasticKvCache F) LearnedModel)

def floatsAt (m : Memory) (off : ℕ) : ℕ → F32 := fun i =>
  ⟨UInt32.ofNat (leNat (readBytes m (off + 4 * i) 4))⟩

def floatBytes (xs : List F32) : List UInt8 := xs.flatMap fun x => leBytes 4 x.bits.toNat

/-- What `slha_encode_key` writes, or its status. -/
def encodedKey (model : ℕ) (key : ℕ → F32) (d : ℕ) (pos : UInt32) (codec : ℤ) :
    Except ℤ SciRustSlhaTile := do
  let m ← modelOf p model
  ensure (d = m.d) slhaErrDimension
  let codec ← (codecFromInt codec).elim (.error slhaErrCodec) .ok
  let key := (List.range d).map key
  validateFinite key
  let tile ← caught (m.encodeWith (key.map readF32) pos false codec)
  validateTile tile
  return tile

/-- What `slha_decode_key` writes, or its status. -/
def decodedKey (model : ℕ) (tile : SciRustSlhaTile) (d : ℕ) : Except ℤ (List F32) := do
  let m ← modelOf p model
  ensure (d = m.d) slhaErrDimension
  validateTile tile
  let reconstruction ← caught (reconstructFromTile m tile)
  ensure (reconstruction.length = d) slhaErrDimension
  validateFinite (reconstruction.map writeF32)
  return reconstruction.map writeF32

theorem check_bind {α β : Type} (x : Except ℤ α) (f : α → Except ℤ β) :
    (check (x >>= f) : Ffi β) = check x >>= fun a => check (f a) := by
  cases x <;> rfl

theorem slhaEncodeKey_eq (model : ℕ) (key : ℕ → F32) (d : ℕ) (pos : UInt32) (codec : ℤ) :
    slhaEncodeKey p model (some key) d pos codec true =
      check (encodedKey p model key d pos codec) >>= fun tile =>
        writeTile (tileToBytes tile) := by
  unfold encodedKey slhaEncodeKey
  simp only [check_bind, bind_assoc]
  rfl

theorem slhaDecodeKey_eq (model : ℕ) (tile : SciRustSlhaTile) (d : ℕ) :
    slhaDecodeKey p model (some tile) true d =
      check (decodedKey p model tile d) >>= fun floats => writeFloats floats := by
  unfold decodedKey slhaDecodeKey
  simp only [check_bind, bind_assoc]
  rfl

end Coding

section Threads
variable {F : Type} (c : Call F)

def tokensPerThread : ℕ := (c.a.ne1 + c.nth - 1) / c.nth

def tokenStart (ith : ℕ) : ℕ := ith * tokensPerThread c

def tokenEnd (ith : ℕ) : ℕ := min (tokenStart c ith + tokensPerThread c) c.a.ne1

def rowBytes : ℕ := c.type.rowSize c.ne0

/-- Rows as the modes see them that take no strides into account. -/
def packedRowBytes : ℕ := c.ne0 / c.type.blckSize * c.type.typeSize

/-- How a thread fills its rows. -/
inductive Plan where
  | packed
  | strided
  | transform (model : ℕ)

/-- Encode and decode one row, where both succeed. -/
def roundtripRow (model t : ℕ) : Except ℤ (List UInt8) := do
  let tile ← encodedKey c.process model (floatsAt c.src (t * c.a.nb1)) c.ne0 (UInt32.ofNat t) c.codec
  let floats ← decodedKey c.process model tile c.ne0
  return floatBytes floats

/-- What reaches row `t` of the destination, if anything does: only when source and destination
are both packed are the pointers those of the tensors, and a failure skips the copy back. -/
def transformRow (model t : ℕ) : Option (List UInt8) :=
  if c.a.nb1 = rowBytes c ∧ c.dst.nb1 = rowBytes c then
    match roundtripRow c model t with
    | .ok bytes => some bytes
    | .error _ => some (readBytes c.src (t * c.a.nb1) (rowBytes c))
  else
    match roundtripRow c model t with
    | .ok bytes => if c.dst.nb1 ≠ rowBytes c then some bytes else none
    | .error _ => none

/-- Where a row goes, and its bytes. -/
def rowOutput : Plan → ℕ → Option (ℕ × List UInt8)
  | .packed, t =>
      some (t * packedRowBytes c, readBytes c.src (t * packedRowBytes c) (packedRowBytes c))
  | .strided, t => some (t * c.dst.nb1, readBytes c.src (t * c.a.nb1) (rowBytes c))
  | .transform model, t => (transformRow c model t).map fun bytes => (t * c.dst.nb1, bytes)

def slhaModelDim (model : ℕ) : ℕ :=
  match modelOf c.process model with
  | .ok m => m.d
  | .error _ => 0

def slhaLoadLayerModel (layer : LayerState) : LayerState :=
  if layer.modelHandle ≠ 0 then layer
  else if c.weights = 0 then { layer with kvMode := .off }
  else if slhaModelDim c c.weights ≠ layer.nEmbdGqa then { layer with kvMode := .off }
  else { layer with modelHandle := c.weights }

/-- The first call sets the dimension. -/
def withDim (layer : LayerState) : LayerState :=
  if layer.nEmbdGqa = 0 then { layer with nEmbdGqa := c.ne0 } else layer

/-- The locked section before coding: the dimension is set once, the model loaded once. -/
def prepareLayer (layer : LayerState) : LayerState :=
  if (withDim c layer).modelHandle = 0 then slhaLoadLayerModel c (withDim c layer)
  else withDim c layer

inductive Pc where
  | enter
  | dispatch
  | prepare
  | check
  | collect
  | rows (plan : Plan) (t : ℕ) (tail : Bool)
  | load
  | tiles
  | done

/-- The rows a thread collects; they are read packed. -/
def gatheredRows (ith : ℕ) : List (List UInt8) :=
  (List.range (tokenEnd c ith - tokenStart c ith)).map fun i =>
    readBytes c.src ((tokenStart c ith + i) * (4 * c.ne0)) (4 * c.ne0)

/-- The largest position with a stored tile among a thread's tokens, plus one. -/
def maxPos (idxs : KIdxs) (ith : ℕ) : ℕ :=
  ((List.range (tokenEnd c ith - tokenStart c ith)).map fun i =>
    let t := tokenStart c ith + i
    if 0 ≤ idxs.data t ∧ c.stored t then (idxs.data t).toNat + 1 else 0).foldl max 0

def writeRow (ith : ℕ) (plan : Plan) (t : ℕ) (s : Shared) : Shared :=
  match rowOutput c plan t with
  | none => s
  | some (off, bytes) =>
      { s with dst := writeBytes s.dst off bytes, produced := (t, ith) :: s.produced }

/-- One step of thread `ith`. -/
def step (ith : ℕ) (pc : Pc) (s : Shared) : Pc × Shared :=
  match pc with
  | .enter =>
      if s.layer.kvMode = .off then (.done, s)
      else if c.a.ne1 ≤ tokenStart c ith then (.done, s)
      else (.dispatch, s)
  | .dispatch =>
      match s.layer.kvMode with
      | .off => (.done, s)
      | .passthrough => (.rows .packed (tokenStart c ith) false, s)
      | .collect => (.collect, s)
      | .tilestore => (.rows .strided (tokenStart c ith) true, s)
      | .roundtrip => (.prepare, s)
  | .prepare => (.check, { s with layer := prepareLayer c s.layer })
  | .check =>
      if s.layer.kvMode = .off ∨ !c.type.isF32 ∨ s.layer.modelHandle = 0 then
        (.rows .strided (tokenStart c ith) false, s)
      else (.rows (.transform s.layer.modelHandle) (tokenStart c ith) false, s)
  | .collect =>
      -- the dimension is set before the type is looked at
      let layer := withDim c s.layer
      let layer :=
        if !c.type.isF32 then layer
        else { layer with collectedK := layer.collectedK ++ gatheredRows c ith }
      (.rows .packed (tokenStart c ith) false, { s with layer := layer })
  | .rows plan t tail =>
      if t < tokenEnd c ith then (.rows plan (t + 1) tail, writeRow c ith plan t s)
      else if tail then (.load, s)
      else (.done, s)
  | .load =>
      match c.b with
      | none => (.done, s)
      | some idxs =>
          if !c.type.isF32 ∨ !idxs.isI64 ∨ idxs.ne0 < c.a.ne1 then (.done, s)
          else (.tiles, { s with layer := prepareLayer c s.layer })
  | .tiles =>
      match c.b with
      | none => (.done, s)
      | some idxs =>
          if s.layer.kvMode = .off ∨ s.layer.modelHandle = 0 then (.done, s)
          else (.done, { s with tilesWritten := max s.tilesWritten (maxPos c idxs ith) })
  | .done => (.done, s)

def Pc.Done : Pc → Prop
  | .done => True
  | _ => False

/-- The steps that a thread has left, at most. -/
def Pc.left (n : ℕ) : Pc → ℕ
  | .enter => n + 8
  | .dispatch => n + 7
  | .prepare => n + 6
  | .check => n + 5
  | .collect => n + 5
  | .rows _ t _ => n - t + 4
  | .load => 2
  | .tiles => 1
  | .done => 0

/-- Every thread is about to enter. -/
def start (layer : LayerState) (dst : Memory) (tilesWritten : ℕ) : World ℕ Pc Shared :=
  ⟨fun _ => .enter, ⟨layer, dst, tilesWritten, []⟩⟩

/-- All threads of the call have run. -/
def AllDone (w : World ℕ Pc Shared) : Prop := ∀ ith < c.nth, (w.locals ith).Done

end Threads

section Partition
variable {F : Type} {c : Call F} {ith jth t : ℕ}

theorem tokenEnd_le : tokenEnd c ith ≤ c.a.ne1 := min_le_right _ _

theorem le_mul_tokensPerThread (hn : 0 < c.nth) : c.a.ne1 ≤ c.nth * tokensPerThread c := by
  have hdiv := Nat.div_add_mod (c.a.ne1 + c.nth - 1) c.nth
  have hmod := Nat.mod_lt (c.a.ne1 + c.nth - 1) hn
  unfold tokensPerThread
  omega

/-- Two threads have no token in common. -/
theorem owner_unique (hi : tokenStart c ith ≤ t ∧ t < tokenEnd c ith)
    (hj : tokenStart c jth ≤ t ∧ t < tokenEnd c jth) : ith = jth := by
  unfold tokenEnd tokenStart at *
  have hitpt : t < ith * tokensPerThread c + tokensPerThread c := by omega
  have hjtpt : t < jth * tokensPerThread c + tokensPerThread c := by omega
  rcases Nat.lt_trichotomy ith jth with hlt | heq | hgt
  · have hmul := Nat.mul_le_mul_right (tokensPerThread c) (Nat.succ_le_of_lt hlt)
    rw [Nat.succ_mul] at hmul
    omega
  · exact heq
  · have hmul := Nat.mul_le_mul_right (tokensPerThread c) (Nat.succ_le_of_lt hgt)
    rw [Nat.succ_mul] at hmul
    omega

/-- Every token has an owner. -/
theorem exists_owner (hn : 0 < c.nth) (ht : t < c.a.ne1) :
    ∃ ith < c.nth, tokenStart c ith ≤ t ∧ t < tokenEnd c ith := by
  have hcover := le_mul_tokensPerThread hn
  have hpos : 0 < tokensPerThread c := by
    apply Nat.pos_of_ne_zero
    intro hzero
    rw [hzero, Nat.mul_zero] at hcover
    omega
  refine ⟨t / tokensPerThread c, Nat.div_lt_of_lt_mul (by rw [Nat.mul_comm]; omega),
    Nat.div_mul_le_self t _, ?_⟩
  have hmod := Nat.div_add_mod t (tokensPerThread c)
  have hlt := Nat.mod_lt t hpos
  unfold tokenEnd tokenStart
  rw [Nat.mul_comm] at hmod
  omega

end Partition

section Termination
variable {F : Type} (c : Call F)

theorem left_step_lt (ith : ℕ) (pc : Pc) (s : Shared) (h : ¬ pc.Done) :
    Pc.left c.a.ne1 (step c ith pc s).1 < Pc.left c.a.ne1 pc := by
  have hend := @tokenEnd_le F c ith
  cases pc with
  | done => exact absurd trivial h
  | rows plan t tail =>
      unfold step
      dsimp only
      split_ifs <;> simp only [Pc.left] <;> omega
  | enter =>
      unfold step
      dsimp only
      split_ifs <;> simp only [Pc.left] <;> omega
  | dispatch =>
      unfold step
      dsimp only
      split <;> simp only [Pc.left] <;> omega
  | check =>
      unfold step
      dsimp only
      split_ifs <;> simp only [Pc.left] <;> omega
  | load =>
      unfold step
      dsimp only
      split
      · simp only [Pc.left]
        omega
      · split_ifs <;> simp only [Pc.left] <;> omega
  | tiles =>
      unfold step
      dsimp only
      split
      · simp only [Pc.left]
        omega
      · split_ifs <;> simp only [Pc.left] <;> omega
  | prepare => simp only [step, Pc.left]; omega
  | collect => simp only [step, Pc.left]; omega

theorem done_step (ith : ℕ) (pc : Pc) (s : Shared) (h : pc.Done) : (step c ith pc s).1.Done := by
  cases pc with
  | done => trivial
  | _ => exact absurd h id

/-- From every state there is a schedule on which all threads run to their end. -/
theorem exists_allDone (w : World ℕ Pc Shared) : ∃ schedule, AllDone c (run (step c) w schedule) := by
  obtain ⟨schedule, h⟩ := exists_all_done (left_step_lt c) (done_step c) w (List.range c.nth)
  exact ⟨schedule, fun ith hi => h ith (List.mem_range.mpr hi)⟩

end Termination

section Loading
variable {F : Type} {c : Call F} {layer : LayerState}

/-- Loading leaves a model and the mode, or no model and the layer turned off. -/
theorem slhaLoadLayerModel_result :
    ((slhaLoadLayerModel c layer).kvMode = layer.kvMode ∧
        (slhaLoadLayerModel c layer).modelHandle ≠ 0) ∨
      ((slhaLoadLayerModel c layer).kvMode = .off ∧
        (slhaLoadLayerModel c layer).modelHandle = 0) := by
  unfold slhaLoadLayerModel
  split_ifs with hhandle hweights hdim
  · exact .inl ⟨rfl, hhandle⟩
  · exact .inr ⟨rfl, not_not.mp hhandle⟩
  · exact .inr ⟨rfl, not_not.mp hhandle⟩
  · exact .inl ⟨rfl, hweights⟩

theorem slhaLoadLayerModel_idem :
    slhaLoadLayerModel c (slhaLoadLayerModel c layer) = slhaLoadLayerModel c layer := by
  by_cases hhandle : layer.modelHandle ≠ 0
  · have hsame : slhaLoadLayerModel c layer = layer := if_pos hhandle
    rw [hsame, hsame]
  · by_cases hweights : c.weights = 0
    · simp only [slhaLoadLayerModel, if_neg hhandle, if_pos hweights]
    · by_cases hdim : slhaModelDim c c.weights ≠ layer.nEmbdGqa
      · simp only [slhaLoadLayerModel, if_neg hhandle, if_neg hweights, if_pos hdim]
      · have hloaded : slhaLoadLayerModel c layer = { layer with modelHandle := c.weights } := by
          rw [slhaLoadLayerModel, if_neg hhandle, if_neg hweights, if_neg hdim]
        rw [hloaded]
        exact if_pos hweights

@[simp] theorem withDim_kvMode : (withDim c layer).kvMode = layer.kvMode := by
  unfold withDim
  split_ifs <;> rfl

theorem slhaLoadLayerModel_nEmbdGqa :
    (slhaLoadLayerModel c layer).nEmbdGqa = layer.nEmbdGqa := by
  unfold slhaLoadLayerModel
  split_ifs <;> rfl

theorem withDim_load :
    withDim c (slhaLoadLayerModel c (withDim c layer)) = slhaLoadLayerModel c (withDim c layer) := by
  by_cases hzero : layer.nEmbdGqa = 0
  · by_cases hne : c.ne0 = 0
    · have hdim : (slhaLoadLayerModel c (withDim c layer)).nEmbdGqa = 0 := by
        rw [slhaLoadLayerModel_nEmbdGqa, withDim, if_pos hzero, hne]
      generalize slhaLoadLayerModel c (withDim c layer) = loaded at hdim
      cases loaded
      simp only [withDim] at *
      rw [if_pos hdim, hdim, hne]
    · have hdim : (slhaLoadLayerModel c (withDim c layer)).nEmbdGqa ≠ 0 := by
        rw [slhaLoadLayerModel_nEmbdGqa, withDim, if_pos hzero]
        exact hne
      exact if_neg hdim
  · have hdim : (slhaLoadLayerModel c (withDim c layer)).nEmbdGqa ≠ 0 := by
      rw [slhaLoadLayerModel_nEmbdGqa, withDim, if_neg hzero]
      exact hzero
    exact if_neg hdim

theorem prepareLayer_eq : prepareLayer c layer = slhaLoadLayerModel c (withDim c layer) := by
  unfold prepareLayer
  split_ifs with hhandle
  · rfl
  · exact (if_pos hhandle).symm

theorem prepareLayer_result :
    ((prepareLayer c layer).kvMode = layer.kvMode ∧ (prepareLayer c layer).modelHandle ≠ 0) ∨
      ((prepareLayer c layer).kvMode = .off ∧ (prepareLayer c layer).modelHandle = 0) := by
  have hresult := @slhaLoadLayerModel_result F c (withDim c layer)
  rwa [← prepareLayer_eq, withDim_kvMode] at hresult

/-- The layer is prepared once and for all. -/
theorem prepareLayer_idem : prepareLayer c (prepareLayer c layer) = prepareLayer c layer := by
  rw [prepareLayer_eq, prepareLayer_eq, withDim_load, slhaLoadLayerModel_idem]

end Loading

end SlhaV2.KTransform

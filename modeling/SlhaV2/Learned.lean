import Mathlib.Data.List.Sort
import SlhaV2.Incoherence
import SlhaV2.JacobiEigen
import SlhaV2.LatentQuantisers

/-!
# The learned projection

A model projects a key on its latent, rebuilds the key from the latent and
signs what is left. It is fitted to sample keys, or built from a projection.
Besides the projection it carries a scale for each latent dimension and the
random data of the sign sketch.
-/
namespace SlhaV2.Learned
open ByteBuffer MachineWord CheckedSteps FloatingPoint SingleFloat TileCodec SlhaTile LatentCodecs
open LatentQuantisers Incoherence JacobiEigen Single

structure LearnedModel where
  d : ℕ
  dPad : ℕ
  /-- Row-major, one row of length `d` for each latent dimension. -/
  evec : List Float32
  scale : List Float32
  z : List Float32
  rht : Option HadamardIncoherence
  capturedEnergy : Float32
  whiten : Bool
deriving DecidableEq

/-- The transform's seed is told apart from the sketch's. -/
def rhtSeed (seed : UInt64) : UInt64 := seed ^^^ 0xA2A2A2A2A2A2A2A2

def buildRht (d : ℕ) (seed : UInt64) (rht : Bool) : Option HadamardIncoherence :=
  if rht then some (HadamardIncoherence.new d (rhtSeed seed)) else none

def paddedLength (d : ℕ) (rht : Option HadamardIncoherence) : ℕ :=
  rht.elim d HadamardIncoherence.dPad

/-- `f64::max`: a missing number loses. -/
def maxFloat (x y : Float) : Float :=
  if x.isNaN then y else if y.isNaN then x else if x.lt y then y else x

/-- The signed reading by which `f64::total_cmp` orders bit patterns. -/
def orderKey (x : Float) : ℤ :=
  let bits := x.toBits.toNat
  if bits < 2 ^ 63 then bits else -1 - ((bits - 2 ^ 63 : ℕ) : ℤ)

def sumFloat (xs : List Float) : Float := xs.foldl (· + ·) 0

/-- Indices by decreasing eigenvalue; equal ones keep their order. -/
def sortedIndices (d : ℕ) (eigvals : List Float) : List ℕ :=
  (List.range d).mergeSort fun a b => orderKey (entry eigvals b) ≤ orderKey (entry eigvals a)

/-- The scales of the kept eigenvalues; small ones are floored. -/
def whiteningScales (eigvals : List Float) (kept : List ℕ) : List Float32 :=
  let lambdaTop := maxFloat (entry eigvals (kept.getD 0 0)) 1e-12
  let floor := lambdaTop * 1e-3
  kept.map fun ei => (narrow (maxFloat (entry eigvals ei) floor)).sqrt

def capturedFraction (eigvals : List Float) (kept : List ℕ) : Float32 :=
  let total := sumFloat (eigvals.map fun x => maxFloat x 0)
  let keptSum := sumFloat (kept.map fun i => maxFloat (entry eigvals i) 0)
  if (0 : Float).lt total then narrow (keptSum / total) else lit 1

/-- The tail shared by the fits: keep the top of the spectrum of a second moment. -/
def fitFromCov (cov : List Float32) (d : ℕ) (seed : UInt64) (whiten rht : Bool) : LearnedModel :=
  let (eigvals, eigvecs) := jacobiEigh cov d
  let kept := (sortedIndices d eigvals).take dC
  let rhtObj := buildRht d seed rht
  let dPad := paddedLength d rhtObj
  { d := d
    dPad := dPad
    evec := kept.flatMap fun ei => (List.range d).map fun i => narrow (entry eigvecs (i * d + ei))
    scale := if whiten then whiteningScales eigvals kept else List.replicate dC (lit 1)
    z := Rng.fillGaussian (dS * dPad) (Rng.new seed)
    rht := rhtObj
    capturedEnergy := capturedFraction eigvals kept
    whiten := whiten }

/-- Add the outer product of a key to the second moment. -/
def addOuter (d : ℕ) (cov : List Float32) (key : List Float32) : Outcome (List Float32) :=
  (List.range d).foldlM (fun cov i => do
    let ki ← index key i
    (List.range d).foldlM (fun cov j => do
      return cov.modify (i * d + j) (· + ki * (← index key j))) cov) cov

/-- Fit to the pooled second moment of keys and queries. -/
def fitJoint (keys queries : List (List Float32)) (d : ℕ) (seed : UInt64) (whiten rht : Bool) :
    Outcome LearnedModel :=
  if !(decide (dC < d)) then .error .panic
  else do
    let n := Max.max (keys.length + queries.length) 1
    let cov ← (keys ++ queries).foldlM (addOuter d) (List.replicate (← wordMul d d) (lit 0))
    let inv : Float32 := lit 1 / ofNat n
    return fitFromCov (cov.map (· * inv)) d seed whiten rht

def fitWith (train : List (List Float32)) (d : ℕ) (seed : UInt64) (whiten rht : Bool) :
    Outcome LearnedModel :=
  if !(decide (dC < d)) then .error .panic
  else do
    let n := Max.max train.length 1
    let cov ← train.foldlM (addOuter d) (List.replicate (← wordMul d d) (lit 0))
    let inv : Float32 := lit 1 / ofNat n
    return fitFromCov (cov.map (· * inv)) d seed whiten rht

def fit (train : List (List Float32)) (d : ℕ) (seed : UInt64) (whiten : Bool) :
    Outcome LearnedModel := fitWith train d seed whiten false

/-- `f32::NAN`. -/
def nan : Float32 := .ofBits 0x7fc00000

def tryFromProjectionWith (p : List Float32) (d : ℕ) (seed : UInt64) (rht : Bool) :
    Outcome LearnedModel := do
  if p.length ≠ (← wordMul dC d) then
    .error (.err s!"projection must be D_C×d: got {p.length} elements for d={d} (D_C={dC})")
  else
    let rhtObj := buildRht d seed rht
    let dPad := paddedLength d rhtObj
    return { d := d
             dPad := dPad
             evec := p
             scale := List.replicate dC (lit 1)
             z := Rng.fillGaussian (← wordMul dS dPad) (Rng.new seed)
             rht := rhtObj
             capturedEnergy := nan
             whiten := false }

/-- The model which a projection determines together with a seed and a flag. -/
def ofProjection (p : List Float32) (d : ℕ) (seed : UInt64) (rht : Bool) : LearnedModel :=
  let dPad := paddedLength d (buildRht d seed rht)
  { d := d
    dPad := dPad
    evec := p
    scale := List.replicate dC (lit 1)
    z := Rng.fillGaussian (dS * dPad) (Rng.new seed)
    rht := buildRht d seed rht
    capturedEnergy := nan
    whiten := false }

/-- The padded length is at most twice the dimension. -/
theorem paddedLength_le {d : ℕ} (seed : UInt64) (rht : Bool) (hd : 0 < d) :
    paddedLength d (buildRht d seed rht) ≤ 2 * d := by
  cases rht with
  | false => exact Nat.le_mul_of_pos_left d (by decide)
  | true => exact (nextPow2_lt hd).le

theorem tryFromProjectionWith_ok {p : List Float32} {d : ℕ} (hd : 0 < d) (hlt : d < 2 ^ 32)
    (hp : p.length = dC * d) (seed : UInt64) (rht : Bool) :
    tryFromProjectionWith p d seed rht = .ok (ofProjection p d seed rht) := by
  have hpad := paddedLength_le seed rht hd
  have hlen : dC * d ≤ maxWord := by
    unfold dC maxWord
    omega
  have hz : dS * paddedLength d (buildRht d seed rht) ≤ maxWord := by
    unfold dS maxWord
    omega
  unfold tryFromProjectionWith
  rw [wordMul_of_le hlen]
  simp only [ok_bind, hp, ne_eq, not_true_eq_false, if_false, wordMul_of_le hz]
  rfl

/-- The same model, or a panic when the projection has the wrong length. -/
def fromProjectionWith (p : List Float32) (d : ℕ) (seed : UInt64) (rht : Bool) :
    Outcome LearnedModel :=
  match tryFromProjectionWith p d seed rht with
  | .ok m => .ok m
  | .error _ => .error .panic

/-- How a stored float is read. -/
def readF32 (x : F32) : Float32 := .ofBits x.bits

def writeF32 (x : Float32) : F32 := ⟨x.toBits⟩

/-- What a quantiser stores in a tile. -/
structure Quantised where
  latent : Bytes latentBytes
  scale : Float32
  groupScales : Bytes nGroups
  flag : Flags

def quantise (codec : LatentCodec) (v : Latent Float32) : Quantised :=
  match codec with
  | .int4Single =>
      ⟨⟨_, length_quantizeLatent v⟩, (quantizeLatent v).2,
        ⟨List.replicate nGroups 255, List.length_replicate⟩, 0⟩
  | .int4Grouped =>
      ⟨⟨_, length_quantizeLatentGrouped v⟩, (quantizeLatentGrouped v).2.1,
        ⟨(quantizeLatentGrouped v).2.2, (length_groupBytes ..).trans (length_groupSteps ..)⟩, 0⟩
  | .nf4 =>
      ⟨⟨_, length_quantizeLatentNf4 v readF32⟩, (quantizeLatentNf4 readF32 v).2.1,
        ⟨(quantizeLatentNf4 readF32 v).2.2, (length_groupBytes ..).trans (length_groupSteps ..)⟩,
        flagNf4⟩
  | .mixed =>
      ⟨⟨_, length_quantizeLatentMixed v⟩, (quantizeLatentMixed v).2.1,
        ⟨(quantizeLatentMixed v).2.2, (length_groupBytes ..).trans (length_mixedSteps ..)⟩,
        flagMixed⟩
  | .tq3 =>
      ⟨⟨_, length_quantizeLatentTq3 v⟩, (quantizeLatentTq3 v).2.1,
        ⟨(quantizeLatentTq3 v).2.2, (length_groupBytes ..).trans (length_groupSteps ..)⟩,
        flagTq3⟩
  | .mix3 =>
      ⟨⟨_, length_quantizeLatentMix3 v⟩, (quantizeLatentMix3 v).2.1,
        ⟨(quantizeLatentMix3 v).2.2, (length_groupBytes ..).trans (length_mixedSteps ..)⟩,
        flagMix3⟩

namespace LearnedModel

def projection (m : LearnedModel) : List Float32 := m.evec

section Use
variable (m : LearnedModel)

def evecDot (k : ℕ) (v : List Float32) : Outcome Float32 := do
  let row ← indexRange m.evec (k * m.d) m.d
  (List.range m.d).foldlM (fun acc i => do return acc + (← index row i) * (← index v i)) (lit 0)

/-- `h_k = (e_k · key) / s_k`. -/
def latent (key : List Float32) : Outcome (List Float32) :=
  (List.range dC).mapM fun k => do return (← evecDot m k key) / (← index m.scale k)

/-- `q_k = (e_k · Q) · s_k`. -/
def queryCoarse (q : List Float32) : Outcome (List Float32) :=
  (List.range dC).mapM fun k => do return (← evecDot m k q) * (← index m.scale k)

/-- Add a multiple of a row of the projection. -/
def addRow (h : List Float32) (r : List Float32) (k : ℕ) : Outcome (List Float32) := do
  let w := (← index h k) * (← index m.scale k)
  let row ← indexRange m.evec (k * m.d) m.d
  return List.zipWith (fun x y => x + w * y) r row

def reconstruct (h : List Float32) : Outcome (List Float32) :=
  (List.range dC).foldlM (addRow m h) (List.replicate m.d (lit 0))

/-- Pack signs, 64 to a word. -/
def packSigns (signs : List Bool) : Words residualWords :=
  ⟨(List.range residualWords).map fun w => (List.range 64).foldl (fun word b =>
      if signs.getD (64 * w + b) false then word ||| (1 <<< UInt64.ofNat b) else word) 0, by simp⟩

def signDot (buf : List Float32) (s : ℕ) : Outcome Float32 := do
  let row ← indexRange m.z (s * m.dPad) m.dPad
  (List.range m.dPad).foldlM (fun acc i => do return acc + (← index row i) * (← index buf i))
    (lit 0)

/-- The buffer of the sketch: transformed, or copied. -/
def signBuffer (v : List Float32) : Outcome (List Float32) :=
  match m.rht with
  | some rht => if rht.dPad = m.dPad then rht.transformInto v else .error .panic
  | none => if v.length = m.dPad then .ok v else .error .panic

def signBits (v : List Float32) : Outcome (Words residualWords) :=
  if v.length ≠ m.d then .error .panic
  else do
    let buf ← signBuffer m v
    let signs ← (List.range dS).mapM fun s => do return lt (← signDot m buf s) (lit 0)
    return packSigns signs

/-- Encode a key: its latent, and the signs and the size of what the latent leaves over. -/
def encodeWith (key : List Float32) (pos : UInt32) (warm : Bool) (codec : LatentCodec) :
    Outcome SciRustSlhaTile := do
  let h ← latent m key
  let q := quantise codec fun k => h.getD k (lit 0)
  let recon ← reconstruct m h
  let e ← (List.range m.d).mapM fun i => do return (← index key i) - (← index recon i)
  let bitmap ← signBits m e
  let sigma := ((e.foldl (fun sum x => sum + x * x) (lit 0)) / ofNat m.d).sqrt
  let lambda := sigma * (Rng.pi / (lit 2 * ofNat dS)).sqrt
  return { latentKv := q.latent
           residualBitmap := bitmap
           scale := writeF32 q.scale
           dynamicLambda := writeF32 lambda
           residualSigma := writeF32 sigma
           tokenId := pos
           position := pos
           headId := 0
           flags := (if warm then flagWarm else 0) ||| q.flag
           groupScales := q.groupScales }

end Use

end LearnedModel

end SlhaV2.Learned

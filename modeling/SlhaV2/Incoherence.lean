import SlhaV2.CheckedSteps
import SlhaV2.SingleFloat

/-!
# Seeded randomness and the Hadamard transform

The generator is deterministic, so everything drawn from it is a function of its
seed. The transform works in place: each stage replaces pairs of entries by
their sum and difference. An index outside an array panics.
-/
namespace SlhaV2.Incoherence
open MachineWord CheckedSteps SingleFloat Single

structure Rng where
  state : UInt64
deriving DecidableEq

namespace Rng

def new (seed : UInt64) : Rng := ⟨seed ^^^ 0x9E3779B97F4A7C15⟩

/-- SplitMix64. -/
def nextU64 (r : Rng) : UInt64 × Rng :=
  let state := r.state + 0x9E3779B97F4A7C15
  let z := (state ^^^ (state >>> 30)) * 0xBF58476D1CE4E5B9
  let z := (z ^^^ (z >>> 27)) * 0x94D049BB133111EB
  (z ^^^ (z >>> 31), ⟨state⟩)

/-- Twenty-four random bits, as a number below one. -/
def nextUnit (r : Rng) : Float32 × Rng :=
  let (u, r) := r.nextU64
  (ofNat (u >>> 40).toNat * (lit 1 / ofNat (2 ^ 24)), r)

/-- `std::f32::consts::PI`. -/
def pi : Float32 := .ofBits 0x40490fdb

/-- Box and Muller's normal sample; logarithm and cosine are the platform's. -/
def nextGaussian (r : Rng) : Float32 × Rng :=
  let (u, r) := r.nextUnit
  let u1 := Single.max u (lit (1 / 10 ^ 7))
  let (u2, r) := r.nextUnit
  let radius := (lit (-2) * u1.log).sqrt
  (radius * (lit 2 * pi * u2).cos, r)

def fillGaussian : ℕ → Rng → List Float32
  | 0, _ => []
  | n + 1, r =>
      let (x, r) := r.nextGaussian
      x :: fillGaussian n r

end Rng

/-- Double `p` until it reaches `n`. -/
def doubleTo (n p : ℕ) : ℕ := if 0 < p ∧ p < n then doubleTo n (2 * p) else p
termination_by n - p

def nextPow2 (n : ℕ) : ℕ := doubleTo n 1

theorem doubleTo_lt {n p : ℕ} (h : p < 2 * n) : doubleTo n p < 2 * n := by
  fun_induction doubleTo n p with
  | case1 p hlt ih => exact ih (by omega)
  | case2 p hge => exact h

theorem nextPow2_lt {n : ℕ} (h : 0 < n) : nextPow2 n < 2 * n := doubleTo_lt (by omega)

section Transform
variable {F : Type} [Single F]

/-- Replace the entries at distance `h` by their sum and difference. -/
def butterfly (h : ℕ) (v : List F) (j : ℕ) : Outcome (List F) := do
  let a ← index v j
  let b ← index v (j + h)
  return (v.set j (a + b)).set (j + h) (a - b)

def blocks (n h i : ℕ) (v : List F) : Outcome (List F) :=
  if 0 < h ∧ i < n then do
    let v ← (List.range' i h).foldlM (butterfly h) v
    blocks n h (i + 2 * h) v
  else return v
termination_by n - i

def stages (n h : ℕ) (v : List F) : Outcome (List F) :=
  if 0 < h ∧ h < n then do
    let v ← blocks n h 0 v
    stages n (2 * h) v
  else return v
termination_by n - h

end Transform

/-- `usize::is_power_of_two`. -/
def isPowerOfTwo (n : ℕ) : Bool := n ≠ 0 ∧ 2 ^ n.log2 = n

def fwhtInplace (v : List Float32) : Outcome (List Float32) :=
  let n := v.length
  if !isPowerOfTwo n then .error .panic
  else do
    let v ← stages n 1 v
    let inv := lit 1 / (ofNat n : Float32).sqrt
    return v.map (· * inv)

structure HadamardIncoherence where
  diag : List Float32
  d : ℕ
  dPad : ℕ
deriving DecidableEq

namespace HadamardIncoherence

/-- Signs drawn from the generator, one for each padded index. -/
def drawSigns : ℕ → Rng → List Float32
  | 0, _ => []
  | n + 1, r =>
      let (u, r) := r.nextUnit
      (if lt u (lit (1 / 2)) then lit (-1) else lit 1) :: drawSigns n r

def new (d : ℕ) (seed : UInt64) : HadamardIncoherence where
  diag := drawSigns (nextPow2 d) (Rng.new seed)
  d := d
  dPad := nextPow2 d

/-- The transform of a vector, zero-padded, into a buffer of the padded length. -/
def transformInto (r : HadamardIncoherence) (v : List Float32) : Outcome (List Float32) :=
  if v.length ≠ r.d then .error .panic
  else do
    let out := v ++ List.replicate (r.dPad - r.d) (lit 0)
    let out ← (List.range r.dPad).mapM fun i => do return (← index out i) * (← index r.diag i)
    fwhtInplace out

end HadamardIncoherence

end SlhaV2.Incoherence

import Mathlib.Algebra.BigOperators.Fin
import Mathlib.Algebra.Order.Floor.Ring
import Mathlib.Algebra.Order.Field.Basic
import Mathlib.Tactic.Ring

/-!
# The statistics of a per-layer scale fit

A layer accumulates pairs of a baseline and a compressed score: sums for the
least squares scale, counts per head, per position and per magnitude, and a
histogram of the magnitude ratios. Partial accumulators are merged field by
field. Arithmetic is that of an ordered field; a number is missing where the
program meets an infinity or a NaN, and the decimal logarithm is a parameter.
-/
namespace SlhaV2.ScaleFit

def kMaxLayers : ℕ := 128
def kHistBins : ℕ := 600
def kMaxHeads : ℕ := 32
def kPosBuckets : ℕ := 8
def kMagBins : ℕ := 100

/-- Add to one entry of an array; an index outside it hits none. -/
def bump {A : Type} [Add A] {m : ℕ} (f : Fin m → A) (i : ℤ) (a : A) : Fin m → A :=
  fun j => if (j.val : ℤ) = i then f j + a else f j

@[ext] structure LayerAcc (K : Type) where
  n : K
  sumBs : K
  sumS2 : K
  sumB2 : K
  sumB : K
  sumS : K
  sumAbsErr : K
  sumSqErr : K
  hist : Fin kHistBins → ℕ
  histN : ℕ
  nNonfinite : ℕ
  nRobustExcluded : ℕ
  nRobustNearZero : ℕ
  nRobustClipped : ℕ
  nHeadOverflow : ℕ
  nVectors : ℕ
  nCallbacks : ℕ
  headN : Fin kMaxHeads → ℕ
  headBs : Fin kMaxHeads → K
  headS2 : Fin kMaxHeads → K
  posN : Fin kPosBuckets → ℕ
  posBs : Fin kPosBuckets → K
  posS2 : Fin kPosBuckets → K
  magN : Fin kMagBins → ℕ
  magS2 : Fin kMagBins → K

/-- One scored pair with its query head and position; `none` is not finite. -/
structure Sample (K : Type) where
  b : Option K
  s : Option K
  head : ℤ
  tFrac : Option K

section Model
variable {K : Type} [Field K] [LinearOrder K]

def kHistLo : K := -3
def kHistHi : K := 3
def kMagLo : K := -5
def kMagHi : K := 5

/-- Magnitudes up to this one give no ratio. -/
def kRobustEps : K := 1 / 10 ^ 6

def LayerAcc.empty : LayerAcc K where
  n := 0
  sumBs := 0
  sumS2 := 0
  sumB2 := 0
  sumB := 0
  sumS := 0
  sumAbsErr := 0
  sumSqErr := 0
  hist := 0
  histN := 0
  nNonfinite := 0
  nRobustExcluded := 0
  nRobustNearZero := 0
  nRobustClipped := 0
  nHeadOverflow := 0
  nVectors := 0
  nCallbacks := 0
  headN := 0
  headBs := 0
  headS2 := 0
  posN := 0
  posBs := 0
  posS2 := 0
  magN := 0
  magS2 := 0

/-- The bin of a value over a range, clamped to it; past the last bin for none. -/
def binOf [FloorRing K] (v : Option K) (lo hi : K) (nbins : ℕ) : ℤ :=
  match v with
  | none => nbins
  | some v =>
      let w := (hi - lo) / nbins
      let x := (v - lo) / w
      if x ≤ 0 then 0
      else if (((nbins : ℤ) - 1 : ℤ) : K) ≤ x then nbins - 1
      else ⌊x⌋

namespace LayerAcc

def addSums (acc : LayerAcc K) (b s : K) : LayerAcc K :=
  { acc with
    n := acc.n + 1
    sumBs := acc.sumBs + b * s
    sumS2 := acc.sumS2 + s * s
    sumB2 := acc.sumB2 + b * b
    sumB := acc.sumB + b
    sumS := acc.sumS + s
    sumAbsErr := acc.sumAbsErr + |b - s|
    sumSqErr := acc.sumSqErr + (b - s) * (b - s) }

/-- Statistics per head; heads past the last array entry are counted only. -/
def addHead (acc : LayerAcc K) (b s : K) (head : ℤ) : LayerAcc K :=
  if 0 ≤ head ∧ head < kMaxHeads then
    { acc with
      headN := bump acc.headN head 1
      headBs := bump acc.headBs head (b * s)
      headS2 := bump acc.headS2 head (s * s) }
  else if kMaxHeads ≤ head then { acc with nHeadOverflow := acc.nHeadOverflow + 1 }
  else acc

/-- Statistics per query position; a negative position means there is none. -/
def addPosition [FloorRing K] (acc : LayerAcc K) (b s : K) (tFrac : Option K) : LayerAcc K :=
  match tFrac with
  | none => acc
  | some t =>
      if 0 ≤ t then
        let pb := binOf (some t) 0 1 kPosBuckets
        if 0 ≤ pb ∧ pb < kPosBuckets then
          { acc with
            posN := bump acc.posN pb 1
            posBs := bump acc.posBs pb (b * s)
            posS2 := bump acc.posS2 pb (s * s) }
        else acc
      else acc

/-- Which decades of the compressed score carry the samples and the weight. -/
def addMagnitude [FloorRing K] (log10 : K → K) (acc : LayerAcc K) (s : K) : LayerAcc K :=
  if 0 < |s| then
    let mb := binOf (some (log10 |s|)) kMagLo kMagHi kMagBins
    if 0 ≤ mb ∧ mb < kMagBins then
      { acc with
        magN := bump acc.magN mb 1
        magS2 := bump acc.magS2 mb (s * s) }
    else acc
  else { acc with magN := bump acc.magN 0 1 }

/-- The magnitude ratio, unless one of the magnitudes is near zero. -/
def addRatio [FloorRing K] (log10 : K → K) (acc : LayerAcc K) (b s : K) : LayerAcc K :=
  if kRobustEps < |b| ∧ kRobustEps < |s| then
    let r := log10 (|b| / |s|)
    let bin := binOf (some r) kHistLo kHistHi kHistBins
    if 0 ≤ bin ∧ bin < kHistBins then
      { acc with
        hist := bump acc.hist bin 1
        histN := acc.histN + 1
        nRobustClipped :=
          if r ≤ kHistLo ∨ kHistHi ≤ r then acc.nRobustClipped + 1 else acc.nRobustClipped }
    else { acc with nRobustExcluded := acc.nRobustExcluded + 1 }
  else
    { acc with
      nRobustNearZero := acc.nRobustNearZero + 1
      nRobustExcluded := acc.nRobustExcluded + 1 }

/-- Accumulate one pair. -/
def add [FloorRing K] (log10 : K → K) (acc : LayerAcc K) (x : Sample K) : LayerAcc K :=
  match x.b, x.s with
  | some b, some s =>
      ((((acc.addSums b s).addHead b s x.head).addPosition b s x.tFrac).addMagnitude log10
        s).addRatio log10 b s
  | _, _ => { acc with nNonfinite := acc.nNonfinite + 1 }

def merge (acc o : LayerAcc K) : LayerAcc K where
  n := acc.n + o.n
  sumBs := acc.sumBs + o.sumBs
  sumS2 := acc.sumS2 + o.sumS2
  sumB2 := acc.sumB2 + o.sumB2
  sumB := acc.sumB + o.sumB
  sumS := acc.sumS + o.sumS
  sumAbsErr := acc.sumAbsErr + o.sumAbsErr
  sumSqErr := acc.sumSqErr + o.sumSqErr
  hist := fun i => acc.hist i + o.hist i
  histN := acc.histN + o.histN
  nNonfinite := acc.nNonfinite + o.nNonfinite
  nRobustExcluded := acc.nRobustExcluded + o.nRobustExcluded
  nRobustNearZero := acc.nRobustNearZero + o.nRobustNearZero
  nRobustClipped := acc.nRobustClipped + o.nRobustClipped
  nHeadOverflow := acc.nHeadOverflow + o.nHeadOverflow
  nVectors := acc.nVectors + o.nVectors
  nCallbacks := acc.nCallbacks + o.nCallbacks
  headN := fun i => acc.headN i + o.headN i
  headBs := fun i => acc.headBs i + o.headBs i
  headS2 := fun i => acc.headS2 i + o.headS2 i
  posN := fun i => acc.posN i + o.posN i
  posBs := fun i => acc.posBs i + o.posBs i
  posS2 := fun i => acc.posS2 i + o.posS2 i
  magN := fun i => acc.magN i + o.magN i
  magS2 := fun i => acc.magS2 i + o.magS2 i

/-- The least squares scale through the origin. -/
def olsScale (acc : LayerAcc K) : K := if 0 < acc.sumS2 then acc.sumBs / acc.sumS2 else 1

def sseBefore (acc : LayerAcc K) : K := acc.sumSqErr

def sseAfter (acc : LayerAcc K) (a : K) : K :=
  max 0 (acc.sumB2 - 2 * a * acc.sumBs + a * a * acc.sumS2)

def sseReductionAtOls (acc : LayerAcc K) : K :=
  if acc.sumS2 ≤ 0 then 0
  else
    let a := acc.sumBs / acc.sumS2
    let d := 1 - a
    acc.sumS2 * d * d

end LayerAcc

/-- The accumulators of the process, one a layer. -/
structure Registry (K : Type) where
  layers : Fin kMaxLayers → LayerAcc K
  seen : Fin kMaxLayers → Bool

def Registry.reset : Registry K := ⟨fun _ => LayerAcc.empty, fun _ => false⟩

/-- Merge a partial accumulator into its layer; other layer numbers are ignored. -/
def Registry.mergeLayer (g : Registry K) (layerId : ℤ) (part : LayerAcc K) : Registry K :=
  if layerId < 0 ∨ kMaxLayers ≤ layerId then g
  else
    { layers := fun i => if (i.val : ℤ) = layerId then (g.layers i).merge part else g.layers i
      seen := fun i => if (i.val : ℤ) = layerId then true else g.seen i }

end Model

end SlhaV2.ScaleFit

import SlhaV2.LatentCodecs

/-!
# The latent quantisers

Each codec scales its groups by their largest magnitudes, stores the scales
relative to the largest one, and packs the rounded values. Arrays are written
byte by byte as the program does.
-/
namespace SlhaV2.LatentQuantisers
open ByteBuffer FloatingPoint SingleFloat TileCodec SlhaTile LatentCodecs Single

variable {F : Type} [Single F]

/-- The range of `i32`. -/
def toI32 (x : F) : ℤ := toInt (-2 ^ 31) (2 ^ 31 - 1) x

def clampInt (lo hi : ℤ) (q : ℤ) : ℤ := Max.max lo (min hi q)

/-- `as u8` of an integer in range. -/
def asU8 (q : ℤ) : UInt8 := UInt8.ofNat q.toNat

/-- The largest magnitude of a range of dimensions. -/
def maxAbs (v : Latent F) (base len : ℕ) : F :=
  (List.range' base len).foldl (fun m d => Single.max m (abs (at128 v d))) (lit 0)

/-- The largest step, or one when all of them vanish. -/
def globalScale (steps : List F) : F :=
  let largest := steps.foldl Single.max (lit 0)
  if lt (lit 0) largest then largest else lit 1

/-- A step relative to the global one; never zero, so decoding stays defined. -/
def groupByte (global step : F) : UInt8 :=
  asU8 (toInt 0 255 (clamp (round (step / global * lit 255)) (lit 1) (lit 255)))

def groupBytes (global : F) (steps : List F) : List UInt8 := steps.map (groupByte global)

/-- The step which a group byte stands for. -/
def effective (global : F) (gs : List UInt8) (g : ℕ) : F :=
  global * (ofNat (gs.getD g 0).toNat / lit 255)

/-- Store a nibble in its half of a byte. -/
def putNibble (out : List UInt8) (byte d : ℕ) (nib : UInt8) : List UInt8 :=
  out.modify byte fun b =>
    if d &&& 1 = 0 then (b &&& (0xF0 : UInt8)) ||| nib else (b &&& (0x0F : UInt8)) ||| (nib <<< 4)

def int4Nibble (t : F) : UInt8 := asU8 (clampInt (-8) 7 (toI32 (round t)) + 8) &&& 0x0F

/-- Eight-bit code of the mixed heads, zero point 128. -/
def headByte (t : F) : UInt8 := asU8 (clampInt (-128) 127 (toI32 (round t)) + 128)

def emptyLatent : List UInt8 := (zeros latentBytes).1

def quantizeLatent (v : Latent F) : List UInt8 × F :=
  let largest := maxAbs v 0 dC
  let scale := if lt (lit 0) largest then largest / lit 7 else lit 1
  let out := (List.range dC).foldl
    (fun out d => putNibble out (d >>> 1) d (int4Nibble (at128 v d / scale))) emptyLatent
  (out, scale)

/-- The steps of the eight groups of sixteen dimensions. -/
def groupSteps (v : Latent F) (step : F → F) : List F :=
  (List.range nGroups).map fun g => step (maxAbs v (g * groupDim) groupDim)

def quantizeLatentGrouped (v : Latent F) : List UInt8 × F × List UInt8 :=
  let steps := groupSteps v fun mx => mx / lit 7
  let global := globalScale steps
  let gs := groupBytes global steps
  let out := (List.range dC).foldl (fun out d =>
    putNibble out (d >>> 1) d (int4Nibble (at128 v d / effective global gs (d / groupDim))))
    emptyLatent
  (out, global, gs)

/-- Index of the nearest codebook level; the first one among equals. -/
def nf4Nearest (val : F32 → F) (t : F) : UInt8 :=
  let scan := (nf4Codebook.zipIdx).foldl
    (fun best entry =>
      let dd := abs (t - val entry.1)
      -- nothing is at infinite distance, so the first entry always wins first
      if best.elim true fun b => lt dd b.2 then some (entry.2, dd) else best)
    (none : Option (ℕ × F))
  UInt8.ofNat (scan.elim 0 Prod.fst)

def quantizeLatentNf4 (val : F32 → F) (v : Latent F) : List UInt8 × F × List UInt8 :=
  let steps := groupSteps v id
  let global := globalScale steps
  let gs := groupBytes global steps
  let out := (List.range dC).foldl (fun out d =>
    let eff := effective global gs (d / groupDim)
    let t := if lt (lit 0) eff then clamp (at128 v d / eff) (lit (-1)) (lit 1) else lit 0
    putNibble out (d >>> 1) d (nf4Nearest val t)) emptyLatent
  (out, global, gs)

/-- Steps of a head of eight dimensions and seven groups after it. -/
def mixedSteps (v : Latent F) (step : F → F) : List F :=
  maxAbs v 0 mixedHiDims / lit 127 :: (List.range mixedLoGroups).map fun g =>
    step (maxAbs v (mixedHiDims + g * groupDim) groupDim)

def putHead (v : Latent F) (eff : F) (out : List UInt8) : List UInt8 :=
  (List.range mixedHiDims).foldl (fun out d => out.set d (headByte (at128 v d / eff))) out

def quantizeLatentMixed (v : Latent F) : List UInt8 × F × List UInt8 :=
  let steps := mixedSteps v fun mx => mx / lit 7
  let global := globalScale steps
  let gs := groupBytes global steps
  let out := putHead v (effective global gs 0) emptyLatent
  let out := (List.range mixedLoDims).foldl (fun out ld =>
    let d := mixedHiDims + ld
    let eff := effective global gs (1 + ld / groupDim)
    putNibble out (mixedHiDims + (ld >>> 1)) ld (int4Nibble (at128 v d / eff))) out
  (out, global, gs)

/-- Store a three-bit code and its correction sign, in planes at the given bytes. -/
def putTq3 (codes corrections : ℕ) (out : List UInt8) (ld : ℕ) (t : F) : List UInt8 :=
  let code := asU8 (clampInt 0 7 (toI32 (round (t + tq3HalfRange))))
  let bit := 3 * ld
  let byte := codes + (bit >>> 3)
  let shift := bit &&& 7
  let out := out.modify byte fun b => b ||| (code <<< UInt8.ofNat shift)
  let out := if 5 < shift then
      out.modify (byte + 1) fun b => b ||| (code >>> UInt8.ofNat (8 - shift))
    else out
  let level := ofNat code.toNat - tq3HalfRange
  if lt (lit 0) (t - level) then
    out.modify (corrections + (ld >>> 3)) fun b => b ||| (1 <<< UInt8.ofNat (ld &&& 7))
  else out

def quantizeLatentTq3 (v : Latent F) : List UInt8 × F × List UInt8 :=
  let steps := groupSteps v fun mx => mx / tq3HalfRange
  let global := globalScale steps
  let gs := groupBytes global steps
  let out := (List.range dC).foldl (fun out d =>
    putTq3 0 tq3CodeBytes out d (at128 v d / effective global gs (d / groupDim))) emptyLatent
  (out, global, gs)

def quantizeLatentMix3 (v : Latent F) : List UInt8 × F × List UInt8 :=
  let steps := mixedSteps v fun mx => mx / tq3HalfRange
  let global := globalScale steps
  let gs := groupBytes global steps
  let out := putHead v (effective global gs 0) emptyLatent
  let out := (List.range mixedLoDims).foldl (fun out ld =>
    let eff := effective global gs (1 + ld / groupDim)
    putTq3 mix3CodesOff mix3CorrOff out ld (at128 v (mixedHiDims + ld) / eff)) out
  (out, global, gs)

section Lengths

theorem length_foldl_update {f : List UInt8 → ℕ → List UInt8}
    (hf : ∀ out i, (f out i).length = out.length) (l : List ℕ) (out : List UInt8) :
    (l.foldl f out).length = out.length := by
  induction l generalizing out with
  | nil => rfl
  | cons i l ih => exact (ih _).trans (hf out i)

@[simp] theorem length_putNibble (out : List UInt8) (byte d : ℕ) (nib : UInt8) :
    (putNibble out byte d nib).length = out.length := List.length_modify ..

@[simp] theorem length_putTq3 (codes corrections : ℕ) (out : List UInt8) (ld : ℕ) (t : F) :
    (putTq3 codes corrections out ld t).length = out.length := by
  simp only [putTq3]
  split_ifs <;> simp only [List.length_modify]

@[simp] theorem length_putHead (v : Latent F) (eff : F) (out : List UInt8) :
    (putHead v eff out).length = out.length :=
  length_foldl_update (fun _ _ => List.length_set) _ _

theorem length_emptyLatent : emptyLatent.length = latentBytes := (zeros latentBytes).2

variable (v : Latent F)

theorem length_quantizeLatent : (quantizeLatent v).1.length = latentBytes := by
  simp only [quantizeLatent]
  rw [length_foldl_update fun _ _ => length_putNibble .., length_emptyLatent]

theorem length_quantizeLatentGrouped : (quantizeLatentGrouped v).1.length = latentBytes := by
  simp only [quantizeLatentGrouped]
  rw [length_foldl_update fun _ _ => length_putNibble .., length_emptyLatent]

theorem length_quantizeLatentNf4 (val : F32 → F) :
    (quantizeLatentNf4 val v).1.length = latentBytes := by
  simp only [quantizeLatentNf4]
  rw [length_foldl_update fun _ _ => length_putNibble .., length_emptyLatent]

theorem length_quantizeLatentMixed : (quantizeLatentMixed v).1.length = latentBytes := by
  simp only [quantizeLatentMixed]
  rw [length_foldl_update fun _ _ => length_putNibble .., length_putHead, length_emptyLatent]

theorem length_quantizeLatentTq3 : (quantizeLatentTq3 v).1.length = latentBytes := by
  simp only [quantizeLatentTq3]
  rw [length_foldl_update fun _ _ => length_putTq3 .., length_emptyLatent]

theorem length_quantizeLatentMix3 : (quantizeLatentMix3 v).1.length = latentBytes := by
  simp only [quantizeLatentMix3]
  rw [length_foldl_update fun _ _ => length_putTq3 .., length_putHead, length_emptyLatent]

theorem length_groupSteps (step : F → F) : (groupSteps v step).length = nGroups := by
  simp [groupSteps]

theorem length_mixedSteps (step : F → F) : (mixedSteps v step).length = nGroups := by
  simp [mixedSteps]

theorem length_groupBytes (global : F) (steps : List F) :
    (groupBytes global steps).length = steps.length := List.length_map ..

end Lengths

end SlhaV2.LatentQuantisers

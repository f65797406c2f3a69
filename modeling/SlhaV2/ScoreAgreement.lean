import SlhaV2.ScoreKernel
import SlhaV2.VectorScores

/-!
# One score on every path

A tile is scored by the portable loop, by the vector kernel that its codec and the machine select,
by the functions of the host's codec module on its serialised form, or by a thread of the device.
All of them compute one function of the tile and the query.
-/
namespace SlhaV2.ScoreAgreement
open ByteBuffer FloatingPoint TileCodec SlhaTile LatentCodecs VectorScores ScoreKernel
open VectorKernels (Host)

/-- The codec module's score of a serialised tile, with the residual or without. -/
def serializedScore (val : F32 → ℚ) (b : Tile) (qCoarse : Latent ℚ) (qSign : Words residualWords) :
    ℚ :=
  let tile := tileFromBytes b
  if hasFlag tile.flags flagWarm then scoreWarm val (partsOf tile) qCoarse
  else scoreHot val (partsOf tile) qCoarse qSign.1 tile.residualBitmap.1 tile.dynamicLambda

/-- What every path of scoring a tile returns is what the portable loop returns. -/
theorem scores_agree (val : F32 → ℚ) (t : SciRustSlhaTile) (qCoarse : Latent ℚ)
    (qSign : Words residualWords) :
    (∀ host : Host, KernelsExact host val t qCoarse qSign
        (some (computeScoreScalar val t qCoarse qSign)) ∧
      VectorKernels.computeScore host val t qCoarse qSign =
        some (computeScoreScalar val t qCoarse qSign)) ∧
    serializedScore val (tileToBytes t) qCoarse qSign = computeScoreScalar val t qCoarse qSign ∧
    ∀ (tiles : List UInt8) (numTiles i : ℕ) (order : List ℕ) (scores : ℕ → ℚ),
      slice tiles (i * tileBytes) tileBytes = (tileToBytes t).1 → i < numTiles → i ∈ order →
        launch val qCoarse (fun w => qSign.1.getD w 0) tiles numTiles order scores i =
          computeScoreScalar val t qCoarse qSign := by
  refine ⟨fun host => ?_, ?_, ?_⟩
  · have hkernels := kernelsExact host val t qCoarse qSign
    exact ⟨hkernels, hkernels.dispatched⟩
  · unfold serializedScore
    rw [tileFromBytes_tileToBytes]
    exact (host_scores_exact val t qCoarse qSign).symm
  · intro tiles numTiles i order scores hstored hi hin
    rw [launch_eq, if_pos ⟨hin, hi⟩, hstored, tileScore_eq, tileFromBytes_tileToBytes]

/-- A tile in the mixed layout, with its head at the lowest level. -/
def mixedTile : SciRustSlhaTile :=
  { tileFromBytes GpuPipeline.zeroTile with
    flags := flagMixed
    groupScales := ⟨List.replicate nGroups (.ofNat 128), List.length_replicate⟩ }

/-- The tile is the second of two in the device's memory. -/
theorem scores_agree_mixed :
    VectorKernels.computeScore ⟨.x86_64, true, true, true, true⟩ (fun _ => (1 : ℚ)) mixedTile
        (fun _ => 1) ⟨[0, 0, 0, 0], rfl⟩ =
      some (launch (fun _ => 1) (fun _ => 1) (fun w => [0, 0, 0, 0].getD w 0)
        ((tileToBytes mixedTile).1 ++ (tileToBytes mixedTile).1) 2 [1, 0] (fun _ => 0) 1) := by
  obtain ⟨hhost, -, hdevice⟩ :=
    scores_agree (fun _ => 1) mixedTile (fun _ => 1) ⟨[0, 0, 0, 0], rfl⟩
  have hsecond : slice ((tileToBytes mixedTile).1 ++ (tileToBytes mixedTile).1) (1 * tileBytes)
      tileBytes = (tileToBytes mixedTile).1 := by
    have hlength : (tileToBytes mixedTile).1.length = tileBytes := (tileToBytes mixedTile).2
    unfold slice
    rw [Nat.one_mul, List.drop_left' hlength, List.take_of_length_le hlength.le]
  rw [(hhost _).2, hdevice _ 2 1 [1, 0] _ hsecond (by decide) (by decide)]

end SlhaV2.ScoreAgreement

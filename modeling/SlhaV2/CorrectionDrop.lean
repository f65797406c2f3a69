import SlhaV2.CcosRuns
import SlhaV2.CodecLevels

/-!
# Dropping the correction plane

The plane is the end of the latent, and the codes before it are read without
it. Once the flag says that it is gone, a covered dimension decodes to the bare
three-bit level, a quarter of a step from where it was, and the bytes that the
plane held are not read again. Paging the residual out is independent of it.
-/
namespace SlhaV2.CorrectionDrop
open MachineWord ByteBuffer FloatingPoint SingleFloat TileCodec SlhaTile LatentCodecs CodecLevels
open ExactValues Single CcosCache CcosSteps CcosRuns ElasticKvCache

variable {val : F32 → ℚ} {t u : SciRustSlhaTile} {codec : LatentCodec} {d : ℕ}

def codecFlags : Flags := flagNf4 ||| flagMixed ||| flagTq3 ||| flagMix3

/-- The tile carries the flag of one codec, or none. -/
def OneCodec (t : SciRustSlhaTile) : Prop := ∃ codec, t.flags &&& codecFlags = codecFlag codec

/-- The layout of a tile that has a correction plane. -/
structure Layout (t : SciRustSlhaTile) (codec : LatentCodec) : Prop where
  mixed : isMixed t = false
  tq3 : t.isTq3 = decide (codec = .tq3)
  mix3 : t.isMix3 = decide (codec = .mix3)
  plane : codec = .tq3 ∨ codec = .mix3

theorem OneCodec.layout (h : OneCodec t) (hn : t.separableCorrBytes ≠ 0) :
    ∃ codec, Layout t codec := by
  obtain ⟨codec, h⟩ := h
  have hmixed : isMixed t = decide (codec = .mixed) := by
    unfold isMixed
    rw [flag_of_masked h (by decide : codecFlags &&& flagMixed = flagMixed)]
    cases codec <;> decide
  have htq3 : t.isTq3 = decide (codec = .tq3) := by
    unfold SciRustSlhaTile.isTq3
    rw [flag_of_masked h (by decide : codecFlags &&& flagTq3 = flagTq3)]
    cases codec <;> decide
  have hmix3 : t.isMix3 = decide (codec = .mix3) := by
    unfold SciRustSlhaTile.isMix3
    rw [flag_of_masked h (by decide : codecFlags &&& flagMix3 = flagMix3)]
    cases codec <;> decide
  have hplane : codec = .tq3 ∨ codec = .mix3 := by
    unfold SciRustSlhaTile.separableCorrBytes at hn
    rw [htq3, hmix3] at hn
    cases codec <;> simp at hn ⊢
  refine ⟨codec, ?_, htq3, hmix3, hplane⟩
  rw [hmixed]
  rcases hplane with rfl | rfl <;> decide

/-- Where the plane starts in the latent. -/
def planeStart (codec : LatentCodec) : ℕ := if codec = .tq3 then tq3CodeBytes else mix3CorrOff

theorem Layout.separableCorrBytes (h : Layout t codec) :
    latentBytes - t.separableCorrBytes = planeStart codec := by
  unfold SciRustSlhaTile.separableCorrBytes planeStart
  rw [h.tq3, h.mix3]
  rcases h.plane with rfl | rfl <;> rfl

/-- The decoder of the layout. -/
theorem Layout.dequantAt (h : Layout t codec) (d : ℕ) : (dequantAt val t d : ℚ) =
    if codec = .tq3 then dequantAtTq3 val t d else dequantAtMix3 val t d := by
  unfold LatentCodecs.dequantAt
  rw [h.mixed, h.tq3, h.mix3]
  rcases h.plane with rfl | rfl <;> rfl

/-- The dimensions that the plane corrects. -/
def Covered (codec : LatentCodec) (d : ℕ) : Prop :=
  codec = .tq3 ∧ d < dC ∨ codec = .mix3 ∧ mixedHiDims ≤ d ∧ d < mixedDims

/-- The level of a dimension on the three-bit grid. -/
def bareLevel (t : SciRustSlhaTile) (codec : LatentCodec) (d : ℕ) : ℚ :=
  (if codec = .tq3 then codeAt t.latentKv.1 0 tq3CodeBytes d
    else codeAt t.latentKv.1 mix3CodesOff mix3CorrOff (d - mixedHiDims) : ℕ) - 7 / 2

/-- The correction bit of a dimension. -/
def correction (t : SciRustSlhaTile) (codec : LatentCodec) (d : ℕ) : ℕ :=
  if codec = .tq3 then signAt t.latentKv.1 tq3CodeBytes d
  else signAt t.latentKv.1 mix3CorrOff (d - mixedHiDims)

theorem tq3Level_bare (h : t.isTq3Nocorr = true) (code corr : ℕ) :
    (tq3Level t code corr : ℚ) = code - 7 / 2 := by
  unfold tq3Level
  rw [h]
  rfl

/-- A covered dimension: its bare level, and a quarter more or less while the plane is there. -/
theorem dequantAt_covered (val : F32 → ℚ) (h : Layout t codec) (hd : Covered codec d) :
    (dequantAt val t d : ℚ) = (bareLevel t codec d + if t.isTq3Nocorr then 0
      else if correction t codec d = 1 then 1 / 4 else -(1 / 4)) * stepAt val t codec d := by
  have hlevel : ∀ code corr : ℕ, (tq3Level t code corr : ℚ) = (code : ℚ) - 7 / 2 +
      if t.isTq3Nocorr then 0 else if corr = 1 then 1 / 4 else -(1 / 4) := by
    intro code corr
    cases hno : t.isTq3Nocorr with
    | true => rw [tq3Level_bare hno, if_pos rfl, add_zero]
    | false =>
        rw [tq3Level_eq hno]
        unfold tq3Value
        simp
  rw [h.dequantAt]
  unfold bareLevel correction
  rcases hd with ⟨rfl, hlt⟩ | ⟨rfl, hlo, hhi⟩
  · rw [if_pos rfl, if_pos rfl, if_pos rfl, dequantAtTq3_level, hlevel]
  · have hne : ¬ LatentCodec.mix3 = .tq3 := by decide
    rw [if_neg hne, if_neg hne, if_neg hne, dequantAtMix3_level (Nat.not_lt.mpr hlo) hhi, hlevel]

/-- The same numbers but for the bytes of the plane. -/
structure SameBelow (codec : LatentCodec) (t u : SciRustSlhaTile) : Prop where
  latent : ∀ i, i < planeStart codec → u.latentKv.1.getD i 0 = t.latentKv.1.getD i 0
  scale : u.scale = t.scale
  groups : u.groupScales = t.groupScales

theorem SameBelow.stepAt (h : SameBelow codec t u) (d : ℕ) :
    stepAt val u codec d = stepAt val t codec d := by
  unfold CodecLevels.stepAt
  rw [h.scale, h.groups]

/-- A code is read from the bytes below the limit of its plane. -/
theorem codeAt_congr {xs ys : List UInt8} {limit off ld : ℕ}
    (h : ∀ i, i < limit → ys.getD i 0 = xs.getD i 0) (hlt : off + 3 * ld / 8 < limit) :
    codeAt ys off limit ld = codeAt xs off limit ld := by
  unfold codeAt
  rw [h _ hlt]
  by_cases hnext : off + 3 * ld / 8 + 1 < limit
  · rw [if_pos hnext, if_pos hnext, h _ hnext]
  · rw [if_neg hnext, if_neg hnext]

/-- The last code of each layout ends where its plane of signs begins. -/
theorem SameBelow.bareLevel (h : SameBelow codec t u) (hd : Covered codec d) :
    bareLevel u codec d = bareLevel t codec d := by
  have hlatent := h.latent
  unfold CorrectionDrop.bareLevel planeStart at *
  rcases hd with ⟨rfl, hlt⟩ | ⟨rfl, hlo, hhi⟩
  · have hcode : 0 + 3 * d / 8 < tq3CodeBytes := by
      change 0 + 3 * d / 8 < 48
      have hle : d < 128 := hlt
      omega
    rw [if_pos rfl] at hlatent
    rw [if_pos rfl, if_pos rfl, codeAt_congr hlatent hcode]
  · have hne : ¬ LatentCodec.mix3 = .tq3 := by decide
    have hcode : mix3CodesOff + 3 * (d - mixedHiDims) / 8 < mix3CorrOff := by
      change 8 + 3 * (d - 8) / 8 < 50
      have hle : d < 120 := hhi
      omega
    rw [if_neg hne] at hlatent
    rw [if_neg hne, if_neg hne, codeAt_congr hlatent hcode]

/-- A dimension without a correction does not read the plane. -/
theorem SameBelow.dequantAt_uncovered (h : SameBelow codec t u) (ht : Layout t codec)
    (hu : Layout u codec) (hdim : d < dC) (hd : ¬ Covered codec d) :
    (dequantAt val u d : ℚ) = dequantAt val t d := by
  have hlatent := h.latent
  rw [ht.dequantAt, hu.dequantAt]
  rcases ht.plane with rfl | rfl
  · exact absurd (.inl ⟨rfl, hdim⟩) hd
  · have hne : ¬ LatentCodec.mix3 = .tq3 := by decide
    rw [if_neg hne, if_neg hne]
    by_cases hhead : d < mixedHiDims
    · have hbyte : d < planeStart .mix3 := hhead.trans (by decide)
      rw [dequantAtMix3_head hhead, dequantAtMix3_head hhead, hlatent d hbyte, h.stepAt]
    · have htail : mixedDims ≤ d := by
        apply Nat.le_of_not_lt
        intro hlt
        exact hd (.inr ⟨rfl, Nat.le_of_not_lt hhead, hlt⟩)
      unfold dequantAtMix3
      rw [if_neg hhead, if_pos htail, if_neg hhead, if_pos htail]

/-- Without its plane a tile decodes from the other bytes alone. -/
theorem SameBelow.dequantAt (h : SameBelow codec t u) (ht : Layout t codec)
    (hu : Layout u codec) (htno : t.isTq3Nocorr = true) (huno : u.isTq3Nocorr = true)
    (hdim : d < dC) : (dequantAt val u d : ℚ) = LatentCodecs.dequantAt val t d := by
  by_cases hd : Covered codec d
  · rw [dequantAt_covered val ht hd, dequantAt_covered val hu hd, htno, huno, h.bareLevel hd, h.stepAt]
    rfl
  · exact h.dequantAt_uncovered ht hu hdim hd

theorem layout_withoutCorrection (h : Layout t codec) : Layout (withoutCorrection t) codec := by
  obtain ⟨hmixed, htq3, hmix3, hplane⟩ := h
  refine ⟨?_, ?_, ?_, hplane⟩
  · rw [← hmixed]
    unfold isMixed withoutCorrection
    simp only [or_and_of_disjoint (by decide : flagTq3Nocorr &&& flagMixed = 0)]
  · rw [← htq3]
    unfold SciRustSlhaTile.isTq3 withoutCorrection
    simp only [or_and_of_disjoint (by decide : flagTq3Nocorr &&& flagTq3 = 0)]
  · rw [← hmix3]
    unfold SciRustSlhaTile.isMix3 withoutCorrection
    simp only [or_and_of_disjoint (by decide : flagTq3Nocorr &&& flagMix3 = 0)]

theorem getD_clearTail (latent : Bytes latentBytes) {n i : ℕ} (hn : n ≤ latentBytes) :
    (clearTail latent n).1.getD i 0 = if i < latentBytes - n then latent.1.getD i 0 else 0 := by
  have hlen : (latent.1.take (latentBytes - n)).length = latentBytes - n := by
    rw [List.length_take, latent.2]
    omega
  unfold clearTail
  by_cases hi : i < latentBytes - n
  · rw [if_pos hi, List.getD_append _ _ _ _ (by omega)]
    simp only [List.getD_eq_getElem?_getD, List.getElem?_take_of_lt hi]
  · rw [if_neg hi, List.getD_append_right _ _ _ _ (by omega)]
    simp only [List.getD_eq_getElem?_getD, List.getElem?_replicate]
    split_ifs <;> rfl

theorem sameBelow_withoutCorrection (h : Layout t codec) :
    SameBelow codec t (withoutCorrection t) := by
  refine ⟨fun i hi => ?_, rfl, rfl⟩
  have hle : t.separableCorrBytes ≤ latentBytes := (separableCorrBytes_le t).trans (by decide)
  rw [← h.separableCorrBytes] at hi
  have hget := getD_clearTail t.latentKv (i := i) hle
  rw [if_pos hi] at hget
  exact hget

def byteOf (t : SciRustSlhaTile) (k : ℕ) : UInt8 := (tileToBytes t).1.getD k 0

/-- The word of flags in the tile. -/
def InFlags (k : ℕ) : Prop := 118 ≤ k ∧ k < 120

def InPlane (codec : LatentCodec) (k : ℕ) : Prop := planeStart codec ≤ k ∧ k < latentBytes

/-- The fields between the latent and the flags. -/
def middle (t : SciRustSlhaTile) : List UInt8 :=
  wordBytes t.residualBitmap.1 ++ (leBytes 4 t.scale.bits.toNat ++
    (leBytes 4 t.dynamicLambda.bits.toNat ++ (leBytes 4 t.residualSigma.bits.toNat ++
      (leBytes 4 t.tokenId.toNat ++ (leBytes 4 t.position.toNat ++ leBytes 2 t.headId.toNat)))))

theorem length_middle (t : SciRustSlhaTile) : (middle t).length = 54 := by
  unfold middle
  simp only [List.length_append, length_wordBytes, length_leBytes, t.residualBitmap.2]
  rfl

theorem putFields_eq (t : SciRustSlhaTile) : putFields t =
    t.latentKv.1 ++ (middle t ++ (leBytes 2 t.flags.toNat ++ t.groupScales.1)) := by
  unfold putFields middle
  simp only [List.append_assoc]

/-- Two lists that differ in their first and third parts agree where those do. -/
theorem getD_parts {a a' m f f' g : List UInt8} (ha : a'.length = a.length)
    (hf : f'.length = f.length) {k : ℕ} (hhead : k < a.length → a'.getD k 0 = a.getD k 0)
    (hthird : ¬ (a.length + m.length ≤ k ∧ k < a.length + m.length + f.length)) :
    (a' ++ (m ++ (f' ++ g))).getD k 0 = (a ++ (m ++ (f ++ g))).getD k 0 := by
  by_cases hk : k < a.length
  · rw [List.getD_append _ _ _ _ hk, List.getD_append _ _ _ _ (by omega)]
    exact hhead hk
  rw [List.getD_append_right _ _ _ _ (by omega : a.length ≤ k),
    List.getD_append_right _ _ _ _ (by omega : a'.length ≤ k), ha]
  by_cases hm : k - a.length < m.length
  · rw [List.getD_append _ _ _ _ hm, List.getD_append _ _ _ _ hm]
  rw [List.getD_append_right _ _ _ _ (by omega : m.length ≤ k - a.length),
    List.getD_append_right _ _ _ _ (by omega : m.length ≤ k - a.length),
    List.getD_append_right _ _ _ _ (by omega : f.length ≤ k - a.length - m.length),
    List.getD_append_right _ _ _ _ (by omega : f'.length ≤ k - a.length - m.length), hf]

theorem byteOf_withoutCorrection (h : Layout t codec) {k : ℕ} (hplane : ¬ InPlane codec k)
    (hflags : ¬ InFlags k) : byteOf (withoutCorrection t) k = byteOf t k := by
  have hbelow := (sameBelow_withoutCorrection h).latent
  unfold byteOf tileToBytes
  dsimp only
  rw [putFields_eq, putFields_eq]
  apply getD_parts
  · rw [(withoutCorrection t).latentKv.2, t.latentKv.2]
  · rw [length_leBytes, length_leBytes]
  · intro hk
    rw [t.latentKv.2] at hk
    exact hbelow k (Nat.lt_of_not_le fun hle => hplane ⟨hle, hk⟩)
  · rw [t.latentKv.2, length_leBytes]
    intro hk
    have hlen : (middle (withoutCorrection t)).length = 54 := length_middle _
    unfold latentBytes at hk
    exact hflags ⟨by omega, by omega⟩

/-- The part of the score that comes from the latent. -/
def coarseTerm (val : F32 → ℚ) (t : SciRustSlhaTile) (qCoarse : Latent ℚ) : ℚ :=
  (List.finRange dC).foldl (fun coarse d => coarse + qCoarse d * dequantLatent val t d) 0

theorem computeScoreScalar_eq (qCoarse : Latent ℚ) (qSign : Words residualWords) :
    (computeScoreScalar val t qCoarse qSign : ℚ) =
      coarseTerm val t qCoarse + if t.isWarm then 0 else residualTerm val t qSign := by
  unfold computeScoreScalar coarseTerm
  cases t.isWarm
  · rfl
  · exact (add_zero _).symm

theorem coarseTerm_congr (h : ∀ d, d < dC → (dequantAt val u d : ℚ) = dequantAt val t d)
    (qCoarse : Latent ℚ) : coarseTerm val u qCoarse = coarseTerm val t qCoarse := by
  have hsame : (dequantLatent val u : Latent ℚ) = dequantLatent val t :=
    funext fun d => h d.val d.isLt
  unfold coarseTerm
  rw [hsame]

/-- The residual is not read by the decoder. -/
theorem dequantAt_maskResidual (t : SciRustSlhaTile) (d : ℕ) :
    (dequantAt val (maskResidual t) d : ℚ) = dequantAt val t d := by
  have hmixed : isMixed (maskResidual t) = isMixed t := by
    unfold isMixed maskResidual
    simp only [or_and_of_disjoint (by decide : flagWarm &&& flagMixed = 0)]
  have hnf4 : isNf4 (maskResidual t) = isNf4 t := by
    unfold isNf4 maskResidual
    simp only [or_and_of_disjoint (by decide : flagWarm &&& flagNf4 = 0)]
  have htq3 : (maskResidual t).isTq3 = t.isTq3 := by
    unfold SciRustSlhaTile.isTq3 maskResidual
    simp only [or_and_of_disjoint (by decide : flagWarm &&& flagTq3 = 0)]
  have hmix3 : (maskResidual t).isMix3 = t.isMix3 := by
    unfold SciRustSlhaTile.isMix3 maskResidual
    simp only [or_and_of_disjoint (by decide : flagWarm &&& flagMix3 = 0)]
  have hno : (maskResidual t).isTq3Nocorr = t.isTq3Nocorr := by
    unfold SciRustSlhaTile.isTq3Nocorr maskResidual
    simp only [or_and_of_disjoint (by decide : flagWarm &&& flagTq3Nocorr = 0)]
  have hlevel : ∀ code corr, (tq3Level (maskResidual t) code corr : ℚ) = tq3Level t code corr := by
    intro code corr
    unfold tq3Level
    rw [hno]
  unfold LatentCodecs.dequantAt dequantAtTq3 dequantAtMix3
  simp only [hmixed, hnf4, htq3, hmix3, hlevel]
  rfl

/-- The tile before and after its plane was dropped. -/
structure PlaneDropped (val : F32 → ℚ) (codec : LatentCodec) (t t' : SciRustSlhaTile) : Prop where
  covered : ∀ d, Covered codec d →
    (dequantAt val t' d : ℚ) = bareLevel t codec d * stepAt val t codec d ∧
      ((dequantAt val t d : ℚ) = dequantAt val t' d + stepAt val t codec d / 4 ∨
        (dequantAt val t d : ℚ) = dequantAt val t' d - stepAt val t codec d / 4)
  others : ∀ d, d < dC → ¬ Covered codec d → (dequantAt val t' d : ℚ) = dequantAt val t d
  residual : ∀ qSign, (residualTerm val t' qSign : ℚ) = residualTerm val t qSign
  bytes : ∀ k, ¬ InPlane codec k → ¬ InFlags k → byteOf t' k = byteOf t k
  flags : t'.flags = t.flags ||| flagTq3Nocorr
  unread : ∀ latent : Bytes latentBytes,
    (∀ i, ¬ InPlane codec i → latent.1.getD i 0 = t'.latentKv.1.getD i 0) →
    ∀ qCoarse qSign, (computeScoreScalar val { t' with latentKv := latent } qCoarse qSign : ℚ) =
      computeScoreScalar val t' qCoarse qSign

theorem planeDropped (h : Layout t codec) (hno : t.isTq3Nocorr = false) :
    PlaneDropped val codec t (withoutCorrection t) where
  covered := by
    intro d hd
    have hsame := sameBelow_withoutCorrection h
    have hbefore := dequantAt_covered val h hd
    have hafter := dequantAt_covered val (layout_withoutCorrection h) hd
    rw [withoutCorrection_isTq3Nocorr, if_pos rfl, add_zero, hsame.bareLevel hd, hsame.stepAt] at hafter
    rw [hno, if_neg Bool.false_ne_true] at hbefore
    refine ⟨hafter, ?_⟩
    rw [hbefore, hafter]
    by_cases hup : correction t codec d = 1
    · rw [if_pos hup]
      exact .inl (by ring)
    · rw [if_neg hup]
      exact .inr (by ring)
  others d hdim hd :=
    (sameBelow_withoutCorrection h).dequantAt_uncovered h (layout_withoutCorrection h) hdim hd
  residual _ := rfl
  bytes _ hplane hflags := byteOf_withoutCorrection h hplane hflags
  flags := rfl
  unread := by
    intro latent hlatent qCoarse qSign
    have hlayout := layout_withoutCorrection h
    have hsame : SameBelow codec (withoutCorrection t)
        { withoutCorrection t with latentKv := latent } := by
      refine ⟨fun i hi => ?_, rfl, rfl⟩
      exact hlatent i fun hin => Nat.not_lt.mpr hin.1 hi
    have hdecode : ∀ d, d < dC →
        (dequantAt val { withoutCorrection t with latentKv := latent } d : ℚ) =
          dequantAt val (withoutCorrection t) d := fun d hd =>
      hsame.dequantAt hlayout ⟨hlayout.mixed, hlayout.tq3, hlayout.mix3, hlayout.plane⟩
        (withoutCorrection_isTq3Nocorr t) (withoutCorrection_isTq3Nocorr t) hd
    rw [computeScoreScalar_eq, computeScoreScalar_eq, coarseTerm_congr hdecode]
    rfl

section Cache
variable {c d : ElasticKvCache} {i : ℕ} {s : TileState}

theorem droppable_maskResidual : Droppable (maskResidual t) ↔ Droppable t := by
  unfold Droppable
  rw [maskResidual_separableCorrBytes, maskResidual_isTq3Nocorr]

theorem withoutCorrection_maskResidual (t : SciRustSlhaTile) :
    withoutCorrection (maskResidual t) = maskResidual (withoutCorrection t) := by
  have hflags : t.flags ||| flagWarm ||| flagTq3Nocorr = t.flags ||| flagTq3Nocorr ||| flagWarm := by
    rw [BitVec.or_assoc, BitVec.or_comm flagWarm, ← BitVec.or_assoc]
  unfold withoutCorrection
  rw [maskResidual_separableCorrBytes]
  unfold maskResidual
  rw [← hflags]

theorem reclaimed_maskResidual (t : SciRustSlhaTile) :
    reclaimed (maskResidual t) = reclaimed t := by
  unfold reclaimed
  rw [maskResidual_separableCorrBytes, maskResidual_isTq3Nocorr]

theorem footprint_hot (t : SciRustSlhaTile) : footprint .hot t = 128 - reclaimed t := rfl

theorem footprint_warm (t : SciRustSlhaTile) : footprint .warm t = 96 - reclaimed t := rfl

theorem rewritten_rewritten (s s' : TileState) (t t' : SciRustSlhaTile) (k k' : ℕ) :
    rewritten (rewritten c i s t k) i s' t' k' = rewritten c i s' t' k' := by
  unfold rewritten
  simp only [List.set_set]

/-- Dropping and paging out, in either order, end in the same cache. -/
theorem drop_page_comm (h : Valid c) (hs : c.state[i]? = some s) (ht : c.tiles[i]? = some t)
    (hcold : s ≠ .cold) : ∃ b d₁ e d₂, c.dropCorrection i = .ok (b, d₁) ∧ d₁.pageOut i = .ok e ∧
      c.pageOut i = .ok d₂ ∧ d₂.dropCorrection i = .ok (b, e) := by
  have hsi := (List.getElem?_eq_some_iff.mp hs).1
  have hti := (List.getElem?_eq_some_iff.mp ht).1
  have hstate : ∀ s' t' k, (rewritten c i s' t' k).state[i]? = some s' := fun _ _ _ =>
    List.getElem?_set_self hsi
  have htile : ∀ s' t' k, (rewritten c i s' t' k).tiles[i]? = some t' := fun _ _ _ =>
    List.getElem?_set_self hti
  by_cases hdrop : Droppable t
  · have hle := h.plane_le hs ht hcold hdrop
    have hfirst := dropCorrection_done hs ht hcold hdrop hle
    cases s with
    | cold => exact (hcold rfl).elim
    | warm =>
        have hne : TileState.warm ≠ .hot := by decide
        exact ⟨true, _, _, _, hfirst, pageOut_not_hot (hstate _ _ _) hne, pageOut_not_hot hs hne,
          hfirst⟩
    | hot =>
        have hcorr := separableCorrBytes_le t
        have hrec : reclaimed t = 0 := if_neg (by rw [hdrop.2]; exact Bool.false_ne_true)
        have hfull : footprint .hot t = 128 := by
          rw [footprint_hot, hrec]
        have hwarm : footprint .warm (maskResidual t) = 96 := by
          rw [footprint_warm, reclaimed_maskResidual, hrec]
        have hbare : footprint .hot (withoutCorrection t) = 128 - t.separableCorrBytes := by
          rw [footprint_hot, withoutCorrection_reclaimed]
        have hbareWarm : footprint .warm (maskResidual (withoutCorrection t)) =
            96 - t.separableCorrBytes := by
          rw [footprint_warm, reclaimed_maskResidual, withoutCorrection_reclaimed]
        have hroom := h.footprint_le hs ht
        have hpage := pageOut_hot hs ht hroom
        rw [hfull] at hroom
        have hsecond := pageOut_hot (hstate .hot (withoutCorrection t)
          (c.liveBytesCounter - t.separableCorrBytes)) (htile _ _ _) (by
            rw [hbare]
            exact Nat.sub_le_sub_right hroom _)
        have hlast := dropCorrection_done (hstate .warm (maskResidual t)
          (c.liveBytesCounter - footprint .hot t + footprint .warm (maskResidual t)))
          (htile _ _ _) (by decide) (droppable_maskResidual.mpr hdrop) (by
            rw [maskResidual_separableCorrBytes, hwarm]
            exact (hcorr.trans (by decide)).trans (Nat.le_add_left 96 _))
        have hcount : c.liveBytesCounter - 128 + 96 - t.separableCorrBytes =
            c.liveBytesCounter - t.separableCorrBytes - (128 - t.separableCorrBytes) +
              (96 - t.separableCorrBytes) := by omega
        refine ⟨true, _, _, _, hfirst, hsecond, hpage, ?_⟩
        rw [hlast, rewritten_rewritten, rewritten_rewritten, withoutCorrection_maskResidual,
          maskResidual_separableCorrBytes, hbare, hbareWarm]
        change Except.ok (true, rewritten c i _ _ (c.liveBytesCounter - footprint .hot t +
          footprint .warm (maskResidual t) - t.separableCorrBytes)) = _
        rw [hfull, hwarm, hcount]
        rfl
  · have hskip := dropCorrection_skip hs ht (.inr hdrop)
    cases s with
    | cold => exact (hcold rfl).elim
    | warm =>
        have hpage := pageOut_not_hot hs (by decide)
        exact ⟨false, c, c, c, hskip, hpage, hpage, hskip⟩
    | hot =>
        have hpage := pageOut_hot hs ht (h.footprint_le hs ht)
        exact ⟨false, _, _, _, hskip, hpage, hpage, dropCorrection_skip (hstate _ _ _)
          (htile _ _ _) (.inr fun hd => hdrop (droppable_maskResidual.mp hd))⟩

/-- A dropped plane leaves a live slot with the tile without it. -/
theorem tile_of_drop (h : Valid c) (hs : c.state[i]? = some s) (ht : c.tiles[i]? = some t)
    (hcold : s ≠ .cold) (heq : c.dropCorrection i = .ok (true, d)) :
    Droppable t ∧ d.tiles[i]? = some (withoutCorrection t) := by
  have hti := (List.getElem?_eq_some_iff.mp ht).1
  by_cases hdrop : Droppable t
  · have hdone := dropCorrection_done hs ht hcold hdrop (h.plane_le hs ht hcold hdrop)
    cases hdone.symm.trans heq
    exact ⟨hdrop, List.getElem?_set_self hti⟩
  · cases (dropCorrection_skip hs ht (.inr hdrop)).symm.trans heq

/-- A live slot that was paged out is scored by its latent. -/
theorem score_of_page (h : Valid c) (hlive : Live c i) (ht : c.tiles[i]? = some t) :
    ∃ d t', c.pageOut i = .ok d ∧ d.tiles[i]? = some t' ∧ ∀ qCoarse qSign,
      (computeScoreScalar val t' qCoarse qSign : ℚ) = coarseTerm val t qCoarse := by
  have hti := (List.getElem?_eq_some_iff.mp ht).1
  rcases hlive with hs | hs
  · refine ⟨_, _, pageOut_hot hs ht (h.footprint_le hs ht), List.getElem?_set_self hti, ?_⟩
    intro qCoarse qSign
    rw [computeScoreScalar_eq, maskResidual_isWarm, if_pos rfl, add_zero]
    exact coarseTerm_congr (fun d _ => dequantAt_maskResidual t d) qCoarse
  · refine ⟨c, t, pageOut_not_hot hs (by decide), ht, fun qCoarse qSign => ?_⟩
    rw [computeScoreScalar_eq, (h.flag i t (.inr hs) ht).mp hs, if_pos rfl, add_zero]

end Cache

section Runs
variable [F32Arith]

/-- On a live tile of one codec: dropping the plane moves covered dimensions by a
quarter of a step to the bare level and nothing else, and the plane is not read
any more; paging out leaves the coarse term of the score; both orders agree. -/
theorem plane_and_residual (val : F32 → ℚ) (budgetBytes : ℕ) (policy : PageOutPolicy)
    (eviction : EvictionPolicy) {ops : List Op} {c : ElasticKvCache}
    (h : Reaches Permitted
      { ElasticKvCache.new budgetBytes policy with eviction := eviction } ops c)
    {i : ℕ} {t : SciRustSlhaTile} (hlive : Live c i) (ht : c.tiles[i]? = some t)
    (hcodec : OneCodec t) :
    (∀ d, c.dropCorrection i = .ok (true, d) → ∃ codec t', Layout t codec ∧
        d.tiles[i]? = some t' ∧ PlaneDropped val codec t t') ∧
      (∃ d t', c.pageOut i = .ok d ∧ d.tiles[i]? = some t' ∧ ∀ qCoarse qSign,
        (computeScoreScalar val t' qCoarse qSign : ℚ) = coarseTerm val t qCoarse) ∧
      (∃ b d₁ e d₂, c.dropCorrection i = .ok (b, d₁) ∧ d₁.pageOut i = .ok e ∧
        c.pageOut i = .ok d₂ ∧ d₂.dropCorrection i = .ok (b, e)) := by
  have hvalid := reaches_valid h (Valid.new budgetBytes policy eviction)
  obtain ⟨s, hs, hcold⟩ : ∃ s, c.state[i]? = some s ∧ s ≠ .cold := by
    rcases hlive with hs | hs
    · exact ⟨.hot, hs, by decide⟩
    · exact ⟨.warm, hs, by decide⟩
  refine ⟨fun d heq => ?_, score_of_page hvalid hlive ht, drop_page_comm hvalid hs ht hcold⟩
  obtain ⟨hdrop, htile⟩ := tile_of_drop hvalid hs ht hcold heq
  obtain ⟨codec, hlayout⟩ := hcodec.layout hdrop.1
  exact ⟨codec, _, hlayout, htile, planeDropped hlayout hdrop.2⟩

end Runs

section Example
local instance : F32Arith := F32Arith.trivial

/-- One tile with a plane, inserted. -/
def onePlane : ElasticKvCache :=
  match (ElasticKvCache.new 0 .oldestFirst).insert planeTile with
  | .ok (_, c) => c
  | .error _ => ElasticKvCache.new 0 .oldestFirst

theorem reaches_onePlane :
    Reaches Permitted (ElasticKvCache.new 0 .oldestFirst) [.insert planeTile] onePlane :=
  Reaches.snoc Reaches.nil trivial rfl

/-- The same tile with every group at its full scale. -/
def steppedTile : SciRustSlhaTile :=
  { planeTile with groupScales := ⟨List.replicate nGroups (.ofNat 255), List.length_replicate⟩ }

def oneStepped : ElasticKvCache :=
  match (ElasticKvCache.new 0 .oldestFirst).insert steppedTile with
  | .ok (_, c) => c
  | .error _ => ElasticKvCache.new 0 .oldestFirst

/-- Where the scale reads four, dropping the plane moves every dimension by one. -/
theorem plane_and_residual_stepped :
    ∃ d t', oneStepped.dropCorrection 0 = .ok (true, d) ∧ d.tiles[0]? = some t' ∧
      ∀ k < dC, (dequantAt (fun _ => 4) steppedTile k : ℚ) = dequantAt (fun _ => 4) t' k + 1 ∨
        (dequantAt (fun _ => 4) steppedTile k : ℚ) = dequantAt (fun _ => 4) t' k - 1 := by
  have hreaches : Reaches Permitted (ElasticKvCache.new 0 .oldestFirst) [.insert steppedTile]
      oneStepped := Reaches.snoc Reaches.nil trivial rfl
  have hlive : Live oneStepped 0 := .inl rfl
  have htile : oneStepped.tiles[0]? = some steppedTile := rfl
  have hcodec : OneCodec steppedTile := ⟨.tq3, by decide⟩
  obtain ⟨hdrop, -⟩ := plane_and_residual (fun _ => 4) 0 .oldestFirst .causal hreaches
    hlive htile hcodec
  obtain ⟨codec, t', hlayout, htile, hdropped⟩ := hdrop _ rfl
  refine ⟨_, t', rfl, htile, ?_⟩
  intro k hk
  obtain rfl : codec = .tq3 := by
    have htq3 := hlayout.tq3
    exact of_decide_eq_true (htq3.symm.trans (by decide))
  have hgroup : (steppedTile.groupScales.1.getD (k / groupDim) 0).toNat = 255 := by
    have hlt : k / groupDim < nGroups := Nat.div_lt_of_lt_mul hk
    change ((List.replicate nGroups (UInt8.ofNat 255)).getD (k / groupDim) 0).toNat = 255
    rw [List.getD_eq_getElem _ _ (by rw [List.length_replicate]; exact hlt), List.getElem_replicate]
    rfl
  have hstep : stepAt (fun _ => 4) steppedTile .tq3 k / 4 = 1 := by
    unfold stepAt stepOf groupOf
    rw [hgroup]
    norm_num
  obtain ⟨-, hmoved⟩ := hdropped.covered k (.inl ⟨rfl, hk⟩)
  rwa [hstep] at hmoved

/-- The flag that tells the decoder is outside the plane, and it changes. -/
theorem drop_sets_flag :
    ∃ d t', Reaches Permitted (ElasticKvCache.new 0 .oldestFirst) [.insert planeTile] onePlane ∧
      Live onePlane 0 ∧ onePlane.tiles[0]? = some planeTile ∧ OneCodec planeTile ∧
      onePlane.dropCorrection 0 = .ok (true, d) ∧ d.tiles[0]? = some t' ∧
      ¬ ∀ k, k < tileBytes → ¬ InPlane .tq3 k → byteOf t' k = byteOf planeTile k := by
  refine ⟨_, withoutCorrection planeTile, reaches_onePlane, .inl rfl, rfl, ⟨.tq3, by decide⟩, rfl,
    rfl, fun hall => ?_⟩
  have hoff : ¬ InPlane .tq3 118 := fun hin => absurd hin.2 (by decide)
  have hbyte := hall 118 (by decide) hoff
  revert hbyte
  decide +kernel

end Example

end SlhaV2.CorrectionDrop

import SlhaV2.NearestCodes

/-!
# Which values decode within one step

A group byte rounds the step of its group. Where it rounds down, the largest values of the group
lie past the last level, and a small byte puts them more than one step past it. Which values these
are can be said of the latent alone.
-/
namespace SlhaV2.StepBound
open ByteBuffer FloatingPoint SingleFloat TileCodec SlhaTile LatentCodecs LatentQuantisers
open ExactValues PackedLatent CodecLevels NearestCodes

/-- The codecs with a byte for every group and levels no more than a step apart. -/
def stepCodecs : List LatentCodec := [.int4Grouped, .mixed, .tq3, .mix3]

inductive Grid
  | nibble
  | byte
  | threeBit

/-- The levels of a dimension: integers of four or eight bits, or corrected three-bit ones. -/
def grid (codec : LatentCodec) (d : ℕ) : Grid :=
  match codec with
  | .mixed => if d < mixedHiDims then .byte else .nibble
  | .mix3 => if d < mixedHiDims then .byte else .threeBit
  | .tq3 => .threeBit
  | _ => .nibble

namespace Grid

/-- The steps that the largest magnitude of a group is to span. -/
def span : Grid → ℚ
  | nibble => 7
  | byte => 127
  | threeBit => 7 / 2

/-- The last value, in steps, with a level within one step. -/
def up : Grid → ℚ
  | nibble => 8
  | byte => 128
  | threeBit => 19 / 4

def down : Grid → ℚ
  | nibble => 9
  | byte => 129
  | threeBit => 19 / 4

theorem span_pos (g : Grid) : 0 < g.span := by
  cases g <;> norm_num [span]

theorem up_pos (g : Grid) : 0 < g.up := by
  cases g <;> norm_num [up]

theorem down_pos (g : Grid) : 0 < g.down := by
  cases g <;> norm_num [down]

end Grid

/-- A magnitude over the steps it may span at most. -/
def reach (codec : LatentCodec) (v : Latent ℚ) (d : Fin dC) : ℚ := |v d| / (grid codec d).span

/-- The step of the group is rounded down so far that the value is more than a step past the last
level: the reach of the whole group stays under `k` and a half 255ths of the largest reach, while
the value exceeds the levels spaced by `k` 255ths of it. -/
def Overshoots (codec : LatentCodec) (v : Latent ℚ) (d : Fin dC) : Prop :=
  ∃ (top : Fin dC) (k : ℕ), 1 ≤ k ∧ top.val < kept codec ∧
    (∀ e : Fin dC, e.val < kept codec → reach codec v e ≤ reach codec v top) ∧
    (∀ e : Fin dC, e.val < kept codec → groupOf codec e = groupOf codec d →
      510 * reach codec v e < (2 * k + 1) * reach codec v top) ∧
    ((grid codec d).up * k * reach codec v top < 255 * v d ∨
      255 * v d < -((grid codec d).down * k * reach codec v top))

section Levels

/-- An integer of a range is within one of exactly the values at most one outside the range. -/
theorem clampedRound_within {lo hi : ℤ} (hlo : -2 ^ 31 ≤ lo) (hhi : hi ≤ 2 ^ 31 - 1) (h : lo ≤ hi)
    (x : ℚ) : |(clampedRound lo hi x : ℚ) - x| ≤ 1 ↔ (lo : ℚ) - 1 ≤ x ∧ x ≤ hi + 1 := by
  obtain ⟨hleft, hright⟩ := clampedRound_mem h x
  have hleft' : (lo : ℚ) ≤ clampedRound lo hi x := by exact_mod_cast hleft
  have hright' : (clampedRound lo hi x : ℚ) ≤ hi := by exact_mod_cast hright
  rw [abs_le]
  constructor
  · rintro ⟨hunder, hover⟩
    constructor <;> linarith
  · rintro ⟨hunder, hover⟩
    rcases clampedRound_spec hlo hhi h x with hclose | ⟨hend, hpast⟩ | ⟨hend, hpast⟩
    · obtain ⟨hbelow, habove⟩ := abs_le.mp hclose
      constructor <;> linarith
    · rw [hend]
      constructor <;> linarith
    · rw [hend]
      constructor <;> linarith

/-- The outermost corrected levels are three and three quarters. -/
theorem tq3Value_within (x : ℚ) :
    |tq3Value (clampedRound 0 7 (x + 7 / 2)) (above x) - x| ≤ 1 ↔
      -(19 / 4) ≤ x ∧ x ≤ 19 / 4 := by
  obtain ⟨hleft, hright⟩ := clampedRound_mem (by decide : (0 : ℤ) ≤ 7) (x + 7 / 2)
  have hleft' : (0 : ℚ) ≤ clampedRound 0 7 (x + 7 / 2) := by exact_mod_cast hleft
  have hright' : (clampedRound 0 7 (x + 7 / 2) : ℚ) ≤ 7 := by exact_mod_cast hright
  have hspec := clampedRound_spec (by decide) (by decide) (by decide : (0 : ℤ) ≤ 7) (x + 7 / 2)
  rw [above_iff]
  unfold tq3Value
  generalize clampedRound 0 7 (x + 7 / 2) = code at *
  rw [abs_le]
  by_cases hup : 0 < x + 7 / 2 - code
  · rw [decide_eq_true hup, if_pos rfl]
    constructor
    · rintro ⟨hunder, hover⟩
      constructor <;> linarith
    · rintro ⟨hunder, hover⟩
      rcases hspec with hclose | ⟨hend, hpast⟩ | ⟨hend, hpast⟩
      · obtain ⟨hbelow, habove⟩ := abs_le.mp hclose
        constructor <;> linarith
      · rw [hend]
        push_cast
        constructor <;> linarith
      · rw [hend] at hup ⊢
        push_cast at hpast hup ⊢
        constructor <;> linarith
  · rw [decide_eq_false hup, if_neg Bool.false_ne_true]
    rw [not_lt] at hup
    constructor
    · rintro ⟨hunder, hover⟩
      constructor <;> linarith
    · rintro ⟨hunder, hover⟩
      rcases hspec with hclose | ⟨hend, hpast⟩ | ⟨hend, hpast⟩
      · obtain ⟨hbelow, habove⟩ := abs_le.mp hclose
        constructor <;> linarith
      · rw [hend] at hup
        push_cast at hpast hup
        exfalso
        linarith
      · rw [hend]
        push_cast at hpast ⊢
        constructor <;> linarith

theorem levelOf_within {codec : LatentCodec} (hcodec : codec ∈ stepCodecs) (val : F32 → ℚ) (d : ℕ)
    (x : ℚ) : |levelOf val codec d x - x| ≤ 1 ↔
      -(grid codec d).down ≤ x ∧ x ≤ (grid codec d).up := by
  have hnibble : |(clampedRound (-8) 7 x : ℚ) - x| ≤ 1 ↔ -(9 : ℚ) ≤ x ∧ x ≤ 8 := by
    rw [clampedRound_within (by decide) (by decide) (by decide)]
    norm_num
  have hbyte : |(clampedRound (-128) 127 x : ℚ) - x| ≤ 1 ↔ -(129 : ℚ) ≤ x ∧ x ≤ 128 := by
    rw [clampedRound_within (by decide) (by decide) (by decide)]
    norm_num
  cases codec with
  | int4Single => exact absurd hcodec (by decide)
  | nf4 => exact absurd hcodec (by decide)
  | int4Grouped => exact hnibble
  | mixed =>
      unfold levelOf grid
      split_ifs
      · exact hbyte
      · exact hnibble
  | tq3 => exact tq3Value_within x
  | mix3 =>
      unfold levelOf grid
      split_ifs
      · exact hbyte
      · exact tq3Value_within x

end Levels

section Groups
variable (v : Latent ℚ)

/-- A running maximum bounds what it has seen, and is the start or one of them. -/
theorem foldl_max_spec {α : Type} (f : α → ℚ) (l : List α) (a : ℚ) :
    (a ≤ l.foldl (fun m d => Single.max m (f d)) a ∧
      ∀ d ∈ l, f d ≤ l.foldl (fun m d => Single.max m (f d)) a) ∧
      (l.foldl (fun m d => Single.max m (f d)) a = a ∨
        ∃ d ∈ l, l.foldl (fun m d => Single.max m (f d)) a = f d) := by
  induction l generalizing a with
  | nil => exact ⟨⟨le_rfl, fun _ hd => absurd hd List.not_mem_nil⟩, Or.inl rfl⟩
  | cons d l ih =>
      obtain ⟨⟨hstart, hrest⟩, hattained⟩ := ih (Single.max a (f d))
      have hmax : (Single.max a (f d) : ℚ) = Max.max a (f d) := rfl
      have hleft : a ≤ Single.max a (f d) := hmax ▸ le_max_left a (f d)
      have hright : f d ≤ Single.max a (f d) := hmax ▸ le_max_right a (f d)
      rw [List.foldl_cons]
      refine ⟨⟨hleft.trans hstart, ?_⟩, ?_⟩
      · intro e he
        rcases List.mem_cons.mp he with rfl | he
        · exact hright.trans hstart
        · exact hrest e he
      · rcases hattained with heq | ⟨e, he, heq⟩
        · rcases max_choice a (f d) with hchoice | hchoice
          · exact Or.inl (heq.trans (hmax.trans hchoice))
          · exact Or.inr ⟨d, List.mem_cons_self, heq.trans (hmax.trans hchoice)⟩
        · exact Or.inr ⟨e, List.mem_cons_of_mem d he, heq⟩

/-- The largest magnitude of a range bounds the range and is taken in it. -/
theorem maxAbs_spec (base : ℕ) {len : ℕ} (hlen : 0 < len) :
    (∀ d, base ≤ d → d < base + len → |at128 v d| ≤ maxAbs v base len) ∧
      ∃ d, (base ≤ d ∧ d < base + len) ∧ |at128 v d| = maxAbs v base len := by
  obtain ⟨⟨hzero, hbound⟩, hattained⟩ :=
    foldl_max_spec (fun d => Single.abs (at128 v d)) (List.range' base len) 0
  refine ⟨fun d hleft hright => hbound d (List.mem_range'_1.mpr ⟨hleft, hright⟩), ?_⟩
  rcases hattained with heq | ⟨d, hd, heq⟩
  · refine ⟨base, ⟨le_rfl, by omega⟩, ?_⟩
    have hle := hbound base (List.mem_range'_1.mpr ⟨le_rfl, by omega⟩)
    have hmax : maxAbs v base len = 0 := heq
    rw [hmax]
    exact le_antisymm (hle.trans heq.le) (abs_nonneg _)
  · exact ⟨d, List.mem_range'_1.mp hd, heq.symm⟩

/-- The global scale is the largest step, unless no step is positive. -/
theorem globalScale_spec (steps : List ℚ) : (∀ s ∈ steps, s ≤ globalScale steps) ∧
    (globalScale steps ∈ steps ∨ ∀ s ∈ steps, s ≤ 0) := by
  obtain ⟨⟨hzero, hbound⟩, hattained⟩ := foldl_max_spec id steps 0
  unfold globalScale
  dsimp only
  split_ifs with hpos
  · have hlt : 0 < steps.foldl Single.max (0 : ℚ) := (lt_iff _ _).mp hpos
    refine ⟨hbound, Or.inl ?_⟩
    rcases hattained with heq | ⟨s, hs, heq⟩
    · exact absurd heq hlt.ne'
    · exact heq ▸ hs
  · have hle : steps.foldl Single.max (0 : ℚ) ≤ 0 := not_lt.mp fun h => hpos ((lt_iff _ _).mpr h)
    exact ⟨fun s hs => ((hbound s hs).trans hle).trans one_pos.le,
      Or.inr fun s hs => (hbound s hs).trans hle⟩

/-- A group byte is at most `k` exactly when the step is under `k` and a half 255ths. -/
theorem groupByte_le_iff {global step : ℚ} (hglobal : 0 < global) (hstep : 0 ≤ step)
    (hle : step ≤ global) {k : ℕ} (hk : 1 ≤ k) :
    (groupByte global step).toNat ≤ k ↔ 510 * step < (2 * k + 1) * global := by
  have hratio : 0 ≤ step / global * 255 := by positivity
  have hround : Single.round (step / global * 255) =
      ((⌊step / global * 255 + 1 / 2⌋ : ℤ) : ℚ) := by
    change roundAway (step / global * 255) = _
    exact if_neg (not_lt.mpr hratio)
  have hbyte := groupByte_toNat global step hround
  have hunder : step / global * 255 ≤ 255 := by
    have hone : step / global ≤ 1 := (div_le_one hglobal).mpr hle
    linarith
  have hcast : ⌊step / global * 255 + 1 / 2⌋ ≤ (k : ℤ) ↔ 510 * step < (2 * k + 1) * global := by
    rw [← Int.lt_add_one_iff, Int.floor_lt]
    push_cast
    rw [← sub_pos, ← sub_pos (b := 510 * step)]
    have hmul : (2 * k + 1) * global - 510 * step =
        2 * global * (k + 1 - (step / global * 255 + 1 / 2)) := by
      field_simp
      ring
    rw [hmul]
    exact (mul_pos_iff_of_pos_left (by positivity)).symm
  rw [← hcast]
  have hfloor : ⌊step / global * 255 + 1 / 2⌋ ≤ 255 := by
    rw [← Int.lt_add_one_iff, Int.floor_lt]
    push_cast
    linarith
  unfold clampInt at hbyte
  omega

end Groups

section Peaks
variable (codec : LatentCodec) (v : Latent ℚ)

/-- The steps of the groups before they are rounded to bytes. -/
def idealSteps : List ℚ :=
  match codec with
  | .mixed => mixedSteps v fun mx => mx / Single.lit 7
  | .mix3 => mixedSteps v fun mx => mx / tq3HalfRange
  | .tq3 => groupSteps v fun mx => mx / tq3HalfRange
  | _ => groupSteps v fun mx => mx / Single.lit 7

theorem length_idealSteps : (idealSteps codec v).length = nGroups := by
  unfold idealSteps
  cases codec with
  | mixed => exact length_mixedSteps v _
  | mix3 => exact length_mixedSteps v _
  | _ => exact length_groupSteps v _

theorem quantised_scales {codec : LatentCodec} (hcodec : codec ∈ stepCodecs) (val : F32 → ℚ) :
    (quantised val codec v).2 = (globalScale (idealSteps codec v),
      groupBytes (globalScale (idealSteps codec v)) (idealSteps codec v)) := by
  cases codec with
  | int4Single => exact absurd hcodec (by decide)
  | nf4 => exact absurd hcodec (by decide)
  | _ => rfl

/-- The step of a group is the largest reach among its dimensions. -/
def IsPeak (g : ℕ) (s : ℚ) : Prop :=
  (∀ e : Fin dC, e.val < kept codec → groupOf codec e = g → reach codec v e ≤ s) ∧
    ∃ e : Fin dC, (e.val < kept codec ∧ groupOf codec e = g) ∧ reach codec v e = s

variable {codec v}

theorem isPeak_of_range {g base len : ℕ} {span : ℚ} (hlen : 0 < len) (hspan : 0 < span)
    (hin : base + len ≤ dC)
    (hrange : ∀ d, (d < kept codec ∧ groupOf codec d = g) ↔ base ≤ d ∧ d < base + len)
    (hgrid : ∀ d, base ≤ d → d < base + len → (grid codec d).span = span) :
    IsPeak codec v g (maxAbs v base len / span) := by
  obtain ⟨hbound, d, hd, hmax⟩ := maxAbs_spec v base hlen
  constructor
  · intro e hkept hgroup
    obtain ⟨hleft, hright⟩ := (hrange e).mp ⟨hkept, hgroup⟩
    unfold reach
    rw [hgrid e hleft hright, ← at128_val v e]
    exact div_le_div_of_nonneg_right (hbound e hleft hright) hspan.le
  · have hlt : d < dC := by omega
    refine ⟨⟨d, hlt⟩, (hrange d).mpr hd, ?_⟩
    unfold reach
    rw [hgrid d hd.1 hd.2, ← hmax, ← at128_val v ⟨d, hlt⟩]

theorem getD_groupSteps (step : ℚ → ℚ) {g : ℕ} (hg : g < nGroups) :
    (groupSteps v step).getD g 0 = step (maxAbs v (g * groupDim) groupDim) := by
  unfold groupSteps
  rw [List.getD_eq_getElem?_getD, List.getElem?_map, List.getElem?_range hg]
  rfl

theorem getD_mixedSteps (step : ℚ → ℚ) {g : ℕ} (hg : g < mixedLoGroups) :
    (mixedSteps v step).getD (g + 1) 0 =
      step (maxAbs v (mixedHiDims + g * groupDim) groupDim) := by
  unfold mixedSteps
  rw [List.getD_cons_succ, List.getD_eq_getElem?_getD, List.getElem?_map,
    List.getElem?_range hg]
  rfl

/-- The groups of sixteen dimensions, eight of them. -/
theorem isPeak_grouped {g : ℕ} (hg : g < nGroups) (hcodec : codec = .int4Grouped ∨ codec = .tq3) :
    IsPeak codec v g (maxAbs v (g * groupDim) groupDim / (grid codec 0).span) := by
  have hgroups : g < 8 := hg
  have hin : g * groupDim + groupDim ≤ dC := by
    change g * 16 + 16 ≤ 128
    omega
  rcases hcodec with rfl | rfl
  all_goals
    apply isPeak_of_range (by decide) (Grid.span_pos _) hin _ fun _ _ _ => rfl
    intro d
    change (d < 128 ∧ d / 16 = g) ↔ g * 16 ≤ d ∧ d < g * 16 + 16
    omega

theorem grid_head (hcodec : codec = .mixed ∨ codec = .mix3) {d : ℕ} (hd : d < mixedHiDims) :
    grid codec d = .byte := by
  rcases hcodec with rfl | rfl <;> exact if_pos hd

theorem grid_body (hcodec : codec = .mixed ∨ codec = .mix3) {d : ℕ} (hd : ¬ d < mixedHiDims) :
    grid codec d = grid codec mixedHiDims := by
  rcases hcodec with rfl | rfl <;> exact if_neg hd

/-- The head of eight dimensions. -/
theorem isPeak_head (hcodec : codec = .mixed ∨ codec = .mix3) :
    IsPeak codec v 0 (maxAbs v 0 mixedHiDims / Grid.byte.span) := by
  apply isPeak_of_range (by decide) (Grid.span_pos _) (by decide)
  · intro d
    have hiff : (d < 120 ∧ (if d < 8 then 0 else 1 + (d - 8) / 16) = 0) ↔ 0 ≤ d ∧ d < 0 + 8 := by
      by_cases hd : d < 8
      · rw [if_pos hd]
        omega
      · rw [if_neg hd]
        omega
    rcases hcodec with rfl | rfl <;> exact hiff
  · intro d _ hd
    rw [grid_head hcodec (by omega)]

/-- The seven groups after the head. -/
theorem isPeak_body {g : ℕ} (hg : g < mixedLoGroups) (hcodec : codec = .mixed ∨ codec = .mix3) :
    IsPeak codec v (g + 1)
      (maxAbs v (mixedHiDims + g * groupDim) groupDim / (grid codec mixedHiDims).span) := by
  have hgroups : g < 7 := hg
  have hin : mixedHiDims + g * groupDim + groupDim ≤ dC := by
    change 8 + g * 16 + 16 ≤ 128
    omega
  apply isPeak_of_range (by decide) (Grid.span_pos _) hin
  · intro d
    have hiff : (d < 120 ∧ (if d < 8 then 0 else 1 + (d - 8) / 16) = g + 1) ↔
        8 + g * 16 ≤ d ∧ d < 8 + g * 16 + 16 := by
      by_cases hd : d < 8
      · rw [if_pos hd]
        omega
      · rw [if_neg hd]
        omega
    rcases hcodec with rfl | rfl <;> exact hiff
  · intro d hleft _
    rw [grid_body hcodec (by omega)]

/-- Every step is the peak of its group. -/
theorem isPeak_idealSteps (hcodec : codec ∈ stepCodecs) {g : ℕ} (hg : g < nGroups) :
    IsPeak codec v g ((idealSteps codec v).getD g 0) := by
  have hbody : g ≠ 0 → ∃ g', g = g' + 1 ∧ g' < mixedLoGroups := by
    intro hne
    have hgroups : g < 8 := hg
    refine ⟨g - 1, by omega, ?_⟩
    change g - 1 < 7
    omega
  cases codec with
  | int4Single => exact absurd hcodec (by decide)
  | nf4 => exact absurd hcodec (by decide)
  | int4Grouped =>
      unfold idealSteps
      rw [getD_groupSteps _ hg]
      exact isPeak_grouped hg (Or.inl rfl)
  | tq3 =>
      unfold idealSteps
      rw [getD_groupSteps _ hg]
      exact isPeak_grouped hg (Or.inr rfl)
  | mixed =>
      by_cases hzero : g = 0
      · subst hzero
        exact isPeak_head (Or.inl rfl)
      · obtain ⟨g', rfl, hg'⟩ := hbody hzero
        unfold idealSteps
        rw [getD_mixedSteps _ hg']
        exact isPeak_body hg' (Or.inl rfl)
  | mix3 =>
      by_cases hzero : g = 0
      · subst hzero
        exact isPeak_head (Or.inr rfl)
      · obtain ⟨g', rfl, hg'⟩ := hbody hzero
        unfold idealSteps
        rw [getD_mixedSteps _ hg']
        exact isPeak_body hg' (Or.inr rfl)

end Peaks

section Contract
variable {val : F32 → ℚ} {codec : LatentCodec} {v : Latent ℚ} {t : SciRustSlhaTile} {d : Fin dC}

theorem groupOf_lt {e : ℕ} (he : e < kept codec) : groupOf codec e < nGroups := by
  have hgrouped : e < 128 → e / 16 < 8 := by omega
  have hmixed : e < 120 → (if e < 8 then 0 else 1 + (e - 8) / 16) < 8 := by
    intro hlt
    by_cases hd : e < 8
    · rw [if_pos hd]
      omega
    · rw [if_neg hd]
      omega
  cases codec with
  | mixed => exact hmixed he
  | mix3 => exact hmixed he
  | _ => exact hgrouped he

theorem reach_nonneg (codec : LatentCodec) (v : Latent ℚ) (d : Fin dC) : 0 ≤ reach codec v d :=
  div_nonneg (abs_nonneg _) (Grid.span_pos _).le

theorem mem_idealSteps {g : ℕ} (hg : g < nGroups) :
    (idealSteps codec v).getD g 0 ∈ idealSteps codec v := by
  have hlt : g < (idealSteps codec v).length := (length_idealSteps codec v).symm ▸ hg
  rw [List.getD_eq_getElem _ _ hlt]
  exact List.getElem_mem hlt

/-- The largest reach is the global scale, unless it vanishes. -/
theorem top_reach (hcodec : codec ∈ stepCodecs) {top : Fin dC} (hkept : top.val < kept codec)
    (htop : ∀ e : Fin dC, e.val < kept codec → reach codec v e ≤ reach codec v top)
    (hpos : 0 < reach codec v top) : reach codec v top = globalScale (idealSteps codec v) := by
  obtain ⟨hbound, hattained⟩ := globalScale_spec (idealSteps codec v)
  have hgroup := groupOf_lt hkept
  have hle : reach codec v top ≤ (idealSteps codec v).getD (groupOf codec top) 0 :=
    (isPeak_idealSteps hcodec hgroup).1 top hkept rfl
  apply le_antisymm (hle.trans (hbound _ (mem_idealSteps hgroup)))
  rcases hattained with hin | hnone
  · obtain ⟨g, hg, hget⟩ := List.getElem_of_mem hin
    obtain ⟨-, e, ⟨hkepte, -⟩, hreach⟩ :=
      isPeak_idealSteps (v := v) hcodec (length_idealSteps codec v ▸ hg)
    rw [List.getD_eq_getElem _ _ hg, hget] at hreach
    rw [← hreach]
    exact htop e hkepte
  · exact absurd (hle.trans (hnone _ (mem_idealSteps hgroup))) (not_le.mpr hpos)

/-- Overshooting as the quantiser sees it, in terms of its scale and of the byte of the group. -/
theorem overshoots_iff (hcodec : codec ∈ stepCodecs) (hd : d.val < kept codec) {b : ℕ}
    (hb : (groupByte (globalScale (idealSteps codec v))
      ((idealSteps codec v).getD (groupOf codec d) 0)).toNat = b) :
    Overshoots codec v d ↔
      (grid codec d).up * b * globalScale (idealSteps codec v) < 255 * v d ∨
        255 * v d < -((grid codec d).down * b * globalScale (idealSteps codec v)) := by
  have hgroup := groupOf_lt hd
  obtain ⟨hbound, hattained⟩ := globalScale_spec (idealSteps codec v)
  have hglobal := globalScale_pos (idealSteps codec v)
  obtain ⟨hpeak, e, ⟨hkepte, hsame⟩, hreach⟩ := isPeak_idealSteps (v := v) hcodec hgroup
  have hle := hbound _ (mem_idealSteps (v := v) hgroup)
  have hbpos : 1 ≤ b := hb ▸ groupByte_pos _ _
  rw [← hreach] at hb hle
  have hbyte : ∀ {k : ℕ}, 1 ≤ k → (b ≤ k ↔ 510 * reach codec v e <
      (2 * k + 1) * globalScale (idealSteps codec v)) := by
    intro k hk
    rw [← hb]
    exact groupByte_le_iff hglobal (reach_nonneg codec v e) hle hk
  have hup := (grid codec d).up_pos
  have hdown := (grid codec d).down_pos
  constructor
  · rintro ⟨top, k, hk, hkept, htop, hunder, hover⟩
    have hpos : 0 < reach codec v top := by
      have hmul := (mul_nonneg (by norm_num) (reach_nonneg codec v d)).trans_lt (hunder d hd rfl)
      exact (pos_iff_pos_of_mul_pos hmul).mp (by positivity)
    rw [top_reach hcodec hkept htop hpos] at hunder hover
    have hbk : (b : ℚ) ≤ k := by exact_mod_cast (hbyte hk).mpr (hunder e hkepte hsame)
    rcases hover with hover | hover
    · left
      refine lt_of_le_of_lt ?_ hover
      gcongr
    · right
      refine lt_of_lt_of_le hover (neg_le_neg ?_)
      gcongr
  · intro hover
    have hreachd : 0 < reach codec v d := by
      have hb' : (1 : ℚ) ≤ b := by exact_mod_cast hbpos
      refine div_pos (abs_pos.mpr fun hzero => ?_) (Grid.span_pos _)
      rw [hzero, mul_zero] at hover
      have hmulup : 0 < (grid codec d).up * b * globalScale (idealSteps codec v) := by positivity
      have hmuldown : 0 < (grid codec d).down * b * globalScale (idealSteps codec v) := by
        positivity
      rcases hover with hover | hover <;> linarith
    have hin : globalScale (idealSteps codec v) ∈ idealSteps codec v := by
      rcases hattained with hin | hnone
      · exact hin
      · exact absurd ((hpeak d hd rfl).trans (hnone _ (mem_idealSteps hgroup)))
          (not_le.mpr hreachd)
    obtain ⟨g, hg, hget⟩ := List.getElem_of_mem hin
    obtain ⟨-, top, ⟨hkept, -⟩, htop⟩ :=
      isPeak_idealSteps (v := v) hcodec (length_idealSteps codec v ▸ hg)
    rw [List.getD_eq_getElem _ _ hg, hget] at htop
    refine ⟨top, b, hbpos, hkept, ?_, ?_, ?_⟩
    · intro e' he'
      rw [htop]
      exact ((isPeak_idealSteps hcodec (groupOf_lt he')).1 e' he' rfl).trans
        (hbound _ (mem_idealSteps (groupOf_lt he')))
    · intro e' he' hsame'
      rw [htop]
      have hle' : reach codec v e' ≤ reach codec v e := by
        rw [hreach]
        exact hpeak e' he' hsame'
      have hmax := (hbyte hbpos).mp le_rfl
      linarith
    · rw [htop]
      exact hover

/-- A value and its decoding are a step of the group apart at most. -/
def WithinStep (val : F32 → ℚ) (codec : LatentCodec) (v : Latent ℚ) (t : SciRustSlhaTile)
    (d : Fin dC) : Prop :=
  |dequantAt val t d.val - v d| ≤
    val t.scale * (t.groupScales.1.getD (groupOf codec d.val) 0).toNat / 255

/-- In steps, a value is in bounds exactly when its quotient is. -/
theorem within_iff_overshoots (hcodec : codec ∈ stepCodecs) (h : Stores val codec v t)
    (hd : d.val < kept codec) : WithinStep val codec v t d ↔ ¬ Overshoots codec v d := by
  obtain ⟨hpos, heq⟩ := dequantAt_stored h hd
  rw [overshoots_iff hcodec hd rfl]
  have hscales := quantised_scales v hcodec val
  have hstep : stepAt val t codec d.val = globalScale (idealSteps codec v) *
      (groupByte (globalScale (idealSteps codec v))
        ((idealSteps codec v).getD (groupOf codec d) 0)).toNat / 255 := by
    have hlt : groupOf codec d < (idealSteps codec v).length :=
      (length_idealSteps codec v).symm ▸ groupOf_lt hd
    rw [stepAt_stored h, hscales]
    unfold stepOf
    rw [getD_groupBytes _ _ hlt]
  generalize (groupByte (globalScale (idealSteps codec v))
    ((idealSteps codec v).getD (groupOf codec d) 0)).toNat = b at *
  have hlevel := levelOf_within hcodec val d.val (v d / stepAt val t codec d.val)
  have hquotient : WithinStep val codec v t d ↔
      -(grid codec d).down ≤ v d / stepAt val t codec d.val ∧
        v d / stepAt val t codec d.val ≤ (grid codec d).up := by
    rw [← hlevel]
    unfold WithinStep
    change _ ≤ stepAt val t codec d.val ↔ _
    rw [heq, scaled_dist hpos]
    exact mul_le_iff_le_one_left hpos
  rw [hquotient, le_div_iff₀ hpos, div_le_iff₀ hpos, hstep, not_or, not_lt, not_lt]
  constructor
  · rintro ⟨hunder, hover⟩
    constructor <;> linarith
  · rintro ⟨hover, hunder⟩
    constructor <;> linarith

/-- A latent of two values, the larger one 255 and the smaller one, in another group, 1.375. -/
def spread : Latent ℚ := fun d => if d.val = 8 then 255 else if d.val = 24 then 11 / 8 else 0

theorem spread_overshoots (hcodec : codec ∈ stepCodecs) :
    Overshoots codec spread ⟨24, by decide⟩ := by
  have hapart : 8 < kept codec ∧ groupOf codec 8 ≠ groupOf codec 24 := by
    cases codec <;> decide
  obtain ⟨g, hgrid8, hgrid24, hkind⟩ :
      ∃ g, grid codec 8 = g ∧ grid codec 24 = g ∧ (g = .nibble ∨ g = .threeBit) := by
    cases codec with
    | int4Grouped => exact ⟨.nibble, rfl, rfl, Or.inl rfl⟩
    | mixed => exact ⟨.nibble, rfl, rfl, Or.inl rfl⟩
    | tq3 => exact ⟨.threeBit, rfl, rfl, Or.inr rfl⟩
    | mix3 => exact ⟨.threeBit, rfl, rfl, Or.inr rfl⟩
    | int4Single => exact absurd hcodec (by decide)
    | nf4 => exact absurd hcodec (by decide)
  have hspan := g.span_pos
  have htop : reach codec spread ⟨8, by decide⟩ = 255 / g.span := by
    unfold reach
    rw [hgrid8]
    norm_num [spread]
  have hrest : ∀ e : Fin dC, e.val ≠ 8 → reach codec spread e ≤ 11 / 8 / g.span := by
    intro e hne
    unfold reach
    by_cases he : e.val = 24
    · rw [he, hgrid24]
      norm_num [spread, he]
    · have hzero : spread e = 0 := (if_neg hne).trans (if_neg he)
      rw [hzero, abs_zero, zero_div]
      positivity
  refine ⟨⟨8, by decide⟩, 1, le_rfl, hapart.1, ?_, ?_, Or.inl ?_⟩
  · intro e _
    rw [htop]
    by_cases he : e.val = 8
    · have heq : e = ⟨8, by decide⟩ := Fin.ext he
      rw [heq, htop]
    · refine (hrest e he).trans ?_
      gcongr
      norm_num
  · intro e _ hsame
    have hne : e.val ≠ 8 := by
      intro he
      rw [he] at hsame
      exact hapart.2 hsame
    have hle := hrest e hne
    have hquot : 510 * (11 / 8 / g.span) < 765 / g.span := by
      rw [← mul_div_assoc]
      gcongr
      norm_num
    rw [htop]
    push_cast
    calc 510 * reach codec spread e ≤ 510 * (11 / 8 / g.span) := by gcongr
      _ < 765 / g.span := hquot
      _ = (2 * 1 + 1) * (255 / g.span) := by ring
  · have hvalue : spread ⟨24, by decide⟩ = 11 / 8 := rfl
    rw [htop, hvalue]
    change (grid codec 24).up * _ * _ < _
    rw [hgrid24]
    rcases hkind with rfl | rfl <;> norm_num [Grid.up, Grid.span]

theorem step_bound_exceeded :
    (∃ val t, Stores val .int4Grouped spread t ∧
      ¬ WithinStep val .int4Grouped spread t ⟨24, by decide⟩) ∧
    (∃ val t, Stores val .mixed spread t ∧ ¬ WithinStep val .mixed spread t ⟨24, by decide⟩) ∧
    (∃ val t, Stores val .tq3 spread t ∧ ¬ WithinStep val .tq3 spread t ⟨24, by decide⟩) ∧
    ∃ val t, Stores val .mix3 spread t ∧ ¬ WithinStep val .mix3 spread t ⟨24, by decide⟩ := by
  have hexceeds : ∀ codec ∈ stepCodecs, 24 < kept codec → ∃ val t, Stores val codec spread t ∧
      ¬ WithinStep val codec spread t ⟨24, by decide⟩ := by
    intro codec hcodec hkept
    obtain ⟨val, t, -, h⟩ := exists_stores codec spread
    refine ⟨val, t, h, fun hwithin => ?_⟩
    exact (within_iff_overshoots hcodec h hkept).mp hwithin (spread_overshoots hcodec)
  exact ⟨hexceeds _ (by decide) (by decide), hexceeds _ (by decide) (by decide),
    hexceeds _ (by decide) (by decide), hexceeds _ (by decide) (by decide)⟩

/-- The values that a codec keeps decode within the stored step of their group, all but those
that overshoot. -/
theorem decode_within_step_iff (hcodec : codec ∈ stepCodecs) (h : Stores val codec v t) :
    ∀ d : Fin dC, d.val < kept codec → (WithinStep val codec v t d ↔ ¬ Overshoots codec v d) :=
  fun _ hd => within_iff_overshoots hcodec h hd

theorem decode_within_step_iff_spread : ∃ val t, Stores val .tq3 spread t ∧
    (WithinStep val .tq3 spread t ⟨24, by decide⟩ ↔
      ¬ Overshoots .tq3 spread ⟨24, by decide⟩) := by
  obtain ⟨val, t, -, h⟩ := exists_stores .tq3 spread
  exact ⟨val, t, h, decode_within_step_iff (by decide) h ⟨24, by decide⟩ (by decide)⟩

end Contract

end SlhaV2.StepBound

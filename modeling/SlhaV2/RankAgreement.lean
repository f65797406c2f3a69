import SlhaV2.RankDataset

/-!
# Written files and the recording

A flush that succeeds writes the image of each layer that has rows. The file is
the image of the recording as the reader should return it, and that layer is
well formed, exactly when the recording is readable.
-/
namespace SlhaV2.RankAgreement
open MachineWord ByteBuffer CheckedSteps OrderedMap FloatingPoint CalibrationFiles
open Calibration (scalarBytes)
open RankReader RankFormat RankCollector RankDataset

theorem mem_writeLayers {disk : Disk} {dir : String} {entries : List (ℤ × LayerData)}
    {f : LayerFile} (h : f ∈ (writeLayers disk dir entries).2) :
    ∃ L, (f.layer, L) ∈ entries ∧ L.rows ≠ 0 ∧ f.bytes = fileBytes f.layer L := by
  induction entries with
  | nil => cases h
  | cons e entries ih =>
      obtain ⟨layer, L⟩ := e
      have hlater : f ∈ (writeLayers disk dir entries).2 →
          ∃ K, (f.layer, K) ∈ (layer, L) :: entries ∧ K.rows ≠ 0 ∧
            f.bytes = fileBytes f.layer K := by
        intro hf
        obtain ⟨K, hK, hrest⟩ := ih hf
        exact ⟨K, List.mem_cons_of_mem _ hK, hrest⟩
      unfold writeLayers at h
      by_cases hr : L.rows = 0
      · rw [if_pos hr] at h
        exact hlater h
      · rw [if_neg hr] at h
        dsimp only at h
        split_ifs at h with ho hw
        · cases h
        · cases h
        · rcases List.mem_cons.mp h with rfl | hf
          · exact ⟨L, List.mem_cons_self, hr, rfl⟩
          · exact hlater hf

/-- A file of a flush is the image of its layer. -/
theorem mem_flush {disk : Disk} {s : State} {f : LayerFile} (h : f ∈ (flush disk s).files) :
    (s.layer f.layer).rows ≠ 0 ∧ f.bytes = fileBytes f.layer (s.layer f.layer) := by
  have hw : f ∈ (writeLayers disk s.dir s.layers.entries).2 := by
    unfold flush at h
    dsimp only at h
    split_ifs at h with h₁ h₂ h₃ h₄
    · cases h
    · cases h
    · exact h
    · exact h
    · exact h
  obtain ⟨L, hmem, hr, hb⟩ := mem_writeLayers hw
  have hL : s.layer f.layer = L := by
    unfold State.layer
    rw [Table.find_eq_some.mpr (show (f.layer, L) ∈ s.layers from hmem), Option.getD_some]
  rw [hL]
  exact ⟨hr, hb⟩

theorem i32Bytes_ofNat (n : ℕ) : i32Bytes (Int32.ofNat n) = leBytes 4 n := by
  have hn : (Int32.ofNat n).toBitVec.toNat = n % 2 ^ 32 := rfl
  unfold i32Bytes
  apply leNat_injective
  · rw [length_leBytes, length_leBytes]
  · rw [leNat_leBytes, leNat_leBytes, hn]
    exact Nat.mod_mod n (2 ^ 32)

theorem flatMap_i32 {α : Type} (xs : List α) (f : α → ℕ) :
    (xs.map fun x => Int32.ofNat (f x)).flatMap i32Bytes = (xs.map f).flatMap (leBytes 4) := by
  rw [List.flatMap_map, List.flatMap_map]
  apply List.flatMap_congr
  intro x _
  exact i32Bytes_ofNat (f x)

theorem length_words {k : ℕ} (xs : List ℕ) : (xs.flatMap (leBytes k)).length = xs.length * k := by
  induction xs with
  | nil => simp
  | cons x xs ih =>
      rw [List.flatMap_cons, List.length_append, ih, length_leBytes, List.length_cons,
        Nat.add_mul, Nat.one_mul, Nat.add_comm]

/-- Words of one size are read back from their images. -/
theorem flatMap_words_injective {xs ys : List ℕ} (hl : xs.length = ys.length)
    (hx : ∀ x ∈ xs, x < 256 ^ 8) (hy : ∀ y ∈ ys, y < 256 ^ 8)
    (h : xs.flatMap (leBytes 8) = ys.flatMap (leBytes 8)) : xs = ys := by
  induction xs generalizing ys with
  | nil => exact (List.eq_nil_of_length_eq_zero hl.symm).symm
  | cons x xs ih =>
      cases ys with
      | nil => cases hl
      | cons y ys =>
          rw [List.flatMap_cons, List.flatMap_cons] at h
          obtain ⟨hhead, htail⟩ := List.append_inj h (by rw [length_leBytes, length_leBytes])
          have hxy := congrArg leNat hhead
          rw [leNat_leBytes_of_lt (hx x List.mem_cons_self),
            leNat_leBytes_of_lt (hy y List.mem_cons_self)] at hxy
          rw [hxy, ih (by simpa using hl) (fun z hz => hx z (List.mem_cons_of_mem x hz))
            (fun z hz => hy z (List.mem_cons_of_mem y hz)) htail]

/-- The bytes of a layer after its header. -/
def bodyOf (L : LayerData) : List UInt8 :=
  L.keyRows.flatMap (leBytes 8) ++ (L.head.flatMap i32Bytes ++ (L.gqaGroup.flatMap i32Bytes ++
    (L.token.flatMap i64Bytes ++ (L.nVisible.flatMap i32Bytes ++ (L.chunk.flatMap i32Bytes ++
      (L.q.flatMap scalarBytes ++ (L.b.flatMap scalarBytes ++ (L.s.flatMap scalarBytes ++
        L.keys.flatMap fun ck => ck.flatMap scalarBytes))))))))

theorem fileBytes_eq (layer : ℤ) (L : LayerData) : fileBytes layer L =
    headerBytes (layer % 2 ^ 32).toNat (L.qDim % 2 ^ 32) L.rows L.keys.length (L.keyDim % 2 ^ 32)
      (leBytes 4 0) ++ bodyOf L := by
  unfold fileBytes headerBytes bodyOf
  simp only [List.append_assoc]
  rfl

variable {L : LayerData} {rec : Recorded}

/-- The columns are those of the layer to be read; only the counts of keys can differ. -/
theorem bodyOf_eq (h : Images L rec) (layer : ℤ) :
    bodyOf L = ((List.range rec.slots).map rec.count).flatMap (leBytes 8) ++
      (bodyBytes (asRead layer rec)).drop (rec.slots * 8) := by
  have hk : (keyRows (asRead layer rec)).length = rec.slots := by
    unfold keyRows asRead
    rw [List.length_map, List.length_map, List.length_range]
  have hdrop : (bodyBytes (asRead layer rec)).drop (rec.slots * 8) =
      (asRead layer rec).heads.flatMap i32Bytes ++
    ((asRead layer rec).gqaGroups.flatMap i32Bytes ++
      ((asRead layer rec).tokens.flatMap i64Bytes ++
        ((asRead layer rec).nVisible.flatMap (leBytes 4) ++
          ((asRead layer rec).chunks.flatMap (leBytes 4) ++
            ((asRead layer rec).q.flatMap scalarBytes ++
              ((asRead layer rec).baseline.flatMap scalarBytes ++
                ((asRead layer rec).controlScores.flatMap scalarBytes ++
                  (asRead layer rec).keys.flatMap fun block => block.flatMap scalarBytes))))))) := by
    unfold bodyBytes
    exact List.drop_left' (by rw [length_words, hk])
  rw [hdrop]
  unfold bodyOf asRead
  rw [h.keyRows, h.head, h.gqaGroup, h.token, h.nVisible, h.chunk, h.q, h.b, h.s, h.keys,
    flatMap_i32, flatMap_i32]

theorem length_keyRows_asRead (layer : ℤ) (rec : Recorded) :
    (keyRows (asRead layer rec)).length = rec.slots := by
  unfold keyRows asRead
  rw [List.length_map, List.length_map, List.length_range]

theorem bodyBytes_asRead (layer : ℤ) (rec : Recorded) : bodyBytes (asRead layer rec) =
    (keyRows (asRead layer rec)).flatMap (leBytes 8) ++
      (bodyBytes (asRead layer rec)).drop (rec.slots * 8) := by
  have htake : (bodyBytes (asRead layer rec)).take (rec.slots * 8) =
      (keyRows (asRead layer rec)).flatMap (leBytes 8) := by
    unfold bodyBytes
    exact List.take_left' (by rw [length_words, length_keyRows_asRead])
  rw [← htake, List.take_append_drop]

/-- What a file holds is no larger than the cap. -/
structure Small (rec : Recorded) : Prop where
  slots : rec.slots * 8 ≤ maxDatasetFileBytes
  q : (rec.rows.flatMap Row.q).length * 4 ≤ maxDatasetFileBytes
  b : (rec.rows.flatMap Row.b).length * 4 ≤ maxDatasetFileBytes
  data : ∀ c block, rec.blocks c = some block → block.data.length * 4 ≤ maxDatasetFileBytes

theorem length_le_flatMap {α : Type} {f : α → List F32} {xs : List α} {x : α} (h : x ∈ xs) :
    (f x).length ≤ (xs.flatMap f).length := by
  rw [List.length_flatMap]
  exact List.single_le_sum (fun _ _ => Nat.zero_le _) _ (List.mem_map_of_mem (f := fun x => (f x).length) h)

theorem small_of_file (h : Images L rec) {layer : ℤ}
    (hcap : (fileBytes layer L).length ≤ maxDatasetFileBytes) : Small rec := by
  have hk : (L.keyRows.flatMap (leBytes 8)).length = rec.slots * 8 := by
    rw [length_words, h.keyRows, List.length_map, List.length_range]
  have hdata : ∀ c block, rec.blocks c = some block →
      block.data.length * 4 ≤ (L.keys.flatMap fun ck => ck.flatMap scalarBytes).length := by
    intro c block hb
    have hmem : block.data ∈ L.keys := by
      rw [h.keys]
      refine List.mem_map.mpr ⟨c, List.mem_range.mpr (h.bounded c block hb), ?_⟩
      unfold Recorded.data
      rw [hb]
    rw [List.length_flatMap, ← length_scalars]
    exact List.single_le_sum (fun _ _ => Nat.zero_le _) _
      (List.mem_map_of_mem (f := fun ck => (ck.flatMap scalarBytes).length) hmem)
  rw [fileBytes_eq, List.length_append] at hcap
  unfold bodyOf at hcap
  simp only [List.length_append] at hcap
  have hq := length_scalars L.q
  have hb := length_scalars L.b
  rw [h.q] at hq
  rw [h.b] at hb
  rw [h.q, h.b] at hcap
  constructor
  · omega
  · omega
  · omega
  · intro c block hc
    have := hdata c block hc
    omega

theorem length_rows_le (rows : List Row) : rows.length ≤ (rows.flatMap Row.q).length := by
  induction rows with
  | nil => exact Nat.zero_le _
  | cons r rows ih =>
      have hpos := r.positive.1
      rw [List.flatMap_cons, List.length_append, List.length_cons]
      omega

theorem exists_row_qDim (h : rec.rows ≠ []) : ∃ r ∈ rec.rows, rec.qDim = r.q.length := by
  unfold Recorded.qDim
  cases hr : rec.rows with
  | nil => exact absurd hr h
  | cons r rs => exact ⟨r, List.mem_cons_self, rfl⟩

theorem keyRows_asRead (layer : ℤ) (rec : Recorded) : keyRows (asRead layer rec) =
    (List.range rec.slots).map fun c => (rec.data c).length / rec.keyDim := by
  unfold keyRows asRead
  rw [List.map_map]
  rfl

/-- With keys of one width the counts written are those to be read. -/
theorem counts_eq (hpos : 0 < rec.keyDim)
    (hw : ∀ c block, rec.blocks c = some block → block.dim = rec.keyDim) (layer : ℤ) :
    (List.range rec.slots).map rec.count = keyRows (asRead layer rec) := by
  rw [keyRows_asRead]
  apply List.map_congr_left
  intro c _
  unfold Recorded.count Recorded.data
  cases hb : rec.blocks c with
  | none => exact (Nat.zero_div _).symm
  | some block =>
      change block.nRows = block.data.length / rec.keyDim
      rw [block.size, hw c block hb, Nat.mul_div_cancel _ hpos]

/-- Counts that are read back come from keys of one width. -/
theorem width_of_counts {layer : ℤ} (hb : ∀ c block, rec.blocks c = some block → c < rec.slots)
    (he : (List.range rec.slots).map rec.count = keyRows (asRead layer rec))
    (hd : ∀ block ∈ (asRead layer rec).keys, rec.keyDim ∣ block.length) :
    ∀ c block, rec.blocks c = some block → block.dim = rec.keyDim := by
  intro c block hc
  have hlt := hb c block hc
  rw [keyRows_asRead] at he
  have hcount := List.map_inj_left.mp he c (List.mem_range.mpr hlt)
  have hdvd := hd (rec.data c) (List.mem_map.mpr ⟨c, List.mem_range.mpr hlt, rfl⟩)
  have hdata : rec.data c = block.data := by
    unfold Recorded.data
    rw [hc]
  have hrows : rec.count c = block.nRows := by
    unfold Recorded.count
    rw [hc]
  rw [hdata] at hcount hdvd
  rw [hrows] at hcount
  have hmul := Nat.div_mul_cancel hdvd
  rw [← hcount, block.size] at hmul
  exact (Nat.eq_of_mul_eq_mul_left block.positive.1 hmul).symm

theorem readable_width (h : Images L rec) (hr : Readable rec) :
    ∀ c block, rec.blocks c = some block → block.dim = rec.keyDim := by
  intro c block hc
  have hlt := h.bounded c block hc
  obtain ⟨c', block', hc', hd⟩ := h.last (by omega)
  rw [hr.width c c' block block' hc hc', hd]

theorem finite_flatMap {f : Row → List F32} {rows : List Row} (h : ∀ r ∈ rows, AllFinite (f r)) :
    AllFinite (rows.flatMap f) := by
  intro x hx
  obtain ⟨r, hr, hxr⟩ := List.mem_flatMap.mp hx
  exact h r hr x hxr

theorem length_flatMap_eq {f : Row → List F32} {rows : List Row} {g : Row → ℕ}
    (h : ∀ r ∈ rows, (f r).length = g r) : (rows.flatMap f).length = (rows.map g).sum := by
  rw [List.length_flatMap, List.map_congr_left h]

/-- A row of the columns, with its number. -/
theorem getElem?_chunks {layer : ℤ} {i chunk : ℕ}
    (h : (asRead layer rec).chunks[i]? = some chunk) :
    ∃ r, r ∈ rec.rows ∧ r.chunk = chunk ∧
      (asRead layer rec).nVisible[i]? = some r.b.length := by
  unfold asRead at h ⊢
  dsimp only at h ⊢
  rw [List.getElem?_map] at h
  obtain ⟨r, hr, hc⟩ := Option.map_eq_some_iff.mp h
  refine ⟨r, List.mem_of_getElem? hr, hc, ?_⟩
  rw [List.getElem?_map, hr, Option.map_some]

theorem wellFormed_of_readable (h : Images L rec) (hne : rec.rows ≠ []) (hs : Small rec)
    (hr : Readable rec) (layer : ℤ) : WellFormed (asRead layer rec) := by
  have hw := readable_width h hr
  have hcap : maxDatasetFileBytes = 2 ^ 29 := rfl
  have hslots := hs.slots
  have hqs := hs.q
  have hbs := hs.b
  have hrows := length_rows_le rec.rows
  obtain ⟨r₀, hr₀, hq₀⟩ := exists_row_qDim hne
  have hq₁ := @length_le_flatMap _ Row.q _ _ hr₀
  have hpos₀ := r₀.positive.1
  obtain ⟨block₀, hb₀, -⟩ := hr.rows r₀ hr₀
  have hk₀ := hw _ _ hb₀
  have hsize₀ := block₀.size
  have hpos₁ := block₀.positive
  have hdata₀ := hs.data _ _ hb₀
  have hlt₀ := h.bounded _ _ hb₀
  have hkey : rec.keyDim ≤ block₀.data.length := by
    rw [hsize₀, ← hk₀]
    exact Nat.le_mul_of_pos_left _ hpos₁.1
  have hcounts := counts_eq (by omega) hw layer
  have hlen : (asRead layer rec).keys.length = rec.slots := by
    unfold asRead
    rw [List.length_map, List.length_range]
  constructor
  · constructor
    · exact List.length_map _
    · exact List.length_map _
    · exact List.length_map _
    · exact List.length_map _
    · intro v hv
      obtain ⟨r, hmem, rfl⟩ := List.mem_map.mp hv
      have hle := @length_le_flatMap _ Row.b _ _ hmem
      have hpos := r.positive.2
      omega
    · exact List.length_map _
    · intro i chunk hi
      obtain ⟨r, hmem, rfl, hv⟩ := getElem?_chunks hi
      obtain ⟨block, hb, hle⟩ := hr.rows r hmem
      have hlt := h.bounded _ _ hb
      refine ⟨by omega, r.b.length, block.nRows, hv, ?_, hle⟩
      rw [← hcounts, List.getElem?_map, List.getElem?_range hlt, Option.map_some]
      unfold Recorded.count
      rw [hb]
    · refine ⟨?_, finite_flatMap fun r _ => r.finite.1⟩
      change (rec.rows.flatMap Row.q).length = rec.rows.length * rec.qDim
      rw [length_flatMap_eq h.queries, List.map_const', List.sum_replicate_nat]
    · exact ⟨length_flatMap_eq fun r _ => rfl, finite_flatMap fun r _ => r.finite.2.1⟩
    · exact ⟨length_flatMap_eq fun r _ => r.paired, finite_flatMap fun r _ => r.finite.2.2⟩
    · intro data hd
      obtain ⟨c, -, rfl⟩ := List.mem_map.mp hd
      unfold Recorded.data
      cases hb : rec.blocks c with
      | none => exact ⟨Nat.dvd_zero _, fun x hx => absurd hx List.not_mem_nil⟩
      | some block =>
          refine ⟨?_, hr.finite c block hb⟩
          change rec.keyDim ∣ block.data.length
          rw [block.size, hw c block hb]
          exact Nat.dvd_mul_left _ _
    · rfl
  · change (layer % 2 ^ 32).toNat < 2 ^ 32
    omega
  · change 0 < rec.qDim ∧ rec.qDim < 2 ^ 32
    omega
  · change 0 < rec.keyDim ∧ rec.keyDim < 2 ^ 32
    omega
  · change rec.rows.length < 2 ^ 64
    omega
  · rw [hlen]
    omega

theorem readable_of_wellFormed (h : Images L rec) (hs : Small rec) {layer : ℤ}
    (hwf : WellFormed (asRead layer rec))
    (he : ((List.range rec.slots).map rec.count).flatMap (leBytes 8) =
      (keyRows (asRead layer rec)).flatMap (leBytes 8)) : Readable rec := by
  have hcap : maxDatasetFileBytes = 2 ^ 29 := rfl
  have hcount : ∀ c, rec.count c < 256 ^ 8 := by
    intro c
    unfold Recorded.count
    cases hb : rec.blocks c with
    | none => decide
    | some block =>
        have hdata := hs.data c block hb
        have hle : block.nRows ≤ block.data.length := by
          rw [block.size]
          exact Nat.le_mul_of_pos_right _ block.positive.2
        change block.nRows < 256 ^ 8
        omega
  have hdata : ∀ c, (rec.data c).length < 256 ^ 8 := by
    intro c
    unfold Recorded.data
    cases hb : rec.blocks c with
    | none => decide
    | some block =>
        have hdata := hs.data c block hb
        change block.data.length < 256 ^ 8
        omega
  have hcounts : (List.range rec.slots).map rec.count = keyRows (asRead layer rec) := by
    apply flatMap_words_injective _ _ _ he
    · rw [length_keyRows_asRead, List.length_map, List.length_range]
    · intro x hx
      obtain ⟨c, -, rfl⟩ := List.mem_map.mp hx
      exact hcount c
    · intro y hy
      rw [keyRows_asRead] at hy
      obtain ⟨c, -, rfl⟩ := List.mem_map.mp hy
      exact lt_of_le_of_lt (Nat.div_le_self _ _) (hdata c)
  have hw := width_of_counts h.bounded hcounts fun block hb => (hwf.keys block hb).1
  constructor
  · intro r hmem
    obtain ⟨i, hi⟩ := List.mem_iff_getElem?.mp hmem
    have hchunk : (asRead layer rec).chunks[i]? = some r.chunk := by
      unfold asRead
      dsimp only
      rw [List.getElem?_map, hi, Option.map_some]
    have hvis : (asRead layer rec).nVisible[i]? = some r.b.length := by
      unfold asRead
      dsimp only
      rw [List.getElem?_map, hi, Option.map_some]
    obtain ⟨-, visible, present, hv, hp, hle⟩ := hwf.chunk i r.chunk hchunk
    rw [hvis] at hv
    obtain rfl := Option.some.inj hv
    rw [← hcounts, List.getElem?_map] at hp
    obtain ⟨c, hc, rfl⟩ := Option.map_eq_some_iff.mp hp
    obtain ⟨_, hc⟩ := List.getElem?_eq_some_iff.mp hc
    rw [List.getElem_range] at hc
    subst hc
    have hpos := r.positive.2
    unfold Recorded.count at hle
    cases hb : rec.blocks r.chunk with
    | none =>
        rw [hb] at hle
        change r.b.length ≤ 0 at hle
        omega
    | some block =>
        rw [hb] at hle
        exact ⟨block, rfl, hle⟩
  · intro c c' block block' hc hc'
    rw [hw c block hc, hw c' block' hc']
  · intro c block hc
    have hmem : rec.data c ∈ (asRead layer rec).keys :=
      List.mem_map.mpr ⟨c, List.mem_range.mpr (h.bounded c block hc), rfl⟩
    have hfin := (hwf.keys _ hmem).2
    unfold Recorded.data at hfin
    rw [hc] at hfin
    exact hfin

/-- A file under the cap reads back as the recording exactly when that is readable. -/
theorem parse_image (h : Images L rec) (hne : rec.rows ≠ []) {layer : ℤ} {source : String}
    (hcap : (fileBytes layer L).length ≤ maxDatasetFileBytes) :
    parseLayer (fileBytes layer L) source = .ok (asRead layer rec) ↔ Readable rec := by
  have hs := small_of_file h hcap
  have hmax : maxDatasetFileBytes ≤ maxWord := by decide
  have hkeys : L.keys.length = (asRead layer rec).keys.length := by
    rw [h.keys]
    rfl
  rw [parseLayer_eq_ok (hcap.trans hmax)]
  constructor
  · rintro ⟨hwf, reserved, hres, he⟩
    apply readable_of_wellFormed h hs hwf
    rw [fileBytes_eq, bodyOf_eq h layer] at he
    unfold RankFormat.layerBytes at he
    have hbody := (List.append_inj he
      ((length_headerBytes (length_leBytes 4 0)).trans (length_headerBytes hres).symm)).2
    rw [bodyBytes_asRead layer rec] at hbody
    refine (List.append_inj hbody ?_).1
    rw [length_words, length_words, length_keyRows_asRead, List.length_map, List.length_range]
  · intro hr
    have hwf := wellFormed_of_readable h hne hs hr layer
    have hq : rec.qDim < 2 ^ 32 := hwf.qDim.2
    have hk : 0 < rec.keyDim ∧ rec.keyDim < 2 ^ 32 := hwf.keyDim
    refine ⟨hwf, leBytes 4 0, length_leBytes 4 0, ?_⟩
    unfold RankFormat.layerBytes
    rw [fileBytes_eq, bodyOf_eq h layer, counts_eq hk.1 (readable_width h hr) layer,
      ← bodyBytes_asRead, h.qDim, h.keyDim, h.rows, hkeys, Nat.mod_eq_of_lt hk.2,
      Nat.mod_eq_of_lt hq]
    rfl

/-- After any calls, a file of a flush under the cap reads back as what the calls recorded
exactly when that is readable. The files written before a failure are no exception. -/
theorem flush_parses (calls : List Call) (disk : Disk) {f : LayerFile}
    (hf : f ∈ (flush disk (run calls)).files)
    (hcap : f.bytes.length ≤ maxDatasetFileBytes) :
    parseLayer f.bytes f.path = .ok (asRead f.layer (recorded calls f.layer)) ↔
      Readable (recorded calls f.layer) := by
  have hi := run_images calls f.layer
  obtain ⟨hrows, hb⟩ := mem_flush hf
  have hne : (recorded calls f.layer).rows ≠ [] := by
    intro hnil
    rw [hi.rows, hnil] at hrows
    exact hrows rfl
  rw [hb] at hcap ⊢
  exact parse_image hi hne hcap

theorem getElem?_starts (counts : List ℕ) (t i : ℕ) (h : i ≤ counts.length) :
    (counts.scanl (· + ·) t)[i]? = some (t + (counts.take i).sum) := by
  induction counts generalizing t i with
  | nil =>
      rw [List.length_nil, Nat.le_zero] at h
      subst h
      rfl
  | cons count counts ih =>
      rw [List.scanl_cons]
      cases i with
      | zero => rfl
      | succ i =>
          rw [List.getElem?_cons_succ, ih (t + count) i (by simpa using h), List.take_succ_cons,
            List.sum_cons, Nat.add_assoc]

def noFaults : Disk := ⟨true, fun _ => true, fun _ => true⟩

/-- One row, and a key for it. -/
def paired : List Call :=
  [.enable (some "d"), .addRow 0 1 0 8 (fun _ => F32.zero) 1 (fun _ => F32.zero)
    (fun _ => F32.zero) 1, .addKeys 0 (some fun _ => F32.zero) 1 1]

/-- The same row without the key. -/
def unpaired : List Call := paired.take 2

def fileOf (calls : List Call) : LayerFile :=
  ⟨0, "d/rank-layer-000.bin", fileBytes 0 ((run calls).layer 0)⟩

theorem flush_parses_paired :
    (flush noFaults (run paired)).files = [fileOf paired] ∧
      (parseLayer (fileOf paired).bytes (fileOf paired).path =
          .ok (asRead 0 (recorded paired 0)) ↔ Readable (recorded paired 0)) := by
  have hfiles : (flush noFaults (run paired)).files = [fileOf paired] := by decide +kernel
  refine ⟨hfiles, @flush_parses paired noFaults (fileOf paired) ?_ ?_⟩
  · rw [hfiles]
    exact List.mem_singleton_self _
  · decide +kernel

/-- A row whose chunk has no keys is written, and the file is refused. -/
theorem unpaired_refused :
    (flush noFaults (run unpaired)).ok = true ∧
      (flush noFaults (run unpaired)).files = [fileOf unpaired] ∧
      (fileOf unpaired).bytes.length ≤ maxDatasetFileBytes ∧
      parseLayer (fileOf unpaired).bytes (fileOf unpaired).path ≠
        .ok (asRead 0 (recorded unpaired 0)) := by
  refine ⟨by decide +kernel, by decide +kernel, by decide +kernel, ?_⟩
  intro h
  have herr : (parseLayer (fileOf unpaired).bytes (fileOf unpaired).path).isOk = false := by
    decide +kernel
  rw [h] at herr
  cases herr

end SlhaV2.RankAgreement

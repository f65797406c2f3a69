import SlhaV2.RankAgreement
import SlhaV2.ReservingReader

/-!
# Room for a ranking dataset

The reader of a layer file once more, with the room it reserves. Most vectors
are reserved after their bytes were found in the file; the key row counts are
reserved by the header's chunk count and the head numbers by its row count,
before a single one of them is read. So the reader is safe exactly on the files
that have the bytes for both.
-/
namespace SlhaV2.RankCapacity
open MachineWord ByteBuffer CheckedSteps ByteReader FloatingPoint Calibration CalibrationFiles
open RankReader RankFormat RankAgreement ReservingReader Reserving

/-- The bytes are taken before there is room for the scalars. -/
def finiteF32Vec (count : ℕ) (what : String) : Reserving (List F32) := do
  let bytes ← reading (still (orErr (checkedMul count 4)
    s!"rank dataset: {what} byte count overflow"))
  let raw ← reading (take bytes what)
  withCapacity count 4 (raw.length / 4)
  reading (still (finiteValues what 0 ((List.range count).map (scalarAt raw))))

def keyBlock (source : String) (keyRows : List ℕ) (keyDim chunk : ℕ) :
    Reserving (List F32) := do
  let count ← reading (still (index keyRows chunk))
  let elements ← reading (still (orErr (checkedMul count keyDim)
    s!"rank dataset: {source}: key element count overflow"))
  finiteF32Vec elements s!"keys for chunk {chunk}"

/-- The two counts of the header are backed by what is left of the file; the number of rows
is known once the head numbers were read. -/
def readColumns (source : String) (rows nChunks : ℕ) : Reserving Columns := do
  let left ← bytesLeft
  withCapacity nChunks 8 (left / 8)
  let keyRows ← reading (ByteReader.collect keyRowCount nChunks 0)
  let left ← bytesLeft
  withCapacity rows 4 (left / 4)
  let heads ← reading (ByteReader.collect (fun _ => i32 "head ids") rows 0)
  withCapacity rows 4 heads.length
  let gqaGroups ← reading (ByteReader.collect (fun _ => i32 "gqa group ids") rows 0)
  withCapacity rows 8 heads.length
  let tokens ← reading (ByteReader.collect (fun _ => i64 "token positions") rows 0)
  withCapacity rows 8 heads.length
  let nVisible ← reading (ByteReader.collect (visibleCount source) rows 0)
  withCapacity rows 8 heads.length
  let chunks ← reading (ByteReader.collect (chunkId source nChunks keyRows nVisible) rows 0)
  pure ⟨keyRows, heads, gqaGroups, tokens, nVisible, chunks⟩

def readPayload (source : String) (rows qDim nChunks keyDim : ℕ) (keyRows nVisible : List ℕ) :
    Reserving Payload := do
  let qCount ← reading (still (orErr (checkedMul rows qDim)
    s!"rank dataset: {source}: query element count overflow"))
  let q ← finiteF32Vec qCount "queries"
  let bounds ← reading (still (wordAdd rows 1))
  withCapacity bounds 8 (nVisible.length + 1)
  let scores ← reading (still (scoreStarts source nVisible 0))
  let baseline ← finiteF32Vec scores.2 "baseline logits"
  let controlScores ← finiteF32Vec scores.2 "recorded control scores"
  withCapacity nChunks 24 keyRows.length
  let keys ← Reserving.collect (keyBlock source keyRows keyDim) keyRows.length 0
  pure ⟨q, scores.1, baseline, controlScores, keys⟩

def readBody (source : String) (layer qDim rows nChunks keyDim : ℕ) : Reserving LayerRows := do
  let c ← readColumns source rows nChunks
  let p ← readPayload source rows qDim nChunks keyDim c.keyRows c.nVisible
  pure ⟨layer, qDim, keyDim, rows, c.heads, c.gqaGroups, c.tokens, c.nVisible, c.chunks, p.q,
    p.baseline, p.controlScores, p.keys, p.starts⟩

/-- The header before the body: its chunk count and its row count, when it is accepted. -/
def checkHeader (raw : List UInt8) (source : String) : Outcome (ℕ × ℕ) := do
  require (u32At raw 0 = magic) s!"rank dataset: {source}: bad magic"
  require (u32At raw 4 = version)
    (s!"rank dataset: {source}: unsupported version {u32At raw 4} (expected " ++
      s!"{version})")
  let rows ← usizeFromU64 (u64At raw 16) "row count"
  let nChunks ← usizeFromU64 (u64At raw 24) "chunk count"
  require (¬ (u32At raw 12 = 0 ∨ u32At raw 32 = 0))
    s!"rank dataset: {source}: q_dim and key_dim must be positive"
  require (nChunks ≠ 0) s!"rank dataset: {source}: no chunks"
  pure (nChunks, rows)

theorem header_le {raw : List UInt8} (h : ¬ raw.length < header) : header ≤ raw.length :=
  not_lt.mp h

/-- The requests the reader makes of the allocator, and its result. -/
def parseLayer (raw : List UInt8) (source : String) : List Request × Outcome LayerRows :=
  if h : raw.length < header then
    ([], .error (.err s!"rank dataset: {source}: truncated header"))
  else
    match checkHeader raw source with
    | .error e => ([], .error e)
    | .ok (nChunks, rows) =>
        let run := readBody source (u32At raw 8) (u32At raw 12) rows nChunks (u32At raw 32)
          ⟨raw, header, header_le h⟩
        (run.1, do
          let (out, c) ← run.2
          require (c.offset = raw.length)
            s!"rank dataset: {source}: trailing bytes (parsed {c.offset}, file {raw.length})"
          pure out)

theorem reads_finiteF32Vec (count : ℕ) (what : String) :
    Reads (finiteF32Vec count what) (RankReader.finiteF32Vec count what) :=
  (Reads.reading _).bind fun _ => (Reads.reading _).bind fun _ =>
    Reads.withCapacity (Reads.reading _)

theorem reads_keyBlock (source : String) (keyRows : List ℕ) (keyDim chunk : ℕ) :
    Reads (keyBlock source keyRows keyDim chunk)
      (RankReader.keyBlock source keyRows keyDim chunk) :=
  (Reads.reading _).bind fun _ => (Reads.reading _).bind fun _ => reads_finiteF32Vec _ _

theorem reads_readColumns (source : String) (rows nChunks : ℕ) :
    Reads (readColumns source rows nChunks) (RankReader.readColumns source rows nChunks) := by
  refine Reads.bytesLeft fun _ => Reads.withCapacity ?_
  refine (Reads.reading _).bind fun keyRows => ?_
  refine Reads.bytesLeft fun _ => Reads.withCapacity ?_
  refine (Reads.reading _).bind fun heads => Reads.withCapacity ?_
  refine (Reads.reading _).bind fun gqaGroups => Reads.withCapacity ?_
  refine (Reads.reading _).bind fun tokens => Reads.withCapacity ?_
  refine (Reads.reading _).bind fun nVisible => Reads.withCapacity ?_
  exact (Reads.reading _).bind fun chunks => Reads.pure _

theorem Reads.wordAdd {α : Type} {a b : ℕ} {f : ℕ → Reserving α} {g : Reader α}
    (hf : ∀ n, Reads (f n) g) : Reads (reading (still (wordAdd a b)) >>= f) g := by
  intro c
  by_cases h : a + b ≤ maxWord
  · have hrun : (reading (still (CheckedSteps.wordAdd a b)) c).2 = .ok (a + b, c) := by
      show still (CheckedSteps.wordAdd a b) c = _
      rw [wordAdd_of_le h]
      rfl
    rw [bind_ok hrun]
    exact hf _ c
  · have hrun : (reading (still (CheckedSteps.wordAdd a b)) c).2 = .error .panic := by
      show still (CheckedSteps.wordAdd a b) c = _
      rw [CheckedSteps.wordAdd, if_neg h]
      rfl
    rw [bind_error hrun]
    exact Or.inl rfl

theorem reads_readPayload (source : String) (rows qDim nChunks keyDim : ℕ)
    (keyRows nVisible : List ℕ) :
    Reads (readPayload source rows qDim nChunks keyDim keyRows nVisible)
      (RankReader.readPayload source rows qDim keyDim keyRows nVisible) := by
  refine (Reads.reading _).bind fun qCount => (reads_finiteF32Vec _ _).bind fun q => ?_
  refine Reads.wordAdd fun bounds => Reads.withCapacity ?_
  refine (Reads.reading _).bind fun scores => (reads_finiteF32Vec _ _).bind fun baseline => ?_
  refine (reads_finiteF32Vec _ _).bind fun controlScores => Reads.withCapacity ?_
  exact (Reads.collect (reads_keyBlock source keyRows keyDim) _ _).bind fun keys => Reads.pure _

theorem reads_readBody (source : String) (layer qDim rows nChunks keyDim : ℕ) :
    Reads (readBody source layer qDim rows nChunks keyDim)
      (RankReader.readBody source layer qDim rows nChunks keyDim) :=
  (reads_readColumns source rows nChunks).bind fun _ =>
    (reads_readPayload source rows qDim nChunks keyDim _ _).bind fun _ => Reads.pure _

theorem parseLayer_eq_checkHeader {raw : List UInt8} {source : String}
    (h : ¬ raw.length < header) :
    RankReader.parseLayer raw source = (checkHeader raw source >>= fun counts => do
      let (out, c) ← RankReader.readBody source (u32At raw 8) (u32At raw 12) counts.2 counts.1
        (u32At raw 32) ⟨raw, header, header_le h⟩
      require (c.offset = raw.length)
        s!"rank dataset: {source}: trailing bytes (parsed {c.offset}, file {raw.length})"
      pure out) := by
  unfold RankReader.parseLayer checkHeader
  rw [dif_neg h]
  simp only [bind_assoc, pure_bind]

/-- The layer that is returned is the one the plain reader returns. -/
theorem parseLayer_ok {raw : List UInt8} {source : String} {L : LayerRows}
    (h : (parseLayer raw source).2 = .ok L) : RankReader.parseLayer raw source = .ok L := by
  unfold parseLayer at h
  by_cases hlen : raw.length < header
  · rw [dif_pos hlen] at h
    cases h
  · rw [dif_neg hlen] at h
    rw [parseLayer_eq_checkHeader hlen]
    cases hc : checkHeader raw source with
    | error e =>
        rw [hc] at h
        cases h
    | ok counts =>
        rw [hc] at h
        rw [ok_bind]
        dsimp only at h
        rcases reads_readBody source (u32At raw 8) (u32At raw 12) counts.2 counts.1 (u32At raw 32)
          ⟨raw, header, header_le hlen⟩ with hp | hr
        · rw [hp] at h
          cases h
        · rw [← hr]
          exact h

theorem NoPanic.orErr {α : Type} (x : Option α) (msg : String) : NoPanic (orErr x msg) := by
  cases x with
  | none => exact NoPanic.err msg
  | some a => exact NoPanic.ok a

theorem NoPanic.still {α : Type} {x : Outcome α} {c : Cursor} (h : NoPanic x) :
    NoPanic (still x c) :=
  h.bind fun _ _ => NoPanic.ok _

theorem NoPanic.reader {α β : Type} {r : Reader α} {f : α → Reader β} {c : Cursor}
    (hr : NoPanic (r c)) (hf : ∀ a c', r c = .ok (a, c') → NoPanic (f a c')) :
    NoPanic ((r >>= f) c) :=
  hr.bind fun p hp => hf p.1 p.2 hp

theorem noPanic_take (n : ℕ) (what : String) (c : Cursor) : NoPanic (take n what c) := by
  unfold take takeBytes
  split_ifs
  · exact NoPanic.ok _
  · exact NoPanic.err _
  · exact NoPanic.err _

theorem noPanic_i32 (what : String) (c : Cursor) : NoPanic (i32 what c) :=
  NoPanic.reader (noPanic_take 4 what c) fun _ _ _ => NoPanic.ok _

theorem noPanic_i64 (what : String) (c : Cursor) : NoPanic (i64 what c) :=
  NoPanic.reader (noPanic_take 8 what c) fun _ _ _ => NoPanic.ok _

theorem noPanic_keyRowCount (i : ℕ) (c : Cursor) : NoPanic (keyRowCount i c) := by
  refine NoPanic.reader (NoPanic.reader (noPanic_take 8 _ c) fun _ _ _ => NoPanic.ok _)
    fun value c' _ => NoPanic.still ?_
  unfold usizeFromU64
  split_ifs
  · exact NoPanic.ok _
  · exact NoPanic.err _

theorem noPanic_visibleCount (source : String) (i : ℕ) (c : Cursor) :
    NoPanic (visibleCount source i c) :=
  NoPanic.reader (noPanic_i32 _ c) fun _ _ _ =>
    NoPanic.reader (NoPanic.still NoPanic.require) fun _ _ _ => NoPanic.ok _

/-- The row's visible count was read, and the chunk is looked up once it is in range. -/
theorem noPanic_chunkId {source : String} {nChunks i : ℕ} {keyRows nVisible : List ℕ}
    (hi : i < nVisible.length) (hn : nChunks = keyRows.length) (c : Cursor) :
    NoPanic (chunkId source nChunks keyRows nVisible i c) := by
  refine NoPanic.reader (noPanic_i32 _ c) fun value c₁ _ => ?_
  refine NoPanic.reader (NoPanic.still NoPanic.require) fun _ c₂ _ => ?_
  refine NoPanic.reader (NoPanic.still NoPanic.require) fun _ c₃ hreq => ?_
  have hlt : value.toInt.toNat < keyRows.length := by
    obtain ⟨_, hok, -⟩ := bind_eq_ok.mp hreq
    rw [← hn]
    exact require_eq_ok.mp hok
  rw [index_of_lt hi, index_of_lt hlt]
  refine NoPanic.reader (NoPanic.still (NoPanic.ok _)) fun _ c₄ _ => ?_
  refine NoPanic.reader (NoPanic.still (NoPanic.ok _)) fun _ c₅ _ => ?_
  exact NoPanic.reader (NoPanic.still NoPanic.require) fun _ _ _ => NoPanic.ok _

theorem noPanic_collect {α : Type} {step : ℕ → Reader α} {n i : ℕ}
    (h : ∀ j, i ≤ j → j < i + n → ∀ c, NoPanic (step j c)) (c : Cursor) :
    NoPanic (ByteReader.collect step n i c) := by
  induction n generalizing i c with
  | zero => exact NoPanic.ok _
  | succ n ih =>
      refine NoPanic.reader (h i le_rfl (by omega) c) fun x c₁ _ => ?_
      refine NoPanic.reader (ih (fun j hj hlt => h j (by omega) (by omega)) c₁) fun xs c₂ _ => ?_
      exact NoPanic.ok _

theorem noPanic_finiteValues (what : String) (i : ℕ) (xs : List F32) :
    NoPanic (finiteValues what i xs) := by
  induction xs generalizing i with
  | nil => exact NoPanic.ok _
  | cons x xs ih =>
      unfold finiteValues
      split_ifs
      · exact NoPanic.err _
      · exact (ih (i + 1)).bind fun _ _ => NoPanic.ok _

theorem noPanic_scoreStarts (source : String) (counts : List ℕ) (total : ℕ) :
    NoPanic (scoreStarts source counts total) := by
  induction counts generalizing total with
  | nil => exact NoPanic.ok _
  | cons count counts ih =>
      exact (NoPanic.orErr _ _).bind fun next _ => (ih next).bind fun _ _ => NoPanic.ok _

section Safe
variable {c : Cursor}

theorem safe_still {α : Type} {x : Outcome α} (hx : NoPanic x) :
    Safe (reading (still x)) c fun a c' => x = .ok a ∧ c' = c := by
  refine Safe.reading (NoPanic.still hx) fun a c' h => ?_
  obtain ⟨b, hb, hp⟩ := bind_eq_ok.mp h
  obtain ⟨rfl, rfl⟩ := Prod.mk.inj (Except.ok.inj hp)
  exact ⟨hb, rfl⟩

/-- Wherever it starts, a vector of scalars is reserved after its bytes were taken. -/
theorem safe_finiteF32Vec (count : ℕ) (what : String) (hc : c.bytes.length ≤ isizeMax) :
    Safe (finiteF32Vec count what) c fun _ c' => c'.bytes = c.bytes := by
  refine (safe_still (NoPanic.orErr _ _)).bind ?_
  rintro bytes _ ⟨hbytes, rfl⟩
  obtain ⟨-, rfl⟩ := checkedMul_eq_some.mp (orErr_eq_ok.mp hbytes)
  have hword : isizeMax ≤ maxWord := by decide
  refine (Safe.denotes (denotes_take _ what) (hc.trans hword) (noPanic_take _ what _)).bind ?_
  rintro raw c' ⟨_, ⟨hlen, rfl⟩, hm⟩
  have hin := c'.inBounds
  rw [hm.offset, hm.bytes] at hin
  refine Safe.withCapacity (by omega) (by omega) ?_
  refine (safe_still (noPanic_finiteValues what 0 _)).mono ?_
  rintro xs _ ⟨-, rfl⟩
  exact hm.bytes

theorem safe_keyBlock {source : String} {keyRows : List ℕ} {keyDim chunk : ℕ}
    (hchunk : chunk < keyRows.length) (hc : c.bytes.length ≤ isizeMax) :
    Safe (keyBlock source keyRows keyDim chunk) c fun _ c' => c'.bytes = c.bytes := by
  unfold keyBlock
  rw [index_of_lt hchunk]
  refine (safe_still (NoPanic.ok _)).bind ?_
  rintro count _ ⟨-, rfl⟩
  refine (safe_still (NoPanic.orErr _ _)).bind ?_
  rintro elements _ ⟨-, rfl⟩
  exact safe_finiteF32Vec elements _ hc

/-- A column read by a loop: how many values, and how far the cursor moves. -/
theorem safe_column {α : Type} {step : ℕ → Reader α} {P : ℕ → α → Prop} {enc : α → List UInt8}
    {n w : ℕ} (h : ∀ i, Denotes (step i) fun a bs => P i a ∧ bs = enc a)
    (hw : ∀ i a, P i a → (enc a).length = w) (hn : ∀ j < n, ∀ c, NoPanic (step j c))
    (hc : c.bytes.length ≤ maxWord) :
    Safe (reading (ByteReader.collect step n 0)) c fun xs c' =>
      xs.length = n ∧ c'.bytes = c.bytes ∧ c'.offset = c.offset + n * w := by
  have hno := @noPanic_collect α step n 0 (fun j _ hj => hn j (by omega)) c
  refine (Safe.denotes (Denotes.collect h n 0) hc hno).mono ?_
  rintro xs c' ⟨_, ⟨⟨hlen, hP⟩, rfl⟩, hm⟩
  have hwidth : ∀ x ∈ xs, (enc x).length = w := by
    apply forall_mem_of_getElem?
    intro j x hj
    exact hw _ x (hP j x hj)
  have hflat : (xs.flatMap enc).length = n * w := by
    rw [List.length_flatMap, List.map_congr_left hwidth, List.map_const',
      List.sum_replicate_nat, hlen]
  refine ⟨hlen, hm.bytes, ?_⟩
  rw [hm.offset, hflat]

theorem safe_i32s (what : String) {n : ℕ} (hc : c.bytes.length ≤ maxWord) :
    Safe (reading (ByteReader.collect (fun _ => i32 what) n 0)) c fun xs c' =>
      xs.length = n ∧ c'.bytes = c.bytes ∧ c'.offset = c.offset + n * 4 :=
  safe_column (fun _ => denotes_i32 what) (fun _ _ _ => length_leBytes 4 _)
    (fun _ _ c => noPanic_i32 what c) hc

/-- With the bytes for the chunk counts and the head numbers, all room asked for is backed. -/
theorem safe_readColumns (source : String) {rows nChunks : ℕ} (hc : c.bytes.length ≤ isizeMax)
    (hroom : nChunks * 8 + rows * 4 ≤ c.bytes.length - c.offset) :
    Safe (readColumns source rows nChunks) c fun cols c' =>
      cols.keyRows.length = nChunks ∧ cols.nVisible.length = rows ∧ c'.bytes = c.bytes ∧
        rows * 8 + 8 ≤ isizeMax := by
  have hword : c.bytes.length ≤ maxWord := hc.trans (by decide)
  refine Safe.bytesLeft (Safe.withCapacity (by omega) (by omega) ?_)
  refine (safe_column denotes_keyRowCount (fun _ a _ => length_leBytes 8 a)
    (fun i _ c => noPanic_keyRowCount i c) hword).bind ?_
  rintro keyRows c₁ ⟨hkeys, hb₁, ho₁⟩
  rw [← hb₁] at hc hword hroom
  refine Safe.bytesLeft (Safe.withCapacity (by omega) (by omega) ?_)
  refine (safe_i32s "head ids" hword).bind ?_
  rintro heads c₂ ⟨hheads, hb₂, ho₂⟩
  rw [← hb₂] at hc hword
  refine Safe.withCapacity hheads.ge (by rw [hb₂] at hc; omega) ?_
  refine (safe_i32s "gqa group ids" hword).bind ?_
  rintro gqaGroups c₃ ⟨-, hb₃, ho₃⟩
  -- two columns were read, so eight bytes a row are in the file
  have hin₃ := c₃.inBounds
  rw [← hb₃] at hc hword
  refine Safe.withCapacity hheads.ge (by omega) ?_
  refine (safe_column (fun _ => denotes_i64 "token positions") (fun _ _ _ => length_leBytes 8 _)
    (fun _ _ c => noPanic_i64 _ c) hword).bind ?_
  rintro tokens c₄ ⟨-, hb₄, ho₄⟩
  have hin₄ := c₄.inBounds
  rw [← hb₄] at hc hword
  refine Safe.withCapacity hheads.ge (by omega) ?_
  refine (safe_column (denotes_visibleCount source) (fun _ a _ => length_leBytes 4 a)
    (fun i _ c => noPanic_visibleCount source i c) hword).bind ?_
  rintro nVisible c₅ ⟨hvis, hb₅, -⟩
  rw [← hb₅] at hc hword
  refine Safe.withCapacity hheads.ge (by rw [hb₅] at hc; omega) ?_
  refine (safe_column (denotes_chunkId source nChunks keyRows nVisible)
    (fun _ a _ => length_leBytes 4 a)
    (fun i hi c => noPanic_chunkId (by rw [hvis]; exact hi) hkeys.symm c) hword).bind ?_
  rintro chunks c₆ ⟨-, hb₆, -⟩
  refine Safe.pure ⟨hkeys, hvis, ?_, ?_⟩
  · rw [hb₆, hb₅, hb₄, hb₃, hb₂, hb₁]
  · have hsmall : 8 ≤ isizeMax := by decide
    rw [hb₅] at hc
    omega

theorem safe_readPayload (source : String) {rows qDim nChunks keyDim : ℕ}
    {keyRows nVisible : List ℕ} (hc : c.bytes.length ≤ isizeMax)
    (hkeys : keyRows.length = nChunks) (hvis : nVisible.length = rows)
    (hrows : rows * 8 + 8 ≤ isizeMax) (hslots : nChunks * 24 ≤ isizeMax) :
    Safe (readPayload source rows qDim nChunks keyDim keyRows nVisible) c fun _ _ => True := by
  have hmax : isizeMax ≤ maxWord := by decide
  refine (safe_still (NoPanic.orErr _ _)).bind ?_
  rintro qCount _ ⟨-, rfl⟩
  refine (safe_finiteF32Vec qCount _ hc).bind fun q c₁ hb₁ => ?_
  rw [← hb₁] at hc
  rw [wordAdd_of_le (by omega)]
  refine (safe_still (NoPanic.ok _)).bind ?_
  rintro bounds _ ⟨hbounds, rfl⟩
  obtain rfl := Except.ok.inj hbounds
  refine Safe.withCapacity (by omega) (by omega) ?_
  refine (safe_still (noPanic_scoreStarts _ _ _)).bind ?_
  rintro scores _ ⟨-, rfl⟩
  refine (safe_finiteF32Vec scores.2 _ hc).bind fun baseline c₂ hb₂ => ?_
  rw [← hb₂] at hc
  refine (safe_finiteF32Vec scores.2 _ hc).bind fun controlScores c₃ hb₃ => ?_
  rw [← hb₃] at hc
  refine Safe.withCapacity hkeys.ge hslots ?_
  refine (Safe.collect (P := fun c => c.bytes.length ≤ isizeMax) ?_ hc).bind fun keys c₄ _ =>
    Safe.pure trivial
  intro j _ hj c hc
  refine (safe_keyBlock (by omega) hc).mono fun _ c' hb => ?_
  rw [hb]
  exact hc

end Safe

/-- Row `i` is there, and its parts have the sizes its counts say. -/
structure RowInRange (L : LayerRows) (i : ℕ) (r : RowRef) : Prop where
  row : L.row i = .ok r
  q : r.q.length = L.qDim
  baseline : r.baseline.length = r.nVisible
  controlScores : r.controlScores.length = r.nVisible
  keys : r.keys.length = r.nVisible * L.keyDim

/-- All rows are there, and their score slices put together are the score arrays. -/
def RowsInRange (L : LayerRows) : Prop :=
  ∃ rows : List RowRef, rows.length = L.rows ∧
    (∀ i r, rows[i]? = some r → RowInRange L i r) ∧
    rows.flatMap RowRef.baseline = L.baseline ∧
    rows.flatMap RowRef.controlScores = L.controlScores

/-- The row of a layer, written out. -/
def rowAt (L : LayerRows) (i : ℕ) : RowRef where
  head := L.heads.getD i 0
  gqaGroup := L.gqaGroups.getD i 0
  token := L.tokens.getD i 0
  chunk := L.chunks.getD i 0
  q := (L.q.drop (i * L.qDim)).take L.qDim
  baseline := (L.baseline.drop (L.nVisible.take i).sum).take (L.nVisible.getD i 0)
  controlScores := (L.controlScores.drop (L.nVisible.take i).sum).take (L.nVisible.getD i 0)
  keys := (L.keys.getD (L.chunks.getD i 0) []).take (L.nVisible.getD i 0 * L.keyDim)
  nVisible := L.nVisible.getD i 0
  keyDim := L.keyDim

/-- Consecutive slices of the given lengths make up a list of their total length. -/
theorem flatMap_slices {α : Type} (counts : List ℕ) {xs : List α} (h : xs.length = counts.sum) :
    ((List.range counts.length).flatMap fun i =>
      (xs.drop (counts.take i).sum).take (counts.getD i 0)) = xs := by
  induction counts generalizing xs with
  | nil => exact (List.length_eq_zero_iff.mp h).symm
  | cons count counts ih =>
      rw [List.sum_cons] at h
      have hlen : (xs.drop count).length = counts.sum := by
        rw [List.length_drop]
        omega
      have hrest := ih hlen
      rw [List.length_cons, List.range_succ_eq_map, List.flatMap_cons, List.flatMap_map]
      simp only [List.take_zero, List.sum_nil, List.drop_zero, List.getD_cons_zero,
        List.take_succ_cons, List.sum_cons, List.getD_cons_succ]
      simp only [List.drop_drop] at hrest
      rw [hrest, List.take_append_drop]

section Rows
variable {L : LayerRows} {i : ℕ}

/-- The chunk of a row has a block with the keys the row sees. -/
theorem block_of_row (hb : Body L) (hi : i < L.rows) :
    L.chunks.getD i 0 < L.keys.length ∧
      L.nVisible.getD i 0 * L.keyDim ≤ (L.keys.getD (L.chunks.getD i 0) []).length := by
  have hchunk := getElem?_getD 0 (by rw [hb.chunks]; exact hi : i < L.chunks.length)
  have hvis := getElem?_getD 0 (by rw [hb.nVisible]; exact hi : i < L.nVisible.length)
  obtain ⟨-, visible, present, hv, hp, hle⟩ := hb.chunk i _ hchunk
  obtain rfl := Option.some.inj (hvis.symm.trans hv)
  unfold RankFormat.keyRows at hp
  rw [List.getElem?_map] at hp
  obtain ⟨block, hblock, rfl⟩ := Option.map_eq_some_iff.mp hp
  obtain ⟨hlt, -⟩ := List.getElem?_eq_some_iff.mp hblock
  have hget := Option.some.inj ((getElem?_getD [] hlt).symm.trans hblock)
  refine ⟨hlt, ?_⟩
  rw [hget]
  exact (Nat.mul_le_mul_right _ hle).trans (Nat.div_mul_le_self _ _)

theorem sum_take_le (hb : Body L) (hi : i < L.rows) :
    (L.nVisible.take (i + 1)).sum = (L.nVisible.take i).sum + L.nVisible.getD i 0 ∧
      (L.nVisible.take (i + 1)).sum ≤ L.nVisible.sum := by
  have hlt : i < L.nVisible.length := by
    rw [hb.nVisible]
    exact hi
  constructor
  · rw [List.take_add_one, List.sum_append, getElem?_getD 0 hlt]
    simp
  · have hsplit := congrArg List.sum (List.take_append_drop (i + 1) L.nVisible)
    rw [List.sum_append] at hsplit
    omega

theorem row_eq (hb : Body L) (hw : Words L) (hi : i < L.rows) : L.row i = .ok (rowAt L i) := by
  obtain ⟨hchunk, hkeys⟩ := block_of_row hb hi
  obtain ⟨hnext, htotal⟩ := sum_take_le hb hi
  have hblock := hw.keys _ (List.mem_of_getElem? (getElem?_getD [] hchunk))
  have hq := hw.q
  have hqlen := hb.q.1
  have hmul := Nat.mul_le_mul_right L.qDim (Nat.succ_le_of_lt hi)
  rw [Nat.succ_mul] at hmul
  have hstart := getElem?_starts L.nVisible 0 i (by rw [hb.nVisible]; omega)
  have hstop := getElem?_starts L.nVisible 0 (i + 1) (by rw [hb.nVisible]; omega)
  rw [Nat.zero_add, ← hb.starts] at hstart hstop
  have hbase := hb.baseline.1
  have hctrl := hb.controlScores.1
  unfold LayerRows.row rowAt
  rw [if_neg (not_le.mpr hi), index_getD 0 (by rw [hb.chunks]; exact hi), ok_bind,
    index_getD 0 (by rw [hb.nVisible]; exact hi), ok_bind, index_eq_ok.mpr hstart, ok_bind,
    index_eq_ok.mpr hstop, ok_bind, checkedMul_eq_some.mpr ⟨by omega, rfl⟩, orErr_some, ok_bind,
    checkedMul_eq_some.mpr ⟨by omega, rfl⟩, orErr_some, ok_bind,
    checkedAdd_eq_some.mpr ⟨by omega, rfl⟩, orErr_some, ok_bind,
    index_getD 0 (by rw [hb.heads]; exact hi), ok_bind,
    index_getD 0 (by rw [hb.gqaGroups]; exact hi), ok_bind,
    index_getD 0 (by rw [hb.tokens]; exact hi), ok_bind,
    indexBetween_of_le (by omega) (by omega), ok_bind,
    indexBetween_of_le (by omega) (by omega), ok_bind,
    indexBetween_of_le (by omega) (by omega), ok_bind, index_getD [] hchunk, ok_bind,
    indexBetween_of_le (by omega) (by omega), ok_bind, hnext]
  simp only [Nat.add_sub_cancel_left, Nat.sub_zero, List.drop_zero]
  rfl

theorem rowInRange (hb : Body L) (hw : Words L) (hi : i < L.rows) :
    RowInRange L i (rowAt L i) := by
  obtain ⟨-, hkeys⟩ := block_of_row hb hi
  obtain ⟨hnext, htotal⟩ := sum_take_le hb hi
  have hqlen := hb.q.1
  have hbase := hb.baseline.1
  have hctrl := hb.controlScores.1
  have hmul := Nat.mul_le_mul_right L.qDim (Nat.succ_le_of_lt hi)
  rw [Nat.succ_mul] at hmul
  refine ⟨row_eq hb hw hi, ?_, ?_, ?_, ?_⟩
  all_goals
    unfold rowAt
    dsimp only
    rw [List.length_take]
  · rw [List.length_drop]
    omega
  · rw [List.length_drop]
    omega
  · rw [List.length_drop]
    omega
  · exact min_eq_left hkeys

theorem rowsInRange (hb : Body L) (hw : Words L) : RowsInRange L := by
  refine ⟨(List.range L.rows).map (rowAt L), ?_, ?_, ?_, ?_⟩
  · rw [List.length_map, List.length_range]
  · intro i r hr
    rw [List.getElem?_map] at hr
    obtain ⟨j, hj, rfl⟩ := Option.map_eq_some_iff.mp hr
    obtain ⟨hlt, rfl⟩ := List.getElem?_eq_some_iff.mp hj
    rw [List.length_range] at hlt
    rw [List.getElem_range]
    exact rowInRange hb hw hlt
  · rw [List.flatMap_map, ← hb.nVisible]
    exact flatMap_slices L.nVisible hb.baseline.1
  · rw [List.flatMap_map, ← hb.nVisible]
    exact flatMap_slices L.nVisible hb.controlScores.1

end Rows

/-- The header of the file is refused, before anything is reserved. -/
def HeaderRefused (raw : List UInt8) (source : String) : Prop :=
  raw.length < header ∨ ∀ counts, checkHeader raw source ≠ .ok counts

/-- The file has the bytes of as many key row counts and head numbers as its header announces. -/
def CountsPresent (raw : List UInt8) : Prop :=
  header + 8 * u64At raw 24 + 4 * u64At raw 16 ≤ raw.length

theorem checkHeader_eq_ok {raw : List UInt8} {source : String} {counts : ℕ × ℕ}
    (h : checkHeader raw source = .ok counts) :
    counts = (u64At raw 24, u64At raw 16) ∧ 0 < u32At raw 32 := by
  unfold checkHeader at h
  obtain ⟨_, -, h⟩ := bind_eq_ok.mp h
  obtain ⟨_, -, h⟩ := bind_eq_ok.mp h
  rw [usizeFromU64_of_lt (u64At_lt raw 16), usizeFromU64_of_lt (u64At_lt raw 24), ok_bind,
    ok_bind] at h
  obtain ⟨_, hd, h⟩ := bind_eq_ok.mp h
  obtain ⟨_, -, h⟩ := bind_eq_ok.mp h
  rw [require_eq_ok, not_or] at hd
  exact ⟨(Except.ok.inj h).symm, Nat.pos_of_ne_zero hd.2⟩

theorem noPanic_checkHeader (raw : List UInt8) (source : String) :
    NoPanic (checkHeader raw source) := by
  unfold checkHeader
  rw [usizeFromU64_of_lt (u64At_lt raw 16), usizeFromU64_of_lt (u64At_lt raw 24), ok_bind]
  refine NoPanic.require.bind fun _ _ => NoPanic.require.bind fun _ _ => ?_
  exact NoPanic.require.bind fun _ _ => NoPanic.require.bind fun _ _ => NoPanic.ok _

/-- What is expected of the reader of a file: it returns or reports an error, it reserves room
only for what the file has, and the rows of what it returns can all be read. -/
structure ParsesSafely (raw : List UInt8) (source : String) : Prop where
  no_panic : (parseLayer raw source).2 ≠ .error .panic
  backed : ∀ q ∈ (parseLayer raw source).1, q.Backed
  accepted : ∀ L, (parseLayer raw source).2 = .ok L →
    RowsInRange L ∧ ∃ reserved, reserved.length = 4 ∧ raw = RankFormat.layerBytes L reserved

/-- An accepted file is the image of its layer, all of whose rows can be read. -/
theorem parseLayer_accepted {raw : List UInt8} {source : String} {L : LayerRows}
    (hlen : raw.length ≤ maxWord) (h : (parseLayer raw source).2 = .ok L) :
    RowsInRange L ∧ ∃ reserved, reserved.length = 4 ∧ raw = RankFormat.layerBytes L reserved := by
  obtain ⟨hwf, reserved, hres, hraw⟩ := (parseLayer_eq_ok hlen).mp (parseLayer_ok h)
  refine ⟨rowsInRange hwf.toBody (words_of_length hwf.toBody ?_), reserved, hres, hraw⟩
  rw [hraw] at hlen
  unfold RankFormat.layerBytes at hlen
  rw [List.length_append] at hlen
  omega

section Parse
variable {raw : List UInt8} {source : String}

theorem parseLayer_of_refused (h : HeaderRefused raw source) :
    (parseLayer raw source).1 = [] ∧ (parseLayer raw source).2 ≠ .error .panic := by
  unfold parseLayer
  by_cases hlen : raw.length < header
  · rw [dif_pos hlen]
    exact ⟨rfl, NoPanic.err _⟩
  · rw [dif_neg hlen]
    have hno := noPanic_checkHeader raw source
    cases hc : checkHeader raw source with
    | ok counts => exact absurd hc (h.resolve_left hlen counts)
    | error e =>
        refine ⟨rfl, fun hp => hno ?_⟩
        rw [hc, Except.error.inj hp]

/-- With the bytes for its counts a file is read without a panic, and all room is backed. -/
theorem parseLayer_of_present (hcap : 3 * raw.length ≤ isizeMax) (h : CountsPresent raw) :
    (∀ q ∈ (parseLayer raw source).1, q.Backed) ∧
      (parseLayer raw source).2 ≠ .error .panic := by
  unfold CountsPresent header at h
  have hlen : ¬ raw.length < header := by
    unfold header
    omega
  unfold parseLayer
  rw [dif_neg hlen]
  have hno := noPanic_checkHeader raw source
  cases hc : checkHeader raw source with
  | error e =>
      refine ⟨fun q hq => absurd hq List.not_mem_nil, fun hp => hno ?_⟩
      rw [hc, Except.error.inj hp]
  | ok counts =>
      obtain ⟨rfl, -⟩ := checkHeader_eq_ok hc
      have hsafe : Safe (readBody source (u32At raw 8) (u32At raw 12) (u64At raw 16)
          (u64At raw 24) (u32At raw 32)) ⟨raw, header, header_le hlen⟩ fun _ _ => True := by
        refine (@safe_readColumns ⟨raw, header, header_le hlen⟩ source (u64At raw 16)
          (u64At raw 24) (by dsimp only; omega) (by dsimp only [header]; omega)).bind
          fun cols c' hcols => ?_
        obtain ⟨hkeys, hvis, hb, hrows⟩ := hcols
        refine (safe_readPayload source ?_ hkeys hvis hrows (by omega)).bind fun p _ _ =>
          Safe.pure trivial
        rw [hb]
        dsimp only
        omega
      exact ⟨hsafe.backed, hsafe.no_panic.bind fun _ _ =>
        NoPanic.require.bind fun _ _ => NoPanic.ok _⟩

/-- Key row counts are read as long as there are bytes for them. -/
theorem collect_keyRowCount {n i : ℕ} {c : Cursor} (hc : c.bytes.length ≤ maxWord)
    (h : c.offset + 8 * n ≤ c.bytes.length) :
    ∃ keyRows c', ByteReader.collect keyRowCount n i c = .ok (keyRows, c') ∧
      c'.bytes = c.bytes ∧ c'.offset = c.offset + 8 * n := by
  induction n generalizing i c with
  | zero => exact ⟨[], c, rfl, rfl, rfl⟩
  | succ n ih =>
      have hin : c.offset + 8 ≤ c.bytes.length := by omega
      have htake : take 8 s!"key row count for chunk {i}" c =
          .ok (slice c.bytes c.offset 8, ⟨c.bytes, c.offset + 8, hin⟩) := by
        unfold take takeBytes
        rw [if_pos (by omega), dif_pos hin]
      have hrow : keyRowCount i c =
          .ok (leNat (slice c.bytes c.offset 8), ⟨c.bytes, c.offset + 8, hin⟩) := by
        have hlt := leNat_lt (slice c.bytes c.offset 8)
        rw [length_slice hin] at hlt
        have husize := @usizeFromU64_of_lt _ "key row count" hlt
        show (take 8 s!"key row count for chunk {i}" c >>= fun p =>
          (pure (leNat p.1) : Reader ℕ) p.2) >>= (fun p =>
            still (usizeFromU64 p.1 "key row count") p.2) = _
        rw [htake]
        show still (usizeFromU64 (leNat (slice c.bytes c.offset 8)) "key row count") _ = _
        rw [husize]
        rfl
      obtain ⟨keyRows, c', hrest, hb, ho⟩ := @ih (i + 1) ⟨c.bytes, c.offset + 8, hin⟩ hc
        (by dsimp only; omega)
      refine ⟨leNat (slice c.bytes c.offset 8) :: keyRows, c', ?_, hb, ?_⟩
      · show keyRowCount i c >>= (fun p => (ByteReader.collect keyRowCount n (i + 1) >>=
          fun xs => pure (p.1 :: xs)) p.2) = _
        rw [hrow, ok_bind]
        show ByteReader.collect keyRowCount n (i + 1) _ >>= _ = _
        rw [hrest]
        rfl
      · rw [ho]
        dsimp only
        omega

/-- The two requests made before the bytes behind them are looked at. -/
theorem requests_readColumns {rows nChunks : ℕ} {c : Cursor} (hc : c.bytes.length ≤ isizeMax) :
    ⟨nChunks, 8, (c.bytes.length - c.offset) / 8⟩ ∈ (readColumns source rows nChunks c).1 ∧
      (c.offset + 8 * nChunks ≤ c.bytes.length →
        ⟨rows, 4, (c.bytes.length - (c.offset + 8 * nChunks)) / 4⟩ ∈
          (readColumns source rows nChunks c).1) := by
  have hleft : (bytesLeft c).2 = .ok (c.bytes.length - c.offset, c) := rfl
  constructor
  · exact mem_bind_right hleft (mem_bind_left (List.mem_singleton.mpr rfl))
  · intro hroom
    obtain ⟨keyRows, c', hkeys, hb, ho⟩ := @collect_keyRowCount nChunks 0 c
      (hc.trans (by decide)) hroom
    have hcap : (withCapacity nChunks 8 ((c.bytes.length - c.offset) / 8) c).2 = .ok ((), c) :=
      if_pos (by omega)
    have hleft' : (bytesLeft c').2 =
        .ok (c.bytes.length - (c.offset + 8 * nChunks), c') := by
      rw [← hb, ← ho]
      rfl
    refine mem_bind_right hleft (mem_bind_right hcap ?_)
    refine mem_bind_right (show (reading _ c).2 = .ok (keyRows, c') from hkeys) ?_
    exact mem_bind_right hleft' (mem_bind_left (List.mem_singleton.mpr rfl))

end Parse

/-- For every byte string a process can address, the reader meets what is expected of it exactly
when the header is refused or the file has the bytes for the counts it announces. -/
theorem parsesSafely_iff (raw : List UInt8) (source : String)
    (hcap : 3 * raw.length ≤ isizeMax) :
    ParsesSafely raw source ↔ HeaderRefused raw source ∨ CountsPresent raw := by
  have hmax : isizeMax ≤ maxWord := by decide
  constructor
  · intro hsafe
    by_contra hnot
    rw [not_or] at hnot
    obtain ⟨haccepted, hmissing⟩ := hnot
    unfold HeaderRefused at haccepted
    rw [not_or, not_forall] at haccepted
    obtain ⟨hlen, counts, hc⟩ := haccepted
    rw [not_not] at hc
    obtain ⟨rfl, -⟩ := checkHeader_eq_ok hc
    have hlog : ∀ q ∈ (readColumns source (u64At raw 16) (u64At raw 24)
        ⟨raw, header, header_le hlen⟩).1, q.Backed := by
      intro q hq
      apply hsafe.backed
      unfold parseLayer
      rw [dif_neg hlen, hc]
      exact mem_bind_left hq
    obtain ⟨hslots, hrows⟩ := @requests_readColumns source (u64At raw 16) (u64At raw 24)
      ⟨raw, header, header_le hlen⟩ (by dsimp only; omega)
    have hslots := hlog _ hslots
    unfold Request.Backed at hslots
    unfold CountsPresent at hmissing
    dsimp only at hslots hrows
    have hroom : header + 8 * u64At raw 24 ≤ raw.length := by omega
    have hrows := hlog _ (hrows hroom)
    unfold Request.Backed at hrows
    dsimp only at hrows
    omega
  · rintro (hrefused | hpresent)
    · obtain ⟨hlog, hno⟩ := parseLayer_of_refused hrefused
      refine ⟨hno, fun q hq => ?_, fun L => parseLayer_accepted (by omega)⟩
      rw [hlog] at hq
      exact absurd hq List.not_mem_nil
    · obtain ⟨hlog, hno⟩ := @parseLayer_of_present raw source hcap hpresent
      exact ⟨hno, hlog, fun L => parseLayer_accepted (by omega)⟩

/-- One row over two keys of three scalars each. -/
def oneRow : List UInt8 :=
  headerBytes 3 3 1 1 3 [0, 0, 0, 0] ++ (leBytes 8 2 ++ (leBytes 4 1 ++ (leBytes 4 0 ++
    (leBytes 8 7 ++ (leBytes 4 2 ++ (leBytes 4 0 ++ List.replicate 52 0))))))

theorem parsesSafely_iff_oneRow : oneRow.length = 124 ∧ ParsesSafely oneRow "layer" := by
  have hlen : oneRow.length = 124 := by
    unfold oneRow
    rw [List.length_append, length_headerBytes rfl]
    simp only [List.length_append, length_leBytes, List.length_replicate]
    rfl
  have hcap : 3 * oneRow.length ≤ isizeMax := by
    rw [hlen]
    decide
  obtain ⟨-, -, -, hrows, hslots, -⟩ := @fields_headerBytes 3 3 1 1 3 _ _ (by decide) (by decide)
    (by decide) (by decide) (by decide) oneRow rfl
  refine ⟨hlen, (parsesSafely_iff oneRow "layer" hcap).mpr (Or.inr ?_)⟩
  unfold CountsPresent
  rw [hrows, hslots, hlen]
  decide

/-- A header alone, which announces more chunks than any vector can hold. -/
def manyChunks : List UInt8 := headerBytes 0 1 0 (2 ^ 61) 1 [0, 0, 0, 0]

/-- The reader panics while it reserves room for the key row counts. -/
theorem many_chunks_panic :
    parseLayer manyChunks "layer" = ([⟨2 ^ 61, 8, 0⟩], .error .panic) ∧
      ¬ ParsesSafely manyChunks "layer" := by
  have hrun : parseLayer manyChunks "layer" = ([⟨2 ^ 61, 8, 0⟩], .error .panic) := rfl
  refine ⟨hrun, fun hsafe => hsafe.no_panic ?_⟩
  rw [hrun]

end SlhaV2.RankCapacity

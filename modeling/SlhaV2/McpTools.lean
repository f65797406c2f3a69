import SlhaV2.JsonValue
import SlhaV2.Learned

/-!
# The tools of the MCP server

What a tool is given is checked field by field before anything is computed. The
self-audit, the score kernel and the measured time come from a `Workbench`; the
quantisers are those of the tile.
-/
namespace SlhaV2.McpTools
open DecimalText Documents ExactValues JsonValue LatentCodecs Learned SingleFloat TileCodec

def dims : ℕ := 128
def benchmarkDefaultIterations : ℕ := 200000
def benchmarkMinIterations : ℕ := 1000
def benchmarkMaxIterations : ℕ := 5000000

/-- What the tools ask the rest of the program and its host for. -/
structure Workbench where
  /-- The report of `audit::run`. -/
  audit : Json
  /-- The score of the tile built from a key, and the exact dot product. -/
  score : Latent Float32 → Latent Float32 → Float32 × Float32
  /-- The seconds that this many scores took. -/
  elapsed : ℕ → Float
  dispatchedPath : String
  arch : String

/-- An integer as `f64`. -/
def ofInt (i : ℤ) : Float := ofDecimal (i < 0) i.natAbs 0

def number (i : ℤ) : Json := .num (ofInt i)

def isObject : Json → Bool
  | .obj _ => true
  | _ => false

/-- A field that holds a string which is not empty. -/
def nonEmptyStr (v : Option Json) : Option String := (v.bind Json.asStr).filter (· ≠ "")

def okResponse (id result : Json) : Json :=
  .obj [("jsonrpc", .str "2.0"), ("id", id), ("result", result)]

def errResponse (id : Json) (code : ℤ) (message : String) : Json :=
  .obj [("jsonrpc", .str "2.0"), ("id", id),
    ("error", .obj [("code", number code), ("message", .str message)])]

/-- The failure of a tool is a result too. -/
def toolResult (text : String) (isError : Bool) : Json :=
  .obj [("content", .arr [.obj [("type", .str "text"), ("text", .str text)]]),
    ("isError", .bool isError)]

def f32Max : Float := widen (.ofBits 0x7f7fffff)

def vectorSchema (description : String) : Json :=
  .obj [("type", .str "array"),
    ("items", .obj [("type", .str "number"), ("minimum", .num (-f32Max)),
      ("maximum", .num f32Max)]),
    ("minItems", number dims), ("maxItems", number dims), ("description", .str description)]

def tool (name description : String) (properties : List (String × Json))
    (required : List String) : Json :=
  .obj [("name", .str name), ("description", .str description),
    ("inputSchema", .obj [("$schema", .str "https://json-schema.org/draft/2020-12/schema"),
      ("type", .str "object"), ("properties", .obj properties),
      ("required", .arr (required.map .str)), ("additionalProperties", .bool false)])]

def codecNames : List String := ["int4", "grouped", "nf4", "mixed", "tq3", "mix3"]

def toolDefinitions : Json :=
  .arr [
    tool "slha.audit" "Run the SLHA v2 self-audit and return the complete JSON report." [] [],
    tool "slha.explain"
      "Explain the SLHA v2 tile, codecs, hybrid attention score and elastic paging." [] [],
    tool "slha.compress"
      "Quantize one 128-dimensional key into the 64-byte latent of an SLHA v2 tile."
      [("key", vectorSchema "Exactly 128 finite numbers representable as IEEE-754 f32."),
        ("codec", .obj [("type", .str "string"), ("enum", .arr (codecNames.map .str)),
          ("default", .str "int4"),
          ("description", .str ("int4: single-scale uniform INT4; grouped: " ++
            "per-group INT4; nf4: NormalFloat-4; mixed: " ++
            "8-bit head plus 4-bit body; tq3: 3-bit grid " ++
            "plus correction plane; mix3: 8-bit head plus " ++
            "TQ3 body and separable correction plane."))])]
      ["key"],
    tool "slha.score"
      ("Compare the SLHA coarse score with the exact dot product for two " ++
        "128-dimensional vectors.")
      [("key", vectorSchema "Exactly 128 finite context-key values representable as f32."),
        ("query", vectorSchema "Exactly 128 finite query values representable as f32.")]
      ["key", "query"],
    tool "slha.benchmark" "Measure local SLHA score throughput with a bounded iteration count."
      [("n", .obj [("type", .str "integer"), ("minimum", number benchmarkMinIterations),
        ("maximum", number benchmarkMaxIterations), ("default", number benchmarkDefaultIterations),
        ("description", .str "Number of score iterations.")])]
      []]

def explainText : String :=
  "SLHA v2 (Sub-Low-rank Hybrid Attention) compresses each transformer KV " ++
  "entry into a deterministic 128-byte, cache-line-aware tile.\n\n" ++
  "Each tile stores a 64-byte low-rank latent, a 32-byte one-bit sign-LSH " ++
  "residual and compact metadata. The latent codec can be uniform INT4, grouped " ++
  "INT4, NF4, mixed 8/4-bit, TQ3, or MIX3. TQ3 and MIX3 keep a separable " ++
  "correction plane that CCOS can page out independently.\n\n" ++
  "The attention score combines the dequantized continuous term with a " ++
  "branchless residual-popcount correction. Scalar, AVX2, AVX-512 and NEON " ++
  "implementations are selected at runtime where supported and are regression " ++
  "tested against the scalar reference.\n\n" ++
  "CCOS Soft-Paging moves tiles through HOT, WARM and COLD states while enforcing " ++
  "a memory budget. Use `slha.audit` for invariants, `slha.compress` for codec " ++
  "inspection, `slha.score` for score comparison and `slha.benchmark` for local " ++
  "throughput."

/-- No field but the allowed ones. -/
def validateObjectFields (value : Json) (allowed : List String) (context : String) :
    Except String Unit :=
  match value with
  | .obj fields =>
      match fields.find? fun e => e.1 ∉ allowed with
      | some (key, _) => .error s!"{context} contains unknown property '{key}'"
      | none => .ok ()
  | _ => .error s!"{context} must be an object"

def f32Element (key : String) (index : ℕ) (value : Json) : Except String Float32 :=
  match value.asF64 with
  | none => .error s!"'{key}[{index}]' is not a number"
  | some number =>
      if number.isFinite = false then .error s!"'{key}[{index}]' must be finite"
      else if (narrow number).isFinite = false then
        .error s!"'{key}[{index}]' is outside the finite f32 range"
      else .ok (narrow number)

def f32Dims (args : Json) (key : String) : Except String (Latent Float32) :=
  match (args.get key).bind Json.asArray with
  | none => .error s!"missing number array '{key}' (expected {dims} values)"
  | some array =>
      if array.length ≠ dims then
        .error s!"'{key}' must have {dims} numbers, got {array.length}"
      else do
        let output ← array.zipIdx.mapM fun e => f32Element key e.2 e.1
        .ok fun d => output.getD d 0

def codecOf (name : String) : Option LatentCodec :=
  if name = "int4" then some .int4Single
  else if name = "grouped" then some .int4Grouped
  else if name = "nf4" then some .nf4
  else if name = "mixed" then some .mixed
  else if name = "tq3" then some .tq3
  else if name = "mix3" then some .mix3
  else none

def codecArgument (args : Json) : Except String String :=
  match args.get "codec" with
  | none => .ok "int4"
  | some v =>
      match v.asStr with
      | some codec => .ok codec
      | none => .error "'codec' must be a string"

def toolCompress (args : Json) : Except String String := do
  validateObjectFields args ["key", "codec"] "slha.compress arguments"
  let key ← f32Dims args "key"
  let codec ← codecArgument args
  match codecOf codec with
  | none =>
      .error s!"unknown codec '{codec}': expected int4 | grouped | nf4 | mixed | tq3 | mix3"
  | some c =>
      let q := quantise c key
      .ok (toPretty (.obj [
        ("input_dims", number dims),
        ("input_bytes_f32", number (dims * 4 : ℕ)),
        ("tile_bytes", number 128),
        ("latent_bytes", number q.latent.1.length),
        ("codec", .str codec),
        ("flags", number q.flag.toNat),
        ("compression_ratio_vs_fp32_key", .num (ofInt (dims * 4 : ℕ) / ofInt 128)),
        ("scale", .num (widen q.scale)),
        ("group_scales", .arr (q.groupScales.1.map fun g => number g.toNat)),
        ("latent_first_8_bytes", .arr ((q.latent.1.take 8).map fun b => number b.toNat))]))

def toolScore (bench : Workbench) (args : Json) : Except String String := do
  validateObjectFields args ["key", "query"] "slha.score arguments"
  let key ← f32Dims args "key"
  let query ← f32Dims args "query"
  let (slha, truth) := bench.score key query
  let absErr := (slha - truth).abs
  let relErr := absErr / (1 + truth.abs)
  if [slha, truth, absErr, relErr].any fun x => !x.isFinite then
    .error "score calculation produced a non-finite value; normalize the input vectors"
  else
    .ok (toPretty (.obj [
      ("slha_score", .num (widen slha)),
      ("true_dot", .num (widen truth)),
      ("abs_err", .num (widen absErr)),
      ("rel_err", .num (widen relErr)),
      ("note",
        .str "residual e=0 here, so this isolates the INT4 latent reconstruction error")]))

def boundedIntegerArgument (args : Json) (key : String) (default minimum maximum : ℕ) :
    Except String ℕ :=
  match args.get key with
  | none => .ok default
  | some v =>
      match v.asF64 with
      | none => .error s!"'{key}' must be an integer"
      | some n =>
          if n.isFinite = false ∨ value n ≠ trunc (value n) then
            .error s!"'{key}' must be a finite integer"
          else if value n < minimum ∨ value n > maximum then
            .error s!"'{key}' must be between {minimum} and {maximum}"
          else .ok (trunc (value n)).toNat

/-- A default which lies within the bounds needs no check. -/
theorem boundedIntegerArgument_bounds {args : Json} {key : String} {d lo hi n : ℕ}
    (hlo : lo ≤ d) (hhi : d ≤ hi) (h : boundedIntegerArgument args key d lo hi = .ok n) :
    lo ≤ n ∧ n ≤ hi := by
  unfold boundedIntegerArgument at h
  cases hget : args.get key with
  | none =>
      rw [hget] at h
      cases h
      exact ⟨hlo, hhi⟩
  | some v =>
      rw [hget] at h
      dsimp only at h
      cases hnum : v.asF64 with
      | none =>
          rw [hnum] at h
          cases h
      | some x =>
          rw [hnum] at h
          dsimp only at h
          split_ifs at h with hint hrange
          cases h
          have hval : value x = trunc (value x) := by
            by_contra hne
            exact hint (.inr hne)
          have hlo' : (lo : ℤ) ≤ trunc (value x) := by
            have : (lo : ℚ) ≤ value x := not_lt.mp fun hlt => hrange (.inl hlt)
            rw [hval] at this
            exact_mod_cast this
          have hhi' : trunc (value x) ≤ (hi : ℤ) := by
            have : value x ≤ (hi : ℚ) := not_lt.mp fun hlt => hrange (.inr hlt)
            rw [hval] at this
            exact_mod_cast this
          omega

def toolBenchmark (bench : Workbench) (args : Json) : Except String String := do
  validateObjectFields args ["n"] "slha.benchmark arguments"
  let n ← boundedIntegerArgument args "n" benchmarkDefaultIterations benchmarkMinIterations
    benchmarkMaxIterations
  let seconds := bench.elapsed n
  .ok (toPretty (.obj [
    ("scores", number n),
    ("seconds", .num seconds),
    ("scores_per_sec", .num (ofInt n / maxFloat seconds (ofDecimal false 1 (-12)))),
    ("ns_per_score", .num (seconds * ofInt 1000000000 / ofInt n)),
    ("dispatched_path", .str bench.dispatchedPath),
    ("arch", .str bench.arch)]))

def runTool (bench : Workbench) (name : String) (arguments : Json) : Except String String :=
  if name = "slha.audit" then
    (validateObjectFields arguments [] "slha.audit arguments").map fun _ => toPretty bench.audit
  else if name = "slha.explain" then
    (validateObjectFields arguments [] "slha.explain arguments").map fun _ => explainText
  else if name = "slha.compress" then toolCompress arguments
  else if name = "slha.score" then toolScore bench arguments
  else if name = "slha.benchmark" then toolBenchmark bench arguments
  else .error s!"unknown tool: {name}"

/-- The name and the arguments of a call. -/
def toolCallParams (params : Option Json) : Except String (String × Json) :=
  match params with
  | none => .error "missing params"
  | some p =>
      if isObject p = false then .error "tools/call params must be an object"
      else do
        validateObjectFields p ["name", "arguments"] "tools/call params"
        match nonEmptyStr (p.get "name") with
        | none => .error "missing tool name"
        | some name =>
            match p.get "arguments" with
            | none => .ok (name, .obj [])
            | some a =>
                if isObject a then .ok (name, a)
                else .error "tool arguments must be an object"

def handleToolCall (bench : Workbench) (id : Json) (params : Option Json) : Json :=
  match toolCallParams params with
  | .error message => errResponse id (-32602) message
  | .ok (name, arguments) =>
      match runTool bench name arguments with
      | .ok output => okResponse id (toolResult output false)
      | .error error => okResponse id (toolResult error true)

end SlhaV2.McpTools

import SlhaV2.Exchanges
import SlhaV2.FrameReader
import SlhaV2.JsonAcceptance
import SlhaV2.McpTools

/-!
# The MCP server on its standard streams

One JSON-RPC message a line. A message is answered according to the lifecycle,
which only two messages advance. The loop ends with the input, or when a response
cannot be written.
-/
namespace SlhaV2.McpServer
open MachineWord CheckedSteps Documents ExactValues SingleFloat FrameReader JsonValue JsonParser
open Utf8Text JsonAcceptance McpTools Exchanges

def protocolVersion : String := "2025-11-25"

/-- Revisions whose stdio/tool subset is supported. -/
def supportedProtocolVersions : List String :=
  ["2025-11-25", "2025-06-18", "2025-03-26", "2024-11-05"]

def serverName : String := "slha-mcp"
def serverVersion : String := "0.2.0"

/-- Maximum JSON-RPC frame size, excluding the newline delimiter. -/
def maxFrameBytes : ℕ := 256 * 1024

/-- Largest numeric request identifier that is exactly representable. -/
def maxSafeJsonInteger : ℕ := 9007199254740991

inductive Lifecycle where
  | uninitialized
  | awaitingInitialized
  | ready
deriving DecidableEq, Repr

def Lifecycle.rank : Lifecycle → ℕ
  | .uninitialized => 0
  | .awaitingInitialized => 1
  | .ready => 2

instance : Preorder Lifecycle := Preorder.lift Lifecycle.rank

theorem Lifecycle.le_iff {a b : Lifecycle} : a ≤ b ↔ a.rank ≤ b.rank := Iff.rfl

def validRequestId : Json → Bool
  | .str _ => true
  | .num n => n.isFinite && decide (value n = trunc (value n) ∧ |value n| ≤ maxSafeJsonInteger)
  | _ => false

def negotiateProtocolVersion (requested : String) : String :=
  (supportedProtocolVersions.find? fun supported => supported = requested).getD protocolVersion

/-- The protocol version that well-formed parameters ask for. -/
def initializeParams (params : Option Json) : Except String String :=
  match params with
  | some (.obj m) =>
      let p : Json := .obj m
      match nonEmptyStr (p.get "protocolVersion") with
      | none => .error "initialize requires a non-empty protocolVersion"
      | some requested =>
          if (p.get "capabilities").any isObject = false then
            .error "initialize requires a capabilities object"
          else
            match p.get "clientInfo" with
            | some (.obj c) =>
                let clientInfo : Json := .obj c
                if nonEmptyStr (clientInfo.get "name") = none then
                  .error "clientInfo.name must be a non-empty string"
                else if nonEmptyStr (clientInfo.get "version") = none then
                  .error "clientInfo.version must be a non-empty string"
                else .ok requested
            | _ => .error "initialize requires a clientInfo object"
  | _ => .error "initialize params must be an object"

def initializeResult (negotiated : String) : Json :=
  .obj [("protocolVersion", .str negotiated),
    ("capabilities", .obj [("tools", .obj [("listChanged", .bool false)])]),
    ("serverInfo", .obj [("name", .str serverName), ("title", .str "SLHA v2 MCP Server"),
      ("version", .str serverVersion),
      ("description", .str "Deterministic SLHA v2 compression, scoring and audit tools")]),
    ("instructions", .str ("Use slha.audit for invariants, slha.compress for latent " ++
      "codecs, slha.score for score comparison and slha.benchmark " ++
      "for local throughput."))]

def handleInitialize (id : Json) (params : Option Json) (lifecycle : Lifecycle) :
    Json × Lifecycle :=
  if lifecycle ≠ .uninitialized then
    (errResponse id (-32600) "server is already initialized", lifecycle)
  else
    match initializeParams params with
    | .error message => (errResponse id (-32602) message, lifecycle)
    | .ok requested =>
        (okResponse id (initializeResult (negotiateProtocolVersion requested)),
          .awaitingInitialized)

def listTools (id : Json) : Json := okResponse id (.obj [("tools", toolDefinitions)])

/-- A message of a well-formed envelope; without an id it is a notification. -/
def handleMethod (bench : Workbench) (method : String) (idOpt params : Option Json)
    (lifecycle : Lifecycle) : Option Json × Lifecycle :=
  if method = "initialize" then
    match idOpt with
    | none => (none, lifecycle)
    | some id =>
        let (response, lifecycle) := handleInitialize id params lifecycle
        (some response, lifecycle)
  else if method = "notifications/initialized" then
    match idOpt with
    | some id =>
        (some (errResponse id (-32600) "notifications/initialized must not contain an id"),
          lifecycle)
    | none => (none, if lifecycle = .awaitingInitialized then .ready else lifecycle)
  else if method = "ping" then (idOpt.map fun id => okResponse id (.obj []), lifecycle)
  else if lifecycle ≠ .ready then
    (idOpt.map fun id => errResponse id (-32002) "server is not initialized", lifecycle)
  else if method = "tools/list" then (idOpt.map listTools, lifecycle)
  else if method = "tools/call" then
    (idOpt.map fun id => handleToolCall bench id params, lifecycle)
  else (idOpt.map fun id => errResponse id (-32601) s!"method not found: {method}", lifecycle)

/-- Handle one JSON-RPC message. A malformed one is no notification merely because it
lacks an id. -/
def handle (bench : Workbench) (req : Json) (lifecycle : Lifecycle) : Option Json × Lifecycle :=
  let invalid (message : String) := some (errResponse .null (-32600) s!"invalid request: {message}")
  if isObject req = false then (invalid "top-level value must be an object", lifecycle)
  else if (req.get "jsonrpc").bind Json.asStr ≠ some "2.0" then
    (invalid "jsonrpc must equal \"2.0\"", lifecycle)
  else
    match nonEmptyStr (req.get "method") with
    | none => (invalid "method must be a non-empty string", lifecycle)
    | some method =>
        let idOpt := req.get "id"
        if idOpt.any (fun id => !validRequestId id) then
          (invalid "id must be a string or safe integer", lifecycle)
        else if (req.get "params").any (fun p => !isObject p) then
          (idOpt.map fun id => errResponse id (-32602) "params must be an object", lifecycle)
        else handleMethod bench method idOpt (req.get "params") lifecycle

/-- Unicode `White_Space`. -/
def isWhiteSpace (c : Char) : Bool :=
  let n := c.toNat
  (9 ≤ n ∧ n ≤ 13) ∨ n = 0x20 ∨ n = 0x85 ∨ n = 0xA0 ∨ n = 0x1680 ∨ (0x2000 ≤ n ∧ n ≤ 0x200A) ∨
    n = 0x2028 ∨ n = 0x2029 ∨ n = 0x202F ∨ n = 0x205F ∨ n = 0x3000

/-- `str::trim`. -/
def trim (s : String) : String :=
  String.ofList ((s.toList.dropWhile isWhiteSpace).rdropWhile isWhiteSpace)

/-- What the loop makes of a frame. -/
def receive (bench : Workbench) (lifecycle : Lifecycle) :
    FrameRead × List UInt8 → Outcome (Option Json × Lifecycle)
  | (.eof, _) => .ok (none, lifecycle)
  | (.tooLarge, _) =>
      .ok (some (errResponse .null (-32700)
        s!"parse error: JSON-RPC frame exceeds {maxFrameBytes} bytes"), lifecycle)
  | (.ready, frame) =>
      match fromUtf8 frame with
      | none =>
          .ok (some (errResponse .null (-32700)
            s!"parse error: invalid UTF-8: {utf8Error frame}"), lifecycle)
      | some s =>
          let text := trim s
          if text = "" then .ok (none, lifecycle)
          else
            match parseWithLimit text maxFrameBytes with
            | .ok request => .ok (handle bench request lifecycle)
            | .error (.err error) =>
                .ok (some (errResponse .null (-32700) s!"parse error: {error}"), lifecycle)
            | .error .panic => .error .panic

abbrev Entry := Exchange Lifecycle (FrameRead × List UInt8) Json

/-- A call of `read_frame` that finds a frame takes it from the stream. -/
theorem pieces_shorter {chop : ℕ → ℕ} {maxBytes : ℕ} {r : Reader}
    (h : (readFrame chop maxBytes r).1 ≠ .eof) :
    (pieces (readFrame chop maxBytes r).2.2.rest).length < (pieces r.rest).length := by
  obtain ⟨hread, htail⟩ := readFrame_pieces chop maxBytes r
  rw [htail]
  cases hpieces : pieces r.rest with
  | nil =>
      rw [hpieces] at hread
      exact absurd (congrArg Prod.fst hread) h
  | cons p ps => simp

/-- The main loop, at its `n`-th frame and with `w` responses written. The workbench may
behave differently at each frame; `sink` says which writes succeed. -/
def serve (bench : ℕ → Workbench) (chop : ℕ → ℕ) (sink : ℕ → Bool) (n w : ℕ)
    (lifecycle : Lifecycle) (r : Reader) : Outcome (List Entry) :=
  let read := readFrame chop maxFrameBytes r
  if _h : read.1 = .eof then .ok []
  else do
    let (response, after) ← receive (bench n) lifecycle (read.1, read.2.1)
    let rest ←
      if response.isNone then serve bench chop sink (n + 1) w after read.2.2
      else if sink w then serve bench chop sink (n + 1) (w + 1) after read.2.2
      else .ok []
    .ok (⟨lifecycle, (read.1, read.2.1), response, after⟩ :: rest)
termination_by (pieces r.rest).length
decreasing_by all_goals exact pieces_shorter _h

/-- The line of a response. -/
def writeResponse (response : Json) : List UInt8 := bytes (toCompact response) ++ [newlineByte]

/-- The server as a machine that answers frames; a panic would end it without an answer. -/
def server (bench : ℕ → Workbench) : Machine Lifecycle (FrameRead × List UInt8) Json where
  answer n lifecycle read :=
    match receive (bench n) lifecycle read with
    | .ok answer => answer
    | .error _ => (none, lifecycle)

theorem server_answer {bench : ℕ → Workbench} {n : ℕ} {lifecycle : Lifecycle}
    {read : FrameRead × List UInt8} {a : Option Json × Lifecycle}
    (h : receive (bench n) lifecycle read = .ok a) :
    (server bench).answer n lifecycle read = a := by
  unfold server
  dsimp only
  rw [h]

theorem length_bytes_trim (s : String) : (bytes (trim s)).length ≤ (bytes s).length := by
  have hleft := List.dropWhile_sublist isWhiteSpace (l := s.toList)
  have hright := (List.rdropWhile_prefix isWhiteSpace (s.toList.dropWhile isWhiteSpace)).sublist
  unfold bytes trim
  rw [String.toList_ofList]
  exact length_encode_le (hright.trans hleft)

/-- The parser does not panic on a frame which fits. -/
theorem parseWithLimit_noPanic {p : List UInt8} {s : String} (hfits : p.length ≤ maxFrameBytes)
    (hutf : fromUtf8 p = some s) : NoPanic (parseWithLimit (trim s) maxFrameBytes) := by
  have hle := length_bytes_trim s
  rw [bytes_of_fromUtf8 hutf] at hle
  have hsmall : (bytes (trim s)).length + 4 ≤ maxWord := by
    unfold maxFrameBytes at hfits
    unfold maxWord
    omega
  exact (parseWithLimit_meets hsmall).1

/-- Every frame of the stream is answered or passed over. -/
theorem receive_verdict (bench : Workbench) (lifecycle : Lifecycle) (p : List UInt8) :
    ∃ answer, receive bench lifecycle (verdict maxFrameBytes p) = .ok answer := by
  unfold verdict
  split_ifs with hfits
  · unfold receive
    dsimp only
    cases hutf : fromUtf8 p with
    | none => exact ⟨_, rfl⟩
    | some s =>
        dsimp only
        split_ifs
        · exact ⟨_, rfl⟩
        cases hparse : parseWithLimit (trim s) maxFrameBytes with
        | ok v => exact ⟨_, rfl⟩
        | error f =>
            cases f with
            | err msg => exact ⟨_, rfl⟩
            | panic => exact absurd hparse (parseWithLimit_noPanic hfits hutf)
  · exact ⟨_, rfl⟩

/-- The loop runs to its end, as a session of the machine over the frames of the stream. -/
theorem serve_eq (bench : ℕ → Workbench) (chop : ℕ → ℕ) (sink : ℕ → Bool) (n w : ℕ)
    (lifecycle : Lifecycle) (r : Reader) : serve bench chop sink n w lifecycle r =
      .ok ((server bench).session sink n w lifecycle
        ((pieces r.rest).map (verdict maxFrameBytes))) := by
  obtain ⟨hread, htail⟩ := readFrame_pieces chop maxFrameBytes r
  induction hps : pieces r.rest generalizing n w lifecycle r with
  | nil =>
      rw [hps] at hread
      unfold serve
      exact dif_pos (congrArg Prod.fst hread)
  | cons p ps ih =>
      rw [hps] at hread htail
      have hrest := fun n w lc => ih n w lc (readFrame chop maxFrameBytes r).2.2
        (readFrame_pieces ..).1 (readFrame_pieces ..).2 htail
      have hmore : (readFrame chop maxFrameBytes r).1 ≠ .eof := by
        rw [congrArg Prod.fst hread]
        simp only [List.head?_cons, expected, verdict]
        split_ifs <;> simp
      have hframe : ((readFrame chop maxFrameBytes r).1, (readFrame chop maxFrameBytes r).2.1) =
          verdict maxFrameBytes p := hread
      obtain ⟨⟨response, after⟩, hreceive⟩ := receive_verdict (bench n) lifecycle p
      unfold serve
      simp only [dif_neg hmore, hframe, hreceive, ok_bind, hrest]
      simp only [List.map_cons, Machine.session, Machine.exchange, server_answer hreceive]
      split_ifs <;> rfl

end SlhaV2.McpServer

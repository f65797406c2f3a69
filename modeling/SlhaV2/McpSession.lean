import SlhaV2.McpServer
import SlhaV2.PrintedLine

/-!
# Whole sessions of the MCP server

What a single message does to the lifecycle and how it is answered is said once,
by cases on the envelope. The order of events in a session follows, since a state
is entered only by the message which leads to it.
-/
namespace SlhaV2.McpSession
open MachineWord CheckedSteps Documents FrameReader JsonValue JsonParser Utf8Text JsonGrammar
open JsonParsing JsonAcceptance McpTools Exchanges McpServer PrintedLine

/-- A message without an id. -/
structure Notification (v : Json) : Prop where
  jsonrpc : v.get "jsonrpc" = some (.str "2.0")
  method : ∃ m, m ≠ "" ∧ v.get "method" = some (.str m)
  noId : v.get "id" = none

/-- A message whose id may be answered to. -/
structure Request (v id : Json) : Prop where
  jsonrpc : v.get "jsonrpc" = some (.str "2.0")
  method : ∃ m, m ≠ "" ∧ v.get "method" = some (.str m)
  hasId : v.get "id" = some id
  valid : validRequestId id = true

/-- The responses that carry an id: a result or an error. -/
def Answers (id response : Json) : Prop :=
  ∃ member body, response = .obj [("jsonrpc", .str "2.0"), ("id", id), (member, body)] ∧
    (member = "result" ∨ member = "error")

/-- One line without control characters, which shows the id behind a fixed beginning. -/
structure OneLine (id : Json) (line : List UInt8) : Prop where
  ends : ∃ text, line = text ++ [newlineByte] ∧ ∀ b ∈ text, 0x20 ≤ b.toNat
  begins : bytes ("\x7b\"jsonrpc\":\"2.0\",\"id\":" ++ toCompact id ++ ",") <+: line

theorem asStr_eq {v : Option Json} {s : String} :
    v.bind Json.asStr = some s ↔ v = some (.str s) := by
  constructor
  · intro h
    obtain ⟨w, rfl, hw⟩ := Option.bind_eq_some_iff.mp h
    cases w with
    | str t =>
        cases hw
        rfl
    | _ => cases hw
  · rintro rfl
    rfl

theorem nonEmptyStr_eq {v : Option Json} {s : String} :
    nonEmptyStr v = some s ↔ s ≠ "" ∧ v = some (.str s) := by
  unfold nonEmptyStr
  rw [Option.filter_eq_some_iff, asStr_eq, decide_eq_true_iff]
  exact and_comm

section Handle
variable {bench : Workbench} {v id : Json} {lifecycle : Lifecycle}

/-- A message outside the envelope is refused. -/
theorem handle_invalid (bench : Workbench) (lifecycle : Lifecycle)
    (h : ¬(Notification v ∨ ∃ id, Request v id)) :
    ∃ message, handle bench v lifecycle =
      (some (errResponse .null (-32600) message), lifecycle) := by
  unfold handle
  dsimp only
  by_cases hobj : isObject v = false
  · rw [if_pos hobj]
    exact ⟨_, rfl⟩
  rw [if_neg hobj]
  by_cases hversion : (v.get "jsonrpc").bind Json.asStr = some "2.0"
  swap
  · rw [if_pos hversion]
    exact ⟨_, rfl⟩
  rw [if_neg (not_not.mpr hversion)]
  have hrpc := asStr_eq.mp hversion
  cases hmethod : nonEmptyStr (v.get "method") with
  | none => exact ⟨_, rfl⟩
  | some m =>
      have hm : ∃ m, m ≠ "" ∧ v.get "method" = some (.str m) := ⟨m, nonEmptyStr_eq.mp hmethod⟩
      dsimp only
      cases hid : v.get "id" with
      | none => exact absurd (.inl ⟨hrpc, hm, hid⟩) h
      | some id =>
          by_cases hvalid : validRequestId id = true
          · exact absurd (.inr ⟨id, hrpc, hm, hid, hvalid⟩) h
          · rw [Option.any_some, if_pos (by simpa using hvalid)]
            exact ⟨_, rfl⟩

/-- Inside the envelope the parameters are looked at, then the method. -/
theorem handle_valid {m : String} (hrpc : v.get "jsonrpc" = some (.str "2.0"))
    (hm : m ≠ "" ∧ v.get "method" = some (.str m))
    (hid : ∀ id ∈ v.get "id", validRequestId id = true) :
    handle bench v lifecycle =
      if (v.get "params").any (fun p => !isObject p) then
        ((v.get "id").map fun id => errResponse id (-32602) "params must be an object", lifecycle)
      else handleMethod bench m (v.get "id") (v.get "params") lifecycle := by
  have hobj : isObject v = true := by
    cases v with
    | obj fields => rfl
    | _ => cases hrpc
  have hids : (v.get "id").any (fun id => !validRequestId id) = false := by
    cases hget : v.get "id" with
    | none => rfl
    | some id => simpa using hid id hget
  unfold handle
  dsimp only
  rw [if_neg (by simp [hobj]), if_neg (by simp [asStr_eq.mpr hrpc]), nonEmptyStr_eq.mpr hm]
  dsimp only
  rw [if_neg (by simp [hids])]

theorem Notification.handle_eq (h : Notification v) (bench : Workbench) (lifecycle : Lifecycle) :
    ∃ m, v.get "method" = some (.str m) ∧ handle bench v lifecycle =
      if (v.get "params").any (fun p => !isObject p) then (none, lifecycle)
      else handleMethod bench m none (v.get "params") lifecycle := by
  obtain ⟨m, hm⟩ := h.method
  have hid : ∀ id ∈ v.get "id", validRequestId id = true := by simp [h.noId]
  refine ⟨m, hm.2, ?_⟩
  rw [handle_valid h.jsonrpc hm hid, h.noId, Option.map_none]

theorem Request.handle_eq (h : Request v id) (bench : Workbench) (lifecycle : Lifecycle) :
    ∃ m, v.get "method" = some (.str m) ∧ handle bench v lifecycle =
      if (v.get "params").any (fun p => !isObject p) then
        (some (errResponse id (-32602) "params must be an object"), lifecycle)
      else handleMethod bench m (some id) (v.get "params") lifecycle := by
  obtain ⟨m, hm⟩ := h.method
  have hid : ∀ i ∈ v.get "id", validRequestId i = true := by simp [h.hasId, h.valid]
  refine ⟨m, hm.2, ?_⟩
  rw [handle_valid h.jsonrpc hm hid, h.hasId, Option.map_some]

theorem okResponse_answers (id result : Json) : Answers id (okResponse id result) :=
  ⟨_, _, rfl, .inl rfl⟩

theorem errResponse_answers (id : Json) (code : ℤ) (message : String) :
    Answers id (errResponse id code message) := ⟨_, _, rfl, .inr rfl⟩

/-- A failing initialization changes nothing. -/
theorem handleInitialize_cases (id : Json) (params : Option Json) (lifecycle : Lifecycle) :
    (∃ code message, handleInitialize id params lifecycle =
      (errResponse id code message, lifecycle)) ∨
      (lifecycle = .uninitialized ∧ ∃ result, handleInitialize id params lifecycle =
        (okResponse id result, .awaitingInitialized)) := by
  unfold handleInitialize
  by_cases hfresh : lifecycle = .uninitialized
  · rw [if_neg (not_not.mpr hfresh)]
    cases initializeParams params with
    | error message => exact .inl ⟨_, _, rfl⟩
    | ok requested => exact .inr ⟨hfresh, _, rfl⟩
  · rw [if_pos hfresh]
    exact .inl ⟨_, _, rfl⟩

theorem handleInitialize_answers (params : Option Json) :
    Answers id (handleInitialize id params lifecycle).1 := by
  rcases handleInitialize_cases id params lifecycle with ⟨_, _, h⟩ | ⟨-, _, h⟩
  · rw [h]
    exact errResponse_answers ..
  · rw [h]
    exact okResponse_answers ..

/-- A call is refused with one code, or has a result. -/
theorem handleToolCall_cases (bench : Workbench) (id : Json) (params : Option Json) :
    (∃ message, toolCallParams params = .error message ∧
      handleToolCall bench id params = errResponse id (-32602) message) ∨
      ∃ result, handleToolCall bench id params = okResponse id result := by
  unfold handleToolCall
  cases toolCallParams params with
  | error message => exact .inl ⟨message, rfl, rfl⟩
  | ok call =>
      cases hrun : runTool bench call.1 call.2 with
      | ok output => exact .inr ⟨toolResult output false, by simp only [hrun]⟩
      | error error => exact .inr ⟨toolResult error true, by simp only [hrun]⟩

theorem handleToolCall_answers (params : Option Json) :
    Answers id (handleToolCall bench id params) := by
  rcases handleToolCall_cases bench id params with ⟨message, -, h⟩ | ⟨result, h⟩
  · rw [h]
    exact errResponse_answers ..
  · rw [h]
    exact okResponse_answers ..

/-- A notification is never answered. -/
theorem handleMethod_silent (method : String) (params : Option Json) :
    (handleMethod bench method none params lifecycle).1 = none := by
  unfold handleMethod
  split_ifs <;> rfl

/-- A request is always answered. -/
theorem handleMethod_answers (method : String) (params : Option Json) :
    ∃ r, (handleMethod bench method (some id) params lifecycle).1 = some r ∧ Answers id r := by
  unfold handleMethod
  dsimp only [Option.map_some]
  split_ifs
  · exact ⟨_, rfl, handleInitialize_answers params⟩
  · exact ⟨_, rfl, errResponse_answers ..⟩
  · exact ⟨_, rfl, okResponse_answers ..⟩
  · exact ⟨_, rfl, errResponse_answers ..⟩
  · exact ⟨_, rfl, okResponse_answers ..⟩
  · exact ⟨_, rfl, handleToolCall_answers params⟩
  · exact ⟨_, rfl, errResponse_answers ..⟩

/-- The two ways in which the lifecycle advances. -/
theorem handleMethod_lifecycle (bench : Workbench) (lifecycle : Lifecycle) (method : String)
    (idOpt params : Option Json) :
    (handleMethod bench method idOpt params lifecycle).2 = lifecycle ∨
      (method = "initialize" ∧ lifecycle = .uninitialized ∧
        ∃ id result, idOpt = some id ∧ handleMethod bench method idOpt params lifecycle =
          (some (okResponse id result), .awaitingInitialized)) ∨
      (method = "notifications/initialized" ∧ lifecycle = .awaitingInitialized ∧
        idOpt = none ∧ handleMethod bench method idOpt params lifecycle = (none, .ready)) := by
  unfold handleMethod
  cases idOpt with
  | none =>
      dsimp only [Option.map_none]
      split_ifs with hinit hconfirm hwaiting
      · exact .inl rfl
      · exact .inr (.inr ⟨hconfirm, hwaiting, rfl, rfl⟩)
      all_goals exact .inl rfl
  | some id =>
      dsimp only [Option.map_some]
      split_ifs with hinit
      · rcases handleInitialize_cases id params lifecycle with ⟨_, _, h⟩ | ⟨hfresh, _, h⟩
        · rw [h]
          exact .inl rfl
        · rw [h]
          exact .inr (.inl ⟨hinit, hfresh, id, _, rfl, rfl⟩)
      all_goals exact .inl rfl

/-- Before the server is ready a call of a tool is refused. -/
theorem handleMethod_notReady {method : String} (params : Option Json)
    (hmethod : method = "tools/list" ∨ method = "tools/call") (h : lifecycle ≠ .ready) :
    handleMethod bench method (some id) params lifecycle =
      (some (errResponse id (-32002) "server is not initialized"), lifecycle) := by
  unfold handleMethod
  rcases hmethod with rfl | rfl
  · rw [if_neg (by decide), if_neg (by decide), if_neg (by decide), if_pos h, Option.map_some]
  · rw [if_neg (by decide), if_neg (by decide), if_neg (by decide), if_pos h, Option.map_some]

theorem errResponse_ne_okResponse (code : ℤ) (message : String) (result : Json) :
    errResponse id code message ≠ okResponse id result := by
  intro h
  simp [errResponse, okResponse] at h

theorem errResponse_inj {c c' : ℤ} {m m' : String} (h : errResponse id c m = errResponse id c' m') :
    number c = number c' ∧ m = m' := by
  simpa [errResponse] using h

theorem codes_ne : number (-32002) ≠ number (-32602) := by
  intro h
  injection h with hfloat
  have hbits := congrArg Float.toBits hfloat
  exact absurd hbits (by decide +kernel)

end Handle

/-- The JSON value that the server reads from a frame, if it reads one. -/
def message : FrameRead × List UInt8 → Option Json
  | (.ready, frame) =>
      match fromUtf8 frame with
      | none => none
      | some s => if trim s = "" then none else (parseWithLimit (trim s) maxFrameBytes).toOption
  | _ => none

/-- A frame that is too large, no UTF-8, or text that the parser refuses. -/
def Unreadable : FrameRead × List UInt8 → Prop
  | (.tooLarge, _) => True
  | (.ready, frame) =>
      match fromUtf8 frame with
      | none => True
      | some s => trim s ≠ "" ∧ ∃ error, parseWithLimit (trim s) maxFrameBytes = .error (.err error)
  | (.eof, _) => False

section Frame
variable {bench : Workbench} {v id : Json} {lifecycle : Lifecycle} {read : FrameRead × List UInt8}

/-- Such a frame is answered by a parse error without an id. -/
theorem receive_unreadable (h : Unreadable read) : ∃ text, receive bench lifecycle read =
    .ok (some (errResponse .null (-32700) text), lifecycle) := by
  obtain ⟨result, frame⟩ := read
  cases result with
  | eof => exact absurd h id
  | tooLarge => exact ⟨_, rfl⟩
  | ready =>
      unfold Unreadable at h
      unfold receive
      dsimp only at h ⊢
      cases hutf : fromUtf8 frame with
      | none => exact ⟨_, rfl⟩
      | some s =>
          rw [hutf] at h
          obtain ⟨htext, error, hparse⟩ := h
          dsimp only
          rw [if_neg htext, hparse]
          exact ⟨_, rfl⟩

theorem receive_message (h : message read = some v) :
    receive bench lifecycle read = .ok (handle bench v lifecycle) := by
  obtain ⟨result, frame⟩ := read
  cases result with
  | eof => cases h
  | tooLarge => cases h
  | ready =>
      unfold message at h
      unfold receive
      dsimp only at h ⊢
      cases hutf : fromUtf8 frame with
      | none =>
          rw [hutf] at h
          cases h
      | some s =>
          rw [hutf] at h
          dsimp only at h ⊢
          split_ifs at h ⊢
          cases hparse : parseWithLimit (trim s) maxFrameBytes with
          | error f =>
              rw [hparse] at h
              cases h
          | ok w =>
              rw [hparse] at h
              cases h
              rfl

/-- What is no message leaves the lifecycle as it was. -/
theorem receive_other (h : message read = none) {a : Option Json × Lifecycle}
    (ha : receive bench lifecycle read = .ok a) : a.2 = lifecycle := by
  obtain ⟨result, frame⟩ := read
  cases result with
  | eof =>
      cases ha
      rfl
  | tooLarge =>
      cases ha
      rfl
  | ready =>
      unfold message at h
      unfold receive at ha
      dsimp only at h ha
      cases hutf : fromUtf8 frame with
      | none =>
          rw [hutf] at ha
          cases ha
          rfl
      | some s =>
          rw [hutf] at h ha
          dsimp only at h ha
          split_ifs at h ha
          · cases ha
            rfl
          cases hparse : parseWithLimit (trim s) maxFrameBytes with
          | ok w =>
              rw [hparse] at h
              cases h
          | error f =>
              rw [hparse] at ha
              cases f with
              | err error =>
                  cases ha
                  rfl
              | panic => cases ha

/-- A valid notification is never answered. -/
theorem handle_silent (bench : Workbench) (lifecycle : Lifecycle) (h : Notification v) :
    (handle bench v lifecycle).1 = none := by
  obtain ⟨m, -, heq⟩ := h.handle_eq bench lifecycle
  rw [heq]
  split_ifs
  · rfl
  · exact handleMethod_silent m _

/-- A request gets one response, with its id. -/
theorem handle_answers (bench : Workbench) (lifecycle : Lifecycle) (h : Request v id) :
    ∃ r, (handle bench v lifecycle).1 = some r ∧ Answers id r := by
  obtain ⟨m, -, heq⟩ := h.handle_eq bench lifecycle
  rw [heq]
  split_ifs
  · exact ⟨_, rfl, errResponse_answers ..⟩
  · exact handleMethod_answers m _

/-- What advances the lifecycle: an initialization that succeeds, or its confirmation. -/
theorem handle_lifecycle (bench : Workbench) (v : Json) (lifecycle : Lifecycle) :
    (handle bench v lifecycle).2 = lifecycle ∨
    (∃ id result, Request v id ∧ v.get "method" = some (.str "initialize") ∧
      lifecycle = .uninitialized ∧
      handle bench v lifecycle = (some (okResponse id result), .awaitingInitialized)) ∨
    (Notification v ∧ v.get "method" = some (.str "notifications/initialized") ∧
      lifecycle = .awaitingInitialized ∧ handle bench v lifecycle = (none, .ready)) := by
  by_cases hvalid : Notification v ∨ ∃ id, Request v id
  swap
  · obtain ⟨text, h⟩ := handle_invalid bench lifecycle hvalid
    rw [h]
    exact .inl rfl
  rcases hvalid with hnote | ⟨id, hreq⟩
  · obtain ⟨m, hm, heq⟩ := hnote.handle_eq bench lifecycle
    rw [heq]
    split_ifs
    · exact .inl rfl
    rcases handleMethod_lifecycle bench lifecycle m none (v.get "params") with
      h | ⟨-, -, _, _, h, -⟩ | ⟨rfl, hwait, -, h⟩
    · exact .inl h
    · cases h
    · exact .inr (.inr ⟨hnote, hm, hwait, h⟩)
  · obtain ⟨m, hm, heq⟩ := hreq.handle_eq bench lifecycle
    rw [heq]
    split_ifs
    · exact .inl rfl
    rcases handleMethod_lifecycle bench lifecycle m (some id) (v.get "params") with
      h | ⟨rfl, hfresh, _, result, hsome, h⟩ | ⟨-, -, h, -⟩
    · exact .inl h
    · cases hsome
      exact .inr (.inl ⟨id, result, hreq, hm, hfresh, h⟩)
    · cases h

/-- Parameters that are no object change nothing. -/
theorem handle_params (bench : Workbench) (lifecycle : Lifecycle) {p : Json}
    (hp : v.get "params" = some p) (hobj : isObject p = false) :
    (handle bench v lifecycle).2 = lifecycle := by
  have hany : (v.get "params").any (fun p => !isObject p) = true := by simp [hp, hobj]
  by_cases hvalid : Notification v ∨ ∃ id, Request v id
  · rcases hvalid with hnote | ⟨id, hreq⟩
    · obtain ⟨m, -, heq⟩ := hnote.handle_eq bench lifecycle
      rw [heq, if_pos hany]
    · obtain ⟨m, -, heq⟩ := hreq.handle_eq bench lifecycle
      rw [heq, if_pos hany]
  · obtain ⟨text, h⟩ := handle_invalid bench lifecycle hvalid
    rw [h]

/-- A request for the tools, with what they would answer. -/
def ToolAnswer (v id response : Json) : Prop :=
  (v.get "method" = some (.str "tools/list") ∧ response = listTools id) ∨
    (v.get "method" = some (.str "tools/call") ∧
      ∃ bench, response = handleToolCall bench id (v.get "params"))

theorem ToolAnswer.method {r : Json} (h : ToolAnswer v id r) :
    v.get "method" = some (.str "tools/list") ∨ v.get "method" = some (.str "tools/call") := by
  rcases h with ⟨h, -⟩ | ⟨h, -⟩
  · exact .inl h
  · exact .inr h

/-- No refusal of the server itself is an answer of a tool. -/
theorem ToolAnswer.ne_notReady {r : Json} (h : ToolAnswer v id r) :
    r ≠ errResponse id (-32002) "server is not initialized" := by
  intro hr
  subst hr
  rcases h with ⟨-, h⟩ | ⟨-, bench, h⟩
  · exact errResponse_ne_okResponse _ _ _ h
  · rcases handleToolCall_cases bench id (v.get "params") with
      ⟨text, -, hcall⟩ | ⟨result, hcall⟩
    · rw [hcall] at h
      exact codes_ne (errResponse_inj h).1
    · rw [hcall] at h
      exact errResponse_ne_okResponse _ _ _ h

theorem ToolAnswer.ne_params {r : Json} (h : ToolAnswer v id r)
    (hparams : (v.get "params").any (fun p => !isObject p) = true) :
    r ≠ errResponse id (-32602) "params must be an object" := by
  intro hr
  subst hr
  rcases h with ⟨-, h⟩ | ⟨-, bench, h⟩
  · exact errResponse_ne_okResponse _ _ _ h
  · rcases handleToolCall_cases bench id (v.get "params") with
      ⟨text, htext, hcall⟩ | ⟨result, hcall⟩
    · rw [hcall] at h
      cases hget : v.get "params" with
      | none =>
          rw [hget] at hparams
          cases hparams
      | some p =>
          have hp : isObject p = false := by simpa [hget] using hparams
          rw [hget, toolCallParams, if_pos hp] at htext
          cases htext
          exact absurd (errResponse_inj h).2 (by decide)
    · rw [hcall] at h
      exact errResponse_ne_okResponse _ _ _ h

/-- Only a server that is ready serves its tools. -/
theorem handle_ready (bench : Workbench) {r : Json} (h : Request v id) (htool : ToolAnswer v id r)
    (hr : (handle bench v lifecycle).1 = some r) : lifecycle = .ready := by
  by_contra hready
  obtain ⟨m, hm, heq⟩ := h.handle_eq bench lifecycle
  rw [heq] at hr
  split_ifs at hr with hparams
  · exact htool.ne_params hparams (Option.some.inj hr).symm
  · have hmethod : m = "tools/list" ∨ m = "tools/call" := by
      simpa [hm] using htool.method
    rw [handleMethod_notReady _ hmethod hready] at hr
    exact htool.ne_notReady (Option.some.inj hr).symm

end Frame

/-- An id has no parts, so it is printed alike at every depth. -/
theorem write_id {id : Json} (h : validRequestId id = true) (room : ℕ) :
    write none room id = write none maxDepth id := by
  cases id with
  | str s => cases room <;> rfl
  | num n => cases room <;> rfl
  | _ => cases h

/-- The printed response begins with the version and the id. -/
theorem toCompact_answer {id r : Json} (hid : validRequestId id = true) (h : Answers id r) :
    ∃ rest, toCompact r = "\x7b\"jsonrpc\":\"2.0\",\"id\":" ++ toCompact id ++ "," ++ rest := by
  obtain ⟨member, body, rfl, -⟩ := h
  have hwrite : write none maxDepth
      (.obj [("jsonrpc", .str "2.0"), ("id", id), (member, body)]) =
        "\x7b\"jsonrpc\":\"2.0\",\"id\":".toList ++ (write none maxDepth id ++
          (',' :: (writeEscaped member ++ ':' :: write none 63 body ++ ['}']))) := by
    have hroom := write_id hid 63
    change write none (63 + 1) (.obj [("jsonrpc", .str "2.0"), ("id", id), (member, body)]) = _
    rw [write, if_neg (List.cons_ne_nil _ _)]
    simp only [List.map_cons, List.map_nil, newlineIndent, List.nil_append, Option.isSome_none,
      Bool.false_eq_true, if_false, hroom, List.intercalate_cons_cons, List.intercalate_singleton]
    have hbegin : "\x7b\"jsonrpc\":\"2.0\",\"id\":".toList =
        '{' :: (writeEscaped "jsonrpc" ++ ':' :: write none 63 (.str "2.0") ++ [','] ++
          (writeEscaped "id" ++ [':'])) := by decide
    rw [hbegin]
    simp only [List.append_assoc, List.cons_append, List.nil_append]
  refine ⟨String.ofList (writeEscaped member ++ ':' :: write none 63 body ++ ['}']), ?_⟩
  apply String.toList_inj.mp
  simp only [toCompact, hwrite, String.toList_append, String.toList_ofList]
  simp

theorem oneLine_writeResponse {id r : Json} (hid : validRequestId id = true)
    (h : Answers id r) : OneLine id (writeResponse r) := by
  obtain ⟨rest, htext⟩ := toCompact_answer hid h
  constructor
  · exact ⟨bytes (toCompact r), rfl, toCompact_printable r⟩
  · refine ⟨bytes rest ++ [newlineByte], ?_⟩
    unfold writeResponse
    rw [htext]
    unfold bytes
    rw [String.toList_append (t := rest), encode_append, List.append_assoc]

/-- A successful `initialize` request was answered. -/
def Initializes (e : Entry) : Prop :=
  ∃ v id result, message e.input = some v ∧ Request v id ∧
    v.get "method" = some (.str "initialize") ∧ e.output = some (okResponse id result)

/-- `notifications/initialized` was received. -/
def ConfirmsInitialized (e : Entry) : Prop :=
  ∃ v, message e.input = some v ∧ Notification v ∧
    v.get "method" = some (.str "notifications/initialized")

/-- A request for the tools was served. -/
def ServesTools (e : Entry) : Prop :=
  ∃ v id r, message e.input = some v ∧ Request v id ∧ e.output = some r ∧ ToolAnswer v id r

/-- No message at all, one that is answered by an error, or one with malformed parameters. -/
def Fails (e : Entry) : Prop :=
  message e.input = none ∨ (∃ id code text, e.output = some (errResponse id code text)) ∨
    ∃ v p, message e.input = some v ∧ v.get "params" = some p ∧ isObject p = false

/-- What holds of a session of the server. -/
structure Guarded (es : List Entry) : Prop where
  served : ∀ a e b, es = a ++ e :: b → ServesTools e →
    ∃ a₁ i a₂ n a₃, a = a₁ ++ i :: (a₂ ++ n :: a₃) ∧ Initializes i ∧ ConfirmsInitialized n
  forward : (∀ e ∈ es, e.before ≤ e.after) ∧ es.Pairwise fun e e' => e.after ≤ e'.before
  failing : ∀ e ∈ es, Fails e → e.after = e.before
  silent : ∀ e ∈ es, ∀ v, message e.input = some v → Notification v → e.output = none
  answered : ∀ e ∈ es, ∀ v id, message e.input = some v → Request v id →
    ∃ r, e.output = some r ∧ Answers id r ∧ OneLine id (writeResponse r)
  refused : ∀ e ∈ es, Unreadable e.input →
    ∃ text, e.output = some (errResponse .null (-32700) text)

/-- An exchange of the server in some state, at some frame. -/
def Exchanged (bench : ℕ → Workbench) (e : Entry) : Prop :=
  ∃ k, e = (server bench).exchange k e.before e.input

section Step
variable {bench : ℕ → Workbench} {e : Entry}

theorem server_other {k : ℕ} {lifecycle : Lifecycle} {read : FrameRead × List UInt8}
    (h : message read = none) : ((server bench).answer k lifecycle read).2 = lifecycle := by
  cases hreceive : receive (bench k) lifecycle read with
  | ok a =>
      rw [server_answer hreceive]
      exact receive_other h hreceive
  | error f =>
      unfold server
      dsimp only
      rw [hreceive]

theorem Exchanged.unread (h : Exchanged bench e) (hnone : message e.input = none) :
    e.after = e.before := by
  obtain ⟨k, he⟩ := h
  have hstay : ((server bench).exchange k e.before e.input).after = e.before := server_other hnone
  rwa [← he] at hstay

theorem Exchanged.handled (h : Exchanged bench e) {v : Json} (hv : message e.input = some v) :
    ∃ b, handle b v e.before = (e.output, e.after) := by
  obtain ⟨k, he⟩ := h
  have hanswer : (server bench).answer k e.before e.input = handle (bench k) v e.before :=
    server_answer (receive_message hv)
  refine ⟨bench k, ?_⟩
  rw [← hanswer, he]
  rfl

theorem Exchanged.refused (h : Exchanged bench e) (hframe : Unreadable e.input) :
    ∃ text, e.output = some (errResponse .null (-32700) text) := by
  obtain ⟨k, he⟩ := h
  obtain ⟨text, hreceive⟩ := @receive_unreadable (bench k) e.before e.input hframe
  refine ⟨text, ?_⟩
  rw [he]
  exact congrArg Prod.fst (server_answer hreceive)

/-- How one exchange may change the lifecycle. -/
theorem Exchanged.lifecycle (h : Exchanged bench e) : e.after = e.before ∨
    (Initializes e ∧ e.before = .uninitialized ∧ e.after = .awaitingInitialized) ∨
    (ConfirmsInitialized e ∧ e.before = .awaitingInitialized ∧ e.after = .ready) := by
  cases hv : message e.input with
  | none => exact .inl (h.unread hv)
  | some v =>
      obtain ⟨b, hb⟩ := h.handled hv
      rcases handle_lifecycle b v e.before with
        hsame | ⟨id, result, hreq, hm, hfresh, hinit⟩ | ⟨hnote, hm, hwait, hconf⟩
      · rw [hb] at hsame
        exact .inl hsame
      · rw [hb] at hinit
        injection hinit with hout hafter
        exact .inr (.inl ⟨⟨v, id, result, hv, hreq, hm, hout⟩, hfresh, hafter⟩)
      · rw [hb] at hconf
        injection hconf with _ hafter
        exact .inr (.inr ⟨⟨v, hv, hnote, hm⟩, hwait, hafter⟩)

theorem Exchanged.le (h : Exchanged bench e) : e.before ≤ e.after := by
  rcases h.lifecycle with hsame | ⟨-, hbefore, hafter⟩ | ⟨-, hbefore, hafter⟩
  · rw [hsame]
  · rw [hbefore, hafter, Lifecycle.le_iff]
    decide
  · rw [hbefore, hafter, Lifecycle.le_iff]
    decide

theorem Exchanged.failing (h : Exchanged bench e) (hfail : Fails e) : e.after = e.before := by
  rcases hfail with hnone | ⟨id, code, text, hout⟩ | ⟨v, p, hv, hp, hobj⟩
  · exact h.unread hnone
  · rcases h.lifecycle with hsame | ⟨hinit, -⟩ | ⟨hconf, -⟩
    · exact hsame
    · obtain ⟨_, _, _, -, -, -, hok⟩ := hinit
      rw [hout] at hok
      simp [errResponse, okResponse] at hok
    · obtain ⟨v, hv, hnote, -⟩ := hconf
      obtain ⟨b, hb⟩ := h.handled hv
      have hsilent := handle_silent b e.before hnote
      rw [hb, hout] at hsilent
      cases hsilent
  · obtain ⟨b, hb⟩ := h.handled hv
    have hstay := handle_params b e.before hp hobj
    rwa [hb] at hstay

theorem Exchanged.served (h : Exchanged bench e) (hserve : ServesTools e) :
    e.before = .ready := by
  obtain ⟨v, id, r, hv, hreq, hout, htool⟩ := hserve
  obtain ⟨b, hb⟩ := h.handled hv
  apply handle_ready b hreq htool
  rw [hb]
  exact hout

end Step

/-- The server becomes ready by a confirmation, and can be confirmed only after an
initialization. -/
theorem ready_after_handshake {bench : ℕ → Workbench} {a b : List Entry} {e : Entry}
    (hlinked : Linked .uninitialized (a ++ e :: b))
    (hstep : ∀ x ∈ a ++ e :: b, Exchanged bench x) (hready : e.before = .ready) :
    ∃ a₁ i a₂ n a₃, a = a₁ ++ i :: (a₂ ++ n :: a₃) ∧ Initializes i ∧ ConfirmsInitialized n := by
  obtain ⟨c, n, a₃, rfl, hbefore, hafter⟩ :=
    hlinked.entered (P := fun s => s = .ready) (by decide) hready
  have hn : ConfirmsInitialized n ∧ n.before = .awaitingInitialized := by
    rcases (hstep n (by simp)).lifecycle with hsame | ⟨-, -, hwait⟩ | ⟨hconf, hwait, -⟩
    · exact absurd (hsame ▸ hafter) hbefore
    · rw [hafter] at hwait
      cases hwait
    · exact ⟨hconf, hwait⟩
  rw [List.append_assoc, List.cons_append] at hlinked
  obtain ⟨a₁, i, a₂, rfl, hbefore, hafter⟩ :=
    hlinked.entered (P := fun s => s = .awaitingInitialized) (by decide) hn.2
  have hi : Initializes i := by
    rcases (hstep i (by simp)).lifecycle with hsame | ⟨hinit, -⟩ | ⟨-, -, hready⟩
    · exact absurd (hsame ▸ hafter) hbefore
    · exact hinit
    · rw [hafter] at hready
      cases hready
  refine ⟨a₁, i, a₂, n, a₃, ?_, hi, hn.1⟩
  rw [List.append_assoc, List.cons_append]

theorem session_guarded (bench : ℕ → Workbench) (sink : ℕ → Bool)
    (frames : List (FrameRead × List UInt8)) :
    Guarded ((server bench).session sink 0 0 .uninitialized frames) := by
  have hlinked : Linked .uninitialized
      ((server bench).session sink 0 0 .uninitialized frames) := session_linked 0 0 _ frames
  have hstep : ∀ e ∈ (server bench).session sink 0 0 .uninitialized frames, Exchanged bench e :=
    fun e he => session_exchange he
  generalize (server bench).session sink 0 0 .uninitialized frames = es at hlinked hstep
  constructor
  · rintro a e b rfl hserve
    exact ready_after_handshake hlinked hstep ((hstep e (by simp)).served hserve)
  · have hle : ∀ e ∈ es, e.before ≤ e.after := fun e he => (hstep e he).le
    exact ⟨hle, hlinked.pairwise hle⟩
  · exact fun e he => (hstep e he).failing
  · intro e he v hv hnote
    obtain ⟨b, hb⟩ := (hstep e he).handled hv
    have hsilent := handle_silent b e.before hnote
    rwa [hb] at hsilent
  · intro e he v id hv hreq
    obtain ⟨b, hb⟩ := (hstep e he).handled hv
    obtain ⟨r, hr, hanswer⟩ := handle_answers b e.before hreq
    rw [hb] at hr
    exact ⟨r, hr, hanswer, oneLine_writeResponse hreq.valid hanswer⟩
  · exact fun e he => (hstep e he).refused

/-- Whatever is sent, and however the stream is cut: the loop ends without a panic, it
takes the frames in order, all of them while its responses can be written, and what it
does with the messages it reads is guarded. -/
theorem serve_guarded (bench : ℕ → Workbench) (chop : ℕ → ℕ) (sink : ℕ → Bool)
    (stdin : List UInt8) :
    ∃ es, serve bench chop sink 0 0 .uninitialized ⟨stdin, 0⟩ = .ok es ∧
      es.map Exchange.input <+: (pieces stdin).map (verdict maxFrameBytes) ∧
      ((∀ w, sink w = true) →
        es.map Exchange.input = (pieces stdin).map (verdict maxFrameBytes)) ∧ Guarded es := by
  refine ⟨_, serve_eq bench chop sink 0 0 .uninitialized ⟨stdin, 0⟩, ?_, ?_, ?_⟩
  · exact session_inputs ..
  · exact fun hsink => session_all hsink ..
  · exact session_guarded bench sink _

def pingText : String := "\x7b\"jsonrpc\":\"2.0\",\"method\":\"ping\"\x7d"

/-- A notification behind which spaces follow, one byte more than a frame may hold. -/
def paddedPing : List Char := pingText.toList ++ List.replicate maxFrameBytes ' '

def idleWorkbench : Workbench where
  audit := .null
  score _ _ := (0, 0)
  elapsed _ := 0
  dispatchedPath := "scalar"
  arch := "x86_64"

theorem paddedPing_notification : ∃ t, Text t paddedPing ∧ Notification (treeValue t) := by
  have hparse : parse pingText =
      .ok (.obj [("jsonrpc", .str "2.0"), ("method", .str "ping")]) := rfl
  obtain ⟨t, ⟨⟨w, s, w', hw, hs, hw', htext⟩, -⟩, hvalue⟩ :=
    (parse_eq_ok (by decide +kernel)).mp hparse
  have hspaces : Whitespace (w' ++ List.replicate maxFrameBytes ' ') := by
    apply Whitespace.append hw'
    intro c hc
    rw [(List.mem_replicate.mp hc).2]
    rfl
  refine ⟨t, ⟨w, s, _, hw, hs, hspaces, ?_⟩, ?_⟩
  · rw [paddedPing, htext]
    simp only [List.append_assoc]
  · rw [← hvalue]
    exact ⟨rfl, ⟨"ping", by decide, rfl⟩, rfl⟩

theorem bytes_paddedPing : encode paddedPing =
    bytes pingText ++ List.replicate maxFrameBytes (byte ' ') := by
  have hspaces : ∀ k : ℕ, encode (List.replicate k ' ') = List.replicate k (byte ' ') := by
    intro k
    induction k with
    | zero => rfl
    | succ k ih =>
        rw [List.replicate_succ, List.replicate_succ, encode_cons, ih]
        rfl
  rw [paddedPing, encode_append, hspaces]
  rfl

/-- A frame that is too large is answered without being read. -/
theorem oversized_answered (bench : ℕ → Workbench) (chop : ℕ → ℕ) (sink : ℕ → Bool)
    {p : List UInt8} (hline : newlineByte ∉ p) (hlong : maxFrameBytes < p.length) :
    ∃ e : Entry, serve bench chop sink 0 0 .uninitialized ⟨p, 0⟩ = .ok [e] ∧ e.output ≠ none := by
  have hne : p ≠ [] := by
    rintro rfl
    exact absurd hlong (Nat.not_lt_zero _)
  have hverdict : verdict maxFrameBytes p = (.tooLarge, []) := if_neg (Nat.not_le.mpr hlong)
  refine ⟨(server bench).exchange 0 .uninitialized (.tooLarge, []), ?_, ?_⟩
  · rw [serve_eq, pieces_last hne hline, List.map_singleton, hverdict]
    unfold Machine.session
    dsimp only
    split_ifs <;> rfl
  · exact Option.some_ne_none _

theorem paddedPing_answered :
    (∃ t, Text t paddedPing ∧ Notification (treeValue t)) ∧ newlineByte ∉ encode paddedPing ∧
      ∃ e : Entry, serve (fun _ => idleWorkbench) (fun _ => 0) (fun _ => true) 0 0 .uninitialized
        ⟨encode paddedPing, 0⟩ = .ok [e] ∧ e.output ≠ none := by
  have hline : newlineByte ∉ encode paddedPing := by
    rw [bytes_paddedPing, List.mem_append, List.mem_replicate]
    decide +kernel
  have hlong : maxFrameBytes < (encode paddedPing).length := by
    rw [bytes_paddedPing, List.length_append, List.length_replicate]
    have hpos : 0 < (bytes pingText).length := by decide +kernel
    omega
  exact ⟨paddedPing_notification, hline, oversized_answered _ _ _ hline hlong⟩

end SlhaV2.McpSession

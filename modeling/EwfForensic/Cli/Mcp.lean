import EwfForensic.Cli.Extract
import EwfForensic.Core.OpenPanics
import EwfForensic.Lib.LineServer

/-!
# The MCP Server

`cli/src/mcp.rs`: the handlers behind a protocol of lines. A request is a JSON text on a line of the
standard input, and so is its response on the standard output.

* `JsonParser`, `Moment` — what the server does not decide itself.
* `dispatchTool`, `respond`, `handleLine` — a tool, a request and a line.
* `answers` — a run of the server over lines that it has read.
* `server_protocol` — every line that is to be answered has its response, in order.
* `server_crashes_iff` — the one request that ends the server.
* `server_writes` — the files that a run leaves alone.
* `read_sectors_after` — what is read from a stored image late in a run.
* `answer_undisturbed` — requests do not disturb each other.
-/

namespace EwfForensic.Cli

open LineServer

/-! ### Requests -/

/-- `serde_json::from_str`: the value of a text, or the text of an error. -/
structure JsonParser where
  fromStr : List Char → Except (List Char) Json.Value
  valid : ∀ {text v}, fromStr text = .ok v → v.Valid

/-- What the program does not decide itself while it answers a request. -/
structure Moment where
  env : Environment
  threads : ℕ

/-- A line, and the moment at which it is answered. -/
abbrev Request := List Char × Moment

/-- The `id` of a request. -/
def requestId (req : Json.Value) : Json.Value := (req.get "id".toList).getD .null

/-- The `method` of a request. -/
def requestMethod (req : Json.Value) : List Char :=
  ((req.get "method".toList).bind Json.Value.asStr).getD []

/-- The `params` of a request. -/
def requestParams (req : Json.Value) : Json.Value :=
  (req.get "params".toList).getD (jsonObject [])

/-- The tool that a request calls. -/
def toolName (req : Json.Value) : List Char :=
  (((requestParams req).get "name".toList).bind Json.Value.asStr).getD []

/-- The arguments of the tool. -/
def toolArguments (req : Json.Value) : Json.Value :=
  ((requestParams req).get "arguments".toList).getD (jsonObject [])

/-- A request calls a tool. -/
def CallsTool (req : Json.Value) (name : String) : Prop :=
  requestMethod req = "tools/call".toList ∧ toolName req = name.toList

instance (req : Json.Value) (name : String) : Decidable (CallsTool req name) :=
  inferInstanceAs (Decidable (_ ∧ _))

/-! ### Tools -/

/-- A property in an input schema. -/
def schemaProperty (type description : String) : Json.Value :=
  jsonObject [
    ("type".toList, .string type.toList),
    ("description".toList, .string description.toList)]

/-- The description of a tool. -/
def toolDefinition (name description : String) (properties : List (String × Json.Value))
    (required : List String) : Json.Value :=
  jsonObject [
    ("name".toList, .string name.toList),
    ("description".toList, .string description.toList),
    ("inputSchema".toList, jsonObject [
      ("type".toList, .string "object".toList),
      ("properties".toList, jsonObject (properties.map fun p => (p.1.toList, p.2))),
      ("required".toList, .array (required.map fun name => .string name.toList))])]

/-- The property that every tool has. -/
def pathProperty : String × Json.Value :=
  ("path", schemaProperty "string" "Path to the first segment file (e.g. image.E01)")

/-- `tool_definitions`. -/
def toolDefinitions : Json.Value :=
  .array [
    toolDefinition "ewf_info"
      ("Open an E01 image and return metadata: media size, chunk geometry, stored hashes, " ++
        "case info, and acquisition errors.")
      [pathProperty] ["path"],
    toolDefinition "ewf_verify"
      ("Verify E01 image integrity by recomputing MD5/SHA-1 and comparing against stored " ++
        "hashes.")
      [pathProperty] ["path"],
    toolDefinition "ewf_read_sectors"
      "Read raw bytes from the disk image at a given offset. Returns hex dump."
      [pathProperty,
        ("offset", schemaProperty "integer" "Byte offset to start reading from (default: 0)"),
        ("length", schemaProperty "integer"
          "Number of bytes to read (default: 512, max: 4096)")] ["path"],
    toolDefinition "ewf_list_sections"
      ("List all section descriptors in the E01 image. Shows the internal structure: headers, " ++
        "volume, tables, sectors, hash, digest, done sections with their offsets and sizes.")
      [pathProperty] ["path"],
    toolDefinition "ewf_search"
      ("Search for a byte pattern (hex string) in the disk image. Returns up to max_results " ++
        "matching offsets.")
      [pathProperty,
        ("pattern", schemaProperty "string"
          "Hex string to search for (e.g. '55aa' for MBR signature)"),
        ("max_results", schemaProperty "integer"
          "Maximum number of matches to return (default: 10, max: 100)")] ["path", "pattern"],
    toolDefinition "ewf_extract"
      "Extract a byte range from the disk image and write it to a file."
      [pathProperty,
        ("offset", schemaProperty "integer" "Byte offset to start extracting from"),
        ("length", schemaProperty "integer" "Number of bytes to extract"),
        ("output", schemaProperty "string" "Path to write the extracted bytes to")]
      ["path", "offset", "length", "output"]]

/-- An argument that a tool needs. -/
def requiredArgument {α : Type} (args : Json.Value) (name : String)
    (read : Json.Value → Option α) : Except Failure α :=
  match (args.get name.toList).bind read with
  | some a => .ok a
  | none => .error (.error ("missing required parameter: " ++ name).toList)

/-- A number that a tool may be given. -/
def optionalNumber (args : Json.Value) (name : String) (default : ℕ) : ℕ :=
  ((args.get name.toList).bind Json.Value.asU64).getD default

section Tools

variable {Name : Type} (T : Texts) (C : Crates) (fs : FileSystem Path Name UInt8)

/-- `dispatch_tool` for the tools that write no file. -/
def readTool (threads : ℕ) (name : List Char) (args : Json.Value) : Answer :=
  if name = "ewf_info".toList then do
    let path ← requiredArgument args "path" Json.Value.asStr
    handleEwfInfo T fs C path
  else if name = "ewf_verify".toList then do
    let path ← requiredArgument args "path" Json.Value.asStr
    handleEwfVerify T fs C threads path
  else if name = "ewf_read_sectors".toList then do
    let path ← requiredArgument args "path" Json.Value.asStr
    handleEwfReadSectors T fs C path (UInt64.ofNat (optionalNumber args "offset" 0))
      (min (optionalNumber args "length" 512) 4096)
  else if name = "ewf_list_sections".toList then do
    let path ← requiredArgument args "path" Json.Value.asStr
    handleEwfListSectionsAt T fs path
  else if name = "ewf_search".toList then do
    let path ← requiredArgument args "path" Json.Value.asStr
    let pattern ← requiredArgument args "pattern" Json.Value.asStr
    handleEwfSearchAt T fs C path pattern (min (optionalNumber args "max_results" 10) 100)
  else .error (.error ("unknown tool: ".toList ++ name))

/-- The arguments of `ewf_extract`. -/
structure ExtractArguments where
  path : List Char
  offset : ℕ
  length : ℕ
  output : List Char

/-- The arguments of `ewf_extract`, or the first that is missing. -/
def extractArguments (args : Json.Value) : Except Failure ExtractArguments := do
  let path ← requiredArgument args "path" Json.Value.asStr
  let offset ← requiredArgument args "offset" Json.Value.asU64
  let length ← requiredArgument args "length" Json.Value.asU64
  let output ← requiredArgument args "output" Json.Value.asStr
  .ok ⟨path, offset, length, output⟩

/-- `ewf_extract`. -/
def extractTool [DecidableEq Name] (env : Environment) :
    Except Failure ExtractArguments → FileSystem Path Name UInt8 × Answer
  | .error e => (fs, .error e)
  | .ok a => handleEwfExtract T fs C env a.path (UInt64.ofNat a.offset) a.length a.output

/-- `dispatch_tool`. -/
def dispatchTool [DecidableEq Name] (moment : Moment) (name : List Char) (args : Json.Value) :
    FileSystem Path Name UInt8 × Answer :=
  if name = "ewf_extract".toList then extractTool T C fs moment.env (extractArguments args)
  else (fs, readTool T C fs moment.threads name args)

end Tools

/-! ### Responses -/

/-- A response with a result. -/
def resultResponse (id result : Json.Value) : Json.Value :=
  jsonObject [
    ("jsonrpc".toList, .string "2.0".toList),
    ("result".toList, result),
    ("id".toList, id)]

/-- A response with an error. -/
def errorResponse (id : Json.Value) (code : String) (message : List Char) : Json.Value :=
  jsonObject [
    ("jsonrpc".toList, .string "2.0".toList),
    ("error".toList, jsonObject [
      ("code".toList, .number code.toList),
      ("message".toList, .string message)]),
    ("id".toList, id)]

/-- The result of `initialize`. -/
def initializeResult : Json.Value :=
  jsonObject [
    ("protocolVersion".toList, .string "2024-11-05".toList),
    ("capabilities".toList, jsonObject [("tools".toList, jsonObject [])]),
    ("serverInfo".toList, jsonObject [
      ("name".toList, .string "ewf".toList),
      ("version".toList, .string "0.3.0".toList)])]

/-- The `content` of a result: one text. -/
def textContent (text : List Char) : Json.Value :=
  .array [jsonObject [("type".toList, .string "text".toList), ("text".toList, .string text)]]

/-- The result of a tool that has an answer. -/
def toolResult (v : Json.Value) : Json.Value :=
  jsonObject [("content".toList, textContent (Json.render .pretty 0 v))]

/-- The result of a tool that has none. -/
def toolError (text : List Char) : Json.Value :=
  jsonObject [("content".toList, textContent text), ("isError".toList, .bool true)]

/-- The response of a tool. A panic ends the program. -/
def toolResponse (id : Json.Value) : Answer → Outcome Json.Value
  | .ok v => .answer (resultResponse id (toolResult v))
  | .error (.error text) => .answer (resultResponse id (toolError text))
  | .error .panic => .crash

section Server

variable {Name : Type} [DecidableEq Name] (T : Texts) (P : JsonParser) (C : Crates)
  (fs : FileSystem Path Name UInt8)

/-- What a request comes to. -/
def respond (moment : Moment) (req : Json.Value) :
    FileSystem Path Name UInt8 × Outcome Json.Value :=
  if requestMethod req = "initialize".toList then
    (fs, .answer (resultResponse (requestId req) initializeResult))
  else if requestMethod req = "notifications/initialized".toList then (fs, .silent)
  else if requestMethod req = "tools/list".toList then
    (fs, .answer (resultResponse (requestId req) (jsonObject [("tools".toList, toolDefinitions)])))
  else if requestMethod req = "tools/call".toList then
    let called := dispatchTool T C fs moment (toolName req) (toolArguments req)
    (called.1, toolResponse (requestId req) called.2)
  else
    (fs, .answer (errorResponse (requestId req) "-32601"
      ("Method not found: ".toList ++ requestMethod req)))

/-- What a line comes to: the body of the loop of `run`. -/
def handleLine (fs : FileSystem Path Name UInt8) (request : Request) :
    FileSystem Path Name UInt8 × Outcome (List Char) :=
  if request.1 = [] then (fs, .silent)
  else
    match P.fromStr request.1 with
    | .error e =>
      (fs, .answer (Json.render .compact 0
        (errorResponse .null "-32700" ("Parse error: ".toList ++ e))))
    | .ok req =>
      ((respond T C fs request.2 req).1,
        (respond T C fs request.2 req).2.map (Json.render .compact 0))

/-- The loop of `run` over some lines. -/
def answers (requests : List Request) : Session (FileSystem Path Name UInt8) (List Char) :=
  serve (handleLine T P C) fs requests

/-- The lines of the standard input, the `i`th of them answered at the `i`th moment. -/
def stdinRequests (stdin : List UInt8) (moment : ℕ → Moment) : List Request :=
  (readLines stdin).zipIdx.map fun p => (p.1, moment p.2)

end Server

/-! ### Every response stands on a line of its own -/

/-- A line that responds to a request with some `id`, either with a result or with an error. -/
def Responds (id : Json.Value) (line : List Char) : Prop :=
  ∃ v, Json.parse line = some v ∧ v.get "jsonrpc".toList = some (.string "2.0".toList) ∧
    v.get "id".toList = some id ∧
    ((v.get "result".toList).isSome ↔ v.get "error".toList = none)

/-- A response without line breaks. -/
structure ResponseLine (id : Json.Value) (line : List Char) : Prop where
  responds : Responds id line
  newline_notMem : '\n' ∉ line
  last_ne_return : line.getLast? ≠ some '\r'

/-- The `id` of the response to a line, if there is one. -/
def expectedId (P : JsonParser) (line : List Char) : Option Json.Value :=
  if line = [] then none
  else
    match P.fromStr line with
    | .error _ => some .null
    | .ok req =>
      if requestMethod req = "notifications/initialized".toList then none else some (requestId req)

theorem get_jsonObject_eq_none {members : List (List Char × Json.Value)} {name : List Char}
    (h : name ∉ members.map (·.1)) : (jsonObject members).get name = none := by
  rw [jsonObject]
  refine List.lookup_eq_none_iff.mpr fun m hm => ?_
  have hmem := (List.perm_insertionSort (fun a b => nameLe a b) members).mem_iff.mp hm
  rw [bne_iff_ne]
  rintro rfl
  exact h (List.mem_map_of_mem hmem)

/-- An object is written on one line, which is read as the object. -/
theorem responseLine_jsonObject {members : List (List Char × Json.Value)} {id : Json.Value}
    (hvalid : (jsonObject members).Valid)
    (hrpc : (jsonObject members).get "jsonrpc".toList = some (.string "2.0".toList))
    (hid : (jsonObject members).get "id".toList = some id)
    (hone : ((jsonObject members).get "result".toList).isSome ↔
      (jsonObject members).get "error".toList = none) :
    ResponseLine id (Json.render .compact 0 (jsonObject members)) where
  responds := ⟨_, Json.parse_render .compact hvalid 0, hrpc, hid, hone⟩
  newline_notMem :=
    Json.newline_notMem_render (fun _ => List.not_mem_nil) List.not_mem_nil hvalid 0
  last_ne_return := by
    rw [jsonObject, Json.getLast?_render_object]
    decide

theorem responseLine_result {id result : Json.Value} (hid : id.Valid) (hresult : result.Valid) :
    ResponseLine id (Json.render .compact 0 (resultResponse id result)) := by
  have hresult' : (resultResponse id result).get "result".toList = some result :=
    get_jsonObject (by simp) (by simp)
  have herror : (resultResponse id result).get "error".toList = none :=
    get_jsonObject_eq_none (by simp)
  refine responseLine_jsonObject ?_ (get_jsonObject (by simp) (by simp))
    (get_jsonObject (by simp) (by simp)) ?_
  · simp [hid, hresult]
  · exact iff_of_true (Option.isSome_iff_exists.mpr ⟨_, hresult'⟩) herror

theorem responseLine_error {id : Json.Value} (hid : id.Valid) {code : String}
    (hcode : Json.number code.toList = some (code.toList, [])) (message : List Char) :
    ResponseLine id (Json.render .compact 0 (errorResponse id code message)) := by
  have hresult : (errorResponse id code message).get "result".toList = none :=
    get_jsonObject_eq_none (by simp)
  have herror : ((errorResponse id code message).get "error".toList).isSome :=
    Option.isSome_iff_exists.mpr ⟨_, get_jsonObject (by simp) (List.mem_cons_of_mem _
      (List.mem_cons_self ..))⟩
  refine responseLine_jsonObject ?_ (get_jsonObject (by simp) (by simp))
    (get_jsonObject (by simp) (by simp)) ?_
  · have hnumber : (Json.Value.number code.toList).Valid := .number hcode
    simp [hid, hnumber]
  · refine iff_of_false (fun h => ?_) fun h => ?_
    · rw [errorResponse] at hresult
      rw [hresult] at h
      cases h
    · rw [errorResponse] at herror
      rw [h] at herror
      cases herror

theorem valid_requestId {req : Json.Value} (h : req.Valid) : (requestId req).Valid := by
  rw [requestId]
  cases hget : req.get "id".toList with
  | none => exact .null
  | some id => exact h.get hget

theorem valid_schemaProperty (type description : String) :
    (schemaProperty type description).Valid := by
  simp [schemaProperty]

/-- A tool with valid properties is described by a valid value. -/
theorem valid_toolDefinition (name description : String)
    {properties : List (String × Json.Value)} (required : List String)
    (h : ∀ p ∈ properties, p.2.Valid) :
    (toolDefinition name description properties required).Valid := by
  have hmap : ∀ p ∈ properties.map fun p => (p.1.toList, p.2), p.2.Valid := by
    intro p hp
    obtain ⟨q, hq, rfl⟩ := List.mem_map.mp hp
    exact h q hq
  obtain ⟨object, hobject⟩ : ∃ object, object = jsonObject (properties.map fun p =>
      (p.1.toList, p.2)) := ⟨_, rfl⟩
  have hvalid : object.Valid := hobject ▸ valid_jsonObject_iff.mpr hmap
  rw [toolDefinition, ← hobject]
  simp [hvalid]

theorem valid_toolDefinitions : toolDefinitions.Valid := by
  have hpath : pathProperty.2.Valid := valid_schemaProperty _ _
  have hnone : ∀ p ∈ ([] : List (String × Json.Value)), p.2.Valid := nofun
  have hcons : ∀ {name type description : String} {ps : List (String × Json.Value)},
      (∀ p ∈ ps, p.2.Valid) → ∀ p ∈ (name, schemaProperty type description) :: ps, p.2.Valid :=
    fun h => List.forall_mem_cons.mpr ⟨valid_schemaProperty _ _, h⟩
  have hall : ∀ {ps : List (String × Json.Value)}, (∀ p ∈ ps, p.2.Valid) →
      ∀ p ∈ pathProperty :: ps, p.2.Valid := fun h => List.forall_mem_cons.mpr ⟨hpath, h⟩
  refine .array (List.forall_mem_cons.mpr ⟨?info, List.forall_mem_cons.mpr ⟨?verify,
    List.forall_mem_cons.mpr ⟨?read, List.forall_mem_cons.mpr ⟨?list,
      List.forall_mem_cons.mpr ⟨?search, List.forall_mem_cons.mpr ⟨?extract, nofun⟩⟩⟩⟩⟩⟩)
  case info => exact valid_toolDefinition _ _ _ (hall hnone)
  case verify => exact valid_toolDefinition _ _ _ (hall hnone)
  case read => exact valid_toolDefinition _ _ _ (hall (hcons (hcons hnone)))
  case list => exact valid_toolDefinition _ _ _ (hall hnone)
  case search => exact valid_toolDefinition _ _ _ (hall (hcons (hcons hnone)))
  case extract => exact valid_toolDefinition _ _ _ (hall (hcons (hcons (hcons hnone))))

section Requests

variable {Name : Type} [DecidableEq Name] {T : Texts} {C : Crates}
  {fs : FileSystem Path Name UInt8} {moment : Moment} {req : Json.Value}

/-- A call of a tool comes to what the tool comes to. -/
theorem respond_call (h : requestMethod req = "tools/call".toList) :
    respond T C fs moment req =
      ((dispatchTool T C fs moment (toolName req) (toolArguments req)).1,
        toolResponse (requestId req)
          (dispatchTool T C fs moment (toolName req) (toolArguments req)).2) := by
  rw [respond, if_neg (by rw [h]; decide), if_neg (by rw [h]; decide), if_neg (by rw [h]; decide),
    if_pos h]

/-- Any other request changes no file and does not end the server. -/
theorem respond_other (h : requestMethod req ≠ "tools/call".toList) :
    (respond T C fs moment req).1 = fs ∧ (respond T C fs moment req).2 ≠ .crash := by
  rw [respond, if_neg h]
  split_ifs <;> exact ⟨rfl, nofun⟩

end Requests

section Protocol

variable {Name : Type} [DecidableEq Name] (T : Texts) (P : JsonParser) (C : Crates)

/-- A tool is answered on a line, if at all. -/
theorem meets_toolResponse {id : Json.Value} (hid : id.Valid) (answer : Answer) :
    Meets ResponseLine (some id)
      ((toolResponse id answer).map (Json.render .compact 0)) := by
  cases answer with
  | ok v => exact .answer (responseLine_result hid (by simp [toolResult, textContent]))
  | error e =>
      cases e with
      | error text => exact .answer (responseLine_result hid (by simp [toolError, textContent]))
      | panic => exact .crash _

/-- **A line** comes to what is expected of it. -/
theorem meets_handleLine (fs : FileSystem Path Name UInt8) (request : Request) :
    Meets ResponseLine (expectedId P request.1) (handleLine T P C fs request).2 := by
  rw [expectedId, handleLine]
  split_ifs with hempty
  · exact .silent
  · cases hparse : P.fromStr request.1 with
    | error e => exact .answer (responseLine_error .null (by decide) _)
    | ok req =>
        have hid := valid_requestId (P.valid hparse)
        dsimp only
        rw [respond]
        by_cases hinit : requestMethod req = "initialize".toList
        · rw [if_pos hinit, if_neg (by rw [hinit]; decide)]
          exact .answer (responseLine_result hid (by simp [initializeResult]))
        · rw [if_neg hinit]
          split_ifs
          · exact .silent
          · exact .answer (responseLine_result hid (by simp [valid_toolDefinitions]))
          · exact meets_toolResponse hid _
          · exact .answer (responseLine_error hid (by decide) _)

theorem map_fst_stdinRequests (stdin : List UInt8) (moment : ℕ → Moment) :
    (stdinRequests stdin moment).map Prod.fst = readLines stdin := by
  rw [stdinRequests, List.map_map]
  exact List.zipIdx_map_fst 0 _

/-- **The protocol of the server.** Whatever is sent to it, and whatever the files are, the lines of
its output are the responses to the lines of its input that are to be answered, one each and in
their order, up to the line at which it ends; without such a line, to all of them. -/
theorem server_protocol (fs : FileSystem Path Name UInt8) (stdin : List UInt8)
    (moment : ℕ → Moment) :
    ∃ n ≤ (readLines stdin).length,
      ((answers T P C fs (stdinRequests stdin moment)).crashed = false →
        n = (readLines stdin).length) ∧
      List.Forall₂ Responds (((readLines stdin).take n).filterMap (expectedId P))
        (readLines (writeLines (answers T P C fs (stdinRequests stdin moment)).out)) := by
  have hlines := map_fst_stdinRequests stdin moment
  obtain ⟨n, hn, hend, hall⟩ :=
    serve_answers (meets_handleLine T P C) fs (stdinRequests stdin moment)
  have hlen : (stdinRequests stdin moment).length = (readLines stdin).length := by
    rw [← hlines, List.length_map]
  have hids : ((stdinRequests stdin moment).take n).filterMap (fun r => expectedId P r.1) =
      ((readLines stdin).take n).filterMap (expectedId P) := by
    rw [← hlines, ← List.map_take, List.filterMap_map]
    rfl
  have hread : readLines (writeLines (answers T P C fs (stdinRequests stdin moment)).out) =
      (answers T P C fs (stdinRequests stdin moment)).out := by
    refine readLines_writeLines fun line hline => ?_
    obtain ⟨i, hi, rfl⟩ := List.getElem_of_mem hline
    have hresponse := (List.forall₂_iff_get.mp hall).2 i ((List.forall₂_iff_get.mp hall).1 ▸ hi) hi
    exact ⟨hresponse.newline_notMem, hresponse.last_ne_return⟩
  refine ⟨n, hlen ▸ hn, fun h => (hend h).trans hlen, ?_⟩
  rw [hread, ← hids]
  exact hall.imp fun _ _ h => h.responds

end Protocol

/-! ### The request that ends the server -/

/-- A search whose pattern, two bytes at a time, cuts a character before a pair of bytes that is no
number. -/
def CutsPattern (req : Json.Value) : Prop :=
  CallsTool req "ewf_search" ∧
    ((toolArguments req).get "path".toList).bind Json.Value.asStr ≠ none ∧
    ∃ pattern, ((toolArguments req).get "pattern".toList).bind Json.Value.asStr = some pattern ∧
      (pathOf pattern).length % 2 = 0 ∧ patternText (pathOf pattern) = .cut

/-- A line with such a search. -/
def EndsServer (P : JsonParser) (line : List Char) : Prop :=
  line ≠ [] ∧ ∃ req, P.fromStr line = .ok req ∧ CutsPattern req

/-- A call that does not end the program. -/
abbrev Calm {α : Type} (x : Except Failure α) : Prop := Avoids Failure.panic x

section Calm

/-- The bytes of a pattern are read without a reader. -/
theorem parsePatternHex_ne_reader (pattern : List Char) (e : EwfError) :
    parsePatternHex pattern ≠ .error (.reader e) := by
  induction pattern using parsePatternHex.induct with
  | case1 =>
      intro h
      cases h
  | case2 _ =>
      intro h
      cases h
  | case3 a b rest hnone =>
      rw [parsePatternHex, hnone]
      intro h
      cases h
  | case4 a b rest v hv ih =>
      rw [parsePatternHex, hv]
      exact Avoids.map ih _

variable {Name : Type} (T : Texts) (C : Crates) (fs : FileSystem Path Name UInt8)

theorem failure_ne_panic {e : EwfError} (h : e ≠ .indexPanic) : failure T e ≠ .panic := by
  cases e with
  | indexPanic => exact absurd rfl h
  | _ => exact nofun

/-- An error with a text. -/
theorem calm_text {α : Type} (text : List Char) :
    Calm (.error (.error text) : Except Failure α) := avoids_error_iff.mpr nofun

theorem calm_mapError {α : Type} {x : Except EwfError α} (h : Quiet x) :
    Calm (x.mapError (failure T)) := by
  cases x with
  | error e => exact avoids_error_iff.mpr (failure_ne_panic T (avoids_error_iff.mp h))
  | ok a => exact avoids_ok a

theorem calm_requiredArgument {α : Type} (args : Json.Value) (name : String)
    (read : Json.Value → Option α) : Calm (requiredArgument args name read) := by
  rw [requiredArgument]
  split
  · exact avoids_ok _
  · exact calm_text _

theorem calm_openReader (path : List Char) : Calm (openReader T fs C path) :=
  calm_mapError T (quiet_openPath fs C _)

/-- What is opened has an eager table. -/
theorem exists_eager_of_openReader {path : List Char} {r : EwfReader}
    (h : openReader T fs C path = .ok r) : ∃ chunks, r.chunks = .eager chunks := by
  rw [openReader] at h
  cases hopen : openPath fs C (pathOf path) with
  | error e =>
      rw [hopen] at h
      cases h
  | ok r' =>
      rw [hopen] at h
      obtain rfl := Except.ok.inj h
      exact exists_eager_of_openPath fs C hopen

theorem calm_handleEwfInfo (path : List Char) : Calm (handleEwfInfo T fs C path) :=
  (calm_openReader T C fs path).bind fun _ _ => avoids_ok _

theorem calm_handleEwfVerify (threads : ℕ) (path : List Char) :
    Calm (handleEwfVerify T fs C threads path) := by
  refine (calm_openReader T C fs path).bind fun r hr => ?_
  obtain ⟨chunks, hchunks⟩ := exists_eager_of_openReader T C fs hr
  exact (calm_mapError T (quiet_verify hchunks threads)).bind fun _ _ => avoids_ok _

theorem calm_seekStart (r : EwfReader) (offset : UInt64) : Calm (seekStart r offset) := by
  rw [seekStart, seekResult]
  split
  · exact calm_text _
  · exact avoids_ok _

theorem calm_readExactFrom {r : EwfReader} {chunks : List Chunk}
    (hchunks : r.chunks = .eager chunks) (fuel : ℕ) (st : ReaderState) (position n : ℕ) :
    Calm (readExactFrom T C r fuel st position n) := by
  induction fuel generalizing st position n with
  | zero => exact avoids_ok _
  | succ fuel ih =>
      have hread := @quiet_readAt C r chunks hchunks st position n
      rw [readExactFrom]
      split_ifs
      · exact avoids_ok _
      · split
        · next e _ he =>
            rw [he] at hread
            exact avoids_error_iff.mpr (failure_ne_panic T (avoids_error_iff.mp hread))
        · split_ifs
          · exact calm_text _
          · exact (ih _ _ _).map _

theorem calm_handleEwfReadSectors (path : List Char) (offset : UInt64) (length : ℕ) :
    Calm (handleEwfReadSectors T fs C path offset length) := by
  refine (calm_openReader T C fs path).bind fun r hr => ?_
  obtain ⟨chunks, hchunks⟩ := exists_eager_of_openReader T C fs hr
  split_ifs
  · exact calm_text _
  · exact (calm_seekStart r offset).bind fun position _ =>
      (calm_readExactFrom T C hchunks _ _ _ _).bind fun _ _ => avoids_ok _

theorem calm_handleEwfListSectionsAt (path : List Char) :
    Calm (handleEwfListSectionsAt T fs path) := by
  rw [handleEwfListSectionsAt]
  split
  · exact calm_text _
  · exact calm_text _
  · refine Avoids.bind (avoids_mapM fun p _ => ?_) fun _ _ => avoids_ok _
    rw [listFile]
    split
    · exact calm_text _
    · split
      · exact calm_text _
      · exact avoids_ok _

theorem quiet_searchLoop {r : EwfReader} {chunks : List Chunk}
    (hchunks : r.chunks = .eager chunks) (pattern : List UInt8) (maxResults fuel : ℕ)
    (st : ReaderState) (fileOffset : ℕ) (carry : List UInt8) (found : List ℕ) :
    Quiet (searchLoop C r pattern maxResults fuel st fileOffset carry found) := by
  induction fuel generalizing st fileOffset carry found with
  | zero => exact avoids_ok _
  | succ fuel ih =>
      have hread := @quiet_readAt C r chunks hchunks st fileOffset
        (min bufSize (r.totalSize - fileOffset))
      rw [searchLoop]
      split_ifs
      · split
        · next e _ he =>
            rw [he] at hread
            exact avoids_error_iff.mpr (avoids_error_iff.mp hread)
        · split_ifs
          · exact avoids_ok _
          · exact ih _ _ _ _
      · exact avoids_ok _

/-- **A search ends the server** exactly when its pattern cuts a character. -/
theorem handleEwfSearchAt_eq_panic_iff (path pattern : List Char) (maxResults : ℕ) :
    handleEwfSearchAt T fs C path pattern maxResults = .error .panic ↔
      (pathOf pattern).length % 2 = 0 ∧ patternText (pathOf pattern) = .cut := by
  rw [handleEwfSearchAt]
  split_ifs with hodd
  · exact iff_of_false (calm_text _) fun h => hodd h.1
  · have heven : (pathOf pattern).length % 2 = 0 := by omega
    cases patternText (pathOf pattern) with
    | cut => simp [heven]
    | invalid => exact iff_of_false (calm_text _) fun h => absurd h.2 (by decide)
    | fine =>
        have hcalm : Calm (((handleEwfSearch C (openPath fs C (pathOf path)) pattern
            maxResults).mapError (·.failure T)).map searchValue) := by
          refine Avoids.map ?_ _
          have hopen := quiet_openPath fs C (pathOf path)
          rw [handleEwfSearch]
          split_ifs
          · exact calm_text _
          · cases hparse : parsePatternHex pattern with
            | error e =>
                have he : ∀ e', e ≠ .reader e' := by
                  rintro e' rfl
                  exact parsePatternHex_ne_reader pattern e' hparse
                cases e with
                | reader e' => exact absurd rfl (he e')
                | _ => exact calm_text _
            | ok bytes =>
                dsimp only
                split_ifs
                · exact calm_text _
                · cases hr : openPath fs C (pathOf path) with
                  | error e =>
                      rw [hr] at hopen
                      exact avoids_error_iff.mpr
                        (failure_ne_panic T (avoids_error_iff.mp hopen))
                  | ok r =>
                      obtain ⟨chunks, hchunks⟩ := exists_eager_of_openPath fs C hr
                      have hsearch := @quiet_searchLoop C r chunks hchunks bytes maxResults
                        (r.totalSize + 1) r.init 0 [] []
                      dsimp only
                      split
                      · next e he =>
                          rw [he] at hsearch
                          exact avoids_error_iff.mpr
                            (failure_ne_panic T (avoids_error_iff.mp hsearch))
                      · exact avoids_ok _
        exact iff_of_false hcalm fun h => absurd h.2 (by decide)

theorem calm_extractLoop {reader : List UInt8 → EwfReader} {chunks : List Chunk}
    (hchunks : ∀ written, (reader written).chunks = .eager chunks) (room fuel : ℕ)
    (st : ReaderState) (position remaining : ℕ) (written : List UInt8) :
    Calm (extractLoop T C reader room fuel st position remaining written).2 := by
  induction fuel generalizing st position remaining written with
  | zero => exact avoids_ok _
  | succ fuel ih =>
      have hread := @quiet_readAt C (reader written) chunks (hchunks written) st position
        (min remaining bufSize)
      rw [extractLoop]
      split_ifs
      · exact avoids_ok _
      · split
        · next e _ he =>
            rw [he] at hread
            exact avoids_error_iff.mpr (failure_ne_panic T (avoids_error_iff.mp hread))
        · split_ifs
          · exact avoids_ok _
          · exact ih _ _ _ _
          · simp

theorem calm_handleEwfExtract [DecidableEq Name] (env : Environment) (path : List Char)
    (offset : UInt64) (length : ℕ) (output : List Char) :
    Calm (handleEwfExtract T fs C env path offset length output).2 := by
  have hopen := calm_openReader T C fs path
  rw [handleEwfExtract]
  cases hr : openReader T fs C path with
  | error e =>
      rw [hr] at hopen
      exact avoids_error_iff.mpr (avoids_error_iff.mp hopen)
  | ok r =>
      obtain ⟨chunks, hchunks⟩ := exists_eager_of_openReader T C fs hr
      have hseek := calm_seekStart r offset
      dsimp only
      rw [extractFrom]
      split_ifs
      · exact calm_text _
      · cases hs : seekStart r offset with
        | error e =>
            rw [hs] at hseek
            exact avoids_error_iff.mpr (avoids_error_iff.mp hseek)
        | ok position =>
            cases fs.create (pathOf output) with
            | none => simp
            | some p =>
                refine Avoids.map ?_ _
                have hlive : ∀ written, (liveReader fs (((discoverSegments fs
                    (pathOf path)).toOption).getD []) (pathOf output) r written).chunks =
                    .eager chunks := fun _ => hchunks
                exact calm_extractLoop T C hlive _ _ _ _ _ _

/-- A tool ends the server only if it is a search. -/
theorem readTool_eq_panic_iff (threads : ℕ) (name : List Char) (args : Json.Value) :
    readTool T C fs threads name args = .error .panic ↔ name = "ewf_search".toList ∧
      (args.get "path".toList).bind Json.Value.asStr ≠ none ∧
      ∃ pattern, (args.get "pattern".toList).bind Json.Value.asStr = some pattern ∧
        (pathOf pattern).length % 2 = 0 ∧ patternText (pathOf pattern) = .cut := by
  have hother : ∀ {x : Answer}, Calm x → name ≠ "ewf_search".toList →
      (x = .error .panic ↔ name = "ewf_search".toList ∧
        (args.get "path".toList).bind Json.Value.asStr ≠ none ∧
        ∃ pattern, (args.get "pattern".toList).bind Json.Value.asStr = some pattern ∧
          (pathOf pattern).length % 2 = 0 ∧ patternText (pathOf pattern) = .cut) :=
    fun hx hname => iff_of_false hx fun h => hname h.1
  rw [readTool]
  split_ifs with hinfo hverify hread hlist hsearch
  · exact hother ((calm_requiredArgument _ _ _).bind fun _ _ => calm_handleEwfInfo T C fs _)
      (by rw [hinfo]; decide)
  · exact hother ((calm_requiredArgument _ _ _).bind fun _ _ =>
      calm_handleEwfVerify T C fs threads _) (by rw [hverify]; decide)
  · exact hother ((calm_requiredArgument _ _ _).bind fun _ _ =>
      calm_handleEwfReadSectors T C fs _ _ _) (by rw [hread]; decide)
  · exact hother ((calm_requiredArgument _ _ _).bind fun _ _ =>
      calm_handleEwfListSectionsAt T fs _) (by rw [hlist]; decide)
  · rw [requiredArgument, requiredArgument]
    cases (args.get "path".toList).bind Json.Value.asStr with
    | none => exact iff_of_false (calm_text _) fun h => h.2.1 rfl
    | some path =>
        cases (args.get "pattern".toList).bind Json.Value.asStr with
        | none => exact iff_of_false (calm_text _) fun ⟨_, _, _, h, _⟩ => nomatch h
        | some pattern =>
            refine (handleEwfSearchAt_eq_panic_iff T C fs path pattern
              (min (optionalNumber args "max_results" 10) 100)).trans ⟨fun h => ?_, ?_⟩
            · exact ⟨hsearch, Option.some_ne_none _, pattern, rfl, h⟩
            · rintro ⟨-, -, p, hp, h⟩
              obtain rfl := Option.some.inj hp
              exact h
  · exact hother (calm_text _) hsearch

end Calm

section Crash

variable {Name : Type} [DecidableEq Name] (T : Texts) (P : JsonParser) (C : Crates)

theorem toolResponse_eq_crash_iff {id : Json.Value} {answer : Answer} :
    toolResponse id answer = .crash ↔ answer = .error .panic := by
  cases answer with
  | ok v => simp [toolResponse]
  | error e => cases e <;> simp [toolResponse]

/-- **A line ends the server** exactly when it is a search that cuts a character, whatever the files
hold. -/
theorem handleLine_eq_crash_iff (fs : FileSystem Path Name UInt8) (request : Request) :
    (handleLine T P C fs request).2 = .crash ↔ EndsServer P request.1 := by
  rw [handleLine, EndsServer]
  split_ifs with hempty
  · simp [hempty]
  · cases hparse : P.fromStr request.1 with
    | error e => simp
    | ok req =>
        have hcuts : (respond T C fs request.2 req).2 = .crash ↔ CutsPattern req := by
          rw [CutsPattern, CallsTool]
          by_cases hcall : requestMethod req = "tools/call".toList
          · rw [respond_call hcall, toolResponse_eq_crash_iff, dispatchTool]
            split_ifs with hextract
            · have hcalm : Calm (extractTool T C fs request.2.env
                  (extractArguments (toolArguments req))).2 := by
                have hargs : Calm (extractArguments (toolArguments req)) :=
                  (calm_requiredArgument _ _ _).bind fun _ _ =>
                    (calm_requiredArgument _ _ _).bind fun _ _ =>
                      (calm_requiredArgument _ _ _).bind fun _ _ =>
                        (calm_requiredArgument _ _ _).bind fun _ _ => avoids_ok _
                cases hx : extractArguments (toolArguments req) with
                | error e =>
                    rw [hx] at hargs
                    exact avoids_error_iff.mpr (avoids_error_iff.mp hargs)
                | ok a => exact calm_handleEwfExtract T C fs _ _ _ _ _
              refine iff_of_false hcalm fun h => ?_
              rw [hextract] at h
              exact absurd h.1.2 (by decide)
            · rw [readTool_eq_panic_iff]
              exact ⟨fun ⟨hname, h⟩ => ⟨⟨hcall, hname⟩, h⟩, fun ⟨⟨_, hname⟩, h⟩ => ⟨hname, h⟩⟩
          · exact iff_of_false (respond_other hcall).2 fun h => hcall h.1.1
        simp [hempty, hcuts]

/-- A run ends early exactly when one of its lines ends the server. -/
theorem answers_crashed_iff (fs : FileSystem Path Name UInt8) (requests : List Request) :
    (answers T P C fs requests).crashed = true ↔ ∃ r ∈ requests, EndsServer P r.1 :=
  serve_crashed_iff (handleLine_eq_crash_iff T P C) fs requests

theorem not_crashed_of_quiet (fs : FileSystem Path Name UInt8) {requests : List Request}
    (h : ∀ r ∈ requests, ¬ EndsServer P r.1) : (answers T P C fs requests).crashed = false := by
  rw [← Bool.not_eq_true, answers_crashed_iff]
  rintro ⟨r, hr, hbad⟩
  exact h r hr hbad

end Crash

/-! ### Files over a run -/

/-- The output of the extraction that a line asks for, if it does. -/
def outputOf (P : JsonParser) (line : List Char) : Option (List Char) :=
  if line = [] then none
  else
    match P.fromStr line with
    | .error _ => none
    | .ok req =>
      if CallsTool req "ewf_extract" then
        ((toolArguments req).get "output".toList).bind Json.Value.asStr
      else none

section Files

variable {Name : Type} [DecidableEq Name] (T : Texts) (P : JsonParser) (C : Crates)

/-- The entries that some outputs lead to. -/
def entriesOf (fs : FileSystem Path Name UInt8) (outs : List (List Char)) : List Name :=
  outs.map fun out => fs.locate (pathOf out)

/-- **A line** changes no file but the output of its extraction. -/
theorem later_handleLine (fs : FileSystem Path Name UInt8) (request : Request) :
    FileSystem.Later fs (handleLine T P C fs request).1
      (entriesOf fs (outputOf P request.1).toList) := by
  have hnone : ∀ outs, FileSystem.Later fs fs outs := fun outs =>
    (FileSystem.Later.refl fs).mono (List.nil_subset _)
  rw [handleLine, outputOf]
  split_ifs with hempty
  · exact hnone _
  · cases hparse : P.fromStr request.1 with
    | error e => exact hnone _
    | ok req =>
        dsimp only
        by_cases hcall : requestMethod req = "tools/call".toList
        · rw [respond_call hcall, dispatchTool]
          by_cases hextract : toolName req = "ewf_extract".toList
          · rw [if_pos hextract, if_pos ⟨hcall, hextract⟩]
            cases hx : extractArguments (toolArguments req) with
            | error e => exact hnone _
            | ok a =>
                obtain ⟨path, -, hx⟩ := except_bind_eq_ok_iff.mp hx
                obtain ⟨offset, -, hx⟩ := except_bind_eq_ok_iff.mp hx
                obtain ⟨length, -, hx⟩ := except_bind_eq_ok_iff.mp hx
                obtain ⟨output, hout, hx⟩ := except_bind_eq_ok_iff.mp hx
                obtain rfl := Except.ok.inj hx
                have hget : ((toolArguments req).get "output".toList).bind Json.Value.asStr =
                    some output := by
                  rw [requiredArgument] at hout
                  split at hout
                  · next out hget =>
                      rw [hget, Except.ok.inj hout]
                  · cases hout
                rw [hget]
                exact later_handleEwfExtract
          · rw [if_neg hextract]
            exact hnone _
        · rw [(respond_other hcall).1]
          exact hnone _

/-- **The files of a run.** From its start to its end, the server changes no file but the outputs of
the extractions that it was asked for, and makes no other. -/
theorem server_writes (fs : FileSystem Path Name UInt8) (requests : List Request) :
    FileSystem.Later fs (answers T P C fs requests).state
      (entriesOf fs (requests.filterMap fun request => outputOf P request.1)) := by
  have hrun := @serve_relates _ _ _ _ (handleLine T P C)
    (fun fs fs' outs => FileSystem.Later fs fs' (entriesOf fs outs))
    (fun request => (outputOf P request.1).toList) FileSystem.Later.refl
    (fun {s s' s'' ns ns'} h h' => by
      have hsame : entriesOf s' ns' = entriesOf s ns' := by
        rw [entriesOf, entriesOf, h.locate_eq]
      rw [hsame] at h'
      have hall := h.trans h'
      rwa [entriesOf, entriesOf, ← List.map_append] at hall)
    (fun h hsub => h.mono (List.map_subset _ hsub)) (later_handleLine T P C) fs requests
  rwa [← List.filterMap_eq_flatMap_toList] at hrun

end Files

/-! ### An image that a run leaves alone -/

section Stored

variable {Name : Type} {T : Texts} {C : Crates} {fs fs' : FileSystem Path Name UInt8} {first : Path}
  {names : List Path} {content : Path → Segment} {media : List UInt8}

/-- Outputs that are no files of an image and do not look like one: none is where a segment file
would be, or is a link to one. -/
def Spares (fs : FileSystem Path Name UInt8) (first : Path) (names : List Path)
    (outs : List (List Char)) : Prop :=
  ∀ out ∈ outs, (∀ p ∈ names, fs.fileAt p ≠ fs.fileAt (pathOf out)) ∧
    ∀ p, IsSegmentPath first p → fs.locate p ≠ fs.locate (pathOf out)

/-- A stored image stays stored. -/
theorem storedIn_later {outs : List (List Char)} (hspare : Spares fs first names outs)
    (hlater : FileSystem.Later fs fs' (entriesOf fs outs)) (h : StoredIn fs first names) :
    StoredIn fs' first names where
  ne_nil := h.ne_nil
  nodup := h.nodup
  mem_iff p := by
    rw [h.mem_iff]
    refine and_congr_right fun hseg => ?_
    have hentry : fs.locate p ∉ entriesOf fs outs := by
      intro hmem
      obtain ⟨out, hout, heq⟩ := List.mem_map.mp hmem
      exact (hspare out hout).2 p hseg heq.symm
    cases hfile : fs.fileAt p with
    | none => rw [hlater.fileAt_none hfile hentry]
    | some n => rw [hlater.fileAt_eq hfile]

/-- Its files hold what they held. -/
theorem holds_later {outs : List (List Char)} (hspare : Spares fs first names outs)
    (hlater : FileSystem.Later fs fs' (entriesOf fs outs)) (hstored : StoredIn fs first names)
    (h : Image.Holds fs names content) : Image.Holds fs' names content := by
  intro p hp
  obtain ⟨n, hn⟩ := Option.isSome_iff_exists.mp ((hstored.mem_iff p).mp hp).2
  have hout : ∀ name ∈ entriesOf fs outs, fs.entry name ≠ some n := by
    intro name hmem hentry
    obtain ⟨out, hout, rfl⟩ := List.mem_map.mp hmem
    exact (hspare out hout).1 p hp (hn.trans hentry.symm)
  rw [← h p hp, openSource, openSource, hlater.openFile_eq hn hout]

/-- The answer about a range of a media. -/
def sectorsValue (media : List UInt8) (offset length : ℕ) : Json.Value :=
  jsonObject [
    ("offset".toList, .nat offset),
    ("length".toList, .nat (min length (media.length - offset))),
    ("hex".toList, .string (hexString ((media.drop offset).take length)))]

/-- **Reading from a stored image** answers with the bytes of its media. -/
theorem handleEwfReadSectors_eq {path : List Char}
    (himage : Image.ImageOf C (names.map content) media)
    (hstored : StoredIn fs (pathOf path) names) (hholds : Image.Holds fs names content)
    {offset : UInt64} (hoffset : offset.toNat < media.length)
    (hhalf : offset.toNat < Cursor.half) (length : ℕ) :
    handleEwfReadSectors T fs C path offset length =
      .ok (sectorsValue media offset.toNat length) := by
  obtain ⟨r, blocks, hopen, hstores, rfl, -⟩ := Image.exists_openPath himage hstored hholds
  have htotal := hstores.totalSize_eq
  have hreader : openReader T fs C path = .ok r := by
    rw [openReader, hopen]
    rfl
  obtain ⟨len, hlen⟩ : ∃ len, len = min length (r.totalSize - offset.toNat) := ⟨_, rfl⟩
  have hread := @readExactFrom_eq C r blocks T hstores r.init .init offset.toNat len len
    (Nat.le_refl _) (by omega)
  have htake : (blocks.flatten.drop offset.toNat).take len =
      (blocks.flatten.drop offset.toNat).take length := by
    rw [List.take_eq_take_iff, List.length_drop]
    omega
  rw [handleEwfReadSectors, hreader]
  change (if offset.toNat ≥ r.totalSize then _ else _) = _
  rw [if_neg (by omega), ← hlen, seekStart_eq hhalf]
  change (readExactFrom T C r len r.init offset.toNat len >>= _) = _
  rw [hread, htake, sectorsValue, ← htotal, ← hlen]
  rfl

end Stored

/-- A request for the sectors of an image. -/
structure AsksSectors (req : Json.Value) (path : List Char) (offset length : ℕ) : Prop where
  calls : CallsTool req "ewf_read_sectors"
  path_eq : ((toolArguments req).get "path".toList).bind Json.Value.asStr = some path
  offset_eq : optionalNumber (toolArguments req) "offset" 0 = offset
  length_eq : min (optionalNumber (toolArguments req) "length" 512) 4096 = length

section Frame

variable {Name : Type} {T : Texts} {C : Crates} {fs fs' : FileSystem Path Name UInt8}

/-- No output is at a place where an open looks for a file, or is a link to such a file. -/
def LeavesAlone (fs : FileSystem Path Name UInt8) (first : Path) (outs : List (List Char)) :
    Prop :=
  ∀ out ∈ outs, ∀ p, IsSegmentPath first p → fs.locate p ≠ fs.locate (pathOf out) ∧
    ∀ n, fs.fileAt p = some n → fs.fileAt (pathOf out) ≠ some n

theorem agreeFor_later {first : Path} {outs : List (List Char)}
    (halone : LeavesAlone fs first outs)
    (hlater : FileSystem.Later fs fs' (entriesOf fs outs)) : AgreeFor fs fs' first := by
  intro p hseg
  cases hfile : fs.fileAt p with
  | none =>
      have hentry : fs.locate p ∉ entriesOf fs outs := by
        intro hmem
        obtain ⟨out, hout, heq⟩ := List.mem_map.mp hmem
        exact (halone out hout p hseg).1 heq.symm
      have hnone := hlater.fileAt_none hfile hentry
      refine ⟨by rw [hnone], ?_⟩
      rw [FileSystem.openFile, FileSystem.openFile, FileSystem.read, FileSystem.read, hnone, hfile,
        hlater.mayOpen_eq, hlater.locate_eq, Option.map_none, Option.map_none]
  | some n =>
      have hout : ∀ name ∈ entriesOf fs outs, fs.entry name ≠ some n := by
        intro name hmem
        obtain ⟨out, hout, rfl⟩ := List.mem_map.mp hmem
        exact (halone out hout p hseg).2 n hfile
      exact ⟨by rw [hlater.fileAt_eq hfile], hlater.openFile_eq hfile hout⟩

/-- A tool that opens an image depends on the files through the open alone. -/
theorem readTool_congr {path name : List Char} {args : Json.Value}
    (hopen : openPath fs' C (pathOf path) = openPath fs C (pathOf path))
    (hpath : (args.get "path".toList).bind Json.Value.asStr = some path)
    (hlist : name ≠ "ewf_list_sections".toList) (threads : ℕ) :
    readTool T C fs' threads name args = readTool T C fs threads name args := by
  have harg : requiredArgument args "path" Json.Value.asStr = .ok path := by
    rw [requiredArgument, hpath]
  have hreader : openReader T fs' C path = openReader T fs C path := by
    rw [openReader, openReader, hopen]
  rw [readTool, readTool, harg, if_neg hlist, if_neg hlist]
  split_ifs
  · change handleEwfInfo T fs' C path = handleEwfInfo T fs C path
    rw [handleEwfInfo, handleEwfInfo, hreader]
  · change handleEwfVerify T fs' C threads path = handleEwfVerify T fs C threads path
    rw [handleEwfVerify, handleEwfVerify, hreader]
  · change handleEwfReadSectors T fs' C path _ _ = handleEwfReadSectors T fs C path _ _
    rw [handleEwfReadSectors, handleEwfReadSectors, hreader]
  · cases requiredArgument args "pattern" Json.Value.asStr with
    | error e => rfl
    | ok pattern =>
        change handleEwfSearchAt T fs' C path pattern _ = handleEwfSearchAt T fs C path pattern _
        rw [handleEwfSearchAt, handleEwfSearchAt, hopen]
  · rfl

end Frame

/-- A request that calls a tool. -/
def callRequest (id : ℕ) (tool : String) (arguments : List (List Char × Json.Value)) :
    Json.Value :=
  jsonObject [
    ("jsonrpc".toList, .string "2.0".toList),
    ("id".toList, .nat id),
    ("method".toList, .string "tools/call".toList),
    ("params".toList, jsonObject [
      ("name".toList, .string tool.toList),
      ("arguments".toList, jsonObject arguments)])]

section Calls

variable {id : ℕ} {tool : String} {arguments : List (List Char × Json.Value)}

theorem requestParams_callRequest : requestParams (callRequest id tool arguments) =
    jsonObject [("name".toList, .string tool.toList),
      ("arguments".toList, jsonObject arguments)] := by
  have hparams : (callRequest id tool arguments).get "params".toList = some (jsonObject
      [("name".toList, .string tool.toList), ("arguments".toList, jsonObject arguments)]) :=
    get_jsonObject (by simp) (by simp)
  rw [requestParams, hparams]
  rfl

theorem callsTool_callRequest : CallsTool (callRequest id tool arguments) tool := by
  have hmethod : (callRequest id tool arguments).get "method".toList =
      some (.string "tools/call".toList) := get_jsonObject (by simp) (by simp)
  have hname : (jsonObject [("name".toList, .string tool.toList),
      ("arguments".toList, jsonObject arguments)]).get "name".toList =
      some (.string tool.toList) := get_jsonObject (by simp) (by simp)
  constructor
  · rw [requestMethod, hmethod]
    rfl
  · rw [toolName, requestParams_callRequest, hname]
    rfl

theorem toolArguments_callRequest :
    toolArguments (callRequest id tool arguments) = jsonObject arguments := by
  have hargs : (jsonObject [("name".toList, .string tool.toList),
      ("arguments".toList, jsonObject arguments)]).get "arguments".toList =
      some (jsonObject arguments) := get_jsonObject (by simp) (by simp)
  rw [toolArguments, requestParams_callRequest, hargs]
  rfl

end Calls

/-- A parser of what is written for some values. -/
def writtenParser (values : List Json.Value) (h : ∀ v ∈ values, v.Valid) : JsonParser where
  fromStr text :=
    match values.find? fun v => Json.render .compact 0 v = text with
    | some v => .ok v
    | none => .error "expected value at line 1 column 1".toList
  valid {text v} htext := by
    split at htext
    · next w hw =>
        obtain rfl := Except.ok.inj htext
        exact h _ (List.mem_of_find?_eq_some hw)
    · cases htext

theorem fromStr_writtenParser {values : List Json.Value} (h : ∀ v ∈ values, v.Valid)
    {v : Json.Value} (hv : v ∈ values) :
    (writtenParser values h).fromStr (Json.render .compact 0 v) = .ok v := by
  have hfind : ∃ w, (values.find? fun w => Json.render .compact 0 w = Json.render .compact 0 v) =
      some w := Option.isSome_iff_exists.mp (List.find?_isSome.mpr ⟨v, hv, decide_eq_true rfl⟩)
  obtain ⟨w, hw⟩ := hfind
  have htext : Json.render .compact 0 w = Json.render .compact 0 v := by
    have hfound := List.find?_some hw
    rwa [decide_eq_true_eq] at hfound
  have hparse := Json.parse_render .compact (h w (List.mem_of_find?_eq_some hw)) 0
  rw [htext, Json.parse_render .compact (h v hv) 0] at hparse
  change (match values.find? fun w => Json.render .compact 0 w = Json.render .compact 0 v with
    | some w => Except.ok w
    | none => _) = _
  rw [hw, Option.some.inj hparse]

/-- Three bytes are extracted from the second one on. -/
def sampleExtract : Json.Value :=
  callRequest 1 "ewf_extract" [
    ("path".toList, .string "ev.ex02".toList),
    ("offset".toList, .nat 1),
    ("length".toList, .nat 3),
    ("output".toList, .string "out".toList)]

/-- The same bytes are read. -/
def sampleRead : Json.Value :=
  callRequest 2 "ewf_read_sectors" [
    ("path".toList, .string "ev.ex02".toList),
    ("offset".toList, .nat 1),
    ("length".toList, .nat 3)]

theorem valid_sampleRequests : ∀ v ∈ [sampleExtract, sampleRead], v.Valid := by
  simp [sampleExtract, sampleRead, callRequest]

/-- A parser of the two requests. -/
def sampleParser : JsonParser := writtenParser [sampleExtract, sampleRead] valid_sampleRequests

/-- The line of a request. -/
def requestLine (req : Json.Value) : List Char := Json.render .compact 0 req

theorem fromStr_sampleExtract :
    sampleParser.fromStr (requestLine sampleExtract) = .ok sampleExtract :=
  fromStr_writtenParser valid_sampleRequests (List.mem_cons_self ..)

theorem fromStr_sampleRead : sampleParser.fromStr (requestLine sampleRead) = .ok sampleRead :=
  fromStr_writtenParser valid_sampleRequests (List.mem_cons_of_mem _ (List.mem_cons_self ..))

theorem outputOf_sampleExtract :
    outputOf sampleParser (requestLine sampleExtract) = some "out".toList := by
  have hne : requestLine sampleExtract ≠ [] :=
    Json.render_ne_nil .compact 0 (valid_sampleRequests _ (List.mem_cons_self ..))
  have hget : (jsonObject [("path".toList, .string "ev.ex02".toList), ("offset".toList, .nat 1),
      ("length".toList, .nat 3), ("output".toList, .string "out".toList)]).get "output".toList =
      some (.string "out".toList) := get_jsonObject (by simp) (by simp)
  rw [outputOf, if_neg hne, fromStr_sampleExtract]
  dsimp only
  rw [sampleExtract, if_pos callsTool_callRequest, toolArguments_callRequest, hget]
  rfl

theorem not_endsServer_sampleExtract :
    ¬ EndsServer sampleParser (requestLine sampleExtract) := by
  rintro ⟨-, req, hreq, hcuts⟩
  rw [fromStr_sampleExtract] at hreq
  obtain rfl := Except.ok.inj hreq
  have hname : toolName sampleExtract = "ewf_extract".toList := callsTool_callRequest.2
  have hsearch := hcuts.1.2
  rw [hname] at hsearch
  exact absurd hsearch (by decide)

theorem sampleRead_asks : AsksSectors sampleRead "ev.ex02".toList 1 3 := by
  have hpath : (toolArguments sampleRead).get "path".toList =
      some (.string "ev.ex02".toList) := by
    rw [sampleRead, toolArguments_callRequest]
    exact get_jsonObject (by simp) (by simp)
  have hoffset : (toolArguments sampleRead).get "offset".toList = some (.nat 1) := by
    rw [sampleRead, toolArguments_callRequest]
    exact get_jsonObject (by simp) (by simp)
  have hlength : (toolArguments sampleRead).get "length".toList = some (.nat 3) := by
    rw [sampleRead, toolArguments_callRequest]
    exact get_jsonObject (by simp) (by simp)
  refine ⟨callsTool_callRequest, ?_, ?_, ?_⟩
  · rw [hpath]
    rfl
  · rw [optionalNumber, hoffset, Option.bind_some, Json.Value.asU64_nat (by decide)]
    rfl
  · rw [optionalNumber, hlength, Option.bind_some, Json.Value.asU64_nat (by decide)]
    rfl

theorem sampleDirectory_spares : Spares Image.sampleDirectory (pathOf "ev.ex02".toList)
    Image.sampleNames ["out".toList] := by
  intro out hout
  obtain rfl := List.mem_singleton.mp hout
  refine ⟨sampleDirectory_spare, ?_⟩
  rintro p hseg (rfl : p = pathOf "out".toList)
  have hno : ¬ IsSegmentPath (pathOf "ev.ex02".toList) (pathOf "out".toList) := by decide +kernel
  exact hno hseg

theorem sampleDirectory_leavesAlone : LeavesAlone Image.sampleDirectory
    (pathOf "ev.ex02".toList) ["out".toList] := by
  intro out hout p hseg
  obtain rfl := List.mem_singleton.mp hout
  refine ⟨(sampleDirectory_spares _ (List.mem_singleton_self _)).2 p hseg, fun n _ => ?_⟩
  have hnone : Image.sampleDirectory.fileAt (pathOf "out".toList) = none := by decide +kernel
  rw [hnone]
  exact nofun

end EwfForensic.Cli

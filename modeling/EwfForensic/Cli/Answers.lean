import EwfForensic.Cli.Handlers
import EwfForensic.Cli.Search
import EwfForensic.Core.OpenPath
import EwfForensic.Core.WholeMedia
import EwfForensic.Forensic.Display
import EwfForensic.Lib.JsonText

/-!
# The Handlers of the Command Line Tool

The functions of `cli/src/handlers.rs` that only read: each opens the image that a path leads to
and answers with a JSON value, or with the text of an error. A handler that writes is in
`Cli.Extract`.

* `Texts` — the texts of errors that other programs write.
* `Failure`, `Answer` — what a handler returns.
* `handleEwfInfo`, `handleEwfVerify`, `handleEwfReadSectors`, `handleEwfListSectionsAt`,
  `handleEwfSearchAt` — the handlers.
* `readExactFrom_eq` — `read_exact` of a reader of a media is a slice of it.
* `patternText` — the patterns at which `handle_ewf_search` panics.
* `valid_infoValue` and the lemmas behind it — whatever is answered is written as JSON.
-/

namespace EwfForensic

open Octets

/-! ### Texts of errors -/

/-- Texts of errors that come from the operating system and from the decoder. -/
structure Texts where
  io : String → List Char
  decoder : List Char
  create : List Char
  write : List Char

/-- `{found:02x?}`. -/
def hexList (bytes : List UInt8) : List Char :=
  '[' :: [',', ' '].intercalate (bytes.map fun b => Hex.padded 2 b.toNat) ++ [']']

/-- The `Display` instance of `EwfError`. A panic has no text. -/
def EwfError.display (T : Texts) : EwfError → List Char
  | .io message => "I/O error: ".toList ++ T.io message
  | .invalidSignature found =>
    "invalid EWF signature: found ".toList ++ hexList found ++
      ", expected EVF (physical) or LVF (logical)".toList
  | .bufferTooShort expected got =>
    "buffer too short: expected ".toList ++ Nat.toDigits 10 expected ++ ", got ".toList ++
      Nat.toDigits 10 got
  | .invalidChunkSize size => "invalid chunk size: ".toList ++ Nat.toDigits 10 size
  | .missingVolume => "missing volume section".toList
  | .decompression => "decompression error: ".toList ++ T.decoder
  | .segmentGap expected got =>
    "segment gap: expected segment ".toList ++ Nat.toDigits 10 expected ++ ", got ".toList ++
      Nat.toDigits 10 got
  | .noSegments message => "no segment files found matching: ".toList ++ message.toList
  | .parse message => "parse error: ".toList ++ message.toList
  | .encryptedNotSupported => "encrypted EWF2 images are not supported".toList
  | .indexPanic => []

namespace Cli

/-- How a handler fails. -/
inductive Failure where
  | error (text : List Char)
  | panic
  deriving DecidableEq

/-- What a handler returns. -/
abbrev Answer := Except Failure Json.Value

/-- `format!("{e}")`, unless the call panics. -/
def failure (T : Texts) : EwfError → Failure
  | .indexPanic => .panic
  | e => .error (e.display T)

/-! ### JSON values -/

/-- The order of the names of members: that of their bytes. -/
def nameLe (a b : List Char × Json.Value) : Bool :=
  bytesLe (a.1.flatMap String.utf8EncodeChar) (b.1.flatMap String.utf8EncodeChar)

/-- `json!` of an object: a map, whose members are in the order of their names. -/
def jsonObject (members : List (List Char × Json.Value)) : Json.Value :=
  .object (members.insertionSort fun a b => nameLe a b)

/-- `json!` of an optional value. -/
def jsonOption {α : Type} (value : α → Json.Value) (v : Option α) : Json.Value :=
  (v.map value).getD .null

/-- `hex_string`. -/
def hexString (bytes : List UInt8) : List Char := bytes.flatMap fun b => Hex.padded 2 b.toNat

/-- A digest in JSON. -/
def jsonHex (bytes : List UInt8) : Json.Value := .string (hexString bytes)

/-- A text of the header in JSON. -/
def jsonText (text : List UInt8) : Json.Value := .string (Utf8.charsLossy text)

/-! ### The handlers -/

section Handlers

variable {Name : Type} (T : Texts) (fs : FileSystem Path Name UInt8) (C : Crates)

/-- A `&str` as a path. -/
def pathOf (text : List Char) : Path := text.flatMap String.utf8EncodeChar

/-- `EwfReader::open` with its error as text. -/
def openReader (path : List Char) : Except Failure EwfReader :=
  (openPath fs C (pathOf path)).mapError (failure T)

/-- The answer of `handle_ewf_info`. -/
def infoValue (r : EwfReader) : Json.Value :=
  jsonObject [
    ("media_size".toList, .nat r.totalSize),
    ("chunk_size".toList, .nat r.chunkSize),
    ("chunk_count".toList, .nat r.chunks.len),
    ("stored_hashes".toList, jsonObject [
      ("md5".toList, jsonOption (fun h => jsonHex h.val) r.storedMd5),
      ("sha1".toList, jsonOption (fun h => jsonHex h.val) r.storedSha1)]),
    ("metadata".toList, jsonObject [
      ("case_number".toList, jsonOption jsonText r.metadata.caseNumber),
      ("evidence_number".toList, jsonOption jsonText r.metadata.evidenceNumber),
      ("description".toList, jsonOption jsonText r.metadata.description),
      ("examiner".toList, jsonOption jsonText r.metadata.examiner),
      ("notes".toList, jsonOption jsonText r.metadata.notes),
      ("acquiry_software".toList, jsonOption jsonText r.metadata.acquirySoftware),
      ("os_version".toList, jsonOption jsonText r.metadata.osVersion),
      ("acquiry_date".toList, jsonOption jsonText r.metadata.acquiryDate),
      ("system_date".toList, jsonOption jsonText r.metadata.systemDate)]),
    ("acquisition_errors".toList, .array (r.acquisitionErrors.map fun e => jsonObject [
      ("first_sector".toList, .nat e.firstSector),
      ("sector_count".toList, .nat e.sectorCount)]))]

/-- `handle_ewf_info`. -/
def handleEwfInfo (path : List Char) : Answer := do
  let r ← openReader T fs C path
  .ok (infoValue r)

/-- The answer of `handle_ewf_verify`. -/
def verifyValue (v : VerifyResult) : Json.Value :=
  jsonObject [
    ("computed_md5".toList, jsonHex v.computedMd5.val),
    ("computed_sha1".toList, jsonOption (fun h => jsonHex h.val) v.computedSha1),
    ("md5_match".toList, jsonOption .bool v.md5Match),
    ("sha1_match".toList, jsonOption .bool v.sha1Match),
    ("complete".toList, .bool v.isComplete),
    ("addressable_bytes".toList, .nat v.addressableBytes),
    ("declared_bytes".toList, .nat v.declaredBytes),
    ("missing_bytes".toList, .nat v.missingBytes)]

/-- `handle_ewf_verify`, with a number of worker threads. -/
def handleEwfVerify (threads : ℕ) (path : List Char) : Answer := do
  let r ← openReader T fs C path
  let v ← (r.verify C threads).mapError (failure T)
  .ok (verifyValue v)

/-- The position that a seek goes to, or its error. -/
def seekResult (event : Cursor.Event EwfError) : Except Failure ℕ :=
  match event.reply with
  | .seeked (.error message) => .error (.error message.toList)
  | _ => .ok event.position

/-- `reader.seek(SeekFrom::Start(offset))` on a new reader. -/
def seekStart (r : EwfReader) (offset : UInt64) : Except Failure ℕ :=
  seekResult (Cursor.seek r.totalSize 0 (.start offset))

/-- `Read::read_exact` on a reader: reads until so many bytes are there. -/
def readExactFrom (r : EwfReader) : ℕ → ReaderState → ℕ → ℕ → Except Failure (List UInt8)
  | 0, _, _, _ => .ok []
  | fuel + 1, st, position, n =>
    if n = 0 then .ok []
    else
      match r.readAt C st position n with
      | (.error e, _) => .error (failure T e)
      | (.ok out, st) =>
        if out = [] then .error (.error "failed to fill whole buffer".toList)
        else
          (readExactFrom r fuel st (position + out.length) (n - out.length)).map (out ++ ·)

/-- The error of an offset behind the media. -/
def offsetError (offset total : ℕ) : Failure :=
  .error ("offset ".toList ++ Nat.toDigits 10 offset ++ " exceeds media size ".toList ++
    Nat.toDigits 10 total)

/-- `handle_ewf_read_sectors`. -/
def handleEwfReadSectors (path : List Char) (offset : UInt64) (length : ℕ) : Answer := do
  let r ← openReader T fs C path
  if offset.toNat ≥ r.totalSize then .error (offsetError offset.toNat r.totalSize)
  else
    let actualLen := min length (r.totalSize - offset.toNat)
    let position ← seekStart r offset
    let bytes ← readExactFrom T C r actualLen r.init position actualLen
    .ok (jsonObject [
      ("offset".toList, .nat offset.toNat),
      ("length".toList, .nat actualLen),
      ("hex".toList, .string (hexString bytes))])

/-- The patterns of `handle_ewf_list_sections`, for a path whose file name is given. In front of
the file name stands the path's parent, which is empty for a bare file name. -/
def listPatterns (path : Path) (name : FileName) : List GlobPattern :=
  let stem := childPath (parentPath path) (splitExtension name).1
  let first := [69, 101]
  [⟨stem, [first, digitClass, digitClass]⟩, ⟨stem, [first, letterClass, letterClass]⟩]

/-- The segment files that `handle_ewf_list_sections` lists, `none` where the path has no stem that
is text. -/
def listPaths (path : Path) : Option (List Path) := do
  let name ← fileName path
  let _ ← Utf8.toStr (splitExtension name).1
  some (((listPatterns path name).flatMap (globFiles fs)).insertionSort fun a b =>
    bytesLe (upperExtension a) (upperExtension b))

/-- A section in the answer of `handle_ewf_list_sections`. -/
def sectionValue (segment : ℕ) (s : Section) : Json.Value :=
  jsonObject [
    ("segment".toList, .nat segment),
    ("type".toList, .string s.typeName.text),
    ("offset".toList, .nat s.offset),
    ("size".toList, .nat s.size)]

/-- The sections of one of the files. -/
def listFile (p : Path × ℕ) : Except Failure (List Json.Value) :=
  match fs.openFile p.1 with
  | none => .error (.error (T.io "cannot open file"))
  | some data =>
    match listSections data with
    | none => .error (.error (T.io "cannot read section"))
    | some sections => .ok (sections.map (sectionValue p.2))

/-- `handle_ewf_list_sections`. -/
def handleEwfListSectionsAt (path : List Char) : Answer :=
  match listPaths fs (pathOf path) with
  | none => .error (.error ("cannot extract stem from: ".toList ++ path))
  | some [] => .error (.error ("no EWF segments found for: ".toList ++ path))
  | some paths => do
    let sections ← paths.zipIdx.mapM (listFile T fs)
    .ok (jsonObject [("sections".toList, .array sections.flatten)])

/-- What the loop over the pattern of a search comes to, two bytes at a time. -/
inductive PatternText where
  /-- Every two bytes are a number. -/
  | fine
  /-- Two bytes are none. -/
  | invalid
  /-- Two bytes start or end within a character. -/
  | cut
  deriving DecidableEq

/-- The loop over the bytes of the pattern, from a slice `&pattern_hex[i..i + 2]` on. It ends at the
first slice that is no number. A slice that starts or ends within a character is a panic: it starts
with a byte that goes on with a character, or such a byte follows. -/
def patternText : List UInt8 → PatternText
  | a :: b :: rest =>
    if Utf8.isTail a ∨ rest.head?.any Utf8.isTail then .cut
    else if (fromStrRadix16 [Char.ofNat a.toNat, Char.ofNat b.toNat]).isNone then .invalid
    else patternText rest
  | _ => .fine

/-- The texts of `handle_ewf_search`. -/
def SearchError.failure (T : Texts) : SearchError → Failure
  | .oddLength => .error "hex pattern must have even length (each byte is 2 hex chars)".toList
  | .invalidHex => .error "invalid hex pattern: invalid digit found in string".toList
  | .emptyPattern => .error "pattern must not be empty".toList
  | .reader e => Cli.failure T e

/-- The answer of `handle_ewf_search`. -/
def searchValue (result : SearchResult) : Json.Value :=
  jsonObject [
    ("pattern".toList, .string result.pattern),
    ("matches".toList, .array (result.hits.map fun offset =>
      jsonObject [("offset".toList, .nat offset)])),
    ("total_found".toList, .nat result.totalFound)]

/-- `handle_ewf_search`, for a pattern that is any text. -/
def handleEwfSearchAt (path pattern : List Char) (maxResults : ℕ) : Answer :=
  if (pathOf pattern).length % 2 ≠ 0 then .error (SearchError.oddLength.failure T)
  else
    match patternText (pathOf pattern) with
    | .cut => .error .panic
    | .invalid => .error (SearchError.invalidHex.failure T)
    | .fine =>
      ((handleEwfSearch C (openPath fs C (pathOf path)) pattern maxResults).mapError
        (·.failure T)).map searchValue

end Handlers

/-! ### Objects -/

@[simp] theorem valid_jsonObject_iff {members : List (List Char × Json.Value)} :
    (jsonObject members).Valid ↔ ∀ m ∈ members, m.2.Valid := by
  have hmem : ∀ m, m ∈ members.insertionSort (fun a b => nameLe a b) ↔ m ∈ members := fun m =>
    (List.perm_insertionSort _ _).mem_iff
  constructor
  · intro h
    cases h with
    | object h => exact fun m hm => h m ((hmem m).mpr hm)
  · exact fun h => .object fun m hm => h m ((hmem m).mp hm)

@[simp] theorem valid_jsonOption {α : Type} {value : α → Json.Value} (h : ∀ a, (value a).Valid)
    (v : Option α) : (jsonOption value v).Valid := by
  cases v with
  | none => exact .null
  | some a => exact h a

/-- A list with distinct names has the value of each of them. -/
theorem lookup_of_mem {members : List (List Char × Json.Value)} (h : (members.map (·.1)).Nodup)
    {name : List Char} {v : Json.Value} (hmem : (name, v) ∈ members) :
    members.lookup name = some v := by
  induction members with
  | nil => cases hmem
  | cons m members ih =>
      rw [List.map_cons, List.nodup_cons] at h
      rw [List.lookup_cons]
      rcases List.mem_cons.mp hmem with rfl | hmem
      · rw [beq_self_eq_true]
      · have hne : (name == m.1) = false := by
          rw [beq_eq_false_iff_ne]
          rintro rfl
          exact h.1 (List.mem_map.mpr ⟨_, hmem, rfl⟩)
        rw [hne]
        exact ih h.2 hmem

/-- **Every member is found** in an object. -/
theorem get_jsonObject {members : List (List Char × Json.Value)}
    (h : (members.map (·.1)).Nodup) {name : List Char} {v : Json.Value}
    (hmem : (name, v) ∈ members) : (jsonObject members).get name = some v := by
  have hperm := List.perm_insertionSort (fun a b => nameLe a b) members
  exact lookup_of_mem ((hperm.map _).nodup_iff.mpr h) (hperm.mem_iff.mpr hmem)

/-! ### Every answer is JSON -/

@[simp] theorem valid_jsonHex (bytes : List UInt8) : (jsonHex bytes).Valid := .string _

@[simp] theorem valid_jsonText (text : List UInt8) : (jsonText text).Valid := .string _

@[simp] theorem valid_array_iff {elements : List Json.Value} :
    (Json.Value.array elements).Valid ↔ ∀ v ∈ elements, v.Valid := by
  constructor
  · intro h
    cases h with
    | array h => exact h
  · exact .array

theorem valid_infoValue (r : EwfReader) : (infoValue r).Valid := by
  simp [infoValue]

theorem valid_verifyValue (v : VerifyResult) : (verifyValue v).Valid := by
  simp [verifyValue]

theorem valid_sectionValue (segment : ℕ) (s : Section) : (sectionValue segment s).Valid := by
  simp [sectionValue]

theorem valid_searchValue (result : SearchResult) : (searchValue result).Valid := by
  simp [searchValue]

section Valid

variable {Name : Type} {T : Texts} {fs : FileSystem Path Name UInt8} {C : Crates}
  {path : List Char} {v : Json.Value}

theorem valid_handleEwfInfo (h : handleEwfInfo T fs C path = .ok v) : v.Valid := by
  obtain ⟨r, -, hv⟩ := except_bind_eq_ok_iff.mp h
  obtain rfl := Except.ok.inj hv
  exact valid_infoValue r

theorem valid_handleEwfVerify {threads : ℕ} (h : handleEwfVerify T fs C threads path = .ok v) :
    v.Valid := by
  obtain ⟨r, -, h⟩ := except_bind_eq_ok_iff.mp h
  obtain ⟨result, -, hv⟩ := except_bind_eq_ok_iff.mp h
  obtain rfl := Except.ok.inj hv
  exact valid_verifyValue result

theorem valid_handleEwfReadSectors {offset : UInt64} {length : ℕ}
    (h : handleEwfReadSectors T fs C path offset length = .ok v) : v.Valid := by
  obtain ⟨r, -, h⟩ := except_bind_eq_ok_iff.mp h
  split_ifs at h
  obtain ⟨position, -, h⟩ := except_bind_eq_ok_iff.mp h
  obtain ⟨bytes, -, hv⟩ := except_bind_eq_ok_iff.mp h
  obtain rfl := Except.ok.inj hv
  simp

theorem valid_listFile {p : Path × ℕ} {vs : List Json.Value} (h : listFile T fs p = .ok vs) :
    ∀ v ∈ vs, v.Valid := by
  rw [listFile] at h
  split at h
  · cases h
  · split at h
    · cases h
    · obtain rfl := Except.ok.inj h
      intro v hv
      obtain ⟨s, -, rfl⟩ := List.mem_map.mp hv
      exact valid_sectionValue _ _

theorem valid_handleEwfListSectionsAt (h : handleEwfListSectionsAt T fs path = .ok v) :
    v.Valid := by
  rw [handleEwfListSectionsAt] at h
  split at h
  · cases h
  · cases h
  · obtain ⟨sections, hsections, hv⟩ := except_bind_eq_ok_iff.mp h
    obtain rfl := Except.ok.inj hv
    have hall : ∀ v ∈ sections.flatten, v.Valid := by
      intro v hv
      obtain ⟨vs, hvs, hmem⟩ := List.mem_flatten.mp hv
      obtain ⟨i, hi, rfl⟩ := List.getElem_of_mem hvs
      have hfiles := List.forall₂_iff_get.mp (mapM_eq_ok_iff.mp hsections)
      exact valid_listFile (hfiles.2 i (hfiles.1 ▸ hi) hi) v hmem
    simpa using hall

theorem valid_handleEwfSearchAt {pattern : List Char} {maxResults : ℕ}
    (h : handleEwfSearchAt T fs C path pattern maxResults = .ok v) : v.Valid := by
  rw [handleEwfSearchAt] at h
  split_ifs at h
  split at h
  · cases h
  · cases h
  · generalize handleEwfSearch C (openPath fs C (pathOf path)) pattern maxResults = result at h
    cases result with
    | error e => cases h
    | ok result =>
        obtain rfl := Except.ok.inj h
        exact valid_searchValue result

end Valid

/-! ### Answers about a media -/

section Media

variable {C : Crates} {r : EwfReader} {blocks : List (List UInt8)} (T : Texts)

/-- A seek to an offset that a signed number holds goes there. -/
theorem seekStart_eq {offset : UInt64} (h : offset.toNat < Cursor.half) :
    seekStart r offset = .ok offset.toNat := by
  rw [seekStart, Cursor.seek_start h]
  rfl

/-- **`read_exact` of a reader** is a slice of the media. -/
theorem readExactFrom_eq (h : r.Stores C blocks) {st : ReaderState} (hst : r.Reachable C st)
    {position n fuel : ℕ} (hfuel : n ≤ fuel) (hroom : position + n ≤ blocks.flatten.length) :
    readExactFrom T C r fuel st position n = .ok ((blocks.flatten.drop position).take n) := by
  have hnone : ∀ fuel st position, readExactFrom T C r fuel st position 0 = .ok [] := by
    intro fuel st position
    cases fuel with
    | zero => rfl
    | succ fuel => rw [readExactFrom, if_pos rfl]
  cases n with
  | zero => rw [hnone, List.take_zero]
  | succ n =>
      obtain ⟨fuel, rfl⟩ : ∃ k, fuel = k + 1 := ⟨fuel - 1, by omega⟩
      obtain ⟨out, hout⟩ : ∃ out, out = (blocks.flatten.drop position).take (n + 1) := ⟨_, rfl⟩
      have hlen : out.length = n + 1 := by
        rw [hout, List.length_take, List.length_drop]
        omega
      have hne : out ≠ [] := by
        rintro rfl
        cases hlen
      have hread := h.readAt_eq hst position (n + 1)
      rw [readExactFrom, if_neg (Nat.succ_ne_zero n), ← hout]
      rw [← hout] at hread
      -- The first read gives all of it.
      rcases hres : r.readAt C st position (n + 1) with ⟨result, st'⟩
      rw [hres] at hread
      obtain rfl : result = .ok out := hread
      simp only [if_neg hne, hlen, Nat.sub_self, hnone]
      exact congrArg Except.ok (List.append_nil _)

end Media

end Cli

end EwfForensic

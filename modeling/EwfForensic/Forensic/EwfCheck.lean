import EwfForensic.Forensic.Display
import EwfForensic.Lib.Json

/-!
# The JSON Report of the Checker

`print_json` and `json_escape` of `forensic/src/bin/ewf_check.rs`: the report is put together by
hand, with escapes of its own.

* `charText_escapeChar` — each character is escaped as JSON has it.
* `items_anomaliesJson` — the loop over the anomalies writes an array of objects.
* `print_json_faithful` — the report is valid JSON, and holds what it is about.
-/

namespace EwfForensic

/-- `severity_label`. -/
def severityLabel : Severity → List Char
  | .info => "info".toList
  | .low => "low".toList
  | .medium => "medium".toList
  | .high => "high".toList
  | .critical => "critical".toList

/-- `anomaly_kind`. -/
def anomalyKind : EwfIntegrityAnomaly → List Char
  | .invalidSignature => "InvalidSignature".toList
  | .segmentNumberZero => "SegmentNumberZero".toList
  | .sectionDescriptorCrcMismatch .. => "SectionDescriptorCrcMismatch".toList
  | .sectionChainBroken .. => "SectionChainBroken".toList
  | .sectionGapNonZero .. => "SectionGapNonZero".toList
  | .volumeSectionMissing => "VolumeSectionMissing".toList
  | .unknownSectionType .. => "UnknownSectionType".toList
  | .doneSectionMissing => "DoneSectionMissing".toList
  | .sectorsSectionMissing => "SectorsSectionMissing".toList
  | .tableSectionMissing => "TableSectionMissing".toList
  | .chunkSizeInvalid .. => "ChunkSizeInvalid".toList
  | .sectorCountMismatch .. => "SectorCountMismatch".toList
  | .bytesPerSectorInvalid .. => "BytesPerSectorInvalid".toList
  | .tableChunkCountMismatch .. => "TableChunkCountMismatch".toList
  | .tableHeaderAdler32Mismatch .. => "TableHeaderAdler32Mismatch".toList
  | .tableEntryOutOfBounds .. => "TableEntryOutOfBounds".toList
  | .tableEntryOutsideSectorsRange .. => "TableEntryOutsideSectorsRange".toList
  | .sectionGapZero .. => "SectionGapZero".toList
  | .hashMismatch .. => "HashMismatch".toList
  | .hashSectionMissing => "HashSectionMissing".toList
  | .table2Mismatch .. => "Table2Mismatch".toList
  | .badSectorsPresent .. => "BadSectorsPresent".toList
  | .segmentOutOfOrder .. => "SegmentOutOfOrder".toList
  | .digestSha1Mismatch .. => "DigestSha1Mismatch".toList
  | .digestSha256Mismatch .. => "DigestSha256Mismatch".toList
  | .externalMd5Mismatch .. => "ExternalMd5Mismatch".toList
  | .externalSha1Mismatch .. => "ExternalSha1Mismatch".toList
  | .volumeBodyCrcMismatch .. => "VolumeBodyCrcMismatch".toList
  | .mediaTypeUnknown .. => "MediaTypeUnknown".toList
  | .setIdentifierMismatch .. => "SetIdentifierMismatch".toList
  | .ewf2SectionDataHashMismatch .. => "Ewf2SectionDataHashMismatch".toList
  | .ewf2EncryptedSection .. => "Ewf2EncryptedSection".toList
  | .ewf2HashSectionMissing => "Ewf2HashSectionMissing".toList
  | .ewf2MediaInfoMissing => "Ewf2MediaInfoMissing".toList
  | .ewf2ChunkTableChecksumMismatch .. => "Ewf2ChunkTableChecksumMismatch".toList
  | .chunkChecksumMismatch .. => "ChunkChecksumMismatch".toList
  | .chunkDecompressionError .. => "ChunkDecompressionError".toList
  | .unsupportedCompressionAlgorithm .. => "UnsupportedCompressionAlgorithm".toList
  | .externalSha256Mismatch .. => "ExternalSha256Mismatch".toList
  | .ewf2MediaInfoParseFailed => "Ewf2MediaInfoParseFailed".toList

/-- The arms of `json_escape`. -/
def escapeChar (c : Char) : List Char :=
  if c = '"' then ['\\', '"']
  else if c = '\\' then ['\\', '\\']
  else if c = '\n' then ['\\', 'n']
  else if c = '\r' then ['\\', 'r']
  else if c = '\t' then ['\\', 't']
  else if c.toNat < 0x20 then '\\' :: 'u' :: Hex.padded 4 c.toNat
  else [c]

/-- `json_escape`. -/
def jsonEscape (s : List Char) : List Char := s.flatMap escapeChar

/-- The object of an anomaly. -/
def anomalyJson (anomaly : EwfIntegrityAnomaly) : List Char :=
  "\x7b\"severity\": \"".toList ++ severityLabel anomaly.severity ++ "\", \"kind\": \"".toList ++
    anomalyKind anomaly ++ "\", \"message\": \"".toList ++ jsonEscape anomaly.display ++
    "\"\x7d".toList

/-- The loop of `print_json`: a separator and an object for each anomaly. -/
def anomaliesJson (visible : List EwfIntegrityAnomaly) : List Char :=
  visible.zipIdx.flatMap fun (anomaly, i) =>
    (if i = 0 then "\n" else ",\n").toList ++ "    ".toList ++ anomalyJson anomaly

/-- The object of the digests. -/
def hashesObject (h : ComputedHashes) : List Char :=
  "\x7b\n    \"md5\": \"".toList ++ EwfIntegrityAnomaly.hex h.md5 ++
    "\",\n    \"sha1\": \"".toList ++ EwfIntegrityAnomaly.hex h.sha1 ++
    "\",\n    \"sha256\": \"".toList ++ EwfIntegrityAnomaly.hex h.sha256 ++ "\"\n  \x7d".toList

/-- The part of the report about the digests. -/
def hashesJson (hashes : Option ComputedHashes) : List Char :=
  match hashes with
  | none => []
  | some h => ",\n  \"hashes\": ".toList ++ hashesObject h

/-- The string that `print_json` builds. -/
def reportJson (visible : List EwfIntegrityAnomaly) (hashes : Option ComputedHashes) : List Char :=
  "\x7b\n  \"clean\": ".toList ++ (toString visible.isEmpty).toList ++
    ",\n  \"anomaly_count\": ".toList ++ decimal visible.length ++
    ",\n  \"anomalies\": [".toList ++ anomaliesJson visible ++
    (if visible.isEmpty then [] else "\n  ".toList) ++ "]".toList ++ hashesJson hashes ++
    "\n\x7d".toList

/-- `print_json`: what it prints. -/
def printJson (visible : List EwfIntegrityAnomaly) (hashes : Option ComputedHashes) : List Char :=
  reportJson visible hashes ++ ['\n']

/-! ### What the report holds -/

/-- The value of an anomaly's object. -/
def anomalyValue (anomaly : EwfIntegrityAnomaly) : Json.Value :=
  .object [("severity".toList, .string (severityLabel anomaly.severity)),
    ("kind".toList, .string (anomalyKind anomaly)), ("message".toList, .string anomaly.display)]

/-- The value of the digests. -/
def hashesValue (h : ComputedHashes) : Json.Value :=
  .object [("md5".toList, .string (EwfIntegrityAnomaly.hex h.md5)),
    ("sha1".toList, .string (EwfIntegrityAnomaly.hex h.sha1)),
    ("sha256".toList, .string (EwfIntegrityAnomaly.hex h.sha256))]

/-- The value of a report. -/
def reportValue (visible : List EwfIntegrityAnomaly) (hashes : Option ComputedHashes) :
    Json.Value :=
  .object ([("clean".toList, .bool visible.isEmpty), ("anomaly_count".toList, .nat visible.length),
    ("anomalies".toList, .array (visible.map anomalyValue))] ++
    hashes.toList.map fun h => ("hashes".toList, hashesValue h))

/-! ### Strings of the report -/

/-- **Each character is escaped** to a text that stands for it. -/
theorem charText_escapeChar (c : Char) : Json.CharText (escapeChar c) c := by
  rw [escapeChar]
  split_ifs with hquote hback hfeed hreturn htab hctl
  · obtain rfl := hquote
    exact Json.charText_escape fun _ => rfl
  · obtain rfl := hback
    exact Json.charText_escape fun _ => rfl
  · obtain rfl := hfeed
    exact Json.charText_escape fun _ => rfl
  · obtain rfl := hreturn
    exact Json.charText_escape fun _ => rfl
  · obtain rfl := htab
    exact Json.charText_escape fun _ => rfl
  · have hunicode := Json.charText_unicode (n := c.toNat) (by omega)
    rwa [Char.ofNat_toNat] at hunicode
  · exact Json.charText_self hquote hback (by omega)

/-- A text that is escaped in quotes is read back. -/
theorem spells_jsonEscape (s : List Char) : Json.Spells (jsonEscape s) s :=
  Json.spells_flatMap fun c _ => charText_escapeChar c

/-- A literal without characters to escape is its own string. -/
theorem spells_literal {l : List Char} (h : l.all Json.isPlain = true) :
    Json.Spells (String.ofList l).toList (String.ofList l).toList := by
  rw [String.toList_ofList]
  exact Json.spells_plain h

theorem spells_severityLabel (s : Severity) : Json.Spells (severityLabel s) (severityLabel s) := by
  cases s <;> exact spells_literal (by decide)

theorem spells_anomalyKind (a : EwfIntegrityAnomaly) :
    Json.Spells (anomalyKind a) (anomalyKind a) := by
  cases a <;> exact spells_literal (by decide)

/-! ### The parts of the report -/

/-- A member with a space before its value. -/
theorem reads_spacedMember {value : Json.Reader Json.Value} (key : List Char) {s : List Char}
    {v : Json.Value} (hkey : key.all Json.isPlain = true) (h : Json.Reads value s v) :
    Json.Reads (Json.member value) ('"' :: key ++ '"' :: ':' :: ' ' :: s) (key, v) := by
  have hspace : Json.Blank [' '] := by decide
  have hmember := Json.reads_member (Json.spells_plain hkey) hspace h
  rwa [List.append_assoc] at hmember

/-- **The object of an anomaly is read back.** -/
theorem reads_anomalyJson (a : EwfIntegrityAnomaly) (depth : ℕ) :
    Json.Reads (Json.value (depth + 2)) (anomalyJson a) (anomalyValue a) := by
  have hspace : Json.Blank [' '] := by decide
  have hseverity := reads_spacedMember ['s', 'e', 'v', 'e', 'r', 'i', 't', 'y'] (by decide)
    (Json.reads_string (spells_severityLabel a.severity) depth)
  have hkind := reads_spacedMember ['k', 'i', 'n', 'd'] (by decide)
    (Json.reads_string (spells_anomalyKind a) depth)
  have hmessage := reads_spacedMember ['m', 'e', 's', 's', 'a', 'g', 'e'] (by decide)
    (Json.reads_string (spells_jsonEscape a.display) depth)
  have hobject := Json.reads_object (.cons Json.blank_nil hseverity Json.blank_nil
    (.cons hspace hkind Json.blank_nil (.last hspace hmessage Json.blank_nil)))
  unfold anomalyJson anomalyValue
  simpa only [List.append_assoc, List.cons_append, List.nil_append, String.reduceToList] using
    hobject

/-- Only the first separator has no comma. -/
theorem anomaliesJson_cons (a : EwfIntegrityAnomaly) (as : List EwfIntegrityAnomaly) :
    anomaliesJson (a :: as) = '\n' :: "    ".toList ++ anomalyJson a ++
      as.flatMap fun b => ',' :: '\n' :: "    ".toList ++ anomalyJson b := by
  have hlater : ∀ n, (as.zipIdx (n + 1)).flatMap (fun p : EwfIntegrityAnomaly × ℕ =>
      (if p.2 = 0 then "\n" else ",\n").toList ++ "    ".toList ++ anomalyJson p.1) =
        as.flatMap fun b => ',' :: '\n' :: "    ".toList ++ anomalyJson b := by
    intro n
    induction as generalizing n with
    | nil => rfl
    | cons b bs ih =>
        rw [List.zipIdx_cons, List.flatMap_cons, List.flatMap_cons, ih,
          if_neg (Nat.succ_ne_zero n)]
        rfl
  rw [anomaliesJson, List.zipIdx_cons, List.flatMap_cons, hlater 0]
  rfl

/-- **The loop writes an array** of one object for each anomaly, in order. -/
theorem items_anomaliesJson (a : EwfIntegrityAnomaly) (as : List EwfIntegrityAnomaly)
    (depth : ℕ) :
    Json.Items (Json.value (depth + 2)) ']' (anomaliesJson (a :: as) ++ "\n  ".toList ++ [']'])
      ((a :: as).map anomalyValue) := by
  have hpre : Json.Blank ('\n' :: "    ".toList) := by decide
  have hpost : Json.Blank "\n  ".toList := by decide
  have hobject := fun b => reads_anomalyJson b depth
  rw [anomaliesJson_cons]
  induction as generalizing a with
  | nil =>
      simpa only [List.flatMap_nil, List.append_nil, List.map_cons, List.map_nil] using
        Json.Items.last hpre (hobject a) hpost
  | cons b bs ih =>
      have hmore := Json.Items.cons hpre (hobject a) Json.blank_nil (ih b)
      simpa only [List.flatMap_cons, List.append_assoc, List.cons_append, List.nil_append,
        List.map_cons] using hmore

theorem reads_anomaliesJson (visible : List EwfIntegrityAnomaly) (depth : ℕ) :
    Json.Reads (Json.value (depth + 3))
      ('[' :: (anomaliesJson visible ++ (if visible.isEmpty then [] else "\n  ".toList) ++ [']']))
      (.array (visible.map anomalyValue)) := by
  cases visible with
  | nil => exact Json.reads_emptyArray _
  | cons a as => exact Json.reads_array (items_anomaliesJson a as depth)

theorem spells_hex (bytes : List UInt8) :
    Json.Spells (EwfIntegrityAnomaly.hex bytes) (EwfIntegrityAnomaly.hex bytes) := by
  refine Json.spells_plain (List.all_eq_true.mpr fun c hc => ?_)
  obtain ⟨b, -, hb⟩ := List.mem_flatMap.mp hc
  have hdigit := Hex.digit_ne_none (Hex.value_padded 2 b.toNat) c hb
  rw [Json.isPlain, decide_eq_true_eq]
  refine ⟨?_, ?_, ?_⟩
  · rintro rfl
    exact hdigit rfl
  · rintro rfl
    exact hdigit rfl
  · by_contra hlow
    refine hdigit ?_
    rw [Hex.digit, if_neg (by omega), if_neg (by omega), if_neg (by omega)]

theorem reads_hashesObject (h : ComputedHashes) (depth : ℕ) :
    Json.Reads (Json.value (depth + 2)) (hashesObject h) (hashesValue h) := by
  have hpre : Json.Blank ['\n', ' ', ' ', ' ', ' '] := by decide
  have hpost : Json.Blank ['\n', ' ', ' '] := by decide
  have hmd5 := reads_spacedMember ['m', 'd', '5'] (by decide)
    (Json.reads_string (spells_hex h.md5) depth)
  have hsha1 := reads_spacedMember ['s', 'h', 'a', '1'] (by decide)
    (Json.reads_string (spells_hex h.sha1) depth)
  have hsha256 := reads_spacedMember ['s', 'h', 'a', '2', '5', '6'] (by decide)
    (Json.reads_string (spells_hex h.sha256) depth)
  have hobject := Json.reads_object (.cons hpre hmd5 Json.blank_nil
    (.cons hpre hsha1 Json.blank_nil (.last hpre hsha256 hpost)))
  unfold hashesObject hashesValue
  simpa only [List.append_assoc, List.cons_append, List.nil_append, String.reduceToList] using
    hobject

theorem reads_reportJson (visible : List EwfIntegrityAnomaly) (hashes : Option ComputedHashes)
    (depth : ℕ) :
    Json.Reads (Json.value (depth + 4)) (reportJson visible hashes)
      (reportValue visible hashes) := by
  have hpre : Json.Blank ['\n', ' ', ' '] := by decide
  have hpost : Json.Blank ['\n'] := by decide
  have hclean := reads_spacedMember ['c', 'l', 'e', 'a', 'n'] (by decide)
    (Json.reads_bool visible.isEmpty (depth + 2))
  have hcount := reads_spacedMember
    ['a', 'n', 'o', 'm', 'a', 'l', 'y', '_', 'c', 'o', 'u', 'n', 't'] (by decide)
    (Json.reads_nat visible.length (depth + 2))
  have hanomalies := reads_spacedMember ['a', 'n', 'o', 'm', 'a', 'l', 'i', 'e', 's'] (by decide)
    (reads_anomaliesJson visible depth)
  unfold reportJson reportValue hashesJson decimal
  cases hashes with
  | none =>
      have hobject := Json.reads_object (.cons hpre hclean Json.blank_nil
        (.cons hpre hcount Json.blank_nil (.last hpre hanomalies hpost)))
      simpa only [List.append_assoc, List.cons_append, List.nil_append, String.reduceToList,
        Option.toList_none, List.map_nil] using hobject
  | some h =>
      have hhashes := reads_spacedMember ['h', 'a', 's', 'h', 'e', 's'] (by decide)
        (reads_hashesObject h (depth + 1))
      have hobject := Json.reads_object (.cons hpre hclean Json.blank_nil
        (.cons hpre hcount Json.blank_nil (.cons hpre hanomalies Json.blank_nil
          (.last hpre hhashes hpost))))
      simpa only [List.append_assoc, List.cons_append, List.nil_append, String.reduceToList,
        Option.toList_some, List.map_cons, List.map_nil] using hobject

/-- **The report is valid JSON and holds what it is about**: it is one object, its array has the
object of each anomaly in order, and the message there is the text of the anomaly, whatever that is
made of. -/
theorem print_json_faithful (visible : List EwfIntegrityAnomaly) (hashes : Option ComputedHashes) :
    Json.parse (printJson visible hashes) = some (reportValue visible hashes) := by
  -- The nesting is four deep, and every bracket is a character.
  obtain ⟨depth, hdepth⟩ : ∃ depth, (printJson visible hashes).length = depth + 4 := by
    refine ⟨(printJson visible hashes).length - 4, ?_⟩
    have hlen : 4 ≤ (printJson visible hashes).length := by
      unfold printJson reportJson
      simp only [List.length_append, String.reduceToList, List.length_cons]
      omega
    omega
  have hfeed : Json.Blank ['\n'] := by decide
  have hreads := reads_reportJson visible hashes depth
  rw [← hdepth] at hreads
  exact Json.parse_of_reads hfeed hreads

end EwfForensic

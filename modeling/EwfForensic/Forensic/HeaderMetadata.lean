import Mathlib.Data.List.DropRight
import EwfForensic.Forensic.IntegrityV2

/-!
# Acquisition Metadata

`parse_header_section` and `parse_header_text` of `forensic/src/integrity.rs`: the metadata in the
zlib-compressed `header` section, which is the first section of a segment. They share nothing with
the parser of the reader but the descriptor.

A string is its UTF-8 bytes. The delimiters are ASCII, so `lines`, `trimEndMatches` and
`List.splitOn` on bytes are the string methods of the source.
-/

namespace EwfForensic.Integrity

open Octets

/-- `EwfHeaderMetadata`. -/
structure EwfHeaderMetadata where
  description : List UInt8 := []
  caseNumber : List UInt8 := []
  evidenceNumber : List UInt8 := []
  examinerName : List UInt8 := []
  acquisitionDate : List UInt8 := []
  systemDate : List UInt8 := []
  passwordHash : List UInt8 := []
  acquisitionSoftware : List UInt8 := []
  deriving DecidableEq

/-- `read_to_string`: the decoded stream, unless it is not UTF-8. -/
def readToString (C : Crates) (compressed : List UInt8) : Option (List UInt8) :=
  (C.zlib.readToEnd compressed).filter fun bytes => ByteArray.validateUTF8 ⟨bytes.toArray⟩

/-- `str::lines`: the pieces between line feeds, each without the carriage return before its line
feed; an empty last piece is none. -/
def lines (text : List UInt8) : List (List UInt8) :=
  let pieces := text.splitOn 10
  pieces.dropLast.map (fun line => if line.getLast? = some 13 then line.dropLast else line) ++
    (pieces.getLast?.filter (· ≠ [])).toList

/-- `str::trim_end_matches`. -/
def trimEndMatches (c : UInt8) (text : List UInt8) : List UInt8 := text.rdropWhile (· = c)

/-- Store one value of the header text under its key; unknown keys are ignored. -/
def EwfHeaderMetadata.store (m : EwfHeaderMetadata) (key val : List UInt8) : EwfHeaderMetadata :=
  if key = [97] then { m with description := val }
  else if key = [99] then { m with caseNumber := val }
  else if key = [101] then { m with evidenceNumber := val }
  else if key = [116] then { m with examinerName := val }
  else if key = [109] then { m with acquisitionDate := val }
  else if key = [117] then { m with systemDate := val }
  else if key = [112] then { m with passwordHash := val }
  else if key = [114] then { m with acquisitionSoftware := val }
  else m

/-- The metadata of a key line and a value line. A key without a value has an empty one. -/
def metadataOf (keyLine valLine : List UInt8) : EwfHeaderMetadata :=
  let vals := valLine.splitOn 9
  (keyLine.splitOn 9).zipIdx.foldl (fun m p => m.store p.1 (vals[p.2]?.getD [])) {}

/-- The lines that `parse_header_text` counts. -/
def headerLines (text : List UInt8) : List (List UInt8) :=
  ((lines text).map (trimEndMatches 13)).filter (· ≠ [])

/-- `parse_header_text`. -/
def parseHeaderText (text : List UInt8) : Option EwfHeaderMetadata :=
  let lines := headerLines text
  if lines.length < 4 then none else some (metadataOf (lines.getD 2 []) (lines.getD 3 []))

-- A version line, a main line, the keys `a` and `e`, their values `D` and `7`.
example : parseHeaderText [49, 13, 10, 109, 13, 10, 97, 9, 101, 13, 10, 68, 9, 55, 13, 10] =
    some { description := [68], evidenceNumber := [55] } := by
  decide +kernel

/-- `parse_header_section`. -/
def parseHeaderSection (C : Crates) (data : List UInt8) : Option EwfHeaderMetadata :=
  if data.length < fileHeaderSize + sectionDescriptorSize then none
  else
    match SectionDescriptor.parse (data.drop fileHeaderSize) fileHeaderSize with
    | .error _ => none
    | .ok desc =>
      if desc.sectionType ≠ .header then none
      else
        let bodyStart := satAdd fileHeaderSize sectionDescriptorSize
        let bodyEnd := min (satAdd fileHeaderSize desc.sectionSize) data.length
        if bodyStart ≥ bodyEnd then none
        else
          match readToString C ((data.drop bodyStart).take (bodyEnd - bodyStart)) with
          | none => none
          | some text => parseHeaderText text

end EwfForensic.Integrity

namespace EwfForensic

/-- `EwfIntegrity::header_metadata`: the metadata of the first segment that has any. -/
def EwfIntegrity.headerMetadata (C : Crates) (self : EwfIntegrity) :
    Option Integrity.EwfHeaderMetadata :=
  self.bytes.findSome? (Integrity.parseHeaderSection C)

end EwfForensic

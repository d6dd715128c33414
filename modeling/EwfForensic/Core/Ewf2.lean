import EwfForensic.Core.Open
import EwfForensic.Core.Text

/-!
# EWF v2 Structures

`core/src/ewf2.rs`, and the two parsers of `core/src/reader.rs` that read section text: the file
header, the 64-byte section descriptor that follows its section's data, chunk tables, and the
geometry and case fields of `device_info` and `case_data`.

* `Ewf2FileHeader.parse`, `Ewf2SectionDescriptor.parse`, `Ewf2TableHeader.parse`,
  `Ewf2TableEntry.parse` — the parsers, with a lemma each that says what they return on a long
  enough buffer.
* `Ewf2Geometry`, `parseEwf2DeviceInfo` — the geometry that `device_info` declares, and what an
  open makes of it. The products are those of 64-bit numbers without overflow checks.
* `parseEwf2CaseData` — the case fields.
-/

namespace EwfForensic

open Octets

/-! ### File header -/

/-- `CompressionMethod`. -/
inductive CompressionMethod where
  | none
  | zlib
  | bzip2
  deriving DecidableEq, Repr

/-- `CompressionMethod::from_u16`. -/
def CompressionMethod.fromU16 (val : ℕ) : Except EwfError CompressionMethod :=
  if val = 0 then .ok .none
  else if val = 1 then .ok .zlib
  else if val = 2 then .ok .bzip2
  else .error (.parse ("unknown EWF2 compression method: " ++ toString val))

/-- `FILE_HEADER_SIZE` of EWF v2. -/
abbrev ewf2FileHeaderSize : ℕ := 32

/-- The parsed 32-byte file header. -/
structure Ewf2FileHeader where
  isPhysical : Bool
  majorVersion : UInt8
  minorVersion : UInt8
  compressionMethod : CompressionMethod
  segmentNumber : ℕ
  setIdentifier : Digest.Bytes 16
  deriving DecidableEq

/-- `Ewf2FileHeader::parse`. -/
def Ewf2FileHeader.parse (buf : List UInt8) : Except EwfError Ewf2FileHeader :=
  if buf.length < ewf2FileHeaderSize then .error (.bufferTooShort ewf2FileHeaderSize buf.length)
  else if buf.take 8 ≠ evf2Signature ∧ buf.take 8 ≠ lef2Signature then
    .error (.invalidSignature (buf.take 8))
  else
    (CompressionMethod.fromU16 (leU16 buf 10)).map fun compression =>
      { isPhysical := buf.take 8 = evf2Signature
        majorVersion := buf.getD 8 0
        minorVersion := buf.getD 9 0
        compressionMethod := compression
        segmentNumber := leU32 buf 12
        setIdentifier := Digest.bytesAt 16 buf 16 }

/-! ### Section descriptor -/

/-- `Ewf2SectionType`. -/
inductive Ewf2SectionType where
  | deviceInfo | caseData | sectorData | sectorTable | errorTable | sessionTable | incrementData
  | md5Hash | sha1Hash | restartData | encryptionKeys | memoryExtents | next | finalInfo | done
  | analyticalData | singleFilesData
  | unknown (val : ℕ)
  deriving DecidableEq, Repr

/-- `Ewf2SectionType::from_u32`. -/
def Ewf2SectionType.fromU32 (val : ℕ) : Ewf2SectionType :=
  match val with
  | 0x01 => .deviceInfo
  | 0x02 => .caseData
  | 0x03 => .sectorData
  | 0x04 => .sectorTable
  | 0x05 => .errorTable
  | 0x06 => .sessionTable
  | 0x07 => .incrementData
  | 0x08 => .md5Hash
  | 0x09 => .sha1Hash
  | 0x0A => .restartData
  | 0x0B => .encryptionKeys
  | 0x0C => .memoryExtents
  | 0x0D => .next
  | 0x0E => .finalInfo
  | 0x0F => .done
  | 0x10 => .analyticalData
  | 0x20 => .singleFilesData
  | other => .unknown other

/-- `SECTION_DESCRIPTOR_SIZE` of EWF v2. -/
abbrev ewf2SectionDescriptorSize : ℕ := 64

/-- The parsed section descriptor, at file position `offset`. -/
structure Ewf2SectionDescriptor where
  sectionType : Ewf2SectionType
  dataFlags : ℕ
  previousOffset : ℕ
  dataSize : ℕ
  descriptorSize : ℕ
  paddingSize : ℕ
  dataIntegrityHash : Digest.Bytes 16
  offset : ℕ
  deriving DecidableEq

/-- The descriptor that a 64-byte buffer holds. -/
def Ewf2SectionDescriptor.ofBytes (buf : List UInt8) (offset : ℕ) : Ewf2SectionDescriptor where
  sectionType := Ewf2SectionType.fromU32 (leU32 buf 0)
  dataFlags := leU32 buf 4
  previousOffset := leU64 buf 8
  dataSize := leU64 buf 16
  descriptorSize := leU32 buf 24
  paddingSize := leU32 buf 28
  dataIntegrityHash := Digest.bytesAt 16 buf 32
  offset := offset

/-- `Ewf2SectionDescriptor::parse`. -/
def Ewf2SectionDescriptor.parse (buf : List UInt8) (offset : ℕ) :
    Except EwfError Ewf2SectionDescriptor :=
  if buf.length < ewf2SectionDescriptorSize then
    .error (.bufferTooShort ewf2SectionDescriptorSize buf.length)
  else .ok (Ewf2SectionDescriptor.ofBytes buf offset)

theorem Ewf2SectionDescriptor.parse_of_le {buf : List UInt8} {offset : ℕ}
    (h : ewf2SectionDescriptorSize ≤ buf.length) :
    Ewf2SectionDescriptor.parse buf offset = .ok (Ewf2SectionDescriptor.ofBytes buf offset) :=
  if_neg (by omega)

/-- `is_encrypted`: bit 1 of the flags. -/
def Ewf2SectionDescriptor.isEncrypted (d : Ewf2SectionDescriptor) : Bool := d.dataFlags / 2 % 2 = 1

/-! ### Chunk tables -/

/-- `TABLE_ENTRY_SIZE`. -/
abbrev ewf2TableEntrySize : ℕ := 16

/-- A chunk-table entry. -/
structure Ewf2TableEntry where
  chunkDataOffset : ℕ
  chunkDataSize : ℕ
  flags : ℕ
  deriving DecidableEq, Repr

/-- The entry that a 16-byte buffer holds. -/
def Ewf2TableEntry.ofBytes (buf : List UInt8) : Ewf2TableEntry where
  chunkDataOffset := leU64 buf 0
  chunkDataSize := leU32 buf 8
  flags := leU32 buf 12

/-- `Ewf2TableEntry::parse`. -/
def Ewf2TableEntry.parse (buf : List UInt8) : Except EwfError Ewf2TableEntry :=
  if buf.length < ewf2TableEntrySize then .error (.bufferTooShort ewf2TableEntrySize buf.length)
  else .ok (Ewf2TableEntry.ofBytes buf)

theorem Ewf2TableEntry.parse_of_le {buf : List UInt8} (h : ewf2TableEntrySize ≤ buf.length) :
    Ewf2TableEntry.parse buf = .ok (Ewf2TableEntry.ofBytes buf) :=
  if_neg (by omega)

/-- `is_compressed`: bit 0 of the flags. -/
def Ewf2TableEntry.isCompressed (e : Ewf2TableEntry) : Bool := e.flags % 2 = 1

/-- `Ewf2TableHeader`. -/
structure Ewf2TableHeader where
  firstChunk : ℕ
  entryCount : ℕ
  deriving DecidableEq, Repr

/-- The header that a 32-byte buffer holds. -/
def Ewf2TableHeader.ofBytes (buf : List UInt8) : Ewf2TableHeader where
  firstChunk := leU64 buf 0
  entryCount := leU32 buf 8

/-- `Ewf2TableHeader::parse`. -/
def Ewf2TableHeader.parse (buf : List UInt8) : Except EwfError Ewf2TableHeader :=
  if buf.length < 32 then .error (.bufferTooShort 32 buf.length)
  else .ok (Ewf2TableHeader.ofBytes buf)

theorem Ewf2TableHeader.parse_of_le {buf : List UInt8} (h : 32 ≤ buf.length) :
    Ewf2TableHeader.parse buf = .ok (Ewf2TableHeader.ofBytes buf) :=
  if_neg (by omega)

/-! ### Device information -/

/-- The geometry that a `device_info` section declares, with the values that stand for missing
fields. -/
structure Ewf2Geometry where
  bytesPerSector : ℕ := 512
  sectorsPerChunk : ℕ := 64
  totalSectors : ℕ := 0
  deriving DecidableEq, Repr

/-- Store one named value; a value that is no 64-bit number and unknown names are ignored. -/
def Ewf2Geometry.setField (g : Ewf2Geometry) (p : List Char × List Char) : Ewf2Geometry :=
  match parseU64 p.2 with
  | none => g
  | some v =>
    if p.1 = ['b'] then { g with bytesPerSector := v }
    else if p.1 = ['s', 'c'] then { g with sectorsPerChunk := v }
    else if p.1 = ['t', 's'] then { g with totalSectors := v }
    else g

/-- The geometry of a `device_info` text; `none` when the text has no fields. -/
def ewf2Geometry (raw : List UInt8) : Option Ewf2Geometry :=
  (ewf2Fields raw).map fun fields => fields.foldl Ewf2Geometry.setField {}

/-- A product of 64-bit numbers without overflow checks. -/
def wrappingMul (a b : ℕ) : ℕ := a * b % 18446744073709551616

theorem wrappingMul_eq_iff {a b : ℕ} : wrappingMul a b = a * b ↔ a * b ≤ u64Max := by
  rw [wrappingMul, u64Max, Nat.mod_eq_iff_lt (by decide), Nat.lt_iff_le_pred (by decide)]

/-- `parse_ewf2_device_info`: the chunk size and the total size after the section. -/
def parseEwf2DeviceInfo (raw : List UInt8) (chunkSize totalSize : ℕ) : ℕ × ℕ :=
  match ewf2Geometry raw with
  | none => (chunkSize, totalSize)
  | some g =>
    let computedChunkSize := wrappingMul g.bytesPerSector g.sectorsPerChunk
    (if computedChunkSize > 0 then computedChunkSize else chunkSize,
      if g.totalSectors > 0 ∧ g.bytesPerSector > 0 then
        wrappingMul g.bytesPerSector g.totalSectors
      else totalSize)

/-! ### Case data -/

/-- The bytes of a text. -/
def textBytes (text : List Char) : List UInt8 := (String.ofList text).toUTF8.data.toList

/-- Store a case value under its field code; empty values and unknown codes are ignored. -/
def EwfMetadata.setCaseField (m : EwfMetadata) (p : List Char × List Char) : EwfMetadata :=
  let val := textBytes p.2
  if p.2.isEmpty then m
  else if p.1 = ['c', 'n'] then { m with caseNumber := some val }
  else if p.1 = ['e', 'n'] then { m with evidenceNumber := some val }
  else if p.1 = ['e', 'x'] then { m with examiner := some val }
  else if p.1 = ['d', 'e'] then { m with description := some val }
  else if p.1 = ['n', 't'] then { m with notes := some val }
  else if p.1 = ['a', 'v'] then { m with acquirySoftware := some val }
  else if p.1 = ['o', 'v'] then { m with osVersion := some val }
  else if p.1 = ['a', 'd'] then { m with acquiryDate := some val }
  else if p.1 = ['s', 'd'] then { m with systemDate := some val }
  else m

/-- `parse_ewf2_case_data`. -/
def parseEwf2CaseData (raw : List UInt8) (m : EwfMetadata) : EwfMetadata :=
  match ewf2Fields raw with
  | none => m
  | some fields => fields.foldl EwfMetadata.setCaseField m

end EwfForensic

import EwfForensic.Lib.Zlib

/-!
# Sections of an EWF v1 Segment

The structural layer of `core/src/sections.rs`, which the reader, the analyser and the
recovery tool share: the file header, the section descriptor, the volume body, the table
header and the table entry, each with its `parse` and, where it stores one, its checksum
test. `core/src/error.rs` gives the errors.

A segment is a byte string shorter than `2 ^ 63`, as every Rust slice is (`Segment`).

The message digests and the zlib decoder are third-party crates. They are the parameter
`Crates` of everything that hashes or inflates; `Crates.reference` instantiates it with the
digests of RFC 1321 and FIPS 180-4 and a decoder for stored blocks.

* `SectionType` — a descriptor's type string. The sixteen names of `KNOWN_TYPES` are
  constructors; any other type keeps its bytes.
* `SectionDescriptor.parse`, `EwfVolume.parse`, `TableHeader.parse`, `TableEntry.parse` —
  the parsers, with a lemma each that says what they return on a long enough buffer.
-/

namespace EwfForensic

open Octets

/-- The third-party digests and the zlib decoder. -/
structure Crates where
  /-- `md5::Md5` over a whole stream. -/
  md5 : List UInt8 → Digest.Bytes 16
  /-- `sha1::Sha1` over a whole stream. -/
  sha1 : List UInt8 → Digest.Bytes 20
  /-- `sha2::Sha256` over a whole stream. -/
  sha256 : List UInt8 → Digest.Bytes 32
  /-- `flate2::read::ZlibDecoder`. -/
  zlib : Zlib.Decoder

/-- The published digests, with a decoder for stored streams. -/
def Crates.reference : Crates where
  md5 := Digest.md5
  sha1 := Digest.sha1
  sha256 := Digest.sha256
  zlib := Zlib.stored

/-- A segment: a byte string that fits a slice. -/
structure Segment where
  /-- The bytes of the segment file. -/
  data : List UInt8
  /-- No slice is longer than `isize::MAX`. -/
  length_lt : data.length < 9223372036854775808

theorem Segment.length_lt_u64Max (s : Segment) : s.data.length < u64Max := by
  have h := s.length_lt
  rw [u64Max]
  omega

/-- A segment is its bytes. -/
theorem Segment.data_injective : Function.Injective Segment.data := by
  rintro ⟨xs, hxs⟩ ⟨ys, hys⟩ h
  obtain rfl : xs = ys := h
  rfl

/-! ### Little-endian readers -/

/-- `le_u16`: zero when out of range. -/
abbrev leU16 (data : List UInt8) (off : ℕ) : ℕ := leAt 2 data off

/-- `le_u32`: zero when out of range. -/
abbrev leU32 (data : List UInt8) (off : ℕ) : ℕ := leAt 4 data off

/-- `le_u64`: zero when out of range. -/
abbrev leU64 (data : List UInt8) (off : ℕ) : ℕ := leAt 8 data off

theorem leU32_lt (data : List UInt8) (off : ℕ) : leU32 data off < 4294967296 :=
  leAt_lt 4 data off

theorem leU64_le (data : List UInt8) (off : ℕ) : leU64 data off ≤ u64Max := by
  have h : leU64 data off < 18446744073709551616 := leAt_lt 8 data off
  rw [u64Max]
  omega

/-- `adler32`: the checksum of every EWF section. -/
abbrev adler32 (data : List UInt8) : ℕ := Adler32.checksum data

/-! ### Errors -/

/-- `EwfError`, the variants that an open or a read can return. -/
inductive EwfError where
  /-- An I/O error, with its text. -/
  | io (message : String)
  | invalidSignature (found : List UInt8)
  | bufferTooShort (expected got : ℕ)
  | invalidChunkSize (size : ℕ)
  | missingVolume
  /-- The text is the decoder's own. -/
  | decompression
  | segmentGap (expected got : ℕ)
  | noSegments (message : String)
  | parse (message : String)
  | encryptedNotSupported
  /-- Not an error value: the call panics on an index out of bounds. -/
  | indexPanic
  deriving DecidableEq, Repr

/-! ### Layout constants -/

/-- `EVF_SIGNATURE`. -/
def evfSignature : List UInt8 := [0x45, 0x56, 0x46, 0x09, 0x0d, 0x0a, 0xff, 0x00]

/-- `LVF_SIGNATURE`. -/
def lvfSignature : List UInt8 := [0x4c, 0x56, 0x46, 0x09, 0x0d, 0x0a, 0xff, 0x00]

/-- `EVF2_SIGNATURE`: an EWF v2 image. -/
def evf2Signature : List UInt8 := [0x45, 0x56, 0x46, 0x32, 0x0d, 0x0a, 0x81, 0x00]

/-- `LEF2_SIGNATURE`: a logical EWF v2 image. -/
def lef2Signature : List UInt8 := [0x4c, 0x45, 0x46, 0x32, 0x0d, 0x0a, 0x81, 0x00]

/-- `FILE_HEADER_SIZE`. -/
abbrev fileHeaderSize : ℕ := 13

/-- `SECTION_DESCRIPTOR_SIZE`. -/
abbrev sectionDescriptorSize : ℕ := 76

/-- `SECTION_DESCRIPTOR_CRC_OFFSET`. -/
abbrev sectionDescriptorCrcOffset : ℕ := 72

/-- `VOLUME_BODY_FULL_SIZE`. -/
abbrev volumeBodyFullSize : ℕ := 1052

/-- `VOLUME_BODY_CRC_OFFSET`. -/
abbrev volumeBodyCrcOffset : ℕ := 1048

/-- `TABLE_HEADER_SIZE`. -/
abbrev tableHeaderSize : ℕ := 24

/-- `TABLE_HEADER_CRC_OFFSET`. -/
abbrev tableHeaderCrcOffset : ℕ := 16

/-! ### File header -/

/-- Which EWF v1 container a segment file is. -/
inductive EwfKind where
  | physical
  | logical
  deriving DecidableEq, Repr

/-- The parsed 13-byte file header. -/
structure EwfFileHeader where
  segmentNumber : ℕ
  kind : EwfKind
  deriving DecidableEq, Repr

/-- Parse the file header at the front of `buf`. -/
def EwfFileHeader.parse (buf : List UInt8) : Except EwfError EwfFileHeader :=
  if buf.length < fileHeaderSize then .error (.bufferTooShort fileHeaderSize buf.length)
  else if buf.take 8 = evfSignature then .ok ⟨leU16 buf 9, .physical⟩
  else if buf.take 8 = lvfSignature then .ok ⟨leU16 buf 9, .logical⟩
  else .error (.invalidSignature (buf.take 8))

/-! ### Section descriptor -/

/-- The type string of a section descriptor. -/
inductive SectionType where
  | header | header2 | volume | disk | table | table2 | sectors | hash | digest | error2
  | session | done | next | data | ltree | ltreedata
  /-- A type outside `KNOWN_TYPES`, with its bytes. -/
  | other (raw : List UInt8)
  deriving DecidableEq, Repr

/-- `KNOWN_TYPES`. -/
def knownTypes : List SectionType :=
  [.header, .header2, .volume, .disk, .table, .table2, .sectors, .hash, .digest, .error2,
    .session, .done, .next, .data, .ltree, .ltreedata]

/-- The bytes of a type string. -/
def SectionType.name : SectionType → List UInt8
  | .header => [104, 101, 97, 100, 101, 114]
  | .header2 => [104, 101, 97, 100, 101, 114, 50]
  | .volume => [118, 111, 108, 117, 109, 101]
  | .disk => [100, 105, 115, 107]
  | .table => [116, 97, 98, 108, 101]
  | .table2 => [116, 97, 98, 108, 101, 50]
  | .sectors => [115, 101, 99, 116, 111, 114, 115]
  | .hash => [104, 97, 115, 104]
  | .digest => [100, 105, 103, 101, 115, 116]
  | .error2 => [101, 114, 114, 111, 114, 50]
  | .session => [115, 101, 115, 115, 105, 111, 110]
  | .done => [100, 111, 110, 101]
  | .next => [110, 101, 120, 116]
  | .data => [100, 97, 116, 97]
  | .ltree => [108, 116, 114, 101, 101]
  | .ltreedata => [108, 116, 114, 101, 101, 100, 97, 116, 97]
  | .other raw => raw

/-- The type with the given bytes. The source compares the lossily decoded string; a known
name is ASCII, so it is the decoding of its own bytes and of no others. -/
def SectionType.ofName (raw : List UInt8) : SectionType :=
  (knownTypes.find? fun t => t.name = raw).getD (.other raw)

theorem SectionType.ofName_name {t : SectionType} (h : t ∈ knownTypes) :
    SectionType.ofName t.name = t := by
  revert t
  decide

/-- A parsed 76-byte section descriptor. -/
structure SectionDescriptor where
  sectionType : SectionType
  next : ℕ
  sectionSize : ℕ
  offset : ℕ
  storedCrc : ℕ
  deriving DecidableEq, Repr

/-- The descriptor that a 76-byte buffer holds: the type is NUL-terminated within its 16
bytes. -/
def SectionDescriptor.ofBytes (buf : List UInt8) (offset : ℕ) : SectionDescriptor where
  sectionType := SectionType.ofName ((buf.take 16).takeWhile (· ≠ 0))
  next := leU64 buf 16
  sectionSize := leU64 buf 24
  offset := offset
  storedCrc := leU32 buf sectionDescriptorCrcOffset

/-- Parse a section descriptor found at file position `offset`. -/
def SectionDescriptor.parse (buf : List UInt8) (offset : ℕ) :
    Except EwfError SectionDescriptor :=
  if buf.length < sectionDescriptorSize then
    .error (.bufferTooShort sectionDescriptorSize buf.length)
  else .ok (SectionDescriptor.ofBytes buf offset)

theorem SectionDescriptor.parse_of_le {buf : List UInt8} {offset : ℕ}
    (h : sectionDescriptorSize ≤ buf.length) :
    SectionDescriptor.parse buf offset = .ok (SectionDescriptor.ofBytes buf offset) :=
  if_neg (by omega)

/-- Compare the stored checksum with that of `raw[0..72]`; `false` when `raw` is shorter. -/
def SectionDescriptor.verifyCrc (d : SectionDescriptor) (raw : List UInt8) : Bool :=
  match slice? raw 0 sectionDescriptorCrcOffset with
  | some covered => adler32 covered = d.storedCrc
  | none => false

/-! ### Volume body -/

/-- Image geometry of a `volume` or `disk` section. -/
structure EwfVolume where
  chunkCount : ℕ
  sectorsPerChunk : ℕ
  bytesPerSector : ℕ
  sectorCount : ℕ
  mediaType : UInt8
  setIdentifier : Digest.Bytes 16
  storedCrc : Option ℕ
  deriving DecidableEq, Repr

/-- The geometry that a body of at least 24 bytes holds; what lies past its end defaults. -/
def EwfVolume.ofBytes (buf : List UInt8) : EwfVolume where
  chunkCount := leU32 buf 4
  sectorsPerChunk := leU32 buf 8
  bytesPerSector := leU32 buf 12
  sectorCount := leU64 buf 16
  mediaType := buf.headD 0
  setIdentifier := Digest.bytesAt 16 buf 64
  storedCrc := if volumeBodyFullSize ≤ buf.length then some (leU32 buf volumeBodyCrcOffset)
    else none

/-- Parse a volume body. -/
def EwfVolume.parse (buf : List UInt8) : Except EwfError EwfVolume :=
  if buf.length < 24 then .error (.bufferTooShort 24 buf.length)
  else .ok (EwfVolume.ofBytes buf)

theorem EwfVolume.parse_of_le {buf : List UInt8} (h : 24 ≤ buf.length) :
    EwfVolume.parse buf = .ok (EwfVolume.ofBytes buf) :=
  if_neg (by omega)

/-- Chunk size in bytes. The factors are 32-bit, so the product fits. -/
def EwfVolume.chunkSize (v : EwfVolume) : ℕ := v.sectorsPerChunk * v.bytesPerSector

/-- Total image size in bytes, saturating. -/
def EwfVolume.totalSize (v : EwfVolume) : ℕ := satMul v.bytesPerSector v.sectorCount

/-- Compare the stored body checksum with that of `raw[0..1048]`; `none` when none is
stored. -/
def EwfVolume.verifyCrc (v : EwfVolume) (raw : List UInt8) : Option Bool :=
  v.storedCrc.map fun stored =>
    match slice? raw 0 volumeBodyCrcOffset with
    | some covered => adler32 covered = stored
    | none => false

/-! ### Table header and entry -/

/-- A table entry: bit 31 marks a compressed chunk, bits 0 to 30 are the relative offset. -/
structure TableEntry where
  compressed : Bool
  chunkOffset : ℕ
  deriving DecidableEq, Repr

/-- The entry that a 4-byte value holds. -/
def TableEntry.ofNat (raw : ℕ) : TableEntry := ⟨raw / 2147483648 ≠ 0, raw % 2147483648⟩

/-- Parse a table entry. -/
def TableEntry.parse (buf : List UInt8) : Except EwfError TableEntry :=
  if buf.length < 4 then .error (.bufferTooShort 4 buf.length)
  else .ok (TableEntry.ofNat (leU32 buf 0))

theorem TableEntry.chunkOffset_ofNat_lt (raw : ℕ) :
    (TableEntry.ofNat raw).chunkOffset < 2147483648 :=
  Nat.mod_lt _ (by norm_num)

/-- The header before the entries of a `table` or `table2` section. -/
structure TableHeader where
  entryCount : ℕ
  baseOffset : ℕ
  storedCrc : ℕ
  deriving DecidableEq, Repr

/-- The header that a buffer of at least 16 bytes holds. -/
def TableHeader.ofBytes (buf : List UInt8) : TableHeader where
  entryCount := leU32 buf 0
  baseOffset := leU64 buf 8
  storedCrc := leU32 buf tableHeaderCrcOffset

/-- Parse a table header. -/
def TableHeader.parse (buf : List UInt8) : Except EwfError TableHeader :=
  if buf.length < tableHeaderCrcOffset then
    .error (.bufferTooShort tableHeaderCrcOffset buf.length)
  else .ok (TableHeader.ofBytes buf)

theorem TableHeader.parse_of_le {buf : List UInt8} (h : tableHeaderCrcOffset ≤ buf.length) :
    TableHeader.parse buf = .ok (TableHeader.ofBytes buf) :=
  if_neg (by omega)

/-- Compare the stored header checksum with that of `raw[0..16]`; `none` when the stored
value is zero, which means that the writer omitted it. -/
def TableHeader.verifyCrc (h : TableHeader) (raw : List UInt8) : Option Bool :=
  if h.storedCrc = 0 then none
  else some <|
    match slice? raw 0 tableHeaderCrcOffset with
    | some covered => adler32 covered = h.storedCrc
    | none => false

/-! ### Chunk metadata -/

/-- Where to find and how to read one chunk. The source packs the flag into the top bit of
the offset and keeps the other two fields in 32 bits; the fields here are what its accessors
return. -/
structure Chunk where
  segmentIdx : ℕ
  compressed : Bool
  offset : ℕ
  size : ℕ
  deriving DecidableEq, Repr

/-- `Chunk::new`: the offset loses its top bit, index and size are cut to 32 bits. -/
def Chunk.new (segmentIdx : ℕ) (compressed : Bool) (offset size : ℕ) : Chunk where
  segmentIdx := segmentIdx % 4294967296
  compressed := compressed
  offset := offset % 9223372036854775808
  size := size % 4294967296

/-- `Chunk::set_size`. -/
def Chunk.setSize (c : Chunk) (size : ℕ) : Chunk := { c with size := size % 4294967296 }

end EwfForensic

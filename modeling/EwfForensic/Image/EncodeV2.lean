import EwfForensic.Core.Ewf2

/-!
# Writing EWF v2 Segments

The inverse of what the v2 parsers read: the file header, a chain of sections of which each
stands before its 64-byte descriptor, chunk tables with their entries, and section text.
-/

namespace EwfForensic

open Octets

/-- A 64-byte v2 section descriptor without an integrity hash. -/
def ewf2DescriptorBytes (sectionType prev size : ℕ) : List UInt8 :=
  toLE 4 sectionType ++ toLE 4 0 ++ toLE 8 prev ++ toLE 8 size ++ toLE 4 64 ++ toLE 4 0 ++
    List.replicate 32 0

/-- A chunk-table entry. -/
def ewf2EntryBytes (fileOffset dataSize flags : ℕ) : List UInt8 :=
  toLE 8 fileOffset ++ toLE 4 dataSize ++ toLE 4 flags

namespace Image

/-- A chunk table, without the checksum at its end. -/
def ewf2TableBytes (firstChunk : ℕ) (entries : List (List UInt8)) : List UInt8 :=
  toLE 8 firstChunk ++ toLE 8 entries.length ++ List.replicate 16 0 ++ entries.flatten

/-- Text in UTF-16LE. -/
def utf16Bytes (text : String) : List UInt8 :=
  text.toList.flatMap fun c => toLE 2 c.toNat

/-- Sections from position `pos` on, each a type with its data; `prev` is the position of the
descriptor before. -/
def encodeSectionsV2 : ℕ → ℕ → List (ℕ × List UInt8) → List UInt8
  | _, _, [] => []
  | pos, prev, (type, data) :: rest =>
    data ++ ewf2DescriptorBytes type prev data.length ++
      encodeSectionsV2 (pos + data.length + ewf2SectionDescriptorSize) (pos + data.length) rest

/-- Segment `num` of an EVF2 image. -/
def encodeSegmentV2 (num : ℕ) (sections : List (ℕ × List UInt8)) : List UInt8 :=
  evf2Signature ++ [2, 1] ++ toLE 2 1 ++ toLE 4 num ++ List.replicate 16 0 ++
    encodeSectionsV2 ewf2FileHeaderSize 0 sections

end Image

end EwfForensic

import EwfForensic.Forensic.IntegrityV1

/-!
# The Section Listing of the Command Line Tool

`handle_ewf_list_sections` of `cli/src/handlers.rs`: a descriptor walk of its own over the bytes
of each segment. The segment files are found by a glob pattern, which is left out; the listing
starts with their bytes in order.

* `listSectionsFrom` — the walk from one offset; it ends in an error where a seek or a read
  does.
* `handleEwfListSections` — the records printed for all segments.
-/

namespace EwfForensic.Cli

open Octets

/-- The loop of `handle_ewf_list_sections` from `offset` on, `none` where it returns an error.
The sum `offset + 76` is not checked: it wraps around at 64 bits, and the read of a wrapped
offset then fails. -/
def listSectionsFrom (data : List UInt8) : ℕ → ℕ → Option (List Section)
  | 0, _ => some []
  | fuel + 1, offset =>
    if (offset + sectionDescriptorSize) % 2 ^ 64 > data.length then some []
    else if offset + sectionDescriptorSize > data.length then none
    else
      let desc :=
        SectionDescriptor.ofBytes ((data.drop offset).take sectionDescriptorSize) offset
      let sec : Section := ⟨desc.sectionType, desc.offset, desc.sectionSize⟩
      if desc.next = 0 ∨ desc.next ≤ offset then some [sec]
      else (listSectionsFrom data fuel desc.next).map (sec :: ·)

/-- The sections listed for one segment. The offset grows, and past the end of the file the
loop ends, so the fuel never runs out. -/
def listSections (data : List UInt8) : Option (List Section) :=
  listSectionsFrom data (data.length + 1) fileHeaderSize

/-- `handle_ewf_list_sections`: the records of all segments, each with the segment's index.
Without a segment, or where one of them cannot be listed, it is an error. -/
def handleEwfListSections (segments : List (List UInt8)) : Option (List (ℕ × Section)) :=
  if segments.isEmpty then none
  else
    (segments.zipIdx.mapM fun p => (listSections p.1).map (·.map (p.2, ·))).map List.flatten

end EwfForensic.Cli

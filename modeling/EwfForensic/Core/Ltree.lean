import EwfForensic.Core.Open

/-!
# Finding the File Tree of a Logical Image

`find_ltree` of `core/src/logical.rs`: it walks the section descriptors of every segment file, from
one to the next wherever that stands, until it meets an `ltree` section.

* `ltreeStep` — one turn of the walk. It keeps the positions it has visited and breaks where one
  comes back (`ltreeStep_rank`).
* `readLtree` — the header and the data of the section that is found.
* `findLtree` — the search over the segment files.
-/

namespace EwfForensic

open Octets

/-- `EwfError`, with the variants that only logical images have. -/
inductive LogicalError where
  | core (e : EwfError)
  /-- No segment of a well-formed set carries an `ltree`. -/
  | notLogicalEvidence (segments : ℕ)
  /-- A field, and the value that stands there. -/
  | malformedLogicalField (field : String) (value : List Char)
  /-- Not an error value: the buffer is longer than a vector can be, and the call panics. -/
  | capacityOverflow
  deriving DecidableEq, Repr

/-- `LTREE_HEADER_SIZE`. -/
abbrev ltreeHeaderSize : ℕ := 48

/-- `LtreeHeader`. -/
structure LtreeHeader where
  dataMd5 : Digest.Bytes 16
  dataSize : ℕ
  checksum : ℕ
  deriving DecidableEq

/-- Parse the header at the front of `buf`. -/
def LtreeHeader.parse (buf : List UInt8) : Except LogicalError LtreeHeader :=
  if buf.length < ltreeHeaderSize then .error (.core (.bufferTooShort ltreeHeaderSize buf.length))
  else .ok ⟨Digest.bytesAt 16 buf 0, leU64 buf 16, leU32 buf 24⟩

/-- What `find_ltree` returns. -/
abbrev LtreeResult := Except LogicalError (LtreeHeader × List UInt8)

/-- The header and the data of an `ltree` section, whose payload starts at `pos`. The size that the
header declares cuts the data. -/
def readLtree (data : List UInt8) (pos : ℕ) (desc : SectionDescriptor) : LtreeResult :=
  let payloadLen := desc.sectionSize - sectionDescriptorSize
  if payloadLen < ltreeHeaderSize then
    .error (.core (.bufferTooShort ltreeHeaderSize payloadLen))
  else
    match readExact data pos ltreeHeaderSize with
    | .error e => .error (.core e)
    | .ok head =>
      match LtreeHeader.parse head with
      | .error e => .error e
      | .ok header =>
        if payloadLen - ltreeHeaderSize ≥ 9223372036854775808 then .error .capacityOverflow
        else
          match readExact data (pos + ltreeHeaderSize) (payloadLen - ltreeHeaderSize) with
          | .error e => .error (.core e)
          | .ok body => .ok (header, body.take header.dataSize)

/-- One turn of the walk over a segment file, from the positions visited and the next one. It emits
what the function returns, or nothing yet and goes on; `none` breaks. A file cannot be sought to a
position that is negative as an `i64`. -/
def ltreeStep (data : List UInt8) (s : List ℕ × ℕ) :
    Option (Option LtreeResult × Option (List ℕ × ℕ)) :=
  if s.2 ∈ s.1 then none
  else if s.2 ≥ 9223372036854775808 then
    some (some (.error (.core (.io "Invalid argument (os error 22)"))), none)
  else
    match readExact data s.2 sectionDescriptorSize with
    | .error _ => none
    | .ok d =>
      match SectionDescriptor.parse d s.2 with
      | .error _ => none
      | .ok desc =>
        if desc.sectionType = .ltree then
          some (some (readLtree data (s.2 + sectionDescriptorSize) desc), none)
        else if desc.next = s.2 ∨ desc.next = 0 ∨ desc.sectionType = .done then none
        else some (none, some (s.2 :: s.1, desc.next))

/-- The turns of the walk over a segment file. -/
def ltreeWalk (data : List UInt8) : List (Option LtreeResult) :=
  Loop.visits (ltreeStep data) (data.length + 1) ([], fileHeaderSize)

/-- `find_ltree` over the segment files that are left, after `searched` of them. -/
def findLtreeFrom (searched : ℕ) : List (Except EwfError (List UInt8)) → LtreeResult
  | [] => .error (.notLogicalEvidence searched)
  | .error e :: _ => .error (.core e)
  | .ok data :: files =>
    if data.length < fileHeaderSize then findLtreeFrom (searched + 1) files
    else
      match EwfFileHeader.parse (data.take fileHeaderSize) with
      | .error e => .error (.core e)
      | .ok _ =>
        match (ltreeWalk data).getLast?.join with
        | some result => result
        | none => findLtreeFrom (searched + 1) files

/-- `find_ltree`: a segment file is its bytes, or the error of opening it. -/
def findLtree (files : List (Except EwfError (List UInt8))) : LtreeResult := findLtreeFrom 0 files

/-- The positions that the walk has not visited yet; every turn that goes on visits one. -/
theorem ltreeStep_rank {data : List UInt8} (s : List ℕ × ℕ) (a : Option LtreeResult)
    (s' : List ℕ × ℕ) (h : ltreeStep data s = some (a, some s')) :
    ((List.range data.length).filter (· ∉ s'.1)).length <
      ((List.range data.length).filter (· ∉ s.1)).length := by
  rw [ltreeStep] at h
  split_ifs at h with hseen hseek
  · cases (Prod.mk.inj (Option.some.inj h)).2
  cases hread : readExact data s.2 sectionDescriptorSize with
  | error e => rw [hread] at h; cases h
  | ok d =>
      have hin : s.2 + 76 ≤ data.length := ((readExact_eq_ok_iff (by decide)).mp hread).1
      rw [hread] at h
      cases hparse : SectionDescriptor.parse d s.2 with
      | error e => simp only [hparse] at h; cases h
      | ok desc =>
          simp only [hparse] at h
          split_ifs at h with hltree
          · cases (Prod.mk.inj (Option.some.inj h)).2
          · obtain rfl := Option.some.inj (Prod.mk.inj (Option.some.inj h)).2
            exact Loop.unvisited_lt (by omega) hseen

end EwfForensic

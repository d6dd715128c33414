import EwfForensic.Core.OpenV2
import EwfForensic.Core.SourceOrder
import EwfForensic.Lib.Fold

/-!
# The Chunk Tables of an EWF v2 Image

What an open of v2 segments makes of their `sector_table` sections. The reader takes the tables in
the order in which their sections stand and appends their entries.

* `Ewf2Table`, `ewf2Tables` — the tables of a segment.
* `WellRead` — what an open has checked about a segment: no encrypted section, and all tables lie
  in the segment.
* `handleDescriptorV2_ok` — one section's effect on the chunks, and what it has checked.
* `openSegmentsV2_ok` — a successful open has the chunks of all tables, in order.
-/

namespace EwfForensic

open Octets

/-! ### Tables -/

/-- A chunk table. -/
structure Ewf2Table where
  firstChunk : ℕ
  entries : List Ewf2TableEntry
  deriving DecidableEq, Repr

/-- The start of a section's data. -/
def Ewf2SectionDescriptor.start (desc : Ewf2SectionDescriptor) : ℕ := desc.offset - desc.dataSize

/-- The header of the table in a section. -/
def ewf2HeaderAt (data : List UInt8) (desc : Ewf2SectionDescriptor) : Ewf2TableHeader :=
  Ewf2TableHeader.ofBytes (readAtMost data desc.start 32)

/-- The table in a section. -/
def ewf2TableAt (data : List UInt8) (desc : Ewf2SectionDescriptor) : Ewf2Table where
  firstChunk := (ewf2HeaderAt data desc).firstChunk
  entries := ewf2TableEntries
    (readAtMost data (desc.start + 32) ((ewf2HeaderAt data desc).entryCount * ewf2TableEntrySize))
    (ewf2HeaderAt data desc).entryCount

/-- The section of a table lies in the segment, with the entries that its header declares. -/
structure TableFits (data : List UInt8) (desc : Ewf2SectionDescriptor) : Prop where
  size_le : desc.dataSize ≤ desc.offset
  header_le : desc.start + 32 ≤ data.length
  count_le : (ewf2HeaderAt data desc).entryCount ≤ maxTableEntries
  entries_le : desc.start + 32 + 16 * (ewf2HeaderAt data desc).entryCount ≤ data.length

/-- A section is a chunk table. -/
def Ewf2SectionDescriptor.isTable (desc : Ewf2SectionDescriptor) : Bool :=
  desc.sectionType = .sectorTable

/-- The descriptors of a segment whose walk does not fail. -/
def ewf2Descriptors (data : List UInt8) : List Ewf2SectionDescriptor :=
  match collectEwf2Descriptors data with
  | .ok descriptors => descriptors
  | .error _ => []

/-- The tables of a segment, in the order of their sections. -/
def ewf2Tables (data : List UInt8) : List Ewf2Table :=
  ((ewf2Descriptors data).filter (·.isTable)).map (ewf2TableAt data)

/-- The chunks of a list of tables in segment `segIdx`. -/
def ewf2ChunksOf (segIdx : ℕ) (tables : List Ewf2Table) : List Chunk :=
  tables.flatMap fun t => t.entries.map (·.chunk segIdx)

/-- The chunks of all tables, the segments given in order. -/
def ewf2Chunks (segments : List Segment) : List Chunk :=
  segments.zipIdx.flatMap fun q => ewf2ChunksOf q.2 (ewf2Tables q.1.data)

/-- What an open has checked about a segment. -/
structure WellRead (data : List UInt8) : Prop where
  collects : collectEwf2Descriptors data = .ok (ewf2Descriptors data)
  not_encrypted : ∀ d ∈ ewf2Descriptors data, d.isEncrypted = false
  fits : ∀ d ∈ ewf2Descriptors data, d.isTable → TableFits data d

theorem length_ewf2TableEntries (entries : List UInt8) (count : ℕ) :
    (ewf2TableEntries entries count).length = count := by
  rw [ewf2TableEntries, List.length_map, List.length_range]

/-! ### One section -/

section Section

variable {C : Crates} {segIdx : ℕ} {data : List UInt8} {st st' : OpenState}
  {desc : Ewf2SectionDescriptor}

theorem dataOffset_eq_ok_iff {name : String} {n : ℕ} :
    desc.dataOffset name = .ok n ↔ desc.dataSize ≤ desc.offset ∧ n = desc.start := by
  rw [Ewf2SectionDescriptor.dataOffset, Ewf2SectionDescriptor.start]
  by_cases h : desc.dataSize ≤ desc.offset
  · rw [if_pos h]
    exact ⟨fun he => ⟨h, (Except.ok.inj he).symm⟩, fun he => congrArg _ he.2.symm⟩
  · rw [if_neg h]
    exact iff_of_false (fun he => by cases he) fun he => h he.1

/-- **A chunk table** that is read lies in the segment, and its chunks are appended. -/
theorem handleSectorTable_ok (h : handleSectorTable segIdx data st desc = .ok st') :
    TableFits data desc ∧
      st' = { st with chunks := st.chunks ++ ewf2ChunksOf segIdx [ewf2TableAt data desc] } := by
  rw [handleSectorTable] at h
  obtain ⟨start, hstart, h⟩ := except_bind_eq_ok_iff.mp h
  obtain ⟨hsize, rfl⟩ := dataOffset_eq_ok_iff.mp hstart
  obtain ⟨hdr, hhdr, h⟩ := except_bind_eq_ok_iff.mp h
  obtain ⟨hin, rfl⟩ := (readExact_eq_ok_iff (by decide)).mp hhdr
  simp only at h
  split_ifs at h with hmax
  obtain ⟨entries, hentries, h⟩ := except_bind_eq_ok_iff.mp h
  have hcount : (ewf2HeaderAt data desc).entryCount =
      (Ewf2TableHeader.ofBytes ((data.drop desc.start).take 32)).entryCount := rfl
  rw [← hcount] at hmax hentries h
  have hread : desc.start + 32 + 16 * (ewf2HeaderAt data desc).entryCount ≤ data.length ∧
      entries = readAtMost data (desc.start + 32)
        ((ewf2HeaderAt data desc).entryCount * ewf2TableEntrySize) := by
    rw [readExact] at hentries
    split_ifs at hentries with hroom
    refine ⟨?_, (Except.ok.inj hentries).symm⟩
    have h16 : (ewf2HeaderAt data desc).entryCount * ewf2TableEntrySize =
        16 * (ewf2HeaderAt data desc).entryCount := Nat.mul_comm _ _
    omega
  obtain ⟨hroom, rfl⟩ := hread
  refine ⟨⟨hsize, hin, Nat.le_of_not_lt hmax, hroom⟩, ?_⟩
  rw [← Except.ok.inj h, ewf2ChunksOf, List.flatMap_singleton]
  rfl

/-- What only `sector_table` and `device_info` sections change. -/
structure KeepsMedia (st st' : OpenState) : Prop where
  chunks : st'.chunks = st.chunks
  chunkSize : st'.chunkSize = st.chunkSize
  totalSize : st'.totalSize = st.totalSize

theorem handleCaseData_ok (h : handleCaseData C data st desc = .ok st') : KeepsMedia st st' := by
  rw [handleCaseData] at h
  split_ifs at h with hread
  · obtain ⟨raw, -, h⟩ := except_bind_eq_ok_iff.mp h
    rw [← Except.ok.inj h]
    exact ⟨rfl, rfl, rfl⟩
  · rw [← Except.ok.inj h]
    exact ⟨rfl, rfl, rfl⟩

theorem handleMd5Hash_ok (h : handleMd5Hash data st desc = .ok st') : KeepsMedia st st' := by
  rw [handleMd5Hash] at h
  split_ifs at h with hread
  · obtain ⟨hash, -, h⟩ := except_bind_eq_ok_iff.mp h
    rw [← Except.ok.inj h]
    exact ⟨rfl, rfl, rfl⟩
  · rw [← Except.ok.inj h]
    exact ⟨rfl, rfl, rfl⟩

theorem handleSha1Hash_ok (h : handleSha1Hash data st desc = .ok st') : KeepsMedia st st' := by
  rw [handleSha1Hash] at h
  split_ifs at h with hread
  · obtain ⟨hash, -, h⟩ := except_bind_eq_ok_iff.mp h
    rw [← Except.ok.inj h]
    exact ⟨rfl, rfl, rfl⟩
  · rw [← Except.ok.inj h]
    exact ⟨rfl, rfl, rfl⟩

theorem handleDeviceInfo_ok (h : handleDeviceInfo C data st desc = .ok st') :
    st'.chunks = st.chunks := by
  rw [handleDeviceInfo] at h
  split_ifs at h with hread
  · obtain ⟨raw, -, h⟩ := except_bind_eq_ok_iff.mp h
    rw [← Except.ok.inj h]
  · rw [← Except.ok.inj h]

/-- **What one section does**: a chunk table is appended, a `device_info` section goes to its
handler, and any other section leaves the media alone. -/
theorem handleDescriptorV2_cases (h : handleDescriptorV2 C segIdx data st desc = .ok st') :
    desc.isEncrypted = false ∧
      (desc.sectionType = .sectorTable ∧ handleSectorTable segIdx data st desc = .ok st' ∨
        desc.sectionType = .deviceInfo ∧ handleDeviceInfo C data st desc = .ok st' ∨
        desc.sectionType ≠ .sectorTable ∧ desc.sectionType ≠ .deviceInfo ∧ KeepsMedia st st') := by
  rw [handleDescriptorV2] at h
  by_cases henc : desc.isEncrypted
  · rw [if_pos henc] at h
    cases h
  · rw [if_neg henc] at h
    refine ⟨by simpa using henc, ?_⟩
    split at h
    · next ht => exact Or.inr (Or.inr ⟨by simp [ht], by simp [ht], handleCaseData_ok h⟩)
    · next ht => exact Or.inr (Or.inl ⟨ht, h⟩)
    · next ht => exact Or.inl ⟨ht, h⟩
    · next ht => exact Or.inr (Or.inr ⟨by simp [ht], by simp [ht], handleMd5Hash_ok h⟩)
    · next ht => exact Or.inr (Or.inr ⟨by simp [ht], by simp [ht], handleSha1Hash_ok h⟩)
    · next _ hdevice htable _ _ =>
        rw [← Except.ok.inj h]
        exact Or.inr (Or.inr ⟨htable, hdevice, rfl, rfl, rfl⟩)

/-- **One section** appends the chunks of the table it is, if it is one. -/
theorem handleDescriptorV2_ok (h : handleDescriptorV2 C segIdx data st desc = .ok st') :
    desc.isEncrypted = false ∧ (desc.isTable → TableFits data desc) ∧
      st'.chunks = st.chunks ++
        ewf2ChunksOf segIdx (([desc].filter (·.isTable)).map (ewf2TableAt data)) := by
  obtain ⟨henc, hcases⟩ := handleDescriptorV2_cases h
  refine ⟨henc, ?_⟩
  have hother : desc.sectionType ≠ .sectorTable → st'.chunks = st.chunks →
      (desc.isTable → TableFits data desc) ∧ st'.chunks = st.chunks ++
        ewf2ChunksOf segIdx (([desc].filter (·.isTable)).map (ewf2TableAt data)) := by
    intro ht hchunks
    have htab : desc.isTable = false := decide_eq_false ht
    refine ⟨fun h0 => by simp [htab] at h0, ?_⟩
    rw [hchunks, List.filter_singleton, htab]
    exact (List.append_nil _).symm
  rcases hcases with ⟨ht, h⟩ | ⟨ht, h⟩ | ⟨ht, -, hsame⟩
  · have htab : desc.isTable = true := decide_eq_true ht
    obtain ⟨hfits, rfl⟩ := handleSectorTable_ok h
    refine ⟨fun _ => hfits, ?_⟩
    rw [List.filter_singleton, htab]
    rfl
  · exact hother (by simp [ht]) (handleDeviceInfo_ok h)
  · exact hother ht hsame.chunks

end Section

/-! ### Whole runs -/

section Run

variable {C : Crates} {st st' : OpenState}

theorem ewf2ChunksOf_append (segIdx : ℕ) (a b : List Ewf2Table) :
    ewf2ChunksOf segIdx (a ++ b) = ewf2ChunksOf segIdx a ++ ewf2ChunksOf segIdx b :=
  List.flatMap_append

/-- The sections of one segment. -/
theorem openSegmentV2_ok {q : Segment × ℕ} (h : openSegmentV2 C st q = .ok st') :
    WellRead q.1.data ∧ st'.chunks = st.chunks ++ ewf2ChunksOf q.2 (ewf2Tables q.1.data) := by
  rw [openSegmentV2] at h
  obtain ⟨descs, hcollect, h⟩ := except_bind_eq_ok_iff.mp h
  have hdescs : ewf2Descriptors q.1.data = descs := by rw [ewf2Descriptors, hcollect]
  have hchecked := Fold.foldlM_mem h fun d s s' hd =>
    (⟨(handleDescriptorV2_ok hd).1, (handleDescriptorV2_ok hd).2.1⟩ :
      d.isEncrypted = false ∧ (d.isTable → TableFits q.1.data d))
  have hchunks := Fold.foldlM_prefix (fun ds (s : OpenState) => s.chunks = st.chunks ++
      ewf2ChunksOf q.2 ((ds.filter (·.isTable)).map (ewf2TableAt q.1.data))) h (p := [])
    (List.append_nil _).symm fun ds d s s' hs hd => by
      rw [(handleDescriptorV2_ok hd).2.2, hs, List.filter_append, List.map_append,
        ewf2ChunksOf_append, List.append_assoc]
  refine ⟨⟨by rw [hdescs, hcollect], ?_, ?_⟩, ?_⟩
  · rw [hdescs]
    exact fun d hd => (hchecked d hd).1
  · rw [hdescs]
    exact fun d hd => (hchecked d hd).2
  · rw [ewf2Tables, hdescs]
    exact hchunks

/-- The sections of all segments. -/
theorem foldlM_openSegmentV2_ok {segments : List Segment}
    (h : segments.zipIdx.foldlM (openSegmentV2 C) {} = .ok st) :
    (∀ s ∈ segments, WellRead s.data) ∧ st.chunks = ewf2Chunks segments := by
  constructor
  · intro s hs
    obtain ⟨k, hk⟩ := List.mem_iff_getElem?.mp hs
    exact Fold.foldlM_mem h (fun q s s' hq => (openSegmentV2_ok hq).1) (s, k)
      (List.mem_zipIdx_iff_getElem?.mpr hk)
  · exact Fold.foldlM_prefix (fun qs (s : OpenState) => s.chunks =
        qs.flatMap fun q => ewf2ChunksOf q.2 (ewf2Tables q.1.data)) h (p := []) rfl
      fun qs q s s' hs hq => by
        rw [(openSegmentV2_ok hq).2, hs, List.flatMap_append, List.flatMap_singleton]

end Run

/-! ### The reader -/

/-- A segment number of a v2 file header fits 32 bits. -/
theorem segmentNumber_lt_of_parse {buf : List UInt8} {header : Ewf2FileHeader}
    (h : Ewf2FileHeader.parse buf = .ok header) : header.segmentNumber < 4294967296 := by
  rw [Ewf2FileHeader.parse] at h
  split_ifs at h
  cases hcompression : CompressionMethod.fromU16 (leU16 buf 10) with
  | error e =>
      rw [hcompression] at h
      cases h
  | ok compression =>
      rw [hcompression] at h
      obtain rfl := Except.ok.inj h
      exact leAt_lt 4 _ 12

/-- Headers that are read stand in front of segments that are long enough. -/
theorem parseHeadersV2_ok {sources : List Segment} {headers : List Ewf2FileHeader}
    (h : parseHeadersV2 sources = .ok headers) :
    (∀ s ∈ sources, ewf2FileHeaderSize ≤ s.data.length) ∧
      ∀ n ∈ headers.map (·.segmentNumber), n < 4294967296 := by
  rw [parseHeadersV2, mapM_eq_ok_iff] at h
  induction h with
  | nil => simp
  | cons hheader _ ih =>
      obtain ⟨buf, hbuf, hparse⟩ := except_bind_eq_ok_iff.mp hheader
      have hlen := ((readExact_eq_ok_iff (by decide)).mp hbuf).1
      rw [Nat.zero_add] at hlen
      rw [List.map_cons, List.forall_mem_cons, List.forall_mem_cons]
      exact ⟨⟨hlen, ih.1⟩, segmentNumber_lt_of_parse hparse, ih.2⟩

/-- **A successful open** has ordered the segments, read each of them, and has the chunks of their
tables in order. -/
theorem openSegmentsV2_ok {C : Crates} {sources : List Segment} {cacheSize : ℕ} {r : EwfReader}
    (h : openSegmentsV2 C sources cacheSize = .ok r) :
    ∃ st, r.segments.zipIdx.foldlM (openSegmentV2 C) {} = .ok st ∧
      r = finishOpenV2 r.segments cacheSize st ∧ r.chunks = .eager (ewf2Chunks r.segments) ∧
      (∀ s ∈ r.segments, WellRead s.data ∧ ewf2FileHeaderSize ≤ s.data.length) ∧
      r.segments.length < 4294967296 := by
  rw [openSegmentsV2] at h
  obtain ⟨headers, hheaders, h⟩ := except_bind_eq_ok_iff.mp h
  obtain ⟨ordered, hordered, h⟩ := except_bind_eq_ok_iff.mp h
  obtain ⟨st, hst, h⟩ := except_bind_eq_ok_iff.mp h
  obtain rfl := Except.ok.inj h
  obtain ⟨hread, hchunks⟩ := foldlM_openSegmentV2_ok hst
  obtain ⟨hlong, hnumbers⟩ := parseHeadersV2_ok hheaders
  obtain ⟨hsorted, hnums⟩ := validateAndReorderSegments_ok hordered hnumbers
  refine ⟨st, hst, rfl, ?_, ?_, ?_⟩
  · rw [finishOpenV2, hchunks]
  · intro s hs
    have hmem : s ∈ sources := by
      rw [finishOpenV2, hsorted] at hs
      obtain ⟨p, hp, rfl⟩ := List.mem_map.mp hs
      exact (List.of_mem_zip ((perm_sortByNumber _).mem_iff.mp hp)).1
    exact ⟨hread s hs, hlong s hmem⟩
  · by_contra hmany
    have hlast : 4294967296 ∈ (sortByNumber (sources.zip (headers.map (·.segmentNumber)))).map
        (·.2) := by
      rw [hnums, List.mem_range'_1]
      refine ⟨by decide, ?_⟩
      change ¬ ordered.length < 4294967296 at hmany
      omega
    obtain ⟨p, hp, hp2⟩ := List.mem_map.mp hlast
    have := hnumbers p.2 (List.of_mem_zip ((perm_sortByNumber _).mem_iff.mp hp)).2
    omega

end EwfForensic

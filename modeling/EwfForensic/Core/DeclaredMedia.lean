import EwfForensic.Core.TwoStores
import EwfForensic.Lib.Fold

/-!
# What an Image Declares

The geometry that the `volume` and `disk` sections of a v1 image declare and the number of chunks
that its tables list, read off the sections in order, and what an open makes of them. The eager
open counts the entries that it keeps, the lazy one those that the table headers declare.

* `declaredMedia` — the volumes and the chunk count of an image.
* `Declares` — the state of an open that has met some sections; `declares_of_foldlM` says that a
  whole walk ends in what the image declares.
* `parseHeaders_eq_ok_iff` — the headers of the sources, each by its source alone.
-/

namespace EwfForensic

open Octets

/-- The geometry of a `volume` or `disk` section. -/
def volumeAt (data : List UInt8) (desc : SectionDescriptor) : EwfVolume :=
  EwfVolume.ofBytes (readAtMost data (desc.offset + sectionDescriptorSize) 94)

/-- The media size that a volume stands for. -/
def EwfVolume.mediaSize (v : EwfVolume) : ℕ :=
  if v.totalSize = 0 then v.chunkSize * v.chunkCount else v.totalSize

/-- The number of entries that a table keeps: all but those whose sum with the base offset does
not fit 64 bits. -/
def listedChunks (data : List UInt8) (desc : SectionDescriptor) : ℕ :=
  let hdr := tableHeaderBytes data desc
  let entries := readAtMost data (desc.offset + sectionDescriptorSize + 24) (leU32 hdr 0 * 4)
  ((tableEntries entries (min (leU32 hdr 0) (entries.length / 4))).filter fun e =>
    e.Fits (leU64 hdr 8)).length

/-- The number of chunks that a table adds to either store. -/
def tableChunkCount (isLazy : Bool) (data : List UInt8) (desc : SectionDescriptor) : ℕ :=
  if isLazy then leU32 (tableHeaderBytes data desc) 0 else listedChunks data desc

/-- The volumes of an image in order, and the number of chunks in its tables. -/
structure DeclaredMedia where
  volumes : List EwfVolume := []
  chunkCount : ℕ := 0

/-- The chunk size of the last volume. -/
def DeclaredMedia.chunkSize (m : DeclaredMedia) : ℕ := (m.volumes.getLast?.map (·.chunkSize)).getD 0

/-- The media size of the last volume. -/
def DeclaredMedia.size (m : DeclaredMedia) : ℕ := (m.volumes.getLast?.map (·.mediaSize)).getD 0

/-- The media size that the chunk table stands for. -/
def DeclaredMedia.tableSize (m : DeclaredMedia) : ℕ := satMul m.chunkCount m.chunkSize

/-- One section. -/
def DeclaredMedia.note (isLazy : Bool) (ctx : SegmentContext) (m : DeclaredMedia)
    (desc : SectionDescriptor) : DeclaredMedia :=
  if desc.sectionType = .volume ∨ desc.sectionType = .disk then
    { m with volumes := m.volumes ++ [volumeAt ctx.data desc] }
  else if desc.sectionType = ctx.tableType then
    { m with chunkCount := m.chunkCount + tableChunkCount isLazy ctx.data desc }
  else m

/-- The sections of one segment. -/
def DeclaredMedia.noteSegment (isLazy : Bool) (m : DeclaredMedia) (q : Segment × ℕ) :
    DeclaredMedia :=
  let descriptors := collectDescriptors q.1.data
  descriptors.foldl (DeclaredMedia.note isLazy (segmentContext q.2 q.1.data descriptors)) m

/-- What an image declares, its segments given in order. -/
def declaredMedia (isLazy : Bool) (segments : List Segment) : DeclaredMedia :=
  segments.zipIdx.foldl (DeclaredMedia.noteSegment isLazy) {}

/-- The number of chunks in the store that an open has filled. -/
def OpenState.chunkCount (isLazy : Bool) (st : OpenState) : ℕ :=
  if isLazy then (LazyChunkTable.new st.index 0 0).len else st.chunks.length

/-- An open that has met the sections `m` is in the state `st`. -/
structure Declares (isLazy : Bool) (m : DeclaredMedia) (st : OpenState) : Prop where
  chunkSize : st.chunkSize = m.chunkSize
  totalSize : st.totalSize = m.size
  chunkCount : st.chunkCount isLazy = m.chunkCount
  nextChunkId : isLazy → st.nextChunkId = m.chunkCount
  volumes_le : ∀ v ∈ m.volumes, v.chunkSize ≤ maxChunkSize ∧ v.chunkCount < 256 ^ 4

section Walk

variable {C : Crates} {isLazy : Bool} {m : DeclaredMedia} {st st' : OpenState}

theorem declares_start : Declares isLazy {} {} := by
  refine ⟨rfl, rfl, ?_, fun _ => rfl, by simp⟩
  cases isLazy <;> rfl

/-- The parser pushes a chunk for each entry that fits. -/
theorem length_parseTableSection (entries : List UInt8) (count base segIdx chunkSize : ℕ)
    (sectorsDataEnd : Option ℕ) :
    (parseTableSection entries count base segIdx chunkSize sectorsDataEnd).length =
      ((tableEntries entries (min count (entries.length / 4))).filter fun e =>
        e.Fits base).length := by
  rw [parseTableSection_eq, length_chunksOf]

/-- A `volume` or `disk` section. -/
theorem Declares.step_volume (h : Declares isLazy m st) {ctx : SegmentContext}
    {desc : SectionDescriptor} (hst : handleVolume ctx st desc = .ok st') :
    Declares isLazy { m with volumes := m.volumes ++ [volumeAt ctx.data desc] } st' := by
  obtain ⟨hmax, rfl⟩ := handleVolume_ok hst
  refine ⟨?_, ?_, h.chunkCount, h.nextChunkId, fun v hmem => ?_⟩
  · rw [DeclaredMedia.chunkSize, List.getLast?_append, List.getLast?_singleton]
    rfl
  · rw [DeclaredMedia.size, List.getLast?_append, List.getLast?_singleton]
    rfl
  · rcases List.mem_append.mp hmem with hmem | hmem
    · exact h.volumes_le v hmem
    · obtain rfl := List.mem_singleton.mp hmem
      exact ⟨hmax, leAt_lt 4 _ 4⟩

/-- A table of the kind that the segment's walk reads. -/
theorem Declares.step_table (h : Declares isLazy m st) {ctx : SegmentContext}
    {desc : SectionDescriptor}
    (hst : (if isLazy then handleTableLazy ctx st desc else handleTableEager ctx st desc) =
      .ok st') :
    Declares isLazy { m with chunkCount := m.chunkCount + tableChunkCount isLazy ctx.data desc }
      st' := by
  cases isLazy with
  | false =>
      obtain ⟨-, -, rfl⟩ := handleTableEager_ok hst
      refine ⟨h.chunkSize, h.totalSize, ?_, (fun h0 => by cases h0), h.volumes_le⟩
      have hcount : st.chunks.length = m.chunkCount := h.chunkCount
      simp only [OpenState.chunkCount, List.length_append, hcount, length_parseTableSection]
      rfl
  | true =>
      obtain rfl := handleTableLazy_ok hst
      have hnext := h.nextChunkId rfl
      refine ⟨h.chunkSize, h.totalSize, ?_, fun _ => ?_, h.volumes_le⟩
      · simp only [OpenState.chunkCount, if_true, LazyChunkTable.new, List.getLast?_append,
          List.getLast?_singleton, Option.some_or, hnext]
        rfl
      · simp only [hnext]
        rfl

/-- **One section** keeps the open in step with what is declared. -/
theorem Declares.step (h : Declares isLazy m st) {ctx : SegmentContext} {desc : SectionDescriptor}
    (hst : handleDescriptor C isLazy ctx st desc = .ok st') :
    Declares isLazy (m.note isLazy ctx desc) st' := by
  rw [DeclaredMedia.note]
  by_cases hv : desc.sectionType = .volume ∨ desc.sectionType = .disk
  · rw [handleDescriptor, if_pos hv] at hst
    rw [if_pos hv]
    exact h.step_volume hst
  · rw [if_neg hv]
    by_cases ht : desc.sectionType = ctx.tableType
    · rw [handleDescriptor, if_neg hv, if_pos ht] at hst
      rw [if_pos ht]
      exact h.step_table hst
    · rw [if_neg ht]
      obtain ⟨e1, e2, e3, e4, e5⟩ := handleDescriptor_sameTables hv ht hst
      refine ⟨e1.trans h.chunkSize, e2.trans h.totalSize, ?_, fun hlazy =>
        e5.trans (h.nextChunkId hlazy), h.volumes_le⟩
      rw [OpenState.chunkCount, e3, e4]
      exact h.chunkCount

/-- The sections of one segment. -/
theorem Declares.stepSegment (h : Declares isLazy m st) {q : Segment × ℕ}
    (hst : openSegment C isLazy st q = .ok st') : Declares isLazy (m.noteSegment isLazy q) st' :=
  Fold.foldlM_prefix (fun descs s => Declares isLazy (descs.foldl (DeclaredMedia.note isLazy
      (segmentContext q.2 q.1.data (collectDescriptors q.1.data))) m) s) hst (p := []) h
    fun descs desc s s' hs hstep => by
      rw [List.foldl_append]
      exact hs.step hstep

/-- **A whole walk** ends in what the image declares. -/
theorem declares_of_foldlM {segments : List Segment}
    (hst : segments.zipIdx.foldlM (openSegment C isLazy) {} = .ok st) :
    Declares isLazy (declaredMedia isLazy segments) st :=
  Fold.foldlM_prefix
    (fun qs s => Declares isLazy (qs.foldl (DeclaredMedia.noteSegment isLazy) {}) s)
    hst (p := []) declares_start fun qs q s s' hs hstep => by
      rw [List.foldl_append]
      exact hs.stepSegment hstep

end Walk

/-! ### The eager open -/

/-- The container kind in a source's file header. -/
def Segment.kind (s : Segment) : EwfKind :=
  if (readPadded s.data 0 fileHeaderSize).take 8 = lvfSignature then .logical else .physical

/-- A file header is that of a v1 segment. -/
theorem parse_header_ok_iff {s : Segment} {header : EwfFileHeader} :
    EwfFileHeader.parse (readPadded s.data 0 fileHeaderSize) = .ok header ↔
      ((readPadded s.data 0 fileHeaderSize).take 8 = evfSignature ∨
        (readPadded s.data 0 fileHeaderSize).take 8 = lvfSignature) ∧
      header = ⟨s.number, s.kind⟩ := by
  have hlen : ¬ (readPadded s.data 0 fileHeaderSize).length < fileHeaderSize := by
    rw [readPadded, List.length_append, List.length_replicate]
    omega
  rw [EwfFileHeader.parse, if_neg hlen, Segment.kind, Segment.number]
  by_cases hevf : (readPadded s.data 0 fileHeaderSize).take 8 = evfSignature
  · have hlvf : ¬ (readPadded s.data 0 fileHeaderSize).take 8 = lvfSignature := by
      rw [hevf]
      decide
    rw [if_pos hevf, if_neg hlvf]
    constructor
    · intro h
      exact ⟨Or.inl hevf, (Except.ok.inj h).symm⟩
    · rintro ⟨-, rfl⟩
      rfl
  · rw [if_neg hevf]
    by_cases hlvf : (readPadded s.data 0 fileHeaderSize).take 8 = lvfSignature
    · rw [if_pos hlvf, if_pos hlvf]
      constructor
      · intro h
        exact ⟨Or.inr hlvf, (Except.ok.inj h).symm⟩
      · rintro ⟨-, rfl⟩
        rfl
    · rw [if_neg hlvf]
      refine iff_of_false (fun h => by cases h) ?_
      rintro ⟨h | h, -⟩
      · exact hevf h
      · exact hlvf h

/-- The headers of the sources. -/
theorem parseHeaders_eq_ok_iff {sources : List Segment} {headers : List EwfFileHeader} :
    parseHeaders sources = .ok headers ↔
      (∀ s ∈ sources, (readPadded s.data 0 fileHeaderSize).take 8 = evfSignature ∨
        (readPadded s.data 0 fileHeaderSize).take 8 = lvfSignature) ∧
      headers = sources.map fun s => ⟨s.number, s.kind⟩ := by
  rw [parseHeaders, mapM_eq_ok_iff]
  constructor
  · intro h
    induction h with
    | nil => exact ⟨by simp, rfl⟩
    | cons hparse _ ih =>
        obtain ⟨hsig, rfl⟩ := parse_header_ok_iff.mp hparse
        exact ⟨List.forall_mem_cons.mpr ⟨hsig, ih.1⟩, by rw [ih.2, List.map_cons]⟩
  · rintro ⟨hsig, rfl⟩
    rw [List.forall₂_map_right_iff, List.forall₂_same]
    exact fun s hs => parse_header_ok_iff.mpr ⟨hsig s hs, rfl⟩

end EwfForensic

import EwfForensic.Core.Backing
import EwfForensic.Core.SectionIndex
import EwfForensic.Lib.Fold

/-!
# The Eager and the Lazy Chunk Table

An open keeps the chunks of every table section (eager), or an index of the sections whose
entries are parsed on demand (lazy); `core/src/chunk_table.rs` says that both must yield
identical metadata. The eager walk parses a table with the chunk size in force where it stands,
the lazy lookup with the final one; and the lazy index counts entries that the parser skips.

* `tableUses` — the table sections of an image in order, each with the chunk size in force.
* `openStores` — what the two opens of one image end with, in terms of these.
* `SameTable` — the condition: no entry overflows, and each table's sizes come out the same with
  both chunk sizes.
* `stores_agree_iff` — the two readers agree on everything they return exactly when it holds.
-/

namespace EwfForensic

open Octets

/-! ### The table sections of an image -/

/-- A table section with the chunk size in force where the walk meets it. -/
structure TableUse where
  (section' : SectionMeta)
  chunkSize : ℕ

/-- The chunk size that a `volume` or `disk` section declares. -/
def volumeChunkSize (data : List UInt8) (desc : SectionDescriptor) : ℕ :=
  (EwfVolume.ofBytes (readAtMost data (desc.offset + sectionDescriptorSize) 94)).chunkSize

/-- The media size that a `volume` or `disk` section declares. -/
def volumeMediaSize (data : List UInt8) (desc : SectionDescriptor) : ℕ :=
  let vol := EwfVolume.ofBytes (readAtMost data (desc.offset + sectionDescriptorSize) 94)
  if vol.totalSize = 0 then vol.chunkSize * vol.chunkCount else vol.totalSize

/-- The header of a table section. -/
def tableHeaderBytes (data : List UInt8) (desc : SectionDescriptor) : List UInt8 :=
  readAtMost data (desc.offset + sectionDescriptorSize) 24

/-- One section: a volume changes the chunk size in force, a table uses it. -/
def noteSection (ctx : SegmentContext) (p : ℕ × List TableUse) (desc : SectionDescriptor) :
    ℕ × List TableUse :=
  if desc.sectionType = .volume ∨ desc.sectionType = .disk then
    (volumeChunkSize ctx.data desc, p.2)
  else if desc.sectionType = ctx.tableType then
    let hdr := tableHeaderBytes ctx.data desc
    (p.1, p.2 ++ [⟨⟨(p.2.map (·.section'.entryCount)).sum, leU32 hdr 0,
      desc.offset + sectionDescriptorSize + 24, leU64 hdr 8, ctx.segIdx, ctx.sectorsDataEnd⟩, p.1⟩])
  else p

/-- The sections of one segment. -/
def noteSegment (p : ℕ × List TableUse) (q : Segment × ℕ) : ℕ × List TableUse :=
  let descriptors := collectDescriptors q.1.data
  descriptors.foldl (noteSection (segmentContext q.2 q.1.data descriptors)) p

/-- The final chunk size of an image and its table sections in order. -/
def tableUses (segments : List Segment) : ℕ × List TableUse :=
  segments.zipIdx.foldl noteSegment (0, [])

/-- The chunks of a table section, parsed with a given chunk size. -/
def SectionMeta.chunks (segments : List Segment) (chunkSize : ℕ) (m : SectionMeta) : List Chunk :=
  match segments[m.segmentIdx]? with
  | none => []
  | some src =>
    parseTableSection (m.entryBytes src.data) m.entryCount m.baseOffset m.segmentIdx chunkSize
      m.sectorsDataEnd

/-! ### The two walks -/

/-- The state of the eager walk of `segments`, once it met the sections `p`. -/
structure EagerWalk (segments : List Segment) (st : OpenState) (p : ℕ × List TableUse) : Prop where
  chunkSize_eq : st.chunkSize = p.1
  chunkSize_le : p.1 ≤ maxChunkSize
  chunks_eq : st.chunks = p.2.flatMap fun u => u.section'.chunks segments u.chunkSize
  uses_le : ∀ u ∈ p.2, u.chunkSize ≤ maxChunkSize
  /-- The entries of each section lie in its segment. -/
  loads : ∀ u ∈ p.2, ∃ src, segments[u.section'.segmentIdx]? = some src ∧
    u.section'.entryCount ≤ maxTableEntries ∧
    u.section'.entriesFileOffset + u.section'.entryCount * 4 ≤ src.data.length

/-- The states of the eager and of the lazy walk of `segments`, once they met the sections
`p`. -/
structure SameWalk (segments : List Segment) (eager lazy : OpenState) (p : ℕ × List TableUse) :
    Prop where
  chunkSize_eager : eager.chunkSize = p.1
  chunkSize_lazy : lazy.chunkSize = p.1
  chunkSize_le : p.1 ≤ maxChunkSize
  totalSize_eq : eager.totalSize = lazy.totalSize
  chunks_eq : eager.chunks = p.2.flatMap fun u => u.section'.chunks segments u.chunkSize
  index_eq : lazy.index = p.2.map (·.section')
  nextChunkId_eq : lazy.nextChunkId = (p.2.map (·.section'.entryCount)).sum
  cumulative : Cumulative 0 (p.2.map (·.section'))
  uses_le : ∀ u ∈ p.2, u.chunkSize ≤ maxChunkSize
  /-- The entries of each section lie in its segment. -/
  loads : ∀ u ∈ p.2, ∃ src, segments[u.section'.segmentIdx]? = some src ∧
    u.section'.entryCount ≤ maxTableEntries ∧
    u.section'.entriesFileOffset + u.section'.entryCount * 4 ≤ src.data.length

section Walk

variable {segments : List Segment} {eager lazy eager' lazy' : OpenState} {p : ℕ × List TableUse}

/-- What a handler other than those of volumes and tables leaves alone. -/
def OpenState.SameTables (st st' : OpenState) : Prop :=
  st'.chunkSize = st.chunkSize ∧ st'.totalSize = st.totalSize ∧ st'.chunks = st.chunks ∧
    st'.index = st.index ∧ st'.nextChunkId = st.nextChunkId

theorem handleHash_sameTables {ctx : SegmentContext} {st st' : OpenState}
    {desc : SectionDescriptor} (h : handleHash ctx st desc = .ok st') : st.SameTables st' := by
  obtain ⟨buf, -, hr⟩ := except_bind_eq_ok_iff.mp h
  obtain rfl := Except.ok.inj hr
  exact ⟨rfl, rfl, rfl, rfl, rfl⟩

theorem handleDigest_sameTables {ctx : SegmentContext} {st st' : OpenState}
    {desc : SectionDescriptor} (h : handleDigest ctx st desc = .ok st') : st.SameTables st' := by
  obtain ⟨buf, -, hr⟩ := except_bind_eq_ok_iff.mp h
  obtain rfl := Except.ok.inj hr
  exact ⟨rfl, rfl, rfl, rfl, rfl⟩

theorem handleHeader_sameTables {C : Crates} {ctx : SegmentContext} {st st' : OpenState}
    {desc : SectionDescriptor} (h : handleHeader C ctx st desc = .ok st') : st.SameTables st' := by
  unfold handleHeader at h
  simp only at h
  split_ifs at h
  · obtain ⟨buf, -, hr⟩ := except_bind_eq_ok_iff.mp h
    split at hr <;> obtain rfl := Except.ok.inj hr <;> exact ⟨rfl, rfl, rfl, rfl, rfl⟩
  · obtain rfl := Except.ok.inj h
    exact ⟨rfl, rfl, rfl, rfl, rfl⟩

theorem handleError2_sameTables {ctx : SegmentContext} {st st' : OpenState}
    {desc : SectionDescriptor} (h : handleError2 ctx st desc = .ok st') : st.SameTables st' := by
  unfold handleError2 at h
  simp only at h
  split_ifs at h
  · obtain ⟨buf, -, hr⟩ := except_bind_eq_ok_iff.mp h
    obtain rfl := Except.ok.inj hr
    exact ⟨rfl, rfl, rfl, rfl, rfl⟩
  · obtain rfl := Except.ok.inj h
    exact ⟨rfl, rfl, rfl, rfl, rfl⟩

/-- A section that is neither a volume nor a table. -/
theorem handleDescriptor_sameTables {C : Crates} {isLazy : Bool} {ctx : SegmentContext}
    {st st' : OpenState} {desc : SectionDescriptor}
    (hv : ¬ (desc.sectionType = .volume ∨ desc.sectionType = .disk))
    (ht : desc.sectionType ≠ ctx.tableType)
    (h : handleDescriptor C isLazy ctx st desc = .ok st') : st.SameTables st' := by
  rw [handleDescriptor] at h
  rw [if_neg hv, if_neg ht] at h
  split_ifs at h
  · exact handleHash_sameTables h
  · exact handleDigest_sameTables h
  · exact handleHeader_sameTables h
  · exact handleError2_sameTables h
  · obtain rfl := Except.ok.inj h
    exact ⟨rfl, rfl, rfl, rfl, rfl⟩

/-- What the volume handler does when it succeeds. -/
theorem handleVolume_ok {ctx : SegmentContext} {st st' : OpenState} {desc : SectionDescriptor}
    (h : handleVolume ctx st desc = .ok st') :
    volumeChunkSize ctx.data desc ≤ maxChunkSize ∧
      st' = { st with
        chunkSize := volumeChunkSize ctx.data desc
        totalSize := volumeMediaSize ctx.data desc } := by
  obtain ⟨buf, hbuf, hr⟩ := except_bind_eq_ok_iff.mp h
  obtain ⟨vol, hvol, hr⟩ := except_bind_eq_ok_iff.mp hr
  obtain rfl : buf = readAtMost ctx.data (desc.offset + sectionDescriptorSize) 94 :=
    ((readExact_eq_ok_iff (by norm_num)).mp hbuf).2
  rw [EwfVolume.parse] at hvol
  split_ifs at hvol with hshort
  obtain rfl := Except.ok.inj hvol
  by_cases hmax : volumeChunkSize ctx.data desc > maxChunkSize
  · simp only [show (EwfVolume.ofBytes (readAtMost ctx.data (desc.offset + sectionDescriptorSize)
      94)).chunkSize = volumeChunkSize ctx.data desc from rfl, if_pos hmax] at hr
    cases hr
  · simp only [show (EwfVolume.ofBytes (readAtMost ctx.data (desc.offset + sectionDescriptorSize)
      94)).chunkSize = volumeChunkSize ctx.data desc from rfl, if_neg hmax] at hr
    exact ⟨not_lt.mp hmax, (Except.ok.inj hr).symm⟩

/-- What the eager table handler does when it succeeds. -/
theorem handleTableEager_ok {ctx : SegmentContext} {st st' : OpenState} {desc : SectionDescriptor}
    (h : handleTableEager ctx st desc = .ok st') :
    leU32 (tableHeaderBytes ctx.data desc) 0 ≤ maxTableEntries ∧
      desc.offset + sectionDescriptorSize + 24 + leU32 (tableHeaderBytes ctx.data desc) 0 * 4 ≤
        ctx.data.length ∧
      st' = { st with
        chunks := st.chunks ++ parseTableSection
          (readAtMost ctx.data (desc.offset + sectionDescriptorSize + 24)
            (leU32 (tableHeaderBytes ctx.data desc) 0 * 4))
          (leU32 (tableHeaderBytes ctx.data desc) 0) (leU64 (tableHeaderBytes ctx.data desc) 8)
          ctx.segIdx st.chunkSize ctx.sectorsDataEnd } := by
  obtain ⟨hdr, hhdr, hr⟩ := except_bind_eq_ok_iff.mp h
  obtain ⟨hin, hhdr⟩ := (readExact_eq_ok_iff (by norm_num)).mp hhdr
  obtain rfl : hdr = tableHeaderBytes ctx.data desc := hhdr
  simp only at hr
  split_ifs at hr with hmax
  obtain ⟨entries, hentries, hr⟩ := except_bind_eq_ok_iff.mp hr
  rw [readExact] at hentries
  split_ifs at hentries with hle
  obtain rfl := Except.ok.inj hentries
  obtain rfl := Except.ok.inj hr
  exact ⟨by omega, by omega, rfl⟩

/-- What the lazy table handler does when it succeeds. -/
theorem handleTableLazy_ok {ctx : SegmentContext} {st st' : OpenState} {desc : SectionDescriptor}
    (h : handleTableLazy ctx st desc = .ok st') :
    st' = { st with
      index := st.index ++ [⟨st.nextChunkId, leU32 (tableHeaderBytes ctx.data desc) 0,
        desc.offset + sectionDescriptorSize + 24, leU64 (tableHeaderBytes ctx.data desc) 8,
        ctx.segIdx, ctx.sectorsDataEnd⟩]
      nextChunkId := st.nextChunkId + leU32 (tableHeaderBytes ctx.data desc) 0 } := by
  unfold handleTableLazy at h
  simp only at h
  split_ifs at h with h1 h2
  have hpad : readPadded ctx.data (desc.offset + sectionDescriptorSize) 24 =
      tableHeaderBytes ctx.data desc := by
    rw [readPadded,
      show 24 - (readAtMost ctx.data (desc.offset + sectionDescriptorSize) 24).length =
      0 by omega, List.replicate_zero, List.append_nil]
    rfl
  rw [hpad] at h
  exact (Except.ok.inj h).symm

/-- **One section** of the eager walk. -/
theorem EagerWalk.step {C : Crates} (hw : EagerWalk segments eager p) {ctx : SegmentContext}
    {src : Segment} (hsrc : segments[ctx.segIdx]? = some src) (hdata : src.data = ctx.data)
    {desc : SectionDescriptor} (h : handleDescriptor C false ctx eager desc = .ok eager') :
    EagerWalk segments eager' (noteSection ctx p desc) := by
  rw [noteSection]
  by_cases hv : desc.sectionType = .volume ∨ desc.sectionType = .disk
  · rw [if_pos hv]
    rw [handleDescriptor, if_pos hv] at h
    obtain ⟨hmax, rfl⟩ := handleVolume_ok h
    exact ⟨rfl, hmax, hw.chunks_eq, hw.uses_le, hw.loads⟩
  · rw [if_neg hv]
    by_cases ht : desc.sectionType = ctx.tableType
    · rw [if_pos ht]
      rw [handleDescriptor, if_neg hv, if_pos ht] at h
      obtain ⟨hmax, hin, rfl⟩ := handleTableEager_ok h
      refine ⟨hw.chunkSize_eq, hw.chunkSize_le, ?_, ?_, ?_⟩
      · simp only [hw.chunks_eq, List.flatMap_append, List.flatMap_singleton, SectionMeta.chunks,
          hsrc, hdata, SectionMeta.entryBytes, hw.chunkSize_eq, readAtMost]
      · intro u hu
        rcases List.mem_append.mp hu with hu | hu
        · exact hw.uses_le u hu
        · obtain rfl := List.mem_singleton.mp hu
          exact hw.chunkSize_le
      · intro u hu
        rcases List.mem_append.mp hu with hu | hu
        · exact hw.loads u hu
        · obtain rfl := List.mem_singleton.mp hu
          exact ⟨src, hsrc, hmax, hdata ▸ hin⟩
    · rw [if_neg ht]
      obtain ⟨e1, -, e3, -, -⟩ := handleDescriptor_sameTables hv ht h
      exact ⟨e1.trans hw.chunkSize_eq, hw.chunkSize_le, e3.trans hw.chunks_eq, hw.uses_le, hw.loads⟩

/-- The sections of one segment. -/
theorem EagerWalk.stepSegment {C : Crates} (hw : EagerWalk segments eager p) {q : Segment × ℕ}
    (hq : segments[q.2]? = some q.1) (h : openSegment C false eager q = .ok eager') :
    EagerWalk segments eager' (noteSegment p q) :=
  Fold.foldlM_prefix (fun descs s => EagerWalk segments s (descs.foldl (noteSection
      (segmentContext q.2 q.1.data (collectDescriptors q.1.data))) p)) h (p := []) hw
    fun descs desc s s' hs hstep => by
      rw [List.foldl_append]
      exact hs.step hq rfl hstep

/-- **A whole eager walk** ends with the table sections of the image. -/
theorem eagerWalk_of_foldlM {C : Crates}
    (h : segments.zipIdx.foldlM (openSegment C false) {} = .ok eager) :
    EagerWalk segments eager (tableUses segments) :=
  Fold.foldlM_prefix (fun qs s => (∀ q ∈ qs, segments[q.2]? = some q.1) →
      EagerWalk segments s (qs.foldl noteSegment (0, []))) h (p := [])
    (fun _ => ⟨rfl, Nat.zero_le _, rfl, by simp, by simp⟩)
    (fun qs q s s' hs hstep hmem => by
      rw [List.foldl_append]
      exact (hs fun q' hq' => hmem q' (List.mem_append_left _ hq')).stepSegment
        (hmem q (List.mem_append_right _ (List.mem_singleton_self q))) hstep)
    fun q hq => List.mem_zipIdx_iff_getElem?.mp hq
theorem SameWalk.eagerWalk (hw : SameWalk segments eager lazy p) : EagerWalk segments eager p :=
  ⟨hw.chunkSize_eager, hw.chunkSize_le, hw.chunks_eq, hw.uses_le, hw.loads⟩

/-- **One section** keeps the two walks in step. -/
theorem SameWalk.step {C : Crates} (hw : SameWalk segments eager lazy p) {ctx : SegmentContext}
    {src : Segment} (hsrc : segments[ctx.segIdx]? = some src) (hdata : src.data = ctx.data)
    {desc : SectionDescriptor} (he : handleDescriptor C false ctx eager desc = .ok eager')
    (hl : handleDescriptor C true ctx lazy desc = .ok lazy') :
    SameWalk segments eager' lazy' (noteSection ctx p desc) := by
  have hE := hw.eagerWalk.step hsrc hdata he
  rw [noteSection] at hE ⊢
  by_cases hv : desc.sectionType = .volume ∨ desc.sectionType = .disk
  · rw [if_pos hv] at hE ⊢
    rw [handleDescriptor, if_pos hv] at he hl
    obtain ⟨-, rfl⟩ := handleVolume_ok he
    obtain ⟨-, rfl⟩ := handleVolume_ok hl
    exact ⟨hE.chunkSize_eq, rfl, hE.chunkSize_le, rfl, hE.chunks_eq, hw.index_eq,
      hw.nextChunkId_eq, hw.cumulative, hE.uses_le, hE.loads⟩
  · rw [if_neg hv] at hE ⊢
    by_cases ht : desc.sectionType = ctx.tableType
    · rw [if_pos ht] at hE ⊢
      rw [handleDescriptor, if_neg hv, if_pos ht] at he hl
      obtain ⟨-, -, rfl⟩ := handleTableEager_ok he
      obtain rfl := handleTableLazy_ok hl
      refine ⟨hE.chunkSize_eq, hw.chunkSize_lazy, hE.chunkSize_le, hw.totalSize_eq, hE.chunks_eq,
        ?_, ?_, ?_, hE.uses_le, hE.loads⟩
      · simp only [hw.index_eq, List.map_append, List.map_cons, List.map_nil, hw.nextChunkId_eq]
      · simp only [hw.nextChunkId_eq, List.map_append, List.map_cons, List.map_nil,
          List.sum_append, List.sum_cons, List.sum_nil, Nat.add_zero]
      · rw [List.map_append, List.map_singleton]
        refine cumulative_concat hw.cumulative ?_
        rw [Nat.zero_add, List.map_map]
        rfl
    · rw [if_neg ht] at hE ⊢
      obtain ⟨-, e2, -, -, -⟩ := handleDescriptor_sameTables hv ht he
      obtain ⟨l1, l2, l3, l4, l5⟩ := handleDescriptor_sameTables hv ht hl
      exact ⟨hE.chunkSize_eq, l1.trans hw.chunkSize_lazy, hE.chunkSize_le,
        (e2.trans hw.totalSize_eq).trans l2.symm, hE.chunks_eq, l4.trans hw.index_eq,
        l5.trans hw.nextChunkId_eq, hw.cumulative, hE.uses_le, hE.loads⟩

/-- The sections of one segment keep the two walks in step. -/
theorem SameWalk.foldlM {C : Crates} (hw : SameWalk segments eager lazy p) {ctx : SegmentContext}
    {src : Segment} (hsrc : segments[ctx.segIdx]? = some src) (hdata : src.data = ctx.data)
    {descs : List SectionDescriptor}
    (he : descs.foldlM (handleDescriptor C false ctx) eager = .ok eager')
    (hl : descs.foldlM (handleDescriptor C true ctx) lazy = .ok lazy') :
    SameWalk segments eager' lazy' (descs.foldl (noteSection ctx) p) := by
  induction descs generalizing eager lazy p with
  | nil =>
      obtain rfl := Except.ok.inj he
      obtain rfl := Except.ok.inj hl
      exact hw
  | cons desc descs ih =>
      rw [List.foldlM_cons] at he hl
      obtain ⟨e₁, he₁, he⟩ := except_bind_eq_ok_iff.mp he
      obtain ⟨l₁, hl₁, hl⟩ := except_bind_eq_ok_iff.mp hl
      exact ih (hw.step hsrc hdata he₁ hl₁) he hl

/-- The segments of an image keep the two walks in step. -/
theorem SameWalk.foldlM_segments {C : Crates} (hw : SameWalk segments eager lazy p)
    {qs : List (Segment × ℕ)} (hqs : ∀ q ∈ qs, segments[q.2]? = some q.1)
    (he : qs.foldlM (openSegment C false) eager = .ok eager')
    (hl : qs.foldlM (openSegment C true) lazy = .ok lazy') :
    SameWalk segments eager' lazy' (qs.foldl noteSegment p) := by
  induction qs generalizing eager lazy p with
  | nil =>
      obtain rfl := Except.ok.inj he
      obtain rfl := Except.ok.inj hl
      exact hw
  | cons q qs ih =>
      rw [List.foldlM_cons] at he hl
      obtain ⟨e₁, he₁, he⟩ := except_bind_eq_ok_iff.mp he
      obtain ⟨l₁, hl₁, hl⟩ := except_bind_eq_ok_iff.mp hl
      have hq := hqs q (List.mem_cons_self ..)
      have hstep := @SameWalk.foldlM segments eager lazy _ _ p C hw
        (segmentContext q.2 q.1.data (collectDescriptors q.1.data)) q.1 hq rfl _ he₁ hl₁
      exact ih hstep (fun q' hq' => hqs q' (List.mem_cons_of_mem _ hq')) he hl

end Walk

/-! ### The two readers -/

/-- The segment number in a source's file header. -/
def Segment.number (s : Segment) : ℕ := leU16 (readPadded s.data 0 fileHeaderSize) 9

/-- The sources by ascending segment number. -/
def inOrder (sources : List Segment) : List Segment :=
  (sortByNumber (sources.map fun s => (s, s.number))).map (·.1)

theorem parseHeaders_numbers {sources : List Segment} {headers : List EwfFileHeader}
    (h : parseHeaders sources = .ok headers) :
    headers.map (·.segmentNumber) = sources.map Segment.number := by
  have hall := mapM_eq_ok_iff.mp h
  clear h
  induction hall with
  | nil => rfl
  | @cons src hdr _ _ hparse _ ih =>
      rw [List.map_cons, List.map_cons, ih]
      rw [EwfFileHeader.parse] at hparse
      split_ifs at hparse <;> obtain rfl := Except.ok.inj hparse <;> rfl

/-- What the eager and the lazy open of one image end with. -/
structure Stores (sources : List Segment) (cap : ℕ) (re rl : EwfReader) (p : ℕ × List TableUse) :
    Prop where
  segments_eager : re.segments = inOrder sources
  segments_lazy : rl.segments = inOrder sources
  chunkSize_eager : re.chunkSize = p.1
  chunkSize_lazy : rl.chunkSize = p.1
  chunkSize_le : p.1 ≤ maxChunkSize
  chunks_eager : re.chunks =
    .eager (p.2.flatMap fun u => u.section'.chunks (inOrder sources) u.chunkSize)
  chunks_lazy : rl.chunks = .lazy (.new (p.2.map (·.section')) p.1 cap)
  totalSize : re.chunks.len = rl.chunks.len → re.totalSize = rl.totalSize
  cumulative : Cumulative 0 (p.2.map (·.section'))
  uses_le : ∀ u ∈ p.2, u.chunkSize ≤ maxChunkSize
  loads : ∀ u ∈ p.2, ∃ src, (inOrder sources)[u.section'.segmentIdx]? = some src ∧
    u.section'.entryCount ≤ maxTableEntries ∧
    u.section'.entriesFileOffset + u.section'.entryCount * 4 ≤ src.data.length

/-- **The two opens** of one image end with the same table sections. -/
theorem openStores {C : Crates} {sources : List Segment} {cacheEager cacheLazy cap : ℕ}
    {re rl : EwfReader} (he : openV1 C sources cacheEager none = .ok re)
    (hl : openV1 C sources cacheLazy (some cap) = .ok rl) :
    Stores sources cap re rl (tableUses (inOrder sources)) := by
  obtain ⟨-, headers, ordered, ste, hh, ho, hste, hre⟩ := openV1_eq_ok_iff.mp he
  obtain ⟨-, headers', ordered', stl, hh', ho', hstl, hrl⟩ := openV1_eq_ok_iff.mp hl
  obtain rfl : headers = headers' := Except.ok.inj (hh.symm.trans hh')
  obtain rfl : ordered = ordered' := Except.ok.inj (ho.symm.trans ho')
  have horder : ordered = inOrder sources := by
    rw [parseHeaders_numbers hh] at ho
    unfold validateAndReorderSegments at ho
    simp only at ho
    split at ho
    · cases ho
    · rw [← Except.ok.inj ho, inOrder, List.map_prod_left_eq_zip]
  have hwalk : SameWalk ordered ste stl (tableUses ordered) := by
    have hstart : SameWalk ordered {} {} (0, []) :=
      ⟨rfl, rfl, Nat.zero_le _, rfl, rfl, rfl, rfl, trivial, by simp, by simp⟩
    exact hstart.foldlM_segments (fun q hq => List.mem_zipIdx_iff_getElem?.mp hq) hste hstl
  subst horder
  unfold finishOpen at hre hrl
  split_ifs at hre hrl
  obtain rfl := Except.ok.inj hre
  obtain rfl := Except.ok.inj hrl
  refine ⟨rfl, rfl, hwalk.chunkSize_eager, hwalk.chunkSize_lazy, hwalk.chunkSize_le, ?_, ?_, ?_,
    hwalk.cumulative, hwalk.uses_le, hwalk.loads⟩
  · simp only [hwalk.chunks_eq]
  · simp only [hwalk.index_eq, hwalk.chunkSize_lazy]
  · intro hlen
    simp only at hlen ⊢
    rw [hlen, hwalk.totalSize_eq, hwalk.chunkSize_eager, hwalk.chunkSize_lazy]

/-! ### Lookups in the lazy store -/

/-- The chunks of a cumulative index, one section after the other: a chunk stands at its place in
the section that holds it. -/
theorem Cumulative.getElem?_flatMap {ms : List SectionMeta} (h : Cumulative 0 ms)
    {F : SectionMeta → List Chunk} (hF : ∀ m ∈ ms, (F m).length = m.entryCount) {k i : ℕ}
    {m : SectionMeta} (hm : ms[k]? = some m) (hlo : m.firstChunkId ≤ i)
    (hhi : i < m.firstChunkId + m.entryCount) :
    (ms.flatMap F)[i]? = (F m)[i - m.firstChunkId]? := by
  have hlens : (ms.map F).map List.length = entryCounts ms := by
    rw [List.map_map, entryCounts]
    exact List.map_congr_left hF
  have hplace : (k, i - m.firstChunkId) ∈ Offsets.places ((ms.map F).map List.length) := by
    rw [hlens]
    exact ⟨m.entryCount, getElem?_entryCounts hm, by simp only; omega⟩
  have hget := Offsets.getElem?_flatten hplace
  rw [hlens, Offsets.offset_mk, ← Nat.zero_add (Offsets.start _ _), ← h.firstChunkId_eq hm,
    Nat.add_sub_cancel' hlo, ← List.flatMap_def] at hget
  rw [hget, List.getElem?_map, hm]
  rfl

/-- A section whose entries lie in its segment loads. -/
theorem LazyChunkTable.loadSection_eq {t : LazyChunkTable} {segments : List Segment}
    {m : SectionMeta} {src : Segment} (hsrc : segments[m.segmentIdx]? = some src)
    (hcount : m.entryCount ≤ maxTableEntries)
    (hin : m.entriesFileOffset + m.entryCount * 4 ≤ src.data.length) :
    t.loadSection segments m = .ok (m.chunks segments t.chunkSize) := by
  rw [LazyChunkTable.loadSection, SectionMeta.chunks]
  simp only [hsrc]
  rw [if_neg (by change _ ≤ 4000000 at hcount; unfold u64Max; omega), if_neg (by omega), if_neg (by
    rw [List.length_take, List.length_drop]
    omega)]
  rfl

/-- The lengths of the parsed sections add up to the length of the store, or fall short where an
entry overflows. -/
theorem SectionMeta.length_chunks {segments : List Segment} {m : SectionMeta} {src : Segment}
    (hsrc : segments[m.segmentIdx]? = some src)
    (hin : m.entriesFileOffset + m.entryCount * 4 ≤ src.data.length) (chunkSize : ℕ) :
    (m.chunks segments chunkSize).length ≤ m.entryCount ∧
      ((m.chunks segments chunkSize).length = m.entryCount ↔ m.NoOverflow segments) := by
  have hbytes : (m.entryBytes src.data).length = m.entryCount * 4 := by
    rw [SectionMeta.entryBytes, List.length_take, List.length_drop]
    omega
  have hlen : (m.chunks segments chunkSize).length =
      ((tableEntries (m.entryBytes src.data) m.entryCount).filter fun e =>
        e.Fits m.baseOffset).length := by
    rw [SectionMeta.chunks]
    simp only [hsrc]
    rw [parseTableSection_eq, length_chunksOf, hbytes, Nat.mul_div_cancel _ (by norm_num),
      Nat.min_self]
  have hle := List.length_filter_le (fun e : TableEntry => decide (e.Fits m.baseOffset))
    (tableEntries (m.entryBytes src.data) m.entryCount)
  rw [length_tableEntries] at hle
  refine ⟨hlen ▸ hle, ?_⟩
  rw [hlen]
  constructor
  · intro heq src' hsrc' e he
    obtain rfl : src = src' := Option.some.inj (hsrc.symm.trans hsrc')
    have hall := List.length_filter_eq_length_iff.mp (heq.trans (length_tableEntries _ _).symm)
    simpa using hall e he
  · intro hno
    rw [List.filter_eq_self.mpr fun e he => by simpa using hno src hsrc e he, length_tableEntries]

/-- **A lookup in the lazy store** finds the chunk at its place among those of all sections,
where no entry overflows. -/
theorem Stores.find_lazy {sources : List Segment} {cap : ℕ} {re rl : EwfReader}
    {p : ℕ × List TableUse} (h : Stores sources cap re rl p)
    (hno : ∀ u ∈ p.2, u.section'.NoOverflow (inOrder sources)) (i : ℕ) :
    rl.chunks.find rl.segments i =
      match (p.2.flatMap fun u => u.section'.chunks (inOrder sources) p.1)[i]? with
      | some c => .ok c
      | none => .error (outOfRange i (p.2.map (·.section'.entryCount)).sum) := by
  obtain ⟨segments, hseg⟩ : ∃ segments, inOrder sources = segments := ⟨_, rfl⟩
  obtain ⟨ms, hms⟩ : ∃ ms, p.2.map (·.section') = ms := ⟨_, rfl⟩
  have hcum : Cumulative 0 ms := hms ▸ h.cumulative
  have hsection : ∀ m ∈ ms, (m.chunks segments p.1).length = m.entryCount ∧
      (LazyChunkTable.new ms p.1 cap).loadSection segments m = .ok (m.chunks segments p.1) := by
    intro m hm
    rw [← hms] at hm
    obtain ⟨u, hu, rfl⟩ := List.mem_map.mp hm
    obtain ⟨src, hsrc, hcount, hin⟩ := h.loads u hu
    rw [hseg] at hsrc
    exact ⟨(SectionMeta.length_chunks hsrc hin p.1).2.mpr (hseg ▸ hno u hu),
      LazyChunkTable.loadSection_eq hsrc hcount hin⟩
  have hlen := fun m hm => (hsection m hm).1
  have hflat : (p.2.flatMap fun u => u.section'.chunks segments p.1) =
      ms.flatMap fun m => m.chunks segments p.1 := by
    rw [← hms, List.flatMap_map]
  have hcounts : (p.2.map (·.section'.entryCount)).sum = (ms.map (·.entryCount)).sum := by
    rw [← hms, List.map_map]
    rfl
  have hflatlen : (ms.flatMap fun m => m.chunks segments p.1).length =
      (ms.map (·.entryCount)).sum := by
    rw [List.length_flatMap]
    exact congrArg List.sum (List.map_congr_left hlen)
  rw [h.chunks_lazy, h.segments_lazy, hseg, hflat, hcounts, hms]
  simp only [ChunkTable.find, LazyChunkTable.find]
  by_cases hi : i < (ms.map (·.entryCount)).sum
  · obtain ⟨k, m, hm, hle, hlt⟩ := hcum.exists_covers p.1 cap hi
    have hpos : (LazyChunkTable.new ms p.1 cap).sectionFor i = some k :=
      hcum.sectionFor_eq_some_iff.mpr ⟨m, hm, hle, hlt⟩
    have hm' : (LazyChunkTable.new ms p.1 cap).index[k]? = some m := hm
    have hmem := List.mem_of_getElem? hm
    rw [hcum.getElem?_flatMap hlen hm hle hlt]
    simp only [hpos, hm', LazyChunkTable.sectionAt, (hsection m hmem).2, chunkInSection]
    have hin : i - m.firstChunkId < (m.chunks segments p.1).length := by
      rw [hlen m hmem]
      omega
    rw [List.getElem?_eq_getElem hin]
  · have hnone : (LazyChunkTable.new ms p.1 cap).sectionFor i = none :=
      hcum.sectionFor_eq_none_iff.mpr (hcum.len_new p.1 cap ▸ not_lt.mp hi)
    rw [List.getElem?_eq_none (by omega)]
    simp only [hnone, hcum.len_new]

/-! ### When the sizes come out the same -/

/-- Each chunk of a row of entries is sized by its neighbour, or by the end of the `sectors`
body, with both chunk sizes. -/
def SizedByNeighbours (baseOffset cs cs' : ℕ) (sectorsDataEnd : Option ℕ) :
    List TableEntry → Prop
  | [] => True
  | [e] => e.compressed = true ∧ ∃ stop ∈ sectorsDataEnd,
      let distance := stop - (e.chunkOffset + baseOffset) % 9223372036854775808
      0 < distance ∧ distance ≤ cs ∧ distance ≤ cs'
  | e :: next :: rest => e.compressed = true ∧ e.chunkOffset < next.chunkOffset ∧
      SizedByNeighbours baseOffset cs cs' sectorsDataEnd (next :: rest)

section Sizes

variable {baseOffset segIdx cs cs' : ℕ} {sectorsDataEnd : Option ℕ}

/-- A chunk that another entry follows has the same size under both chunk sizes exactly when
its distance to that entry is its size. -/
theorem closedBy_eq_iff (hcs : cs ≤ maxChunkSize) (hcs' : cs' ≤ maxChunkSize) (hne : cs ≠ cs')
    (e next : TableEntry) :
    e.closedBy baseOffset segIdx cs next = e.closedBy baseOffset segIdx cs' next ↔
      e.compressed = true ∧ e.chunkOffset < next.chunkOffset := by
  change cs ≤ 134217728 at hcs
  change cs' ≤ 134217728 at hcs'
  have hpos : next.chunkOffset + baseOffset - (e.chunkOffset + baseOffset) > 0 ↔
      e.chunkOffset < next.chunkOffset := by omega
  unfold TableEntry.closedBy backfillPrevious TableEntry.pushed
  by_cases hc : e.compressed = true ∧ e.chunkOffset < next.chunkOffset
  · simp [Chunk.new, Chunk.setSize, hc.1, hpos, hc.2]
  · have hno : ∀ cs, ¬ ((Chunk.new segIdx e.compressed (e.chunkOffset + baseOffset) cs).compressed =
        true ∧ next.chunkOffset + baseOffset - (e.chunkOffset + baseOffset) > 0) := by
      intro cs
      rwa [hpos]
    rw [if_neg (hno cs), if_neg (hno cs')]
    simp only [hc, iff_false, Chunk.new, Chunk.mk.injEq, true_and]
    omega

/-- The final chunk after its back-fill. -/
theorem backfillLast_pushed (hcs : cs ≤ maxChunkSize) (stop : ℕ) (e : TableEntry) :
    backfillLast cs stop (e.pushed baseOffset segIdx cs) =
      { e.pushed baseOffset segIdx cs with
        size :=
          if e.compressed = true ∧
              0 < stop - (e.chunkOffset + baseOffset) % 9223372036854775808 ∧
              stop - (e.chunkOffset + baseOffset) % 9223372036854775808 < cs then
            stop - (e.chunkOffset + baseOffset) % 9223372036854775808
          else cs } := by
  change cs ≤ 134217728 at hcs
  have hsize : cs % 4294967296 = cs := Nat.mod_eq_of_lt (by omega)
  rw [backfillLast]
  simp only [TableEntry.pushed, Chunk.new, Chunk.setSize, hsize, true_and]
  generalize stop - (e.chunkOffset + baseOffset) % 9223372036854775808 = distance
  by_cases hc : e.compressed = true ∧ 0 < distance ∧ distance < cs
  · have hmod : distance % 4294967296 = distance := Nat.mod_eq_of_lt (by omega)
    rw [if_pos hc, if_pos hc, hmod]
  · rw [if_neg hc, if_neg hc]

/-- The same for a section's final chunk and the end of the sectors section. -/
theorem lastFill_eq_iff (hcs : cs ≤ maxChunkSize) (hcs' : cs' ≤ maxChunkSize) (hne : cs ≠ cs')
    (e : TableEntry) :
    lastFill cs sectorsDataEnd (e.pushed baseOffset segIdx cs) =
        lastFill cs' sectorsDataEnd (e.pushed baseOffset segIdx cs') ↔
      SizedByNeighbours baseOffset cs cs' sectorsDataEnd [e] := by
  cases sectorsDataEnd with
  | none =>
      change cs ≤ 134217728 at hcs
      change cs' ≤ 134217728 at hcs'
      simp only [lastFill, TableEntry.pushed, Chunk.new, Chunk.mk.injEq, true_and,
        SizedByNeighbours, Option.mem_def, reduceCtorEq, false_and, exists_false, and_false,
        iff_false]
      omega
  | some stop =>
      simp only [lastFill, backfillLast_pushed hcs, backfillLast_pushed hcs']
      simp only [TableEntry.pushed, Chunk.new, Chunk.mk.injEq, true_and, SizedByNeighbours,
        Option.mem_def, Option.some.injEq, exists_eq_left']
      generalize stop - (e.chunkOffset + baseOffset) % 9223372036854775808 = distance
      by_cases hc : e.compressed = true
      · simp only [hc, true_and]
        split_ifs <;> omega
      · simpa [hc] using hne

/-- **The chunks of a section come out the same** with both chunk sizes exactly when each is
sized by its neighbours. -/
theorem chunksOf_eq_iff (hcs : cs ≤ maxChunkSize) (hcs' : cs' ≤ maxChunkSize) (hne : cs ≠ cs')
    (entries : List TableEntry) :
    chunksOf baseOffset segIdx cs (lastFill cs sectorsDataEnd) entries =
        chunksOf baseOffset segIdx cs' (lastFill cs' sectorsDataEnd) entries ↔
      SizedByNeighbours baseOffset cs cs' sectorsDataEnd entries := by
  induction entries with
  | nil => exact ⟨fun _ => trivial, fun _ => rfl⟩
  | cons e entries ih =>
      cases entries with
      | nil =>
          rw [chunksOf, chunksOf, List.cons.injEq, lastFill_eq_iff hcs hcs' hne]
          simp
      | cons next rest =>
          rw [chunksOf, chunksOf, List.cons.injEq, closedBy_eq_iff hcs hcs' hne, ih,
            SizedByNeighbours, and_assoc]

end Sizes

/-- A table section whose chunks come out the same with the chunk size in force and with the
final one: no entry overflows, and where the two sizes differ, neither is used. -/
def TableUse.Fixed (segments : List Segment) (final : ℕ) (u : TableUse) : Prop :=
  u.section'.NoOverflow segments ∧
    (u.chunkSize = final ∨ ∀ src, segments[u.section'.segmentIdx]? = some src →
      SizedByNeighbours u.section'.baseOffset u.chunkSize final u.section'.sectorsDataEnd
        (tableEntries (u.section'.entryBytes src.data) u.section'.entryCount))

/-- Every table section of the image comes out the same. -/
def SameTable (segments : List Segment) : Prop :=
  ∀ u ∈ (tableUses segments).2, u.Fixed segments (tableUses segments).1

/-! ### What the two readers return -/

/-- The cache states that reads and lookups of chunks, in any order, can lead to. -/
inductive EwfReader.Accessed (C : Crates) (r : EwfReader) : ReaderState → Prop where
  | init : Accessed C r r.init
  | read {st : ReaderState} (h : Accessed C r st) (off len : ℕ) :
      Accessed C r (r.readAt C st off len).2
  | chunk {st : ReaderState} (h : Accessed C r st) (i : ℕ) :
      Accessed C r { st with sections := (r.chunks.get r.segments st.sections i).2 }

theorem EwfReader.Accessed.coherent {C : Crates} {r : EwfReader} {st : ReaderState}
    (h : r.Accessed C st) : r.Coherent C st := by
  induction h with
  | init => exact r.coherent_init C
  | read _ off len ih => exact (r.readAt_eq_read C ih off len).2
  | chunk _ i ih => exact ⟨ih.1, (r.chunks.get_eq_find r.segments ih.2 i).2⟩

/-- Two readers agree on the chunk count, the media size, the metadata of every chunk and the
result of every read, whatever was accessed before. -/
structure Agree (C : Crates) (re rl : EwfReader) : Prop where
  chunkCount : re.chunks.len = rl.chunks.len
  totalSize : re.totalSize = rl.totalSize
  debugChunk : ∀ i < re.chunks.len, ∀ ste stl, re.Accessed C ste → rl.Accessed C stl →
    (re.chunks.get re.segments ste.sections i).1 = (rl.chunks.get rl.segments stl.sections i).1
  readAt : ∀ ste stl, re.Accessed C ste → rl.Accessed C stl → ∀ off len,
    (re.readAt C ste off len).1 = (rl.readAt C stl off len).1

section Agree

variable {C : Crates} {sources : List Segment} {cap : ℕ} {re rl : EwfReader}
  {p : ℕ × List TableUse}

/-- Readers with the same pages and sizes read the same. -/
theorem EwfReader.read_congr (hcs : re.chunkSize = rl.chunkSize)
    (htotal : re.totalSize = rl.totalSize) (hpage : ∀ i, re.page C i = rl.page C i)
    (off len : ℕ) : re.read C off len = rl.read C off len := by
  have hturn : ∀ off want, re.turnSize off want = rl.turnSize off want := fun off want => by
    simp only [EwfReader.turnSize, hcs, htotal]
  have hbytes : ∀ off want page, re.turnBytes off want page = rl.turnBytes off want page :=
    fun off want page => by simp only [EwfReader.turnBytes, hcs, hturn]
  unfold EwfReader.read
  generalize len + 1 = fuel
  induction fuel generalizing off len with
  | zero => rfl
  | succ fuel ih => simp only [EwfReader.pureLoop, hturn, hbytes, hpage, hcs, ih]

/-- The parsed lengths of the sections of a store. -/
theorem Stores.length_chunks (h : Stores sources cap re rl p) {u : TableUse} (hu : u ∈ p.2)
    (chunkSize : ℕ) :
    (u.section'.chunks (inOrder sources) chunkSize).length ≤ u.section'.entryCount ∧
      ((u.section'.chunks (inOrder sources) chunkSize).length = u.section'.entryCount ↔
        u.section'.NoOverflow (inOrder sources)) := by
  obtain ⟨src, hsrc, -, hin⟩ := h.loads u hu
  exact SectionMeta.length_chunks hsrc hin chunkSize

/-- The lazy store counts the entries that the table headers declare. -/
theorem Stores.len_lazy (h : Stores sources cap re rl p) :
    rl.chunks.len = (p.2.map (·.section'.entryCount)).sum := by
  rw [h.chunks_lazy, ChunkTable.len, h.cumulative.len_new, List.map_map]
  rfl

/-- **The chunk counts agree** exactly when no entry overflows. -/
theorem Stores.chunkCount_eq_iff (h : Stores sources cap re rl p) :
    re.chunks.len = rl.chunks.len ↔
      ∀ u ∈ p.2, u.section'.NoOverflow (inOrder sources) := by
  have hlazy := h.len_lazy
  have heager : re.chunks.len =
      (p.2.map fun u => (u.section'.chunks (inOrder sources) u.chunkSize).length).sum := by
    rw [h.chunks_eager, ChunkTable.len, List.length_flatMap]
  rw [hlazy, heager]
  have hle : ∀ us : List TableUse, (∀ u ∈ us, u ∈ p.2) →
      ((us.map fun u => (u.section'.chunks (inOrder sources) u.chunkSize).length).sum ≤
        (us.map (·.section'.entryCount)).sum ∧
      ((us.map fun u => (u.section'.chunks (inOrder sources) u.chunkSize).length).sum =
        (us.map (·.section'.entryCount)).sum ↔
        ∀ u ∈ us, u.section'.NoOverflow (inOrder sources))) := by
    intro us hus
    induction us with
    | nil => simp
    | cons u us ih =>
        obtain ⟨hle, hiff⟩ := h.length_chunks (hus u (List.mem_cons_self ..)) u.chunkSize
        obtain ⟨hle', hiff'⟩ := ih fun u' hu' => hus u' (List.mem_cons_of_mem _ hu')
        simp only [List.map_cons, List.sum_cons, List.forall_mem_cons, ← hiff, ← hiff']
        omega
  exact (hle p.2 fun u hu => hu).2

/-- The chunks of a section come out the same exactly when it is fixed. -/
theorem Stores.chunks_eq_iff (h : Stores sources cap re rl p) {u : TableUse} (hu : u ∈ p.2)
    (hno : u.section'.NoOverflow (inOrder sources)) :
    u.section'.chunks (inOrder sources) u.chunkSize = u.section'.chunks (inOrder sources) p.1 ↔
      u.Fixed (inOrder sources) p.1 := by
  obtain ⟨src, hsrc, -, hin⟩ := h.loads u hu
  have hbytes : (u.section'.entryBytes src.data).length = u.section'.entryCount * 4 := by
    rw [SectionMeta.entryBytes, List.length_take, List.length_drop]
    omega
  have hfilter : (tableEntries (u.section'.entryBytes src.data) u.section'.entryCount).filter
      (fun e => e.Fits u.section'.baseOffset) =
      tableEntries (u.section'.entryBytes src.data) u.section'.entryCount :=
    List.filter_eq_self.mpr fun e he => by simpa using hno src hsrc e he
  have hchunks : ∀ cs, u.section'.chunks (inOrder sources) cs =
      chunksOf u.section'.baseOffset u.section'.segmentIdx cs
        (lastFill cs u.section'.sectorsDataEnd)
        (tableEntries (u.section'.entryBytes src.data) u.section'.entryCount) := by
    intro cs
    rw [SectionMeta.chunks]
    simp only [hsrc]
    rw [parseTableSection_eq, hbytes, Nat.mul_div_cancel _ (by norm_num), Nat.min_self, hfilter]
  rw [hchunks, hchunks, TableUse.Fixed]
  by_cases hcs : u.chunkSize = p.1
  · simp [hcs, hno]
  · rw [chunksOf_eq_iff (h.uses_le u hu) h.chunkSize_le hcs]
    constructor
    · intro hs
      refine ⟨hno, .inr fun src' hsrc' => ?_⟩
      obtain rfl := Option.some.inj (hsrc.symm.trans hsrc')
      exact hs
    · rintro ⟨-, hcs' | hs⟩
      · exact absurd hcs' hcs
      · exact hs src hsrc

/-- A lookup in the eager store. -/
theorem Stores.find_eager (h : Stores sources cap re rl p) (i : ℕ) :
    re.chunks.find re.segments i =
      match (p.2.flatMap fun u => u.section'.chunks (inOrder sources) u.chunkSize)[i]? with
      | some c => .ok c
      | none => .error (outOfRange i re.chunks.len) := by
  rw [h.chunks_eager]
  rfl

end Agree

/-- Concatenations of blocks of the same lengths are equal exactly when the blocks are. -/
theorem flatMap_eq_iff {α β : Type*} {f g : α → List β} {l : List α}
    (hlen : ∀ a ∈ l, (f a).length = (g a).length) :
    l.flatMap f = l.flatMap g ↔ ∀ a ∈ l, f a = g a := by
  induction l with
  | nil => simp
  | cons a l ih =>
      rw [List.flatMap_cons, List.flatMap_cons, List.forall_mem_cons,
        ← ih fun a' ha' => hlen a' (List.mem_cons_of_mem _ ha')]
      constructor
      · intro h
        exact List.append_inj h (hlen a (List.mem_cons_self ..))
      · rintro ⟨h1, h2⟩
        rw [h1, h2]

/-- **The two stores agree** on everything a reader returns exactly when every table section
comes out the same: whatever the sources that both opens accept, the capacities of the caches
and the order of accesses. -/
theorem stores_agree_iff (C : Crates) (sources : List Segment) (cacheEager cacheLazy cap : ℕ)
    (re rl : EwfReader) (he : openV1 C sources cacheEager none = .ok re)
    (hl : openV1 C sources cacheLazy (some cap) = .ok rl) :
    Agree C re rl ↔ SameTable (inOrder sources) := by
  have h := openStores he hl
  obtain ⟨p, hp⟩ : ∃ p, tableUses (inOrder sources) = p := ⟨_, rfl⟩
  rw [hp] at h
  rw [SameTable, hp]
  have hlen : ∀ (_ : ∀ u ∈ p.2, u.section'.NoOverflow (inOrder sources)), ∀ u ∈ p.2,
      (u.section'.chunks (inOrder sources) u.chunkSize).length =
        (u.section'.chunks (inOrder sources) p.1).length := fun hno u hu =>
    ((h.length_chunks hu _).2.mpr (hno u hu)).trans ((h.length_chunks hu _).2.mpr (hno u hu)).symm
  constructor
  · intro hagree
    have hno := h.chunkCount_eq_iff.mp hagree.chunkCount
    have hflat : (p.2.flatMap fun u => u.section'.chunks (inOrder sources) u.chunkSize) =
        p.2.flatMap fun u => u.section'.chunks (inOrder sources) p.1 := by
      have heager : re.chunks.len =
          (p.2.flatMap fun u => u.section'.chunks (inOrder sources) u.chunkSize).length := by
        rw [h.chunks_eager]
        rfl
      have hlengths : (p.2.flatMap fun u =>
            u.section'.chunks (inOrder sources) u.chunkSize).length =
          (p.2.flatMap fun u => u.section'.chunks (inOrder sources) p.1).length := by
        rw [List.length_flatMap, List.length_flatMap]
        exact congrArg List.sum (List.map_congr_left (hlen hno))
      refine List.ext_getElem hlengths fun i h1 h2 => ?_
      have hi := hagree.debugChunk i (heager ▸ h1) re.init rl.init .init .init
      rw [(re.chunks.get_eq_find re.segments (re.coherent_init C).2 i).1,
        (rl.chunks.get_eq_find rl.segments (rl.coherent_init C).2 i).1, h.find_eager,
        h.find_lazy hno, List.getElem?_eq_getElem h1, List.getElem?_eq_getElem h2] at hi
      exact Except.ok.inj hi
    intro u hu
    exact (h.chunks_eq_iff hu (hno u hu)).mp ((flatMap_eq_iff (hlen hno)).mp hflat u hu)
  · intro hfixed
    have hno : ∀ u ∈ p.2, u.section'.NoOverflow (inOrder sources) := fun u hu => (hfixed u hu).1
    have hcount := h.chunkCount_eq_iff.mpr hno
    have hflat : (p.2.flatMap fun u => u.section'.chunks (inOrder sources) u.chunkSize) =
        p.2.flatMap fun u => u.section'.chunks (inOrder sources) p.1 :=
      (flatMap_eq_iff (hlen hno)).mpr fun u hu => (h.chunks_eq_iff hu (hno u hu)).mpr (hfixed u hu)
    have hfind : ∀ i, re.chunks.find re.segments i = rl.chunks.find rl.segments i := by
      intro i
      rw [h.find_eager, h.find_lazy hno, hflat, hcount, h.len_lazy]
    have hpage : ∀ i, re.page C i = rl.page C i := by
      intro i
      rw [EwfReader.page, EwfReader.page, hfind, h.chunkSize_eager, h.chunkSize_lazy,
        h.segments_eager, h.segments_lazy]
    have htotal := h.totalSize hcount
    refine ⟨hcount, htotal, fun i _ ste stl hste hstl => ?_, fun ste stl hste hstl off len => ?_⟩
    · rw [(re.chunks.get_eq_find re.segments hste.coherent.2 i).1,
        (rl.chunks.get_eq_find rl.segments hstl.coherent.2 i).1, hfind]
    · rw [(re.readAt_eq_read C hste.coherent off len).1,
        (rl.readAt_eq_read C hstl.coherent off len).1]
      exact EwfReader.read_congr (h.chunkSize_eager.trans h.chunkSize_lazy.symm) htotal hpage
        off len

/-- An image whose volume declares chunks of one sector, followed by a table of one raw chunk,
its two sectors and a `disk` section that declares chunks of two. -/
def twoVolumeImage : Segment :=
  ⟨Image.encodeSegment 1
    [⟨.volume, Image.volumeFront 1 1 1 512 2 ++ List.replicate 70 0⟩,
      ⟨.table, Image.tableBytes 0 true [363] []⟩, ⟨.sectors, List.replicate 1024 7⟩,
      ⟨.disk, Image.volumeFront 1 1 2 512 2 ++ List.replicate 70 0⟩] .done 0, by decide +kernel⟩

/-- The first chunk's metadata and the bytes of the second sector, with both stores. -/
def bothStores (source : Segment) :
    Option (EwfReader × EwfReader × Except EwfError Chunk × Except EwfError Chunk) :=
  match openFromSources Crates.reference [source],
    openLazyFromSources Crates.reference [source] with
  | .ok re, .ok rl =>
    some (re, rl, (re.chunks.get re.segments re.init.sections 0).1,
      (rl.chunks.get rl.segments rl.init.sections 0).1)
  | _, _ => none

theorem bothStores_eq_some {source : Segment} {re rl : EwfReader} {ce cl : Except EwfError Chunk}
    (h : bothStores source = some (re, rl, ce, cl)) :
    openFromSources Crates.reference [source] = .ok re ∧
      openLazyFromSources Crates.reference [source] = .ok rl ∧
      (re.chunks.get re.segments re.init.sections 0).1 = ce ∧
      (rl.chunks.get rl.segments rl.init.sections 0).1 = cl := by
  rw [bothStores] at h
  split at h
  · next re' rl' he hl =>
      simp only [Option.some.injEq, Prod.mk.injEq] at h
      obtain ⟨rfl, rfl, rfl, rfl⟩ := h
      exact ⟨he, hl, rfl, rfl⟩
  · cases h

theorem stores_agree_iff_rawImage :
    ∃ re rl, openFromSources Crates.reference [rawImage] = .ok re ∧
      openLazyFromSources Crates.reference [rawImage] = .ok rl ∧
      (Agree Crates.reference re rl ↔ SameTable (inOrder [rawImage])) := by
  have hsome : (bothStores rawImage).isSome = true := by decide +kernel
  obtain ⟨⟨re, rl, ce, cl⟩, h⟩ := Option.isSome_iff_exists.mp hsome
  obtain ⟨he, hl, -, -⟩ := bothStores_eq_some h
  exact ⟨re, rl, he, hl, stores_agree_iff Crates.reference [rawImage] defaultLruSize defaultLruSize
    defaultSectionCache re rl he hl⟩

/-- The eager store has the chunk with one sector, the lazy one with two. -/
theorem twoVolumeImage_not_agree :
    ∃ re rl, openFromSources Crates.reference [twoVolumeImage] = .ok re ∧
      openLazyFromSources Crates.reference [twoVolumeImage] = .ok rl ∧
      re.chunks.find re.segments 0 = .ok ⟨0, false, 363, 512⟩ ∧
      rl.chunks.find rl.segments 0 = .ok ⟨0, false, 363, 1024⟩ ∧
      ¬ Agree Crates.reference re rl := by
  have hval : (bothStores twoVolumeImage).map (fun v => (v.1.chunks.len, v.2.2)) =
      some (1, .ok ⟨0, false, 363, 512⟩, .ok ⟨0, false, 363, 1024⟩) := by decide +kernel
  obtain ⟨⟨re, rl, ce, cl⟩, h, hv⟩ := Option.map_eq_some_iff.mp hval
  obtain ⟨he, hl, hce, hcl⟩ := bothStores_eq_some h
  obtain ⟨hlen, rfl, rfl⟩ : re.chunks.len = 1 ∧ ce = .ok ⟨0, false, 363, 512⟩ ∧
      cl = .ok ⟨0, false, 363, 1024⟩ := by simpa using hv
  refine ⟨re, rl, he, hl, ?_, ?_, fun hagree => ?_⟩
  · rw [← (re.chunks.get_eq_find re.segments (re.coherent_init Crates.reference).2 0).1, hce]
  · rw [← (rl.chunks.get_eq_find rl.segments (rl.coherent_init Crates.reference).2 0).1, hcl]
  · have h0 := hagree.debugChunk 0 (by omega) re.init rl.init .init .init
    rw [hce, hcl] at h0
    have hsize := congrArg Chunk.size (Except.ok.inj h0)
    simp at hsize

end EwfForensic

import EwfForensic.Forensic.CoverageV1
import EwfForensic.Lib.Panics

/-!
# The v1 Walk and Tables, With Their Panics

The parsers, `walk_sections_v1`, `check_volume_v1`, `check_table_v1` and `iter_segment_chunks`
once more, now with every unguarded slice, index, copy and cast as an operation that may panic.
Reads through `get` and saturating arithmetic cannot, and are those of the analysis itself.
Allocation is taken to succeed.

Each group of functions is followed by the lemmas that they return what their namesakes in
`EwfForensic` return. The guards of the source carry these lemmas: a length test before a slice,
a field's width before a cast (`Section.Fits`), the range tests of `iter_segment_chunks` before
the slices of the hash loops (`mem_iterSegmentChunks`).
-/

namespace EwfForensic

open Octets Panics

/-! ### Sections and ranges in bounds -/

/-- The numbers that a walker records fit 64 bits. -/
def Section.Fits (s : Section) : Prop := s.offset ≤ u64Max ∧ s.size ≤ u64Max

theorem sectionSize_of_parse {raw : List UInt8} {pos : ℕ} {desc : SectionDescriptor}
    (h : SectionDescriptor.parse raw pos = .ok desc) :
    desc.next ≤ u64Max ∧ desc.sectionSize ≤ u64Max := by
  rw [SectionDescriptor.parse] at h
  split_ifs at h
  obtain rfl := Except.ok.inj h
  exact ⟨leU64_le _ _, leU64_le _ _⟩

/-- The walk goes on only to positions that fit 64 bits. -/
theorem walkStep_next_le {data : List UInt8} {pos next : ℕ}
    {a : Section × List EwfIntegrityAnomaly} (h : walkStep data pos = some (a, some next)) :
    next ≤ u64Max := by
  rw [walkStep] at h
  split at h
  · cases h
  · next raw hraw =>
      split at h
      · cases h
      · next desc hdesc =>
          simp only at h
          split_ifs at h <;>
            simp only [Option.some.injEq, Prod.mk.injEq, reduceCtorEq, and_false] at h
          exact h.2 ▸ (sectionSize_of_parse hdesc).1

/-- Every section that the walk records fits. -/
theorem fits_of_mem_walkSectionsV1 {data : List UInt8} {s : Section}
    (hs : s ∈ walkSectionsV1 data) : s.Fits := by
  rw [walkSectionsV1, List.mem_map] at hs
  obtain ⟨p, hp, rfl⟩ := hs
  refine @Loop.forall_visits _ _ (walkStep data) (fun pos => pos ≤ u64Max) (fun p => p.1.Fits)
    (fun _ _ _ _ h => walkStep_next_le h) ?_ _ _ (by decide) p hp
  intro pos a t hpos hstep
  rw [walkStep] at hstep
  split at hstep
  · cases hstep
  · split at hstep
    · cases hstep
    · next desc hdesc =>
        have hsize := (sectionSize_of_parse hdesc).2
        simp only at hstep
        split_ifs at hstep <;>
          · simp only [Option.some.injEq, Prod.mk.injEq] at hstep
            rw [← hstep.1]
            exact ⟨hpos, hsize⟩

/-- Every section that the walks of some segments record fits. -/
theorem fits_of_mem_map_walkSectionsV1 (segments : List (List UInt8)) :
    ∀ sections ∈ segments.map walkSectionsV1, ∀ s ∈ sections, s.Fits := by
  intro sections hsections s hs
  obtain ⟨d, -, rfl⟩ := List.mem_map.mp hsections
  exact fits_of_mem_walkSectionsV1 hs

/-- A chunk range that the table loop finds is not inverted and lies in the segment. -/
theorem mem_iterSegmentChunks {data : List UInt8} {sections : List Section} {c : ChunkRange}
    (hc : c ∈ iterSegmentChunks data sections) : c.start ≤ c.stop ∧ c.stop ≤ data.length := by
  rw [iterSegmentChunks] at hc
  split at hc
  · simp only at hc
    split_ifs at hc
    · cases hc
    · split at hc
      · cases hc
      · obtain ⟨j, hj⟩ := List.mem_iff_getElem?.mp hc
        obtain ⟨-, -, hstep⟩ := Loop.getElem?_forBreak.mp hj
        rw [chunkStep] at hstep
        split at hstep
        · cases hstep
        · simp only at hstep
          split at hstep
          · cases hstep
          · split_ifs at hstep with hout
            obtain rfl := Option.some.inj hstep
            push Not at hout
            exact ⟨hout.1.le, hout.2⟩
  · cases hc

namespace Checked

/-! ### Fields and parsers -/

/-- `array_at`: what `get` finds is copied over an all-zero array. -/
def copied (n : ℕ) (found : Option (List UInt8)) : Run (Digest.Bytes n) :=
  match found with
  | some s => copyFromSlice n s
  | none => .ok (Digest.zero n)

/-- `le_u16`, `le_u32` and `le_u64`, for two, four and eight bytes. -/
def leAt (w : ℕ) (data : List UInt8) (off : ℕ) : Run ℕ := do
  let b ← copied w (slice? data off (satAdd off w))
  .ok (ofLE b.val)

/-- `SectionDescriptor::parse`. -/
def SectionDescriptor.parse (buf : List UInt8) (offset : ℕ) :
    Run (Except EwfError SectionDescriptor) :=
  if buf.length < sectionDescriptorSize then
    .ok (.error (.bufferTooShort sectionDescriptorSize buf.length))
  else do
    let field ← sliceTo buf 16
    let typeEnd := (field.findIdx? (· = 0)).getD 16
    let sectionType ← sliceTo buf typeEnd
    .ok (.ok
      { sectionType := SectionType.ofName sectionType
        next := leU64 buf 16
        sectionSize := leU64 buf 24
        offset := offset
        storedCrc := leU32 buf sectionDescriptorCrcOffset })

/-- `EwfVolume::parse`. -/
def EwfVolume.parse (buf : List UInt8) : Run (Except EwfError EwfVolume) :=
  if buf.length < 24 then .ok (.error (.bufferTooShort 24 buf.length))
  else do
    let mediaType ← index buf 0
    let setIdentifier ← copied 16 (slice? buf 64 80)
    .ok (.ok
      { chunkCount := leU32 buf 4
        sectorsPerChunk := leU32 buf 8
        bytesPerSector := leU32 buf 12
        sectorCount := leU64 buf 16
        mediaType := mediaType
        setIdentifier := setIdentifier
        storedCrc :=
          if volumeBodyFullSize ≤ buf.length then some (leU32 buf volumeBodyCrcOffset) else none })

section Parsers

variable {data buf : List UInt8}

theorem copied_some {n : ℕ} {s : List UInt8} (h : s.length = n) :
    copied n (some s) = .ok ⟨s, h⟩ :=
  copyFromSlice_ok h

theorem copied_ok (n : ℕ) (data : List UInt8) (off : ℕ) :
    copied n (slice? data off (off + n)) = .ok (Digest.bytesAt n data off) := by
  rw [Digest.bytesAt, Digest.bytesAt?]
  cases hs : slice? data off (off + n) with
  | none =>
      have hlt := slice?_eq_none_iff.mp hs (Nat.le_add_right _ _)
      split_ifs with h
      · rw [List.length_take, List.length_drop] at h
        have hn : n = 0 := by omega
        subst hn
        rfl
      · rfl
  | some s =>
      have hlen : s.length = n := by rw [length_of_slice? hs, Nat.add_sub_cancel_left]
      obtain ⟨-, -, rfl⟩ := slice?_eq_some_iff.mp hs
      simp only [Nat.add_sub_cancel_left] at hlen ⊢
      rw [copied_some hlen, dif_pos hlen, Option.getD_some]

theorem ofLE_zero (w : ℕ) : ofLE (Digest.zero w).val = 0 := by
  change ofLE (List.replicate w 0) = 0
  induction w with
  | zero => rfl
  | succ w ih => simp [List.replicate_succ, ofLE, ih]

theorem leAt_ok (hdata : data.length < u64Max) (w off : ℕ) :
    leAt w data off = .ok (Octets.leAt w data off) := by
  rw [leAt, Octets.leAt, slice?_satAdd hdata]
  cases hs : slice? data off (off + w) with
  | none =>
      change Except.ok (ofLE (Digest.zero w).val) = _
      rw [ofLE_zero]
  | some s =>
      have hlen : s.length = w := by rw [length_of_slice? hs, Nat.add_sub_cancel_left]
      rw [copied_some hlen, ok_bind]

theorem SectionDescriptor.parse_ok (buf : List UInt8) (offset : ℕ) :
    SectionDescriptor.parse buf offset = .ok (EwfForensic.SectionDescriptor.parse buf offset) := by
  rw [SectionDescriptor.parse, EwfForensic.SectionDescriptor.parse]
  split_ifs with h
  · rfl
  · have h16 : 16 ≤ buf.length := by
      change ¬ buf.length < 76 at h
      omega
    have hfield : (buf.take 16).length = 16 := by
      rw [List.length_take]
      omega
    have hfind : ((buf.take 16).findIdx? (· = 0)).getD 16 = (buf.take 16).findIdx (· = 0) := by
      rw [List.findIdx_eq_getD_findIdx?, hfield]
    have hend : (buf.take 16).findIdx (· = 0) ≤ 16 :=
      le_of_le_of_eq List.findIdx_le_length hfield
    have hname : buf.take ((buf.take 16).findIdx (· = 0)) = (buf.take 16).takeWhile (· ≠ 0) := by
      have h := take_findIdx (fun b : UInt8 => decide (b = 0)) (buf.take 16)
      rw [List.take_take, Nat.min_eq_left hend] at h
      simpa using h
    simp only [sliceTo_ok h16, ok_bind, hfind, sliceTo_ok (hend.trans h16), hname]
    rfl

theorem EwfVolume.parse_ok (buf : List UInt8) :
    EwfVolume.parse buf = .ok (EwfForensic.EwfVolume.parse buf) := by
  rw [EwfVolume.parse, EwfForensic.EwfVolume.parse]
  by_cases h : buf.length < 24
  · rw [if_pos h, if_pos h]
  · have hmedia : buf[0]? = some (buf.headD 0) := by
      cases buf with
      | nil => exact absurd (by decide) h
      | cons b bs => rfl
    rw [if_neg h, if_neg h]
    simp only [index_ok hmedia, copied_ok 16 buf 64, ok_bind]
    rfl

end Parsers

/-! ### The descriptor walk -/

/-- The anomalies of a descriptor on its own. -/
def descriptorIssues (raw : List UInt8) (desc : SectionDescriptor) :
    Run (List EwfIntegrityAnomaly) := do
  let crcIssues ←
    (if desc.verifyCrc raw then .ok []
    else do
      let covered ← slice raw 0 sectionDescriptorCrcOffset
      .ok [.sectionDescriptorCrcMismatch desc.offset desc.sectionType (adler32 covered)
        desc.storedCrc] : Run (List EwfIntegrityAnomaly))
  .ok (crcIssues ++ if desc.sectionType ∈ knownTypes then []
    else [.unknownSectionType desc.offset desc.sectionType])

/-- The anomaly for the gap between a section's end and the next descriptor. -/
def gapIssues (data : List UInt8) (sectionEnd next : ℕ) : Run (List EwfIntegrityAnomaly) :=
  if next > sectionEnd then do
    let s ← asUsize sectionEnd
    let e ← asUsize next
    .ok (if (slice? data s e).any fun gap => gap.any (· ≠ 0) then
        [.sectionGapNonZero sectionEnd (next - sectionEnd)]
      else [.sectionGapZero sectionEnd (next - sectionEnd)])
  else .ok []

/-- One turn of the loop of `walk_sections_v1`. -/
def walkStep (data : List UInt8) (pos : ℕ) :
    Run (Option ((Section × List EwfIntegrityAnomaly) × Option ℕ)) := do
  let off ← asUsize pos
  if satAdd off sectionDescriptorSize > data.length then .ok none
  else
    let raw ← slice data off (satAdd off sectionDescriptorSize)
    match ← SectionDescriptor.parse raw pos with
    | .error _ => .ok none
    | .ok desc =>
      let sec : Section := ⟨desc.sectionType, pos, desc.sectionSize⟩
      let issues ← descriptorIssues raw desc
      if desc.sectionType = .done ∨ desc.sectionType = .next then .ok (some ((sec, issues), none))
      else if desc.next = 0 ∨ desc.next > data.length ∨ desc.next ≤ pos then
        .ok (some ((sec, issues ++ [.sectionChainBroken pos desc.next]), none))
      else
        let gap ← gapIssues data (satAdd pos desc.sectionSize) desc.next
        .ok (some ((sec, issues ++ gap), some desc.next))

/-- `walk_sections_v1`: the sections visited and the anomalies pushed. -/
def walkSectionsV1 (data : List UInt8) : Run (List Section × List EwfIntegrityAnomaly) := do
  let trace ← visits (walkStep data) (data.length + 1) fileHeaderSize
  .ok (trace.map (·.1), trace.flatMap (·.2))

section Walk

variable {data : List UInt8}

theorem descriptorIssues_ok {raw : List UInt8} (hraw : sectionDescriptorSize ≤ raw.length)
    (desc : SectionDescriptor) :
    descriptorIssues raw desc = .ok (EwfForensic.descriptorIssues raw desc) := by
  have hcovered : sectionDescriptorCrcOffset ≤ raw.length := le_trans (by decide) hraw
  rw [descriptorIssues, EwfForensic.descriptorIssues, slice_zero_ok hcovered]
  by_cases h : desc.verifyCrc raw = true
  · rw [if_pos h, if_pos h, ok_bind]
  · rw [if_neg h, if_neg h, ok_bind, ok_bind]

theorem gapIssues_ok {sectionEnd next : ℕ} (hend : sectionEnd ≤ u64Max) (hnext : next ≤ u64Max) :
    gapIssues data sectionEnd next = .ok (EwfForensic.gapIssues data sectionEnd next) := by
  rw [gapIssues, EwfForensic.gapIssues, asUsize_ok hend, ok_bind, asUsize_ok hnext, ok_bind]
  by_cases h : next > sectionEnd
  · rw [if_pos h, if_pos h]
  · rw [if_neg h, if_neg h]

/-- **One turn of the walk does not panic.** The length test makes room for the descriptor, and
every parsed descriptor has the 72 bytes its checksum covers. -/
theorem walkStep_ok (hdata : data.length < u64Max) {pos : ℕ} (hpos : pos ≤ u64Max) :
    walkStep data pos = .ok (EwfForensic.walkStep data pos) := by
  rw [walkStep, EwfForensic.walkStep, asUsize_ok hpos, ok_bind]
  by_cases h : satAdd pos sectionDescriptorSize > data.length
  · have hs : slice? data pos (satAdd pos sectionDescriptorSize) = none :=
      slice?_eq_none_iff.mpr fun _ => h
    rw [if_pos h, hs]
  · obtain ⟨raw, hraw⟩ : ∃ raw, slice? data pos (satAdd pos sectionDescriptorSize) = some raw :=
      ⟨_, slice?_of_le (le_satAdd_left hpos) (not_lt.mp h)⟩
    have hlen : sectionDescriptorSize ≤ raw.length := by
      have hpos' : pos + 76 ≤ data.length := (satAdd_le_iff hdata).mp (not_lt.mp h)
      have hsat : satAdd pos sectionDescriptorSize = pos + 76 := @satAdd_eq pos 76 (by omega)
      rw [length_of_slice? hraw, hsat, Nat.add_sub_cancel_left]
    rw [if_neg h, hraw, slice_of_slice? hraw, ok_bind, SectionDescriptor.parse_ok]
    simp only [SectionDescriptor.parse_of_le hlen, descriptorIssues_ok hlen, ok_bind]
    have hnext : (SectionDescriptor.ofBytes raw pos).next ≤ u64Max := leU64_le raw 16
    split_ifs
    · rfl
    · rfl
    · rw [gapIssues_ok (satAdd_le_u64Max _ _) hnext, ok_bind]

theorem walkSectionsV1_ok (hdata : data.length < u64Max) :
    walkSectionsV1 data = .ok (EwfForensic.walkSectionsV1 data, EwfForensic.walkIssuesV1 data) := by
  have hvisits := @visits_ok _ _ (walkStep data) (EwfForensic.walkStep data)
    (fun pos => pos ≤ u64Max) (fun _ hpos => walkStep_ok hdata hpos)
    (fun _ _ _ _ h => walkStep_next_le h) (data.length + 1) fileHeaderSize (by decide)
  rw [walkSectionsV1, hvisits, ok_bind]
  rfl

end Walk

/-! ### Geometry and tables -/

/-- The anomalies of a parsed volume body. -/
def volumeIssues (vol : List UInt8) (parsed : EwfVolume) : Run (List EwfIntegrityAnomaly) := do
  let maxSectors := satMul parsed.chunkCount parsed.sectorsPerChunk
  let minSectors := maxSectors - parsed.sectorsPerChunk
  let crcIssues ←
    (if parsed.verifyCrc vol = some false then do
      let covered ← slice vol 0 volumeBodyCrcOffset
      .ok [.volumeBodyCrcMismatch (adler32 covered) (parsed.storedCrc.getD 0)]
    else .ok [] : Run (List EwfIntegrityAnomaly))
  .ok (
    (if parsed.mediaType ∈ validMediaTypes then [] else [.mediaTypeUnknown parsed.mediaType]) ++
    (if parsed.bytesPerSector ≠ 512 ∧ parsed.bytesPerSector ≠ 4096 then
      [.bytesPerSectorInvalid parsed.bytesPerSector] else []) ++
    (if parsed.sectorsPerChunk = 0 ∨ ¬ isPowerOfTwo parsed.sectorsPerChunk then
      [.chunkSizeInvalid parsed.sectorsPerChunk parsed.bytesPerSector] else []) ++
    (if isPowerOfTwo parsed.sectorsPerChunk ∧
        (parsed.sectorCount > maxSectors ∨
          parsed.chunkCount > 0 ∧ parsed.sectorCount ≤ minSectors) then
      [.sectorCountMismatch parsed.sectorCount maxSectors] else []) ++
    crcIssues)

/-- `check_volume_v1`: the geometry, if the body parses, and the anomalies. -/
def checkVolumeV1 (data : List UInt8) (descOffset sectionSize : ℕ) :
    Run (Option VolumeGeometry × List EwfIntegrityAnomaly) := do
  let off ← asUsize descOffset
  let dataStart := satAdd off sectionDescriptorSize
  if data.length < satAdd dataStart volumeDataMin then .ok (none, [])
  else
    let size ← asUsize sectionSize
    let volEnd := min (satAdd dataStart (size - sectionDescriptorSize)) data.length
    let vol ← slice data dataStart volEnd
    match ← EwfVolume.parse vol with
    | .error _ => .ok (none, [])
    | .ok parsed =>
      let issues ← volumeIssues vol parsed
      .ok (some ⟨parsed.chunkCount, parsed.sectorsPerChunk, parsed.bytesPerSector,
        parsed.sectorCount, parsed.setIdentifier⟩, issues)

/-- `check_table_v1`. -/
def checkTableV1 (data : List UInt8) (descOffset : ℕ) (volumeChunkCount : Option ℕ)
    (fileSize : ℕ) (sectorsRange : Option (ℕ × ℕ)) : Run (List EwfIntegrityAnomaly) := do
  let off ← asUsize descOffset
  let dataStart := satAdd off sectionDescriptorSize
  if data.length < satAdd dataStart tableHeaderSize then .ok []
  else
    let tbl ← sliceFrom data dataStart
    match TableHeader.parse tbl with
    | .error _ => .ok []
    | .ok header =>
      let entriesStart := satAdd dataStart tableHeaderSize
      let crcIssues ←
        (if header.verifyCrc tbl = some false then do
          let covered ← slice tbl 0 tableHeaderCrcOffset
          .ok [.tableHeaderAdler32Mismatch (adler32 covered) header.storedCrc]
        else .ok [] : Run (List EwfIntegrityAnomaly))
      let entries ← forBreak (fun i => do
        let idx ← asUsize i
        .ok ((entryAt data entriesStart idx).map
          (entryIssues header.baseOffset fileSize sectorsRange i))) header.entryCount 0
      .ok (crcIssues ++
        (match volumeChunkCount with
          | some volCount =>
            if header.entryCount ≠ volCount then
              [.tableChunkCountMismatch volCount header.entryCount] else []
          | none => []) ++
        entries.flatten)

/-- `iter_segment_chunks`. The loop reads its entries through `get`. -/
def iterSegmentChunks (data : List UInt8) (sections : List Section) : Run (List ChunkRange) :=
  match findSection sections .table, findSection sections .sectors with
  | some table, some sectors => do
    let off ← asUsize table.offset
    let tblDataStart := satAdd off sectionDescriptorSize
    if data.length < satAdd tblDataStart tableHeaderSize then .ok []
    else
      let tbl ← sliceFrom data tblDataStart
      match TableHeader.parse tbl with
      | .error _ => .ok []
      | .ok header =>
        let baseOffset ← asUsize header.baseOffset
        let sectorsBodyEnd ← asUsize (satAdd sectors.offset sectors.size)
        .ok (Loop.forBreak
          (chunkStep data header.entryCount baseOffset (satAdd tblDataStart tableHeaderSize)
            sectorsBodyEnd)
          header.entryCount 0)
  | _, _ => .ok []

section Tables

variable {data : List UInt8}

theorem volumeIssues_ok {vol : List UInt8} {parsed : EwfVolume}
    (hcrc : parsed.verifyCrc vol = some false → volumeBodyCrcOffset ≤ vol.length) :
    volumeIssues vol parsed = .ok (EwfForensic.volumeIssues vol parsed) := by
  rw [volumeIssues, EwfForensic.volumeIssues]
  by_cases h : parsed.verifyCrc vol = some false
  · simp only [if_pos h, slice_zero_ok (hcrc h), ok_bind]
  · simp only [if_neg h, ok_bind]

/-- A body checksum is stored only in a body that it covers. -/
theorem volumeBodyCrcOffset_le {vol : List UInt8}
    (h : (EwfVolume.ofBytes vol).verifyCrc vol = some false) :
    volumeBodyCrcOffset ≤ vol.length := by
  rw [EwfVolume.verifyCrc] at h
  obtain ⟨crc, hcrc, -⟩ := Option.map_eq_some_iff.mp h
  simp only [EwfVolume.ofBytes] at hcrc
  split_ifs at hcrc with hfull
  exact le_trans (by decide) hfull

/-- **The geometry check does not panic.** The 24 bytes that the length test asks for keep the
body's range from being inverted. -/
theorem checkVolumeV1_ok {descOffset sectionSize : ℕ}
    (hoff : descOffset ≤ u64Max) (hsize : sectionSize ≤ u64Max) :
    checkVolumeV1 data descOffset sectionSize =
      .ok (EwfForensic.checkVolumeV1 data descOffset sectionSize) := by
  rw [checkVolumeV1, EwfForensic.checkVolumeV1, asUsize_ok hoff, ok_bind]
  by_cases h : data.length < satAdd (satAdd descOffset sectionDescriptorSize) volumeDataMin
  · rw [if_pos h, if_pos h]
  · have hstart : satAdd descOffset sectionDescriptorSize ≤ data.length :=
      (le_satAdd_left (satAdd_le_u64Max _ _)).trans (not_lt.mp h)
    have hslice : slice data (satAdd descOffset sectionDescriptorSize)
        (min (satAdd (satAdd descOffset sectionDescriptorSize)
          (sectionSize - sectionDescriptorSize)) data.length) =
        .ok (volumeBody data descOffset sectionSize) :=
      slice_ok (le_min (le_satAdd_left (satAdd_le_u64Max _ _)) hstart) (min_le_right _ _)
    rw [if_neg h, if_neg h, asUsize_ok hsize]
    simp only [ok_bind, hslice, EwfVolume.parse_ok]
    by_cases hlen : (volumeBody data descOffset sectionSize).length < 24
    · rw [EwfForensic.EwfVolume.parse, if_pos hlen]
    · rw [EwfVolume.parse_of_le (not_lt.mp hlen)]
      simp only [volumeIssues_ok volumeBodyCrcOffset_le, ok_bind]

/-- **The table check does not panic.** The length test makes room for the whole header. -/
theorem checkTableV1_ok {descOffset fileSize : ℕ} (hoff : descOffset ≤ u64Max)
    (volumeChunkCount : Option ℕ) (sectorsRange : Option (ℕ × ℕ)) :
    checkTableV1 data descOffset volumeChunkCount fileSize sectorsRange =
      .ok (EwfForensic.checkTableV1 data descOffset volumeChunkCount fileSize sectorsRange) := by
  rw [checkTableV1, EwfForensic.checkTableV1, asUsize_ok hoff, ok_bind]
  by_cases h : data.length < satAdd (satAdd descOffset sectionDescriptorSize) tableHeaderSize
  · rw [if_pos h, if_pos h]
  · have hstart : satAdd descOffset sectionDescriptorSize ≤ data.length :=
      (le_satAdd_left (satAdd_le_u64Max _ _)).trans (not_lt.mp h)
    rw [if_neg h, if_neg h, sliceFrom_ok hstart]
    simp only [ok_bind]
    by_cases hlen : (data.drop (satAdd descOffset sectionDescriptorSize)).length <
        tableHeaderCrcOffset
    · rw [TableHeader.parse, if_pos hlen]
    · rw [TableHeader.parse_of_le (not_lt.mp hlen)]
      have hloop : ∀ entriesStart base,
          forBreak (fun i => do
            let idx ← asUsize i
            .ok ((entryAt data entriesStart idx).map (entryIssues base fileSize sectorsRange i)))
            (leU32 (data.drop (satAdd descOffset sectionDescriptorSize)) 0) 0 =
          .ok (Loop.forBreak (fun i => (entryAt data entriesStart i).map
            (entryIssues base fileSize sectorsRange i))
            (leU32 (data.drop (satAdd descOffset sectionDescriptorSize)) 0) 0) := by
        intro entriesStart base
        refine forBreak_ok fun j _ hj => ?_
        have hcount := leU32_lt (data.drop (satAdd descOffset sectionDescriptorSize)) 0
        rw [asUsize_ok (by unfold u64Max; omega), ok_bind]
      have hcovered : tableHeaderCrcOffset ≤
          (data.drop (satAdd descOffset sectionDescriptorSize)).length := not_lt.mp hlen
      simp only [slice_zero_ok hcovered, ok_bind]
      split_ifs with hcrc
      · simp only [ok_bind]
        change (forBreak _ (leU32 _ 0) 0 >>= _) = _
        rw [hloop, ok_bind]
        rfl
      · simp only [ok_bind]
        change (forBreak _ (leU32 _ 0) 0 >>= _) = _
        rw [hloop, ok_bind]
        rfl

/-- **The table loop does not panic.** -/
theorem iterSegmentChunks_ok {sections : List Section} (hfits : ∀ s ∈ sections, s.Fits) :
    iterSegmentChunks data sections = .ok (EwfForensic.iterSegmentChunks data sections) := by
  rw [iterSegmentChunks, EwfForensic.iterSegmentChunks]
  cases ht : findSection sections .table with
  | none => rfl
  | some table =>
      cases hs : findSection sections .sectors with
      | none => rfl
      | some sectors =>
          have hoff : table.offset ≤ u64Max := (hfits table (mem_of_findSection ht)).1
          simp only [asUsize_ok hoff, ok_bind]
          by_cases h : data.length <
              satAdd (satAdd table.offset sectionDescriptorSize) tableHeaderSize
          · rw [if_pos h, if_pos h]
          · have hstart : satAdd table.offset sectionDescriptorSize ≤ data.length :=
              (le_satAdd_left (satAdd_le_u64Max _ _)).trans (not_lt.mp h)
            rw [if_neg h, if_neg h, sliceFrom_ok hstart, ok_bind]
            by_cases hlen : (data.drop (satAdd table.offset sectionDescriptorSize)).length <
                tableHeaderCrcOffset
            · rw [TableHeader.parse, if_pos hlen]
            · have hbase : (TableHeader.ofBytes
                  (data.drop (satAdd table.offset sectionDescriptorSize))).baseOffset ≤ u64Max :=
                leU64_le _ 8
              rw [TableHeader.parse_of_le (not_lt.mp hlen)]
              simp only [asUsize_ok hbase, asUsize_ok (satAdd_le_u64Max _ _), ok_bind]

end Tables

end Checked

end EwfForensic

import EwfForensic.Forensic.CheckedV1
import EwfForensic.Forensic.LocateChunk
import EwfForensic.Forensic.SectionViews

/-!
# The Recovery, With Its Panics

The decoding of `recover_segments` with the operations that may panic: the recovery walk, the
geometry, the tables, `decode_chunk` with its four trailing bytes read one by one, and the
vectors of segments that the main loop indexes with what `locate_chunk` returns.

* `decodeGlobal_ok` — one chunk: a located segment is a segment of the list.
* `recoverRun_ok` — the whole main loop returns what its namesake returns.
-/

namespace EwfForensic.Checked.Recover

open Octets Panics EwfForensic.Recover

/-! ### Sections, geometry and tables -/

/-- One turn of the loop of `walk_sections`. -/
def walkStep (data : List UInt8) (pos : ℕ) : Run (Option ((Section × Option ℕ) × Option ℕ)) := do
  let off ← asUsize pos
  if satAdd off sectionDescriptorSize > data.length then .ok none
  else
    let raw ← slice data off (satAdd off sectionDescriptorSize)
    match ← SectionDescriptor.parse raw pos with
    | .error _ => .ok none
    | .ok desc =>
      let sec : Section := ⟨desc.sectionType, pos, desc.sectionSize⟩
      if desc.sectionType = .done ∨ desc.sectionType = .next then .ok (some ((sec, none), none))
      else if desc.next = 0 ∨ desc.next ≤ pos then .ok (some ((sec, none), none))
      else if desc.next > data.length then .ok (some ((sec, some desc.next), none))
      else .ok (some ((sec, none), some desc.next))

/-- `walk_sections`: the sections parsed. The offset of a break is a position or a `next` field,
which take no further operation. -/
def walkSections (data : List UInt8) : Run (List Section) := do
  let trace ← visits (walkStep data) (data.length + 1) fileHeaderSize
  .ok (trace.map (·.1))

/-- `read_geometry`. -/
def readGeometry (data : List UInt8) (sections : List Section) : Run (Option Geometry) :=
  match findVolume sections with
  | none => .ok none
  | some vol => do
    let off ← asUsize vol.offset
    let size ← asUsize vol.size
    let dataStart := satAdd off sectionDescriptorSize
    let volEnd := min (satAdd dataStart (size - sectionDescriptorSize)) data.length
    match slice? data dataStart volEnd with
    | none => .ok none
    | some body =>
      match ← EwfVolume.parse body with
      | .error _ => .ok none
      | .ok parsed =>
        if parsed.sectorsPerChunk = 0 ∨ parsed.bytesPerSector = 0 then .ok none
        else .ok (some ⟨parsed.chunkCount, parsed.sectorsPerChunk, parsed.bytesPerSector,
          parsed.sectorCount⟩)

/-- `table_ref`, for the first section of type `name`. -/
def tableRef (data : List UInt8) (sections : List Section) (name : SectionType) :
    Run (Option TableRef) :=
  match findSection sections name with
  | none => .ok none
  | some sec => do
    let off ← asUsize sec.offset
    let hdrStart := satAdd off sectionDescriptorSize
    match slice? data hdrStart (satAdd hdrStart tableHeaderSize) with
    | none => .ok none
    | some hdr =>
      match TableHeader.parse hdr with
      | .error _ => .ok none
      | .ok header =>
        .ok (some ⟨header.entryCount, header.baseOffset, satAdd hdrStart tableHeaderSize⟩)

/-- `sectors_data_end`. -/
def sectorsDataEnd (sections : List Section) (dataLen : ℕ) : Run (Option ℕ) :=
  match findSection sections .sectors with
  | none => .ok none
  | some sec => do
    let stop ← asUsize (satAdd sec.offset sec.size)
    .ok (some (min stop dataLen))

/-- `chunk_range`. -/
def chunkRange (data : List UInt8) (t : TableRef) (i : ℕ) (sectorsEnd : Option ℕ) :
    Run (Option ChunkRange) :=
  match t.entryAt data i with
  | none => .ok none
  | some (compressed, abs) => do
    let start ← asUsize abs
    let stop? ←
      (if satAdd i 1 < t.entryCount then
        match t.entryAt data (satAdd i 1) with
        | none => .ok none
        | some (_, nextAbs) => do
          let stop ← asUsize nextAbs
          .ok (some stop)
      else .ok (some (sectorsEnd.getD data.length)) : Run (Option ℕ))
    .ok (match stop? with
      | none => none
      | some stop =>
        if start ≥ stop ∨ stop > data.length then none else some ⟨start, stop, compressed⟩)

/-- The stored checksum after an uncompressed chunk. -/
def trailingCrc (raw : List UInt8) (chunkSize : ℕ) : Run ℕ := do
  let b0 ← index raw chunkSize
  let i1 ← add chunkSize 1
  let b1 ← index raw i1
  let i2 ← add chunkSize 2
  let b2 ← index raw i2
  let i3 ← add chunkSize 3
  let b3 ← index raw i3
  .ok (ofLE [b0, b1, b2, b3])

/-- `decode_chunk`. -/
def decodeChunk (C : Crates) (raw : List UInt8) (compressed : Bool) (chunkSize : ℕ) :
    Run (Option (List UInt8 × Bool)) :=
  if compressed then
    .ok (match C.zlib.readUpTo (satAdd chunkSize 1) raw with
      | none => none
      | some out => if out.isEmpty then none else some (out.take chunkSize, true))
  else do
    let crcOk ←
      (if raw.length ≥ satAdd chunkSize 4 then do
        let stored ← trailingCrc raw chunkSize
        let covered ← sliceTo raw chunkSize
        .ok (decide (adler32 covered = stored))
      else .ok true : Run Bool)
    let bytes ← sliceTo raw (min raw.length chunkSize)
    .ok (some (bytes, crcOk))

section Decoding

variable {data : List UInt8}

/-- **One turn of the recovery walk does not panic.** -/
theorem walkStep_ok {pos : ℕ} (hpos : pos ≤ u64Max) :
    walkStep data pos = .ok (EwfForensic.Recover.walkStep data pos) := by
  rw [walkStep, EwfForensic.Recover.walkStep, asUsize_ok hpos, ok_bind]
  by_cases h : satAdd pos sectionDescriptorSize > data.length
  · have hs : slice? data pos (satAdd pos sectionDescriptorSize) = none :=
      slice?_eq_none_iff.mpr fun _ => h
    rw [if_pos h, hs]
  · obtain ⟨raw, hraw⟩ : ∃ raw, slice? data pos (satAdd pos sectionDescriptorSize) = some raw :=
      ⟨_, slice?_of_le (le_satAdd_left hpos) (not_lt.mp h)⟩
    rw [if_neg h, hraw, slice_of_slice? hraw, ok_bind, SectionDescriptor.parse_ok, ok_bind]
    simp only
    cases EwfForensic.SectionDescriptor.parse raw pos with
    | error e => rfl
    | ok desc =>
        simp only
        split_ifs <;> rfl

/-- The walk goes on only within the segment. -/
theorem walkStep_next_le {pos next : ℕ} {a : Section × Option ℕ}
    (h : EwfForensic.Recover.walkStep data pos = some (a, some next)) : next ≤ data.length := by
  rw [EwfForensic.Recover.walkStep] at h
  split at h
  · cases h
  · split at h
    · cases h
    · simp only at h
      split_ifs at h with _ _ hpast <;>
        simp only [Option.some.injEq, Prod.mk.injEq, reduceCtorEq, and_false] at h
      exact h.2 ▸ not_lt.mp hpast

theorem walkSections_ok (hdata : data.length < u64Max) :
    walkSections data = .ok (EwfForensic.Recover.walkSections data) := by
  have hvisits := @visits_ok _ _ (walkStep data) (EwfForensic.Recover.walkStep data)
    (fun pos => pos ≤ u64Max) (fun _ hpos => walkStep_ok hpos)
    (fun _ _ _ _ h => (walkStep_next_le h).trans hdata.le) (data.length + 1) fileHeaderSize
    (by decide)
  rw [walkSections, hvisits, ok_bind]
  rfl

/-- Every section that the recovery walk records fits. -/
theorem fits_of_mem_walkSections {s : Section} (hs : s ∈ EwfForensic.Recover.walkSections data) :
    s.Fits := by
  rw [walkSections_eq_walkSectionsV1] at hs
  exact fits_of_mem_walkSectionsV1 hs

theorem readGeometry_ok {sections : List Section} (hfits : ∀ s ∈ sections, s.Fits) :
    readGeometry data sections = .ok (EwfForensic.Recover.readGeometry data sections) := by
  rw [readGeometry, EwfForensic.Recover.readGeometry]
  cases hvol : findVolume sections with
  | none => rfl
  | some vol =>
      obtain ⟨hoff, hsize⟩ := hfits vol (List.mem_of_find?_eq_some hvol)
      simp only [asUsize_ok hoff, asUsize_ok hsize, ok_bind]
      cases slice? data (satAdd vol.offset sectionDescriptorSize)
          (min (satAdd (satAdd vol.offset sectionDescriptorSize)
            (vol.size - sectionDescriptorSize)) data.length) with
      | none => rfl
      | some body =>
          simp only [EwfVolume.parse_ok, ok_bind]
          cases EwfForensic.EwfVolume.parse body with
          | error e => rfl
          | ok parsed =>
              simp only
              split_ifs <;> rfl

theorem tableRef_ok {sections : List Section} (hfits : ∀ s ∈ sections, s.Fits)
    (name : SectionType) :
    tableRef data sections name = .ok (EwfForensic.Recover.tableRef data sections name) := by
  rw [tableRef, EwfForensic.Recover.tableRef]
  cases hsec : findSection sections name with
  | none => rfl
  | some sec =>
      simp only [asUsize_ok (hfits sec (mem_of_findSection hsec)).1, ok_bind]
      cases slice? data (satAdd sec.offset sectionDescriptorSize)
          (satAdd (satAdd sec.offset sectionDescriptorSize) tableHeaderSize) with
      | none => rfl
      | some hdr =>
          simp only
          cases TableHeader.parse hdr <;> rfl

theorem sectorsDataEnd_ok (sections : List Section) (dataLen : ℕ) :
    sectorsDataEnd sections dataLen =
      .ok (EwfForensic.Recover.sectorsDataEnd sections dataLen) := by
  rw [sectorsDataEnd, EwfForensic.Recover.sectorsDataEnd]
  cases findSection sections .sectors with
  | none => rfl
  | some sec =>
      simp only [asUsize_ok (satAdd_le_u64Max _ _), ok_bind]
      rfl

/-- An entry's absolute offset fits 64 bits. -/
theorem entryAt_le {t : TableRef} {i abs : ℕ} {compressed : Bool}
    (h : t.entryAt data i = some (compressed, abs)) : abs ≤ u64Max := by
  rw [TableRef.entryAt] at h
  split at h
  · cases h
  · split at h
    · cases h
    · simp only [Option.some.injEq, Prod.mk.injEq] at h
      rw [← h.2]
      exact satAdd_le_u64Max _ _

theorem chunkRange_ok (t : TableRef) (i : ℕ) (sectorsEnd : Option ℕ) :
    chunkRange data t i sectorsEnd =
      .ok (EwfForensic.Recover.chunkRange data t i sectorsEnd) := by
  rw [chunkRange, EwfForensic.Recover.chunkRange]
  cases hentry : t.entryAt data i with
  | none => rfl
  | some p =>
      obtain ⟨compressed, abs⟩ := p
      simp only [asUsize_ok (entryAt_le hentry), ok_bind]
      split_ifs with hlast
      · cases hnext : t.entryAt data (satAdd i 1) with
        | none => rfl
        | some q =>
            obtain ⟨flag, nextAbs⟩ := q
            simp only [asUsize_ok (entryAt_le hnext), ok_bind]
            rfl
      · rfl

/-- The range of a decoded chunk is not inverted and lies in the segment. -/
theorem chunkRange_bounds {t : TableRef} {i : ℕ} {sectorsEnd : Option ℕ} {c : ChunkRange}
    (h : EwfForensic.Recover.chunkRange data t i sectorsEnd = some c) :
    c.start ≤ c.stop ∧ c.stop ≤ data.length := by
  rw [EwfForensic.Recover.chunkRange] at h
  split at h
  · cases h
  · simp only at h
    split at h
    · cases h
    · split_ifs at h with hout
      obtain rfl := Option.some.inj h
      push Not at hout
      exact ⟨hout.1.le, hout.2⟩

/-- The four bytes after the chunk are read where the length test finds room for them. -/
theorem trailingCrc_ok {raw : List UInt8} {chunkSize : ℕ} (hraw : raw.length < u64Max)
    (h : chunkSize + 4 ≤ raw.length) :
    trailingCrc raw chunkSize = .ok (ofLE ((raw.drop chunkSize).take 4)) := by
  have hlen : 4 ≤ (raw.drop chunkSize).length := by
    rw [List.length_drop]
    omega
  match hdrop : raw.drop chunkSize, hlen with
  | b0 :: b1 :: b2 :: b3 :: rest, _ =>
      have hget : ∀ k, raw[chunkSize + k]? = (b0 :: b1 :: b2 :: b3 :: rest)[k]? := fun k => by
        rw [← hdrop, List.getElem?_drop]
      have h0 : raw[chunkSize]? = some b0 := hget 0
      rw [trailingCrc, index_ok h0, ok_bind, add_ok (by omega), ok_bind, index_ok (hget 1), ok_bind,
        add_ok (by omega), ok_bind, index_ok (hget 2), ok_bind, add_ok (by omega), ok_bind,
        index_ok (hget 3), ok_bind]
      rfl

/-- **The decoding of a chunk does not panic.** -/
theorem decodeChunk_ok {raw : List UInt8} (hraw : raw.length < u64Max) (C : Crates)
    (compressed : Bool) (chunkSize : ℕ) :
    decodeChunk C raw compressed chunkSize =
      .ok (EwfForensic.Recover.decodeChunk C raw compressed chunkSize) := by
  rw [decodeChunk, EwfForensic.Recover.decodeChunk]
  cases compressed with
  | true => rfl
  | false =>
      have hfront : raw.take (min raw.length chunkSize) = raw.take chunkSize := by
        rw [← List.take_take]
        exact List.take_of_length_le (List.length_take_le' _ _)
      simp only [Bool.false_eq_true, if_false, sliceTo_ok (min_le_left _ _), hfront]
      by_cases h : raw.length ≥ satAdd chunkSize 4
      · have hroom : chunkSize + 4 ≤ raw.length := (satAdd_le_iff hraw).mp h
        simp only [if_pos h, trailingCrc_ok hraw hroom, sliceTo_ok
          (show chunkSize ≤ raw.length by omega),
          ok_bind]
      · simp only [if_neg h, ok_bind]
        rfl

end Decoding

/-! ### The main loop -/

/-- The table references of a segment. -/
def segmentTables (data : List UInt8) : Run SegmentTables := do
  let sections ← walkSections data
  let primary ← tableRef data sections .table
  let fallback ← tableRef data sections .table2
  let sectorsEnd ← sectorsDataEnd sections data.length
  .ok ⟨data, primary, fallback, sectorsEnd⟩

/-- `decode_from`: chunk `loc` of segment `segIdx` through one of its tables. -/
def decodeFrom (C : Crates) (segs : List SegmentTables) (table : Option TableRef)
    (chunkSize segIdx loc : ℕ) : Run (Option (List UInt8 × Bool)) := do
  let seg ← index (segs.map (·.data)) segIdx
  let secEnd ← index (segs.map (·.sectorsEnd)) segIdx
  match table with
  | none => .ok none
  | some t =>
    match ← chunkRange seg t loc secEnd with
    | none => .ok none
    | some c => do
      let raw ← slice seg c.start c.stop
      decodeChunk C raw c.compressed chunkSize

/-- The decoding of global chunk `idx`: through `table2` only when the primary table gives no good
bytes. -/
def decodeGlobal (C : Crates) (segs : List SegmentTables) (chunkSize idx : ℕ) :
    Run (Option Decoded) :=
  match locateChunk (segs.map (·.entryCount)) idx with
  | none => .ok none
  | some (segIdx, loc) => do
    let primary ← index (segs.map (·.primary)) segIdx
    let fromPrimary ← decodeFrom C segs primary chunkSize segIdx loc
    match fromPrimary with
    | some (bytes, true) => .ok (some ⟨bytes, false, true⟩)
    | other => do
      let fallback ← index (segs.map (·.fallback)) segIdx
      let fromT2 ← decodeFrom C segs fallback chunkSize segIdx loc
      .ok (chooseDecoded other fromT2)

/-- The main loop, from chunk `idx` with `k` chunks to go. -/
def recoverLoop (C : Crates) (segs : List SegmentTables) (chunkSize : ℕ) :
    ℕ → ℕ → ℕ → Run (List RecoveredChunk)
  | 0, _, _ => .ok []
  | k + 1, idx, bytesRemaining =>
    if bytesRemaining = 0 then .ok []
    else do
      let logical ← asUsize (min bytesRemaining chunkSize)
      let decoded ← decodeGlobal C segs chunkSize idx
      let rest ← recoverLoop C segs chunkSize k (idx + 1) (bytesRemaining - logical)
      .ok (⟨idx, logical, decoded⟩ :: rest)

/-- The checks before any output is created. -/
def bootstrap (segments : List (List UInt8)) : Run (Except RecoverError Geometry) :=
  let first := segments.headD []
  if first.length < fileHeaderSize ∨ first.take 8 ≠ evfSignature then
    .ok (.error (.notEwfV1 first.length (first.take fileHeaderSize)))
  else do
    let allSections ← segments.mapM walkSections
    let sections ← index allSections 0
    match ← readGeometry first sections with
    | none => .ok (.error .noGeometry)
    | some geom =>
      if geom.chunkSize = 0 ∨ geom.chunkSize > EwfForensic.Recover.maxChunkSize then
        .ok (.error (.implausibleChunkSize geom.sectorsPerChunk geom.bytesPerSector
          geom.chunkSize))
      else .ok (.ok geom)

/-- The main loop of a recovery with geometry `geom`. -/
def recoverRun (C : Crates) (segments : List (List UInt8)) (geom : Geometry) :
    Run (List RecoveredChunk) := do
  let segs ← segments.mapM segmentTables
  recoverLoop C segs geom.chunkSize geom.chunkCount 0 geom.imageSize

section Run

variable {segs : List SegmentTables} {segments : List (List UInt8)}

theorem segmentTables_ok {data : List UInt8} (hdata : data.length < u64Max) :
    segmentTables data = .ok (SegmentTables.ofBytes data) := by
  have hfits : ∀ s ∈ EwfForensic.Recover.walkSections data, s.Fits :=
    fun s hs => fits_of_mem_walkSections hs
  rw [segmentTables, walkSections_ok hdata, ok_bind, tableRef_ok hfits, ok_bind, tableRef_ok hfits,
    ok_bind, sectorsDataEnd_ok, ok_bind]
  rfl

theorem decodeFrom_ok (C : Crates) {s : SegmentTables} {segIdx : ℕ} (hs : segs[segIdx]? = some s)
    (hdata : s.data.length < u64Max) (table : Option TableRef) (chunkSize loc : ℕ) :
    decodeFrom C segs table chunkSize segIdx loc = .ok (s.decodeFrom C table chunkSize loc) := by
  have hseg : (segs.map (·.data))[segIdx]? = some s.data := by
    rw [List.getElem?_map, hs, Option.map_some]
  have hend : (segs.map (·.sectorsEnd))[segIdx]? = some s.sectorsEnd := by
    rw [List.getElem?_map, hs, Option.map_some]
  rw [decodeFrom, index_ok hseg, ok_bind, index_ok hend, ok_bind, SegmentTables.decodeFrom]
  cases table with
  | none => rfl
  | some t =>
      simp only [chunkRange_ok, ok_bind, Option.bind_some]
      cases hrange : EwfForensic.Recover.chunkRange s.data t loc s.sectorsEnd with
      | none => rfl
      | some c =>
          obtain ⟨hle, hstop⟩ := chunkRange_bounds hrange
          have hslice : slice s.data c.start c.stop = .ok (c.raw s.data) := slice_ok hle hstop
          have hraw : (c.raw s.data).length < u64Max := by
            rw [ChunkRange.raw, List.length_take, List.length_drop]
            omega
          simp only [hslice, ok_bind, decodeChunk_ok hraw, Option.bind_some]

/-- **The decoding of one chunk of the image does not panic.** -/
theorem decodeGlobal_ok (C : Crates) (hsegs : ∀ s ∈ segs, s.data.length < u64Max)
    (chunkSize idx : ℕ) :
    decodeGlobal C segs chunkSize idx =
      .ok (EwfForensic.Recover.decodeGlobal C segs chunkSize idx) := by
  rw [decodeGlobal, EwfForensic.Recover.decodeGlobal]
  cases hloc : locateChunk (segs.map (·.entryCount)) idx with
  | none => rfl
  | some p =>
      obtain ⟨segIdx, loc⟩ := p
      obtain ⟨n, hn, -⟩ := locateChunk_mem_places hloc
      rw [List.getElem?_map] at hn
      obtain ⟨s, hs, -⟩ := Option.map_eq_some_iff.mp hn
      have hdata := hsegs s (List.mem_of_getElem? hs)
      have hprimary : (segs.map (·.primary))[segIdx]? = some s.primary := by
        rw [List.getElem?_map, hs, Option.map_some]
      have hfallback : (segs.map (·.fallback))[segIdx]? = some s.fallback := by
        rw [List.getElem?_map, hs, Option.map_some]
      simp only [index_ok hprimary, index_ok hfallback, decodeFrom_ok C hs hdata, ok_bind, hs]
      rcases s.decodeFrom C s.primary chunkSize loc with _ | ⟨bytes, _ | _⟩ <;> rfl

theorem recoverLoop_ok (C : Crates) (hsegs : ∀ s ∈ segs, s.data.length < u64Max) {chunkSize : ℕ}
    (hsize : chunkSize ≤ u64Max) (k idx bytesRemaining : ℕ) :
    recoverLoop C segs chunkSize k idx bytesRemaining =
      .ok (EwfForensic.Recover.recoverLoop C segs chunkSize k idx bytesRemaining) := by
  induction k generalizing idx bytesRemaining with
  | zero => rfl
  | succ k ih =>
      rw [recoverLoop, EwfForensic.Recover.recoverLoop]
      split_ifs with h
      · rfl
      · rw [asUsize_ok ((min_le_right _ _).trans hsize), ok_bind, decodeGlobal_ok C hsegs, ok_bind,
          ih]
        rfl

theorem bootstrap_ok (hdata : ∀ d ∈ segments, d.length < u64Max) :
    bootstrap segments = .ok (EwfForensic.Recover.bootstrap segments) := by
  rw [bootstrap, EwfForensic.Recover.bootstrap]
  cases segments with
  | nil => rfl
  | cons first rest =>
      have hall := mapM_ok fun d hd => walkSections_ok (hdata d hd)
      have hfits : ∀ s ∈ EwfForensic.Recover.walkSections first, s.Fits :=
        fun s hs => fits_of_mem_walkSections hs
      by_cases hbad : ((first :: rest).headD []).length < fileHeaderSize ∨
          ((first :: rest).headD []).take 8 ≠ evfSignature
      · simp only [if_pos hbad]
      · simp only [if_neg hbad]
        simp only [hall, ok_bind, List.map_cons, index_ok List.getElem?_cons_zero,
          List.headD_cons, readGeometry_ok hfits]
        cases EwfForensic.Recover.readGeometry first
            (EwfForensic.Recover.walkSections first) with
        | none => rfl
        | some geom =>
            simp only
            split_ifs <;> rfl

/-- **The main loop of the recovery does not panic.** -/
theorem recoverRun_ok (C : Crates) (hdata : ∀ d ∈ segments, d.length < u64Max) (geom : Geometry) :
    recoverRun C segments geom = .ok (EwfForensic.Recover.recoverRun C segments geom) := by
  have hsegs : ∀ s ∈ segments.map SegmentTables.ofBytes, s.data.length < u64Max := by
    intro s hs
    obtain ⟨d, hd, rfl⟩ := List.mem_map.mp hs
    exact hdata d hd
  have htables : segments.mapM segmentTables = .ok (segments.map SegmentTables.ofBytes) :=
    mapM_ok fun d hd => segmentTables_ok (hdata d hd)
  have hsize : geom.chunkSize ≤ u64Max := Nat.min_le_right _ _
  rw [recoverRun, htables, ok_bind, recoverLoop_ok C hsegs hsize]
  rfl

end Run

end EwfForensic.Checked.Recover

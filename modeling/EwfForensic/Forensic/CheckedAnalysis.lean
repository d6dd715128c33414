import EwfForensic.Forensic.CheckedV1
import EwfForensic.Forensic.WithProgress

/-!
# The v1 Analysis, With Its Panics

The hash loops, the two segment loops and `compute_hashes_ewf1`, with the operations that may
panic. A chunk range is sliced without a test in the hash loops: the test is in
`iter_segment_chunks`, two functions away, and `allChunks_ok` carries it there.

* `analyseAllEwf1_ok`, `computeHashesEwf1_ok`, `analyseAllEwf1WithProgress_ok` — the three v1
  entry points return what their namesakes return.
-/

namespace EwfForensic.Checked

open Octets Panics

/-! ### The hash loop -/

/-- The trailing-checksum test of an uncompressed chunk. -/
def chunkCrcIssues (chunkSize chunkIdx : ℕ) (compressed : Bool) (raw : List UInt8) :
    Run (List EwfIntegrityAnomaly) :=
  if ¬ compressed ∧ raw.length > chunkSize ∧ raw.length ≥ satAdd chunkSize 4 then do
    let stored ← leAt 4 raw chunkSize
    let covered ← sliceTo raw chunkSize
    .ok (if adler32 covered ≠ stored then
      [.chunkChecksumMismatch chunkIdx (adler32 covered) stored] else [])
  else .ok []

/-- The bytes of a chunk that are hashed. -/
def decodeForHash (C : Crates) (compressed : Bool) (raw : List UInt8) (toHash : ℕ) :
    Run (Option (List UInt8)) :=
  if compressed then
    match C.zlib.readUpTo (satAdd toHash 1) raw with
    | none => .ok none
    | some decompressed => do
      let hashed ← sliceTo decompressed (min decompressed.length toHash)
      .ok (some hashed)
  else do
    let hashed ← sliceTo raw (min raw.length toHash)
    .ok (some hashed)

/-- One turn of the hash loop of `check_hash_all_segments`. -/
def hashChunk (C : Crates) (chunkSize totalBytes bytesRemaining chunkIdx : ℕ)
    (data : List UInt8) (c : ChunkRange) : Run ChunkHash := do
  let toHash ← asUsize (min bytesRemaining chunkSize)
  let chunkSizeUsize ← asUsize chunkSize
  let raw ← slice data c.start c.stop
  let crcIssues ← chunkCrcIssues chunkSizeUsize chunkIdx c.compressed raw
  match ← decodeForHash C c.compressed raw toHash with
  | none => .ok ⟨crcIssues ++ [.chunkDecompressionError chunkIdx], [], []⟩
  | some hashed => .ok ⟨crcIssues, hashed,
      [⟨satAdd chunkIdx 1, none, totalBytes - (bytesRemaining - toHash)⟩]⟩

/-- The hash loop. -/
def hashLoop (C : Crates) (chunkSize totalBytes : ℕ) :
    ℕ → ℕ → List (List UInt8 × ChunkRange) → Run (List ChunkHash)
  | _, _, [] => .ok []
  | bytesRemaining, chunkIdx, (data, c) :: cs =>
    if bytesRemaining = 0 then .ok []
    else do
      let turn ← hashChunk C chunkSize totalBytes bytesRemaining chunkIdx data c
      let rest ← hashLoop C chunkSize totalBytes (bytesRemaining - min bytesRemaining chunkSize)
        (satAdd chunkIdx 1) cs
      .ok (turn :: rest)

/-- The chunks of all segments in order. The source reads a segment's table when the loop
reaches it, so it reads no table that is not read here. -/
def allChunks (segments : List (List UInt8)) (allSections : List (List Section)) :
    Run (List (List UInt8 × ChunkRange)) := do
  let chunks ← (segments.zip allSections).mapM fun p => do
    let ranges ← iterSegmentChunks p.1 p.2
    .ok (ranges.map (p.1, ·))
  .ok chunks.flatten

/-- The comparison with the MD5 stored in the final segment's `hash` section. -/
def storedMd5Issues (computed : Digest.Bytes 16) (lastSections : List Section)
    (lastData : List UInt8) : Run (List EwfIntegrityAnomaly) :=
  match findSection lastSections .hash with
  | some hashSec => do
    let off ← asUsize hashSec.offset
    .ok (mismatch computed (Digest.bytesAt? 16 lastData (satAdd off sectionDescriptorSize))
      (.hashMismatch computed))
  | none => .ok [.hashSectionMissing]

/-- The comparison with the SHA-1 stored in the final segment's `digest` section. -/
def storedSha1Issues (computed : Digest.Bytes 20) (lastSections : List Section)
    (lastData : List UInt8) : Run (List EwfIntegrityAnomaly) :=
  match findSection lastSections .digest with
  | some digestSec => do
    let off ← asUsize digestSec.offset
    let bodyStart := satAdd off sectionDescriptorSize
    .ok (mismatch computed
      ((Digest.bytesAt? 20 lastData (satAdd bodyStart 16)).filter (· ≠ Digest.zero 20))
      (.digestSha1Mismatch computed))
  | none => .ok []

/-- `check_hash_all_segments`: the anomalies pushed and the progress reported. -/
def checkHashAllSegments (C : Crates) (segments : List (List UInt8))
    (allSections : List (List Section)) (geom : VolumeGeometry) (expected : ExpectedHashes) :
    Run (List EwfIntegrityAnomaly × List AnalysisProgress) := do
  let chunks ← allChunks segments allSections
  let run ← hashLoop C geom.chunkSize geom.totalBytes geom.totalBytes 0 chunks
  let computed := C.hashes (run.flatMap (·.fed))
  match allSections.getLast?, segments.getLast? with
  | some lastSections, some lastData =>
    let md5Issues ← storedMd5Issues computed.md5 lastSections lastData
    let sha1Issues ← storedSha1Issues computed.sha1 lastSections lastData
    .ok (run.flatMap (·.issues) ++ (md5Issues ++ sha1Issues ++ externalIssues computed expected),
      run.flatMap (·.progress))
  | _, _ => .ok (run.flatMap (·.issues), run.flatMap (·.progress))

section Hashing

variable {data : List UInt8}

theorem chunkCrcIssues_ok {raw : List UInt8} (hraw : raw.length < u64Max)
    (chunkSize chunkIdx : ℕ) (compressed : Bool) :
    chunkCrcIssues chunkSize chunkIdx compressed raw =
      .ok (EwfForensic.chunkCrcIssues chunkSize chunkIdx compressed raw) := by
  rw [chunkCrcIssues, EwfForensic.chunkCrcIssues]
  by_cases h : ¬ compressed ∧ raw.length > chunkSize ∧ raw.length ≥ satAdd chunkSize 4
  · rw [if_pos h, if_pos h, leAt_ok hraw, ok_bind, sliceTo_ok h.2.1.le, ok_bind]
  · rw [if_neg h, if_neg h]

theorem decodeForHash_ok (C : Crates) (compressed : Bool) (raw : List UInt8) (toHash : ℕ) :
    decodeForHash C compressed raw toHash =
      .ok (EwfForensic.decodeForHash C compressed raw toHash) := by
  have hfront : ∀ bs : List UInt8, bs.take (min bs.length toHash) = bs.take toHash := fun bs => by
    rw [← List.take_take]
    exact List.take_of_length_le (List.length_take_le' _ _)
  rw [decodeForHash, EwfForensic.decodeForHash]
  cases compressed with
  | false => simp only [Bool.false_eq_true, if_false, sliceTo_ok (min_le_left _ _), ok_bind, hfront]
  | true =>
      cases C.zlib.readUpTo (satAdd toHash 1) raw with
      | none => rfl
      | some out => simp only [if_true, sliceTo_ok (min_le_left _ _), ok_bind, hfront,
        Option.map_some]

/-- **One turn of the hash loop does not panic.** -/
theorem hashChunk_ok (C : Crates) (hdata : data.length < u64Max) {chunkSize : ℕ}
    (hsize : chunkSize ≤ u64Max) (totalBytes bytesRemaining chunkIdx : ℕ) {c : ChunkRange}
    (hc : c.start ≤ c.stop ∧ c.stop ≤ data.length) :
    hashChunk C chunkSize totalBytes bytesRemaining chunkIdx data c =
      .ok (EwfForensic.hashChunk C chunkSize totalBytes bytesRemaining chunkIdx data c) := by
  have hraw : (c.raw data).length < u64Max := by
    rw [ChunkRange.raw, List.length_take, List.length_drop]
    omega
  have hslice : slice data c.start c.stop = .ok (c.raw data) := slice_ok hc.1 hc.2
  rw [hashChunk, EwfForensic.hashChunk, asUsize_ok ((min_le_right _ _).trans hsize), ok_bind,
    asUsize_ok hsize, ok_bind, hslice, ok_bind, chunkCrcIssues_ok hraw, ok_bind, decodeForHash_ok,
    ok_bind]
  cases EwfForensic.decodeForHash C c.compressed (c.raw data) (min bytesRemaining chunkSize) <;> rfl

theorem hashLoop_ok (C : Crates) {chunkSize : ℕ} (hsize : chunkSize ≤ u64Max) (totalBytes : ℕ)
    {chunks : List (List UInt8 × ChunkRange)}
    (hchunks : ∀ p ∈ chunks, p.1.length < u64Max ∧ p.2.start ≤ p.2.stop ∧ p.2.stop ≤ p.1.length)
    (bytesRemaining chunkIdx : ℕ) :
    hashLoop C chunkSize totalBytes bytesRemaining chunkIdx chunks =
      .ok (EwfForensic.hashLoop C chunkSize totalBytes bytesRemaining chunkIdx chunks) := by
  induction chunks generalizing bytesRemaining chunkIdx with
  | nil => rfl
  | cons p cs ih =>
      obtain ⟨data, c⟩ := p
      obtain ⟨hdata, hc⟩ := hchunks (data, c) (List.mem_cons_self ..)
      rw [hashLoop, EwfForensic.hashLoop]
      split_ifs with h
      · rfl
      · rw [hashChunk_ok C hdata hsize _ _ _ hc, ok_bind,
          ih fun p hp => hchunks p (List.mem_cons_of_mem _ hp)]
        rfl

/-- The chunks of segments whose sections fit: all of them lie in their segments. -/
theorem allChunks_ok {segments : List (List UInt8)} {allSections : List (List Section)}
    (hdata : ∀ d ∈ segments, d.length < u64Max)
    (hfits : ∀ sections ∈ allSections, ∀ s ∈ sections, s.Fits) :
    allChunks segments allSections = .ok (EwfForensic.allChunks segments allSections) ∧
      ∀ p ∈ EwfForensic.allChunks segments allSections,
        p.1.length < u64Max ∧ p.2.start ≤ p.2.stop ∧ p.2.stop ≤ p.1.length := by
  constructor
  · have hturn : ∀ p ∈ segments.zip allSections,
        (iterSegmentChunks p.1 p.2 >>= fun ranges => (.ok (ranges.map (p.1, ·)) : Run _)) =
          .ok ((EwfForensic.iterSegmentChunks p.1 p.2).map (p.1, ·)) := by
      intro p hp
      rw [iterSegmentChunks_ok (hfits p.2 (List.of_mem_zip hp).2), ok_bind]
    rw [allChunks, mapM_ok hturn, ok_bind, EwfForensic.allChunks, List.flatMap_def]
  · intro q hq
    obtain ⟨p, hp, hq⟩ := List.mem_flatMap.mp hq
    obtain ⟨c, hc, rfl⟩ := List.mem_map.mp hq
    exact ⟨hdata p.1 (List.of_mem_zip hp).1, mem_iterSegmentChunks hc⟩

theorem storedMd5Issues_ok {lastSections : List Section} (hfits : ∀ s ∈ lastSections, s.Fits)
    (computed : Digest.Bytes 16) (lastData : List UInt8) :
    storedMd5Issues computed lastSections lastData =
      .ok (EwfForensic.storedMd5Issues computed lastSections lastData) := by
  rw [storedMd5Issues, EwfForensic.storedMd5Issues]
  cases hsec : findSection lastSections .hash with
  | none => rfl
  | some hashSec =>
      simp only [asUsize_ok (hfits hashSec (mem_of_findSection hsec)).1, ok_bind]

theorem storedSha1Issues_ok {lastSections : List Section} (hfits : ∀ s ∈ lastSections, s.Fits)
    (computed : Digest.Bytes 20) (lastData : List UInt8) :
    storedSha1Issues computed lastSections lastData =
      .ok (EwfForensic.storedSha1Issues computed lastSections lastData) := by
  rw [storedSha1Issues, EwfForensic.storedSha1Issues]
  cases hsec : findSection lastSections .digest with
  | none => rfl
  | some digestSec =>
      simp only [asUsize_ok (hfits digestSec (mem_of_findSection hsec)).1, ok_bind]

/-- **The hash check does not panic**, whatever the sections say. -/
theorem checkHashAllSegments_ok (C : Crates) {segments : List (List UInt8)}
    {allSections : List (List Section)} (hdata : ∀ d ∈ segments, d.length < u64Max)
    (hfits : ∀ sections ∈ allSections, ∀ s ∈ sections, s.Fits) (geom : VolumeGeometry)
    (expected : ExpectedHashes) :
    checkHashAllSegments C segments allSections geom expected =
      .ok (EwfForensic.checkHashAllSegments C segments allSections geom expected) := by
  obtain ⟨hchunks, hin⟩ := allChunks_ok hdata hfits
  have hsize : geom.chunkSize ≤ u64Max := Nat.min_le_right _ _
  rw [checkHashAllSegments, EwfForensic.checkHashAllSegments, hchunks, ok_bind,
    hashLoop_ok C hsize geom.totalBytes hin, ok_bind]
  cases hsections : allSections.getLast? with
  | none => simp only [List.append_nil, hashRun]
  | some lastSections =>
      cases hlast : segments.getLast? with
      | none => simp only [List.append_nil, hashRun]
      | some lastData =>
          have hfit := hfits lastSections (List.mem_of_getLast? hsections)
          simp only [storedMd5Issues_ok hfit, storedSha1Issues_ok hfit, ok_bind]
          rfl

end Hashing

/-! ### The segment loop -/

/-- The anomalies of the file header of segment `idx`. -/
def headerIssuesV1 (idx : ℕ) (data : List UInt8) : Run (List EwfIntegrityAnomaly) := do
  let expectedSegNum := satAdd idx 1 % 65536
  let signature ← slice data 0 8
  let segNum ← leAt 2 data 9
  .ok ((if signature ≠ evfSignature ∧ signature ≠ dvfSignature ∧ signature ≠ lvfSignature then
      [.invalidSignature] else []) ++
    if segNum = 0 then [.segmentNumberZero]
    else if segNum ≠ expectedSegNum then [.segmentOutOfOrder segNum expectedSegNum]
    else [])

/-- Geometry handling of segment `idx`. -/
def segmentGeometry (idx : ℕ) (geometry : Option VolumeGeometry) (data : List UInt8)
    (sections : List Section) : Run (Option VolumeGeometry × List EwfIntegrityAnomaly) :=
  match findVolume sections with
  | some volSec => do
    let checked ← checkVolumeV1 data volSec.offset volSec.size
    .ok (if idx = 0 then checked
      else (geometry, checked.2 ++ setIdentifierIssues idx geometry checked.1))
  | none => .ok (geometry, if idx = 0 then [.volumeSectionMissing] else [])

/-- The number of entries a segment's first table adds to the running total. -/
def tableEntryCount (data : List UInt8) (sections : List Section) : Run ℕ :=
  match findSection sections .table with
  | some table => do
    let off ← asUsize table.offset
    let dataStart := satAdd off sectionDescriptorSize
    if data.length ≥ satAdd dataStart 4 then leAt 4 data dataStart else .ok 0
  | none => .ok 0

/-- The table check of a segment. -/
def tableIssues (volCount : Option ℕ) (data : List UInt8) (sections : List Section) :
    Run (List EwfIntegrityAnomaly) :=
  match findSection sections .table with
  | some table => checkTableV1 data table.offset volCount data.length (sectorsRange sections)
  | none => .ok [.tableSectionMissing]

/-- The body range of a section as `table2` consistency reads it. -/
def sectionBody (data : List UInt8) (s : Section) : Run (Option (List UInt8)) := do
  let bodyStart ← asUsize (satAdd s.offset sectionDescriptorSize)
  let bodyEnd ← asUsize (satAdd s.offset s.size)
  .ok (slice? data bodyStart bodyEnd)

/-- The anomaly of a `table2` section whose body differs from the `table` body. -/
def table2Issues (data : List UInt8) (sections : List Section) : Run (List EwfIntegrityAnomaly) :=
  match findSection sections .table, findSection sections .table2 with
  | some t1, some t2 => do
    let body1? ← sectionBody data t1
    let body2? ← sectionBody data t2
    .ok (match body1?, body2? with
      | some body1, some body2 =>
        if body1.length = body2.length then
          match (body1.zip body2).findIdx? fun p => p.1 ≠ p.2 with
          | some offset => [.table2Mismatch offset]
          | none => []
        else [.table2Mismatch 0]
      | _, _ => [])
  | _, _ => .ok []

/-- The anomaly of a non-empty `error2` section. -/
def error2Issues (data : List UInt8) (sections : List Section) : Run (List EwfIntegrityAnomaly) :=
  match findSection sections .error2 with
  | some e2 => do
    let bodyStart ← asUsize (satAdd e2.offset sectionDescriptorSize)
    if satAdd bodyStart 4 ≤ data.length then
      let count ← leAt 4 data bodyStart
      .ok (if count > 0 then [.badSectorsPresent count] else [])
    else .ok []
  | none => .ok []

/-- One turn of the segment loop of `analyse_all_ewf1`, for segment `idx` of `n`. -/
def scanSegment (n idx : ℕ) (geometry : Option VolumeGeometry) (data : List UInt8) :
    Run SegmentScan :=
  if data.length < fileHeaderSize then .ok ⟨geometry, [], 0, [.sectionChainBroken 0 0]⟩
  else do
    let header ← headerIssuesV1 idx data
    let (sections, walkIssues) ← walkSectionsV1 data
    let geo ← segmentGeometry idx geometry data sections
    let entries ← tableEntryCount data sections
    let table ← tableIssues (volumeCount n idx geo.1) data sections
    let table2 ← table2Issues data sections
    let error2 ← error2Issues data sections
    .ok ⟨geo.1, sections, entries,
      header ++ walkIssues ++ geo.2 ++
        (if (findSection sections .sectors).isNone then [.sectorsSectionMissing] else []) ++
        table ++ table2 ++ error2 ++
        if idx = n - 1 ∧ (findSection sections .done).isNone then [.doneSectionMissing] else []⟩

/-- The segment loop of `analyse_all_ewf1`. -/
def scanSegments (n : ℕ) :
    ℕ → Option VolumeGeometry → List (List UInt8) → Run (List SegmentScan)
  | _, _, [] => .ok []
  | idx, geometry, data :: rest => do
    let scan ← scanSegment n idx geometry data
    let scans ← scanSegments n (idx + 1) scan.geometry rest
    .ok (scan :: scans)

/-- `analyse_all_ewf1`. -/
def analyseAllEwf1 (C : Crates) (segments : List (List UInt8)) (expected : ExpectedHashes) :
    Run (List EwfIntegrityAnomaly) := do
  let scans ← scanSegments segments.length 0 none segments
  let geometry := scannedGeometry scans
  let total := (scans.map (·.tableEntries)).foldl satAdd32 0
  let issues := scans.flatMap (·.issues) ++ totalCountIssues segments.length geometry total
  match geometry with
  | some geom =>
    let checked ← checkHashAllSegments C segments (scans.map (·.sections)) geom expected
    .ok (issues ++ checked.1)
  | none => .ok (issues ++ [])

section Segments

variable {data : List UInt8} {sections : List Section}

theorem headerIssuesV1_ok (hdata : data.length < u64Max) (hlen : 8 ≤ data.length) (idx : ℕ) :
    headerIssuesV1 idx data = .ok (EwfForensic.headerIssuesV1 idx data) := by
  rw [headerIssuesV1, slice_zero_ok hlen, ok_bind, leAt_ok hdata, ok_bind]
  rfl

theorem mem_of_findVolume {s : Section} (h : findVolume sections = some s) : s ∈ sections :=
  List.mem_of_find?_eq_some h

theorem segmentGeometry_ok (hfits : ∀ s ∈ sections, s.Fits) (idx : ℕ)
    (geometry : Option VolumeGeometry) :
    segmentGeometry idx geometry data sections =
      .ok (EwfForensic.segmentGeometry idx geometry data sections) := by
  rw [segmentGeometry, EwfForensic.segmentGeometry]
  cases hvol : findVolume sections with
  | none => rfl
  | some volSec =>
      obtain ⟨hoff, hsize⟩ := hfits volSec (mem_of_findVolume hvol)
      simp only [checkVolumeV1_ok hoff hsize, ok_bind]

theorem tableEntryCount_ok (hdata : data.length < u64Max) (hfits : ∀ s ∈ sections, s.Fits) :
    tableEntryCount data sections = .ok (EwfForensic.tableEntryCount data sections) := by
  rw [tableEntryCount, EwfForensic.tableEntryCount]
  cases ht : findSection sections .table with
  | none => rfl
  | some table =>
      simp only [asUsize_ok (hfits table (mem_of_findSection ht)).1, ok_bind, leAt_ok hdata]
      split_ifs <;> rfl

theorem tableIssues_ok (hfits : ∀ s ∈ sections, s.Fits) (volCount : Option ℕ) :
    tableIssues volCount data sections =
      .ok (EwfForensic.tableIssues volCount data sections) := by
  rw [tableIssues, EwfForensic.tableIssues]
  cases ht : findSection sections .table with
  | none => rfl
  | some table =>
      exact checkTableV1_ok (hfits table (mem_of_findSection ht)).1 volCount (sectorsRange sections)

theorem table2Issues_ok :
    table2Issues data sections = .ok (EwfForensic.table2Issues data sections) := by
  have hbody : ∀ s : Section,
      sectionBody data s = .ok (EwfForensic.sectionBody data s) := fun s => by
    rw [sectionBody, asUsize_ok (satAdd_le_u64Max _ _), ok_bind, asUsize_ok (satAdd_le_u64Max _ _),
      ok_bind, EwfForensic.sectionBody]
  rw [table2Issues, EwfForensic.table2Issues]
  cases findSection sections .table with
  | none => rfl
  | some t1 =>
      cases findSection sections .table2 with
      | none => rfl
      | some t2 =>
          simp only [hbody, ok_bind] <;> rfl

theorem error2Issues_ok (hdata : data.length < u64Max) :
    error2Issues data sections = .ok (EwfForensic.error2Issues data sections) := by
  rw [error2Issues, EwfForensic.error2Issues]
  cases findSection sections .error2 with
  | none => rfl
  | some e2 =>
      simp only [asUsize_ok (satAdd_le_u64Max _ _), ok_bind, leAt_ok hdata]
      by_cases h : satAdd (satAdd e2.offset sectionDescriptorSize) 4 ≤ data.length
      · simp only [h, if_true, true_and]
      · simp only [h, if_false, false_and]

/-- **One turn of the segment loop does not panic.** -/
theorem scanSegment_ok (hdata : data.length < u64Max) (n idx : ℕ)
    (geometry : Option VolumeGeometry) :
    scanSegment n idx geometry data = .ok (EwfForensic.scanSegment n idx geometry data) := by
  rw [scanSegment, EwfForensic.scanSegment]
  by_cases hlen : data.length < fileHeaderSize
  · rw [if_pos hlen, if_pos hlen]
  · have h8 : 8 ≤ data.length := le_trans (by decide) (not_lt.mp hlen)
    have hfits : ∀ s ∈ EwfForensic.walkSectionsV1 data, s.Fits :=
      fun s hs => fits_of_mem_walkSectionsV1 hs
    rw [if_neg hlen, if_neg hlen, headerIssuesV1_ok hdata h8, ok_bind, walkSectionsV1_ok hdata,
      ok_bind]
    simp only [segmentGeometry_ok hfits, tableEntryCount_ok hdata hfits, tableIssues_ok hfits,
      table2Issues_ok, error2Issues_ok hdata, ok_bind]
    rfl

theorem scanSegments_ok {segments : List (List UInt8)} (hdata : ∀ d ∈ segments, d.length < u64Max)
    (n idx : ℕ) (geometry : Option VolumeGeometry) :
    scanSegments n idx geometry segments =
      .ok (EwfForensic.scanSegments n idx geometry segments) := by
  induction segments generalizing idx geometry with
  | nil => rfl
  | cons data rest ih =>
      rw [scanSegments, scanSegment_ok (hdata data (List.mem_cons_self ..)), ok_bind,
        ih fun d hd => hdata d (List.mem_cons_of_mem _ hd)]
      rfl

/-- The sections that the segment loop collects fit. -/
theorem fits_of_mem_scanSegments (segments : List (List UInt8)) :
    ∀ sections ∈ (EwfForensic.scanSegments segments.length 0 none segments).map (·.sections),
      ∀ s ∈ sections, s.Fits := by
  rw [scanSegments_sections]
  exact fits_of_mem_map_walkSectionsV1 segments

/-- **The v1 analysis does not panic.** -/
theorem analyseAllEwf1_ok (C : Crates) {segments : List (List UInt8)}
    (hdata : ∀ d ∈ segments, d.length < u64Max) (expected : ExpectedHashes) :
    analyseAllEwf1 C segments expected = .ok (EwfForensic.analyseAllEwf1 C segments expected) := by
  have hfits := fits_of_mem_scanSegments segments
  rw [analyseAllEwf1, EwfForensic.analyseAllEwf1, scanSegments_ok hdata, ok_bind]
  cases scannedGeometry (EwfForensic.scanSegments segments.length 0 none segments) with
  | none => rfl
  | some geom => simp only [checkHashAllSegments_ok C hdata hfits, ok_bind]

end Segments

/-! ### The loop with progress -/

/-- One turn of the segment loop of `analyse_all_ewf1_with_progress`, for segment `idx` of `n`. -/
def progressSegment (n : ℕ) (st : ProgressLoop) (p : List UInt8 × ℕ) : Run ProgressLoop :=
  let data := p.1
  let idx := p.2
  if data.length < fileHeaderSize then
    .ok { st with
      issues := st.issues ++ [.sectionChainBroken 0 0]
      allSections := st.allSections ++ [[]] }
  else do
    let header ← headerIssuesV1 idx data
    let issues := st.issues ++ header
    let (sections, walkIssues) ← walkSectionsV1 data
    let issues := issues ++ walkIssues
    let volume ← segmentGeometry idx st.geometry data sections
    let issues := issues ++ volume.2
    let volCount := if ¬ 1 < n ∧ idx = 0 then volume.1.map (·.chunkCount) else none
    let issues :=
      if (findSection sections .sectors).isNone then issues ++ [.sectorsSectionMissing] else issues
    let entries ← tableEntryCount data sections
    let table ← tableIssues volCount data sections
    let table2 ← table2Issues data sections
    let error2 ← error2Issues data sections
    let issues := issues ++ table ++ table2 ++ error2
    let issues :=
      if idx = n - 1 ∧ (findSection sections .done).isNone then
        issues ++ [.doneSectionMissing]
      else issues
    .ok { issues := issues
          geometry := volume.1
          allSections := st.allSections ++ [sections]
          totalTableEntries := satAdd32 st.totalTableEntries entries }

/-- `analyse_all_ewf1_with_progress`: the anomalies, and the state that the callback leaves. -/
def analyseAllEwf1WithProgress {σ : Type} (progress : σ → AnalysisProgress → σ) (s : σ)
    (C : Crates) (segments : List (List UInt8)) (expected : ExpectedHashes) :
    Run (List EwfIntegrityAnomaly × σ) := do
  let n := segments.length
  let st ← segments.zipIdx.foldlM (progressSegment n) {}
  let issues :=
    if 1 < n then
      match st.geometry with
      | some geom =>
        if st.totalTableEntries ≠ geom.chunkCount then
          st.issues ++ [.tableChunkCountMismatch geom.chunkCount st.totalTableEntries]
        else st.issues
      | none => st.issues
    else st.issues
  match st.geometry with
  | some geom =>
    let checked ← checkHashAllSegments C segments st.allSections geom expected
    .ok (issues ++ checked.1, checked.2.foldl progress s)
  | none => .ok (issues, s)

section Progress

/-- What the loop keeps: the running total is a 32-bit number, and the sections fit. -/
structure ProgressLoop.Bounded (st : ProgressLoop) : Prop where
  total_le : st.totalTableEntries ≤ u32Max
  fits : ∀ sections ∈ st.allSections, ∀ s ∈ sections, s.Fits

theorem progressSegment_ok {data : List UInt8} (hdata : data.length < u64Max) (n idx : ℕ)
    {st : ProgressLoop} (hst : ProgressLoop.Bounded st) :
    progressSegment n st (data, idx) = .ok (EwfForensic.progressSegment n st (data, idx)) := by
  rw [progressSegment_eq hst.total_le, progressSegment]
  simp only [EwfForensic.scanSegment]
  by_cases hlen : data.length < fileHeaderSize
  · have hzero : satAdd32 st.totalTableEntries 0 = st.totalTableEntries :=
      Nat.min_eq_left hst.total_le
    rw [if_pos hlen, if_pos hlen]
    simp only [hzero]
  · have h8 : 8 ≤ data.length := le_trans (by decide) (not_lt.mp hlen)
    have hfits : ∀ s ∈ EwfForensic.walkSectionsV1 data, s.Fits :=
      fun s hs => fits_of_mem_walkSectionsV1 hs
    rw [if_neg hlen, if_neg hlen, headerIssuesV1_ok hdata h8, ok_bind, walkSectionsV1_ok hdata,
      ok_bind]
    simp only [segmentGeometry_ok hfits, tableEntryCount_ok hdata hfits, tableIssues_ok hfits,
      table2Issues_ok, error2Issues_ok hdata, ok_bind, push_ite, segmentIssues, volumeCount]
    simp only [List.append_assoc]

theorem bounded_progressSegment {data : List UInt8} (n idx : ℕ) {st : ProgressLoop}
    (hst : ProgressLoop.Bounded st) :
    ProgressLoop.Bounded (EwfForensic.progressSegment n st (data, idx)) := by
  rw [progressSegment_eq hst.total_le]
  refine ⟨Nat.min_le_right _ _, fun sections hsections s hs => ?_⟩
  rcases List.mem_append.mp hsections with hold | hnew
  · exact hst.fits sections hold s hs
  · rw [List.mem_singleton, scanSegment_sections] at hnew
    exact fits_of_mem_walkSectionsV1 (hnew ▸ hs)

/-- **The v1 analysis with progress does not panic.** -/
theorem analyseAllEwf1WithProgress_ok {σ : Type} (progress : σ → AnalysisProgress → σ) (s : σ)
    (C : Crates) {segments : List (List UInt8)} (hdata : ∀ d ∈ segments, d.length < u64Max)
    (expected : ExpectedHashes) :
    analyseAllEwf1WithProgress progress s C segments expected =
      .ok (EwfForensic.analyseAllEwf1WithProgress progress s C segments expected) := by
  have hloop : segments.zipIdx.foldlM (progressSegment segments.length) {} =
      .ok (segments.zipIdx.foldl (EwfForensic.progressSegment segments.length) {}) := by
    refine @foldlM_ok _ _ _ _ ProgressLoop.Bounded _ (fun st hst p hp => ?_)
      (fun st hst p _ => bounded_progressSegment _ p.2 hst) _ ⟨Nat.zero_le _, by simp⟩
    exact progressSegment_ok (hdata p.1 (List.fst_mem_of_mem_zipIdx hp)) _ p.2 hst
  rw [analyseAllEwf1WithProgress, EwfForensic.analyseAllEwf1WithProgress]
  simp only [hloop, ok_bind]
  have hfits : ∀ sections ∈
      (segments.zipIdx.foldl (EwfForensic.progressSegment segments.length) {}).allSections,
      ∀ s ∈ sections, s.Fits := by
    rw [foldl_progressSegment _ 0 {} segments (Nat.zero_le _), List.nil_append]
    exact fits_of_mem_scanSegments segments
  cases (segments.zipIdx.foldl (EwfForensic.progressSegment segments.length) {}).geometry with
  | none => rfl
  | some geom => simp only [checkHashAllSegments_ok C hdata hfits, ok_bind]

end Progress

/-! ### Hashing without checks -/

/-- The hash loop of `compute_hashes_ewf1`. -/
def computeLoop (C : Crates) (chunkSize : ℕ) :
    ℕ → List (List UInt8 × ChunkRange) → Run (List (List UInt8))
  | _, [] => .ok []
  | bytesRemaining, (data, c) :: cs =>
    if bytesRemaining = 0 then .ok []
    else do
      let toHash ← asUsize (min bytesRemaining chunkSize)
      let raw ← slice data c.start c.stop
      let hashed ← decodeForHash C c.compressed raw toHash
      let rest ← computeLoop C chunkSize (bytesRemaining - toHash) cs
      .ok (hashed.getD [] :: rest)

/-- `compute_hashes_ewf1`. -/
def computeHashesEwf1 (C : Crates) (segments : List (List UInt8)) : Run (Option ComputedHashes) :=
  match segments with
  | [] => .ok none
  | first :: _ =>
    if first.length < fileHeaderSize then .ok none
    else do
      let signature ← slice first 0 8
      if signature ≠ evfSignature ∧ signature ≠ dvfSignature ∧ signature ≠ lvfSignature then
        .ok none
      else
        let walked ← walkSectionsV1 first
        match findVolume walked.1 with
        | none => .ok none
        | some volSec =>
          let checked ← checkVolumeV1 first volSec.offset volSec.size
          match checked.1 with
          | none => .ok none
          | some geom =>
            let walks ← segments.mapM walkSectionsV1
            let chunks ← allChunks segments (walks.map (·.1))
            let fed ← computeLoop C geom.chunkSize geom.totalBytes chunks
            .ok (some (C.hashes fed.flatten))

section Compute

theorem computeLoop_ok (C : Crates) {chunkSize : ℕ} (hsize : chunkSize ≤ u64Max)
    {chunks : List (List UInt8 × ChunkRange)}
    (hchunks : ∀ p ∈ chunks, p.1.length < u64Max ∧ p.2.start ≤ p.2.stop ∧ p.2.stop ≤ p.1.length)
    (bytesRemaining : ℕ) :
    computeLoop C chunkSize bytesRemaining chunks =
      .ok (EwfForensic.computeLoop C chunkSize bytesRemaining chunks) := by
  induction chunks generalizing bytesRemaining with
  | nil => rfl
  | cons p cs ih =>
      obtain ⟨data, c⟩ := p
      obtain ⟨-, hc⟩ := hchunks (data, c) (List.mem_cons_self ..)
      have hslice : slice data c.start c.stop = .ok (c.raw data) := slice_ok hc.1 hc.2
      rw [computeLoop, EwfForensic.computeLoop]
      split_ifs with h
      · rfl
      · rw [asUsize_ok ((min_le_right _ _).trans hsize), ok_bind, hslice, ok_bind,
          decodeForHash_ok, ok_bind, ih fun p hp => hchunks p (List.mem_cons_of_mem _ hp)]
        rfl

/-- **The v1 hash computation does not panic.** -/
theorem computeHashesEwf1_ok (C : Crates) {segments : List (List UInt8)}
    (hdata : ∀ d ∈ segments, d.length < u64Max) :
    computeHashesEwf1 C segments = .ok (EwfForensic.computeHashesEwf1 C segments) := by
  cases segments with
  | nil => rfl
  | cons first rest =>
      rw [computeHashesEwf1, EwfForensic.computeHashesEwf1, computeStreamEwf1]
      by_cases hlen : first.length < fileHeaderSize
      · rw [if_pos hlen, if_pos hlen, Option.map_none]
      · have h8 : 8 ≤ first.length := le_trans (by decide) (not_lt.mp hlen)
        have hall : (first :: rest).mapM walkSectionsV1 =
            .ok ((first :: rest).map fun d =>
              (EwfForensic.walkSectionsV1 d, EwfForensic.walkIssuesV1 d)) :=
          mapM_ok fun d hd => walkSectionsV1_ok (hdata d hd)
        obtain ⟨hchunks, hin⟩ := allChunks_ok hdata (fits_of_mem_map_walkSectionsV1 _)
        rw [if_neg hlen, if_neg hlen, slice_zero_ok h8, ok_bind,
          walkSectionsV1_ok (hdata first (List.mem_cons_self ..))]
        split_ifs with hsig
        · rfl
        · rw [ok_bind]
          simp only
          cases hvol : findVolume (EwfForensic.walkSectionsV1 first) with
          | none => rfl
          | some volSec =>
              obtain ⟨hoff, hsize⟩ := fits_of_mem_walkSectionsV1 (mem_of_findVolume hvol)
              simp only [checkVolumeV1_ok hoff hsize, ok_bind]
              cases (EwfForensic.checkVolumeV1 first volSec.offset volSec.size).1 with
              | none => rfl
              | some geom =>
                  have hsize : geom.chunkSize ≤ u64Max := Nat.min_le_right _ _
                  simp only [hall, ok_bind, List.map_map, Function.comp_def]
                  rw [hchunks, ok_bind, computeLoop_ok C hsize hin, ok_bind]
                  rfl

end Compute

end EwfForensic.Checked

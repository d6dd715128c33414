import EwfForensic.Forensic.IntegrityV2

/-!
# What the v1 Analysis Reads

Facts about the segment loop and the hash loop of the v1 analysis that every result about it
uses.

* `scanSegments_sections` — the sections the loop collects are those of the walk.
* `analysisGeometry_eq` — the geometry is that of the first segment's first volume section.
* `analyse_v1` — the anomaly list in its three parts.
* `length_hashLoop_fed_iff` — the hash loop feeds every byte it owes exactly when each chunk
  it needs is there and holds its span.
-/

namespace EwfForensic

open Octets

/-! ### The segment loop -/

/-- A segment without room for a descriptor has no sections. -/
theorem walkSectionsV1_of_lt {data : List UInt8} (h : data.length < fileHeaderSize) :
    walkSectionsV1 data = [] := by
  have hstep : walkStep data fileHeaderSize = none := by
    have hs : slice? data fileHeaderSize (satAdd fileHeaderSize sectionDescriptorSize) = none :=
      slice?_eq_none_iff.mpr fun _ => by
        rw [satAdd_eq (by decide)]
        omega
    rw [walkStep, hs]
  rw [walkSectionsV1, walkTrace, Loop.visits_of_none hstep, List.map_nil]

theorem scanSegment_sections (n idx : ℕ) (geometry : Option VolumeGeometry) (data : List UInt8) :
    (scanSegment n idx geometry data).sections = walkSectionsV1 data := by
  rw [scanSegment]
  split_ifs with h
  · exact (walkSectionsV1_of_lt h).symm
  · rfl

theorem scanSegments_sections (n idx : ℕ) (geometry : Option VolumeGeometry)
    (segments : List (List UInt8)) :
    (scanSegments n idx geometry segments).map (·.sections) = segments.map walkSectionsV1 := by
  induction segments generalizing idx geometry with
  | nil => rfl
  | cons data rest ih =>
      simp only [scanSegments, List.map_cons, scanSegment_sections, ih]

/-- Each segment counts the entries of its first table. -/
theorem scanSegments_tableEntries (n idx : ℕ) (geometry : Option VolumeGeometry)
    (segments : List (List UInt8)) :
    (scanSegments n idx geometry segments).map (·.tableEntries) =
      segments.map fun data => tableEntryCount data (walkSectionsV1 data) := by
  induction segments generalizing idx geometry with
  | nil => rfl
  | cons data rest ih =>
      simp only [scanSegments, List.map_cons, ih]
      congr 1
      rw [scanSegment]
      split_ifs with h
      · rw [walkSectionsV1_of_lt h]
        rfl
      · rfl

/-- A saturating sum below the ceiling is the sum. -/
theorem foldl_satAdd32_eq {xs : List ℕ} {a : ℕ} (h : a + xs.sum ≤ u32Max) :
    xs.foldl satAdd32 a = a + xs.sum := by
  induction xs generalizing a with
  | nil => rfl
  | cons x xs ih =>
      rw [List.sum_cons] at h ⊢
      have hx : satAdd32 a x = a + x := Nat.min_eq_left (by omega)
      rw [List.foldl_cons, hx, ih (by omega), Nat.add_assoc]

/-- The geometry of a segment's first volume section. -/
def volumeGeometry (data : List UInt8) : Option VolumeGeometry :=
  (findVolume (walkSectionsV1 data)).bind fun v => (checkVolumeV1 data v.offset v.size).1

theorem scanSegment_geometry_zero (n : ℕ) (data : List UInt8) :
    (scanSegment n 0 none data).geometry = volumeGeometry data := by
  rw [scanSegment, volumeGeometry]
  split_ifs with h
  · rw [walkSectionsV1_of_lt h]
    rfl
  · simp only [segmentGeometry]
    cases findVolume (walkSectionsV1 data) with
    | none => rfl
    | some v => rfl

/-- Later segments leave the geometry variable alone. -/
theorem scanSegment_geometry_succ (n idx : ℕ) (geometry : Option VolumeGeometry)
    (data : List UInt8) : (scanSegment n (idx + 1) geometry data).geometry = geometry := by
  rw [scanSegment]
  split_ifs with h
  · rfl
  · simp only [segmentGeometry]
    cases findVolume (walkSectionsV1 data) with
    | none => rfl
    | some v => rfl

theorem scannedGeometry_cons_succ (n idx : ℕ) (geometry : Option VolumeGeometry)
    (scan : SegmentScan) (hscan : scan.geometry = geometry) (segments : List (List UInt8)) :
    scannedGeometry (scan :: scanSegments n (idx + 1) geometry segments) = geometry := by
  induction segments generalizing idx scan with
  | nil => simpa [scannedGeometry, scanSegments] using hscan
  | cons data rest ih =>
      have hg := scanSegment_geometry_succ n idx geometry data
      have := ih (idx + 1) (scanSegment n (idx + 1) geometry data) hg
      simp only [scanSegments, hg]
      rw [scannedGeometry, List.getLast?_cons_cons]
      exact this

/-- The geometry that the v1 analysis ends its segment loop with. -/
def analysisGeometry (segments : List (List UInt8)) : Option VolumeGeometry :=
  scannedGeometry (scanSegments segments.length 0 none segments)

/-- The geometry is that of the first segment. -/
theorem analysisGeometry_eq (segments : List (List UInt8)) :
    analysisGeometry segments = segments.head?.bind volumeGeometry := by
  rw [analysisGeometry]
  cases segments with
  | nil => rfl
  | cons data rest =>
      have hz := scanSegment_geometry_zero (data :: rest).length data
      simp only [scanSegments, hz]
      rw [scannedGeometry_cons_succ _ _ _ _ hz]
      rfl

/-- The byte stream that the v1 analysis feeds to its hashers; `none` when the hash loop is
not reached. -/
def analysisStream (C : Crates) (segments : List (List UInt8)) : Option (List UInt8) :=
  (analysisGeometry segments).map fun geom =>
    hashedStream C segments (segments.map walkSectionsV1) geom

/-- The anomalies of the segment loop. -/
def scanIssues (segments : List (List UInt8)) : List EwfIntegrityAnomaly :=
  (scanSegments segments.length 0 none segments).flatMap (·.issues)

/-- The entries counted over all segments. -/
def totalTableEntries (segments : List (List UInt8)) : ℕ :=
  ((scanSegments segments.length 0 none segments).map (·.tableEntries)).foldl satAdd32 0

/-- The segment loop reports nothing if no turn does. -/
theorem scanSegments_issues_eq_nil {n idx : ℕ} {geometry : Option VolumeGeometry}
    {segments : List (List UInt8)}
    (h : ∀ j data geometry', segments[j]? = some data → (idx + j = 0 → geometry' = geometry) →
      (scanSegment n (idx + j) geometry' data).issues = []) :
    (scanSegments n idx geometry segments).flatMap (·.issues) = [] := by
  induction segments generalizing idx geometry with
  | nil => rfl
  | cons data rest ih =>
      simp only [scanSegments, List.flatMap_cons, List.append_eq_nil_iff]
      refine ⟨h 0 data geometry rfl fun _ => rfl, ih fun j data' geometry' hj hz => ?_⟩
      rw [Nat.add_assoc, Nat.add_comm 1 j]
      exact h (j + 1) data' geometry' hj fun he => by omega

/-- The anomalies of the hash check, if it is reached. -/
def hashCheckIssues (C : Crates) (segments : List (List UInt8)) (expected : ExpectedHashes) :
    List EwfIntegrityAnomaly :=
  match analysisGeometry segments with
  | some geom => (checkHashAllSegments C segments (segments.map walkSectionsV1) geom expected).1
  | none => []

/-- The v1 analysis in its three parts. -/
theorem analyseAllEwf1_eq (C : Crates) (segments : List (List UInt8))
    (expected : ExpectedHashes) :
    analyseAllEwf1 C segments expected =
      scanIssues segments ++
        totalCountIssues segments.length (analysisGeometry segments) (totalTableEntries segments) ++
        hashCheckIssues C segments expected := by
  rw [analyseAllEwf1, hashCheckIssues, analysisGeometry]
  simp only [scanSegments_sections]
  rfl

/-- `analyse` on an image whose first segment has no v2 signature. -/
theorem analyse_v1 {C : Crates} {self : EwfIntegrity} (h : isEwf2 self.bytes = false) :
    self.analyse C = analyseAllEwf1 C self.bytes self.expected := by
  rw [EwfIntegrity.analyse, h]
  rfl

/-- A first segment with a v1 signature selects the v1 path. -/
theorem isEwf2_of_signature {data : List UInt8} {rest : List (List UInt8)}
    (h : data.take 8 = evfSignature ∨ data.take 8 = dvfSignature ∨ data.take 8 = lvfSignature) :
    isEwf2 (data :: rest) = false := by
  have hother : ∀ sig ∈ [evfSignature, dvfSignature, lvfSignature],
      sig ≠ evf2Signature ∧ sig ≠ lef2Signature := by decide
  obtain ⟨h1, h2⟩ := hother (data.take 8) (by simpa using h)
  rw [isEwf2]
  simp [h1, h2]

/-- The first segment's scan reports nothing when the analysis reports nothing. -/
theorem scanSegment_head_issues {C : Crates} {data : List UInt8} {rest : List (List UInt8)}
    {expected : ExpectedHashes} (h : analyseAllEwf1 C (data :: rest) expected = []) :
    (scanSegment (rest.length + 1) 0 none data).issues = [] := by
  rw [analyseAllEwf1_eq, List.append_eq_nil_iff, List.append_eq_nil_iff] at h
  have hscan := h.1.1
  simp only [scanIssues, scanSegments, List.length_cons, List.flatMap_cons,
    List.append_eq_nil_iff] at hscan
  exact hscan.1

/-! ### Geometry of a clean image -/

/-- The geometry's 32-bit fields. -/
theorem checkVolumeV1_bounds {data : List UInt8} {off size : ℕ} {geom : VolumeGeometry}
    (h : (checkVolumeV1 data off size).1 = some geom) :
    geom.chunkCount ≤ u32Max ∧ geom.sectorsPerChunk ≤ u32Max ∧ geom.bytesPerSector ≤ u32Max ∧
      geom.sectorCount ≤ u64Max := by
  rw [checkVolumeV1] at h
  simp only at h
  split_ifs at h with hlt
  split at h
  · cases h
  · next parsed hparsed =>
      obtain rfl := Option.some.inj h
      rw [EwfVolume.parse] at hparsed
      split_ifs at hparsed
      obtain rfl := Except.ok.inj hparsed
      have h1 := leU32_lt (volumeBody data off size) 4
      have h2 := leU32_lt (volumeBody data off size) 8
      have h3 := leU32_lt (volumeBody data off size) 12
      have h4 := leU64_le (volumeBody data off size) 16
      simp only [EwfVolume.ofBytes]
      rw [u32Max]
      omega

theorem volumeGeometry_bounds {data : List UInt8} {geom : VolumeGeometry}
    (h : volumeGeometry data = some geom) :
    geom.chunkCount ≤ u32Max ∧ geom.sectorsPerChunk ≤ u32Max ∧ geom.bytesPerSector ≤ u32Max ∧
      geom.sectorCount ≤ u64Max := by
  rw [volumeGeometry] at h
  obtain ⟨v, -, hv⟩ := Option.bind_eq_some_iff.mp h
  exact checkVolumeV1_bounds hv

/-- A chunk size is the product of two 32-bit numbers, so it is below the 64-bit ceiling. -/
theorem chunkSize_eq {geom : VolumeGeometry} (h1 : geom.sectorsPerChunk ≤ u32Max)
    (h2 : geom.bytesPerSector ≤ u32Max) :
    geom.chunkSize = geom.sectorsPerChunk * geom.bytesPerSector ∧ geom.chunkSize < u64Max := by
  have hprod : geom.sectorsPerChunk * geom.bytesPerSector ≤ u32Max * u32Max :=
    Nat.mul_le_mul h1 h2
  have hlt : u32Max * u32Max < u64Max := by decide
  have heq : geom.chunkSize = geom.sectorsPerChunk * geom.bytesPerSector :=
    satMul_eq (by omega)
  exact ⟨heq, by omega⟩

/-- A volume body that raises no anomaly has a positive chunk size. -/
theorem pos_of_volumeIssues_eq_nil {vol : List UInt8} {parsed : EwfVolume}
    (h : volumeIssues vol parsed = []) :
    0 < parsed.sectorsPerChunk ∧ (parsed.bytesPerSector = 512 ∨ parsed.bytesPerSector = 4096) := by
  simp only [volumeIssues, List.append_eq_nil_iff] at h
  obtain ⟨⟨⟨⟨-, hbps⟩, hspc⟩, -⟩, -⟩ := h
  constructor
  · by_contra hz
    rw [if_pos (Or.inl (by omega))] at hspc
    cases hspc
  · by_contra hne
    rw [if_pos (by omega)] at hbps
    cases hbps

/-- The first segment of a clean image: its geometry, if parsed, has positive chunk size. -/
theorem clean_geometry {C : Crates} {segments : List (List UInt8)} {expected : ExpectedHashes}
    (h : analyseAllEwf1 C segments expected = []) {geom : VolumeGeometry}
    (hgeom : analysisGeometry segments = some geom) :
    0 < geom.sectorsPerChunk ∧ (geom.bytesPerSector = 512 ∨ geom.bytesPerSector = 4096) := by
  cases segments with
  | nil => cases hgeom
  | cons data rest =>
      rw [analysisGeometry_eq] at hgeom
      have hhead := scanSegment_head_issues h
      rw [scanSegment] at hhead
      split_ifs at hhead with hlt
      simp only [segmentIssues, List.append_eq_nil_iff] at hhead
      obtain ⟨⟨⟨⟨⟨⟨-, hgi⟩, -⟩, -⟩, -⟩, -⟩, -⟩ := hhead
      have hvg : volumeGeometry data = some geom := hgeom
      rw [volumeGeometry] at hvg
      obtain ⟨v, hv, hvol⟩ := Option.bind_eq_some_iff.mp hvg
      simp only [segmentGeometry, hv, if_true] at hgi
      rw [checkVolumeV1] at hvol hgi
      simp only at hvol hgi
      split_ifs at hvol hgi with hshort
      split at hvol
      · cases hvol
      · next parsed hparsed =>
          rw [hparsed] at hgi
          obtain rfl := Option.some.inj hvol
          exact pos_of_volumeIssues_eq_nil hgi

/-! ### The hash loop -/

/-- A chunk range holds a span: uncompressed, the range is that long; compressed, the stream
inflates to that many bytes. -/
def ChunkRange.Holds (C : Crates) (c : ChunkRange) (data : List UInt8) (span : ℕ) : Prop :=
  if c.compressed then
    ∃ out, C.zlib.readUpTo (span + 1) (c.raw data) = some out ∧ span ≤ out.length
  else span ≤ (c.raw data).length

/-- What one turn feeds is at most its span, and all of it exactly when the chunk holds
it. -/
theorem length_hashChunk_fed {C : Crates} {chunkSize totalBytes remaining idx : ℕ}
    {data : List UInt8} {c : ChunkRange} (hcs : chunkSize < u64Max) :
    (hashChunk C chunkSize totalBytes remaining idx data c).fed.length ≤ min remaining chunkSize ∧
      ((hashChunk C chunkSize totalBytes remaining idx data c).fed.length =
          min remaining chunkSize ↔ 0 < min remaining chunkSize → c.Holds C data
            (min remaining chunkSize)) := by
  set span := min remaining chunkSize with hspan
  have hle : span ≤ chunkSize := Nat.min_le_right _ _
  have hsat : satAdd span 1 = span + 1 := satAdd_eq (by omega)
  rw [hashChunk, ChunkRange.Holds, decodeForHash]
  simp only [← hspan, hsat]
  cases hc : c.compressed with
  | true =>
      simp only [if_true]
      cases hz : C.zlib.readUpTo (span + 1) (c.raw data) with
      | none =>
          simp only [Option.map_none, List.length_nil]
          refine ⟨Nat.zero_le _, fun h hpos => by omega, fun h => ?_⟩
          by_contra hne
          obtain ⟨out, hout, -⟩ := h (by omega)
          cases hout
      | some out =>
          simp only [Option.map_some, List.length_take, Option.some.injEq, exists_eq_left']
          omega
  | false =>
      simp only [Bool.false_eq_true, if_false, List.length_take]
      omega

/-- **The hash loop is complete exactly when its chunks are.** It never feeds more than it
owes, and it feeds all of it exactly when each chunk it needs is there and holds its
span. -/
theorem length_hashLoop_fed_iff {C : Crates} {chunkSize totalBytes : ℕ} (hpos : 0 < chunkSize)
    (hcs : chunkSize < u64Max) (cs : List (List UInt8 × ChunkRange)) (remaining idx : ℕ) :
    ((hashLoop C chunkSize totalBytes remaining idx cs).flatMap (·.fed)).length ≤ remaining ∧
      (((hashLoop C chunkSize totalBytes remaining idx cs).flatMap (·.fed)).length = remaining ↔
        ∀ j, j * chunkSize < remaining → ∃ p, cs[j]? = some p ∧
          p.2.Holds C p.1 (min (remaining - j * chunkSize) chunkSize)) := by
  induction cs generalizing remaining idx with
  | nil =>
      simp only [hashLoop, List.flatMap_nil, List.length_nil, List.getElem?_nil, reduceCtorEq,
        false_and, exists_false]
      refine ⟨Nat.zero_le _, fun h j hj => by omega, fun h => ?_⟩
      by_contra hne
      exact h 0 (by omega)
  | cons p cs ih =>
      obtain ⟨data, c⟩ := p
      rw [hashLoop]
      split_ifs with hz
      · subst hz
        simp
      · set span := min remaining chunkSize with hspan
        have hspos : 0 < span := by omega
        obtain ⟨hle, hiff⟩ := @length_hashChunk_fed C chunkSize totalBytes remaining idx data c hcs
        obtain ⟨ihle, ihiff⟩ := ih (remaining - span) (satAdd idx 1)
        rw [← hspan] at hle hiff
        simp only [List.flatMap_cons, List.length_append]
        refine ⟨by omega, ?_⟩
        have hsplit : (hashChunk C chunkSize totalBytes remaining idx data c).fed.length +
            ((hashLoop C chunkSize totalBytes (remaining - span) (satAdd idx 1) cs).flatMap
              (·.fed)).length = remaining ↔
            (hashChunk C chunkSize totalBytes remaining idx data c).fed.length = span ∧
            ((hashLoop C chunkSize totalBytes (remaining - span) (satAdd idx 1) cs).flatMap
              (·.fed)).length = remaining - span := by
          omega
        rw [hsplit, hiff, ihiff]
        constructor
        · rintro ⟨hhead, htail⟩ j hj
          cases j with
          | zero => exact ⟨(data, c), rfl, by simpa [← hspan] using hhead hspos⟩
          | succ j =>
              have hmul : (j + 1) * chunkSize = j * chunkSize + chunkSize :=
                Nat.succ_mul j chunkSize
              obtain ⟨p, hp, hh⟩ := htail j (by omega)
              refine ⟨p, by simpa using hp, ?_⟩
              rwa [show remaining - (j + 1) * chunkSize = remaining - span - j * chunkSize by omega]
        · intro h
          refine ⟨fun _ => ?_, fun j hj => ?_⟩
          · obtain ⟨p, hp, hh⟩ := h 0 (by omega)
            obtain rfl : (data, c) = p := by simpa using hp
            simpa [← hspan] using hh
          · have hmul : (j + 1) * chunkSize = j * chunkSize + chunkSize := Nat.succ_mul j chunkSize
            obtain ⟨p, hp, hh⟩ := h (j + 1) (by omega)
            refine ⟨p, by simpa using hp, ?_⟩
            rwa [show remaining - (j + 1) * chunkSize = remaining - span - j * chunkSize by omega]
              at hh

/-- A chunk feeds at most its size. -/
theorem length_hashLoop_fed_le {C : Crates} {chunkSize totalBytes : ℕ} (hcs : chunkSize < u64Max)
    (cs : List (List UInt8 × ChunkRange)) (remaining idx : ℕ) :
    ((hashLoop C chunkSize totalBytes remaining idx cs).flatMap (·.fed)).length ≤
      cs.length * chunkSize := by
  induction cs generalizing remaining idx with
  | nil => simp [hashLoop]
  | cons p cs ih =>
      obtain ⟨data, c⟩ := p
      rw [hashLoop, List.length_cons, Nat.succ_mul]
      by_cases hz : remaining = 0
      · rw [if_pos hz]
        exact Nat.zero_le _
      · have hfed := (@length_hashChunk_fed C chunkSize totalBytes remaining idx data c hcs).1
        have hrest := ih (remaining - min remaining chunkSize) (satAdd idx 1)
        rw [if_neg hz, List.flatMap_cons, List.length_append]
        omega

end EwfForensic

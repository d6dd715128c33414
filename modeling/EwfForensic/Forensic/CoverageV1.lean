import EwfForensic.Forensic.ScanV1
import EwfForensic.Image.Encode

/-!
# Coverage of the v1 Hash Loop

Which bytes of the declared media a clean v1 verdict stands for. The catalogue says that the
stored hash is compared with a digest over exactly `sector_count × bytes_per_sector` bytes;
the hash loop stops silently where the chunk ranges stop, and a short chunk counts as a full
one.

* `leadingRanges` — the chunk ranges of a segment, read off its first table in plain
  arithmetic: those of the entries before the first one whose range is inverted or leaves
  the file. `iterSegmentChunks_eq` shows that the loop of the source finds these.
* `Covered` — the geometry parses and every chunk of the declared media has a leading range
  that holds its span.
* `fullyHashed_iff_covered` — on a clean image the hashers get every declared byte exactly
  when the image is covered. `shortImage` is clean and not covered.
-/

namespace EwfForensic

open Octets

/-! ### Where the walk's sections lie -/

/-- A section that the walk records has its whole descriptor in the segment. -/
theorem offset_le_of_mem_walkSectionsV1 {data : List UInt8} (hdata : data.length < u64Max)
    {s : Section} (hs : s ∈ walkSectionsV1 data) : s.offset + 76 ≤ data.length := by
  rw [walkSectionsV1, List.mem_map] at hs
  obtain ⟨p, hp, rfl⟩ := hs
  refine @Loop.forall_visits _ _ (walkStep data) (fun _ => True)
    (fun p => p.1.offset + 76 ≤ data.length) (fun _ _ _ _ _ => trivial) ?_ _ _ trivial p hp
  intro pos a t _ hstep
  rw [walkStep] at hstep
  split at hstep
  · cases hstep
  · next raw hraw =>
      have hle : pos + 76 ≤ data.length :=
        (satAdd_le_iff hdata).mp (slice?_eq_some_iff.mp hraw).2.1
      split at hstep
      · cases hstep
      · next desc hdesc =>
          simp only at hstep
          split_ifs at hstep <;>
            · simp only [Option.some.injEq, Prod.mk.injEq] at hstep
              rw [← hstep.1]
              exact hle

theorem mem_of_findSection {sections : List Section} {t : SectionType} {s : Section}
    (h : findSection sections t = some s) : s ∈ sections :=
  List.mem_of_find?_eq_some h

/-! ### Chunk ranges in plain arithmetic -/

/-- Entry `i` of the table described at `table`, if its four bytes are in the file. -/
def tableEntry (data : List UInt8) (table : Section) (i : ℕ) : Option TableEntry :=
  if table.offset + 100 + 4 * i + 4 ≤ data.length then
    some (TableEntry.ofNat (leU32 data (table.offset + 100 + 4 * i)))
  else none

/-- The absolute offset that entry `i` gives its chunk. -/
def tableTarget (data : List UInt8) (table : Section) (i : ℕ) : Option ℕ :=
  (tableEntry data table i).map fun e => leU64 data (table.offset + 84) + e.chunkOffset

/-- Where chunk `i` of the table ends: at the next entry's chunk, or for the last entry at
the end of the `sectors` section, cut at the end of the file. -/
def tableStop (data : List UInt8) (table sectors : Section) (i : ℕ) : Option ℕ :=
  if i + 1 < leU32 data (table.offset + 76) then tableTarget data table (i + 1)
  else some (min (sectors.offset + sectors.size) data.length)

/-- The range of chunk `i` of the table, if it is not empty and lies in the file. -/
def describedRange (data : List UInt8) (table sectors : Section) (i : ℕ) : Option ChunkRange :=
  match tableEntry data table i, tableStop data table sectors i with
  | some e, some stop =>
    let start := leU64 data (table.offset + 84) + e.chunkOffset
    if start < stop ∧ stop ≤ data.length then some ⟨start, stop, e.compressed⟩ else none
  | _, _ => none

/-- The chunk ranges of a segment's first table, up to the first entry without one. -/
def leadingRanges (data : List UInt8) : List ChunkRange :=
  match findSection (walkSectionsV1 data) .table, findSection (walkSectionsV1 data) .sectors with
  | some table, some sectors =>
    if table.offset + 100 ≤ data.length then
      (((List.range (leU32 data (table.offset + 76))).map
        (describedRange data table sectors)).takeWhile Option.isSome).reduceOption
    else []
  | _, _ => []

/-- The leading ranges of all segments in order, each with its segment's bytes. -/
def imageRanges (segments : List (List UInt8)) : List (List UInt8 × ChunkRange) :=
  segments.flatMap fun data => (leadingRanges data).map (data, ·)

section Ranges

variable {data : List UInt8}

/-- The range of a chunk starts at its entry's target and ends at its stop. -/
theorem describedRange_eq_some {table sectors : Section} {i : ℕ} {c : ChunkRange}
    (h : describedRange data table sectors i = some c) :
    tableTarget data table i = some c.start ∧ tableStop data table sectors i = some c.stop ∧
      c.start < c.stop ∧ c.stop ≤ data.length := by
  rw [describedRange] at h
  rw [tableTarget]
  split at h
  · next e stop he hs =>
      simp only at h
      split_ifs at h with hb
      obtain rfl := Option.some.inj h
      exact ⟨by rw [he, Option.map_some], hs, hb⟩
  · cases h

/-- The leading ranges are those of a loop over the entries that breaks at the first one
without a range. -/
theorem leadingRanges_eq_some {c : ChunkRange} {k : ℕ} (h : (leadingRanges data)[k]? = some c) :
    ∃ table sectors, findSection (walkSectionsV1 data) .table = some table ∧
      findSection (walkSectionsV1 data) .sectors = some sectors ∧
      k < leU32 data (table.offset + 76) ∧ describedRange data table sectors k = some c ∧
      ∀ m < k, (describedRange data table sectors m).isSome := by
  rw [leadingRanges] at h
  split at h
  · next table sectors ht hs =>
      split_ifs at h
      · rw [List.range_eq_range', ← Loop.forBreak_eq_takeWhile, Loop.getElem?_forBreak] at h
        simp only [Nat.zero_add] at h
        exact ⟨table, sectors, ht, hs, h.1, h.2.2, h.2.1⟩
      · cases h
  · cases h

/-- Against the end of the file, the saturated address of an entry compares as the address
does. -/
theorem entryAt_eq (hdata : data.length < u64Max) (table : Section) (i : ℕ) :
    entryAt data (table.offset + 100) i = tableEntry data table i := by
  unfold entryAt tableEntry
  simp only
  split_ifs with hin
  · have hoff : satAdd (table.offset + 100) (satMul i 4) = table.offset + 100 + 4 * i := by
      rw [satMul_eq (by omega), satAdd_eq (by omega)]
      omega
    have hs := slice?_of_le (Nat.le_add_right (table.offset + 100 + 4 * i) 4) hin
    have hlen := length_of_slice? hs
    have hfield := leAt_of_slice? hs (by omega)
    rw [hoff, satAdd_eq (by omega), hs]
    simp only [TableEntry.parse, leU32, hfield]
    rw [if_neg (by omega)]
    rfl
  · have hnone : slice? data (satAdd (table.offset + 100) (satMul i 4))
        (satAdd (satAdd (table.offset + 100) (satMul i 4)) 4) = none := by
      refine slice?_eq_none_iff.mpr fun _ => ?_
      unfold satAdd satMul
      omega
    rw [hnone]

/-- One turn of the chunk loop finds the described range. -/
theorem chunkStep_eq (hdata : data.length < u64Max) (table sectors : Section) {i : ℕ}
    (hi : i < leU32 data (table.offset + 76)) :
    chunkStep data (leU32 data (table.offset + 76)) (leU64 data (table.offset + 84))
        (table.offset + 100) (satAdd sectors.offset sectors.size) i =
      describedRange data table sectors i := by
  have hi1 : satAdd i 1 = i + 1 := by
    have := leU32_lt data (table.offset + 76)
    exact satAdd_eq (by unfold u64Max; omega)
  have hend : min (satAdd sectors.offset sectors.size) data.length =
      min (sectors.offset + sectors.size) data.length := by
    rw [satAdd]
    omega
  -- A saturated offset is beyond the end of the file, where neither side has a range.
  have hrange : ∀ start stop flag,
      (if satAdd (leU64 data (table.offset + 84)) start ≥ min stop u64Max ∨
          min stop u64Max > data.length then none
        else some (ChunkRange.mk (satAdd (leU64 data (table.offset + 84)) start)
          (min stop u64Max) flag)) =
      if leU64 data (table.offset + 84) + start < stop ∧ stop ≤ data.length then
        some (ChunkRange.mk (leU64 data (table.offset + 84) + start) stop flag) else none := by
    intro start stop flag
    rw [satAdd]
    by_cases h : leU64 data (table.offset + 84) + start < stop ∧ stop ≤ data.length
    · rw [if_neg (by omega), if_pos h, Nat.min_eq_left (by omega), Nat.min_eq_left (by omega)]
    · rw [if_pos (by omega), if_neg h]
  rw [chunkStep, describedRange, tableStop, tableTarget]
  simp only [entryAt_eq hdata, hi1, hend]
  cases tableEntry data table i with
  | none => rfl
  | some e =>
      simp only
      split_ifs with hlast
      · cases tableEntry data table (i + 1) with
        | none => rfl
        | some e' => exact hrange _ _ _
      · have := hrange e.chunkOffset (min (sectors.offset + sectors.size) data.length) e.compressed
        rwa [show min (min (sectors.offset + sectors.size) data.length) u64Max =
          min (sectors.offset + sectors.size) data.length by omega] at this

/-- The chunk loop of the source goes over the described ranges, for any list of sections. -/
theorem iterSegmentChunks_eq_forBreak (hdata : data.length < u64Max) {sections : List Section}
    {table sectors : Section} (ht : findSection sections .table = some table)
    (hs : findSection sections .sectors = some sectors) :
    iterSegmentChunks data sections =
      if table.offset + 100 ≤ data.length then
        Loop.forBreak (describedRange data table sectors) (leU32 data (table.offset + 76)) 0
      else [] := by
  rw [iterSegmentChunks]
  simp only [ht, hs]
  by_cases h : table.offset + 100 ≤ data.length
  · have hstart : satAdd table.offset sectionDescriptorSize = table.offset + 76 :=
      @satAdd_eq table.offset 76 (by omega)
    have hbody : satAdd (table.offset + 76) tableHeaderSize = table.offset + 100 :=
      @satAdd_eq (table.offset + 76) 24 (by omega)
    have hlen : tableHeaderCrcOffset ≤ (data.drop (table.offset + 76)).length := by
      rw [List.length_drop, show tableHeaderCrcOffset = 16 from rfl]
      omega
    have hcount : leU32 (data.drop (table.offset + 76)) 0 = leU32 data (table.offset + 76) :=
      leAt_drop (by omega) (by omega)
    have hbase : leU64 (data.drop (table.offset + 76)) 8 = leU64 data (table.offset + 84) :=
      leAt_drop (by omega) (by omega)
    rw [hstart, hbody, if_neg (by omega), if_pos h, TableHeader.parse_of_le hlen]
    simp only [TableHeader.ofBytes, hcount, hbase]
    exact Loop.forBreak_congr fun i hi => chunkStep_eq hdata table sectors (by omega)
  · -- A saturated offset leaves no room for the header either.
    have hroom : data.length < satAdd (satAdd table.offset sectionDescriptorSize)
        tableHeaderSize := by
      unfold satAdd
      rw [show sectionDescriptorSize = 76 from rfl, show tableHeaderSize = 24 from rfl]
      omega
    rw [if_pos hroom, if_neg h]

/-- The chunk loop of the source finds the leading ranges. -/
theorem iterSegmentChunks_eq (hdata : data.length < u64Max) :
    iterSegmentChunks data (walkSectionsV1 data) = leadingRanges data := by
  rw [leadingRanges]
  match ht : findSection (walkSectionsV1 data) .table,
      hs : findSection (walkSectionsV1 data) .sectors with
  | none, _ =>
      rw [iterSegmentChunks]
      simp only [ht]
  | some table, none =>
      rw [iterSegmentChunks]
      simp only [ht, hs]
  | some table, some sectors =>
      rw [iterSegmentChunks_eq_forBreak hdata ht hs, Loop.forBreak_eq_takeWhile,
        ← List.range_eq_range']

end Ranges

/-! ### Coverage -/

/-- Every byte of the declared media reached the hashers: the stream fed to them is as long
as the first segment's volume section says. -/
def FullyHashed (C : Crates) (segments : List (List UInt8)) : Prop :=
  ∃ geom, segments.head?.bind volumeGeometry = some geom ∧
    (analysisStream C segments).map List.length = some (geom.sectorCount * geom.bytesPerSector)

/-- The image is covered: its geometry parses, the media size fits 64 bits, and every chunk
of the media has a leading range that holds the bytes the chunk stands for. -/
def Covered (C : Crates) (segments : List (List UInt8)) : Prop :=
  ∃ geom, segments.head?.bind volumeGeometry = some geom ∧
    geom.sectorCount * geom.bytesPerSector ≤ u64Max ∧
    ∀ j, j * (geom.sectorsPerChunk * geom.bytesPerSector) <
        geom.sectorCount * geom.bytesPerSector →
      ∃ p, (imageRanges segments)[j]? = some p ∧
        p.2.Holds C p.1 (min (geom.sectorCount * geom.bytesPerSector -
          j * (geom.sectorsPerChunk * geom.bytesPerSector))
          (geom.sectorsPerChunk * geom.bytesPerSector))

/-- The chunks that the hash loop visits are the leading ranges. -/
theorem allChunks_eq {segments : List (List UInt8)} (h : ∀ d ∈ segments, d.length < u64Max) :
    allChunks segments (segments.map walkSectionsV1) = imageRanges segments := by
  rw [allChunks, imageRanges]
  induction segments with
  | nil => rfl
  | cons data rest ih =>
      have hhead := iterSegmentChunks_eq (h data (List.mem_cons_self ..))
      have htail := ih fun d hd => h d (List.mem_cons_of_mem _ hd)
      simp only [List.map_cons, List.zip_cons_cons, List.flatMap_cons, hhead, htail]

/-- With a positive chunk size, full hashing is coverage. -/
theorem fullyHashed_iff_of_pos {C : Crates} {segments : List (List UInt8)}
    (hlen : ∀ d ∈ segments, d.length < u64Max)
    (hpos : ∀ geom, segments.head?.bind volumeGeometry = some geom →
      0 < geom.sectorsPerChunk * geom.bytesPerSector) :
    FullyHashed C segments ↔ Covered C segments := by
  rw [FullyHashed, Covered]
  refine exists_congr fun geom => and_congr_right fun hgeom => ?_
  have hcs := hpos geom hgeom
  obtain ⟨first, -, hvol⟩ := Option.bind_eq_some_iff.mp hgeom
  obtain ⟨-, hspc, hbps, -⟩ := volumeGeometry_bounds hvol
  obtain ⟨hchunk, hltmax⟩ := chunkSize_eq hspc hbps
  obtain ⟨hle, hiff⟩ := @length_hashLoop_fed_iff C geom.chunkSize geom.totalBytes (hchunk ▸ hcs)
    hltmax (imageRanges segments) geom.totalBytes 0
  have hstream : (analysisStream C segments).map List.length =
      some ((hashLoop C geom.chunkSize geom.totalBytes geom.totalBytes 0
        (imageRanges segments)).flatMap (·.fed)).length := by
    rw [analysisStream, analysisGeometry_eq, hgeom, Option.map_some, Option.map_some,
      hashedStream, hashRun, allChunks_eq hlen]
  rw [hstream, Option.some.injEq]
  rw [hchunk] at hle hiff
  rw [hchunk]
  constructor
  · intro hfed
    -- The stream never exceeds the saturated total, so the total did not saturate.
    have htotal : geom.totalBytes = geom.sectorCount * geom.bytesPerSector := by
      have : geom.totalBytes ≤ geom.sectorCount * geom.bytesPerSector := Nat.min_le_left _ _
      omega
    refine ⟨htotal ▸ Nat.min_le_right _ _, ?_⟩
    rw [← htotal]
    exact hiff.mp (hfed.trans htotal.symm)
  · rintro ⟨hmax, hall⟩
    have htotal : geom.totalBytes = geom.sectorCount * geom.bytesPerSector := satMul_eq hmax
    rw [← htotal] at hall ⊢
    exact hiff.mpr hall

/-- **Coverage of a clean v1 verdict.** On an image that the analysis reports clean, the
hashers got every byte of the declared media exactly when the image is covered. -/
theorem fullyHashed_iff_covered (C : Crates) (segs : List Segment)
    (hv1 : isEwf2 (segs.map (·.data)) = false)
    (hclean : (EwfIntegrity.fromSegments segs).analyse C = []) :
    FullyHashed C (segs.map (·.data)) ↔ Covered C (segs.map (·.data)) := by
  have hanalyse : analyseAllEwf1 C (segs.map (·.data)) .none = [] := by
    have hbytes : isEwf2 (EwfIntegrity.fromSegments segs).bytes = false := hv1
    rw [← hclean, analyse_v1 hbytes]
    rfl
  refine fullyHashed_iff_of_pos (fun d hd => ?_) fun geom hgeom => ?_
  · obtain ⟨s, -, rfl⟩ := List.mem_map.mp hd
    exact s.length_lt_u64Max
  · rw [← analysisGeometry_eq] at hgeom
    obtain ⟨hspc, hbps⟩ := clean_geometry hanalyse hgeom
    exact Nat.mul_pos hspc (by omega)

/-- An image of one 512-byte sector, stored whole, with its MD5. -/
def wholeImage : Segment :=
  ⟨Image.oneChunkBytes 1 363 (List.replicate 512 7) (Digest.md5 (List.replicate 512 7)).1,
    by decide +kernel⟩

/-- An image that stores one byte in place of its 512-byte sector, with the byte's MD5. -/
def shortImage : Segment :=
  ⟨Image.oneChunkBytes 1 363 [7] (Digest.md5 [7]).1, by decide +kernel⟩

theorem fullyHashed_iff_covered_wholeImage :
    isEwf2 [wholeImage.data] = false ∧
      (EwfIntegrity.fromSegments [wholeImage]).analyse Crates.reference = [] ∧
      (FullyHashed Crates.reference [wholeImage.data] ↔
        Covered Crates.reference [wholeImage.data]) := by
  have hv1 : isEwf2 [wholeImage.data] = false := by decide +kernel
  have hclean : (EwfIntegrity.fromSegments [wholeImage]).analyse Crates.reference = [] := by
    decide +kernel
  exact ⟨hv1, hclean, fullyHashed_iff_covered Crates.reference [wholeImage] hv1 hclean⟩

/-- The image with one byte in place of its 512-byte sector is reported clean, and one byte
was hashed. -/
theorem shortImage_not_fullyHashed :
    isEwf2 [shortImage.data] = false ∧
      (EwfIntegrity.fromSegments [shortImage]).analyse Crates.reference = [] ∧
      ¬ FullyHashed Crates.reference [shortImage.data] := by
  refine ⟨by decide +kernel, by decide +kernel, ?_⟩
  rintro ⟨geom, hgeom, hlen⟩
  have hmedia : ([shortImage.data].head?.bind volumeGeometry).map
      (fun g => g.sectorCount * g.bytesPerSector) = some 512 := by
    decide +kernel
  have hfed : (analysisStream Crates.reference [shortImage.data]).map List.length = some 1 := by
    decide +kernel
  rw [hgeom, Option.map_some] at hmedia
  rw [hfed, hmedia] at hlen
  cases hlen

end EwfForensic

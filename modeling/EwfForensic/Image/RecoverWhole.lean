import EwfForensic.Image.Recovery

/-!
# Recovering an Undamaged Image

The recovery of a well-formed image that the reader reads in full gives the reader's stream,
with no chunk lost or flagged, exactly when every segment keeps its chunks in one pair of table
and sectors sections (`recovers_iff`). The recovery refers to the first table of a segment only:
with a second pair it counts too few chunks, and the chunks at the end of the image are lost.

`twoPairsLayout` is an image of one segment with two pairs of one chunk each.
-/

namespace EwfForensic.Image

open Octets

section Layout

variable {C : Crates} {L : Layout}

/-- The sizes that the recovery computes are those of the image. -/
theorem Layout.Formed.geometry_spec (h : L.Formed C) :
    L.geometry.chunkSize = L.chunkSize ∧ L.geometry.imageSize = L.media.length ∧
      L.geometry.chunksNeeded = L.chunks.length := by
  have hmax : L.chunkSize ≤ 134217728 := h.chunkSize_le
  have hchunk : L.geometry.chunkSize = L.chunkSize :=
    satMul_eq (by
      show L.chunkSize ≤ u64Max
      rw [u64Max]
      omega)
  have hsectors : L.sectorCount * L.bytesPerSector = L.media.length := by
    rw [Nat.mul_comm, h.sectors_eq]
  have hsize : L.geometry.imageSize = L.media.length := by
    have hmul : L.geometry.imageSize = L.sectorCount * L.bytesPerSector :=
      satMul_eq (show L.sectorCount * L.bytesPerSector ≤ u64Max by
        rw [hsectors]
        exact h.bounds.2.2.2.1)
    rw [hmul, hsectors]
  have hpos : 0 < L.geometry.chunkSize := hchunk ▸ h.chunkSize_pos
  refine ⟨hchunk, hsize, ?_⟩
  -- Both count the chunks that start within the media.
  refine eq_of_forall_lt_iff fun i => ?_
  have hlen := h.blocks.mul_lt_length h.chunkSize_pos i
  rw [List.length_map] at hlen
  rw [Recover.Geometry.lt_chunksNeeded hpos, hchunk, hsize]
  exact hlen

/-- The data of chunk `i` is as long as what the recovery writes for it. -/
theorem Layout.Formed.logicalAt_eq (h : L.Formed C) {i : ℕ} {c : Stored}
    (hc : L.chunks[i]? = some c) : L.geometry.logicalAt i = c.data.length := by
  obtain ⟨hchunk, hsize, -⟩ := h.geometry_spec
  have hdata : (L.chunks.map Stored.data)[i]? = some c.data := by
    rw [List.getElem?_map, hc]
    rfl
  have hlen := h.blocks.getElem?_length hdata
  rw [Recover.Geometry.logicalAt, hchunk, hsize, hlen, min_comm]
  rfl

/-- What the recovery writes for a chunk that is served whole is its data. -/
theorem Stored.ServedAs.outcome {c : Stored} {r : Recover.RecoveredChunk}
    (h : c.ServedAs (r.decoded.map Recover.Decoded.result)) (hlen : r.logical = c.data.length) :
    r.written = c.data ∧ r.isLost = false ∧ r.isFlagged = false := by
  obtain ⟨rest, hrest⟩ := h
  obtain ⟨hwritten, hlost, hflagged⟩ := Recover.RecoveredChunk.of_result hrest
  have hzero : c.data.length - (c.data ++ rest).length = 0 := by
    rw [List.length_append]
    omega
  refine ⟨?_, hlost, by rw [hflagged]; rfl⟩
  rw [hwritten, hlen, List.take_left' rfl, hzero, List.replicate_zero, List.append_nil]

end Layout

/-- The recovery of some segment files succeeds and gives `stream`, and it reports no chunk as
zero-filled or with a wrong checksum. -/
def RecoversTo (C : Crates) (files : List (List UInt8)) (stream : List UInt8) : Prop :=
  ∃ report, Recover.recoverToFile C files = some (report, stream) ∧
    report.chunksZeroFilled = 0 ∧ report.lostChunks = [] ∧
    report.chunksCrcFlagged = 0 ∧ report.crcFlaggedChunks = []

section Layout

variable {C : Crates} {L : Layout} {sources : List Segment}

/-- The first of the files, as a prefix of itself. -/
theorem headD_files {sources : List Segment} {src : Segment} (hsrc : sources[0]? = some src) :
    (sources.map (·.data)).headD [] = src.data.take src.data.length := by
  rw [List.take_length]
  cases sources with
  | nil => simp at hsrc
  | cons a rest =>
      obtain rfl : a = src := by simpa using hsrc
      rfl

/-- The recovery of the segment files of an image, chunk by chunk. -/
theorem Layout.Formed.recoverToFile_files (h : L.Formed C)
    (hcs : L.chunkSize ≤ Recover.maxChunkSize) (hfiles : sources.map (·.data) = L.files) :
    ∃ report, Recover.recoverToFile C (sources.map (·.data)) =
        some (report, (Recover.pieces C (sources.map (·.data)) L.geometry).flatten) ∧
      report = Recover.reportOf L.geometry.imageSize L.geometry.chunkSize L.geometry.chunkCount
        (L.geometry.imageSize -
          Recover.logicalBytes (Recover.recoverRun C (sources.map (·.data)) L.geometry))
        ((sources.map (·.data)).findSome? Recover.walkTruncation)
        (Recover.recoverRun C (sources.map (·.data)) L.geometry) := by
  obtain ⟨src, hsrc, w⟩ := h.source hfiles (i := 0) (s := L.first) rfl
  have hvolume : L.volumePos + 100 ≤ src.data.length := by
    have hle := (w.hasAt_section L.volume_mem).2.length_le
    have hbody : L.volume.body.length = 24 + L.volumeRest.length := by
      rw [Layout.volume, List.length_append, length_volumeFront]
    simp only at hle
    omega
  have hb := (h.bootstrap_take w le_rfl (headD_files hsrc) L.geometry).mpr ⟨rfl, hvolume, hcs⟩
  obtain ⟨-, hsize, -⟩ := h.geometry_spec
  have hmedia : L.media.length ≤ L.chunks.length * L.chunkSize := by
    have := h.blocks.length_flatten_le h.chunkSize_pos
    rwa [List.length_map] at this
  have hmul : L.chunks.length * L.chunkSize ≤ 4294967296 * 67108864 :=
    Nat.mul_le_mul (le_of_lt h.chunks_lt) hcs
  refine ⟨_, ?_, rfl⟩
  rw [Recover.recoverToFile_of_bootstrap C hb, if_neg]
  rw [Recover.maxFileSize]
  omega

/-- What the reader reads in full is the media. -/
theorem Layout.WellFormed.stream_eq_media {L : Layout} (h : L.WellFormed C)
    {sources : List Segment} (hfiles : sources.map (·.data) = L.files) {r : EwfReader}
    (hr : openFromSources C sources = .ok r) {stream : List UInt8}
    (hread : (r.readAt C r.init 0 r.totalSize).1 = .ok stream) : stream = L.media := by
  have hfit := tablesFit_of_open h hfiles hr
  obtain ⟨r', hr', ho⟩ := open_files h hfit hfiles
  rw [hr] at hr'
  obtain rfl := Except.ok.inj hr'
  rw [ho.totalSize_eq] at hread
  have hraw := rawInFile_of_readAt h hfiles ho hread
  obtain ⟨r', hr', -, htrips⟩ := roundTrips_of_fits h hfiles hfit hraw
  rw [hr] at hr'
  obtain rfl := Except.ok.inj hr'
  have := htrips r.init .init 0 L.media.length
  rw [hread, List.drop_zero, List.take_length] at this
  exact Except.ok.inj this

/-- The outcome of each chunk, where every segment keeps its chunks in one pair. -/
theorem Layout.Formed.outcomeAt_files (h : L.Formed C) (hfiles : sources.map (·.data) = L.files)
    (hone : L.OnePairEach) {i : ℕ} {c : Stored} (hc : L.chunks[i]? = some c) :
    (Recover.outcomeAt C ((sources.map (·.data)).map Recover.SegmentTables.ofBytes)
      L.geometry i).written = c.data ∧
    (Recover.outcomeAt C ((sources.map (·.data)).map Recover.SegmentTables.ofBytes)
      L.geometry i).isLost = false ∧
    (Recover.outcomeAt C ((sources.map (·.data)).map Recover.SegmentTables.ofBytes)
      L.geometry i).isFlagged = false := by
  have hall := hone.map_firstLocated
  have hi := (List.getElem?_eq_some_iff.mp hc).1
  rw [← hall, List.getElem?_map] at hc
  obtain ⟨q, hq, rfl⟩ := Option.map_eq_some_iff.mp hc
  have hserved := (h.decodeGlobal_files hfiles i).1 q hq
  refine Stored.ServedAs.outcome ?_ (h.logicalAt_eq (by rw [← hall, List.getElem?_map, hq]; rfl))
  rw [Recover.outcomeAt, if_pos (show i < L.geometry.chunkCount from hi), h.geometry_spec.1]
  exact hserved

/-- Its recovered bytes are the media. -/
theorem Layout.Formed.pieces_files (h : L.Formed C) (hfiles : sources.map (·.data) = L.files)
    (hone : L.OnePairEach) :
    (Recover.pieces C (sources.map (·.data)) L.geometry).flatten = L.media := by
  rw [Recover.pieces, h.geometry_spec.2.2, Layout.media]
  congr 1
  refine List.ext_getElem? fun i => ?_
  by_cases hi : i < L.chunks.length
  · have hc := List.getElem?_eq_getElem hi
    rw [List.getElem?_map, List.getElem?_map, hc, List.getElem?_range' hi, Nat.zero_add,
      Nat.one_mul, Option.map_some, Option.map_some, (h.outcomeAt_files hfiles hone hc).1]
  · rw [List.getElem?_eq_none (by simpa using hi), List.getElem?_eq_none (by simpa using hi)]

/-- **Recovery fidelity.** For a well-formed image that the reader reads in full, the recovery
gives the reader's stream, with nothing lost or flagged, exactly when every segment keeps its
chunks in one pair. -/
theorem recovers_iff (C : Crates) (L : Layout) (h : L.WellFormed C)
    (hcs : L.chunkSize ≤ Recover.maxChunkSize) (sources : List Segment)
    (hfiles : sources.map (·.data) = L.files) {r : EwfReader}
    (hr : openFromSources C sources = .ok r) {stream : List UInt8}
    (hread : (r.readAt C r.init 0 r.totalSize).1 = .ok stream) :
    RecoversTo C (sources.map (·.data)) stream ↔ L.OnePairEach := by
  obtain rfl := h.stream_eq_media hfiles hr hread
  obtain ⟨hchunk, hsize, hneeded⟩ := h.geometry_spec
  have hpos : 0 < L.geometry.chunkSize := hchunk ▸ h.chunkSize_pos
  obtain ⟨report, hrun, hreport⟩ := h.recoverToFile_files hcs hfiles
  have hmap := Recover.recoverRun_eq_map C (sources.map (·.data)) hpos
  rw [hneeded, show L.geometry.chunkCount = L.chunks.length from rfl, Nat.min_self] at hmap
  have hdecode := h.decodeGlobal_files hfiles
  rw [L.onePairEach_iff]
  constructor
  · rintro ⟨report', hrun', -, hlost, -, -⟩
    rw [hrun] at hrun'
    obtain rfl : report = report' := (Prod.mk.inj (Option.some.inj hrun')).1
    -- Otherwise the last chunk of the image is lost.
    by_contra hne
    have hlt := L.length_firstLocated_le
    have hmem : L.chunks.length - 1 ∈ report.lostChunks := by
      rw [hreport, Recover.reportOf]
      simp only
      rw [hmap, Recover.filter_map_outcomeAt, List.mem_filter]
      refine ⟨by rw [List.mem_range'_1]; omega, ?_⟩
      rw [Recover.RecoveredChunk.isLost, Recover.outcomeAt, hchunk,
        (hdecode (L.chunks.length - 1)).2 (by omega), ite_self]
      rfl
    rw [hlost] at hmem
    cases hmem
  · intro hlen
    have hone := L.onePairEach_iff.mpr hlen
    have hout := fun i c (hc : L.chunks[i]? = some c) => h.outcomeAt_files hfiles hone hc
    have hnone : ∀ p : Recover.RecoveredChunk → Bool,
        (∀ i < L.chunks.length, p (Recover.outcomeAt C
          ((sources.map (·.data)).map Recover.SegmentTables.ofBytes) L.geometry i) = false) →
        (Recover.recoverRun C (sources.map (·.data)) L.geometry).filter p = [] := by
      intro p hp
      rw [hmap, List.filter_eq_nil_iff]
      intro x hx
      obtain ⟨i, hi, rfl⟩ := List.mem_map.mp hx
      rw [List.mem_range'_1] at hi
      rw [hp i (by omega)]
      decide
    have hlost := hnone (·.isLost) fun i hi => (hout i _ (List.getElem?_eq_getElem hi)).2.1
    have hflagged := hnone (·.isFlagged) fun i hi => (hout i _ (List.getElem?_eq_getElem hi)).2.2
    rw [h.pieces_files hfiles hone] at hrun
    refine ⟨report, hrun, ?_, ?_, ?_, ?_⟩ <;>
      simp only [hreport, Recover.reportOf, List.countP_eq_length_filter, hlost, hflagged,
        List.length_nil, List.map_nil]

end Layout

/-- A pair of a table in both forms and one raw chunk of 1024 bytes `b`. -/
def oneChunkPair (b : UInt8) : Pair :=
  ⟨true, .both, 0, true, [], [⟨List.replicate 1024 b, .raw⟩]⟩

/-- An image of one segment with two pairs. -/
def twoPairsLayout : Layout where
  preamble := []
  disk := false
  mediaType := 1
  sectorsPerChunk := 2
  bytesPerSector := 512
  sectorCount := 4
  volumeRest := List.replicate 70 0
  items := [.pair (oneChunkPair 7), .pair (oneChunkPair 9)]
  nextField := 0
  rest := []

/-- The image as a source. -/
def twoPairsImage : Segment := ⟨twoPairsLayout.files.headD [], by decide +kernel⟩

theorem twoPairsLayout_wellFormed : twoPairsLayout.WellFormed Crates.reference where
  preamble_aux := by simp [twoPairsLayout]
  items_aux := by simp [twoPairsLayout]
  rest_aux := by simp [twoPairsLayout]
  volumeRest_le := by decide +kernel
  chunkSize_pos := by decide +kernel
  chunkSize_le := by decide +kernel
  sectors_eq := by decide +kernel
  blocks := by decide +kernel
  chunks_lt := by decide +kernel
  sound := by
    intro c hc z pad he
    simp only [Layout.chunks, twoPairsLayout, oneChunkPair, Item.chunks, List.flatMap_cons,
      List.flatMap_nil, List.append_nil, List.cons_append, List.nil_append, List.mem_cons,
      List.not_mem_nil, or_false] at hc
    rcases hc with rfl | rfl <;> cases he
  tables_eq := by decide +kernel
  base_le := by decide +kernel
  nextField_le := by decide +kernel
  segments_le := by decide +kernel
  short := by decide +kernel

theorem recovers_iff_mixedImage :
    (onePairLayout 3 mixedChunks).WellFormed Crates.reference ∧
      [mixedImage].map (·.data) = (onePairLayout 3 mixedChunks).files ∧
        ∃ r stream, openFromSources Crates.reference [mixedImage] = .ok r ∧
          (r.readAt Crates.reference r.init 0 r.totalSize).1 = .ok stream ∧
            (RecoversTo Crates.reference [mixedImage.data] stream ↔
              (onePairLayout 3 mixedChunks).OnePairEach) := by
  have hval : (openAndRead Crates.reference mixedImage 1536).map (fun v => v.1.totalSize) =
      some 1536 := by decide +kernel
  obtain ⟨⟨r, stream⟩, hv, htotal⟩ := Option.map_eq_some_iff.mp hval
  obtain ⟨hr, hread⟩ := openAndRead_eq_some hv
  rw [← htotal] at hread
  exact ⟨mixedChunks_wellFormed, rfl, r, stream, hr, hread,
    recovers_iff Crates.reference _ mixedChunks_wellFormed (by decide) [mixedImage] rfl hr hread⟩

/-- The image with two pairs is read in full, and its recovery loses the second chunk. -/
theorem twoPairsImage_not_recovers :
    twoPairsLayout.WellFormed Crates.reference ∧
      [twoPairsImage].map (·.data) = twoPairsLayout.files ∧
        twoPairsLayout.chunkSize ≤ Recover.maxChunkSize ∧
          ∃ r stream, openFromSources Crates.reference [twoPairsImage] = .ok r ∧
            (r.readAt Crates.reference r.init 0 r.totalSize).1 = .ok stream ∧
              ¬ RecoversTo Crates.reference [twoPairsImage.data] stream := by
  have hval : (openAndRead Crates.reference twoPairsImage 2048).map (fun v => v.1.totalSize) =
      some 2048 := by decide +kernel
  obtain ⟨⟨r, stream⟩, hv, htotal⟩ := Option.map_eq_some_iff.mp hval
  obtain ⟨hr, hread⟩ := openAndRead_eq_some hv
  rw [← htotal] at hread
  refine ⟨twoPairsLayout_wellFormed, rfl, by decide, r, stream, hr, hread, ?_⟩
  rintro ⟨report, hrun, -, hlost, -, -⟩
  have hsome : (Recover.recoverToFile Crates.reference [twoPairsImage.data]).map
      (fun v => v.1.lostChunks) = some [1] := by decide +kernel
  rw [hrun, Option.map_some, hlost] at hsome
  cases hsome

end EwfForensic.Image

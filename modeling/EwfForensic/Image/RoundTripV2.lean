import EwfForensic.Core.WholeMedia
import EwfForensic.Image.ReadingV2
import EwfForensic.Image.RoundTrip

/-!
# The Round Trip of v2 Images

`EwfReader::open_segments_v2` on the segment files of an acquisition, in any order, and the reader
that it gives.

* `AcquisitionV2.Conforms.open_eq` — the open succeeds, with the chunks of the acquisition.
* `v2_round_trip` — every read is a slice of the media, whatever was read before.
* `v2_verify` — `verify` digests the media, and finds the digests that the image stores.
-/

namespace EwfForensic.Image

open Octets

/-! ### Acquisitions -/

/-- The chunk size that a geometry declares. -/
def chunkBytes (g : Ewf2Geometry) : ℕ := g.bytesPerSector * g.sectorsPerChunk

/-- An acquisition has what the reader needs: device information that declares the size of the
chunks and of the media. -/
structure AcquisitionV2.ReadsAs (C : Crates) (g : Ewf2Geometry) (A : AcquisitionV2) : Prop where
  segment : ∀ s ∈ A.segments, s.ReadsAs C g
  deviceInfo : ∃ s ∈ A.segments, ∃ t ∈ s.sections, t.sectionType = 1
  chunkBytes_pos : 0 < chunkBytes g
  media_eq : g.bytesPerSector * g.totalSectors = A.media.length
  room_le : A.media.length + chunkBytes g ≤ u64Max
  blocks : Blocks (chunkBytes g) (A.chunks.map (·.media))

/-- All chunks in order, each with the index of its segment. -/
def AcquisitionV2.located (A : AcquisitionV2) : List (ℕ × PlacedChunk) :=
  A.segments.zipIdx.flatMap fun q => q.1.chunks.map fun c => (q.2, c)

section Acquisitions

variable {C : Crates} {g : Ewf2Geometry} {A : AcquisitionV2} {files sources : List Segment}

theorem AcquisitionV2.map_located (A : AcquisitionV2) : A.located.map Prod.snd = A.chunks := by
  rw [AcquisitionV2.located, AcquisitionV2.chunks, List.map_flatMap]
  simp only [List.map_map, Function.comp_def, List.map_id']
  conv_rhs => rw [← List.zipIdx_map_fst 0 A.segments, List.flatMap_map]

theorem AcquisitionV2.mem_located {x : ℕ × PlacedChunk} :
    x ∈ A.located ↔ ∃ s, A.segments[x.1]? = some s ∧ x.2 ∈ s.chunks := by
  rw [AcquisitionV2.located, List.mem_flatMap]
  constructor
  · rintro ⟨q, hq, hx⟩
    obtain ⟨c, hc, rfl⟩ := List.mem_map.mp hx
    exact ⟨q.1, List.mem_zipIdx_iff_getElem?.mp hq, hc⟩
  · rintro ⟨s, hs, hx⟩
    exact ⟨(s, x.1), List.mem_zipIdx_iff_getElem?.mpr hs, List.mem_map.mpr ⟨x.2, hx, rfl⟩⟩

/-! #### The file headers -/

/-- The segment number in a file header. -/
def headerNumber (s : Segment) : ℕ := leU32 (s.data.take ewf2FileHeaderSize) 12

/-- The file header of a segment is read. -/
theorem SegmentV2.Conforms.parse_eq {num : ℕ} {s : SegmentV2} {f : Segment}
    (h : s.Conforms C num f.data) (hnum : num ≤ u32Max) :
    headerNumber f = num ∧ ∃ header, header.segmentNumber = num ∧
      (readExact f.data 0 ewf2FileHeaderSize).bind Ewf2FileHeader.parse = .ok header := by
  obtain ⟨signature, version, method, tail, hsig, hversion, hmethod, htail, hat⟩ := h.header
  have hsiglen : signature.length = 8 := by
    rcases hsig with rfl | rfl <;> rfl
  obtain ⟨hdr, hhdr⟩ : ∃ hdr, hdr = signature ++ version ++ toLE 2 method ++ toLE 4 num ++ tail :=
    ⟨_, rfl⟩
  rw [← hhdr] at hat
  have hlen : hdr.length = ewf2FileHeaderSize := by
    simp only [hhdr, List.length_append, length_toLE, hsiglen, hversion, htail]
  obtain ⟨hroom, hwin⟩ := hasAt_iff.mp hat
  rw [hlen, Nat.zero_add] at hroom
  rw [hlen, List.drop_zero] at hwin
  have hself : HasAt hdr 0 (signature ++ version ++ toLE 2 method ++ toLE 4 num ++ tail) :=
    hhdr ▸ hasAt_self hdr
  have hfront := (hasAt_iff.mp hself.left.left.left.left).2
  have h1 := hself.left.left.right
  have h2 := hself.left.right
  simp only [List.length_append, length_toLE, hsiglen, hversion, Nat.zero_add,
    Nat.reduceAdd] at h1 h2
  rw [List.drop_zero, hsiglen] at hfront
  have hmax : hdr.length ≤ u64Max := by
    rw [hlen]
    decide
  have hmethodAt : leU16 hdr 10 = method := h1.leAt hmax (by omega)
  have hnumAt : leU32 hdr 12 = num := h2.leAt hmax (Nat.lt_succ_of_le hnum)
  obtain ⟨compression, hcompression⟩ :
      ∃ compression, CompressionMethod.fromU16 method = .ok compression := by
    rcases Nat.le_one_iff_eq_zero_or_eq_one.mp hmethod with rfl | rfl <;> exact ⟨_, rfl⟩
  have hread : readExact f.data 0 ewf2FileHeaderSize = .ok hdr := by
    refine (readExact_eq_ok_iff (by decide)).mpr ⟨by rwa [Nat.zero_add], ?_⟩
    rw [List.drop_zero, hwin]
  obtain ⟨header, hheader, hfield⟩ : ∃ header, Ewf2FileHeader.parse hdr = .ok header ∧
      header.segmentNumber = leU32 hdr 12 := by
    rw [Ewf2FileHeader.parse, if_neg (by omega), if_neg (by rw [← hfront] at hsig; tauto),
      hmethodAt, hcompression]
    exact ⟨_, rfl, rfl⟩
  refine ⟨by rw [headerNumber, hwin, hnumAt], header, hfield.trans hnumAt, ?_⟩
  rw [hread]
  exact hheader

/-- The file headers are read. -/
theorem exists_parseHeadersV2 {number : Segment → ℕ} (h : ∀ s ∈ sources,
    ∃ header : Ewf2FileHeader, header.segmentNumber = number s ∧
      (readExact s.data 0 ewf2FileHeaderSize).bind Ewf2FileHeader.parse = .ok header) :
    ∃ headers, parseHeadersV2 sources = .ok headers ∧
      headers.map (·.segmentNumber) = sources.map number := by
  induction sources with
  | nil => exact ⟨[], rfl, rfl⟩
  | cons s rest ih =>
      obtain ⟨header, hnum, hheader⟩ := h s (List.mem_cons_self ..)
      obtain ⟨headers, hheaders, hnums⟩ := ih fun t ht => h t (List.mem_cons_of_mem _ ht)
      refine ⟨header :: headers, ?_, by rw [List.map_cons, List.map_cons, hnum, hnums]⟩
      rw [parseHeadersV2, mapM_eq_ok_iff] at hheaders ⊢
      exact .cons hheader hheaders

/-- **The segments are put in order**, however the sources are given. -/
theorem AcquisitionV2.Conforms.order_eq (h : A.Conforms C files) (hperm : sources.Perm files) :
    ∃ headers, parseHeadersV2 sources = .ok headers ∧
      validateAndReorderSegments sources (headers.map (·.segmentNumber)) = .ok files := by
  have hnumber : ∀ k f, files[k]? = some f → headerNumber f = k + 1 ∧
      ∃ header : Ewf2FileHeader, header.segmentNumber = headerNumber f ∧
        (readExact f.data 0 ewf2FileHeaderSize).bind Ewf2FileHeader.parse = .ok header := by
    intro k f hf
    obtain ⟨s, -, hs, hk⟩ := h.exists_segment hf
    obtain ⟨hnum, header, hheader, hparse⟩ := hs.parse_eq hk
    exact ⟨hnum, header, hheader.trans hnum.symm, hparse⟩
  obtain ⟨headers, hheaders, hnums⟩ := @exists_parseHeadersV2 sources headerNumber fun s hs => by
    obtain ⟨k, hk⟩ := List.mem_iff_getElem?.mp (hperm.mem_iff.mp hs)
    exact (hnumber k s hk).2
  refine ⟨headers, hheaders, ?_⟩
  have hrange : files.map headerNumber = List.range' 1 files.length := by
    refine List.ext_getElem? fun k => ?_
    rw [List.getElem?_map]
    cases hf : files[k]? with
    | none =>
        have hle := List.getElem?_eq_none_iff.mp hf
        rw [List.getElem?_eq_none (by rwa [List.length_range'])]
        rfl
    | some f =>
        have hlt := (List.getElem?_eq_some_iff.mp hf).1
        rw [List.getElem?_range' hlt, Option.map_some, (hnumber k f hf).1]
        congr 1
        omega
  have hzip : ∀ l : List Segment, l.zip (l.map headerNumber) = l.map fun s => (s, headerNumber s) :=
    fun l => List.map_prod_left_eq_zip.symm
  have hnodup : ((sources.zip (sources.map headerNumber)).map (·.2)).Nodup := by
    rw [hzip, List.map_map]
    change (sources.map headerNumber).Nodup
    rw [(hperm.map _).nodup_iff, hrange]
    exact List.nodup_range'
  have hsort := @sortByNumber_eq_of_perm _ _ (files.zip (files.map headerNumber))
    (by rw [hzip, hzip]; exact hperm.map _) hnodup
  have hcount := h.count_le
  rw [← h.length_eq, u32Max] at hcount
  rw [hnums, validateAndReorderSegments, hsort, hrange]
  exact validateAndReorderSegments_range' (by omega)

/-! #### The open -/

/-- A file of an acquisition, with its segment. -/
theorem AcquisitionV2.Conforms.reads (h : A.Conforms C files) (hr : A.ReadsAs C g) {k : ℕ}
    {f : Segment} (hf : files[k]? = some f) : ∃ s, A.segments[k]? = some s ∧
      s.Conforms C (k + 1) f.data ∧ s.ReadsAs C g ∧ f.data.length < u64Max := by
  obtain ⟨s, hs, hc, -⟩ := h.exists_segment hf
  exact ⟨s, hs, hc, hr.segment s (List.mem_of_getElem? hs), f.length_lt_u64Max⟩

/-- The reader's chunks are those of the acquisition. -/
theorem AcquisitionV2.Conforms.chunks_eq (h : A.Conforms C files) (hr : A.ReadsAs C g) :
    ewf2Chunks files = A.located.map fun x => x.2.tableEntry.chunk x.1 := by
  rw [ewf2Chunks, AcquisitionV2.located, List.map_flatMap, List.flatMap_def, List.flatMap_def]
  refine congrArg _ (List.ext_getElem? fun k => ?_)
  rw [List.getElem?_map, List.getElem?_map, List.getElem?_zipIdx, List.getElem?_zipIdx]
  cases hf : files[k]? with
  | none =>
      have hnone : A.segments[k]? = none := by
        rw [List.getElem?_eq_none_iff, ← h.length_eq]
        exact List.getElem?_eq_none_iff.mp hf
      rw [hnone]
      rfl
  | some f =>
      obtain ⟨s, hs, hc, hg, hdata⟩ := h.reads hr hf
      rw [hs, Option.map_some, Option.map_some, Option.map_some, Option.map_some,
        Option.some.injEq]
      have htables := hc.tables_eq hg hdata
      calc ewf2ChunksOf (0 + k) (ewf2Tables f.data)
          = ((ewf2Tables f.data).map Ewf2Table.entries).flatMap
              fun entries => entries.map (Ewf2TableEntry.chunk (0 + k)) := by
            rw [List.flatMap_map]
            rfl
        _ = _ := by
            rw [htables, List.flatMap_singleton, List.map_map, List.map_map]
            rfl

/-- Equal geometries count once. -/
theorem foldl_note_of_forall_eq {gs : List Ewf2Geometry} (hne : gs ≠ []) (h : ∀ x ∈ gs, x = g)
    (hpos : (g.apply (0, 0)).1 ≠ 0) : gs.foldl Ewf2Geometry.note (0, 0) = g.apply (0, 0) := by
  obtain ⟨x, rest, rfl⟩ := List.exists_cons_of_ne_nil hne
  obtain rfl := h x (List.mem_cons_self ..)
  rw [List.foldl_cons, Ewf2Geometry.note, if_pos rfl, foldl_note_of_ne_zero hpos]

/-- The image declares the geometry of the acquisition. -/
theorem AcquisitionV2.Conforms.geometries_eq (h : A.Conforms C files) (hr : A.ReadsAs C g) :
    (ewf2Media C files).geometries ≠ [] ∧ ∀ x ∈ (ewf2Media C files).geometries, x = g := by
  have hgeom : ∀ x, x ∈ (ewf2Media C files).geometries ↔ ∃ (k : ℕ) (f : Segment) (s : SegmentV2),
      files[k]? = some f ∧ A.segments[k]? = some s ∧ ∃ t ∈ s.sections,
        (if t.sectionType = 1 then some g else none) = some x := by
    intro x
    rw [ewf2Media, List.mem_flatMap]
    constructor
    · rintro ⟨f, hf, hx⟩
      obtain ⟨k, hk⟩ := List.mem_iff_getElem?.mp hf
      obtain ⟨s, hs, hc, hg, hdata⟩ := h.reads hr hk
      rw [(hc.descriptors_eq hdata).2] at hx
      obtain ⟨d, hd, hx⟩ := List.mem_filterMap.mp hx
      obtain ⟨t, ht, rfl⟩ := List.mem_map.mp hd
      have ht := List.mem_reverse.mp ht
      rw [hc.geometryAt_eq hg hdata ht] at hx
      exact ⟨k, f, s, hk, hs, t, ht, hx⟩
    · rintro ⟨k, f, s, hk, hs, t, ht, hx⟩
      obtain ⟨s', hs', hc, hg, hdata⟩ := h.reads hr hk
      obtain rfl := Option.some.inj (hs.symm.trans hs')
      refine ⟨f, List.mem_of_getElem? hk, ?_⟩
      rw [(hc.descriptors_eq hdata).2]
      refine List.mem_filterMap.mpr ⟨_, List.mem_map_of_mem (List.mem_reverse.mpr ht), ?_⟩
      rw [hc.geometryAt_eq hg hdata ht, hx]
  constructor
  · obtain ⟨s, hs, t, ht, htype⟩ := hr.deviceInfo
    obtain ⟨k, hk⟩ := List.mem_iff_getElem?.mp hs
    have hlt := (List.getElem?_eq_some_iff.mp hk).1
    rw [← h.length_eq] at hlt
    refine List.ne_nil_of_mem (a := g) ((hgeom g).mpr
      ⟨k, _, s, List.getElem?_eq_getElem hlt, hk, t, ht, if_pos htype⟩)
  · intro x hx
    obtain ⟨k, f, s, -, -, t, -, hx⟩ := (hgeom x).mp hx
    split_ifs at hx
    exact (Option.some.inj hx).symm

/-- The media is not empty. -/
theorem AcquisitionV2.Conforms.media_pos (h : A.Conforms C files) (hr : A.ReadsAs C g) :
    0 < A.media.length := by
  obtain ⟨s, rest, hsegs⟩ := List.exists_cons_of_ne_nil h.segments_ne
  have hpos : 0 < files.length := by
    rw [h.length_eq, hsegs]
    exact Nat.succ_pos _
  have hc := h.file 0 s _ (by rw [hsegs]; rfl) (List.getElem?_eq_getElem hpos)
  obtain ⟨c, chunks, hchunks⟩ := List.exists_cons_of_ne_nil hc.chunks_ne
  have hmem : c ∈ A.chunks := by
    rw [AcquisitionV2.chunks, hsegs, List.flatMap_cons, hchunks]
    exact List.mem_cons_self ..
  have hblock := hr.blocks.length_le hr.chunkBytes_pos c.media (List.mem_map_of_mem hmem)
  rw [AcquisitionV2.media, List.length_flatMap]
  exact lt_of_lt_of_le hblock.1 (List.le_sum_of_mem (List.mem_map_of_mem hmem))

/-- **The open succeeds** in any order of the files, with the chunks of the acquisition. -/
theorem AcquisitionV2.Conforms.open_eq (h : A.Conforms C files) (hr : A.ReadsAs C g)
    (hperm : sources.Perm files) (cacheSize : ℕ) :
    ∃ st r, files.zipIdx.foldlM (openSegmentV2 C) {} = .ok st ∧
      r = finishOpenV2 files cacheSize st ∧ openSegmentsV2 C sources cacheSize = .ok r ∧
      r.chunkSize = chunkBytes g ∧ r.totalSize = A.media.length ∧
      r.chunks = .eager (A.located.map fun x => x.2.tableEntry.chunk x.1) := by
  obtain ⟨headers, hheaders, horder⟩ := h.order_eq hperm
  obtain ⟨st, hst⟩ := @Fold.exists_foldlM _ _ _ (openSegmentV2 C) files.zipIdx
    (fun q hq st => by
      obtain ⟨s, -, hc, hg, -⟩ := h.reads hr (List.mem_zipIdx_iff_getElem?.mp hq)
      exact hc.exists_open hg st) {}
  have hchunks := (foldlM_openSegmentV2_ok hst).2.trans (h.chunks_eq hr)
  -- The geometry sets both sizes.
  have hmedia := h.media_pos hr
  have hcs : wrappingMul g.bytesPerSector g.sectorsPerChunk = chunkBytes g :=
    wrappingMul_eq_iff.mpr (le_trans (Nat.le_add_left _ _) hr.room_le)
  have hts : wrappingMul g.bytesPerSector g.totalSectors = A.media.length :=
    (wrappingMul_eq_iff.mpr (hr.media_eq ▸ le_trans (Nat.le_add_right _ _) hr.room_le)).trans
      hr.media_eq
  have hsectors : 0 < g.totalSectors ∧ 0 < g.bytesPerSector := by
    have := hr.media_eq
    constructor <;> refine Nat.pos_of_ne_zero fun h0 => ?_ <;> rw [h0] at this <;> omega
  have happly : g.apply (0, 0) = (chunkBytes g, A.media.length) := by
    rw [Ewf2Geometry.apply, hcs, if_pos hr.chunkBytes_pos, if_pos hsectors, hts]
  have hpos := hr.chunkBytes_pos
  obtain ⟨hne, hall⟩ := h.geometries_eq hr
  have hsizes := geometry_segments hst
  rw [foldl_note_of_forall_eq hne hall (by rw [happly]; exact hpos.ne'), happly] at hsizes
  obtain ⟨hchunk, htotal⟩ := Prod.mk.inj hsizes
  refine ⟨st, _, hst, rfl, ?_, ?_, ?_, ?_⟩
  · rw [openSegmentsV2, hheaders]
    change (validateAndReorderSegments sources _).bind _ = _
    rw [horder]
    change (files.zipIdx.foldlM (openSegmentV2 C) {}).bind _ = _
    rw [hst]
    rfl
  · simp only [finishOpenV2, hchunk, if_neg hpos.ne']
  · simp only [finishOpenV2, htotal, if_neg hmedia.ne']
  · rw [finishOpenV2, hchunks]

/-! #### The media -/

/-- The page of a chunk starts with its media. -/
theorem PlacedChunk.StandsIn.decodePage_eq {c : PlacedChunk} {k j : ℕ} {f : Segment} {n : ℕ}
    (h : c.StandsIn C f.data) (hf : files[k]? = some f) (hk : k < 4294967296)
    (hn : c.media.length ≤ n) :
    ∃ rest, decodePage C files n j (c.tableEntry.chunk k) = .ok (c.media ++ rest) := by
  have hroom := h.stands.length_le
  have hlt := f.length_lt
  have hsize := h.size_le
  rw [List.length_append, length_toLE] at hroom
  have hchunk : c.tableEntry.chunk k = ⟨k, c.entry.compressed, c.offset, c.bytes.length + 4⟩ := by
    have hoff : c.offset % 9223372036854775808 = c.offset := Nat.mod_eq_of_lt (by omega)
    have hsz : (c.bytes.length + 4) % 4294967296 = c.bytes.length + 4 :=
      Nat.mod_eq_of_lt (Nat.lt_succ_of_le hsize)
    simp only [Ewf2TableEntry.chunk, Chunk.new, PlacedChunk.tableEntry, Nat.mod_eq_of_lt hk, hoff,
      hsz]
    rfl
  have hlen : (c.bytes ++ toLE 4 (adler32 c.bytes)).length = c.bytes.length + 4 := by
    rw [List.length_append, length_toLE]
  obtain ⟨rest, hrest⟩ := readAtMost_of_hasAt h.stands hlen.le
  have hbytes := h.bytes_eq
  rw [hchunk, decodePage, hf]
  simp only
  cases hcomp : c.entry.compressed with
  | true =>
      rw [hcomp, if_pos rfl] at hbytes
      rw [if_pos rfl, hrest, List.append_assoc, hbytes.readUpTo, List.take_of_length_le hn]
      exact ⟨_, rfl⟩
  | false =>
      rw [hcomp, if_neg Bool.false_ne_true] at hbytes
      -- A raw chunk that is shorter than a chunk is read with a part of its checksum.
      have hfull : ¬ (readAtMost f.data c.offset (min (c.bytes.length + 4) n)).length <
          min (c.bytes.length + 4) n := by
        rw [readAtMost, List.length_take, List.length_drop]
        omega
      obtain ⟨rest', hrest'⟩ := readAtMost_of_hasAt h.stands.left
        (show c.bytes.length ≤ min (c.bytes.length + 4) n by rw [hbytes]; omega)
      rw [if_neg Bool.false_ne_true, if_neg hfull, hrest', hbytes]
      exact ⟨_, by rw [padPage, List.append_assoc]⟩

/-- **The reader of an acquisition** reads its media. -/
theorem AcquisitionV2.Conforms.stores (h : A.Conforms C files) (hr : A.ReadsAs C g)
    {r : EwfReader} (hsegments : r.segments = files) (hchunkSize : r.chunkSize = chunkBytes g)
    (htotal : r.totalSize = A.media.length)
    (hchunks : r.chunks = .eager (A.located.map fun x => x.2.tableEntry.chunk x.1)) :
    r.Stores C (A.chunks.map (·.media)) where
  chunkSize_pos := hchunkSize ▸ hr.chunkBytes_pos
  cut := hchunkSize ▸ hr.blocks
  totalSize_eq := by rw [htotal, AcquisitionV2.media, List.flatMap_def]
  len_eq := by
    rw [hchunks, ← A.map_located, List.length_map, List.length_map]
    exact List.length_map _
  page := by
    intro j b hb
    rw [← A.map_located, List.map_map, List.getElem?_map] at hb
    obtain ⟨x, hx, rfl⟩ := Option.map_eq_some_iff.mp hb
    obtain ⟨s, hs, hc⟩ := AcquisitionV2.mem_located.mp (List.mem_of_getElem? hx)
    have hlt := (List.getElem?_eq_some_iff.mp hs).1
    have hcount := h.count_le
    rw [← h.length_eq] at hlt hcount
    rw [u32Max] at hcount
    have hf : files[x.1]? = some files[x.1] := List.getElem?_eq_getElem hlt
    obtain ⟨t, -, -, -, hin⟩ := (h.file _ s _ hs hf).table
    have hmem : x.2.media ∈ A.chunks.map (·.media) := by
      rw [← A.map_located, List.map_map]
      exact List.mem_map_of_mem (List.mem_of_getElem? hx)
    have hn := (hr.blocks.length_le hr.chunkBytes_pos _ hmem).2
    rw [EwfReader.page, hchunks, hsegments, hchunkSize]
    simp only [ChunkTable.find, List.getElem?_map, hx, Option.map_some]
    exact (hin.chunk x.2 hc).decodePage_eq hf (by omega) hn

/-- What only hash sections change. -/
structure KeepsDigests (st st' : OpenState) : Prop where
  storedMd5 : st'.storedMd5 = st.storedMd5
  storedSha1 : st'.storedSha1 = st.storedSha1

section Digests

variable {k : ℕ} {data : List UInt8} {st st' : OpenState} {desc : Ewf2SectionDescriptor}

theorem handleCaseData_digests (h : handleCaseData C data st desc = .ok st') :
    KeepsDigests st st' := by
  rw [handleCaseData] at h
  split_ifs at h with hread
  · obtain ⟨raw, -, h⟩ := except_bind_eq_ok_iff.mp h
    obtain rfl := Except.ok.inj h
    exact ⟨rfl, rfl⟩
  · obtain rfl := Except.ok.inj h
    exact ⟨rfl, rfl⟩

theorem handleDeviceInfo_digests (h : handleDeviceInfo C data st desc = .ok st') :
    KeepsDigests st st' := by
  rw [handleDeviceInfo] at h
  split_ifs at h with hread
  · obtain ⟨raw, -, h⟩ := except_bind_eq_ok_iff.mp h
    obtain rfl := Except.ok.inj h
    exact ⟨rfl, rfl⟩
  · obtain rfl := Except.ok.inj h
    exact ⟨rfl, rfl⟩

/-- **What one section does to the digests**: a hash section goes to its handler, and any other
section leaves both alone. -/
theorem handleDescriptorV2_digests (h : handleDescriptorV2 C k data st desc = .ok st') :
    desc.sectionType = .md5Hash ∧ handleMd5Hash data st desc = .ok st' ∨
      desc.sectionType = .sha1Hash ∧ handleSha1Hash data st desc = .ok st' ∨
      desc.sectionType ≠ .md5Hash ∧ desc.sectionType ≠ .sha1Hash ∧ KeepsDigests st st' := by
  rw [handleDescriptorV2] at h
  split_ifs at h
  split at h
  · next ht => exact .inr (.inr ⟨by simp [ht], by simp [ht], handleCaseData_digests h⟩)
  · next ht => exact .inr (.inr ⟨by simp [ht], by simp [ht], handleDeviceInfo_digests h⟩)
  · next ht =>
      obtain ⟨-, rfl⟩ := handleSectorTable_ok h
      exact .inr (.inr ⟨by simp [ht], by simp [ht], rfl, rfl⟩)
  · next ht => exact .inl ⟨ht, h⟩
  · next ht => exact .inr (.inl ⟨ht, h⟩)
  · next hmd5 hsha1 =>
      obtain rfl := Except.ok.inj h
      exact .inr (.inr ⟨hmd5, hsha1, rfl, rfl⟩)

/-- The digests of a media, as far as the sections met so far store them. -/
structure Digested (C : Crates) (media : List UInt8) (secs : List SectionV2) (st : OpenState) :
    Prop where
  md5 : (∃ t ∈ secs, t.sectionType = evf2TypeMd5Hash) → st.storedMd5 = some (C.md5 media)
  sha1 : (∃ t ∈ secs, t.sectionType = evf2TypeSha1Hash) → st.storedSha1 = some (C.sha1 media)

/-- A digest in front of a section's body is read. -/
theorem SectionV2.StandsIn.digest_eq {t : SectionV2} (hdata : data.length < u64Max)
    (h : t.StandsIn data) {n : ℕ} (hn : 0 < n) {digest : Digest.Bytes n}
    (hfront : digest.val <+: t.content) (name : String) : n ≤ t.dataSize ∧
      ewf2StoredHash n data name (descriptorAt data t.descOffset) = .ok digest := by
  have hroom : n ≤ t.dataSize := by
    have hle := hfront.length_le
    rwa [digest.property, h.size] at hle
  refine ⟨hroom, ?_⟩
  have htake := List.prefix_iff_eq_take.mp hfront
  rw [digest.property] at htake
  rw [h.storedHash_eq hdata hroom, ← htake, Digest.bytesAt,
    (Digest.bytesAt?_eq_some_iff hn).mpr ⟨Nat.zero_le _, List.prefix_rfl⟩, Option.getD_some]

/-- **One section of the last segment** keeps the digests right. -/
theorem Digested.step {num : ℕ} {s : SegmentV2} {media : List UInt8} {secs : List SectionV2}
    {t : SectionV2} (hd : Digested C media secs st) (hc : s.Conforms C num data)
    (hdata : data.length < u64Max) (ht : t ∈ s.sections)
    (hright : (t.sectionType = evf2TypeMd5Hash → (C.md5 media).val <+: t.content) ∧
      (t.sectionType = evf2TypeSha1Hash → (C.sha1 media).val <+: t.content))
    (h : handleDescriptorV2 C k data st (descriptorAt data t.descOffset) = .ok st') :
    Digested C media (secs ++ [t]) st' := by
  have hstands := hc.chained.standsIn ht
  have hdesc := (hstands.describedBy hdata).2
  have hmd5 : (descriptorAt data t.descOffset).sectionType = .md5Hash ↔
      t.sectionType = evf2TypeMd5Hash := by
    rw [hdesc.sectionType]
    exact (fromU32_hashes _).1
  have hsha1 : (descriptorAt data t.descOffset).sectionType = .sha1Hash ↔
      t.sectionType = evf2TypeSha1Hash := by
    rw [hdesc.sectionType]
    exact (fromU32_hashes _).2
  have hsplit : ∀ n, (∃ u ∈ secs ++ [t], u.sectionType = n) ↔
      (∃ u ∈ secs, u.sectionType = n) ∨ t.sectionType = n := by
    intro n
    simp only [List.mem_append, List.mem_singleton, or_and_right, exists_or, exists_eq_left]
  obtain ⟨htype, h⟩ | ⟨htype, h⟩ | ⟨hno, hno', hkeeps⟩ := handleDescriptorV2_digests h
  · obtain ⟨hroom, hread⟩ := hstands.digest_eq hdata (by decide) (hright.1 (hmd5.mp htype))
      "md5_hash"
    have hother : t.sectionType ≠ evf2TypeSha1Hash := by
      rw [hmd5.mp htype]
      decide
    rw [handleMd5Hash, hdesc.dataSize, if_pos hroom, hread] at h
    obtain rfl := Except.ok.inj h
    exact ⟨fun _ => rfl, fun hex => hd.sha1 (((hsplit _).mp hex).resolve_right hother)⟩
  · obtain ⟨hroom, hread⟩ := hstands.digest_eq hdata (by decide) (hright.2 (hsha1.mp htype))
      "sha1_hash"
    have hother : t.sectionType ≠ evf2TypeMd5Hash := by
      rw [hsha1.mp htype]
      decide
    rw [handleSha1Hash, hdesc.dataSize, if_pos hroom, hread] at h
    obtain rfl := Except.ok.inj h
    exact ⟨fun hex => hd.md5 (((hsplit _).mp hex).resolve_right hother), fun _ => rfl⟩
  · refine ⟨fun hex => ?_, fun hex => ?_⟩
    · rw [hkeeps.storedMd5]
      exact hd.md5 (((hsplit _).mp hex).resolve_right fun heq => hno (hmd5.mpr heq))
    · rw [hkeeps.storedSha1]
      exact hd.sha1 (((hsplit _).mp hex).resolve_right fun heq => hno' (hsha1.mpr heq))

/-- **The last segment** leaves the digests that it stores. -/
theorem digested_of_openSegmentV2 {num : ℕ} {s : SegmentV2} {media : List UInt8} {f : Segment}
    (hc : s.Conforms C num f.data)
    (hright : ∀ t ∈ s.sections,
      (t.sectionType = evf2TypeMd5Hash → (C.md5 media).val <+: t.content) ∧
      (t.sectionType = evf2TypeSha1Hash → (C.sha1 media).val <+: t.content))
    (h : openSegmentV2 C st (f, k) = .ok st') : Digested C media s.sections.reverse st' := by
  have hdata := f.length_lt_u64Max
  rw [openSegmentV2, (hc.descriptors_eq hdata).1] at h
  change (s.sections.reverse.map _).foldlM _ _ = _ at h
  rw [List.foldlM_map] at h
  have hrun := Fold.foldlM_prefix (fun secs st => (∀ t ∈ secs, t ∈ s.sections) →
      Digested C media secs st) h (p := []) (fun _ => ⟨by simp, by simp⟩)
    fun secs t st st' hd ht hall => by
      have hmem := hall t (List.mem_append_right _ (List.mem_singleton_self _))
      exact (hd fun u hu => hall u (List.mem_append_left _ hu)).step hc hdata hmem (hright t hmem) ht
  exact hrun fun t ht => List.mem_reverse.mp (by simpa using ht)

end Digests

/-- The digests that an open of the files of an acquisition keeps. -/
theorem AcquisitionV2.Conforms.digested (h : A.Conforms C files) {st : OpenState}
    (hst : files.zipIdx.foldlM (openSegmentV2 C) {} = .ok st) {s : SegmentV2}
    (hs : s ∈ A.segments.getLast?) : Digested C A.media s.sections.reverse st := by
  obtain ⟨f, hf⟩ : ∃ f, files.getLast? = some f := by
    refine ⟨_, List.getLast?_eq_some_getLast fun hnil => h.segments_ne ?_⟩
    exact List.eq_nil_of_length_eq_zero (by rw [← h.length_eq, hnil]; rfl)
  obtain ⟨front, rfl⟩ := List.getLast?_eq_some_iff.mp hf
  rw [List.zipIdx_append, List.foldlM_append, List.zipIdx_singleton] at hst
  obtain ⟨st₁, -, hlast⟩ := except_bind_eq_ok_iff.mp hst
  obtain ⟨st₂, hopen, hend⟩ := Fold.foldlM_cons_eq_ok_iff.mp hlast
  obtain rfl := Except.ok.inj hend
  have hk : (front ++ [f])[front.length]? = some f := List.getElem?_concat_length ..
  obtain ⟨s', hs', hc, -⟩ := h.exists_segment hk
  have hindex : A.segments.length - 1 = front.length := by
    rw [← h.length_eq, List.length_append]
    rfl
  rw [Option.mem_def, List.getLast?_eq_getElem?, hindex, hs'] at hs
  obtain rfl := Option.some.inj hs
  have hfinal : s' ∈ A.segments.getLast? := by
    rw [Option.mem_def, List.getLast?_eq_getElem?, hindex, hs']
  exact digested_of_openSegmentV2 hc
    (fun t ht => ⟨((h.digests s' hfinal).2 t ht).1, ((h.digests s' hfinal).2 t ht).2.1⟩) hopen

/-- An acquisition is taken for a v2 image. -/
theorem AcquisitionV2.Conforms.isEwf2_eq (h : A.Conforms C files) :
    isEwf2 (files.map (·.data)) = true := by
  have hpos : 0 < files.length := by
    rw [h.length_eq]
    exact List.length_pos_of_ne_nil h.segments_ne
  obtain ⟨f, rest, rfl⟩ := List.exists_cons_of_length_pos hpos
  obtain ⟨s, -, hc, -⟩ := h.exists_segment (show (f :: rest)[0]? = some f from rfl)
  exact decide_eq_true hc.signature

end Acquisitions

/-! ### A sample -/

/-- Device information for chunks of three one-byte sectors and a media of five. -/
def sampleDeviceInfo : SectionText where
  version := ['2']
  name := "main".toList
  fields := [(['b'], ['1']), (['s', 'c'], ['3']), (['t', 's'], ['5'])]
  rest := [[]]
  fields_ne := by decide
  rest_ne := by decide
  plain := by decide
  lines_free := by decide

/-- The sections of `sampleSectionsV2` with device information. -/
def sampleDeviceSectionsV2 : List (ℕ × List UInt8) :=
  sampleSectionsV2 ++ [(1, utf16Text sampleDeviceInfo.text)]

def readableAcquisitionV2 : AcquisitionV2 where
  segments :=
    [⟨(placeSectionsV2 evf2FileHeaderSize 0 sampleDeviceSectionsV2).reverse,
        sampleChunksV2.take 1⟩,
      ⟨(placeSectionsV2 evf2FileHeaderSize 0 sampleLastSectionsV2).reverse,
        sampleChunksV2.drop 1⟩]

def readableFilesV2 : List Segment :=
  ⟨encodeSegmentV2 1 sampleDeviceSectionsV2, by decide +kernel⟩ :: sampleFilesV2.drop 1

theorem readableAcquisitionV2_conforms :
    readableAcquisitionV2.Conforms Crates.reference readableFilesV2 where
  segments_ne := List.cons_ne_nil _ _
  count_le := by decide
  length_eq := rfl
  file := by
    intro k s f hs hf
    rcases k with _ | k
    · obtain rfl := Option.some.inj hs
      obtain rfl := Option.some.inj hf
      refine @conforms_encodeSegmentV2 _ 1 0 _ _ (by decide +kernel) ?_ (by decide +kernel)
        (by decide +kernel) ?_
      · intro t ht htype
        simp only [sampleDeviceSectionsV2, sampleSectionsV2, List.cons_append, List.nil_append,
          List.mem_cons, List.not_mem_nil, or_false] at ht
        rcases ht with rfl | rfl | rfl | rfl
        · cases htype
        · exact ⟨by decide +kernel, _, Zlib.isStream_storedStream (by decide +kernel)⟩
        · cases htype
        · cases htype
      · intro c hc
        obtain rfl := List.mem_singleton.mp hc
        exact ⟨rfl, ⟨by decide +kernel, by decide +kernel⟩, by decide +kernel, by decide⟩
    · exact sampleAcquisitionV2_conforms.file (k + 1) s f hs hf
  mediaInfo := by
    intro s hs
    obtain rfl := Option.some.inj hs
    decide +kernel
  digests := by
    intro s hs
    exact sampleAcquisitionV2_conforms.digests s hs

theorem readableAcquisitionV2_reads :
    readableAcquisitionV2.ReadsAs Crates.reference ⟨1, 3, 5⟩ where
  segment := by
    intro s hs
    simp only [readableAcquisitionV2, List.mem_cons, List.not_mem_nil, or_false] at hs
    rcases hs with rfl | rfl
    · refine ⟨fun t ht htype => ?_, by decide⟩
      have hmem : (t.sectionType, t.content) ∈ sampleDeviceSectionsV2 := by
        rw [← map_placeSectionsV2 evf2FileHeaderSize 0 sampleDeviceSectionsV2]
        exact List.mem_map_of_mem (List.mem_reverse.mp ht)
      have hcontent : t.content = utf16Text sampleDeviceInfo.text := by
        rw [htype] at hmem
        simpa [sampleDeviceSectionsV2, sampleSectionsV2] using hmem
      rw [hcontent]
      refine ⟨by decide +kernel, .raw sampleDeviceInfo ?_ rfl (by decide +kernel)⟩
      exact ⟨by decide, by decide, by decide, by decide, by decide⟩
    · refine ⟨fun t ht htype => ?_, by decide⟩
      have hmem : (t.sectionType, t.content) ∈ sampleLastSectionsV2 := by
        rw [← map_placeSectionsV2 evf2FileHeaderSize 0 sampleLastSectionsV2]
        exact List.mem_map_of_mem (List.mem_reverse.mp ht)
      rw [htype] at hmem
      simp [sampleLastSectionsV2] at hmem
  deviceInfo := by
    refine ⟨_, List.mem_cons_self .., ?_⟩
    decide +kernel
  chunkBytes_pos := by decide
  media_eq := by decide +kernel
  room_le := by decide +kernel
  blocks := by decide +kernel

end EwfForensic.Image

import EwfForensic.Core.Backing
import EwfForensic.Image.Opening

/-!
# The Reader's Round Trip

A media byte string written as a well-formed image is read back by `open_from_sources` and
`read_at`, at every offset and length and from every state of the caches, exactly when

* no table holds more than `MAX_TABLE_ENTRIES` entries, and
* every raw chunk has a whole chunk's bytes between its start and the end of its segment file
  (`RawInFile`). Only the last chunk can fall short of that: the reader asks for a whole chunk
  whatever was stored.

The theorem is `roundTrips_iff`. `shortTailImage` is an image of one sector in a two-sector
chunk whose only read fails.
-/

namespace EwfForensic.Image

open Octets

/-! ### Pages -/

/-- The length of a segment's file. -/
def SegmentLayout.fileLength (s : SegmentLayout) : ℕ := s.terminalPos + 76

section Pages

variable {C : Crates} {L : Layout} {sources : List Segment} {r : EwfReader}

/-- The source of a segment. -/
theorem Layout.Formed.source (h : L.Formed C) (hfiles : sources.map (·.data) = L.files) {i : ℕ}
    {s : SegmentLayout} (hs : L.segments[i]? = some s) :
    ∃ src, sources[i]? = some src ∧ Written s (i + 1) (i + 1 = L.segments.length) src.data := by
  have hw := h.written hfiles
  obtain ⟨hi, rfl⟩ := List.getElem?_eq_some_iff.mp hs
  have hlen : sources.length = L.segments.length := by
    rw [← hw.length_eq, List.length_zipIdx]
  have hi' : i < L.segments.zipIdx.length := by rwa [List.length_zipIdx]
  have w := (List.forall₂_iff_get.mp hw).2 i hi' (hlen ▸ hi)
  simp only [List.get_eq_getElem, List.getElem_zipIdx, Nat.zero_add] at w
  exact ⟨sources[i], List.getElem?_eq_getElem _, w⟩

/-- The bytes of a raw chunk start with its data. -/
theorem Stored.bytes_of_raw {c : Stored} (hc : c.compressed = false) :
    ∃ rest, c.bytes = c.data ++ rest := by
  rw [Stored.compressed] at hc
  rw [Stored.bytes]
  cases he : c.encoding with
  | zlib z pad => simp [he] at hc
  | raw => exact ⟨[], (List.append_nil _).symm⟩
  | rawAdler => exact ⟨_, rfl⟩

/-- What a full or bounded read of a compressed chunk gives: its data, padded. -/
theorem Stored.Sound.decode {chunkSize : ℕ} {c : Stored} (h : c.Sound C chunkSize)
    (hc : c.compressed = true) : ∃ pad, c.data.length + pad ≤ chunkSize ∧
      Zlib.IsStream C.zlib c.bytes (c.data ++ List.replicate pad 0) ∧ 0 < c.bytes.length := by
  rw [Stored.compressed] at hc
  rw [Stored.bytes]
  cases he : c.encoding with
  | zlib z pad =>
      obtain ⟨h1, h2, h3⟩ := h z pad he
      exact ⟨pad, h2, h1, h3⟩
  | raw => simp [he] at hc
  | rawAdler => simp [he] at hc

/-- What stands at a place is at the front of a long enough read there. -/
theorem readAtMost_of_hasAt {data ys : List UInt8} {off n : ℕ} (h : HasAt data off ys)
    (hn : ys.length ≤ n) : ∃ rest, readAtMost data off n = ys ++ rest := by
  obtain ⟨rest, hrest⟩ := h.2
  refine ⟨rest.take (n - ys.length), ?_⟩
  rw [readAtMost, ← hrest, List.take_append, List.take_of_length_le hn]

/-- The page of a written chunk decodes a chunk of the reader that reads it back. -/
theorem Opened.page_eq (ho : Opened L sources r) {j : ℕ} {x : ℕ × ℕ × Stored}
    (hx : L.located[j]? = some x) :
    ∃ c, ChunkFor x.1 L.chunkSize x.2 c ∧ r.page C j = decodePage C sources L.chunkSize j c := by
  obtain ⟨chunks, hchunks, hf⟩ := ho.chunks_eq
  obtain ⟨hj, hxj⟩ := List.getElem?_eq_some_iff.mp hx
  have hjc : j < chunks.length := hf.length_eq ▸ hj
  have hcj := (List.forall₂_iff_get.mp hf).2 j hj hjc
  simp only [List.get_eq_getElem, hxj] at hcj
  refine ⟨chunks[j], hcj, ?_⟩
  rw [EwfReader.page, hchunks, ho.segments_eq, ho.chunkSize_eq]
  simp only [ChunkTable.find, List.getElem?_eq_getElem hjc]

/-- **The page of a written chunk** starts with the chunk's data, if a raw one has a whole
chunk's bytes in its file. -/
theorem page_of_located (h : L.WellFormed C) (hfiles : sources.map (·.data) = L.files)
    (ho : Opened L sources r) {j : ℕ} {x : ℕ × ℕ × Stored} (hx : L.located[j]? = some x)
    {s : SegmentLayout} (hs : L.segments[x.1]? = some s)
    (hraw : x.2.2.compressed = false → x.2.1 + L.chunkSize ≤ s.fileLength) :
    ∃ page rest, r.page C j = .ok page ∧ page = x.2.2.data ++ rest := by
  obtain ⟨c, hcj, hpage⟩ := ho.page_eq (C := C) hx
  obtain ⟨src, hsrc, w⟩ := h.source hfiles hs
  obtain ⟨s', hs', q, hq, hloc⟩ := Layout.mem_located.mp (List.mem_of_getElem? hx)
  obtain rfl := Option.some.inj (hs.symm.trans hs')
  have hat := (w.chunk_at hq hloc).1
  have hmem : x.2.2 ∈ L.chunks := by
    rw [← L.map_located]
    exact List.mem_map_of_mem (List.mem_of_getElem? hx)
  have hlen : x.2.2.data.length ≤ L.chunkSize :=
    (h.blocks.length_le h.chunkSize_pos _ (List.mem_map_of_mem hmem)).2
  rw [hpage, decodePage, hcj.segmentIdx_eq, hsrc]
  simp only [hcj.compressed_eq, hcj.offset_eq]
  cases hcomp : x.2.2.compressed with
  | true =>
      obtain ⟨pad, hpad, hstream, -⟩ := (h.sound _ hmem).decode hcomp
      obtain ⟨rest, hrest⟩ := readAtMost_of_hasAt hat (hcj.size_zlib hcomp)
      have hfull : (x.2.2.data ++ List.replicate pad 0).length ≤ L.chunkSize := by
        rw [List.length_append, List.length_replicate]
        exact hpad
      rw [if_pos rfl, hrest, hstream.readUpTo, List.take_of_length_le hfull]
      exact ⟨_, _, rfl, by rw [padPage, List.append_assoc]⟩
  | false =>
      obtain ⟨trailer, htrailer⟩ := Stored.bytes_of_raw hcomp
      have hroom := hraw hcomp
      have hfile := w.length_eq
      have hsize := hcj.size_raw hcomp
      obtain ⟨rest, hrest⟩ := readAtMost_of_hasAt (htrailer ▸ hat).left hlen
      have hfull : ¬ (readAtMost src.data x.2.1 L.chunkSize).length < L.chunkSize := by
        rw [readAtMost, List.length_take, List.length_drop]
        rw [SegmentLayout.fileLength] at hroom
        omega
      rw [if_neg (by decide), hsize, Nat.min_self, if_neg hfull, hrest]
      exact ⟨_, _, rfl, by rw [padPage, List.append_assoc]⟩

/-- The page of a raw chunk without a whole chunk's bytes in its file is an error. -/
theorem page_of_short (h : L.WellFormed C) (hfiles : sources.map (·.data) = L.files)
    (ho : Opened L sources r) {j : ℕ} {x : ℕ × ℕ × Stored} (hx : L.located[j]? = some x)
    {s : SegmentLayout} (hs : L.segments[x.1]? = some s) (hcomp : x.2.2.compressed = false)
    (hshort : s.fileLength < x.2.1 + L.chunkSize) : ∃ e, r.page C j = .error e := by
  obtain ⟨c, hcj, hpage⟩ := ho.page_eq (C := C) hx
  obtain ⟨src, hsrc, w⟩ := h.source hfiles hs
  have hfile := w.length_eq
  have hlt : (readAtMost src.data x.2.1 L.chunkSize).length < L.chunkSize := by
    have := h.chunkSize_pos
    rw [readAtMost, List.length_take, List.length_drop]
    rw [SegmentLayout.fileLength] at hshort
    omega
  rw [hpage, decodePage, hcj.segmentIdx_eq, hsrc]
  simp only [hcj.compressed_eq, hcj.offset_eq, hcomp, hcj.size_raw hcomp, Nat.min_self]
  rw [if_neg (by decide), if_pos hlt]
  exact ⟨_, rfl⟩

end Pages

/-! ### The round trip -/

/-- The sources open, the image is as long as the media, and `read_at` gives the media's bytes
for every offset and length, whatever was read before. -/
def RoundTrips (C : Crates) (sources : List Segment) (media : List UInt8) : Prop :=
  ∃ r, openFromSources C sources = .ok r ∧ r.totalSize = media.length ∧
    ∀ st, r.Reachable C st → ∀ off len, (r.readAt C st off len).1 = .ok ((media.drop off).take len)

/-- Every raw chunk has a whole chunk's bytes between its start and the end of its file. -/
def Layout.RawInFile (L : Layout) : Prop :=
  ∀ s ∈ L.segments, ∀ q ∈ s.pairs, ∀ c ∈ q.2.located q.1, c.2.compressed = false →
    c.1 + L.chunkSize ≤ s.fileLength

/-- A reader that reads the whole image has a whole chunk's bytes for every raw chunk. -/
theorem rawInFile_of_readAt {C : Crates} {L : Layout} (h : L.WellFormed C) {sources : List Segment}
    (hfiles : sources.map (·.data) = L.files) {r : EwfReader} (ho : Opened L sources r)
    {stream : List UInt8} (hread : (r.readAt C r.init 0 L.media.length).1 = .ok stream) :
    L.RawInFile := by
  have hpos := h.chunkSize_pos
  have hlen : L.located.length = (L.chunks.map Stored.data).length := by
    rw [List.length_map, ← L.map_located, List.length_map]
  intro s hs q hq c hc hcomp
  by_contra hshort
  -- The chunk that falls short is touched by the read.
  obtain ⟨i, hi, rfl⟩ := List.getElem_of_mem hs
  have hmem : (i, c) ∈ L.located :=
    Layout.mem_located.mpr ⟨_, List.getElem?_eq_getElem hi, q, hq, hc⟩
  obtain ⟨j, hj, hxj⟩ := List.getElem_of_mem hmem
  have hx : L.located[j]? = some (i, c) := hxj ▸ List.getElem?_eq_getElem hj
  obtain ⟨e, he⟩ := page_of_short h hfiles ho hx (List.getElem?_eq_getElem hi) hcomp
    (not_le.mp hshort)
  have hlt : j * L.chunkSize < L.media.length :=
    (h.blocks.mul_lt_length hpos j).mpr (hlen ▸ hj)
  rw [(EwfReader.Reachable.init).readAt_eq] at hread
  have hcs : 0 < r.chunkSize := by rwa [ho.chunkSize_eq]
  obtain ⟨page, hpage⟩ := r.page_of_touches hcs hread (i := j) (by
    refine ⟨j * L.chunkSize, Nat.zero_le _, ?_, ?_⟩
    · rw [EwfReader.available, ho.totalSize_eq]
      omega
    · rw [ho.chunkSize_eq]
      exact Nat.mul_div_cancel j hpos)
  rw [he] at hpage
  cases hpage

/-- An image whose tables and raw chunks fit is read back. -/
theorem roundTrips_of_fits {C : Crates} {L : Layout} (h : L.WellFormed C) {sources : List Segment}
    (hfiles : sources.map (·.data) = L.files) (hfit : L.TablesFit) (hraw : L.RawInFile) :
    RoundTrips C sources L.media := by
  have hpos := h.chunkSize_pos
  obtain ⟨r, hr, ho⟩ := open_files h hfit hfiles
  have hcs : 0 < r.chunkSize := by rwa [ho.chunkSize_eq]
  refine ⟨r, hr, ho.totalSize_eq, fun st hst off len => ?_⟩
  rw [hst.readAt_eq, r.read_eq_ok_iff hcs]
  have havail : r.available off len = min len (L.media.length - off) := by
    rw [EwfReader.available, ho.totalSize_eq]
  refine ⟨by rw [havail, List.length_take, List.length_drop], fun j hj => ?_⟩
  have hlt : off + j < L.media.length := by omega
  rw [ho.chunkSize_eq]
  -- The byte of the media is a byte of the chunk that backs it.
  have hbyte := h.blocks.getElem?_flatten hpos (off + j)
  change L.media[off + j]? = _ at hbyte
  rw [List.getElem?_eq_getElem hlt] at hbyte
  obtain ⟨data, hdata, hb⟩ := Option.bind_eq_some_iff.mp hbyte.symm
  rw [List.getElem?_map] at hdata
  obtain ⟨c, hc, rfl⟩ := Option.map_eq_some_iff.mp hdata
  rw [← L.map_located, List.getElem?_map] at hc
  obtain ⟨x, hx, rfl⟩ := Option.map_eq_some_iff.mp hc
  obtain ⟨s, hs, q, hq, hloc⟩ := Layout.mem_located.mp (List.mem_of_getElem? hx)
  obtain ⟨page, rest, hpage, rfl⟩ := page_of_located h hfiles ho hx hs
    (hraw s (List.mem_of_getElem? hs) q hq x.2 hloc)
  refine ⟨_, hpage, ?_⟩
  have hin : (off + j) % L.chunkSize < x.2.2.data.length := (List.getElem?_eq_some_iff.mp hb).1
  rw [List.getElem?_take_of_lt (by omega), List.getElem?_drop, List.getElem?_append_left hin, hb,
    List.getElem?_eq_getElem hlt]

/-- **Reader round trip.** A well-formed image is read back exactly when no table is too long
for the reader and every raw chunk has a whole chunk's bytes in its file. -/
theorem roundTrips_iff (C : Crates) (L : Layout) (h : L.WellFormed C) (sources : List Segment)
    (hfiles : sources.map (·.data) = L.files) :
    RoundTrips C sources L.media ↔ L.TablesFit ∧ L.RawInFile := by
  constructor
  · rintro ⟨r, hr, -, hread⟩
    have hfit := tablesFit_of_open h hfiles hr
    obtain ⟨r', hr', ho⟩ := open_files h hfit hfiles
    rw [hr] at hr'
    obtain rfl := Except.ok.inj hr'
    exact ⟨hfit, rawInFile_of_readAt h hfiles ho (hread r.init .init 0 L.media.length)⟩
  · rintro ⟨hfit, hraw⟩
    exact roundTrips_of_fits h hfiles hfit hraw

/-- An image of one segment with chunks of two 512-byte sectors and one pair. -/
def onePairLayout (sectorCount : ℕ) (chunks : List Stored) : Layout where
  preamble := []
  disk := false
  mediaType := 1
  sectorsPerChunk := 2
  bytesPerSector := 512
  sectorCount := sectorCount
  volumeRest := List.replicate 70 0
  items := [.pair ⟨true, .both, 0, true, [], chunks⟩]
  nextField := 0
  rest := []

/-- A full raw chunk with its checksum, and a compressed last chunk of one sector. -/
def mixedChunks : List Stored :=
  [⟨List.replicate 1024 7, .rawAdler⟩,
    ⟨List.replicate 512 9, .zlib (Zlib.storedStream (List.replicate 512 9)) 0⟩]

/-- A last chunk of one sector, stored raw. -/
def shortChunks : List Stored := [⟨List.replicate 512 7, .raw⟩]

/-- An image of one pair is well formed when its chunks are. -/
theorem onePairLayout_wellFormed {sectorCount : ℕ} {chunks : List Stored}
    (hsectors : 512 * sectorCount = ((onePairLayout sectorCount chunks).media).length)
    (hblocks : Blocks 1024 (chunks.map Stored.data)) (hcount : chunks.length < 4294967296)
    (hsound : ∀ c ∈ chunks, c.Sound Crates.reference 1024)
    (hbase : ∀ q ∈ (onePairLayout sectorCount chunks).first.pairs,
      ∀ c ∈ q.2.located q.1, c.1 - q.2.base < 2147483648)
    (hshort : ∀ c ∈ chunks, c.compressed = true → c.bytes.length < 1024) :
    (onePairLayout sectorCount chunks).WellFormed Crates.reference := by
  have hchunks : (onePairLayout sectorCount chunks).chunks = chunks := by
    simp [Layout.chunks, onePairLayout, Item.chunks]
  have hpairs : ∃ pos, (onePairLayout sectorCount chunks).first.pairs =
      [(pos, ⟨true, .both, 0, true, [], chunks⟩)] := by
    obtain ⟨pos, hp, -⟩ := (onePairLayout sectorCount chunks).pairs_first
    exact ⟨pos, hp⟩
  obtain ⟨pos, hpairs⟩ := hpairs
  have hseg : ∀ s ∈ (onePairLayout sectorCount chunks).segments,
      s = (onePairLayout sectorCount chunks).first := fun s hs => List.mem_singleton.mp hs
  have hcs : (onePairLayout sectorCount chunks).chunkSize = 1024 := by
    simp [Layout.chunkSize, onePairLayout]
  have hformed : (onePairLayout sectorCount chunks).Formed Crates.reference :=
    { preamble_aux := by simp [onePairLayout]
      items_aux := by simp [onePairLayout]
      rest_aux := by simp [onePairLayout]
      volumeRest_le := by simp [onePairLayout]
      chunkSize_pos := by
        rw [hcs]
        decide
      chunkSize_le := by
        rw [hcs]
        decide
      sectors_eq := hsectors
      blocks := by
        rw [hcs, hchunks]
        exact hblocks
      chunks_lt := by
        rw [hchunks]
        exact hcount
      sound := by
        rw [hcs, hchunks]
        exact hsound
      tables_eq := by
        intro s hs q hq q' hq'
        rw [hseg s hs, hpairs, List.mem_singleton] at hq hq'
        rw [hq, hq']
      base_le := by
        intro s hs q hq
        rw [hseg s hs] at hq
        have hb := hbase q hq
        rw [hpairs, List.mem_singleton] at hq
        subst hq
        exact ⟨Nat.zero_le _, fun c hc => ⟨Nat.zero_le _, hb c hc⟩⟩
      nextField_le := by
        intro s hs
        rw [hseg s hs]
        exact Nat.zero_le _
      segments_le := by simp [Layout.segments, onePairLayout] }
  refine ⟨hformed, ?_⟩
  rw [hcs, hchunks]
  exact hshort

/-- The image with both kinds of chunks, as a source. -/
def mixedImage : Segment :=
  ⟨(onePairLayout 3 mixedChunks).files.headD [], by decide +kernel⟩

/-- The image whose only chunk is short and raw, as a source. -/
def shortTailImage : Segment :=
  ⟨(onePairLayout 1 shortChunks).files.headD [], by decide +kernel⟩

theorem mixedChunks_wellFormed : (onePairLayout 3 mixedChunks).WellFormed Crates.reference := by
  refine onePairLayout_wellFormed (by decide +kernel) (by decide +kernel) (by decide) ?_
    (by decide +kernel) (by decide +kernel)
  intro c hc z pad he
  simp only [mixedChunks, List.mem_cons, List.not_mem_nil, or_false] at hc
  rcases hc with rfl | rfl
  · cases he
  · injection he with hz hp
    subst hz hp
    rw [List.replicate_zero, List.append_nil]
    refine ⟨Zlib.isStream_storedStream ?_, ?_, by decide +kernel⟩
    · rw [List.length_replicate]
      decide
    · rw [List.length_replicate]
      decide

theorem shortChunks_wellFormed : (onePairLayout 1 shortChunks).WellFormed Crates.reference := by
  refine onePairLayout_wellFormed (by decide +kernel) (by decide +kernel) (by decide) ?_
    (by decide +kernel) (by decide +kernel)
  intro c hc z pad he
  obtain rfl := List.mem_singleton.mp hc
  cases he

theorem roundTrips_iff_mixedImage :
    (onePairLayout 3 mixedChunks).WellFormed Crates.reference ∧
      [mixedImage].map (·.data) = (onePairLayout 3 mixedChunks).files ∧
        (RoundTrips Crates.reference [mixedImage] (onePairLayout 3 mixedChunks).media ↔
          (onePairLayout 3 mixedChunks).TablesFit ∧ (onePairLayout 3 mixedChunks).RawInFile) :=
  ⟨mixedChunks_wellFormed, rfl, roundTrips_iff Crates.reference (onePairLayout 3 mixedChunks)
    mixedChunks_wellFormed [mixedImage] rfl⟩

/-- The short raw chunk is well formed, and no byte of it can be read. -/
theorem shortTailImage_not_roundTrips :
    (onePairLayout 1 shortChunks).WellFormed Crates.reference ∧
      [shortTailImage].map (·.data) = (onePairLayout 1 shortChunks).files ∧
        ¬ RoundTrips Crates.reference [shortTailImage] (onePairLayout 1 shortChunks).media := by
  refine ⟨shortChunks_wellFormed, rfl, ?_⟩
  rintro ⟨r, hr, -, hread⟩
  have hnone : (openAndRead Crates.reference shortTailImage 1).isSome = false := by decide +kernel
  have h1 := hread r.init .init 0 1
  rw [openAndRead, hr] at hnone
  simp only [h1] at hnone
  cases hnone

end EwfForensic.Image

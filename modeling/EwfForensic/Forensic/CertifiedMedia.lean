import EwfForensic.Core.SourceOrder
import EwfForensic.Image.SameMedia

/-!
# What Is Certified and What Is Read

A clean verdict stands for the stream that the analysis hashes: that of the ranges of each
segment's first `table`, cut to the media of the first volume section. The reader serves another
stream: that of the chunks of all its table sections, each filled up to the chunk size of the last
volume section and cut to the media of that one.

* `servedByte`, `servedSize` — the media that the reader's sections stand for, position by
  position; `verifyStream_spec` says that `verify` hashes it.
* `hashedPieces` — what the analysis takes of the ranges; `analysisStream_eq_flatten` says that
  `compute_hashes` digests these, one behind the other.
* `OneMedia` — both come to the same; `certified_is_read` says that then, and only then, the two
  MD5s agree on a clean image. `doubleVolumeImage` is clean, and they do not.
* `SameChunks` — the tables list the same stored chunks for the same geometry; then there is one
  media (`SameChunks.oneMedia`).
-/

namespace EwfForensic

open Octets

/-! ### What the tables stand for -/

/-- The chunks of the table sections that the reader uses, in order. -/
def tableChunks (segments : List Segment) : List Chunk :=
  (tableUses segments).2.flatMap fun u => u.section'.chunks segments u.chunkSize

/-- The byte that these chunks have at a position of the media: the chunk at the position decodes
to it, or is filled up with a zero there. -/
def servedByte (C : Crates) (segments : List Segment) (pos : ℕ) : Option UInt8 :=
  let size := (tableUses segments).1
  (tableChunks segments)[pos / size]?.bind fun c => segments[c.segmentIdx]?.bind fun src =>
    (decodedBytes C src size c).bind fun bytes => (padPage size bytes)[pos % size]?

/-- The number of bytes that the last volume section and the reader's tables stand for. -/
def servedSize (sources : List Segment) : ℕ :=
  let m := declaredMedia false (inOrder sources)
  min (mediaSizeFor (firstKind sources) m.size m.chunkCount m.chunkSize)
    (m.chunkCount * m.chunkSize)

/-- What the analysis takes of each range of the first tables: as many bytes of it as the first
volume section leaves for the chunk, fewer if the range is short. -/
def hashedPieces (C : Crates) (segments : List (List UInt8)) (geom : VolumeGeometry) :
    List (List UInt8) :=
  (imageRanges segments).zipIdx.map fun p =>
    (decodeForHash C p.1.2.compressed (p.1.2.raw p.1.1)
      (min (geom.totalBytes - p.2 * geom.chunkSize) geom.chunkSize)).getD []

/-- Reader and analysis stand for one media: what the analysis takes of the ranges comes to as
many bytes as the reader's tables stand for, and each byte of it is the one that these have at
its place. -/
def OneMedia (C : Crates) (sources : List Segment) : Prop :=
  ∃ geom, (sources.map (·.data)).head?.bind volumeGeometry = some geom ∧
    let pieces := hashedPieces C (sources.map (·.data)) geom
    servedSize sources = (pieces.map List.length).sum ∧
      ∀ p ∈ Offsets.places (pieces.map List.length),
        servedByte C (inOrder sources) (Offsets.offset (pieces.map List.length) p) =
          (pieces[p.1]?).bind fun piece => piece[p.2]?

/-- A chunk of the reader's tables and a range of the first tables are the same stored chunk: they
begin at the same place in the same segment, and end alike if compressed; if raw, the chunk is not
shorter than its span. -/
def SameStored (segments : List Segment) (span : ℕ) (c : Chunk) (p : List UInt8 × ChunkRange) :
    Prop :=
  (∃ src, segments[c.segmentIdx]? = some src ∧ src.data = p.1) ∧ c.offset = p.2.start ∧
    c.compressed = p.2.compressed ∧
    if c.compressed then c.size = p.2.stop - p.2.start else span ≤ c.size

/-- The reader goes by the sections that the analysis goes by: the first tables cover the media of
the first volume section, the last one declares no other, and the tables list the same stored
chunks. -/
structure SameChunks (C : Crates) (sources : List Segment) (geom : VolumeGeometry) : Prop where
  geometry : (sources.map (·.data)).head?.bind volumeGeometry = some geom
  covered : Covered C (sources.map (·.data))
  chunkSize : (tableUses (inOrder sources)).1 = geom.sectorsPerChunk * geom.bytesPerSector
  size : servedSize sources = geom.sectorCount * geom.bytesPerSector
  chunk : ∀ j, j * (geom.sectorsPerChunk * geom.bytesPerSector) <
    geom.sectorCount * geom.bytesPerSector → ∃ c p,
      (tableChunks (inOrder sources))[j]? = some c ∧
      (imageRanges (sources.map (·.data)))[j]? = some p ∧
      SameStored (inOrder sources) (min (geom.sectorCount * geom.bytesPerSector -
        j * (geom.sectorsPerChunk * geom.bytesPerSector))
        (geom.sectorsPerChunk * geom.bytesPerSector)) c p

/-- The MD5 that `compute_hashes` gives is the one that `verify` gave. -/
def CertifiedIsRead (C : Crates) (sources : List Segment) (v : VerifyResult) : Prop :=
  ((EwfIntegrity.fromSegments sources).computeHashes C).map (·.md5) = some v.computedMd5

/-! ### The two streams -/

section Streams

variable {C : Crates} {sources : List Segment} {r : EwfReader} {threads : ℕ}
  {served : List UInt8} {geom : VolumeGeometry}

/-- What an opened reader goes by. -/
theorem openFromSources_tables (h : openFromSources C sources = .ok r) :
    r.segments = inOrder sources ∧ r.chunks = .eager (tableChunks (inOrder sources)) ∧
      0 < r.chunkSize ∧ r.chunkSize = (tableUses (inOrder sources)).1 ∧
      min r.totalSize (r.chunks.len * r.chunkSize) = servedSize sources := by
  obtain ⟨-, st, hst, hz, rfl⟩ := openFromSources_eq_ok_iff.mp h
  have hwalk := eagerWalk_of_foldlM hst
  have hdecl := declares_of_foldlM hst
  have hcount : st.chunks.length = (declaredMedia false (inOrder sources)).chunkCount :=
    hdecl.chunkCount
  refine ⟨rfl, congrArg _ hwalk.chunks_eq, Nat.pos_of_ne_zero hz, hwalk.chunkSize_eq, ?_⟩
  change min (mediaSizeFor _ st.totalSize st.chunks.length st.chunkSize)
    (st.chunks.length * st.chunkSize) = _
  rw [hcount, hdecl.chunkSize, hdecl.totalSize]
  rfl

/-- A byte of a page is the one that the tables have there. -/
theorem servedByte_of_page (h : openFromSources C sources = .ok r) {pos : ℕ} {page : List UInt8}
    (hpage : r.page C (pos / r.chunkSize) = .ok page) :
    servedByte C (inOrder sources) pos = page[pos % r.chunkSize]? := by
  obtain ⟨hsegments, hchunks, -, hsize, -⟩ := openFromSources_tables h
  obtain ⟨chunk, src, bytes, hfind, hsrc, hbytes, rfl, -⟩ := EwfReader.page_spec hpage
  have hget : (tableChunks (inOrder sources))[pos / r.chunkSize]? = some chunk := by
    rw [hchunks, ChunkTable.find] at hfind
    split at hfind
    · next c hc => rw [hc, Except.ok.inj hfind]
    · cases hfind
  rw [hsegments] at hsrc
  rw [servedByte, ← hsize]
  simp only [hget, Option.bind_some, hsrc, hbytes]

/-- **The stream of `verify`** is what the reader's tables stand for. -/
theorem verifyStream_spec (h : openFromSources C sources = .ok r)
    (hs : r.verifyStream C threads = .ok served) :
    served.length = servedSize sources ∧ ∀ pos < servedSize sources,
      served[pos]? = servedByte C (inOrder sources) pos := by
  obtain ⟨-, -, hpos, -, hserved⟩ := openFromSources_tables h
  obtain ⟨pages, hpages, rfl⟩ := r.verifyStream_eq_ok_iff.mp hs
  have hlen : pages.flatten.length = r.chunks.len * r.chunkSize := hpages.length_flatten
  refine ⟨by rw [List.length_take, hlen, hserved], fun pos hlt => ?_⟩
  have hdiv : pos / r.chunkSize < pages.length := by
    rw [hpages.length_eq]
    exact Nat.div_lt_of_lt_mul (by rw [Nat.mul_comm]; omega)
  have hget := List.getElem?_eq_getElem hdiv
  rw [List.getElem?_take_of_lt (by omega), (hpages.blocks hpos).getElem?_flatten hpos, hget,
    Option.bind_some, servedByte_of_page h (hpages.page_eq hget)]

/-- **The stream of the analysis** is what it takes of the ranges, one behind the other. -/
theorem analysisStream_eq_flatten {geom : VolumeGeometry}
    (hgeom : (sources.map (·.data)).head?.bind volumeGeometry = some geom) :
    analysisStream C (sources.map (·.data)) =
      some (hashedPieces C (sources.map (·.data)) geom).flatten := by
  have hlen : ∀ d ∈ sources.map (·.data), d.length < u64Max := by
    intro d hd
    obtain ⟨s, -, rfl⟩ := List.mem_map.mp hd
    exact s.length_lt_u64Max
  have hfed := @hashLoop_fed_eq C geom.chunkSize geom.totalBytes geom.totalBytes
    (imageRanges (sources.map (·.data))) 0 0
  rw [Nat.zero_mul, Nat.sub_zero] at hfed
  rw [analysisStream, analysisGeometry_eq, hgeom, Option.map_some, hashedStream, hashRun,
    allChunks_eq hlen, hfed, hashedPieces, List.flatMap_def]

/-- **Reader and analysis hash the same stream** exactly when they stand for one media. -/
theorem streams_eq_iff (h : openFromSources C sources = .ok r)
    (hs : r.verifyStream C threads = .ok served) :
    analysisStream C (sources.map (·.data)) = some served ↔ OneMedia C sources := by
  obtain ⟨hlen, hbytes⟩ := verifyStream_spec h hs
  have hiff : ∀ geom, served = (hashedPieces C (sources.map (·.data)) geom).flatten ↔
      servedSize sources = ((hashedPieces C (sources.map (·.data)) geom).map List.length).sum ∧
        ∀ p ∈ Offsets.places ((hashedPieces C (sources.map (·.data)) geom).map List.length),
          servedByte C (inOrder sources) (Offsets.offset
            ((hashedPieces C (sources.map (·.data)) geom).map List.length) p) =
              ((hashedPieces C (sources.map (·.data)) geom)[p.1]?).bind fun piece =>
                piece[p.2]? := by
    intro geom
    rw [Offsets.eq_flatten_iff, hlen]
    refine and_congr_right fun hsum => forall₂_congr fun p hp => ?_
    rw [hbytes _ (hsum ▸ Offsets.offset_lt_sum hp)]
  constructor
  · intro hstream
    obtain ⟨geom, hgeom, -⟩ := Option.map_eq_some_iff.mp hstream
    rw [analysisGeometry_eq] at hgeom
    rw [analysisStream_eq_flatten hgeom] at hstream
    exact ⟨geom, hgeom, (hiff geom).mp (Option.some.inj hstream).symm⟩
  · rintro ⟨geom, hgeom, hsame⟩
    rw [analysisStream_eq_flatten hgeom, (hiff geom).mpr hsame]

/-! ### The same chunks -/

/-- A range that holds a span decodes to that many bytes. -/
theorem decodeForHash_of_holds {data : List UInt8} {c : ChunkRange} {span : ℕ}
    (hspan : span < u64Max) (h : c.Holds C data span) :
    ∃ bytes, decodeForHash C c.compressed (c.raw data) span = some bytes ∧
      bytes.length = span := by
  rw [ChunkRange.Holds] at h
  rw [decodeForHash, satAdd_eq (show span + 1 ≤ u64Max by omega)]
  split_ifs at h ⊢ with hc
  · obtain ⟨out, hout, hle⟩ := h
    exact ⟨_, by rw [hout, Option.map_some], by rw [List.length_take, Nat.min_eq_left hle]⟩
  · exact ⟨_, rfl, by rw [List.length_take, Nat.min_eq_left h]⟩

/-- **The same stored chunk** decodes to the same bytes on its span, for reader and analysis. -/
theorem SameStored.decoded_eq (hz : C.zlib.Sequential) {segments : List Segment} {size span : ℕ}
    {c : Chunk} {p : List UInt8 × ChunkRange} {src : Segment} {read hashed : List UInt8}
    (h : SameStored segments span c p) (hsrc : segments[c.segmentIdx]? = some src)
    (hle : span ≤ size) (hmax : span < u64Max) (hread : decodedBytes C src size c = some read)
    (hhashed : decodeForHash C p.2.compressed (p.2.raw p.1) span = some hashed)
    (hlen : hashed.length = span) : read.take span = hashed := by
  obtain ⟨⟨src', hsrc', hdata⟩, hoff, hcomp, hend⟩ := h
  obtain rfl : src' = src := Option.some.inj (hsrc'.symm.trans hsrc)
  rw [decodeForHash, satAdd_eq (show span + 1 ≤ u64Max by omega), ← hcomp] at hhashed
  rw [decodedBytes] at hread
  split_ifs at hread hhashed hend with hc
  · have hraw : readAtMost src'.data c.offset c.size = p.2.raw p.1 := by
      rw [readAtMost, ChunkRange.raw, hdata, hoff, hend]
    rw [hraw] at hread
    obtain ⟨out, hout, rfl⟩ := Option.map_eq_some_iff.mp hhashed
    by_cases hlt : span < size
    · have hfront := hz (span + 1) size _ _ hlt hread
      rw [hout] at hfront
      rw [Option.some.inj hfront, List.take_take, Nat.min_eq_left (Nat.le_succ _)]
    · obtain rfl : span = size := Nat.le_antisymm hle (not_lt.mp hlt)
      have hfront := hz span (span + 1) _ _ (Nat.le_succ _) hout
      rw [hread] at hfront
      rw [Option.some.inj hfront, List.take_take, Nat.min_self]
  · obtain rfl := Option.some.inj hread
    obtain rfl := Option.some.inj hhashed
    rw [ChunkRange.raw, List.take_take, List.length_take] at hlen
    rw [readAtMost, ChunkRange.raw, hdata, hoff, List.take_take, List.take_take]
    congr 1
    omega

/-- What the analysis takes of the ranges of a covered image: of each one its whole span. -/
theorem hashedPieces_of_covered {segments : List (List UInt8)} (hcov : Covered C segments)
    (hgeom : segments.head?.bind volumeGeometry = some geom) :
    geom.chunkSize = geom.sectorsPerChunk * geom.bytesPerSector ∧ geom.chunkSize < u64Max ∧
      geom.totalBytes = geom.sectorCount * geom.bytesPerSector ∧
      geom.totalBytes ≤ (hashedPieces C segments geom).length * geom.chunkSize ∧
      ∀ j piece, (hashedPieces C segments geom)[j]? = some piece →
        piece.length = min (geom.totalBytes - j * geom.chunkSize) geom.chunkSize ∧
        (j * geom.chunkSize < geom.totalBytes → ∃ p, (imageRanges segments)[j]? = some p ∧
          decodeForHash C p.2.compressed (p.2.raw p.1)
            (min (geom.totalBytes - j * geom.chunkSize) geom.chunkSize) = some piece) := by
  obtain ⟨geom', hgeom', hmax, hheld⟩ := hcov
  obtain rfl : geom' = geom := Option.some.inj (hgeom'.symm.trans hgeom)
  obtain ⟨first, -, hvol⟩ := Option.bind_eq_some_iff.mp hgeom
  obtain ⟨-, hspc, hbps, -⟩ := volumeGeometry_bounds hvol
  obtain ⟨hchunk, hltmax⟩ := chunkSize_eq hspc hbps
  have htotal : geom'.totalBytes = geom'.sectorCount * geom'.bytesPerSector := satMul_eq hmax
  rw [← hchunk, ← htotal] at hheld
  have hcount : (hashedPieces C segments geom').length = (imageRanges segments).length := by
    rw [hashedPieces, List.length_map, List.length_zipIdx]
  refine ⟨hchunk, hltmax, htotal, ?_, fun j piece hpiece => ?_⟩
  · rw [hcount]
    by_contra hlt
    obtain ⟨p, hp, -⟩ := hheld _ (not_le.mp hlt)
    rw [List.getElem?_eq_none le_rfl] at hp
    cases hp
  · obtain ⟨p, hp⟩ : ∃ p, (imageRanges segments)[j]? = some p := by
      have hlt := (List.getElem?_eq_some_iff.mp hpiece).1
      rw [hcount] at hlt
      exact ⟨_, List.getElem?_eq_getElem hlt⟩
    rw [hashedPieces, List.getElem?_map, List.getElem?_zipIdx, hp] at hpiece
    simp only [Nat.zero_add, Option.map_some, Option.some.injEq] at hpiece
    by_cases hj : j * geom'.chunkSize < geom'.totalBytes
    · obtain ⟨p', hp', hh⟩ := hheld j hj
      obtain rfl : p' = p := Option.some.inj (hp'.symm.trans hp)
      obtain ⟨bytes, hbytes, hl⟩ := decodeForHash_of_holds
        (lt_of_le_of_lt (Nat.min_le_right _ _) hltmax) hh
      rw [hbytes, Option.getD_some] at hpiece
      exact ⟨hpiece ▸ hl, fun _ => ⟨p', hp, hpiece ▸ hbytes⟩⟩
    · rw [Nat.sub_eq_zero_of_le (not_lt.mp hj), Nat.zero_min, decodeForHash_zero] at hpiece
      refine ⟨?_, fun h => absurd h hj⟩
      rw [Nat.sub_eq_zero_of_le (not_lt.mp hj), Nat.zero_min, ← hpiece, List.length_nil]

/-- **The same chunks are one media**, on an image that the reader opens and verifies. -/
theorem SameChunks.oneMedia (hz : C.zlib.Sequential) (hopen : openFromSources C sources = .ok r)
    (hs : r.verifyStream C threads = .ok served) (h : SameChunks C sources geom) :
    OneMedia C sources := by
  obtain ⟨hlen, hbytes⟩ := verifyStream_spec hopen hs
  obtain ⟨-, -, hpos, hsize, -⟩ := openFromSources_tables hopen
  obtain ⟨hchunk, hltmax, htotal, hroom, hpieces⟩ := hashedPieces_of_covered h.covered h.geometry
  have hused := h.chunkSize
  have hserved := h.size
  have hsame := h.chunk
  rw [← hchunk] at hused hsame
  rw [← htotal] at hserved hsame
  rw [hsize, hused] at hpos
  have hspans : ∀ i c, ((hashedPieces C (sources.map (·.data)) geom).map List.length)[i]? =
      some c → c = min (geom.totalBytes - i * geom.chunkSize) geom.chunkSize := by
    intro i c hc
    rw [List.getElem?_map] at hc
    obtain ⟨piece, hpiece, rfl⟩ := Option.map_eq_some_iff.mp hc
    exact (hpieces i piece hpiece).1
  refine ⟨geom, h.geometry, ?_, ?_⟩
  · rw [← Offsets.start_length, Offsets.start_of_spans hspans le_rfl, List.length_map, hserved,
      Nat.min_eq_right hroom]
  · rintro ⟨j, k⟩ ⟨c, hc, hk⟩
    simp only at hc hk ⊢
    have hjlt := (List.getElem?_eq_some_iff.mp hc).1
    have hcspan := hspans j c hc
    rw [List.getElem?_map] at hc
    obtain ⟨piece, hpiece, rfl⟩ := Option.map_eq_some_iff.mp hc
    have hj : j * geom.chunkSize < geom.totalBytes := by omega
    obtain ⟨chunk, p, hget, hp, hstored⟩ := hsame j hj
    obtain ⟨p', hp', hhashed⟩ := (hpieces j piece hpiece).2 hj
    obtain rfl : p' = p := Option.some.inj (hp'.symm.trans hp)
    have hplace : Offsets.offset ((hashedPieces C (sources.map (·.data)) geom).map List.length)
        (j, k) = j * geom.chunkSize + k := by
      rw [Offsets.offset_mk, Offsets.start_of_spans hspans hjlt.le, Nat.min_eq_left hj.le]
    have hkc : k < geom.chunkSize := by omega
    have hdiv : (j * geom.chunkSize + k) / geom.chunkSize = j := by
      rw [Nat.mul_comm, Nat.mul_add_div hpos, Nat.div_eq_of_lt hkc, Nat.add_zero]
    have hmod : (j * geom.chunkSize + k) % geom.chunkSize = k := by
      rw [Nat.mul_comm, Nat.mul_add_mod, Nat.mod_eq_of_lt hkc]
    have hbyte := hbytes (j * geom.chunkSize + k) (by omega)
    rw [List.getElem?_eq_getElem (by omega)] at hbyte
    rw [hplace, hpiece, Option.bind_some]
    rw [servedByte] at hbyte ⊢
    simp only [hused, hdiv, hmod, hget, Option.bind_some] at hbyte ⊢
    obtain ⟨src, hsrc, hbyte⟩ := Option.bind_eq_some_iff.mp hbyte.symm
    obtain ⟨read, hread, -⟩ := Option.bind_eq_some_iff.mp hbyte
    have hfront := hstored.decoded_eq hz hsrc (Nat.min_le_right _ _)
      (lt_of_le_of_lt (Nat.min_le_right _ _) hltmax) hread hhashed hcspan
    rw [hsrc, Option.bind_some, hread, Option.bind_some, ← hfront,
      List.getElem?_take_of_lt (by omega), padPage]
    rw [← hfront, List.length_take] at hcspan
    rw [List.getElem?_append_left (by omega)]

/-! ### The two digests -/

/-- A clean image that is opened takes the v1 path, and `compute_hashes` digests the stream of
its analysis. -/
theorem computeHashes_of_open (hopen : openFromSources C sources = .ok r)
    (hclean : (EwfIntegrity.fromSegments sources).analyse C = []) :
    (EwfIntegrity.fromSegments sources).computeHashes C =
      (analysisStream C (sources.map (·.data))).map C.hashes := by
  obtain ⟨⟨hne, -, hsig⟩, -⟩ := openFromSources_eq_ok_iff.mp hopen
  obtain ⟨first, rest, rfl⟩ := List.exists_cons_of_ne_nil hne
  have hfirst := hsig first (List.mem_cons_self ..)
  rw [take_readPadded first.data 0 (show 8 ≤ fileHeaderSize by decide)] at hfirst
  have hpadded : 8 ≤ first.data.length → readPadded first.data 0 8 = first.data.take 8 := by
    intro hlen
    rw [readPadded, readAtMost, List.drop_zero, List.length_take, Nat.min_eq_left hlen,
      Nat.sub_self, List.replicate_zero, List.append_nil]
  have hv1 : isEwf2 (EwfIntegrity.fromSegments (first :: rest)).bytes = false := by
    by_cases hlen : 8 ≤ first.data.length
    · rw [hpadded hlen] at hfirst
      exact isEwf2_of_signature (hfirst.imp_right Or.inr)
    · simp [isEwf2, EwfIntegrity.bytes, EwfIntegrity.fromSegments, hlen]
  -- A first segment without a whole file header is reported.
  have hlen : fileHeaderSize ≤ first.data.length := by
    rw [analyse_v1 hv1] at hclean
    have hscan := scanSegment_head_issues hclean
    by_contra hshort
    rw [scanSegment, if_pos (not_le.mp hshort)] at hscan
    cases hscan
  rw [hpadded (le_trans (by decide) hlen)] at hfirst
  exact (Image.v1_of_signature hlen (by simpa using hfirst.imp_right Or.inr)).2

end Streams

/-- An image of one 1024-byte chunk with its MD5, and behind it a `disk` section that declares
half of the chunk. -/
def doubleVolumeImage : Segment :=
  ⟨Image.encodeSegment 1
    [⟨.volume, Image.volumeFront 1 1 2 512 2 ++ List.replicate 70 0⟩,
      ⟨.table, Image.tableBytes 0 true [363] []⟩, ⟨.sectors, List.replicate 1024 7⟩,
      ⟨.hash, (Digest.md5 (List.replicate 1024 7)).1⟩,
      ⟨.disk, Image.volumeFront 1 1 2 512 1 ++ List.replicate 70 0⟩] .done 0, by decide +kernel⟩

end EwfForensic

import EwfForensic.Forensic.TwoRuns
import EwfForensic.Forensic.CoverageV2

/-!
# Tamper Evidence

Edits of sector data in an image that the analysis reports clean.

* `SectorEdit` — a v1 edit: the changed bytes lie in the hashed spans of uncompressed chunks
  and outside the structure of their segment.
* `SingleByteEdit` — a v2 edit: one byte of a visited chunk or of its trailer changes, outside
  the file header, the descriptors and the chunk tables.
* `tamper_evident` — the v1 edit is reported as a `HashMismatch` if MD5 separates the two
  hashed streams, the v2 edit as a `ChunkChecksumMismatch` whatever MD5 does.
-/

namespace EwfForensic

open Octets

/-! ### The v1 edit -/

/-- Byte `i` of segment `k` lies in the hashed span of an uncompressed chunk: the front of its
range, as long as the chunk's share of the media. -/
def InHashedSpan (geom : VolumeGeometry) (segments : List (List UInt8)) (k i : ℕ) : Prop :=
  ∃ g c, (indexedRanges segments)[g]? = some (k, c) ∧ c.compressed = false ∧
    c.start ≤ i ∧ i < c.stop ∧
    i < c.start + min (geom.totalBytes - g * geom.chunkSize) geom.chunkSize

/-- An edit of sector data: some bytes change, each of them in the hashed span of an
uncompressed chunk and outside the structure of its segment. -/
structure SectorEdit (geom : VolumeGeometry) (segments segments' : List (List UInt8)) : Prop where
  count : segments'.length = segments.length
  changed : segments' ≠ segments
  length : ∀ (k : ℕ) data data', segments[k]? = some data → segments'[k]? = some data' →
    data'.length = data.length
  within : ∀ (k : ℕ) data data', segments[k]? = some data → segments'[k]? = some data' →
    ∀ i : ℕ, data'[i]? ≠ data[i]? → InHashedSpan geom segments k i ∧ ¬ Protected data i

section EditV1

variable {C : Crates} {geom : VolumeGeometry} {segments segments' : List (List UInt8)}

/-- The edited copy of a segment keeps its structure. -/
theorem SectorEdit.agreeOn (h : SectorEdit geom segments segments') {k : ℕ}
    {data data' : List UInt8} (hd : segments[k]? = some data) (hd' : segments'[k]? = some data') :
    AgreeOn (Protected data) data data' := by
  refine ⟨(h.length k data data' hd hd').symm, fun i hi => ?_⟩
  by_contra hne
  exact (h.within k data data' hd hd' i (Ne.symm hne)).2 hi

/-- What depends on the structure alone is the same in every segment of the copy. -/
theorem SectorEdit.map_congr (h : SectorEdit geom segments segments') {β : Type}
    {f : List UInt8 → β}
    (hf : ∀ data ∈ segments, ∀ data', AgreeOn (Protected data) data data' → f data' = f data) :
    segments'.map f = segments.map f := by
  refine map_eq_map_of_getElem? h.count fun k data data' hd hd' => ?_
  exact hf data (List.mem_of_getElem? hd) data' (h.agreeOn hd hd')

theorem SectorEdit.indexedRanges_eq (h : SectorEdit geom segments segments')
    (hlen : ∀ d ∈ segments, d.length < u64Max) :
    indexedRanges segments' = indexedRanges segments := by
  unfold indexedRanges
  rw [h.map_congr fun data hd data' ha => leadingRanges_congr (hlen data hd) ha]

theorem SectorEdit.geometry_eq (h : SectorEdit geom segments segments')
    (hlen : ∀ d ∈ segments, d.length < u64Max) :
    segments'.head?.bind volumeGeometry = segments.head?.bind volumeGeometry := by
  rw [head?_bind_volumeGeometry, head?_bind_volumeGeometry,
    h.map_congr fun data hd data' ha => volumeGeometry_congr (hlen data hd) ha]

/-- The bytes of a compressed chunk are not edited. -/
theorem SectorEdit.raw_eq_of_compressed (h : SectorEdit geom segments segments') {k : ℕ}
    {data data' : List UInt8} (hd : segments[k]? = some data) (hd' : segments'[k]? = some data')
    {c : ChunkRange} (hc : c ∈ leadingRanges data) (hcomp : c.compressed = true) :
    c.raw data' = c.raw data := by
  have hagree : AgreeOn (fun i => c.start ≤ i ∧ i < c.stop) data data' := by
    refine ⟨(h.length k data data' hd hd').symm, fun i hi => ?_⟩
    by_contra hne
    obtain ⟨⟨g, c', hg, hraw, h1, h2, -⟩, -⟩ := h.within k data data' hd hd' i (Ne.symm hne)
    obtain ⟨data'', hd'', hc'⟩ := mem_indexedRanges_iff.mp (List.mem_of_getElem? hg)
    obtain rfl := Option.some.inj (hd.symm.trans hd'')
    rw [eq_of_mem_leadingRanges hc hc' hi ⟨h1, h2⟩, hraw] at hcomp
    cases hcomp
  exact (hagree.window_eq fun i h1 h2 => ⟨h1, by omega⟩).symm

/-- A chunk gives as many bytes to the media of the copy as to that of the original. -/
theorem SectorEdit.length_mediaPiece (h : SectorEdit geom segments segments')
    {p : (ℕ × ChunkRange) × ℕ} (hp : p.1 ∈ indexedRanges segments) :
    (mediaPiece C segments' geom p).length = (mediaPiece C segments geom p).length := by
  obtain ⟨data, hd, hc⟩ := mem_indexedRanges_iff.mp hp
  obtain ⟨data', hd'⟩ := exists_getElem?_of_length_eq h.count hd
  have hg : segments.getD p.1.1 [] = data := by simp [List.getD, hd]
  have hg' : segments'.getD p.1.1 [] = data' := by simp [List.getD, hd']
  unfold mediaPiece
  rw [hg, hg']
  cases hcomp : p.1.2.compressed with
  | true => rw [h.raw_eq_of_compressed hd hd' hc hcomp]
  | false =>
      simp only [decodeForHash, Bool.false_eq_true, if_false, Option.getD_some, ChunkRange.raw,
        List.length_take, List.length_drop, h.length _ data data' hd hd']

/-- **The edit changes the media.** -/
theorem SectorEdit.decodedMedia_ne (h : SectorEdit geom segments segments')
    (hlen : ∀ d ∈ segments, d.length < u64Max)
    (hgeom : segments.head?.bind volumeGeometry = some geom) :
    decodedMedia C segments' ≠ decodedMedia C segments := by
  intro heq
  rw [decodedMedia_eq hgeom, decodedMedia_eq (h.geometry_eq hlen ▸ hgeom),
    h.indexedRanges_eq hlen, List.flatMap_def, List.flatMap_def] at heq
  -- The chunks give pieces of the same lengths, so equal media have equal pieces.
  have hpieces : (indexedRanges segments).zipIdx.map (mediaPiece C segments' geom) =
      (indexedRanges segments).zipIdx.map (mediaPiece C segments geom) := by
    refine List.eq_iff_flatten_eq.mpr ⟨heq, ?_⟩
    rw [List.map_map, List.map_map]
    refine List.map_congr_left fun p hp => h.length_mediaPiece ?_
    exact List.mem_of_getElem? (List.mem_zipIdx_iff_getElem?.mp hp)
  -- A changed byte lies in the piece of its chunk.
  obtain ⟨k, hk⟩ : ∃ k : ℕ, segments'[k]? ≠ segments[k]? := by
    by_contra hall
    exact h.changed (List.ext_getElem? fun k => not_not.mp (not_exists.mp hall k))
  cases hd : segments[k]? with
  | none =>
      refine hk ?_
      rw [hd, List.getElem?_eq_none_iff, h.count, ← List.getElem?_eq_none_iff, hd]
  | some data =>
      obtain ⟨data', hd'⟩ := exists_getElem?_of_length_eq h.count hd
      obtain ⟨i, hi⟩ : ∃ i : ℕ, data'[i]? ≠ data[i]? := by
        by_contra hall
        have hsame := List.ext_getElem? fun i => not_not.mp (not_exists.mp hall i)
        exact hk (by rw [hd, hd', hsame])
      obtain ⟨⟨g, c, hg, hraw, h1, h2, h3⟩, -⟩ := h.within k data data' hd hd' i hi
      have hmem : ((k, c), g) ∈ (indexedRanges segments).zipIdx :=
        List.mem_zipIdx_iff_getElem?.mpr hg
      have hpiece := List.map_inj_left.mp hpieces _ hmem
      simp only [mediaPiece, decodeForHash, hraw, Bool.false_eq_true, if_false, Option.getD_some,
        List.getD, hd, hd', ChunkRange.raw] at hpiece
      have hget := congrArg (fun l => l[i - c.start]?) hpiece
      simp only [List.getElem?_take_of_lt (show i - c.start <
          min (geom.totalBytes - g * geom.chunkSize) geom.chunkSize by omega),
        List.getElem?_take_of_lt (show i - c.start < c.stop - c.start by omega),
        List.getElem?_drop, show c.start + (i - c.start) = i by omega] at hget
      exact hi hget

/-- The v1 analysis of the edited copy reports a hash mismatch. -/
theorem SectorEdit.hashMismatch_mem {expected : ExpectedHashes}
    (h : SectorEdit geom segments segments')
    (hlen : ∀ d ∈ segments, d.length < u64Max) (hlen' : ∀ d ∈ segments', d.length < u64Max)
    (hclean : analyseAllEwf1 C segments expected = [])
    (hgeom : analysisGeometry segments = some geom) {last : List UInt8} {s : Section}
    {stored : Digest.Bytes 16} (hlast : segments.getLast? = some last)
    (hs : findSection (walkSectionsV1 last) .hash = some s)
    (hstored : Digest.bytesAt? 16 last (s.offset + 76) = some stored)
    (hmd5 : ∀ a b, analysisStream C segments = some a → analysisStream C segments' = some b →
      a ≠ b → C.md5 a ≠ C.md5 b) :
    ∃ computed, .hashMismatch computed stored ∈ analyseAllEwf1 C segments' expected := by
  have hgeom' : analysisGeometry segments' = some geom := by
    rw [analysisGeometry_eq] at hgeom ⊢
    rw [h.geometry_eq hlen, hgeom]
  have hmem := List.mem_of_getLast? hlast
  have hmemS := mem_of_findSection hs
  have hstype : s.typeName = .hash := by simpa using List.find?_some hs
  have hoff := offset_le_of_mem_walkSectionsV1 (hlen last hmem) hmemS
  have hmax := hlen last hmem
  have haddr : satAdd s.offset sectionDescriptorSize = s.offset + 76 :=
    @satAdd_eq s.offset 76 (by omega)
  -- The two streams and their digests differ.
  obtain ⟨a, ha⟩ : ∃ a, analysisStream C segments = some a := by
    rw [analysisStream, hgeom]
    exact ⟨_, rfl⟩
  obtain ⟨b, hb⟩ : ∃ b, analysisStream C segments' = some b := by
    rw [analysisStream, hgeom']
    exact ⟨_, rfl⟩
  have hne : C.md5 a ≠ C.md5 b := by
    refine hmd5 a b ha hb ?_
    rw [analysisStream_eq hlen ha, analysisStream_eq hlen' hb]
    exact (h.decodedMedia_ne hlen (analysisGeometry_eq segments ▸ hgeom)).symm
  -- The original digest is the stored one, and the copy stores the same.
  have hclean5 := (clean_stored_v1 hclean ha hlast).1
  simp only [storedMd5Issues, hs, mismatch_eq_nil_iff, haddr] at hclean5
  have hstream := hclean5 stored hstored
  obtain ⟨last', hlast', hagree⟩ : ∃ last', segments'.getLast? = some last' ∧
      AgreeOn (Protected last) last last' := by
    rw [List.getLast?_eq_getElem?] at hlast
    obtain ⟨last', hl'⟩ := exists_getElem?_of_length_eq h.count hlast
    exact ⟨last', by rw [List.getLast?_eq_getElem?, h.count]; exact hl', h.agreeOn hlast hl'⟩
  have hissue : .hashMismatch (C.md5 b) stored ∈
      storedMd5Issues (C.md5 b) (walkSectionsV1 last') last' := by
    rw [storedMd5Issues, walkSectionsV1_congr hmax hagree, hs]
    simp only [haddr, bytesAt?_hash_congr hagree hmemS hstype, hstored]
    exact mem_mismatch_iff.mpr ⟨stored, rfl, fun he => hne (hstream.trans he.symm), rfl⟩
  have hb' : hashedStream C segments' (segments'.map walkSectionsV1) geom = b := by
    rw [analysisStream, hgeom', Option.map_some] at hb
    exact Option.some.inj hb
  refine ⟨C.md5 b, ?_⟩
  rw [analyseAllEwf1_eq, hashCheckIssues, hgeom']
  simp only [checkHashAllSegments, List.getLast?_map, hlast', Option.map_some, hb']
  exact List.mem_append_right _ (List.mem_append_right _
    (List.mem_append_left _ (List.mem_append_left _ hissue)))

end EditV1

/-! ### The v2 edit -/

/-- An edit of one byte `x` of a chunk that the verification of segment `k` visits, or of its
trailer, which lies in the segment. The byte is outside the file header, the visited
descriptors and the chunk tables. -/
def SingleByteEdit (C : Crates) (segments segments' : List (List UInt8)) : Prop :=
  ∃ (k : ℕ) (data data' : List UInt8) (x : ℕ), segments[k]? = some data ∧
    segments' = segments.set k data' ∧ AgreeOn (· ≠ x) data data' ∧ data[x]? ≠ data'[x]? ∧
    evf2FileHeaderSize ≤ x ∧
    (∀ s ∈ backwardWalk data, ¬ (s.descOffset ≤ x ∧ x < s.descOffset + 64) ∧
      (s.sectionType = evf2TypeChunkTable → ¬ (s.bodyStart ≤ x ∧ x < s.descOffset))) ∧
    ∃ (range : ℕ × ℕ) (tbl : List UInt8) (i : ℕ) (e : Ewf2Entry),
      chunkTableBody (backwardWalk data) = some range ∧
      slice? data range.1 range.2 = some tbl ∧ 48 ≤ tbl.length ∧
      i < (verifyRun C data tbl).length ∧ ewf2EntryAt tbl i = some e ∧ 4 ≤ e.dataSize ∧
      e.fileOffset ≤ x ∧ x < e.fileOffset + e.dataSize ∧
      e.fileOffset + e.dataSize ≤ data.length

section EditV2

variable {C : Crates} {data data' tbl : List UInt8} {x : ℕ}

/-- The walk of a copy that keeps the visited descriptors visits the same sections. -/
theorem backwardWalk_congr (h : AgreeOn (· ≠ x) data data')
    (hout : ∀ s ∈ backwardWalk data, ¬ (s.descOffset ≤ x ∧ x < s.descOffset + 64)) :
    backwardWalk data' = backwardWalk data := by
  have hlen := h.1
  have hstep : ∀ pos, ¬ (pos ≤ x ∧ x < pos + 64) →
      backwardStep data' pos = backwardStep data pos := by
    intro pos hpos
    have hwin : (data'.drop pos).take evf2SectionDescriptorSize =
        (data.drop pos).take evf2SectionDescriptorSize :=
      (h.window_eq fun i h1 h2 => by
        rintro rfl
        exact hpos ⟨h1, h2⟩).symm
    unfold backwardStep
    rw [hwin, hlen]
  rw [backwardWalk]
  rw [← hlen]
  refine Loop.visits_congr_of_mem (fun pos p hp hmem => ?_) fun pos hp => ?_
  · have hpos : p.1.descOffset = pos := by
      rw [backwardStep] at hp
      split_ifs at hp
      obtain rfl := Option.some.inj hp
      rfl
    rw [hstep pos (hpos ▸ hout p.1 hmem), hp]
  · rw [backwardStep] at hp ⊢
    split_ifs at hp with hbad
    rw [if_pos (hlen ▸ hbad)]

/-- Whether a chunk can be read depends on the length of the segment only. -/
theorem chunkOnDisk_isSome_congr (h : AgreeOn (· ≠ x) data data') (i : ℕ) :
    (chunkOnDisk data' tbl i).isSome = (chunkOnDisk data tbl i).isSome := by
  unfold chunkOnDisk Ewf2Entry.raw slice?
  cases ewf2EntryAt tbl i with
  | none => rfl
  | some e =>
      simp only [Option.bind_some, Option.isSome_map, ← h.1]
      split_ifs <;> rfl

theorem raw_of_chunkOnDisk {i : ℕ} {e : Ewf2Entry} {raw : List UInt8}
    (he : ewf2EntryAt tbl i = some e) (h : chunkOnDisk data tbl i = some (e, raw)) :
    e.raw data = some raw := by
  rw [chunkOnDisk, he, Option.bind_some] at h
  obtain ⟨raw', hraw, hpair⟩ := Option.map_eq_some_iff.mp h
  exact (Prod.mk.inj hpair).2 ▸ hraw

/-- The chunk and the trailer of the copy no longer fit together. -/
theorem adler32_ne_storedCrc {e : Ewf2Entry} {raw raw' : List UInt8} {stored : ℕ}
    (hdata : data.length < u64Max) (h : AgreeOn (· ≠ x) data data') (hx : data[x]? ≠ data'[x]?)
    (h4 : 4 ≤ e.dataSize) (hlo : e.fileOffset ≤ x) (hhi : x < e.fileOffset + e.dataSize)
    (hin : e.fileOffset + e.dataSize ≤ data.length) (hraw : e.raw data = some raw)
    (hraw' : e.raw data' = some raw') (hstored : e.storedCrc data = some stored)
    (hfit : adler32 raw = stored) :
    ∃ stored', e.storedCrc data' = some stored' ∧ adler32 raw' ≠ stored' := by
  have hlen := h.1
  have hsize : e.rawSize + 4 = e.dataSize := by
    rw [Ewf2Entry.rawSize]
    omega
  have hmid : satAdd e.fileOffset e.rawSize = e.fileOffset + e.rawSize := satAdd_eq (by omega)
  have hend : satAdd (e.fileOffset + e.rawSize) 4 = e.fileOffset + e.rawSize + 4 :=
    satAdd_eq (by omega)
  simp only [Ewf2Entry.raw, hmid] at hraw hraw'
  simp only [Ewf2Entry.storedCrc, if_pos h4, hmid, hend, Option.map_eq_some_iff] at hstored ⊢
  obtain ⟨trailer, htrailer, hvalue⟩ := hstored
  have htrailer' := slice?_of_le (Nat.le_add_right (e.fileOffset + e.rawSize) 4)
    (show e.fileOffset + e.rawSize + 4 ≤ data'.length by omega)
  refine ⟨_, ⟨_, htrailer', rfl⟩, ?_⟩
  rcases Nat.lt_or_ge x (e.fileOffset + e.rawSize) with hin_raw | hin_trailer
  · -- The byte is in the chunk: its checksum changes, the stored one stays.
    have hsame : slice? data (e.fileOffset + e.rawSize) (e.fileOffset + e.rawSize + 4) =
        slice? data' (e.fileOffset + e.rawSize) (e.fileOffset + e.rawSize + 4) :=
      h.slice?_eq fun j h1 _ => by omega
    rw [htrailer, htrailer'] at hsame
    rw [← Option.some.inj hsame, hvalue, ← hfit]
    refine (Adler32.checksum_ne_of_single_change (i := x - e.fileOffset)
      ⟨?_, fun j hj => ?_⟩ ?_).symm
    · rw [length_of_slice? hraw, length_of_slice? hraw']
    · by_cases hjn : j < e.rawSize
      · rw [getElem?_of_slice? hraw (by omega), getElem?_of_slice? hraw' (by omega)]
        exact h.2 _ (by omega)
      · rw [List.getElem?_eq_none (by rw [length_of_slice? hraw]; omega),
          List.getElem?_eq_none (by rw [length_of_slice? hraw']; omega)]
    · rw [getElem?_of_slice? hraw (by omega), getElem?_of_slice? hraw' (by omega),
        show e.fileOffset + (x - e.fileOffset) = x by omega]
      exact hx
  · -- The byte is in the trailer: the stored checksum changes, the chunk's own stays.
    have hsame : slice? data e.fileOffset (e.fileOffset + e.rawSize) =
        slice? data' e.fileOffset (e.fileOffset + e.rawSize) :=
      h.slice?_eq fun j _ h2 => by omega
    rw [hraw, hraw'] at hsame
    rw [← Option.some.inj hsame, hfit, ← hvalue]
    intro heq
    have hbytes := ofLE_inj (by rw [length_of_slice? htrailer, length_of_slice? htrailer']) heq
    refine hx ?_
    have h1 := @getElem?_of_slice? _ _ _ _ _ (x - (e.fileOffset + e.rawSize)) htrailer (by omega)
    have h2 := @getElem?_of_slice? _ _ _ _ _ (x - (e.fileOffset + e.rawSize)) htrailer' (by omega)
    rw [show e.fileOffset + e.rawSize + (x - (e.fileOffset + e.rawSize)) = x by omega] at h1 h2
    rw [← h1, ← h2, hbytes]

/-- The v2 analysis of the edited copy reports a chunk checksum mismatch. -/
theorem SingleByteEdit.chunkChecksumMismatch_mem {segments segments' : List (List UInt8)}
    {expected : ExpectedHashes} (h : SingleByteEdit C segments segments')
    (hlen : ∀ d ∈ segments, d.length < u64Max)
    (hclean : (analyseAllEwf2 C segments expected).1 = []) :
    ∃ i computed stored, .chunkChecksumMismatch i computed stored ∈
      (analyseAllEwf2 C segments' expected).1 := by
  obtain ⟨k, data, data', x, hk, rfl, hagree, hx, -, hout, range, tbl, i, e, hrange, htbl, hsize,
    hvisited, he, h4, hlo, hhi, hin⟩ := h
  have hmem := List.mem_of_getElem? hk
  have hdata := hlen data hmem
  have hseg := clean_ewf2 hclean data hmem
  have hwalk := backwardWalk_congr hagree fun s hs => (hout s hs).1
  -- The table is the same in the copy.
  have htbl' : slice? data' range.1 range.2 = some tbl := by
    obtain ⟨T, hT, rfl⟩ := Option.map_eq_some_iff.mp hrange
    obtain ⟨hTwalk, hTplain⟩ := List.mem_filter.mp (List.mem_of_getLast? hT)
    have htype := (hseg.isPlain_iff hTwalk _).mp hTplain
    rw [← htbl]
    refine (hagree.slice?_eq fun j h1 h2 => ?_).symm
    rintro rfl
    exact (hout T hTwalk).2 htype ⟨h1, h2⟩
  have hlong : ¬ tbl.length < evf2ChunkTableHeaderSize + evf2ChunkTableEntrySize := not_lt.mpr hsize
  -- In the original, the trailer of the chunk fits.
  obtain ⟨turn, hturn⟩ : ∃ turn, (verifyRun C data tbl)[i]? = some turn :=
    ⟨_, List.getElem?_eq_getElem hvisited⟩
  obtain ⟨hi, hprev, hstep⟩ := Loop.getElem?_forBreak.mp hturn
  simp only [Nat.zero_add] at hprev hstep
  obtain ⟨e', raw, he', hdisk, -⟩ := verifyTurn_spec hstep
  obtain rfl := Option.some.inj (he.symm.trans he')
  obtain ⟨stored, hstored⟩ := Option.isSome_iff_exists.mp
    ((storedCrc_isSome_iff hdata e).mpr ⟨h4, hin⟩)
  have hfit : adler32 raw = stored := by
    by_contra hne
    have hverified := hseg.verified range hrange
    simp only [verifyEwf2SectorData, htbl, if_neg hlong, List.append_eq_nil_iff,
      List.flatMap_eq_nil_iff] at hverified
    have hreport := verifyTurn_reports hstep hdisk hstored hne
    rw [hverified.1.1.1.2 turn (List.mem_of_getElem? hturn)] at hreport
    cases hreport
  -- In the copy, the same turn is reached and reports.
  have hsome : ∀ j, (verifyTurn C data' tbl (leU64 tbl 8) j).isSome =
      (verifyTurn C data tbl (leU64 tbl 8) j).isSome := fun j => by
    rw [isSome_verifyTurn, isSome_verifyTurn, chunkOnDisk_isSome_congr hagree]
  obtain ⟨turn', hstep'⟩ := Option.isSome_iff_exists.mp ((hsome i).trans (by rw [hstep]; rfl))
  obtain ⟨e'', raw', he'', hdisk', -⟩ := verifyTurn_spec hstep'
  obtain rfl := Option.some.inj (he.symm.trans he'')
  have hrun' : (verifyRun C data' tbl)[i]? = some turn' := by
    refine Loop.getElem?_forBreak.mpr ⟨hi, fun j hj => ?_, ?_⟩
    · rw [Nat.zero_add, hsome]
      exact hprev j hj
    · rw [Nat.zero_add]
      exact hstep'
  obtain ⟨stored', hstored', hne⟩ := adler32_ne_storedCrc hdata hagree hx h4 hlo hhi hin
    (raw_of_chunkOnDisk he hdisk) (raw_of_chunkOnDisk he hdisk') hstored hfit
  refine ⟨i, adler32 raw', stored', ?_⟩
  have hverify : .chunkChecksumMismatch i (adler32 raw') stored' ∈
      (verifyEwf2SectorData C data' range.1 range.2 .none).2.1 := by
    simp only [verifyEwf2SectorData, htbl', if_neg hlong]
    refine List.mem_append_left _ (List.mem_append_left _ (List.mem_append_left _
      (List.mem_append_right _ (List.mem_flatMap.mpr ⟨turn', List.mem_of_getElem? hrun', ?_⟩))))
    exact verifyTurn_reports hstep' hdisk' hstored' hne
  have hread : ewf2Readable data' = true := by
    have := hseg.readable
    rw [ewf2Readable] at this ⊢
    rwa [← hagree.1]
  have hscan : .chunkChecksumMismatch i (adler32 raw') stored' ∈
      (scanSegmentEwf2 C (segments.set k data').length k data').1 := by
    rw [scanSegmentEwf2, if_neg (by simp [hread])]
    simp only [hwalk, hrange]
    exact List.mem_append_right _ hverify
  have hk' : k < segments.length := (List.getElem?_eq_some_iff.mp hk).1
  simp only [analyseAllEwf2]
  refine List.mem_append_left _ (List.mem_flatMap.mpr ⟨_, List.mem_mapIdx.mpr ⟨k, ?_, rfl⟩, ?_⟩)
  · rw [List.length_set]
    exact hk'
  · rw [List.getElem_set_self]
    exact hscan

end EditV2

/-! ### The verdict -/

/-- The signature test looks at the first eight bytes of the first segment. -/
theorem isEwf2_congr {segments segments' : List (List UInt8)}
    (hlen : (segments'.headD []).length = (segments.headD []).length)
    (htake : (segments'.headD []).take 8 = (segments.headD []).take 8) :
    isEwf2 segments' = isEwf2 segments := by
  simp only [isEwf2, hlen, htake]

theorem SectorEdit.isEwf2_eq {geom : VolumeGeometry} {segments segments' : List (List UInt8)}
    (h : SectorEdit geom segments segments') : isEwf2 segments' = isEwf2 segments := by
  cases hd : segments[0]? with
  | none =>
      have hnil : segments = [] := List.eq_nil_of_length_eq_zero (by simpa using hd)
      have hnil' : segments' = [] := List.eq_nil_of_length_eq_zero (by rw [h.count, hnil]; rfl)
      rw [hnil, hnil']
  | some data =>
      obtain ⟨data', hd'⟩ := exists_getElem?_of_length_eq h.count hd
      have hagree := h.agreeOn hd hd'
      have hh : segments.headD [] = data := by
        simp [List.headD_eq_head?_getD, List.head?_eq_getElem?, hd]
      have hh' : segments'.headD [] = data' := by
        simp [List.headD_eq_head?_getD, List.head?_eq_getElem?, hd']
      refine isEwf2_congr (by rw [hh, hh', hagree.1]) ?_
      rw [hh, hh']
      exact (@AgreeOn.window_eq _ _ _ _ hagree 0 8 fun i _ h2 =>
        Or.inl (by rw [show fileHeaderSize = 13 from rfl]; omega)).symm

theorem SingleByteEdit.isEwf2_eq {C : Crates} {segments segments' : List (List UInt8)}
    (h : SingleByteEdit C segments segments') : isEwf2 segments' = isEwf2 segments := by
  obtain ⟨k, data, data', x, hk, rfl, hagree, -, hx, -⟩ := h
  cases segments with
  | nil => cases hk
  | cons first rest =>
      cases k with
      | zero =>
          obtain rfl : first = data := by simpa using hk
          have hx : 32 ≤ x := hx
          refine isEwf2_congr hagree.1.symm ?_
          exact (@AgreeOn.window_eq _ _ _ _ hagree 0 8 fun i _ h2 => by omega).symm
      | succ k => rfl

/-- **Tamper evidence.** After an edit of sector data, the analysis of an image that was
reported clean reports it: in v1, where MD5 separates the two hashed streams, as a hash
mismatch; in v2 as a chunk checksum mismatch. -/
theorem tamper_evident (C : Crates) (segs segs' : List Segment)
    (hclean : (EwfIntegrity.fromSegments segs).analyse C = []) :
    (∀ (geom : VolumeGeometry) (last : List UInt8) (s : Section) (stored : Digest.Bytes 16),
      isEwf2 (segs.map (·.data)) = false → analysisGeometry (segs.map (·.data)) = some geom →
      (segs.map (·.data)).getLast? = some last →
      findSection (walkSectionsV1 last) .hash = some s →
      Digest.bytesAt? 16 last (s.offset + 76) = some stored →
      SectorEdit geom (segs.map (·.data)) (segs'.map (·.data)) →
      (∀ a b, analysisStream C (segs.map (·.data)) = some a →
        analysisStream C (segs'.map (·.data)) = some b → a ≠ b → C.md5 a ≠ C.md5 b) →
      ∃ computed, .hashMismatch computed stored ∈ (EwfIntegrity.fromSegments segs').analyse C) ∧
    (isEwf2 (segs.map (·.data)) = true →
      SingleByteEdit C (segs.map (·.data)) (segs'.map (·.data)) →
      ∃ i computed stored, .chunkChecksumMismatch i computed stored ∈
        (EwfIntegrity.fromSegments segs').analyse C) := by
  have hmax : ∀ segs : List Segment, ∀ d ∈ segs.map (·.data), d.length < u64Max := by
    intro segs d hd
    obtain ⟨s, -, rfl⟩ := List.mem_map.mp hd
    exact s.length_lt_u64Max
  constructor
  · intro geom last s stored hv1 hgeom hlast hs hstored hedit hmd5
    have hscan : analyseAllEwf1 C (segs.map (·.data)) .none = [] := by
      rw [← hclean, @analyse_v1 C (EwfIntegrity.fromSegments segs) hv1]
      rfl
    rw [@analyse_v1 C (EwfIntegrity.fromSegments segs') (hedit.isEwf2_eq.trans hv1)]
    exact hedit.hashMismatch_mem (hmax segs) (hmax segs') hscan hgeom hlast hs hstored hmd5
  · intro hv2 hedit
    have hscan : (analyseAllEwf2 C (segs.map (·.data)) .none).1 = [] := by
      rw [← hclean, @analyse_v2 C (EwfIntegrity.fromSegments segs) hv2]
      rfl
    rw [@analyse_v2 C (EwfIntegrity.fromSegments segs') (hedit.isEwf2_eq.trans hv2)]
    exact hedit.chunkChecksumMismatch_mem (hmax segs) hscan

/-- The whole image with its chunk's sixth byte changed. -/
def wholeImageEdited : Segment := ⟨wholeImage.data.set 368 9, by decide +kernel⟩

/-- The sound v2 image with its chunk's second byte changed. -/
def ewf2ImageEdited : Segment := ⟨ewf2Image.data.set 108 9, by decide +kernel⟩

/-- A list with one element set differs from the list there only. -/
theorem eq_of_getElem?_set_ne {α : Type} {xs : List α} {x i : ℕ} {a : α}
    (h : (xs.set x a)[i]? ≠ xs[i]?) : i = x := by
  by_contra hne
  exact h (List.getElem?_set_ne (Ne.symm hne))

theorem tamper_evident_images :
    (∃ computed stored, .hashMismatch computed stored ∈
      (EwfIntegrity.fromSegments [wholeImageEdited]).analyse Crates.reference) ∧
    ∃ i computed stored, .chunkChecksumMismatch i computed stored ∈
      (EwfIntegrity.fromSegments [ewf2ImageEdited]).analyse Crates.reference := by
  constructor
  · have hclean : (EwfIntegrity.fromSegments [wholeImage]).analyse Crates.reference = [] := by
      decide +kernel
    have hgeom : (analysisGeometry [wholeImage.data]).isSome := by decide +kernel
    obtain ⟨geom, hgeom⟩ := Option.isSome_iff_exists.mp hgeom
    have hstored : ((findSection (walkSectionsV1 wholeImage.data) .hash).bind fun s =>
        Digest.bytesAt? 16 wholeImage.data (s.offset + 76)).isSome := by decide +kernel
    obtain ⟨stored, hstored⟩ := Option.isSome_iff_exists.mp hstored
    obtain ⟨s, hs, hstored⟩ := Option.bind_eq_some_iff.mp hstored
    have hspan : (analysisGeometry [wholeImage.data]).map
        (fun g => (g.totalBytes, g.chunkSize)) = some (512, 512) := by decide +kernel
    have hranges : indexedRanges [wholeImage.data] = [(0, ⟨363, 875, false⟩)] := by decide +kernel
    have hedit : SectorEdit geom [wholeImage.data] [wholeImageEdited.data] := by
      refine ⟨by rw [List.length_singleton, List.length_singleton], by decide +kernel, ?_, ?_⟩
      · rintro (_ | k) data data' hd hd'
        · obtain rfl := Option.some.inj hd
          obtain rfl := Option.some.inj hd'
          exact List.length_set
        · cases hd
      · rintro (_ | k) data data' hd hd' i hi
        · obtain rfl := Option.some.inj hd
          obtain rfl := Option.some.inj hd'
          obtain rfl := eq_of_getElem?_set_ne hi
          rw [hgeom, Option.map_some, Option.some.injEq, Prod.mk.injEq] at hspan
          refine ⟨⟨0, _, by rw [hranges]; rfl, rfl, by decide, by decide, ?_⟩, by decide +kernel⟩
          rw [hspan.1, hspan.2]
          decide
        · cases hd
    have hmd5 : (analysisStream Crates.reference [wholeImage.data]).map Crates.reference.md5 ≠
        (analysisStream Crates.reference [wholeImageEdited.data]).map Crates.reference.md5 := by
      decide +kernel
    obtain ⟨computed, h⟩ := (tamper_evident Crates.reference [wholeImage] [wholeImageEdited]
      hclean).1 geom wholeImage.data s stored (by decide +kernel) hgeom rfl hs hstored hedit
      fun a b ha hb _ heq => hmd5 (by
        rw [show analysisStream Crates.reference [wholeImage.data] = some a from ha,
          show analysisStream Crates.reference [wholeImageEdited.data] = some b from hb,
          Option.map_some, Option.map_some, heq])
    exact ⟨computed, stored, h⟩
  · have hclean : (EwfIntegrity.fromSegments [ewf2Image]).analyse Crates.reference = [] := by
      decide +kernel
    refine (tamper_evident Crates.reference [ewf2Image] [ewf2ImageEdited] hclean).2
      (by decide +kernel) ?_
    refine ⟨0, ewf2Image.data, ewf2ImageEdited.data, 108, rfl, rfl, ⟨List.length_set.symm, ?_⟩,
      by decide +kernel, by decide, by decide +kernel, ?_⟩
    · intro i hi
      exact (List.getElem?_set_ne (Ne.symm hi)).symm
    · refine ⟨(114, 166), (ewf2Image.data.drop 114).take 52, 0, ⟨107, 7, 0⟩, by decide +kernel,
        by decide +kernel, by decide +kernel, by decide +kernel, by decide +kernel, by decide,
        by decide, by decide, by decide +kernel⟩

end EwfForensic

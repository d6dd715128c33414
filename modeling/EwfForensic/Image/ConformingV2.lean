import EwfForensic.Image.PlacedV2

/-!
# Conforming v2 Images

What a writer of EWF v2 segments puts into them, and that the v2 analysis has nothing to report
of it.

* `SegmentV2.Conforms`, `AcquisitionV2.Conforms` — a segment file, and the files of an
  acquisition.
* `SegmentV2.Conforms.scan_eq`, `SegmentV2.Conforms.computeTurns_eq` — the two passes over a
  segment.
* `no_false_positive_v2` — the verdict of an acquisition is clean and its digests are those of
  the media.
* `conforms_encodeSegmentV2` — the segments of the writer conform.
-/

namespace EwfForensic.Image

open Octets

/-! ### Segments -/

/-- A segment: its sections, from the last one backward, and its chunks. -/
structure SegmentV2 where
  sections : List SectionV2
  chunks : List PlacedChunk

/-- A body is media information: a zlib stream of a text. -/
def MediaInfo (C : Crates) (body : List UInt8) : Prop :=
  body ≠ [] ∧ ∃ text, Zlib.IsStream C.zlib body (utf16Text text)

/-- The segment file `num` of an acquisition. -/
structure SegmentV2.Conforms (C : Crates) (num : ℕ) (data : List UInt8) (s : SegmentV2) : Prop where
  header : ∃ signature version method tail,
    (signature = evf2Signature ∨ signature = lef2Signature) ∧ version.length = 2 ∧ method ≤ 1 ∧
      tail.length = 16 ∧
      HasAt data 0 (signature ++ version ++ toLE 2 method ++ toLE 4 num ++ tail)
  sections_ne : s.sections ≠ []
  chained : ChainedBack data s.sections
  last : ∀ t ∈ s.sections.head?, t.descOffset + 64 = data.length
  plain : ∀ t ∈ s.sections, t.encrypted = false
  hash : ∀ t ∈ s.sections, t.storedHash = Digest.zero 16 ∨ t.storedHash = C.md5 t.content
  mediaInfo : ∀ t ∈ s.sections, t.sectionType = evf2TypeMediaInfo → MediaInfo C t.content
  chunks_ne : s.chunks ≠ []
  table : ∃ t ∈ s.sections, t.sectionType = evf2TypeChunkTable ∧
    (∀ t' ∈ s.sections, t'.sectionType = evf2TypeChunkTable → t' = t) ∧
    ChunksIn C data t.content s.chunks

section Segments

variable {C : Crates} {num n idx : ℕ} {data : List UInt8} {s : SegmentV2}

theorem SegmentV2.Conforms.walk (h : s.Conforms C num data) (hdata : data.length < u64Max) :
    backwardWalk data = s.sections.map SectionV2.toEwf2Section :=
  backwardWalk_eq hdata h.chained h.sections_ne h.last

theorem SegmentV2.Conforms.readable (h : s.Conforms C num data) : ewf2Readable data = true := by
  obtain ⟨t, rest, hsecs⟩ := List.exists_cons_of_ne_nil h.sections_ne
  have hstands := h.chained.standsIn (hsecs ▸ List.mem_cons_self .. : t ∈ s.sections)
  have hin : 32 + t.dataSize ≤ t.descOffset := hstands.inFile
  have hlast := h.last t (by rw [hsecs]; rfl)
  rw [ewf2Readable, decide_eq_true_eq]
  change 32 + 64 ≤ data.length
  omega

theorem SegmentV2.Conforms.signature (h : s.Conforms C num data) :
    8 ≤ data.length ∧ (data.take 8 = evf2Signature ∨ data.take 8 = lef2Signature) := by
  obtain ⟨signature, version, method, tail, hsig, -, -, -, hat⟩ := h.header
  have hlen : signature.length = 8 := by
    rcases hsig with rfl | rfl <;> rfl
  obtain ⟨hroom, hwin⟩ := hasAt_iff.mp hat.left.left.left.left
  rw [List.drop_zero, hlen] at hwin
  exact ⟨by omega, hwin ▸ hsig⟩

/-- The file header is that of the segment. -/
theorem SegmentV2.Conforms.headerIssues_eq (h : s.Conforms C (idx + 1) data)
    (hdata : data.length < u64Max) (hidx : idx + 1 ≤ u32Max) : headerIssuesV2 idx data = [] := by
  obtain ⟨signature, version, method, tail, hsig, hversion, hmethod, -, hat⟩ := h.header
  have hsiglen : signature.length = 8 := by
    rcases hsig with rfl | rfl <;> rfl
  have h1 := hat.left.left.right
  have h2 := hat.left.right
  simp only [List.length_append, length_toLE, hsiglen, hversion, Nat.zero_add,
    Nat.reduceAdd] at h1 h2
  have htake := h.signature.2
  rw [u32Max] at hidx
  have hnum : leU32 data 12 = idx + 1 := h2.leAt hdata.le (by omega)
  have hmeth : leU16 data 10 = method := h1.leAt hdata.le (by omega)
  have hsucc : satAdd idx 1 % 4294967296 = idx + 1 := by
    rw [@satAdd_eq idx 1 (by rw [u64Max]; omega), Nat.mod_eq_of_lt (by omega)]
  rw [headerIssuesV2]
  simp only [hnum, hmeth, hsucc]
  rw [if_neg (by tauto), if_neg (by omega), if_neg (by simp), if_neg (by omega)]
  rfl

/-- No section is reported. -/
theorem SegmentV2.Conforms.sectionIssues_eq (h : s.Conforms C num data) {t : SectionV2}
    (ht : t ∈ s.sections) : ewf2SectionIssues C data t.toEwf2Section = [] := by
  have hbody := (h.chained.standsIn ht).body_eq
  have hplain : ¬ t.encrypted = true := by rw [h.plain t ht]; exact Bool.false_ne_true
  rw [ewf2SectionIssues, if_neg hplain]
  simp only [hbody]
  refine List.append_eq_nil_iff.mpr ⟨?_, ?_⟩
  · split_ifs with hne hbad
    · rcases h.hash t ht with hz | hmd5
      · exact absurd hz hne
      · exact absurd hmd5.symm hbad
    · rfl
    · rfl
  · split_ifs with htype hparse
    · rfl
    · obtain ⟨hne, text, hstream⟩ := h.mediaInfo t ht htype
      have hread := hstream.readToEnd []
      rw [List.append_nil] at hread
      exact absurd (parseMediaInfoBody_text hne hread) hparse
    · rfl

/-- The table that is used is the one of the chunks. -/
theorem SegmentV2.Conforms.exists_table (h : s.Conforms C num data)
    (hdata : data.length < u64Max) : ∃ start stop tbl,
      chunkTableBody (backwardWalk data) = some (start, stop) ∧
      slice? data start stop = some tbl ∧ tbl.length < u64Max ∧ 48 ≤ tbl.length ∧
      ChunksIn C data tbl s.chunks := by
  obtain ⟨t, ht, htype, honly, hchunks⟩ := h.table
  have hbody := (h.chained.standsIn ht).body_eq
  have htbl : t.content.length < u64Max :=
    lt_of_le_of_lt (by
      have hlen := length_of_slice? hbody
      have hend := (slice?_eq_some_iff.mp hbody).2.1
      omega) hdata
  have hroom := (hchunks.table.fields htbl).2.1
  have hpos := List.length_pos_of_ne_nil h.chunks_ne
  refine ⟨t.bodyStart, t.descOffset, t.content, ?_, hbody, htbl, by omega, hchunks⟩
  have hplain : ∀ v ∈ (backwardWalk data).filter (·.isPlain evf2TypeChunkTable),
      v = t.toEwf2Section := by
    intro v hv
    obtain ⟨hmem, hv⟩ := List.mem_filter.mp hv
    rw [h.walk hdata] at hmem
    obtain ⟨t', ht', rfl⟩ := List.mem_map.mp hmem
    rw [honly t' ht' (by simpa [Ewf2Section.isPlain, h.plain t' ht'] using hv)]
  have hmem : t.toEwf2Section ∈ (backwardWalk data).filter (·.isPlain evf2TypeChunkTable) := by
    rw [h.walk hdata]
    refine List.mem_filter.mpr ⟨List.mem_map_of_mem ht, ?_⟩
    simp [Ewf2Section.isPlain, h.plain t ht, htype]
  have hlast := List.getLast?_eq_some_getLast (List.ne_nil_of_mem hmem)
  rw [chunkTableBody, hlast, Option.map_some, hplain _ (List.getLast_mem _)]

/-- **The segment loop reports nothing** of a segment that has what its place asks for. -/
theorem SegmentV2.Conforms.scan_eq (h : s.Conforms C (idx + 1) data)
    (hdata : data.length < u64Max) (hidx : idx + 1 ≤ u32Max)
    (hhash : idx = n - 1 → ∃ t ∈ s.sections, t.isHash = true)
    (hinfo : idx = 0 → ∃ t ∈ s.sections, t.sectionType = evf2TypeMediaInfo) :
    (scanSegmentEwf2 C n idx data).1 = [] := by
  obtain ⟨start, stop, tbl, hkept, hslice, htbl, hlen, hchunks⟩ := h.exists_table hdata
  have hlong : ¬ tbl.length < evf2ChunkTableHeaderSize + evf2ChunkTableEntrySize := not_lt.mpr hlen
  have hverified : (verifyEwf2SectorData C data start stop .none).2.1 = [] := by
    rw [verifyEwf2SectorData, hslice]
    simp only [if_neg hlong, hchunks.table.checksumIssues_eq htbl,
      hchunks.verifyRun_issues hdata htbl]
    rfl
  have hvisited : (backwardWalk data).flatMap (ewf2SectionIssues C data) = [] := by
    rw [h.walk hdata]
    refine List.flatMap_eq_nil_iff.mpr fun v hv => ?_
    obtain ⟨t, ht, rfl⟩ := List.mem_map.mp hv
    exact h.sectionIssues_eq ht
  have hany : ∀ (p : Ewf2Section → Bool) t, t ∈ s.sections → p t.toEwf2Section = true →
      (backwardWalk data).any p = true := by
    intro p t ht hp
    rw [h.walk hdata]
    exact List.any_eq_true.mpr ⟨_, List.mem_map_of_mem ht, hp⟩
  have hfinal : ¬ (idx = n - 1 ∧ ¬ (backwardWalk data).any (·.isHash) = true) := by
    rintro ⟨hlast, hno⟩
    obtain ⟨t, ht, hp⟩ := hhash hlast
    exact hno (hany _ t ht hp)
  have hfirst : ¬ (idx = 0 ∧
      ¬ (backwardWalk data).any (·.isPlain evf2TypeMediaInfo) = true) := by
    rintro ⟨hzero, hno⟩
    obtain ⟨t, ht, htype⟩ := hinfo hzero
    exact hno (hany _ t ht (by simp [Ewf2Section.isPlain, h.plain t ht, htype]))
  rw [scanSegmentEwf2, if_neg (by simp [h.readable])]
  simp only [h.headerIssues_eq hdata hidx, hvisited, hkept, hverified, if_neg hfinal, if_neg hfirst]
  rfl

/-- `compute_hashes` decodes the chunks of the segment. -/
theorem SegmentV2.Conforms.computeTurns_eq (h : s.Conforms C num data)
    (hdata : data.length < u64Max) : computeTurns C data = s.chunks.map fun c => some c.media := by
  obtain ⟨start, stop, tbl, hkept, hslice, htbl, hlen, hchunks⟩ := h.exists_table hdata
  refine hchunks.computeTurns_eq hdata htbl ?_
  have hread : ¬ data.length < evf2FileHeaderSize + evf2SectionDescriptorSize :=
    not_lt.mpr (of_decide_eq_true h.readable)
  rw [usedChunkTable, if_neg hread, hkept]
  simp only [hslice]
  exact if_neg (not_lt.mpr hlen)

/-- A digest that is kept is the front of a section's body. -/
theorem SegmentV2.Conforms.storedDigest_eq (h : s.Conforms C num data)
    (hdata : data.length < u64Max) {m t : ℕ} (hm : 0 < m) {digest stored : Digest.Bytes m}
    (hright : ∀ u ∈ s.sections, u.sectionType = t → digest.val <+: u.content)
    (hstored : storedDigest m t data (backwardWalk data) = some stored) : digest = stored := by
  have hmem := List.mem_of_getLast? hstored
  obtain ⟨v, hv, hkept⟩ := List.mem_filterMap.mp hmem
  rw [h.walk hdata] at hv
  obtain ⟨u, hu, rfl⟩ := List.mem_map.mp hv
  split_ifs at hkept with hplain
  rw [(h.chained.standsIn hu).body_eq, Option.bind_some] at hkept
  have htype : u.sectionType = t := by
    simpa [Ewf2Section.isPlain, h.plain u hu] using hplain.1
  have hat : HasAt u.content 0 digest.val :=
    ⟨Nat.zero_le _, by rw [List.drop_zero]; exact hright u hu htype⟩
  exact Option.some.inj (((Digest.bytesAt?_eq_some_iff hm).mpr hat).symm.trans hkept)

end Segments

/-! ### Acquisitions -/

/-- An acquisition into v2 segments. -/
structure AcquisitionV2 where
  segments : List SegmentV2

/-- All chunks in order. -/
def AcquisitionV2.chunks (A : AcquisitionV2) : List PlacedChunk := A.segments.flatMap (·.chunks)

/-- The media. -/
def AcquisitionV2.media (A : AcquisitionV2) : List UInt8 := A.chunks.flatMap (·.media)

/-- The types of the sections that store a digest. -/
def digestTypes : List ℕ := [evf2TypeMd5Hash, evf2TypeSha1Hash, evf2TypeSha256Hash]

/-- The segment files of an acquisition: numbered from one, media information in the first, the
digests of the media in the last. -/
structure AcquisitionV2.Conforms (C : Crates) (A : AcquisitionV2) (files : List Segment) :
    Prop where
  segments_ne : A.segments ≠ []
  count_le : A.segments.length ≤ u32Max
  length_eq : files.length = A.segments.length
  file : ∀ (k : ℕ) s f, A.segments[k]? = some s → files[k]? = some f →
    s.Conforms C (k + 1) f.data
  mediaInfo : ∀ s ∈ A.segments.head?, ∃ t ∈ s.sections, t.sectionType = evf2TypeMediaInfo
  digests : ∀ s ∈ A.segments.getLast?, (∃ t ∈ s.sections, t.sectionType ∈ digestTypes) ∧
    ∀ t ∈ s.sections,
      (t.sectionType = evf2TypeMd5Hash → (C.md5 A.media).val <+: t.content) ∧
      (t.sectionType = evf2TypeSha1Hash → (C.sha1 A.media).val <+: t.content) ∧
      (t.sectionType = evf2TypeSha256Hash → (C.sha256 A.media).val <+: t.content)

section Verdict

variable {C : Crates} {A : AcquisitionV2} {files : List Segment}

/-- A file and its segment. -/
theorem AcquisitionV2.Conforms.exists_segment (h : A.Conforms C files) {k : ℕ} {f : Segment}
    (hf : files[k]? = some f) :
    ∃ s, A.segments[k]? = some s ∧ s.Conforms C (k + 1) f.data ∧ k + 1 ≤ u32Max := by
  have hlt := (List.getElem?_eq_some_iff.mp hf).1
  rw [h.length_eq] at hlt
  exact ⟨_, List.getElem?_eq_getElem hlt, h.file k _ f (List.getElem?_eq_getElem hlt) hf,
    le_trans hlt h.count_le⟩

/-- **`compute_hashes` gets the media.** -/
theorem AcquisitionV2.Conforms.computeStream_eq (h : A.Conforms C files) :
    computeStreamEwf2 C (files.map (·.data)) = some A.media := by
  have hturns : (files.map (·.data)).flatMap (computeTurns C) =
      A.chunks.map fun c => some c.media := by
    rw [AcquisitionV2.chunks, List.map_flatMap, List.flatMap_map, List.flatMap_def,
      List.flatMap_def]
    refine congrArg _ (List.ext_getElem? fun k => ?_)
    rw [List.getElem?_map, List.getElem?_map]
    cases hf : files[k]? with
    | none =>
        have hnone : A.segments[k]? = none := by
          rw [List.getElem?_eq_none_iff, ← h.length_eq]
          exact List.getElem?_eq_none_iff.mp hf
        rw [hnone]
        rfl
    | some f =>
        obtain ⟨s, hs, hc, -⟩ := h.exists_segment hf
        rw [hs, Option.map_some, Option.map_some, hc.computeTurns_eq f.length_lt_u64Max]
  obtain ⟨s, rest, hsegs⟩ := List.exists_cons_of_ne_nil h.segments_ne
  have hsome : (A.chunks.map fun c => some c.media).any (·.isSome) = true := by
    obtain ⟨f, hf⟩ : ∃ f, files[0]? = some f := by
      have hpos : 0 < files.length := by
        rw [h.length_eq, hsegs]
        exact Nat.succ_pos _
      exact ⟨_, List.getElem?_eq_getElem hpos⟩
    have hc := h.file 0 s f (by rw [hsegs]; rfl) hf
    obtain ⟨c, chunks, hchunks⟩ := List.exists_cons_of_ne_nil hc.chunks_ne
    rw [AcquisitionV2.chunks, hsegs, List.flatMap_cons, hchunks]
    rfl
  rw [computeStreamEwf2, hturns]
  simp only [hsome, if_true, List.flatMap_map, Option.getD_some]
  rfl

/-- The stored digests are those of the media. -/
theorem AcquisitionV2.Conforms.storedIssues_eq (h : A.Conforms C files) :
    storedIssues (C.hashes A.media) (finalStored (files.map (·.data))) = [] := by
  rw [finalStored, List.getLast?_map]
  cases hf : files.getLast? with
  | none => rfl
  | some f =>
      have hlast := hf
      rw [List.getLast?_eq_getElem?] at hlast
      obtain ⟨s, hs, hc, -⟩ := h.exists_segment hlast
      have hdata := f.length_lt_u64Max
      have hfinal : s ∈ A.segments.getLast? := by
        rw [List.getLast?_eq_getElem?, ← h.length_eq, hs]
        rfl
      have hright := (h.digests s hfinal).2
      rw [Option.map_some]
      simp only [hc.readable, if_true, storedIssues]
      refine List.append_eq_nil_iff.mpr ⟨List.append_eq_nil_iff.mpr ⟨?_, ?_⟩, ?_⟩
      · exact mismatch_eq_nil_iff.mpr fun r hr =>
          hc.storedDigest_eq hdata (by decide) (fun u hu => (hright u hu).1) hr
      · exact mismatch_eq_nil_iff.mpr fun r hr =>
          hc.storedDigest_eq hdata (by decide) (fun u hu => (hright u hu).2.1) hr
      · exact mismatch_eq_nil_iff.mpr fun r hr =>
          hc.storedDigest_eq hdata (by decide) (fun u hu => (hright u hu).2.2) hr

/-- **No false positive.** The segment files of an acquisition have a clean verdict, and
`compute_hashes` gives the digests of its media. -/
theorem no_false_positive_v2 (C : Crates) (A : AcquisitionV2) (files : List Segment)
    (h : A.Conforms C files) :
    (EwfIntegrity.fromSegments files).analyse C = [] ∧
      (EwfIntegrity.fromSegments files).computeHashes C = some (C.hashes A.media) := by
  have hcompute : computeHashesEwf2 C (files.map (·.data)) = some (C.hashes A.media) := by
    rw [computeHashesEwf2, h.computeStream_eq, Option.map_some]
  have hv2 : isEwf2 (EwfIntegrity.fromSegments files).bytes = true := by
    have hpos : 0 < files.length := by
      rw [h.length_eq]
      exact List.length_pos_of_ne_nil h.segments_ne
    obtain ⟨f, rest, rfl⟩ := List.exists_cons_of_length_pos hpos
    obtain ⟨s, -, hc, -⟩ := h.exists_segment (show (f :: rest)[0]? = some f from rfl)
    exact decide_eq_true hc.signature
  have hscan : ∀ scan ∈ (files.map (·.data)).mapIdx fun idx data =>
      scanSegmentEwf2 C (files.map (·.data)).length idx data, scan.1 = [] := by
    intro scan hscan
    obtain ⟨idx, hidx, rfl⟩ := List.mem_mapIdx.mp hscan
    rw [List.length_map] at hidx
    obtain ⟨s, hs, hc, hle⟩ := h.exists_segment (List.getElem?_eq_getElem hidx)
    rw [List.getElem_map]
    refine hc.scan_eq (files[idx].length_lt_u64Max) hle (fun hlast => ?_) fun hzero => ?_
    · rw [List.length_map] at hlast
      have hfinal : s ∈ A.segments.getLast? := by
        rw [List.getLast?_eq_getElem?, ← h.length_eq, ← hlast, hs]
        rfl
      obtain ⟨t, ht, htype⟩ := (h.digests s hfinal).1
      refine ⟨t, ht, ?_⟩
      simp only [digestTypes, List.mem_cons, List.not_mem_nil, or_false] at htype
      simp only [Ewf2Section.isHash, Ewf2Section.isPlain, hc.plain t ht, Bool.or_eq_true,
        decide_eq_true_eq, Bool.false_eq_true, not_false_eq_true, true_and]
      tauto
    · subst hzero
      exact h.mediaInfo s (by rw [List.head?_eq_getElem?, hs]; rfl)
  constructor
  · rw [analyse_v2 hv2]
    change (analyseAllEwf2 C (files.map (·.data)) .none).1 = []
    rw [analyseAllEwf2, hcompute]
    simp only [List.flatMap_eq_nil_iff.mpr hscan, h.storedIssues_eq]
    rfl
  · rw [EwfIntegrity.computeHashes, if_pos hv2]
    exact hcompute

end Verdict

/-! ### The writer -/

/-- **What the writer writes conforms**, when its one table lists chunks that are there. -/
theorem conforms_encodeSegmentV2 {C : Crates} {num firstChunk : ℕ}
    {secs : List (ℕ × List UInt8)} {chunks : List PlacedChunk}
    (htypes : ∀ s ∈ secs, s.1 ≤ u32Max)
    (hinfo : ∀ s ∈ secs, s.1 = evf2TypeMediaInfo → MediaInfo C s.2)
    (htable : secs.filter (fun s => s.1 = evf2TypeChunkTable) =
      [(evf2TypeChunkTable, tableBodyV2 firstChunk chunks)])
    (hne : chunks ≠ []) (hchunks : ∀ c ∈ chunks, c.StandsIn C (encodeSegmentV2 num secs)) :
    SegmentV2.Conforms C num (encodeSegmentV2 num secs)
      ⟨(placeSectionsV2 evf2FileHeaderSize 0 secs).reverse, chunks⟩ := by
  have hwritten := map_placeSectionsV2 evf2FileHeaderSize 0 secs
  have hmem : ∀ t ∈ (placeSectionsV2 evf2FileHeaderSize 0 secs).reverse,
      (t.sectionType, t.content) ∈ secs := by
    intro t ht
    rw [← hwritten]
    exact List.mem_map_of_mem (List.mem_reverse.mp ht)
  obtain ⟨t, htables⟩ : ∃ t, (placeSectionsV2 evf2FileHeaderSize 0 secs).filter
      (fun t => t.sectionType = evf2TypeChunkTable) = [t] := by
    rw [← hwritten, List.filter_map, List.map_eq_singleton_iff] at htable
    obtain ⟨t, ht, -⟩ := htable
    exact ⟨t, ht⟩
  have honly : ∀ t' ∈ (placeSectionsV2 evf2FileHeaderSize 0 secs).reverse,
      t'.sectionType = evf2TypeChunkTable → t' = t := by
    intro t' ht' htype
    exact List.mem_singleton.mp (htables ▸ List.mem_filter.mpr
      ⟨List.mem_reverse.mp ht', decide_eq_true htype⟩)
  obtain ⟨ht, htype⟩ := List.mem_filter.mp (htables ▸ List.mem_singleton_self t)
  have htype := of_decide_eq_true htype
  have ht := List.mem_reverse.mpr ht
  have hcontent : t.content = tableBodyV2 firstChunk chunks := by
    have hkept : (t.sectionType, t.content) ∈
        secs.filter (fun s => s.1 = evf2TypeChunkTable) :=
      List.mem_filter.mpr ⟨hmem t ht, decide_eq_true htype⟩
    rw [htable, List.mem_singleton, Prod.mk.injEq] at hkept
    exact hkept.2
  refine ⟨?_, ?_, chainedBack_encodeSegmentV2 num htypes, ?_, ?_, ?_, ?_, hne, ?_⟩
  · refine ⟨evf2Signature, [2, 1], 1, List.replicate 16 0, Or.inl rfl, rfl, le_rfl, rfl, ?_⟩
    exact (hasAt_self (encodeSegmentV2 num secs)).left
  · exact List.ne_nil_of_mem ht
  · intro u hu
    rw [List.head?_reverse] at hu
    have hend := getLast?_placeSectionsV2 hu
    have hlen : (encodeSegmentV2 num secs).length =
        evf2FileHeaderSize + (encodeSectionsV2 evf2FileHeaderSize 0 secs).length := by
      rw [encodeSegmentV2, List.length_append]
      rfl
    rw [hlen, ← hend]
  · exact fun u hu => (plain_of_mem_placeSectionsV2 (List.mem_reverse.mp hu)).1
  · exact fun u hu => Or.inl (plain_of_mem_placeSectionsV2 (List.mem_reverse.mp hu)).2
  · exact fun u hu => hinfo _ (hmem u hu)
  · refine ⟨t, ht, htype, honly, ?_, hchunks⟩
    rw [hcontent]
    exact tableOfChunks_tableBodyV2 firstChunk chunks

/-! ### An acquisition in two segments -/

/-- A raw chunk in the first segment, and a compressed one in the second. -/
def sampleChunksV2 : List PlacedChunk :=
  [⟨[1, 2, 3], [1, 2, 3], 32, 2⟩, ⟨[4, 5], Zlib.storedStream [4, 5], 32, 3⟩]

/-- The sections of its first segment: the chunk, media information and the table. -/
def sampleSectionsV2 : List (ℕ × List UInt8) :=
  [(3, [1, 2, 3] ++ toLE 4 (adler32 [1, 2, 3])),
    (2, Zlib.storedStream (utf16Text [Char.ofNat 0xFEFF, '1', '\n'])),
    (4, tableBodyV2 0 (sampleChunksV2.take 1))]

/-- The sections of its last segment: the chunk, the table and the digests of the media. -/
def sampleLastSectionsV2 : List (ℕ × List UInt8) :=
  [(3, Zlib.storedStream [4, 5] ++ toLE 4 (adler32 (Zlib.storedStream [4, 5]))),
    (4, tableBodyV2 1 (sampleChunksV2.drop 1)),
    (8, (Digest.md5 [1, 2, 3, 4, 5]).val ++ toLE 4 0),
    (9, (Digest.sha1 [1, 2, 3, 4, 5]).val),
    (10, (Digest.sha256 [1, 2, 3, 4, 5]).val)]

def sampleAcquisitionV2 : AcquisitionV2 where
  segments :=
    [⟨(placeSectionsV2 evf2FileHeaderSize 0 sampleSectionsV2).reverse, sampleChunksV2.take 1⟩,
      ⟨(placeSectionsV2 evf2FileHeaderSize 0 sampleLastSectionsV2).reverse,
        sampleChunksV2.drop 1⟩]

/-- Its segment files. -/
def sampleFilesV2 : List Segment :=
  [⟨encodeSegmentV2 1 sampleSectionsV2, by decide +kernel⟩,
    ⟨encodeSegmentV2 2 sampleLastSectionsV2, by decide +kernel⟩]

theorem sampleAcquisitionV2_conforms :
    sampleAcquisitionV2.Conforms Crates.reference sampleFilesV2 where
  segments_ne := List.cons_ne_nil _ _
  count_le := by decide
  length_eq := rfl
  file := by
    intro k s f hs hf
    rcases k with _ | _ | k
    · obtain rfl := Option.some.inj hs
      obtain rfl := Option.some.inj hf
      refine @conforms_encodeSegmentV2 _ 1 0 _ _ (by decide +kernel) ?_ (by decide +kernel)
        (by decide +kernel) ?_
      · intro t ht htype
        simp only [sampleSectionsV2, List.mem_cons, List.not_mem_nil, or_false] at ht
        rcases ht with rfl | rfl | rfl
        · cases htype
        · exact ⟨by decide +kernel, _, Zlib.isStream_storedStream (by decide +kernel)⟩
        · cases htype
      · intro c hc
        obtain rfl := List.mem_singleton.mp hc
        exact ⟨rfl, ⟨by decide +kernel, by decide +kernel⟩, by decide +kernel, by decide⟩
    · obtain rfl := Option.some.inj hs
      obtain rfl := Option.some.inj hf
      refine @conforms_encodeSegmentV2 _ 2 1 _ _ (by decide +kernel) ?_ (by decide +kernel)
        (by decide +kernel) ?_
      · intro t ht htype
        simp only [sampleLastSectionsV2, List.mem_cons, List.not_mem_nil, or_false] at ht
        rcases ht with rfl | rfl | rfl | rfl | rfl <;> cases htype
      · intro c hc
        obtain rfl := List.mem_singleton.mp hc
        exact ⟨Zlib.isStream_storedStream (by decide), ⟨by decide +kernel, by decide +kernel⟩,
          by decide +kernel, by decide⟩
    · cases hs
  mediaInfo := by
    intro s hs
    obtain rfl := Option.some.inj hs
    decide +kernel
  digests := by
    intro s hs
    obtain rfl := Option.some.inj hs
    decide +kernel

/-- The media is five bytes long. -/
theorem no_false_positive_v2_sampleFiles :
    sampleAcquisitionV2.media = [1, 2, 3, 4, 5] ∧
      (EwfIntegrity.fromSegments sampleFilesV2).analyse Crates.reference = [] ∧
      (EwfIntegrity.fromSegments sampleFilesV2).computeHashes Crates.reference =
        some (Crates.reference.hashes sampleAcquisitionV2.media) :=
  ⟨by decide +kernel, no_false_positive_v2 Crates.reference sampleAcquisitionV2 sampleFilesV2
    sampleAcquisitionV2_conforms⟩

end EwfForensic.Image

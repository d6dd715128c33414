import EwfForensic.Core.ParallelVerify
import EwfForensic.Forensic.ScanIssues
import EwfForensic.Image.Analysis
import EwfForensic.Image.RecoverWhole

/-!
# What the Reader and the Analyser Hash

The reader concatenates the chunks of all table sections and falls back to a `table2`; the
analyser takes those of the first `table` of each segment. Both then hash what they decode.

* `SegmentLayout.analysed` — the chunks that the analyser finds in a segment.
* `Opened.verify_md5` — the digest that `verify` returns is that of the media.
* `Layout.Formed.stream_files` — the stream of the analyser is the media exactly when
  it finds all chunks.
* `sameMedia_iff` — the two digests agree, and a right stored hash raises no mismatch, exactly
  when every segment keeps its chunks under its first table, and that is a `table`.
-/

namespace EwfForensic.Image

open Octets

/-! ### The chunks that the analyser finds -/

/-- The chunks that the analysis finds in a segment: those of its first pair, if that has a
`table`. -/
def SegmentLayout.analysed (s : SegmentLayout) : List (ℕ × Stored) :=
  match s.pairs with
  | [] => []
  | q :: _ => if q.2.kind = .table2 then [] else q.2.located q.1

/-- The segment keeps its chunks in its first pair, under a `table`. -/
def SegmentLayout.FirstTable (s : SegmentLayout) : Prop :=
  s.OnePair ∧ ∀ q, s.pairs.head? = some q → q.2.kind = .table2 → q.2.chunks = []

/-- Every segment does. -/
def Layout.FirstTables (L : Layout) : Prop := ∀ s ∈ L.segments, s.FirstTable

/-- The chunks that the analysis finds in an image. -/
def Layout.analysed (L : Layout) : List Stored :=
  L.segments.flatMap fun s => s.analysed.map (·.2)

/-- The analysis finds the first chunks of a segment, and all of them exactly when they are under
its first table. -/
theorem SegmentLayout.analysed_spec (s : SegmentLayout) :
    s.analysed.map (·.2) <+: s.chunks ∧ (s.analysed.map (·.2) = s.chunks ↔ s.FirstTable) := by
  have hchunks : s.chunks = s.pairs.flatMap (·.2.chunks) := (flatMap_placedPairs 13 s.items).symm
  rw [hchunks, SegmentLayout.analysed, SegmentLayout.FirstTable, SegmentLayout.OnePair]
  cases s.pairs with
  | nil => simp
  | cons q rest =>
      have hsnd : (q.2.located q.1).map (·.2) = q.2.chunks := map_snd_locate _ _
      rw [List.flatMap_cons, List.tail_cons, ← List.flatMap_eq_nil_iff]
      simp only [List.head?_cons, Option.some.injEq, forall_eq']
      by_cases hk : q.2.kind = .table2
      · rw [if_pos hk, List.map_nil]
        refine ⟨List.nil_prefix, ?_⟩
        rw [eq_comm, List.append_eq_nil_iff, and_comm]
        simp [hk]
      · rw [if_neg hk, hsnd]
        refine ⟨List.prefix_append _ _, ?_⟩
        simp [hk]

/-- The analysis finds all chunks exactly when they are all under first tables. -/
theorem Layout.analysed_spec (L : Layout) : L.analysed.length ≤ L.chunks.length ∧
    (L.analysed.length = L.chunks.length ↔ L.FirstTables) ∧
      (L.FirstTables → L.analysed = L.chunks) := by
  obtain ⟨hle, hiff⟩ := length_flatMap_of_prefix fun s (_ : s ∈ L.segments) => s.analysed_spec.1
  rw [← L.chunks_eq, Layout.analysed, Layout.FirstTables]
  refine ⟨hle, hiff.trans (forall₂_congr fun s _ => s.analysed_spec.2), fun h => ?_⟩
  exact List.flatMap_congr fun s hs => s.analysed_spec.2.mpr (h s hs)

section Segments

variable {C : Crates} {L : Layout} {s : SegmentLayout} {num : ℕ} {last : Bool}
  {data : List UInt8}

theorem Layout.Formed.terminalPos_le (h : L.Formed C) (hs : s ∈ L.segments)
    (w : Encoded s num last data) : s.nextField ≤ u64Max := by
  have := h.nextField_le s hs
  have := w.length_eq
  have := w.length_le_u64Max
  omega

/-- The first table and the first sectors section of a segment. -/
theorem Encoded.findSection_pairs (w : Encoded s num last data)
    (hc : Chained num last s.sections data) :
    findSection (walkSectionsV1 data) .table = (s.pairs.findSome? fun q =>
        if q.2.kind = .table2 then none else some (q.2.tablePos q.1,
          (⟨.table, q.2.tableBody q.1⟩ : RawSection))).map sectionOf ∧
      findSection (walkSectionsV1 data) .sectors =
        (s.pairs.findSome? fun q => some (q.2.sectorsPos q.1, q.2.sectors)).map sectionOf := by
  rw [hc.findSection_eq (by decide) (by decide), hc.findSection_eq (by decide) (by decide),
    SegmentLayout.sections, w.plain.find?_items (by decide) Pair.find?_table,
    w.plain.find?_items (by decide) Pair.find?_sectors]
  exact ⟨rfl, rfl⟩

/-- The number of chunks of a pair of an image fits its table header, and each takes room. -/
theorem Layout.Formed.pair_bounds (h : L.Formed C) (hs : s ∈ L.segments) {q : ℕ × Pair}
    (hq : q ∈ s.pairs) : q.2.chunks.length < 4294967296 ∧ ∀ c ∈ q.2.chunks, 0 < c.bytes.length := by
  constructor
  · have hle : q.2.chunks.length ≤ L.chunks.length := by
      rw [← L.chunks_eq, List.length_flatMap]
      refine le_trans ?_ (List.le_sum_of_mem (List.mem_map_of_mem hs))
      rw [SegmentLayout.chunks, ← flatMap_placedPairs 13, List.length_flatMap]
      exact List.le_sum_of_mem (List.mem_map.mpr ⟨q, hq, rfl⟩)
    have := h.chunks_lt
    omega
  · intro c hc
    have hmem := mem_chunks_of_mem_pairs hs hq hc
    have hdata := h.blocks.length_le h.chunkSize_pos c.data (List.mem_map_of_mem hmem)
    exact (h.sound c hmem).complete.bytes_pos hdata.1

/-- **The analysis of a segment** finds the chunks under its first `table`. -/
theorem Layout.Formed.analysedAs (h : L.Formed C) (hs : s ∈ L.segments)
    (w : Encoded s num last data) (hc : Chained num last s.sections data) :
    AnalysedAs data (s.analysed.map (·.2)) := by
  obtain ⟨htable, hsectors⟩ := w.findSection_pairs hc
  rw [SegmentLayout.analysed]
  cases hp : s.pairs with
  | nil =>
      rw [hp] at htable
      exact analysedAs_nil htable
  | cons q rest =>
      have hq : q ∈ s.pairs := hp ▸ List.mem_cons_self ..
      by_cases hk : q.2.kind = .table2
      · -- All tables of the segment are `table2` ones.
        simp only [if_pos hk]
        refine analysedAs_nil ?_
        rw [htable, Option.map_eq_none_iff, List.findSome?_eq_none_iff]
        intro q' hq'
        have hmain := h.tables_eq s hs q hq q' hq'
        rw [hk] at hmain
        rw [if_pos]
        cases hk' : q'.2.kind <;> simp [hk', TableKind.main] at hmain ⊢
      · rw [hp, List.findSome?_cons, if_neg hk] at htable
        rw [hp, List.findSome?_cons] at hsectors
        obtain ⟨hcount, hpos⟩ := h.pair_bounds hs hq
        obtain ⟨hbase, hloc⟩ := h.base_le s hs q hq
        simp only [if_neg hk]
        rw [Pair.located, map_snd_locate]
        exact (w.indexed hq hcount hbase hloc hpos).analysedAs htable hsectors hc.length_lt_u64Max

end Segments

/-! ### The stream of the analyser -/

section Images

variable {C : Crates} {L : Layout} {sources : List Segment}

/-- The segment files of an image are chains. -/
theorem Layout.Formed.chained (h : L.Formed C) {i : ℕ} {s : SegmentLayout} {src : Segment}
    (hs : L.segments[i]? = some s)
    (w : Written s (i + 1) (i + 1 = L.segments.length) src.data) :
    Chained (i + 1) (i + 1 = L.segments.length) s.sections src.data := by
  have hle := h.segments_le
  have hi := (List.getElem?_eq_some_iff.mp hs).1
  exact w.chained (by omega) (h.terminalPos_le (List.mem_of_getElem? hs) w.toEncoded)

/-- The analysis of the segment files, one by one. -/
theorem Layout.Formed.analysed_files (h : L.Formed C) (hfiles : sources.map (·.data) = L.files) :
    List.Forall₂ (fun (src : Segment) cs => AnalysedAs src.data cs) sources
      (L.segments.map fun s => s.analysed.map (·.2)) := by
  have hlen : sources.length = L.segments.length := by
    rw [← (h.written hfiles).length_eq, List.length_zipIdx]
  rw [List.forall₂_map_right_iff, List.forall₂_iff_get]
  refine ⟨hlen, fun i h1 h2 => ?_⟩
  have hs : L.segments[i]? = some L.segments[i] := List.getElem?_eq_getElem h2
  obtain ⟨src, hsrc, w⟩ := h.source hfiles hs
  obtain ⟨hi, rfl⟩ := List.getElem?_eq_some_iff.mp hsrc
  exact h.analysedAs (List.getElem_mem h2) w.toEncoded (h.chained hs w)

/-- The geometry that the analysis works with is that of the image. -/
theorem Layout.Formed.geometry_files (h : L.Formed C)
    (hfiles : sources.map (·.data) = L.files) :
    ∃ geom, analysisGeometry (sources.map (·.data)) = some geom ∧
      geom.chunkCount = L.chunks.length ∧ geom.chunkSize = L.chunkSize ∧
      geom.totalBytes = L.media.length := by
  have hs : L.segments[0]? = some L.first := rfl
  obtain ⟨src, hsrc, w⟩ := h.source hfiles hs
  have hc := h.chained hs w
  have hat : HasAt src.data (L.volumePos + 76) L.volume.body := (w.hasAt_section L.volume_mem).2
  have hbody : 24 ≤ L.volume.body.length := by
    rw [Layout.volume, List.length_append, length_volumeFront]
    exact Nat.le_add_right _ _
  obtain ⟨hspc, hbps, hsc, hmedia, -⟩ := h.bounds
  obtain ⟨hcc, hspc', hbps', hsc', -⟩ := volume_of_hasAt
    (le_trans (le_trans (Nat.le_add_left _ _) hat.length_le) w.length_le_u64Max)
    (hasAt_self L.volume.body).left (Nat.le_of_lt_succ h.chunks_lt) hspc hbps hsc
  have hfind : findVolume (walkSectionsV1 src.data) = some (sectionOf (L.volumePos, L.volume)) := by
    rw [hc.findVolume_eq, h.find?_volume_sections]
    rfl
  have hgeom : analysisGeometry (sources.map (·.data)) = some (geometryOf L.volume.body) := by
    have hcheck := checkVolumeV1_of_hasAt hat hbody hc.length_lt_u64Max
    rw [analysisGeometry_eq, List.head?_map, List.head?_eq_getElem?, hsrc]
    simp only [Option.map_some, Option.bind_some, volumeGeometry, hfind]
    change (checkVolumeV1 src.data L.volumePos (76 + L.volume.body.length)).1 = _
    rw [hcheck]
  refine ⟨_, hgeom, hcc, ?_, ?_⟩
  · have hle : L.chunkSize ≤ 134217728 := h.chunkSize_le
    rw [VolumeGeometry.chunkSize, geometryOf]
    simp only [hspc', hbps']
    exact satMul_eq (show L.chunkSize ≤ u64Max by unfold u64Max; omega)
  · have hsectors : L.sectorCount * L.bytesPerSector = L.media.length := by
      rw [Nat.mul_comm, h.sectors_eq]
    rw [VolumeGeometry.totalBytes, geometryOf]
    simp only [hsc', hbps']
    rw [satMul_eq (by omega), hsectors]

/-- **The stream of the analysis** takes a chunk's room at most for each chunk it finds. If it
finds them all it is the media, and the hash loop reports nothing. -/
theorem Layout.Formed.stream_files (h : L.Formed C) (hfiles : sources.map (·.data) = L.files) :
    ∃ geom, analysisGeometry (sources.map (·.data)) = some geom ∧
      geom.chunkCount = L.chunks.length ∧
      (hashedStream C (sources.map (·.data)) ((sources.map (·.data)).map walkSectionsV1)
        geom).length ≤ L.analysed.length * L.chunkSize ∧
      (L.FirstTables →
        hashedStream C (sources.map (·.data)) ((sources.map (·.data)).map walkSectionsV1) geom =
            L.media ∧
          (hashRun C (sources.map (·.data)) ((sources.map (·.data)).map walkSectionsV1)
            geom).flatMap (·.issues) = []) := by
  obtain ⟨geom, hgeom, hcount, hchunk, htotal⟩ := h.geometry_files hfiles
  have hanalysed := h.analysed_files hfiles
  have hflat : (L.segments.map fun s => s.analysed.map (·.2)).flatten = L.analysed := by
    rw [Layout.analysed, List.flatMap_def]
  have hle : L.chunkSize ≤ 134217728 := h.chunkSize_le
  have hmax : geom.chunkSize + 4 ≤ u64Max := by
    rw [u64Max]
    omega
  refine ⟨geom, hgeom, hcount, ?_, fun hall => ?_⟩
  · rw [hashedStream, hashRun, ← hchunk, ← hflat, ← (names_of_analysed hanalysed).length_eq]
    exact length_hashLoop_fed_le (by omega) _ _ _
  · have hchunks := hflat.trans (L.analysed_spec.2.2 hall)
    have hspec := @hashedStream_of_analysed C _ _ hanalysed geom
    rw [hchunks, hchunk] at hspec
    exact hspec (fun c hc => (h.sound c hc).complete) h.blocks h.chunkSize_pos (hchunk ▸ hmax)
      htotal

/-! ### The stream of the reader -/

/-- **A verification of an image** digests its media. -/
theorem Opened.verify_md5 {r : EwfReader} (ho : Opened L sources r) (h : L.WellFormed C)
    (hfiles : sources.map (·.data) = L.files) {threads : ℕ} {v : VerifyResult}
    (hv : r.verify C threads = .ok v) : v.computedMd5 = C.md5 L.media := by
  cases hs : r.verifyStream C threads with
  | error e =>
      rw [EwfReader.verify, hs] at hv
      cases hv
  | ok stream =>
      rw [EwfReader.verify, hs] at hv
      obtain ⟨pages, hpages, hstream⟩ := r.verifyStream_eq_ok_iff.mp hs
      have hlen : pages.length = L.chunks.length := by
        obtain ⟨chunks, hchunks, hf⟩ := ho.chunks_eq
        rw [hpages.length_eq, hchunks, ← L.map_located, List.length_map]
        exact hf.length_eq.symm
      have hpad : List.Forall₂ (fun b c => ∃ rest, c = b ++ rest ∧ c.length = L.chunkSize)
          (L.chunks.map Stored.data) pages := by
        rw [List.forall₂_map_left_iff, List.forall₂_iff_get]
        refine ⟨hlen.symm, fun j h1 h2 => ?_⟩
        have hpage := hpages.page_eq (List.getElem?_eq_getElem h2)
        have hfull := r.length_page hpage
        rw [ho.chunkSize_eq] at hfull
        have hloc : j < L.located.length := by rwa [← L.map_located, List.length_map] at h1
        have hx : L.located[j]? = some L.located[j] := List.getElem?_eq_getElem hloc
        have hdata : L.chunks[j] = L.located[j].2.2 := by
          have := congrArg (·[j]?) L.map_located
          simp only [List.getElem?_map, hx, List.getElem?_eq_getElem h1, Option.map_some,
            Option.some.injEq] at this
          exact this.symm
        obtain ⟨s, hseg, -, -, -⟩ := Layout.mem_located.mp (List.getElem_mem hloc)
        obtain ⟨page, rest, hpage', hrest⟩ := page_of_located h hfiles ho hx hseg fun hraw => by
          by_contra hshort
          obtain ⟨e, he⟩ := page_of_short h hfiles ho hx hseg hraw (by omega)
          rw [he] at hpage
          cases hpage
        rw [hpage] at hpage'
        obtain rfl := Except.ok.inj hpage'
        rw [List.get_eq_getElem, List.get_eq_getElem, hdata]
        exact ⟨rest, hrest, hfull⟩
      obtain rfl := Except.ok.inj hv
      rw [hstream, ho.totalSize_eq]
      exact congrArg C.md5 (h.blocks.take_flatten_of_padded hpad)

/-! ### The verdict of the analyser -/

/-- Every `hash` section of the last segment starts with the MD5 of the media. -/
def Layout.HashRight (C : Crates) (L : Layout) : Prop :=
  ∀ s, L.segments.getLast? = some s → ∀ a, Item.aux a ∈ s.items → a.type = .hash →
    ∃ rest, a.body = (C.md5 L.media).val ++ rest

/-- The anomaly says that the media or the number of chunks is wrong. -/
def isMediaMismatch : EwfIntegrityAnomaly → Bool
  | .hashMismatch .. | .tableChunkCountMismatch .. => true
  | _ => false

/-- A section outside the pairs is an item of its own. -/
theorem aux_mem_of_type {items : List Item} {pos : ℕ} {a : RawSection}
    (ha : a ∈ itemsSections pos items) (ht : a.type ∉ pairTypes) : Item.aux a ∈ items := by
  induction items generalizing pos with
  | nil => cases ha
  | cons it items ih =>
      rcases List.mem_append.mp ha with ha | ha
      · cases it with
        | aux b =>
            obtain rfl : a = b := List.mem_singleton.mp ha
            exact List.mem_cons_self ..
        | pair p => exact absurd (p.type_mem pos a ha) ht
      · exact List.mem_cons_of_mem _ (ih ha)

/-- **A written image takes the v1 path**, and `compute_hashes` digests the stream of its
analysis. -/
theorem Layout.Formed.v1_files (h : L.Formed C) (hfiles : sources.map (·.data) = L.files) :
    isEwf2 (EwfIntegrity.fromSegments sources).bytes = false ∧
      (EwfIntegrity.fromSegments sources).computeHashes C =
        (analysisStream C (sources.map (·.data))).map C.hashes := by
  have hs : L.segments[0]? = some L.first := rfl
  obtain ⟨src, hsrc, w⟩ := h.source hfiles hs
  have hc := h.chained hs w
  cases sources with
  | nil => cases hsrc
  | cons first rest =>
      obtain rfl : first = src := Option.some.inj hsrc
      exact v1_of_signature hc.fileHeaderSize_le hc.signature

/-- The entries that the analysis counts are those of the chunks it finds. -/
theorem Layout.Formed.totalTableEntries_eq (h : L.Formed C)
    (hfiles : sources.map (·.data) = L.files) :
    totalTableEntries (sources.map (·.data)) = L.analysed.length := by
  have hflat : (L.segments.map fun s => s.analysed.map (·.2)).flatten = L.analysed := by
    rw [Layout.analysed, List.flatMap_def]
  have hle := L.analysed_spec.1
  have hlt := h.chunks_lt
  rw [totalTableEntries_of_analysed (h.analysed_files hfiles) (by rw [hflat]; omega), hflat]

/-- The count of a single segment is that of the volume, if the analysis finds all chunks. -/
theorem Layout.Formed.countsAgree (h : L.Formed C) (hfiles : sources.map (·.data) = L.files)
    (hall : L.FirstTables) : CountsAgree (sources.map (·.data)) := by
  intro data hdata geom hgeom table htable
  obtain ⟨geom', hgeom', hcount, -, -⟩ := h.geometry_files hfiles
  have hsame : geom' = geom := by
    rw [hdata, analysisGeometry_eq, List.head?_cons, Option.bind_some, hgeom] at hgeom'
    exact (Option.some.inj hgeom').symm
  have hf := h.analysed_files hfiles
  obtain ⟨src, rfl, rfl⟩ : ∃ src, sources = [src] ∧ src.data = data := by
    match sources, hdata with
    | [src], hdata => exact ⟨src, rfl, (List.cons.inj hdata).1⟩
  cases hsegs : L.segments with
  | nil =>
      rw [hsegs] at hf
      cases hf
  | cons s rest =>
      rw [hsegs, List.map_cons] at hf
      obtain ⟨ha, hrest⟩ := List.forall₂_cons.mp hf
      obtain rfl : rest = [] := List.map_eq_nil_iff.mp (List.forall₂_nil_left_iff.mp hrest)
      have hchunks := L.analysed_spec.2.2 hall
      rw [Layout.analysed, hsegs, List.flatMap_singleton] at hchunks
      rw [ha.header table htable, hchunks, ← hcount, hsame]

/-- A right stored hash raises no mismatch against the media. -/
theorem Layout.Formed.lacks_storedMd5Issues (h : L.Formed C)
    (hfiles : sources.map (·.data) = L.files) (hright : L.HashRight C) {data : List UInt8}
    (hdata : (sources.map (·.data)).getLast? = some data) :
    Lacks isMediaMismatch (storedMd5Issues (C.md5 L.media) (walkSectionsV1 data) data) := by
  have hlen : sources.length = L.segments.length := by
    rw [← (h.written hfiles).length_eq, List.length_zipIdx]
  obtain ⟨s, hs⟩ : ∃ s, L.segments.getLast? = some s :=
    ⟨_, List.getLast?_eq_some_getLast (by rw [Layout.segments]; exact List.cons_ne_nil _ _)⟩
  obtain ⟨src, hsrc, rfl⟩ : ∃ src, sources.getLast? = some src ∧ src.data = data := by
    rw [List.getLast?_map] at hdata
    exact Option.map_eq_some_iff.mp hdata
  have hs' := hs
  rw [List.getLast?_eq_getElem?] at hs' hsrc
  obtain ⟨src', hsrc', w⟩ := h.source hfiles hs'
  rw [hlen] at hsrc
  obtain rfl : src' = src := Option.some.inj (hsrc'.symm.trans hsrc)
  have hc := h.chained hs' w
  rw [storedMd5Issues, hc.findSection_eq (by decide) (by decide)]
  cases hfind : (placeSections 13 s.sections).find? fun q => decide (q.2.type = .hash) with
  | none => exact lacks_singleton.mpr rfl
  | some q =>
      have hq := List.mem_of_find?_eq_some hfind
      have ht : q.2.type = .hash := by simpa using List.find?_some hfind
      have haux := aux_mem_of_type (mem_of_mem_placeSections hq) (by rw [ht]; decide)
      obtain ⟨rest, hrest⟩ := hright s hs q.2 haux ht
      have hat := (hc.described q hq).2
      rw [hrest] at hat
      have hoff : satAdd q.1 sectionDescriptorSize = q.1 + 76 :=
        @satAdd_eq q.1 76 (by
          have := hat.length_le
          have := hc.length_lt_u64Max
          omega)
      have hstored : Digest.bytesAt? 16 src'.data (q.1 + 76) = some (C.md5 L.media) :=
        (Digest.bytesAt?_eq_some_iff (by decide)).mpr hat.left
      simp only [Option.map_some, sectionOf, hoff, hstored]
      rw [mismatch_eq_nil_iff.mpr fun r hr => Option.some.inj hr]
      exact lacks_nil

/-- **An image whose chunks the analysis finds** raises no mismatch about its media, if its
stored hash is right. -/
theorem Layout.Formed.lacks_analyse (h : L.Formed C) (hfiles : sources.map (·.data) = L.files)
    (hall : L.FirstTables) (hright : L.HashRight C) :
    Lacks isMediaMismatch ((EwfIntegrity.fromSegments sources).analyse C) := by
  have hbytes : (EwfIntegrity.fromSegments sources).bytes = sources.map (·.data) := rfl
  obtain ⟨geom, hgeom, hcount, -, hstream⟩ := h.stream_files hfiles
  obtain ⟨hmedia, hissues⟩ := hstream hall
  have hforeign : ∀ a : EwfIntegrityAnomaly,
      a.isSegmentIssue = true → isMediaMismatch a = false := by
    intro a ha
    cases a <;> first | rfl | cases ha
  have hchunks := (L.analysed_spec.2.1.mpr hall)
  rw [analyse_v1 (h.v1_files hfiles).1, hbytes, analyseAllEwf1_eq, lacks_append,
    lacks_append]
  refine ⟨⟨lacks_scanIssues hforeign _ (Or.inr (h.countsAgree hfiles hall)), ?_⟩, ?_⟩
  · rw [hgeom, h.totalTableEntries_eq hfiles, hchunks, ← hcount, totalCountIssues]
    simp only [ne_eq, not_true_eq_false, and_false, if_false]
    exact lacks_nil
  · obtain ⟨last, hlast⟩ : ∃ last, (sources.map (·.data)).getLast? = some last := by
      have hne := ne_nil_of_geometry hgeom
      exact ⟨_, List.getLast?_eq_some_getLast hne⟩
    have hstored := h.lacks_storedMd5Issues hfiles hright hlast
    have hsha1 : Lacks isMediaMismatch
        (storedSha1Issues (C.sha1 L.media) (walkSectionsV1 last) last) := by
      rw [storedSha1Issues]
      split
      · exact lacks_mismatch fun _ => rfl
      · exact lacks_nil
    rw [hashCheckIssues, hgeom]
    simp only [checkHashAllSegments, hissues, hmedia, List.getLast?_map, hlast, Option.map_some,
      List.nil_append, Crates.hashes, lacks_append, hstored, hsha1, true_and]
    rw [externalIssues, lacks_append, lacks_append]
    exact ⟨⟨lacks_mismatch fun _ => rfl, lacks_mismatch fun _ => rfl⟩,
      lacks_mismatch fun _ => rfl⟩

end Images

/-- **Agreement of reader and analyser** on an image: `compute_hashes` gives the MD5 that `verify`
gave, and if the stored hash is right then `analyse` reports neither a hash mismatch nor a count
mismatch. -/
def SameMedia (C : Crates) (L : Layout) (v : VerifyResult) (self : EwfIntegrity) : Prop :=
  (self.computeHashes C).map (·.md5) = some v.computedMd5 ∧
    (L.HashRight C → Lacks isMediaMismatch (self.analyse C))

/-- **Reader and analyser hash the same media** exactly when every segment keeps its chunks under
its first table and that is a `table`. The image is one that the reader opens and verifies, and
the MD5 tells the media from the stream that the analyser hashes. -/
theorem sameMedia_iff (C : Crates) (L : Layout) (h : L.WellFormed C) (sources : List Segment)
    (hfiles : sources.map (·.data) = L.files) {r : EwfReader}
    (hopen : openFromSources C sources = .ok r) {threads : ℕ} {v : VerifyResult}
    (hv : r.verify C threads = .ok v)
    (hmd5 : ∀ stream, analysisStream C (sources.map (·.data)) = some stream →
      C.md5 stream = C.md5 L.media → stream = L.media) :
    SameMedia C L v (EwfIntegrity.fromSegments sources) ↔ L.FirstTables := by
  obtain ⟨r', hopen', ho⟩ := open_files h (tablesFit_of_open h hfiles hopen) hfiles
  obtain rfl : r' = r := Except.ok.inj (hopen'.symm.trans hopen)
  have hverify := ho.verify_md5 h hfiles hv
  obtain ⟨geom, hgeom, -, hbound, hfound⟩ := h.stream_files hfiles
  have hstream : analysisStream C (sources.map (·.data)) = some (hashedStream C
      (sources.map (·.data)) ((sources.map (·.data)).map walkSectionsV1) geom) := by
    rw [analysisStream, hgeom, Option.map_some]
  constructor
  · rintro ⟨hsame, -⟩
    rw [(h.v1_files hfiles).2, hstream, Option.map_some, Option.map_some, hverify] at hsame
    have heq := hmd5 _ hstream (Option.some.inj hsame)
    obtain ⟨hle, hiff, -⟩ := L.analysed_spec
    rw [← hiff]
    by_contra hne
    -- A missing chunk leaves too little room for the whole media.
    have hlong := (h.blocks.mul_lt_length h.chunkSize_pos L.analysed.length).mpr (by
      rw [List.length_map]
      omega)
    change _ < L.media.length at hlong
    rw [heq] at hbound
    omega
  · intro hall
    refine ⟨?_, h.lacks_analyse hfiles hall⟩
    rw [(h.v1_files hfiles).2, hstream, (hfound hall).1, Option.map_some, Option.map_some,
      hverify]
    rfl

/-- Open an image and verify it. -/
def openAndVerify (C : Crates) (sources : List Segment) : Option (EwfReader × VerifyResult) :=
  (openFromSources C sources).toOption.bind fun r => (r.verify C 1).toOption.map (r, ·)

theorem eq_ok_of_toOption {α ε : Type} {x : Except ε α} {a : α} (h : x.toOption = some a) :
    x = .ok a := by
  cases x with
  | error e => cases h
  | ok b => rw [Option.some.inj h]

theorem openAndVerify_eq_some {C : Crates} {sources : List Segment} {r : EwfReader}
    {v : VerifyResult} (h : openAndVerify C sources = some (r, v)) :
    openFromSources C sources = .ok r ∧ r.verify C 1 = .ok v := by
  obtain ⟨r', hr, hv⟩ := Option.bind_eq_some_iff.mp h
  obtain ⟨v', hv', heq⟩ := Option.map_eq_some_iff.mp hv
  obtain ⟨rfl, rfl⟩ := Prod.mk.inj heq
  exact ⟨eq_ok_of_toOption hr, eq_ok_of_toOption hv'⟩

theorem sameMedia_iff_mixedImage :
    (onePairLayout 3 mixedChunks).WellFormed Crates.reference ∧
      [mixedImage].map (·.data) = (onePairLayout 3 mixedChunks).files ∧
        ∃ r v, openFromSources Crates.reference [mixedImage] = .ok r ∧
          r.verify Crates.reference 1 = .ok v ∧
            (SameMedia Crates.reference (onePairLayout 3 mixedChunks) v
              (EwfIntegrity.fromSegments [mixedImage]) ↔
                (onePairLayout 3 mixedChunks).FirstTables) := by
  have hsome : (openAndVerify Crates.reference [mixedImage]).isSome = true := by decide +kernel
  have hstream : analysisStream Crates.reference [mixedImage.data] =
      some (onePairLayout 3 mixedChunks).media := by decide +kernel
  obtain ⟨⟨r, v⟩, hval⟩ := Option.isSome_iff_exists.mp hsome
  obtain ⟨hopen, hverify⟩ := openAndVerify_eq_some hval
  refine ⟨mixedChunks_wellFormed, rfl, r, v, hopen, hverify, ?_⟩
  exact sameMedia_iff Crates.reference (onePairLayout 3 mixedChunks) mixedChunks_wellFormed
    [mixedImage] rfl hopen hverify fun stream hs _ => Option.some.inj (hs.symm.trans hstream)

/-- The image with two pairs is opened and verified, and `compute_hashes` gives another MD5. -/
theorem twoPairsImage_not_sameMedia :
    twoPairsLayout.WellFormed Crates.reference ∧
      [twoPairsImage].map (·.data) = twoPairsLayout.files ∧
        ∃ r v, openFromSources Crates.reference [twoPairsImage] = .ok r ∧
          r.verify Crates.reference 1 = .ok v ∧
            ¬ SameMedia Crates.reference twoPairsLayout v
              (EwfIntegrity.fromSegments [twoPairsImage]) := by
  have hsome : (openAndVerify Crates.reference [twoPairsImage]).any (fun x => decide
      (((EwfIntegrity.fromSegments [twoPairsImage]).computeHashes Crates.reference).map (·.md5) ≠
        some x.2.computedMd5)) = true := by decide +kernel
  obtain ⟨⟨r, v⟩, hval, hne⟩ := (Option.any_eq_true _ _).mp hsome
  obtain ⟨hopen, hverify⟩ := openAndVerify_eq_some hval
  refine ⟨twoPairsLayout_wellFormed, rfl, r, v, hopen, hverify, ?_⟩
  rintro ⟨hsame, -⟩
  exact of_decide_eq_true hne hsame

end EwfForensic.Image

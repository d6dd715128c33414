import EwfForensic.Forensic.ComputeAgrees
import EwfForensic.Forensic.RecoverRun
import EwfForensic.Forensic.SectionViews

/-!
# Bad Chunks

The analyser and the recovery tool decode the same chunks with code of their own. On an image
whose tables are in order they agree on the bad ones: the chunks that `analyse` reports with a
wrong checksum are those that the recovery flags, and the chunks that do not inflate for
`analyse` are lost to the recovery.

* `SoundTables` — one table of valid ranges, with a `table2` that repeats it, if there is one.
* `SoundTables.map_leadingRanges`, `SoundTables.serves` — both tools find the same ranges.
* `checksumIndices_hashLoop` — the indices that the analyser's running counter gives.
* `bad_chunks_agree` — the two verdicts.
-/

namespace EwfForensic

open Octets Recover

/-! ### The tables of a segment -/

/-- The header of a table section and `n` entries behind it. -/
def tableWindow (data : List UInt8) (s : Section) (n : ℕ) : List UInt8 :=
  (data.drop (s.offset + 76)).take (24 + 4 * n)

/-- A segment with a `sectors` section and a table `t` whose entries all give valid ranges. If
the segment has a `table2`, its header and entries are byte for byte those of the table. -/
structure SoundTables (data : List UInt8) (table sectors : Section) (t : TableRef) : Prop where
  table_eq : findSection (walkSections data) .table = some table
  sectors_eq : findSection (walkSections data) .sectors = some sectors
  ref_eq : tableRef data (walkSections data) .table = some t
  ranges : ∀ i < t.entryCount,
    (chunkRange data t i (sectorsDataEnd (walkSections data) data.length)).isSome
  table2 : ∀ s, findSection (walkSections data) .table2 = some s →
    tableWindow data s t.entryCount = tableWindow data table t.entryCount

section Tables

variable {data : List UInt8} {table sectors : Section} {t : TableRef}

/-- What `table_ref` finds in a table section that the segment has room for. -/
theorem tableRef_of_find (hdata : data.length < u64Max) {name : SectionType} {s : Section}
    (hs : findSection (walkSections data) name = some s) :
    tableRef data (walkSections data) name =
      if s.offset + 100 ≤ data.length then
        some ⟨leU32 data (s.offset + 76), leU64 data (s.offset + 84), s.offset + 100⟩
      else none := by
  have hmem := mem_of_findSection hs
  rw [walkSections_eq_walkSectionsV1] at hmem
  have hoff := offset_le_of_mem_walkSectionsV1 hdata hmem
  have hstart : satAdd s.offset sectionDescriptorSize = s.offset + 76 :=
    @satAdd_eq s.offset 76 (by omega)
  rw [tableRef, hs]
  simp only [hstart]
  by_cases hle : s.offset + 100 ≤ data.length
  · have hend : satAdd (s.offset + 76) tableHeaderSize = s.offset + 76 + 24 :=
      @satAdd_eq (s.offset + 76) 24 (by omega)
    have hslice := slice?_of_le (Nat.le_add_right (s.offset + 76) 24) hle
    have hlen := length_of_slice? hslice
    rw [Nat.add_sub_cancel_left] at hslice hlen
    have hcount : leU32 ((data.drop (s.offset + 76)).take 24) 0 = leU32 data (s.offset + 76) :=
      leAt_window (by omega) hle (by omega)
    have hbase : leU64 ((data.drop (s.offset + 76)).take 24) 8 = leU64 data (s.offset + 84) :=
      leAt_window (by omega) hle (by omega)
    rw [hend, hslice, if_pos hle]
    simp only [TableHeader.parse_of_le (show tableHeaderCrcOffset ≤ _ by rw [hlen]; decide),
      TableHeader.ofBytes, hcount, hbase]
  · have hnone : slice? data (s.offset + 76) (satAdd (s.offset + 76) tableHeaderSize) = none := by
      refine slice?_eq_none_iff.mpr fun _ => ?_
      simp only [satAdd, tableHeaderSize]
      omega
    rw [hnone, if_neg hle]

/-- The two tools read an entry alike. -/
theorem entryAt_eq_map (t : TableRef) (i : ℕ) :
    t.entryAt data i = (entryAt data t.entriesFileOffset i).map fun e =>
      (e.compressed, satAdd t.baseOffset e.chunkOffset) := by
  rw [TableRef.entryAt, entryAt]
  cases hs : slice? data (satAdd t.entriesFileOffset (satMul i 4))
      (satAdd (satAdd t.entriesFileOffset (satMul i 4)) 4) with
  | none => rfl
  | some bytes =>
      simp only
      cases TableEntry.parse bytes <;> rfl

/-- The two tools find the same range for an entry. -/
theorem chunkStep_eq_chunkRange (t : TableRef) (stop i : ℕ) :
    chunkStep data t.entryCount t.baseOffset t.entriesFileOffset stop i =
      chunkRange data t i (some (min stop data.length)) := by
  rw [chunkStep, chunkRange, entryAt_eq_map]
  cases entryAt data t.entriesFileOffset i with
  | none => rfl
  | some e =>
      simp only [Option.map_some, Option.getD_some, entryAt_eq_map, Option.map_map]
      rfl

/-- The table of a segment whose tables are in order. -/
theorem SoundTables.ref (hdata : data.length < u64Max) (h : SoundTables data table sectors t) :
    table.offset + 100 ≤ data.length ∧
      t = ⟨leU32 data (table.offset + 76), leU64 data (table.offset + 84), table.offset + 100⟩ := by
  have href := tableRef_of_find hdata h.table_eq
  rw [h.ref_eq] at href
  split_ifs at href with hle
  exact ⟨hle, Option.some.inj href⟩

/-- The end of the sector data, where the last chunk ends. -/
theorem SoundTables.sectorsEnd_eq (h : SoundTables data table sectors t) :
    sectorsDataEnd (walkSections data) data.length =
      some (min (satAdd sectors.offset sectors.size) data.length) := by
  rw [sectorsDataEnd, h.sectors_eq]
  rfl

/-- The analyser finds every range of the table. -/
theorem SoundTables.map_leadingRanges (hdata : data.length < u64Max)
    (h : SoundTables data table sectors t) :
    (leadingRanges data).map some = (List.range t.entryCount).map fun i =>
      chunkRange data t i (sectorsDataEnd (walkSections data) data.length) := by
  obtain ⟨hle, ht⟩ := h.ref hdata
  have hcount : leU32 data (table.offset + 76) = t.entryCount := by rw [ht]
  have hrange : ∀ i < t.entryCount, describedRange data table sectors i =
      chunkRange data t i (sectorsDataEnd (walkSections data) data.length) := by
    intro i hi
    rw [← chunkStep_eq hdata table sectors (hcount ▸ hi), h.sectorsEnd_eq,
      ← chunkStep_eq_chunkRange, ht]
  have hsame : (List.range t.entryCount).map (describedRange data table sectors) =
      (List.range t.entryCount).map fun i =>
        chunkRange data t i (sectorsDataEnd (walkSections data) data.length) :=
    List.map_congr_left fun i hi => hrange i (List.mem_range.mp hi)
  rw [leadingRanges, ← walkSections_eq_walkSectionsV1, h.table_eq, h.sectors_eq]
  simp only
  rw [if_pos hle, hcount, hsame, Loop.map_some_reduceOption_takeWhile]
  intro x hx
  obtain ⟨i, hi, rfl⟩ := List.mem_map.mp hx
  exact h.ranges i (List.mem_range.mp hi)

/-- A range of the analyser is the range of the same index in the table. -/
theorem SoundTables.chunkRange_of_leadingRanges (hdata : data.length < u64Max)
    (h : SoundTables data table sectors t) {i : ℕ} {c : ChunkRange}
    (hc : (leadingRanges data)[i]? = some c) :
    i < t.entryCount ∧
      chunkRange data t i (sectorsDataEnd (walkSections data) data.length) = some c := by
  have hsome := congrArg (fun xs => xs[i]?) (h.map_leadingRanges hdata)
  simp only [List.getElem?_map, hc, Option.map_some] at hsome
  obtain ⟨j, hj, hrange⟩ := Option.map_eq_some_iff.mp hsome.symm
  obtain ⟨hlt, heq⟩ := List.getElem?_eq_some_iff.mp hj
  rw [List.length_range] at hlt
  rw [List.getElem_range] at heq
  exact ⟨hlt, heq ▸ hrange⟩

theorem SoundTables.length_leadingRanges (hdata : data.length < u64Max)
    (h : SoundTables data table sectors t) : (leadingRanges data).length = t.entryCount := by
  have := congrArg List.length (h.map_leadingRanges hdata)
  simpa using this

/-- The entries of the table lie in the segment. -/
theorem SoundTables.room (hdata : data.length < u64Max) (h : SoundTables data table sectors t) :
    table.offset + 100 + 4 * t.entryCount ≤ data.length := by
  obtain ⟨hle, ht⟩ := h.ref hdata
  by_cases h0 : t.entryCount = 0
  · omega
  · -- The last entry has a range, so it was read.
    obtain ⟨c, hc⟩ := Option.isSome_iff_exists.mp (h.ranges (t.entryCount - 1) (by omega))
    by_contra hshort
    have hnone : entryAt data t.entriesFileOffset (t.entryCount - 1) = none := by
      rw [ht, entryAt_eq hdata, tableEntry, if_neg]
      rw [ht] at h0 hshort
      simp only at h0 hshort ⊢
      omega
    rw [chunkRange, entryAt_eq_map, hnone] at hc
    cases hc

/-- **`table2` repeats the table.** Whatever the recovery finds through it is what it finds
through the table. -/
theorem SoundTables.fallback (hdata : data.length < u64Max) (h : SoundTables data table sectors t)
    {i : ℕ} (hi : i < t.entryCount) {t2 : TableRef}
    (ht2 : tableRef data (walkSections data) .table2 = some t2) (stop : Option ℕ) :
    chunkRange data t2 i stop = chunkRange data t i stop := by
  obtain ⟨hle, ht⟩ := h.ref hdata
  have hroom := h.room hdata
  have hlt := leU32_lt data (table.offset + 76)
  cases hs : findSection (walkSections data) .table2 with
  | none =>
      rw [tableRef, hs] at ht2
      cases ht2
  | some s =>
      rw [tableRef_of_find hdata hs] at ht2
      split_ifs at ht2 with hle2
      obtain rfl := Option.some.inj ht2
      have hwindow := h.table2 s hs
      have hroom2 : s.offset + 76 + (24 + 4 * t.entryCount) ≤ data.length := by
        have hlen := congrArg List.length hwindow
        simp only [tableWindow, List.length_take, List.length_drop] at hlen
        omega
      -- A field of the one is the field at the same place of the other.
      have hfield : ∀ w off, off + w ≤ 24 + 4 * t.entryCount →
          leAt w data (s.offset + 76 + off) = leAt w data (table.offset + 76 + off) := by
        intro w off hoff
        have h1 := @leAt_window data (s.offset + 76) _ w off (by omega) hroom2 hoff
        have h2 := @leAt_window data (table.offset + 76) _ w off (by omega) (by omega) hoff
        rw [← h1, ← h2]
        exact congrArg (fun xs => leAt w xs off) hwindow
      have hcount : leU32 data (s.offset + 76) = t.entryCount := by
        rw [ht]
        exact hfield 4 0 (by omega)
      have hbase : leU64 data (s.offset + 84) = t.baseOffset := by
        rw [ht]
        exact hfield 8 8 (by omega)
      have hentry : ∀ j < t.entryCount, entryAt data (s.offset + 100) j =
          entryAt data t.entriesFileOffset j := by
        intro j hj
        have hvalue := hfield 4 (24 + 4 * j) (by omega)
        rw [← Nat.add_assoc, ← Nat.add_assoc] at hvalue
        rw [ht, entryAt_eq hdata, entryAt_eq hdata, tableEntry, tableEntry, if_pos (by omega),
          if_pos (by omega)]
        exact congrArg (fun v => some (TableEntry.ofNat v)) hvalue
      have hsame : ∀ j < t.entryCount,
          (TableRef.mk t.entryCount t.baseOffset (s.offset + 100)).entryAt data j =
            t.entryAt data j := by
        intro j hj
        rw [entryAt_eq_map, entryAt_eq_map, ← hentry j hj]
      rw [hcount, hbase, chunkRange, chunkRange, hsame i hi]
      by_cases hnext : satAdd i 1 < t.entryCount
      · simp only [if_pos hnext, hsame _ hnext]
      · simp only [if_neg hnext]

/-- A segment whose tables are in order serves the chunks that the analyser finds in it. -/
theorem SoundTables.serves (C : Crates) (chunkSize : ℕ) (hdata : data.length < u64Max)
    (h : SoundTables data table sectors t) :
    Serves C chunkSize (SegmentTables.ofBytes data)
      ((leadingRanges data).map fun c => decodeChunk C (c.raw data) c.compressed chunkSize) := by
  have hprimary : (SegmentTables.ofBytes data).primary = some t := h.ref_eq
  constructor
  · rw [SegmentTables.entryCount, hprimary, List.length_map, h.length_leadingRanges hdata]
    rfl
  · intro i x hx
    rw [List.getElem?_map] at hx
    obtain ⟨c, hc, rfl⟩ := Option.map_eq_some_iff.mp hx
    obtain ⟨hi, hrange⟩ := h.chunkRange_of_leadingRanges hdata hc
    have hdecode : ∀ t', chunkRange data t' i (sectorsDataEnd (walkSections data) data.length) =
        some c → (SegmentTables.ofBytes data).decodeFrom C (some t') chunkSize i =
          decodeChunk C (c.raw data) c.compressed chunkSize := by
      intro t' ht'
      rw [SegmentTables.decodeFrom, Option.bind_some]
      exact congrArg (fun o => Option.bind o _) ht'
    rw [SegmentTables.decode, hprimary, hdecode t hrange]
    refine map_result_chooseDecoded ?_
    cases ht2 : (SegmentTables.ofBytes data).fallback with
    | none => exact Or.inl rfl
    | some t2 =>
        refine Or.inr (Or.inl (hdecode t2 ?_))
        rw [h.fallback hdata hi ht2]
        exact hrange

end Tables

/-! ### One geometry -/

/-- Two geometries that both tools accept are read from one volume body. -/
theorem geometry_eq {data : List UInt8} {geom : Geometry} {g : VolumeGeometry}
    (hr : readGeometry data (walkSections data) = some geom) (ha : volumeGeometry data = some g) :
    geom.chunkSize = g.chunkSize ∧ geom.imageSize = g.totalBytes := by
  obtain ⟨vol, hvol, hcheck⟩ := Option.bind_eq_some_iff.mp ha
  rw [readGeometry, walkSections_eq_walkSectionsV1, hvol] at hr
  simp only at hr
  split at hr
  · cases hr
  · next body hslice =>
      have hbody : volumeBody data vol.offset vol.size = body :=
        (slice?_eq_some_iff.mp hslice).2.2.symm
      rw [checkVolumeV1] at hcheck
      simp only [hbody] at hcheck
      split_ifs at hcheck with hlt
      cases hparse : EwfVolume.parse body with
      | error e =>
          rw [hparse] at hr
          cases hr
      | ok parsed =>
          rw [hparse] at hr hcheck
          simp only at hr hcheck
          split_ifs at hr with hzero
          obtain rfl := Option.some.inj hr
          obtain rfl := Option.some.inj hcheck
          exact ⟨rfl, rfl⟩

/-! ### The anomalies of single chunks -/

/-- An anomaly of one chunk of a v1 image. -/
def EwfIntegrityAnomaly.isChunkIssue : EwfIntegrityAnomaly → Bool
  | .chunkChecksumMismatch .. | .chunkDecompressionError .. => true
  | _ => false

/-- The chunk that is reported with a wrong checksum. -/
def EwfIntegrityAnomaly.checksumIndex : EwfIntegrityAnomaly → Option ℕ
  | .chunkChecksumMismatch i _ _ => some i
  | _ => none

/-- The chunk that is reported not to inflate. -/
def EwfIntegrityAnomaly.inflateIndex : EwfIntegrityAnomaly → Option ℕ
  | .chunkDecompressionError i => some i
  | _ => none

/-- The chunk loop is the only source of anomalies of single chunks. -/
theorem filterMap_analyse {C : Crates} {self : EwfIntegrity} {g : VolumeGeometry} {β : Type}
    {f : EwfIntegrityAnomaly → Option β} (hf : ∀ a, a.isChunkIssue = false → f a = none)
    (hv1 : isEwf2 self.bytes = false) (hgeom : analysisGeometry self.bytes = some g) :
    (self.analyse C).filterMap f =
      ((hashRun C self.bytes (self.bytes.map walkSectionsV1) g).flatMap
        (·.issues)).filterMap f := by
  have hnil : ∀ issues, Lacks EwfIntegrityAnomaly.isChunkIssue issues → issues.filterMap f = [] :=
    fun issues h => List.filterMap_eq_nil_iff.mpr fun a ha => hf a (h a ha)
  have hscan := hnil _ (@lacks_scanIssues EwfIntegrityAnomaly.isChunkIssue
    (fun a ha => by cases a <;> first | rfl | cases ha) self.bytes (Or.inl fun _ _ => rfl))
  have htotal := hnil (totalCountIssues self.bytes.length (some g) (totalTableEntries self.bytes))
    (lacks_ite (lacks_singleton.mpr rfl) lacks_nil)
  rw [analyse_v1 hv1, analyseAllEwf1_eq, hashCheckIssues, hgeom]
  simp only [checkHashAllSegments, List.filterMap_append, hscan, htotal, List.nil_append]
  refine (congrArg _ (hnil _ ?_)).trans (List.append_nil _)
  split
  · exact lacks_digestIssues (fun a ha => by cases a <;> first | rfl | cases ha) rfl _ _ _ _
  · exact lacks_nil

/-! ### The chunk loop of the analysis -/

section Loop

variable {C : Crates} {chunkSize total : ℕ}

/-- What the recovery's decoder makes of a chunk that the analyser visits. -/
def recoveredAs (C : Crates) (chunkSize : ℕ) (p : List UInt8 × ChunkRange) :
    Option (List UInt8 × Bool) :=
  decodeChunk C (p.2.raw p.1) p.2.compressed chunkSize

/-- The two checksum tests are the same. -/
theorem checksumIndices_chunkCrcIssues (hcs : chunkSize ≤ Recover.maxChunkSize) (idx : ℕ)
    (p : List UInt8 × ChunkRange) :
    (chunkCrcIssues chunkSize idx p.2.compressed (p.2.raw p.1)).filterMap
        EwfIntegrityAnomaly.checksumIndex =
      if (recoveredAs C chunkSize p).any fun d => ¬ d.2 then [idx] else [] := by
  have hsat : satAdd chunkSize 4 = chunkSize + 4 := by
    refine satAdd_eq ?_
    rw [Recover.maxChunkSize] at hcs
    rw [u64Max]
    omega
  rw [recoveredAs, chunkCrcIssues, decodeChunk, hsat]
  cases hc : p.2.compressed with
  | true =>
      rw [if_neg (by simp), if_pos rfl]
      cases C.zlib.readUpTo (satAdd chunkSize 1) (p.2.raw p.1) with
      | none => rfl
      | some out =>
          cases hempty : out.isEmpty <;> simp [hempty]
  | false =>
      simp only [Bool.false_eq_true, if_false, not_false_eq_true, true_and, Option.any_some]
      by_cases hlen : (p.2.raw p.1).length ≥ chunkSize + 4
      · have hfield : leU32 (p.2.raw p.1) chunkSize =
            ofLE (((p.2.raw p.1).drop chunkSize).take 4) := by
          rw [leU32, leAt, hsat, slice?_of_le (Nat.le_add_right _ _) hlen, Nat.add_sub_cancel_left]
        rw [if_pos ⟨by omega, hlen⟩, hfield]
        simp only [if_pos hlen]
        by_cases hsum : adler32 ((p.2.raw p.1).take chunkSize) =
            ofLE (((p.2.raw p.1).drop chunkSize).take 4)
        · simp [hsum]
        · simp [hsum, EwfIntegrityAnomaly.checksumIndex]
      · rw [if_neg fun h => hlen h.2]
        simp [hlen]

/-- A chunk whose stream the analyser cannot inflate is lost to the recovery, which asks the
stream for at least as many bytes. -/
theorem recoveredAs_eq_none (hz : C.zlib.ErrorsPersist) {toHash : ℕ} (hle : toHash ≤ chunkSize)
    {p : List UInt8 × ChunkRange}
    (h : decodeForHash C p.2.compressed (p.2.raw p.1) toHash = none) :
    recoveredAs C chunkSize p = none := by
  rw [decodeForHash] at h
  split_ifs at h with hc
  have hshort := Option.map_eq_none_iff.mp h
  have hlimit : satAdd toHash 1 ≤ satAdd chunkSize 1 := by
    simp only [satAdd]
    omega
  rw [recoveredAs, decodeChunk, if_pos hc, hz _ _ _ hlimit hshort]

/-- One turn of the chunk loop reports a wrong checksum where the recovery sees one. -/
theorem checksumIndices_hashChunk (hcs : chunkSize ≤ Recover.maxChunkSize) (remaining idx : ℕ)
    (p : List UInt8 × ChunkRange) :
    (hashChunk C chunkSize total remaining idx p.1 p.2).issues.filterMap
        EwfIntegrityAnomaly.checksumIndex =
      if (recoveredAs C chunkSize p).any fun d => ¬ d.2 then [idx] else [] := by
  have hcrc := @checksumIndices_chunkCrcIssues C _ hcs idx p
  rw [hashChunk]
  split
  · rw [List.filterMap_append, hcrc]
    exact List.append_nil _
  · exact hcrc

/-- **The reported checksums.** The running counter of the analyser gives the wrong checksums the
indices of their chunks among all that the image size asks for. -/
theorem checksumIndices_hashLoop (hcs : chunkSize ≤ Recover.maxChunkSize) (hpos : 0 < chunkSize)
    (htotal : total ≤ u64Max) (chunks : List (List UInt8 × ChunkRange)) {idx n : ℕ}
    (hn : ∀ i, i < idx + n ↔ i < idx ∨ i * chunkSize < total) :
    ((hashLoop C chunkSize total (total - idx * chunkSize) idx chunks).flatMap
        (·.issues)).filterMap EwfIntegrityAnomaly.checksumIndex =
      (List.range' idx n).filter fun i =>
        ((chunks[i - idx]?).bind (recoveredAs C chunkSize)).any fun d => ¬ d.2 := by
  induction chunks generalizing idx n with
  | nil => simp [hashLoop]
  | cons p chunks ih =>
      rw [hashLoop]
      have hhere := hn idx
      by_cases h0 : total - idx * chunkSize = 0
      · rw [if_pos h0, show n = 0 by omega]
        rfl
      · obtain ⟨n, rfl⟩ : ∃ m, n = m + 1 := ⟨n - 1, by omega⟩
        have hle : idx ≤ idx * chunkSize := Nat.le_mul_of_pos_right _ hpos
        have hidx : satAdd idx 1 = idx + 1 := satAdd_eq (by omega)
        have hnext : total - idx * chunkSize - min (total - idx * chunkSize) chunkSize =
            total - (idx + 1) * chunkSize := by
          rw [Nat.succ_mul]
          omega
        rw [if_neg h0, List.flatMap_cons, List.filterMap_append,
          checksumIndices_hashChunk hcs, hidx, hnext, ih (n := n) fun i => ?_]
        · rw [List.range'_succ, List.filter_cons, Nat.sub_self, List.getElem?_cons_zero,
            Option.bind_some]
          have htail : ((List.range' (idx + 1) n).filter fun i =>
              ((chunks[i - (idx + 1)]?).bind (recoveredAs C chunkSize)).any fun d => ¬ d.2) =
              (List.range' (idx + 1) n).filter fun i =>
                (((p :: chunks)[i - idx]?).bind (recoveredAs C chunkSize)).any fun d => ¬ d.2 := by
            refine List.filter_congr fun i hi => ?_
            have hi := (List.mem_range'_1.mp hi).1
            rw [show i - idx = i - (idx + 1) + 1 by omega, List.getElem?_cons_succ]
          rw [htail]
          split_ifs <;> rfl
        · have := hn i
          omega

/-- **The reported streams.** A chunk that is reported not to inflate is asked for by the image
size, and the recovery cannot decode it. -/
theorem mem_inflateIndices_hashLoop (hz : C.zlib.ErrorsPersist) (hpos : 0 < chunkSize)
    (htotal : total ≤ u64Max) {chunks : List (List UInt8 × ChunkRange)} {idx i : ℕ}
    (hi : i ∈ ((hashLoop C chunkSize total (total - idx * chunkSize) idx chunks).flatMap
      (·.issues)).filterMap EwfIntegrityAnomaly.inflateIndex) :
    idx ≤ i ∧ i * chunkSize < total ∧
      (chunks[i - idx]?).bind (recoveredAs C chunkSize) = none := by
  induction chunks generalizing idx with
  | nil => simp [hashLoop] at hi
  | cons p chunks ih =>
      rw [hashLoop] at hi
      by_cases h0 : total - idx * chunkSize = 0
      · rw [if_pos h0] at hi
        cases hi
      · have hle : idx ≤ idx * chunkSize := Nat.le_mul_of_pos_right _ hpos
        have hidx : satAdd idx 1 = idx + 1 := satAdd_eq (by omega)
        have hnext : total - idx * chunkSize - min (total - idx * chunkSize) chunkSize =
            total - (idx + 1) * chunkSize := by
          rw [Nat.succ_mul]
          omega
        rw [if_neg h0, List.flatMap_cons, List.filterMap_append, hidx, hnext,
          List.mem_append] at hi
        rcases hi with hi | hi
        · have hcrc : (chunkCrcIssues chunkSize idx p.2.compressed (p.2.raw p.1)).filterMap
              EwfIntegrityAnomaly.inflateIndex = [] := by
            rw [chunkCrcIssues]
            split_ifs <;> rfl
          rw [hashChunk] at hi
          split at hi
          · next hdecode =>
              rw [List.filterMap_append, hcrc] at hi
              obtain rfl : i = idx := List.mem_singleton.mp hi
              refine ⟨le_rfl, by omega, ?_⟩
              rw [Nat.sub_self, List.getElem?_cons_zero, Option.bind_some]
              exact recoveredAs_eq_none hz (Nat.min_le_right _ _) hdecode
          · rw [hcrc] at hi
            cases hi
        · obtain ⟨h1, h2, h3⟩ := ih hi
          refine ⟨by omega, h2, ?_⟩
          rwa [show i - idx = i - (idx + 1) + 1 by omega, List.getElem?_cons_succ]

end Loop

/-! ### The two verdicts -/

/-- A recovery starts from the geometry of a first segment with the signature of a physical
image. -/
theorem bootstrap_eq_ok {segments : List (List UInt8)} {geom : Geometry}
    (h : bootstrap segments = .ok geom) :
    ∃ first rest, segments = first :: rest ∧ first.take 8 = evfSignature ∧
      readGeometry first (walkSections first) = some geom := by
  cases segments with
  | nil => cases h
  | cons first rest =>
      refine ⟨first, rest, rfl, ?_⟩
      rw [bootstrap, List.headD_cons] at h
      split_ifs at h with hshort
      push Not at hshort
      cases hr : readGeometry first (walkSections first) with
      | none =>
          rw [hr] at h
          cases h
      | some geom' =>
          rw [hr] at h
          simp only at h
          split_ifs at h
          obtain rfl := Except.ok.inj h
          exact ⟨hshort.2, rfl⟩

/-- The recovery decodes a chunk as its decoder does the range that the analyser finds. -/
theorem decodeGlobal_of_sound (C : Crates) (chunkSize : ℕ) {segments : List (List UInt8)}
    (hlen : ∀ data ∈ segments, data.length < u64Max)
    (htables : ∀ data ∈ segments, ∃ table sectors t, SoundTables data table sectors t) {i : ℕ}
    (hi : i < u64Max) :
    (decodeGlobal C (segments.map SegmentTables.ofBytes) chunkSize i).map Decoded.result =
      ((imageRanges segments)[i]?).bind (recoveredAs C chunkSize) := by
  have hserves : List.Forall₂ (Serves C chunkSize) (segments.map SegmentTables.ofBytes)
      (segments.map fun data => (leadingRanges data).map fun c =>
        decodeChunk C (c.raw data) c.compressed chunkSize) := by
    rw [List.forall₂_map_left_iff, List.forall₂_map_right_iff, List.forall₂_same]
    intro data hdata
    obtain ⟨table, sectors, t, h⟩ := htables data hdata
    exact h.serves C chunkSize (hlen data hdata)
  have hflat : (segments.map fun data => (leadingRanges data).map fun c =>
      decodeChunk C (c.raw data) c.compressed chunkSize).flatten =
      (imageRanges segments).map (recoveredAs C chunkSize) := by
    rw [imageRanges, List.map_flatMap, ← List.flatMap_def]
    simp only [List.map_map]
    rfl
  rw [decodeGlobal_of_serves hserves fun _ => hi, hflat, List.getElem?_map]
  cases (imageRanges segments)[i]? <;> rfl

/-- **Both tools find the same bad chunks.** The indices that `analyse` reports with a wrong
checksum are the flagged chunks of the recovery, in the same order, and every chunk that
`analyse` reports not to inflate is lost to the recovery. -/
theorem bad_chunks_agree (C : Crates) (self : EwfIntegrity) (g : VolumeGeometry)
    (report : RecoveryReport) (out : List UInt8) (hz : C.zlib.ErrorsPersist)
    (hrec : recoverToFile C self.bytes = some (report, out))
    (hgeom : analysisGeometry self.bytes = some g)
    (hcover : report.imageSize ≤ report.chunksTotal * report.chunkSize)
    (htables : ∀ data ∈ self.bytes, ∃ table sectors t, SoundTables data table sectors t) :
    (self.analyse C).filterMap EwfIntegrityAnomaly.checksumIndex = report.crcFlaggedChunks ∧
      ∀ i ∈ (self.analyse C).filterMap EwfIntegrityAnomaly.inflateIndex,
        i ∈ report.lostChunks := by
  have hlen : ∀ data ∈ self.bytes, data.length < u64Max := by
    intro data hdata
    obtain ⟨s, -, rfl⟩ := List.mem_map.mp hdata
    exact s.length_lt_u64Max
  obtain ⟨geom, hb, -, -, rfl⟩ := recoverToFile_ok hrec
  obtain ⟨hpos, hmax, -⟩ := bootstrap_ok hb
  obtain ⟨first, rest, hsegs, hsig, hread⟩ := bootstrap_eq_ok hb
  have hv1 : isEwf2 self.bytes = false := by
    rw [hsegs]
    exact isEwf2_of_signature (Or.inl hsig)
  have hvol : volumeGeometry first = some g := by
    rw [analysisGeometry_eq, hsegs] at hgeom
    exact hgeom
  obtain ⟨hcs, htotal⟩ := geometry_eq hread hvol
  have hsize := geom.imageSize_le
  have hlt : ∀ i, i < geom.chunksNeeded ↔ i * geom.chunkSize < geom.imageSize := fun i =>
    Geometry.lt_chunksNeeded hpos
  -- The image size asks for declared chunks only.
  have hneeded : geom.chunksNeeded ≤ geom.chunkCount := by
    by_contra hgt
    have := (hlt geom.chunkCount).mp (not_le.mp hgt)
    simp only [reportOf] at hcover
    omega
  have hloop : hashRun C self.bytes (self.bytes.map walkSectionsV1) g =
      hashLoop C geom.chunkSize geom.imageSize (geom.imageSize - 0 * geom.chunkSize) 0
        (imageRanges self.bytes) := by
    rw [hashRun, allChunks_eq hlen, hcs, htotal, Nat.zero_mul, Nat.sub_zero]
  have houtcome : ∀ i < geom.chunksNeeded,
      (outcomeAt C (self.bytes.map SegmentTables.ofBytes) geom i).decoded.map Decoded.result =
        ((imageRanges self.bytes)[i]?).bind (recoveredAs C geom.chunkSize) := by
    intro i hi
    have hmul := Nat.le_mul_of_pos_right i hpos
    have := (hlt i).mp hi
    rw [outcomeAt, if_pos (by omega)]
    exact decodeGlobal_of_sound C _ hlen htables (by omega)
  simp only [reportOf, recoverRun_eq_map C self.bytes hpos, filter_map_outcomeAt,
    min_eq_right hneeded]
  constructor
  · rw [filterMap_analyse (fun a ha => by cases a <;> first | rfl | cases ha) hv1 hgeom, hloop,
      checksumIndices_hashLoop hmax hpos hsize _ (n := geom.chunksNeeded) fun i => by
        rw [Nat.zero_add, hlt i]
        simp]
    refine List.filter_congr fun i hi => ?_
    rw [RecoveredChunk.isFlagged, Nat.sub_zero,
      ← houtcome i (by simpa using (List.mem_range'_1.mp hi).2), Option.any_map]
    rfl
  · intro i hi
    rw [filterMap_analyse (fun a ha => by cases a <;> first | rfl | cases ha) hv1 hgeom,
      hloop] at hi
    obtain ⟨-, hsmall, hnone⟩ := mem_inflateIndices_hashLoop hz hpos hsize hi
    have hin := (hlt i).mpr hsmall
    rw [Nat.sub_zero, ← houtcome i hin, Option.map_eq_none_iff] at hnone
    rw [List.mem_filter]
    refine ⟨List.mem_range'_1.mpr ⟨Nat.zero_le _, by omega⟩, ?_⟩
    rw [RecoveredChunk.isLost, hnone]
    rfl

/-- An image of one raw sector with four zero bytes for its checksum. -/
def badSumImage : Segment :=
  ⟨Image.oneChunkBytes 1 363 (List.replicate 512 7 ++ [0, 0, 0, 0])
    (Digest.md5 (List.replicate 512 7)).1, by decide +kernel⟩

theorem bad_chunks_agree_badSumImage :
    ∃ report out,
      recoverToFile Crates.reference (EwfIntegrity.fromSegments [badSumImage]).bytes =
        some (report, out) ∧ report.crcFlaggedChunks = [0] ∧
      ((EwfIntegrity.fromSegments [badSumImage]).analyse Crates.reference).filterMap
          EwfIntegrityAnomaly.checksumIndex = report.crcFlaggedChunks ∧
      ∀ i ∈ ((EwfIntegrity.fromSegments [badSumImage]).analyse Crates.reference).filterMap
          EwfIntegrityAnomaly.inflateIndex, i ∈ report.lostChunks := by
  have hreport : (recoverToFile Crates.reference
      (EwfIntegrity.fromSegments [badSumImage]).bytes).map (fun r =>
        (r.1.crcFlaggedChunks, r.1.imageSize, r.1.chunksTotal, r.1.chunkSize)) =
      some ([0], 512, 1, 512) := by decide +kernel
  obtain ⟨⟨report, out⟩, hrec, hfields⟩ := Option.map_eq_some_iff.mp hreport
  simp only [Prod.mk.injEq] at hfields
  obtain ⟨hflagged, hsize, hcount, hcs⟩ := hfields
  have hgeom : (analysisGeometry (EwfIntegrity.fromSegments [badSumImage]).bytes).isSome := by
    decide +kernel
  obtain ⟨g, hg⟩ := Option.isSome_iff_exists.mp hgeom
  have hnone : findSection (walkSections badSumImage.data) .table2 = none := by decide +kernel
  have htables : SoundTables badSumImage.data ⟨.table, 183, 104⟩ ⟨.sectors, 287, 592⟩
      ⟨1, 0, 283⟩ := by
    refine ⟨by decide +kernel, by decide +kernel, by decide +kernel, by decide +kernel, ?_⟩
    intro s hs
    rw [hnone] at hs
    cases hs
  have hagree := bad_chunks_agree Crates.reference (EwfIntegrity.fromSegments [badSumImage]) g
    report out Zlib.stored_errorsPersist hrec hg (by rw [hsize, hcount, hcs]) fun data hdata => by
      obtain rfl := List.mem_singleton.mp hdata
      exact ⟨_, _, _, htables⟩
  exact ⟨report, out, hrec, hflagged, hagree⟩

end EwfForensic

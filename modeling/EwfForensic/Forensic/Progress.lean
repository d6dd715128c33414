import EwfForensic.Forensic.WithProgress
import EwfForensic.Lib.Ledger
import EwfForensic.Image.EncodeV2

/-!
# What Progress Reports Count

The callback of `analyse_with_progress` hears of each chunk that decodes: how many chunks are done,
and how many bytes of sector data. The v1 loop takes the bytes from what is left of the media, the
v2 loop from the chunk's index and its size on disk.

* `EwfIntegrity.progressGroups` — the turns of the loops, `analyseWithProgress_reports` — they are
  all that the callback hears.
* `chunks_forward`, `chunks_complete` — the chunks are counted one by one, and to the end.
* `countsBytes_v1_iff` — the v1 bytes are those hashed exactly when every chunk up to the last
  reported one delivers its span.
* `countsBytes_of_steady` — the v2 bytes are those hashed when one segment alone has chunks that
  decode, all stored in one size and decoded to it.
* `progress_honest` — so the reports are honest under these conditions.
-/

namespace EwfForensic

open Octets

/-! ### Turns -/

/-- A turn of either loop: the bytes that the loop takes the chunk for, those that it feeds to the
hashers, and what it reports. -/
structure ProgressTurn where
  span : ℕ
  processed : ℕ
  reports : List AnalysisProgress
  deriving DecidableEq

/-- The turns of the v1 loop, over all segments: a chunk is taken for what is left of the media, or
a whole chunk of it. -/
def hashTurns (C : Crates) (segments : List (List UInt8)) (allSections : List (List Section))
    (geom : VolumeGeometry) : List ProgressTurn :=
  (hashRun C segments allSections geom).zipIdx.map fun p =>
    ⟨min (geom.totalBytes - p.2 * geom.chunkSize) geom.chunkSize, p.1.fed.length, p.1.progress⟩

/-- The turns of a v1 analysis. -/
def progressTurnsV1 (C : Crates) (segments : List (List UInt8)) : List ProgressTurn :=
  let st := segments.zipIdx.foldl (progressSegment segments.length) {}
  match st.geometry with
  | some geom => hashTurns C segments st.allSections geom
  | none => []

/-- The turns of a v2 analysis in one segment: a chunk is taken for its size on disk. -/
def progressTurnsV2 (C : Crates) (data : List UInt8) : List ProgressTurn :=
  match usedChunkTable data with
  | some tbl => (verifyRun C data tbl).zipIdx.map fun p =>
      ⟨((ewf2EntryAt tbl p.2).map Ewf2Entry.rawSize).getD 0, (p.1.decoded.getD []).length,
        p.1.progress⟩
  | none => []

/-- The turns of an analysis: those of each v2 segment, or those of the one loop over all v1
segments. -/
def EwfIntegrity.progressGroups (C : Crates) (self : EwfIntegrity) : List (List ProgressTurn) :=
  if isEwf2 self.bytes then self.bytes.map (progressTurnsV2 C) else [progressTurnsV1 C self.bytes]

/-- The reports of some turns. -/
def progressReports (turns : List ProgressTurn) : List AnalysisProgress :=
  turns.flatMap ProgressTurn.reports

theorem reports_zipIdx {τ : Type} (f : τ × ℕ → ProgressTurn) (progress : τ → List AnalysisProgress)
    (hf : ∀ p, (f p).reports = progress p.1) (run : List τ) (i : ℕ) :
    progressReports ((run.zipIdx i).map f) = run.flatMap progress := by
  induction run generalizing i with
  | nil => rfl
  | cons t run ih =>
      rw [List.zipIdx_cons, List.map_cons, progressReports, List.flatMap_cons, List.flatMap_cons,
        hf]
      exact congrArg _ (ih (i + 1))

/-- The progress over a chunk table. -/
theorem verifyEwf2SectorData_reports (C : Crates) (data : List UInt8) (range : ℕ × ℕ)
    (stored : ExpectedHashes) :
    (verifyEwf2SectorData C data range.1 range.2 stored).2.2 =
      match slice? data range.1 range.2 with
      | none => []
      | some tbl => if tbl.length < evf2ChunkTableHeaderSize + evf2ChunkTableEntrySize then []
          else (verifyRun C data tbl).flatMap Ewf2Turn.progress := by
  rw [verifyEwf2SectorData]
  cases slice? data range.1 range.2 with
  | none => rfl
  | some tbl =>
      simp only
      split_ifs <;> rfl

/-- The progress of a v2 segment. -/
theorem scanSegmentEwf2_reports (C : Crates) (n idx : ℕ) (data : List UInt8) :
    (scanSegmentEwf2 C n idx data).2 = progressReports (progressTurnsV2 C data) := by
  rw [scanSegmentEwf2, progressTurnsV2, usedChunkTable]
  by_cases hread : ewf2Readable data = true
  · have hlen : ¬ data.length < evf2FileHeaderSize + evf2SectionDescriptorSize := by
      simpa [ewf2Readable] using hread
    rw [if_neg (not_not.mpr hread), if_neg hlen]
    cases hbody : chunkTableBody (backwardWalk data) with
    | none =>
        simp only [hbody]
        rfl
    | some range =>
        simp only [hbody]
        rw [verifyEwf2SectorData_reports]
        cases slice? data range.1 range.2 with
        | none => rfl
        | some tbl =>
            simp only
            split_ifs
            · rfl
            · exact (reports_zipIdx _ Ewf2Turn.progress (fun _ => rfl) _ 0).symm
  · have hlen : data.length < evf2FileHeaderSize + evf2SectionDescriptorSize := by
      simpa [ewf2Readable] using hread
    rw [if_pos hread, if_pos hlen]
    rfl

theorem progressReports_flatten (groups : List (List ProgressTurn)) :
    progressReports groups.flatten = groups.flatMap progressReports := by
  induction groups with
  | nil => rfl
  | cons g groups ih =>
      rw [List.flatten_cons, List.flatMap_cons, progressReports, List.flatMap_append]
      exact congrArg _ ih

/-- What turns with an index show for their elements alone. -/
theorem flatMap_mapIdx {α β γ : Type} {f : ℕ → α → β} {g : β → List γ} {h : α → List γ}
    (hf : ∀ i a, g (f i a) = h a) (xs : List α) : (xs.mapIdx f).flatMap g = xs.flatMap h := by
  induction xs generalizing f with
  | nil => rfl
  | cons x xs ih =>
      rw [List.mapIdx_cons, List.flatMap_cons, List.flatMap_cons, hf, ih fun i a => hf (i + 1) a]

/-- **All that the callback hears** are the reports of the turns, in order. -/
theorem analyseWithProgress_reports {σ : Type} (progress : σ → AnalysisProgress → σ) (s : σ)
    (C : Crates) (self : EwfIntegrity) :
    (self.analyseWithProgress progress s C).2 =
      (progressReports (self.progressGroups C).flatten).foldl progress s := by
  rw [EwfIntegrity.analyseWithProgress, EwfIntegrity.progressGroups]
  split_ifs with hv2
  · rw [analyseAllEwf2WithProgress, analyseAllEwf2]
    refine congrArg (List.foldl progress s) ?_
    rw [progressReports_flatten, List.flatMap_map]
    exact flatMap_mapIdx (fun i data => scanSegmentEwf2_reports C _ i data) _
  · rw [analyseAllEwf1WithProgress, List.flatten_singleton, progressTurnsV1]
    simp only
    cases (self.bytes.zipIdx.foldl (progressSegment self.bytes.length) {}).geometry with
    | none => rfl
    | some geom =>
        refine congrArg (List.foldl progress s) ?_
        exact (reports_zipIdx _ ChunkHash.progress (fun _ => rfl) _ 0).symm

/-! ### The v1 loop -/

/-- The report of a turn that decodes its chunk. -/
theorem hashChunk_progress (C : Crates) (chunkSize totalBytes bytesRemaining chunkIdx : ℕ)
    (data : List UInt8) (c : ChunkRange) :
    (hashChunk C chunkSize totalBytes bytesRemaining chunkIdx data c).progress.length ≤ 1 ∧
    ∀ p ∈ (hashChunk C chunkSize totalBytes bytesRemaining chunkIdx data c).progress,
      p = ⟨satAdd chunkIdx 1, none,
        totalBytes - (bytesRemaining - min bytesRemaining chunkSize)⟩ := by
  rw [hashChunk]
  split
  · exact ⟨Nat.zero_le _, fun p hp => absurd hp List.not_mem_nil⟩
  · exact ⟨le_rfl, fun p hp => List.mem_singleton.mp hp⟩

/-- A turn hashes no more than its span. -/
theorem length_fed_le (C : Crates) (chunkSize totalBytes bytesRemaining chunkIdx : ℕ)
    (data : List UInt8) (c : ChunkRange) :
    (hashChunk C chunkSize totalBytes bytesRemaining chunkIdx data c).fed.length ≤
      min bytesRemaining chunkSize := by
  rw [hashChunk]
  split
  · exact Nat.zero_le _
  · next slice hslice =>
      rw [decodeForHash] at hslice
      split_ifs at hslice
      · obtain ⟨out, -, rfl⟩ := Option.map_eq_some_iff.mp hslice
        exact List.length_take_le _ _
      · obtain rfl := Option.some.inj hslice
        exact List.length_take_le _ _

/-- **The turn of a chunk** starts with what the chunks before it leave of the media. -/
theorem mem_zipIdx_hashLoop {C : Crates} {chunkSize totalBytes i : ℕ}
    {chunks : List (List UInt8 × ChunkRange)} {q : ChunkHash × ℕ}
    (hq : q ∈ (hashLoop C chunkSize totalBytes (totalBytes - i * chunkSize) (min i u64Max)
      chunks).zipIdx i) :
    0 < totalBytes - q.2 * chunkSize ∧ q.2 < i + chunks.length ∧
      ∃ data c, q.1 = hashChunk C chunkSize totalBytes (totalBytes - q.2 * chunkSize)
        (min q.2 u64Max) data c := by
  induction chunks generalizing i with
  | nil => cases hq
  | cons chunk chunks ih =>
      obtain ⟨data, c⟩ := chunk
      rw [hashLoop] at hq
      split_ifs at hq with h0
      · cases hq
      · rw [List.zipIdx_cons] at hq
        rcases List.mem_cons.mp hq with rfl | hq
        · exact ⟨Nat.pos_of_ne_zero h0, Nat.lt_add_of_pos_right (Nat.succ_pos _), data, c, rfl⟩
        · have hrem : totalBytes - i * chunkSize - min (totalBytes - i * chunkSize) chunkSize =
              totalBytes - (i + 1) * chunkSize := by
            rw [Nat.succ_mul]
            omega
          have hidx : satAdd (min i u64Max) 1 = min (i + 1) u64Max := by
            rw [satAdd]
            omega
          rw [hrem, hidx] at hq
          obtain ⟨hpos, hlt, hturn⟩ := ih hq
          exact ⟨hpos, by rw [List.length_cons]; omega, hturn⟩

section HashTurns

variable {C : Crates} {segments : List (List UInt8)} {allSections : List (List Section)}
  {geom : VolumeGeometry}

theorem mem_zipIdx_hashRun {q : ChunkHash × ℕ}
    (hq : q ∈ (hashRun C segments allSections geom).zipIdx) :
    0 < geom.totalBytes - q.2 * geom.chunkSize ∧
      q.2 < (allChunks segments allSections).length ∧
      ∃ data c, q.1 = hashChunk C geom.chunkSize geom.totalBytes
        (geom.totalBytes - q.2 * geom.chunkSize) (min q.2 u64Max) data c := by
  have hloop := @mem_zipIdx_hashLoop C geom.chunkSize geom.totalBytes 0
    (allChunks segments allSections) q
  rw [Nat.zero_mul, Nat.sub_zero, Nat.zero_min, Nat.zero_add] at hloop
  exact hloop hq

theorem length_hashTurns :
    (hashTurns C segments allSections geom).length =
      (hashRun C segments allSections geom).length := by
  rw [hashTurns, List.length_map, List.length_zipIdx]

theorem totalBytes_le (geom : VolumeGeometry) : geom.totalBytes ≤ u64Max := Nat.min_le_right _ _

/-- The chunks that a loop with chunks of a size visits can be counted. -/
theorem length_hashTurns_le (hsize : 0 < geom.chunkSize) :
    (hashTurns C segments allSections geom).length ≤ u64Max := by
  rw [length_hashTurns]
  rcases List.eq_nil_or_concat' (hashRun C segments allSections geom) with hnil | ⟨run, t, hrun⟩
  · rw [hnil]
    exact Nat.zero_le _
  · have hlast : (t, run.length) ∈ (hashRun C segments allSections geom).zipIdx := by
      rw [List.mem_zipIdx_iff_getElem?, hrun]
      exact List.getElem?_concat_length
    have hpos : 0 < geom.totalBytes - run.length * geom.chunkSize := (mem_zipIdx_hashRun hlast).1
    have hmul : run.length * 1 ≤ run.length * geom.chunkSize := Nat.mul_le_mul_left _ hsize
    have := totalBytes_le geom
    rw [hrun, List.length_append, List.length_singleton]
    omega

/-- **The v1 reports count the chunks.** -/
theorem countsChunks_hashTurns
    (hcount : (hashTurns C segments allSections geom).length ≤ u64Max) :
    Ledger.Counts AnalysisProgress.chunksDone (fun _ => 1) ProgressTurn.reports 0
      (hashTurns C segments allSections geom) := by
  rw [length_hashTurns] at hcount
  refine @Ledger.counts_zipIdx _ _ _ _ _ _ _ id _ 0 (fun _ _ => rfl) fun q hq p hp => ?_
  obtain ⟨hlt, -⟩ := List.getElem?_eq_some_iff.mp (List.mem_zipIdx_iff_getElem?.mp hq)
  obtain ⟨-, -, data, c, hturn⟩ := mem_zipIdx_hashRun hq
  have hreport : p ∈ q.1.progress := hp
  rw [hturn] at hreport
  rw [(hashChunk_progress ..).2 p hreport, Nat.min_eq_left (by omega)]
  exact Nat.min_eq_left (by omega)

/-- **The v1 reports count the spans** of the chunks. -/
theorem countsSpans_hashTurns :
    Ledger.Counts AnalysisProgress.bytesDone ProgressTurn.span ProgressTurn.reports 0
      (hashTurns C segments allSections geom) := by
  have hcounts := @Ledger.counts_zipIdx _ _ AnalysisProgress.bytesDone ProgressTurn.span
    ProgressTurn.reports _
    (fun p : ChunkHash × ℕ => (⟨min (geom.totalBytes - p.2 * geom.chunkSize) geom.chunkSize,
      p.1.fed.length, p.1.progress⟩ : ProgressTurn))
    (fun k => geom.totalBytes - (geom.totalBytes - k * geom.chunkSize))
    (hashRun C segments allSections geom) 0 (fun q _ => ?_) fun q hq p hp => ?_
  · rw [hashTurns]
    simpa using hcounts
  · simp only [Nat.succ_mul]
    omega
  · obtain ⟨-, -, data, c, hturn⟩ := mem_zipIdx_hashRun hq
    have hreport : p ∈ q.1.progress := hp
    rw [hturn] at hreport
    rw [(hashChunk_progress ..).2 p hreport]
    simp only [Nat.succ_mul]
    omega

/-- A v1 turn hashes no more than its span, and reports once at most. -/
theorem hashTurns_bounds : ∀ t ∈ hashTurns C segments allSections geom,
    t.processed ≤ t.span ∧ t.reports.length ≤ 1 := by
  intro t ht
  obtain ⟨q, hq, rfl⟩ := List.mem_map.mp ht
  obtain ⟨-, -, data, c, hturn⟩ := mem_zipIdx_hashRun hq
  simp only [hturn]
  exact ⟨length_fed_le .., (hashChunk_progress ..).1⟩

end HashTurns

/-! ### The v2 loop -/

section VerifyTurns

variable {C : Crates} {data tbl : List UInt8}

/-- The report of a turn that decodes its chunk. -/
theorem verifyTurn_progress {chunkCount i : ℕ} {t : Ewf2Turn}
    (h : verifyTurn C data tbl chunkCount i = some t) :
    t.progress.length ≤ 1 ∧ ∀ p ∈ t.progress, p = ⟨satAdd i 1, some chunkCount,
      satMul (satAdd i 1) (((ewf2EntryAt tbl i).map Ewf2Entry.rawSize).getD 0)⟩ := by
  rw [verifyTurn] at h
  cases hentry : ewf2EntryAt tbl i with
  | none => rw [hentry] at h; cases h
  | some entry =>
      rw [hentry] at h
      simp only at h
      split at h
      · cases h
      · split at h
        · obtain rfl := Option.some.inj h
          exact ⟨Nat.zero_le _, fun p hp => absurd hp List.not_mem_nil⟩
        · obtain rfl := Option.some.inj h
          exact ⟨le_rfl, fun p hp => List.mem_singleton.mp hp⟩

/-- A turn without a report has not decoded its chunk. -/
theorem verifyTurn_quiet {chunkCount i : ℕ} {t : Ewf2Turn}
    (h : verifyTurn C data tbl chunkCount i = some t) (hquiet : t.progress = []) :
    t.decoded = none := by
  rw [verifyTurn] at h
  cases hentry : ewf2EntryAt tbl i with
  | none => rw [hentry] at h; cases h
  | some entry =>
      rw [hentry] at h
      simp only at h
      split at h
      · cases h
      · split at h
        · obtain rfl := Option.some.inj h
          rfl
        · obtain rfl := Option.some.inj h
          cases hquiet

theorem mem_zipIdx_verifyRun {q : Ewf2Turn × ℕ} (hq : q ∈ (verifyRun C data tbl).zipIdx) :
    q.2 < leU64 tbl 8 ∧ verifyTurn C data tbl (leU64 tbl 8) q.2 = some q.1 := by
  have hget := List.mem_zipIdx_iff_getElem?.mp hq
  rw [verifyRun, Loop.getElem?_forBreak, Nat.zero_add] at hget
  exact ⟨hget.1, hget.2.2⟩

/-- A turn's index and its successor are unsigned 64-bit numbers. -/
theorem satAdd_of_mem_verifyRun {q : Ewf2Turn × ℕ} (hq : q ∈ (verifyRun C data tbl).zipIdx) :
    satAdd q.2 1 = q.2 + 1 := by
  have hlt := (mem_zipIdx_verifyRun hq).1
  have hle : leU64 tbl 8 ≤ u64Max := leU64_le tbl 8
  exact Nat.min_eq_left (by omega)

/-- **The v2 reports count the chunks.** -/
theorem countsChunks_progressTurnsV2 (C : Crates) (data : List UInt8) :
    Ledger.Counts AnalysisProgress.chunksDone (fun _ => 1) ProgressTurn.reports 0
      (progressTurnsV2 C data) := by
  rw [progressTurnsV2]
  cases usedChunkTable data with
  | none => trivial
  | some tbl =>
      refine @Ledger.counts_zipIdx _ _ _ _ _ _ _ id _ 0 (fun _ _ => rfl) fun q hq p hp => ?_
      have hreport := (verifyTurn_progress (mem_zipIdx_verifyRun hq).2).2 p hp
      rw [hreport]
      exact satAdd_of_mem_verifyRun hq

/-- A v2 turn reports once at most, and not at all without decoding its chunk. -/
theorem progressTurnsV2_reports {t : ProgressTurn} (ht : t ∈ progressTurnsV2 C data) :
    t.reports.length ≤ 1 ∧ (t.reports = [] → t.processed = 0) := by
  rw [progressTurnsV2] at ht
  cases hused : usedChunkTable data with
  | none => rw [hused] at ht; cases ht
  | some tbl =>
      rw [hused] at ht
      obtain ⟨q, hq, rfl⟩ := List.mem_map.mp ht
      have hturn := (mem_zipIdx_verifyRun hq).2
      refine ⟨(verifyTurn_progress hturn).1, fun hquiet => ?_⟩
      exact congrArg (fun d => (Option.getD d []).length) (verifyTurn_quiet hturn hquiet)

/-- Without a report no chunk of a segment is decoded. -/
theorem sum_processed_of_silent
    (h : Ledger.Silent ProgressTurn.reports (progressTurnsV2 C data)) :
    ((progressTurnsV2 C data).map ProgressTurn.processed).sum = 0 := by
  rw [List.sum_eq_zero_iff, List.forall_mem_map]
  exact fun t ht => (progressTurnsV2_reports ht).2 (h t ht)

/-- Chunks of one size on disk that decode to it, as many as the counter of bytes can take. -/
def SteadyChunks (turns : List ProgressTurn) : Prop :=
  ∃ size, turns.length * size ≤ u64Max ∧ ∀ t ∈ turns, t.span = size ∧ t.processed = size

/-- **The v2 reports count the bytes** of such chunks. -/
theorem countsBytes_of_steadyChunks (h : SteadyChunks (progressTurnsV2 C data)) :
    Ledger.Counts AnalysisProgress.bytesDone ProgressTurn.processed ProgressTurn.reports 0
      (progressTurnsV2 C data) := by
  obtain ⟨size, hfit, hsteady⟩ := h
  rw [progressTurnsV2] at hfit hsteady ⊢
  cases hused : usedChunkTable data with
  | none => trivial
  | some tbl =>
      rw [hused] at hfit hsteady
      have hcounts := @Ledger.counts_zipIdx _ _ AnalysisProgress.bytesDone ProgressTurn.processed
        ProgressTurn.reports _
        (fun p : Ewf2Turn × ℕ => (⟨((ewf2EntryAt tbl p.2).map Ewf2Entry.rawSize).getD 0,
          (p.1.decoded.getD []).length, p.1.progress⟩ : ProgressTurn))
        (fun k => k * size) (verifyRun C data tbl) 0 (fun q hq => ?_) fun q hq p hp => ?_
      · simpa using hcounts
      · rw [(hsteady _ (List.mem_map_of_mem hq)).2]
        exact Nat.succ_mul _ _
      · have hreport := (verifyTurn_progress (mem_zipIdx_verifyRun hq).2).2 p hp
        have hspan := (hsteady _ (List.mem_map_of_mem hq)).1
        simp only at hspan
        rw [hreport, satAdd_of_mem_verifyRun hq, hspan]
        refine satMul_eq (le_trans (Nat.mul_le_mul_right _ ?_) hfit)
        have hget := List.mem_zipIdx_iff_getElem?.mp hq
        obtain ⟨hlt, -⟩ := List.getElem?_eq_some_iff.mp hget
        rw [List.length_map, List.length_zipIdx]
        exact hlt

end VerifyTurns

/-! ### The whole analysis -/

/-- Of the v2 segments one alone has chunks that decode, and these are steady. -/
def SteadyGroups (groups : List (List ProgressTurn)) : Prop :=
  groups.Pairwise (fun g g' => Ledger.Silent ProgressTurn.reports g ∨
    Ledger.Silent ProgressTurn.reports g') ∧
    ∀ g ∈ groups, ¬ Ledger.Silent ProgressTurn.reports g → SteadyChunks g

/-- **The condition for honest reports.** In v1 every chunk up to the last that decodes delivers its
span, and the loop visits fewer than 2^64 chunks; in v2 the chunks that decode are steady. -/
def SteadyProgress (C : Crates) (self : EwfIntegrity) : Prop :=
  (isEwf2 self.bytes = true → SteadyGroups (self.progressGroups C)) ∧
  (isEwf2 self.bytes = false → (progressTurnsV1 C self.bytes).length ≤ u64Max ∧
    Ledger.Whole ProgressTurn.processed ProgressTurn.span ProgressTurn.reports
      (progressTurnsV1 C self.bytes))

/-- **Honest reports** of the turns of an analysis, given in groups. -/
structure HonestProgress (groups : List (List ProgressTurn)) : Prop where
  bytes_forward :
    ((progressReports groups.flatten).map AnalysisProgress.bytesDone).Pairwise (· ≤ ·)
  bytes_counted :
    Ledger.Counts AnalysisProgress.bytesDone ProgressTurn.processed ProgressTurn.reports 0
      groups.flatten
  chunks_forward : ∀ g ∈ groups,
    ((progressReports g).map AnalysisProgress.chunksDone).Pairwise (· < ·)
  chunks_complete : ∀ g ∈ groups, ∀ p, (progressReports g).getLast? = some p →
    ∀ n, p.chunksTotal = some n → g.length = n → (∀ t ∈ g, t.reports ≠ []) → p.chunksDone = n

/-- **Counted chunks are counted one by one.** -/
theorem chunks_forward {g : List ProgressTurn}
    (h : Ledger.Counts AnalysisProgress.chunksDone (fun _ => 1) ProgressTurn.reports 0 g)
    (hone : ∀ t ∈ g, t.reports.length ≤ 1) :
    ((progressReports g).map AnalysisProgress.chunksDone).Pairwise (· < ·) :=
  h.pairwise_lt (fun _ _ => Nat.one_pos) hone

/-- **Counted chunks are counted to the end** where the last turn reports. -/
theorem chunks_complete {g : List ProgressTurn}
    (h : Ledger.Counts AnalysisProgress.chunksDone (fun _ => 1) ProgressTurn.reports 0 g)
    (hall : ∀ t ∈ g, t.reports ≠ []) {p : AnalysisProgress}
    (hp : (progressReports g).getLast? = some p) : p.chunksDone = g.length := by
  rcases List.eq_nil_or_concat' g with rfl | ⟨g, t, rfl⟩
  · cases hp
  · have ht : t.reports ≠ [] := hall t (List.mem_append_right _ (List.mem_singleton_self t))
    have hlast : p ∈ t.reports := by
      rw [progressReports, List.flatMap_append, List.flatMap_singleton,
        List.getLast?_append_of_ne_nil _ ht] at hp
      exact List.mem_of_getLast? hp
    rw [h.last hlast, List.map_const', List.sum_replicate_nat, Nat.zero_add, Nat.mul_one]

section Groups

variable {C : Crates} {self : EwfIntegrity}

theorem mem_progressGroups (hv2 : isEwf2 self.bytes = true) {g : List ProgressTurn}
    (hg : g ∈ self.progressGroups C) : ∃ data, g = progressTurnsV2 C data := by
  rw [EwfIntegrity.progressGroups, if_pos hv2] at hg
  obtain ⟨data, -, rfl⟩ := List.mem_map.mp hg
  exact ⟨data, rfl⟩

/-- The v1 turns are those of the hash loop, if there are any. -/
theorem progressTurnsV1_cases (C : Crates) (segments : List (List UInt8)) :
    progressTurnsV1 C segments = [] ∨
      ∃ allSections geom, progressTurnsV1 C segments = hashTurns C segments allSections geom := by
  rw [progressTurnsV1]
  cases (segments.zipIdx.foldl (progressSegment segments.length) {}).geometry with
  | none => exact Or.inl rfl
  | some geom => exact Or.inr ⟨_, geom, rfl⟩

/-- What the v1 reports count. -/
theorem counts_progressTurnsV1 {segments : List (List UInt8)}
    (hcount : (progressTurnsV1 C segments).length ≤ u64Max) :
    Ledger.Counts AnalysisProgress.chunksDone (fun _ => 1) ProgressTurn.reports 0
      (progressTurnsV1 C segments) ∧
    Ledger.Counts AnalysisProgress.bytesDone ProgressTurn.span ProgressTurn.reports 0
      (progressTurnsV1 C segments) ∧
    ∀ t ∈ progressTurnsV1 C segments, t.processed ≤ t.span ∧ t.reports.length ≤ 1 := by
  rcases progressTurnsV1_cases C segments with hnil | ⟨allSections, geom, hturns⟩
  · rw [hnil]
    exact ⟨trivial, trivial, fun t ht => absurd ht List.not_mem_nil⟩
  · rw [hturns] at hcount ⊢
    exact ⟨countsChunks_hashTurns hcount, countsSpans_hashTurns, hashTurns_bounds⟩

/-- **When the v1 bytes are those hashed**: exactly when every chunk up to the last that decodes
delivers its span. -/
theorem countsBytes_v1_iff {segments : List (List UInt8)}
    (hcount : (progressTurnsV1 C segments).length ≤ u64Max) :
    Ledger.Counts AnalysisProgress.bytesDone ProgressTurn.processed ProgressTurn.reports 0
      (progressTurnsV1 C segments) ↔
    Ledger.Whole ProgressTurn.processed ProgressTurn.span ProgressTurn.reports
      (progressTurnsV1 C segments) := by
  obtain ⟨-, hspans, hbounds⟩ := counts_progressTurnsV1 hcount
  exact Ledger.counts_iff_whole (fun t ht => (hbounds t ht).1) hspans

/-- **The v2 bytes are those decoded** by a run with steady chunks. -/
theorem countsBytes_of_steady (hv2 : isEwf2 self.bytes = true)
    (h : SteadyGroups (self.progressGroups C)) :
    Ledger.Counts AnalysisProgress.bytesDone ProgressTurn.processed ProgressTurn.reports 0
      (self.progressGroups C).flatten := by
  refine Ledger.counts_flatten h.1 (fun g hg hsilent => ?_) fun g hg hloud => ?_
  · obtain ⟨data, rfl⟩ := mem_progressGroups hv2 hg
    exact sum_processed_of_silent hsilent
  · have hsteady := h.2 g hg hloud
    obtain ⟨data, rfl⟩ := mem_progressGroups hv2 hg
    exact countsBytes_of_steadyChunks hsteady

/-- The chunk counts of a v2 group. -/
theorem chunks_of_mem_progressGroups (hv2 : isEwf2 self.bytes = true) {g : List ProgressTurn}
    (hg : g ∈ self.progressGroups C) :
    Ledger.Counts AnalysisProgress.chunksDone (fun _ => 1) ProgressTurn.reports 0 g ∧
      ∀ t ∈ g, t.reports.length ≤ 1 := by
  obtain ⟨data, rfl⟩ := mem_progressGroups hv2 hg
  exact ⟨countsChunks_progressTurnsV2 C data, fun t ht => (progressTurnsV2_reports ht).1⟩

/-- Where the chunks and the bytes are counted, the reports are honest. -/
theorem honest_of_counts {groups : List (List ProgressTurn)}
    (hchunks : ∀ g ∈ groups,
      Ledger.Counts AnalysisProgress.chunksDone (fun _ => 1) ProgressTurn.reports 0 g ∧
        ∀ t ∈ g, t.reports.length ≤ 1)
    (hbytes : Ledger.Counts AnalysisProgress.bytesDone ProgressTurn.processed
      ProgressTurn.reports 0 groups.flatten) : HonestProgress groups where
  bytes_forward := hbytes.pairwise
  bytes_counted := hbytes
  chunks_forward g hg := chunks_forward (hchunks g hg).1 (hchunks g hg).2
  chunks_complete g hg _ hp _ _ hlen hall :=
    (chunks_complete (hchunks g hg).1 hall hp).trans hlen

/-- **Progress reports are honest** on steady progress; a v1 run whose chunks can be counted has no
other honest reports. The callback hears the reports of the turns and nothing else. -/
theorem progress_honest (C : Crates) (self : EwfIntegrity) :
    (∀ {σ : Type} (progress : σ → AnalysisProgress → σ) (s : σ),
      (self.analyseWithProgress progress s C).2 =
        (progressReports (self.progressGroups C).flatten).foldl progress s) ∧
    (SteadyProgress C self → HonestProgress (self.progressGroups C)) ∧
    (isEwf2 self.bytes = false → (progressTurnsV1 C self.bytes).length ≤ u64Max →
      HonestProgress (self.progressGroups C) → SteadyProgress C self) := by
  refine ⟨fun progress s => analyseWithProgress_reports progress s C self, fun h => ?_,
    fun hv1 hcount h => ?_⟩
  · cases hv2 : isEwf2 self.bytes with
    | true =>
        exact honest_of_counts (fun g hg => chunks_of_mem_progressGroups hv2 hg)
          (countsBytes_of_steady hv2 (h.1 hv2))
    | false =>
        have hgroups : self.progressGroups C = [progressTurnsV1 C self.bytes] := by
          rw [EwfIntegrity.progressGroups, if_neg (Bool.eq_false_iff.mp hv2)]
        obtain ⟨hcount, hwhole⟩ := h.2 hv2
        obtain ⟨hchunks, -, hbounds⟩ := counts_progressTurnsV1 hcount
        rw [hgroups]
        refine honest_of_counts (fun g hg => ?_) ?_
        · obtain rfl := List.mem_singleton.mp hg
          exact ⟨hchunks, fun t ht => (hbounds t ht).2⟩
        · rw [List.flatten_singleton]
          exact (countsBytes_v1_iff hcount).mpr hwhole
  · have hbytes := h.bytes_counted
    rw [EwfIntegrity.progressGroups, if_neg (Bool.eq_false_iff.mp hv1),
      List.flatten_singleton] at hbytes
    refine ⟨fun hv2 => ?_, fun _ => ⟨hcount, (countsBytes_v1_iff hcount).mp hbytes⟩⟩
    rw [hv1] at hv2
    cases hv2

end Groups

/-- A v2 segment of one chunk table. -/
def storedChunksImage (entries : List (List UInt8)) : List UInt8 :=
  Image.encodeSegmentV2 1 [(4, Image.ewf2TableBytes 0 entries)]

/-- An image of two stored chunks of 16 bytes. -/
def evenChunksImage : EwfIntegrity :=
  .fromSegments [⟨storedChunksImage [ewf2EntryBytes 0 20 0, ewf2EntryBytes 16 20 0], by
    decide +kernel⟩]

/-- An image of two stored chunks, of 16 and 4 bytes. -/
def unevenChunksImage : EwfIntegrity :=
  .fromSegments [⟨storedChunksImage [ewf2EntryBytes 0 20 0, ewf2EntryBytes 16 8 0], by
    decide +kernel⟩]

theorem progress_honest_evenChunksImage :
    HonestProgress (evenChunksImage.progressGroups Crates.reference) := by
  have hgroups : evenChunksImage.progressGroups Crates.reference =
      [[⟨16, 16, [⟨1, some 2, 16⟩]⟩, ⟨16, 16, [⟨2, some 2, 32⟩]⟩]] := by
    decide +kernel
  have hv2 : isEwf2 evenChunksImage.bytes = true := by
    decide +kernel
  have hsteady : SteadyGroups (evenChunksImage.progressGroups Crates.reference) := by
    rw [hgroups]
    refine ⟨List.pairwise_singleton _ _, ?_⟩
    intro g hg _
    obtain rfl := List.mem_singleton.mp hg
    exact ⟨16, by decide, by simp⟩
  refine (progress_honest Crates.reference evenChunksImage).2.1 ⟨fun _ => hsteady, fun hv1 => ?_⟩
  rw [hv2] at hv1
  cases hv1

/-- Two chunks of different sizes: the reports say 16 bytes and then 8, after 20. -/
theorem unevenChunksImage_not_honest :
    (unevenChunksImage.analyseWithProgress (fun heard p => heard ++ [p]) [] Crates.reference).2 =
      [⟨1, some 2, 16⟩, ⟨2, some 2, 8⟩] ∧
    ¬ HonestProgress (unevenChunksImage.progressGroups Crates.reference) := by
  have hgroups : unevenChunksImage.progressGroups Crates.reference =
      [[⟨16, 16, [⟨1, some 2, 16⟩]⟩, ⟨4, 4, [⟨2, some 2, 8⟩]⟩]] := by
    decide +kernel
  refine ⟨?_, fun h => ?_⟩
  · rw [analyseWithProgress_reports, hgroups]
    rfl
  · have hforward := h.bytes_forward
    rw [hgroups] at hforward
    revert hforward
    decide

end EwfForensic

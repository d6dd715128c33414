import EwfForensic.Forensic.ScanV1

/-!
# What the Segment Loops Can Report

The segment loop of the v1 analysis looks at headers, descriptors, geometry and tables, never at
decoded data, so an anomaly that is about digests is not one of its own. The hash loop of v1 and
the segment loop of v2 look at chunks, but compare no digest of the media.

* `EwfIntegrityAnomaly.isSegmentIssue` — the anomalies of the segment loop other than a count
  mismatch; `EwfIntegrityAnomaly.isWalkIssue` — those of them that the walk reports.
* `Lacks` — a list without an anomaly of some kind, with the rules for the ways lists of
  anomalies are put together.
* `lacks_scanIssues` — the segment loop reports nothing of a kind outside its own; a count
  mismatch only where a single segment's counts differ.
* `lacks_hashLoop`, `lacks_scansEwf2` — the other two loops report no digest mismatch.
* `mem_analyseAllEwf1_iff` — what the segment loop can report, nothing behind it reports.
-/

namespace EwfForensic

open Octets

/-- The anomalies that the segment loop reports, but for the count mismatch. -/
def EwfIntegrityAnomaly.isSegmentIssue : EwfIntegrityAnomaly → Bool
  | .invalidSignature | .segmentNumberZero | .sectionDescriptorCrcMismatch ..
  | .sectionChainBroken .. | .sectionGapNonZero .. | .volumeSectionMissing
  | .unknownSectionType .. | .doneSectionMissing | .sectorsSectionMissing | .tableSectionMissing
  | .chunkSizeInvalid .. | .sectorCountMismatch .. | .bytesPerSectorInvalid ..
  | .tableHeaderAdler32Mismatch .. | .tableEntryOutOfBounds .. | .tableEntryOutsideSectorsRange ..
  | .sectionGapZero .. | .table2Mismatch .. | .badSectorsPresent .. | .segmentOutOfOrder ..
  | .volumeBodyCrcMismatch .. | .mediaTypeUnknown .. | .setIdentifierMismatch .. => true
  | _ => false

/-- The anomalies that the walk along the section chain reports. -/
def EwfIntegrityAnomaly.isWalkIssue : EwfIntegrityAnomaly → Bool
  | .sectionDescriptorCrcMismatch .. | .sectionChainBroken .. | .sectionGapNonZero ..
  | .unknownSectionType .. | .sectionGapZero .. => true
  | _ => false

/-- The anomalies that compare a digest of the whole media. -/
def EwfIntegrityAnomaly.isDigestMismatch : EwfIntegrityAnomaly → Bool
  | .hashMismatch .. | .digestSha1Mismatch .. | .digestSha256Mismatch ..
  | .externalMd5Mismatch .. | .externalSha1Mismatch .. | .externalSha256Mismatch .. => true
  | _ => false

/-- No anomaly of the list is of the kind `p`. -/
def Lacks (p : EwfIntegrityAnomaly → Bool) (issues : List EwfIntegrityAnomaly) : Prop :=
  ∀ a ∈ issues, p a = false

instance (p : EwfIntegrityAnomaly → Bool) (issues : List EwfIntegrityAnomaly) :
    Decidable (Lacks p issues) := inferInstanceAs (Decidable (∀ a ∈ issues, p a = false))

/-- A single segment's table lists as many chunks as its volume declares. -/
def CountsAgree (segments : List (List UInt8)) : Prop :=
  ∀ data, segments = [data] → ∀ geom, volumeGeometry data = some geom → ∀ table,
    findSection (walkSectionsV1 data) .table = some table →
      leU32 (data.drop (satAdd table.offset sectionDescriptorSize)) 0 = geom.chunkCount

section Lacks

variable {p : EwfIntegrityAnomaly → Bool}

/-! ### Rules -/

@[simp] theorem lacks_nil : Lacks p [] := by
  simp [Lacks]

@[simp] theorem lacks_append {xs ys : List EwfIntegrityAnomaly} :
    Lacks p (xs ++ ys) ↔ Lacks p xs ∧ Lacks p ys := by
  simp only [Lacks, List.forall_mem_append]

@[simp] theorem lacks_singleton {a : EwfIntegrityAnomaly} : Lacks p [a] ↔ p a = false := by
  simp [Lacks]

theorem lacks_ite {c : Prop} [Decidable c] {xs ys : List EwfIntegrityAnomaly}
    (hx : Lacks p xs) (hy : Lacks p ys) : Lacks p (if c then xs else ys) := by
  split_ifs
  · exact hx
  · exact hy

theorem lacks_flatMap {β : Type} {xs : List β} {f : β → List EwfIntegrityAnomaly}
    (h : ∀ x ∈ xs, Lacks p (f x)) : Lacks p (xs.flatMap f) := by
  intro a ha
  obtain ⟨x, hx, hax⟩ := List.mem_flatMap.mp ha
  exact h x hx a hax

theorem lacks_mismatch {α : Type} [DecidableEq α] {computed : α} {reference : Option α}
    {anomaly : α → EwfIntegrityAnomaly} (h : ∀ r, p (anomaly r) = false) :
    Lacks p (mismatch computed reference anomaly) := by
  intro a ha
  obtain ⟨r, -, -, rfl⟩ := mem_mismatch_iff.mp ha
  exact h r

/-- A check that pushes one anomaly or none. -/
theorem lacks_check {c : Prop} [Decidable c] {a : EwfIntegrityAnomaly} (ha : p a = false) :
    Lacks p (if c then [a] else []) :=
  lacks_ite (lacks_singleton.mpr ha) lacks_nil

/-! ### The walk -/

section Walk

variable (hp : ∀ a, a.isWalkIssue = true → p a = false)

include hp

theorem lacks_descriptorIssues (raw : List UInt8) (desc : SectionDescriptor) :
    Lacks p (descriptorIssues raw desc) := by
  rw [descriptorIssues, lacks_append]
  exact ⟨lacks_ite lacks_nil (lacks_singleton.mpr (hp _ rfl)),
    lacks_ite lacks_nil (lacks_singleton.mpr (hp _ rfl))⟩

theorem lacks_gapIssues (data : List UInt8) (sectionEnd next : ℕ) :
    Lacks p (gapIssues data sectionEnd next) := by
  rw [gapIssues]
  exact lacks_ite (lacks_ite (lacks_singleton.mpr (hp _ rfl)) (lacks_singleton.mpr (hp _ rfl)))
    lacks_nil

theorem lacks_walkIssuesV1 (data : List UInt8) : Lacks p (walkIssuesV1 data) := by
  refine lacks_flatMap fun s hs => ?_
  refine @Loop.forall_visits _ _ (walkStep data) (fun _ => True) (fun s => Lacks p s.2)
    (fun _ _ _ _ _ => trivial) ?_ _ _ trivial s hs
  intro pos a t _ hstep
  rw [walkStep] at hstep
  split at hstep
  · cases hstep
  · next raw _ =>
      split at hstep
      · cases hstep
      · next desc _ =>
          have hdesc := lacks_descriptorIssues hp raw desc
          have hbroken : Lacks p [.sectionChainBroken pos desc.next] :=
            lacks_singleton.mpr (hp _ rfl)
          simp only at hstep
          split_ifs at hstep <;>
            · simp only [Option.some.injEq, Prod.mk.injEq] at hstep
              rw [← hstep.1]
              simp [hdesc, hbroken, lacks_gapIssues hp]

end Walk

/-! ### The checks of the segment loop -/

section Checks

variable (hp : ∀ a, a.isSegmentIssue = true → a.isWalkIssue = false → p a = false)

include hp

theorem lacks_headerIssuesV1 (idx : ℕ) (data : List UInt8) : Lacks p (headerIssuesV1 idx data) := by
  rw [headerIssuesV1, lacks_append]
  exact ⟨lacks_check (hp _ rfl rfl),
    lacks_ite (lacks_singleton.mpr (hp _ rfl rfl)) (lacks_check (hp _ rfl rfl))⟩

theorem lacks_checkVolumeV1 (data : List UInt8) (off size : ℕ) :
    Lacks p (checkVolumeV1 data off size).2 := by
  rw [checkVolumeV1]
  simp only
  split_ifs
  · exact lacks_nil
  · split
    · exact lacks_nil
    · simp only [volumeIssues, lacks_append]
      refine ⟨⟨⟨⟨?_, ?_⟩, ?_⟩, ?_⟩, ?_⟩
      · exact lacks_ite lacks_nil (lacks_singleton.mpr (hp _ rfl rfl))
      all_goals exact lacks_check (hp _ rfl rfl)

theorem lacks_segmentGeometry (idx : ℕ) (geometry : Option VolumeGeometry) (data : List UInt8)
    (sections : List Section) : Lacks p (segmentGeometry idx geometry data sections).2 := by
  rw [segmentGeometry]
  split
  · next volSec _ =>
      have hvolume := lacks_checkVolumeV1 hp data volSec.offset volSec.size
      simp only
      split_ifs
      · exact hvolume
      · refine lacks_append.mpr ⟨hvolume, ?_⟩
        unfold setIdentifierIssues
        split
        · exact lacks_check (hp _ rfl rfl)
        · exact lacks_nil
  · exact lacks_check (hp _ rfl rfl)

/-- The table check reports a count mismatch only where the counts differ. -/
theorem lacks_checkTableV1 (data : List UInt8) (off : ℕ) (volCount : Option ℕ) (fileSize : ℕ)
    (range : Option (ℕ × ℕ))
    (hcount : ∀ v, volCount = some v → leU32 (data.drop (satAdd off sectionDescriptorSize)) 0 ≠ v →
      p (.tableChunkCountMismatch v (leU32 (data.drop (satAdd off sectionDescriptorSize)) 0)) =
        false) :
    Lacks p (checkTableV1 data off volCount fileSize range) := by
  rw [checkTableV1]
  simp only
  split_ifs
  · exact lacks_nil
  · split
    · exact lacks_nil
    · next header hheader =>
        have hentry : header.entryCount =
            leU32 (data.drop (satAdd off sectionDescriptorSize)) 0 := by
          rw [TableHeader.parse] at hheader
          split_ifs at hheader
          obtain rfl := Except.ok.inj hheader
          rfl
        refine lacks_append.mpr ⟨lacks_append.mpr ⟨lacks_check (hp _ rfl rfl), ?_⟩, ?_⟩
        · cases volCount with
          | none => exact lacks_nil
          | some v =>
              rw [hentry]
              simp only
              split_ifs with hne
              · exact lacks_singleton.mpr (hcount v rfl hne)
              · exact lacks_nil
        · intro a ha
          obtain ⟨issues, hissues, ha⟩ := List.mem_flatten.mp ha
          obtain ⟨j, hj⟩ := List.mem_iff_getElem?.mp hissues
          obtain ⟨-, -, hbody⟩ := Loop.getElem?_forBreak.mp hj
          obtain ⟨entry, -, rfl⟩ := Option.map_eq_some_iff.mp hbody
          revert ha
          suffices Lacks p (entryIssues header.baseOffset fileSize range (0 + j) entry) from this a
          unfold entryIssues
          refine lacks_ite (lacks_singleton.mpr (hp _ rfl rfl)) ?_
          split
          · exact lacks_check (hp _ rfl rfl)
          · exact lacks_nil

theorem lacks_table2Issues (data : List UInt8) (sections : List Section) :
    Lacks p (table2Issues data sections) := by
  rw [table2Issues]
  split
  · split
    · refine lacks_ite ?_ (lacks_singleton.mpr (hp _ rfl rfl))
      split
      · exact lacks_singleton.mpr (hp _ rfl rfl)
      · exact lacks_nil
    · exact lacks_nil
  · exact lacks_nil

theorem lacks_error2Issues (data : List UInt8) (sections : List Section) :
    Lacks p (error2Issues data sections) := by
  rw [error2Issues]
  split
  · exact lacks_check (hp _ rfl rfl)
  · exact lacks_nil

/-- The checks of a segment but for its walk. -/
theorem lacks_checks (n idx : ℕ) (geometry : Option VolumeGeometry) (data : List UInt8)
    (hcount : ∀ v table, volumeCount n idx
        (segmentGeometry idx geometry data (walkSectionsV1 data)).1 = some v →
      findSection (walkSectionsV1 data) .table = some table →
      leU32 (data.drop (satAdd table.offset sectionDescriptorSize)) 0 ≠ v →
        p (.tableChunkCountMismatch v
          (leU32 (data.drop (satAdd table.offset sectionDescriptorSize)) 0)) = false)
    (hwalk : Lacks p (walkIssuesV1 data)) :
    Lacks p (segmentIssues n idx (segmentGeometry idx geometry data (walkSectionsV1 data)) data
      (walkSectionsV1 data)) := by
  simp only [segmentIssues, lacks_append]
  refine ⟨⟨⟨⟨⟨⟨⟨lacks_headerIssuesV1 hp idx data, hwalk⟩,
    lacks_segmentGeometry hp _ _ _ _⟩, lacks_check (hp _ rfl rfl)⟩, ?_⟩,
    lacks_table2Issues hp _ _⟩, lacks_error2Issues hp _ _⟩, lacks_check (hp _ rfl rfl)⟩
  rw [tableIssues]
  split
  · next table htable =>
      exact lacks_checkTableV1 hp _ _ _ _ _ fun v hv => hcount v table hv htable
  · exact lacks_singleton.mpr (hp _ rfl rfl)

end Checks

section Loop

variable (hp : ∀ a, a.isSegmentIssue = true → p a = false)

include hp

/-- One turn of the segment loop. -/
theorem lacks_scanSegment (n idx : ℕ) (geometry : Option VolumeGeometry) (data : List UInt8)
    (hcount : ∀ v table, volumeCount n idx
        (segmentGeometry idx geometry data (walkSectionsV1 data)).1 = some v →
      findSection (walkSectionsV1 data) .table = some table →
      leU32 (data.drop (satAdd table.offset sectionDescriptorSize)) 0 ≠ v →
        p (.tableChunkCountMismatch v
          (leU32 (data.drop (satAdd table.offset sectionDescriptorSize)) 0)) = false) :
    Lacks p (scanSegment n idx geometry data).issues := by
  have hwalk : ∀ a : EwfIntegrityAnomaly, a.isWalkIssue = true → p a = false :=
    fun a ha => hp a (by cases a <;> first | rfl | cases ha)
  rw [scanSegment]
  split_ifs
  · exact lacks_singleton.mpr (hp _ rfl)
  · exact lacks_checks (fun a ha _ => hp a ha) n idx geometry data hcount
      (lacks_walkIssuesV1 hwalk data)

/-- **The segment loop reports nothing of a foreign kind**, and a count mismatch only where the
counts of a single segment differ. -/
theorem lacks_scanIssues (segments : List (List UInt8))
    (hcount : (∀ v t, p (.tableChunkCountMismatch v t) = false) ∨ CountsAgree segments) :
    Lacks p (scanIssues segments) := by
  -- Where no count is compared, the loop goes through whatever the kind is.
  have hloop : ∀ n (segs : List (List UInt8)) idx geometry,
      (1 < n ∨ ∀ v t, p (.tableChunkCountMismatch v t) = false) →
        Lacks p ((scanSegments n idx geometry segs).flatMap (·.issues)) := by
    intro n segs
    induction segs with
    | nil => exact fun _ _ _ => lacks_nil
    | cons data rest ih =>
        intro idx geometry hn
        simp only [scanSegments, List.flatMap_cons, lacks_append]
        refine ⟨lacks_scanSegment hp n idx geometry data fun v table hv _ _ => ?_, ih _ _ hn⟩
        rcases hn with hn | hn
        · rw [volumeCount, if_neg (fun h => h.1 hn)] at hv
          cases hv
        · exact hn v _
  rcases hcount with hall | hagree
  · exact hloop _ _ _ _ (Or.inr hall)
  · rcases segments with _ | ⟨data, _ | ⟨data', rest⟩⟩
    · exact lacks_nil
    · -- One segment, whose volume counts the entries of its first table.
      simp only [scanIssues, scanSegments, List.flatMap_cons, List.flatMap_nil, List.append_nil]
      refine lacks_scanSegment hp _ _ _ _ fun v table hv htable hne => absurd ?_ hne
      rw [volumeCount, if_pos ⟨by simp, rfl⟩] at hv
      obtain ⟨geom, hgeom, rfl⟩ := Option.map_eq_some_iff.mp hv
      refine hagree data rfl geom ?_ table htable
      rw [volumeGeometry]
      rw [segmentGeometry] at hgeom
      cases hfind : findVolume (walkSectionsV1 data) with
      | none => simp [hfind] at hgeom
      | some v => simpa [hfind] using hgeom
    · exact hloop _ _ _ _ (Or.inl (by simp))

end Loop

/-! ### Checks that compare no digest of the media -/

/-- The hash loop of v1 looks at chunks alone. -/
theorem lacks_hashLoop
    (hp : ∀ a : EwfIntegrityAnomaly, a.isSegmentIssue = false → a.isDigestMismatch = false →
      p a = false)
    {C : Crates} {chunkSize total : ℕ} (cs : List (List UInt8 × ChunkRange)) (remaining idx : ℕ) :
    Lacks p ((hashLoop C chunkSize total remaining idx cs).flatMap (·.issues)) := by
  induction cs generalizing remaining idx with
  | nil => exact lacks_nil
  | cons c cs ih =>
      rw [hashLoop]
      split_ifs
      · exact lacks_nil
      · have hcrc : Lacks p (chunkCrcIssues chunkSize idx c.2.compressed (c.2.raw c.1)) :=
          lacks_ite (lacks_check (hp _ rfl rfl)) lacks_nil
        simp only [List.flatMap_cons, lacks_append]
        refine ⟨?_, ih _ _⟩
        rw [hashChunk]
        split
        · exact lacks_append.mpr ⟨hcrc, lacks_singleton.mpr (hp _ rfl rfl)⟩
        · exact hcrc

/-- The comparisons of v1 look at digests of the media alone. -/
theorem lacks_digestIssues (hp : ∀ a : EwfIntegrityAnomaly, a.isDigestMismatch = true → p a = false)
    (hmissing : p .hashSectionMissing = false) (computed : ComputedHashes)
    (sections : List Section) (data : List UInt8) (expected : ExpectedHashes) :
    Lacks p (storedMd5Issues computed.md5 sections data ++
      storedSha1Issues computed.sha1 sections data ++ externalIssues computed expected) := by
  refine lacks_append.mpr ⟨lacks_append.mpr ⟨?_, ?_⟩, ?_⟩
  · rw [storedMd5Issues]
    split
    · exact lacks_mismatch fun _ => hp _ rfl
    · exact lacks_singleton.mpr hmissing
  · rw [storedSha1Issues]
    split
    · exact lacks_mismatch fun _ => hp _ rfl
    · exact lacks_nil
  · exact lacks_append.mpr ⟨lacks_append.mpr ⟨lacks_mismatch fun _ => hp _ rfl,
      lacks_mismatch fun _ => hp _ rfl⟩, lacks_mismatch fun _ => hp _ rfl⟩

/-- **Behind the segment loop**, the v1 analysis reports counts, chunks and digests alone. -/
theorem mem_analyseAllEwf1_iff {C : Crates} {segments : List (List UInt8)}
    {expected : ExpectedHashes} {a : EwfIntegrityAnomaly} (ha : a.isSegmentIssue = true) :
    a ∈ analyseAllEwf1 C segments expected ↔ a ∈ scanIssues segments := by
  have hlacks : Lacks (fun b => b.isSegmentIssue)
      (totalCountIssues segments.length (analysisGeometry segments) (totalTableEntries segments) ++
        hashCheckIssues C segments expected) := by
    refine lacks_append.mpr ⟨?_, ?_⟩
    · cases analysisGeometry segments with
      | none => exact lacks_nil
      | some geom => exact lacks_check rfl
    · rw [hashCheckIssues]
      split
      · refine lacks_append.mpr ⟨lacks_hashLoop (fun b hb _ => hb) _ _ _, ?_⟩
        split
        · exact lacks_digestIssues (fun b hb => by cases b <;> first | rfl | cases hb) rfl _ _ _ _
        · exact lacks_nil
      · exact lacks_nil
  rw [analyseAllEwf1_eq, List.append_assoc, List.mem_append]
  exact or_iff_left fun hmem => absurd (ha.symm.trans (hlacks a hmem)) (by decide)

section NoDigest

variable (hp : ∀ a, a.isDigestMismatch = false → p a = false)

include hp

/-- A check that pushes one anomaly, not of a digest of the media, or none. -/
theorem lacks_check_of_not_digest {c : Prop} [Decidable c] {a : EwfIntegrityAnomaly}
    (ha : a.isDigestMismatch = false) : Lacks p (if c then [a] else []) :=
  lacks_check (hp a ha)

theorem lacks_ewf2SectionIssues (C : Crates) (data : List UInt8) (s : Ewf2Section) :
    Lacks p (ewf2SectionIssues C data s) := by
  rw [ewf2SectionIssues]
  refine lacks_ite (lacks_singleton.mpr (hp _ rfl)) (lacks_append.mpr ⟨lacks_ite ?_ lacks_nil,
    lacks_ite ?_ lacks_nil⟩)
  · split
    · exact lacks_check_of_not_digest hp rfl
    · exact lacks_nil
  · split
    · exact lacks_ite lacks_nil (lacks_singleton.mpr (hp _ rfl))
    · exact lacks_singleton.mpr (hp _ rfl)

theorem lacks_headerIssuesV2 (idx : ℕ) (data : List UInt8) : Lacks p (headerIssuesV2 idx data) := by
  rw [headerIssuesV2, lacks_append, lacks_append]
  exact ⟨⟨lacks_check_of_not_digest hp rfl,
    lacks_ite (lacks_singleton.mpr (hp _ rfl)) (lacks_check_of_not_digest hp rfl)⟩,
    lacks_check_of_not_digest hp rfl⟩

/-- One turn of the chunk verification of v2. -/
theorem lacks_verifyTurn {C : Crates} {data tbl : List UInt8} {count i : ℕ} {t : Ewf2Turn}
    (h : verifyTurn C data tbl count i = some t) : Lacks p t.issues := by
  rw [verifyTurn] at h
  split at h
  · cases h
  · next entry _ =>
      split at h
      · cases h
      · next raw _ =>
          have hcrc : Lacks p (mismatch (adler32 raw) (entry.storedCrc data) fun stored =>
              .chunkChecksumMismatch i (adler32 raw) stored) :=
            lacks_mismatch fun r => hp _ rfl
          simp only at h
          split at h
          · obtain rfl := Option.some.inj h
            exact lacks_append.mpr ⟨hcrc, lacks_singleton.mpr (hp _ rfl)⟩
          · obtain rfl := Option.some.inj h
            exact hcrc

/-- The verification of one segment of v2, which is given no stored digest. -/
theorem lacks_verifyEwf2SectorData (C : Crates) (data : List UInt8) (ctStart ctEnd : ℕ) :
    Lacks p (verifyEwf2SectorData C data ctStart ctEnd .none).2.1 := by
  rw [verifyEwf2SectorData]
  split
  · exact lacks_nil
  · split_ifs
    · exact lacks_nil
    · simp only [ExpectedHashes.none, lacks_append]
      refine ⟨⟨⟨⟨lacks_ite (lacks_check_of_not_digest hp rfl) lacks_nil,
        lacks_flatMap fun t ht => ?_⟩, lacks_nil⟩, lacks_nil⟩, lacks_nil⟩
      obtain ⟨j, hj⟩ := List.mem_iff_getElem?.mp ht
      exact lacks_verifyTurn hp (Loop.getElem?_forBreak.mp hj).2.2

theorem lacks_scanSegmentEwf2 (C : Crates) (n idx : ℕ) (data : List UInt8) :
    Lacks p (scanSegmentEwf2 C n idx data).1 := by
  rw [scanSegmentEwf2]
  split_ifs
  · simp only [lacks_append]
    refine ⟨⟨⟨⟨lacks_headerIssuesV2 hp _ _,
      lacks_flatMap fun s _ => lacks_ewf2SectionIssues hp C data s⟩,
      lacks_check_of_not_digest hp rfl⟩, lacks_check_of_not_digest hp rfl⟩, ?_⟩
    split
    · exact lacks_verifyEwf2SectorData hp _ _ _ _
    · exact lacks_nil
  · exact lacks_singleton.mpr (hp _ rfl)

/-- **The segment loop of v2 compares no digest of the media.** -/
theorem lacks_scansEwf2 (C : Crates) (segments : List (List UInt8)) :
    Lacks p ((segments.mapIdx fun idx data =>
      scanSegmentEwf2 C segments.length idx data).flatMap (·.1)) := by
  refine lacks_flatMap fun scan hscan => ?_
  obtain ⟨idx, hidx, rfl⟩ := List.mem_mapIdx.mp hscan
  exact lacks_scanSegmentEwf2 hp C _ _ _

end NoDigest

end Lacks

end EwfForensic

import EwfForensic.Forensic.CoverageV1
import EwfForensic.Forensic.ScanIssues
import EwfForensic.Forensic.ScanV2

/-!
# External Reference Hashes

A caller may hand the analyser an acquisition hash, and the README promises that the matching
`External…Mismatch` anomaly fires if the image was altered. The comparison is made only where
a digest was computed.

* `HashAlg` — the three algorithms, with the builder, the reference and the anomaly of each.
* `Internal` — an anomaly list without an external mismatch; every function of the analysis
  but the comparison itself gives such a list.
* `DigestComputable` — the first segment's geometry parses (v1), or some segment's chunk table
  leads to a chunk that decodes (v2).
* `custody_iff` — the absence of the anomaly certifies the hash exactly on the images for
  which a digest can be computed. `noGeometryImage` is reported clean with any reference.
-/

namespace EwfForensic

open Octets

/-! ### The three algorithms -/

/-- A digest algorithm that a reference can be given for. -/
inductive HashAlg where
  | md5 | sha1 | sha256
  deriving DecidableEq

/-- The digest length in bytes. -/
def HashAlg.size : HashAlg → ℕ
  | .md5 => 16
  | .sha1 => 20
  | .sha256 => 32

/-- The digest of an algorithm among the three computed. -/
def ComputedHashes.get (c : ComputedHashes) : (alg : HashAlg) → Digest.Bytes alg.size
  | .md5 => c.md5
  | .sha1 => c.sha1
  | .sha256 => c.sha256

/-- The reference of an algorithm. -/
def ExpectedHashes.get (e : ExpectedHashes) : (alg : HashAlg) → Option (Digest.Bytes alg.size)
  | .md5 => e.md5
  | .sha1 => e.sha1
  | .sha256 => e.sha256

/-- The builder of an algorithm's reference. -/
def EwfIntegrity.withExpected (self : EwfIntegrity) :
    (alg : HashAlg) → Digest.Bytes alg.size → EwfIntegrity
  | .md5, h => self.withExpectedMd5 h
  | .sha1, h => self.withExpectedSha1 h
  | .sha256, h => self.withExpectedSha256 h

/-- The anomaly is the external mismatch of an algorithm. -/
@[simp] def EwfIntegrityAnomaly.isExternalMismatch (alg : HashAlg) : EwfIntegrityAnomaly → Bool
  | .externalMd5Mismatch .. => alg = .md5
  | .externalSha1Mismatch .. => alg = .sha1
  | .externalSha256Mismatch .. => alg = .sha256
  | _ => false

@[simp] theorem withExpected_segments (self : EwfIntegrity) (alg : HashAlg)
    (h : Digest.Bytes alg.size) : (self.withExpected alg h).segments = self.segments := by
  cases alg <;> rfl

@[simp] theorem withExpected_bytes (self : EwfIntegrity) (alg : HashAlg)
    (h : Digest.Bytes alg.size) : (self.withExpected alg h).bytes = self.bytes := by
  rw [EwfIntegrity.bytes, withExpected_segments, EwfIntegrity.bytes]

@[simp] theorem withExpected_get (self : EwfIntegrity) (alg : HashAlg)
    (h : Digest.Bytes alg.size) : (self.withExpected alg h).expected.get alg = some h := by
  cases alg <;> rfl

/-! ### Lists without an external mismatch -/

/-- No anomaly of the list is an external mismatch. -/
def Internal (alg : HashAlg) (issues : List EwfIntegrityAnomaly) : Prop :=
  ∀ a ∈ issues, a.isExternalMismatch alg = false

section Internal

variable {alg : HashAlg}

@[simp] theorem internal_nil : Internal alg [] := lacks_nil

@[simp] theorem internal_append {xs ys : List EwfIntegrityAnomaly} :
    Internal alg (xs ++ ys) ↔ Internal alg xs ∧ Internal alg ys := lacks_append

@[simp] theorem internal_singleton {a : EwfIntegrityAnomaly} :
    Internal alg [a] ↔ a.isExternalMismatch alg = false := lacks_singleton

theorem internal_ite {p : Prop} [Decidable p] {xs ys : List EwfIntegrityAnomaly}
    (hx : Internal alg xs) (hy : Internal alg ys) : Internal alg (if p then xs else ys) :=
  lacks_ite hx hy

theorem internal_flatMap {β : Type} {xs : List β} {f : β → List EwfIntegrityAnomaly}
    (h : ∀ x ∈ xs, Internal alg (f x)) : Internal alg (xs.flatMap f) := lacks_flatMap h

theorem internal_mismatch {α : Type} [DecidableEq α] {computed : α} {reference : Option α}
    {anomaly : α → EwfIntegrityAnomaly}
    (h : ∀ r, (anomaly r).isExternalMismatch alg = false) :
    Internal alg (mismatch computed reference anomaly) := lacks_mismatch h

/-- The segment loop of the v1 analysis never reports an external mismatch. -/
theorem internal_scanIssues (segments : List (List UInt8)) :
    Internal alg (scanIssues segments) := by
  refine lacks_scanIssues (fun a ha => ?_) segments (Or.inl fun v t => rfl)
  cases a <;> first | rfl | cases ha

/-- An external mismatch is a digest mismatch. -/
theorem isExternalMismatch_of_not_digest {a : EwfIntegrityAnomaly}
    (h : a.isDigestMismatch = false) :
    a.isExternalMismatch alg = false := by
  cases a <;> first | rfl | cases h

/-- The segment loop of the v2 analysis never reports an external mismatch. -/
theorem internal_scansEwf2 (C : Crates) (segments : List (List UInt8)) :
    Internal alg ((segments.mapIdx fun idx data =>
      scanSegmentEwf2 C segments.length idx data).flatMap (·.1)) :=
  lacks_scansEwf2 (fun _ => isExternalMismatch_of_not_digest) C segments

/-! ### The comparison -/

/-- A mismatch that is reported as the algorithm's own is absent exactly when the reference
is the digest. -/
theorem internal_mismatch_iff {α : Type} [DecidableEq α] {computed : α} {reference : Option α}
    {anomaly : α → EwfIntegrityAnomaly} (h : ∀ r, (anomaly r).isExternalMismatch alg = true) :
    Internal alg (mismatch computed reference anomaly) ↔
      ∀ r, reference = some r → computed = r := by
  rw [← @mismatch_eq_nil_iff α _ computed reference anomaly, List.eq_nil_iff_forall_not_mem]
  refine forall_congr' fun a => ⟨fun hi ha => ?_, fun hn ha => absurd ha hn⟩
  obtain ⟨r, -, -, rfl⟩ := mem_mismatch_iff.mp ha
  exact absurd (hi ha) (by rw [h]; decide)

/-- The comparison reports no mismatch of an algorithm exactly when the reference is the
digest. -/
theorem internal_externalIssues_iff {computed : ComputedHashes} {expected : ExpectedHashes} :
    Internal alg (externalIssues computed expected) ↔
      ∀ h, expected.get alg = some h → computed.get alg = h := by
  rw [externalIssues]
  simp only [internal_append]
  cases alg with
  | md5 =>
      rw [and_assoc, and_iff_left ⟨internal_mismatch fun r => by simp,
        internal_mismatch fun r => by simp⟩]
      exact internal_mismatch_iff fun r => by simp
  | sha1 =>
      rw [and_iff_left (internal_mismatch fun r => by simp),
        and_iff_right (internal_mismatch fun r => by simp)]
      exact internal_mismatch_iff fun r => by simp
  | sha256 =>
      rw [and_iff_right ⟨internal_mismatch fun r => by simp, internal_mismatch fun r => by simp⟩]
      exact internal_mismatch_iff fun r => by simp

end Internal

/-- The stream whose digests the analysis compares with the references: in v1 the stream of
the hash loop, in v2 that of `compute_hashes_ewf2`. -/
def digestedStream (C : Crates) (segments : List (List UInt8)) : Option (List UInt8) :=
  if isEwf2 segments then computeStreamEwf2 C segments else analysisStream C segments

theorem internal_storedIssuesV1 {alg : HashAlg} {computed : ComputedHashes}
    {sections : List Section} {data : List UInt8} :
    Internal alg (storedMd5Issues computed.md5 sections data ++
      storedSha1Issues computed.sha1 sections data) := by
  rw [internal_append, storedMd5Issues, storedSha1Issues]
  constructor
  · split
    · exact internal_mismatch fun r => by simp
    · simp
  · split
    · exact internal_mismatch fun r => by simp
    · exact internal_nil

/-- The hash check of a non-empty image reports no mismatch of an algorithm exactly when the
reference is the digest of the stream. -/
theorem internal_checkHash_iff {alg : HashAlg} {C : Crates} {segments : List (List UInt8)}
    {geom : VolumeGeometry} {expected : ExpectedHashes} (hne : segments ≠ []) :
    Internal alg
        (checkHashAllSegments C segments (segments.map walkSectionsV1) geom expected).1 ↔
      ∀ h, expected.get alg = some h →
        (C.hashes (hashedStream C segments (segments.map walkSectionsV1) geom)).get alg = h := by
  have hlast := List.getLast?_eq_some_getLast hne
  have hrun : Internal alg ((hashRun C segments (segments.map walkSectionsV1) geom).flatMap
      (·.issues)) := lacks_hashLoop (fun _ _ => isExternalMismatch_of_not_digest) _ _ _
  rw [checkHashAllSegments]
  simp only [List.getLast?_map, hlast, Option.map_some, internal_append]
  rw [and_iff_right hrun, ← internal_append,
    and_iff_right internal_storedIssuesV1, internal_externalIssues_iff]

/-- An image with a geometry has a segment. -/
theorem ne_nil_of_geometry {segments : List (List UInt8)} {geom : VolumeGeometry}
    (h : analysisGeometry segments = some geom) : segments ≠ [] := by
  rintro rfl
  cases h

/-- The analysis reports no mismatch of an algorithm exactly when its reference, if there is
one, is the digest of the stream, if there is one. -/
theorem internal_analyse_iff {C : Crates} {self : EwfIntegrity} {alg : HashAlg} :
    Internal alg (self.analyse C) ↔
      ∀ stream, digestedStream C self.bytes = some stream →
        ∀ h, self.expected.get alg = some h → (C.hashes stream).get alg = h := by
  rw [EwfIntegrity.analyse, digestedStream]
  split_ifs with hv2
  · have hstream : computeHashesEwf2 C self.bytes = (computeStreamEwf2 C self.bytes).map C.hashes :=
      rfl
    simp only [analyseAllEwf2, internal_append, internal_scansEwf2, true_and, hstream]
    cases computeStreamEwf2 C self.bytes with
    | none => simp
    | some stream =>
        have hstored : Internal alg (storedIssues (C.hashes stream) (finalStored self.bytes)) := by
          simp only [storedIssues, internal_append]
          exact ⟨⟨internal_mismatch fun r => by simp, internal_mismatch fun r => by simp⟩,
            internal_mismatch fun r => by simp⟩
        simp only [Option.map_some, internal_append, hstored, true_and,
          internal_externalIssues_iff, Option.some.injEq, forall_eq']
  · rw [analyseAllEwf1_eq]
    simp only [internal_append, internal_scanIssues, true_and, analysisStream]
    rw [hashCheckIssues]
    cases hgeom : analysisGeometry self.bytes with
    | none => simp [totalCountIssues]
    | some geom =>
        have hcount : Internal alg (totalCountIssues self.bytes.length (some geom)
            (totalTableEntries self.bytes)) :=
          internal_ite (by simp) internal_nil
        simp only [hcount, true_and, Option.map_some, Option.some.injEq, forall_eq']
        exact internal_checkHash_iff (ne_nil_of_geometry hgeom)

/-! ### When a digest can be computed -/

/-- The first volume section of a segment parses: its 24 bytes of geometry are in the file and
in the declared section. -/
def HasGeometry (data : List UInt8) : Prop :=
  ∃ v, findVolume (walkSectionsV1 data) = some v ∧ v.offset + 100 ≤ data.length ∧ 100 ≤ v.size

theorem volumeGeometry_isSome_iff {data : List UInt8} (hdata : data.length < u64Max) :
    (volumeGeometry data).isSome ↔ HasGeometry data := by
  rw [volumeGeometry, HasGeometry]
  cases hv : findVolume (walkSectionsV1 data) with
  | none => simp
  | some v =>
      have hoff := offset_le_of_mem_walkSectionsV1 hdata (List.mem_of_find?_eq_some hv)
      have hstart : satAdd v.offset sectionDescriptorSize = v.offset + 76 :=
        @satAdd_eq v.offset 76 (by omega)
      have hroom : satAdd (v.offset + 76) volumeDataMin ≤ data.length ↔
          v.offset + 100 ≤ data.length :=
        @satAdd_le_iff (v.offset + 76) 24 _ hdata
      have hbody : (volumeBody data v.offset v.size).length =
          min (v.offset + 76 + (v.size - 76)) data.length - (v.offset + 76) := by
        rw [volumeBody, hstart, List.length_take, List.length_drop]
        rw [satAdd]
        rw [show sectionDescriptorSize = 76 from rfl]
        omega
      simp only [Option.bind_some, Option.some.injEq, exists_eq_left', checkVolumeV1, hstart]
      split_ifs with hlt
      · have := mt hroom.mpr (not_le.mpr hlt)
        simp only [Option.isSome_none, Bool.false_eq_true, false_iff]
        omega
      · have := hroom.mp (not_lt.mp hlt)
        rw [EwfVolume.parse]
        split_ifs with hshort
        · simp only [Option.isSome_none, Bool.false_eq_true, false_iff]
          omega
        · simp only [Option.isSome_some, true_iff]
          omega

/-- The chunk table of a v2 segment leads to a chunk that decodes: some entry does, and it
and all entries before it have their chunk in the segment. -/
def LeadsToChunk (C : Crates) (data : List UInt8) : Prop :=
  ∃ tbl, usedChunkTable data = some tbl ∧ ∃ i < leU64 tbl 8,
    (∀ j < i, (chunkOnDisk data tbl j).isSome) ∧
      ∃ p, chunkOnDisk data tbl i = some p ∧ (p.1.decode C p.2).isSome

theorem any_computeTurns_iff {C : Crates} {data : List UInt8} :
    (∃ t ∈ computeTurns C data, t.isSome) ↔ LeadsToChunk C data := by
  rw [computeTurns, LeadsToChunk]
  cases usedChunkTable data with
  | none => simp
  | some tbl =>
      simp only [Option.some.injEq, exists_eq_left', List.mem_iff_getElem?, Loop.getElem?_forBreak,
        Nat.zero_add, computeTurn_eq, Option.isSome_map, Option.map_eq_some_iff]
      constructor
      · rintro ⟨t, ⟨i, hi, hprev, p, hp, rfl⟩, ht⟩
        exact ⟨i, hi, hprev, p, hp, ht⟩
      · rintro ⟨i, hi, hprev, p, hp, ht⟩
        exact ⟨_, ⟨i, hi, hprev, p, hp, rfl⟩, ht⟩

/-- A digest can be computed: the first segment of a v1 image has a geometry; the chunk table
of some segment of a v2 image leads to a chunk. -/
def DigestComputable (C : Crates) (segments : List (List UInt8)) : Prop :=
  if isEwf2 segments then ∃ data ∈ segments, LeadsToChunk C data
  else ∃ data ∈ segments.head?, HasGeometry data

theorem digestedStream_isSome_iff {C : Crates} {segments : List (List UInt8)}
    (h : ∀ d ∈ segments, d.length < u64Max) :
    (digestedStream C segments).isSome ↔ DigestComputable C segments := by
  rw [digestedStream, DigestComputable]
  split_ifs
  · have hany : (segments.flatMap (computeTurns C)).any (·.isSome) = true ↔
        ∃ data ∈ segments, LeadsToChunk C data := by
      simp only [List.any_eq_true, List.mem_flatMap, ← any_computeTurns_iff]
      constructor
      · rintro ⟨t, ⟨data, hd, ht⟩, hs⟩
        exact ⟨data, hd, t, ht, hs⟩
      · rintro ⟨data, hd, t, ht, hs⟩
        exact ⟨t, ⟨data, hd, ht⟩, hs⟩
    rw [← hany, computeStreamEwf2]
    split_ifs with ht
    · simp [ht]
    · simp [ht]
  · rw [analysisStream, Option.isSome_map, analysisGeometry_eq]
    cases segments with
    | nil => simp
    | cons data rest =>
        simpa using volumeGeometry_isSome_iff (h data (List.mem_cons_self ..))

/-- A clean-looking image whose volume section is declared without a body. -/
def noGeometryImage : Segment :=
  ⟨Image.encodeSegment 1
    [⟨.volume, []⟩, ⟨.table, Image.tableBytes 0 true [269] []⟩, ⟨.sectors, [7]⟩] .done 0,
    by decide +kernel⟩

end EwfForensic

import EwfForensic.Forensic.Custody
import EwfForensic.Forensic.StoredHash

/-!
# `compute_hashes` and the Hash Checks

The digests that `compute_hashes` returns against the digest mismatches that `analyse` reports
for the same segments.

* `digestComparisons` — every comparison of a digest of the media, with the digests of
  `compute_hashes`.
* `mem_analyse_iff` — a digest mismatch is reported exactly where such a comparison fails.
* `compute_hashes_agrees` — read off for the external references and for the stored MD5.
-/

namespace EwfForensic

open Octets

/-- The comparisons of the digests `c` with the stored ones and with the references. -/
def digestComparisons (c : ComputedHashes) (self : EwfIntegrity) : List EwfIntegrityAnomaly :=
  (if isEwf2 self.bytes then storedIssues c (finalStored self.bytes)
    else
      match self.bytes.getLast? with
      | some last =>
        storedMd5Issues c.md5 (walkSectionsV1 last) last ++
          storedSha1Issues c.sha1 (walkSectionsV1 last) last
      | none => []) ++
    externalIssues c self.expected

/-- A list without an anomaly does not have it. -/
theorem not_mem_of_lacks {a : EwfIntegrityAnomaly} {issues : List EwfIntegrityAnomaly}
    (h : Lacks (fun b => b = a) issues) : a ∉ issues := by
  intro ha
  have := h a ha
  simp at this

/-- What a comparison reports, with both of its values. -/
theorem mem_mismatch_pair {α : Type} [DecidableEq α] {f : α → α → EwfIntegrityAnomaly}
    (hf : ∀ a b a' b', (f a b = f a' b') = (a = a' ∧ b = b')) {computed x r : α}
    {reference : Option α} :
    f x r ∈ mismatch computed reference (f computed) ↔
      x = computed ∧ reference = some r ∧ r ≠ computed := by
  rw [mem_mismatch_iff]
  constructor
  · rintro ⟨r', href, hne, heq⟩
    rw [hf] at heq
    obtain ⟨rfl, rfl⟩ := heq
    exact ⟨rfl, href, Ne.symm hne⟩
  · rintro ⟨rfl, href, hne⟩
    exact ⟨r, href, Ne.symm hne, rfl⟩

section ComputeHashes

variable {C : Crates} {self : EwfIntegrity} {c : ComputedHashes}

/-- Where `compute_hashes_ewf1` returns digests, they are those of the stream that the analysis
hashes. -/
theorem analysisStream_of_computeStreamEwf1 {segments : List (List UInt8)} {stream : List UInt8}
    (h : computeStreamEwf1 C segments = some stream) : analysisStream C segments = some stream := by
  cases segments with
  | nil => cases h
  | cons first rest =>
      rw [← h]
      have hlen : fileHeaderSize ≤ first.length := by
        by_contra hlt
        rw [computeStreamEwf1, if_pos (not_le.mp hlt)] at h
        cases h
      refine (computeStreamEwf1_eq hlen ?_).symm
      by_contra hsig
      rw [computeStreamEwf1, if_neg (not_lt.mpr hlen), if_pos (by simpa using hsig)] at h
      cases h

/-- **Digest mismatches.** A digest mismatch is reported exactly where a comparison with the
digests of `compute_hashes` fails. -/
theorem mem_analyse_iff (h : self.computeHashes C = some c) {a : EwfIntegrityAnomaly}
    (ha : a.isDigestMismatch = true) : a ∈ self.analyse C ↔ a ∈ digestComparisons c self := by
  have hother : ∀ b : EwfIntegrityAnomaly, b.isDigestMismatch = false → decide (b = a) = false := by
    intro b hb
    rw [decide_eq_false_iff_not]
    rintro rfl
    rw [ha] at hb
    cases hb
  rw [EwfIntegrity.computeHashes] at h
  rw [EwfIntegrity.analyse, digestComparisons]
  by_cases hv2 : isEwf2 self.bytes = true
  · rw [if_pos hv2] at h ⊢
    have hscan := not_mem_of_lacks (lacks_scansEwf2 hother C self.bytes)
    rw [if_pos hv2, analyseAllEwf2, h]
    simp only [List.mem_append, hscan, false_or]
  · rw [if_neg hv2] at h ⊢
    obtain ⟨stream, hstream, rfl⟩ := Option.map_eq_some_iff.mp h
    have hanalysis := analysisStream_of_computeStreamEwf1 hstream
    obtain ⟨geom, hgeom, hhashed⟩ := Option.map_eq_some_iff.mp hanalysis
    obtain ⟨last, hlast⟩ : ∃ last, self.bytes.getLast? = some last :=
      ⟨_, List.getLast?_eq_some_getLast (ne_nil_of_geometry hgeom)⟩
    have hscan : a ∉ scanIssues self.bytes := by
      refine not_mem_of_lacks (lacks_scanIssues (fun b hb => hother b ?_) _ (Or.inl fun v t => ?_))
      · cases b <;> first | rfl | cases hb
      · exact hother _ rfl
    have htotal : a ∉ totalCountIssues self.bytes.length (some geom)
        (totalTableEntries self.bytes) :=
      not_mem_of_lacks (lacks_check_of_not_digest hother rfl)
    have hrun :
        a ∉ (hashRun C self.bytes (self.bytes.map walkSectionsV1) geom).flatMap (·.issues) :=
      not_mem_of_lacks (lacks_hashLoop (fun a _ ha => hother a ha) _ _ _)
    rw [if_neg hv2, hlast, analyseAllEwf1_eq, hashCheckIssues, hgeom]
    simp only [checkHashAllSegments, List.getLast?_map, hlast, Option.map_some, hhashed,
      List.mem_append, hscan, htotal, hrun, false_or]

/-- An external mismatch comes from the comparison with the references. -/
theorem mem_digestComparisons_external {alg : HashAlg} {a : EwfIntegrityAnomaly}
    (ha : a.isExternalMismatch alg = true) :
    a ∈ digestComparisons c self ↔ a ∈ externalIssues c self.expected := by
  have hstored : ∀ issues, Internal alg issues → a ∉ issues := by
    intro issues h hmem
    rw [h a hmem] at ha
    cases ha
  rw [digestComparisons, List.mem_append, or_iff_right]
  apply hstored
  refine internal_ite ?_ ?_
  · rw [storedIssues, internal_append, internal_append]
    exact ⟨⟨internal_mismatch fun r => by simp, internal_mismatch fun r => by simp⟩,
      internal_mismatch fun r => by simp⟩
  · split
    · exact internal_storedIssuesV1
    · exact internal_nil

/-- In a v1 image a hash mismatch comes from the comparison with the stored MD5. -/
theorem mem_digestComparisons_hash (hv1 : isEwf2 self.bytes = false) {last : List UInt8}
    (hlast : self.bytes.getLast? = some last) {s : Section}
    (hs : findSection (walkSectionsV1 last) .hash = some s) {computed r : Digest.Bytes 16} :
    .hashMismatch computed r ∈ digestComparisons c self ↔
      .hashMismatch computed r ∈ mismatch c.md5
        (Digest.bytesAt? 16 last (satAdd s.offset sectionDescriptorSize))
          (.hashMismatch c.md5) := by
  rw [digestComparisons, hv1, hlast]
  simp only [Bool.false_eq_true, if_false, storedMd5Issues, hs, storedSha1Issues, externalIssues]
  cases findSection (walkSectionsV1 last) .digest with
  | none => simp [mem_mismatch_iff]
  | some d => simp [mem_mismatch_iff]

end ComputeHashes

/-- **`compute_hashes` and the hash checks agree.** Where `compute_hashes` returns digests, the
mismatch with a reference is reported exactly if the reference differs from its digest, with that
digest; and in v1 so is the mismatch with the stored MD5. -/
theorem compute_hashes_agrees (C : Crates) (self : EwfIntegrity) (c : ComputedHashes)
    (h : self.computeHashes C = some c) :
    (∀ computed e, .externalMd5Mismatch computed e ∈ self.analyse C ↔
      computed = c.md5 ∧ self.expected.md5 = some e ∧ e ≠ c.md5) ∧
    (∀ computed e, .externalSha1Mismatch computed e ∈ self.analyse C ↔
      computed = c.sha1 ∧ self.expected.sha1 = some e ∧ e ≠ c.sha1) ∧
    (∀ computed e, .externalSha256Mismatch computed e ∈ self.analyse C ↔
      computed = c.sha256 ∧ self.expected.sha256 = some e ∧ e ≠ c.sha256) ∧
    (isEwf2 self.bytes = false → ∀ last s stored, self.bytes.getLast? = some last →
      findSection (walkSectionsV1 last) .hash = some s →
      Digest.bytesAt? 16 last (s.offset + 76) = some stored →
      ∀ computed r, .hashMismatch computed r ∈ self.analyse C ↔
        computed = c.md5 ∧ r = stored ∧ stored ≠ c.md5) := by
  have hext : ∀ (alg : HashAlg) (a : EwfIntegrityAnomaly), a.isExternalMismatch alg = true →
      (a ∈ self.analyse C ↔ a ∈ externalIssues c self.expected) := by
    intro alg a ha
    have hdigest : a.isDigestMismatch = true := by
      by_contra hne
      rw [isExternalMismatch_of_not_digest (Bool.not_eq_true _ ▸ hne)] at ha
      cases ha
    exact (mem_analyse_iff h hdigest).trans (mem_digestComparisons_external ha)
  refine ⟨fun computed e => ?_, fun computed e => ?_, fun computed e => ?_, ?_⟩
  · rw [hext .md5 _ rfl, externalIssues, ← mem_mismatch_pair fun a b a' b' =>
      EwfIntegrityAnomaly.externalMd5Mismatch.injEq a b a' b']
    simp [mem_mismatch_iff]
  · rw [hext .sha1 _ rfl, externalIssues, ← mem_mismatch_pair fun a b a' b' =>
      EwfIntegrityAnomaly.externalSha1Mismatch.injEq a b a' b']
    simp [mem_mismatch_iff]
  · rw [hext .sha256 _ rfl, externalIssues, ← mem_mismatch_pair fun a b a' b' =>
      EwfIntegrityAnomaly.externalSha256Mismatch.injEq a b a' b']
    simp [mem_mismatch_iff]
  · intro hv1 last s stored hlast hs hstored computed r
    have hmem := List.mem_of_getLast? hlast
    obtain ⟨src, -, rfl⟩ := List.mem_map.mp hmem
    have hlen := src.length_lt_u64Max
    have hoff := offset_le_of_mem_walkSectionsV1 hlen (mem_of_findSection hs)
    have haddr : satAdd s.offset sectionDescriptorSize = s.offset + 76 :=
      @satAdd_eq s.offset 76 (by omega)
    rw [mem_analyse_iff h rfl, mem_digestComparisons_hash hv1 hlast hs, haddr, hstored,
      mem_mismatch_pair fun a b a' b' => EwfIntegrityAnomaly.hashMismatch.injEq a b a' b',
      Option.some.injEq]
    refine and_congr_right fun _ => ⟨?_, ?_⟩
    · rintro ⟨rfl, hne⟩
      exact ⟨rfl, hne⟩
    · rintro ⟨rfl, hne⟩
      exact ⟨rfl, hne⟩

/-- The whole image with a reference that is not its MD5. -/
theorem compute_hashes_agrees_wholeImage :
    ∃ c, (EwfIntegrity.fromSegments [wholeImage]).computeHashes Crates.reference = some c ∧
      .externalMd5Mismatch c.md5 (Digest.zero 16) ∈
        ((EwfIntegrity.fromSegments [wholeImage]).withExpectedMd5 (Digest.zero 16)).analyse
          Crates.reference := by
  have hsome : ((EwfIntegrity.fromSegments [wholeImage]).computeHashes Crates.reference).map
      (fun c => decide (c.md5 = Digest.zero 16)) = some false := by decide +kernel
  obtain ⟨c, hc, hne⟩ := Option.map_eq_some_iff.mp hsome
  refine ⟨c, hc, ?_⟩
  exact ((compute_hashes_agrees Crates.reference
    ((EwfIntegrity.fromSegments [wholeImage]).withExpectedMd5 (Digest.zero 16)) c hc).1 _ _).mpr
    ⟨rfl, rfl, fun he => of_decide_eq_false hne he.symm⟩

end EwfForensic

import EwfForensic.Forensic.Custody

/-!
# Stored Hashes

What a clean verdict says about the digests stored in the final segment. The analysis compares
the first `hash` section and the first `digest` section of a v1 segment, and the last
full-length digest of each type that the v2 walk meets; it does so only where a digest was
computed.

* `BackedByHash` — the final segment stores a full-length digest, and each one it stores is
  the digest of the decoded sector data.
* `StoredHashesChecked` — the condition on the image: a digest can be computed, a full-length
  one is stored, and no stored digest hides behind another of its type.
* `backedByHash_iff` — on a clean image the two are the same.
-/

namespace EwfForensic

open Octets

/-! ### The decoded media -/

/-- The media as a clean reader would piece it together: chunk `j` gives the first bytes of
its decoded range, as many as the media has left for it. -/
def decodedMedia (C : Crates) (segments : List (List UInt8)) : List UInt8 :=
  match segments.head?.bind volumeGeometry with
  | some geom => (imageRanges segments).zipIdx.flatMap fun p =>
      (decodeForHash C p.1.2.compressed (p.1.2.raw p.1.1)
        (min (geom.totalBytes - p.2 * geom.chunkSize) geom.chunkSize)).getD []
  | none => []

theorem decodeForHash_zero (C : Crates) (compressed : Bool) (raw : List UInt8) :
    (decodeForHash C compressed raw 0).getD [] = [] := by
  rw [decodeForHash]
  split_ifs
  · cases C.zlib.readUpTo (satAdd 0 1) raw <;> rfl
  · rfl

/-- What the hash loop feeds, chunk by chunk. -/
theorem hashLoop_fed_eq {C : Crates} {chunkSize totalBytes total : ℕ}
    (cs : List (List UInt8 × ChunkRange)) (k idx : ℕ) :
    (hashLoop C chunkSize totalBytes (total - k * chunkSize) idx cs).flatMap (·.fed) =
      (cs.zipIdx k).flatMap fun p =>
        (decodeForHash C p.1.2.compressed (p.1.2.raw p.1.1)
          (min (total - p.2 * chunkSize) chunkSize)).getD [] := by
  induction cs generalizing k idx with
  | nil => rfl
  | cons p cs ih =>
      obtain ⟨data, c⟩ := p
      have hrest : total - k * chunkSize - min (total - k * chunkSize) chunkSize =
          total - (k + 1) * chunkSize := by
        have : (k + 1) * chunkSize = k * chunkSize + chunkSize := Nat.succ_mul k chunkSize
        omega
      have htail := ih (k + 1) (satAdd idx 1)
      rw [← hrest] at htail
      simp only [List.zipIdx_cons, List.flatMap_cons, ← htail]
      rw [hashLoop]
      split_ifs with hz
      · rw [hz, Nat.zero_min, decodeForHash_zero]
        cases cs with
        | nil => rfl
        | cons q qs =>
            rw [hashLoop, Nat.zero_sub, if_pos rfl]
            rfl
      · simp only [List.flatMap_cons]
        congr 1
        unfold hashChunk
        simp only
        cases decodeForHash C c.compressed (c.raw data)
          (min (total - k * chunkSize) chunkSize) <;> rfl

/-- The loop of `compute_hashes` feeds what the hash loop feeds. -/
theorem computeLoop_flatten {C : Crates} {chunkSize : ℕ} (total : ℕ)
    (cs : List (List UInt8 × ChunkRange)) (remaining idx : ℕ) :
    (computeLoop C chunkSize remaining cs).flatten =
      (hashLoop C chunkSize total remaining idx cs).flatMap (·.fed) := by
  induction cs generalizing remaining idx with
  | nil => rfl
  | cons p cs ih =>
      obtain ⟨data, c⟩ := p
      rw [computeLoop, hashLoop]
      by_cases hz : remaining = 0
      · rw [if_pos hz, if_pos hz]
        rfl
      · rw [if_neg hz, if_neg hz]
        simp only [List.flatten_cons, List.flatMap_cons, hashChunk, ← ih _ (satAdd idx 1)]
        congr 1
        cases decodeForHash C c.compressed (c.raw data) (min remaining chunkSize) <;> rfl

/-- **`compute_hashes` digests the stream of the analysis**, unless the first segment has no
signature. -/
theorem computeStreamEwf1_eq {C : Crates} {first : List UInt8} {rest : List (List UInt8)}
    (hlen : fileHeaderSize ≤ first.length)
    (hsig : first.take 8 ∈ [evfSignature, dvfSignature, lvfSignature]) :
    computeStreamEwf1 C (first :: rest) = analysisStream C (first :: rest) := by
  have hsig' : ¬ (first.take 8 ≠ evfSignature ∧ first.take 8 ≠ dvfSignature ∧
      first.take 8 ≠ lvfSignature) := by
    simp only [List.mem_cons, List.not_mem_nil, or_false] at hsig
    tauto
  rw [analysisStream, analysisGeometry_eq, List.head?_cons, Option.bind_some, volumeGeometry,
    computeStreamEwf1]
  rw [if_neg (not_lt.mpr hlen), if_neg hsig']
  cases findVolume (walkSectionsV1 first) with
  | none => rfl
  | some v =>
      rw [Option.bind_some]
      simp only
      cases (checkVolumeV1 first v.offset v.size).1 with
      | none => rfl
      | some geom =>
          have hfed := @computeLoop_flatten C geom.chunkSize geom.totalBytes
            (allChunks (first :: rest) ((first :: rest).map walkSectionsV1)) geom.totalBytes 0
          rw [Option.map_some]
          exact congrArg some hfed

/-- The stream that the v1 analysis hashes is the decoded media. -/
theorem analysisStream_eq {C : Crates} {segments : List (List UInt8)}
    (h : ∀ d ∈ segments, d.length < u64Max) {stream : List UInt8}
    (hs : analysisStream C segments = some stream) : stream = decodedMedia C segments := by
  obtain ⟨geom, hgeom, rfl⟩ := Option.map_eq_some_iff.mp hs
  rw [analysisGeometry_eq] at hgeom
  have hfed := @hashLoop_fed_eq C geom.chunkSize geom.totalBytes geom.totalBytes
    (imageRanges segments) 0 0
  rw [Nat.zero_mul, Nat.sub_zero] at hfed
  rw [decodedMedia, hgeom, hashedStream, hashRun, allChunks_eq h]
  exact hfed

/-! ### Stored digests -/

/-- The MD5 of each `hash` section of a v1 segment whose 16 bytes are in the file. -/
def storedMd5s (data : List UInt8) : List (Digest.Bytes 16) :=
  ((walkSectionsV1 data).filter (·.typeName = .hash)).filterMap fun s =>
    Digest.bytesAt? 16 data (s.offset + 76)

/-- The SHA-1 that a v1 `digest` section stores, if it is in the file and not all zero. -/
def sha1Of (data : List UInt8) (s : Section) : Option (Digest.Bytes 20) :=
  (Digest.bytesAt? 20 data (s.offset + 92)).filter (· ≠ Digest.zero 20)

/-- The SHA-1 of each `digest` section of a v1 segment that stores one. -/
def storedSha1s (data : List UInt8) : List (Digest.Bytes 20) :=
  ((walkSectionsV1 data).filter (·.typeName = .digest)).filterMap (sha1Of data)

/-- The SHA-1 of the first `digest` section. -/
def firstSha1 (data : List UInt8) : Option (Digest.Bytes 20) :=
  (findSection (walkSectionsV1 data) .digest).bind (sha1Of data)

/-- The digest of each section of type `t` of a v2 segment whose declared body holds `n`
bytes. -/
def storedDigests (n t : ℕ) (data : List UInt8) : List (Digest.Bytes n) :=
  ((backwardWalk data).filter fun s => s.sectionType = t ∧ n ≤ s.dataSize).filterMap fun s =>
    (s.body data).bind fun body => Digest.bytesAt? n body 0

/-- A verdict backed by stored hashes: the final segment stores a full-length digest, and
every digest it stores is that of the decoded sector data of all segments. -/
def BackedByHash (C : Crates) (segments : List (List UInt8)) : Prop :=
  ∃ last ∈ segments.getLast?, ∃ stream, digestedStream C segments = some stream ∧
    if isEwf2 segments then
      (storedDigests 16 evf2TypeMd5Hash last ≠ [] ∨ storedDigests 20 evf2TypeSha1Hash last ≠ [] ∨
        storedDigests 32 evf2TypeSha256Hash last ≠ []) ∧
      (∀ h ∈ storedDigests 16 evf2TypeMd5Hash last, C.md5 stream = h) ∧
      (∀ h ∈ storedDigests 20 evf2TypeSha1Hash last, C.sha1 stream = h) ∧
      ∀ h ∈ storedDigests 32 evf2TypeSha256Hash last, C.sha256 stream = h
    else
      storedMd5s last ≠ [] ∧ (∀ h ∈ storedMd5s last, C.md5 stream = h) ∧
        ∀ h ∈ storedSha1s last, C.sha1 stream = h

/-- All members of a list are equal. -/
def AllEqual {α : Type} (xs : List α) : Prop := ∀ x ∈ xs, ∀ y ∈ xs, x = y

/-- The stored hashes of the final segment are all checked: a digest can be computed, a
full-length one is stored, and the stored digests of one type agree. A v1 SHA-1 behind a first
`digest` section that stores none is compared with nothing, so it has to be right of itself. -/
def StoredHashesChecked (C : Crates) (segments : List (List UInt8)) : Prop :=
  DigestComputable C segments ∧ ∃ last ∈ segments.getLast?,
    if isEwf2 segments then
      (storedDigests 16 evf2TypeMd5Hash last ≠ [] ∨ storedDigests 20 evf2TypeSha1Hash last ≠ [] ∨
        storedDigests 32 evf2TypeSha256Hash last ≠ []) ∧
      AllEqual (storedDigests 16 evf2TypeMd5Hash last) ∧
      AllEqual (storedDigests 20 evf2TypeSha1Hash last) ∧
      AllEqual (storedDigests 32 evf2TypeSha256Hash last)
    else
      storedMd5s last ≠ [] ∧ AllEqual (storedMd5s last) ∧
        ∀ h ∈ storedSha1s last, h = (firstSha1 last).getD (C.sha1 (decodedMedia C segments))

/-! ### First and later sections -/

/-- The positions of the walk grow. -/
theorem pairwise_walkSectionsV1 (data : List UInt8) :
    (walkSectionsV1 data).Pairwise fun a b => a.offset < b.offset := by
  rw [walkSectionsV1, List.pairwise_map]
  refine @Loop.pairwise_visits _ (walkStep data) (fun p => p.1.offset) ?_ ?_ _ _
  all_goals
    intro pos a t hstep
    rw [walkStep] at hstep
    split at hstep
    · cases hstep
    · split at hstep
      · cases hstep
      · next desc _ =>
          simp only at hstep
          split_ifs at hstep with h1 h2
          all_goals simp only [Option.some.injEq, Prod.mk.injEq, reduceCtorEq, and_false] at hstep
          all_goals first | (rw [← hstep.1]) | (rw [← hstep.2]; omega)

/-- The first section of a type is the one with the smallest offset. -/
theorem findSection_offset_le {data : List UInt8} {t : SectionType} {first s : Section}
    (hfirst : findSection (walkSectionsV1 data) t = some first) (hs : s ∈ walkSectionsV1 data)
    (ht : s.typeName = t) : first.offset ≤ s.offset := by
  rw [findSection, List.find?_eq_some_iff_append] at hfirst
  obtain ⟨-, before, after, hwalk, hbefore⟩ := hfirst
  have hpair := pairwise_walkSectionsV1 data
  rw [hwalk] at hs hpair
  rcases List.mem_append.mp hs with hmem | hmem
  · have := hbefore s hmem
    simp [ht] at this
  · rcases List.mem_cons.mp hmem with rfl | hmem
    · exact le_rfl
    · exact le_of_lt (List.rel_of_pairwise_cons (List.pairwise_append.mp hpair).2.1 hmem)

/-- If any `hash` section stores a full MD5, the first one does. -/
theorem firstMd5_of_ne_nil {data : List UInt8} (h : storedMd5s data ≠ []) :
    ∃ s first, findSection (walkSectionsV1 data) .hash = some s ∧
      Digest.bytesAt? 16 data (s.offset + 76) = some first ∧ first ∈ storedMd5s data := by
  obtain ⟨x, hx⟩ := List.exists_mem_of_ne_nil _ h
  obtain ⟨s, hs, hsx⟩ := List.mem_filterMap.mp hx
  obtain ⟨hmem, htype⟩ := List.mem_filter.mp hs
  have htype : s.typeName = .hash := by simpa using htype
  obtain ⟨first, hfirst⟩ : ∃ first, findSection (walkSectionsV1 data) .hash = some first :=
    Option.isSome_iff_exists.mp (List.find?_isSome.mpr ⟨s, hmem, by simpa using htype⟩)
  have hle := findSection_offset_le hfirst hmem htype
  have hroom : s.offset + 76 + 16 ≤ data.length :=
    (Digest.isSome_bytesAt? (by decide)).mp (by rw [hsx]; rfl)
  obtain ⟨b, hb⟩ := Option.isSome_iff_exists.mp
    ((@Digest.isSome_bytesAt? 16 data (first.offset + 76) (by decide)).mpr (by omega))
  have hftype : first.typeName = .hash := by simpa using List.find?_some hfirst
  refine ⟨first, b, hfirst, hb, List.mem_filterMap.mpr ⟨first, ?_, hb⟩⟩
  exact List.mem_filter.mpr ⟨mem_of_findSection hfirst, by simpa using hftype⟩

/-- Given that a value is one of them, all members equal it exactly when they are equal. -/
theorem forall_eq_iff_allEqual {α : Type} {xs : List α} {v first : α} (hfirst : first ∈ xs)
    (hv : v = first) : (∀ x ∈ xs, v = x) ↔ AllEqual xs := by
  subst hv
  exact ⟨fun h x hx y hy => (h x hx).symm.trans (h y hy), fun h x hx => h v hfirst x hx⟩

/-! ### The v1 comparison -/

section V1

variable {C : Crates} {segments : List (List UInt8)} {expected : ExpectedHashes}
variable {last : List UInt8} {stream : List UInt8}

/-- On a clean image the stored digests that the v1 analysis looks at are right. -/
theorem clean_stored_v1 (h : analyseAllEwf1 C segments expected = [])
    (hstream : analysisStream C segments = some stream) (hlast : segments.getLast? = some last) :
    storedMd5Issues (C.md5 stream) (walkSectionsV1 last) last = [] ∧
      storedSha1Issues (C.sha1 stream) (walkSectionsV1 last) last = [] := by
  obtain ⟨geom, hgeom, rfl⟩ := Option.map_eq_some_iff.mp hstream
  rw [analyseAllEwf1_eq, List.append_eq_nil_iff] at h
  have hcheck := h.2
  rw [hashCheckIssues, hgeom] at hcheck
  simp only [checkHashAllSegments, List.getLast?_map, hlast, Option.map_some,
    List.append_eq_nil_iff] at hcheck
  exact hcheck.2.1

/-- On a clean v1 image the stored MD5s are all right exactly when they agree. -/
theorem md5_iff_v1 (hlen : last.length < u64Max)
    (h : storedMd5Issues (C.md5 stream) (walkSectionsV1 last) last = []) :
    (storedMd5s last ≠ [] ∧ ∀ x ∈ storedMd5s last, C.md5 stream = x) ↔
      storedMd5s last ≠ [] ∧ AllEqual (storedMd5s last) := by
  refine and_congr_right fun hne => ?_
  obtain ⟨s, first, hs, hfirst, hmem⟩ := firstMd5_of_ne_nil hne
  have hoff := offset_le_of_mem_walkSectionsV1 hlen (mem_of_findSection hs)
  rw [storedMd5Issues, hs] at h
  simp only [mismatch_eq_nil_iff] at h
  rw [show satAdd s.offset sectionDescriptorSize = s.offset + 76 from
    @satAdd_eq s.offset 76 (by omega)] at h
  exact forall_eq_iff_allEqual hmem (h first hfirst)

/-- On a clean v1 image the stored SHA-1s are all right exactly when each is the first
section's, or the media's where the first section stores none. -/
theorem sha1_iff_v1 (hlen : last.length < 9223372036854775808)
    (h : storedSha1Issues (C.sha1 stream) (walkSectionsV1 last) last = []) :
    (∀ x ∈ storedSha1s last, C.sha1 stream = x) ↔
      ∀ x ∈ storedSha1s last, x = (firstSha1 last).getD (C.sha1 stream) := by
  have hfirst : ∀ x, firstSha1 last = some x → C.sha1 stream = x := by
    intro x hx
    obtain ⟨s, hs, hsx⟩ := Option.bind_eq_some_iff.mp hx
    have hoff := offset_le_of_mem_walkSectionsV1 (by unfold u64Max; omega) (mem_of_findSection hs)
    have haddr : satAdd (satAdd s.offset sectionDescriptorSize) 16 = s.offset + 92 := by
      rw [show satAdd s.offset sectionDescriptorSize = s.offset + 76 from
        @satAdd_eq s.offset 76 (by unfold u64Max; omega)]
      exact satAdd_eq (by unfold u64Max; omega)
    rw [storedSha1Issues, hs] at h
    simp only [mismatch_eq_nil_iff, haddr] at h
    exact h x hsx
  refine forall₂_congr fun x _ => ?_
  cases hf : firstSha1 last with
  | none => exact eq_comm
  | some y =>
      rw [hfirst y hf]
      exact eq_comm

end V1

/-! ### The v2 comparison -/

/-- In a clean segment the digest that the walk keeps is the last full-length one. -/
theorem storedDigest_eq {C : Crates} {data : List UInt8} (h : CleanEwf2Segment C data)
    (n t : ℕ) : storedDigest n t data (backwardWalk data) = (storedDigests n t data).getLast? := by
  rw [storedDigest, storedDigests]
  rw [List.filterMap_filter]
  congr 1
  refine List.filterMap_congr fun s hs => ?_
  have hplain := h.isPlain_iff hs t
  by_cases hc : s.sectionType = t ∧ n ≤ s.dataSize
  · rw [if_pos ⟨hplain.mpr hc.1, hc.2⟩]
    simp [hc]
  · rw [if_neg fun hi => hc ⟨hplain.mp hi.1, hi.2⟩]
    simp [hc]

/-- Digests whose last one is right are all right exactly when they agree. -/
theorem forall_eq_iff_of_getLast? {α : Type} {xs : List α} {v : α}
    (h : ∀ x, xs.getLast? = some x → v = x) : (∀ x ∈ xs, v = x) ↔ AllEqual xs := by
  cases hlast : xs.getLast? with
  | none =>
      rw [List.getLast?_eq_none_iff] at hlast
      simp [hlast, AllEqual]
  | some x => exact forall_eq_iff_allEqual (List.mem_of_getLast? hlast) (h x hlast)

/-! ### The verdict -/

/-- **A clean verdict and the stored hashes.** On a non-empty image that the analysis reports
clean, the verdict is backed by the stored hashes exactly when they were all checked. -/
theorem backedByHash_iff (C : Crates) (segs : List Segment)
    (hclean : (EwfIntegrity.fromSegments segs).analyse C = []) :
    BackedByHash C (segs.map (·.data)) ↔ StoredHashesChecked C (segs.map (·.data)) := by
  set segments := segs.map (·.data) with hsegments
  have hlen : ∀ d ∈ segments, d.length < 9223372036854775808 := fun d hd => by
    obtain ⟨s, -, rfl⟩ := List.mem_map.mp hd
    exact s.length_lt
  have hmax : ∀ d ∈ segments, d.length < u64Max := fun d hd =>
    lt_trans (hlen d hd) (by decide)
  rw [BackedByHash, StoredHashesChecked]
  rw [← digestedStream_isSome_iff hmax]
  cases hstream : digestedStream C segments with
  | none => simp
  | some stream =>
      simp only [Option.some.injEq, exists_eq_left', Option.isSome_some, true_and]
      refine exists_congr fun last => and_congr_right fun hlast => ?_
      have hlast : segments.getLast? = some last := hlast
      have hmem := List.mem_of_getLast? hlast
      split_ifs with hv2
      · have hscan : (analyseAllEwf2 C segments .none).1 = [] := by
          rw [← hclean, @analyse_v2 C (EwfIntegrity.fromSegments segs) hv2]
          rfl
        rw [digestedStream, if_pos hv2] at hstream
        have hseg := clean_ewf2 hscan last hmem
        have hstored := clean_storedIssues hscan hstream
        simp only [finalStored, hlast, hseg.readable, if_true, storedDigest_eq hseg, storedIssues,
          List.append_eq_nil_iff, mismatch_eq_nil_iff] at hstored
        obtain ⟨⟨hmd5, hsha1⟩, hsha256⟩ := hstored
        rw [← forall_eq_iff_of_getLast? hmd5, ← forall_eq_iff_of_getLast? hsha1,
          ← forall_eq_iff_of_getLast? hsha256]
        rfl
      · have hscan : analyseAllEwf1 C segments .none = [] := by
          rw [← hclean, @analyse_v1 C (EwfIntegrity.fromSegments segs) (Bool.eq_false_iff.mpr hv2)]
          rfl
        rw [digestedStream, if_neg hv2] at hstream
        obtain ⟨hmd5, hsha1⟩ := clean_stored_v1 hscan hstream hlast
        rw [← analysisStream_eq hmax hstream, ← and_assoc, ← and_assoc,
          md5_iff_v1 (hmax last hmem) hmd5, sha1_iff_v1 (hlen last hmem) hsha1]

theorem backedByHash_iff_wholeImage :
    (EwfIntegrity.fromSegments [wholeImage]).analyse Crates.reference = [] ∧
      (BackedByHash Crates.reference [wholeImage.data] ↔
        StoredHashesChecked Crates.reference [wholeImage.data]) := by
  have hclean : (EwfIntegrity.fromSegments [wholeImage]).analyse Crates.reference = [] := by
    decide +kernel
  exact ⟨hclean, backedByHash_iff Crates.reference [wholeImage] hclean⟩

/-- The image without a geometry is reported clean although it stores no hash at all. -/
theorem noGeometryImage_not_backedByHash :
    (EwfIntegrity.fromSegments [noGeometryImage]).analyse Crates.reference = [] ∧
      ¬ BackedByHash Crates.reference [noGeometryImage.data] := by
  refine ⟨by decide +kernel, ?_⟩
  rintro ⟨last, -, stream, hstream, -⟩
  have hnone : digestedStream Crates.reference [noGeometryImage.data] = none := by
    decide +kernel
  rw [hnone] at hstream
  cases hstream

end EwfForensic

import EwfForensic.Core.Cursor
import EwfForensic.Core.TwoStores
import Mathlib.Data.List.DropRight

/-!
# What an Image Records in Its Sections

A v1 open goes through the sections in chain order over all segments, and each handler sets its
variables from the section alone. So a variable that an open ends with is a fold over what the
sections record.

* `foldl_of_openV1` — the rule: from one section to the whole open.
* `hashRecords`, `foldl_note_eq_lastDigest` — the `hash` and `digest` sections, and the digests
  that an open ends with.
* `stored_hashes_merge_iff` — these are a recorded non-zero digest if there is one, and absent
  otherwise, exactly when no later section takes it away.
-/

namespace EwfForensic

open Octets

/-! ### From one section to the whole open -/

/-- What the sections of some segments record, in order. -/
def recordedIn {ρ : Type} (record : List UInt8 → SectionDescriptor → Option ρ)
    (segments : List Segment) : List ρ :=
  segments.flatMap fun s => (collectDescriptors s.data).filterMap (record s.data)

section Rule

variable {C : Crates} {isLazy : Bool} {β ρ : Type} {f : OpenState → β}
  {record : List UInt8 → SectionDescriptor → Option ρ} {note : β → ρ → β}

/-- The handler of a section sets the variable `f` by noting what the section records. -/
def Notes (C : Crates) (isLazy : Bool) (f : OpenState → β)
    (record : List UInt8 → SectionDescriptor → Option ρ) (note : β → ρ → β) : Prop :=
  ∀ segIdx data descs st desc st',
    handleDescriptor C isLazy (segmentContext segIdx data descs) st desc = .ok st' →
      f st' = (record data desc).toList.foldl note (f st)

/-- The sections of one segment. -/
theorem Notes.segment (h : Notes C isLazy f record note) {st st' : OpenState} {q : Segment × ℕ}
    (hst : openSegment C isLazy st q = .ok st') :
    f st' = ((collectDescriptors q.1.data).filterMap (record q.1.data)).foldl note (f st) := by
  refine Fold.foldlM_prefix (fun ds (s : OpenState) =>
    f s = (ds.filterMap (record q.1.data)).foldl note (f st)) hst (p := []) rfl
    fun ds d s s' hs hd => ?_
  have hone : [d].filterMap (record q.1.data) = (record q.1.data d).toList := by
    rw [List.filterMap_cons, List.filterMap_nil]
    cases record q.1.data d <;> rfl
  rw [h _ _ _ _ _ _ hd, hs, List.filterMap_append, List.foldl_append, hone]

/-- **From one section to the whole open**: a variable that each handler sets by noting what the
section records ends as the fold over what all sections record. -/
theorem foldl_of_openV1 (h : Notes C isLazy f record note) {segments : List Segment}
    {st : OpenState} (hst : segments.zipIdx.foldlM (openSegment C isLazy) {} = .ok st) :
    f st = (recordedIn record segments).foldl note (f {}) := by
  have hrun := Fold.foldlM_prefix (fun qs (s : OpenState) =>
      f s = (recordedIn record (qs.map Prod.fst)).foldl note (f {})) hst (p := []) rfl
    fun qs q s s' hs hq => by
      rw [h.segment hq, hs, recordedIn, recordedIn, List.map_append, List.flatMap_append,
        List.foldl_append, List.map_singleton, List.flatMap_singleton]
  rwa [List.nil_append, List.zipIdx_map_fst] at hrun

end Rule

/-- The state an open ends with is what its reader stores. -/
theorem stored_of_openV1 {C : Crates} {sources : List Segment} {cacheSize : ℕ}
    {lazySectionCache : Option ℕ} {r : EwfReader}
    (h : openV1 C sources cacheSize lazySectionCache = .ok r) :
    ∃ st, r.segments.zipIdx.foldlM (openSegment C lazySectionCache.isSome) {} = .ok st ∧
      r.storedMd5 = st.storedMd5 ∧ r.storedSha1 = st.storedSha1 ∧
      r.acquisitionErrors = st.acquisitionErrors := by
  obtain ⟨-, headers, ordered, st, -, -, hst, hr⟩ := openV1_eq_ok_iff.mp h
  rw [finishOpen.eq_def] at hr
  split_ifs at hr
  obtain rfl := Except.ok.inj hr
  exact ⟨st, hst, rfl, rfl, rfl⟩

/-! ### Which handler sets what -/

/-- What a handler other than those of digests and errors leaves alone. -/
structure OpenState.SameRecords (st st' : OpenState) : Prop where
  storedMd5 : st'.storedMd5 = st.storedMd5
  storedSha1 : st'.storedSha1 = st.storedSha1
  acquisitionErrors : st'.acquisitionErrors = st.acquisitionErrors

theorem handleHeader_sameRecords {C : Crates} {ctx : SegmentContext} {st st' : OpenState}
    {desc : SectionDescriptor} (h : handleHeader C ctx st desc = .ok st') :
    st.SameRecords st' := by
  rw [handleHeader] at h
  split_ifs at h
  · obtain ⟨buf, -, hr⟩ := except_bind_eq_ok_iff.mp h
    split at hr
    · obtain rfl := Except.ok.inj hr
      exact ⟨rfl, rfl, rfl⟩
    · obtain rfl := Except.ok.inj hr
      exact ⟨rfl, rfl, rfl⟩
  · obtain rfl := Except.ok.inj h
    exact ⟨rfl, rfl, rfl⟩

theorem handleTable_sameRecords {isLazy : Bool} {ctx : SegmentContext} {st st' : OpenState}
    {desc : SectionDescriptor}
    (h : (if isLazy then handleTableLazy ctx st desc else handleTableEager ctx st desc) =
      .ok st') : st.SameRecords st' := by
  cases isLazy with
  | false =>
      obtain ⟨-, -, rfl⟩ := handleTableEager_ok h
      exact ⟨rfl, rfl, rfl⟩
  | true =>
      obtain rfl := handleTableLazy_ok h
      exact ⟨rfl, rfl, rfl⟩

/-- The sections with handlers that record something. -/
def SectionType.Records (t : SectionType) : Prop := t = .hash ∨ t = .digest ∨ t = .error2

/-- **Which handler sets what**: `hash` and `digest` sections the digests, `error2` sections the
errors, and no other section any of them. -/
theorem handleDescriptor_records {C : Crates} {isLazy : Bool} {segIdx : ℕ} {data : List UInt8}
    {descs : List SectionDescriptor} {st st' : OpenState} {desc : SectionDescriptor}
    (h : handleDescriptor C isLazy (segmentContext segIdx data descs) st desc = .ok st') :
    (desc.sectionType = .hash ∧ handleHash (segmentContext segIdx data descs) st desc = .ok st') ∨
      (desc.sectionType = .digest ∧
        handleDigest (segmentContext segIdx data descs) st desc = .ok st') ∨
      (desc.sectionType = .error2 ∧
        handleError2 (segmentContext segIdx data descs) st desc = .ok st') ∨
      (¬ desc.sectionType.Records ∧ st.SameRecords st') := by
  by_cases hrec : desc.sectionType.Records
  · -- neither a volume nor a table records anything, so that its handler is not reached
    have hv : ¬ (desc.sectionType = .volume ∨ desc.sectionType = .disk) := by
      rcases hrec with h | h | h <;> simp [h]
    have ht : desc.sectionType ≠ (segmentContext segIdx data descs).tableType := by
      rw [segmentContext]
      rcases hrec with h | h | h <;> rw [h] <;> split_ifs <;> simp
    rw [handleDescriptor, if_neg hv, if_neg ht] at h
    rcases hrec with ht | ht | ht
    · rw [if_pos ht] at h
      exact Or.inl ⟨ht, h⟩
    · rw [if_neg (by simp [ht]), if_pos ht] at h
      exact Or.inr (Or.inl ⟨ht, h⟩)
    · rw [if_neg (by simp [ht]), if_neg (by simp [ht]), if_neg (by simp [ht]), if_pos ht] at h
      exact Or.inr (Or.inr (Or.inl ⟨ht, h⟩))
  · refine Or.inr (Or.inr (Or.inr ⟨hrec, ?_⟩))
    rw [handleDescriptor] at h
    by_cases hv : desc.sectionType = .volume ∨ desc.sectionType = .disk
    · rw [if_pos hv] at h
      obtain ⟨-, rfl⟩ := handleVolume_ok h
      exact ⟨rfl, rfl, rfl⟩
    rw [if_neg hv] at h
    by_cases ht : desc.sectionType = (segmentContext segIdx data descs).tableType
    · rw [if_pos ht] at h
      exact handleTable_sameRecords h
    rw [if_neg ht, if_neg fun he => hrec (Or.inl he),
      if_neg fun he => hrec (Or.inr (Or.inl he))] at h
    split_ifs at h with hheader herror
    · exact handleHeader_sameRecords h
    · exact absurd (Or.inr (Or.inr herror)) hrec
    · obtain rfl := Except.ok.inj h
      exact ⟨rfl, rfl, rfl⟩

/-! ### Digests -/

/-- What a `hash` or a `digest` section records. -/
inductive HashRecord where
  | hash (md5 : Digest.Bytes 16)
  | digest (md5 : Digest.Bytes 16) (sha1 : Digest.Bytes 20)
  deriving DecidableEq

/-- The record of a section, if it is a `hash` or a `digest` section. -/
def hashRecordAt (data : List UInt8) (desc : SectionDescriptor) : Option HashRecord :=
  if desc.sectionType = .hash then
    some (.hash (Digest.bytesAt 16 (readAtMost data (desc.offset + sectionDescriptorSize) 16) 0))
  else if desc.sectionType = .digest then
    let buf := readAtMost data (desc.offset + sectionDescriptorSize) 36
    some (.digest (Digest.bytesAt 16 buf 0) (Digest.bytesAt 20 buf 16))
  else none

/-- The `hash` and `digest` sections of an image in order. -/
def hashRecords (segments : List Segment) : List HashRecord := recordedIn hashRecordAt segments

theorem hashRecordAt_hash {data : List UInt8} {desc : SectionDescriptor}
    (h : desc.sectionType = .hash) : hashRecordAt data desc = some (.hash (Digest.bytesAt 16
      (readAtMost data (desc.offset + sectionDescriptorSize) 16) 0)) := if_pos h

theorem hashRecordAt_digest {data : List UInt8} {desc : SectionDescriptor}
    (h : desc.sectionType = .digest) : hashRecordAt data desc = some (.digest
      (Digest.bytesAt 16 (readAtMost data (desc.offset + sectionDescriptorSize) 36) 0)
      (Digest.bytesAt 20 (readAtMost data (desc.offset + sectionDescriptorSize) 36) 16)) := by
  rw [hashRecordAt, if_neg (by simp [h]), if_pos h]

theorem hashRecordAt_other {data : List UInt8} {desc : SectionDescriptor}
    (hhash : desc.sectionType ≠ .hash) (hdigest : desc.sectionType ≠ .digest) :
    hashRecordAt data desc = none := by
  rw [hashRecordAt, if_neg hhash, if_neg hdigest]

/-- A digest, unless it is zero. -/
def nonZero {n : ℕ} (d : Digest.Bytes n) : Option (Digest.Bytes n) :=
  if d ≠ Digest.zero n then some d else none

/-- How a record changes the stored digests. -/
def HashRecord.note (stored : Option (Digest.Bytes 16) × Option (Digest.Bytes 20)) :
    HashRecord → Option (Digest.Bytes 16) × Option (Digest.Bytes 20)
  | .hash md5 => (stored.1.or (some md5), stored.2)
  | .digest md5 sha1 => (nonZero md5, nonZero sha1)

/-- The stored digests. -/
def OpenState.digests (st : OpenState) : Option (Digest.Bytes 16) × Option (Digest.Bytes 20) :=
  (st.storedMd5, st.storedSha1)

/-- An `error2` section sets the errors alone. -/
theorem handleError2_digests {ctx : SegmentContext} {st st' : OpenState} {desc : SectionDescriptor}
    (h : handleError2 ctx st desc = .ok st') : st'.digests = st.digests := by
  rw [handleError2] at h
  split_ifs at h
  · obtain ⟨buf, -, hr⟩ := except_bind_eq_ok_iff.mp h
    obtain rfl := Except.ok.inj hr
    rfl
  · obtain rfl := Except.ok.inj h
    rfl

theorem notes_digests (C : Crates) (isLazy : Bool) :
    Notes C isLazy OpenState.digests hashRecordAt HashRecord.note := by
  intro segIdx data descs st desc st' h
  rcases handleDescriptor_records h with ⟨ht, h⟩ | ⟨ht, h⟩ | ⟨ht, h⟩ | ⟨hrec, hsame⟩
  · obtain ⟨buf, hbuf, hr⟩ := except_bind_eq_ok_iff.mp h
    obtain rfl := Except.ok.inj hr
    obtain rfl := ((readExact_eq_ok_iff (by decide)).mp hbuf).2
    rw [hashRecordAt_hash ht]
    rfl
  · obtain ⟨buf, hbuf, hr⟩ := except_bind_eq_ok_iff.mp h
    obtain rfl := Except.ok.inj hr
    obtain rfl := ((readExact_eq_ok_iff (by decide)).mp hbuf).2
    rw [hashRecordAt_digest ht]
    rfl
  · rw [hashRecordAt_other (by simp [ht]) (by simp [ht])]
    exact handleError2_digests h
  · rw [hashRecordAt_other (fun he => hrec (Or.inl he)) fun he => hrec (Or.inr (Or.inl he))]
    exact Prod.ext hsame.storedMd5 hsame.storedSha1

/-! ### Which digests an open ends with -/

/-- The digests of a `digest` section. -/
def HashRecord.digests : HashRecord → Option (Digest.Bytes 16 × Digest.Bytes 20)
  | .hash _ => none
  | .digest md5 sha1 => some (md5, sha1)

/-- The MD5 of either section. -/
def HashRecord.md5 : HashRecord → Digest.Bytes 16
  | .hash md5 => md5
  | .digest md5 _ => md5

/-- The digests of the last `digest` section. -/
def lastDigest (records : List HashRecord) : Option (Digest.Bytes 16 × Digest.Bytes 20) :=
  (records.filterMap HashRecord.digests).getLast?

/-- The MD5s of the `hash` sections since the last `digest` section. -/
def hashesSinceDigest (records : List HashRecord) : List (Digest.Bytes 16) :=
  records.foldl (fun
    | hashes, .hash md5 => hashes ++ [md5]
    | _, .digest _ _ => []) []

@[simp] theorem lastDigest_append_hash (records : List HashRecord) (md5 : Digest.Bytes 16) :
    lastDigest (records ++ [.hash md5]) = lastDigest records := by
  rw [lastDigest, List.filterMap_append]
  exact congrArg List.getLast? (List.append_nil _)

@[simp] theorem lastDigest_append_digest (records : List HashRecord) (md5 : Digest.Bytes 16)
    (sha1 : Digest.Bytes 20) : lastDigest (records ++ [.digest md5 sha1]) = some (md5, sha1) := by
  rw [lastDigest, List.filterMap_append]
  exact List.getLast?_append_of_ne_nil _ (List.cons_ne_nil _ _)

@[simp] theorem hashesSinceDigest_append_hash (records : List HashRecord)
    (md5 : Digest.Bytes 16) :
    hashesSinceDigest (records ++ [.hash md5]) = hashesSinceDigest records ++ [md5] :=
  List.foldl_append

@[simp] theorem hashesSinceDigest_append_digest (records : List HashRecord)
    (md5 : Digest.Bytes 16) (sha1 : Digest.Bytes 20) :
    hashesSinceDigest (records ++ [.digest md5 sha1]) = [] :=
  List.foldl_append

theorem mem_of_mem_hashesSinceDigest {records : List HashRecord} {v : Digest.Bytes 16}
    (h : v ∈ hashesSinceDigest records) : v ∈ records.map HashRecord.md5 := by
  induction records using List.reverseRecOn with
  | nil => cases h
  | append_singleton records record ih =>
      rw [List.map_append]
      cases record with
      | hash md5 =>
          rw [hashesSinceDigest_append_hash] at h
          rcases List.mem_append.mp h with h | h
          · exact List.mem_append_left _ (ih h)
          · exact List.mem_append_right _ h
      | digest md5 sha1 =>
          rw [hashesSinceDigest_append_digest] at h
          cases h

theorem mem_of_lastDigest {records : List HashRecord} {d : Digest.Bytes 16 × Digest.Bytes 20}
    (h : lastDigest records = some d) :
    d.1 ∈ records.map HashRecord.md5 ∧ d ∈ records.filterMap HashRecord.digests := by
  have hmem := List.mem_of_getLast? h
  refine ⟨?_, hmem⟩
  obtain ⟨record, hrecord, hd⟩ := List.mem_filterMap.mp hmem
  cases record with
  | hash md5 => cases hd
  | digest md5 sha1 =>
      obtain rfl := Option.some.inj hd
      exact List.mem_map_of_mem hrecord

/-- **Which digests an open ends with**: those of the last `digest` section that are not zero, and
for a missing MD5 that of the first `hash` section since. -/
theorem foldl_note_eq_lastDigest (records : List HashRecord) :
    records.foldl HashRecord.note (none, none) =
      (((lastDigest records).bind fun d => nonZero d.1).or (hashesSinceDigest records).head?,
        (lastDigest records).bind fun d => nonZero d.2) := by
  induction records using List.reverseRecOn with
  | nil => rfl
  | append_singleton records record ih =>
      rw [List.foldl_append, ih, List.foldl_cons, List.foldl_nil]
      cases record with
      | hash md5 =>
          rw [HashRecord.note, lastDigest_append_hash, hashesSinceDigest_append_hash,
            Option.or_assoc, List.head?_append, List.head?_singleton]
      | digest md5 sha1 =>
          rw [HashRecord.note, lastDigest_append_digest, hashesSinceDigest_append_digest,
            List.head?_nil, Option.or_none]
          rfl

/-! ### When the digests merge -/

/-- A stored digest is a recorded one that is not zero if there is any, and else absent. -/
structure Merged {n : ℕ} (recorded : List (Digest.Bytes n)) (stored : Option (Digest.Bytes n)) :
    Prop where
  present : (∃ v ∈ recorded, v ≠ Digest.zero n) →
    ∃ v ∈ recorded, v ≠ Digest.zero n ∧ stored = some v
  absent : (∀ v ∈ recorded, v = Digest.zero n) → stored = none

/-- No section takes the MD5 away: that of the last `digest` section is not zero, or that of the
first `hash` section since is not, or there is none since and none to take away. -/
def KeepsMd5 (records : List HashRecord) : Prop :=
  (∃ d ∈ lastDigest records, d.1 ≠ Digest.zero 16) ∨
    (∃ v ∈ (hashesSinceDigest records).head?, v ≠ Digest.zero 16) ∨
    hashesSinceDigest records = [] ∧ ∀ v ∈ records.map HashRecord.md5, v = Digest.zero 16

/-- No section takes the SHA-1 away: that of the last `digest` section is not zero, or there is
none to take away. -/
def KeepsSha1 (records : List HashRecord) : Prop :=
  (∃ d ∈ lastDigest records, d.2 ≠ Digest.zero 20) ∨
    ∀ d ∈ records.filterMap HashRecord.digests, d.2 = Digest.zero 20

/-- A digest that is stored merges if and only if it is a recorded one that is not zero. -/
theorem merged_some_iff {n : ℕ} {recorded : List (Digest.Bytes n)} {v : Digest.Bytes n}
    (hv : v ∈ recorded) : Merged recorded (some v) ↔ v ≠ Digest.zero n := by
  constructor
  · rintro h rfl
    by_cases hall : ∀ w ∈ recorded, w = Digest.zero n
    · cases h.absent hall
    · obtain ⟨w, hw, hne⟩ : ∃ w ∈ recorded, w ≠ Digest.zero n := by
        push Not at hall
        exact hall
      obtain ⟨u, -, hu, hstored⟩ := h.present ⟨w, hw, hne⟩
      exact hu (Option.some.inj hstored).symm
  · intro hne
    exact ⟨fun _ => ⟨v, hv, hne, rfl⟩, fun hall => absurd (hall v hv) hne⟩

theorem merged_none_iff {n : ℕ} {recorded : List (Digest.Bytes n)} :
    Merged recorded none ↔ ∀ v ∈ recorded, v = Digest.zero n := by
  constructor
  · intro h v hv
    by_contra hne
    obtain ⟨w, -, -, hstored⟩ := h.present ⟨v, hv, hne⟩
    cases hstored
  · intro hall
    refine ⟨?_, fun _ => rfl⟩
    rintro ⟨v, hv, hne⟩
    exact absurd (hall v hv) hne

theorem nonZero_of_ne {n : ℕ} {d : Digest.Bytes n} (h : d ≠ Digest.zero n) : nonZero d = some d :=
  if_pos h

@[simp] theorem nonZero_zero (n : ℕ) : nonZero (Digest.zero n) = none := if_neg (not_not.mpr rfl)

/-- **When the MD5s merge**, over all sequences of sections. -/
theorem merged_md5_iff (records : List HashRecord) :
    Merged (records.map HashRecord.md5) (records.foldl HashRecord.note (none, none)).1 ↔
      KeepsMd5 records := by
  rw [foldl_note_eq_lastDigest]
  by_cases hlast : ∃ d ∈ lastDigest records, d.1 ≠ Digest.zero 16
  · obtain ⟨d, hd, hne⟩ := hlast
    refine iff_of_true ?_ (Or.inl ⟨d, hd, hne⟩)
    rw [Option.mem_def.mp hd, Option.bind_some, nonZero_of_ne hne, Option.some_or]
    exact (merged_some_iff (mem_of_lastDigest hd).1).mpr hne
  · have hnone : ((lastDigest records).bind fun d => nonZero d.1) = none := by
      cases hd : lastDigest records with
      | none => rfl
      | some d =>
          have hzero : d.1 = Digest.zero 16 := by
            by_contra hne
            exact hlast ⟨d, hd, hne⟩
          rw [Option.bind_some, hzero, nonZero_zero]
    rw [hnone, Option.none_or, KeepsMd5, or_iff_right hlast]
    cases hhashes : hashesSinceDigest records with
    | nil =>
        rw [List.head?_nil, merged_none_iff]
        simp
    | cons v rest =>
        have hv : v ∈ hashesSinceDigest records := hhashes ▸ List.mem_cons_self ..
        rw [List.head?_cons, merged_some_iff (mem_of_mem_hashesSinceDigest hv)]
        simp

/-- **When the SHA-1s merge**, over all sequences of sections. -/
theorem merged_sha1_iff (records : List HashRecord) :
    Merged ((records.filterMap HashRecord.digests).map Prod.snd)
        (records.foldl HashRecord.note (none, none)).2 ↔ KeepsSha1 records := by
  have hall : (∀ v ∈ (records.filterMap HashRecord.digests).map Prod.snd, v = Digest.zero 20) ↔
      ∀ d ∈ records.filterMap HashRecord.digests, d.2 = Digest.zero 20 := List.forall_mem_map
  have hstored := congrArg Prod.snd (foldl_note_eq_lastDigest records)
  simp only at hstored
  rw [hstored, KeepsSha1]
  cases hd : lastDigest records with
  | none =>
      rw [Option.bind_none, merged_none_iff, hall]
      simp
  | some d =>
      by_cases hzero : d.2 = Digest.zero 20
      · rw [Option.bind_some, hzero, nonZero_zero, merged_none_iff, hall]
        simp [hzero]
      · have hmem := List.mem_map_of_mem (f := Prod.snd) (mem_of_lastDigest hd).2
        rw [Option.bind_some, nonZero_of_ne hzero, merged_some_iff hmem]
        simp [hzero]

/-- **The stored digests** of an opened v1 image are recorded non-zero digests where there are any,
and absent where there are none, if and only if no later section takes them away. -/
theorem stored_hashes_merge_iff (C : Crates) (sources : List Segment) (cacheSize : ℕ)
    (lazySectionCache : Option ℕ) (r : EwfReader)
    (h : openV1 C sources cacheSize lazySectionCache = .ok r) :
    (Merged ((hashRecords r.segments).map HashRecord.md5) r.storedMd5 ↔
        KeepsMd5 (hashRecords r.segments)) ∧
      (Merged (((hashRecords r.segments).filterMap HashRecord.digests).map Prod.snd) r.storedSha1 ↔
        KeepsSha1 (hashRecords r.segments)) := by
  obtain ⟨st, hst, hmd5, hsha1, -⟩ := stored_of_openV1 h
  have hrun : st.digests = (hashRecords r.segments).foldl HashRecord.note (none, none) :=
    foldl_of_openV1 (notes_digests C _) hst
  rw [hmd5, hsha1, ← merged_md5_iff, ← merged_sha1_iff, ← hrun]
  exact ⟨Iff.rfl, Iff.rfl⟩

/-- An image of a volume and the sections `sections`. -/
def sectionsBytes (sections : List Image.RawSection) : List UInt8 :=
  Image.encodeSegment 1
    (⟨.volume, Image.volumeFront 1 1 1 512 1 ++ List.replicate 70 0⟩ :: sections) .done 0

/-- An image with a `hash` section of sixteen ones, and then a `digest` section of zeros. -/
def erasedHashImage : Segment :=
  ⟨sectionsBytes [⟨.hash, List.replicate 16 1⟩, ⟨.digest, List.replicate 36 0⟩], by decide +kernel⟩

/-- The same sections the other way round. -/
def keptHashImage : Segment :=
  ⟨sectionsBytes [⟨.digest, List.replicate 36 0⟩, ⟨.hash, List.replicate 16 1⟩], by decide +kernel⟩

theorem stored_hashes_merge_iff_keptHashImage :
    ∃ r, openV1 Crates.reference [keptHashImage] 1 none = .ok r ∧
      Merged ((hashRecords r.segments).map HashRecord.md5) r.storedMd5 := by
  have hval : (openV1 Crates.reference [keptHashImage] 1 none).toOption.map (fun r : EwfReader =>
      decide (hashRecords r.segments = [.digest (Digest.zero 16) (Digest.zero 20),
        .hash ⟨List.replicate 16 1, rfl⟩])) = some true := by
    decide +kernel
  obtain ⟨r, hr, hrecords⟩ := Option.map_eq_some_iff.mp hval
  have hopen := ok_of_toOption_eq_some hr
  refine ⟨r, hopen, (stored_hashes_merge_iff Crates.reference _ _ _ r hopen).1.mpr ?_⟩
  rw [of_decide_eq_true hrecords]
  exact Or.inr (Or.inl ⟨_, rfl, by decide⟩)

/-- The digest section of zeros takes the recorded MD5 away. -/
theorem erasedHashImage_not_merged :
    ∃ r, openV1 Crates.reference [erasedHashImage] 1 none = .ok r ∧ r.storedMd5 = none ∧
      ¬ Merged ((hashRecords r.segments).map HashRecord.md5) r.storedMd5 := by
  have hval : (openV1 Crates.reference [erasedHashImage] 1 none).toOption.map (fun r : EwfReader =>
      decide (r.storedMd5 = none ∧ hashRecords r.segments = [.hash ⟨List.replicate 16 1, rfl⟩,
        .digest (Digest.zero 16) (Digest.zero 20)])) = some true := by
    decide +kernel
  obtain ⟨r, hr, hrecords⟩ := Option.map_eq_some_iff.mp hval
  obtain ⟨hmd5, hrecords⟩ := of_decide_eq_true hrecords
  refine ⟨r, ok_of_toOption_eq_some hr, hmd5, ?_⟩
  rw [hmd5, hrecords, merged_none_iff]
  intro hall
  exact absurd (hall _ (List.mem_cons_self ..)) (by decide)

end EwfForensic

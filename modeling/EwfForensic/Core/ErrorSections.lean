import EwfForensic.Core.RecordedSections

/-!
# The Acquisition Errors of an Image

A v1 open parses the `error2` sections in chain order over all segments, and keeps the entries of
the last one that it reads.

* `parseError2Data_eq` — the entries that the parser lists: as many as declared, but whole ones.
* `foldl_note_eq_lastRead` — an open ends with the entries of the last section that it reads.
* `acquisition_errors_iff` — these are all entries of all sections that hold what they declare,
  exactly when no other section lists any.
-/

namespace EwfForensic

open Octets

/-! ### Sections -/

/-- An `error2` section: its size without the descriptor, and the bytes of it that are there. -/
structure ErrorSection where
  size : ℕ
  body : List UInt8
  deriving DecidableEq

/-- The `error2` section of a descriptor. -/
def errorSectionAt (data : List UInt8) (desc : SectionDescriptor) : Option ErrorSection :=
  if desc.sectionType = .error2 then
    some ⟨desc.sectionSize - sectionDescriptorSize, readAtMost data
      (desc.offset + sectionDescriptorSize) (desc.sectionSize - sectionDescriptorSize)⟩
  else none

/-- The `error2` sections of an image in order. -/
def errorSections (segments : List Segment) : List ErrorSection :=
  recordedIn errorSectionAt segments

/-- An open reads sections of some bytes that are not too long. -/
def ErrorSection.Read (s : ErrorSection) : Prop := 0 < s.size ∧ s.size < maxSectionDataSize

instance (s : ErrorSection) : Decidable s.Read := inferInstanceAs (Decidable (_ ∧ _))

/-- The number of entries that a section declares. -/
def ErrorSection.count (s : ErrorSection) : ℕ := leU32 s.body 0

/-- The entry at an index. -/
def ErrorSection.entry (s : ErrorSection) (i : ℕ) : AcquisitionError :=
  ⟨leU32 s.body (8 + i * 8), leU32 s.body (8 + i * 8 + 4)⟩

/-- The declared entries lie inside the section. -/
def ErrorSection.Fits (s : ErrorSection) : Prop := 8 + s.count * 8 ≤ s.body.length

instance (s : ErrorSection) : Decidable s.Fits := inferInstanceAs (Decidable (_ ≤ _))

/-- The entries that a section declares. -/
def ErrorSection.entries (s : ErrorSection) : List AcquisitionError :=
  (List.range s.count).map s.entry

/-- The section holds its entries, and there are some. -/
def ErrorSection.Lists (s : ErrorSection) : Prop := s.Fits ∧ 0 < s.count

instance (s : ErrorSection) : Decidable s.Lists := inferInstanceAs (Decidable (_ ∧ _))

/-- The number of whole entries that a section has room for. -/
def ErrorSection.room (s : ErrorSection) : ℕ := (s.body.length - 8) / 8

/-- All entries of all sections that hold what they declare. -/
def allEntries (sections : List ErrorSection) : List AcquisitionError :=
  (sections.filter fun s => s.Fits).flatMap ErrorSection.entries

/-! ### The parser -/

/-- The parser lists declared entries as far as they are whole. -/
theorem error2Entries_eq (s : ErrorSection) (k i : ℕ) :
    error2Entries s.body k i = (List.range' i (min k (s.room - i))).map s.entry := by
  induction k generalizing i with
  | zero => rw [error2Entries, Nat.zero_min]; rfl
  | succ k ih =>
      rw [error2Entries]
      split_ifs with hlong
      · have hroom : s.room - i = 0 := by
          rw [ErrorSection.room]
          omega
        rw [hroom, Nat.min_zero]
        rfl
      · have hroom : min (k + 1) (s.room - i) = min k (s.room - (i + 1)) + 1 := by
          rw [ErrorSection.room]
          omega
        rw [hroom, List.range'_succ, List.map_cons, ih]
        rfl

theorem parseError2Data_eq (s : ErrorSection) :
    parseError2Data s.body = (List.range (min s.count s.room)).map s.entry := by
  rw [parseError2Data]
  split_ifs with hshort
  · have hroom : s.room = 0 := by
      rw [ErrorSection.room]
      omega
    rw [hroom, Nat.min_zero]
    rfl
  · rw [error2Entries_eq, List.range_eq_range']
    rfl

/-- A section that holds what it declares is parsed in full. -/
theorem parseError2Data_of_fits {s : ErrorSection} (h : s.Fits) :
    parseError2Data s.body = s.entries := by
  have hroom : min s.count s.room = s.count := by
    rw [ErrorSection.Fits] at h
    rw [ErrorSection.room]
    omega
  rw [parseError2Data_eq, hroom, ErrorSection.entries]

/-! ### Which errors an open ends with -/

/-- How a section changes the errors. -/
def ErrorSection.note (errors : List AcquisitionError) (s : ErrorSection) : List AcquisitionError :=
  if s.Read then parseError2Data s.body else errors

theorem errorSectionAt_error2 {data : List UInt8} {desc : SectionDescriptor}
    (h : desc.sectionType = .error2) : errorSectionAt data desc =
      some ⟨desc.sectionSize - sectionDescriptorSize, readAtMost data
        (desc.offset + sectionDescriptorSize) (desc.sectionSize - sectionDescriptorSize)⟩ :=
  if_pos h

theorem errorSectionAt_other {data : List UInt8} {desc : SectionDescriptor}
    (h : desc.sectionType ≠ .error2) : errorSectionAt data desc = none := if_neg h

theorem notes_errors (C : Crates) (isLazy : Bool) :
    Notes C isLazy OpenState.acquisitionErrors errorSectionAt ErrorSection.note := by
  intro segIdx data descs st desc st' h
  rcases handleDescriptor_records h with ⟨ht, h⟩ | ⟨ht, h⟩ | ⟨ht, h⟩ | ⟨hrec, hsame⟩
  · obtain ⟨buf, -, hr⟩ := except_bind_eq_ok_iff.mp h
    obtain rfl := Except.ok.inj hr
    rw [errorSectionAt_other (by simp [ht])]
    rfl
  · obtain ⟨buf, -, hr⟩ := except_bind_eq_ok_iff.mp h
    obtain rfl := Except.ok.inj hr
    rw [errorSectionAt_other (by simp [ht])]
    rfl
  · rw [errorSectionAt_error2 ht, Option.toList_some, List.foldl_cons, List.foldl_nil,
      ErrorSection.note]
    rw [handleError2] at h
    split_ifs at h with hread
    · obtain ⟨buf, hbuf, hr⟩ := except_bind_eq_ok_iff.mp h
      obtain rfl := Except.ok.inj hr
      obtain rfl := ((readExact_eq_ok_iff hread.1).mp hbuf).2
      exact (if_pos hread).symm
    · obtain rfl := Except.ok.inj h
      exact (if_neg hread).symm
  · rw [errorSectionAt_other fun he => hrec (Or.inr (Or.inr he))]
    exact hsame.acquisitionErrors

/-- The last section that an open reads. -/
def lastRead (sections : List ErrorSection) : Option ErrorSection :=
  (sections.filter fun s => s.Read).getLast?

/-- **Which errors an open ends with**: those of the last section that it reads. -/
theorem foldl_note_eq_lastRead (sections : List ErrorSection) :
    sections.foldl ErrorSection.note [] =
      ((lastRead sections).map fun s => parseError2Data s.body).getD [] := by
  induction sections using List.reverseRecOn with
  | nil => rfl
  | append_singleton rest s ih =>
      rw [List.foldl_append, ih, List.foldl_cons, List.foldl_nil, ErrorSection.note, lastRead,
        lastRead, List.filter_append]
      by_cases hread : s.Read
      · rw [if_pos hread, List.filter_cons_of_pos (by simpa using hread), List.filter_nil,
          List.getLast?_append, List.getLast?_singleton]
        rfl
      · rw [if_neg hread, List.filter_cons_of_neg (by simpa using hread), List.filter_nil,
          List.append_nil]

/-! ### When no error is lost -/

/-- The last section that is read is the only one that lists entries; or, where it declares more
than it holds, its whole entries are those of the sections that hold theirs. -/
def NoneLost (sections : List ErrorSection) : Prop :=
  match lastRead sections with
  | none => sections.filter (fun s => s.Lists) = []
  | some s =>
    if s.Fits then sections.filter (fun s => s.Lists) = [s].filter fun s => s.Lists
    else (List.range (min s.count s.room)).map s.entry = allEntries sections

instance (sections : List ErrorSection) : Decidable (NoneLost sections) :=
  match h : lastRead sections with
  | none => decidable_of_iff (sections.filter (fun s => s.Lists) = []) (by rw [NoneLost, h])
  | some s => decidable_of_iff
      (if s.Fits then sections.filter (fun s => s.Lists) = [s].filter fun s => s.Lists
        else (List.range (min s.count s.room)).map s.entry = allEntries sections)
      (by rw [NoneLost, h])

theorem ErrorSection.entries_eq_nil_iff {s : ErrorSection} : s.entries = [] ↔ s.count = 0 := by
  rw [ErrorSection.entries, List.map_eq_nil_iff, List.range_eq_nil]

/-- Only sections that list entries contribute. -/
theorem allEntries_eq (sections : List ErrorSection) :
    allEntries sections = (sections.filter fun s => s.Lists).flatMap ErrorSection.entries := by
  rw [allEntries]
  induction sections with
  | nil => rfl
  | cons s rest ih =>
      by_cases hfits : s.Fits
      · rw [List.filter_cons_of_pos (by simpa using hfits), List.flatMap_cons, ih]
        by_cases hcount : 0 < s.count
        · rw [List.filter_cons_of_pos (by simpa using ⟨hfits, hcount⟩), List.flatMap_cons]
        · rw [List.filter_cons_of_neg (by simpa using fun h : s.Lists => hcount h.2),
            ErrorSection.entries_eq_nil_iff.mpr (by omega), List.nil_append]
      · rw [List.filter_cons_of_neg (by simpa using hfits), ih,
          List.filter_cons_of_neg (by simpa using fun h : s.Lists => hfits h.1)]

/-- There are no entries only where no section lists any. -/
theorem allEntries_eq_nil_iff {sections : List ErrorSection} :
    allEntries sections = [] ↔ sections.filter (fun s => s.Lists) = [] := by
  rw [allEntries_eq, List.flatMap_eq_nil_iff]
  constructor
  · intro h
    rw [List.eq_nil_iff_forall_not_mem]
    intro s hs
    have hlists : s.Lists := by simpa using (List.mem_filter.mp hs).2
    exact absurd (ErrorSection.entries_eq_nil_iff.mp (h s hs)) (Nat.pos_iff_ne_zero.mp hlists.2)
  · intro h s hs
    rw [h] at hs
    cases hs

/-- One section's entries are all entries only where no other section lists any. -/
theorem entries_eq_allEntries_iff {sections : List ErrorSection} {s : ErrorSection}
    (hs : s ∈ sections) (hfits : s.Fits) : s.entries = allEntries sections ↔
      sections.filter (fun s => s.Lists) = [s].filter fun s => s.Lists := by
  by_cases hlists : s.Lists
  · rw [List.filter_cons_of_pos (by simpa using hlists), List.filter_nil, allEntries_eq]
    constructor
    · intro h
      have hmem : s ∈ sections.filter fun s => s.Lists :=
        List.mem_filter.mpr ⟨hs, by simpa using hlists⟩
      obtain ⟨before, after, hsplit⟩ := List.append_of_mem hmem
      -- the entries of the other sections leave no room in the list
      have hlen := congrArg List.length h
      rw [hsplit, List.flatMap_append, List.flatMap_cons, List.length_append,
        List.length_append] at hlen
      have hnone : ∀ part : List ErrorSection, (∀ t ∈ part, t ∈ before ++ s :: after) →
          (part.flatMap ErrorSection.entries).length = 0 → part = [] := by
        intro part hpart hzero
        rw [List.eq_nil_iff_forall_not_mem]
        intro t ht
        have htlists : t.Lists := by
          have hfilter := hpart t ht
          rw [← hsplit] at hfilter
          simpa using (List.mem_filter.mp hfilter).2
        rw [List.length_eq_zero_iff, List.flatMap_eq_nil_iff] at hzero
        exact absurd (ErrorSection.entries_eq_nil_iff.mp (hzero t ht))
          (Nat.pos_iff_ne_zero.mp htlists.2)
      rw [hsplit, hnone before (fun t ht => List.mem_append_left _ ht) (by omega),
        hnone after (fun t ht => List.mem_append_right _ (List.mem_cons_of_mem _ ht)) (by omega)]
      rfl
    · intro h
      rw [h, List.flatMap_cons, List.flatMap_nil, List.append_nil]
  · have hcount : s.count = 0 := by
      by_contra hne
      exact hlists ⟨hfits, Nat.pos_of_ne_zero hne⟩
    rw [List.filter_cons_of_neg (by simpa using hlists), List.filter_nil,
      ErrorSection.entries_eq_nil_iff.mpr hcount, eq_comm, allEntries_eq_nil_iff]

/-- **When no error is lost**, over all sequences of sections. -/
theorem foldl_note_eq_allEntries_iff (sections : List ErrorSection) :
    sections.foldl ErrorSection.note [] = allEntries sections ↔ NoneLost sections := by
  rw [foldl_note_eq_lastRead, NoneLost]
  cases hlast : lastRead sections with
  | none =>
      rw [Option.map_none, Option.getD_none, eq_comm]
      exact allEntries_eq_nil_iff
  | some s =>
      have hs : s ∈ sections := List.mem_of_mem_filter (List.mem_of_getLast? hlast)
      rw [Option.map_some, Option.getD_some]
      by_cases hfits : s.Fits
      · rw [parseError2Data_of_fits hfits, entries_eq_allEntries_iff hs hfits]
        exact (iff_of_eq (if_pos hfits)).symm
      · rw [parseError2Data_eq]
        exact (iff_of_eq (if_neg hfits)).symm

/-- **No acquisition error of a v1 image is lost** if and only if the last `error2` section that the
open reads is the only one to list any, or happens to hold the same ones. -/
theorem acquisition_errors_iff (C : Crates) (sources : List Segment) (cacheSize : ℕ)
    (lazySectionCache : Option ℕ) (r : EwfReader)
    (h : openV1 C sources cacheSize lazySectionCache = .ok r) :
    r.acquisitionErrors = allEntries (errorSections r.segments) ↔
      NoneLost (errorSections r.segments) := by
  obtain ⟨st, hst, -, -, herrors⟩ := stored_of_openV1 h
  rw [herrors, foldl_of_openV1 (notes_errors C _) hst]
  exact foldl_note_eq_allEntries_iff _

/-- The body of an `error2` section with the entry `⟨first, 1⟩`. -/
def oneErrorBytes (first : ℕ) : List UInt8 := toLE 8 1 ++ toLE 4 first ++ toLE 4 1

/-- An image with an `error2` section of one entry. -/
def oneErrorImage : Segment :=
  ⟨sectionsBytes [⟨.error2, oneErrorBytes 5⟩], by decide +kernel⟩

/-- An image with two `error2` sections of one entry each. -/
def twoErrorsImage : Segment :=
  ⟨sectionsBytes [⟨.error2, oneErrorBytes 5⟩, ⟨.error2, oneErrorBytes 9⟩], by decide +kernel⟩

theorem acquisition_errors_iff_oneErrorImage :
    ∃ r, openV1 Crates.reference [oneErrorImage] 1 none = .ok r ∧
      r.acquisitionErrors = allEntries (errorSections r.segments) := by
  have hval : (openV1 Crates.reference [oneErrorImage] 1 none).toOption.map (fun r : EwfReader =>
      decide (errorSections r.segments = [⟨16, oneErrorBytes 5⟩])) = some true := by
    decide +kernel
  obtain ⟨r, hr, hsections⟩ := Option.map_eq_some_iff.mp hval
  have hopen := ok_of_toOption_eq_some hr
  refine ⟨r, hopen, (acquisition_errors_iff Crates.reference _ _ _ r hopen).mpr ?_⟩
  rw [of_decide_eq_true hsections]
  decide +kernel

/-- The second section's entry takes the place of the first's. -/
theorem twoErrorsImage_loses :
    ∃ r, openV1 Crates.reference [twoErrorsImage] 1 none = .ok r ∧
      r.acquisitionErrors = [⟨9, 1⟩] ∧ allEntries (errorSections r.segments) = [⟨5, 1⟩, ⟨9, 1⟩] ∧
      r.acquisitionErrors ≠ allEntries (errorSections r.segments) := by
  have hval : (openV1 Crates.reference [twoErrorsImage] 1 none).toOption.map (fun r : EwfReader =>
      (r.acquisitionErrors, allEntries (errorSections r.segments))) =
      some ([⟨9, 1⟩], [⟨5, 1⟩, ⟨9, 1⟩]) := by
    decide +kernel
  obtain ⟨r, hr, hboth⟩ := Option.map_eq_some_iff.mp hval
  obtain ⟨herrors, hall⟩ := Prod.mk.inj hboth
  refine ⟨r, ok_of_toOption_eq_some hr, herrors, hall, ?_⟩
  rw [herrors, hall]
  decide

end EwfForensic

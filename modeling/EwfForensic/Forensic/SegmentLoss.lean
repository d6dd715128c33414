import EwfForensic.Forensic.CleanScan
import EwfForensic.Image.Encode

/-!
# Segment Loss

The segments of a clean v1 image, analysed in another arrangement: some dropped, repeated or
out of order.

* `eq_take_of_clean` — the numbers in the headers allow no arrangement other than a front of
  the original list.
* `sum_take_lt` — a proper front lists fewer chunks than the whole image.
* `segment_loss_reported` — so a count check reports it: that of the single segment against
  the volume, or that of all tables together.
-/

namespace EwfForensic

open Octets

/-- The entries of a segment's first table. -/
def listedEntries (data : List UInt8) : ℕ := tableEntryCount data (walkSectionsV1 data)

/-- Every segment's table lists an entry at least, and its entries lie inside the segment. -/
def TablesInside (segments : List (List UInt8)) : Prop :=
  ∀ data ∈ segments, 1 ≤ listedEntries data ∧
    ∀ table, findSection (walkSectionsV1 data) .table = some table →
      table.offset + 100 + 4 * listedEntries data ≤ data.length

/-- The entries that a table check counts. -/
theorem listedEntries_eq {data : List UInt8} {table : Section} (hmax : data.length < u64Max)
    (hfind : findSection (walkSectionsV1 data) .table = some table)
    (hin : table.offset + 100 ≤ data.length) :
    listedEntries data = leU32 data (table.offset + 76) := by
  have hstart : satAdd table.offset sectionDescriptorSize = table.offset + 76 :=
    @satAdd_eq table.offset 76 (by omega)
  have hfront : satAdd (table.offset + 76) 4 = table.offset + 80 :=
    @satAdd_eq (table.offset + 76) 4 (by omega)
  simp only [listedEntries, tableEntryCount, hfind, hstart, hfront]
  rw [if_pos (by omega)]

/-- The geometry that the turn of the first segment compares with is its own. -/
theorem segmentGeometry_zero_fst (data : List UInt8) :
    (segmentGeometry 0 none data (walkSectionsV1 data)).1 = volumeGeometry data := by
  rw [segmentGeometry, volumeGeometry]
  cases findVolume (walkSectionsV1 data) with
  | none => rfl
  | some v => rfl

/-! ### The numbers in the headers -/

section Numbers

variable {n n' : ℕ} {segments segments' : List (List UInt8)}
  {before before' : ℕ → Option VolumeGeometry}

/-- The segment at position 65535 would have to be numbered zero, so a clean image has fewer
than 65536 segments. -/
theorem length_le_of_clean
    (h : ∀ (idx : ℕ) (data : List UInt8), segments[idx]? = some data →
      CleanSegment n idx (before idx) data) : segments.length ≤ 65535 := by
  by_contra hlong
  obtain ⟨hnum, hzero⟩ :=
    (h 65535 segments[65535] (List.getElem?_eq_getElem (by omega))).number
  rw [show satAdd 65535 1 % 65536 = 0 by decide] at hnum
  exact hzero hnum

/-- A clean segment of a clean image carries the number of its position. -/
theorem number_eq_of_clean
    (h : ∀ (idx : ℕ) (data : List UInt8), segments[idx]? = some data →
      CleanSegment n idx (before idx) data) {idx : ℕ} {data : List UInt8}
    (hidx : segments[idx]? = some data) : leU16 data 9 = idx + 1 := by
  obtain ⟨hlt, -⟩ := List.getElem?_eq_some_iff.mp hidx
  have hlen := length_le_of_clean h
  have hsat : satAdd idx 1 = idx + 1 := satAdd_eq (by unfold u64Max; omega)
  rw [(h idx data hidx).number.1, hsat]
  omega

/-- **The numbers fix the arrangement**: a list built from the segments of a clean image, in
which every segment is again clean at its position, is a front of the image. -/
theorem eq_take_of_clean
    (h : ∀ (idx : ℕ) (data : List UInt8), segments[idx]? = some data →
      CleanSegment n idx (before idx) data)
    (h' : ∀ (idx : ℕ) (data : List UInt8), segments'[idx]? = some data →
      CleanSegment n' idx (before' idx) data)
    (hmem : ∀ data ∈ segments', data ∈ segments) :
    segments'.length ≤ segments.length ∧ segments' = segments.take segments'.length := by
  -- Equal numbers are equal positions.
  have hsame : ∀ (j : ℕ) (data : List UInt8), segments'[j]? = some data →
      segments[j]? = some data := by
    intro j data hj
    obtain ⟨i, hi⟩ := List.mem_iff_getElem?.mp (hmem data (List.mem_of_getElem? hj))
    have hnum := number_eq_of_clean h hi
    rw [number_eq_of_clean h' hj] at hnum
    obtain rfl : j = i := by omega
    exact hi
  constructor
  · by_contra hlong
    have hj : segments'[segments.length]? = some segments'[segments.length] :=
      List.getElem?_eq_getElem (by omega)
    obtain ⟨hlt, -⟩ := List.getElem?_eq_some_iff.mp (hsame _ _ hj)
    omega
  · apply List.ext_getElem?
    intro j
    by_cases hj : j < segments'.length
    · rw [List.getElem?_take_of_lt hj, hsame j _ (List.getElem?_eq_getElem hj),
        List.getElem?_eq_getElem hj]
    · rw [List.getElem?_eq_none (by omega),
        List.getElem?_eq_none (by rw [List.length_take]; omega)]

end Numbers

/-! ### The counts -/

/-- A proper front of a list of positive numbers sums to less. -/
theorem sum_take_lt {xs : List ℕ} {m : ℕ} (hm : m < xs.length) (hpos : ∀ x ∈ xs, 1 ≤ x) :
    (xs.take m).sum < xs.sum := by
  obtain ⟨x, rest, hdrop⟩ : ∃ x rest, xs.drop m = x :: rest :=
    ⟨xs[m], xs.drop (m + 1), List.drop_eq_getElem_cons hm⟩
  have hx := hpos x (List.mem_of_mem_drop (by rw [hdrop]; exact List.mem_cons_self))
  calc (xs.take m).sum < (xs.take m).sum + (xs.drop m).sum := by
        rw [hdrop, List.sum_cons]
        omega
    _ = xs.sum := List.sum_take_add_sum_drop xs m

/-- A single clean segment lists as many chunks as its volume declares. -/
theorem listedEntries_of_clean {data : List UInt8} {geom : VolumeGeometry}
    (hmax : data.length < u64Max) (h : CleanSegment 1 0 none data)
    (hin : ∀ table, findSection (walkSectionsV1 data) .table = some table →
      table.offset + 100 ≤ data.length)
    (hgeom : volumeGeometry data = some geom) : listedEntries data = geom.chunkCount := by
  obtain ⟨table, hfind⟩ := h.exists_table
  have hcheck := h.checkTable hfind
  rw [segmentGeometry_zero_fst, hgeom, volumeCount, if_pos ⟨by omega, rfl⟩] at hcheck
  rw [listedEntries_eq hmax hfind (hin table hfind)]
  exact entryCount_of_checkTableV1 (hin table hfind) hmax hcheck

/-- A proper front of a clean image does not have a clean verdict. -/
theorem analyseAllEwf1_take_ne_nil {C : Crates} {segments : List (List UInt8)}
    {expected expected' : ExpectedHashes} {m : ℕ} (hmax : ∀ d ∈ segments, d.length < u64Max)
    (hclean : analyseAllEwf1 C segments expected = [])
    (hgeom : (analysisGeometry segments).isSome) (hinside : TablesInside segments)
    (hsum : (segments.map listedEntries).sum ≤ u32Max) (hpos : 0 < m)
    (hm : m < segments.length) : analyseAllEwf1 C (segments.take m) expected' ≠ [] := by
  intro hclean'
  obtain ⟨geom, hgeom⟩ := Option.isSome_iff_exists.mp hgeom
  obtain ⟨-, htotal, -⟩ := analyseAllEwf1_eq_nil_iff.mp hclean
  obtain ⟨hsegs', htotal', -⟩ := analyseAllEwf1_eq_nil_iff.mp hclean'
  have hgeom' : analysisGeometry (segments.take m) = some geom := by
    rw [← hgeom, analysisGeometry_eq, analysisGeometry_eq, List.head?_take, if_neg (by omega)]
  have hlen : (segments.take m).length = m := List.length_take_of_le (by omega)
  -- The volume declares the chunks of all tables, and the front lists fewer.
  have hlt : ((segments.take m).map listedEntries).sum < (segments.map listedEntries).sum := by
    rw [List.map_take]
    refine sum_take_lt (by rwa [List.length_map]) fun x hx => ?_
    obtain ⟨data, hdata, rfl⟩ := List.mem_map.mp hx
    exact (hinside data hdata).1
  have hall : (segments.map listedEntries).sum = geom.chunkCount := by
    rw [hgeom] at htotal
    rw [← totalTableEntries_of_clean (by omega) htotal, totalTableEntries_eq hsum]
    rfl
  rcases Nat.lt_or_ge 1 m with hmany | hone
  · have hfront : ((segments.take m).map listedEntries).sum = geom.chunkCount := by
      rw [hgeom', hlen] at htotal'
      rw [← totalTableEntries_of_clean hmany htotal',
        totalTableEntries_eq (le_of_lt (lt_of_lt_of_le hlt hsum))]
      rfl
    omega
  · obtain rfl : m = 1 := by omega
    cases segments with
    | nil => cases hm
    | cons data rest =>
        have hdata := hmax data List.mem_cons_self
        have hseg : CleanSegment 1 0 none data := by
          have := hsegs' 0 data rfl
          rwa [hlen] at this
        rw [analysisGeometry_eq] at hgeom
        have hcount := listedEntries_of_clean hdata hseg
          (fun table hfind => by have := (hinside data List.mem_cons_self).2 table hfind; omega)
          hgeom
        simp only [List.take_succ_cons, List.take_zero, List.map_cons, List.map_nil, List.sum_cons,
          List.sum_nil] at hlt hall
        omega

/-! ### The verdict -/

/-- **Segment loss is reported.** The segments of a clean image in another arrangement, with
some of them dropped, repeated or out of order, do not have a clean verdict. -/
theorem segment_loss_reported (C : Crates) (self self' : EwfIntegrity)
    (hv1 : isEwf2 self.bytes = false) (hclean : self.analyse C = [])
    (hgeom : (analysisGeometry self.bytes).isSome) (hinside : TablesInside self.bytes)
    (hsum : (self.bytes.map listedEntries).sum < 2 ^ 32) (hne : self'.segments ≠ [])
    (hmem : ∀ s ∈ self'.segments, s ∈ self.segments) (hdiff : self'.segments ≠ self.segments) :
    self'.analyse C ≠ [] := by
  have hmax : ∀ d ∈ self.bytes, d.length < u64Max := by
    intro d hd
    obtain ⟨s, -, rfl⟩ := List.mem_map.mp hd
    exact s.length_lt_u64Max
  have hmem' : ∀ d ∈ self'.bytes, d ∈ self.bytes := by
    intro d hd
    obtain ⟨s, hs, rfl⟩ := List.mem_map.mp hd
    exact List.mem_map_of_mem (hmem s hs)
  have hdiff' : self'.bytes ≠ self.bytes := fun h =>
    hdiff (List.map_injective_iff.mpr Segment.data_injective h)
  rw [analyse_v1 hv1] at hclean
  have hsegs := (analyseAllEwf1_eq_nil_iff.mp hclean).1
  -- Every segment of the image has a v1 signature, the new first one too.
  have hv1' : isEwf2 self'.bytes = false := by
    cases hs : self'.bytes with
    | nil => exact absurd (List.map_eq_nil_iff.mp hs) hne
    | cons first rest =>
        have hfirst : first ∈ self'.bytes := by rw [hs]; exact List.mem_cons_self
        obtain ⟨i, hi⟩ := List.mem_iff_getElem?.mp (hmem' first hfirst)
        exact isEwf2_of_signature (hsegs i first hi).signature
  rw [analyse_v1 hv1']
  intro hclean'
  obtain ⟨hle, htake⟩ := eq_take_of_clean hsegs (analyseAllEwf1_eq_nil_iff.mp hclean').1 hmem'
  have hpos : 0 < self'.bytes.length := by
    rw [EwfIntegrity.bytes, List.length_map]
    exact List.length_pos_iff.mpr hne
  have hlt : self'.bytes.length < self.bytes.length := by
    refine lt_of_le_of_ne hle fun heq => hdiff' ?_
    rw [htake, heq, List.take_length]
  rw [htake] at hclean'
  refine analyseAllEwf1_take_ne_nil hmax hclean hgeom hinside ?_ hpos hlt hclean'
  rw [u32Max]
  omega

/-- An image of two 512-byte sectors, each a chunk, in two segments. -/
def splitImage : List Segment :=
  [⟨Image.encodeSegment 1
      [⟨.volume, Image.volumeFront 1 2 1 512 2 ++ List.replicate 70 0⟩,
        ⟨.table, Image.tableBytes 0 true [363] []⟩, ⟨.sectors, List.replicate 512 7⟩] .next 0,
      by decide +kernel⟩,
    ⟨Image.encodeSegment 2
      [⟨.table, Image.tableBytes 0 true [193] []⟩, ⟨.sectors, List.replicate 512 9⟩,
        ⟨.hash, (Digest.md5 (List.replicate 512 7 ++ List.replicate 512 9)).1⟩] .done 0,
      by decide +kernel⟩]

theorem segment_loss_reported_splitImage :
    (EwfIntegrity.fromSegments splitImage).analyse Crates.reference = [] ∧
      (EwfIntegrity.fromSegments (splitImage.take 1)).analyse Crates.reference ≠ [] ∧
      (EwfIntegrity.fromSegments splitImage.reverse).analyse Crates.reference ≠ [] := by
  have hv1 : isEwf2 (EwfIntegrity.fromSegments splitImage).bytes = false := by decide +kernel
  have hclean : (EwfIntegrity.fromSegments splitImage).analyse Crates.reference = [] := by
    decide +kernel
  have hgeom : (analysisGeometry (EwfIntegrity.fromSegments splitImage).bytes).isSome := by
    decide +kernel
  have hinside : TablesInside (EwfIntegrity.fromSegments splitImage).bytes := by
    have htables : ∀ data ∈ splitImage.map (·.data), 1 ≤ listedEntries data ∧
        ∀ table ∈ findSection (walkSectionsV1 data) .table,
          table.offset + 100 + 4 * listedEntries data ≤ data.length := by decide +kernel
    exact htables
  have hsum : ((EwfIntegrity.fromSegments splitImage).bytes.map listedEntries).sum < 2 ^ 32 := by
    decide +kernel
  have hshort : (splitImage.take 1).length ≠ splitImage.length := by decide
  have hfirst : (splitImage.reverse.head?).map (·.data.length) ≠
      (splitImage.head?).map (·.data.length) := by decide +kernel
  refine ⟨hclean, ?_, ?_⟩
  · exact segment_loss_reported _ _ (EwfIntegrity.fromSegments (splitImage.take 1)) hv1 hclean hgeom
      hinside hsum (List.cons_ne_nil _ _) (fun s hs => List.mem_of_mem_take hs)
      fun h => hshort (congrArg List.length h)
  · exact segment_loss_reported _ _ (EwfIntegrity.fromSegments splitImage.reverse) hv1 hclean hgeom
      hinside hsum (List.cons_ne_nil _ _) (fun s hs => List.mem_reverse.mp hs)
      fun h => hfirst (congrArg (fun l => (List.head? l).map (·.data.length)) h)

end EwfForensic

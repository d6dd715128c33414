import EwfForensic.Forensic.ChainReports
import EwfForensic.Forensic.CleanScan
import EwfForensic.Forensic.Tamper

/-!
# Structural Tamper Evidence

Edits of one byte of the structure of a v1 image that the analysis reports clean.

* `StructureEdit` — the byte lies in a visited descriptor, in the body of the first segment's
  volume, in a table that has a second one beside it, or in the stored MD5.
* `checksum_descriptor`, `checksum_volume` — the checksums of a clean segment fit.
* `CleanSegment.leadingRanges_bounds` — its chunks lie in the first `sectors` section.
* `structure_tamper_evident` — the copy is not reported clean.
* `overlongTable_tampered` — two tables are not compared where the first one's declared body
  leaves the segment.
-/

namespace EwfForensic

open Octets

/-! ### The edited byte -/

/-- Byte `x` lies in a descriptor that the walk visits. -/
def InDescriptor (data : List UInt8) (x : ℕ) : Prop :=
  ∃ s ∈ walkSectionsV1 data, s.offset ≤ x ∧ x < s.offset + 76

/-- Byte `x` lies in the body of the first volume, which has its full size. -/
def InVolumeBody (data : List UInt8) (x : ℕ) : Prop :=
  ∃ v, findVolume (walkSectionsV1 data) = some v ∧
    (volumeBody data v.offset v.size).length = volumeBodyFullSize ∧
    v.offset + 76 ≤ x ∧ x < v.offset + 76 + volumeBodyFullSize

/-- Byte `x` lies in the body of the first table; that body and the one of the first second table
lie in the segment. -/
def InTableBody (data : List UInt8) (x : ℕ) : Prop :=
  ∃ t1 t2, findSection (walkSectionsV1 data) .table = some t1 ∧
    findSection (walkSectionsV1 data) .table2 = some t2 ∧
    (sectionBody data t1).isSome ∧ (sectionBody data t2).isSome ∧
    t1.offset + 76 ≤ x ∧ x < t1.offset + t1.size

/-- Byte `x` is one of the 16 that the first `hash` section stores, none of which belongs to
another visited section. -/
def InStoredHash (data : List UInt8) (x : ℕ) : Prop :=
  ∃ s, findSection (walkSectionsV1 data) .hash = some s ∧ s.offset + 92 ≤ data.length ∧
    s.offset + 76 ≤ x ∧ x < s.offset + 92 ∧
    ∀ s' ∈ walkSectionsV1 data, s' ≠ s → ∀ i, s.offset + 76 ≤ i → i < s.offset + 92 →
      ¬ (s'.offset ≤ i ∧ i < s'.offset + 76) ∧ ¬ s'.BodyByte data i

/-- Byte `x` of segment `k`, and no other, is changed. -/
structure ByteEdit (segments segments' : List (List UInt8)) (k x : ℕ) (data data' : List UInt8) :
    Prop where
  original : segments[k]? = some data
  copy : segments' = segments.set k data'
  agree : AgreeOn (· ≠ x) data data'
  changed : data[x]? ≠ data'[x]?

/-- An edit of one byte of the structure of an image. -/
def StructureEdit (segments segments' : List (List UInt8)) : Prop :=
  ∃ k x data data', ByteEdit segments segments' k x data data' ∧
    (InDescriptor data x ∨ k = 0 ∧ InVolumeBody data x ∨ InTableBody data x ∨
      k + 1 = segments.length ∧ InStoredHash data x)

/-! ### Windows -/

section Windows

variable {data data' : List UInt8} {x pos n : ℕ}

/-- **A checksum behind what it covers** fits one of two strings that differ in its window only. -/
theorem not_both_fit (hdata : data.length < u64Max) (h : AgreeOn (· ≠ x) data data')
    (hx : data[x]? ≠ data'[x]?) (hroom : pos + (n + 4) ≤ data.length) (hlo : pos ≤ x)
    (hhi : x < pos + (n + 4))
    (hfit : adler32 (((data.drop pos).take (n + 4)).take n) =
      leU32 ((data.drop pos).take (n + 4)) n)
    (hfit' : adler32 (((data'.drop pos).take (n + 4)).take n) =
      leU32 ((data'.drop pos).take (n + 4)) n) : False := by
  have hlen : ((data.drop pos).take (n + 4)).length = n + 4 := by
    rw [List.length_take, List.length_drop]
    omega
  refine Adler32.checksum_ne_trailer hlen.ge (by omega) (h.window hlo (n + 4)) ?_
    (show x - pos < n + 4 by omega) hfit hfit'
  rwa [getElem?_window hlo hhi, getElem?_window hlo hhi]

end Windows

/-! ### Descriptors -/

section Descriptors

variable {data data' : List UInt8} {x pos : ℕ}

/-- **The checksum of a linked descriptor** fits where the walk reports nothing. -/
theorem checksum_descriptor (hdata : data.length < u64Max) (hwalk : walkIssuesV1 data = [])
    (hlink : Linked data pos) (hroom : pos + 76 ≤ data.length) :
    adler32 (((data.drop pos).take 76).take 72) = leU32 ((data.drop pos).take 76) 72 := by
  obtain ⟨⟨⟨sec, issues⟩, r⟩, hstep⟩ : ∃ p, walkStep data pos = some p := by
    have hmap := walkStep_of_room hdata hroom
    obtain ⟨p, hp, -⟩ := Option.map_eq_some_iff.mp hmap
    exact ⟨p, hp⟩
  have hissues : issues = [] := by
    refine List.eq_nil_iff_forall_not_mem.mpr fun a ha => ?_
    have hmem := (mem_walkIssuesV1_iff hdata).mpr ⟨pos, sec, issues, r, hlink, hstep, ha⟩
    rw [hwalk] at hmem
    cases hmem
  have hown : descriptorIssuesAt data pos = [] := by
    rcases (walkStep_cases hdata hstep).2.2 with ⟨-, -, h⟩ | ⟨-, -, -, h⟩ | ⟨-, -, -, -, h⟩
    · exact h ▸ hissues
    · exact (List.append_eq_nil_iff.mp (h ▸ hissues)).1
    · exact (List.append_eq_nil_iff.mp (h ▸ hissues)).1
  have hcrc := (List.append_eq_nil_iff.mp hown).1
  have hlen : 72 ≤ ((data.drop pos).take 76).length := by
    rw [List.length_take, List.length_drop]
    omega
  have hslice : slice? ((data.drop pos).take 76) 0 72 =
      some (((data.drop pos).take 76).take 72) := slice?_of_le (Nat.zero_le 72) hlen
  split_ifs at hcrc with hfit
  rw [SectionDescriptor.verifyCrc, hslice] at hfit
  exact of_decide_eq_true hfit

/-- **The chain of the copy** is that of the original up to a descriptor with the changed byte. -/
theorem linked_copy (h : AgreeOn (· ≠ x) data data') (hpos : Linked data pos) :
    Linked data' pos ∨
      ∃ u, Linked data u ∧ Linked data' u ∧ u + 76 ≤ data.length ∧ u ≤ x ∧ x < u + 76 := by
  induction hpos with
  | first => exact Or.inl Linked.first
  | @next pos hlink hroom hterm hlt hle ih =>
      rcases ih with ih | ih
      swap
      · exact Or.inr ih
      by_cases hx : pos ≤ x ∧ x < pos + 76
      · exact Or.inr ⟨pos, hlink, ih, hroom, hx⟩
      · -- The descriptor is the same in the copy, which goes on to the same place.
        left
        have hsec : sectionAt data' pos = sectionAt data pos := by
          have hwin : (data'.drop pos).take sectionDescriptorSize =
              (data.drop pos).take sectionDescriptorSize :=
            (h.window_eq fun i h1 h2 => by
              rintro rfl
              exact hx ⟨h1, h2⟩).symm
          unfold sectionAt
          rw [hwin]
        have hnext : nextField data' pos = nextField data pos :=
          (h.leAt_eq fun i h1 h2 => by omega).symm
        rw [← hnext] at hlt hle ⊢
        exact Linked.next ih (h.1 ▸ hroom) (hsec ▸ hterm) hlt (h.1 ▸ hle)

/-- **Descriptors are evident**: the walk reports a change in one that it visits. -/
theorem descriptor_evident (hdata : data.length < u64Max) (h : AgreeOn (· ≠ x) data data')
    (hx : data[x]? ≠ data'[x]?) (hin : InDescriptor data x) (hwalk : walkIssuesV1 data = []) :
    walkIssuesV1 data' ≠ [] := by
  intro hwalk'
  obtain ⟨s, hs, hlo, hhi⟩ := hin
  have hlink := linked_of_mem_walkSectionsV1 hdata hs
  -- The first descriptor with the byte is visited in both.
  obtain ⟨u, hu, hu', hroom, hux, hxu⟩ :
      ∃ u, Linked data u ∧ Linked data' u ∧ u + 76 ≤ data.length ∧ u ≤ x ∧ x < u + 76 := by
    rcases linked_copy h hlink with hcopy | hcopy
    · exact ⟨_, hlink, hcopy, offset_le_of_mem_walkSectionsV1 hdata hs, hlo, hhi⟩
    · exact hcopy
  exact @not_both_fit data data' x u 72 hdata h hx hroom hux hxu
    (checksum_descriptor hdata hwalk hu hroom)
    (checksum_descriptor (h.1 ▸ hdata) hwalk' hu' (h.1 ▸ hroom))

/-- Where the changed byte is in no visited descriptor, the copy has the same sections. -/
theorem walkSectionsV1_eq_of_not_inDescriptor (hdata : data.length < u64Max)
    (h : AgreeOn (· ≠ x) data data') (hout : ¬ InDescriptor data x) :
    walkSectionsV1 data' = walkSectionsV1 data := by
  refine walkSectionsV1_congr_on hdata h fun s hs i h1 h2 => ?_
  rintro rfl
  exact hout ⟨s, hs, h1, h2⟩

end Descriptors

/-! ### The volume -/

section Volume

variable {data data' : List UInt8} {x n n' : ℕ} {geometry geometry' : Option VolumeGeometry}

/-- A full volume body is a window of the segment. -/
theorem volumeBody_eq_window {off size : ℕ} (hoff : off + 76 ≤ u64Max)
    (h : (volumeBody data off size).length = 1052) :
    off + 76 + 1052 ≤ data.length ∧
      volumeBody data off size = (data.drop (off + 76)).take 1052 := by
  have hstart : satAdd off sectionDescriptorSize = off + 76 := satAdd_eq hoff
  rw [volumeBody] at h ⊢
  simp only [hstart] at h ⊢
  refine ⟨?_, List.take_eq_take_iff.mpr ?_⟩
  all_goals
    rw [List.length_take, List.length_drop] at h
  · omega
  · rw [List.length_drop]
    omega

/-- **The checksum of a full volume body** fits where the first segment is clean. -/
theorem checksum_volume {v : Section} (hclean : CleanSegment n 0 geometry data)
    (hv : findVolume (walkSectionsV1 data) = some v) (hoff : v.offset + 76 ≤ u64Max)
    (hbody : (volumeBody data v.offset v.size).length = 1052) :
    adler32 ((volumeBody data v.offset v.size).take 1048) =
      leU32 (volumeBody data v.offset v.size) 1048 := by
  obtain ⟨hroom, -⟩ := volumeBody_eq_window hoff hbody
  have hissues : (checkVolumeV1 data v.offset v.size).2 = [] := by
    have hvolume := hclean.volume
    rw [segmentGeometry, hv] at hvolume
    exact hvolume
  have hlong : ¬ data.length < satAdd (satAdd v.offset sectionDescriptorSize) volumeDataMin := by
    have hstart : satAdd v.offset sectionDescriptorSize = v.offset + 76 := satAdd_eq hoff
    have hmin : satAdd (v.offset + 76) volumeDataMin ≤ v.offset + 76 + 24 := Nat.min_le_left _ _
    rw [hstart]
    omega
  rw [checkVolumeV1] at hissues
  simp only [if_neg hlong, EwfVolume.parse_of_le (show 24 ≤ _ by rw [hbody]; decide)] at hissues
  have hcrc := (List.append_eq_nil_iff.mp hissues).2
  split_ifs at hcrc with hbad
  have hslice : slice? (volumeBody data v.offset v.size) 0 volumeBodyCrcOffset =
      some ((volumeBody data v.offset v.size).take 1048) :=
    slice?_of_le (Nat.zero_le _) (by rw [hbody]; decide)
  rw [EwfVolume.verifyCrc, EwfVolume.ofBytes] at hbad
  simp only [hbody, le_refl, if_true, Option.map_some, hslice] at hbad
  by_contra hne
  exact hbad (congrArg some (decide_eq_false hne))

/-- **The volume is evident**: a change in its body is reported where the sections are the same. -/
theorem volume_evident (hdata : data.length < u64Max) (h : AgreeOn (· ≠ x) data data')
    (hx : data[x]? ≠ data'[x]?) (hin : InVolumeBody data x)
    (hwalk : walkSectionsV1 data' = walkSectionsV1 data) (hclean : CleanSegment n 0 geometry data) :
    ¬ CleanSegment n' 0 geometry' data' := by
  intro hclean'
  obtain ⟨v, hv, hbody, hlo, hhi⟩ := hin
  have hoff := offset_le_of_mem_walkSectionsV1 hdata (List.mem_of_find?_eq_some hv)
  have hmax : v.offset + 76 ≤ u64Max := by omega
  have hbody' : (volumeBody data' v.offset v.size).length = 1052 := by
    refine Eq.trans ?_ hbody
    simp only [volumeBody, List.length_take, List.length_drop, h.1]
  obtain ⟨hroom, hwin⟩ := volumeBody_eq_window hmax hbody
  obtain ⟨-, hwin'⟩ := volumeBody_eq_window hmax hbody'
  have hfit := checksum_volume hclean hv hmax hbody
  have hfit' := checksum_volume hclean' (hwalk ▸ hv) hmax hbody'
  rw [hwin] at hfit
  rw [hwin'] at hfit'
  exact @not_both_fit data data' x (v.offset + 76) 1048 hdata h hx hroom hlo hhi hfit hfit'

end Volume

/-! ### Two tables -/

section Tables

variable {data data' : List UInt8} {x : ℕ}

/-- Two sections of different types start at different positions. -/
theorem offset_ne_of_typeName_ne {s s' : Section} (hs : s ∈ walkSectionsV1 data)
    (hs' : s' ∈ walkSectionsV1 data) (hne : s.typeName ≠ s'.typeName) : s.offset ≠ s'.offset := by
  intro heq
  have hpair := (pairwise_walkSectionsV1 data).imp fun {a b} h => (ne_of_lt h : a.offset ≠ b.offset)
  have hinj := List.inj_on_of_nodup_map (f := Section.offset)
    (List.pairwise_map.mpr hpair) hs hs' heq
  exact hne (congrArg _ hinj)

/-- Two bodies that are compared and not reported are the same. -/
theorem body_eq_of_table2Issues {sections : List Section} {t1 t2 : Section}
    {body1 body2 : List UInt8} (h : table2Issues data sections = [])
    (ht1 : findSection sections .table = some t1) (ht2 : findSection sections .table2 = some t2)
    (hb1 : sectionBody data t1 = some body1) (hb2 : sectionBody data t2 = some body2) :
    body1 = body2 := by
  rw [table2Issues, ht1, ht2] at h
  simp only [hb1, hb2] at h
  split_ifs at h with hlen
  split at h
  · cases h
  · next hnone =>
      rw [List.findIdx?_eq_none_iff] at hnone
      refine List.ext_getElem hlen fun i h1 h2 => ?_
      have hmem : (body1[i], body2[i]) ∈ body1.zip body2 := by
        refine List.mem_iff_getElem.mpr ⟨i, by rw [List.length_zip]; omega, List.getElem_zip⟩
      have hsame := hnone _ hmem
      simpa using hsame

/-- The body that is compared, without saturation. -/
theorem slice?_of_sectionBody (hdata : data.length < u64Max) {s : Section} {body : List UInt8}
    (hb : sectionBody data s = some body) :
    slice? data (s.offset + 76) (s.offset + s.size) = some body := by
  rw [sectionBody] at hb
  obtain ⟨hle, hend, -⟩ := slice?_eq_some_iff.mp hb
  have hstart : satAdd s.offset sectionDescriptorSize = s.offset + 76 :=
    @satAdd_eq s.offset 76 (le_trans ((@satAdd_le_iff s.offset 76 _ hdata).mp (hle.trans hend))
      hdata.le)
  have hsize : satAdd s.offset s.size = s.offset + s.size :=
    satAdd_eq (((satAdd_le_iff hdata).mp hend).trans hdata.le)
  rwa [hstart, hsize] at hb

/-- Where two tables have one body, a byte of the first is in the second. -/
theorem getElem?_tables (hdata : data.length < u64Max) {t1 t2 : Section} {body : List UInt8}
    (hb1 : sectionBody data t1 = some body) (hb2 : sectionBody data t2 = some body) {i : ℕ}
    (hi : t1.offset + 76 + i < t1.offset + t1.size) :
    data[t1.offset + 76 + i]? = data[t2.offset + 76 + i]? := by
  have h1 := slice?_of_sectionBody hdata hb1
  have h2 := slice?_of_sectionBody hdata hb2
  have hlen := (length_of_slice? h1).symm.trans (length_of_slice? h2)
  have hi1 : i < t1.offset + t1.size - (t1.offset + 76) := by omega
  rw [← getElem?_of_slice? h1 hi1, ← getElem?_of_slice? h2 (hlen ▸ hi1)]

/-- **Tables are evident**: a change in one that is compared is reported where the sections are
the same. -/
theorem table_evident (hdata : data.length < u64Max) (h : AgreeOn (· ≠ x) data data')
    (hx : data[x]? ≠ data'[x]?) (hin : InTableBody data x)
    (hwalk : walkSectionsV1 data' = walkSectionsV1 data)
    (hclean : table2Issues data (walkSectionsV1 data) = []) :
    table2Issues data' (walkSectionsV1 data') ≠ [] := by
  intro hclean'
  obtain ⟨t1, t2, ht1, ht2, hb1, hb2, hlo, hhi⟩ := hin
  have hne : t1.offset ≠ t2.offset := by
    refine offset_ne_of_typeName_ne (mem_of_findSection ht1) (mem_of_findSection ht2) ?_
    have htype1 : t1.typeName = .table := by simpa using List.find?_some ht1
    have htype2 : t2.typeName = .table2 := by simpa using List.find?_some ht2
    simp [htype1, htype2]
  have hsome : ∀ t, (sectionBody data t).isSome → (sectionBody data' t).isSome := by
    intro t ht
    simp only [sectionBody, slice?, ← h.1] at ht ⊢
    split_ifs at ht ⊢
    · rfl
    · cases ht
  obtain ⟨body, hbody⟩ := Option.isSome_iff_exists.mp hb1
  obtain ⟨body2, hbody2⟩ := Option.isSome_iff_exists.mp hb2
  obtain ⟨body', hbody'⟩ := Option.isSome_iff_exists.mp (hsome t1 hb1)
  obtain ⟨body2', hbody2'⟩ := Option.isSome_iff_exists.mp (hsome t2 hb2)
  obtain rfl := body_eq_of_table2Issues hclean ht1 ht2 hbody hbody2
  rw [hwalk] at hclean'
  obtain rfl := body_eq_of_table2Issues hclean' ht1 ht2 hbody' hbody2'
  -- The byte of the second table at the same place is not the changed one.
  obtain ⟨i, rfl⟩ := Nat.exists_eq_add_of_le hlo
  have hsame := h.2 (t2.offset + 76 + i) (by omega)
  refine hx ?_
  rw [getElem?_tables hdata hbody hbody2 hhi, hsame,
    getElem?_tables (h.1 ▸ hdata) hbody' hbody2' hhi]

end Tables

/-! ### The stored hash -/

section Ranges

variable {data : List UInt8} {n idx : ℕ} {geometry : Option VolumeGeometry}
  {table sectors : Section}

/-- **The entries of a clean segment** lead into its first `sectors` section. -/
theorem CleanSegment.target_bounds (h : CleanSegment n idx geometry data)
    (hdata : data.length < u64Max)
    (htable : findSection (walkSectionsV1 data) .table = some table)
    (hsectors : findSection (walkSectionsV1 data) .sectors = some sectors) {i target : ℕ}
    (hi : i < leU32 data (table.offset + 76)) (ht : tableTarget data table i = some target) :
    sectors.offset + 76 ≤ target ∧ target < sectors.offset + sectors.size := by
  obtain ⟨entry, hentry, rfl⟩ := Option.map_eq_some_iff.mp ht
  have hroom : table.offset + 100 + 4 * i + 4 ≤ data.length := by
    by_contra hshort
    rw [tableEntry, if_neg hshort] at hentry
    cases hentry
  have hoff := offset_le_of_mem_walkSectionsV1 hdata (mem_of_findSection hsectors)
  have hsecStart : satAdd sectors.offset sectionDescriptorSize = sectors.offset + 76 :=
    @satAdd_eq sectors.offset 76 (by omega)
  have hstart : satAdd table.offset sectionDescriptorSize = table.offset + 76 :=
    @satAdd_eq table.offset 76 (by omega)
  have hbody : satAdd (table.offset + 76) tableHeaderSize = table.offset + 100 :=
    @satAdd_eq (table.offset + 76) 24 (by omega)
  have hlen : tableHeaderCrcOffset ≤ (data.drop (table.offset + 76)).length := by
    rw [List.length_drop, show tableHeaderCrcOffset = 16 from rfl]
    omega
  have hcount : leU32 (data.drop (table.offset + 76)) 0 = leU32 data (table.offset + 76) :=
    leAt_drop (by omega) (by omega)
  have hbase : leU64 (data.drop (table.offset + 76)) 8 = leU64 data (table.offset + 84) :=
    leAt_drop (by omega) (by omega)
  have hcheck := h.checkTable htable
  rw [checkTableV1, sectorsRange, hsectors] at hcheck
  simp only [hstart, hbody, hsecStart, Option.map_some] at hcheck
  rw [if_neg (by omega), TableHeader.parse_of_le hlen] at hcheck
  simp only [List.append_eq_nil_iff, TableHeader.ofBytes, hcount, hbase] at hcheck
  -- The loop over the entries gets to this one.
  have hturn := List.flatten_eq_nil_iff.mp hcheck.2 _
    (List.mem_of_getElem? (Loop.getElem?_forBreak.mpr ⟨hi, fun m hm => ?_, by
      rw [Nat.zero_add, entryAt_eq hdata, hentry, Option.map_some]⟩))
  · have hend : satAdd sectors.offset sectors.size ≤ sectors.offset + sectors.size :=
      Nat.min_le_left _ _
    rw [entryIssues] at hturn
    split_ifs at hturn with hout hrange
    have hexact : satAdd (leU64 data (table.offset + 84)) entry.chunkOffset =
        leU64 data (table.offset + 84) + entry.chunkOffset := by
      rw [satAdd] at hout ⊢
      omega
    rw [hexact] at hrange
    omega
  · rw [Nat.zero_add, Option.isSome_map, entryAt_eq hdata, tableEntry, if_pos (by omega)]
    rfl

/-- The chunks of a clean segment lie in its first `sectors` section. -/
theorem CleanSegment.leadingRanges_bounds (h : CleanSegment n idx geometry data)
    (hdata : data.length < u64Max)
    (hsectors : findSection (walkSectionsV1 data) .sectors = some sectors) {c : ChunkRange}
    (hc : c ∈ leadingRanges data) :
    sectors.offset + 76 ≤ c.start ∧ c.stop ≤ sectors.offset + sectors.size := by
  obtain ⟨k, hk⟩ := List.mem_iff_getElem?.mp hc
  obtain ⟨table, sectors', htable, hsectors', hlt, hrange, -⟩ := leadingRanges_eq_some hk
  obtain rfl := Option.some.inj (hsectors.symm.trans hsectors')
  obtain ⟨hstart, hstop, -, -⟩ := describedRange_eq_some hrange
  refine ⟨(h.target_bounds hdata htable hsectors hlt hstart).1, ?_⟩
  rw [tableStop] at hstop
  split_ifs at hstop with hlast
  · exact (h.target_bounds hdata htable hsectors hlast hstop).2.le
  · exact Option.some.inj hstop ▸ Nat.min_le_left _ _

end Ranges

section StoredHash

variable {C : Crates} {segments segments' : List (List UInt8)} {k x : ℕ} {data data' : List UInt8}

/-- What an edit leaves alone in its segment is the same in every segment. -/
theorem ByteEdit.map_eq (h : ByteEdit segments segments' k x data data') {β : Type}
    {f : List UInt8 → β} (hf : f data' = f data) : segments'.map f = segments.map f := by
  rw [h.copy]
  refine map_eq_map_of_getElem? List.length_set fun j d d' hd hd' => ?_
  rw [List.getElem?_set] at hd'
  split_ifs at hd' with hj hlt
  · subst hj
    obtain rfl := Option.some.inj hd'
    obtain rfl := Option.some.inj (h.original.symm.trans hd)
    exact hf
  · rw [hd] at hd'
    rw [Option.some.inj hd']

/-- An edit outside of what gives the geometry and the chunks leaves the decoded media alone. -/
theorem ByteEdit.media_eq (h : ByteEdit segments segments' k x data data')
    (hgeom : volumeGeometry data' = volumeGeometry data)
    (hranges : leadingRanges data' = leadingRanges data)
    (hraw : ∀ c ∈ leadingRanges data, c.raw data' = c.raw data) :
    analysisGeometry segments' = analysisGeometry segments ∧
      decodedMedia C segments' = decodedMedia C segments := by
  have hhead : segments'.head?.bind volumeGeometry = segments.head?.bind volumeGeometry := by
    rw [head?_bind_volumeGeometry, head?_bind_volumeGeometry, h.map_eq hgeom]
  refine ⟨by rw [analysisGeometry_eq, analysisGeometry_eq, hhead], ?_⟩
  cases hg : segments.head?.bind volumeGeometry with
  | none =>
      rw [decodedMedia, decodedMedia, hhead, hg]
  | some geom =>
      have hindexed : indexedRanges segments' = indexedRanges segments := by
        rw [indexedRanges, indexedRanges, h.map_eq hranges]
      rw [decodedMedia_eq hg, decodedMedia_eq (hhead.trans hg), hindexed]
      refine List.flatMap_congr fun p hp => ?_
      obtain ⟨⟨j, c⟩, g⟩ := p
      obtain ⟨d, hd, hc⟩ := mem_indexedRanges_iff.mp
        (List.mem_of_getElem? (List.mem_zipIdx_iff_getElem?.mp hp))
      have hsame : c.raw (segments'.getD j []) = c.raw (segments.getD j []) := by
        rw [h.copy, List.getD, List.getD, List.getElem?_set, hd]
        split_ifs with hj hlt
        · subst hj
          obtain rfl := Option.some.inj (h.original.symm.trans hd)
          exact hraw c hc
        · exact absurd (List.getElem?_eq_some_iff.mp (hj ▸ hd)).1 hlt
        · rfl
      rw [mediaPiece, mediaPiece, hsame]

/-- The digest that is compared and not reported stands in the `hash` section. -/
theorem hasAt_of_storedMd5Issues (hdata : data.length < u64Max) {digest : Digest.Bytes 16}
    {s : Section} (hs : findSection (walkSectionsV1 data) .hash = some s)
    (hroom : s.offset + 92 ≤ data.length)
    (h : storedMd5Issues digest (walkSectionsV1 data) data = []) :
    HasAt data (s.offset + 76) digest.val := by
  have hstart : satAdd s.offset sectionDescriptorSize = s.offset + 76 :=
    @satAdd_eq s.offset 76 (by omega)
  obtain ⟨stored, hstored⟩ := Option.isSome_iff_exists.mp
    ((@Digest.isSome_bytesAt? 16 data (s.offset + 76) (by decide)).mpr hroom)
  rw [storedMd5Issues, hs] at h
  simp only [mismatch_eq_nil_iff, hstart] at h
  obtain rfl := h stored hstored
  exact (Digest.bytesAt?_eq_some_iff (by decide)).mp hstored

/-- **The stored hash is evident**: with the same sections, a change in it is reported. -/
theorem hash_evident {geom : VolumeGeometry} {expected expected' : ExpectedHashes}
    (h : ByteEdit segments segments' k x data data') (hlen : ∀ d ∈ segments, d.length < u64Max)
    (hlast : k + 1 = segments.length) (hgeom : analysisGeometry segments = some geom)
    (hin : InStoredHash data x) (hwalk : walkSectionsV1 data' = walkSectionsV1 data)
    (hclean : analyseAllEwf1 C segments expected = []) :
    analyseAllEwf1 C segments' expected' ≠ [] := by
  intro hclean'
  obtain ⟨s, hs, hroom, hlo, hhi, halone⟩ := hin
  have hdata := hlen data (List.mem_of_getElem? h.original)
  have hdata' : data'.length < u64Max := h.agree.1 ▸ hdata
  have hseg := (analyseAllEwf1_eq_nil_iff.mp hclean).1 k data h.original
  have htype : s.typeName = .hash := by simpa using List.find?_some hs
  -- No other section holds the byte.
  have hother : ∀ s' ∈ walkSectionsV1 data, s'.typeName ≠ .hash → ¬ s'.BodyByte data x :=
    fun s' hs' ht => (halone s' hs' (fun he => ht (he ▸ htype)) x hlo hhi).2
  have hvolume : volumeGeometry data' = volumeGeometry data := by
    refine volumeGeometry_congr_on hdata h.agree hwalk fun v hv i h1 h2 => ?_
    rintro rfl
    refine hother v (List.mem_of_find?_eq_some hv) ?_ ⟨h1, Or.inl h2⟩
    have ht := List.find?_some hv
    rintro hv
    simp [hv] at ht
  have hranges : leadingRanges data' = leadingRanges data := by
    refine leadingRanges_congr_on h.agree hwalk fun table ht i h1 h2 => ?_
    rintro rfl
    have htable : table.typeName = .table := by simpa using List.find?_some ht
    exact hother table (mem_of_findSection ht) (by simp [htable])
      ⟨h1, Or.inr (Or.inl ⟨htable, h2⟩)⟩
  have hraw : ∀ c ∈ leadingRanges data, c.raw data' = c.raw data := by
    intro c hc
    obtain ⟨sectors, hsectors⟩ := Option.isSome_iff_exists.mp hseg.sectors
    obtain ⟨hstart, hstop⟩ := hseg.leadingRanges_bounds hdata hsectors hc
    have hstype : sectors.typeName = .sectors := by simpa using List.find?_some hsectors
    refine (h.agree.window_eq fun i h1 h2 => ?_).symm
    rintro rfl
    exact hother sectors (mem_of_findSection hsectors) (by simp [hstype])
      ⟨by omega, Or.inl (by omega)⟩
  obtain ⟨hgeometry, hmedia⟩ := @ByteEdit.media_eq C _ _ _ _ _ _ h hvolume hranges hraw
  -- Both digests are that of one stream.
  obtain ⟨a, ha⟩ : ∃ a, analysisStream C segments = some a := by
    rw [analysisStream, hgeom]
    exact ⟨_, rfl⟩
  obtain ⟨b, hb⟩ : ∃ b, analysisStream C segments' = some b := by
    rw [analysisStream, hgeometry, hgeom]
    exact ⟨_, rfl⟩
  have hlen' : ∀ d ∈ segments', d.length < u64Max := by
    rw [h.copy]
    intro d hd
    rcases List.mem_or_eq_of_mem_set hd with hd | rfl
    · exact hlen d hd
    · exact hdata'
  have hsame : b = a := by
    rw [analysisStream_eq hlen ha, analysisStream_eq hlen' hb, hmedia]
  have hfinal : segments.getLast? = some data := by
    rw [List.getLast?_eq_getElem?, ← hlast, Nat.add_sub_cancel]
    exact h.original
  have hfinal' : segments'.getLast? = some data' := by
    rw [h.copy, List.getLast?_eq_getElem?, List.length_set, ← hlast, Nat.add_sub_cancel,
      List.getElem?_set_self (by omega)]
  have hat := hasAt_of_storedMd5Issues hdata hs hroom (clean_stored_v1 hclean ha hfinal).1
  have hat' := hasAt_of_storedMd5Issues hdata' (hwalk ▸ hs) (h.agree.1 ▸ hroom)
    (clean_stored_v1 hclean' hb hfinal').1
  rw [hsame] at hat'
  refine h.changed ?_
  have hwin := (hasAt_iff.mp hat).2.trans (hasAt_iff.mp hat').2.symm
  rw [(C.md5 a).property] at hwin
  rw [← @getElem?_window _ data (s.offset + 76) 16 x hlo hhi,
    ← @getElem?_window _ data' (s.offset + 76) 16 x hlo hhi, hwin]

end StoredHash

/-! ### The verdict -/

/-- An edit behind the file header keeps the signature. -/
theorem ByteEdit.isEwf2_eq {segments segments' : List (List UInt8)} {k x : ℕ}
    {data data' : List UInt8} (h : ByteEdit segments segments' k x data data')
    (hx : fileHeaderSize ≤ x) : isEwf2 segments' = isEwf2 segments := by
  obtain ⟨hk, rfl, hagree, -⟩ := h
  cases segments with
  | nil => cases hk
  | cons first rest =>
      cases k with
      | zero =>
          obtain rfl := Option.some.inj hk
          have hx : 13 ≤ x := hx
          refine isEwf2_congr hagree.1.symm ?_
          exact (@AgreeOn.window_eq _ _ _ _ hagree 0 8 fun i _ h2 => by omega).symm
      | succ k => rfl

/-- The changed byte lies behind the file header. -/
theorem fileHeaderSize_le_of_in {data : List UInt8} {x : ℕ} (hdata : data.length < u64Max)
    (h : InDescriptor data x ∨ InVolumeBody data x ∨ InTableBody data x ∨ InStoredHash data x) :
    fileHeaderSize ≤ x := by
  obtain ⟨s, hs, hle⟩ : ∃ s ∈ walkSectionsV1 data, s.offset ≤ x := by
    rcases h with ⟨s, hs, hlo, -⟩ | ⟨v, hv, -, hlo, -⟩ | ⟨t, -, ht, -, -, -, hlo, -⟩ |
      ⟨s, hs, -, hlo, -⟩
    · exact ⟨s, hs, hlo⟩
    · exact ⟨v, List.mem_of_find?_eq_some hv, by omega⟩
    · exact ⟨t, mem_of_findSection ht, by omega⟩
    · exact ⟨s, mem_of_findSection hs, by omega⟩
  exact (linked_of_mem_walkSectionsV1 hdata hs).ge.trans hle

/-- **Structural tamper evidence.** After an edit of one byte of the structure, a v1 image that was
reported clean and has a geometry is not reported clean any more. -/
theorem structure_tamper_evident (C : Crates) (self : EwfIntegrity) (segs' : List Segment)
    (hv1 : isEwf2 self.bytes = false) (hgeom : (analysisGeometry self.bytes).isSome)
    (hedit : StructureEdit self.bytes (segs'.map (·.data))) (hclean : self.analyse C = []) :
    ({ self with segments := segs' } : EwfIntegrity).analyse C ≠ [] := by
  obtain ⟨k, x, data, data', h, hin⟩ := hedit
  obtain ⟨geom, hgeom⟩ := Option.isSome_iff_exists.mp hgeom
  have hlen : ∀ d ∈ self.bytes, d.length < u64Max := by
    intro d hd
    obtain ⟨s, -, rfl⟩ := List.mem_map.mp hd
    exact s.length_lt_u64Max
  have hdata := hlen data (List.mem_of_getElem? h.original)
  have hheader := fileHeaderSize_le_of_in hdata
    (hin.imp_right (Or.imp And.right (Or.imp_right And.right)))
  have hcopy : isEwf2 ({ self with segments := segs' } : EwfIntegrity).bytes = false :=
    (h.isEwf2_eq hheader).trans hv1
  rw [analyse_v1 hv1] at hclean
  rw [analyse_v1 hcopy]
  intro hclean'
  have hseg := (analyseAllEwf1_eq_nil_iff.mp hclean).1 k data h.original
  have hk : (segs'.map (·.data))[k]? = some data' := by
    rw [h.copy, List.getElem?_set_self (List.getElem?_eq_some_iff.mp h.original).1]
  have hseg' := (analyseAllEwf1_eq_nil_iff.mp hclean').1 k data' hk
  by_cases hdesc : InDescriptor data x
  · exact descriptor_evident hdata h.agree h.changed hdesc hseg.walk hseg'.walk
  have hwalk := walkSectionsV1_eq_of_not_inDescriptor hdata h.agree hdesc
  rcases hin with hin | ⟨rfl, hin⟩ | hin | ⟨hlast, hin⟩
  · exact hdesc hin
  · exact volume_evident hdata h.agree h.changed hin hwalk hseg hseg'
  · exact table_evident hdata h.agree h.changed hin hwalk hseg.table2 hseg'.table2
  · exact hash_evident h hlen hlast hgeom hin hwalk hclean hclean'

/-- A list with one element replaced, as an edit. -/
theorem byteEdit_set {segments : List (List UInt8)} {k x : ℕ} {data : List UInt8} {b : UInt8}
    (hk : segments[k]? = some data) (hx : data[x]? ≠ (data.set x b)[x]?) :
    ByteEdit segments (segments.set k (data.set x b)) k x data (data.set x b) :=
  ⟨hk, rfl, ⟨List.length_set.symm, fun _ hi => (List.getElem?_set_ne (Ne.symm hi)).symm⟩, hx⟩

/-- The whole image with a byte of its stored MD5 changed. -/
def wholeImageForged : Segment := ⟨wholeImage.data.set 960 0, by decide +kernel⟩

theorem structure_tamper_evident_wholeImage :
    isEwf2 [wholeImage.data] = false ∧ (analysisGeometry [wholeImage.data]).isSome ∧
      StructureEdit [wholeImage.data] [wholeImageForged.data] ∧
      (EwfIntegrity.fromSegments [wholeImage]).analyse Crates.reference = [] ∧
      (EwfIntegrity.fromSegments [wholeImageForged]).analyse Crates.reference ≠ [] := by
  have hv1 : isEwf2 [wholeImage.data] = false := by decide +kernel
  have hgeom : (analysisGeometry [wholeImage.data]).isSome := by decide +kernel
  have hclean : (EwfIntegrity.fromSegments [wholeImage]).analyse Crates.reference = [] := by
    decide +kernel
  have hedit : StructureEdit [wholeImage.data] [wholeImageForged.data] := by
    refine ⟨0, 960, _, _, @byteEdit_set _ 0 960 wholeImage.data 0 rfl (by decide +kernel),
      .inr (.inr (.inr ⟨rfl, ?_⟩))⟩
    exact ⟨⟨.hash, 875, 92⟩, by decide +kernel, by decide +kernel, by decide, by decide,
      by decide +kernel⟩
  exact ⟨hv1, hgeom, hedit, hclean, structure_tamper_evident Crates.reference
    (EwfIntegrity.fromSegments [wholeImage]) [wholeImageForged] hv1 hgeom hedit hclean⟩

/-- An image without sectors whose table declares more bytes than the segment has. A byte stands
behind the header of the table, and one behind that of the second table. -/
def overlongTableBytes (b : UInt8) : List UInt8 :=
  Image.fileHeaderBytes 1 ++
    Image.encodeSections 13 [⟨.volume, Image.volumeFront 1 0 1 512 0 ++ List.replicate 70 0⟩,
      ⟨.sectors, [7]⟩] ++
    Image.descriptorBytes .table 361 1000 ++ Image.tableBytes 0 false [] [b] ++
    Image.encodeSections 361 [⟨.table2, Image.tableBytes 0 false [] [5]⟩,
      ⟨.hash, (Digest.md5 []).1⟩] ++
    Image.descriptorBytes .done 0 76

def overlongTableImage : Segment := ⟨overlongTableBytes 5, by decide +kernel⟩

def overlongTableEdited : Segment := ⟨overlongTableBytes 9, by decide +kernel⟩

/-- Where the declared body of the first table leaves the segment, the two are not compared: the
image and its copy with another byte in that table are both reported clean. -/
theorem overlongTable_tampered :
    isEwf2 [overlongTableImage.data] = false ∧
      (analysisGeometry [overlongTableImage.data]).isSome ∧
      (EwfIntegrity.fromSegments [overlongTableImage]).analyse Crates.reference = [] ∧
      ByteEdit [overlongTableImage.data] [overlongTableEdited.data] 0 360
        overlongTableImage.data overlongTableEdited.data ∧
      (∃ t1 t2, findSection (walkSectionsV1 overlongTableImage.data) .table = some t1 ∧
        findSection (walkSectionsV1 overlongTableImage.data) .table2 = some t2 ∧
        (sectionBody overlongTableImage.data t2).isSome ∧
        t1.offset + 76 ≤ 360 ∧ 360 < t1.offset + t1.size) ∧
      (EwfIntegrity.fromSegments [overlongTableEdited]).analyse Crates.reference = [] := by
  have hcopy : overlongTableEdited.data = overlongTableImage.data.set 360 9 := by decide +kernel
  refine ⟨by decide +kernel, by decide +kernel, by decide +kernel, ?_,
    ⟨⟨.table, 260, 1000⟩, ⟨.table2, 361, 101⟩, by decide +kernel⟩, by decide +kernel⟩
  rw [hcopy]
  exact @byteEdit_set _ 0 360 overlongTableImage.data 9 rfl (by decide +kernel)

end EwfForensic

import EwfForensic.Forensic.StoredHash

/-!
# Two Runs of the v1 Analysis

A tamper argument compares the analysis of an image with that of an edited copy. This file
shows what the two runs share when the edit leaves the structural bytes of each segment alone.

* `Protected` — the file header, the visited descriptors, and the bodies of all visited
  sections but the `sectors` ones.
* `walkSectionsV1_congr`, `volumeGeometry_congr`, `leadingRanges_congr` — the walk, the geometry
  and the chunk ranges of the copy are those of the original.
* `indexedRanges` — the chunk ranges of an image with the index of their segment, and
  `decodedMedia_eq`, the decoded media chunk by chunk along them.
* `eq_of_mem_leadingRanges` — two chunk ranges of a segment that share a byte are one.
-/

namespace EwfForensic

open Octets

/-! ### Structural bytes -/

/-- Byte `i` belongs to the body of section `s`: it is among the bytes that the section
declares, or among those that are read as its body whatever it declares, the header and the
entries of a table and the digest of a `hash` section. -/
def Section.BodyByte (data : List UInt8) (s : Section) (i : ℕ) : Prop :=
  s.offset + 76 ≤ i ∧ (i < s.offset + s.size ∨
    s.typeName = .table ∧ i < s.offset + 100 + 4 * leU32 data (s.offset + 76) ∨
    s.typeName = .hash ∧ i < s.offset + 92)

/-- Byte `i` belongs to the structure of a v1 segment. -/
def Protected (data : List UInt8) (i : ℕ) : Prop :=
  i < fileHeaderSize ∨ ∃ s ∈ walkSectionsV1 data,
    s.offset ≤ i ∧ i < s.offset + 76 ∨ s.typeName ≠ .sectors ∧ s.BodyByte data i

instance (data : List UInt8) (s : Section) (i : ℕ) : Decidable (s.BodyByte data i) :=
  inferInstanceAs (Decidable (_ ∧ _))

instance (data : List UInt8) (i : ℕ) : Decidable (Protected data i) :=
  inferInstanceAs (Decidable (_ ∨ _))

theorem protected_descriptor {data : List UInt8} {s : Section} (hs : s ∈ walkSectionsV1 data)
    {i : ℕ} (h1 : s.offset ≤ i) (h2 : i < s.offset + 76) : Protected data i :=
  Or.inr ⟨s, hs, Or.inl ⟨h1, h2⟩⟩

theorem protected_body {data : List UInt8} {s : Section} (hs : s ∈ walkSectionsV1 data)
    (ht : s.typeName ≠ .sectors) {i : ℕ} (h : s.BodyByte data i) : Protected data i :=
  Or.inr ⟨s, hs, Or.inr ⟨ht, h⟩⟩

/-! ### The walk -/

/-- One turn of the walk without the anomalies it pushes. -/
def sectionStep (data : List UInt8) (pos : ℕ) : Option (Section × Option ℕ) :=
  (walkStep data pos).map fun p => (p.1.1, p.2)

theorem walkSectionsV1_eq_visits (data : List UInt8) :
    walkSectionsV1 data = Loop.visits (sectionStep data) (data.length + 1) fileHeaderSize :=
  (Loop.visits_map (fun p : Section × List EwfIntegrityAnomaly => p.1) (fun _ => rfl) _ _).symm

/-- A turn of the walk reads the descriptor at its position and the length of the segment. -/
theorem sectionStep_eq {data : List UInt8} (hdata : data.length < u64Max) (pos : ℕ) :
    sectionStep data pos =
      (slice? data pos (satAdd pos sectionDescriptorSize)).map fun raw =>
        (⟨(SectionDescriptor.ofBytes raw pos).sectionType, pos,
            (SectionDescriptor.ofBytes raw pos).sectionSize⟩,
          if (SectionDescriptor.ofBytes raw pos).sectionType = .done ∨
              (SectionDescriptor.ofBytes raw pos).sectionType = .next then none
          else if (SectionDescriptor.ofBytes raw pos).next = 0 ∨
              (SectionDescriptor.ofBytes raw pos).next > data.length ∨
              (SectionDescriptor.ofBytes raw pos).next ≤ pos then none
          else some (SectionDescriptor.ofBytes raw pos).next) := by
  rw [sectionStep, walkStep]
  cases hs : slice? data pos (satAdd pos sectionDescriptorSize) with
  | none => rfl
  | some raw =>
      have hle : pos + 76 ≤ data.length :=
        (satAdd_le_iff hdata).mp (slice?_eq_some_iff.mp hs).2.1
      have hlen : sectionDescriptorSize ≤ raw.length := by
        rw [length_of_slice? hs, @satAdd_eq pos 76 (by omega),
          show sectionDescriptorSize = 76 from rfl]
        omega
      simp only [SectionDescriptor.parse_of_le hlen, Option.map_some]
      split_ifs <;> rfl

section Copy

variable {data data' : List UInt8} {P : ℕ → Prop}

/-- The walk of a copy that keeps the visited descriptors visits the same sections. -/
theorem walkSectionsV1_congr_on (hdata : data.length < u64Max) (h : AgreeOn P data data')
    (hP : ∀ s ∈ walkSectionsV1 data, ∀ i, s.offset ≤ i → i < s.offset + 76 → P i) :
    walkSectionsV1 data' = walkSectionsV1 data := by
  have hlen := h.1
  have hslice : ∀ pos, (∀ i, pos ≤ i → i < pos + 76 → P i) →
      slice? data' pos (satAdd pos sectionDescriptorSize) =
        slice? data pos (satAdd pos sectionDescriptorSize) := by
    intro pos hp
    refine (h.slice?_eq fun i h1 h2 => hp i h1 ?_).symm
    exact lt_of_lt_of_le h2 (Nat.min_le_left _ _)
  rw [walkSectionsV1_eq_visits, walkSectionsV1_eq_visits, ← hlen]
  refine Loop.visits_congr_of_mem (fun pos p hp hmem => ?_) fun pos hp => ?_
  · rw [← walkSectionsV1_eq_visits] at hmem
    have hpos : p.1.offset = pos := by
      rw [sectionStep_eq hdata] at hp
      obtain ⟨raw, -, rfl⟩ := Option.map_eq_some_iff.mp hp
      rfl
    rw [sectionStep_eq (hlen ▸ hdata), hslice pos fun i h1 h2 =>
      hP p.1 hmem i (by omega) (by omega), ← hlen, ← sectionStep_eq hdata, hp]
  · rw [sectionStep_eq hdata, Option.map_eq_none_iff, slice?_eq_none_iff] at hp
    rw [sectionStep_eq (hlen ▸ hdata), Option.map_eq_none_iff, slice?_eq_none_iff, ← hlen]
    exact hp

/-- The walk of an edited copy that keeps the structural bytes visits the same sections. -/
theorem walkSectionsV1_congr (hdata : data.length < u64Max)
    (h : AgreeOn (Protected data) data data') : walkSectionsV1 data' = walkSectionsV1 data :=
  walkSectionsV1_congr_on hdata h fun _ hs _ => protected_descriptor hs

/-! ### Geometry and chunk ranges -/

/-- The geometry of a copy that keeps the body of the first volume. -/
theorem volumeGeometry_congr_on (hdata : data.length < u64Max) (h : AgreeOn P data data')
    (hwalk : walkSectionsV1 data' = walkSectionsV1 data)
    (hP : ∀ v, findVolume (walkSectionsV1 data) = some v →
      ∀ i, v.offset + 76 ≤ i → i < v.offset + v.size → P i) :
    volumeGeometry data' = volumeGeometry data := by
  unfold volumeGeometry
  rw [hwalk]
  cases hv : findVolume (walkSectionsV1 data) with
  | none => rfl
  | some v =>
      have hoff := offset_le_of_mem_walkSectionsV1 hdata (List.mem_of_find?_eq_some hv)
      have hstart : satAdd v.offset sectionDescriptorSize = v.offset + 76 :=
        @satAdd_eq v.offset 76 (by omega)
      have hbody : volumeBody data' v.offset v.size = volumeBody data v.offset v.size := by
        have hend : min (satAdd (v.offset + 76) (v.size - sectionDescriptorSize)) data.length ≤
            v.offset + 76 + (v.size - 76) :=
          le_trans (Nat.min_le_left _ _) (Nat.min_le_left _ _)
        unfold volumeBody
        simp only [hstart, ← h.1]
        exact (h.window_eq fun i h1 h2 => hP v hv i h1 (by omega)).symm
      simp only [Option.bind_some, checkVolumeV1, hbody, h.1]

/-- The geometry of the copy is that of the original. -/
theorem volumeGeometry_congr (hdata : data.length < u64Max)
    (h : AgreeOn (Protected data) data data') : volumeGeometry data' = volumeGeometry data := by
  refine volumeGeometry_congr_on hdata h (walkSectionsV1_congr hdata h) fun v hv i h1 h2 => ?_
  have htype : v.typeName ≠ .sectors := by
    have ht := List.find?_some hv
    rintro hs
    simp [hs] at ht
  exact protected_body (List.mem_of_find?_eq_some hv) htype ⟨h1, Or.inl h2⟩

/-- The chunk ranges of a copy that keeps the header and the entries of the first table. -/
theorem leadingRanges_congr_on (h : AgreeOn P data data')
    (hwalk : walkSectionsV1 data' = walkSectionsV1 data)
    (hP : ∀ table, findSection (walkSectionsV1 data) .table = some table →
      ∀ i, table.offset + 76 ≤ i →
        i < table.offset + 100 + 4 * leU32 data (table.offset + 76) → P i) :
    leadingRanges data' = leadingRanges data := by
  unfold leadingRanges
  rw [hwalk]
  match ht : findSection (walkSectionsV1 data) .table,
      findSection (walkSectionsV1 data) .sectors with
  | none, _ => rfl
  | some table, none => rfl
  | some table, some sectors =>
      have hprot := hP table ht
      have hcount : leU32 data' (table.offset + 76) = leU32 data (table.offset + 76) :=
        (h.leAt_eq fun i h1 h2 => hprot i h1 (by omega)).symm
      have hbase : leU64 data' (table.offset + 84) = leU64 data (table.offset + 84) :=
        (h.leAt_eq fun i h1 h2 => hprot i (by omega) (by omega)).symm
      have hentry : ∀ i < leU32 data (table.offset + 76),
          tableEntry data' table i = tableEntry data table i := by
        intro i hi
        unfold tableEntry leU32
        rw [← h.1, h.leAt_eq fun j h1 h2 => hprot j (by omega) (by omega)]
      have hrange : ∀ i < leU32 data (table.offset + 76),
          describedRange data' table sectors i = describedRange data table sectors i := by
        intro i hi
        have hstop : tableStop data' table sectors i = tableStop data table sectors i := by
          unfold tableStop tableTarget
          rw [hcount, hbase, ← h.1]
          split_ifs with hlast
          · rw [hentry _ hlast]
          · rfl
        unfold describedRange
        rw [hentry i hi, hstop, hbase, ← h.1]
      simp only [← h.1, hcount]
      rw [List.map_congr_left fun i hi => hrange i (List.mem_range.mp hi)]

/-- The chunk ranges of the copy are those of the original. -/
theorem leadingRanges_congr (hdata : data.length < u64Max)
    (h : AgreeOn (Protected data) data data') : leadingRanges data' = leadingRanges data := by
  refine leadingRanges_congr_on h (walkSectionsV1_congr hdata h) fun table ht i h1 h2 => ?_
  have htype : table.typeName = .table := by simpa using List.find?_some ht
  exact protected_body (mem_of_findSection ht) (by simp [htype]) ⟨h1, Or.inr (Or.inl ⟨htype, h2⟩)⟩

end Copy

/-- The digest that the copy stores in a `hash` section is that of the original. -/
theorem bytesAt?_hash_congr {data data' : List UInt8}
    (h : AgreeOn (Protected data) data data') {s : Section} (hs : s ∈ walkSectionsV1 data)
    (ht : s.typeName = .hash) :
    Digest.bytesAt? 16 data' (s.offset + 76) = Digest.bytesAt? 16 data (s.offset + 76) := by
  have hwin : (data'.drop (s.offset + 76)).take 16 = (data.drop (s.offset + 76)).take 16 :=
    (h.window_eq fun i h1 h2 =>
      protected_body hs (by simp [ht]) ⟨h1, Or.inr (Or.inr ⟨ht, by omega⟩)⟩).symm
  unfold Digest.bytesAt?
  simp only [hwin]

/-! ### Disjoint chunks -/

/-- The end of a chunk before the last one is the start of the next. -/
theorem describedRange_stop_eq {data : List UInt8} {table sectors : Section} {m : ℕ}
    {c d : ChunkRange} (hm : m + 1 < leU32 data (table.offset + 76))
    (hc : describedRange data table sectors m = some c)
    (hd : describedRange data table sectors (m + 1) = some d) : c.stop = d.start := by
  have hstop := (describedRange_eq_some hc).2.1
  rw [tableStop, if_pos hm, (describedRange_eq_some hd).1] at hstop
  exact (Option.some.inj hstop).symm

/-- A later range of a table starts where an earlier one ends, or behind it. -/
theorem describedRange_stop_le {data : List UInt8} {table sectors : Section} {i j : ℕ}
    (hij : i < j) (hj : j < leU32 data (table.offset + 76)) {c d : ChunkRange}
    (hall : ∀ m < j, (describedRange data table sectors m).isSome)
    (hc : describedRange data table sectors i = some c)
    (hd : describedRange data table sectors j = some d) : c.stop ≤ d.start := by
  induction j generalizing d with
  | zero => omega
  | succ j ih =>
      obtain ⟨b, hb⟩ := Option.isSome_iff_exists.mp (hall j (Nat.lt_succ_self j))
      have hnext := describedRange_stop_eq hj hb hd
      rcases Nat.lt_succ_iff_lt_or_eq.mp hij with hlt | rfl
      · have hle := ih hlt (by omega) (fun m hm => hall m (by omega)) hb
        have hbounds := (describedRange_eq_some hb).2.2.1
        omega
      · obtain rfl := Option.some.inj (hb.symm.trans hc)
        omega

/-- Two chunk ranges of a segment that share a byte are one. -/
theorem eq_of_mem_leadingRanges {data : List UInt8} {c d : ChunkRange}
    (hc : c ∈ leadingRanges data) (hd : d ∈ leadingRanges data) {x : ℕ}
    (hcx : c.start ≤ x ∧ x < c.stop) (hdx : d.start ≤ x ∧ x < d.stop) : c = d := by
  obtain ⟨i, hi⟩ := List.mem_iff_getElem?.mp hc
  obtain ⟨j, hj⟩ := List.mem_iff_getElem?.mp hd
  obtain ⟨table, sectors, ht, hs, hilt, hci, halli⟩ := leadingRanges_eq_some hi
  obtain ⟨table', sectors', ht', hs', hjlt, hdj, hallj⟩ := leadingRanges_eq_some hj
  obtain rfl := Option.some.inj (ht.symm.trans ht')
  obtain rfl := Option.some.inj (hs.symm.trans hs')
  rcases Nat.lt_trichotomy i j with hlt | rfl | hgt
  · have := describedRange_stop_le hlt hjlt hallj hci hdj
    omega
  · exact Option.some.inj (hi.symm.trans hj)
  · have := describedRange_stop_le hgt hilt halli hdj hci
    omega

/-! ### The decoded media by segment index -/

/-- The chunk ranges of an image in order, each with the index of its segment. -/
def indexedRanges (segments : List (List UInt8)) : List (ℕ × ChunkRange) :=
  (segments.map leadingRanges).zipIdx.flatMap fun p => p.1.map (p.2, ·)

theorem mem_indexedRanges_iff {segments : List (List UInt8)} {k : ℕ} {c : ChunkRange} :
    (k, c) ∈ indexedRanges segments ↔
      ∃ data, segments[k]? = some data ∧ c ∈ leadingRanges data := by
  rw [indexedRanges]
  simp only [List.mem_flatMap, List.mem_zipIdx_iff_getElem?, List.getElem?_map, List.mem_map,
    Option.map_eq_some_iff, Prod.mk.injEq, Prod.exists]
  constructor
  · rintro ⟨ranges, k', ⟨data, hdata, rfl⟩, c', hc', rfl, rfl⟩
    exact ⟨data, hdata, hc'⟩
  · rintro ⟨data, hdata, hc⟩
    exact ⟨_, k, ⟨data, hdata, rfl⟩, c, hc, rfl, rfl⟩

/-- The chunk ranges with their segments' bytes are the indexed ones, looked up. -/
theorem imageRanges_eq (segments : List (List UInt8)) :
    imageRanges segments =
      (indexedRanges segments).map fun p => (segments.getD p.1 [], p.2) := by
  have hfst : segments = segments.zipIdx.map Prod.fst := (List.zipIdx_map_fst 0 segments).symm
  rw [imageRanges, indexedRanges]
  rw [List.zipIdx_map, List.flatMap_map, List.map_flatMap]
  conv_lhs => rw [hfst, List.flatMap_map]
  refine List.flatMap_congr fun p hp => ?_
  have hget := List.mem_zipIdx_iff_getElem?.mp hp
  simp only [List.map_map]
  refine List.map_congr_left fun c _ => ?_
  simp [List.getD, hget]

/-- What chunk `g` of the image, with range `c` in segment `k`, gives to the media. -/
def mediaPiece (C : Crates) (segments : List (List UInt8)) (geom : VolumeGeometry)
    (p : (ℕ × ChunkRange) × ℕ) : List UInt8 :=
  (decodeForHash C p.1.2.compressed (p.1.2.raw (segments.getD p.1.1 []))
    (min (geom.totalBytes - p.2 * geom.chunkSize) geom.chunkSize)).getD []

/-- The geometry of an image, from those of its segments. -/
theorem head?_bind_volumeGeometry (segments : List (List UInt8)) :
    segments.head?.bind volumeGeometry = (segments.map volumeGeometry).head?.join := by
  cases segments <;> rfl

/-- The decoded media, chunk by chunk along the indexed ranges. -/
theorem decodedMedia_eq {C : Crates} {segments : List (List UInt8)} {geom : VolumeGeometry}
    (h : segments.head?.bind volumeGeometry = some geom) :
    decodedMedia C segments =
      (indexedRanges segments).zipIdx.flatMap (mediaPiece C segments geom) := by
  rw [decodedMedia, h]
  simp only [imageRanges_eq, List.zipIdx_map, List.flatMap_map]
  rfl

end EwfForensic

import EwfForensic.Forensic.RecoverRun

/-!
# The Recovery is Local

Two recoveries, one of an image and one of a copy whose bytes differ only where the tables put
the data of one chunk. The second writes what the first does everywhere but in that chunk's
place, and condemns the same other chunks, unless the recovery reads one of them through an
entry that `table2` does not have.

* `Structural` — the bytes that `recover_segments` reads before it decodes a chunk;
  `walkSections_congr`, `bootstrap_congr`, `ofBytes_congr` say so.
* `ChunkEdit` — the edits of one chunk's data.
* `Overread` — the entries behind the end of a `table2`, and the data they point at.
* `decodeGlobal_congr` — the lockstep of the two main loops at a chunk that is not edited.
* `recovery_local` — the two outputs and the two reports.
-/

namespace EwfForensic.Recover

open Octets

/-! ### What the recovery reads before it decodes -/

/-- Byte `i` is part of the structure of a segment: of the file header, of a visited
descriptor, or of the body of a volume or a table. The body of a table is what its section
declares and, whatever it declares, the header and as many entries as the header counts. -/
def Structural (data : List UInt8) (i : ℕ) : Prop :=
  i < fileHeaderSize ∨ ∃ s ∈ walkSections data,
    s.offset ≤ i ∧ i < s.offset + 76 ∨
    s.typeName ∈ [.volume, .disk, .table, .table2] ∧ s.offset + 76 ≤ i ∧ i < s.offset + s.size ∨
    s.typeName ∈ [.table, .table2] ∧ s.offset + 76 ≤ i ∧
      i < s.offset + 100 + 4 * leU32 data (s.offset + 76)

instance (data : List UInt8) (i : ℕ) : Decidable (Structural data i) :=
  inferInstanceAs (Decidable (_ ∨ _))

section Structure

variable {data data' : List UInt8} {s : Section} {i : ℕ}

theorem structural_descriptor (hs : s ∈ walkSections data) (h1 : s.offset ≤ i)
    (h2 : i < s.offset + 76) : Structural data i :=
  Or.inr ⟨s, hs, Or.inl ⟨h1, h2⟩⟩

theorem structural_body (hs : s ∈ walkSections data)
    (ht : s.typeName ∈ [SectionType.volume, .disk, .table, .table2]) (h1 : s.offset + 76 ≤ i)
    (h2 : i < s.offset + s.size) : Structural data i :=
  Or.inr ⟨s, hs, Or.inr (Or.inl ⟨ht, h1, h2⟩)⟩

theorem structural_table (hs : s ∈ walkSections data)
    (ht : s.typeName ∈ [SectionType.table, .table2]) (h1 : s.offset + 76 ≤ i)
    (h2 : i < s.offset + 100 + 4 * leU32 data (s.offset + 76)) : Structural data i :=
  Or.inr ⟨s, hs, Or.inr (Or.inr ⟨ht, h1, h2⟩)⟩

/-- The walk records a section where it reads its descriptor. -/
theorem walkStep_offset {pos : ℕ} {p : (Section × Option ℕ) × Option ℕ}
    (h : walkStep data pos = some p) : p.1.1.offset = pos := by
  rw [walkStep] at h
  split at h
  · cases h
  · split at h
    · cases h
    · simp only at h
      split_ifs at h <;> · obtain rfl := Option.some.inj h; rfl

/-- The walk records nothing where the segment has no room for a descriptor. -/
theorem walkStep_eq_none_iff {pos : ℕ} :
    walkStep data pos = none ↔
      ∀ raw, slice? data pos (satAdd pos sectionDescriptorSize) = some raw →
        raw.length < sectionDescriptorSize := by
  rw [walkStep]
  cases hs : slice? data pos (satAdd pos sectionDescriptorSize) with
  | none => simp
  | some raw =>
      simp only [Option.some.injEq, forall_eq']
      by_cases hlen : raw.length < sectionDescriptorSize
      · rw [SectionDescriptor.parse, if_pos hlen]
        simp [hlen]
      · rw [SectionDescriptor.parse_of_le (not_lt.mp hlen)]
        simp only [hlen, iff_false]
        split_ifs <;> simp

/-- **The walk reads the descriptors it records** and the length of the segment. -/
theorem walkSections_congr {P : ℕ → Prop} (h : AgreeOn P data data')
    (hP : ∀ s ∈ walkSections data, ∀ i, s.offset ≤ i → i < s.offset + 76 → P i) :
    walkSections data' = walkSections data := by
  rw [walkSections, walkSections, walkTrace, walkTrace, ← h.1]
  congr 1
  refine Loop.visits_congr_of_mem (fun pos p hp hmem => ?_) fun pos hp => ?_
  · have hoff := walkStep_offset hp
    have hslice : slice? data' pos (satAdd pos sectionDescriptorSize) =
        slice? data pos (satAdd pos sectionDescriptorSize) := by
      refine (h.slice?_eq fun i h1 h2 => ?_).symm
      refine hP p.1.1 (List.mem_map_of_mem hmem) i (hoff ▸ h1) ?_
      rw [hoff]
      exact lt_of_lt_of_le h2 (Nat.min_le_left _ _)
    rw [walkStep] at hp ⊢
    rw [hslice, ← h.1]
    exact hp
  · -- A turn that records nothing found no room, and there is none in the copy.
    rw [walkStep_eq_none_iff] at hp ⊢
    intro raw' hraw'
    have hle := slice?_eq_some_iff.mp hraw'
    have hraw := slice?_of_le hle.1 (h.1.symm ▸ hle.2.1)
    rw [length_of_slice? hraw', ← length_of_slice? hraw]
    exact hp _ hraw

theorem walkSections_eq (h : AgreeOn (Structural data) data data') :
    walkSections data' = walkSections data :=
  walkSections_congr h fun _ hs _ h1 h2 => structural_descriptor hs h1 h2

/-- The geometry of the copy is that of the original. -/
theorem readGeometry_congr (h : AgreeOn (Structural data) data data') :
    readGeometry data' (walkSections data') = readGeometry data (walkSections data) := by
  rw [walkSections_eq h, readGeometry, readGeometry]
  cases hv : findVolume (walkSections data) with
  | none => rfl
  | some vol =>
      have htype : vol.typeName ∈ [SectionType.volume, .disk, .table, .table2] := by
        have ht := List.find?_some hv
        simp only [decide_eq_true_eq] at ht
        rcases ht with ht | ht <;> simp [ht]
      simp only [← h.1]
      rw [h.slice?_eq fun i h1 h2 => ?_]
      refine structural_body (List.mem_of_find?_eq_some hv) htype ?_ ?_ <;>
        · simp only [satAdd, sectionDescriptorSize] at h1 h2
          omega

/-- What `table_ref` reads: the header of the first section of a type. -/
theorem tableRef_eq_some {name : SectionType} {t : TableRef}
    (h : tableRef data (walkSections data) name = some t) :
    ∃ s ∈ walkSections data, s.typeName = name ∧
      t.entryCount = leU32 data (s.offset + 76) ∧
      t.entriesFileOffset = satAdd (satAdd s.offset 76) 24 := by
  rw [tableRef] at h
  cases hs : findSection (walkSections data) name with
  | none =>
      rw [hs] at h
      cases h
  | some s =>
      rw [hs] at h
      simp only at h
      split at h
      · cases h
      · rename_i hdr hslice
        rw [TableHeader.parse] at h
        split_ifs at h with hshort
        obtain rfl := Option.some.inj h
        refine ⟨s, List.mem_of_find?_eq_some hs, by simpa using List.find?_some hs, ?_, rfl⟩
        -- The slice is long enough for a header, so its start is not a saturated sum.
        have hlen := length_of_slice? hslice
        obtain ⟨-, hend, hhdr⟩ := slice?_eq_some_iff.mp hslice
        simp only [satAdd, sectionDescriptorSize, tableHeaderSize, tableHeaderCrcOffset]
          at hlen hend hhdr hshort
        have hstart : min (s.offset + 76) u64Max = s.offset + 76 := by omega
        rw [hstart] at hlen hend hhdr
        rw [TableHeader.ofBytes, hhdr]
        exact leAt_window (by omega) (by omega) (by omega)

/-- The tables of the copy are found where those of the original are. -/
theorem tableRef_congr (h : AgreeOn (Structural data) data data') {name : SectionType}
    (hname : name ∈ [SectionType.table, .table2]) :
    tableRef data' (walkSections data') name = tableRef data (walkSections data) name := by
  rw [walkSections_eq h, tableRef, tableRef]
  cases hs : findSection (walkSections data) name with
  | none => rfl
  | some s =>
      have htype : s.typeName = name := by simpa using List.find?_some hs
      simp only
      rw [h.slice?_eq fun i h1 h2 => ?_]
      refine structural_table (List.mem_of_find?_eq_some hs) (htype ▸ hname) ?_ ?_ <;>
        · simp only [satAdd, sectionDescriptorSize, tableHeaderSize] at h1 h2
          omega

/-- The copy's tables and sector data are delimited as the original's. -/
theorem ofBytes_congr (h : AgreeOn (Structural data) data data') :
    SegmentTables.ofBytes data' = { SegmentTables.ofBytes data with data := data' } := by
  rw [SegmentTables.ofBytes, tableRef_congr h (by decide), tableRef_congr h (by decide),
    walkSections_eq h, ← h.1]
  rfl

/-- An entry of a table is read from its four bytes. -/
theorem TableRef.entryAt_congr {P : ℕ → Prop} (h : AgreeOn P data data') (t : TableRef) {l : ℕ}
    (hP : ∀ i < u64Max, t.entriesFileOffset + 4 * l ≤ i →
      i < t.entriesFileOffset + 4 * l + 4 → P i) : t.entryAt data' l = t.entryAt data l := by
  rw [TableRef.entryAt, TableRef.entryAt]
  rw [h.slice?_eq fun i h1 h2 => ?_]
  simp only [satAdd, satMul] at h1 h2
  exact hP i (by omega) (by omega) (by omega)

/-- The entries that a table's header counts are structural. -/
theorem entryAt_eq_of_lt (h : AgreeOn (Structural data) data data') {name : SectionType}
    (hname : name ∈ [SectionType.table, .table2]) {t : TableRef}
    (ht : tableRef data (walkSections data) name = some t) {l : ℕ} (hl : l < t.entryCount) :
    t.entryAt data' l = t.entryAt data l := by
  obtain ⟨s, hs, htype, hcount, hoff⟩ := tableRef_eq_some ht
  refine t.entryAt_congr h fun i hi h1 h2 => ?_
  simp only [satAdd] at hoff
  exact structural_table hs (htype ▸ hname) (by omega) (by omega)

end Structure

/-! ### Edits of one chunk's data -/

/-- Byte `i` lies in the range that table `t` gives for chunk `l` of its segment. -/
def SegmentTables.InRange (s : SegmentTables) (t : TableRef) (l i : ℕ) : Prop :=
  ∃ c, chunkRange s.data t l s.sectorsEnd = some c ∧ c.start ≤ i ∧ i < c.stop

/-- Byte `i` lies in a range that an entry of one of the two tables gives for chunk `l`. -/
def SegmentTables.Given (s : SegmentTables) (l i : ℕ) : Prop :=
  ∃ t, (s.primary = some t ∨ s.fallback = some t) ∧ l < t.entryCount ∧ s.InRange t l i

/-- Chunk `k` of the image is chunk `l` of segment `j`, and `s` are the tables of that segment. -/
def PlacedAt (segments : List (List UInt8)) (k j l : ℕ) (s : SegmentTables) : Prop :=
  locateChunk ((segments.map SegmentTables.ofBytes).map (·.entryCount)) k = some (j, l) ∧
    (segments.map SegmentTables.ofBytes)[j]? = some s

/-- Byte `i` of segment `j` lies in a range that the tables give for chunk `k`. -/
def GivenByte (segments : List (List UInt8)) (k j i : ℕ) : Prop :=
  ∃ l s, PlacedAt segments k j l s ∧ s.Given l i

/-- An edit of the data of chunk `k`: each changed byte lies in a range that the tables give for
that chunk, in none that they give for another one, and outside the structure of its segment. -/
structure ChunkEdit (segments segments' : List (List UInt8)) (k : ℕ) : Prop where
  count : segments'.length = segments.length
  length : ∀ (j : ℕ) data data', segments[j]? = some data → segments'[j]? = some data' →
    data'.length = data.length
  within : ∀ (j : ℕ) data data', segments[j]? = some data → segments'[j]? = some data' →
    ∀ i : ℕ, data'[i]? ≠ data[i]? →
      GivenByte segments k j i ∧ ¬ Structural data i ∧ ∀ k' ≠ k, ¬ GivenByte segments k' j i

/-- Byte `i` is read for chunk `l` through an entry behind the end of `table2`: it belongs to
what is taken for the entry, or to the range that it gives. -/
def SegmentTables.Overread (s : SegmentTables) (l i : ℕ) : Prop :=
  ∃ t, s.fallback = some t ∧ t.entryCount ≤ l ∧
    (t.entriesFileOffset + 4 * l ≤ i ∧ i < t.entriesFileOffset + 4 * l + 4 ∨ s.InRange t l i)

/-- Byte `i` of segment `j` is read through an entry that `table2` does not have, for a chunk
other than `k` that the recovery writes and that its primary table does not give in full. -/
def OverreadByte (C : Crates) (segments : List (List UInt8)) (geom : Geometry) (k j i : ℕ) :
    Prop :=
  ∃ k' l s, k' ≠ k ∧ k' < geom.chunkCount ∧ k' * geom.chunkSize < geom.imageSize ∧
    PlacedAt segments k' j l s ∧
    (∀ bytes, s.decodeFrom C s.primary geom.chunkSize l ≠ some (bytes, true)) ∧ s.Overread l i

/-- No edited byte is read for a chunk other than `k` through an entry that `table2` does not
have. -/
def KeepsOverread (C : Crates) (segments segments' : List (List UInt8)) (geom : Geometry)
    (k : ℕ) : Prop :=
  ∀ (j : ℕ) data data', segments[j]? = some data → segments'[j]? = some data' →
    ∀ i : ℕ, data'[i]? ≠ data[i]? → ¬ OverreadByte C segments geom k j i

/-! ### The two runs at one chunk -/

section Edit

variable {C : Crates} {segments segments' : List (List UInt8)} {geom : Geometry} {k : ℕ}

theorem ChunkEdit.agreeOn (h : ChunkEdit segments segments' k) {j : ℕ} {data data' : List UInt8}
    (hd : segments[j]? = some data) (hd' : segments'[j]? = some data') :
    AgreeOn (Structural data) data data' := by
  refine ⟨(h.length j data data' hd hd').symm, fun i hi => ?_⟩
  by_contra hne
  exact (h.within j data data' hd hd' i (Ne.symm hne)).2.1 hi

/-- The recovery of the copy starts with the same geometry. -/
theorem ChunkEdit.bootstrap_eq (h : ChunkEdit segments segments' k)
    (hb : bootstrap segments = .ok geom) : bootstrap segments' = .ok geom := by
  cases hsegs : segments with
  | nil =>
      have hnil : segments' = [] := List.eq_nil_of_length_eq_zero (by rw [h.count, hsegs]; rfl)
      rw [hnil, ← hsegs]
      exact hb
  | cons data rest =>
      have hd : segments[0]? = some data := by rw [hsegs]; rfl
      obtain ⟨data', hd'⟩ := exists_getElem?_of_length_eq h.count hd
      have hagree := h.agreeOn hd hd'
      have hhead : segments.headD [] = data := by rw [hsegs]; rfl
      have hhead' : segments'.headD [] = data' := by
        rw [List.headD_eq_head?_getD, List.head?_eq_getElem?, hd']
        rfl
      have hsig : data'.take 8 = data.take 8 := by
        have := @AgreeOn.window_eq _ _ _ _ hagree 0 8 fun i _ hi =>
          Or.inl (by simp only [fileHeaderSize]; omega)
        simpa using this.symm
      rw [bootstrap] at hb ⊢
      simp only [hhead] at hb
      simp only [hhead', hsig, readGeometry_congr hagree, ← hagree.1]
      split_ifs at hb ⊢ with hshort
      exact hb

/-- A chunk is placed at an entry that its segment counts. -/
theorem PlacedAt.lt_entryCount {j l : ℕ} {s : SegmentTables} (h : PlacedAt segments k j l s) :
    l < s.entryCount := by
  obtain ⟨n, hn, hl⟩ := locateChunk_mem_places h.1
  rw [List.getElem?_map, h.2] at hn
  obtain rfl := Option.some.inj hn
  exact hl

/-- Each segment of the copy counts as many chunks as that of the original. -/
theorem ChunkEdit.entryCounts_eq (h : ChunkEdit segments segments' k) :
    (segments'.map SegmentTables.ofBytes).map (·.entryCount) =
      (segments.map SegmentTables.ofBytes).map (·.entryCount) := by
  rw [List.map_map, List.map_map]
  refine map_eq_map_of_getElem? h.count fun j data data' hd hd' => ?_
  rw [Function.comp_apply, Function.comp_apply, ofBytes_congr (h.agreeOn hd hd')]
  rfl

/-- A table decodes a chunk of the copy as that of the original, if the entries of the chunk and
the bytes of its range are the same. -/
theorem SegmentTables.decodeFrom_congr (s : SegmentTables) {data' : List UInt8}
    (hlen : data'.length = s.data.length) {t : TableRef} {l : ℕ}
    (hentry : t.entryAt data' l = t.entryAt s.data l)
    (hnext : satAdd l 1 < t.entryCount →
      t.entryAt data' (satAdd l 1) = t.entryAt s.data (satAdd l 1))
    (hraw : ∀ i, s.InRange t l i → data'[i]? = s.data[i]?) (chunkSize : ℕ) :
    { s with data := data' }.decodeFrom C (some t) chunkSize l =
      s.decodeFrom C (some t) chunkSize l := by
  have hrange : chunkRange data' t l s.sectorsEnd = chunkRange s.data t l s.sectorsEnd := by
    rw [chunkRange, chunkRange, hentry, hlen]
    by_cases hl : satAdd l 1 < t.entryCount
    · rw [hnext hl]
    · simp only [if_neg hl]
  rw [SegmentTables.decodeFrom, SegmentTables.decodeFrom, Option.bind_some, Option.bind_some,
    hrange]
  cases hc : chunkRange s.data t l s.sectorsEnd with
  | none => rfl
  | some c =>
      have hagree : AgreeOn (fun i => c.start ≤ i ∧ i < c.stop) s.data data' :=
        ⟨hlen.symm, fun i hi => (hraw i ⟨c, hc, hi⟩).symm⟩
      have hbytes : c.raw data' = c.raw s.data :=
        (hagree.window_eq fun i h1 h2 => ⟨h1, by omega⟩).symm
      rw [Option.bind_some, Option.bind_some, hbytes]

/-- Behind the end of `table2` a chunk is decoded from the bytes that are read there. -/
theorem SegmentTables.decodeFrom_of_overread {data data' : List UInt8} {l : ℕ} {t : TableRef}
    (hlen : data'.length = data.length) (ht : (SegmentTables.ofBytes data).fallback = some t)
    (hl : t.entryCount ≤ l)
    (hover : ∀ i, (SegmentTables.ofBytes data).Overread l i → data'[i]? = data[i]?)
    (chunkSize : ℕ) :
    { SegmentTables.ofBytes data with data := data' }.decodeFrom C (some t) chunkSize l =
      (SegmentTables.ofBytes data).decodeFrom C (some t) chunkSize l := by
  have hagree : AgreeOn (fun i => (SegmentTables.ofBytes data).Overread l i) data data' :=
    ⟨hlen.symm, fun i hi => (hover i hi).symm⟩
  refine SegmentTables.decodeFrom_congr _ hlen ?_ (fun hnext => ?_)
    (fun i hi => hover i ⟨t, ht, hl, Or.inr hi⟩) chunkSize
  · exact t.entryAt_congr hagree fun i _ h1 h2 => ⟨t, ht, hl, Or.inl ⟨h1, h2⟩⟩
  · -- There is no next entry: an entry count is a 32-bit number.
    obtain ⟨s, -, -, hcount, -⟩ := tableRef_eq_some ht
    have hlt := leU32_lt data (s.offset + 76)
    simp only [satAdd] at hnext
    rw [u64Max] at hnext
    omega

/-- **Lockstep in a segment.** The copy's tables decode a chunk as those of the original, if the
bytes that they give for it are the same, and those read behind the end of `table2` are when
the primary table does not give the chunk in full. -/
theorem SegmentTables.decode_congr {data data' : List UInt8} {l : ℕ} {chunkSize : ℕ}
    (hagree : AgreeOn (Structural data) data data')
    (hl : l < (SegmentTables.ofBytes data).entryCount)
    (hgiven : ∀ i, (SegmentTables.ofBytes data).Given l i → data'[i]? = data[i]?)
    (hover : (∀ bytes, (SegmentTables.ofBytes data).decodeFrom C
        (SegmentTables.ofBytes data).primary chunkSize l ≠ some (bytes, true)) →
      ∀ i, (SegmentTables.ofBytes data).Overread l i → data'[i]? = data[i]?) :
    (SegmentTables.ofBytes data').decode C chunkSize l =
      (SegmentTables.ofBytes data).decode C chunkSize l := by
  -- Through an entry that a table has, both decode the same bytes.
  have htable : ∀ t name, name ∈ [SectionType.table, .table2] →
      tableRef data (walkSections data) name = some t →
      ((SegmentTables.ofBytes data).primary = some t ∨
        (SegmentTables.ofBytes data).fallback = some t) → l < t.entryCount →
      { SegmentTables.ofBytes data with data := data' }.decodeFrom C (some t) chunkSize l =
        (SegmentTables.ofBytes data).decodeFrom C (some t) chunkSize l := by
    intro t name hname ht hof hlt
    exact SegmentTables.decodeFrom_congr _ hagree.1.symm (entryAt_eq_of_lt hagree hname ht hlt)
      (entryAt_eq_of_lt hagree hname ht) (fun i hi => hgiven i ⟨t, hof, hlt, hi⟩) chunkSize
  have hprimary : { SegmentTables.ofBytes data with data := data' }.decodeFrom C
      (SegmentTables.ofBytes data).primary chunkSize l =
      (SegmentTables.ofBytes data).decodeFrom C (SegmentTables.ofBytes data).primary
        chunkSize l := by
    cases hp : (SegmentTables.ofBytes data).primary with
    | none => rfl
    | some t =>
        refine htable t .table (by decide) hp (Or.inl hp) ?_
        rw [SegmentTables.entryCount, hp] at hl
        exact hl
  rw [ofBytes_congr hagree, SegmentTables.decode, SegmentTables.decode]
  simp only
  rw [hprimary]
  by_cases hgood : ∃ bytes, (SegmentTables.ofBytes data).decodeFrom C
      (SegmentTables.ofBytes data).primary chunkSize l = some (bytes, true)
  · obtain ⟨bytes, hbytes⟩ := hgood
    rw [hbytes, chooseDecoded, chooseDecoded]
  · -- What the primary table does not give in full may come from `table2`.
    have hover := hover (not_exists.mp hgood)
    congr 1
    cases hf : (SegmentTables.ofBytes data).fallback with
    | none => rfl
    | some t =>
        by_cases hlt : l < t.entryCount
        · exact htable t .table2 (by decide) hf (Or.inr hf) hlt
        · exact SegmentTables.decodeFrom_of_overread hagree.1.symm hf (not_lt.mp hlt) hover
            chunkSize

/-- **Lockstep.** The two recoveries decode a chunk that is not edited alike, unless they read
an edited byte for it behind the end of a `table2`. -/
theorem ChunkEdit.decodeGlobal_eq (h : ChunkEdit segments segments' k) {idx : ℕ} (hk : idx ≠ k)
    (hcount : idx < geom.chunkCount) (hsize : idx * geom.chunkSize < geom.imageSize)
    (hover : KeepsOverread C segments segments' geom k) :
    decodeGlobal C (segments'.map SegmentTables.ofBytes) geom.chunkSize idx =
      decodeGlobal C (segments.map SegmentTables.ofBytes) geom.chunkSize idx := by
  rw [decodeGlobal, decodeGlobal, h.entryCounts_eq]
  cases hloc : locateChunk ((segments.map SegmentTables.ofBytes).map (·.entryCount)) idx with
  | none => rfl
  | some p =>
      obtain ⟨j, l⟩ := p
      simp only [List.getElem?_map]
      cases hd : segments[j]? with
      | none =>
          have hd' : segments'[j]? = none := by
            rw [List.getElem?_eq_none_iff] at hd ⊢
            rwa [h.count]
          rw [hd']
      | some data =>
          obtain ⟨data', hd'⟩ := exists_getElem?_of_length_eq h.count hd
          have hplaced : PlacedAt segments idx j l (SegmentTables.ofBytes data) :=
            ⟨hloc, by rw [List.getElem?_map, hd]; rfl⟩
          rw [hd']
          refine SegmentTables.decode_congr (h.agreeOn hd hd') hplaced.lt_entryCount
            (fun i hi => ?_) fun hbad i hi => ?_
          · by_contra hne
            exact (h.within j data data' hd hd' i hne).2.2 idx hk ⟨l, _, hplaced, hi⟩
          · by_contra hne
            exact hover j data data' hd hd' i hne ⟨idx, l, _, hk, hcount, hsize, hplaced, hbad, hi⟩

/-- The outcomes of the chunks that the image size asks for are the same but for one. -/
theorem ChunkEdit.outcomeAt_eq (h : ChunkEdit segments segments' k) (hcs : 0 < geom.chunkSize)
    (hover : KeepsOverread C segments segments' geom k) {i : ℕ} (hi : i < geom.chunksNeeded)
    (hk : i ≠ k) :
    outcomeAt C (segments'.map SegmentTables.ofBytes) geom i =
      outcomeAt C (segments.map SegmentTables.ofBytes) geom i := by
  rw [outcomeAt, outcomeAt]
  split_ifs with hcount
  · rw [h.decodeGlobal_eq hk hcount ((Geometry.lt_chunksNeeded hcs).mp hi) hover]
  · rfl

end Edit

/-! ### The two runs -/

/-- What a second recovery may change when chunk `k` was edited: the bytes of that chunk's place
in the output, and whether the report condemns it. -/
structure LocalTo (k : ℕ) (report report' : RecoveryReport) (out out' : List UInt8) : Prop where
  length : out'.length = out.length
  elsewhere : ∀ p, p / report.chunkSize ≠ k → out'[p]? = out[p]?
  lost : report'.lostChunks.filter (· ≠ k) = report.lostChunks.filter (· ≠ k)
  flagged : report'.crcFlaggedChunks.filter (· ≠ k) = report.crcFlaggedChunks.filter (· ≠ k)

/-- **The recovery is local.** A recovery succeeds again after an edit of the data of one chunk,
and differs only in what it makes of that chunk, if no edited byte is read for another chunk
through an entry behind the end of a `table2`. -/
theorem recovery_local (C : Crates) (segments segments' : List (List UInt8)) (k : ℕ)
    (report : RecoveryReport) (out : List UInt8) (geom : Geometry)
    (hrec : recoverToFile C segments = some (report, out)) (hgeom : bootstrap segments = .ok geom)
    (hedit : ChunkEdit segments segments' k)
    (hover : KeepsOverread C segments segments' geom k) :
    ∃ report' out', recoverToFile C segments' = some (report', out') ∧
      LocalTo k report report' out out' := by
  obtain ⟨geom', hgeom', rfl, hmax, rfl⟩ := recoverToFile_ok hrec
  obtain rfl : geom' = geom := by simpa [hgeom] using hgeom'.symm
  obtain ⟨hcs, -, -⟩ := bootstrap_ok hgeom
  rw [length_pieces hcs] at hmax
  have hrec' := recoverToFile_of_bootstrap C (hedit.bootstrap_eq hgeom)
  rw [if_neg (not_lt.mpr hmax)] at hrec'
  -- Whatever the report lists the chunks for, the two lists differ in `k` at most.
  have hlists : ∀ p : RecoveredChunk → Bool,
      (((recoverRun C segments' geom').filter p).map (·.idx)).filter (· ≠ k) =
        (((recoverRun C segments geom').filter p).map (·.idx)).filter (· ≠ k) := by
    intro p
    rw [recoverRun_eq_map C segments' hcs, recoverRun_eq_map C segments hcs,
      filter_map_outcomeAt, filter_map_outcomeAt, List.filter_filter, List.filter_filter]
    refine List.filter_congr fun i hi => ?_
    rw [List.mem_range'_1] at hi
    by_cases hik : i = k
    · simp [hik]
    · rw [hedit.outcomeAt_eq hcs hover (by omega) hik]
  refine ⟨_, _, hrec', ?_, fun p hp => ?_, hlists _, hlists _⟩
  · rw [length_pieces hcs, length_pieces hcs]
  · rw [(blocks_pieces hcs).getElem?_flatten hcs, (blocks_pieces hcs).getElem?_flatten hcs]
    by_cases hi : p / geom'.chunkSize < geom'.chunksNeeded
    · rw [getElem?_pieces hi, getElem?_pieces hi, hedit.outcomeAt_eq hcs hover hi hp]
    · rw [List.getElem?_eq_none, List.getElem?_eq_none] <;>
        · rw [pieces, List.length_map, List.length_range']
          omega

/-! ### A `table2` without the entry -/

/-- The front of an image of two chunks of eight bytes. Its table puts the first at offset 391,
up to the end of the file, and the second behind that; its `table2` has no entry at all, and
ends at offset 391. -/
def overreadFront : List UInt8 :=
  Image.fileHeaderBytes 1 ++
    Image.encodeSections 13 [⟨.volume, Image.volumeFront 1 2 1 8 2 ++ List.replicate 70 0⟩,
      ⟨.table, Image.tableBytes 0 true [391, 399] []⟩] ++
    Image.descriptorBytes .table2 0 100 ++ Image.tableBytes 0 true [] []

/-- The image with some bytes for the first chunk. -/
def overreadImage (chunk : List UInt8) : List UInt8 := overreadFront ++ chunk

/-- A chunk whose second half, taken for an entry, points behind the file. -/
def plainChunk : List UInt8 := [1, 2, 3, 4, 255, 255, 255, 255]

/-- A chunk whose second half, taken for an entry, points at the chunk itself. -/
def entryChunk : List UInt8 := [1, 2, 3, 4, 135, 1, 0, 0]

theorem length_overreadFront : overreadFront.length = 391 := by decide +kernel

theorem ofBytes_overreadImage :
    SegmentTables.ofBytes (overreadImage plainChunk) =
      ⟨overreadImage plainChunk, some ⟨2, 0, 283⟩, some ⟨0, 0, 391⟩, none⟩ := by
  have hprimary : tableRef (overreadImage plainChunk) (walkSections (overreadImage plainChunk))
      .table = some ⟨2, 0, 283⟩ := by decide +kernel
  have hfallback : tableRef (overreadImage plainChunk) (walkSections (overreadImage plainChunk))
      .table2 = some ⟨0, 0, 391⟩ := by decide +kernel
  have hend : sectorsDataEnd (walkSections (overreadImage plainChunk))
      (overreadImage plainChunk).length = none := by decide +kernel
  rw [SegmentTables.ofBytes, hprimary, hfallback, hend]

/-- The first table gives one range, and the second none behind its end. -/
theorem chunkRange_overreadImage :
    chunkRange (overreadImage plainChunk) ⟨2, 0, 283⟩ 0 none = some ⟨391, 399, false⟩ ∧
      chunkRange (overreadImage plainChunk) ⟨2, 0, 283⟩ 1 none = none ∧
      chunkRange (overreadImage plainChunk) ⟨0, 0, 391⟩ 1 none = none := by
  decide +kernel

/-- A chunk of the image is at its own place in the only segment. -/
theorem placedAt_overreadImage {k j l : ℕ} {s : SegmentTables} :
    PlacedAt [overreadImage plainChunk] k j l s ↔
      j = 0 ∧ l = k ∧ k < 2 ∧ s = SegmentTables.ofBytes (overreadImage plainChunk) := by
  have hcount : (SegmentTables.ofBytes (overreadImage plainChunk)).entryCount = 2 := by
    rw [ofBytes_overreadImage]
    rfl
  rw [PlacedAt, List.map_singleton, List.map_singleton, hcount, locateChunk, locateFrom, locateFrom]
  constructor
  · rintro ⟨hloc, hs⟩
    split_ifs at hloc with hlt
    obtain ⟨rfl, rfl⟩ := Prod.mk.inj (Option.some.inj hloc)
    rw [List.getElem?_cons_zero] at hs
    simp only [satAdd] at hlt
    exact ⟨rfl, rfl, by omega, (Option.some.inj hs).symm⟩
  · rintro ⟨rfl, rfl, hlt, rfl⟩
    rw [satAdd_eq (by decide), if_pos hlt, List.getElem?_cons_zero]
    exact ⟨rfl, rfl⟩

/-- Any other eight bytes are an edit of the first chunk. -/
theorem chunkEdit_overreadImage {chunk : List UInt8} (h : chunk.length = 8) :
    ChunkEdit [overreadImage plainChunk] [overreadImage chunk] 0 := by
  have hlen : (overreadImage chunk).length = 399 := by
    rw [overreadImage, List.length_append, length_overreadFront, h]
  have hlen' : (overreadImage plainChunk).length = 399 := by
    rw [overreadImage, List.length_append, length_overreadFront]
    rfl
  obtain ⟨hfirst, hsecond, -⟩ := chunkRange_overreadImage
  constructor
  · rw [List.length_singleton, List.length_singleton]
  · intro j data data' hd hd'
    obtain rfl := List.mem_singleton.mp (List.mem_of_getElem? hd)
    obtain rfl := List.mem_singleton.mp (List.mem_of_getElem? hd')
    rw [hlen, hlen']
  · intro j data data' hd hd' i hi
    obtain rfl := List.mem_singleton.mp (List.mem_of_getElem? hd)
    obtain rfl := List.mem_singleton.mp (List.mem_of_getElem? hd')
    obtain rfl : j = 0 := Nat.lt_one_iff.mp (List.getElem?_eq_some_iff.mp hd).1
    -- The two images differ behind their common front.
    have hlow : 391 ≤ i := by
      by_contra hlt
      rw [overreadImage, overreadImage, List.getElem?_append_left
        (by rw [length_overreadFront]; omega),
        List.getElem?_append_left (by rw [length_overreadFront]; omega)] at hi
      exact hi rfl
    have hhigh : i < 399 := by
      by_contra hge
      rw [List.getElem?_eq_none (by omega), List.getElem?_eq_none (by omega)] at hi
      exact hi rfl
    refine ⟨⟨0, _, placedAt_overreadImage.mpr ⟨rfl, rfl, by decide, rfl⟩, ?_⟩, ?_, ?_⟩
    · rw [ofBytes_overreadImage]
      exact ⟨_, Or.inl rfl, by decide, _, hfirst, hlow, hhigh⟩
    · have hout : ∀ m < 8, ¬ Structural (overreadImage plainChunk) (391 + m) := by decide +kernel
      have := hout (i - 391) (by omega)
      rwa [Nat.add_sub_cancel' hlow] at this
    · rintro k' hk' ⟨l, s, hplaced, t, hof, hlt, c, hc, -⟩
      obtain ⟨-, rfl, hk2, rfl⟩ := placedAt_overreadImage.mp hplaced
      obtain rfl : l = 1 := by omega
      rw [ofBytes_overreadImage] at hof hc
      rcases hof with hof | hof
      · obtain rfl := Option.some.inj hof
        rw [hsecond] at hc
        cases hc
      · obtain rfl := Option.some.inj hof
        cases hlt

/-- **The recovery is not local everywhere.** The edit of the first chunk's data, which only the
entry of that chunk gives, makes the second chunk appear. -/
theorem overreadImage_not_local :
    ∃ report out report' out',
      recoverToFile Crates.reference [overreadImage plainChunk] = some (report, out) ∧
      ChunkEdit [overreadImage plainChunk] [overreadImage entryChunk] 0 ∧
      recoverToFile Crates.reference [overreadImage entryChunk] = some (report', out') ∧
      ¬ LocalTo 0 report report' out out' := by
  have h : (recoverToFile Crates.reference [overreadImage plainChunk]).map
      (·.1.lostChunks) = some [1] := by decide +kernel
  have h' : (recoverToFile Crates.reference [overreadImage entryChunk]).map
      (·.1.lostChunks) = some [] := by decide +kernel
  obtain ⟨⟨report, out⟩, hrec, hlost⟩ := Option.map_eq_some_iff.mp h
  obtain ⟨⟨report', out'⟩, hrec', hlost'⟩ := Option.map_eq_some_iff.mp h'
  refine ⟨report, out, report', out', hrec, chunkEdit_overreadImage rfl, hrec', fun hlocal => ?_⟩
  have := hlocal.lost
  rw [hlost, hlost'] at this
  cases this

/-- An edit of the first half of the chunk is harmless: it is not taken for an entry. -/
theorem recovery_local_overreadImage :
    ∃ report out report' out',
      recoverToFile Crates.reference [overreadImage plainChunk] = some (report, out) ∧
      recoverToFile Crates.reference [overreadImage [9, 2, 3, 4, 255, 255, 255, 255]] =
        some (report', out') ∧
      LocalTo 0 report report' out out' := by
  have hsome : (recoverToFile Crates.reference [overreadImage plainChunk]).isSome = true := by
    decide +kernel
  obtain ⟨⟨report, out⟩, hrec⟩ := Option.isSome_iff_exists.mp hsome
  obtain ⟨geom, hgeom, -⟩ := recoverToFile_ok hrec
  have hkeep : KeepsOverread Crates.reference [overreadImage plainChunk]
      [overreadImage [9, 2, 3, 4, 255, 255, 255, 255]] geom 0 := by
    rintro j data data' hd hd' i hi ⟨k', l, s, hk', -, -, hplaced, -, t, hof, -, hread⟩
    obtain rfl := List.mem_singleton.mp (List.mem_of_getElem? hd)
    obtain rfl := List.mem_singleton.mp (List.mem_of_getElem? hd')
    obtain ⟨-, rfl, hk2, rfl⟩ := placedAt_overreadImage.mp hplaced
    obtain rfl : l = 1 := by omega
    rw [ofBytes_overreadImage] at hof hread
    obtain rfl := Option.some.inj hof
    rcases hread with ⟨h1, h2⟩ | ⟨c, hc, -⟩
    · -- The two images agree from offset 392 on.
      simp only at h1 h2
      refine hi ?_
      have hfront : overreadFront.length ≤ i := by
        rw [length_overreadFront]
        omega
      obtain ⟨m, hm⟩ : ∃ m, i - 391 = m + 1 := ⟨i - 392, by omega⟩
      rw [overreadImage, overreadImage, List.getElem?_append_right hfront,
        List.getElem?_append_right hfront, length_overreadFront, hm, plainChunk,
        List.getElem?_cons_succ, List.getElem?_cons_succ]
    · rw [chunkRange_overreadImage.2.2] at hc
      cases hc
  obtain ⟨report', out', hrec', hlocal⟩ := recovery_local Crates.reference _ _ 0 report out geom
    hrec hgeom (chunkEdit_overreadImage rfl) hkeep
  exact ⟨report, out, report', out', hrec, hrec', hlocal⟩

end EwfForensic.Recover

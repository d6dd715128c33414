import EwfForensic.Core.FirstChunk

/-!
# The Geometry of an Opened Image

The chunk size, the media size and the size that the chunks of a reader can address are products
of numbers that the image declares. The code multiplies them as 64-bit numbers: it clamps some
products, and lets others wrap.

* `SoundGeometry` — a reader's sizes are the exact ones, the chunk size is within its limit, and
  no product that an open or `verify` takes overflows.
* `Ewf2Geometry.deciding` — of the `device_info` sections of a v2 image, those that an open goes
  by.
* `geometry_sound_iff` — for both formats, exactly when the declared numbers are small enough.
-/

namespace EwfForensic

open Octets

/-! ### Sound geometry -/

/-- The sizes of a reader are `sizes`, exact ones, and no product of `products` overflows 64
bits. -/
structure SoundGeometry (r : EwfReader) (sizes : ℕ × ℕ) (products : List (ℕ × ℕ)) : Prop where
  chunkSize_pos : 0 < r.chunkSize
  chunkSize_le : r.chunkSize ≤ maxChunkSize
  chunkSize_eq : r.chunkSize = sizes.1
  totalSize_eq : r.totalSize = sizes.2
  addressable_eq : wrappingMul r.chunkSize r.chunks.len = r.chunkSize * r.chunks.len
  products_le : ∀ p ∈ products, p.1 * p.2 ≤ u64Max

/-- The media size: what is declared, or for want of that what the chunks come to. -/
def exactMediaSize (declared chunks chunkSize : ℕ) : ℕ :=
  if declared = 0 then chunks * chunkSize else declared

/-! ### EWF v1 -/

section V1

/-- The media size that a volume stands for, without clamping. -/
def EwfVolume.exactSize (v : EwfVolume) : ℕ :=
  exactMediaSize (v.bytesPerSector * v.sectorCount) v.chunkCount v.chunkSize

/-- The chunk size and media size of a v1 image, exact. -/
def DeclaredMedia.exactSizes (m : DeclaredMedia) (kind : EwfKind) : ℕ × ℕ :=
  (m.chunkSize,
    match kind with
    | .logical => m.chunkCount * m.chunkSize
    | .physical => exactMediaSize ((m.volumes.getLast?.map (·.exactSize)).getD 0) m.chunkCount
        m.chunkSize)

/-- The products that an open and `verify` of a v1 image take. -/
def DeclaredMedia.products (m : DeclaredMedia) : List (ℕ × ℕ) :=
  (m.volumes.flatMap fun v => [(v.sectorsPerChunk, v.bytesPerSector),
    (v.bytesPerSector, v.sectorCount), (v.chunkSize, v.chunkCount)]) ++
    [(m.chunkCount, m.chunkSize)]

/-- The declared numbers of a v1 image are small enough. -/
structure DeclaredMedia.Fits (m : DeclaredMedia) : Prop where
  volume : ∀ v ∈ m.volumes, v.bytesPerSector * v.sectorCount ≤ u64Max
  table : m.chunkCount * m.chunkSize ≤ u64Max

instance (m : DeclaredMedia) : Decidable m.Fits :=
  decidable_of_iff ((∀ v ∈ m.volumes, v.bytesPerSector * v.sectorCount ≤ u64Max) ∧
    m.chunkCount * m.chunkSize ≤ u64Max) ⟨fun h => ⟨h.1, h.2⟩, fun h => ⟨h.volume, h.table⟩⟩

variable {C : Crates} {sources : List Segment} {cacheSize : ℕ} {lazySectionCache : Option ℕ}
  {r : EwfReader}

/-- **What a v1 open makes of the declared numbers.** -/
theorem openV1_declares (h : openV1 C sources cacheSize lazySectionCache = .ok r) :
    ∃ st, Declares lazySectionCache.isSome (declaredMedia lazySectionCache.isSome r.segments) st ∧
      0 < r.chunkSize ∧ r.chunkSize = st.chunkSize ∧
      r.chunks.len = st.chunkCount lazySectionCache.isSome ∧
      r.totalSize = mediaSizeFor (firstKind sources) st.totalSize r.chunks.len r.chunkSize := by
  have hpos := chunkSize_pos_of_open h
  obtain ⟨-, headers, ordered, st, hheaders, -, hst, hr⟩ := openV1_eq_ok_iff.mp h
  obtain ⟨-, rfl⟩ := parseHeaders_eq_ok_iff.mp hheaders
  unfold finishOpen at hr
  split_ifs at hr
  obtain rfl := Except.ok.inj hr
  refine ⟨st, declares_of_foldlM hst, hpos, rfl, ?_, ?_⟩
  · cases lazySectionCache <;> rfl
  · exact (congrArg (fun kind => mediaSizeFor kind st.totalSize _ _)
      (firstKind_eq sources)).symm

/-- A volume whose media size does not overflow stands for its exact size. -/
theorem EwfVolume.mediaSize_eq {v : EwfVolume} (h : v.bytesPerSector * v.sectorCount ≤ u64Max) :
    v.mediaSize = v.exactSize := by
  rw [EwfVolume.mediaSize, EwfVolume.exactSize, exactMediaSize, EwfVolume.totalSize, satMul_eq h,
    Nat.mul_comm v.chunkSize]

theorem DeclaredMedia.Fits.size_eq {m : DeclaredMedia} (h : m.Fits) :
    m.size = (m.volumes.getLast?.map (·.exactSize)).getD 0 := by
  rw [DeclaredMedia.size]
  cases hlast : m.volumes.getLast? with
  | none => rfl
  | some v =>
      rw [Option.map_some, Option.map_some, EwfVolume.mediaSize_eq
        (h.volume v (List.mem_of_getLast? hlast))]

/-- The chunk size of volumes that are read is within its limit. -/
theorem Declares.chunkSize_le {isLazy : Bool} {m : DeclaredMedia} {st : OpenState}
    (h : Declares isLazy m st) : m.chunkSize ≤ maxChunkSize := by
  rw [DeclaredMedia.chunkSize]
  cases hlast : m.volumes.getLast? with
  | none => exact Nat.zero_le _
  | some v => exact (h.volumes_le v (List.mem_of_getLast? hlast)).1

/-- Two of the products of a volume that is read fit 64 bits anyway. -/
theorem Declares.products_le {isLazy : Bool} {m : DeclaredMedia} {st : OpenState}
    (h : Declares isLazy m st) (hfits : m.Fits) : ∀ p ∈ m.products, p.1 * p.2 ≤ u64Max := by
  intro p hp
  rcases List.mem_append.mp hp with hp | hp
  · obtain ⟨v, hv, hp⟩ := List.mem_flatMap.mp hp
    obtain ⟨hmax, hcount⟩ := h.volumes_le v hv
    simp only [List.mem_cons, List.not_mem_nil, or_false] at hp
    rcases hp with rfl | rfl | rfl
    · exact le_trans hmax (by decide)
    · exact hfits.volume v hv
    · calc v.chunkSize * v.chunkCount
          ≤ maxChunkSize * 256 ^ 4 := Nat.mul_le_mul hmax hcount.le
        _ ≤ u64Max := by decide
  · obtain rfl := List.mem_singleton.mp hp
    exact hfits.table

/-- **Sound geometry of a v1 image.** -/
theorem sound_v1_iff (h : openV1 C sources cacheSize lazySectionCache = .ok r) {m : DeclaredMedia}
    (hm : m = declaredMedia lazySectionCache.isSome r.segments) :
    SoundGeometry r (m.exactSizes (firstKind sources)) m.products ↔ m.Fits := by
  obtain ⟨st, hdecl, hpos, hchunk, hlen, htotal⟩ := openV1_declares h
  rw [← hm] at hdecl
  rw [hdecl.chunkSize] at hchunk
  rw [hdecl.chunkCount] at hlen
  rw [hdecl.totalSize, hlen, hchunk] at htotal
  constructor
  · intro hsound
    refine ⟨fun v hv => ?_, ?_⟩
    · refine hsound.products_le (v.bytesPerSector, v.sectorCount) (List.mem_append_left _ ?_)
      exact List.mem_flatMap.mpr ⟨v, hv, by simp⟩
    · exact hsound.products_le (m.chunkCount, m.chunkSize)
        (List.mem_append_right _ (List.mem_singleton_self _))
  · intro hfits
    refine ⟨hpos, hchunk ▸ hdecl.chunkSize_le, hchunk, ?_, ?_, hdecl.products_le hfits⟩
    · rw [htotal, hfits.size_eq]
      cases firstKind sources with
      | logical => exact satMul_eq hfits.table
      | physical =>
          rw [mediaSizeFor, satMul_eq hfits.table]
          rfl
    · rw [wrappingMul_eq_iff, hlen, hchunk, Nat.mul_comm]
      exact hfits.table

end V1

/-! ### EWF v2 -/

section V2

/-- The sizes after a `device_info` section with the geometry `g`. -/
def Ewf2Geometry.apply (sizes : ℕ × ℕ) (g : Ewf2Geometry) : ℕ × ℕ :=
  (if wrappingMul g.bytesPerSector g.sectorsPerChunk > 0 then
      wrappingMul g.bytesPerSector g.sectorsPerChunk
    else sizes.1,
    if g.totalSectors > 0 ∧ g.bytesPerSector > 0 then wrappingMul g.bytesPerSector g.totalSectors
    else sizes.2)

/-- The same sizes, exact. -/
def Ewf2Geometry.applyExact (sizes : ℕ × ℕ) (g : Ewf2Geometry) : ℕ × ℕ :=
  (if g.bytesPerSector * g.sectorsPerChunk > 0 then g.bytesPerSector * g.sectorsPerChunk
    else sizes.1,
    if g.totalSectors > 0 ∧ g.bytesPerSector > 0 then g.bytesPerSector * g.totalSectors
    else sizes.2)

/-- A `device_info` section counts until one has set the chunk size. -/
def Ewf2Geometry.note (sizes : ℕ × ℕ) (g : Ewf2Geometry) : ℕ × ℕ :=
  if sizes.1 = 0 then g.apply sizes else sizes

/-- Those of a row of geometries that count: up to the first that sets the chunk size. -/
def Ewf2Geometry.deciding : List Ewf2Geometry → List Ewf2Geometry
  | [] => []
  | g :: rest =>
    if wrappingMul g.bytesPerSector g.sectorsPerChunk = 0 then g :: deciding rest else [g]

/-- The products that the parser takes. -/
def Ewf2Geometry.products (g : Ewf2Geometry) : List (ℕ × ℕ) :=
  (g.bytesPerSector, g.sectorsPerChunk) ::
    if g.totalSectors > 0 ∧ g.bytesPerSector > 0 then [(g.bytesPerSector, g.totalSectors)] else []

variable {C : Crates}

/-- The geometry that a section declares, if it is a `device_info` section that an open reads. -/
def ewf2GeometryAt (C : Crates) (data : List UInt8) (desc : Ewf2SectionDescriptor) :
    Option Ewf2Geometry :=
  if desc.sectionType = .deviceInfo ∧ 0 < desc.dataSize ∧ desc.dataSize < maxSectionDataSize then
    (ewf2SectionText C data "device_info" desc).toOption.bind ewf2Geometry
  else none

/-- What a v2 image declares: the geometries of its `device_info` sections in order, and the
number of entries in its tables. -/
structure Ewf2Media where
  geometries : List Ewf2Geometry
  chunkCount : ℕ

/-- What segments declare, given in order. -/
def ewf2Media (C : Crates) (segments : List Segment) : Ewf2Media where
  geometries := segments.flatMap fun s =>
    (ewf2Descriptors s.data).filterMap (ewf2GeometryAt C s.data)
  chunkCount := (segments.map fun s =>
    ((ewf2Tables s.data).map fun t => t.entries.length).sum).sum

/-- The chunk size and media size that the deciding geometries set, exact. -/
def Ewf2Media.declared (m : Ewf2Media) : ℕ × ℕ :=
  (Ewf2Geometry.deciding m.geometries).foldl Ewf2Geometry.applyExact (0, 0)

/-- The chunk size of a v2 image, exact. -/
def Ewf2Media.chunkSize (m : Ewf2Media) : ℕ :=
  if m.declared.1 = 0 then defaultV2ChunkSize else m.declared.1

/-- The chunk size and media size of a v2 image, exact. -/
def Ewf2Media.exactSizes (m : Ewf2Media) : ℕ × ℕ :=
  (m.chunkSize, exactMediaSize m.declared.2 m.chunkCount m.chunkSize)

/-- The products that an open and `verify` of a v2 image take. -/
def Ewf2Media.products (m : Ewf2Media) : List (ℕ × ℕ) :=
  (Ewf2Geometry.deciding m.geometries).flatMap Ewf2Geometry.products ++
    [(m.chunkCount, m.chunkSize)]

/-- The declared numbers of a v2 image are small enough. -/
structure Ewf2Media.Fits (m : Ewf2Media) : Prop where
  chunkSize_le : ∀ g ∈ Ewf2Geometry.deciding m.geometries,
    g.bytesPerSector * g.sectorsPerChunk ≤ maxChunkSize
  total_le : ∀ g ∈ Ewf2Geometry.deciding m.geometries,
    g.bytesPerSector * g.totalSectors ≤ u64Max
  table : m.chunkCount * m.chunkSize ≤ u64Max

instance (m : Ewf2Media) : Decidable m.Fits :=
  decidable_of_iff ((∀ g ∈ Ewf2Geometry.deciding m.geometries,
      g.bytesPerSector * g.sectorsPerChunk ≤ maxChunkSize) ∧
    (∀ g ∈ Ewf2Geometry.deciding m.geometries, g.bytesPerSector * g.totalSectors ≤ u64Max) ∧
    m.chunkCount * m.chunkSize ≤ u64Max)
    ⟨fun h => ⟨h.1, h.2.1, h.2.2⟩, fun h => ⟨h.chunkSize_le, h.total_le, h.table⟩⟩

/-! #### What an open has when it ends -/

/-- **One section** notes the geometry that it declares, if it declares one. -/
theorem geometry_step {segIdx : ℕ} {data : List UInt8} {st st' : OpenState}
    {desc : Ewf2SectionDescriptor} (h : handleDescriptorV2 C segIdx data st desc = .ok st') :
    (st'.chunkSize, st'.totalSize) =
      ([desc].filterMap (ewf2GeometryAt C data)).foldl Ewf2Geometry.note
        (st.chunkSize, st.totalSize) := by
  have hnone : desc.sectionType ≠ .deviceInfo → ewf2GeometryAt C data desc = none := fun ht =>
    if_neg fun hc => ht hc.1
  obtain ⟨-, ⟨ht, h⟩ | ⟨ht, h⟩ | ⟨-, ht, hsame⟩⟩ := handleDescriptorV2_cases h
  · obtain ⟨-, rfl⟩ := handleSectorTable_ok h
    rw [List.filterMap_cons, hnone (by simp [ht])]
    rfl
  · rw [handleDeviceInfo] at h
    rw [List.filterMap_cons, List.filterMap_nil, ewf2GeometryAt]
    split_ifs at h with hread
    · obtain ⟨hpos, hmax, hfirst⟩ := hread
      obtain ⟨raw, hraw, h⟩ := except_bind_eq_ok_iff.mp h
      obtain rfl := Except.ok.inj h
      have hgeom : (Except.ok raw : Except EwfError _).toOption.bind ewf2Geometry =
          ewf2Geometry raw := rfl
      rw [if_pos ⟨ht, hpos, hmax⟩, hraw, hgeom, parseEwf2DeviceInfo, hfirst]
      cases ewf2Geometry raw with
      | none => rfl
      | some g => rfl
    · obtain rfl := Except.ok.inj h
      split_ifs with hcounts
      · -- an earlier section has set the chunk size, so that no geometry counts any more
        have hset : st.chunkSize ≠ 0 := fun h0 => hread ⟨hcounts.2.1, hcounts.2.2, h0⟩
        cases (ewf2SectionText C data "device_info" desc).toOption.bind ewf2Geometry with
        | none => rfl
        | some g => exact (if_neg hset).symm
      · rfl
  · rw [List.filterMap_cons, hnone ht, hsame.chunkSize, hsame.totalSize]
    rfl

/-- **The sections of one segment** note their geometries in order. -/
theorem geometry_segment {st st' : OpenState} {q : Segment × ℕ}
    (h : openSegmentV2 C st q = .ok st') :
    (st'.chunkSize, st'.totalSize) =
      ((ewf2Descriptors q.1.data).filterMap (ewf2GeometryAt C q.1.data)).foldl Ewf2Geometry.note
        (st.chunkSize, st.totalSize) := by
  rw [openSegmentV2] at h
  obtain ⟨descs, hcollect, h⟩ := except_bind_eq_ok_iff.mp h
  have hdescs : ewf2Descriptors q.1.data = descs := by rw [ewf2Descriptors, hcollect]
  rw [hdescs]
  exact Fold.foldlM_prefix (fun ds (s : OpenState) => (s.chunkSize, s.totalSize) =
      (ds.filterMap (ewf2GeometryAt C q.1.data)).foldl Ewf2Geometry.note
        (st.chunkSize, st.totalSize)) h (p := []) rfl fun ds d s s' hs hd => by
    rw [geometry_step hd, hs, List.filterMap_append, List.foldl_append]

/-- **The sections of all segments** note their geometries in order. -/
theorem geometry_segments {segments : List Segment} {st : OpenState}
    (h : segments.zipIdx.foldlM (openSegmentV2 C) {} = .ok st) :
    (st.chunkSize, st.totalSize) =
      (ewf2Media C segments).geometries.foldl Ewf2Geometry.note (0, 0) := by
  have hrun := Fold.foldlM_prefix (fun qs (s : OpenState) => (s.chunkSize, s.totalSize) =
      ((qs.map Prod.fst).flatMap fun q : Segment =>
        (ewf2Descriptors q.data).filterMap (ewf2GeometryAt C q.data)).foldl Ewf2Geometry.note
          (0, 0)) h (p := []) rfl fun qs q s s' hs hq => by
    rw [geometry_segment hq, hs, List.map_append, List.flatMap_append, List.foldl_append,
      List.map_singleton, List.flatMap_singleton]
  rwa [List.nil_append, List.zipIdx_map_fst] at hrun

/-! #### The geometries that count -/

/-- Once the chunk size is set, no geometry counts. -/
theorem foldl_note_of_ne_zero {sizes : ℕ × ℕ} (h : sizes.1 ≠ 0) (gs : List Ewf2Geometry) :
    gs.foldl Ewf2Geometry.note sizes = sizes := by
  induction gs with
  | nil => rfl
  | cons g gs ih => rw [List.foldl_cons, Ewf2Geometry.note, if_neg h, ih]

/-- Noting geometries is applying those that count. -/
theorem foldl_note_eq (total : ℕ) (gs : List Ewf2Geometry) :
    gs.foldl Ewf2Geometry.note (0, total) =
      (Ewf2Geometry.deciding gs).foldl Ewf2Geometry.apply (0, total) := by
  induction gs generalizing total with
  | nil => rfl
  | cons g gs ih =>
      rw [List.foldl_cons, Ewf2Geometry.note, if_pos rfl, Ewf2Geometry.deciding]
      by_cases h0 : wrappingMul g.bytesPerSector g.sectorsPerChunk = 0
      · have hsizes : g.apply (0, total) = (0, (g.apply (0, total)).2) := by
          rw [Ewf2Geometry.apply, if_neg (by omega)]
        rw [if_pos h0, List.foldl_cons, hsizes, ih]
      · rw [if_neg h0, List.foldl_cons, List.foldl_nil]
        refine foldl_note_of_ne_zero ?_ gs
        rw [Ewf2Geometry.apply, if_pos (by omega)]
        exact h0

/-- Where the products of a geometry fit 64 bits, it sets exact sizes. -/
theorem Ewf2Geometry.apply_eq {g : Ewf2Geometry} (h : ∀ p ∈ g.products, p.1 * p.2 ≤ u64Max)
    (sizes : ℕ × ℕ) : g.apply sizes = g.applyExact sizes := by
  have hchunk : wrappingMul g.bytesPerSector g.sectorsPerChunk =
      g.bytesPerSector * g.sectorsPerChunk :=
    wrappingMul_eq_iff.mpr (h (g.bytesPerSector, g.sectorsPerChunk) (List.mem_cons_self ..))
  rw [Ewf2Geometry.apply, Ewf2Geometry.applyExact, hchunk]
  by_cases hts : g.totalSectors > 0 ∧ g.bytesPerSector > 0
  · have hmem : (g.bytesPerSector, g.totalSectors) ∈ g.products := by
      rw [Ewf2Geometry.products, if_pos hts]
      simp
    rw [if_pos hts, if_pos hts, wrappingMul_eq_iff.mpr (h _ hmem)]
  · rw [if_neg hts, if_neg hts]

theorem foldl_apply_eq {gs : List Ewf2Geometry}
    (h : ∀ g ∈ gs, ∀ p ∈ g.products, p.1 * p.2 ≤ u64Max) (sizes : ℕ × ℕ) :
    gs.foldl Ewf2Geometry.apply sizes = gs.foldl Ewf2Geometry.applyExact sizes := by
  induction gs generalizing sizes with
  | nil => rfl
  | cons g gs ih =>
      rw [List.foldl_cons, List.foldl_cons, Ewf2Geometry.apply_eq (h g (List.mem_cons_self ..)),
        ih fun g' hg' => h g' (List.mem_cons_of_mem _ hg')]

/-- The chunk size that a geometry that counts computes is nothing, or the one that is set. -/
theorem foldl_apply_deciding {g : Ewf2Geometry} {gs : List Ewf2Geometry}
    (hg : g ∈ Ewf2Geometry.deciding gs) (total : ℕ) :
    wrappingMul g.bytesPerSector g.sectorsPerChunk = 0 ∨
      ((Ewf2Geometry.deciding gs).foldl Ewf2Geometry.apply (0, total)).1 =
        wrappingMul g.bytesPerSector g.sectorsPerChunk := by
  induction gs generalizing total with
  | nil => cases hg
  | cons g' gs ih =>
      rw [Ewf2Geometry.deciding] at hg ⊢
      by_cases h0 : wrappingMul g'.bytesPerSector g'.sectorsPerChunk = 0
      · rw [if_pos h0] at hg ⊢
        have hsizes : g'.apply (0, total) = (0, (g'.apply (0, total)).2) := by
          rw [Ewf2Geometry.apply, if_neg (by omega)]
        rcases List.mem_cons.mp hg with rfl | hg
        · exact Or.inl h0
        · rw [List.foldl_cons, hsizes]
          exact ih hg _
      · rw [if_neg h0] at hg ⊢
        obtain rfl := List.mem_singleton.mp hg
        right
        rw [List.foldl_cons, List.foldl_nil, Ewf2Geometry.apply, if_pos (by omega)]

/-- Exact chunk sizes of geometries within a limit stay within it. -/
theorem foldl_applyExact_le {limit : ℕ} {gs : List Ewf2Geometry}
    (h : ∀ g ∈ gs, g.bytesPerSector * g.sectorsPerChunk ≤ limit) {sizes : ℕ × ℕ}
    (hsizes : sizes.1 ≤ limit) : (gs.foldl Ewf2Geometry.applyExact sizes).1 ≤ limit := by
  induction gs generalizing sizes with
  | nil => exact hsizes
  | cons g gs ih =>
      rw [List.foldl_cons]
      refine ih (fun g' hg' => h g' (List.mem_cons_of_mem _ hg')) ?_
      change (if g.bytesPerSector * g.sectorsPerChunk > 0 then _ else _) ≤ limit
      split_ifs
      · exact h g (List.mem_cons_self ..)
      · exact hsizes

/-! #### Sound geometry -/

/-- The chunks of the tables are as many as their entries. -/
theorem length_ewf2Chunks (C : Crates) (segments : List Segment) :
    (ewf2Chunks segments).length = (ewf2Media C segments).chunkCount := by
  have hlen : ∀ q : Segment × ℕ, (ewf2ChunksOf q.2 (ewf2Tables q.1.data)).length =
      ((ewf2Tables q.1.data).map fun t => t.entries.length).sum := fun q => by
    rw [ewf2ChunksOf, List.length_flatMap]
    simp only [List.length_map]
  rw [ewf2Chunks, List.length_flatMap, ewf2Media]
  simp only [hlen]
  conv_rhs => rw [← List.zipIdx_map_fst 0 segments, List.map_map]
  rfl

/-- The products of the geometries that count fit 64 bits, if the image's numbers are small
enough. -/
theorem Ewf2Media.Fits.products_le {m : Ewf2Media} (h : m.Fits) :
    ∀ p ∈ m.products, p.1 * p.2 ≤ u64Max := by
  intro p hp
  rcases List.mem_append.mp hp with hp | hp
  · obtain ⟨g, hg, hp⟩ := List.mem_flatMap.mp hp
    rw [Ewf2Geometry.products] at hp
    rcases List.mem_cons.mp hp with rfl | hp
    · exact le_trans (h.chunkSize_le g hg) (by decide)
    · split_ifs at hp with hts
      · obtain rfl := List.mem_singleton.mp hp
        exact h.total_le g hg
      · cases hp
  · obtain rfl := List.mem_singleton.mp hp
    exact h.table

/-- What fits 64 bits of a v2 image's products makes its sizes exact. -/
theorem Ewf2Media.declared_eq {m : Ewf2Media} (h : ∀ p ∈ m.products, p.1 * p.2 ≤ u64Max) :
    m.geometries.foldl Ewf2Geometry.note (0, 0) = m.declared := by
  rw [foldl_note_eq, Ewf2Media.declared]
  refine foldl_apply_eq (fun g hg p hp => h p ?_) _
  exact List.mem_append_left _ (List.mem_flatMap.mpr ⟨g, hg, hp⟩)

variable {sources : List Segment} {cacheSize : ℕ} {r : EwfReader}

/-- **Sound geometry of a v2 image.** -/
theorem sound_v2_iff (h : openSegmentsV2 C sources cacheSize = .ok r) {m : Ewf2Media}
    (hm : m = ewf2Media C r.segments) :
    SoundGeometry r m.exactSizes m.products ↔ m.Fits := by
  obtain ⟨st, hst, hr, hchunks, -⟩ := openSegmentsV2_ok h
  have hsizes := geometry_segments hst
  have hcount : st.chunks.length = m.chunkCount := by
    rw [(foldlM_openSegmentV2_ok hst).2, hm, length_ewf2Chunks C]
  have hlen : r.chunks.len = m.chunkCount := by
    rw [hchunks, hm, ← length_ewf2Chunks C]
    rfl
  have hchunk : r.chunkSize = if st.chunkSize = 0 then defaultV2ChunkSize else st.chunkSize := by
    rw [hr]
    rfl
  have htotal : r.totalSize =
      if st.totalSize = 0 then wrappingMul m.chunkCount r.chunkSize else st.totalSize := by
    rw [hchunk, ← hcount]
    conv_lhs => rw [hr]
    rfl
  rw [← hm] at hsizes
  constructor
  · intro hsound
    have hexact := Ewf2Media.declared_eq hsound.products_le
    have hgeom : ∀ g ∈ Ewf2Geometry.deciding m.geometries, ∀ p ∈ g.products,
        p.1 * p.2 ≤ u64Max := fun g hg p hp =>
      hsound.products_le p (List.mem_append_left _ (List.mem_flatMap.mpr ⟨g, hg, hp⟩))
    refine ⟨fun g hg => ?_, fun g hg => ?_, ?_⟩
    · have hwrap := wrappingMul_eq_iff.mpr (hgeom g hg (g.bytesPerSector, g.sectorsPerChunk)
        (List.mem_cons_self ..))
      rw [← hwrap]
      rcases foldl_apply_deciding hg 0 with h0 | hset
      · rw [h0]
        exact Nat.zero_le _
      · rw [← foldl_note_eq, ← hsizes] at hset
        rw [← hset]
        have hle := hsound.chunkSize_le
        rw [hchunk] at hle
        split_ifs at hle with h0
        · exact h0 ▸ Nat.zero_le _
        · exact hle
    · by_cases hts : g.totalSectors > 0 ∧ g.bytesPerSector > 0
      · refine hgeom g hg (g.bytesPerSector, g.totalSectors) ?_
        rw [Ewf2Geometry.products, if_pos hts]
        simp
      · have h0 : g.bytesPerSector * g.totalSectors = 0 := by
          rw [Nat.mul_eq_zero]
          omega
        exact h0 ▸ Nat.zero_le _
    · exact hsound.products_le (m.chunkCount, m.chunkSize)
        (List.mem_append_right _ (List.mem_singleton_self _))
  · intro hfits
    have hexact := Ewf2Media.declared_eq hfits.products_le
    rw [hexact] at hsizes
    have hset : st.chunkSize = m.declared.1 := congrArg Prod.fst hsizes
    have hsettotal : st.totalSize = m.declared.2 := congrArg Prod.snd hsizes
    have hchunkSize : r.chunkSize = m.chunkSize := by
      rw [hchunk, hset, Ewf2Media.chunkSize]
    refine ⟨?_, ?_, hchunkSize, ?_, ?_, hfits.products_le⟩
    · rw [hchunk]
      split_ifs with h0
      · decide
      · omega
    · rw [hchunk, hset]
      split_ifs with h0
      · decide
      · exact foldl_applyExact_le hfits.chunkSize_le (Nat.zero_le _)
    · rw [htotal, hsettotal, hchunkSize, wrappingMul_eq_iff.mpr hfits.table]
      rfl
    · rw [wrappingMul_eq_iff, hlen, hchunkSize, Nat.mul_comm]
      exact hfits.table

end V2

/-- **The geometry of a reader is sound** exactly when the numbers that the image declares are
small enough. A v1 open checks the chunk size itself, so what is left are the media size and what
the tables come to. A v2 open checks no product, so each `device_info` section that counts has to
keep within both limits. -/
theorem geometry_sound_iff (C : Crates) :
    (∀ sources cacheSize lazySectionCache r,
      openV1 C sources cacheSize lazySectionCache = .ok r →
        (SoundGeometry r
            ((declaredMedia lazySectionCache.isSome r.segments).exactSizes (firstKind sources))
            (declaredMedia lazySectionCache.isSome r.segments).products ↔
          (declaredMedia lazySectionCache.isSome r.segments).Fits)) ∧
      ∀ sources cacheSize r, openSegmentsV2 C sources cacheSize = .ok r →
        (SoundGeometry r (ewf2Media C r.segments).exactSizes (ewf2Media C r.segments).products ↔
          (ewf2Media C r.segments).Fits) :=
  ⟨fun _ _ _ _ h => sound_v1_iff h rfl, fun _ _ _ h => sound_v2_iff h rfl⟩

/-- A segment whose `device_info` section declares `text`, with one chunk in its table. -/
def deviceInfoBytes (text : String) : List UInt8 :=
  Image.encodeSegmentV2 1 [(1, Image.utf16Bytes text),
    (4, Image.ewf2TableBytes 0 [ewf2EntryBytes 1000 20 0])]

/-- Chunks of 64 sectors of 512 bytes. -/
def smallGeometryImage : Segment :=
  ⟨deviceInfoBytes "2\nmain\nb\tsc\tts\n512\t64\t64\n", by decide +kernel⟩

/-- Chunks of 2^20 sectors of 2^20 bytes. -/
def hugeGeometryImage : Segment :=
  ⟨deviceInfoBytes "2\nmain\nb\tsc\n1048576\t1048576\n", by decide +kernel⟩

theorem geometry_sound_iff_smallGeometryImage :
    (∃ r, openV1 Crates.reference [rawImage] 1 none = .ok r ∧
      SoundGeometry r ((declaredMedia false r.segments).exactSizes (firstKind [rawImage]))
        (declaredMedia false r.segments).products) ∧
      ∃ r, openSegmentsV2 Crates.reference [smallGeometryImage] defaultLruSize = .ok r ∧
        SoundGeometry r (ewf2Media Crates.reference r.segments).exactSizes
          (ewf2Media Crates.reference r.segments).products := by
  constructor
  · have hval : (openV1 Crates.reference [rawImage] 1 none).toOption.map (fun r : EwfReader =>
        decide (declaredMedia false r.segments).Fits) = some true := by
      decide +kernel
    obtain ⟨r, hr, hfits⟩ := Option.map_eq_some_iff.mp hval
    have hopen := ok_of_toOption_eq_some hr
    exact ⟨r, hopen, ((geometry_sound_iff Crates.reference).1 _ _ _ _ hopen).mpr
      (of_decide_eq_true hfits)⟩
  · have hval : (openOneV2 smallGeometryImage).map (fun r : EwfReader =>
        decide (ewf2Media Crates.reference r.segments).Fits) = some true := by
      decide +kernel
    obtain ⟨r, hr, hfits⟩ := Option.map_eq_some_iff.mp hval
    have hopen := openOneV2_eq_some hr
    exact ⟨r, hopen, ((geometry_sound_iff Crates.reference).2 _ _ _ hopen).mpr
      (of_decide_eq_true hfits)⟩

/-- A v2 open accepts chunks of a terabyte. -/
theorem hugeGeometryImage_not_sound :
    ∃ r, openSegmentsV2 Crates.reference [hugeGeometryImage] defaultLruSize = .ok r ∧
      r.chunkSize = 1099511627776 ∧ ¬ r.chunkSize ≤ maxChunkSize ∧
        ¬ SoundGeometry r (ewf2Media Crates.reference r.segments).exactSizes
          (ewf2Media Crates.reference r.segments).products := by
  have hval : (openOneV2 hugeGeometryImage).map (·.chunkSize) = some 1099511627776 := by
    decide +kernel
  obtain ⟨r, hr, hsize⟩ := Option.map_eq_some_iff.mp hval
  have hbig : ¬ r.chunkSize ≤ maxChunkSize := by
    rw [hsize]
    decide
  exact ⟨r, openOneV2_eq_some hr, hsize, hbig, fun hsound => hbig hsound.chunkSize_le⟩

end EwfForensic

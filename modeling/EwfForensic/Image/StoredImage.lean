import EwfForensic.Core.OpenPath
import EwfForensic.Core.SourceOrder
import EwfForensic.Image.RoundTripV2

/-!
# Images in a Directory

The segment files of an image stand in a directory under names of one stem, and `EwfReader::open`
is called with a path to one of them.

* `ImageOf` — the segment files of an image of a media, in either format.
* `ImageOf.exists_reader` — the files open in any order to a reader of the media.
* `open_any_segment` — `open` finds the files from any of them, and reads the media.
-/

namespace EwfForensic.Image

open Octets

/-! ### Images -/

/-- The segment files of an image of a media, in order. -/
inductive ImageOf (C : Crates) : List Segment → List UInt8 → Prop
  | v1 (L : Layout) (h : L.WellFormed C) (hfit : L.TablesFit) (hraw : L.RawInFile)
      {files : List Segment} (hfiles : files.map (·.data) = L.files) : ImageOf C files L.media
  | v2 (A : AcquisitionV2) (g : Ewf2Geometry) {files : List Segment} (h : A.Conforms C files)
      (hr : A.ReadsAs C g) : ImageOf C files A.media

section V1

variable {C : Crates} {L : Layout} {files sources : List Segment} {r : EwfReader}

/-- A reader of a v1 image reads its media. -/
theorem Opened.stores (ho : Opened L files r) (h : L.WellFormed C) (hraw : L.RawInFile)
    (hfiles : files.map (·.data) = L.files) : r.Stores C (L.chunks.map Stored.data) where
  chunkSize_pos := ho.chunkSize_eq ▸ h.chunkSize_pos
  cut := ho.chunkSize_eq ▸ h.blocks
  totalSize_eq := ho.totalSize_eq
  len_eq := by
    obtain ⟨chunks, hchunks, hf⟩ := ho.chunks_eq
    rw [hchunks, ← L.map_located, List.length_map, List.length_map]
    exact hf.length_eq.symm
  page := by
    intro j b hb
    rw [← L.map_located, List.map_map, List.getElem?_map] at hb
    obtain ⟨x, hx, rfl⟩ := Option.map_eq_some_iff.mp hb
    obtain ⟨s, hs, q, hq, hloc⟩ := Layout.mem_located.mp (List.mem_of_getElem? hx)
    obtain ⟨page, rest, hpage, rfl⟩ := page_of_located h hfiles ho hx hs
      (hraw s (List.mem_of_getElem? hs) q hq x.2 hloc)
    exact ⟨rest, hpage⟩

/-- The media and one chunk more fit 64 bits. -/
theorem Layout.Formed.room_le (h : L.Formed C) : L.media.length + L.chunkSize ≤ u64Max := by
  have hle : L.chunkSize ≤ 134217728 := h.chunkSize_le
  have hmedia := h.blocks.length_flatten_le h.chunkSize_pos
  rw [List.length_map] at hmedia
  have hcount := h.chunks_lt
  change L.media.length ≤ _ at hmedia
  have hprod : L.chunks.length * L.chunkSize ≤ 4294967296 * 134217728 :=
    Nat.mul_le_mul hcount.le hle
  rw [u64Max]
  omega

/-- The file header of a segment of a v1 image. -/
theorem Layout.Formed.header_mem (h : L.Formed C) (hfiles : files.map (·.data) = L.files)
    {f : Segment} (hf : f ∈ files) :
    f.kind = .physical ∧ readExact f.data 0 8 = .ok evfSignature := by
  obtain ⟨i, hi⟩ := List.mem_iff_getElem?.mp hf
  have hlen : files.length = L.segments.length := by
    rw [← (h.written hfiles).length_eq, List.length_zipIdx]
  have hlt := (List.getElem?_eq_some_iff.mp hi).1
  obtain ⟨src, hsrc, w⟩ := h.source hfiles (List.getElem?_eq_getElem (hlen ▸ hlt))
  obtain rfl := Option.some.inj (hi.symm.trans hsrc)
  have hat := w.hasAt.1
  have hnum : i + 1 ≤ 65535 := by
    have := h.segments_le
    omega
  have hparse := parse_fileHeader hat hnum
  rw [fileHeaderBytes, List.append_assoc, List.append_assoc] at hat
  obtain ⟨hroom, hwin⟩ := hasAt_iff.mp hat.left
  refine ⟨?_, (readExact_eq_ok_iff (by decide)).mpr ⟨hroom, hwin.symm⟩⟩
  exact (congrArg EwfFileHeader.kind (parse_header_ok_iff.mp hparse).2).symm

/-- The sources of a v1 image in any order open to one reader. -/
theorem Layout.WellFormed.open_perm (h : L.WellFormed C) (hfit : L.TablesFit)
    (hfiles : files.map (·.data) = L.files) (hperm : sources.Perm files) :
    ∃ r, openFromSources C sources = .ok r ∧ Opened L files r := by
  obtain ⟨r, hr, ho⟩ := open_files h hfit hfiles
  obtain ⟨st, -, rfl, hother⟩ := open_of_perm hperm.symm hr
  have hkind : ∀ l : List Segment, (∀ f ∈ l, f ∈ files) → firstKind l = .physical := by
    intro l hl
    rw [firstKind]
    cases l with
    | nil => rfl
    | cons f l => exact (h.header_mem hfiles (hl f (List.mem_cons_self ..))).1
  rw [hkind sources fun f hf => hperm.mem_iff.mp hf, ← hkind files fun _ hf => hf] at hother
  exact ⟨_, hother, ho⟩

end V1

/-- **Opening an image.** Its files in any order are taken for the format they have, and open to a
reader of the media. -/
theorem ImageOf.exists_reader {C : Crates} {files sources : List Segment} {media : List UInt8}
    (h : ImageOf C files media) (hperm : sources.Perm files) :
    ∃ (v2 : Bool) (r : EwfReader) (blocks : List (List UInt8)),
      (∀ f ∈ files, ∃ sig, readExact f.data 0 8 = .ok sig ∧
        (v2 = true ↔ sig = evf2Signature ∨ sig = lef2Signature)) ∧
      (v2 = true → (∀ f ∈ files, ∃ header,
        (readExact f.data 0 ewf2FileHeaderSize).bind Ewf2FileHeader.parse = .ok header) ∧
          openSegmentsV2 C sources defaultLruSize = .ok r) ∧
      (v2 = false → openV1 C sources defaultLruSize none = .ok r) ∧
      r.Stores C blocks ∧ blocks.flatten = media ∧ media.length + r.chunkSize ≤ u64Max := by
  cases h with
  | v1 L h hfit hraw hfiles =>
      obtain ⟨r, hr, ho⟩ := h.open_perm hfit hfiles hperm
      refine ⟨false, r, L.chunks.map Stored.data, fun f hf => ?_, nofun, fun _ => hr,
        ho.stores h hraw hfiles, rfl, ?_⟩
      · exact ⟨_, (h.header_mem hfiles hf).2, by decide⟩
      · rw [ho.chunkSize_eq]
        exact h.room_le
  | v2 A g h hr =>
      obtain ⟨st, r, -, hfinish, hopen, hchunkSize, htotal, hchunks⟩ :=
        h.open_eq hr hperm defaultLruSize
      refine ⟨true, r, A.chunks.map (·.media), fun f hf => ?_, fun _ => ⟨fun f hf => ?_, hopen⟩,
        nofun, h.stores hr (by rw [hfinish]; rfl) hchunkSize htotal hchunks, ?_, ?_⟩
      · obtain ⟨k, hk⟩ := List.mem_iff_getElem?.mp hf
        obtain ⟨s, -, hc, -⟩ := h.exists_segment hk
        obtain ⟨hroom, hsig⟩ := hc.signature
        refine ⟨f.data.take 8, (readExact_eq_ok_iff (by decide)).mpr ⟨by omega, rfl⟩, ?_⟩
        exact ⟨fun _ => hsig, fun _ => rfl⟩
      · obtain ⟨k, hk⟩ := List.mem_iff_getElem?.mp hf
        obtain ⟨s, -, hc, hle⟩ := h.exists_segment hk
        obtain ⟨-, header, -, hheader⟩ := hc.parse_eq hle
        exact ⟨header, hheader⟩
      · rw [AcquisitionV2.media, List.flatMap_def]
      · rw [hchunkSize]
        exact hr.room_le

/-! ### Directories -/

section Directory

variable {Name : Type} {C : Crates} {fs : FileSystem Path Name UInt8} {first : Path}
  {names : List Path} {content : Path → Segment} {media : List UInt8}

/-- The files of a directory can be opened, and hold `content`. -/
def Holds (fs : FileSystem Path Name UInt8) (names : List Path)
    (content : Path → Segment) : Prop :=
  ∀ name ∈ names, openSource fs name = .ok (content name)

theorem Holds.mapM_openSource (h : Holds fs names content) {paths : List Path}
    (hsub : ∀ p ∈ paths, p ∈ names) :
    paths.mapM (openSource fs) = .ok (paths.map content) := by
  rw [mapM_eq_ok_iff, List.forall₂_map_right_iff, List.forall₂_same]
  exact fun p hp => h p (hsub p hp)

theorem Holds.openSourcesV2_eq (h : Holds fs names content) {paths : List Path}
    (hsub : ∀ p ∈ paths, p ∈ names) (hheaders : ∀ p ∈ paths, ∃ header,
      (readExact (content p).data 0 ewf2FileHeaderSize).bind Ewf2FileHeader.parse = .ok header) :
    openSourcesV2 fs paths = .ok (paths.map content) := by
  rw [openSourcesV2, mapM_eq_ok_iff, List.forall₂_map_right_iff, List.forall₂_same]
  intro p hp
  obtain ⟨header, hheader⟩ := hheaders p hp
  obtain ⟨buf, hbuf, hparse⟩ := except_bind_eq_ok_iff.mp hheader
  rw [h p (hsub p hp)]
  change (readExact (content p).data 0 ewf2FileHeaderSize).bind _ = _
  rw [hbuf]
  change (Ewf2FileHeader.parse buf).bind _ = _
  rw [hparse]
  rfl

/-- **From any segment file** `open` gives a reader of the media. -/
theorem exists_openPath (himage : ImageOf C (names.map content) media)
    (hstored : StoredIn fs first names) (hholds : Holds fs names content) :
    ∃ r blocks, openPath fs C first = .ok r ∧ r.Stores C blocks ∧ blocks.flatten = media ∧
      media.length + r.chunkSize ≤ u64Max := by
  obtain ⟨paths, hpaths, hperm⟩ := hstored.exists_discoverSegments
  have hsub : ∀ p ∈ paths, p ∈ names := fun p hp => hperm.mem_iff.mp hp
  obtain ⟨v2, r, blocks, hsig, hv2, hv1, hstores, hmedia, hroom⟩ :=
    himage.exists_reader (hperm.map content)
  refine ⟨r, blocks, ?_, hstores, hmedia, hroom⟩
  have hne : paths ≠ [] := by
    rintro rfl
    exact hstored.ne_nil hperm.nil_eq.symm
  obtain ⟨p, rest, rfl⟩ := List.exists_cons_of_ne_nil hne
  have hp := hsub p (List.mem_cons_self ..)
  obtain ⟨sig, hread, hiff⟩ := hsig _ (List.mem_map_of_mem hp)
  have hprobe : probeV2 fs p = .ok v2 := by
    rw [probeV2, hholds p hp]
    change (readExact (content p).data 0 8).bind _ = _
    rw [hread]
    exact congrArg Except.ok (Bool.decide_congr hiff.symm ▸ by simp)
  have hopen : openSegmentPaths fs C (p :: rest) defaultLruSize none = .ok r := by
    rw [openSegmentPaths]
    simp only [hprobe]
    cases v2 with
    | true =>
        obtain ⟨hheaders, hr⟩ := hv2 rfl
        have hsources := hholds.openSourcesV2_eq hsub fun q hq =>
          hheaders _ (List.mem_map_of_mem (hsub q hq))
        change (openSourcesV2 fs (p :: rest)).bind _ = _
        rw [hsources]
        exact hr
    | false =>
        change ((p :: rest).mapM (openSource fs)).bind _ = _
        rw [hholds.mapM_openSource hsub]
        exact hv1 rfl
  rw [openPath, openWithCacheSize, hpaths]
  exact hopen

/-- The directory is one that any of the files leads to. -/
theorem openPath_of_mem (hletter : StartsWithLetter first) (hstored : StoredIn fs first names)
    {path : Path} (hpath : path ∈ names) : openPath fs C path = openPath fs C first := by
  obtain ⟨paths, hpaths, hperm⟩ := hstored.exists_discoverSegments
  rw [openPath, openPath, openWithCacheSize, openWithCacheSize, hpaths,
    discoverSegments_of_mem hletter hpaths (hperm.mem_iff.mpr hpath)]

end Directory

/-! ### A sample -/

/-- The two segment files of the sample in a directory, with a file beside them. -/
def sampleDirectory : FileSystem Path Path UInt8 :=
  .ofFiles [(asciiBytes "./ev.Ex01".toList, (readableFilesV2.map (·.data)).getD 0 []),
    (asciiBytes "./ev.txt".toList, [1, 2, 3]),
    (asciiBytes "./ev.ex02".toList, (readableFilesV2.map (·.data)).getD 1 [])]

/-- The paths of the segment files. -/
def sampleNames : List Path := [asciiBytes "./ev.Ex01".toList, asciiBytes "./ev.ex02".toList]

/-- What they hold. -/
def sampleContent (path : Path) : Segment :=
  if path = asciiBytes "./ev.Ex01".toList then readableFilesV2.getD 0 ⟨[], by decide⟩
  else readableFilesV2.getD 1 ⟨[], by decide⟩

theorem sampleDirectory_image : ImageOf Crates.reference (sampleNames.map sampleContent)
    readableAcquisitionV2.media :=
  .v2 readableAcquisitionV2 ⟨1, 3, 5⟩ readableAcquisitionV2_conforms readableAcquisitionV2_reads

theorem sampleDirectory_letter : StartsWithLetter (asciiBytes "ev.ex02".toList) := by
  intro name hname
  obtain rfl : asciiBytes "ev.ex02".toList = name := Option.some.inj hname
  decide

theorem sampleDirectory_stored :
    StoredIn sampleDirectory (asciiBytes "ev.ex02".toList) sampleNames where
  ne_nil := by decide
  nodup := by decide
  mem_iff := by
    intro path
    rw [sampleDirectory, FileSystem.isSome_fileAt_ofFiles]
    constructor
    · intro hpath
      simp only [sampleNames, List.mem_cons, List.not_mem_nil, or_false] at hpath
      rcases hpath with rfl | rfl <;> decide +kernel
    · rintro ⟨hkind, hpath⟩
      simp only [List.map_cons, List.map_nil, List.mem_cons, List.not_mem_nil, or_false] at hpath
      rcases hpath with rfl | rfl | rfl
      · decide
      · exact absurd hkind (by decide +kernel)
      · decide

theorem sampleDirectory_holds : Holds sampleDirectory sampleNames sampleContent := by
  intro path hpath
  simp only [sampleNames, List.mem_cons, List.not_mem_nil, or_false] at hpath
  rcases hpath with rfl | rfl <;> exact openSource_eq rfl

end EwfForensic.Image

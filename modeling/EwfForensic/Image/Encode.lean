import EwfForensic.Core.Sections

/-!
# Writing EWF v1 Structures

The byte layout of an EWF v1 segment from the writer's side: a descriptor, a volume body, a
table body and a chain of sections, as byte strings. The claims about well-formed images and
the concrete images of this development are built from them.

Each encoder comes with what the parsers of `Core/Sections` read from it
(`ofBytes_descriptorBytes`, `volume_of_hasAt`) or where its parts stand (`hasAt_tableBytes`,
`hasAt_entry`, `hasAt_placeSections`, `hasAt_encodeSegment`).
-/

namespace EwfForensic.Image

open Octets

/-! ### Descriptors -/

/-- The checksummed front of a descriptor: type, next, size and 40 bytes of padding. -/
def descriptorFront (t : SectionType) (next size : ℕ) : List UInt8 :=
  t.name ++ List.replicate (16 - t.name.length) 0 ++ toLE 8 next ++ toLE 8 size ++
    List.replicate 40 0

/-- A 76-byte section descriptor with its checksum. -/
def descriptorBytes (t : SectionType) (next size : ℕ) : List UInt8 :=
  descriptorFront t next size ++ toLE 4 (adler32 (descriptorFront t next size))

theorem length_name_le {t : SectionType} (h : t ∈ knownTypes) : t.name.length ≤ 16 := by
  revert t
  decide

theorem zero_notMem_name {t : SectionType} (h : t ∈ knownTypes) : (0 : UInt8) ∉ t.name := by
  revert t
  decide

section Descriptor

variable {t : SectionType} {next size : ℕ}

theorem length_descriptorFront (h : t ∈ knownTypes) :
    (descriptorFront t next size).length = 72 := by
  have := length_name_le h
  simp only [descriptorFront, List.length_append, List.length_replicate, length_toLE]
  omega

@[simp] theorem length_descriptorBytes (h : t ∈ knownTypes) :
    (descriptorBytes t next size).length = 76 := by
  rw [descriptorBytes, List.length_append, length_descriptorFront h, length_toLE]

/-- The fields of a descriptor stand at their offsets. -/
theorem hasAt_descriptorBytes (h : t ∈ knownTypes) :
    HasAt (descriptorBytes t next size) 0 (t.name ++ List.replicate (16 - t.name.length) 0) ∧
      HasAt (descriptorBytes t next size) 16 (toLE 8 next) ∧
      HasAt (descriptorBytes t next size) 24 (toLE 8 size) ∧
      HasAt (descriptorBytes t next size) 72 (toLE 4 (adler32 (descriptorFront t next size))) := by
  have hname := length_name_le h
  have hself := hasAt_self (descriptorBytes t next size)
  have htype : (t.name ++ List.replicate (16 - t.name.length) (0 : UInt8)).length = 16 := by
    rw [List.length_append, List.length_replicate]
    omega
  rw [descriptorBytes] at hself ⊢
  have hcrc := hself.right
  rw [length_descriptorFront h] at hcrc
  have hfront := hself.left
  rw [descriptorFront] at hfront
  have hnext := hfront.left.left.right
  have hsize := hfront.left.right
  rw [htype] at hnext
  rw [List.length_append, htype, length_toLE] at hsize
  exact ⟨hfront.left.left.left, hnext, hsize, hcrc⟩

/-- The type bytes up to the first NUL are the type's name. -/
theorem takeWhile_name (h : t ∈ knownTypes) :
    (t.name ++ List.replicate (16 - t.name.length) 0).takeWhile (· ≠ 0) = t.name := by
  have hz := zero_notMem_name h
  have hpos : ∀ b ∈ t.name, decide (b ≠ 0) = true := by
    intro b hb
    simp only [decide_eq_true_eq]
    rintro rfl
    exact hz hb
  rw [List.takeWhile_append_of_pos hpos]
  cases 16 - t.name.length with
  | zero => simp
  | succ n => simp [List.replicate_succ]

/-- **A written descriptor is read back.** -/
theorem ofBytes_descriptorBytes (h : t ∈ knownTypes) (hnext : next ≤ u64Max)
    (hsize : size ≤ u64Max) (off : ℕ) :
    SectionDescriptor.ofBytes (descriptorBytes t next size) off =
      ⟨t, next, size, off, adler32 (descriptorFront t next size)⟩ := by
  obtain ⟨htype, hn, hs, hc⟩ := @hasAt_descriptorBytes t next size h
  have hlen : (descriptorBytes t next size).length ≤ u64Max := by
    rw [length_descriptorBytes h]
    decide
  have htake : (descriptorBytes t next size).take 16 =
      t.name ++ List.replicate (16 - t.name.length) 0 := by
    have htk := (hasAt_iff.mp htype).2
    have hl : (t.name ++ List.replicate (16 - t.name.length) (0 : UInt8)).length = 16 := by
      have := length_name_le h
      rw [List.length_append, List.length_replicate]
      omega
    rwa [hl, List.drop_zero] at htk
  have hcrc : adler32 (descriptorFront t next size) < 256 ^ 4 := Adler32.checksum_lt _
  have hn' : leU64 (descriptorBytes t next size) 16 = next :=
    hn.leAt hlen (by unfold u64Max at hnext; omega)
  have hs' : leU64 (descriptorBytes t next size) 24 = size :=
    hs.leAt hlen (by unfold u64Max at hsize; omega)
  have hc' : leU32 (descriptorBytes t next size) 72 = adler32 (descriptorFront t next size) :=
    hc.leAt hlen hcrc
  rw [SectionDescriptor.ofBytes, htake, takeWhile_name h, SectionType.ofName_name h, hn', hs', hc']

/-- A written descriptor passes its checksum test. -/
theorem verifyCrc_descriptorBytes (h : t ∈ knownTypes) (off : ℕ) :
    SectionDescriptor.verifyCrc ⟨t, next, size, off, adler32 (descriptorFront t next size)⟩
      (descriptorBytes t next size) = true := by
  have hslice : slice? (descriptorBytes t next size) 0 sectionDescriptorCrcOffset =
      some (descriptorFront t next size) := by
    have hs := (hasAt_self (descriptorBytes t next size)).left.slice?
    rwa [Nat.zero_add, length_descriptorFront h] at hs
  rw [SectionDescriptor.verifyCrc, hslice]
  simp

end Descriptor

/-! ### Volume bodies -/

/-- The geometry at the front of a volume body. -/
def volumeFront (mediaType : UInt8) (chunkCount sectorsPerChunk bytesPerSector sectorCount : ℕ) :
    List UInt8 :=
  [mediaType, 0, 0, 0] ++ toLE 4 chunkCount ++ toLE 4 sectorsPerChunk ++ toLE 4 bytesPerSector ++
    toLE 8 sectorCount

@[simp] theorem length_volumeFront (m : UInt8) (a b c d : ℕ) :
    (volumeFront m a b c d).length = 24 := by
  simp [volumeFront]

/-- The geometry is read back from the front of any buffer that starts with it. -/
theorem volume_of_hasAt {buf : List UInt8} {m : UInt8} {cc spc bps sc : ℕ}
    (hbuf : buf.length ≤ u64Max) (h : HasAt buf 0 (volumeFront m cc spc bps sc))
    (hcc : cc ≤ u32Max) (hspc : spc ≤ u32Max) (hbps : bps ≤ u32Max) (hsc : sc ≤ u64Max) :
    (EwfVolume.ofBytes buf).chunkCount = cc ∧ (EwfVolume.ofBytes buf).sectorsPerChunk = spc ∧
      (EwfVolume.ofBytes buf).bytesPerSector = bps ∧ (EwfVolume.ofBytes buf).sectorCount = sc ∧
      (EwfVolume.ofBytes buf).mediaType = m := by
  rw [volumeFront] at h
  rw [u32Max] at hcc hspc hbps
  rw [u64Max] at hsc
  have h1 : HasAt buf 4 (toLE 4 cc) := h.left.left.left.right
  have h2 := h.left.left.right
  have h3 := h.left.right
  have h4 := h.right
  simp only [List.length_append, length_toLE, List.length_cons, List.length_nil, Nat.zero_add,
    Nat.reduceAdd] at h2 h3 h4
  have h0 : HasAt buf 0 [m, 0, 0, 0] := h.left.left.left.left
  refine ⟨h1.leAt hbuf (by omega), h2.leAt hbuf (by omega), h3.leAt hbuf (by omega),
    h4.leAt hbuf (by omega), ?_⟩
  obtain ⟨u, hu⟩ := h0.2
  rw [List.drop_zero] at hu
  simp [EwfVolume.ofBytes, ← hu]

/-! ### Table bodies -/

/-- The checksummed front of a table header. -/
def tableFront (count base : ℕ) : List UInt8 :=
  toLE 4 count ++ [0, 0, 0, 0] ++ toLE 8 base

/-- A table body: the header, with its checksum or zero in its place, the entries, and what
the writer puts after them. -/
def tableBytes (base : ℕ) (storeCrc : Bool) (entries : List ℕ) (tail : List UInt8) :
    List UInt8 :=
  tableFront entries.length base ++
    toLE 4 (if storeCrc then adler32 (tableFront entries.length base) else 0) ++ [0, 0, 0, 0] ++
    entries.flatMap (toLE 4) ++ tail

@[simp] theorem length_tableFront (count base : ℕ) : (tableFront count base).length = 16 := by
  simp [tableFront]

theorem length_entries (entries : List ℕ) :
    (entries.flatMap (toLE 4)).length = 4 * entries.length := by
  induction entries with
  | nil => rfl
  | cons e es ih =>
      rw [List.flatMap_cons, List.length_append, length_toLE, ih, List.length_cons]
      omega

@[simp] theorem length_tableBytes (base : ℕ) (storeCrc : Bool) (entries : List ℕ)
    (tail : List UInt8) :
    (tableBytes base storeCrc entries tail).length = 24 + 4 * entries.length + tail.length := by
  simp only [tableBytes, List.length_append, length_tableFront, length_toLE, length_entries,
    List.length_cons, List.length_nil]

/-- The header stands at the front of a table body, the entries after it. -/
theorem hasAt_tableBytes {xs : List UInt8} {off base : ℕ} {storeCrc : Bool} {entries : List ℕ}
    {tail : List UInt8} (h : HasAt xs off (tableBytes base storeCrc entries tail)) :
    HasAt xs off (toLE 4 entries.length) ∧ HasAt xs (off + 8) (toLE 8 base) ∧
      HasAt xs (off + 24) (entries.flatMap (toLE 4)) := by
  rw [tableBytes] at h
  have hfront := h.left.left.left.left
  rw [tableFront] at hfront
  have hbase := hfront.right
  have hentries := h.left.right
  simp only [List.length_append, length_toLE, length_tableFront, List.length_cons,
    List.length_nil] at hbase hentries
  exact ⟨hfront.left.left, hbase, hentries⟩

/-- The 24 bytes of a table's header: its count, its base offset, and its checksum or zero. -/
theorem exists_tableHeader (base : ℕ) (storeCrc : Bool) (entries : List ℕ) (tail : List UInt8)
    (hc : entries.length < 4294967296) (hb : base ≤ u64Max) :
    ∃ hdr, tableBytes base storeCrc entries tail = hdr ++ (entries.flatMap (toLE 4) ++ tail) ∧
      hdr.length = 24 ∧ leU32 hdr 0 = entries.length ∧ leU64 hdr 8 = base ∧
      hdr.take 16 = tableFront entries.length base ∧
      leU32 hdr 16 = if storeCrc then adler32 (tableFront entries.length base) else 0 := by
  obtain ⟨crc, hcrc⟩ : ∃ crc, (if storeCrc then adler32 (tableFront entries.length base) else 0) =
      crc := ⟨_, rfl⟩
  have hcrcLt : crc < 256 ^ 4 := by
    rw [← hcrc]
    split_ifs
    · exact Adler32.checksum_lt _
    · decide
  obtain ⟨hdr, hdef⟩ : ∃ hdr, tableFront entries.length base ++ toLE 4 crc ++ [0, 0, 0, 0] = hdr :=
    ⟨_, rfl⟩
  have hself := hasAt_self hdr
  have hlen : hdr.length = 24 := by simp [← hdef]
  have hmax : hdr.length ≤ u64Max := by
    rw [hlen]
    decide
  rw [← hdef] at hself
  have hcrcAt := hself.left.right
  have hfront := hself.left.left
  rw [length_tableFront, hdef] at hcrcAt
  rw [hdef, tableFront] at hfront
  have hbaseAt := hfront.right
  simp only [List.length_append, length_toLE, List.length_cons, List.length_nil] at hbaseAt
  refine ⟨hdr, ?_, hlen, hfront.left.left.leAt hmax (by omega), ?_, ?_, ?_⟩
  · rw [tableBytes, hcrc, hdef, List.append_assoc]
  · rw [u64Max] at hb
    exact hbaseAt.leAt hmax (by omega)
  · rw [← hdef, List.append_assoc, List.take_left' (length_tableFront _ _)]
  · rw [hcrc]
    exact hcrcAt.leAt hmax hcrcLt

/-- The `i`-th of a row of 4-byte numbers stands at its place. -/
theorem hasAt_entry {xs : List UInt8} {off : ℕ} {entries : List ℕ}
    (h : HasAt xs off (entries.flatMap (toLE 4))) {i e : ℕ} (hi : entries[i]? = some e) :
    HasAt xs (off + 4 * i) (toLE 4 e) :=
  h.flatMap (fun _ _ => length_toLE 4 _) hi

/-! ### Sections and segments -/

/-- A section to be written: its type and body. -/
structure RawSection where
  type : SectionType
  body : List UInt8
  deriving DecidableEq

/-- The size of a section with its descriptor. -/
def RawSection.size (s : RawSection) : ℕ := 76 + s.body.length

/-- A chain of sections written from position `pos` on, each pointing to the next. -/
def encodeSections : ℕ → List RawSection → List UInt8
  | _, [] => []
  | pos, s :: rest =>
    descriptorBytes s.type (pos + s.size) s.size ++ s.body ++ encodeSections (pos + s.size) rest

/-- The size of a chain of sections. -/
def sectionsSize (secs : List RawSection) : ℕ := (secs.map RawSection.size).sum

/-- A v1 file header with segment number `num`. -/
def fileHeaderBytes (num : ℕ) : List UInt8 := evfSignature ++ [1] ++ toLE 2 num ++ [0, 0]

/-- A segment: file header, a chain of sections, and a last descriptor of type `term` whose
`next` field is `termNext`. -/
def encodeSegment (num : ℕ) (secs : List RawSection) (term : SectionType) (termNext : ℕ) :
    List UInt8 :=
  fileHeaderBytes num ++ encodeSections 13 secs ++ descriptorBytes term termNext 76

@[simp] theorem length_fileHeaderBytes (num : ℕ) : (fileHeaderBytes num).length = 13 := by
  simp [fileHeaderBytes, evfSignature]

theorem sectionsSize_cons (s : RawSection) (secs : List RawSection) :
    sectionsSize (s :: secs) = s.size + sectionsSize secs := rfl

theorem sectionsSize_append (a b : List RawSection) :
    sectionsSize (a ++ b) = sectionsSize a + sectionsSize b := by
  simp [sectionsSize]

theorem length_encodeSections {secs : List RawSection} (h : ∀ s ∈ secs, s.type ∈ knownTypes)
    (pos : ℕ) : (encodeSections pos secs).length = sectionsSize secs := by
  induction secs generalizing pos with
  | nil => rfl
  | cons s secs ih =>
      have hs : s.type ∈ knownTypes := h s (List.mem_cons_self ..)
      have hr := ih (fun s' hs' => h s' (List.mem_cons_of_mem _ hs')) (pos + s.size)
      simp only [encodeSections, List.length_append, length_descriptorBytes hs, hr]
      simp only [sectionsSize_cons, RawSection.size]

/-- A chain written in two parts. -/
theorem encodeSections_append (a b : List RawSection) (pos : ℕ) :
    encodeSections pos (a ++ b) =
      encodeSections pos a ++ encodeSections (pos + sectionsSize a) b := by
  induction a generalizing pos with
  | nil => simp [encodeSections, sectionsSize]
  | cons s a ih =>
      simp only [List.cons_append, encodeSections, ih, sectionsSize_cons, List.append_assoc,
        Nat.add_assoc]

/-- The sections of a chain written from position `pos` on, each with its position. -/
def placeSections : ℕ → List RawSection → List (ℕ × RawSection)
  | _, [] => []
  | pos, s :: rest => (pos, s) :: placeSections (pos + s.size) rest

theorem placeSections_append (a b : List RawSection) (pos : ℕ) :
    placeSections pos (a ++ b) =
      placeSections pos a ++ placeSections (pos + sectionsSize a) b := by
  induction a generalizing pos with
  | nil => simp [placeSections, sectionsSize]
  | cons s a ih =>
      simp only [List.cons_append, placeSections, ih, sectionsSize_cons, Nat.add_assoc]

theorem mem_of_mem_placeSections {secs : List RawSection} {pos : ℕ} {q : ℕ × RawSection}
    (hq : q ∈ placeSections pos secs) : q.2 ∈ secs := by
  induction secs generalizing pos with
  | nil => cases hq
  | cons s secs ih =>
      rcases List.mem_cons.mp hq with rfl | hq
      · exact List.mem_cons_self ..
      · exact List.mem_cons_of_mem _ (ih hq)

/-- A placed section lies within the chain. -/
theorem placeSections_bounds {secs : List RawSection} {pos : ℕ} {q : ℕ × RawSection}
    (hq : q ∈ placeSections pos secs) :
    pos ≤ q.1 ∧ q.1 + q.2.size ≤ pos + sectionsSize secs := by
  induction secs generalizing pos with
  | nil => cases hq
  | cons s secs ih =>
      rw [sectionsSize_cons]
      rcases List.mem_cons.mp hq with rfl | hq
      · exact ⟨le_rfl, by simp only; omega⟩
      · have := ih hq
        omega

/-- The sections of a written chain stand where they are placed. -/
theorem hasAt_placeSections {xs : List UInt8} {pos : ℕ} {secs : List RawSection}
    (hk : ∀ s ∈ secs, s.type ∈ knownTypes) (h : HasAt xs pos (encodeSections pos secs))
    {q : ℕ × RawSection} (hq : q ∈ placeSections pos secs) :
    HasAt xs q.1 (descriptorBytes q.2.type (q.1 + q.2.size) q.2.size) ∧
      HasAt xs (q.1 + 76) q.2.body := by
  induction secs generalizing pos with
  | nil => cases hq
  | cons s secs ih =>
      have hs : s.type ∈ knownTypes := hk s (List.mem_cons_self ..)
      have hk' : ∀ s' ∈ secs, s'.type ∈ knownTypes := fun s' hs' =>
        hk s' (List.mem_cons_of_mem _ hs')
      rw [encodeSections] at h
      have hrest := h.right
      rw [List.length_append, length_descriptorBytes hs] at hrest
      have hbody := h.left.right
      rw [length_descriptorBytes hs] at hbody
      rcases List.mem_cons.mp hq with rfl | hq
      · exact ⟨h.left.left, hbody⟩
      · exact ih hk' hrest hq

/-- The parts of an encoded segment stand one after the other. -/
theorem hasAt_encodeSegment {num : ℕ} {secs : List RawSection} {term : SectionType}
    {termNext : ℕ} (h : ∀ s ∈ secs, s.type ∈ knownTypes) :
    HasAt (encodeSegment num secs term termNext) 0 (fileHeaderBytes num) ∧
      HasAt (encodeSegment num secs term termNext) 13 (encodeSections 13 secs) ∧
      HasAt (encodeSegment num secs term termNext) (13 + sectionsSize secs)
        (descriptorBytes term termNext 76) := by
  have hself := hasAt_self (encodeSegment num secs term termNext)
  rw [encodeSegment] at hself ⊢
  have hsecs := hself.left.right
  have hterm := hself.right
  rw [length_fileHeaderBytes] at hsecs
  rw [List.length_append, length_fileHeaderBytes, length_encodeSections h, Nat.zero_add] at hterm
  exact ⟨hself.left.left, hsecs, hterm⟩

theorem length_encodeSegment {num : ℕ} {secs : List RawSection} {term : SectionType}
    {termNext : ℕ} (h : ∀ s ∈ secs, s.type ∈ knownTypes) (ht : term ∈ knownTypes) :
    (encodeSegment num secs term termNext).length = 13 + sectionsSize secs + 76 := by
  rw [encodeSegment, List.length_append, List.length_append, length_fileHeaderBytes,
    length_encodeSections h, length_descriptorBytes ht]

/-- A segment with the one chunk `chunk` at offset 363 and the table entry `entry` for it, for
a volume of `count` sectors of 512 bytes, one to a chunk; `md5` is the stored hash. -/
def oneChunkBytes (count entry : ℕ) (chunk md5 : List UInt8) : List UInt8 :=
  encodeSegment 1
    [⟨.volume, volumeFront 1 1 1 512 count ++ List.replicate 70 0⟩,
      ⟨.table, tableBytes 0 true [entry] []⟩, ⟨.sectors, chunk⟩, ⟨.hash, md5⟩] .done 0

end EwfForensic.Image

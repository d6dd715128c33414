import EwfForensic.Core.Geometry
import EwfForensic.Image.ConformingV2
import EwfForensic.Image.SectionText

/-!
# Reading v2 Segments

What `EwfReader::open_segments_v2` reads of a segment that has what a writer puts into it.

* `ChainedBack.collect_eq` — the reader's walk visits the sections of a segment.
* `SegmentV2.Conforms.reads` — no section of a segment is an error.
* `SegmentV2.Conforms.geometryAt_eq`, `SegmentV2.Conforms.tables_eq` — the geometry and the table
  that are read.
-/

namespace EwfForensic.Image

open Octets

/-! ### Sections -/

/-- The descriptor at a place. -/
def descriptorAt (data : List UInt8) (off : ℕ) : Ewf2SectionDescriptor :=
  Ewf2SectionDescriptor.ofBytes ((data.drop off).take ewf2SectionDescriptorSize) off

section Sections

variable {data : List UInt8} {s : SectionV2} {secs : List SectionV2}

/-- The descriptor of a section is read, with the section's fields. -/
structure SectionV2.DescribedBy (data : List UInt8) (s : SectionV2) (d : Ewf2SectionDescriptor) :
    Prop where
  sectionType : d.sectionType = Ewf2SectionType.fromU32 s.sectionType
  dataFlags : d.dataFlags = s.dataFlags
  previousOffset : s.prevOffset ≤ u64Max → d.previousOffset = s.prevOffset
  dataSize : d.dataSize = s.dataSize
  offset : d.offset = s.descOffset

theorem SectionV2.StandsIn.describedBy (hdata : data.length < u64Max) (h : s.StandsIn data) :
    readExact data s.descOffset ewf2SectionDescriptorSize =
        .ok ((data.drop s.descOffset).take ewf2SectionDescriptorSize) ∧
      s.DescribedBy data (descriptorAt data s.descOffset) := by
  obtain ⟨mid, tail, hmid, htail, hat⟩ := h.descriptor
  obtain ⟨desc, hdesc⟩ : ∃ desc, desc = toLE 4 s.sectionType ++ toLE 4 s.dataFlags ++
    toLE 8 s.prevOffset ++ toLE 8 s.dataSize ++ mid ++ s.storedHash.val ++ tail := ⟨_, rfl⟩
  rw [← hdesc] at hat
  have hlen : desc.length = 64 := by
    simp only [hdesc, List.length_append, length_toLE, hmid, htail, s.storedHash.property]
  obtain ⟨hroom, hwin⟩ := hasAt_iff.mp hat
  rw [hlen] at hroom hwin
  have hin := h.inFile
  have hself : HasAt desc 0 (toLE 4 s.sectionType ++ toLE 4 s.dataFlags ++ toLE 8 s.prevOffset ++
      toLE 8 s.dataSize ++ mid ++ s.storedHash.val ++ tail) := hdesc ▸ hasAt_self desc
  have h0 := hself.left.left.left.left.left.left
  have h1 := hself.left.left.left.left.left.right
  have h2 := hself.left.left.left.left.right
  have h3 := hself.left.left.left.right
  simp only [List.length_append, length_toLE, Nat.zero_add, Nat.reduceAdd] at h1 h2 h3
  have hmax : u64Max = 18446744073709551615 := rfl
  refine ⟨(readExact_eq_ok_iff (by decide)).mpr ⟨hroom, rfl⟩, ?_⟩
  rw [descriptorAt, hwin]
  refine ⟨?_, ?_, fun hprev => ?_, ?_, rfl⟩
  · exact congrArg Ewf2SectionType.fromU32
      (h0.leAt (by omega) (Nat.lt_succ_of_le h.sectionType_le))
  · exact h1.leAt (by omega) (Nat.lt_succ_of_le h.dataFlags_le)
  · exact h2.leAt (by omega) (by omega)
  · exact h3.leAt (by omega) (by omega)

/-- One turn of the reader's walk reads the descriptor. -/
theorem SectionV2.StandsIn.collectStep_eq (hdata : data.length < u64Max) (h : s.StandsIn data)
    (hprev : s.prevOffset < s.descOffset) {visited : List ℕ} (hnew : s.descOffset ∉ visited) :
    collectStep data (visited, s.descOffset) = some (.ok (descriptorAt data s.descOffset),
      if s.prevOffset = 0 then none else some (s.descOffset :: visited, s.prevOffset)) := by
  obtain ⟨hread, hdesc⟩ := h.describedBy hdata
  have hroom := ((readExact_eq_ok_iff (by decide)).mp hread).1
  have hfield : (descriptorAt data s.descOffset).previousOffset = s.prevOffset :=
    hdesc.previousOffset (by omega)
  rw [collectStep, if_neg hnew, hread]
  simp only [← descriptorAt.eq_def]
  rw [hfield]
  by_cases hzero : s.prevOffset = 0
  · rw [if_pos hzero, if_pos hzero]
  · rw [if_neg hzero, if_neg (by omega), if_neg hzero]

/-- Below the last section of a chain the offsets decrease, so none comes back. -/
theorem ChainedBack.visits_collect (hdata : data.length < u64Max) {rest : List SectionV2}
    (h : ChainedBack data (s :: rest)) {n : ℕ} (hn : s.descOffset < n) {visited : List ℕ}
    (hvisited : ∀ p ∈ visited, s.descOffset < p) :
    Loop.visits (collectStep data) n (visited, s.descOffset) =
      (s :: rest).map fun t => .ok (descriptorAt data t.descOffset) := by
  have hnew : s.descOffset ∉ visited := fun hmem => lt_irrefl _ (hvisited _ hmem)
  induction rest generalizing s n visited with
  | nil =>
      obtain ⟨hs, hfirst⟩ := h
      obtain ⟨n, rfl⟩ : ∃ m, n = m + 1 := ⟨n - 1, by omega⟩
      have hin : 32 + s.dataSize ≤ s.descOffset := hs.inFile
      have hstep := hs.collectStep_eq hdata (by omega) hnew
      rw [if_pos hfirst] at hstep
      exact Loop.visits_of_last hstep n
  | cons t rest ih =>
      obtain ⟨hs, hprev, hlt, hrest⟩ := h
      obtain ⟨n, rfl⟩ : ∃ m, n = m + 1 := ⟨n - 1, by omega⟩
      have ht : 32 + t.dataSize ≤ t.descOffset := (hrest.standsIn (List.mem_cons_self ..)).inFile
      have hstep := hs.collectStep_eq hdata (hprev ▸ hlt) hnew
      rw [hprev, if_neg (by omega)] at hstep
      have hbelow : ∀ p ∈ s.descOffset :: visited, t.descOffset < p := by
        intro p hp
        rcases List.mem_cons.mp hp with rfl | hp
        · exact hlt
        · exact hlt.trans (hvisited p hp)
      rw [Loop.visits_of_next hstep, ih hrest (by omega) hbelow
        fun hmem => lt_irrefl _ (hbelow _ hmem)]
      rfl

/-- **The reader collects the sections of a segment**, in the order of the file. -/
theorem ChainedBack.collect_eq (hdata : data.length < u64Max) (h : ChainedBack data secs)
    (hne : secs ≠ []) (hlast : ∀ s ∈ secs.head?, s.descOffset + 64 = data.length) :
    collectEwf2Descriptors data =
      .ok (secs.reverse.map fun t => descriptorAt data t.descOffset) := by
  obtain ⟨s, rest, rfl⟩ := List.exists_cons_of_ne_nil hne
  have hend := hlast s rfl
  have hstart : data.length - ewf2SectionDescriptorSize = s.descOffset := by
    rw [← hend]
    exact Nat.add_sub_cancel _ _
  have hvisits := @ChainedBack.visits_collect data s hdata rest h (data.length + 1) (by omega) []
    fun p hp => by cases hp
  have hmap : ((s :: rest).map fun t => Except.ok (descriptorAt data t.descOffset)).mapM id =
      (.ok ((s :: rest).map fun t => descriptorAt data t.descOffset) :
        Except EwfError (List Ewf2SectionDescriptor)) := by
    rw [mapM_eq_ok_iff, List.forall₂_map_left_iff, List.forall₂_map_right_iff,
      List.forall₂_same]
    exact fun _ _ => rfl
  have hlong : ¬ data.length < 64 := by omega
  rw [collectEwf2Descriptors, if_neg hlong, ewf2Walk, hstart, hvisits, hmap, List.map_reverse]
  rfl

/-- The front of a section's body is read. -/
theorem SectionV2.StandsIn.readExact_body (hdata : data.length < u64Max) (h : s.StandsIn data)
    {n : ℕ} (hn : n ≤ s.dataSize) :
    readExact data (descriptorAt data s.descOffset).start n = .ok (s.content.take n) := by
  have hdesc := (h.describedBy hdata).2
  have hstart : (descriptorAt data s.descOffset).start = s.bodyStart := by
    rw [Ewf2SectionDescriptor.start, hdesc.offset, hdesc.dataSize]
    rfl
  have hfront : HasAt data s.bodyStart (s.content.take n ++ s.content.drop n) := by
    rw [List.take_append_drop]
    exact h.body
  obtain ⟨hroom, hwin⟩ := hasAt_iff.mp hfront.left
  have hlen : (s.content.take n).length = n := by
    rw [List.length_take, h.size, min_eq_left hn]
  rw [hlen] at hroom hwin
  rw [hstart, readExact, if_pos (.inr hroom), readAtMost, hwin]

/-- The text bytes of a section are read from its body. -/
theorem SectionV2.StandsIn.sectionText_eq {C : Crates} (hdata : data.length < u64Max)
    (h : s.StandsIn data) (name : String) :
    ewf2SectionText C data name (descriptorAt data s.descOffset) =
      maybeZlibDecompress C s.content := by
  have hdesc := (h.describedBy hdata).2
  have hin := h.inFile
  have hoff := (@dataOffset_eq_ok_iff (descriptorAt data s.descOffset) name _).mpr
    ⟨by rw [hdesc.dataSize, hdesc.offset]; omega, rfl⟩
  have hbody := h.readExact_body hdata le_rfl
  rw [List.take_of_length_le h.size.le] at hbody
  rw [ewf2SectionText, hoff, hdesc.dataSize]
  change (readExact data (descriptorAt data s.descOffset).start s.dataSize).bind _ = _
  rw [hbody]
  rfl

/-- A stored digest is read from the front of its section. -/
theorem SectionV2.StandsIn.storedHash_eq (hdata : data.length < u64Max) (h : s.StandsIn data)
    {n : ℕ} (hn : n ≤ s.dataSize) (name : String) :
    ewf2StoredHash n data name (descriptorAt data s.descOffset) =
      .ok (Digest.bytesAt n (s.content.take n) 0) := by
  have hdesc := (h.describedBy hdata).2
  have hin := h.inFile
  have hoff := (@dataOffset_eq_ok_iff (descriptorAt data s.descOffset) name _).mpr
    ⟨by rw [hdesc.dataSize, hdesc.offset]; omega, rfl⟩
  rw [ewf2StoredHash, hoff]
  change (readExact data (descriptorAt data s.descOffset).start n).bind _ = _
  rw [h.readExact_body hdata hn]
  rfl

/-! ### Tables -/

/-- The entry that the reader takes for a chunk. -/
def PlacedChunk.tableEntry (c : PlacedChunk) : Ewf2TableEntry :=
  ⟨c.offset, c.bytes.length + 4, c.flags⟩

/-- A table that fits is read. -/
theorem exists_handleSectorTable {segIdx : ℕ} {d : Ewf2SectionDescriptor} (h : TableFits data d)
    (st : OpenState) : ∃ st', handleSectorTable segIdx data st d = .ok st' := by
  have hoff := (@dataOffset_eq_ok_iff d "sector_table" _).mpr ⟨h.size_le, rfl⟩
  have hhdr : readExact data d.start 32 = .ok (readAtMost data d.start 32) :=
    if_pos (.inr h.header_le)
  have hcount : (ewf2HeaderAt data d).entryCount =
      (Ewf2TableHeader.ofBytes (readAtMost data d.start 32)).entryCount := rfl
  have hmax := h.count_le
  have hroom := h.entries_le
  rw [hcount] at hmax hroom
  have hentries : readExact data (d.start + 32)
      ((Ewf2TableHeader.ofBytes (readAtMost data d.start 32)).entryCount * ewf2TableEntrySize) =
        .ok (readAtMost data (d.start + 32)
          ((Ewf2TableHeader.ofBytes (readAtMost data d.start 32)).entryCount *
            ewf2TableEntrySize)) := by
    refine if_pos (.inr ?_)
    rw [Nat.mul_comm]
    exact hroom
  rw [handleSectorTable, hoff]
  change ∃ st', (readExact data d.start 32).bind _ = _
  rw [hhdr]
  change ∃ st', (if (Ewf2TableHeader.ofBytes (readAtMost data d.start 32)).entryCount >
    maxTableEntries then Except.error _ else
      (readExact data (d.start + 32) _).bind _) = _
  rw [if_neg (not_lt.mpr hmax)]
  rw [hentries]
  exact ⟨_, rfl⟩

/-- An entry is read from its bytes. -/
theorem ofBytes_entryBytes {c : PlacedChunk} (hoff : c.offset ≤ u64Max)
    (hsize : c.bytes.length + 4 ≤ u32Max) (hflags : c.flags ≤ u32Max) :
    Ewf2TableEntry.ofBytes c.entryBytes = c.tableEntry := by
  have hself : HasAt c.entryBytes 0 (toLE 8 c.offset ++ toLE 4 (c.bytes.length + 4) ++
      toLE 4 c.flags) := hasAt_self _
  have h0 := hself.left.left
  have h1 := hself.left.right
  have h2 := hself.right
  simp only [List.length_append, length_toLE, Nat.zero_add, Nat.reduceAdd] at h1 h2
  have hlen := length_entryBytes c
  have hmax : u64Max = 18446744073709551615 := rfl
  rw [Ewf2TableEntry.ofBytes, PlacedChunk.tableEntry,
    show leU64 c.entryBytes 0 = c.offset from h0.leAt (by omega) (Nat.lt_succ_of_le hoff),
    show leU32 c.entryBytes 8 = c.bytes.length + 4 from
      h1.leAt (by omega) (Nat.lt_succ_of_le hsize),
    show leU32 c.entryBytes 12 = c.flags from h2.leAt (by omega) (Nat.lt_succ_of_le hflags)]

/-- The entries of chunks are read from their bytes in a row. -/
theorem ewf2TableEntries_eq {chunks : List PlacedChunk}
    (h : ∀ c ∈ chunks, Ewf2TableEntry.ofBytes c.entryBytes = c.tableEntry) :
    ewf2TableEntries (chunks.flatMap PlacedChunk.entryBytes) chunks.length =
      chunks.map PlacedChunk.tableEntry := by
  refine List.ext_getElem? fun i => ?_
  rw [ewf2TableEntries, List.getElem?_map, List.getElem?_map]
  cases hi : chunks[i]? with
  | none =>
      have hle := List.getElem?_eq_none_iff.mp hi
      rw [List.getElem?_eq_none (by rwa [List.length_range])]
      rfl
  | some c =>
      have hlt := (List.getElem?_eq_some_iff.mp hi).1
      have hat := (hasAt_self (chunks.flatMap PlacedChunk.entryBytes)).flatMap
        (fun b _ => length_entryBytes b) hi
      have hwin := (hasAt_iff.mp hat).2
      rw [length_entryBytes, Nat.zero_add, Nat.mul_comm] at hwin
      rw [List.getElem?_range hlt, Option.map_some, Option.map_some]
      exact congrArg some ((congrArg Ewf2TableEntry.ofBytes hwin).trans
        (h c (List.mem_of_getElem? hi)))

/-- **A table of chunks** fits, and its entries are those of the chunks. -/
theorem SectionV2.StandsIn.table_eq {C : Crates} (hdata : data.length < u64Max)
    (h : s.StandsIn data) {chunks : List PlacedChunk} (hchunks : ChunksIn C data s.content chunks)
    (hcount : chunks.length ≤ maxTableEntries) :
    TableFits data (descriptorAt data s.descOffset) ∧
      (ewf2TableAt data (descriptorAt data s.descOffset)).entries =
        chunks.map PlacedChunk.tableEntry := by
  have hdesc := (h.describedBy hdata).2
  have hin := h.inFile
  have hbody := h.body.length_le
  have hsize := h.size
  obtain ⟨first, pad, tail, hfirst, hpad, hbytes⟩ := hchunks.table
  have hstart : (descriptorAt data s.descOffset).start = s.bodyStart := by
    rw [Ewf2SectionDescriptor.start, hdesc.offset, hdesc.dataSize]
    rfl
  have hflat : (chunks.flatMap PlacedChunk.entryBytes).length = 16 * chunks.length := by
    simp [List.length_flatMap, Nat.mul_comm]
  have hat := h.body
  rw [hbytes] at hat
  have hnum := hat.left.left.left.left.right
  have hentries := hat.left.left.right
  have hsplit : toLE 8 chunks.length =
      toLE 4 chunks.length ++ toLE 4 (chunks.length / 4294967296) := by
    simp [toLE, Nat.div_div_eq_div_mul]
  rw [hsplit] at hnum
  have hnum := hnum.left
  simp only [List.length_append, length_toLE, hfirst, hpad, Nat.reduceAdd] at hnum hentries
  have hroom := hentries.length_le
  rw [hflat] at hroom
  rw [← hstart] at hnum hentries hroom hbody
  -- The number of entries stands in the header, at its eighth byte.
  have hheader : (ewf2HeaderAt data (descriptorAt data s.descOffset)).entryCount =
      chunks.length := by
    have hmax : u64Max = 18446744073709551615 := rfl
    have hmax' : maxTableEntries = 4000000 := rfl
    have hwin := @leAt_window data (descriptorAt data s.descOffset).start 32 4 8 (by omega)
      (by omega) (by decide)
    exact hwin.trans (hnum.leAt hdata.le (by omega))
  refine ⟨⟨?_, by omega, by rw [hheader]; exact hcount, by rw [hheader]; omega⟩, ?_⟩
  · rw [hdesc.dataSize, hdesc.offset]
    omega
  · have hwin := (hasAt_iff.mp hentries).2
    rw [hflat, Nat.mul_comm] at hwin
    rw [ewf2TableAt]
    simp only [hheader]
    refine (congrArg (ewf2TableEntries · chunks.length) hwin).trans (ewf2TableEntries_eq ?_)
    intro c hc
    have hstands := hchunks.chunk c hc
    have hle := hstands.stands.length_le
    exact ofBytes_entryBytes (by omega) hstands.size_le hstands.flags_le

end Sections

/-! ### Segments -/

/-- Device information that declares a geometry: a section text, raw or as a zlib stream. -/
inductive DeviceInfo (C : Crates) (g : Ewf2Geometry) (body : List UInt8) : Prop where
  | raw (t : SectionText) (h : t.Declares g) (hbody : body = utf16Text t.text)
      (hmagic : body.headD 0 ≠ 0x78)
  | zlib (t : SectionText) (h : t.Declares g)
      (hstream : Zlib.IsStream C.zlib body (utf16Text t.text)) (hmagic : body.headD 0 = 0x78)
      (hlong : 2 ≤ body.length) (hsize : (utf16Text t.text).length ≤ maxDecompressedSize)

/-- A segment has what the reader needs: its device information declares the geometry, and its
table is not too long. -/
structure SegmentV2.ReadsAs (C : Crates) (g : Ewf2Geometry) (s : SegmentV2) : Prop where
  deviceInfo : ∀ t ∈ s.sections, t.sectionType = 1 →
    t.content.length < maxSectionDataSize ∧ DeviceInfo C g t.content
  count_le : s.chunks.length ≤ maxTableEntries

/-- The types of sections that the reader handles. -/
theorem fromU32_cases (n : ℕ) :
    (Ewf2SectionType.fromU32 n = .caseData → n = evf2TypeMediaInfo) ∧
      (Ewf2SectionType.fromU32 n = .deviceInfo ↔ n = 1) ∧
      (Ewf2SectionType.fromU32 n = .sectorTable ↔ n = evf2TypeChunkTable) := by
  refine ⟨fun h => ?_, ⟨fun h => ?_, fun h => by rw [h]; rfl⟩,
    ⟨fun h => ?_, fun h => by rw [h]; rfl⟩⟩ <;>
  · unfold Ewf2SectionType.fromU32 at h
    split at h <;> first | rfl | cases h

/-- The types of the sections that store a digest the reader keeps. -/
theorem fromU32_hashes (n : ℕ) :
    (Ewf2SectionType.fromU32 n = .md5Hash ↔ n = evf2TypeMd5Hash) ∧
      (Ewf2SectionType.fromU32 n = .sha1Hash ↔ n = evf2TypeSha1Hash) := by
  refine ⟨⟨fun h => ?_, fun h => by rw [h]; rfl⟩, ⟨fun h => ?_, fun h => by rw [h]; rfl⟩⟩ <;>
  · unfold Ewf2SectionType.fromU32 at h
    split at h <;> first | rfl | cases h

section Segments

variable {C : Crates} {num k : ℕ} {data : List UInt8} {s : SegmentV2} {g : Ewf2Geometry}
  {body : List UInt8}

theorem DeviceInfo.text_eq (h : DeviceInfo C g body) :
    body ≠ [] ∧ ∃ raw, maybeZlibDecompress C body = .ok raw ∧ ewf2Geometry raw = some g := by
  cases h with
  | raw t h hbody hmagic =>
      have hlong := two_le_length_utf16Text t.text_ne
      refine ⟨fun hnil => by rw [← hbody, hnil] at hlong; simp at hlong, body, ?_, ?_⟩
      · rw [maybeZlibDecompress, if_neg fun hzlib => hmagic hzlib.2]
      · rw [hbody, h.ewf2Geometry_eq]
  | zlib t h hstream hmagic hlong hsize =>
      refine ⟨fun hnil => by rw [hnil] at hlong; simp at hlong, utf16Text t.text, ?_,
        h.ewf2Geometry_eq⟩
      have hread := hstream.readUpTo maxDecompressedSize []
      rw [List.append_nil, List.take_of_length_le hsize] at hread
      rw [maybeZlibDecompress, if_pos ⟨hlong, hmagic⟩, hread]

theorem MediaInfo.text_eq (h : MediaInfo C body) :
    ∃ raw, maybeZlibDecompress C body = .ok raw := by
  obtain ⟨-, text, hstream⟩ := h
  have hread := hstream.readUpTo maxDecompressedSize []
  rw [List.append_nil] at hread
  rw [maybeZlibDecompress]
  split_ifs
  · rw [hread]
    exact ⟨_, rfl⟩
  · exact ⟨_, rfl⟩

/-- **No section of a segment is an error.** -/
theorem SegmentV2.Conforms.reads (h : s.Conforms C num data) (hg : s.ReadsAs C g)
    (hdata : data.length < u64Max) {t : SectionV2} (ht : t ∈ s.sections) (st : OpenState) :
    ∃ st', handleDescriptorV2 C k data st (descriptorAt data t.descOffset) = .ok st' := by
  have hstands := h.chained.standsIn ht
  have hdesc := (hstands.describedBy hdata).2
  have hplain : ¬ (descriptorAt data t.descOffset).isEncrypted = true := by
    rw [Ewf2SectionDescriptor.isEncrypted, hdesc.dataFlags]
    have := h.plain t ht
    rw [Ewf2Section.encrypted] at this
    rw [this]
    exact Bool.false_ne_true
  obtain ⟨hcase, hdevice, htable⟩ := fromU32_cases t.sectionType
  rw [← hdesc.sectionType] at hcase hdevice htable
  rw [handleDescriptorV2, if_neg hplain]
  split
  · next htype =>
      obtain ⟨raw, hraw⟩ := (h.mediaInfo t ht (hcase htype)).text_eq
      rw [handleCaseData, hstands.sectionText_eq hdata, hraw]
      split_ifs <;> exact ⟨_, rfl⟩
  · next htype =>
      obtain ⟨-, raw, hraw, -⟩ := (hg.deviceInfo t ht (hdevice.mp htype)).2.text_eq
      rw [handleDeviceInfo, hstands.sectionText_eq hdata, hraw]
      split_ifs <;> exact ⟨_, rfl⟩
  · next htype =>
      obtain ⟨t', -, -, honly, hchunks⟩ := h.table
      obtain rfl := honly t ht (htable.mp htype)
      exact exists_handleSectorTable (hstands.table_eq hdata hchunks hg.count_le).1 st
  · rw [handleMd5Hash, hdesc.dataSize]
    split_ifs with hroom
    · rw [hstands.storedHash_eq hdata hroom]
      exact ⟨_, rfl⟩
    · exact ⟨_, rfl⟩
  · rw [handleSha1Hash, hdesc.dataSize]
    split_ifs with hroom
    · rw [hstands.storedHash_eq hdata hroom]
      exact ⟨_, rfl⟩
    · exact ⟨_, rfl⟩
  · exact ⟨_, rfl⟩

/-- The reader collects the sections of a segment. -/
theorem SegmentV2.Conforms.descriptors_eq (h : s.Conforms C num data)
    (hdata : data.length < u64Max) :
    collectEwf2Descriptors data =
        .ok (s.sections.reverse.map fun t => descriptorAt data t.descOffset) ∧
      ewf2Descriptors data = s.sections.reverse.map fun t => descriptorAt data t.descOffset := by
  have hcollect := h.chained.collect_eq hdata h.sections_ne h.last
  exact ⟨hcollect, by rw [ewf2Descriptors, hcollect]⟩

/-- **A segment is opened** from any state. -/
theorem SegmentV2.Conforms.exists_open {f : Segment} (h : s.Conforms C num f.data)
    (hg : s.ReadsAs C g) (st : OpenState) : ∃ st', openSegmentV2 C st (f, k) = .ok st' := by
  have hdata := f.length_lt_u64Max
  rw [openSegmentV2, (h.descriptors_eq hdata).1]
  refine Fold.exists_foldlM (fun d hd st => ?_) st
  obtain ⟨t, ht, rfl⟩ := List.mem_map.mp hd
  exact h.reads hg hdata (List.mem_reverse.mp ht) st

/-- The geometries that a segment declares are that of the acquisition. -/
theorem SegmentV2.Conforms.geometryAt_eq (h : s.Conforms C num data) (hg : s.ReadsAs C g)
    (hdata : data.length < u64Max) {t : SectionV2} (ht : t ∈ s.sections) :
    ewf2GeometryAt C data (descriptorAt data t.descOffset) =
      if t.sectionType = 1 then some g else none := by
  have hstands := h.chained.standsIn ht
  have hdesc := (hstands.describedBy hdata).2
  have hdevice := (fromU32_cases t.sectionType).2.1
  rw [← hdesc.sectionType] at hdevice
  rw [ewf2GeometryAt, hdesc.dataSize, hstands.sectionText_eq hdata]
  by_cases htype : t.sectionType = 1
  · obtain ⟨hlt, hinfo⟩ := hg.deviceInfo t ht htype
    obtain ⟨hne, raw, hraw, hgeom⟩ := hinfo.text_eq
    have hpos := List.length_pos_of_ne_nil hne
    rw [hstands.size] at hlt hpos
    rw [if_pos ⟨hdevice.mpr htype, hpos, hlt⟩, if_pos htype, hraw]
    exact hgeom
  · rw [if_neg fun hc => htype (hdevice.mp hc.1), if_neg htype]

/-- The sections of a chain stand at different places. -/
theorem ChainedBack.pairwise {secs : List SectionV2} (h : ChainedBack data secs) :
    secs.Pairwise fun a b => b.descOffset < a.descOffset := by
  induction secs with
  | nil => exact .nil
  | cons a rest ih =>
      cases rest with
      | nil => exact List.pairwise_singleton _ _
      | cons b rest =>
          obtain ⟨-, -, hlt, hrest⟩ := h
          have hpair := ih hrest
          refine List.pairwise_cons.mpr ⟨fun c hc => ?_, hpair⟩
          rcases List.mem_cons.mp hc with rfl | hc
          · exact hlt
          · exact ((List.pairwise_cons.mp hpair).1 c hc).trans hlt

/-- **The table of a segment** lists its chunks. -/
theorem SegmentV2.Conforms.tables_eq (h : s.Conforms C num data) (hg : s.ReadsAs C g)
    (hdata : data.length < u64Max) :
    (ewf2Tables data).map Ewf2Table.entries = [s.chunks.map PlacedChunk.tableEntry] := by
  obtain ⟨t, ht, htype, honly, hchunks⟩ := h.table
  have htable : ∀ u ∈ s.sections.reverse,
      (descriptorAt data u.descOffset).isTable = true ↔ u = t := by
    intro u hu
    have hu := List.mem_reverse.mp hu
    have hkind := (fromU32_cases u.sectionType).2.2
    rw [← ((h.chained.standsIn hu).describedBy hdata).2.sectionType] at hkind
    rw [Ewf2SectionDescriptor.isTable, decide_eq_true_eq, hkind]
    exact ⟨honly u hu, fun heq => heq ▸ htype⟩
  have hnodup : s.sections.reverse.Nodup :=
    List.nodup_reverse.mpr (h.chained.pairwise.imp fun hlt heq => by rw [heq] at hlt; omega)
  have hfilter : s.sections.reverse.filter
      (fun u => (descriptorAt data u.descOffset).isTable) = [t] := by
    refine List.perm_singleton.mp
      ((List.perm_ext_iff_of_nodup (hnodup.filter _) (List.nodup_singleton _)).mpr fun u => ?_)
    rw [List.mem_filter, List.mem_singleton]
    refine ⟨fun hu => (htable u hu.1).mp hu.2, ?_⟩
    rintro rfl
    exact ⟨List.mem_reverse.mpr ht, (htable u (List.mem_reverse.mpr ht)).mpr rfl⟩
  have hentries := ((h.chained.standsIn ht).table_eq hdata hchunks hg.count_le).2
  rw [ewf2Tables, (h.descriptors_eq hdata).2, List.filter_map]
  change ((List.map _ (s.sections.reverse.filter _)).map _).map _ = _
  rw [show s.sections.reverse.filter ((fun d : Ewf2SectionDescriptor => d.isTable) ∘
    fun t => descriptorAt data t.descOffset) = [t] from hfilter]
  exact congrArg (fun entries => [entries]) hentries

end Segments

end EwfForensic.Image

import EwfForensic.Forensic.StoredHash
import EwfForensic.Image.Chain
import EwfForensic.Image.Tables

/-!
# Analysing a Written Segment

What the v1 analysis finds in a segment whose sections stand one after the other, whoever wrote
them and whatever fills their padding.

* `Chained` — a byte string is a segment of the given sections: a chain of sound descriptors,
  each followed by its body, up to a last `next` or `done`.
* `Chained.walkSectionsV1_eq`, `Chained.walkIssuesV1_eq` — the walk records these sections and
  reports nothing.
* `Indexed`, `Indexed.leadingRanges_eq` — a table that lists the chunks of its sectors section
  gives the range of each of them.
* `hashLoop_of_stored` — the hash loop decodes stored chunks to their data.
-/

namespace EwfForensic.Image

open Octets

/-! ### Sound descriptors -/

/-- A sound descriptor with the given fields stands at `pos`. -/
def DescribedAt (data : List UInt8) (pos : ℕ) (t : SectionType) (next size : ℕ) : Prop :=
  ∃ raw, slice? data pos (pos + 76) = some raw ∧
    SectionDescriptor.ofBytes raw pos = ⟨t, next, size, pos, adler32 (raw.take 72)⟩

/-- A written descriptor is sound. -/
theorem describedAt_of_hasAt {data : List UInt8} {pos next size : ℕ} {t : SectionType}
    (ht : t ∈ knownTypes) (hnext : next ≤ u64Max) (hsize : size ≤ u64Max)
    (h : HasAt data pos (descriptorBytes t next size)) : DescribedAt data pos t next size := by
  have hs := h.slice?
  rw [length_descriptorBytes ht] at hs
  refine ⟨_, hs, ?_⟩
  rw [ofBytes_descriptorBytes ht hnext hsize, descriptorBytes,
    List.take_left' (length_descriptorFront ht)]

/-- One turn of the walk at a sound descriptor of a known type. -/
theorem walkStep_of_described {data : List UInt8} {pos next size : ℕ} {t : SectionType}
    (h : DescribedAt data pos t next size) (ht : t ∈ knownTypes) (hdata : data.length < u64Max) :
    walkStep data pos =
      if t = .done ∨ t = .next then some ((⟨t, pos, size⟩, []), none)
      else if next = 0 ∨ next > data.length ∨ next ≤ pos then
        some ((⟨t, pos, size⟩, [.sectionChainBroken pos next]), none)
      else some ((⟨t, pos, size⟩, gapIssues data (satAdd pos size) next), some next) := by
  obtain ⟨raw, hraw, hdesc⟩ := h
  have hle := (slice?_eq_some_iff.mp hraw).2.1
  have hlen : raw.length = 76 := by
    rw [length_of_slice? hraw]
    omega
  have hcrc : descriptorIssues raw ⟨t, next, size, pos, adler32 (raw.take 72)⟩ = [] := by
    have hfront : slice? raw 0 sectionDescriptorCrcOffset = some (raw.take 72) := by
      rw [slice?_of_le (Nat.zero_le _) (by rw [hlen]; decide)]
      rfl
    rw [descriptorIssues, SectionDescriptor.verifyCrc, hfront]
    simp [ht]
  have hend : satAdd pos sectionDescriptorSize = pos + 76 :=
    @satAdd_eq pos 76 (by omega)
  rw [walkStep, hend, hraw]
  simp only [SectionDescriptor.parse_of_le (show sectionDescriptorSize ≤ raw.length from hlen.ge),
    hdesc, hcrc, List.nil_append]

/-! ### Chains of sections -/

/-- `data` is a segment with number `num` and the sections `secs`, one after the other from the
file header on: each is a sound descriptor that points to the next one, and a body. Behind them
stands a `done` in the last segment and a `next` in the others. -/
structure Chained (num : ℕ) (last : Bool) (secs : List RawSection) (data : List UInt8) :
    Prop where
  signature : data.take 8 ∈ [evfSignature, dvfSignature, lvfSignature]
  number : leU16 data 9 = num
  known : ∀ s ∈ secs, s.type ∈ knownTypes ∧ s.type ≠ .done ∧ s.type ≠ .next
  described : ∀ q ∈ placeSections 13 secs,
    DescribedAt data q.1 q.2.type (q.1 + q.2.size) q.2.size ∧ HasAt data (q.1 + 76) q.2.body
  terminal : ∃ next size, DescribedAt data (13 + sectionsSize secs) (terminalType last) next size
  length_lt : data.length < 9223372036854775808

section Chain

variable {num : ℕ} {last : Bool} {secs : List RawSection} {data : List UInt8}

theorem Chained.length_lt_u64Max (h : Chained num last secs data) : data.length < u64Max := by
  have := h.length_lt
  rw [u64Max]
  omega

/-- The sections end a descriptor before the end of the segment. -/
theorem Chained.sectionsSize_le (h : Chained num last secs data) :
    13 + sectionsSize secs + 76 ≤ data.length := by
  obtain ⟨next, size, raw, hraw, -⟩ := h.terminal
  exact (slice?_eq_some_iff.mp hraw).2.1

theorem Chained.fileHeaderSize_le (h : Chained num last secs data) :
    fileHeaderSize ≤ data.length := by
  have := h.sectionsSize_le
  change 13 ≤ _
  omega

theorem Chained.section_bounds (h : Chained num last secs data) {q : ℕ × RawSection}
    (hq : q ∈ placeSections 13 secs) : 13 ≤ q.1 ∧ q.1 + q.2.size + 76 ≤ data.length := by
  have := placeSections_bounds hq
  have := h.sectionsSize_le
  omega

/-- **The walk of a chain** records its sections and the last descriptor, and reports
nothing. -/
theorem Chained.walkTrace_eq (h : Chained num last secs data) :
    ∃ size, walkTrace data = (placeSections 13 secs).map (fun q => (sectionOf q, [])) ++
      [(⟨terminalType last, 13 + sectionsSize secs, size⟩, [])] := by
  obtain ⟨next, size, hterm⟩ := h.terminal
  have hdata := h.length_lt_u64Max
  have hstep : ∀ q ∈ placeSections 13 secs,
      walkStep data q.1 = some ((sectionOf q, []), some (q.1 + q.2.size)) := by
    intro q hq
    obtain ⟨hk, hnd, hnn⟩ := h.known q.2 (mem_of_mem_placeSections hq)
    have hb := h.section_bounds hq
    have hpos : 0 < q.2.size := by
      rw [RawSection.size]
      omega
    have hend : satAdd q.1 q.2.size = q.1 + q.2.size := satAdd_eq (by omega)
    rw [walkStep_of_described (h.described q hq).1 hk hdata, if_neg (by simp [hnd, hnn]),
      if_neg (by omega), hend, gapIssues, if_neg (lt_irrefl _)]
    rfl
  have hlast : walkStep data (13 + sectionsSize secs) =
      some ((⟨terminalType last, 13 + sectionsSize secs, size⟩, []), none) := by
    rw [walkStep_of_described hterm (terminalType_mem last) hdata, if_pos]
    cases last
    · exact Or.inr rfl
    · exact Or.inl rfl
  have hfuel : secs.length ≤ data.length := by
    have := length_le_sectionsSize secs
    have := h.sectionsSize_le
    omega
  refine ⟨size, ?_⟩
  rw [walkTrace, show data.length + 1 = secs.length + (data.length - secs.length + 1) by omega,
    show fileHeaderSize = 13 from rfl, visits_placeSections hstep, Loop.visits_of_last hlast]

theorem Chained.walkSectionsV1_eq (h : Chained num last secs data) :
    ∃ size, walkSectionsV1 data = (placeSections 13 secs).map sectionOf ++
      [⟨terminalType last, 13 + sectionsSize secs, size⟩] := by
  obtain ⟨size, hwalk⟩ := h.walkTrace_eq
  refine ⟨size, ?_⟩
  rw [walkSectionsV1, hwalk, List.map_append, List.map_map]
  rfl

theorem Chained.walkIssuesV1_eq (h : Chained num last secs data) : walkIssuesV1 data = [] := by
  obtain ⟨size, hwalk⟩ := h.walkTrace_eq
  rw [walkIssuesV1, hwalk, List.flatMap_append, List.flatMap_map]
  simp

/-- The first section of a type that ends no chain. -/
theorem Chained.findSection_eq (h : Chained num last secs data) {t : SectionType}
    (hd : t ≠ .done) (hn : t ≠ .next) : findSection (walkSectionsV1 data) t =
      ((placeSections 13 secs).find? fun q => q.2.type = t).map sectionOf := by
  obtain ⟨size, hwalk⟩ := h.walkSectionsV1_eq
  have hterm : terminalType last ≠ t := by
    cases last
    · exact hn.symm
    · exact hd.symm
  have hfun : ((fun sec : Section => decide (sec.typeName = t)) ∘ sectionOf) =
      fun q : ℕ × RawSection => decide (q.2.type = t) := rfl
  rw [hwalk, findSection, List.find?_append, List.find?_map, hfun,
    List.find?_cons_of_neg (by simpa using hterm), List.find?_nil, Option.or_none]

/-- The first geometry section. -/
theorem Chained.findVolume_eq (h : Chained num last secs data) :
    findVolume (walkSectionsV1 data) = ((placeSections 13 secs).find? fun q =>
      q.2.type = .volume ∨ q.2.type = .disk).map sectionOf := by
  obtain ⟨size, hwalk⟩ := h.walkSectionsV1_eq
  have hterm : ¬ (terminalType last = .volume ∨ terminalType last = .disk) := by
    cases last <;> decide
  have hfun : ((fun sec : Section => decide (sec.typeName = .volume ∨ sec.typeName = .disk)) ∘
      sectionOf) =
        fun q : ℕ × RawSection => decide (q.2.type = .volume ∨ q.2.type = .disk) := rfl
  rw [hwalk, findVolume, List.find?_append, List.find?_map, hfun,
    List.find?_cons_of_neg (by simpa using hterm), List.find?_nil, Option.or_none]

/-- The last segment has a `done`. -/
theorem Chained.findSection_done (h : Chained num true secs data) :
    (findSection (walkSectionsV1 data) .done).isSome := by
  obtain ⟨size, hwalk⟩ := h.walkSectionsV1_eq
  rw [hwalk, findSection, List.find?_isSome]
  exact ⟨_, List.mem_append_right _ (List.mem_singleton_self _), by simp [terminalType]⟩

end Chain

/-- **A written segment is a chain.** -/
theorem chained_encodeSegment {num termNext : ℕ} {last : Bool} {secs : List RawSection}
    (hk : ∀ s ∈ secs, s.type ∈ knownTypes ∧ s.type ≠ .done ∧ s.type ≠ .next)
    (hnum : num < 65536) (hnext : termNext ≤ u64Max)
    (hlen : (encodeSegment num secs (terminalType last) termNext).length < 9223372036854775808) :
    Chained num last secs (encodeSegment num secs (terminalType last) termNext) := by
  have hknown := fun s hs => (hk s hs).1
  obtain ⟨hheader, hsecs, hterm⟩ :=
    @hasAt_encodeSegment num secs (terminalType last) termNext hknown
  have hmax : (encodeSegment num secs (terminalType last) termNext).length ≤ u64Max := by
    rw [u64Max]
    omega
  refine ⟨?_, ?_, hk, fun q hq => ?_, ⟨termNext, 76, ?_⟩, hlen⟩
  · have h := (hasAt_iff.mp hheader.left.left.left).2
    rw [List.drop_zero, show evfSignature.length = 8 from rfl] at h
    rw [h]
    exact List.mem_cons_self ..
  · exact hheader.left.right.leAt hmax (by omega)
  · have hb := placeSections_bounds hq
    have hle := hterm.length_le
    obtain ⟨hdesc, hbody⟩ := hasAt_placeSections hknown hsecs hq
    exact ⟨describedAt_of_hasAt (hknown q.2 (mem_of_mem_placeSections hq)) (by omega) (by omega)
      hdesc, hbody⟩
  · exact describedAt_of_hasAt (terminalType_mem last) hnext (by decide) hterm

theorem Encoded.chained {s : SegmentLayout} {num : ℕ} {last : Bool} {data : List UInt8}
    (w : Encoded s num last data) (hnum : num < 65536) (hnext : s.nextField ≤ u64Max) :
    Chained num last s.sections data := by
  obtain rfl := w.eq
  exact chained_encodeSegment (w.plain.type_known 13) hnum hnext w.length_lt

/-! ### Tables -/

/-- The range of a located chunk. -/
def rangeOf (c : ℕ × Stored) : ChunkRange := ⟨c.1, c.1 + c.2.bytes.length, c.2.compressed⟩

/-- The table section at `table` lists the chunks that the sectors section at `sectors`
holds. -/
structure Indexed (data : List UInt8) (table sectors : Section) (chunks : List Stored) :
    Prop where
  count : leU32 data (table.offset + 76) = chunks.length
  room : table.offset + 100 + 4 * chunks.length ≤ data.length
  entry : ∀ i c, (locate (sectors.offset + 76) chunks)[i]? = some c →
    ∃ e, tableEntry data table i = some e ∧
      leU64 data (table.offset + 84) + e.chunkOffset = c.1 ∧ e.compressed = c.2.compressed
  body : HasAt data (sectors.offset + 76) (chunks.flatMap Stored.bytes)
  size : sectors.size = 76 + (chunks.flatMap Stored.bytes).length
  pos : ∀ c ∈ chunks, 0 < c.bytes.length

section Tables

variable {data : List UInt8} {table sectors : Section} {chunks : List Stored}

/-- The entry of a chunk gives its range. -/
theorem Indexed.describedRange_eq (h : Indexed data table sectors chunks) {i : ℕ} {c : ℕ × Stored}
    (hc : (locate (sectors.offset + 76) chunks)[i]? = some c) :
    describedRange data table sectors i = some (rangeOf c) := by
  obtain ⟨e, he, hstart, hflag⟩ := h.entry i c hc
  have hmem := List.mem_of_getElem? hc
  obtain ⟨-, -, hend⟩ := hasAt_locate h.body hmem
  have hle := h.body.length_le
  have hnonempty := h.pos c.2 (by
    rw [← map_snd_locate (sectors.offset + 76) chunks]
    exact List.mem_map_of_mem hmem)
  obtain ⟨hnext, hlast⟩ := locate_end hc
  have hi : i < chunks.length := by
    have := (List.getElem?_eq_some_iff.mp hc).1
    rwa [length_locate] at this
  have hstop : tableStop data table sectors i = some (c.1 + c.2.bytes.length) := by
    rw [tableStop, h.count]
    by_cases hi' : i + 1 < chunks.length
    · have hlt : i + 1 < (locate (sectors.offset + 76) chunks).length := by
        rwa [length_locate]
      obtain ⟨e', he', hstart', -⟩ := h.entry (i + 1) _ (List.getElem?_eq_getElem hlt)
      rw [if_pos hi', tableTarget, he', Option.map_some, hstart',
        hnext _ (List.getElem?_eq_getElem hlt)]
    · have hsize := h.size
      have hstop := hlast (by omega)
      rw [if_neg hi', Nat.min_eq_left (by omega)]
      congr 1
      omega
  rw [describedRange, he, hstop]
  simp only [hstart, hflag]
  rw [if_pos (by omega)]
  rfl

/-- **The chunk ranges of a segment** are those of its chunks. -/
theorem Indexed.leadingRanges_eq (h : Indexed data table sectors chunks)
    (htable : findSection (walkSectionsV1 data) .table = some table)
    (hsectors : findSection (walkSectionsV1 data) .sectors = some sectors) :
    leadingRanges data = (locate (sectors.offset + 76) chunks).map rangeOf := by
  have hranges : (List.range chunks.length).map (describedRange data table sectors) =
      ((locate (sectors.offset + 76) chunks).map rangeOf).map some := by
    apply List.ext_getElem?
    intro i
    rw [List.map_map, List.getElem?_map, List.getElem?_map]
    by_cases hi : i < chunks.length
    · have hi' : i < (locate (sectors.offset + 76) chunks).length := by rwa [length_locate]
      rw [List.getElem?_range hi, Option.map_some, h.describedRange_eq
        (List.getElem?_eq_getElem hi'), List.getElem?_eq_getElem hi']
      rfl
    · rw [List.getElem?_eq_none (by rw [List.length_range]; omega),
        List.getElem?_eq_none (by rw [length_locate]; omega)]
      rfl
  have hroom := h.room
  rw [leadingRanges, htable, hsectors]
  simp only
  rw [if_pos (by omega), h.count, hranges, Loop.reduceOption_takeWhile_map_some]

/-- The bytes of a chunk's range are those it is stored as. -/
theorem Indexed.raw_eq (h : Indexed data table sectors chunks) {c : ℕ × Stored}
    (hc : c ∈ locate (sectors.offset + 76) chunks) : (rangeOf c).raw data = c.2.bytes := by
  have hat := (hasAt_iff.mp (hasAt_locate h.body hc).1).2
  rw [ChunkRange.raw, rangeOf, Nat.add_sub_cancel_left]
  exact hat

end Tables

/-- A range and the byte string it lies in, naming the bytes of a stored chunk. -/
def Names (x : List UInt8 × ChunkRange) (c : Stored) : Prop :=
  x.2.raw x.1 = c.bytes ∧ x.2.compressed = c.compressed

/-- The chunks that the analysis finds in a segment: the ranges name them, and the first table
counts them. -/
structure AnalysedAs (data : List UInt8) (chunks : List Stored) : Prop where
  names : List.Forall₂ Names ((leadingRanges data).map (data, ·)) chunks
  counted : tableEntryCount data (walkSectionsV1 data) = chunks.length
  header : ∀ table, findSection (walkSectionsV1 data) .table = some table →
    leU32 (data.drop (satAdd table.offset sectionDescriptorSize)) 0 = chunks.length

/-- Without a table there are no chunks. -/
theorem analysedAs_nil {data : List UInt8} (h : findSection (walkSectionsV1 data) .table = none) :
    AnalysedAs data [] where
  names := by
    rw [leadingRanges, h]
    exact List.Forall₂.nil
  counted := by
    rw [tableEntryCount, h]
    rfl
  header table ht := by
    rw [h] at ht
    cases ht

/-- **The chunks of a segment** are those that its first table lists. -/
theorem Indexed.analysedAs {data : List UInt8} {table sectors : Section} {chunks : List Stored}
    (h : Indexed data table sectors chunks)
    (htable : findSection (walkSectionsV1 data) .table = some table)
    (hsectors : findSection (walkSectionsV1 data) .sectors = some sectors)
    (hdata : data.length < u64Max) : AnalysedAs data chunks := by
  have hroom := h.room
  have hoff : satAdd table.offset sectionDescriptorSize = table.offset + 76 :=
    @satAdd_eq _ 76 (by omega)
  have hsat : satAdd (table.offset + 76) 4 = table.offset + 76 + 4 := satAdd_eq (by omega)
  refine ⟨?_, ?_, fun table' ht => ?_⟩
  · have hchunks := map_snd_locate (sectors.offset + 76) chunks
    have hrow : List.Forall₂ Names
        (((locate (sectors.offset + 76) chunks).map rangeOf).map (data, ·))
        ((locate (sectors.offset + 76) chunks).map (·.2)) := by
      rw [List.map_map, List.forall₂_map_left_iff, List.forall₂_map_right_iff, List.forall₂_same]
      exact fun c hc => ⟨h.raw_eq hc, rfl⟩
    rwa [hchunks, ← h.leadingRanges_eq htable hsectors] at hrow
  · rw [tableEntryCount, htable]
    simp only [hoff, hsat]
    rw [if_pos (by omega)]
    exact h.count
  · obtain rfl : table = table' := Option.some.inj (htable.symm.trans ht)
    rw [hoff, leU32, leAt_drop (by omega) (by omega)]
    exact h.count

/-! ### Volumes -/

/-- The geometry that a volume body gives. -/
def geometryOf (body : List UInt8) : VolumeGeometry where
  chunkCount := (EwfVolume.ofBytes body).chunkCount
  sectorsPerChunk := (EwfVolume.ofBytes body).sectorsPerChunk
  bytesPerSector := (EwfVolume.ofBytes body).bytesPerSector
  sectorCount := (EwfVolume.ofBytes body).sectorCount
  setIdentifier := (EwfVolume.ofBytes body).setIdentifier

/-- A volume section is checked on its own body. -/
theorem checkVolumeV1_of_hasAt {data body : List UInt8} {off : ℕ}
    (hat : HasAt data (off + 76) body) (hbody : 24 ≤ body.length) (hdata : data.length < u64Max) :
    checkVolumeV1 data off (76 + body.length) =
      (some (geometryOf body), volumeIssues body (EwfVolume.ofBytes body)) := by
  have hle := hat.length_le
  have hs1 : satAdd off sectionDescriptorSize = off + 76 :=
    @satAdd_eq off 76 (by omega)
  have hs2 : satAdd (off + 76) volumeDataMin = off + 76 + 24 :=
    @satAdd_eq (off + 76) 24 (by omega)
  have hsub : 76 + body.length - sectionDescriptorSize = body.length := Nat.add_sub_cancel_left ..
  have hs3 : satAdd (off + 76) body.length = off + 76 + body.length := satAdd_eq (by omega)
  have hvol : volumeBody data off (76 + body.length) = body := by
    rw [volumeBody, hs1, hsub, hs3, Nat.min_eq_left hle, Nat.add_sub_cancel_left]
    exact (hasAt_iff.mp hat).2
  rw [checkVolumeV1]
  simp only [hs1, hs2, hvol, EwfVolume.parse_of_le hbody]
  rw [if_neg (by omega)]
  rfl

/-! ### Decoding stored chunks -/

/-- A stored zlib stream is a complete one, of the chunk and zeros behind it. -/
def Stored.Complete (C : Crates) (c : Stored) : Prop :=
  ∀ z pad, c.encoding = .zlib z pad →
    Zlib.IsStream C.zlib z (c.data ++ List.replicate pad 0) ∧ 0 < z.length

theorem Stored.Sound.complete {C : Crates} {chunkSize : ℕ} {c : Stored}
    (h : c.Sound C chunkSize) : c.Complete C :=
  fun z pad he => ⟨(h z pad he).1, (h z pad he).2.2⟩

section Hashing

variable {C : Crates} {chunkSize : ℕ}

/-- A stored chunk takes room on disk. -/
theorem Stored.Complete.bytes_pos {c : Stored} (h : c.Complete C) (hpos : 0 < c.data.length) :
    0 < c.bytes.length := by
  rw [Stored.bytes]
  cases he : c.encoding with
  | zlib z pad => exact (h z pad he).2
  | raw => exact hpos
  | rawAdler =>
      simp only [List.length_append]
      omega

/-- The hash loop decodes a stored chunk to its data. -/
theorem Stored.Complete.decodeForHash_eq {c : Stored} (h : c.Complete C)
    (hlen : c.data.length < u64Max) :
    decodeForHash C c.compressed c.bytes c.data.length = some c.data := by
  have hsat : satAdd c.data.length 1 = c.data.length + 1 := satAdd_eq (by omega)
  rw [decodeForHash, Stored.compressed, Stored.bytes]
  cases he : c.encoding with
  | zlib z pad =>
      have hread := (h z pad he).1.readUpTo (c.data.length + 1) []
      rw [List.append_nil] at hread
      rw [if_pos rfl, hsat, hread, Option.map_some, List.take_take,
        Nat.min_eq_left (Nat.le_succ _), List.take_left]
  | raw => rw [if_neg (by decide), List.take_length]
  | rawAdler => rw [if_neg (by decide), List.take_left]

/-- A stored chunk passes the test of its trailing checksum. -/
theorem chunkCrcIssues_of_stored {c : Stored} (hlen : c.data.length ≤ chunkSize)
    (hmax : chunkSize + 4 ≤ u64Max) (idx : ℕ) :
    chunkCrcIssues chunkSize idx c.compressed c.bytes = [] := by
  have hsat : satAdd chunkSize 4 = chunkSize + 4 := satAdd_eq hmax
  rw [chunkCrcIssues, Stored.compressed, Stored.bytes, hsat]
  cases he : c.encoding with
  | zlib z pad => rw [if_neg (by simp)]
  | raw =>
      simp only
      rw [if_neg (by omega)]
  | rawAdler =>
      simp only
      by_cases hfull : c.data.length = chunkSize
      · -- A full chunk: the checksum is where the test looks for it.
        have hat := (hasAt_self (c.data ++ toLE 4 (adler32 c.data))).right
        have hl : (c.data ++ toLE 4 (adler32 c.data)).length ≤ u64Max := by
          simp only [List.length_append, length_toLE]
          omega
        have hcrc : leU32 (c.data ++ toLE 4 (adler32 c.data)) c.data.length = adler32 c.data := by
          rw [Nat.zero_add] at hat
          exact hat.leAt hl (Adler32.checksum_lt _)
        rw [← hfull, hcrc, List.take_left, if_neg (not_not.mpr rfl), ite_self]
      · rw [if_neg]
        simp only [List.length_append, length_toLE]
        omega

/-- **The hash loop over stored chunks** feeds their data and reports nothing. -/
theorem hashLoop_of_stored {xs : List (List UInt8 × ChunkRange)} {chunks : List Stored}
    (h : List.Forall₂ Names xs chunks) (hsound : ∀ c ∈ chunks, c.Complete C)
    (hblocks : Blocks chunkSize (chunks.map Stored.data)) (hpos : 0 < chunkSize)
    (hmax : chunkSize + 4 ≤ u64Max) (total idx : ℕ) :
    (hashLoop C chunkSize total (chunks.map Stored.data).flatten.length idx xs).flatMap
        (·.fed) = (chunks.map Stored.data).flatten ∧
      (hashLoop C chunkSize total (chunks.map Stored.data).flatten.length idx xs).flatMap
        (·.issues) = [] := by
  induction h generalizing idx with
  | nil => exact ⟨rfl, rfl⟩
  | @cons x c xs chunks hx _ ih =>
      obtain ⟨hraw, hflag⟩ := hx
      obtain ⟨data, range⟩ := x
      have hdata := hblocks.length_le hpos c.data (List.mem_cons_self ..)
      have hspan : min (c.data.length + (chunks.map Stored.data).flatten.length) chunkSize =
          c.data.length := by
        have := @Blocks.getElem?_length _ _ _ hblocks 0 _ rfl
        simp only [List.map_cons, List.flatten_cons, List.length_append] at this
        omega
      have hdecode := (hsound c (List.mem_cons_self ..)).decodeForHash_eq (by omega)
      obtain ⟨ih1, ih2⟩ := ih (fun c' hc' => hsound c' (List.mem_cons_of_mem _ hc'))
        hblocks.tail (satAdd idx 1)
      simp only [List.map_cons, List.flatten_cons, List.length_append]
      rw [hashLoop, if_neg (by omega), hspan, Nat.add_sub_cancel_left]
      simp only [List.flatMap_cons, ih1, ih2]
      rw [hashChunk, hspan, hraw, hflag, hdecode, chunkCrcIssues_of_stored hdata.2 hmax]
      exact ⟨rfl, rfl⟩

end Hashing

/-! ### Whole images -/

section Files

variable {C : Crates} {files : List Segment} {chunkss : List (List Stored)}

/-- The ranges that the analysis finds name the chunks of all segments in order. -/
theorem names_of_analysed
    (h : List.Forall₂ (fun (src : Segment) cs => AnalysedAs src.data cs) files chunkss) :
    List.Forall₂ Names (allChunks (files.map (·.data)) ((files.map (·.data)).map walkSectionsV1))
      chunkss.flatten := by
  have hlen : ∀ d ∈ files.map (·.data), d.length < u64Max := by
    intro d hd
    obtain ⟨src, -, rfl⟩ := List.mem_map.mp hd
    exact src.length_lt_u64Max
  rw [allChunks_eq hlen, imageRanges, List.flatMap_map, List.flatMap_def]
  refine List.rel_flatten ?_
  rw [List.forall₂_map_left_iff]
  exact h.imp fun _ _ hs => hs.names

/-- The entries counted are those of all segments. -/
theorem totalTableEntries_of_analysed
    (h : List.Forall₂ (fun (src : Segment) cs => AnalysedAs src.data cs) files chunkss)
    (hlt : chunkss.flatten.length < 4294967296) :
    totalTableEntries (files.map (·.data)) = chunkss.flatten.length := by
  have hcounts : (files.map (·.data)).map (fun data => tableEntryCount data (walkSectionsV1 data)) =
      chunkss.map List.length := by
    rw [List.map_map, ← List.forall₂_eq_eq_eq, List.forall₂_map_left_iff,
      List.forall₂_map_right_iff]
    exact h.imp fun src s hs => hs.counted
  have hsum : (chunkss.map List.length).sum = chunkss.flatten.length := List.length_flatten.symm
  rw [totalTableEntries, scanSegments_tableEntries, hcounts, foldl_satAdd32_eq, hsum, Nat.zero_add]
  rw [hsum]
  rw [u32Max]
  omega

/-- **The stream of an image** whose chunks are those of a media byte string is the media, and
the hash loop reports nothing. -/
theorem hashedStream_of_analysed
    (h : List.Forall₂ (fun (src : Segment) cs => AnalysedAs src.data cs) files chunkss)
    {geom : VolumeGeometry} (hsound : ∀ c ∈ chunkss.flatten, c.Complete C)
    (hblocks : Blocks geom.chunkSize (chunkss.flatten.map Stored.data)) (hpos : 0 < geom.chunkSize)
    (hmax : geom.chunkSize + 4 ≤ u64Max)
    (htotal : geom.totalBytes = (chunkss.flatten.map Stored.data).flatten.length) :
    hashedStream C (files.map (·.data)) ((files.map (·.data)).map walkSectionsV1) geom =
        (chunkss.flatten.map Stored.data).flatten ∧
      (hashRun C (files.map (·.data)) ((files.map (·.data)).map walkSectionsV1) geom).flatMap
        (·.issues) = [] := by
  rw [hashedStream, hashRun, htotal]
  exact hashLoop_of_stored (names_of_analysed h) hsound hblocks hpos hmax _ _

/-- **An image with a v1 signature** takes the v1 path, and `compute_hashes` digests the stream
of its analysis. -/
theorem v1_of_signature {src : Segment} {rest : List Segment}
    (hlen : fileHeaderSize ≤ src.data.length)
    (hsig : src.data.take 8 ∈ [evfSignature, dvfSignature, lvfSignature]) :
    isEwf2 (EwfIntegrity.fromSegments (src :: rest)).bytes = false ∧
      (EwfIntegrity.fromSegments (src :: rest)).computeHashes C =
        (analysisStream C ((src :: rest).map (·.data))).map C.hashes := by
  have hbytes : (EwfIntegrity.fromSegments (src :: rest)).bytes =
      src.data :: rest.map (·.data) := rfl
  have hv1 : isEwf2 (EwfIntegrity.fromSegments (src :: rest)).bytes = false := by
    rw [hbytes]
    exact isEwf2_of_signature (by simpa using hsig)
  refine ⟨hv1, ?_⟩
  rw [EwfIntegrity.computeHashes, hv1, if_neg (by decide), computeHashesEwf1, hbytes,
    computeStreamEwf1_eq hlen hsig]
  rfl

end Files

/-! ### Written pairs -/

section Pairs

variable {s : SegmentLayout} {num : ℕ} {last : Bool} {data : List UInt8} {q : ℕ × Pair}

/-- The table section of a pair as the walk records it. -/
def Pair.tableSec (q : ℕ × Pair) : Section :=
  sectionOf (q.2.tablePos q.1, ⟨.table, q.2.tableBody q.1⟩)

/-- The sectors section of a pair as the walk records it. -/
def Pair.sectorsSec (q : ℕ × Pair) : Section := sectionOf (q.2.sectorsPos q.1, q.2.sectors)

/-- **The table of a written pair** lists its chunks. -/
theorem Encoded.indexed (w : Encoded s num last data) (hq : q ∈ s.pairs)
    (hcount : q.2.chunks.length < 4294967296) (hbase : q.2.base ≤ u64Max)
    (hloc : ∀ c ∈ q.2.located q.1, q.2.base ≤ c.1 ∧ c.1 - q.2.base < 2147483648)
    (hpos : ∀ c ∈ q.2.chunks, 0 < c.bytes.length) :
    Indexed data (Pair.tableSec q) (Pair.sectorsSec q) q.2.chunks := by
  have hat := w.table_at hq
  have hl := w.length_le_u64Max
  have hle := hat.length_le
  have hbody := q.2.length_tableBody q.1
  rw [Pair.tableSize] at hbody
  obtain ⟨h1, h2, h3⟩ := hasAt_tableBytes hat
  have hbaseAt : leU64 data (q.2.tablePos q.1 + 84) = q.2.base :=
    h2.leAt hl (by unfold u64Max at hbase; omega)
  refine ⟨?_, ?_, fun i c hc => ?_, w.sectors_at hq, rfl, hpos⟩
  · have h := h1.leAt hl (by rw [q.2.length_entries]; omega)
    rwa [q.2.length_entries] at h
  · simp only [Pair.tableSec, sectionOf]
    omega
  · obtain ⟨hc1, hc2⟩ := hloc c (List.mem_of_getElem? hc)
    have hentry : (q.2.entries q.1)[i]? = some (entryOf q.2.base c) := by
      have hc' : (q.2.located q.1)[i]? = some c := hc
      rw [Pair.entries, List.getElem?_map, hc']
      rfl
    have he := hasAt_entry h3 hentry
    have hread := he.leAt hl (entryOf_lt hc2)
    have hroom := he.length_le
    rw [length_toLE] at hroom
    refine ⟨parsedEntry q.2.base c, ?_, ?_, rfl⟩
    · have hoff : (Pair.tableSec q).offset = q.2.tablePos q.1 := rfl
      rw [tableEntry, hoff, if_pos (by omega), leU32,
        show q.2.tablePos q.1 + 100 + 4 * i = q.2.tablePos q.1 + 76 + 24 + 4 * i by omega, hread,
        ofNat_entryOf hc2]
    · simp only [Pair.tableSec, sectionOf, hbaseAt, parsedEntry]
      omega

end Pairs

end EwfForensic.Image

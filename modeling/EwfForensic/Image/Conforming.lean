import EwfForensic.Forensic.Custody
import EwfForensic.Image.Analysis
import EwfForensic.Lib.Interleave

/-!
# Conforming Images

The images that the v1 analysis must pass: what an acquisition tool writes, stated on the bytes
of the segment files. Any padding, any order of the sections and any further sections of a known
type are left free.

* `Acquisition` — a media byte string in stored chunks with its geometry, and the sections of
  each segment.
* `Acquisition.Conforms` — the segment files hold these sections, and the volume, the tables and
  the hash sections say what they should.
* `Acquisition.Conforms.scanSegment_issues` — the checks of a segment are silent.
* `no_false_positive` — a conforming image has a clean verdict and the right digests.
-/

namespace EwfForensic.Image

open Octets

/-! ### Acquisitions -/

/-- A segment of an acquisition: its sections before the last descriptor, and its chunks. -/
structure AcquiredSegment where
  sections : List RawSection
  chunks : List Stored

/-- An acquisition: the geometry, and the segments. -/
structure Acquisition where
  bytesPerSector : ℕ
  sectorsPerChunk : ℕ
  sectorCount : ℕ
  segments : List AcquiredSegment

/-- The size of a chunk. -/
def Acquisition.chunkSize (A : Acquisition) : ℕ := A.sectorsPerChunk * A.bytesPerSector

/-- The chunks of all segments in order. -/
def Acquisition.chunks (A : Acquisition) : List Stored := A.segments.flatMap (·.chunks)

/-- The media. -/
def Acquisition.media (A : Acquisition) : List UInt8 := (A.chunks.map Stored.data).flatten

/-- The sections of a segment that are of one of the types `ts`, each with its position. -/
def AcquiredSegment.placed (s : AcquiredSegment) (ts : List SectionType) :
    List (ℕ × RawSection) :=
  (placeSections 13 s.sections).filter fun q => q.2.type ∈ ts

/-- A table body with a right header checksum or none, whose entries give the places and the
storage of the chunks stored from `start` on. -/
structure TableOf (body : List UInt8) (start : ℕ) (chunks : List Stored) : Prop where
  length_le : 24 + 4 * chunks.length ≤ body.length
  count : leU32 body 0 = chunks.length
  crc : leU32 body 16 = 0 ∨ leU32 body 16 = adler32 (body.take 16)
  entry : ∀ i c, (locate start chunks)[i]? = some c →
    leU64 body 8 + (TableEntry.ofNat (leU32 body (24 + 4 * i))).chunkOffset = c.1 ∧
      (TableEntry.ofNat (leU32 body (24 + 4 * i))).compressed = c.2.compressed

/-- A volume body of a valid media type that declares the acquisition, with a right checksum if
it has room for one. -/
structure VolumeOf (body : List UInt8) (A : Acquisition) : Prop where
  length_le : 94 ≤ body.length
  mediaType : (EwfVolume.ofBytes body).mediaType ∈ validMediaTypes
  chunkCount : (EwfVolume.ofBytes body).chunkCount = A.chunks.length
  sectorsPerChunk : (EwfVolume.ofBytes body).sectorsPerChunk = A.sectorsPerChunk
  bytesPerSector : (EwfVolume.ofBytes body).bytesPerSector = A.bytesPerSector
  sectorCount : (EwfVolume.ofBytes body).sectorCount = A.sectorCount
  crc : 1052 ≤ body.length → leU32 body 1048 = adler32 (body.take 1048)

/-- The segment has one `table` and one `sectors` section, which holds its chunks; the table
lists them, and so does every `table2`. It has no `error2`. -/
structure AcquiredSegment.Conforms (s : AcquiredSegment) : Prop where
  error2 : s.placed [.error2] = []
  tables : ∃ table sectors, s.placed [.table] = [table] ∧ s.placed [.sectors] = [sectors] ∧
    sectors.2.body = s.chunks.flatMap Stored.bytes ∧
    TableOf table.2.body (sectors.1 + 76) s.chunks ∧
    ∀ q ∈ s.placed [.table2], q.2.body = table.2.body

/-- The files are a v1 image of the acquisition. -/
structure Acquisition.Conforms (C : Crates) (A : Acquisition) (files : List Segment) : Prop where
  bytesPerSector : A.bytesPerSector = 512 ∨ A.bytesPerSector = 4096
  sectorsPerChunk : ∃ k, A.sectorsPerChunk = 2 ^ k
  /-- The declared sectors are those of the media. -/
  sectorCount : A.sectorCount * A.bytesPerSector = A.media.length
  /-- The size of the media is a 64-bit number. -/
  media_le : A.media.length ≤ u64Max
  /-- Every chunk but the last is full. -/
  blocks : Blocks A.chunkSize (A.chunks.map Stored.data)
  complete : ∀ c ∈ A.chunks, c.Complete C
  /-- The segments are numbered from one, and the last one ends in `done`. -/
  chained : List.Forall₂
    (fun x (src : Segment) => Chained (x.2 + 1) (x.2 + 1 = A.segments.length) x.1.sections src.data)
    A.segments.zipIdx files
  segments : ∀ s ∈ A.segments, s.Conforms
  /-- The first segment has one volume. -/
  volume : ∃ first volume, A.segments.head? = some first ∧
    first.placed [.volume, .disk] = [volume] ∧ VolumeOf volume.2.body A
  no_volume : ∀ s ∈ A.segments.tail, s.placed [.volume, .disk] = []
  /-- The last segment has a `hash` section, and each stores the MD5 of the media. -/
  hash : ∀ last, A.segments.getLast? = some last → last.placed [.hash] ≠ [] ∧
    ∀ q ∈ last.placed [.hash], ∃ rest, q.2.body = (C.md5 A.media).val ++ rest
  /-- A `digest` section of the last segment stores the SHA-1 of the media behind an MD5, or
  zeros in its place. -/
  digest : ∀ last, A.segments.getLast? = some last → ∀ q ∈ last.placed [.digest],
    ∃ md5 sha1 rest, q.2.body = md5 ++ sha1.val ++ rest ∧ md5.length = 16 ∧
      (sha1 = C.sha1 A.media ∨ sha1 = Digest.zero 20)

/-! ### Finding the sections -/

section Segment

variable {s : AcquiredSegment} {num : ℕ} {last : Bool} {data : List UInt8}

/-- The first section of a type is the head of those of the type. -/
theorem AcquiredSegment.find?_eq (s : AcquiredSegment) (t : SectionType) :
    (placeSections 13 s.sections).find? (fun q => q.2.type = t) = (s.placed [t]).head? := by
  rw [AcquiredSegment.placed, List.head?_filter]
  simp only [List.mem_singleton]

theorem AcquiredSegment.findSection_eq (h : Chained num last s.sections data) {t : SectionType}
    (hd : t ≠ .done) (hn : t ≠ .next) :
    findSection (walkSectionsV1 data) t = (s.placed [t]).head?.map sectionOf := by
  rw [h.findSection_eq hd hn, s.find?_eq]

theorem AcquiredSegment.findVolume_eq (h : Chained num last s.sections data) :
    findVolume (walkSectionsV1 data) = (s.placed [.volume, .disk]).head?.map sectionOf := by
  rw [h.findVolume_eq, AcquiredSegment.placed, List.head?_filter]
  simp only [List.mem_cons, List.not_mem_nil, or_false]

/-- A section of the segment stands at its place. -/
theorem AcquiredSegment.described (h : Chained num last s.sections data) {ts : List SectionType}
    {q : ℕ × RawSection} (hq : q ∈ s.placed ts) :
    HasAt data (q.1 + 76) q.2.body ∧ q.1 + q.2.size + 76 ≤ data.length ∧ q.2.type ∈ ts := by
  obtain ⟨hmem, ht⟩ := List.mem_filter.mp hq
  exact ⟨(h.described q hmem).2, (h.section_bounds hmem).2, by simpa using ht⟩

/-- A stored section as its body range is read. -/
theorem sectionBody_of_hasAt {q : ℕ × RawSection} (hat : HasAt data (q.1 + 76) q.2.body)
    (hdata : data.length < u64Max) : sectionBody data (sectionOf q) = some q.2.body := by
  have hle := hat.length_le
  have hs1 : satAdd q.1 sectionDescriptorSize = q.1 + 76 := @satAdd_eq q.1 76 (by omega)
  have hs2 : satAdd q.1 q.2.size = q.1 + 76 + q.2.body.length := by
    rw [RawSection.size, satAdd_eq (by omega), Nat.add_assoc]
  rw [sectionBody, sectionOf]
  simp only [hs1, hs2]
  exact hat.slice?

/-- The table of a segment lists its chunks. -/
theorem TableOf.indexed {table sectors : ℕ × RawSection} {chunks : List Stored}
    (h : TableOf table.2.body (sectors.1 + 76) chunks)
    (htable : HasAt data (table.1 + 76) table.2.body)
    (hsectors : HasAt data (sectors.1 + 76) sectors.2.body)
    (hbody : sectors.2.body = chunks.flatMap Stored.bytes) (hdata : data.length < u64Max)
    (hpos : ∀ c ∈ chunks, 0 < c.bytes.length) :
    Indexed data (sectionOf table) (sectionOf sectors) chunks := by
  have hle := htable.length_le
  have hlen := h.length_le
  have hfield : ∀ {w off : ℕ}, off + w ≤ table.2.body.length →
      leAt w data (table.1 + 76 + off) = leAt w table.2.body off := fun hw =>
    htable.leAt_eq (le_of_lt hdata) hw
  refine ⟨?_, ?_, fun i c hc => ?_, hbody ▸ hsectors, ?_, hpos⟩
  · rw [← h.count]
    exact @hfield 4 0 (by omega)
  · simp only [sectionOf]
    omega
  · have hi : i < chunks.length := by
      have := (List.getElem?_eq_some_iff.mp hc).1
      rwa [length_locate] at this
    have hentry : leU32 data (table.1 + 100 + 4 * i) = leU32 table.2.body (24 + 4 * i) := by
      rw [show table.1 + 100 + 4 * i = table.1 + 76 + (24 + 4 * i) by omega]
      exact hfield (by omega)
    have hbase : leU64 data (table.1 + 84) = leU64 table.2.body 8 := @hfield 8 8 (by omega)
    obtain ⟨hstart, hflag⟩ := h.entry i c hc
    have hoff : (sectionOf table).offset = table.1 := rfl
    refine ⟨_, ?_, ?_, hflag⟩
    · rw [tableEntry, hoff, if_pos (by omega), hentry]
    · rw [hoff, hbase, hstart]
  · rw [sectionOf, RawSection.size, hbody]

/-! ### The checks of a segment -/

/-- A field of a table's body, read from the bytes behind the descriptor. -/
theorem leAt_body {pos w off : ℕ} {body : List UInt8} (h : HasAt data pos body)
    (hdata : data.length < u64Max) (hw : off + w ≤ body.length) :
    leAt w (data.drop pos) off = leAt w body off := by
  have hle := h.length_le
  rw [leAt_drop (by omega) (by omega)]
  exact h.leAt_eq (le_of_lt hdata) hw

/-- The checksum of the header of a table is right, or none is stored. -/
theorem TableOf.verifyCrc_ne {body : List UInt8} {pos start : ℕ} {chunks : List Stored}
    (h : TableOf body start chunks) (hbody : HasAt data pos body)
    (hdata : data.length < u64Max) :
    (TableHeader.ofBytes (data.drop pos)).verifyCrc (data.drop pos) ≠ some false := by
  have hle := hbody.length_le
  have hlen := h.length_le
  have hdrop : tableHeaderCrcOffset ≤ (data.drop pos).length := by
    rw [List.length_drop, show tableHeaderCrcOffset = 16 from rfl]
    omega
  have hstored : (TableHeader.ofBytes (data.drop pos)).storedCrc = leU32 body 16 :=
    @leAt_body _ _ 4 16 _ hbody hdata (by omega)
  have hfront : slice? (data.drop pos) 0 tableHeaderCrcOffset = some (body.take 16) := by
    have htake := (hasAt_iff.mp hbody).2
    rw [slice?_of_le (Nat.zero_le _) hdrop, ← htake, List.take_take,
      Nat.min_eq_left (by omega)]
    rfl
  rw [TableHeader.verifyCrc, hstored, hfront]
  rcases h.crc with hz | hright
  · simp [hz]
  · split_ifs
    · simp
    · simp [hright]

/-- Every entry of such a table lies in the sectors section. -/
theorem TableOf.entryIssues_eq {table sectors : ℕ × RawSection} {chunks : List Stored}
    (h : TableOf table.2.body (sectors.1 + 76) chunks)
    (htable : HasAt data (table.1 + 76) table.2.body)
    (hsectors : HasAt data (sectors.1 + 76) sectors.2.body)
    (hbody : sectors.2.body = chunks.flatMap Stored.bytes) (hdata : data.length < u64Max)
    (hpos : ∀ c ∈ chunks, 0 < c.bytes.length) {i : ℕ} (hi : i < chunks.length) :
    ∃ entry, entryAt data (table.1 + 100) i = some entry ∧
      entryIssues (TableHeader.ofBytes (data.drop (table.1 + 76))).baseOffset data.length
        (some (sectors.1 + 76, sectors.1 + 76 + sectors.2.body.length)) i entry = [] := by
  have hle := htable.length_le
  have hlen := h.length_le
  have hi' : i < (locate (sectors.1 + 76) chunks).length := by rwa [length_locate]
  have hc := List.getElem?_eq_getElem hi'
  obtain ⟨e, he, hstart, -⟩ := (h.indexed htable hsectors hbody hdata hpos).entry i _ hc
  have hmem := List.getElem_mem hi'
  obtain ⟨hat, hlow, hhigh⟩ := hasAt_locate (hbody ▸ hsectors) hmem
  have hnonempty := hpos _ (by
    rw [← map_snd_locate (sectors.1 + 76) chunks]
    exact List.mem_map_of_mem hmem)
  have hend := hat.length_le
  have hbase : (TableHeader.ofBytes (data.drop (table.1 + 76))).baseOffset =
      leU64 data (table.1 + 84) := leAt_drop (by omega) (by omega)
  have habs : satAdd (leU64 data (table.1 + 84)) e.chunkOffset =
      ((locate (sectors.1 + 76) chunks)[i]).1 := by
    rw [satAdd_eq, ← hstart]
    · rfl
    · have hsum : leU64 data (table.1 + 84) + e.chunkOffset = _ := hstart
      omega
  refine ⟨e, (entryAt_eq hdata (sectionOf table) i).trans he, ?_⟩
  rw [entryIssues, hbase]
  simp only [habs]
  rw [if_neg (by omega), if_neg (by rw [hbody]; omega)]

/-- A table that lists the chunks of its sectors section passes the table check. -/
theorem TableOf.checkTableV1_eq {table sectors : ℕ × RawSection} {chunks : List Stored}
    (h : TableOf table.2.body (sectors.1 + 76) chunks)
    (htable : HasAt data (table.1 + 76) table.2.body)
    (hsectors : HasAt data (sectors.1 + 76) sectors.2.body)
    (hbody : sectors.2.body = chunks.flatMap Stored.bytes) (hdata : data.length < u64Max)
    (hpos : ∀ c ∈ chunks, 0 < c.bytes.length) {volCount : Option ℕ}
    (hcount : ∀ v, volCount = some v → chunks.length = v) :
    checkTableV1 data table.1 volCount data.length
      (some (sectors.1 + 76, sectors.1 + 76 + sectors.2.body.length)) = [] := by
  have hle := htable.length_le
  have hlen := h.length_le
  have hs1 : satAdd table.1 sectionDescriptorSize = table.1 + 76 := @satAdd_eq table.1 76 (by omega)
  have hs2 : satAdd (table.1 + 76) tableHeaderSize = table.1 + 100 :=
    @satAdd_eq (table.1 + 76) 24 (by omega)
  have hdrop : tableHeaderCrcOffset ≤ (data.drop (table.1 + 76)).length := by
    rw [List.length_drop, show tableHeaderCrcOffset = 16 from rfl]
    omega
  have hentries : (TableHeader.ofBytes (data.drop (table.1 + 76))).entryCount = chunks.length :=
    (@leAt_body _ _ 4 0 _ htable hdata (by omega)).trans h.count
  have hcrc := h.verifyCrc_ne htable hdata
  rw [checkTableV1]
  simp only [hs1, hs2, TableHeader.parse_of_le hdrop, hentries]
  rw [if_neg (by omega), if_neg hcrc, List.nil_append]
  have hloop : (Loop.forBreak (fun i => (entryAt data (table.1 + 100) i).map (entryIssues
      (TableHeader.ofBytes (data.drop (table.1 + 76))).baseOffset data.length
      (some (sectors.1 + 76, sectors.1 + 76 + sectors.2.body.length)) i)) chunks.length 0).flatten =
        [] := by
    rw [List.flatten_eq_nil_iff]
    intro issues hissues
    obtain ⟨j, hj⟩ := List.mem_iff_getElem?.mp hissues
    obtain ⟨hlt, -, hturn'⟩ := Loop.getElem?_forBreak.mp hj
    rw [Nat.zero_add] at hturn'
    obtain ⟨e, he, hnil⟩ := h.entryIssues_eq htable hsectors hbody hdata hpos hlt
    rw [he, Option.map_some, hnil] at hturn'
    exact (Option.some.inj hturn').symm
  rw [hloop, List.append_nil]
  cases volCount with
  | none => rfl
  | some v =>
      simp only
      rw [if_neg (not_not.mpr (hcount v rfl))]

/-- A volume body that declares the acquisition passes the volume check. -/
theorem VolumeOf.volumeIssues_eq {C : Crates} {A : Acquisition} {files : List Segment}
    (h : VolumeOf data A) (hA : A.Conforms C files) :
    volumeIssues data (EwfVolume.ofBytes data) = [] := by
  obtain ⟨k, hk⟩ := hA.sectorsPerChunk
  have hspc : 0 < A.sectorsPerChunk := hk ▸ Nat.two_pow_pos k
  have hbps : 0 < A.bytesPerSector := by
    rcases hA.bytesPerSector with hb | hb <;> omega
  have hpos : 0 < A.chunkSize := Nat.mul_pos hspc hbps
  have hcc : A.chunks.length < 4294967296 := h.chunkCount ▸ leU32_lt data 4
  have hspcLt : A.sectorsPerChunk < 4294967296 := h.sectorsPerChunk ▸ leU32_lt data 8
  have hmax : satMul A.chunks.length A.sectorsPerChunk = A.chunks.length * A.sectorsPerChunk := by
    refine satMul_eq
      (le_trans (Nat.mul_le_mul (Nat.le_of_lt_succ hcc) (Nat.le_of_lt_succ hspcLt)) ?_)
    decide
  have hpower : isPowerOfTwo A.sectorsPerChunk = true := by
    rw [isPowerOfTwo, hk, Nat.and_two_pow_sub_one_eq_mod, Nat.mod_self]
    simp
  -- Both bounds on the sectors, times the bytes per sector, are bounds on the media.
  have hupper : A.sectorCount ≤ A.chunks.length * A.sectorsPerChunk := by
    have hle := hA.blocks.length_flatten_le hpos
    rw [List.length_map] at hle
    refine Nat.le_of_mul_le_mul_right ?_ hbps
    rw [hA.sectorCount, Nat.mul_assoc]
    exact hle
  have hlower : 0 < A.chunks.length →
      A.chunks.length * A.sectorsPerChunk - A.sectorsPerChunk < A.sectorCount := by
    intro hne
    have hlt := (hA.blocks.mul_lt_length hpos (A.chunks.length - 1)).mpr (by
      rw [List.length_map]
      omega)
    rw [← Nat.sub_one_mul]
    refine Nat.lt_of_mul_lt_mul_right (a := A.bytesPerSector) ?_
    rw [hA.sectorCount, Nat.mul_assoc]
    exact hlt
  have hcrc : (EwfVolume.ofBytes data).verifyCrc data ≠ some false := by
    rw [EwfVolume.verifyCrc]
    by_cases hfull : 1052 ≤ data.length
    · have hstored : (EwfVolume.ofBytes data).storedCrc = some (leU32 data 1048) := if_pos hfull
      have hfront : slice? data 0 volumeBodyCrcOffset = some (data.take 1048) := by
        rw [slice?_of_le (Nat.zero_le _) (by change 1048 ≤ _; omega)]
        rfl
      rw [hstored, hfront]
      simp [h.crc hfull]
    · have hnone : (EwfVolume.ofBytes data).storedCrc = none := if_neg hfull
      rw [hnone]
      simp
  rw [volumeIssues]
  simp only [h.chunkCount, h.sectorsPerChunk, h.bytesPerSector, h.sectorCount, hmax]
  have hsize : ¬ (A.sectorsPerChunk = 0 ∨ ¬ isPowerOfTwo A.sectorsPerChunk = true) := by
    rintro (hz | hne)
    · omega
    · exact hne hpower
  rw [if_pos h.mediaType, if_neg (by have := hA.bytesPerSector; omega), if_neg hsize,
    if_neg hcrc, if_neg]
  · rfl
  · rintro ⟨-, hbad⟩
    omega

/-- A `table2` with the body of the `table` raises no mismatch. -/
theorem AcquiredSegment.table2Issues_eq (h : Chained num last s.sections data)
    {table : ℕ × RawSection} (htable : s.placed [.table] = [table])
    (hsame : ∀ q ∈ s.placed [.table2], q.2.body = table.2.body) :
    table2Issues data (walkSectionsV1 data) = [] := by
  have hdata := h.length_lt_u64Max
  have hmem : table ∈ s.placed [.table] := htable ▸ List.mem_singleton_self _
  have hbody := sectionBody_of_hasAt (AcquiredSegment.described h hmem).1 hdata
  rw [table2Issues, AcquiredSegment.findSection_eq h (by decide) (by decide), htable,
    AcquiredSegment.findSection_eq h (by decide) (by decide)]
  cases hhead : (s.placed [.table2]).head? with
  | none => rfl
  | some q =>
      have hq : q ∈ s.placed [.table2] := List.mem_of_mem_head? hhead
      have hbody2 := sectionBody_of_hasAt (AcquiredSegment.described h hq).1 hdata
      rw [hsame q hq] at hbody2
      simp only [List.head?_cons, Option.map_some, hbody, hbody2, if_true]
      have hnone :
          (table.2.body.zip table.2.body).findIdx? (fun p => decide (p.1 ≠ p.2)) = none := by
        rw [List.findIdx?_eq_none_iff]
        intro p hp
        obtain ⟨i, hi⟩ := List.mem_iff_getElem?.mp hp
        obtain ⟨h1, h2⟩ := List.getElem?_zip_eq_some.mp hi
        simpa using Option.some.inj (h1.symm.trans h2)
      rw [hnone]

end Segment

/-! ### The segment loop -/

section Image

variable {C : Crates} {A : Acquisition} {files : List Segment}

/-- The file of a segment. -/
theorem Acquisition.Conforms.file (h : A.Conforms C files) {i : ℕ} {src : Segment}
    (hsrc : files[i]? = some src) : ∃ s, A.segments[i]? = some s ∧
      Chained (i + 1) (i + 1 = A.segments.length) s.sections src.data := by
  obtain ⟨⟨s, k⟩, hx, hc⟩ := Interleave.exists_left h.chained hsrc
  rw [List.getElem?_zipIdx] at hx
  obtain ⟨s', hs, heq⟩ := Option.map_eq_some_iff.mp hx
  obtain ⟨rfl, rfl⟩ := Prod.mk.inj heq
  rw [Nat.zero_add] at hc
  exact ⟨s', hs, hc⟩

theorem Acquisition.Conforms.length_eq (h : A.Conforms C files) :
    files.length = A.segments.length := by
  rw [← h.chained.length_eq, List.length_zipIdx]

/-- Every chunk takes room on disk. -/
theorem Acquisition.Conforms.bytes_pos (h : A.Conforms C files) :
    0 < A.chunkSize ∧ ∀ c ∈ A.chunks, 0 < c.bytes.length := by
  obtain ⟨k, hk⟩ := h.sectorsPerChunk
  have hbps : 0 < A.bytesPerSector := by
    rcases h.bytesPerSector with hb | hb <;> omega
  have hpos : 0 < A.chunkSize := Nat.mul_pos (hk ▸ Nat.two_pow_pos k) hbps
  refine ⟨hpos, fun c hc => ?_⟩
  exact (h.complete c hc).bytes_pos (h.blocks.length_le hpos c.data (List.mem_map_of_mem hc)).1

/-- A chunk of a segment is one of the acquisition. -/
theorem Acquisition.mem_chunks {s : AcquiredSegment} (hs : s ∈ A.segments) {c : Stored}
    (hc : c ∈ s.chunks) : c ∈ A.chunks := List.mem_flatMap.mpr ⟨s, hs, hc⟩

/-- The table of a segment lists its chunks. -/
theorem Acquisition.Conforms.indexed (h : A.Conforms C files) {s : AcquiredSegment}
    (hs : s ∈ A.segments) {num : ℕ} {last : Bool} {data : List UInt8}
    (hc : Chained num last s.sections data) :
    ∃ table sectors, findSection (walkSectionsV1 data) .table = some (sectionOf table) ∧
      findSection (walkSectionsV1 data) .sectors = some (sectionOf sectors) ∧
      Indexed data (sectionOf table) (sectionOf sectors) s.chunks ∧
      table2Issues data (walkSectionsV1 data) = [] ∧
      ∀ volCount, (∀ v, volCount = some v → s.chunks.length = v) →
        tableIssues volCount data (walkSectionsV1 data) = [] := by
  obtain ⟨table, sectors, htable, hsectors, hbody, hlists, hsame⟩ := (h.segments s hs).tables
  have hdata := hc.length_lt_u64Max
  have hpos := fun c hcm => h.bytes_pos.2 c (A.mem_chunks hs hcm)
  obtain ⟨hat, -, -⟩ := AcquiredSegment.described hc (htable ▸ List.mem_singleton_self table)
  obtain ⟨hat', hend, -⟩ :=
    AcquiredSegment.described hc (hsectors ▸ List.mem_singleton_self sectors)
  have hfind : findSection (walkSectionsV1 data) .table = some (sectionOf table) := by
    rw [AcquiredSegment.findSection_eq hc (by decide) (by decide), htable]
    rfl
  have hfind' : findSection (walkSectionsV1 data) .sectors = some (sectionOf sectors) := by
    rw [AcquiredSegment.findSection_eq hc (by decide) (by decide), hsectors]
    rfl
  refine ⟨table, sectors, hfind, hfind', hlists.indexed hat hat' hbody hdata hpos,
    AcquiredSegment.table2Issues_eq hc htable hsame, fun volCount hcount => ?_⟩
  have hrange : sectorsRange (walkSectionsV1 data) =
      some (sectors.1 + 76, sectors.1 + 76 + sectors.2.body.length) := by
    have hs1 : satAdd sectors.1 sectionDescriptorSize = sectors.1 + 76 :=
      @satAdd_eq sectors.1 76 (by omega)
    have hs2 : satAdd sectors.1 sectors.2.size = sectors.1 + 76 + sectors.2.body.length := by
      rw [satAdd_eq (by omega), RawSection.size, Nat.add_assoc]
    rw [sectorsRange, hfind', Option.map_some, sectionOf]
    simp only [hs1, hs2]
  rw [tableIssues, hfind, hrange]
  exact hlists.checkTableV1_eq hat hat' hbody hdata hpos hcount

/-- The analysis finds the chunks of every segment. -/
theorem Acquisition.Conforms.analysed (h : A.Conforms C files) :
    List.Forall₂ (fun (src : Segment) cs => AnalysedAs src.data cs) files
      (A.segments.map (·.chunks)) := by
  rw [List.forall₂_map_right_iff, List.forall₂_iff_get]
  refine ⟨h.length_eq, fun i h1 h2 => ?_⟩
  obtain ⟨s, hs, hc⟩ := h.file (List.getElem?_eq_getElem h1)
  obtain ⟨hi, rfl⟩ := List.getElem?_eq_some_iff.mp hs
  obtain ⟨table, sectors, hfind, hfind', hindexed, -, -⟩ := h.indexed (List.getElem_mem hi) hc
  exact hindexed.analysedAs hfind hfind' hc.length_lt_u64Max

/-- The volume of the first segment gives the geometry and passes its check. -/
theorem Acquisition.Conforms.volume_eq (h : A.Conforms C files) {s : AcquiredSegment}
    (hs : A.segments[0]? = some s) {num : ℕ} {last : Bool} {data : List UInt8}
    (hc : Chained num last s.sections data) :
    ∃ volume body, findVolume (walkSectionsV1 data) = some volume ∧ VolumeOf body A ∧
      checkVolumeV1 data volume.offset volume.size = (some (geometryOf body), []) := by
  obtain ⟨first, volume, hfirst, hplaced, hvolume⟩ := h.volume
  rw [List.head?_eq_getElem?, hs] at hfirst
  obtain rfl := Option.some.inj hfirst
  obtain ⟨hat, -, -⟩ := AcquiredSegment.described hc (hplaced ▸ List.mem_singleton_self volume)
  have hlen := hvolume.length_le
  refine ⟨sectionOf volume, volume.2.body, ?_, hvolume, ?_⟩
  · rw [AcquiredSegment.findVolume_eq hc, hplaced]
    rfl
  · have hcheck := checkVolumeV1_of_hasAt hat (by omega) hc.length_lt_u64Max
    rw [hvolume.volumeIssues_eq h] at hcheck
    exact hcheck

/-- **The checks of a segment are silent.** -/
theorem Acquisition.Conforms.scanSegment_issues (h : A.Conforms C files) {i : ℕ} {src : Segment}
    (hsrc : files[i]? = some src) (geometry : Option VolumeGeometry) :
    (scanSegment files.length i geometry src.data).issues = [] := by
  obtain ⟨s, hs, hc⟩ := h.file hsrc
  have hmem := List.mem_of_getElem? hs
  have hi : i < files.length := (List.getElem?_eq_some_iff.mp hsrc).1
  obtain ⟨table, sectors, hfind, hfind', -, htable2, htables⟩ := h.indexed hmem hc
  have hnum : i + 1 < 65536 := hc.number ▸ leAt_lt 2 src.data 9
  have hsat : satAdd i 1 % 65536 = i + 1 := by
    rw [satAdd_eq (by unfold u64Max; omega), Nat.mod_eq_of_lt hnum]
  have hheader : headerIssuesV1 i src.data = [] := by
    have hsig := hc.signature
    simp only [List.mem_cons, List.not_mem_nil, or_false] at hsig
    rw [headerIssuesV1]
    simp only [hc.number, hsat]
    rw [if_neg (by tauto), if_neg (by omega), if_neg (by omega)]
    rfl
  have herror2 : error2Issues src.data (walkSectionsV1 src.data) = [] := by
    rw [error2Issues, AcquiredSegment.findSection_eq hc (by decide) (by decide),
      (h.segments s hmem).error2]
    rfl
  have hdone : (i = files.length - 1 ∧
      (findSection (walkSectionsV1 src.data) .done).isNone) → False := by
    rintro ⟨hlast, hnone⟩
    have hc' := hc
    rw [decide_eq_true (show i + 1 = A.segments.length by rw [← h.length_eq]; omega)] at hc'
    have hsome := hc'.findSection_done
    rw [Option.isNone_iff_eq_none] at hnone
    rw [hnone] at hsome
    cases hsome
  have hgeo : (segmentGeometry i geometry src.data (walkSectionsV1 src.data)).2 = [] ∧
      (i = 0 → ∃ body, VolumeOf body A ∧
        (segmentGeometry i geometry src.data (walkSectionsV1 src.data)).1 =
          some (geometryOf body)) := by
    cases i with
    | zero =>
        obtain ⟨volume, body, hvol, hbody, hcheck⟩ := h.volume_eq hs hc
        rw [segmentGeometry, hvol]
        simp only [if_true, hcheck, true_and]
        exact fun _ => ⟨body, hbody, rfl⟩
    | succ i =>
        have hnone := h.no_volume s (by
          rw [List.mem_iff_getElem?]
          exact ⟨i, by rw [List.getElem?_tail]; exact hs⟩)
        rw [segmentGeometry, AcquiredSegment.findVolume_eq hc, hnone]
        exact ⟨rfl, fun hz => by omega⟩
  have hvol : ∀ v, volumeCount files.length i
      (segmentGeometry i geometry src.data (walkSectionsV1 src.data)).1 = some v →
        s.chunks.length = v := by
    intro v hv
    rw [volumeCount] at hv
    split_ifs at hv with hsingle
    obtain ⟨body, hbody, hgeom⟩ := hgeo.2 hsingle.2
    rw [hgeom, Option.map_some] at hv
    rw [← Option.some.inj hv, geometryOf, hbody.chunkCount]
    -- The only segment has all chunks.
    obtain ⟨s', hone⟩ : ∃ s', A.segments = [s'] := by
      rw [← List.length_eq_one_iff, ← h.length_eq]
      omega
    rw [hone, hsingle.2] at hs
    rw [Acquisition.chunks, hone, Option.some.inj hs, List.flatMap_singleton]
  rw [scanSegment, if_neg (not_lt.mpr hc.fileHeaderSize_le)]
  simp only [segmentIssues]
  rw [hheader, hc.walkIssuesV1_eq, hgeo.1, hfind', htables _ hvol, htable2, herror2, if_neg hdone]
  rfl

/-! ### The verdict -/

/-- The geometry that the analysis works with is that of the acquisition. -/
theorem Acquisition.Conforms.geometry (h : A.Conforms C files) :
    ∃ geom, analysisGeometry (files.map (·.data)) = some geom ∧
      geom.chunkCount = A.chunks.length ∧ geom.chunkSize = A.chunkSize ∧
      geom.totalBytes = A.media.length ∧ A.chunkSize + 4 ≤ u64Max ∧
      A.chunks.length < 4294967296 := by
  obtain ⟨first, volume, hfirst, -, -⟩ := h.volume
  rw [List.head?_eq_getElem?] at hfirst
  have hlen : 0 < files.length := by
    rw [h.length_eq]
    exact (List.getElem?_eq_some_iff.mp hfirst).1
  obtain ⟨src, hsrc⟩ : ∃ src, files[0]? = some src := ⟨_, List.getElem?_eq_getElem hlen⟩
  obtain ⟨s, hs, hc⟩ := h.file hsrc
  obtain ⟨v, body, hvol, hbody, hcheck⟩ := h.volume_eq hs hc
  have hcc : A.chunks.length < 4294967296 := hbody.chunkCount ▸ leU32_lt body 4
  have hspc : A.sectorsPerChunk < 4294967296 := hbody.sectorsPerChunk ▸ leU32_lt body 8
  have hbps : A.bytesPerSector ≤ 4096 := by
    rcases h.bytesPerSector with hb | hb <;> omega
  have hle : A.chunkSize ≤ 4294967296 * 4096 := Nat.mul_le_mul (le_of_lt hspc) hbps
  have hmax : A.chunkSize + 4 ≤ u64Max := by
    rw [u64Max]
    omega
  refine ⟨geometryOf body, ?_, hbody.chunkCount, ?_, ?_, hmax, hcc⟩
  · rw [analysisGeometry_eq, List.head?_map, List.head?_eq_getElem?, hsrc, Option.map_some,
      Option.bind_some, volumeGeometry, hvol, Option.bind_some, hcheck]
  · rw [VolumeGeometry.chunkSize, geometryOf]
    simp only [hbody.sectorsPerChunk, hbody.bytesPerSector]
    exact satMul_eq (by unfold Acquisition.chunkSize at hmax; omega)
  · rw [VolumeGeometry.totalBytes, geometryOf]
    simp only [hbody.sectorCount, hbody.bytesPerSector]
    rw [satMul_eq (by rw [h.sectorCount]; exact h.media_le), h.sectorCount]

/-- The stored digests are those of the media. -/
theorem Acquisition.Conforms.stored (h : A.Conforms C files) {data : List UInt8}
    (hlast : (files.map (·.data)).getLast? = some data) :
    storedMd5Issues (C.md5 A.media) (walkSectionsV1 data) data = [] ∧
      storedSha1Issues (C.sha1 A.media) (walkSectionsV1 data) data = [] := by
  obtain ⟨src, hsrc, rfl⟩ : ∃ src, files.getLast? = some src ∧ src.data = data := by
    rw [List.getLast?_map] at hlast
    exact Option.map_eq_some_iff.mp hlast
  rw [List.getLast?_eq_getElem?] at hsrc
  obtain ⟨s, hs, hc⟩ := h.file hsrc
  have hslast : A.segments.getLast? = some s := by
    rw [List.getLast?_eq_getElem?, ← h.length_eq]
    exact hs
  have hdata := hc.length_lt_u64Max
  rw [storedMd5Issues, storedSha1Issues, AcquiredSegment.findSection_eq hc (by decide) (by decide),
    AcquiredSegment.findSection_eq hc (by decide) (by decide)]
  constructor
  · obtain ⟨hne, hright⟩ := h.hash s hslast
    obtain ⟨q, hhead⟩ : ∃ q, (s.placed [.hash]).head? = some q :=
      ⟨_, List.head?_eq_some_head hne⟩
    have hq := List.mem_of_mem_head? hhead
    obtain ⟨rest, hrest⟩ := hright q hq
    obtain ⟨hat, hend, -⟩ := AcquiredSegment.described hc hq
    rw [hrest] at hat
    have hoff : satAdd q.1 sectionDescriptorSize = q.1 + 76 := @satAdd_eq q.1 76 (by omega)
    have hstored : Digest.bytesAt? 16 src.data (q.1 + 76) = some (C.md5 A.media) :=
      (Digest.bytesAt?_eq_some_iff (by decide)).mpr hat.left
    simp only [hhead, Option.map_some, sectionOf, hoff, hstored]
    exact mismatch_eq_nil_iff.mpr fun r hr => Option.some.inj hr
  · cases hhead : (s.placed [.digest]).head? with
    | none => rfl
    | some q =>
        have hq := List.mem_of_mem_head? hhead
        obtain ⟨md5, sha1, rest, hrest, hlen, hsha1⟩ := h.digest s hslast q hq
        obtain ⟨hat, hend, -⟩ := AcquiredSegment.described hc hq
        rw [hrest] at hat
        have hat' := hat.left.right
        rw [hlen] at hat'
        have hle := hat'.length_le
        have hoff : satAdd q.1 sectionDescriptorSize = q.1 + 76 := @satAdd_eq q.1 76 (by omega)
        have hoff' : satAdd (q.1 + 76) 16 = q.1 + 76 + 16 := satAdd_eq (by omega)
        have hstored : Digest.bytesAt? 20 src.data (q.1 + 76 + 16) = some sha1 :=
          (Digest.bytesAt?_eq_some_iff (by decide)).mpr hat'
        simp only [Option.map_some, sectionOf, hoff, hoff', hstored]
        refine mismatch_eq_nil_iff.mpr fun r hr => ?_
        obtain ⟨hsome, hne⟩ := Option.filter_eq_some_iff.mp hr
        obtain rfl := Option.some.inj hsome
        rcases hsha1 with hright | hz
        · exact hright.symm
        · simp [hz] at hne

/-- **No false positive.** A conforming image has a clean verdict, and `compute_hashes` gives the
digests of its media. -/
theorem no_false_positive (C : Crates) (A : Acquisition) (files : List Segment)
    (h : A.Conforms C files) :
    (EwfIntegrity.fromSegments files).analyse C = [] ∧
      (EwfIntegrity.fromSegments files).computeHashes C = some (C.hashes A.media) := by
  obtain ⟨geom, hgeom, hcount, hchunk, htotal, hmax, hlt⟩ := h.geometry
  have hflat : (A.segments.map (·.chunks)).flatten = A.chunks := by
    rw [Acquisition.chunks, List.flatMap_def]
  have hstream := @hashedStream_of_analysed C _ _ h.analysed geom
  rw [hflat, hchunk] at hstream
  obtain ⟨hmedia, hrun⟩ := hstream h.complete h.blocks h.bytes_pos.1 hmax htotal
  change _ = A.media at hmedia
  have hbytes : (EwfIntegrity.fromSegments files).bytes = files.map (·.data) := rfl
  have hv1 : isEwf2 (EwfIntegrity.fromSegments files).bytes = false ∧
      (EwfIntegrity.fromSegments files).computeHashes C =
        (analysisStream C (files.map (·.data))).map C.hashes := by
    cases files with
    | nil => cases hgeom
    | cons src rest =>
        obtain ⟨s, -, hc⟩ := h.file (show (src :: rest)[0]? = some src from rfl)
        exact v1_of_signature hc.fileHeaderSize_le hc.signature
  constructor
  · have hscan : scanIssues (files.map (·.data)) = [] := by
      rw [scanIssues, List.length_map]
      refine scanSegments_issues_eq_nil fun j data geometry' hj _ => ?_
      rw [List.getElem?_map] at hj
      obtain ⟨src, hsrc, rfl⟩ := Option.map_eq_some_iff.mp hj
      rw [Nat.zero_add]
      exact h.scanSegment_issues hsrc geometry'
    have htable : totalTableEntries (files.map (·.data)) = A.chunks.length := by
      rw [totalTableEntries_of_analysed h.analysed (by rw [hflat]; exact hlt), hflat]
    obtain ⟨last, hlast⟩ : ∃ last, (files.map (·.data)).getLast? = some last :=
      ⟨_, List.getLast?_eq_some_getLast (ne_nil_of_geometry hgeom)⟩
    obtain ⟨hmd5, hsha1⟩ := h.stored hlast
    rw [analyse_v1 hv1.1, hbytes, analyseAllEwf1_eq, hscan, htable, hgeom, totalCountIssues,
      hashCheckIssues, hgeom]
    simp only [hcount, ne_eq, not_true_eq_false, and_false, if_false, checkHashAllSegments, hrun,
      hmedia, List.getLast?_map, hlast, Option.map_some, Crates.hashes, hmd5, hsha1,
      List.nil_append]
    rfl
  · rw [hv1.2, analysisStream, hgeom, Option.map_some, Option.map_some, hmedia]

end Image

/-! ### An acquisition in two segments -/

/-- A full raw chunk with its checksum in the first segment, and a last chunk of one sector,
filled up with zeros and compressed, in the second. -/
def sampleChunks : List Stored :=
  [⟨List.replicate 1024 7, .rawAdler⟩,
    ⟨List.replicate 512 9,
      .zlib (Zlib.storedStream (List.replicate 512 9 ++ List.replicate 512 0)) 512⟩]

/-- The digests of its media. -/
def sampleHashes : ComputedHashes :=
  Crates.reference.hashes (sampleChunks.map Stored.data).flatten

/-- Three sectors of 512 bytes, two to a chunk. -/
def sampleAcquisition : Acquisition where
  bytesPerSector := 512
  sectorsPerChunk := 2
  sectorCount := 3
  segments :=
    [⟨[⟨.volume, volumeFront 1 2 2 512 3 ++ List.replicate 70 0⟩,
        ⟨.sectors, (sampleChunks.take 1).flatMap Stored.bytes⟩,
        ⟨.table, tableBytes 0 true [259] []⟩, ⟨.table2, tableBytes 0 true [259] []⟩],
        sampleChunks.take 1⟩,
      ⟨[⟨.table, tableBytes 100 false [2147483822] [1, 2, 3, 4]⟩, ⟨.data, [5]⟩,
        ⟨.sectors, (sampleChunks.drop 1).flatMap Stored.bytes⟩,
        ⟨.digest, sampleHashes.md5.val ++ sampleHashes.sha1.val⟩, ⟨.hash, sampleHashes.md5.val⟩],
        sampleChunks.drop 1⟩]

/-- Its segment files. -/
def sampleFiles : List Segment :=
  [⟨encodeSegment 1 ((sampleAcquisition.segments.map (·.sections)).headD [])
      (terminalType false) 0, by decide +kernel⟩,
    ⟨encodeSegment 2 ((sampleAcquisition.segments.map (·.sections)).getLastD [])
      (terminalType true) 0, by decide +kernel⟩]

/-- The media of the chunks, without the zeros behind it. -/
theorem media_sampleAcquisition :
    sampleAcquisition.media = (sampleChunks.map Stored.data).flatten := by
  decide +kernel

theorem sampleAcquisition_conforms : sampleAcquisition.Conforms Crates.reference sampleFiles where
  bytesPerSector := Or.inl rfl
  sectorsPerChunk := ⟨1, rfl⟩
  sectorCount := by decide +kernel
  media_le := by decide +kernel
  blocks := by decide +kernel
  complete := by
    intro c hc z pad he
    have hc' : c ∈ sampleChunks := hc
    simp only [sampleChunks, List.mem_cons, List.not_mem_nil, or_false] at hc'
    rcases hc' with rfl | rfl
    · cases he
    · obtain ⟨rfl, rfl⟩ := Encoding.zlib.inj he
      exact ⟨Zlib.isStream_storedStream (by decide +kernel), by decide +kernel⟩
  chained := by
    refine List.Forall₂.cons ?_ (List.Forall₂.cons ?_ List.Forall₂.nil)
    · exact chained_encodeSegment (by decide) (by decide) (by decide) (by decide +kernel)
    · exact chained_encodeSegment (by decide) (by decide) (by decide) (by decide +kernel)
  segments := by
    intro s hs
    simp only [sampleAcquisition, List.mem_cons, List.not_mem_nil, or_false] at hs
    rcases hs with rfl | rfl
    · refine ⟨by decide +kernel, _, _, rfl, rfl, rfl, ⟨by decide +kernel, by decide +kernel,
        Or.inr (by decide +kernel), ?_⟩, by decide +kernel⟩
      intro i c hc
      cases i with
      | zero =>
          obtain rfl := Option.some.inj hc
          decide +kernel
      | succ i => cases hc
    · refine ⟨by decide +kernel, _, _, rfl, rfl, rfl, ⟨by decide +kernel, by decide +kernel,
        Or.inl (by decide +kernel), ?_⟩, by decide +kernel⟩
      intro i c hc
      cases i with
      | zero =>
          obtain rfl := Option.some.inj hc
          decide +kernel
      | succ i => cases hc
  volume := ⟨_, _, rfl, rfl, by decide +kernel, by decide +kernel, by decide +kernel,
    by decide +kernel, by decide +kernel, by decide +kernel, by decide +kernel⟩
  no_volume := by decide +kernel
  hash := by
    intro last hlast
    obtain ⟨pos, hplaced⟩ : ∃ pos, last.placed [.hash] =
        [(pos, ⟨.hash, sampleHashes.md5.val⟩)] := by
      obtain rfl := Option.some.inj hlast
      exact ⟨_, rfl⟩
    rw [hplaced, media_sampleAcquisition]
    refine ⟨List.cons_ne_nil _ _, fun q hq => ⟨[], ?_⟩⟩
    rw [List.mem_singleton.mp hq, List.append_nil, sampleHashes, Crates.hashes]
  digest := by
    intro last hlast
    obtain ⟨pos, hplaced⟩ : ∃ pos, last.placed [.digest] =
        [(pos, ⟨.digest, sampleHashes.md5.val ++ sampleHashes.sha1.val⟩)] := by
      obtain rfl := Option.some.inj hlast
      exact ⟨_, rfl⟩
    rw [hplaced, media_sampleAcquisition]
    refine fun q hq => ⟨_, _, [], ?_, sampleHashes.md5.property, Or.inl rfl⟩
    rw [List.mem_singleton.mp hq, List.append_nil, sampleHashes, Crates.hashes]

theorem no_false_positive_sampleAcquisition :
    sampleAcquisition.Conforms Crates.reference sampleFiles ∧
      (EwfIntegrity.fromSegments sampleFiles).analyse Crates.reference = [] ∧
        (EwfIntegrity.fromSegments sampleFiles).computeHashes Crates.reference =
          some (Crates.reference.hashes sampleAcquisition.media) :=
  ⟨sampleAcquisition_conforms, no_false_positive Crates.reference sampleAcquisition sampleFiles
    sampleAcquisition_conforms⟩

end EwfForensic.Image

import EwfForensic.Forensic.CoverageV2

/-!
# Placed v2 Sections and Chunks

What a segment of an EWF v2 image holds where, and that the v2 analysis reads it there.

* `utf16Text` — a text in UTF-16LE; `parseMediaInfoBody_text` says that a zlib stream of it is
  media information.
* `SectionV2`, `ChainedBack` — sections, each with its body in front of its descriptor, chained
  backward; `backwardWalk_eq` says that the walk visits these, and `chainedBack_encodeSegmentV2`
  that the writer chains what it writes.
* `PlacedChunk`, `TableOfChunks`, `ChunksIn` — chunks with their checksums, and the table that
  lists them; `ChunksIn.verifyRun_issues` and `ChunksIn.computeTurns_eq` are the two chunk loops
  over them.
-/

namespace EwfForensic.Image

open Octets

/-! ### Text -/

/-- The UTF-16 code units of a character. -/
def utf16Char (c : Char) : List ℕ :=
  if c.toNat < 0x10000 then [c.toNat]
  else [0xD800 + (c.toNat - 0x10000) / 0x400, 0xDC00 + (c.toNat - 0x10000) % 0x400]

/-- A text in UTF-16LE; a byte order mark is its first character. -/
def utf16Text (text : List Char) : List UInt8 := (text.flatMap utf16Char).flatMap (toLE 2)

/-- A character is no surrogate and fits 21 bits. -/
theorem toNat_cases (c : Char) :
    c.toNat < 0xD800 ∨ 0xDFFF < c.toNat ∧ c.toNat < 0x110000 :=
  c.valid

theorem utf16Char_lt {c : Char} {u : ℕ} (hu : u ∈ utf16Char c) : u < 65536 := by
  have hc := toNat_cases c
  rw [utf16Char] at hu
  split_ifs at hu
  · rw [List.mem_singleton] at hu
    omega
  · rw [List.mem_cons, List.mem_singleton] at hu
    omega

/-- A unit that is no surrogate stands for itself. -/
theorem validUtf16_cons {u : ℕ} (h : ¬ (0xD800 ≤ u ∧ u < 0xE000)) (us : List ℕ) :
    validUtf16 (u :: us) = validUtf16 us := by
  cases us with
  | nil => simp only [validUtf16, h, not_false_eq_true, decide_true]
  | cons v us =>
      have hhigh : ¬ (0xD800 ≤ u ∧ u < 0xDC00) := by omega
      have hlow : ¬ (0xDC00 ≤ u ∧ u < 0xE000) := by omega
      rw [validUtf16, if_neg hhigh, decide_eq_true hlow, Bool.true_and]

/-- **A text is valid UTF-16.** -/
theorem validUtf16_text (text : List Char) : validUtf16 (text.flatMap utf16Char) = true := by
  induction text with
  | nil => rfl
  | cons c text ih =>
      have hc := toNat_cases c
      rw [List.flatMap_cons, utf16Char]
      split_ifs with hbmp
      · rw [List.singleton_append, validUtf16_cons (by omega), ih]
      · have hhigh : 0xD800 ≤ 0xD800 + (c.toNat - 0x10000) / 0x400 ∧
            0xD800 + (c.toNat - 0x10000) / 0x400 < 0xDC00 := by omega
        have hlow : 0xDC00 ≤ 0xDC00 + (c.toNat - 0x10000) % 0x400 ∧
            0xDC00 + (c.toNat - 0x10000) % 0x400 < 0xE000 := by omega
        rw [List.cons_append, List.singleton_append, validUtf16, if_pos hhigh,
          decide_eq_true hlow, ih, Bool.true_and]

theorem utf16Units_flatMap {us : List ℕ} (h : ∀ u ∈ us, u < 65536) :
    utf16Units (us.flatMap (toLE 2)) = us := by
  induction us with
  | nil => rfl
  | cons u us ih =>
      have hu := h u (List.mem_cons_self ..)
      have hlo : (UInt8.ofNat u).toNat + 256 * (UInt8.ofNat (u / 256)).toNat = u := by
        simp only [UInt8.toNat_ofNat']
        omega
      rw [List.flatMap_cons, toLE, toLE, toLE, List.cons_append, List.cons_append, List.nil_append,
        utf16Units, ih fun v hv => h v (List.mem_cons_of_mem _ hv), hlo]

/-- **A zlib stream of a text** is media information, with a byte order mark or without. -/
theorem parseMediaInfoBody_text {C : Crates} {body : List UInt8} {text : List Char}
    (hne : body ≠ []) (h : C.zlib.readToEnd body = some (utf16Text text)) :
    parseMediaInfoBody C body = true := by
  have hlt : ∀ u ∈ text.flatMap utf16Char, u < 65536 := by
    intro u hu
    obtain ⟨c, -, hc⟩ := List.mem_flatMap.mp hu
    exact utf16Char_lt hc
  have hvalid := validUtf16_text text
  rw [parseMediaInfoBody, if_neg (by simpa using hne), h, utf16Text]
  generalize text.flatMap utf16Char = us at hlt hvalid
  have hlen : ∀ us : List ℕ, (us.flatMap (toLE 2)).length % 2 = 0 := by
    intro us
    simp [List.length_flatMap]
  simp only
  split_ifs with hbom hodd hodd
  · cases us with
    | nil => cases hbom
    | cons u us =>
        exact absurd (hlen us) hodd
  · -- The text behind a byte order mark, which is no surrogate.
    cases us with
    | nil => cases hbom
    | cons u us =>
        have hu := hlt u (List.mem_cons_self ..)
        have hmark : u = 0xFEFF := by
          simp only [List.flatMap_cons, toLE, List.cons_append, List.nil_append, List.take_succ_cons,
            List.take_zero, List.cons.injEq, and_true] at hbom
          have hlo := congrArg UInt8.toNat hbom.1
          have hhi := congrArg UInt8.toNat hbom.2
          simp only [UInt8.toNat_ofNat', UInt8.toNat_ofNat] at hlo hhi
          omega
        have hdrop : ((u :: us).flatMap (toLE 2)).drop 2 = us.flatMap (toLE 2) := rfl
        rw [hdrop, utf16Units_flatMap fun v hv => hlt v (List.mem_cons_of_mem _ hv)]
        rwa [validUtf16_cons (by omega)] at hvalid
  · exact absurd (hlen us) hodd
  · rw [utf16Units_flatMap hlt, hvalid]

/-! ### Sections -/

/-- A section and the bytes of its body. -/
structure SectionV2 extends Ewf2Section where
  content : List UInt8

/-- A section stands in a segment, behind the file header: its body, and behind the body the
descriptor with its fields. -/
structure SectionV2.StandsIn (data : List UInt8) (s : SectionV2) : Prop where
  inFile : evf2FileHeaderSize + s.dataSize ≤ s.descOffset
  size : s.content.length = s.dataSize
  body : HasAt data s.bodyStart s.content
  sectionType_le : s.sectionType ≤ u32Max
  dataFlags_le : s.dataFlags ≤ u32Max
  descriptor : ∃ mid tail, mid.length = 8 ∧ tail.length = 16 ∧
    HasAt data s.descOffset (toLE 4 s.sectionType ++ toLE 4 s.dataFlags ++ toLE 8 s.prevOffset ++
      toLE 8 s.dataSize ++ mid ++ s.storedHash.val ++ tail)

/-- A chain of sections from the last one backward: each one's descriptor names the place of the
descriptor before it, that of the first one zero. -/
def ChainedBack (data : List UInt8) : List SectionV2 → Prop
  | [] => True
  | [s] => s.StandsIn data ∧ s.prevOffset = 0
  | s :: t :: rest => s.StandsIn data ∧ s.prevOffset = t.descOffset ∧
      t.descOffset < s.descOffset ∧ ChainedBack data (t :: rest)

section Sections

variable {data : List UInt8} {s : SectionV2} {secs : List SectionV2}

theorem ChainedBack.standsIn (h : ChainedBack data secs) (hs : s ∈ secs) : s.StandsIn data := by
  induction secs with
  | nil => cases hs
  | cons t rest ih =>
      cases rest with
      | nil => exact List.mem_singleton.mp hs ▸ h.1
      | cons u rest =>
          rcases List.mem_cons.mp hs with rfl | hs
          · exact h.1
          · exact ih h.2.2.2 hs

/-- The body of a section is read back. -/
theorem SectionV2.StandsIn.body_eq (h : s.StandsIn data) :
    s.toEwf2Section.body data = some s.content := by
  have hle := h.inFile
  have hend : s.bodyStart + s.content.length = s.descOffset := by
    rw [h.size, Ewf2Section.bodyStart]
    omega
  have hslice := h.body.slice?
  rwa [hend] at hslice

/-- One turn of the backward walk reads the descriptor. -/
theorem SectionV2.StandsIn.backwardStep_eq (hdata : data.length < u64Max) (h : s.StandsIn data)
    (hprev : s.prevOffset < s.descOffset) :
    backwardStep data s.descOffset = some (s.toEwf2Section,
      if s.prevOffset = 0 ∨ s.prevOffset ≥ s.descOffset then none else some s.prevOffset) := by
  obtain ⟨mid, tail, hmid, htail, hat⟩ := h.descriptor
  obtain ⟨desc, hdesc⟩ : ∃ desc, desc = toLE 4 s.sectionType ++ toLE 4 s.dataFlags ++
    toLE 8 s.prevOffset ++ toLE 8 s.dataSize ++ mid ++ s.storedHash.val ++ tail := ⟨_, rfl⟩
  rw [← hdesc] at hat
  have hlen : desc.length = 64 := by
    simp only [hdesc, List.length_append, length_toLE, hmid, htail, s.storedHash.property]
  obtain ⟨hroom, hwin⟩ := hasAt_iff.mp hat
  rw [hlen] at hroom hwin
  have hin := h.inFile
  have hmax : u64Max = 18446744073709551615 := rfl
  have hself : HasAt desc 0 (toLE 4 s.sectionType ++ toLE 4 s.dataFlags ++ toLE 8 s.prevOffset ++
      toLE 8 s.dataSize ++ mid ++ s.storedHash.val ++ tail) := hdesc ▸ hasAt_self desc
  have h0 := hself.left.left.left.left.left.left
  have h1 := hself.left.left.left.left.left.right
  have h2 := hself.left.left.left.left.right
  have h3 := hself.left.left.left.right
  have h5 := hself.left.right
  simp only [List.length_append, length_toLE, hmid, Nat.zero_add, Nat.reduceAdd] at h1 h2 h3 h5
  have htype : leU32 desc 0 = s.sectionType :=
    h0.leAt (by omega) (Nat.lt_succ_of_le h.sectionType_le)
  have hflags : leU32 desc 4 = s.dataFlags :=
    h1.leAt (by omega) (Nat.lt_succ_of_le h.dataFlags_le)
  have hprev : leU64 desc 8 = s.prevOffset := h2.leAt (by omega) (by omega)
  have hsize : leU64 desc 16 = s.dataSize := h3.leAt (by omega) (by omega)
  have hhash : Digest.bytesAt 16 desc 32 = s.storedHash := by
    rw [Digest.bytesAt, (Digest.bytesAt?_eq_some_iff (by decide)).mpr h5, Option.getD_some]
  have hfits : ¬ (satAdd s.descOffset evf2SectionDescriptorSize > data.length ∨
      s.descOffset < evf2FileHeaderSize) := by
    rw [@satAdd_eq s.descOffset 64 (by omega)]
    omega
  rw [backwardStep, if_neg hfits]
  simp only [hwin, htype, hflags, hprev, hsize, hhash]

/-- Below the last section of a chain the offsets decrease to zero. -/
theorem ChainedBack.visits_eq (hdata : data.length < u64Max) {rest : List SectionV2}
    (h : ChainedBack data (s :: rest)) {n : ℕ} (hn : s.descOffset < n) :
    Loop.visits (backwardStep data) n s.descOffset =
      (s :: rest).map SectionV2.toEwf2Section := by
  induction rest generalizing s n with
  | nil =>
      obtain ⟨hs, hfirst⟩ := h
      obtain ⟨n, rfl⟩ : ∃ m, n = m + 1 := ⟨n - 1, by omega⟩
      have hin : 32 + s.dataSize ≤ s.descOffset := hs.inFile
      have hstep := hs.backwardStep_eq hdata (by rw [hfirst]; omega)
      rw [if_pos (Or.inl hfirst)] at hstep
      exact Loop.visits_of_last hstep n
  | cons t rest ih =>
      obtain ⟨hs, hprev, hlt, hrest⟩ := h
      obtain ⟨n, rfl⟩ : ∃ m, n = m + 1 := ⟨n - 1, by omega⟩
      have ht : 32 + t.dataSize ≤ t.descOffset := (hrest.standsIn (List.mem_cons_self ..)).inFile
      have hstep := hs.backwardStep_eq hdata (hprev ▸ hlt)
      rw [hprev, if_neg (by omega)] at hstep
      rw [Loop.visits_of_next hstep, ih hrest (by omega)]
      rfl

/-- **The walk visits the chain**, from the last section backward. -/
theorem backwardWalk_eq (hdata : data.length < u64Max) (h : ChainedBack data secs)
    (hne : secs ≠ []) (hlast : ∀ s ∈ secs.head?, s.descOffset + 64 = data.length) :
    backwardWalk data = secs.map SectionV2.toEwf2Section := by
  obtain ⟨s, rest, rfl⟩ := List.exists_cons_of_ne_nil hne
  have hend := hlast s rfl
  have hstart : data.length - evf2SectionDescriptorSize = s.descOffset := by
    rw [← hend]
    exact Nat.add_sub_cancel _ _
  rw [backwardWalk, hstart]
  exact h.visits_eq hdata (by omega)

end Sections

/-! ### The writer -/

/-- The sections that `encodeSectionsV2` writes from position `pos` on. -/
def placeSectionsV2 : ℕ → ℕ → List (ℕ × List UInt8) → List SectionV2
  | _, _, [] => []
  | pos, prev, (type, body) :: rest =>
    ⟨⟨pos + body.length, type, 0, prev, body.length, Digest.zero 16⟩, body⟩ ::
      placeSectionsV2 (pos + body.length + evf2SectionDescriptorSize) (pos + body.length) rest

section Writer

variable {data : List UInt8}

/-- A section that is written stands where it is placed. -/
theorem standsIn_of_hasAt {pos prev type : ℕ} {body : List UInt8} (hpos : evf2FileHeaderSize ≤ pos)
    (htype : type ≤ u32Max) (h : HasAt data pos (body ++ ewf2DescriptorBytes type prev body.length)) :
    SectionV2.StandsIn data
      ⟨⟨pos + body.length, type, 0, prev, body.length, Digest.zero 16⟩, body⟩ where
  inFile := Nat.add_le_add_right hpos _
  size := rfl
  body := by
    rw [Ewf2Section.bodyStart, Nat.add_sub_cancel]
    exact h.left
  sectionType_le := htype
  dataFlags_le := Nat.zero_le _
  descriptor := by
    refine ⟨toLE 4 64 ++ toLE 4 0, List.replicate 16 0, rfl, rfl, ?_⟩
    have hzero : List.replicate 32 (0 : UInt8) = (Digest.zero 16).val ++ List.replicate 16 0 := rfl
    have hright := h.right
    rw [ewf2DescriptorBytes, hzero] at hright
    simpa only [List.append_assoc] using hright

/-- Sections that are written behind a chain continue it. -/
theorem chainedBack_of_hasAt {secs : List (ℕ × List UInt8)} {pos prev : ℕ}
    {before : List SectionV2} (hpos : evf2FileHeaderSize ≤ pos)
    (htypes : ∀ s ∈ secs, s.1 ≤ u32Max) (h : HasAt data pos (encodeSectionsV2 pos prev secs))
    (hbefore : ChainedBack data before) (hprev : prev = (before.head?.map (·.descOffset)).getD 0)
    (hlt : ∀ t ∈ before.head?, t.descOffset < pos) :
    ChainedBack data ((placeSectionsV2 pos prev secs).reverse ++ before) := by
  induction secs generalizing pos prev before with
  | nil => exact hbefore
  | cons s rest ih =>
      obtain ⟨type, body⟩ := s
      have hstands := standsIn_of_hasAt hpos (htypes _ (List.mem_cons_self ..)) h.left
      have hrest := h.right
      have hlen : (body ++ ewf2DescriptorBytes type prev body.length).length =
          body.length + evf2SectionDescriptorSize := by
        simp [ewf2DescriptorBytes]
      rw [hlen, ← Nat.add_assoc] at hrest
      rw [placeSectionsV2, List.reverse_cons, List.append_assoc, List.singleton_append]
      refine ih (by omega) (fun t ht => htypes t (List.mem_cons_of_mem _ ht)) hrest ?_ rfl ?_
      · cases before with
        | nil => exact ⟨hstands, hprev⟩
        | cons t before =>
            exact ⟨hstands, hprev, lt_of_lt_of_le (hlt t rfl) (Nat.le_add_right _ _), hbefore⟩
      · rintro t ht
        obtain rfl := Option.some.inj ht
        exact Nat.lt_add_of_pos_right (by decide)

/-- **A segment that is written is chained.** -/
theorem chainedBack_encodeSegmentV2 (num : ℕ) {secs : List (ℕ × List UInt8)}
    (htypes : ∀ s ∈ secs, s.1 ≤ u32Max) :
    ChainedBack (encodeSegmentV2 num secs) (placeSectionsV2 evf2FileHeaderSize 0 secs).reverse := by
  have hat := (hasAt_self (encodeSegmentV2 num secs)).right
  have hlen : (evf2Signature ++ [2, 1] ++ toLE 2 1 ++ toLE 4 num ++
      List.replicate 16 (0 : UInt8)).length = evf2FileHeaderSize := by
    simp [evf2Signature]
  rw [Nat.zero_add, hlen] at hat
  have h := @chainedBack_of_hasAt _ _ _ 0 [] le_rfl htypes hat trivial rfl
    fun t ht => by cases ht
  rwa [List.append_nil] at h

/-- The placed sections have the types and the bodies that are written. -/
theorem map_placeSectionsV2 (pos prev : ℕ) (secs : List (ℕ × List UInt8)) :
    (placeSectionsV2 pos prev secs).map (fun t => (t.sectionType, t.content)) = secs := by
  induction secs generalizing pos prev with
  | nil => rfl
  | cons s rest ih => rw [placeSectionsV2, List.map_cons, ih]

/-- A placed section is plain and has no hash. -/
theorem plain_of_mem_placeSectionsV2 {pos prev : ℕ} {secs : List (ℕ × List UInt8)} {t : SectionV2}
    (ht : t ∈ placeSectionsV2 pos prev secs) :
    t.encrypted = false ∧ t.storedHash = Digest.zero 16 := by
  induction secs generalizing pos prev with
  | nil => cases ht
  | cons s rest ih =>
      rcases List.mem_cons.mp ht with rfl | ht
      · exact ⟨by simp [Ewf2Section.encrypted], rfl⟩
      · exact ih ht

/-- The last descriptor ends the sections. -/
theorem getLast?_placeSectionsV2 {pos prev : ℕ} {secs : List (ℕ × List UInt8)} {t : SectionV2}
    (ht : t ∈ (placeSectionsV2 pos prev secs).getLast?) :
    t.descOffset + evf2SectionDescriptorSize = pos + (encodeSectionsV2 pos prev secs).length := by
  induction secs generalizing pos prev with
  | nil => cases ht
  | cons s rest ih =>
      obtain ⟨type, body⟩ := s
      have hlen : (ewf2DescriptorBytes type prev body.length).length =
          evf2SectionDescriptorSize := by simp [ewf2DescriptorBytes]
      rw [encodeSectionsV2, List.length_append, List.length_append, hlen]
      cases rest with
      | nil =>
          obtain rfl := Option.some.inj ht
          rw [encodeSectionsV2, List.length_nil]
          change pos + body.length + _ = _
          omega
      | cons u rest =>
          have hrest := @ih (pos + body.length + evf2SectionDescriptorSize) (pos + body.length) ht
          rw [hrest, show ewf2SectionDescriptorSize = evf2SectionDescriptorSize from rfl]
          omega

end Writer

/-! ### Chunks -/

/-- A chunk of media, its bytes on disk and what the table says of it. -/
structure PlacedChunk where
  media : List UInt8
  bytes : List UInt8
  offset : ℕ
  flags : ℕ

/-- The table entry of a chunk: its size is that with the checksum behind it. -/
def PlacedChunk.entry (c : PlacedChunk) : Ewf2Entry := ⟨c.offset, c.bytes.length + 4, c.flags⟩

def PlacedChunk.entryBytes (c : PlacedChunk) : List UInt8 :=
  ewf2EntryBytes c.offset (c.bytes.length + 4) c.flags

/-- A chunk stands in a segment, raw or as a zlib stream, with its checksum behind it. -/
structure PlacedChunk.StandsIn (C : Crates) (data : List UInt8) (c : PlacedChunk) : Prop where
  bytes_eq : if c.entry.compressed then Zlib.IsStream C.zlib c.bytes c.media else c.bytes = c.media
  stands : HasAt data c.offset (c.bytes ++ toLE 4 (adler32 c.bytes))
  size_le : c.bytes.length + 4 ≤ u32Max
  flags_le : c.flags ≤ u32Max

/-- The body of a table that lists chunks: their number, their entries and the checksum of the
entries. -/
def TableOfChunks (chunks : List PlacedChunk) (tbl : List UInt8) : Prop :=
  ∃ first pad tail, first.length = 8 ∧ pad.length = 16 ∧
    tbl = first ++ toLE 8 chunks.length ++ pad ++ chunks.flatMap PlacedChunk.entryBytes ++
      toLE 4 (adler32 (chunks.flatMap PlacedChunk.entryBytes)) ++ tail

section Chunks

variable {C : Crates} {data tbl : List UInt8} {c : PlacedChunk} {chunks : List PlacedChunk}

@[simp] theorem length_entryBytes (c : PlacedChunk) : c.entryBytes.length = 16 := by
  simp [PlacedChunk.entryBytes, ewf2EntryBytes]

/-- The bytes of a chunk are read without the checksum. -/
theorem PlacedChunk.StandsIn.raw_eq (hdata : data.length < u64Max) (h : c.StandsIn C data) :
    c.entry.raw data = some c.bytes := by
  have hslice := h.stands.left.slice?
  have hle := h.stands.left.length_le
  have hend : satAdd c.entry.fileOffset c.entry.rawSize = c.offset + c.bytes.length :=
    @satAdd_eq c.offset c.bytes.length (by omega)
  rw [Ewf2Entry.raw, hend]
  exact hslice

/-- The checksum behind a chunk is that of its bytes. -/
theorem PlacedChunk.StandsIn.storedCrc_eq (hdata : data.length < u64Max) (h : c.StandsIn C data) :
    c.entry.storedCrc data = some (adler32 c.bytes) := by
  have hslice := h.stands.right.slice?
  have hle := h.stands.right.length_le
  rw [length_toLE] at hslice hle
  have hstart : satAdd c.entry.fileOffset c.entry.rawSize = c.offset + c.bytes.length :=
    @satAdd_eq c.offset c.bytes.length (by omega)
  have hend : satAdd (c.offset + c.bytes.length) 4 = c.offset + c.bytes.length + 4 :=
    satAdd_eq (by omega)
  have hroom : c.entry.dataSize ≥ 4 := Nat.le_add_left 4 c.bytes.length
  rw [Ewf2Entry.storedCrc, if_pos hroom]
  simp only [hstart, hend, hslice, Option.map_some]
  rw [ofLE_toLE (Adler32.checksum_lt c.bytes)]

/-- A chunk decodes to its media. -/
theorem PlacedChunk.StandsIn.decode_eq (h : c.StandsIn C data) :
    c.entry.decode C c.bytes = some c.media := by
  have hbytes := h.bytes_eq
  rw [Ewf2Entry.decode]
  split_ifs at hbytes ⊢ with hcomp
  · have hread := hbytes.readToEnd []
    rwa [List.append_nil] at hread
  · rw [hbytes]

/-- What a table of chunks holds, by position. -/
theorem TableOfChunks.fields (h : TableOfChunks chunks tbl) (htbl : tbl.length < u64Max) :
    leU64 tbl 8 = chunks.length ∧ 36 + 16 * chunks.length ≤ tbl.length ∧
      HasAt tbl 32 (chunks.flatMap PlacedChunk.entryBytes) ∧
      leU32 tbl (32 + 16 * chunks.length) = adler32 (chunks.flatMap PlacedChunk.entryBytes) := by
  obtain ⟨first, pad, tail, hfirst, hpad, hbytes⟩ := h
  have hlen : (chunks.flatMap PlacedChunk.entryBytes).length = 16 * chunks.length := by
    simp [List.length_flatMap, Nat.mul_comm]
  have hself : HasAt tbl 0 (first ++ toLE 8 chunks.length ++ pad ++
      chunks.flatMap PlacedChunk.entryBytes ++
      toLE 4 (adler32 (chunks.flatMap PlacedChunk.entryBytes)) ++ tail) := hbytes ▸ hasAt_self tbl
  have hcount := hself.left.left.left.left.right
  have hentries := hself.left.left.right
  have hsum := hself.left.right
  simp only [List.length_append, length_toLE, hfirst, hpad, hlen, Nat.zero_add,
    Nat.reduceAdd] at hcount hentries hsum
  have hmax : u64Max = 18446744073709551615 := rfl
  have hend := hsum.length_le
  rw [length_toLE] at hend
  refine ⟨hcount.leAt htbl.le (by omega), by omega, hentries, ?_⟩
  exact hsum.leAt htbl.le (Adler32.checksum_lt _)

/-- The entries are read back. -/
theorem TableOfChunks.entryAt_eq (h : TableOfChunks chunks tbl) (htbl : tbl.length < u64Max)
    {i : ℕ} (hi : chunks[i]? = some c) (hoff : c.offset ≤ u64Max)
    (hsize : c.bytes.length + 4 ≤ u32Max) (hflags : c.flags ≤ u32Max) :
    ewf2EntryAt tbl i = some c.entry := by
  obtain ⟨-, hroom, hentries, -⟩ := h.fields htbl
  have hlt := (List.getElem?_eq_some_iff.mp hi).1
  have hat : HasAt tbl (32 + 16 * i) (toLE 8 c.offset ++ toLE 4 (c.bytes.length + 4) ++
      toLE 4 c.flags) := hentries.flatMap (fun b _ => length_entryBytes b) hi
  have h1 := hat.left.right
  have h2 := hat.right
  simp only [List.length_append, length_toLE, Nat.reduceAdd] at h1 h2
  have hle := htbl.le
  rw [ewf2EntryAt_eq htbl, if_pos (by omega), PlacedChunk.entry]
  rw [u32Max] at hsize hflags
  rw [show leU64 tbl (32 + 16 * i) = c.offset from hat.left.left.leAt hle (Nat.lt_succ_of_le hoff),
    show leU32 tbl (40 + 16 * i) = c.bytes.length + 4 by
      rw [show 40 + 16 * i = 32 + 16 * i + 8 by omega]
      exact h1.leAt hle (by omega),
    show leU32 tbl (44 + 16 * i) = c.flags by
      rw [show 44 + 16 * i = 32 + 16 * i + 12 by omega]
      exact h2.leAt hle (by omega)]

/-- The chunks of a segment stand in it and are listed in its table. -/
structure ChunksIn (C : Crates) (data tbl : List UInt8) (chunks : List PlacedChunk) : Prop where
  table : TableOfChunks chunks tbl
  chunk : ∀ c ∈ chunks, c.StandsIn C data

/-- The entries of the chunks are read back, with their bytes. -/
theorem ChunksIn.entryAt_eq (h : ChunksIn C data tbl chunks) (hdata : data.length < u64Max)
    (htbl : tbl.length < u64Max) {i : ℕ} (hi : chunks[i]? = some c) :
    ewf2EntryAt tbl i = some c.entry ∧ c.entry.raw data = some c.bytes := by
  have hc := h.chunk c (List.mem_of_getElem? hi)
  have hle := hc.stands.length_le
  exact ⟨h.table.entryAt_eq htbl hi (by omega) hc.size_le hc.flags_le, hc.raw_eq hdata⟩

/-- **No chunk is reported**: every turn of the verification finds the checksum and the media. -/
theorem ChunksIn.verifyRun_issues (h : ChunksIn C data tbl chunks) (hdata : data.length < u64Max)
    (htbl : tbl.length < u64Max) : (verifyRun C data tbl).flatMap (·.issues) = [] := by
  refine List.flatMap_eq_nil_iff.mpr fun turn hturn => ?_
  obtain ⟨i, hi⟩ := List.mem_iff_getElem?.mp hturn
  obtain ⟨hlt, -, hstep⟩ := Loop.getElem?_forBreak.mp hi
  rw [(h.table.fields htbl).1] at hlt
  obtain ⟨hentry, hraw⟩ := h.entryAt_eq hdata htbl (List.getElem?_eq_getElem hlt)
  have hc := h.chunk chunks[i] (List.getElem_mem hlt)
  rw [Nat.zero_add, verifyTurn, hentry] at hstep
  simp only [hraw, hc.storedCrc_eq hdata, hc.decode_eq] at hstep
  obtain rfl := Option.some.inj hstep
  exact mismatch_eq_nil_iff.mpr fun r hr => Option.some.inj hr

/-- **The hashers get the media** of the chunks in the order of the table. -/
theorem ChunksIn.computeTurns_eq (h : ChunksIn C data tbl chunks) (hdata : data.length < u64Max)
    (htbl : tbl.length < u64Max) (hused : usedChunkTable data = some tbl) :
    computeTurns C data = chunks.map fun c => some c.media := by
  rw [computeTurns, hused]
  simp only [(h.table.fields htbl).1]
  have hrun := @Loop.forBreak_eq_of_getElem? _ (computeTurn C data tbl)
    (chunks.map fun c => some c.media) fun i media hi => ?_
  · rwa [List.length_map] at hrun
  · rw [List.getElem?_map] at hi
    obtain ⟨c, hc, rfl⟩ := Option.map_eq_some_iff.mp hi
    obtain ⟨hentry, hraw⟩ := h.entryAt_eq hdata htbl hc
    rw [computeTurn, hentry]
    simp only [hraw, (h.chunk c (List.mem_of_getElem? hc)).decode_eq]

/-- The checksum of the table fits its entries. -/
theorem TableOfChunks.checksumIssues_eq (h : TableOfChunks chunks tbl)
    (htbl : tbl.length < u64Max) : tableChecksumIssues tbl = [] := by
  obtain ⟨hcount, hroom, hentries, hsum⟩ := h.fields htbl
  have hoff : tableChecksumOff tbl = 32 + 16 * chunks.length := by
    rw [tableChecksumOff, hcount, @satMul_eq chunks.length 16 (by omega),
      @satAdd_eq 32 (chunks.length * 16) (by omega), Nat.mul_comm]
  have hwin := (hasAt_iff.mp hentries).2
  rw [show (chunks.flatMap PlacedChunk.entryBytes).length = 16 * chunks.length by
    simp [List.length_flatMap, Nat.mul_comm]] at hwin
  rw [tableChecksumIssues]
  simp only [hoff, hsum, Nat.add_sub_cancel_left, hwin, ne_eq, not_true_eq_false, if_false, ite_self]

/-- The body of a chunk table as it is written. -/
def tableBodyV2 (firstChunk : ℕ) (chunks : List PlacedChunk) : List UInt8 :=
  ewf2TableBytes firstChunk (chunks.map PlacedChunk.entryBytes) ++
    toLE 4 (adler32 (chunks.flatMap PlacedChunk.entryBytes))

theorem tableOfChunks_tableBodyV2 (firstChunk : ℕ) (chunks : List PlacedChunk) :
    TableOfChunks chunks (tableBodyV2 firstChunk chunks) := by
  refine ⟨toLE 8 firstChunk, List.replicate 16 0, [], length_toLE .., List.length_replicate, ?_⟩
  rw [tableBodyV2, ewf2TableBytes, List.length_map, ← List.flatMap_def, List.append_nil]

end Chunks

end EwfForensic.Image

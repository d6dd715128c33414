import EwfForensic.Forensic.ScanV2
import EwfForensic.Image.EncodeV2

/-!
# Coverage of the v2 Verdict

Which chunk-table entries a clean v2 verdict stands for. The verification of a segment has
four silent exits: a chunk outside the segment and an entry outside its table end the loop,
a table checksum outside the table is not looked at, and one table per segment is kept.

* `TablesCertified` — every entry of every chunk table that the walk meets was range-checked,
  passed its trailer check, was decoded and was fed to the hashers over all segments, and the
  table's own checksum was compared.
* `TablesInBounds` — the condition on the image: one chunk table per segment at most, an
  entry count without upper half, and every entry and checksum within its table and segment.
* `tablesCertified_iff` — on a clean image the two are the same.
-/

namespace EwfForensic

open Octets

/-- `Ewf2TableHeader::entry_count`: the reader's entry count is a 32-bit field. -/
def ewf2EntryCount (tbl : List UInt8) : ℕ := leU32 tbl 8

/-! ### What the analysis did -/

/-- Entry `i` of the table body `tbl` is certified: its range on disk, with the trailer, lies
in the segment; the verification compared its trailer, found nothing and decoded it; and the
hashers over all segments were fed the same bytes. -/
def EntryCertified (C : Crates) (data tbl : List UInt8) (i : ℕ) : Prop :=
  ∃ e turn bytes, ewf2EntryAt tbl i = some e ∧ e.fileOffset + e.dataSize ≤ data.length ∧
    (verifyRun C data tbl)[i]? = some turn ∧ turn.crcChecked = true ∧ turn.issues = [] ∧
    turn.decoded = some bytes ∧ (computeTurns C data)[i]? = some (some bytes)

/-- The table section `T` is certified: it is the table that the analysis kept and read, its
own checksum, right after its last entry, was compared, and each of its entries is
certified. -/
def TableCertified (C : Crates) (data : List UInt8) (T : Ewf2Section) : Prop :=
  ∃ tbl, T.body data = some tbl ∧
    chunkTableBody (backwardWalk data) = some (T.bodyStart, T.descOffset) ∧
    evf2ChunkTableHeaderSize + evf2ChunkTableEntrySize ≤ tbl.length ∧
    tableChecksumOff tbl = 32 + 16 * ewf2EntryCount tbl ∧ tableChecksumVerified tbl = true ∧
    ∀ i < ewf2EntryCount tbl, EntryCertified C data tbl i

/-- Every chunk table of every segment is certified. -/
def TablesCertified (C : Crates) (segments : List (List UInt8)) : Prop :=
  ∀ data ∈ segments, ∀ T ∈ backwardWalk data, T.sectionType = evf2TypeChunkTable →
    TableCertified C data T

/-! ### The condition -/

/-- The body of a table in plain bounds: it has room for a header, an entry, all its entries
and its checksum, the 32 bits above the entry count are zero, and each entry describes a
chunk with a trailer inside the segment. -/
def TableInBounds (data tbl : List UInt8) : Prop :=
  48 ≤ tbl.length ∧ leU64 tbl 8 = ewf2EntryCount tbl ∧
    36 + 16 * ewf2EntryCount tbl ≤ tbl.length ∧
    ∀ i < ewf2EntryCount tbl, 4 ≤ leU32 tbl (40 + 16 * i) ∧
      leU64 tbl (32 + 16 * i) + leU32 tbl (40 + 16 * i) ≤ data.length

/-- The walk of each segment meets one chunk table at most, and it is in bounds. -/
def TablesInBounds (segments : List (List UInt8)) : Prop :=
  ∀ data ∈ segments, ∀ T ∈ backwardWalk data, T.sectionType = evf2TypeChunkTable →
    (∀ T' ∈ backwardWalk data, T'.sectionType = evf2TypeChunkTable → T' = T) ∧
    ∃ tbl, T.body data = some tbl ∧ TableInBounds data tbl

/-! ### The walk -/

/-- A visited section has its descriptor in the segment, behind the file header. -/
theorem bounds_of_mem_backwardWalk {data : List UInt8} (hdata : data.length < u64Max)
    {s : Ewf2Section} (hs : s ∈ backwardWalk data) :
    32 ≤ s.descOffset ∧ s.descOffset + 64 ≤ data.length := by
  refine @Loop.forall_visits _ _ (backwardStep data) (fun _ => True)
    (fun s => 32 ≤ s.descOffset ∧ s.descOffset + 64 ≤ data.length)
    (fun _ _ _ _ _ => trivial) ?_ _ _ trivial s hs
  intro pos a t _ hstep
  rw [backwardStep] at hstep
  split_ifs at hstep with hbad
  · obtain ⟨hroom, hhead⟩ := not_or.mp hbad
    have hroom := (@satAdd_le_iff pos 64 _ hdata).mp (not_lt.mp hroom)
    simp only [Option.some.injEq, Prod.mk.injEq] at hstep
    rw [← hstep.1]
    exact ⟨not_lt.mp hhead, hroom⟩

/-- Every visited section has a body. -/
theorem body_of_mem_backwardWalk {data : List UInt8} (hdata : data.length < u64Max)
    {s : Ewf2Section} (hs : s ∈ backwardWalk data) :
    ∃ body, s.body data = some body ∧ slice? data s.bodyStart s.descOffset = some body := by
  have hb := bounds_of_mem_backwardWalk hdata hs
  have hle : s.bodyStart ≤ s.descOffset := Nat.sub_le _ _
  exact ⟨_, slice?_of_le hle (by omega), slice?_of_le hle (by omega)⟩

/-- The fields of a visited section are those of the descriptor at its offset. -/
theorem eq_of_mem_backwardWalk {data : List UInt8} {s s' : Ewf2Section}
    (hs : s ∈ backwardWalk data) (hs' : s' ∈ backwardWalk data)
    (h : s.descOffset = s'.descOffset) : s = s' := by
  have hread : ∀ s ∈ backwardWalk data, ∃ t, backwardStep data s.descOffset = some (s, t) := by
    refine @Loop.forall_visits _ _ (backwardStep data) (fun _ => True)
      (fun s => ∃ t, backwardStep data s.descOffset = some (s, t))
      (fun _ _ _ _ _ => trivial) ?_ _ _ trivial
    intro pos a t _ hstep
    have hpos : a.descOffset = pos := by
      rw [backwardStep] at hstep
      split_ifs at hstep
      · simp only [Option.some.injEq, Prod.mk.injEq] at hstep
        rw [← hstep.1]
    exact ⟨t, hpos ▸ hstep⟩
  obtain ⟨t, ht⟩ := hread s hs
  obtain ⟨t', ht'⟩ := hread s' hs'
  rw [h, ht'] at ht
  exact (Prod.mk.inj (Option.some.inj ht)).1.symm

/-- In a clean segment the table that is kept is a visited table, the last one. -/
theorem chunkTableBody_eq_some {C : Crates} {data : List UInt8} (h : CleanEwf2Segment C data)
    {T : Ewf2Section} (hT : T ∈ backwardWalk data) (htype : T.sectionType = evf2TypeChunkTable)
    (honly : ∀ T' ∈ backwardWalk data, T'.sectionType = evf2TypeChunkTable → T' = T) :
    chunkTableBody (backwardWalk data) = some (T.bodyStart, T.descOffset) := by
  have hmem : T ∈ (backwardWalk data).filter (·.isPlain evf2TypeChunkTable) :=
    List.mem_filter.mpr ⟨hT, (h.isPlain_iff hT _).mpr htype⟩
  have hlast := List.getLast?_eq_some_getLast (List.ne_nil_of_mem hmem)
  obtain ⟨hwalk, hplain⟩ := List.mem_filter.mp (List.mem_of_getLast? hlast)
  have := honly _ hwalk ((h.isPlain_iff hwalk _).mp hplain)
  rw [chunkTableBody, hlast, Option.map_some, this]

/-! ### Entries in plain arithmetic -/

section Entries

variable {C : Crates} {data tbl : List UInt8} {i count : ℕ}

theorem ewf2EntryAt_eq (htbl : tbl.length < u64Max) (i : ℕ) :
    ewf2EntryAt tbl i =
      if 48 + 16 * i ≤ tbl.length then
        some ⟨leU64 tbl (32 + 16 * i), leU32 tbl (40 + 16 * i), leU32 tbl (44 + 16 * i)⟩
      else none := by
  unfold ewf2EntryAt
  simp only
  by_cases h : 48 + 16 * i ≤ tbl.length
  · have hoff : satAdd evf2ChunkTableHeaderSize (satMul i evf2ChunkTableEntrySize) =
        32 + 16 * i := by
      rw [@satMul_eq i 16 (by omega), @satAdd_eq 32 (i * 16) (by omega)]
      omega
    rw [hoff, @satAdd_eq (32 + 16 * i) 16 (by omega), @satAdd_eq (32 + 16 * i) 8 (by omega),
      @satAdd_eq (32 + 16 * i) 12 (by omega), if_neg (by omega), if_pos h,
      show 32 + 16 * i + 8 = 40 + 16 * i by omega, show 32 + 16 * i + 12 = 44 + 16 * i by omega]
  · rw [if_neg h, if_pos]
    rw [gt_iff_lt, ← not_le, satAdd_le_iff htbl]
    rw [satAdd, satMul]
    rw [show evf2ChunkTableHeaderSize = 32 from rfl, show evf2ChunkTableEntrySize = 16 from rfl]
    omega

/-- A chunk can be read without its trailer exactly when that much of it is in the segment. -/
theorem raw_isSome_iff (hdata : data.length < u64Max) (e : Ewf2Entry) :
    (e.raw data).isSome ↔ e.fileOffset + e.rawSize ≤ data.length := by
  rw [Ewf2Entry.raw, slice?]
  split_ifs with h
  · simpa using (satAdd_le_iff hdata).mp h.2
  · simp only [Option.isSome_none, Bool.false_eq_true, false_iff]
    intro hle
    exact h ⟨by rw [satAdd_eq (by omega)]; omega, (satAdd_le_iff hdata).mpr hle⟩

/-- A chunk has a stored checksum exactly when its declared size has room for one and all of
it is in the segment. -/
theorem storedCrc_isSome_iff (hdata : data.length < u64Max) (e : Ewf2Entry) :
    (e.storedCrc data).isSome ↔ 4 ≤ e.dataSize ∧ e.fileOffset + e.dataSize ≤ data.length := by
  rw [Ewf2Entry.storedCrc]
  split_ifs with h4
  · rw [Option.isSome_map]
    rw [slice?]
    split_ifs with h
    · have h2 := (satAdd_le_iff hdata).mp h.2
      have h1 := (@satAdd_le_iff e.fileOffset e.rawSize data.length hdata).mp (by omega)
      rw [satAdd_eq (by omega)] at h2
      rw [Ewf2Entry.rawSize] at h2
      simp only [Option.isSome_some, true_iff]
      omega
    · simp only [Option.isSome_none, Bool.false_eq_true, false_iff]
      rintro ⟨-, hle⟩
      have hsum : satAdd e.fileOffset e.rawSize = e.fileOffset + e.rawSize :=
        satAdd_eq (by unfold Ewf2Entry.rawSize; omega)
      refine h ⟨?_, (satAdd_le_iff hdata).mpr ?_⟩
      · rw [hsum, satAdd_eq (by unfold Ewf2Entry.rawSize; omega)]
        omega
      · rw [hsum]
        rw [Ewf2Entry.rawSize]
        omega
  · simp only [Option.isSome_none, Bool.false_eq_true, false_iff]
    omega

/-- The verification loop breaks exactly where no chunk can be read. -/
theorem isSome_verifyTurn :
    (verifyTurn C data tbl count i).isSome = (chunkOnDisk data tbl i).isSome := by
  rw [verifyTurn, chunkOnDisk]
  cases ewf2EntryAt tbl i with
  | none => rfl
  | some e =>
      simp only [Option.bind_some]
      cases e.raw data with
      | none => rfl
      | some raw =>
          simp only [Option.map_some]
          cases e.decode C raw <;> rfl

/-- What one turn of the verification did with its chunk. -/
theorem verifyTurn_spec {turn : Ewf2Turn} (h : verifyTurn C data tbl count i = some turn) :
    ∃ e raw, ewf2EntryAt tbl i = some e ∧ chunkOnDisk data tbl i = some (e, raw) ∧
      turn.crcChecked = (e.storedCrc data).isSome ∧ turn.decoded = e.decode C raw ∧
      (turn.issues = [] → ∃ bytes, e.decode C raw = some bytes) := by
  rw [verifyTurn] at h
  rw [chunkOnDisk]
  cases he : ewf2EntryAt tbl i with
  | none =>
      rw [he] at h
      cases h
  | some e =>
      cases hr : e.raw data with
      | none =>
          simp only [he, hr] at h
          cases h
      | some raw =>
          refine ⟨e, raw, rfl, by simp [hr], ?_⟩
          simp only [he, hr] at h
          cases hd : e.decode C raw with
          | none =>
              simp only [hd, Option.some.injEq] at h
              subst h
              simp
          | some bytes =>
              simp only [hd, Option.some.injEq] at h
              subst h
              simp

/-- A stored checksum that differs from the chunk's own is reported. -/
theorem verifyTurn_reports {turn : Ewf2Turn} {e : Ewf2Entry} {raw : List UInt8}
    (h : verifyTurn C data tbl count i = some turn)
    (hdisk : chunkOnDisk data tbl i = some (e, raw)) {stored : ℕ}
    (hstored : e.storedCrc data = some stored) (hne : adler32 raw ≠ stored) :
    .chunkChecksumMismatch i (adler32 raw) stored ∈ turn.issues := by
  have hmem : EwfIntegrityAnomaly.chunkChecksumMismatch i (adler32 raw) stored ∈
      mismatch (adler32 raw) (e.storedCrc data)
        (EwfIntegrityAnomaly.chunkChecksumMismatch i (adler32 raw)) :=
    mem_mismatch_iff.mpr ⟨stored, hstored, hne, rfl⟩
  obtain ⟨e', he, hraw⟩ := Option.bind_eq_some_iff.mp hdisk
  obtain ⟨raw', hr, hpair⟩ := Option.map_eq_some_iff.mp hraw
  obtain ⟨rfl, rfl⟩ := Prod.mk.inj hpair
  rw [verifyTurn] at h
  simp only [he, hr] at h
  split at h
  · obtain rfl := Option.some.inj h
    exact List.mem_append_left _ hmem
  · obtain rfl := Option.some.inj h
    exact hmem

end Entries

/-! ### The verdict -/

/-- The turns of both chunk loops at an index before which every chunk can be read. -/
theorem turns_of_onDisk {C : Crates} {data tbl : List UInt8} {i : ℕ}
    (hused : usedChunkTable data = some tbl) (hi : i < leU64 tbl 8)
    (hall : ∀ j ≤ i, (chunkOnDisk data tbl j).isSome) :
    ∃ turn e raw, (verifyRun C data tbl)[i]? = some turn ∧
      verifyTurn C data tbl (leU64 tbl 8) i = some turn ∧ ewf2EntryAt tbl i = some e ∧
      chunkOnDisk data tbl i = some (e, raw) ∧
      (computeTurns C data)[i]? = some (e.decode C raw) := by
  have hturn : (verifyTurn C data tbl (leU64 tbl 8) i).isSome :=
    isSome_verifyTurn ▸ hall i le_rfl
  obtain ⟨turn, hturn⟩ := Option.isSome_iff_exists.mp hturn
  obtain ⟨e, raw, he, hdisk, -⟩ := verifyTurn_spec hturn
  refine ⟨turn, e, raw, ?_, hturn, he, hdisk, ?_⟩
  · refine Loop.getElem?_forBreak.mpr ⟨hi, fun j hj => ?_, by rwa [Nat.zero_add]⟩
    rw [Nat.zero_add, isSome_verifyTurn]
    exact hall j (le_of_lt hj)
  · rw [computeTurns, hused]
    refine Loop.getElem?_forBreak.mpr ⟨hi, fun j hj => ?_, ?_⟩
    · rw [Nat.zero_add, computeTurn_eq, Option.isSome_map]
      exact hall j (le_of_lt hj)
    · rw [Nat.zero_add, computeTurn_eq, hdisk, Option.map_some]

/-- A certified table is in bounds. -/
theorem TableCertified.inBounds {C : Crates} {data : List UInt8} (hdata : data.length < u64Max)
    {T : Ewf2Section} (hT : T ∈ backwardWalk data) (h : TableCertified C data T) :
    ∃ tbl, T.body data = some tbl ∧ TableInBounds data tbl := by
  obtain ⟨tbl, hbody, -, hlen, hoff, hver, hentries⟩ := h
  have htbl : tbl.length < u64Max := by
    have h1 := length_of_slice? hbody
    have h2 := bounds_of_mem_backwardWalk hdata hT
    omega
  have hcount : ewf2EntryCount tbl < 4294967296 := leU32_lt tbl 8
  have hmax : u64Max = 18446744073709551615 := rfl
  refine ⟨tbl, hbody, hlen, ?_, ?_, fun i hi => ?_⟩
  · rw [tableChecksumOff, satAdd, satMul] at hoff
    rw [show evf2ChunkTableHeaderSize = 32 from rfl,
      show evf2ChunkTableEntrySize = 16 from rfl] at hoff
    omega
  · have := (@satAdd_le_iff (tableChecksumOff tbl) 4 _ htbl).mp
      (by simpa [tableChecksumVerified] using hver)
    omega
  · obtain ⟨e, turn, bytes, he, hrange, hrun, hcrc, -⟩ := hentries i hi
    obtain ⟨-, -, hturn⟩ := Loop.getElem?_forBreak.mp hrun
    rw [Nat.zero_add] at hturn
    obtain ⟨e', raw, he', -, hchecked, -⟩ := verifyTurn_spec hturn
    obtain rfl : e = e' := Option.some.inj (he.symm.trans he')
    rw [hchecked, storedCrc_isSome_iff hdata] at hcrc
    rw [ewf2EntryAt_eq htbl] at he
    split_ifs at he
    obtain rfl := Option.some.inj he
    exact hcrc

/-- In a clean segment the only table of the walk is certified if it is in bounds. -/
theorem TableInBounds.certified {C : Crates} {data tbl : List UInt8} (hdata : data.length < u64Max)
    (hclean : CleanEwf2Segment C data) {T : Ewf2Section} (hT : T ∈ backwardWalk data)
    (hbody : T.body data = some tbl)
    (hkept : chunkTableBody (backwardWalk data) = some (T.bodyStart, T.descOffset))
    (h : TableInBounds data tbl) : TableCertified C data T := by
  obtain ⟨hlen, hcount, hroom, hentries⟩ := h
  have htbl : tbl.length < u64Max := by
    have h1 := length_of_slice? hbody
    have h2 := bounds_of_mem_backwardWalk hdata hT
    omega
  have hlt : ewf2EntryCount tbl < 4294967296 := leU32_lt tbl 8
  have hmax : u64Max = 18446744073709551615 := rfl
  have hoff : tableChecksumOff tbl = 32 + 16 * ewf2EntryCount tbl := by
    rw [tableChecksumOff, hcount, @satMul_eq (ewf2EntryCount tbl) 16 (by omega),
      @satAdd_eq 32 (ewf2EntryCount tbl * 16) (by omega)]
    omega
  have hlong : ¬ tbl.length < evf2ChunkTableHeaderSize + evf2ChunkTableEntrySize := not_lt.mpr hlen
  have hused : usedChunkTable data = some tbl := by
    have hread : evf2FileHeaderSize + evf2SectionDescriptorSize ≤ data.length := by
      simpa [ewf2Readable] using hclean.readable
    rw [usedChunkTable, if_neg (not_lt.mpr hread), hkept]
    simp only [show slice? data T.bodyStart T.descOffset = some tbl from hbody, if_neg hlong]
  have hverified := hclean.verified _ hkept
  simp only [verifyEwf2SectorData, show slice? data T.bodyStart T.descOffset = some tbl from hbody,
    if_neg hlong, List.append_eq_nil_iff, List.flatMap_eq_nil_iff] at hverified
  obtain ⟨⟨⟨⟨-, hissues⟩, -⟩, -⟩, -⟩ := hverified
  have hdisk : ∀ j < ewf2EntryCount tbl, (chunkOnDisk data tbl j).isSome := by
    intro j hj
    rw [chunkOnDisk, ewf2EntryAt_eq htbl, if_pos (by omega), Option.bind_some, Option.isSome_map,
      raw_isSome_iff hdata, Ewf2Entry.rawSize]
    have := (hentries j hj).2
    simp only
    omega
  refine ⟨tbl, hbody, hkept, hlen, hoff, ?_, fun i hi => ?_⟩
  · simp only [tableChecksumVerified, hoff, decide_eq_true_eq]
    exact (satAdd_le_iff htbl).mpr (by omega)
  · obtain ⟨turn, e, raw, hrun, hturn, he, hread, hcompute⟩ :=
      @turns_of_onDisk C data tbl i hused (by omega) fun j hj => hdisk j (by omega)
    have hnil := hissues turn (List.mem_of_getElem? hrun)
    obtain ⟨e', raw', he', hread', hchecked, hdecoded, hdec⟩ := verifyTurn_spec hturn
    obtain ⟨rfl, rfl⟩ := Prod.mk.inj (Option.some.inj (hread.symm.trans hread'))
    obtain ⟨bytes, hbytes⟩ := hdec hnil
    have hin := hentries i hi
    rw [ewf2EntryAt_eq htbl, if_pos (by omega)] at he
    obtain rfl := Option.some.inj he
    refine ⟨_, turn, bytes, he', hin.2, hrun, ?_, hnil, hdecoded.trans hbytes, ?_⟩
    · rw [hchecked, storedCrc_isSome_iff hdata]
      exact hin
    · rw [hcompute, hbytes]

/-- **Coverage of a clean v2 verdict.** On a v2 image that the analysis reports clean, every
entry of every chunk table was verified, decoded and hashed, and every table's own checksum
compared, exactly when the tables are in bounds. -/
theorem tablesCertified_iff (C : Crates) (segs : List Segment)
    (hv2 : isEwf2 (segs.map (·.data)) = true)
    (hclean : (EwfIntegrity.fromSegments segs).analyse C = []) :
    TablesCertified C (segs.map (·.data)) ↔ TablesInBounds (segs.map (·.data)) := by
  have hscan : (analyseAllEwf2 C (segs.map (·.data)) .none).1 = [] := by
    rw [← hclean, @analyse_v2 C (EwfIntegrity.fromSegments segs) hv2]
    rfl
  have hdata : ∀ data ∈ segs.map (·.data), data.length < u64Max := fun data hmem => by
    obtain ⟨s, -, rfl⟩ := List.mem_map.mp hmem
    exact s.length_lt_u64Max
  constructor
  · intro h data hmem T hT htype
    have hcert := h data hmem T hT htype
    refine ⟨fun T' hT' htype' => ?_, hcert.inBounds (hdata data hmem) hT⟩
    -- Two certified tables are both the one that was kept.
    obtain ⟨-, -, hkept, -⟩ := hcert
    obtain ⟨-, -, hkept', -⟩ := h data hmem T' hT' htype'
    rw [hkept] at hkept'
    exact eq_of_mem_backwardWalk hT' hT (Prod.mk.inj (Option.some.inj hkept')).2.symm
  · intro h data hmem T hT htype
    obtain ⟨honly, tbl, hbody, hin⟩ := h data hmem T hT htype
    have hseg := clean_ewf2 hscan data hmem
    exact hin.certified (hdata data hmem) hseg hT hbody (chunkTableBody_eq_some hseg hT htype honly)

/-! ### Two images -/

/-- A v2 image with an empty media information text, one stored chunk at offset 107 with its
trailer, a chunk table with the one entry `entry`, and the MD5 `md5`. -/
def ewf2ImageBytes (chunk entry : List UInt8) (md5 : Digest.Bytes 16) : List UInt8 :=
  let table := toLE 8 0 ++ toLE 8 1 ++ List.replicate 16 0 ++ entry ++ toLE 4 (adler32 entry)
  let tableDesc := 107 + (chunk.length + 4) + table.length
  evf2Signature ++ [2, 1, 0, 0] ++ toLE 4 1 ++ List.replicate 16 0 ++
    [0x78, 0x01, 0x01, 0x00, 0x00, 0xFF, 0xFF, 0x00, 0x00, 0x00, 0x01] ++
    ewf2DescriptorBytes evf2TypeMediaInfo 0 11 ++
    chunk ++ toLE 4 (adler32 chunk) ++
    table ++ ewf2DescriptorBytes evf2TypeChunkTable 43 table.length ++
    md5.1 ++ ewf2DescriptorBytes evf2TypeMd5Hash tableDesc 16

/-- A sound image of three bytes. -/
def ewf2Image : Segment :=
  ⟨ewf2ImageBytes [1, 2, 3] (ewf2EntryBytes 107 7 0) (Digest.md5 [1, 2, 3]), by decide +kernel⟩

/-- The same image with an entry that points behind the end of the file. -/
def ewf2StrayImage : Segment :=
  ⟨ewf2ImageBytes [1, 2, 3] (ewf2EntryBytes 1000 7 0) (Digest.md5 [1, 2, 3]), by decide +kernel⟩

theorem tablesCertified_iff_ewf2Image :
    isEwf2 [ewf2Image.data] = true ∧
      (EwfIntegrity.fromSegments [ewf2Image]).analyse Crates.reference = [] ∧
      (TablesCertified Crates.reference [ewf2Image.data] ↔ TablesInBounds [ewf2Image.data]) := by
  have hv2 : isEwf2 [ewf2Image.data] = true := by decide +kernel
  have hclean : (EwfIntegrity.fromSegments [ewf2Image]).analyse Crates.reference = [] := by
    decide +kernel
  exact ⟨hv2, hclean, tablesCertified_iff Crates.reference [ewf2Image] hv2 hclean⟩

/-- The image with the stray entry is reported clean although its chunk was never read. -/
theorem ewf2StrayImage_not_certified :
    isEwf2 [ewf2StrayImage.data] = true ∧
      (EwfIntegrity.fromSegments [ewf2StrayImage]).analyse Crates.reference = [] ∧
      ¬ TablesCertified Crates.reference [ewf2StrayImage.data] := by
  refine ⟨by decide +kernel, by decide +kernel, fun h => ?_⟩
  have htable : ∃ T ∈ backwardWalk ewf2StrayImage.data, T.sectionType = evf2TypeChunkTable := by
    decide +kernel
  have hrun : ∀ T ∈ backwardWalk ewf2StrayImage.data, T.sectionType = evf2TypeChunkTable →
      (T.body ewf2StrayImage.data).map (fun tbl => (ewf2EntryCount tbl,
        (verifyRun Crates.reference ewf2StrayImage.data tbl).length)) = some (1, 0) := by
    decide +kernel
  obtain ⟨T, hT, htype⟩ := htable
  obtain ⟨tbl, hbody, -, -, -, -, hentries⟩ := h _ (List.mem_singleton_self _) T hT htype
  have hlen := hrun T hT htype
  rw [hbody, Option.map_some, Option.some.injEq, Prod.mk.injEq] at hlen
  obtain ⟨e, turn, bytes, -, -, hturn, -⟩ := hentries 0 (by omega)
  rw [List.length_eq_zero_iff.mp hlen.2] at hturn
  cases hturn

end EwfForensic

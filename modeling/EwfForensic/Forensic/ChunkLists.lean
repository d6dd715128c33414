import EwfForensic.Forensic.DescriptorWalks
import EwfForensic.Core.FirstChunk

/-!
# The Chunk Lists of the v2 Reader and the v2 Analysis

The reader has the entries of all tables of a segment; the analysis uses the last table that it
walks past, and of it the entries up to the first whose chunk leaves the segment.

* `visitedChunks` — the chunks that `compute_hashes_ewf2` visits; `computeTurns_eq` says that its
  turns are those of these chunks.
* `ReadsOneTable` — the condition: the table that the analysis uses has as many readable entries
  as all tables of the segment list.
* `chunkLists_agree_iff` — exactly then both have the same chunks.
-/

namespace EwfForensic

open Octets

/-! ### The chunks that the analysis visits -/

/-- The chunks of a segment that `compute_hashes_ewf2` visits, each an entry with the bytes on
disk. -/
def visitedOnDisk (data : List UInt8) : List (Ewf2Entry × List UInt8) :=
  match usedChunkTable data with
  | none => []
  | some tbl => Loop.forBreak (chunkOnDisk data tbl) (leU64 tbl 8) 0

/-- Its turns decode these chunks. -/
theorem computeTurns_eq (C : Crates) (data : List UInt8) :
    computeTurns C data = (visitedOnDisk data).map fun p => p.1.decode C p.2 := by
  rw [computeTurns, visitedOnDisk]
  cases usedChunkTable data with
  | none => rfl
  | some tbl =>
      simp only [← Loop.forBreak_map]
      exact Loop.forBreak_congr fun m _ => computeTurn_eq C data tbl (0 + m)

/-- The chunk of an entry that the analysis read in segment `segIdx`. -/
def Ewf2Entry.visited (segIdx : ℕ) (e : Ewf2Entry) : Chunk :=
  ⟨segIdx, e.compressed, e.fileOffset, e.dataSize⟩

/-- The chunks that `compute_hashes_ewf2` visits, in order. -/
def visitedChunks (segments : List Segment) : List Chunk :=
  segments.zipIdx.flatMap fun q => (visitedOnDisk q.1.data).map fun p => p.1.visited q.2

/-! ### The table that is used -/

section Used

variable {data : List UInt8} {T : Ewf2SectionDescriptor} {i : ℕ}

/-- The sixteen bytes at place `i` behind the header of a table. -/
def ewf2Slot (data : List UInt8) (T : Ewf2SectionDescriptor) (i : ℕ) : Ewf2TableEntry :=
  Ewf2TableEntry.ofBytes (readAtMost data (T.start + 32 + 16 * i) ewf2TableEntrySize)

/-- The analysis can read entry `i` of a table: the count covers it, taken with the four reserved
bytes behind it, the section holds it, and its chunk lies in the segment. -/
structure Readable (data : List UInt8) (T : Ewf2SectionDescriptor) (i : ℕ) : Prop where
  counted : i < leU64 data (T.start + 8)
  held : 48 + 16 * i ≤ T.dataSize
  in_segment : (ewf2Slot data T i).chunkDataOffset + ((ewf2Slot data T i).chunkDataSize - 4) ≤
    data.length

instance : Decidable (Readable data T i) :=
  decidable_of_iff (i < leU64 data (T.start + 8) ∧ 48 + 16 * i ≤ T.dataSize ∧
      (ewf2Slot data T i).chunkDataOffset + ((ewf2Slot data T i).chunkDataSize - 4) ≤ data.length)
    ⟨fun h => ⟨h.1, h.2.1, h.2.2⟩, fun h => ⟨h.counted, h.held, h.in_segment⟩⟩

/-- An entry as the analysis has it. -/
def Ewf2TableEntry.toEntry (e : Ewf2TableEntry) : Ewf2Entry :=
  ⟨e.chunkDataOffset, e.chunkDataSize, e.flags⟩

/-- An entry of the table is the sixteen bytes at its place. -/
theorem entry_eq_slot (hdata : data.length < u64Max) (hin : T.start + T.dataSize ≤ data.length)
    (hroom : 48 + 16 * i ≤ T.dataSize) :
    (⟨leU64 ((data.drop T.start).take T.dataSize) (32 + 16 * i),
      leU32 ((data.drop T.start).take T.dataSize) (40 + 16 * i),
      leU32 ((data.drop T.start).take T.dataSize) (44 + 16 * i)⟩ : Ewf2Entry) =
        (ewf2Slot data T i).toEntry := by
  have htbl : ∀ w off, off + w ≤ T.dataSize →
      leAt w ((data.drop T.start).take T.dataSize) off = leAt w data (T.start + off) :=
    fun w off hw => leAt_window (by omega) hin hw
  have hslot : ∀ w off, off + w ≤ 16 →
      leAt w (readAtMost data (T.start + 32 + 16 * i) ewf2TableEntrySize) off =
        leAt w data (T.start + (32 + 16 * i + off)) := fun w off hw => by
    rw [readAtMost, leAt_window (by omega) (by omega) hw]
    congr 1
    omega
  simp only [ewf2Slot, Ewf2TableEntry.ofBytes, Ewf2TableEntry.toEntry, leU64, leU32,
    Ewf2Entry.mk.injEq]
  rw [htbl 8 _ (by omega), htbl 4 _ (by omega), htbl 4 _ (by omega), hslot 8 0 (by decide),
    hslot 4 8 (by decide), hslot 4 12 (by decide)]
  refine ⟨rfl, ?_, ?_⟩
  · congr 1
    omega
  · congr 1
    omega

/-- **A chunk on disk**, in terms of the segment's bytes. -/
theorem chunkOnDisk_kept (hdata : data.length < u64Max) (hin : T.start + T.dataSize ≤ data.length)
    (i : ℕ) :
    (chunkOnDisk data ((data.drop T.start).take T.dataSize) i).map Prod.fst =
      if 48 + 16 * i ≤ T.dataSize ∧ (ewf2Slot data T i).chunkDataOffset +
          ((ewf2Slot data T i).chunkDataSize - 4) ≤ data.length then
        some (ewf2Slot data T i).toEntry
      else none := by
  have hlen : ((data.drop T.start).take T.dataSize).length = T.dataSize := by
    rw [List.length_take, List.length_drop]
    omega
  rw [chunkOnDisk, ewf2EntryAt_eq (by omega), hlen]
  by_cases hroom : 48 + 16 * i ≤ T.dataSize
  · rw [if_pos hroom, entry_eq_slot hdata hin hroom, Option.bind_some, Option.map_map]
    have hraw := raw_isSome_iff hdata (ewf2Slot data T i).toEntry
    cases hbytes : (ewf2Slot data T i).toEntry.raw data with
    | none =>
        rw [hbytes] at hraw
        rw [if_neg (fun h => by simpa using hraw.mpr h.2)]
        rfl
    | some raw =>
        rw [hbytes] at hraw
        rw [if_pos ⟨hroom, hraw.mp rfl⟩]
        rfl
  · rw [if_neg hroom, if_neg (fun h => hroom h.1)]
    rfl

/-- The entries visited in a segment with a table that is used are the readable ones in front. -/
theorem getElem?_visitedOnDisk (h : WellRead data) (hdata : data.length < u64Max)
    (hT : keptTable data = some T) {e : Ewf2Entry} :
    ((visitedOnDisk data).map Prod.fst)[i]? = some e ↔
      (∀ m ≤ i, Readable data T m) ∧ e = (ewf2Slot data T i).toEntry := by
  obtain ⟨hmem, htable, hroom⟩ := keptTable_eq_some hT
  have hfits := h.fits T hmem htable
  have hoff := (h.eq_descriptorAt hmem).2
  have hin : T.start + T.dataSize ≤ data.length := by
    have := hfits.size_le
    rw [Ewf2SectionDescriptor.start]
    omega
  have hcount : leU64 ((data.drop T.start).take T.dataSize) 8 = leU64 data (T.start + 8) :=
    leAt_window (by omega) hin (by omega)
  have hkept := fun m => @chunkOnDisk_kept data T hdata hin m
  rw [visitedOnDisk, usedChunkTable_eq h hdata, hT, Option.map_some]
  simp only
  rw [← Loop.forBreak_map, Loop.getElem?_forBreak, hcount]
  simp only [Nat.zero_add]
  constructor
  · rintro ⟨hi, hbefore, hlast⟩
    rw [hkept] at hlast
    split_ifs at hlast with hread
    obtain rfl := Option.some.inj hlast
    refine ⟨fun m hm => ?_, rfl⟩
    rcases Nat.lt_or_eq_of_le hm with hm | rfl
    · have hm' := hbefore m hm
      rw [hkept] at hm'
      split_ifs at hm' with hread'
      · exact ⟨by omega, hread'.1, hread'.2⟩
      · cases hm'
    · exact ⟨hi, hread.1, hread.2⟩
  · rintro ⟨hread, rfl⟩
    refine ⟨(hread i le_rfl).counted, fun m hm => ?_, ?_⟩
    · have hm' := hread m (Nat.le_of_lt hm)
      rw [hkept, if_pos ⟨hm'.held, hm'.in_segment⟩]
      rfl
    · have hi := hread i le_rfl
      rw [hkept, if_pos ⟨hi.held, hi.in_segment⟩]

end Used

/-! ### One segment -/

/-- The entries that the tables of a segment list. -/
def ewf2ListedEntries (data : List UInt8) : List Ewf2TableEntry :=
  (ewf2Tables data).flatMap (·.entries)

/-- The analysis can read as many entries of its table as the segment lists, and no more. -/
structure ReadsListed (data : List UInt8) (T : Ewf2SectionDescriptor) : Prop where
  readable : ∀ i < (ewf2ListedEntries data).length, Readable data T i
  stops : ¬ Readable data T (ewf2ListedEntries data).length

/-- **One table.** No table but the one that the analysis uses lists an entry, and it can read
the entries of that one, and no more. -/
def ReadsOneTable (data : List UInt8) : Prop :=
  match keptTable data with
  | none => ewf2ListedEntries data = []
  | some T =>
      (ewf2ListedEntries data).length = (ewf2HeaderAt data T).entryCount ∧ ReadsListed data T

/-- Other tables list entries, and the section of the one that is used goes on after its own
entries as if it held theirs. -/
def RunsOn (data : List UInt8) : Prop :=
  ∃ T, keptTable data = some T ∧
    (ewf2HeaderAt data T).entryCount < (ewf2ListedEntries data).length ∧
    ReadsListed data T ∧
    ∀ i e, (ewf2ListedEntries data)[i]? = some e → e.chunk 0 = (ewf2Slot data T i).chunk 0

section Segment

variable {data : List UInt8} {T : Ewf2SectionDescriptor} {i k : ℕ}

theorem ewf2ChunksOf_ewf2Tables (data : List UInt8) (k : ℕ) :
    ewf2ChunksOf k (ewf2Tables data) = (ewf2ListedEntries data).map (·.chunk k) := by
  rw [ewf2ChunksOf, ewf2ListedEntries, List.map_flatMap]

theorem chunk_eq_iff {e e' : Ewf2TableEntry} : e.chunk k = e'.chunk k ↔ e.chunk 0 = e'.chunk 0 := by
  simp [Ewf2TableEntry.chunk, Chunk.new]

/-- A readable chunk is kept by the reader as the analysis has it. -/
theorem visited_toEntry (hdata : data.length < 9223372036854775808) (hk : k < 4294967296)
    (h : Readable data T i) :
    (ewf2Slot data T i).toEntry.visited k = (ewf2Slot data T i).chunk k := by
  have hoff : (ewf2Slot data T i).chunkDataOffset < 9223372036854775808 := by
    have := h.in_segment
    omega
  have hsize : (ewf2Slot data T i).chunkDataSize < 4294967296 := leAt_lt 4 _ 8
  rw [Ewf2TableEntry.chunk, Chunk.new, Nat.mod_eq_of_lt hk, Nat.mod_eq_of_lt hoff,
    Nat.mod_eq_of_lt hsize]
  rfl

/-- An entry that a table lists is the sixteen bytes at its place. -/
theorem getElem?_entries (hi : i < (ewf2HeaderAt data T).entryCount) :
    (ewf2TableAt data T).entries[i]? = some (ewf2Slot data T i) := by
  rw [ewf2TableAt, ewf2TableEntries, List.getElem?_map, List.getElem?_range hi, Option.map_some,
    ewf2Slot, readAtMost, readAtMost, List.drop_take, List.take_take, List.drop_drop,
    Nat.mul_comm 16 i]
  congr 3
  exact Nat.min_eq_left (Nat.le_sub_of_add_le (by
    have : (i + 1) * ewf2TableEntrySize ≤ (ewf2HeaderAt data T).entryCount * ewf2TableEntrySize :=
      Nat.mul_le_mul_right _ hi
    rwa [Nat.succ_mul, Nat.add_comm] at this))

/-- The entries of the table that is used are among those listed. -/
theorem ewf2ListedEntries_eq_append (hT : keptTable data = some T) :
    ∃ before after, ewf2ListedEntries data = before ++ (ewf2TableAt data T).entries ++ after := by
  obtain ⟨hmem, htable, -⟩ := keptTable_eq_some hT
  obtain ⟨s, t, hst⟩ := List.append_of_mem (show ewf2TableAt data T ∈ ewf2Tables data from
    List.mem_map_of_mem (List.mem_filter.mpr ⟨hmem, htable⟩))
  refine ⟨s.flatMap (·.entries), t.flatMap (·.entries), ?_⟩
  rw [ewf2ListedEntries, hst, List.flatMap_append, List.flatMap_cons, List.append_assoc]

/-- **The chunks of one segment**, in terms of the table that is used. -/
theorem chunks_eq_visited_iff (h : WellRead data) (hdata : data.length < 9223372036854775808)
    (hk : k < 4294967296) (hT : keptTable data = some T) :
    (ewf2ListedEntries data).map (·.chunk k) = (visitedOnDisk data).map (fun p => p.1.visited k) ↔
      ReadsListed data T ∧
        ∀ i e, (ewf2ListedEntries data)[i]? = some e → e.chunk 0 = (ewf2Slot data T i).chunk 0 := by
  have hmax : data.length < u64Max := lt_trans hdata (by decide)
  have hget := fun i e => @getElem?_visitedOnDisk data T i h hmax hT e
  have hvisited : (visitedOnDisk data).map (fun p => p.1.visited k) =
      ((visitedOnDisk data).map Prod.fst).map (·.visited k) := by rw [List.map_map]; rfl
  rw [hvisited]
  constructor
  · intro heq
    have hlen := congrArg List.length heq
    rw [List.length_map, List.length_map] at hlen
    have hsome : ∀ i < (ewf2ListedEntries data).length, ∃ e,
        ((visitedOnDisk data).map Prod.fst)[i]? = some e := fun i hi =>
      ⟨_, List.getElem?_eq_getElem (by omega)⟩
    refine ⟨⟨fun i hi => ?_, fun hread => ?_⟩, fun i e he => ?_⟩
    · obtain ⟨e, he⟩ := hsome i hi
      exact ((hget i e).mp he).1 i le_rfl
    · have hpast := (hget (ewf2ListedEntries data).length _).mpr ⟨fun m hm => ?_, rfl⟩
      · have hlt := (List.getElem?_eq_some_iff.mp hpast).1
        omega
      · rcases Nat.lt_or_eq_of_le hm with hm | rfl
        · obtain ⟨e, he⟩ := hsome m hm
          exact ((hget m e).mp he).1 m le_rfl
        · exact hread
    · obtain ⟨e', he'⟩ := hsome i (List.getElem?_eq_some_iff.mp he).1
      obtain ⟨hread, rfl⟩ := (hget i e').mp he'
      have hi := congrArg (·[i]?) heq
      simp only [List.getElem?_map, he, Option.map_some] at hi
      rw [← List.getElem?_map, he', Option.map_some, Option.some.injEq,
        visited_toEntry hdata hk (hread i le_rfl)] at hi
      exact chunk_eq_iff.mp hi
  · rintro ⟨⟨hread, hstop⟩, hsame⟩
    refine List.ext_getElem? fun i => ?_
    rw [List.getElem?_map, List.getElem?_map]
    by_cases hi : i < (ewf2ListedEntries data).length
    · have hreads : ∀ m ≤ i, Readable data T m := fun m hm => hread m (by omega)
      obtain ⟨e, he⟩ : ∃ e, (ewf2ListedEntries data)[i]? = some e :=
        ⟨_, List.getElem?_eq_getElem hi⟩
      rw [he, (hget i _).mpr ⟨hreads, rfl⟩, Option.map_some, Option.map_some,
        visited_toEntry hdata hk (hreads i le_rfl), chunk_eq_iff.mpr (hsame i e he)]
    · rw [List.getElem?_eq_none (by omega), Option.map_none]
      cases he : ((visitedOnDisk data).map Prod.fst)[i]? with
      | none => rfl
      | some e => exact absurd (((hget i e).mp he).1 _ (by omega)) hstop

/-- **The chunks of one segment** are the same in both lists exactly when the analysis reads the
one table there is, or runs on past its entries as if over those of the others. -/
theorem segment_chunks_iff (h : WellRead data) (hdata : data.length < 9223372036854775808)
    (hk : k < 4294967296) :
    ewf2ChunksOf k (ewf2Tables data) = (visitedOnDisk data).map (fun p => p.1.visited k) ↔
      ReadsOneTable data ∨ RunsOn data := by
  rw [ewf2ChunksOf_ewf2Tables, ReadsOneTable, RunsOn]
  cases hT : keptTable data with
  | none =>
      have hnone : visitedOnDisk data = [] := by
        rw [visitedOnDisk, usedChunkTable_eq h (lt_trans hdata (by decide)), hT]
        rfl
      simp [hnone]
  | some T =>
      obtain ⟨before, after, hlisted⟩ := ewf2ListedEntries_eq_append hT
      have hlen := congrArg List.length hlisted
      rw [List.length_append, List.length_append] at hlen
      have hown : (ewf2TableAt data T).entries.length = (ewf2HeaderAt data T).entryCount :=
        length_ewf2TableEntries _ _
      rw [chunks_eq_visited_iff h hdata hk hT]
      constructor
      · rintro ⟨hreads, hsame⟩
        have hle : (ewf2HeaderAt data T).entryCount ≤ (ewf2ListedEntries data).length := by omega
        rcases Nat.lt_or_eq_of_le hle with hlt | heq
        · exact Or.inr ⟨T, rfl, hlt, hreads, hsame⟩
        · exact Or.inl ⟨heq.symm, hreads⟩
      · rintro (⟨heq, hreads⟩ | ⟨T', hT', -, hreads, hsame⟩)
        · refine ⟨hreads, fun i e he => ?_⟩
          obtain rfl : before = [] := List.length_eq_zero_iff.mp (by omega)
          obtain rfl : after = [] := List.length_eq_zero_iff.mp (by omega)
          rw [List.nil_append, List.append_nil] at hlisted
          have hi := (List.getElem?_eq_some_iff.mp he).1
          rw [hlisted, getElem?_entries (by omega)] at he
          rw [Option.some.inj he]
        · obtain rfl := Option.some.inj hT'
          exact ⟨hreads, hsame⟩

end Segment

/-! ### All segments -/

/-- The part of a list that comes from one segment, where each element tells its segment. -/
theorem filter_flatMap_zipIdx {α β : Type} {f : α × ℕ → List β} {tag : β → ℕ} {l : List α} {n : ℕ}
    (hf : ∀ q ∈ l.zipIdx n, ∀ b ∈ f q, tag b = q.2) {q : α × ℕ} (hq : q ∈ l.zipIdx n) :
    ((l.zipIdx n).flatMap f).filter (tag · = q.2) = f q := by
  induction l generalizing n with
  | nil => cases hq
  | cons a l ih =>
      rw [List.zipIdx_cons] at hf hq ⊢
      obtain ⟨hhead, hrest⟩ := List.forall_mem_cons.mp hf
      rw [List.flatMap_cons, List.filter_append]
      rcases List.mem_cons.mp hq with rfl | hq
      · have hown : (f (a, n)).filter (tag · = n) = f (a, n) :=
          List.filter_eq_self.mpr fun b hb => decide_eq_true (hhead b hb)
        have hnone : ((l.zipIdx (n + 1)).flatMap f).filter (tag · = n) = [] := by
          rw [List.filter_eq_nil_iff]
          intro b hb
          obtain ⟨p, hp, hb⟩ := List.mem_flatMap.mp hb
          have hlt := List.le_snd_of_mem_zipIdx hp
          have htag := hrest p hp b hb
          simp only [decide_eq_true_eq]
          omega
        rw [hown, hnone, List.append_nil]
      · have hnone : (f (a, n)).filter (tag · = q.2) = [] := by
          rw [List.filter_eq_nil_iff]
          intro b hb
          have hlt := List.le_snd_of_mem_zipIdx hq
          have htag := hhead b hb
          simp only [decide_eq_true_eq]
          omega
        rw [hnone, List.nil_append, ih hrest hq]

/-- **The two chunk lists** of segments that the reader opens are the same exactly when, in each
segment, the analysis reads the one table there is, or runs on past its entries as if over those
of the others. -/
theorem chunkLists_agree_iff (C : Crates) {sources : List Segment} {cacheSize : ℕ} {r : EwfReader}
    (hopen : openSegmentsV2 C sources cacheSize = .ok r) :
    r.chunks = .eager (visitedChunks r.segments) ↔
      ∀ s ∈ r.segments, ReadsOneTable s.data ∨ RunsOn s.data := by
  obtain ⟨st, -, -, hchunks, hread, hmany⟩ := openSegmentsV2_ok hopen
  have hsegment : ∀ q ∈ r.segments.zipIdx,
      (ewf2ChunksOf q.2 (ewf2Tables q.1.data) =
          (visitedOnDisk q.1.data).map (fun p => p.1.visited q.2) ↔
        ReadsOneTable q.1.data ∨ RunsOn q.1.data) := by
    rintro ⟨s, k⟩ hq
    have hk := List.mem_zipIdx_iff_getElem?.mp hq
    have hlt := (List.getElem?_eq_some_iff.mp hk).1
    exact segment_chunks_iff (hread s (List.mem_of_getElem? hk)).1 s.length_lt (by omega)
  rw [hchunks, ChunkTable.eager.injEq, ewf2Chunks, visitedChunks]
  constructor
  · intro heq s hs
    obtain ⟨k, hk⟩ := List.mem_iff_getElem?.mp hs
    have hq : (s, k) ∈ r.segments.zipIdx := List.mem_zipIdx_iff_getElem?.mpr hk
    have hparts := congrArg (List.filter (·.segmentIdx = (s, k).2)) heq
    rw [filter_flatMap_zipIdx ?_ hq, filter_flatMap_zipIdx ?_ hq] at hparts
    · exact (hsegment (s, k) hq).mp hparts
    · intro q _ c hc
      obtain ⟨p, -, rfl⟩ := List.mem_map.mp hc
      rfl
    · intro q hq c hc
      rw [ewf2ChunksOf_ewf2Tables] at hc
      obtain ⟨e, -, rfl⟩ := List.mem_map.mp hc
      have hlt := (List.getElem?_eq_some_iff.mp (List.mem_zipIdx_iff_getElem?.mp hq)).1
      exact Nat.mod_eq_of_lt (by omega)
  · intro h
    refine List.flatMap_congr fun q hq => (hsegment q hq).mpr (h q.1 ?_)
    exact List.mem_of_getElem? (List.mem_zipIdx_iff_getElem?.mp hq)

/-- A segment with one chunk table, of one entry. -/
def oneTableImage : Segment :=
  ⟨Image.encodeSegmentV2 1 [(4, Image.ewf2TableBytes 0 [ewf2EntryBytes 0 20 0])], by decide +kernel⟩

/-- A segment with two chunk tables, of one entry each. -/
def tablePairImage : Segment :=
  ⟨Image.encodeSegmentV2 1 [(4, Image.ewf2TableBytes 0 [ewf2EntryBytes 0 20 0]),
    (4, Image.ewf2TableBytes 1 [ewf2EntryBytes 16 20 0])], by decide +kernel⟩

theorem chunkLists_agree_iff_oneTableImage :
    ∃ r, openSegmentsV2 Crates.reference [oneTableImage] defaultLruSize = .ok r ∧
      ∀ s ∈ r.segments, ReadsOneTable s.data ∨ RunsOn s.data := by
  have hval : (openOneV2 oneTableImage).map (fun r : EwfReader =>
      decide (r.chunks = .eager (visitedChunks r.segments))) = some true := by
    decide +kernel
  obtain ⟨r, hr, hsame⟩ := Option.map_eq_some_iff.mp hval
  have hopen := openOneV2_eq_some hr
  exact ⟨r, hopen, (chunkLists_agree_iff Crates.reference hopen).mp (of_decide_eq_true hsame)⟩

/-- Of two tables the reader has both, the analysis the one that stands first. -/
theorem tablePairImage_not_agree :
    ∃ r, openSegmentsV2 Crates.reference [tablePairImage] defaultLruSize = .ok r ∧
      r.chunks = .eager [⟨0, false, 0, 20⟩, ⟨0, false, 16, 20⟩] ∧
      visitedChunks r.segments = [⟨0, false, 0, 20⟩] ∧
      r.chunks ≠ .eager (visitedChunks r.segments) := by
  have hval : (openOneV2 tablePairImage).map (fun r : EwfReader =>
      (r.chunks, visitedChunks r.segments)) =
      some (.eager [⟨0, false, 0, 20⟩, ⟨0, false, 16, 20⟩], [⟨0, false, 0, 20⟩]) := by
    decide +kernel
  obtain ⟨r, hr, hlists⟩ := Option.map_eq_some_iff.mp hval
  obtain ⟨hchunks, hvisited⟩ := Prod.mk.inj hlists
  refine ⟨r, openOneV2_eq_some hr, hchunks, hvisited, ?_⟩
  rw [hchunks, hvisited]
  decide

end EwfForensic

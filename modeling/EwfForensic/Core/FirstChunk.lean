import EwfForensic.Core.TablesV2
import EwfForensic.Image.EncodeV2
import EwfForensic.Lib.Placement

/-!
# Where the First Chunk of a Table Goes

The header of an EWF v2 chunk table names the number of its first chunk. The reader only logs it
and numbers the chunks in the order in which the table sections stand.

* `numberedChunks` — the chunks that the tables describe, each under the number that its table's
  header gives it.
* `PlacedByFirstChunk` — the reader has each chunk under that number, and the numbers are those
  of a list.
* `placed_iff` — exactly when the numbers are those of a list in which the chunks have the order
  of the sections, and every offset fits 63 bits.
-/

namespace EwfForensic

open Octets

/-- The chunk that an entry of a table in segment `segIdx` describes. -/
def Ewf2TableEntry.described (segIdx : ℕ) (e : Ewf2TableEntry) : Chunk where
  segmentIdx := segIdx
  compressed := e.isCompressed
  offset := e.chunkDataOffset
  size := e.chunkDataSize

/-- The tables of an image in the order of their sections, each with its segment. -/
def placedTables (segments : List Segment) : List (ℕ × Ewf2Table) :=
  segments.zipIdx.flatMap fun q => (ewf2Tables q.1.data).map fun t => (q.2, t)

/-- The chunks that the tables describe, in the order of their sections. -/
def describedChunks (segments : List Segment) : List Chunk :=
  (placedTables segments).flatMap fun p => p.2.entries.map (·.described p.1)

/-- The chunks that the tables describe, each under its number: that of the table's first chunk
and the position of its entry. -/
def numberedChunks (segments : List Segment) : List (ℕ × Chunk) :=
  (placedTables segments).flatMap fun p =>
    p.2.entries.zipIdx.map fun e => (p.2.firstChunk + e.2, e.1.described p.1)

theorem find_eager_eq_ok_iff {chunks : List Chunk} {segments : List Segment} {i : ℕ} {c : Chunk} :
    (ChunkTable.eager chunks).find segments i = .ok c ↔ chunks[i]? = some c := by
  rw [ChunkTable.find]
  cases chunks[i]? with
  | none => simp
  | some c' => simp

/-- The reader has entry `j` of each table as chunk `firstChunk + j`, and the tables neither
overlap nor leave a gap. -/
structure PlacedByFirstChunk (r : EwfReader) : Prop where
  placed : ∀ p ∈ placedTables r.segments, ∀ j e, p.2.entries[j]? = some e →
    r.chunks.find r.segments (p.2.firstChunk + j) = .ok (e.described p.1)
  tiles : Placement.Tiles (numberedChunks r.segments)

theorem mem_numberedChunks {segments : List Segment} {i : ℕ} {c : Chunk} :
    (i, c) ∈ numberedChunks segments ↔ ∃ p ∈ placedTables segments, ∃ j e,
      p.2.entries[j]? = some e ∧ i = p.2.firstChunk + j ∧ c = e.described p.1 := by
  simp only [numberedChunks, List.mem_flatMap, List.mem_map, Prod.exists, Prod.mk.injEq,
    List.mk_mem_zipIdx_iff_getElem?]
  constructor
  · rintro ⟨k, t, ht, e, j, he, rfl, rfl⟩
    exact ⟨k, t, ht, j, e, he, rfl, rfl⟩
  · rintro ⟨k, t, ht, j, e, he, rfl, rfl⟩
    exact ⟨k, t, ht, e, j, he, rfl, rfl⟩

/-- Without their numbers, the chunks are those described. -/
theorem map_snd_numberedChunks (segments : List Segment) :
    (numberedChunks segments).map Prod.snd = describedChunks segments := by
  rw [numberedChunks, describedChunks, List.map_flatMap]
  refine congrArg (List.flatMap · _) (funext fun p => ?_)
  rw [List.map_map]
  calc p.2.entries.zipIdx.map (fun e => e.1.described p.1)
      = (p.2.entries.zipIdx.map Prod.fst).map (·.described p.1) := by rw [List.map_map]; rfl
    _ = p.2.entries.map (·.described p.1) := by rw [List.zipIdx_map_fst]

/-- A chunk as the table of a reader keeps it. -/
def Chunk.packed (c : Chunk) : Chunk := Chunk.new c.segmentIdx c.compressed c.offset c.size

/-- The reader's chunks are those described, as its table keeps them. -/
theorem ewf2Chunks_eq_packed (segments : List Segment) :
    ewf2Chunks segments = (describedChunks segments).map Chunk.packed := by
  rw [ewf2Chunks, describedChunks, placedTables, List.flatMap_assoc, List.map_flatMap]
  refine congrArg (List.flatMap · _) (funext fun q => ?_)
  rw [ewf2ChunksOf, List.flatMap_map, List.map_flatMap]
  refine congrArg (List.flatMap · _) (funext fun t => ?_)
  rw [List.map_map]
  rfl

/-- A chunk whose segment and size fit 32 bits is kept as it is, if its offset fits 63 bits. -/
theorem packed_eq_iff {c : Chunk} (hseg : c.segmentIdx < 4294967296) (hsize : c.size < 4294967296) :
    c.packed = c ↔ c.offset < 9223372036854775808 := by
  constructor
  · intro h
    rw [← h]
    exact Nat.mod_lt _ (by decide)
  · intro h
    rw [Chunk.packed, Chunk.new, Nat.mod_eq_of_lt hseg, Nat.mod_eq_of_lt hsize, Nat.mod_eq_of_lt h]

/-- A described chunk has a segment of the image, and a size of 32 bits. -/
theorem bounds_of_mem_describedChunks {segments : List Segment} {c : Chunk}
    (hc : c ∈ describedChunks segments) :
    c.segmentIdx < segments.length ∧ c.size < 4294967296 := by
  simp only [describedChunks, placedTables, List.mem_flatMap, List.mem_map, Prod.exists] at hc
  obtain ⟨k, t, ⟨s, j, hs, t', ht', heq⟩, e, he, rfl⟩ := hc
  obtain ⟨rfl, rfl⟩ := Prod.mk.inj heq
  obtain ⟨desc, -, rfl⟩ := List.mem_map.mp ht'
  obtain ⟨n, -, rfl⟩ := List.mem_map.mp he
  have hk := List.mem_zipIdx_iff_getElem?.mp hs
  exact ⟨(List.getElem?_eq_some_iff.mp hk).1, leAt_lt 4 _ 8⟩

/-- What a reader with the chunks of its tables has under their numbers. -/
theorem forall_find_iff {r : EwfReader} (hchunks : r.chunks = .eager (ewf2Chunks r.segments)) :
    (∀ p ∈ placedTables r.segments, ∀ j e, p.2.entries[j]? = some e →
        r.chunks.find r.segments (p.2.firstChunk + j) = .ok (e.described p.1)) ↔
      ∀ p ∈ numberedChunks r.segments,
        ((describedChunks r.segments).map Chunk.packed)[p.1]? = some p.2 := by
  rw [← ewf2Chunks_eq_packed, hchunks]
  constructor
  · rintro h ⟨i, c⟩ hc
    obtain ⟨p, hp, j, e, he, rfl, rfl⟩ := mem_numberedChunks.mp hc
    exact find_eager_eq_ok_iff.mp (h p hp j e he)
  · intro h p hp j e he
    exact find_eager_eq_ok_iff.mpr (h (_, _) (mem_numberedChunks.mpr ⟨p, hp, j, e, he, rfl, rfl⟩))

/-- **Tables are placed by `firstChunk`** exactly when their chunks have the numbers of a list, in
that list have the order of their sections, and lie at offsets of 63 bits. -/
theorem placed_iff (C : Crates) {sources : List Segment} {cacheSize : ℕ} {r : EwfReader}
    (hopen : openSegmentsV2 C sources cacheSize = .ok r) :
    PlacedByFirstChunk r ↔ Placement.Tiles (numberedChunks r.segments) ∧
      Placement.inPlace (numberedChunks r.segments) = describedChunks r.segments ∧
      ∀ c ∈ describedChunks r.segments, c.offset < 9223372036854775808 := by
  obtain ⟨st, -, -, hchunks, -, hmany⟩ := openSegmentsV2_ok hopen
  have hlen : (describedChunks r.segments).length = (numberedChunks r.segments).length := by
    rw [← map_snd_numberedChunks, List.length_map]
  have hpacked : ∀ c ∈ describedChunks r.segments,
      (c.packed = c ↔ c.offset < 9223372036854775808) := fun c hc =>
    have hbounds := bounds_of_mem_describedChunks hc
    packed_eq_iff (by omega) hbounds.2
  have hsame : (∀ c ∈ describedChunks r.segments, c.offset < 9223372036854775808) →
      (describedChunks r.segments).map Chunk.packed = describedChunks r.segments := fun h =>
    (List.map_congr_left fun c hc => (hpacked c hc).mpr (h c hc)).trans (List.map_id _)
  constructor
  · rintro ⟨hplaced, htiles⟩
    have hall := (forall_find_iff hchunks).mp hplaced
    have hoff : ∀ c ∈ describedChunks r.segments, c.offset < 9223372036854775808 := by
      intro c hc
      rw [← map_snd_numberedChunks] at hc
      obtain ⟨p, hp, rfl⟩ := List.mem_map.mp hc
      obtain ⟨c', -, hc'⟩ := List.mem_map.mp (List.mem_of_getElem? (hall p hp))
      rw [← hc']
      exact Nat.mod_lt _ (by decide)
    rw [hsame hoff] at hall
    exact ⟨htiles, (Placement.forall_getElem?_iff htiles hlen).mp hall, hoff⟩
  · rintro ⟨htiles, hplace, hoff⟩
    refine ⟨(forall_find_iff hchunks).mpr ?_, htiles⟩
    rw [hsame hoff]
    exact (Placement.forall_getElem?_iff htiles hlen).mpr hplace

theorem ok_of_toOption_eq_some {ε α : Type} {x : Except ε α} {a : α} (h : x.toOption = some a) :
    x = .ok a := by
  cases x with
  | error e => cases h
  | ok b => exact congrArg _ (Option.some.inj h)

/-- The reader of one segment, for evaluation. -/
def openOneV2 (source : Segment) : Option EwfReader :=
  (openSegmentsV2 Crates.reference [source] defaultLruSize).toOption

theorem openOneV2_eq_some {source : Segment} {r : EwfReader} (h : openOneV2 source = some r) :
    openSegmentsV2 Crates.reference [source] defaultLruSize = .ok r :=
  ok_of_toOption_eq_some h

/-- A segment of two tables of one chunk each, whose sections stand in the order of their first
chunks. -/
def twoTablesImage : Segment :=
  ⟨Image.encodeSegmentV2 1 [(4, Image.ewf2TableBytes 0 [ewf2EntryBytes 1000 20 0]),
    (4, Image.ewf2TableBytes 1 [ewf2EntryBytes 2000 20 0])], by decide +kernel⟩

/-- The same tables with their sections the other way round. -/
def swappedTablesImage : Segment :=
  ⟨Image.encodeSegmentV2 1 [(4, Image.ewf2TableBytes 1 [ewf2EntryBytes 2000 20 0]),
    (4, Image.ewf2TableBytes 0 [ewf2EntryBytes 1000 20 0])], by decide +kernel⟩

theorem placed_iff_twoTablesImage :
    ∃ r, openSegmentsV2 Crates.reference [twoTablesImage] defaultLruSize = .ok r ∧
      PlacedByFirstChunk r := by
  have hval : (openOneV2 twoTablesImage).map (fun r : EwfReader =>
      decide (Placement.Tiles (numberedChunks r.segments) ∧
        Placement.inPlace (numberedChunks r.segments) = describedChunks r.segments ∧
        ∀ c ∈ describedChunks r.segments, c.offset < 9223372036854775808)) = some true := by
    decide +kernel
  obtain ⟨r, hr, hcond⟩ := Option.map_eq_some_iff.mp hval
  have hopen := openOneV2_eq_some hr
  exact ⟨r, hopen, (placed_iff Crates.reference hopen).mpr (of_decide_eq_true hcond)⟩

/-- The tables tile the chunks, but the reader has them in the order of the sections. -/
theorem swappedTablesImage_not_placed :
    ∃ r, openSegmentsV2 Crates.reference [swappedTablesImage] defaultLruSize = .ok r ∧
      Placement.Tiles (numberedChunks r.segments) ∧ ¬ PlacedByFirstChunk r := by
  have hval : (openOneV2 swappedTablesImage).map (fun r : EwfReader =>
      (decide (Placement.Tiles (numberedChunks r.segments)), placedTables r.segments,
        (r.chunks.find r.segments 1).toOption)) =
      some (true, [(0, ⟨1, [⟨2000, 20, 0⟩]⟩), (0, ⟨0, [⟨1000, 20, 0⟩]⟩)],
        some ⟨0, false, 1000, 20⟩) := by
    decide +kernel
  obtain ⟨r, hr, hcond⟩ := Option.map_eq_some_iff.mp hval
  obtain ⟨htiles, htables, hfind⟩ := by simpa only [Prod.mk.injEq] using hcond
  refine ⟨r, openOneV2_eq_some hr, of_decide_eq_true htiles, fun hplaced => ?_⟩
  have hone := hplaced.placed (0, ⟨1, [⟨2000, 20, 0⟩]⟩)
    (by rw [htables]; exact List.mem_cons_self ..) 0
    ⟨2000, 20, 0⟩ rfl
  rw [hone] at hfind
  cases Option.some.inj hfind

end EwfForensic

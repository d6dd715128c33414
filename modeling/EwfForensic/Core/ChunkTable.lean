import EwfForensic.Core.Sections
import EwfForensic.Lib.Lru

/-!
# Chunk Tables

`core/src/chunk_table.rs`: one table section's entries parsed into chunks, and the two
stores a reader keeps them in. The eager store is the flat list; the lazy one is an index of
table sections whose entries are parsed when first touched and kept in an LRU cache.

* `parseTableSection` — the shared parser with its two size rules.
* `LazyChunkTable.get` — the cached lookup, state in and state out.
* `LazyChunkTable.find` — what that lookup returns, without the cache; `get_eq_find` shows
  the cache never changes it.
-/

namespace EwfForensic

open Octets

/-- A number in the form `{:#x}` prints. -/
def hex (n : ℕ) : String := "0x" ++ String.ofList (Nat.toDigits 16 n)

/-! ### Table sections -/

/-- Apply `f` to the last element. -/
def modifyLast {α : Type} (f : α → α) : List α → List α
  | [] => []
  | [a] => [f a]
  | a :: b :: l => a :: modifyLast f (b :: l)

/-- The first `count` entries of a table, four bytes each; the slices the source takes are
four bytes long, so none of its parses fails. -/
def tableEntries (entries : List UInt8) (count : ℕ) : List TableEntry :=
  (List.range count).map fun i => TableEntry.ofNat (leU32 entries (4 * i))

/-- Within-section back-fill: the previous chunk, if compressed, ends where the next one
starts. -/
def backfillPrevious (distance : ℕ) (c : Chunk) : Chunk :=
  if c.compressed ∧ distance > 0 then c.setSize distance else c

/-- One turn of the loop of `parse_table_section`: the chunks so far and the offset of the
last one. An entry whose absolute offset does not fit 64 bits is skipped. -/
def pushEntry (baseOffset segIdx chunkSize : ℕ) (st : List Chunk × Option ℕ)
    (entry : TableEntry) : List Chunk × Option ℕ :=
  let absOffset := entry.chunkOffset + baseOffset
  if absOffset > u64Max then st
  else
    let chunks :=
      match st.2 with
      | some po => modifyLast (backfillPrevious (absOffset - po)) st.1
      | none => st.1
    (chunks ++ [Chunk.new segIdx entry.compressed absOffset chunkSize], some absOffset)

/-- Last-chunk back-fill: the section's final chunk, if compressed and not sized yet, ends
with the sectors section when that is less than a chunk away. -/
def backfillLast (chunkSize sectorsEnd : ℕ) (c : Chunk) : Chunk :=
  if c.compressed ∧ c.size = chunkSize ∧ sectorsEnd - c.offset > 0 ∧
      sectorsEnd - c.offset < chunkSize then
    c.setSize (sectorsEnd - c.offset)
  else c

/-- `parse_table_section`. -/
def parseTableSection (entries : List UInt8) (entryCount baseOffset segIdx chunkSize : ℕ)
    (sectorsDataEnd : Option ℕ) : List Chunk :=
  let count := min entryCount (entries.length / 4)
  let chunks := ((tableEntries entries count).foldl (pushEntry baseOffset segIdx chunkSize)
    ([], none)).1
  match sectorsDataEnd with
  | some sectorsEnd => modifyLast (backfillLast chunkSize sectorsEnd) chunks
  | none => chunks

/-! ### The lazy store -/

/-- `SectionMeta`: what is needed to parse one table section again. -/
structure SectionMeta where
  firstChunkId : ℕ
  entryCount : ℕ
  entriesFileOffset : ℕ
  baseOffset : ℕ
  segmentIdx : ℕ
  sectorsDataEnd : Option ℕ
  deriving DecidableEq, Repr

/-- `LazyChunkTable` without its cache, which is part of the reader's state. -/
structure LazyChunkTable where
  index : List SectionMeta
  len : ℕ
  chunkSize : ℕ
  sectionCacheCap : ℕ
  deriving DecidableEq, Repr

/-- `LazyChunkTable::new`. -/
def LazyChunkTable.new (index : List SectionMeta) (chunkSize sectionCacheCap : ℕ) :
    LazyChunkTable where
  index := index
  len := match index.getLast? with
    | some m => m.firstChunkId + m.entryCount
    | none => 0
  chunkSize := chunkSize
  sectionCacheCap := max sectionCacheCap 1

/-- `section_for`: the position of the section that holds a chunk. `partition_point` of an
ascending index is the length of its leading part. -/
def LazyChunkTable.sectionFor (t : LazyChunkTable) (chunkId : ℕ) : Option ℕ :=
  let after := (t.index.takeWhile fun m => m.firstChunkId ≤ chunkId).length
  if after = 0 then none
  else
    match t.index[after - 1]? with
    | some m => if chunkId < m.firstChunkId + m.entryCount then some (after - 1) else none
    | none => none

/-- The chunks of one indexed section, read from its segment. -/
def LazyChunkTable.loadSection (t : LazyChunkTable) (segments : List Segment)
    (m : SectionMeta) : Except EwfError (List Chunk) :=
  match segments[m.segmentIdx]? with
  | none =>
    .error (.parse ("lazy table section references missing segment " ++ toString m.segmentIdx))
  | some src =>
    let want := m.entryCount * 4
    let avail := src.data.length - m.entriesFileOffset
    if want > u64Max then
      .error (.parse ("table section at " ++ hex m.entriesFileOffset ++ " declares " ++
        toString m.entryCount ++ " entries, whose byte length overflows"))
    else if want > avail then
      .error (.parse ("table section at " ++ hex m.entriesFileOffset ++ " declares " ++
        toString m.entryCount ++ " entries (" ++ toString want ++ " bytes) but only " ++
        toString avail ++ " bytes remain in segment " ++ toString m.segmentIdx))
    else
      let entries := (src.data.drop m.entriesFileOffset).take want
      if entries.length < want then
        .error (.parse ("short read for lazy table section at " ++ hex m.entriesFileOffset ++
          ": got " ++ toString entries.length ++ " of " ++ toString want ++ " bytes"))
      else
        .ok (parseTableSection entries m.entryCount m.baseOffset m.segmentIdx t.chunkSize
          m.sectorsDataEnd)

/-- The error for a chunk id outside the table. -/
def outOfRange (chunkId len : ℕ) : EwfError :=
  .parse ("chunk id " ++ toString chunkId ++ " out of range (len " ++ toString len ++ ")")

/-- `section[local]`, which panics when skipped entries left the section shorter. -/
def chunkInSection (chunks : List Chunk) (loc : ℕ) : Except EwfError Chunk :=
  match chunks[loc]? with
  | some c => .ok c
  | none => .error .indexPanic

/-- The chunks of the section at index position `pos`. -/
def LazyChunkTable.sectionAt (t : LazyChunkTable) (segments : List Segment) (pos : ℕ) :
    Except EwfError (List Chunk) :=
  match t.index[pos]? with
  | some m => t.loadSection segments m
  | none => .error .indexPanic

/-- What `LazyChunkTable::get` returns, with every section parsed anew. -/
def LazyChunkTable.find (t : LazyChunkTable) (segments : List Segment) (chunkId : ℕ) :
    Except EwfError Chunk :=
  match t.sectionFor chunkId with
  | none => .error (outOfRange chunkId t.len)
  | some pos =>
    match t.index[pos]? with
    | none => .error .indexPanic
    | some m =>
      match t.sectionAt segments pos with
      | .error e => .error e
      | .ok chunks => chunkInSection chunks (chunkId - m.firstChunkId)

/-- `LazyChunkTable::get`: the chunk and the cache of parsed sections after the call. -/
def LazyChunkTable.get (t : LazyChunkTable) (segments : List Segment)
    (cache : Lru ℕ (List Chunk)) (chunkId : ℕ) : Except EwfError Chunk × Lru ℕ (List Chunk) :=
  match t.sectionFor chunkId with
  | none => (.error (outOfRange chunkId t.len), cache)
  | some pos =>
    match t.index[pos]? with
    | none => (.error .indexPanic, cache)
    | some m =>
      match cache.get pos with
      | some (chunks, cache') => (chunkInSection chunks (chunkId - m.firstChunkId), cache')
      | none =>
        match t.sectionAt segments pos with
        | .error e => (.error e, cache)
        | .ok chunks =>
          match chunkInSection chunks (chunkId - m.firstChunkId) with
          | .error e => (.error e, cache)
          | .ok c => (.ok c, cache.put pos chunks)

/-- Every cached section is what its segment holds. -/
def LazyChunkTable.Coherent (t : LazyChunkTable) (segments : List Segment) :
    Lru ℕ (List Chunk) → Prop :=
  Lru.Holds fun pos chunks => t.sectionAt segments pos = .ok chunks

/-- **The section cache is transparent**: from a coherent cache, a lookup returns what a
lookup without a cache would, and leaves a coherent cache. -/
theorem LazyChunkTable.get_eq_find (t : LazyChunkTable) (segments : List Segment)
    {cache : Lru ℕ (List Chunk)} (hc : t.Coherent segments cache) (chunkId : ℕ) :
    (t.get segments cache chunkId).1 = t.find segments chunkId ∧
      t.Coherent segments (t.get segments cache chunkId).2 := by
  rw [LazyChunkTable.get, LazyChunkTable.find]
  cases hs : t.sectionFor chunkId with
  | none => simp only [true_and, hc]
  | some pos =>
      cases hm : t.index[pos]? with
      | none => simp only [hm, true_and, hc]
      | some m =>
          cases hget : cache.get pos with
          | some hit =>
              obtain ⟨chunks, cache'⟩ := hit
              have hsec : t.sectionAt segments pos = .ok chunks := hc.of_get hget
              have hc' : t.Coherent segments cache' := hc.get hget
              simp only [hm, hget, hsec, true_and, hc']
          | none =>
              cases hsec : t.sectionAt segments pos with
              | error e => simp only [hm, hget, hsec, true_and, hc]
              | ok chunks =>
                  have hc' : t.Coherent segments (cache.put pos chunks) := hc.put hsec
                  cases hch : chunkInSection chunks (chunkId - m.firstChunkId) with
                  | error e => simp only [hm, hget, hsec, hch, true_and, hc]
                  | ok c => simp only [hm, hget, hsec, hch, true_and, hc']

/-! ### The two stores -/

/-- `ChunkTable`: the eager list or the lazy index. -/
inductive ChunkTable where
  | eager (chunks : List Chunk)
  | lazy (table : LazyChunkTable)
  deriving DecidableEq, Repr

/-- `ChunkTable::len`. -/
def ChunkTable.len : ChunkTable → ℕ
  | .eager chunks => chunks.length
  | .lazy t => t.len

/-- What `ChunkTable::get` returns, without the cache. -/
def ChunkTable.find (t : ChunkTable) (segments : List Segment) (chunkId : ℕ) :
    Except EwfError Chunk :=
  match t with
  | .eager chunks =>
    match chunks[chunkId]? with
    | some c => .ok c
    | none => .error (outOfRange chunkId chunks.length)
  | .lazy t => t.find segments chunkId

/-- `ChunkTable::get`: the chunk and the section cache after the call. -/
def ChunkTable.get (t : ChunkTable) (segments : List Segment) (cache : Lru ℕ (List Chunk))
    (chunkId : ℕ) : Except EwfError Chunk × Lru ℕ (List Chunk) :=
  match t with
  | .eager chunks =>
    match chunks[chunkId]? with
    | some c => (.ok c, cache)
    | none => (.error (outOfRange chunkId chunks.length), cache)
  | .lazy t => t.get segments cache chunkId

/-- Every cached section is what its segment holds; the eager store has no cache. -/
def ChunkTable.Coherent (t : ChunkTable) (segments : List Segment)
    (cache : Lru ℕ (List Chunk)) : Prop :=
  match t with
  | .eager _ => True
  | .lazy t => t.Coherent segments cache

theorem ChunkTable.get_eq_find (t : ChunkTable) (segments : List Segment)
    {cache : Lru ℕ (List Chunk)} (hc : t.Coherent segments cache) (chunkId : ℕ) :
    (t.get segments cache chunkId).1 = t.find segments chunkId ∧
      t.Coherent segments (t.get segments cache chunkId).2 := by
  cases t with
  | eager chunks =>
      rw [ChunkTable.get, ChunkTable.find]
      cases hi : chunks[chunkId]? with
      | none => exact ⟨rfl, trivial⟩
      | some c => exact ⟨rfl, trivial⟩
  | lazy t => exact t.get_eq_find segments hc chunkId

end EwfForensic

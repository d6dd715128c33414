import EwfForensic.Image.Opening

/-!
# The Recovery's Tables in a Prefix of a Segment

What `table_ref`, `chunk_range` and `decode_chunk` find in the first `n` bytes of a written
segment.

* `tableRef_take`, `entryAt_take` — a table's header and its entries are read as they were
  written, or not at all.
* `Pair.Kept` — a prefix keeps enough of a table and of a chunk for the recovery to go on.
* `decodeFrom_take` — a chunk is decoded from the part of its bytes that the prefix keeps.
* `Stored.Sound.decodeChunk` — a whole chunk decodes to its data.
-/

namespace EwfForensic.Image

open Octets

/-! ### Tables -/

/-- The table of a pair as the recovery refers to it, when its section stands at `tablePos`. -/
def Pair.tableRef (p : Pair) (tablePos : ℕ) : Recover.TableRef :=
  ⟨p.chunks.length, p.base, tablePos + 100⟩

section Table

variable {data : List UInt8} {p : Pair} {pos tablePos n : ℕ}

/-- The header of a written table is read, if the prefix keeps it. -/
theorem tableRef_take (hat : HasAt data (tablePos + 76) (p.tableBody pos))
    (hlen : data.length < 9223372036854775808) (hcount : p.chunks.length < 4294967296)
    (hbase : p.base ≤ u64Max) {sections : List Section} {t : SectionType} {size : ℕ}
    (hfind : findSection sections t = some ⟨t, tablePos, size⟩) :
    Recover.tableRef (data.take n) sections t =
      if tablePos + 100 ≤ n then some (p.tableRef tablePos) else none := by
  obtain ⟨hdr, hbytes, hhdrLen, hcountEq, hbaseEq, -, -⟩ := exists_tableHeader p.base p.storeCrc
    (p.entries pos) p.tail (by rw [p.length_entries]; exact hcount) hbase
  rw [Pair.tableBody, hbytes] at hat
  rw [p.length_entries] at hcountEq
  have hle := hat.left.length_le
  have hslice := hat.left.slice?_take (n := n)
  rw [hhdrLen] at hle hslice
  have hs1 : satAdd tablePos sectionDescriptorSize = tablePos + 76 :=
    satAdd_eq (by change tablePos + 76 ≤ u64Max; unfold u64Max; omega)
  have hs2 : satAdd (tablePos + 76) tableHeaderSize = tablePos + 76 + 24 :=
    satAdd_eq (by change tablePos + 76 + 24 ≤ u64Max; unfold u64Max; omega)
  rw [Recover.tableRef, hfind]
  simp only [hs1, hs2, hslice]
  by_cases hn : tablePos + 76 + 24 ≤ n
  · rw [if_pos hn, if_pos (by omega)]
    simp only [TableHeader.parse_of_le (show tableHeaderCrcOffset ≤ hdr.length by
      rw [hhdrLen]; decide), TableHeader.ofBytes, hcountEq, hbaseEq]
    rfl
  · rw [if_neg hn, if_neg (by omega)]

/-- An entry of a written table is read, if the prefix keeps it. -/
theorem entryAt_take (hat : HasAt data (tablePos + 76) (p.tableBody pos))
    (hlen : data.length < 9223372036854775808)
    (hloc : ∀ c ∈ p.located pos, p.base ≤ c.1 ∧ c.1 - p.base < 2147483648)
    {i : ℕ} {c : ℕ × Stored} (hc : (p.located pos)[i]? = some c)
    (hend : c.1 ≤ data.length) :
    (p.tableRef tablePos).entryAt (data.take n) i =
      if tablePos + 104 + 4 * i ≤ n then some (c.2.compressed, c.1) else none := by
  obtain ⟨h1, h2⟩ := hloc c (List.mem_of_getElem? hc)
  have hentry : (p.entries pos)[i]? = some (entryOf p.base c) := by
    rw [Pair.entries, List.getElem?_map, hc]
    rfl
  have hi : i < (p.entries pos).length := (List.getElem?_eq_some_iff.mp hentry).1
  have he := hasAt_entry (hasAt_tableBytes hat).2.2 hentry
  have hle := he.length_le
  have hslice := he.slice?_take (n := n)
  rw [length_toLE] at hle hslice
  have hs1 : satMul i 4 = 4 * i := by
    rw [satMul_eq (by unfold u64Max; omega)]
    omega
  have hs2 : satAdd (tablePos + 100) (4 * i) = tablePos + 76 + 24 + 4 * i :=
    satAdd_eq (by unfold u64Max; omega)
  have hs3 : satAdd (tablePos + 76 + 24 + 4 * i) 4 = tablePos + 76 + 24 + 4 * i + 4 :=
    satAdd_eq (by unfold u64Max; omega)
  have hs4 : satAdd p.base (c.1 - p.base) = c.1 := by
    rw [satAdd_eq (by unfold u64Max; omega)]
    omega
  have hread : leU32 (toLE 4 (entryOf p.base c)) 0 = entryOf p.base c :=
    (hasAt_self _).leAt (by rw [length_toLE]; decide) (entryOf_lt h2)
  rw [Recover.TableRef.entryAt]
  simp only [Pair.tableRef, hs1, hs2, hs3, hslice]
  by_cases hn : tablePos + 76 + 24 + 4 * i + 4 ≤ n
  · rw [if_pos hn, if_pos (by omega)]
    simp only [TableEntry.parse, length_toLE, if_neg (lt_irrefl 4), hread, ofNat_entryOf h2,
      parsedEntry, hs4]
  · rw [if_neg hn, if_neg (by omega)]

end Table

/-! ### Chunks -/

/-- A prefix of `n` bytes keeps enough of the table at `tablePos` and of chunk `i` for the
recovery to decode something: the chunk's entry and the next one, and the whole chunk, or some
of its bytes when it is the last. -/
def Pair.Kept (p : Pair) (tablePos n i : ℕ) (c : ℕ × Stored) : Prop :=
  tablePos + 104 + 4 * i + (if i + 1 < p.chunks.length then 4 else 0) ≤ n ∧
    (c.1 + c.2.bytes.length ≤ n ∨ i + 1 = p.chunks.length ∧ c.1 < n)

instance (p : Pair) (tablePos n i : ℕ) (c : ℕ × Stored) : Decidable (p.Kept tablePos n i c) :=
  inferInstanceAs (Decidable (_ ∧ _))

/-- A written pair in a segment, as the recovery needs it. -/
structure PairIn (data : List UInt8) (q : ℕ × Pair) : Prop where
  length_lt : data.length < 9223372036854775808
  sectors_at : HasAt data (q.2.dataStart q.1) q.2.sectorBytes
  count_lt : q.2.chunks.length < 4294967296
  base_le : q.2.base ≤ u64Max
  located : ∀ c ∈ q.2.located q.1, q.2.base ≤ c.1 ∧ c.1 - q.2.base < 2147483648
  bytes_pos : ∀ c ∈ q.2.chunks, 0 < c.bytes.length

section Chunk

variable {data : List UInt8} {q : ℕ × Pair} {tablePos n : ℕ}

/-- A located chunk of a pair, and where it ends. -/
theorem PairIn.chunk (h : PairIn data q) {i : ℕ} {c : ℕ × Stored}
    (hc : (q.2.located q.1)[i]? = some c) :
    HasAt data c.1 c.2.bytes ∧ 0 < c.2.bytes.length ∧ q.2.dataStart q.1 ≤ c.1 ∧
      i < q.2.chunks.length ∧
      (i + 1 = q.2.chunks.length →
        c.1 + c.2.bytes.length = q.2.dataStart q.1 + q.2.sectorBytes.length) := by
  have hmem := List.mem_of_getElem? hc
  obtain ⟨h1, h2, -⟩ := hasAt_locate h.sectors_at hmem
  have hi := (List.getElem?_eq_some_iff.mp hc).1
  rw [Pair.located, length_locate] at hi
  have hstored : c.2 ∈ q.2.chunks := by
    rw [← map_snd_locate (q.2.dataStart q.1) q.2.chunks]
    exact List.mem_map_of_mem hmem
  exact ⟨h1, h.bytes_pos _ hstored, h2, hi, fun hlast => (locate_end hc).2 hlast.symm⟩

/-- **The range of a chunk in a prefix**: as it was written, cut at the end of the prefix if
it is the last one. -/
theorem chunkRange_take (h : PairIn data q)
    (hat : HasAt data (tablePos + 76) (q.2.tableBody q.1)) (hn : n ≤ data.length)
    {i : ℕ} {c : ℕ × Stored} (hc : (q.2.located q.1)[i]? = some c) {sectorsEnd : Option ℕ}
    (hend : sectorsEnd = if q.2.dataStart q.1 ≤ n then
      some (min (q.2.dataStart q.1 + q.2.sectorBytes.length) n) else none) :
    Recover.chunkRange (data.take n) (q.2.tableRef tablePos) i sectorsEnd =
      if q.2.Kept tablePos n i c then
        some ⟨c.1, min (c.1 + c.2.bytes.length) n, c.2.compressed⟩ else none := by
  obtain ⟨hbytes, hpos, hstart, hi, hlast⟩ := h.chunk hc
  have hle := hbytes.length_le
  have htake : (data.take n).length = n := by
    rw [List.length_take]
    omega
  have hlen := h.length_lt
  have hentry := entryAt_take (n := n) hat hlen h.located hc (by omega)
  have hsucc : satAdd i 1 = i + 1 := by
    have := h.count_lt
    exact satAdd_eq (by unfold u64Max; omega)
  rw [Recover.chunkRange, hentry]
  by_cases h0 : tablePos + 104 + 4 * i ≤ n
  · rw [if_pos h0]
    simp only [hsucc, htake]
    by_cases hnext : i + 1 < q.2.chunks.length
    · -- The chunk ends where the next one starts.
      have hi' : i + 1 < (q.2.located q.1).length := by rwa [Pair.located, length_locate]
      obtain ⟨c', hc'⟩ : ∃ c', (q.2.located q.1)[i + 1]? = some c' :=
        ⟨_, List.getElem?_eq_getElem hi'⟩
      have hstop := (locate_end hc).1 c' hc'
      have hle' := (h.chunk hc').1.length_le
      have hentry' := entryAt_take (n := n) hat hlen h.located hc' (by omega)
      rw [if_pos (show i + 1 < (q.2.tableRef tablePos).entryCount from hnext), hentry']
      by_cases h1 : tablePos + 104 + 4 * (i + 1) ≤ n
      · rw [if_pos h1]
        simp only [Option.map_some, hstop]
        by_cases h2 : c.1 + c.2.bytes.length ≤ n
        · rw [if_neg (by omega), if_pos ⟨by rw [if_pos hnext]; omega, Or.inl h2⟩, min_eq_left h2]
        · rw [if_pos (by omega), if_neg fun hk => by rcases hk.2 with hk | hk <;> omega]
      · rw [if_neg h1, if_neg fun hk => by have := hk.1; rw [if_pos hnext] at this; omega]
        rfl
    · -- The last chunk ends with the sectors section, or with the prefix.
      have hi' : i + 1 = q.2.chunks.length := by omega
      have hstop := hlast hi'
      rw [if_neg (show ¬ i + 1 < (q.2.tableRef tablePos).entryCount from hnext), hend]
      by_cases h1 : q.2.dataStart q.1 ≤ n
      · simp only [if_pos h1, Option.getD_some]
        by_cases h2 : c.1 < n
        · rw [if_neg (by omega), if_pos ⟨by rw [if_neg hnext]; omega, Or.inr ⟨hi', h2⟩⟩, hstop]
        · rw [if_pos (by omega), if_neg fun hk => by rcases hk.2 with hk | hk <;> omega]
      · simp only [if_neg h1, Option.getD_none]
        rw [if_pos (by omega), if_neg fun hk => by rcases hk.2 with hk | hk <;> omega]
  · rw [if_neg h0]
    simp only
    rw [if_neg fun hk => h0 (le_trans (Nat.le_add_right _ _) hk.1)]

/-- **A chunk in a prefix** is decoded from the bytes of it that the prefix keeps. -/
theorem decodeFrom_take (C : Crates) (h : PairIn data q)
    (hat : HasAt data (tablePos + 76) (q.2.tableBody q.1)) (hn : n ≤ data.length)
    {i : ℕ} {c : ℕ × Stored} (hc : (q.2.located q.1)[i]? = some c)
    {tables : Recover.SegmentTables} (hdata : tables.data = data.take n)
    (hend : tables.sectorsEnd = if q.2.dataStart q.1 ≤ n then
      some (min (q.2.dataStart q.1 + q.2.sectorBytes.length) n) else none) (chunkSize : ℕ) :
    tables.decodeFrom C (some (q.2.tableRef tablePos)) chunkSize i =
      if q.2.Kept tablePos n i c then
        Recover.decodeChunk C (c.2.bytes.take (n - c.1)) c.2.compressed chunkSize else none := by
  rw [Recover.SegmentTables.decodeFrom, Option.bind_some, hdata, chunkRange_take h hat hn hc hend]
  split_ifs
  · rw [Option.bind_some, ChunkRange.raw, (h.chunk hc).1.window_take]
  · rfl

end Chunk

/-- Raw bytes decode to at most a chunk of them; their checksum is right if it is the one that
stands behind a full chunk. -/
theorem decodeChunk_raw (C : Crates) {raw : List UInt8} {chunkSize : ℕ}
    (hcrc : raw.length ≥ satAdd chunkSize 4 →
      adler32 (raw.take chunkSize) = ofLE ((raw.drop chunkSize).take 4)) :
    Recover.decodeChunk C raw false chunkSize = some (raw.take chunkSize, true) := by
  rw [Recover.decodeChunk]
  simp only [Bool.false_eq_true, if_false, Option.some.injEq, Prod.mk.injEq, true_and,
    decide_eq_true_eq]
  split_ifs with h
  exact hcrc h

/-- **A whole chunk decodes** to its data, up to what stands behind it, with a right checksum. -/
theorem Stored.Sound.decodeChunk {C : Crates} {chunkSize : ℕ} {c : Stored}
    (h : c.Sound C chunkSize) (hpos : 0 < c.data.length) (hlen : c.data.length ≤ chunkSize)
    (hcs : chunkSize + 4 ≤ u64Max) :
    ∃ rest, Recover.decodeChunk C c.bytes c.compressed chunkSize = some (c.data ++ rest, true) := by
  have hs1 : satAdd chunkSize 1 = chunkSize + 1 := satAdd_eq (by omega)
  have hs4 : satAdd chunkSize 4 = chunkSize + 4 := satAdd_eq hcs
  rw [Stored.bytes, Stored.compressed]
  cases he : c.encoding with
  | zlib z pad =>
      obtain ⟨hstream, hpad, -⟩ := h z pad he
      have hread := hstream.readUpTo (chunkSize + 1) []
      have hl : (c.data ++ List.replicate pad 0).length = c.data.length + pad := by simp
      rw [List.append_nil, List.take_of_length_le (by omega)] at hread
      have hne : (c.data ++ List.replicate pad 0).isEmpty = false := by
        rw [List.isEmpty_eq_false_iff, ← List.length_pos_iff]
        omega
      refine ⟨List.replicate pad 0, ?_⟩
      rw [Recover.decodeChunk]
      simp only [if_true, hs1, hread, hne, Bool.false_eq_true, if_false]
      rw [List.take_of_length_le (by omega)]
  | raw =>
      refine ⟨[], ?_⟩
      rw [List.append_nil]
      have := @decodeChunk_raw C c.data chunkSize (by omega)
      rwa [List.take_of_length_le hlen] at this
  | rawAdler =>
      have hl : (c.data ++ toLE 4 (adler32 c.data)).length = c.data.length + 4 := by simp
      have hcrc : adler32 c.data < 256 ^ 4 := Adler32.checksum_lt _
      refine ⟨(toLE 4 (adler32 c.data)).take (chunkSize - c.data.length), ?_⟩
      have hdecode := @decodeChunk_raw C (c.data ++ toLE 4 (adler32 c.data)) chunkSize
        fun hfull => by
          -- The checksum stands behind a full chunk.
          obtain rfl : c.data.length = chunkSize := by omega
          rw [List.take_left' rfl, List.drop_left' rfl,
            List.take_of_length_le (length_toLE 4 _).le, ofLE_toLE hcrc]
      rwa [List.take_append, List.take_of_length_le hlen] at hdecode

end EwfForensic.Image

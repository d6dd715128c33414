import EwfForensic.Forensic.CoverageV1

/-!
# The Chunk Ranges of a Segment

What `iter_segment_chunks` returns for any bytes and any list of sections: ranges that lie one
behind the other in the segment, as the entries of the table describe them from the first on.

* `ReadsTable` — the table whose entries the function goes over, and the `sectors` section that ends
  the last chunk.
* `Unusable` — an entry gives no range.
* `Tiling` — the description of the result.
* `iter_segment_chunks_tiling`.
-/

namespace EwfForensic

open Octets

/-- The function goes over the entries of a table: the first `table` section has room for a header,
and there is a `sectors` section. -/
structure ReadsTable (data : List UInt8) (sections : List Section) (table sectors : Section) :
    Prop where
  table_eq : findSection sections .table = some table
  sectors_eq : findSection sections .sectors = some sectors
  header : table.offset + 100 ≤ data.length

/-- The number of entries that a table declares. -/
def declaredCount (data : List UInt8) (table : Section) : ℕ := leU32 data (table.offset + 76)

/-- The base of the offsets in a table. -/
def declaredBase (data : List UInt8) (table : Section) : ℕ := leU64 data (table.offset + 84)

/-- The four bytes of entry `i` as a number. -/
def rawEntry (data : List UInt8) (table : Section) (i : ℕ) : ℕ :=
  leU32 data (table.offset + 100 + 4 * i)

/-- Entry `i` is in the file. -/
def EntryInFile (data : List UInt8) (table : Section) (i : ℕ) : Prop :=
  table.offset + 100 + 4 * i + 4 ≤ data.length

/-- Where the chunk of entry `i` starts: the base and the low 31 bits. -/
def entryStart (data : List UInt8) (table : Section) (i : ℕ) : ℕ :=
  declaredBase data table + rawEntry data table i % 2147483648

/-- Where the chunk of entry `i` ends: where the next starts, or for the last one where the
`sectors` section or the file ends. -/
def entryStop (data : List UInt8) (table sectors : Section) (i : ℕ) : ℕ :=
  if i + 1 < declaredCount data table then entryStart data table (i + 1)
  else min (sectors.offset + sectors.size) data.length

/-- Entry `i` gives no range: it or the one after it is not in the file, or the range is empty or
ends behind the file. -/
def Unusable (data : List UInt8) (table sectors : Section) (i : ℕ) : Prop :=
  ¬ EntryInFile data table i ∨
    (i + 1 < declaredCount data table ∧ ¬ EntryInFile data table (i + 1)) ∨
    entryStop data table sectors i ≤ entryStart data table i ∨
    data.length < entryStop data table sectors i

/-- The ranges are a tiling from the first entry on: not empty and in the file, each ending where
the next starts, as their entries describe them; and if they are fewer than the table declares, then
the next entry is unusable. -/
structure Tiling (data : List UInt8) (table sectors : Section) (ranges : List ChunkRange) :
    Prop where
  range : ∀ c ∈ ranges, c.start < c.stop ∧ c.stop ≤ data.length
  next : ∀ i c c', ranges[i]? = some c → ranges[i + 1]? = some c' → c.stop = c'.start
  ascending : ranges.Pairwise fun c c' => c.stop ≤ c'.start
  entry : ∀ i c, ranges[i]? = some c → c.start = entryStart data table i ∧
    c.compressed = (rawEntry data table i).testBit 31
  length_le : ranges.length ≤ declaredCount data table
  cut : ranges.length < declaredCount data table → Unusable data table sectors ranges.length

section Entries

variable {data : List UInt8} {table sectors : Section}

/-- Bit 31 of four bytes. -/
theorem compressed_ofNat {raw : ℕ} (h : raw < 4294967296) :
    (TableEntry.ofNat raw).compressed = raw.testBit 31 := by
  rw [TableEntry.ofNat, Nat.testBit_eq_decide_div_mod_eq, decide_eq_decide]
  omega

theorem tableEntry_of_inFile {i : ℕ} (h : EntryInFile data table i) :
    tableEntry data table i = some (TableEntry.ofNat (rawEntry data table i)) := if_pos h

theorem tableEntry_of_not_inFile {i : ℕ} (h : ¬ EntryInFile data table i) :
    tableEntry data table i = none := if_neg h

theorem tableStop_eq_ite (i : ℕ) : tableStop data table sectors i =
    if i + 1 < declaredCount data table then tableTarget data table (i + 1)
    else some (min (sectors.offset + sectors.size) data.length) := rfl

/-- The next entry gives the end of a chunk if it is in the file. -/
theorem tableStop_eq {i : ℕ}
    (h : i + 1 < declaredCount data table → EntryInFile data table (i + 1)) :
    tableStop data table sectors i = some (entryStop data table sectors i) := by
  rw [tableStop_eq_ite, entryStop]
  by_cases hlast : i + 1 < declaredCount data table
  · rw [if_pos hlast, tableTarget, tableEntry_of_inFile (h hlast), if_pos hlast]
    rfl
  · rw [if_neg hlast, if_neg hlast]

/-- An entry gives the range that it describes, or it is unusable. -/
theorem describedRange_cases (i : ℕ) :
    (describedRange data table sectors i = none ∧ Unusable data table sectors i) ∨
      ∃ c, describedRange data table sectors i = some c ∧ c.start = entryStart data table i ∧
        c.stop = entryStop data table sectors i ∧
        c.compressed = (rawEntry data table i).testBit 31 ∧
        c.start < c.stop ∧ c.stop ≤ data.length := by
  rw [describedRange]
  by_cases hin : EntryInFile data table i
  · rw [tableEntry_of_inFile hin]
    by_cases hnext : i + 1 < declaredCount data table → EntryInFile data table (i + 1)
    · rw [tableStop_eq hnext]
      simp only
      split_ifs with hrange
      · exact .inr ⟨_, rfl, rfl, rfl, compressed_ofNat (leU32_lt _ _), hrange⟩
      · refine .inl ⟨rfl, .inr (.inr ?_)⟩
        change ¬ (entryStart data table i < _ ∧ _) at hrange
        omega
    · rw [Classical.not_imp] at hnext
      have hstop : tableStop data table sectors i = none := by
        rw [tableStop_eq_ite, if_pos hnext.1, tableTarget, tableEntry_of_not_inFile hnext.2]
        rfl
      rw [hstop]
      exact .inl ⟨rfl, .inr (.inl hnext)⟩
  · rw [tableEntry_of_not_inFile hin]
    exact .inl ⟨rfl, .inl hin⟩

/-- The range of a chunk that is found. -/
theorem describedRange_of_getElem? {i k : ℕ} {c : ChunkRange}
    (h : (Loop.forBreak (describedRange data table sectors) k 0)[i]? = some c) :
    c.start = entryStart data table i ∧ c.stop = entryStop data table sectors i ∧
      c.compressed = (rawEntry data table i).testBit 31 ∧ c.start < c.stop ∧
      c.stop ≤ data.length := by
  obtain ⟨-, -, hbody⟩ := Loop.getElem?_forBreak.mp h
  rw [Nat.zero_add] at hbody
  obtain ⟨hnone, -⟩ | ⟨c', hsome, hc'⟩ := @describedRange_cases data table sectors i
  · rw [hnone] at hbody
    cases hbody
  · rw [hsome] at hbody
    obtain rfl := Option.some.inj hbody
    exact hc'

/-- The next of two ranges starts where the first ends. -/
theorem stop_eq_start {i : ℕ} {c c' : ChunkRange}
    (h : (Loop.forBreak (describedRange data table sectors) (declaredCount data table) 0)[i]? =
      some c)
    (h' : (Loop.forBreak (describedRange data table sectors) (declaredCount data table) 0)[i + 1]? =
      some c') : c.stop = c'.start := by
  have hlt := (Loop.getElem?_forBreak.mp h').1
  rw [(describedRange_of_getElem? h).2.1, (describedRange_of_getElem? h').1, entryStop,
    if_pos hlt]

/-- **The loop over the entries** of a table gives a tiling. -/
theorem tiling_forBreak : Tiling data table sectors
    (Loop.forBreak (describedRange data table sectors) (declaredCount data table) 0) where
  range c hc := by
    obtain ⟨i, hi⟩ := List.mem_iff_getElem?.mp hc
    exact (describedRange_of_getElem? hi).2.2.2
  next i c c' := stop_eq_start
  ascending := by
    rw [List.pairwise_iff_getElem]
    intro i j hi hj hij
    -- By induction on the later one: each range ends behind its start.
    induction j, hij using Nat.le_induction with
    | base =>
        exact (stop_eq_start (List.getElem?_eq_getElem hi) (List.getElem?_eq_getElem hj)).le
    | succ j hle ih =>
        have hj' := Nat.lt_of_succ_lt hj
        have hrange := (describedRange_of_getElem? (List.getElem?_eq_getElem hj')).2.2.2.1
        have hnext := stop_eq_start (List.getElem?_eq_getElem hj') (List.getElem?_eq_getElem hj)
        have hprev := ih hj'
        omega
  entry i c hc := by
    have h := describedRange_of_getElem? hc
    exact ⟨h.1, h.2.2.1⟩
  length_le := Loop.length_forBreak_le _ _ _
  cut hlt := by
    obtain ⟨-, hunusable⟩ | ⟨c, hsome, -⟩ := @describedRange_cases data table sectors
      (Loop.forBreak (describedRange data table sectors) (declaredCount data table) 0).length
    · exact hunusable
    · -- The loop would have gone on.
      have hgo : (Loop.forBreak (describedRange data table sectors) (declaredCount data table) 0)[
          (Loop.forBreak (describedRange data table sectors)
            (declaredCount data table) 0).length]? = some c := by
        refine Loop.getElem?_forBreak.mpr ⟨hlt, fun m hm => ?_, by rwa [Nat.zero_add]⟩
        obtain ⟨-, -, hbody⟩ := Loop.getElem?_forBreak.mp (List.getElem?_eq_getElem hm)
        rw [hbody]
        rfl
      rw [List.getElem?_eq_none le_rfl] at hgo
      cases hgo

end Entries

/-- **The chunk ranges of a segment** are a tiling from the first entry of the table that is read,
for any list of sections; without such a table there are none. -/
theorem iter_segment_chunks_tiling (src : Segment) (sections : List Section) :
    (∀ table sectors, ReadsTable src.data sections table sectors →
      Tiling src.data table sectors (iterSegmentChunks src.data sections)) ∧
    ((¬ ∃ table sectors, ReadsTable src.data sections table sectors) →
      iterSegmentChunks src.data sections = []) := by
  constructor
  · rintro table sectors ⟨ht, hs, hheader⟩
    rw [iterSegmentChunks_eq_forBreak src.length_lt_u64Max ht hs, if_pos hheader]
    exact tiling_forBreak
  · intro hno
    cases ht : findSection sections .table with
    | none =>
        rw [iterSegmentChunks]
        simp only [ht]
    | some table =>
        cases hs : findSection sections .sectors with
        | none =>
            rw [iterSegmentChunks]
            simp only [ht, hs]
        | some sectors =>
            rw [iterSegmentChunks_eq_forBreak src.length_lt_u64Max ht hs]
            exact if_neg fun hheader => hno ⟨table, sectors, ht, hs, hheader⟩

end EwfForensic

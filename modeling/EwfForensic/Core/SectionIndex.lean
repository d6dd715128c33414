import EwfForensic.Core.TableChunks
import EwfForensic.Lib.Offsets
import EwfForensic.Lib.PartitionPoint

/-!
# The Index of Table Sections

The lazy store finds the table section of a chunk by binary search in an index. Each section of
the index starts where the sections before it end, so an empty section starts where its neighbour
does, and the search has to resolve the tie.

* `Cumulative` — an index whose sections follow one another; `Cumulative.firstChunkId_eq` gives
  the first chunk of a section as a sum.
* `Cumulative.partitions` — the sections that start at a chunk or before it are those up to the
  one that holds it: behind that one, no section starts before its end.
* `LazyChunkTable.searchSection` — `section_for` with the search that `partition_point` runs.
* `Cumulative.sectionFor_eq_some_iff`, `Cumulative.sectionFor_eq_none_iff` — what it finds.
-/

namespace EwfForensic

open Offsets

/-! ### Cumulative indices -/

/-- Each section starts where the sections before it end, the first one at chunk `a`. -/
def Cumulative : ℕ → List SectionMeta → Prop
  | _, [] => True
  | a, m :: ms => m.firstChunkId = a ∧ Cumulative (a + m.entryCount) ms

theorem cumulative_concat {a : ℕ} {ms : List SectionMeta} (h : Cumulative a ms) {m : SectionMeta}
    (hm : m.firstChunkId = a + (ms.map (·.entryCount)).sum) : Cumulative a (ms ++ [m]) := by
  induction ms generalizing a with
  | nil => exact ⟨by simpa using hm, trivial⟩
  | cons m' ms ih =>
      refine ⟨h.1, ih h.2 ?_⟩
      rw [hm, List.map_cons, List.sum_cons, Nat.add_assoc]

/-! ### Sections as blocks -/

/-- Section `k` of the index holds a chunk. -/
def LazyChunkTable.Covers (t : LazyChunkTable) (k chunkId : ℕ) : Prop :=
  ∃ m, t.index[k]? = some m ∧ m.firstChunkId ≤ chunkId ∧ chunkId < m.firstChunkId + m.entryCount

/-- The entry counts of an index. -/
def entryCounts (index : List SectionMeta) : List ℕ := index.map (·.entryCount)

section Index

variable {index : List SectionMeta} {k chunkId : ℕ} {m : SectionMeta}

theorem getElem?_entryCounts (hm : index[k]? = some m) :
    (entryCounts index)[k]? = some m.entryCount := by
  rw [entryCounts, List.getElem?_map, hm, Option.map_some]

/-- A section of a cumulative index starts at the sum of the entry counts before it. -/
theorem Cumulative.firstChunkId_eq {a : ℕ} (h : Cumulative a index) (hm : index[k]? = some m) :
    m.firstChunkId = a + start (entryCounts index) k := by
  induction index generalizing a k with
  | nil => cases hm
  | cons m' index ih =>
      obtain ⟨hfirst, hrest⟩ := h
      cases k with
      | zero =>
          obtain rfl := Option.some.inj hm
          exact hfirst
      | succ k =>
          have hcons : entryCounts (m' :: index) = m'.entryCount :: entryCounts index := rfl
          rw [ih hrest (by simpa using hm), hcons, start_cons_succ, Nat.add_assoc]

/-- A section holds a chunk exactly when the chunk is the offset of a place in it. -/
theorem Cumulative.covers_iff (h : Cumulative 0 index) {chunkSize cap : ℕ} :
    (LazyChunkTable.new index chunkSize cap).Covers k chunkId ↔
      ∃ l, (k, l) ∈ places (entryCounts index) ∧ offset (entryCounts index) (k, l) = chunkId := by
  constructor
  · rintro ⟨m, hm, hlo, hhi⟩
    have hfirst := h.firstChunkId_eq hm
    refine ⟨chunkId - m.firstChunkId, ⟨m.entryCount, getElem?_entryCounts hm, ?_⟩, ?_⟩
    · simp only
      omega
    · rw [offset_mk]
      omega
  · rintro ⟨l, ⟨c, hc, hlt⟩, rfl⟩
    rw [entryCounts, List.getElem?_map] at hc
    obtain ⟨m, hm, rfl⟩ := Option.map_eq_some_iff.mp hc
    have hfirst : m.firstChunkId = 0 + start (entryCounts index) k := h.firstChunkId_eq hm
    simp only at hlt
    rw [offset_mk]
    exact ⟨m, hm, by omega, by omega⟩

/-- **Ties.** The sections that start at a chunk or before it are those up to the one that holds
it. An empty section in front of that one is among them, one behind it is not. -/
theorem Cumulative.partitions (h : Cumulative 0 index) (hm : index[k]? = some m)
    (hlo : m.firstChunkId ≤ chunkId) (hhi : chunkId < m.firstChunkId + m.entryCount) :
    Partitions (fun m => m.firstChunkId ≤ chunkId) index (k + 1) := by
  refine ⟨(List.getElem?_eq_some_iff.mp hm).1, fun j x hx => ?_⟩
  have hk := h.firstChunkId_eq hm
  have hj := h.firstChunkId_eq hx
  have hend := start_succ (getElem?_entryCounts hm)
  rw [decide_eq_true_eq]
  constructor
  · intro hle
    by_contra hge
    have := @start_le_start (entryCounts index) _ _ (not_lt.mp hge)
    omega
  · intro hlt
    have := @start_le_start (entryCounts index) _ _ (Nat.lt_succ_iff.mp hlt)
    omega

/-- A chunk of the table lies in a section. -/
theorem Cumulative.exists_covers (h : Cumulative 0 index) (chunkSize cap : ℕ)
    (hlt : chunkId < (entryCounts index).sum) :
    ∃ k, (LazyChunkTable.new index chunkSize cap).Covers k chunkId := by
  obtain ⟨⟨k, l⟩, hp, heq⟩ := exists_place hlt
  exact ⟨k, h.covers_iff.mpr ⟨l, hp, heq⟩⟩

/-- Every chunk id cuts a cumulative index in two. -/
theorem Cumulative.exists_partitions (h : Cumulative 0 index) (chunkId : ℕ) :
    ∃ n, Partitions (fun m => m.firstChunkId ≤ chunkId) index n := by
  by_cases hlt : chunkId < (entryCounts index).sum
  · obtain ⟨k, m, hm, hlo, hhi⟩ := h.exists_covers 0 0 hlt
    exact ⟨k + 1, h.partitions hm hlo hhi⟩
  · -- Beyond the table every section starts before the chunk.
    refine ⟨index.length, le_rfl, fun j x hx => ?_⟩
    have hj := h.firstChunkId_eq hx
    have hle := start_le_sum (entryCounts index) j
    rw [decide_eq_true_eq]
    exact iff_of_true (by omega) (List.getElem?_eq_some_iff.mp hx).1

/-- The length of a lazy table is the number of entries its sections declare. -/
theorem Cumulative.len_new (h : Cumulative 0 index) (chunkSize cap : ℕ) :
    (LazyChunkTable.new index chunkSize cap).len = (index.map (·.entryCount)).sum := by
  rw [LazyChunkTable.new]
  cases hlast : index.getLast? with
  | none =>
      obtain rfl := List.getLast?_eq_none_iff.mp hlast
      rfl
  | some m =>
      have hpos : 0 < index.length := List.length_pos_of_mem (List.mem_of_getLast? hlast)
      rw [List.getLast?_eq_getElem?] at hlast
      have hfirst := h.firstChunkId_eq hlast
      have hend := start_succ (getElem?_entryCounts hlast)
      have hsum := start_length (entryCounts index)
      rw [show index.length - 1 + 1 = (entryCounts index).length by
        rw [entryCounts, List.length_map]
        omega] at hend
      simp only
      rw [← entryCounts]
      omega

end Index

/-! ### The search -/

/-- `section_for` with the binary search of `partition_point`. -/
def LazyChunkTable.searchSection (t : LazyChunkTable) (chunkId : ℕ) : Option ℕ :=
  let after := partitionPoint (fun m => m.firstChunkId ≤ chunkId) t.index
  if after = 0 then none
  else
    match t.index[after - 1]? with
    | some m => if chunkId < m.firstChunkId + m.entryCount then some (after - 1) else none
    | none => none

section Search

variable {index : List SectionMeta} {chunkSize cap k chunkId : ℕ}

/-- In a cumulative index the binary search finds what the leading part gives. -/
theorem Cumulative.searchSection_eq (h : Cumulative 0 index) (chunkSize cap chunkId : ℕ) :
    (LazyChunkTable.new index chunkSize cap).searchSection chunkId =
      (LazyChunkTable.new index chunkSize cap).sectionFor chunkId := by
  obtain ⟨n, hn⟩ := h.exists_partitions chunkId
  have hindex : (LazyChunkTable.new index chunkSize cap).index = index := rfl
  rewrite [LazyChunkTable.searchSection, LazyChunkTable.sectionFor, hindex,
    hn.partitionPoint_eq, hn.length_takeWhile]
  rfl

/-- **The search finds a section** exactly if that section holds the chunk. -/
theorem Cumulative.sectionFor_eq_some_iff (h : Cumulative 0 index) :
    (LazyChunkTable.new index chunkSize cap).sectionFor chunkId = some k ↔
      (LazyChunkTable.new index chunkSize cap).Covers k chunkId := by
  refine ⟨LazyChunkTable.sectionFor_eq_some, ?_⟩
  rintro ⟨m, hm, hlo, hhi⟩
  exact LazyChunkTable.sectionFor_of_takeWhile (h.partitions hm hlo hhi).length_takeWhile hm hhi

/-- No two sections hold one chunk. -/
theorem Cumulative.covers_unique (h : Cumulative 0 index) {k' : ℕ}
    (hk : (LazyChunkTable.new index chunkSize cap).Covers k chunkId)
    (hk' : (LazyChunkTable.new index chunkSize cap).Covers k' chunkId) : k = k' := by
  obtain ⟨l, hp, hl⟩ := h.covers_iff.mp hk
  obtain ⟨l', hp', hl'⟩ := h.covers_iff.mp hk'
  exact congrArg Prod.fst (injOn_offset _ hp hp' (hl.trans hl'.symm))

/-- **The search finds nothing** exactly for the chunks beyond the table. -/
theorem Cumulative.sectionFor_eq_none_iff (h : Cumulative 0 index) :
    (LazyChunkTable.new index chunkSize cap).sectionFor chunkId = none ↔
      (LazyChunkTable.new index chunkSize cap).len ≤ chunkId := by
  rw [h.len_new, ← entryCounts]
  constructor
  · intro hnone
    by_contra hlt
    obtain ⟨k, hk⟩ := h.exists_covers chunkSize cap (not_le.mp hlt)
    rw [h.sectionFor_eq_some_iff.mpr hk] at hnone
    cases hnone
  · intro hle
    refine Option.eq_none_iff_forall_ne_some.mpr fun k hk => ?_
    obtain ⟨l, hp, rfl⟩ := h.covers_iff.mp (h.sectionFor_eq_some_iff.mp hk)
    have := offset_lt_sum hp
    omega

end Search

end EwfForensic

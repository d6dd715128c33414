import Mathlib.Data.List.TakeWhile
import EwfForensic.Core.Open

/-!
# The Chunks of a Table Section

What the loop of `parse_table_section` with its two back-fills computes, entry by entry.

* `chunksOf` — one chunk for each entry: a compressed one ends where the next one starts, or
  with the sectors section.
* `parseTableSection_eq` — the parser keeps the entries whose absolute offset fits 64 bits and
  computes their `chunksOf`.
* `KeepsNumbering` — chunk `i` is entry `i`, with the offset and the size that the parser is
  documented to give it; `keepsNumbering_iff` says when it is.
* `ChunkTable.NoOverflow` — no entry of a lazy table is skipped; then no lookup indexes a
  section out of bounds (`ChunkTable.find_ne_indexPanic`).
-/

namespace EwfForensic

open Octets

theorem modifyLast_concat {α : Type} (f : α → α) (l : List α) (a : α) :
    modifyLast f (l ++ [a]) = l ++ [f a] := by
  induction l with
  | nil => rfl
  | cons b l ih =>
      cases l with
      | nil => rfl
      | cons c l =>
          rw [List.cons_append, List.cons_append, modifyLast, ← List.cons_append, ih,
            List.cons_append]
          rfl

/-- The entry's absolute offset fits 64 bits. -/
def TableEntry.Fits (baseOffset : ℕ) (e : TableEntry) : Prop :=
  e.chunkOffset + baseOffset ≤ u64Max

instance (baseOffset : ℕ) (e : TableEntry) : Decidable (e.Fits baseOffset) :=
  inferInstanceAs (Decidable (_ ≤ _))

section

variable (baseOffset segIdx chunkSize : ℕ)

/-- The chunk of an entry as the loop pushes it. -/
def TableEntry.pushed (e : TableEntry) : Chunk :=
  Chunk.new segIdx e.compressed (e.chunkOffset + baseOffset) chunkSize

/-- The chunk of an entry that `next` follows. -/
def TableEntry.closedBy (e next : TableEntry) : Chunk :=
  backfillPrevious (next.chunkOffset + baseOffset - (e.chunkOffset + baseOffset))
    (e.pushed baseOffset segIdx chunkSize)

/-- The chunks of a row of entries; `last` is the back-fill of the final one. -/
def chunksOf (last : Chunk → Chunk) : List TableEntry → List Chunk
  | [] => []
  | [e] => [last (e.pushed baseOffset segIdx chunkSize)]
  | e :: next :: rest =>
    e.closedBy baseOffset segIdx chunkSize next :: chunksOf last (next :: rest)

/-- The back-fill of a section's final chunk. -/
def lastFill (sectorsDataEnd : Option ℕ) (c : Chunk) : Chunk :=
  match sectorsDataEnd with
  | some sectorsEnd => backfillLast chunkSize sectorsEnd c
  | none => c

variable {baseOffset segIdx chunkSize}

theorem length_chunksOf (last : Chunk → Chunk) (entries : List TableEntry) :
    (chunksOf baseOffset segIdx chunkSize last entries).length = entries.length := by
  induction entries with
  | nil => rfl
  | cons e entries ih =>
      cases entries with
      | nil => rfl
      | cons next rest => simp only [chunksOf, List.length_cons, ih]

/-- Changing the final chunk is changing its back-fill. -/
theorem modifyLast_chunksOf (f : Chunk → Chunk) (entries : List TableEntry) :
    modifyLast f (chunksOf baseOffset segIdx chunkSize id entries) =
      chunksOf baseOffset segIdx chunkSize f entries := by
  induction entries with
  | nil => rfl
  | cons e entries ih =>
      cases entries with
      | nil => rfl
      | cons next rest =>
          rw [chunksOf, chunksOf, ← ih]
          cases rest with
          | nil => rfl
          | cons next' rest => rfl

/-- The loop of the parser, once it has pushed an entry. -/
theorem foldl_pushEntry_of_fits {entries : List TableEntry}
    (hfits : ∀ e ∈ entries, e.Fits baseOffset) (acc : List Chunk) (e : TableEntry) :
    (entries.foldl (pushEntry baseOffset segIdx chunkSize)
        (acc ++ [e.pushed baseOffset segIdx chunkSize], some (e.chunkOffset + baseOffset))).1 =
      acc ++ chunksOf baseOffset segIdx chunkSize id (e :: entries) := by
  induction entries generalizing acc e with
  | nil => rfl
  | cons next rest ih =>
      have hnext : ¬ next.chunkOffset + baseOffset > u64Max :=
        not_lt.mpr (hfits next (List.mem_cons_self ..))
      rw [List.foldl_cons, pushEntry]
      simp only [if_neg hnext, modifyLast_concat]
      exact (ih (fun e' he' => hfits e' (List.mem_cons_of_mem _ he'))
        (acc ++ [e.closedBy baseOffset segIdx chunkSize next]) next).trans
          (List.append_cons ..).symm

/-- Entries that overflow leave no trace. -/
theorem foldl_pushEntry_filter (entries : List TableEntry) (st : List Chunk × Option ℕ) :
    entries.foldl (pushEntry baseOffset segIdx chunkSize) st =
      (entries.filter fun e => e.Fits baseOffset).foldl (pushEntry baseOffset segIdx chunkSize)
        st := by
  induction entries generalizing st with
  | nil => rfl
  | cons e entries ih =>
      by_cases he : e.Fits baseOffset
      · rw [List.filter_cons_of_pos (by simpa using he), List.foldl_cons, List.foldl_cons, ih]
      · rw [List.filter_cons_of_neg (by simpa using he), List.foldl_cons, pushEntry]
        simp only
        rw [if_pos (not_le.mp he), ih]

/-- **The parser in closed form.** -/
theorem parseTableSection_eq (entries : List UInt8) (entryCount : ℕ) (sectorsDataEnd : Option ℕ) :
    parseTableSection entries entryCount baseOffset segIdx chunkSize sectorsDataEnd =
      chunksOf baseOffset segIdx chunkSize (lastFill chunkSize sectorsDataEnd)
        ((tableEntries entries (min entryCount (entries.length / 4))).filter fun e =>
          e.Fits baseOffset) := by
  have hfold : ∀ es : List TableEntry, (∀ e ∈ es, e.Fits baseOffset) →
      (es.foldl (pushEntry baseOffset segIdx chunkSize) ([], none)).1 =
        chunksOf baseOffset segIdx chunkSize id es := by
    intro es hes
    cases es with
    | nil => rfl
    | cons e es =>
        have he : ¬ e.chunkOffset + baseOffset > u64Max :=
          not_lt.mpr (hes e (List.mem_cons_self ..))
        rw [List.foldl_cons, pushEntry]
        simp only [if_neg he]
        exact foldl_pushEntry_of_fits (fun e' he' => hes e' (List.mem_cons_of_mem _ he')) [] e
  unfold parseTableSection
  simp only
  rw [foldl_pushEntry_filter, hfold _ fun e he => by simpa using (List.mem_filter.mp he).2]
  cases sectorsDataEnd with
  | none => rfl
  | some sectorsEnd => exact modifyLast_chunksOf _ _

end

/-! ### Chunk numbering -/

section Numbering

variable {baseOffset segIdx chunkSize : ℕ} {sectorsDataEnd : Option ℕ}

@[simp] theorem backfillPrevious_offset (d : ℕ) (c : Chunk) :
    (backfillPrevious d c).offset = c.offset := by
  rw [backfillPrevious]
  split_ifs <;> rfl

@[simp] theorem backfillPrevious_compressed (d : ℕ) (c : Chunk) :
    (backfillPrevious d c).compressed = c.compressed := by
  rw [backfillPrevious]
  split_ifs <;> rfl

@[simp] theorem lastFill_offset (c : Chunk) :
    (lastFill chunkSize sectorsDataEnd c).offset = c.offset := by
  cases sectorsDataEnd with
  | none => rfl
  | some sectorsEnd =>
      rw [lastFill, backfillLast]
      split_ifs <;> rfl

@[simp] theorem lastFill_compressed (c : Chunk) :
    (lastFill chunkSize sectorsDataEnd c).compressed = c.compressed := by
  cases sectorsDataEnd with
  | none => rfl
  | some sectorsEnd =>
      rw [lastFill, backfillLast]
      split_ifs <;> rfl

/-- The chunk of an entry, as the entry behind it closes it or the final back-fill does. -/
theorem getElem?_chunksOf {last : Chunk → Chunk} {table : List TableEntry} {i : ℕ}
    {e : TableEntry} (he : table[i]? = some e) :
    (chunksOf baseOffset segIdx chunkSize last table)[i]? =
      some (match table[i + 1]? with
        | some next => e.closedBy baseOffset segIdx chunkSize next
        | none => last (e.pushed baseOffset segIdx chunkSize)) := by
  induction table generalizing i with
  | nil => cases he
  | cons e' table ih =>
      cases table with
      | nil =>
          cases i with
          | zero =>
              obtain rfl := Option.some.inj he
              rfl
          | succ i => cases he
      | cons next rest =>
          rw [chunksOf]
          cases i with
          | zero =>
              obtain rfl := Option.some.inj he
              rfl
          | succ i =>
              rw [List.getElem?_cons_succ] at he ⊢
              exact ih he

/-- The size of the chunk of entry `i`: a raw chunk is a whole chunk long, a compressed one ends
where the next entry starts, the last one with the sectors data; an end that is not behind the
start, or for the last entry a chunk or more behind it, leaves the size of a whole chunk. -/
def entryChunkSize (table : List TableEntry) (baseOffset chunkSize : ℕ)
    (sectorsDataEnd : Option ℕ) (i : ℕ) (e : TableEntry) : ℕ :=
  if e.compressed then
    match table[i + 1]?, sectorsDataEnd with
    | some next, _ =>
      if e.chunkOffset < next.chunkOffset then next.chunkOffset - e.chunkOffset else chunkSize
    | none, some sectorsEnd =>
      let left := sectorsEnd - (baseOffset + e.chunkOffset)
      if 0 < left ∧ left < chunkSize then left else chunkSize
    | none, none => chunkSize
  else chunkSize

/-- Chunk `i` of a section is entry `i` of its table, for every entry. -/
structure KeepsNumbering (table : List TableEntry) (baseOffset chunkSize : ℕ)
    (sectorsDataEnd : Option ℕ) (chunks : List Chunk) : Prop where
  length_eq : chunks.length = table.length
  chunk : ∀ i e, table[i]? = some e → ∃ c, chunks[i]? = some c ∧ c.compressed = e.compressed ∧
    c.offset = baseOffset + e.chunkOffset ∧
    c.size = entryChunkSize table baseOffset chunkSize sectorsDataEnd i e

/-- No chunk of a section has an offset beyond 63 bits: the packed offset has no room for it. -/
theorem offset_lt_of_mem_chunksOf {last : Chunk → Chunk} (hlast : ∀ c, (last c).offset = c.offset)
    {table : List TableEntry} {c : Chunk}
    (hc : c ∈ chunksOf baseOffset segIdx chunkSize last table) :
    c.offset < 9223372036854775808 := by
  obtain ⟨i, hi⟩ := List.mem_iff_getElem?.mp hc
  obtain ⟨hlt, -⟩ := List.getElem?_eq_some_iff.mp hi
  rw [length_chunksOf] at hlt
  rw [getElem?_chunksOf (List.getElem?_eq_getElem hlt)] at hi
  obtain rfl := Option.some.inj hi
  split
  · rw [TableEntry.closedBy, backfillPrevious_offset]
    exact Nat.mod_lt _ (by norm_num)
  · rw [hlast]
    exact Nat.mod_lt _ (by norm_num)

/-- The size of an entry's chunk that another one follows. -/
theorem size_closedBy (hcs : chunkSize ≤ 134217728) {e next : TableEntry}
    (hnext : next.chunkOffset < 2147483648) :
    (e.closedBy baseOffset segIdx chunkSize next).size =
      if e.compressed ∧ e.chunkOffset < next.chunkOffset then next.chunkOffset - e.chunkOffset
      else chunkSize := by
  have hdist : next.chunkOffset + baseOffset - (e.chunkOffset + baseOffset) =
      next.chunkOffset - e.chunkOffset := Nat.add_sub_add_right ..
  have hcond : (e.compressed = true ∧ next.chunkOffset - e.chunkOffset > 0) ↔
      (e.compressed = true ∧ e.chunkOffset < next.chunkOffset) :=
    and_congr_right fun _ => Nat.sub_pos_iff_lt
  rw [TableEntry.closedBy, backfillPrevious, hdist]
  change (if e.compressed = true ∧ _ then Chunk.setSize _ _ else _).size = _
  simp only [hcond]
  split_ifs with h
  · exact Nat.mod_eq_of_lt (by omega)
  · exact Nat.mod_eq_of_lt (by omega)

/-- The size of the chunk of a section's final entry. -/
theorem size_lastFill_pushed (hcs : chunkSize ≤ 134217728) {e : TableEntry}
    (hfits : baseOffset + e.chunkOffset < 9223372036854775808) :
    (lastFill chunkSize sectorsDataEnd (e.pushed baseOffset segIdx chunkSize)).size =
      match sectorsDataEnd with
      | some sectorsEnd =>
        if e.compressed ∧ 0 < sectorsEnd - (baseOffset + e.chunkOffset) ∧
            sectorsEnd - (baseOffset + e.chunkOffset) < chunkSize then
          sectorsEnd - (baseOffset + e.chunkOffset)
        else chunkSize
      | none => chunkSize := by
  have hsize : (e.pushed baseOffset segIdx chunkSize).size = chunkSize :=
    Nat.mod_eq_of_lt (by omega)
  have hoff : (e.pushed baseOffset segIdx chunkSize).offset = baseOffset + e.chunkOffset := by
    rw [Nat.add_comm]
    exact Nat.mod_eq_of_lt (by omega)
  have hcomp : (e.pushed baseOffset segIdx chunkSize).compressed = e.compressed := rfl
  cases sectorsDataEnd with
  | none => exact hsize
  | some sectorsEnd =>
      simp only [lastFill, backfillLast, hsize, hoff, hcomp, gt_iff_lt, true_and]
      split_ifs with h
      · exact Nat.mod_eq_of_lt (by omega)
      · exact hsize

/-- **When the parser keeps the numbering of a table.** It does exactly when the absolute offset
of every entry fits the 63 bits of a packed offset: an offset beyond 64 bits is skipped and moves
every chunk behind it, one beyond 63 bits loses its top bit. -/
theorem keepsNumbering_iff {entries : List UInt8} {entryCount : ℕ}
    (hlen : entryCount * 4 ≤ entries.length) (hcs : chunkSize ≤ maxChunkSize) :
    KeepsNumbering (tableEntries entries entryCount) baseOffset chunkSize sectorsDataEnd
        (parseTableSection entries entryCount baseOffset segIdx chunkSize sectorsDataEnd) ↔
      ∀ e ∈ tableEntries entries entryCount,
        baseOffset + e.chunkOffset < 9223372036854775808 := by
  have hcount : min entryCount (entries.length / 4) = entryCount := by omega
  change chunkSize ≤ 134217728 at hcs
  rw [parseTableSection_eq, hcount]
  constructor
  · rintro ⟨-, hchunk⟩ e he
    obtain ⟨i, hi⟩ := List.mem_iff_getElem?.mp he
    obtain ⟨c, hc, -, hoff, -⟩ := hchunk i e hi
    rw [← hoff]
    exact offset_lt_of_mem_chunksOf (fun c => lastFill_offset c) (List.mem_of_getElem? hc)
  · intro hall
    have hfits : ∀ e ∈ tableEntries entries entryCount, decide (e.Fits baseOffset) = true := by
      intro e he
      have hlt := hall e he
      rw [decide_eq_true_eq]
      rw [TableEntry.Fits, u64Max]
      omega
    rw [List.filter_eq_self.mpr hfits]
    refine ⟨length_chunksOf _ _, fun i e he => ⟨_, getElem?_chunksOf he, ?_⟩⟩
    have hoff := hall e (List.mem_of_getElem? he)
    have hmod : (e.chunkOffset + baseOffset) % 9223372036854775808 =
        baseOffset + e.chunkOffset := by
      rw [Nat.add_comm]
      exact Nat.mod_eq_of_lt hoff
    cases hnext : (tableEntries entries entryCount)[i + 1]? with
    | some next =>
        obtain ⟨j, -, rfl⟩ := List.mem_map.mp (List.mem_of_getElem? hnext)
        refine ⟨backfillPrevious_compressed .., (backfillPrevious_offset ..).trans hmod, ?_⟩
        rw [size_closedBy hcs (TableEntry.chunkOffset_ofNat_lt _)]
        simp only [entryChunkSize, hnext, ite_and]
    | none =>
        refine ⟨lastFill_compressed _, (lastFill_offset _).trans hmod, ?_⟩
        rw [size_lastFill_pushed hcs hoff]
        cases sectorsDataEnd with
        | none => simp only [entryChunkSize, hnext, ite_self]
        | some sectorsEnd => simp only [entryChunkSize, hnext, ite_and]

end Numbering

/-- A raw and a compressed entry, both in range. -/
theorem keepsNumbering_iff_two :
    KeepsNumbering (tableEntries [5, 0, 0, 0, 9, 0, 0, 128] 2) 100 512 (some 200)
      (parseTableSection [5, 0, 0, 0, 9, 0, 0, 128] 2 100 0 512 (some 200)) :=
  (keepsNumbering_iff (by decide) (by decide)).mpr (by decide)

/-- The first of two entries has no absolute offset, and the second one takes its number. -/
theorem not_keepsNumbering_skipped :
    ¬ KeepsNumbering (tableEntries [1, 0, 0, 0, 0, 0, 0, 0] 2) u64Max 512 none
      (parseTableSection [1, 0, 0, 0, 0, 0, 0, 0] 2 u64Max 0 512 none) := by
  intro h
  have hlen := h.length_eq
  revert hlen
  decide

/-! ### Lazy tables without overflow -/

/-- The bytes of a table section's entries. -/
def SectionMeta.entryBytes (m : SectionMeta) (data : List UInt8) : List UInt8 :=
  (data.drop m.entriesFileOffset).take (m.entryCount * 4)

/-- No entry of the section has an absolute offset beyond 64 bits. -/
def SectionMeta.NoOverflow (segments : List Segment) (m : SectionMeta) : Prop :=
  ∀ src, segments[m.segmentIdx]? = some src →
    ∀ e ∈ tableEntries (m.entryBytes src.data) m.entryCount, e.Fits m.baseOffset

/-- No entry of a lazy table overflows. -/
def ChunkTable.NoOverflow (t : ChunkTable) (segments : List Segment) : Prop :=
  match t with
  | .eager _ => True
  | .lazy t => ∀ m ∈ t.index, m.NoOverflow segments

instance (segments : List Segment) (m : SectionMeta) : Decidable (m.NoOverflow segments) :=
  match h : segments[m.segmentIdx]? with
  | none => isTrue fun src hs => by rw [h] at hs; cases hs
  | some src =>
    decidable_of_iff (∀ e ∈ tableEntries (m.entryBytes src.data) m.entryCount, e.Fits m.baseOffset)
      ⟨fun hall src' hs => Option.some.inj (h.symm.trans hs) ▸ hall, fun hall => hall src h⟩

instance (t : ChunkTable) (segments : List Segment) : Decidable (t.NoOverflow segments) :=
  match t with
  | .eager _ => isTrue trivial
  | .lazy t => inferInstanceAs (Decidable (∀ m ∈ t.index, m.NoOverflow segments))

theorem length_tableEntries (entries : List UInt8) (count : ℕ) :
    (tableEntries entries count).length = count := by
  rw [tableEntries, List.length_map, List.length_range]

/-- A section that loads without overflow has a chunk for each of its entries. -/
theorem LazyChunkTable.length_loadSection {t : LazyChunkTable} {segments : List Segment}
    {m : SectionMeta} (hno : m.NoOverflow segments) {chunks : List Chunk}
    (h : t.loadSection segments m = .ok chunks) : chunks.length = m.entryCount := by
  rw [LazyChunkTable.loadSection] at h
  cases hs : segments[m.segmentIdx]? with
  | none =>
      rw [hs] at h
      cases h
  | some src =>
      rw [hs] at h
      simp only at h
      split_ifs at h with h1 h2 h3
      obtain rfl := Except.ok.inj h
      have hlen : ((src.data.drop m.entriesFileOffset).take (m.entryCount * 4)).length =
          m.entryCount * 4 :=
        le_antisymm (List.length_take_le ..) (not_lt.mp h3)
      rw [parseTableSection_eq, length_chunksOf, hlen, Nat.mul_div_cancel _ (by norm_num),
        Nat.min_self, List.filter_eq_self.mpr fun e he => by simpa using hno src hs e he,
        length_tableEntries]

/-- The section that a lookup goes to holds the chunk. -/
theorem LazyChunkTable.sectionFor_eq_some {t : LazyChunkTable} {chunkId pos : ℕ}
    (h : t.sectionFor chunkId = some pos) :
    ∃ m, t.index[pos]? = some m ∧ m.firstChunkId ≤ chunkId ∧
      chunkId < m.firstChunkId + m.entryCount := by
  unfold LazyChunkTable.sectionFor at h
  simp only at h
  split_ifs at h with h0
  cases hm : t.index[(t.index.takeWhile fun m => m.firstChunkId ≤ chunkId).length - 1]? with
  | none =>
      rw [hm] at h
      cases h
  | some m =>
      rw [hm] at h
      simp only at h
      split_ifs at h with hlt
      obtain rfl := Option.some.inj h
      have hmem : m ∈ t.index.takeWhile fun m => m.firstChunkId ≤ chunkId := by
        have hsplit := @List.takeWhile_append_dropWhile _
          (fun m : SectionMeta => decide (m.firstChunkId ≤ chunkId)) t.index
        have hleft := @List.getElem?_append_left _
          (t.index.takeWhile fun m => m.firstChunkId ≤ chunkId)
          (t.index.dropWhile fun m => m.firstChunkId ≤ chunkId) _ (Nat.sub_one_lt h0)
        rw [hsplit, hm] at hleft
        exact List.mem_of_getElem? hleft.symm
      exact ⟨m, hm, by simpa using List.mem_takeWhile_imp hmem, hlt⟩

/-- The section that a lookup goes to, from the count of the sections that start at the chunk or
before it. -/
theorem LazyChunkTable.sectionFor_of_takeWhile {t : LazyChunkTable} {chunkId k : ℕ}
    {m : SectionMeta} (hk : (t.index.takeWhile fun m => m.firstChunkId ≤ chunkId).length = k + 1)
    (hm : t.index[k]? = some m) (hlt : chunkId < m.firstChunkId + m.entryCount) :
    t.sectionFor chunkId = some k := by
  rw [LazyChunkTable.sectionFor]
  simp only [hk, Nat.succ_ne_zero, if_false, Nat.add_sub_cancel, hm, if_pos hlt]

/-- **No lookup panics** where no entry overflows. -/
theorem ChunkTable.find_ne_indexPanic {t : ChunkTable} {segments : List Segment}
    (hno : t.NoOverflow segments) (chunkId : ℕ) : t.find segments chunkId ≠ .error .indexPanic := by
  cases t with
  | eager chunks =>
      rw [ChunkTable.find]
      cases hc : chunks[chunkId]? with
      | none => simp [outOfRange]
      | some c => simp
  | lazy t =>
      simp only [ChunkTable.find, LazyChunkTable.find]
      cases hpos : t.sectionFor chunkId with
      | none => simp [outOfRange]
      | some pos =>
          obtain ⟨m, hm, hle, hlt⟩ := LazyChunkTable.sectionFor_eq_some hpos
          simp only [hm, LazyChunkTable.sectionAt]
          cases hload : t.loadSection segments m with
          | error e =>
              rw [LazyChunkTable.loadSection] at hload
              split at hload
              · cases hload
                simp
              · simp only at hload
                split_ifs at hload <;> cases hload <;> simp
          | ok chunks =>
              have hlen := LazyChunkTable.length_loadSection (hno m (List.mem_of_getElem? hm)) hload
              have hin : chunkId - m.firstChunkId < chunks.length := by omega
              simp [chunkInSection, List.getElem?_eq_getElem hin]

end EwfForensic

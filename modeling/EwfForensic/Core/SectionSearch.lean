import EwfForensic.Core.TwoStores
import EwfForensic.Lib.Fold

/-!
# The Lazy Index of an Open

`open_v1` numbers the chunks of the table sections it meets in one counter, and gives each section
of the lazy index the counter's value as its first chunk.

* `OpenState.Indexed` — the index is cumulative and the counter stands at its end; every section
  keeps it so, and `indexed_of_openV1` says it of the whole open.
* `section_for_exact` — the search in the index of an open finds the section that holds the chunk,
  the only one, and none exactly for a chunk beyond the table.

The counters are unbounded here. A table section declares at most `maxTableEntries` chunks, so a
64-bit counter would take more than four million million sections to wrap.
-/

namespace EwfForensic

/-! ### The index that an open builds -/

/-- The index is cumulative, and the counter stands at its end. -/
structure OpenState.Indexed (st : OpenState) : Prop where
  cumulative : Cumulative 0 st.index
  nextChunkId_eq : st.nextChunkId = (st.index.map (·.entryCount)).sum

section Open

variable {C : Crates} {st st' : OpenState}

/-- **One section** of a lazy open keeps the index cumulative. -/
theorem OpenState.Indexed.step (h : st.Indexed) {ctx : SegmentContext} {desc : SectionDescriptor}
    (hst : handleDescriptor C true ctx st desc = .ok st') : st'.Indexed := by
  by_cases hv : desc.sectionType = .volume ∨ desc.sectionType = .disk
  · rw [handleDescriptor, if_pos hv] at hst
    obtain ⟨-, rfl⟩ := handleVolume_ok hst
    exact ⟨h.cumulative, h.nextChunkId_eq⟩
  · by_cases ht : desc.sectionType = ctx.tableType
    · rw [handleDescriptor, if_neg hv, if_pos ht] at hst
      obtain rfl := handleTableLazy_ok hst
      refine ⟨cumulative_concat h.cumulative ?_, ?_⟩
      · rw [Nat.zero_add]
        exact h.nextChunkId_eq
      · simp only [h.nextChunkId_eq, List.map_append, List.map_singleton, List.sum_append,
          List.sum_singleton]
    · obtain ⟨-, -, -, hindex, hnext⟩ := handleDescriptor_sameTables hv ht hst
      exact ⟨hindex ▸ h.cumulative, by rw [hnext, hindex, h.nextChunkId_eq]⟩

/-- The sections of one segment. -/
theorem OpenState.Indexed.segment (h : st.Indexed) {q : Segment × ℕ}
    (hst : openSegment C true st q = .ok st') : st'.Indexed :=
  Fold.foldlM_prefix (fun _ s => s.Indexed) hst (p := []) h fun _ _ _ _ hs hd => hs.step hd

/-- **The index of an open** is cumulative. -/
theorem indexed_of_openV1 {sources : List Segment} {cacheSize cap : ℕ} {r : EwfReader}
    (h : openV1 C sources cacheSize (some cap) = .ok r) :
    ∃ index, Cumulative 0 index ∧ r.chunks = .lazy (.new index r.chunkSize cap) := by
  obtain ⟨-, headers, ordered, st, -, -, hst, hr⟩ := openV1_eq_ok_iff.mp h
  have hindexed : st.Indexed :=
    Fold.foldlM_prefix (fun _ s => s.Indexed) hst (p := []) ⟨trivial, rfl⟩
      fun _ _ _ _ hs hq => hs.segment hq
  unfold finishOpen at hr
  split_ifs at hr
  obtain rfl := Except.ok.inj hr
  exact ⟨st.index, hindexed.cumulative, rfl⟩

end Open

/-! ### The search -/

/-- **The lazy index search is exact.** The index of an open gives each section the sum of the
entry counts before it as its first chunk. The binary search in it finds a section exactly if that
section holds the chunk; no two sections hold one chunk; and it finds none exactly for the chunks
beyond the table. -/
theorem section_for_exact (C : Crates) (sources : List Segment) (cacheSize cap : ℕ)
    (r : EwfReader) (t : LazyChunkTable) (h : openV1 C sources cacheSize (some cap) = .ok r)
    (ht : r.chunks = .lazy t) :
    (∀ k m, t.index[k]? = some m →
      m.firstChunkId = ((t.index.take k).map (·.entryCount)).sum) ∧
    ∀ chunkId, t.searchSection chunkId = t.sectionFor chunkId ∧
      (∀ k, t.sectionFor chunkId = some k ↔ t.Covers k chunkId) ∧
      (∀ k k', t.Covers k chunkId → t.Covers k' chunkId → k = k') ∧
      (t.sectionFor chunkId = none ↔ t.len ≤ chunkId) := by
  obtain ⟨index, hcum, hr⟩ := indexed_of_openV1 h
  obtain rfl := ChunkTable.lazy.inj (ht.symm.trans hr)
  refine ⟨fun k m hm => ?_, fun chunkId => ⟨hcum.searchSection_eq _ _ chunkId,
    fun k => hcum.sectionFor_eq_some_iff, fun k k' => hcum.covers_unique,
    hcum.sectionFor_eq_none_iff⟩⟩
  rw [hcum.firstChunkId_eq hm, Nat.zero_add, Offsets.start, entryCounts, List.map_take]
  rfl

/-- An image with a table of two chunks between two empty ones. -/
def emptyTablesImage : Segment :=
  ⟨Image.encodeSegment 1
    [⟨.volume, Image.volumeFront 1 2 1 512 2 ++ List.replicate 70 0⟩,
      ⟨.table, Image.tableBytes 0 true [] []⟩, ⟨.table, Image.tableBytes 0 true [567, 1079] []⟩,
      ⟨.table, Image.tableBytes 0 true [] []⟩, ⟨.sectors, List.replicate 1024 7⟩] .done 0,
    by decide +kernel⟩

/-- The store of a lazy open. -/
def lazyTable (source : Segment) : Option (EwfReader × LazyChunkTable) :=
  match openLazyFromSources Crates.reference [source] with
  | .ok r =>
    match r.chunks with
    | .lazy t => some (r, t)
    | .eager _ => none
  | .error _ => none

theorem lazyTable_eq_some {source : Segment} {r : EwfReader} {t : LazyChunkTable}
    (h : lazyTable source = some (r, t)) :
    openLazyFromSources Crates.reference [source] = .ok r ∧ r.chunks = .lazy t := by
  rw [lazyTable] at h
  split at h
  · next r' hr =>
      split at h
      · next t' ht =>
          obtain ⟨rfl, rfl⟩ := Prod.mk.inj (Option.some.inj h)
          exact ⟨hr, ht⟩
      · cases h
  · cases h

/-- The second chunk is in the second section, and there is no third one. -/
theorem section_for_exact_emptyTables :
    ∃ r t, openLazyFromSources Crates.reference [emptyTablesImage] = .ok r ∧
      r.chunks = .lazy t ∧ entryCounts t.index = [0, 2, 0] ∧ t.sectionFor 1 = some 1 ∧
      t.sectionFor 2 = none := by
  have hval : (lazyTable emptyTablesImage).map (fun v => (entryCounts v.2.index, v.2.len,
      v.2.index[1]?.map fun m => (m.firstChunkId, m.entryCount))) =
        some ([0, 2, 0], 2, some (0, 2)) := by decide +kernel
  obtain ⟨⟨r, t⟩, hrt, hv⟩ := Option.map_eq_some_iff.mp hval
  obtain ⟨hr, ht⟩ := lazyTable_eq_some hrt
  simp only [Prod.mk.injEq] at hv
  obtain ⟨hcounts, hlen, hsecond⟩ := hv
  obtain ⟨m, hm, hfields⟩ := Option.map_eq_some_iff.mp hsecond
  obtain ⟨hfirst, hcount⟩ := Prod.mk.inj hfields
  obtain ⟨-, hexact⟩ := section_for_exact Crates.reference [emptyTablesImage] defaultLruSize
    defaultSectionCache r t hr ht
  obtain ⟨-, hfound, -, -⟩ := hexact 1
  obtain ⟨-, -, -, hnone⟩ := hexact 2
  exact ⟨r, t, hr, ht, hcounts, (hfound 1).mpr ⟨m, hm, by omega, by omega⟩,
    hnone.mpr (by omega)⟩

end EwfForensic

import EwfForensic.Forensic.RecoverRun
import EwfForensic.Image.TablePrefix

/-!
# Recovering a Written Image

What `recover_segments` makes of the segment files of a well-formed image.

* `Written.serves_take` — the chunks that the recovery serves from a prefix of a segment: those
  of its first pair, as far as the prefix keeps them.
* `recovers_iff` — the recovery of an undamaged image gives the media, with no chunk lost or
  flagged, exactly when every segment keeps its chunks in one pair.
-/

namespace EwfForensic.Image

open Octets

/-! ### A prefix of a segment -/

/-- What the recovery serves from the first `n` bytes of a segment. -/
def SegmentLayout.served (C : Crates) (chunkSize n : ℕ) (s : SegmentLayout) :
    List (Option (List UInt8 × Bool)) :=
  match s.pairs with
  | [] => []
  | q :: _ =>
    if q.2.tablePos q.1 + 100 ≤ n then
      (q.2.located q.1).mapIdx fun i c =>
        if q.2.Kept (q.2.tablePos q.1) n i c then
          Recover.decodeChunk C (c.2.bytes.take (n - c.1)) c.2.compressed chunkSize
        else none
    else []

section Written

variable {C : Crates} {s : SegmentLayout} {num : ℕ} {last : Bool} {data : List UInt8} {n : ℕ}

/-- A table section of a pair in a prefix, when it is the first one of its type. -/
theorem Written.tableRef_take (w : Written s num last data) (hn : n ≤ data.length)
    {t : SectionType} (ht : t ∉ plainTypes) (hterm : terminalType last ≠ t)
    {f : Pair → ℕ → Option (ℕ × RawSection)}
    (hf : ∀ p pos, (placeSections pos (p.sections pos)).find? (fun q => q.2.type = t) = f p pos)
    {q : ℕ × Pair} (h : PairIn data q) {tablePos : ℕ}
    (hat : HasAt data (tablePos + 76) (q.2.tableBody q.1))
    (hfirst : (s.pairs.findSome? fun q => f q.2 q.1) = some (tablePos, ⟨t, q.2.tableBody q.1⟩)) :
    Recover.tableRef (data.take n) (Recover.walkSections (data.take n)) t =
      if tablePos + 100 ≤ n then some (q.2.tableRef tablePos) else none := by
  have hfind := w.findSection_take hn ht hterm hf
  rw [hfirst] at hfind
  by_cases hk : tablePos + 76 ≤ n
  · rw [Option.filter_some_pos (by simpa using hk)] at hfind
    exact Image.tableRef_take hat h.length_lt h.count_lt h.base_le hfind
  · rw [Option.filter_some_neg (by simpa using hk)] at hfind
    rw [Recover.tableRef, hfind, if_neg (by omega)]
    rfl

/-- A section type without sections gives no table. -/
theorem Written.tableRef_eq_none (w : Written s num last data) (hn : n ≤ data.length)
    {t : SectionType} (ht : t ∉ plainTypes) (hterm : terminalType last ≠ t)
    {f : Pair → ℕ → Option (ℕ × RawSection)}
    (hf : ∀ p pos, (placeSections pos (p.sections pos)).find? (fun q => q.2.type = t) = f p pos)
    (hnone : ∀ x, (s.pairs.findSome? fun q => f q.2 q.1) = some x → n < x.1 + 76) :
    Recover.tableRef (data.take n) (Recover.walkSections (data.take n)) t = none := by
  have hfind := w.findSection_take hn ht hterm hf
  have hempty : ((s.pairs.findSome? fun q => f q.2 q.1).filter fun x => x.1 + 76 ≤ n) = none := by
    cases hx : s.pairs.findSome? fun q => f q.2 q.1 with
    | none => rfl
    | some x =>
        have := hnone x hx
        rw [Option.filter_some_neg (by simpa using this)]
  rw [hempty] at hfind
  rw [Recover.tableRef, hfind]
  rfl

/-- The recovery bounds the last chunk by the sectors section of the first pair. -/
theorem Written.sectorsEnd_take (w : Written s num last data) (hn : n ≤ data.length)
    {q : ℕ × Pair} {rest : List (ℕ × Pair)} (hpairs : s.pairs = q :: rest) :
    (Recover.SegmentTables.ofBytes (data.take n)).sectorsEnd =
      if q.2.dataStart q.1 ≤ n then some (min (q.2.dataStart q.1 + q.2.sectorBytes.length) n)
      else none := by
  have hfind := w.findSection_take hn (t := .sectors) (by decide) (by cases last <;> decide)
    Pair.find?_sectors
  have hq : q ∈ s.pairs := hpairs ▸ List.mem_cons_self ..
  have hle := (w.sectors_at hq).length_le
  have hlt := w.length_lt
  have htake : (data.take n).length = n := by
    rw [List.length_take]
    omega
  have hsat : satAdd (q.2.sectorsPos q.1) (76 + q.2.sectorBytes.length) =
      q.2.dataStart q.1 + q.2.sectorBytes.length := by
    rw [Pair.dataStart] at hle ⊢
    rw [satAdd_eq (by unfold u64Max; omega)]
    omega
  rw [hpairs, List.findSome?_cons] at hfind
  show (findSection _ _).map _ = _
  rw [hfind, htake]
  by_cases hk : q.2.dataStart q.1 ≤ n
  · rw [Option.filter_some_pos (by simpa [Pair.dataStart] using hk), if_pos hk]
    exact congrArg (fun e => some (min e n)) hsat
  · rw [Option.filter_some_neg (by simpa [Pair.dataStart] using hk), if_neg hk]
    rfl

end Written

/-! ### The segments of an image -/

section Layout

variable {C : Crates} {L : Layout} {s : SegmentLayout} {num : ℕ} {last : Bool}
  {data : List UInt8} {n : ℕ}

/-- A chunk of a well-formed image holds some data, at most a chunk of it, and stands on disk
as some bytes. -/
theorem Layout.Formed.chunk (h : L.Formed C) {c : Stored} (hc : c ∈ L.chunks) :
    0 < c.data.length ∧ c.data.length ≤ L.chunkSize ∧ 0 < c.bytes.length := by
  obtain ⟨h1, h2⟩ := h.blocks.length_le h.chunkSize_pos _ (List.mem_map_of_mem hc)
  refine ⟨h1, h2, ?_⟩
  rw [Stored.bytes]
  cases he : c.encoding with
  | zlib z pad => exact (h.sound c hc z pad he).2.2
  | raw => exact h1
  | rawAdler =>
      simp only [List.length_append]
      omega

/-- The pairs of an image are as the recovery needs them. -/
theorem Layout.Formed.pairIn (h : L.Formed C) (hs : s ∈ L.segments)
    (w : Written s num last data) {q : ℕ × Pair} (hq : q ∈ s.pairs) : PairIn data q where
  length_lt := w.length_lt
  sectors_at := w.sectors_at hq
  count_lt := by
    have hsub : q.2.chunks.length ≤ L.chunks.length := by
      rw [← L.chunks_eq, List.length_flatMap]
      refine le_trans ?_ (List.le_sum_of_mem (List.mem_map_of_mem hs))
      rw [SegmentLayout.chunks, ← flatMap_placedPairs 13, List.length_flatMap]
      exact List.le_sum_of_mem (List.mem_map.mpr ⟨q, hq, rfl⟩)
    exact lt_of_le_of_lt hsub h.chunks_lt
  base_le := (h.base_le s hs q hq).1
  located := (h.base_le s hs q hq).2
  bytes_pos c hc := (h.chunk (mem_chunks_of_mem_pairs hs hq hc)).2.2

/-- What the recovery makes of chunk `i` of the first pair, through a table at `tablePos`. -/
theorem Layout.Formed.decodeFrom_take (h : L.Formed C) (hs : s ∈ L.segments)
    (w : Written s num last data) (hn : n ≤ data.length) {q : ℕ × Pair} {rest : List (ℕ × Pair)}
    (hpairs : s.pairs = q :: rest) {tablePos : ℕ}
    (hat : HasAt data (tablePos + 76) (q.2.tableBody q.1)) {i : ℕ} {c : ℕ × Stored}
    (hc : (q.2.located q.1)[i]? = some c) :
    (Recover.SegmentTables.ofBytes (data.take n)).decodeFrom C
        (if tablePos + 100 ≤ n then some (q.2.tableRef tablePos) else none) L.chunkSize i =
      if q.2.Kept tablePos n i c then
        Recover.decodeChunk C (c.2.bytes.take (n - c.1)) c.2.compressed L.chunkSize else none := by
  have hq : q ∈ s.pairs := hpairs ▸ List.mem_cons_self ..
  have hend := w.sectorsEnd_take hn hpairs
  by_cases hk : tablePos + 100 ≤ n
  · rw [if_pos hk]
    exact Image.decodeFrom_take C (h.pairIn hs w hq) hat hn hc rfl hend L.chunkSize
  · rw [if_neg hk, if_neg fun hkept => by have := hkept.1; omega]
    rfl

/-- The first table of a pair lies inside the pair. -/
theorem Pair.tablePos_add_tableSize_le (p : Pair) (pos : ℕ) :
    p.tablePos pos + p.tableSize ≤ pos + p.size := by
  rw [Pair.tablePos, Pair.size, Pair.tablesSize]
  split_ifs <;> omega

/-- A prefix that reaches behind the first pair keeps all of it. -/
theorem Layout.Formed.kept_of_le (h : L.Formed C) (hs : s ∈ L.segments)
    (w : Written s num last data) {q : ℕ × Pair} (hq : q ∈ s.pairs) (hle : q.1 + q.2.size ≤ n)
    {i : ℕ} {c : ℕ × Stored} (hc : (q.2.located q.1)[i]? = some c) :
    q.2.Kept (q.2.tablePos q.1) n i c ∧ c.1 + c.2.bytes.length ≤ n := by
  obtain ⟨-, -, -, hi, -⟩ := (h.pairIn hs w hq).chunk hc
  obtain ⟨-, -, hend⟩ := hasAt_locate (w.sectors_at hq) (List.mem_of_getElem? hc)
  have hbounds := q.2.dataStart_bounds q.1
  have hend' : c.1 + c.2.bytes.length ≤ q.2.dataStart q.1 + q.2.sectorBytes.length := hend
  have htable := q.2.tablePos_add_tableSize_le q.1
  rw [Pair.tableSize] at htable
  refine ⟨⟨?_, Or.inl (by omega)⟩, by omega⟩
  split_ifs <;> omega

/-- A segment without pairs has no table to serve from. -/
theorem Layout.Formed.serves_take_nil (w : Written s num last data) (hn : n ≤ data.length)
    (hpairs : s.pairs = []) :
    Recover.Serves C L.chunkSize (Recover.SegmentTables.ofBytes (data.take n))
      (s.served C L.chunkSize n) := by
  have hprimary := w.tableRef_eq_none hn (by decide : SectionType.table ∉ plainTypes)
    (by cases last <;> decide) Pair.find?_table (by rw [hpairs]; simp)
  have hfallback := w.tableRef_eq_none hn (by decide : SectionType.table2 ∉ plainTypes)
    (by cases last <;> decide) Pair.find?_table2 (by rw [hpairs]; simp)
  have hserved : s.served C L.chunkSize n = [] := by rw [SegmentLayout.served, hpairs]
  rw [hserved]
  refine ⟨?_, fun i x hx => by simp at hx⟩
  rw [Recover.SegmentTables.entryCount, Recover.SegmentTables.ofBytes]
  simp only [hprimary, hfallback]
  rfl

/-- Of a segment with pairs it is enough to know what the two tables of the prefix are. -/
theorem Layout.serves_of_tables {q : ℕ × Pair} {rest : List (ℕ × Pair)}
    (hpairs : s.pairs = q :: rest) {primary fallback : Option Recover.TableRef}
    (hp : (Recover.SegmentTables.ofBytes (data.take n)).primary = primary)
    (hf : (Recover.SegmentTables.ofBytes (data.take n)).fallback = fallback)
    (hor : primary.or fallback =
      if q.2.tablePos q.1 + 100 ≤ n then some (q.2.tableRef (q.2.tablePos q.1)) else none)
    (hdecode : ∀ i c, (q.2.located q.1)[i]? = some c →
      (Recover.chooseDecoded
          ((Recover.SegmentTables.ofBytes (data.take n)).decodeFrom C primary L.chunkSize i)
          ((Recover.SegmentTables.ofBytes (data.take n)).decodeFrom C fallback L.chunkSize i)
        ).map Recover.Decoded.result =
        if q.2.Kept (q.2.tablePos q.1) n i c then
          Recover.decodeChunk C (c.2.bytes.take (n - c.1)) c.2.compressed L.chunkSize
        else none) :
    Recover.Serves C L.chunkSize (Recover.SegmentTables.ofBytes (data.take n))
      (s.served C L.chunkSize n) := by
  rw [SegmentLayout.served, hpairs]
  constructor
  · rw [Recover.SegmentTables.entryCount, hp, hf, hor]
    simp only
    split_ifs
    · simp [Pair.tableRef, Pair.located]
    · rfl
  · intro i x hx
    simp only at hx
    split_ifs at hx
    · rw [List.getElem?_mapIdx] at hx
      obtain ⟨c, hc, rfl⟩ := Option.map_eq_some_iff.mp hx
      rw [Recover.SegmentTables.decode, hp, hf]
      exact hdecode i c hc
    · simp at hx

/-- With a `table2` alone the recovery serves through the fallback. -/
theorem Layout.Formed.serves_take_table2 (h : L.Formed C) (hs : s ∈ L.segments)
    (w : Written s num last data) (hn : n ≤ data.length) {q : ℕ × Pair} {rest : List (ℕ × Pair)}
    (hpairs : s.pairs = q :: rest) (hkind : q.2.kind = .table2) :
    Recover.Serves C L.chunkSize (Recover.SegmentTables.ofBytes (data.take n))
      (s.served C L.chunkSize n) := by
  have hq : q ∈ s.pairs := hpairs ▸ List.mem_cons_self ..
  have hat := w.table_at hq
  have hprimary := w.tableRef_eq_none hn (by decide : SectionType.table ∉ plainTypes)
    (by cases last <;> decide) Pair.find?_table (by
      intro x hx
      obtain ⟨q', hq', hsome⟩ := List.exists_of_findSome?_eq_some hx
      have hm := h.tables_eq s hs q hq q' hq'
      rw [hkind] at hm
      cases hk' : q'.2.kind with
      | table2 => simp [hk'] at hsome
      | table => rw [hk'] at hm; cases hm
      | both => rw [hk'] at hm; cases hm)
  have hfallback := w.tableRef_take hn (by decide : SectionType.table2 ∉ plainTypes)
    (by cases last <;> decide) Pair.find?_table2 (h.pairIn hs w hq) hat
    (by rw [hpairs, List.findSome?_cons, hkind])
  refine Layout.serves_of_tables hpairs hprimary hfallback (Option.none_or ..) fun i c hc => ?_
  rw [show (Recover.SegmentTables.ofBytes (data.take n)).decodeFrom C none L.chunkSize i =
    none from rfl, Recover.map_result_chooseDecoded_none, h.decodeFrom_take hs w hn hpairs hat hc]

/-- With both tables the recovery serves through either: they hold the same entries, and the
fallback stands behind the primary. -/
theorem Layout.Formed.serves_take_both (h : L.Formed C) (hs : s ∈ L.segments)
    (w : Written s num last data) (hn : n ≤ data.length) {q : ℕ × Pair} {rest : List (ℕ × Pair)}
    (hpairs : s.pairs = q :: rest) (hkind : q.2.kind = .both) :
    Recover.Serves C L.chunkSize (Recover.SegmentTables.ofBytes (data.take n))
      (s.served C L.chunkSize n) := by
  have hq : q ∈ s.pairs := hpairs ▸ List.mem_cons_self ..
  have hin := h.pairIn hs w hq
  have hat := w.table_at hq
  have hat2 : HasAt data (q.2.tablePos q.1 + q.2.tableSize + 76) (q.2.tableBody q.1) := by
    have hfind := q.2.find?_table2 q.1
    rw [hkind] at hfind
    exact w.hasAt_pair hq (List.mem_of_find?_eq_some hfind)
  have hprimary := w.tableRef_take hn (by decide : SectionType.table ∉ plainTypes)
    (by cases last <;> decide) Pair.find?_table hin hat
    (by rw [hpairs, List.findSome?_cons, hkind]; rfl)
  have hfallback := w.tableRef_take hn (by decide : SectionType.table2 ∉ plainTypes)
    (by cases last <;> decide) Pair.find?_table2 hin hat2
    (by rw [hpairs, List.findSome?_cons, hkind])
  refine Layout.serves_of_tables hpairs hprimary hfallback ?_ fun i c hc => ?_
  · by_cases hk : q.2.tablePos q.1 + 100 ≤ n
    · rw [if_pos hk]
      rfl
    · rw [if_neg hk, if_neg (by omega)]
      rfl
  · rw [h.decodeFrom_take hs w hn hpairs hat hc, h.decodeFrom_take hs w hn hpairs hat2 hc]
    refine Recover.map_result_chooseDecoded ?_
    by_cases hk : q.2.Kept (q.2.tablePos q.1 + q.2.tableSize) n i c
    · have hk' : q.2.Kept (q.2.tablePos q.1) n i c := ⟨by have := hk.1; omega, hk.2⟩
      rw [if_pos hk, if_pos hk']
      exact Or.inr (Or.inl rfl)
    · rw [if_neg hk]
      exact Or.inl rfl

/-- With a `table` alone any `table2` belongs to a later pair, which a prefix has only behind all
of the first one: there the primary table gives every chunk whole. -/
theorem Layout.Formed.serves_take_table (h : L.Formed C) (hs : s ∈ L.segments)
    (w : Written s num last data) (hn : n ≤ data.length) {q : ℕ × Pair} {rest : List (ℕ × Pair)}
    (hpairs : s.pairs = q :: rest) (hkind : q.2.kind = .table) :
    Recover.Serves C L.chunkSize (Recover.SegmentTables.ofBytes (data.take n))
      (s.served C L.chunkSize n) := by
  have hq : q ∈ s.pairs := hpairs ▸ List.mem_cons_self ..
  have hat := w.table_at hq
  have hprimary := w.tableRef_take hn (by decide : SectionType.table ∉ plainTypes)
    (by cases last <;> decide) Pair.find?_table (h.pairIn hs w hq) hat
    (by rw [hpairs, List.findSome?_cons, hkind]; rfl)
  by_cases hend : q.1 + q.2.size ≤ n
  · refine Layout.serves_of_tables hpairs hprimary rfl ?_ fun i c hc => ?_
    · have hle : q.2.tablePos q.1 + 100 ≤ n := by
        have hsize := q.2.tablePos_add_tableSize_le q.1
        rw [Pair.tableSize] at hsize
        omega
      rw [if_pos hle]
      rfl
    · -- The whole pair is there, so the primary table gives the whole chunk.
      obtain ⟨hk, hle⟩ := h.kept_of_le hs w hq hend hc
      have hmem : c.2 ∈ L.chunks := by
        refine mem_chunks_of_mem_pairs hs hq ?_
        rw [← map_snd_locate (q.2.dataStart q.1) q.2.chunks]
        exact List.mem_map_of_mem (List.mem_of_getElem? hc)
      obtain ⟨h1, h2, -⟩ := h.chunk hmem
      have hmax : L.chunkSize ≤ 134217728 := h.chunkSize_le
      obtain ⟨rest, hrest⟩ := (h.sound _ hmem).decodeChunk h1 h2
        (by unfold u64Max; omega)
      rw [h.decodeFrom_take hs w hn hpairs hat hc, if_pos hk,
        List.take_of_length_le (by omega), hrest]
      exact Recover.map_result_chooseDecoded (Or.inr (Or.inr ⟨_, rfl⟩))
  · have hfallback := w.tableRef_eq_none hn (by decide : SectionType.table2 ∉ plainTypes)
      (by cases last <;> decide) Pair.find?_table2 (by
        intro x hx
        rw [hpairs, List.findSome?_cons, hkind] at hx
        obtain ⟨q', hq', hsome⟩ := List.exists_of_findSome?_eq_some hx
        have hge := placedPairs_tail_ge hpairs q' hq'
        have hpos : q'.1 ≤ x.1 := by
          have hfind := q'.2.find?_table2 q'.1
          rw [hsome] at hfind
          exact (placeSections_bounds (List.mem_of_find?_eq_some hfind)).1
        omega)
    refine Layout.serves_of_tables hpairs hprimary hfallback (Option.or_none ..) fun i c hc => ?_
    rw [h.decodeFrom_take hs w hn hpairs hat hc]
    exact Recover.map_result_chooseDecoded (Or.inl rfl)

/-- **What a prefix serves.** The recovery serves the chunks of the first pair, as far as the
prefix keeps them. -/
theorem Layout.Formed.serves_take (h : L.Formed C) (hs : s ∈ L.segments)
    (w : Written s num last data) (hn : n ≤ data.length) :
    Recover.Serves C L.chunkSize (Recover.SegmentTables.ofBytes (data.take n))
      (s.served C L.chunkSize n) := by
  cases hpairs : s.pairs with
  | nil => exact Layout.Formed.serves_take_nil w hn hpairs
  | cons q rest =>
      cases hkind : q.2.kind with
      | table2 => exact h.serves_take_table2 hs w hn hpairs hkind
      | both => exact h.serves_take_both hs w hn hpairs hkind
      | table => exact h.serves_take_table hs w hn hpairs hkind

/-! ### The geometry -/

/-- Where the volume section stands. -/
def Layout.volumePos (L : Layout) : ℕ :=
  13 + sectionsSize (itemsSections 13 (L.preamble.map Item.aux))

/-- The geometry of the image as the recovery reads it. -/
def Layout.geometry (L : Layout) : Recover.Geometry :=
  ⟨L.chunks.length, L.sectorsPerChunk, L.bytesPerSector, L.sectorCount⟩

/-- The volume is a section of the first segment. -/
theorem Layout.volume_mem (L : Layout) :
    (L.volumePos, L.volume) ∈ placeSections 13 L.first.sections := by
  obtain ⟨pos, -, hplaced⟩ := L.pairs_first
  rw [hplaced]
  exact List.mem_append_right _ (List.mem_cons_self ..)

theorem Layout.volume_type (L : Layout) : L.volume.type = .volume ∨ L.volume.type = .disk := by
  rw [Layout.volume]
  simp only
  split_ifs <;> simp

/-- The volume is the first section of its type. -/
theorem Layout.Formed.find?_volume_sections (h : L.Formed C) :
    (placeSections 13 L.first.sections).find? (fun q => q.2.type = .volume ∨ q.2.type = .disk) =
      some (L.volumePos, L.volume) := by
  obtain ⟨pos, -, hplaced⟩ := L.pairs_first
  have hpre : (placeSections 13 (itemsSections 13 (L.preamble.map Item.aux))).find?
      (fun q => q.2.type = .volume ∨ q.2.type = .disk) = none := by
    rw [List.find?_eq_none]
    intro q hq
    have hmem := mem_of_mem_placeSections hq
    have haux : ∀ a ∈ itemsSections 13 (L.preamble.map Item.aux), a.type ∈ auxTypes := by
      intro a ha
      rw [itemsSections_map_aux] at ha
      exact h.preamble_aux a ha
    have hall : ∀ t ∈ auxTypes, t ≠ .volume ∧ t ≠ .disk := by decide
    simpa using hall _ (haux _ hmem)
  have htype := L.volume_type
  rw [hplaced, List.find?_append, hpre, List.find?_cons_of_pos (by simpa using htype)]
  rfl

theorem Layout.Formed.find?_volume (h : L.Formed C) (last : Bool) :
    (L.first.placed last).find? (fun q => q.2.type = .volume ∨ q.2.type = .disk) =
      some (L.volumePos, L.volume) := by
  rw [SegmentLayout.placed, placeSections_append, List.find?_append, h.find?_volume_sections]
  rfl

/-- The recovery finds the volume of a prefix that keeps its descriptor. -/
theorem Layout.Formed.findVolume_take (h : L.Formed C) (w : Written L.first num last data)
    (hn : n ≤ data.length) :
    findVolume (Recover.walkSections (data.take n)) =
      ((some (L.volumePos, L.volume)).filter fun x => x.1 + 76 ≤ n).map sectionOf := by
  have hfun : ((fun sec : Section => decide (sec.typeName = .volume ∨ sec.typeName = .disk)) ∘
      sectionOf) = fun q : ℕ × RawSection => decide (q.2.type = .volume ∨ q.2.type = .disk) := rfl
  rw [findVolume, w.walkSections_take hn, List.find?_map, hfun, find?_filter_of_pairwise,
    h.find?_volume]
  refine (pairwise_placeSections _ _).imp fun hab hb => ?_
  simp only [decide_eq_true_eq] at hb ⊢
  omega

/-- **The geometry in a prefix** of the first segment: as it was written, if the prefix keeps
it. -/
theorem Layout.Formed.readGeometry_take (h : L.Formed C) (w : Written L.first num last data)
    (hn : n ≤ data.length) :
    Recover.readGeometry (data.take n) (Recover.walkSections (data.take n)) =
      if L.volumePos + 100 ≤ n then some L.geometry else none := by
  have hfind := h.findVolume_take w hn
  have hat : HasAt data (L.volumePos + 76) L.volume.body := (w.hasAt_section L.volume_mem).2
  have hle := hat.length_le
  have hlt := w.length_lt
  have htake : (data.take n).length = n := by
    rw [List.length_take]
    omega
  have hs1 : satAdd L.volumePos sectionDescriptorSize = L.volumePos + 76 :=
    satAdd_eq (by change L.volumePos + 76 ≤ u64Max; unfold u64Max; omega)
  have hs2 : satAdd (L.volumePos + 76) (L.volume.size - sectionDescriptorSize) =
      L.volumePos + 76 + L.volume.body.length := by
    have hsize : L.volume.size - sectionDescriptorSize = L.volume.body.length :=
      Nat.add_sub_cancel_left ..
    have hmax : L.volumePos + 76 + L.volume.body.length ≤ u64Max := by
      rw [u64Max]
      omega
    rw [hsize, satAdd_eq hmax]
  rw [Recover.readGeometry, hfind]
  by_cases hk : L.volumePos + 76 ≤ n
  · -- The descriptor is kept, and with it the front of the body.
    have hwindow := hat.window_take (n := n)
    rw [Option.filter_some_pos (by simpa using hk)]
    simp only [Option.map_some, sectionOf, hs1, hs2, htake]
    rw [slice?_of_le (by omega) (by rw [htake]; omega), hwindow]
    have hbody : L.volume.body.length = 24 + L.volumeRest.length := by
      rw [Layout.volume, List.length_append, length_volumeFront]
    by_cases hk' : L.volumePos + 100 ≤ n
    · have hlen : 24 ≤ (L.volume.body.take (n - (L.volumePos + 76))).length := by
        rw [List.length_take]
        omega
      have hfront : HasAt (L.volume.body.take (n - (L.volumePos + 76))) 0
          (volumeFront L.mediaType L.chunks.length L.sectorsPerChunk L.bytesPerSector
            L.sectorCount) :=
        (hasAt_self L.volume.body).left.take (by rw [length_volumeFront]; omega)
      obtain ⟨hspc, hbps, hsc, -, -⟩ := h.bounds
      obtain ⟨hcc, hspc', hbps', hsc', -⟩ := volume_of_hasAt
        (by rw [List.length_take]; unfold u64Max; omega) hfront
        (Nat.le_of_lt_succ h.chunks_lt) hspc hbps hsc
      have hpos := h.chunkSize_pos
      have hne : ¬ (L.sectorsPerChunk = 0 ∨ L.bytesPerSector = 0) := by
        rintro (h0 | h0)
        · rw [Layout.chunkSize, h0, Nat.zero_mul] at hpos
          omega
        · rw [Layout.chunkSize, h0, Nat.mul_zero] at hpos
          omega
      simp only [EwfVolume.parse_of_le hlen, hcc, hspc', hbps', hsc', if_neg hne, if_pos hk']
      rfl
    · have hshort : EwfVolume.parse (L.volume.body.take (n - (L.volumePos + 76))) =
          .error (.bufferTooShort 24 (L.volume.body.take (n - (L.volumePos + 76))).length) := by
        rw [EwfVolume.parse]
        rw [if_pos (by rw [List.length_take]; omega)]
      simp only [hshort, if_neg hk']
  · rw [Option.filter_some_neg (by simpa using hk), if_neg (by omega)]
    rfl

/-- A recovery starts exactly when its first segment keeps the geometry and the chunks are
small enough for it. -/
theorem Layout.Formed.bootstrap_take (h : L.Formed C) (w : Written L.first num last data)
    (hn : n ≤ data.length) {files : List (List UInt8)} (hfirst : files.headD [] = data.take n)
    (geom : Recover.Geometry) :
    Recover.bootstrap files = .ok geom ↔
      geom = L.geometry ∧ L.volumePos + 100 ≤ n ∧ L.chunkSize ≤ Recover.maxChunkSize := by
  have hgeom := h.readGeometry_take w hn
  have hmax : L.chunkSize ≤ 134217728 := h.chunkSize_le
  have hpos := h.chunkSize_pos
  have hchunk : L.geometry.chunkSize = L.chunkSize :=
    satMul_eq (by
      show L.chunkSize ≤ u64Max
      rw [u64Max]
      omega)
  have htake : (data.take n).length = n := by
    rw [List.length_take]
    omega
  rw [Recover.bootstrap]
  simp only [hfirst]
  by_cases hk : L.volumePos + 100 ≤ n
  · have hsig : (data.take n).take 8 = evfSignature := by
      have hat := w.hasAt.1
      rw [fileHeaderBytes, List.append_assoc, List.append_assoc] at hat
      have htk := (hasAt_iff.mp hat.left).2
      rw [List.take_take, Nat.min_eq_left (by omega)]
      rwa [List.drop_zero] at htk
    have hlong :
        ¬ ((data.take n).length < fileHeaderSize ∨ (data.take n).take 8 ≠ evfSignature) := by
      rintro (h1 | h1)
      · rw [htake] at h1
        change n < 13 at h1
        rw [Layout.volumePos] at hk
        omega
      · exact h1 hsig
    rw [if_neg hlong, hgeom, if_pos hk]
    simp only [hchunk]
    by_cases hsmall : L.chunkSize ≤ Recover.maxChunkSize
    · rw [if_neg (by omega)]
      constructor
      · intro heq
        exact ⟨(Except.ok.inj heq).symm, hk, hsmall⟩
      · rintro ⟨rfl, -, -⟩
        rfl
    · rw [if_pos (by omega)]
      constructor
      · intro heq
        cases heq
      · rintro ⟨-, -, hle⟩
        exact absurd hle hsmall
  · rw [hgeom, if_neg hk]
    constructor
    · intro heq
      split_ifs at heq
    · rintro ⟨-, hle, -⟩
      exact absurd hle hk

/-! ### Whole segments -/

/-- The chunks of the first pair of a segment. -/
def SegmentLayout.firstLocated (s : SegmentLayout) : List (ℕ × Stored) :=
  match s.pairs with
  | [] => []
  | q :: _ => q.2.located q.1

/-- The segment keeps its chunks in its first pair. -/
def SegmentLayout.OnePair (s : SegmentLayout) : Prop := ∀ q ∈ s.pairs.tail, q.2.chunks = []

/-- Every segment keeps its chunks in one pair. -/
def Layout.OnePairEach (L : Layout) : Prop := ∀ s ∈ L.segments, s.OnePair

/-- A chunk is served whole, with a right checksum. -/
def Stored.ServedAs (c : Stored) (x : Option (List UInt8 × Bool)) : Prop :=
  ∃ rest, x = some (c.data ++ rest, true)

/-- A segment has the chunks of its first pair, and no others exactly when it keeps them all
there. -/
theorem SegmentLayout.firstLocated_spec (s : SegmentLayout) :
    ∃ rest, s.chunks = s.firstLocated.map (·.2) ++ rest ∧ (s.OnePair ↔ rest = []) := by
  have hchunks : s.chunks = s.pairs.flatMap (·.2.chunks) := (flatMap_placedPairs 13 s.items).symm
  rw [hchunks, SegmentLayout.firstLocated, SegmentLayout.OnePair]
  cases s.pairs with
  | nil => exact ⟨[], rfl, by simp⟩
  | cons q rest =>
      refine ⟨rest.flatMap (·.2.chunks), ?_, ?_⟩
      · have hsnd := map_snd_locate (q.2.dataStart q.1) q.2.chunks
        rw [List.flatMap_cons]
        exact congrArg (· ++ _) hsnd.symm
      · rw [List.tail_cons, List.flatMap_eq_nil_iff]

/-- A chunk of the first pair is a chunk of the image. -/
theorem mem_chunks_of_mem_firstLocated (hs : s ∈ L.segments) {c : ℕ × Stored}
    (hc : c ∈ s.firstLocated) : c.2 ∈ L.chunks := by
  obtain ⟨rest, hrest, -⟩ := s.firstLocated_spec
  rw [← L.chunks_eq]
  refine List.mem_flatMap.mpr ⟨s, hs, ?_⟩
  rw [hrest]
  exact List.mem_append_left _ (List.mem_map_of_mem hc)

/-- A whole chunk of a well-formed image decodes to its data. -/
theorem Layout.Formed.decodeChunk (h : L.Formed C) {c : Stored} (hc : c ∈ L.chunks) :
    c.ServedAs (Recover.decodeChunk C c.bytes c.compressed L.chunkSize) := by
  obtain ⟨h1, h2, -⟩ := h.chunk hc
  have hmax : L.chunkSize ≤ 134217728 := h.chunkSize_le
  exact (h.sound c hc).decodeChunk h1 h2 (by unfold u64Max; omega)

/-- **A whole segment serves** the chunks of its first pair. -/
theorem Layout.Formed.served_whole (h : L.Formed C) (hs : s ∈ L.segments)
    (w : Written s num last data) :
    List.Forall₂ (fun c x => c.2.ServedAs x) s.firstLocated
      (s.served C L.chunkSize data.length) := by
  have hmem := fun c hc => @mem_chunks_of_mem_firstLocated L s hs c hc
  rw [SegmentLayout.firstLocated] at hmem ⊢
  rw [SegmentLayout.served]
  cases hpairs : s.pairs with
  | nil => exact List.Forall₂.nil
  | cons q rest =>
      have hq : q ∈ s.pairs := hpairs ▸ List.mem_cons_self ..
      have hsize := w.pair_le hq
      have htable := (w.table_at hq).length_le
      have hbody := q.2.length_tableBody q.1
      rw [Pair.tableSize] at hbody
      rw [hpairs] at hmem
      simp only at hmem ⊢
      rw [if_pos (by omega), List.forall₂_iff_get]
      refine ⟨by simp, fun i h1 h2 => ?_⟩
      have hc : (q.2.located q.1)[i]? = some (q.2.located q.1)[i] := List.getElem?_eq_getElem h1
      obtain ⟨hk, hle⟩ := h.kept_of_le hs w hq hsize hc
      have hdecode := h.decodeChunk (hmem _ (List.getElem_mem h1))
      simp only [List.get_eq_getElem, List.getElem_mapIdx]
      rw [if_pos hk, List.take_of_length_le (by omega)]
      exact hdecode

/-! ### Whole images -/

/-- The chunks that the recovery of an undamaged image serves. -/
def Layout.firstLocated (L : Layout) : List (ℕ × Stored) :=
  L.segments.flatMap SegmentLayout.firstLocated

theorem Layout.length_firstLocated_le (L : Layout) : L.firstLocated.length ≤ L.chunks.length := by
  rw [Layout.firstLocated, ← L.chunks_eq, List.length_flatMap, List.length_flatMap]
  refine List.sum_le_sum fun s _ => ?_
  obtain ⟨rest, hrest, -⟩ := s.firstLocated_spec
  rw [hrest, List.length_append, List.length_map]
  exact Nat.le_add_right _ _

/-- The recovery serves all chunks of an image exactly when each segment keeps its own in one
pair. -/
theorem Layout.onePairEach_iff (L : Layout) :
    L.OnePairEach ↔ L.firstLocated.length = L.chunks.length := by
  have hlen : ∀ s ∈ L.segments, s.firstLocated.length ≤ s.chunks.length := by
    intro s _
    obtain ⟨rest, hrest, -⟩ := s.firstLocated_spec
    rw [hrest, List.length_append, List.length_map]
    exact Nat.le_add_right _ _
  have hone : ∀ s ∈ L.segments, s.OnePair ↔ ¬ s.firstLocated.length < s.chunks.length := by
    intro s _
    obtain ⟨rest, hrest, hiff⟩ := s.firstLocated_spec
    rw [hiff, hrest, List.length_append, List.length_map, ← List.length_eq_zero_iff]
    omega
  rw [Layout.firstLocated, ← L.chunks_eq, List.length_flatMap, List.length_flatMap]
  constructor
  · intro h
    congr 1
    refine List.map_congr_left fun s hs => ?_
    have h1 := hlen s hs
    have h2 := (hone s hs).mp (h s hs)
    omega
  · intro heq s hs
    by_contra hne
    rw [hone s hs, not_not] at hne
    have := List.sum_lt_sum (fun s : SegmentLayout => s.firstLocated.length)
      (fun s => s.chunks.length) hlen ⟨s, hs, hne⟩
    omega

/-- They are then the chunks in order. -/
theorem Layout.OnePairEach.map_firstLocated {L : Layout} (h : L.OnePairEach) :
    L.firstLocated.map (·.2) = L.chunks := by
  rw [Layout.firstLocated, ← L.chunks_eq, List.map_flatMap]
  refine List.flatMap_congr fun s hs => ?_
  obtain ⟨rest, hrest, hiff⟩ := s.firstLocated_spec
  rw [hrest, hiff.mp (h s hs), List.append_nil]

variable {sources : List Segment}

/-- The segment files of an image serve the chunks of their first pairs. -/
theorem Layout.Formed.serves_files (h : L.Formed C) (hfiles : sources.map (·.data) = L.files) :
    List.Forall₂ (Recover.Serves C L.chunkSize)
      ((sources.map (·.data)).map Recover.SegmentTables.ofBytes)
      (L.segments.map fun s => s.served C L.chunkSize s.fileLength) := by
  have hlen : sources.length = L.segments.length := by
    rw [← (h.written hfiles).length_eq, List.length_zipIdx]
  rw [List.map_map, List.forall₂_map_left_iff, List.forall₂_map_right_iff, List.forall₂_iff_get]
  refine ⟨hlen, fun i h1 h2 => ?_⟩
  obtain ⟨src, hsrc, w⟩ := h.source hfiles (List.getElem?_eq_getElem h2)
  obtain ⟨hi, rfl⟩ := List.getElem?_eq_some_iff.mp hsrc
  have hserve := h.serves_take (List.getElem_mem h2) w le_rfl
  rw [List.take_length] at hserve
  have hfile : L.segments[i].fileLength = sources[i].data.length := w.length_eq.symm
  simp only [List.get_eq_getElem, Function.comp_apply, hfile]
  exact hserve

/-- Each of these chunks is served whole. -/
theorem Layout.Formed.served_files (h : L.Formed C) (hfiles : sources.map (·.data) = L.files) :
    List.Forall₂ (fun c x => c.2.ServedAs x) L.firstLocated
      (L.segments.map fun s => s.served C L.chunkSize s.fileLength).flatten := by
  rw [Layout.firstLocated, List.flatMap_def]
  refine List.rel_flatten ?_
  rw [List.forall₂_map_left_iff, List.forall₂_map_right_iff, List.forall₂_same]
  intro s hs
  obtain ⟨i, hi, rfl⟩ := List.getElem_of_mem hs
  obtain ⟨src, -, w⟩ := h.source hfiles (List.getElem?_eq_getElem hi)
  have hfile : L.segments[i].fileLength = src.data.length := w.length_eq.symm
  rw [hfile]
  exact h.served_whole hs w

/-- **The recovery of an undamaged image** decodes each chunk of a first pair to its data, and
nothing behind them. -/
theorem Layout.Formed.decodeGlobal_files (h : L.Formed C)
    (hfiles : sources.map (·.data) = L.files) (i : ℕ) :
    (∀ c, L.firstLocated[i]? = some c → c.2.ServedAs ((Recover.decodeGlobal C
        ((sources.map (·.data)).map Recover.SegmentTables.ofBytes) L.chunkSize i).map
          Recover.Decoded.result)) ∧
      (L.firstLocated.length ≤ i → Recover.decodeGlobal C
        ((sources.map (·.data)).map Recover.SegmentTables.ofBytes) L.chunkSize i = none) := by
  have hserved := h.served_files hfiles
  have hlen := hserved.length_eq
  have hle := L.length_firstLocated_le
  have hlt := h.chunks_lt
  have hmax : L.firstLocated.length ≤ u64Max := by
    rw [u64Max]
    omega
  have hglobal := @Recover.decodeGlobal_of_serves _ _ _ _ (h.serves_files hfiles) i fun hi =>
    lt_of_lt_of_le hi (hlen ▸ hmax)
  constructor
  · intro c hc
    obtain ⟨hi, rfl⟩ := List.getElem?_eq_some_iff.mp hc
    have hx := (List.forall₂_iff_get.mp hserved).2 i hi (hlen ▸ hi)
    obtain ⟨rest, hrest⟩ := hx
    rw [List.get_eq_getElem] at hrest
    rw [hglobal, List.getElem?_eq_getElem (hlen ▸ hi), hrest]
    exact ⟨rest, rfl⟩
  · intro hi
    rw [List.getElem?_eq_none (by omega)] at hglobal
    exact Option.map_eq_none_iff.mp hglobal

end Layout

end EwfForensic.Image

import EwfForensic.Core.Read
import EwfForensic.Image.Chain
import EwfForensic.Image.Tables

/-!
# Opening a Written Image

What `open_v1` makes of the files of a well-formed layout. Each handler adds to the reader's
chunks what its section holds (`Tracks`), so the open ends with one chunk for each located
chunk of the layout, in order (`open_files`). It fails for a table with too many entries only
(`tablesFit_of_open`).
-/

namespace EwfForensic.Image

open Octets

/-! ### Handlers -/

/-- Between two states of the open, the geometry stays and the chunks grow by chunks that read
back `located`, whose members name their segments. -/
def Tracks (located : List (ℕ × ℕ × Stored)) (st st' : OpenState) : Prop :=
  st'.chunkSize = st.chunkSize ∧ st'.totalSize = st.totalSize ∧
    ∃ new, st'.chunks = st.chunks ++ new ∧
      List.Forall₂ (fun q c => ChunkFor q.1 st.chunkSize q.2 c) located new

theorem tracks_nil {st st' : OpenState} (h1 : st'.chunkSize = st.chunkSize)
    (h2 : st'.totalSize = st.totalSize) (h3 : st'.chunks = st.chunks) : Tracks [] st st' :=
  ⟨h1, h2, [], by rw [h3, List.append_nil], List.Forall₂.nil⟩

theorem Tracks.trans {l₁ l₂ : List (ℕ × ℕ × Stored)} {a b c : OpenState} (h₁ : Tracks l₁ a b)
    (h₂ : Tracks l₂ b c) : Tracks (l₁ ++ l₂) a c := by
  obtain ⟨hs₁, ht₁, new₁, hc₁, hf₁⟩ := h₁
  obtain ⟨hs₂, ht₂, new₂, hc₂, hf₂⟩ := h₂
  rw [hs₁] at hs₂ hf₂
  exact ⟨hs₂, ht₂.trans ht₁, new₁ ++ new₂, by rw [hc₂, hc₁, List.append_assoc],
    List.rel_append hf₁ hf₂⟩

/-- A fold of fallible steps in two parts. -/
theorem foldlM_append_eq_ok {α β ε : Type} {f : β → α → Except ε β} {a b c : β} {l₁ l₂ : List α}
    (h₁ : l₁.foldlM f a = .ok b) (h₂ : l₂.foldlM f b = .ok c) :
    (l₁ ++ l₂).foldlM f a = .ok c := by
  rw [List.foldlM_append, h₁]
  exact h₂

/-- Every step of a fold that succeeds succeeds. -/
theorem exists_ok_of_foldlM {α β ε : Type} {f : β → α → Except ε β} {l : List α} {a b : β}
    (h : l.foldlM f a = .ok b) {x : α} (hx : x ∈ l) : ∃ s s', f s x = .ok s' := by
  induction l generalizing a with
  | nil => cases hx
  | cons y l ih =>
      rw [List.foldlM_cons, except_bind_eq_ok_iff] at h
      obtain ⟨s, hs, hrest⟩ := h
      rcases List.mem_cons.mp hx with rfl | hx
      · exact ⟨a, s, hs⟩
      · exact ih hrest hx

theorem readExact_of_le {data : List UInt8} {off n : ℕ} (h : off + n ≤ data.length) :
    readExact data off n = .ok (readAtMost data off n) :=
  if_pos (Or.inr h)

theorem readExact_of_hasAt {data ys : List UInt8} {off : ℕ} (h : HasAt data off ys) :
    readExact data off ys.length = .ok ys := by
  rw [readExact_of_le h.length_le, readAtMost, (hasAt_iff.mp h).2]

section Handlers

variable {ctx : SegmentContext} {q : ℕ × RawSection}

/-- A section without chunks or geometry is handled without effect on either. -/
theorem handle_aux (C : Crates) (hroom : q.1 + q.2.size + 76 ≤ ctx.data.length)
    (ht : q.2.type ∈ auxTypes) (htab : ctx.tableType ∉ auxTypes) (st : OpenState) :
    ∃ st', handleDescriptor C false ctx st (descriptorOf q) = .ok st' ∧ Tracks [] st st' := by
  have hsize : q.2.size = 76 + q.2.body.length := rfl
  have hread : ∀ n ≤ q.2.size,
      readExact ctx.data ((descriptorOf q).offset + sectionDescriptorSize) n =
        .ok (readAtMost ctx.data (q.1 + 76) n) := fun n hn =>
    readExact_of_le (by change q.1 + 76 + n ≤ ctx.data.length; omega)
  have hdata : (descriptorOf q).sectionSize - sectionDescriptorSize ≤ q.2.size := Nat.sub_le _ _
  have hplain : ∀ t ∈ auxTypes, t ≠ .volume ∧ t ≠ .disk := by decide
  have htype : (descriptorOf q).sectionType = q.2.type := rfl
  rw [handleDescriptor]
  have hne : q.2.type ≠ ctx.tableType := fun he => htab (he ▸ ht)
  rw [htype, if_neg (by simp [hplain _ ht]), if_neg hne]
  split_ifs
  · rw [handleHash]
    rw [hread 16 (by omega)]
    exact ⟨_, rfl, tracks_nil rfl rfl rfl⟩
  · rw [handleDigest]
    rw [hread 36 (by omega)]
    exact ⟨_, rfl, tracks_nil rfl rfl rfl⟩
  · rw [handleHeader]
    simp only [hread _ hdata]
    split_ifs
    · simp only [bind, Except.bind]
      split <;> exact ⟨_, rfl, tracks_nil rfl rfl rfl⟩
    · exact ⟨_, rfl, tracks_nil rfl rfl rfl⟩
  · rw [handleError2]
    simp only [hread _ hdata]
    split_ifs
    · exact ⟨_, rfl, tracks_nil rfl rfl rfl⟩
    · exact ⟨_, rfl, tracks_nil rfl rfl rfl⟩
  · exact ⟨st, rfl, tracks_nil rfl rfl rfl⟩

/-- The types that no handler reads when they are not the table's. -/
def idleTypes : List SectionType := [.table2, .sectors, .done, .next]

/-- A section that no handler reads leaves the state as it is. -/
theorem handle_idle (C : Crates) {d : SectionDescriptor} (ht : d.sectionType ∈ idleTypes)
    (htab : d.sectionType ≠ ctx.tableType) (st : OpenState) :
    handleDescriptor C false ctx st d = .ok st := by
  have hall : ∀ t ∈ idleTypes, t ≠ .volume ∧ t ≠ .disk ∧ t ≠ .hash ∧ t ≠ .digest ∧ t ≠ .header ∧
      t ≠ .error2 := by decide
  obtain ⟨h1, h2, h3, h4, h5, h6⟩ := hall _ ht
  simp [handleDescriptor, h1, h2, h3, h4, h5, h6, htab]

/-- The header of a table that stands at its place is read back. -/
theorem readExact_tableHeader {off base count : ℕ} {storeCrc : Bool} {entries : List ℕ}
    {tail : List UInt8} (h : HasAt ctx.data off (tableBytes base storeCrc entries tail))
    (hcount : entries.length = count) (hc : count < 4294967296) (hb : base ≤ u64Max) :
    ∃ hdr, readExact ctx.data off 24 = .ok hdr ∧ leU32 hdr 0 = count ∧ leU64 hdr 8 = base := by
  subst hcount
  obtain ⟨hdr, hbytes, hlen, hn, hbase, -, -⟩ := exists_tableHeader base storeCrc entries tail hc hb
  rw [hbytes] at h
  refine ⟨hdr, ?_, hn, hbase⟩
  rw [← hlen]
  exact readExact_of_hasAt h.left

/-- A written pair as the eager handler of its table needs it. -/
structure PairAt (ctx : SegmentContext) (chunkSize : ℕ) (q : ℕ × Pair) : Prop where
  tableType_eq : ctx.tableType = q.2.kind.main
  segIdx_lt : ctx.segIdx < 4294967296
  table_at : HasAt ctx.data (q.2.tablePos q.1 + 76) (q.2.tableBody q.1)
  base_le : q.2.base ≤ u64Max
  located : ∀ c ∈ q.2.located q.1, q.2.base ≤ c.1 ∧ c.1 - q.2.base < 2147483648 ∧
    c.1 < 9223372036854775808
  bounded : Bounded (q.2.located q.1) ctx.sectorsDataEnd
  zlib_lt : ∀ c ∈ q.2.chunks, c.compressed = true → c.bytes.length < chunkSize

/-- The descriptor of a pair's table. -/
def tableDescriptor (q : ℕ × Pair) : SectionDescriptor :=
  descriptorOf (q.2.tablePos q.1, ⟨q.2.kind.main, q.2.tableBody q.1⟩)

/-- The table handler gets the table of a pair. -/
theorem handle_tableDescriptor (C : Crates) {q : ℕ × Pair} (htab : ctx.tableType = q.2.kind.main)
    (st : OpenState) :
    handleDescriptor C false ctx st (tableDescriptor q) =
      handleTableEager ctx st (tableDescriptor q) := by
  have hmain : q.2.kind.main ≠ .volume ∧ q.2.kind.main ≠ .disk := by
    cases q.2.kind <;> exact ⟨by decide, by decide⟩
  simp [handleDescriptor, tableDescriptor, descriptorOf, htab, hmain]

/-- **The eager handler of a written table** appends a chunk for each of its stored chunks. -/
theorem handle_table (C : Crates) {q : ℕ × Pair} {st : OpenState} (h : PairAt ctx st.chunkSize q)
    (hcount : q.2.chunks.length ≤ maxTableEntries) (hcs : st.chunkSize < 4294967296) :
    ∃ st', handleDescriptor C false ctx st (tableDescriptor q) = .ok st' ∧
      Tracks (locatedIn ctx.segIdx q) st st' := by
  rw [maxTableEntries] at hcount
  obtain ⟨hdr, hread, hn, hbase⟩ := readExact_tableHeader h.table_at (q.2.length_entries q.1)
    (by omega) h.base_le
  have hread2 := readExact_of_hasAt (hasAt_tableBytes h.table_at).2.2
  rw [length_entries, q.2.length_entries, Nat.mul_comm] at hread2
  have hparse := chunksFor_parseTableSection h.segIdx_lt hcs (by unfold u64Max; omega) h.zlib_lt
    h.located h.bounded
  have hoff : (tableDescriptor q).offset + sectionDescriptorSize = q.2.tablePos q.1 + 76 := rfl
  have hhandle : handleTableEager ctx st (tableDescriptor q) = .ok { st with
      chunks := st.chunks ++ parseTableSection ((q.2.entries q.1).flatMap (toLE 4))
        q.2.chunks.length q.2.base ctx.segIdx st.chunkSize ctx.sectorsDataEnd } := by
    rw [handleTableEager, maxTableEntries]
    simp only [hoff, hread, bind, Except.bind, hn, hbase, hread2,
      if_neg (show ¬ q.2.chunks.length > 4000000 by omega)]
  exact ⟨_, (handle_tableDescriptor C h.tableType_eq st).trans hhandle, rfl, rfl, _, rfl,
    List.forall₂_map_left_iff.mpr hparse⟩

/-- The eager handler refuses a written table with too many entries. -/
theorem count_le_of_handle (C : Crates) {q : ℕ × Pair} (htab : ctx.tableType = q.2.kind.main)
    (hat : HasAt ctx.data (q.2.tablePos q.1 + 76) (q.2.tableBody q.1))
    (hc : q.2.chunks.length < 4294967296) (hb : q.2.base ≤ u64Max) {st st' : OpenState}
    (h : handleDescriptor C false ctx st (tableDescriptor q) = .ok st') :
    q.2.chunks.length ≤ maxTableEntries := by
  obtain ⟨hdr, hread, hn, -⟩ := readExact_tableHeader hat (q.2.length_entries q.1) hc hb
  by_contra hgt
  have hoff : (tableDescriptor q).offset + sectionDescriptorSize = q.2.tablePos q.1 + 76 := rfl
  have hhandle : handleTableEager ctx st (tableDescriptor q) =
      .error (tooManyEntries q.2.chunks.length) := by
    rw [handleTableEager]
    simp only [hoff, hread, bind, Except.bind, hn,
      if_pos (show q.2.chunks.length > maxTableEntries by omega)]
  rw [handle_tableDescriptor C htab, hhandle] at h
  cases h

/-- The sections of a written pair together append its chunks. -/
theorem fold_pair (C : Crates) {q : ℕ × Pair} {st : OpenState} (h : PairAt ctx st.chunkSize q)
    (hcount : q.2.chunks.length ≤ maxTableEntries) (hcs : st.chunkSize < 4294967296) :
    ∃ st', ((placeSections q.1 (q.2.sections q.1)).map descriptorOf).foldlM
        (handleDescriptor C false ctx) st = .ok st' ∧ Tracks (locatedIn ctx.segIdx q) st st' := by
  obtain ⟨st', hst', htracks⟩ := handle_table C h hcount hcs
  refine ⟨st', ?_, htracks⟩
  have htab := h.tableType_eq
  have hne : SectionType.sectors ≠ ctx.tableType := by
    rw [htab]
    cases q.2.kind <;> decide
  have hsectors : ∀ t, handleDescriptor C false ctx t
      (descriptorOf (q.2.sectorsPos q.1, q.2.sectors)) = .ok t :=
    handle_idle C (by decide : SectionType.sectors ∈ idleTypes) hne
  have htable : handleDescriptor C false ctx st
      (descriptorOf (q.2.tablePos q.1, ⟨q.2.kind.main, q.2.tableBody q.1⟩)) = .ok st' := hst'
  have htable2 : q.2.kind = .both → ∀ t off, handleDescriptor C false ctx t
      (descriptorOf (off, ⟨.table2, q.2.tableBody q.1⟩)) = .ok t := by
    intro hb t off
    refine handle_idle C (by decide : SectionType.table2 ∈ idleTypes) ?_ t
    rw [htab, hb]
    exact (by decide : SectionType.table2 ≠ .table)
  rw [q.2.placeSections_sections, q.2.placeSections_tables]
  by_cases hb : q.2.kind = .both
  · have htable2' := htable2 hb
    rw [if_pos hb]
    split_ifs <;> simp [hsectors, htable, htable2', bind, Except.bind, pure, Except.pure]
  · rw [if_neg hb]
    split_ifs <;> simp [hsectors, htable, bind, Except.bind, pure, Except.pure]

end Handlers

/-! ### Segments -/

/-- The chunks of a row of items in order, under the index of their segment. -/
def itemsLocated (segIdx pos : ℕ) (items : List Item) : List (ℕ × ℕ × Stored) :=
  (placedPairs pos items).flatMap (locatedIn segIdx)

/-- A row of items without geometry appends the chunks of its pairs. -/
theorem fold_items (C : Crates) {ctx : SegmentContext} {items : List Item} {pos : ℕ}
    (haux : ∀ s, Item.aux s ∈ items → s.type ∈ auxTypes) (htab : ctx.tableType ∉ auxTypes)
    (hroom : ∀ q ∈ placeSections pos (itemsSections pos items),
      q.1 + q.2.size + 76 ≤ ctx.data.length)
    {st : OpenState} (hcs : st.chunkSize < 4294967296)
    (hpairs : ∀ q ∈ placedPairs pos items, PairAt ctx st.chunkSize q ∧
      q.2.chunks.length ≤ maxTableEntries) :
    ∃ st', ((placeSections pos (itemsSections pos items)).map descriptorOf).foldlM
        (handleDescriptor C false ctx) st = .ok st' ∧
      Tracks (itemsLocated ctx.segIdx pos items) st st' := by
  induction items generalizing pos st with
  | nil => exact ⟨st, rfl, tracks_nil rfl rfl rfl⟩
  | cons it items ih =>
      rw [itemsSections, placeSections_append, it.sectionsSize_sections, List.map_append]
      rw [itemsSections, placeSections_append, it.sectionsSize_sections] at hroom
      -- The item itself.
      obtain ⟨st₁, hst₁, ht₁⟩ : ∃ st₁,
          ((placeSections pos (it.sections pos)).map descriptorOf).foldlM
            (handleDescriptor C false ctx) st = .ok st₁ ∧
          Tracks (itemsLocated ctx.segIdx pos [it]) st st₁ := by
        cases it with
        | aux a =>
            obtain ⟨st₁, h1, h2⟩ := @handle_aux ctx (pos, a) C
              (hroom _ (List.mem_append_left _ (List.mem_singleton_self _)))
              (haux a (List.mem_cons_self ..)) htab st
            refine ⟨st₁, ?_, h2⟩
            simp [Item.sections, placeSections, h1, bind, Except.bind, pure, Except.pure]
        | pair p =>
            obtain ⟨h1, h2⟩ := hpairs (pos, p) (List.mem_cons_self ..)
            obtain ⟨st₁, h3, h4⟩ := fold_pair C h1 h2 hcs
            exact ⟨st₁, h3, by simpa [itemsLocated, placedPairs] using h4⟩
      have hsame := ht₁.1
      have hpairs' : ∀ q ∈ placedPairs (pos + it.size) items, PairAt ctx st₁.chunkSize q ∧
          q.2.chunks.length ≤ maxTableEntries := by
        intro q hq
        rw [hsame]
        cases it with
        | aux a => exact hpairs q hq
        | pair p => exact hpairs q (List.mem_cons_of_mem _ hq)
      obtain ⟨st₂, hst₂, ht₂⟩ := @ih (pos + it.size)
        (fun s hs => haux s (List.mem_cons_of_mem _ hs))
        (fun q hq => hroom q (List.mem_append_right _ hq)) st₁ (hsame ▸ hcs) hpairs'
      refine ⟨st₂, foldlM_append_eq_ok hst₁ hst₂, ?_⟩
      have hsplit : itemsLocated ctx.segIdx pos (it :: items) =
          itemsLocated ctx.segIdx pos [it] ++ itemsLocated ctx.segIdx (pos + it.size) items := by
        cases it <;> simp [itemsLocated, placedPairs, Item.size]
      rw [hsplit]
      exact ht₁.trans ht₂

/-- The tables and chunks of a segment fit the format. -/
structure SegmentLayout.Fits (chunkSize : ℕ) (s : SegmentLayout) : Prop where
  base_le : ∀ q ∈ s.pairs, q.2.base ≤ u64Max ∧
    ∀ c ∈ q.2.located q.1, q.2.base ≤ c.1 ∧ c.1 - q.2.base < 2147483648
  short : ∀ q ∈ s.pairs, ∀ c ∈ q.2.chunks, c.compressed = true → c.bytes.length < chunkSize
  tables_eq : ∀ q ∈ s.pairs, ∀ q' ∈ s.pairs, q.2.kind.main = q'.2.kind.main

section Segment

variable {s : SegmentLayout} {num : ℕ} {last : Bool} {data : List UInt8} {C : Crates}

/-- The reader finds the section of a type that only pairs have in the first pair that has
one. -/
theorem Written.find?_descriptors (w : Written s num last data) {t : SectionType}
    (ht : t ∉ plainTypes) (hterm : terminalType last ≠ t) {f : Pair → ℕ → Option (ℕ × RawSection)}
    (hf : ∀ p pos, (placeSections pos (p.sections pos)).find? (fun q => q.2.type = t) = f p pos) :
    (collectDescriptors data).find? (fun d => d.sectionType = t) =
      (s.pairs.findSome? fun q => f q.2 q.1).map descriptorOf := by
  have hfun : ((fun d : SectionDescriptor => decide (d.sectionType = t)) ∘ descriptorOf) =
      fun q : ℕ × RawSection => decide (q.2.type = t) := rfl
  have hlast : [s.terminalDescriptor last].find? (fun d => d.sectionType = t) = none := by
    simp [SegmentLayout.terminalDescriptor, hterm]
  rw [w.collectDescriptors_eq, List.find?_append, List.find?_map, hfun, SegmentLayout.sections,
    w.plain.find?_items ht hf, hlast, Option.or_none]
  rfl

/-- The handlers of a segment read the kind of table that its pairs keep. -/
theorem Written.tableType_eq (w : Written s num last data) (i : ℕ)
    (hmain : ∀ q ∈ s.pairs, ∀ q' ∈ s.pairs, q.2.kind.main = q'.2.kind.main) :
    (∀ q ∈ s.pairs, (segmentContext i data (collectDescriptors data)).tableType = q.2.kind.main) ∧
      (s.pairs = [] → (segmentContext i data (collectDescriptors data)).tableType = .table2) := by
  have htable := w.find?_descriptors (t := .table) (by decide) (by cases last <;> decide)
    Pair.find?_table
  have htype : (segmentContext i data (collectDescriptors data)).tableType =
      if (s.pairs.findSome? fun q => if q.2.kind = .table2 then none
        else some (q.2.tablePos q.1, (⟨.table, q.2.tableBody q.1⟩ : RawSection))).isSome
      then .table else .table2 := by
    simp only [segmentContext, ← List.isSome_find?, htable, Option.isSome_map]
  constructor
  · intro q hq
    rw [htype]
    cases hk : q.2.kind with
    | table2 =>
        refine if_neg fun hsome => ?_
        obtain ⟨q', hq', hsome⟩ := List.findSome?_isSome_iff.mp hsome
        have hm := hmain q hq q' hq'
        rw [hk] at hm
        cases hk' : q'.2.kind with
        | table2 => simp [hk'] at hsome
        | table => rw [hk'] at hm; cases hm
        | both => rw [hk'] at hm; cases hm
    | table => exact if_pos (List.findSome?_isSome_iff.mpr ⟨q, hq, by simp [hk]⟩)
    | both => exact if_pos (List.findSome?_isSome_iff.mpr ⟨q, hq, by simp [hk]⟩)
  · intro hnil
    rw [htype, hnil]
    rfl

/-- The handlers of a segment bound the last chunk by the sectors section of the first pair. -/
theorem Written.sectorsDataEnd_eq (w : Written s num last data) (i : ℕ) :
    (segmentContext i data (collectDescriptors data)).sectorsDataEnd =
      s.pairs.head?.map fun q => q.2.dataStart q.1 + q.2.sectorBytes.length := by
  have hsectors := w.find?_descriptors (t := .sectors) (by decide) (by cases last <;> decide)
    Pair.find?_sectors
  simp only [segmentContext, hsectors, Option.map_map]
  cases hp : s.pairs with
  | nil => rfl
  | cons q rest =>
      have hq : q ∈ s.pairs := hp ▸ List.mem_cons_self ..
      have hle := (w.sectors_at hq).length_le
      have hmax := w.length_le_u64Max
      have hsat : satAdd (q.2.sectorsPos q.1) (76 + q.2.sectorBytes.length) =
          q.2.dataStart q.1 + q.2.sectorBytes.length := by
        rw [Pair.dataStart] at hle ⊢
        rw [satAdd_eq (by omega)]
        omega
      exact congrArg some hsat

/-- A written pair is as the handlers of its segment need it. -/
theorem Written.pairAt (w : Written s num last data) {chunkSize : ℕ} (hfit : s.Fits chunkSize)
    {i : ℕ} (hi : i < 4294967296) {q : ℕ × Pair} (hq : q ∈ s.pairs) :
    PairAt (segmentContext i data (collectDescriptors data)) chunkSize q := by
  have hend := w.sectorsDataEnd_eq i
  have hlt := w.length_lt
  refine ⟨(w.tableType_eq i hfit.tables_eq).1 q hq, hi, w.table_at hq, (hfit.base_le q hq).1,
    fun c hc => ?_, fun stop hstop c hc => ?_, hfit.short q hq⟩
  · obtain ⟨h1, h2⟩ := (hfit.base_le q hq).2 c hc
    have := (w.chunk_at hq hc).1.length_le
    exact ⟨h1, h2, by omega⟩
  · -- The first sectors section is that of the pair, or stands before the pair.
    obtain ⟨hat, h1, h2⟩ := w.chunk_at hq hc
    rw [hend] at hstop
    obtain ⟨q₀, rest, hpairs⟩ : ∃ q₀ rest, s.pairs = q₀ :: rest :=
      List.exists_cons_of_ne_nil (List.ne_nil_of_mem hq)
    rw [hpairs, List.head?_cons, Option.map_some, Option.some.injEq] at hstop
    rw [hpairs] at hq
    rcases List.mem_cons.mp hq with rfl | hq
    · right
      omega
    · left
      have := placedPairs_tail_ge hpairs q hq
      have := q₀.2.dataStart_bounds q₀.1
      have := q.2.dataStart_bounds q.1
      omega

/-- The kind of table that a segment keeps is no type that may stand between its pairs, and no
type of a last descriptor. -/
theorem Written.tableType_spec (w : Written s num last data) (i : ℕ)
    (hmain : ∀ q ∈ s.pairs, ∀ q' ∈ s.pairs, q.2.kind.main = q'.2.kind.main) :
    (segmentContext i data (collectDescriptors data)).tableType ∉ auxTypes ∧
      terminalType last ≠ (segmentContext i data (collectDescriptors data)).tableType := by
  obtain ⟨h1, h2⟩ := w.tableType_eq i hmain
  have hall : ∀ k : TableKind, k.main ∉ auxTypes ∧ terminalType last ≠ k.main := by
    intro k
    cases k <;> cases last <;> exact ⟨by decide, by decide⟩
  cases hp : s.pairs with
  | nil =>
      rw [h2 hp]
      exact hall .table2
  | cons q rest =>
      rw [h1 q (hp ▸ List.mem_cons_self ..)]
      exact hall q.2.kind

/-- The last descriptor of a segment is handled without effect. -/
theorem Written.handle_terminal (w : Written s num last data) (i : ℕ)
    (hmain : ∀ q ∈ s.pairs, ∀ q' ∈ s.pairs, q.2.kind.main = q'.2.kind.main) (st : OpenState) :
    handleDescriptor C false (segmentContext i data (collectDescriptors data)) st
      (s.terminalDescriptor last) = .ok st := by
  have hidle : terminalType last ∈ idleTypes := by cases last <;> decide
  exact handle_idle C hidle (w.tableType_spec i hmain).2 st

/-- The descriptors after some items of a segment. -/
theorem itemsSections_append (a b : List Item) (pos : ℕ) :
    itemsSections pos (a ++ b) =
      itemsSections pos a ++ itemsSections (pos + sectionsSize (itemsSections pos a)) b := by
  induction a generalizing pos with
  | nil => simp [itemsSections, sectionsSize]
  | cons it a ih =>
      rw [List.cons_append, itemsSections, ih, itemsSections, sectionsSize_append,
        it.sectionsSize_sections, Nat.add_assoc, List.append_assoc]

/-- A segment without geometry appends the chunks of its pairs. -/
theorem Written.openSegment_eq {src : Segment} (w : Written s num last src.data)
    (haux : ∀ a, Item.aux a ∈ s.items → a.type ∈ auxTypes) {st : OpenState}
    (hfit : s.Fits st.chunkSize) (hcs : st.chunkSize < 4294967296)
    (hcount : ∀ q ∈ s.pairs, q.2.chunks.length ≤ maxTableEntries) {i : ℕ} (hi : i < 4294967296) :
    ∃ st', openSegment C false st (src, i) = .ok st' ∧
      Tracks (s.pairs.flatMap (locatedIn i)) st st' := by
  obtain ⟨st', hst', ht⟩ := @fold_items C (segmentContext i src.data (collectDescriptors src.data))
    s.items 13 haux (w.tableType_spec i hfit.tables_eq).1
      (fun q hq => (w.section_bounds hq).2) st hcs
    (fun q hq => ⟨w.pairAt hfit hi hq, hcount q hq⟩)
  refine ⟨st', ?_, ht⟩
  have hdesc : (placeSections 13 (itemsSections 13 s.items)).map descriptorOf ++
      [s.terminalDescriptor last] = collectDescriptors src.data := w.collectDescriptors_eq.symm
  have hlast : [s.terminalDescriptor last].foldlM (handleDescriptor C false
      (segmentContext i src.data (collectDescriptors src.data))) st' = .ok st' := by
    simp [w.handle_terminal i hfit.tables_eq, bind, Except.bind, pure, Except.pure]
  have hfold := foldlM_append_eq_ok hst' hlast
  rw [hdesc] at hfold
  exact hfold

end Segment

/-! ### Images -/

section Image

variable {C : Crates} {L : Layout} {sources : List Segment}

/-- The pairs of two rows of items. -/
theorem placedPairs_append (a b : List Item) (pos : ℕ) :
    placedPairs pos (a ++ b) =
      placedPairs pos a ++ placedPairs (pos + sectionsSize (itemsSections pos a)) b := by
  induction a generalizing pos with
  | nil => simp [placedPairs, itemsSections, sectionsSize]
  | cons it a ih =>
      rw [itemsSections, sectionsSize_append, it.sectionsSize_sections, ← Nat.add_assoc]
      cases it with
      | aux s => exact ih (pos + s.size)
      | pair p => exact congrArg _ (ih (pos + p.size))

theorem placedPairs_map_aux (secs : List RawSection) (pos : ℕ) :
    placedPairs pos (secs.map Item.aux) = [] := by
  induction secs generalizing pos with
  | nil => rfl
  | cons s secs ih => exact ih _

theorem itemsSections_map_aux (secs : List RawSection) (pos : ℕ) :
    itemsSections pos (secs.map Item.aux) = secs := by
  induction secs generalizing pos with
  | nil => rfl
  | cons s secs ih =>
      rw [List.map_cons, itemsSections, ih]
      rfl

theorem Layout.Formed.plainItems (h : L.Formed C) : ∀ s ∈ L.segments, PlainItems s.items := by
  have haux : ∀ t ∈ auxTypes, t ∈ plainTypes := by decide
  intro s hs a ha
  rcases List.mem_cons.mp hs with rfl | hs
  · rcases List.mem_append.mp ha with ha | ha
    · obtain ⟨a', ha', heq⟩ := List.mem_map.mp ha
      obtain rfl := Item.aux.inj heq
      exact haux _ (h.preamble_aux _ ha')
    · rcases List.mem_cons.mp ha with heq | ha
      · obtain rfl := Item.aux.inj heq
        change (if L.disk then SectionType.disk else .volume) ∈ plainTypes
        split_ifs <;> decide
      · exact haux _ (h.items_aux a ha)
  · exact haux _ (h.rest_aux s hs a ha)

/-- The sources of an image are its written segments. -/
theorem Layout.Formed.written (h : L.Formed C) (hfiles : sources.map (·.data) = L.files) :
    List.Forall₂ (fun x src => Written x.1 (x.2 + 1) (x.2 + 1 = L.segments.length) src.data)
      L.segments.zipIdx sources := by
  have heq : List.Forall₂ (fun (x : SegmentLayout × ℕ) (src : Segment) =>
      x.1.encode (x.2 + 1) (x.2 + 1 = L.segments.length) = src.data) L.segments.zipIdx sources := by
    rw [← @List.forall₂_map_left_iff _ _ _ (fun (d : List UInt8) (src : Segment) => d = src.data)
      (fun x : SegmentLayout × ℕ => x.1.encode (x.2 + 1) (x.2 + 1 = L.segments.length)),
      ← @List.forall₂_map_right_iff _ _ _ Eq (fun src : Segment => src.data), List.forall₂_eq_eq_eq]
    exact hfiles.symm
  have hall : ∀ x ∈ L.segments.zipIdx, PlainItems x.1.items ∧ x.1.nextField ≤ x.1.terminalPos := by
    rintro ⟨s, i⟩ hx
    have hs : s ∈ L.segments := List.mem_of_getElem? (List.mk_mem_zipIdx_iff_getElem?.mp hx)
    exact ⟨h.plainItems s hs, h.nextField_le s hs⟩
  rw [List.forall₂_iff_get] at heq ⊢
  refine ⟨heq.1, fun i h1 h2 => ?_⟩
  obtain ⟨hp, hn⟩ := hall _ (List.get_mem _ ⟨i, h1⟩)
  exact ⟨⟨(heq.2 i h1 h2).symm, hp, (sources.get ⟨i, h2⟩).length_lt⟩, hn⟩

theorem mem_chunks_of_mem_pairs {s : SegmentLayout} (hs : s ∈ L.segments) {q : ℕ × Pair}
    (hq : q ∈ s.pairs) {c : Stored} (hc : c ∈ q.2.chunks) : c ∈ L.chunks := by
  rw [← L.chunks_eq, List.mem_flatMap]
  refine ⟨s, hs, ?_⟩
  rw [SegmentLayout.chunks, ← flatMap_placedPairs 13, List.mem_flatMap]
  exact ⟨q, hq, hc⟩

theorem Layout.WellFormed.fits (h : L.WellFormed C) : ∀ s ∈ L.segments, s.Fits L.chunkSize :=
  fun s hs => ⟨h.base_le s hs, fun _ hq c hc => h.short c (mem_chunks_of_mem_pairs hs hq hc),
    h.tables_eq s hs⟩

/-- The sizes of the media are within the width of their fields. -/
theorem Layout.Formed.bounds (h : L.Formed C) : L.sectorsPerChunk ≤ u32Max ∧
    L.bytesPerSector ≤ u32Max ∧ L.sectorCount ≤ u64Max ∧ L.media.length ≤ u64Max ∧
      (L.media.length = 0 ↔ L.chunks.length = 0) := by
  have hpos := h.chunkSize_pos
  have hle : L.chunkSize ≤ 134217728 := h.chunkSize_le
  have hspc : 0 < L.sectorsPerChunk := Nat.pos_of_mul_pos_right hpos
  have hbps : 0 < L.bytesPerSector := Nat.pos_of_mul_pos_left hpos
  have h1 : L.sectorsPerChunk ≤ L.chunkSize := Nat.le_mul_of_pos_right _ hbps
  have h2 : L.bytesPerSector ≤ L.chunkSize := Nat.le_mul_of_pos_left _ hspc
  have h3 : L.sectorCount ≤ L.media.length := h.sectors_eq ▸ Nat.le_mul_of_pos_left _ hbps
  have h4 := h.blocks.length_flatten_le hpos
  have h5 := h.blocks.mul_lt_length hpos 0
  rw [List.length_map] at h4 h5
  have h6 : L.chunks.length * L.chunkSize ≤ 4294967296 * 134217728 :=
    Nat.mul_le_mul (le_of_lt h.chunks_lt) hle
  change L.media.length ≤ _ at h4
  change 0 * _ < L.media.length ↔ _ at h5
  rw [u32Max, u64Max]
  exact ⟨by omega, by omega, by omega, by omega, by omega⟩

/-- **The volume handler** reads the geometry back. -/
theorem handle_volume (h : L.Formed C) {ctx : SegmentContext} {pos : ℕ}
    (hat : HasAt ctx.data (pos + 76) L.volume.body) (st : OpenState) :
    handleDescriptor C false ctx st (descriptorOf (pos, L.volume)) =
      .ok { st with chunkSize := L.chunkSize, totalSize := L.media.length } := by
  obtain ⟨hspc, hbps, hsc, hmedia, hzero⟩ := h.bounds
  have hrest := h.volumeRest_le
  have hle := hat.length_le
  have hbody : L.volume.body.length = 24 + L.volumeRest.length := by
    rw [Layout.volume, List.length_append, length_volumeFront]
  -- The 94 bytes that are read start with the geometry.
  have hread : readExact ctx.data (pos + 76) 94 = .ok (L.volume.body.take 94) := by
    rw [readExact_of_le (by omega), readAtMost, ← (hasAt_iff.mp hat).2, List.take_take,
      Nat.min_eq_left (by omega)]
  have hlen : (L.volume.body.take 94).length = 94 := by
    rw [List.length_take]
    omega
  have hfront : HasAt (L.volume.body.take 94) 0 (volumeFront L.mediaType L.chunks.length
      L.sectorsPerChunk L.bytesPerSector L.sectorCount) :=
    (hasAt_self L.volume.body).left.take (by rw [length_volumeFront]; omega)
  obtain ⟨hcc, hspc', hbps', hsc', -⟩ := volume_of_hasAt (by rw [hlen]; decide) hfront
    (Nat.le_of_lt_succ h.chunks_lt) hspc hbps hsc
  have htotal : (EwfVolume.ofBytes (L.volume.body.take 94)).totalSize = L.media.length := by
    rw [EwfVolume.totalSize, hbps', hsc', satMul_eq (by rw [h.sectors_eq]; exact hmedia),
      h.sectors_eq]
  have hcs : (EwfVolume.ofBytes (L.volume.body.take 94)).chunkSize = L.chunkSize := by
    rw [EwfVolume.chunkSize, hspc', hbps', Layout.chunkSize]
  have hsize : (if L.media.length = 0 then L.chunkSize * L.chunks.length else L.media.length) =
      L.media.length := by
    split_ifs with h0
    · rw [hzero.mp h0, h0, Nat.mul_zero]
    · rfl
  have htype : L.volume.type = .volume ∨ L.volume.type = .disk := by
    rw [Layout.volume]
    simp only
    split_ifs <;> simp
  have hvol : handleVolume ctx st (descriptorOf (pos, L.volume)) =
      .ok { st with chunkSize := L.chunkSize, totalSize := L.media.length } := by
    rw [handleVolume, show (descriptorOf (pos, L.volume)).offset + sectionDescriptorSize = pos + 76
      from rfl, hread]
    simp only [bind, Except.bind, EwfVolume.parse_of_le (show 24 ≤ _ by rw [hlen]; decide), hcs,
      htotal, hcc, hsize, if_neg (not_lt.mpr h.chunkSize_le)]
  exact (if_pos htype).trans hvol

/-- No table holds more entries than the reader takes. -/
def Layout.TablesFit (L : Layout) : Prop :=
  ∀ s ∈ L.segments, ∀ q ∈ s.pairs, q.2.chunks.length ≤ maxTableEntries

/-- The pairs of the first segment stand behind its volume. -/
theorem Layout.pairs_first (L : Layout) : ∃ pos, L.first.pairs = placedPairs pos L.items ∧
    placeSections 13 L.first.sections =
      placeSections 13 (itemsSections 13 (L.preamble.map Item.aux)) ++
        (13 + sectionsSize (itemsSections 13 (L.preamble.map Item.aux)), L.volume) ::
          placeSections pos (itemsSections pos L.items) := by
  refine ⟨13 + sectionsSize (itemsSections 13 (L.preamble.map Item.aux)) + L.volume.size, ?_, ?_⟩
  · rw [SegmentLayout.pairs, Layout.first, placedPairs_append, placedPairs_map_aux]
    rfl
  · rw [SegmentLayout.sections, Layout.first, itemsSections_append, placeSections_append]
    rfl

/-- **The first segment** sets the geometry and gives the chunks of its pairs. -/
theorem openSegment_first (h : L.WellFormed C) (hfit : L.TablesFit) {num : ℕ} {last : Bool}
    {src : Segment} (w : Written L.first num last src.data) :
    ∃ st, openSegment C false {} (src, 0) = .ok st ∧ st.chunkSize = L.chunkSize ∧
      st.totalSize = L.media.length ∧
        List.Forall₂ (fun q c => ChunkFor q.1 L.chunkSize q.2 c)
          (L.first.pairs.flatMap (locatedIn 0)) st.chunks := by
  have hmem : L.first ∈ L.segments := List.mem_cons_self ..
  have hfits := h.fits L.first hmem
  obtain ⟨pos, hpairs, hplaced⟩ := L.pairs_first
  have hcs : L.chunkSize < 4294967296 := by
    have : L.chunkSize ≤ 134217728 := h.chunkSize_le
    omega
  set ctx := segmentContext 0 src.data (collectDescriptors src.data) with hctx
  have hspec := w.tableType_spec 0 hfits.tables_eq
  rw [← hctx] at hspec
  have hbounds : ∀ q ∈ placeSections 13 L.first.sections, q.1 + q.2.size + 76 ≤ ctx.data.length :=
    fun q hq => (w.section_bounds hq).2
  rw [hplaced] at hbounds
  -- The sections before the volume leave the chunks empty.
  obtain ⟨st₁, hst₁, -, -, new₁, hnew₁, hf₁⟩ := @fold_items C ctx (L.preamble.map Item.aux) 13
    (fun a ha => by
      obtain ⟨a', ha', heq⟩ := List.mem_map.mp ha
      obtain rfl := Item.aux.inj heq
      exact h.preamble_aux _ ha')
    hspec.1 (fun q hq => hbounds q (List.mem_append_left _ hq)) {} (by decide)
    (fun q hq => by
      rw [placedPairs_map_aux] at hq
      cases hq)
  rw [itemsLocated, placedPairs_map_aux, List.flatMap_nil, List.forall₂_nil_left_iff] at hf₁
  rw [hf₁, List.append_nil] at hnew₁
  have hchunks : st₁.chunks = [] := hnew₁
  have hvolAt := (w.hasAt_section (hplaced ▸ List.mem_append_right _ (List.mem_cons_self ..) :
    (13 + sectionsSize (itemsSections 13 (L.preamble.map Item.aux)), L.volume) ∈
      placeSections 13 L.first.sections)).2
  have hvol := @handle_volume C L h.toFormed ctx _ hvolAt st₁
  -- The sections behind it append the chunks of their pairs.
  obtain ⟨st₃, hst₃, hc₃, ht₃, new₃, hnew₃, hf₃⟩ := @fold_items C ctx L.items pos h.items_aux
    hspec.1 (fun q hq => hbounds q (List.mem_append_right _ (List.mem_cons_of_mem _ hq)))
    { st₁ with chunkSize := L.chunkSize, totalSize := L.media.length } hcs
    (fun q hq => by
      rw [← hpairs] at hq
      exact ⟨w.pairAt hfits (by decide) hq, hfit _ hmem q hq⟩)
  refine ⟨st₃, ?_, hc₃, ht₃, ?_⟩
  · have hdesc := w.collectDescriptors_eq
    rw [hplaced, List.map_append, List.map_cons, List.append_assoc, List.cons_append] at hdesc
    have hlast := foldlM_append_eq_ok hst₃ (show [L.first.terminalDescriptor last].foldlM
        (handleDescriptor C false ctx) st₃ = .ok st₃ by
      simp [hctx, w.handle_terminal 0 hfits.tables_eq, bind, Except.bind, pure, Except.pure])
    have hrest : ((descriptorOf (13 + sectionsSize (itemsSections 13 (L.preamble.map Item.aux)),
        L.volume)) :: ((placeSections pos (itemsSections pos L.items)).map descriptorOf ++
          [L.first.terminalDescriptor last])).foldlM (handleDescriptor C false ctx) st₁ =
            .ok st₃ := by
      rw [List.foldlM_cons, hvol]
      exact hlast
    have hall := foldlM_append_eq_ok hst₁ hrest
    rw [← hdesc] at hall
    exact hall
  · rw [hnew₃, hchunks, List.nil_append, hpairs]
    exact hf₃

/-- The segments behind the first append the chunks of their pairs. -/
theorem fold_segments (h : L.WellFormed C) (hfit : L.TablesFit) {segs : List SegmentLayout}
    (hsegs : ∀ s ∈ segs, s ∈ L.rest) {i : ℕ} {srcs : List Segment}
    (hw : List.Forall₂ (fun x src => Written x.1 (x.2 + 1) (x.2 + 1 = L.segments.length) src.data)
      (segs.zipIdx i) srcs) (hi : i + segs.length < 4294967296) {st : OpenState}
    (hcs : st.chunkSize = L.chunkSize) :
    ∃ st', (srcs.zipIdx i).foldlM (openSegment C false) st = .ok st' ∧
      Tracks ((segs.zipIdx i).flatMap fun x => x.1.pairs.flatMap (locatedIn x.2)) st st' := by
  induction segs generalizing i srcs st with
  | nil =>
      rw [List.zipIdx_nil, List.forall₂_nil_left_iff] at hw
      subst hw
      exact ⟨st, rfl, tracks_nil rfl rfl rfl⟩
  | cons s segs ih =>
      rw [List.zipIdx_cons, List.forall₂_cons_left_iff] at hw
      obtain ⟨src, srcs, w, hw, rfl⟩ := hw
      have hs : s ∈ L.rest := hsegs s (List.mem_cons_self ..)
      have hmem : s ∈ L.segments := List.mem_cons_of_mem _ hs
      have hle : L.chunkSize ≤ 134217728 := h.chunkSize_le
      rw [List.length_cons] at hi
      obtain ⟨st₁, hst₁, ht₁⟩ := w.openSegment_eq (C := C) (h.rest_aux s hs)
        (hcs ▸ h.fits s hmem) (by omega) (hfit s hmem) (show i < 4294967296 by omega)
      obtain ⟨st₂, hst₂, ht₂⟩ := ih (fun s' hs' => hsegs s' (List.mem_cons_of_mem _ hs')) hw
        (by omega) (ht₁.1.trans hcs)
      refine ⟨st₂, ?_, ?_⟩
      · rw [List.zipIdx_cons, List.foldlM_cons, hst₁]
        exact hst₂
      · rw [List.zipIdx_cons, List.flatMap_cons]
        exact ht₁.trans ht₂

/-- The file header of a written segment is read back. -/
theorem parse_fileHeader {data : List UInt8} {num : ℕ} (hat : HasAt data 0 (fileHeaderBytes num))
    (hnum : num ≤ 65535) :
    EwfFileHeader.parse (readPadded data 0 fileHeaderSize) = .ok ⟨num, .physical⟩ := by
  have htake : readAtMost data 0 fileHeaderSize = fileHeaderBytes num := by
    rw [readAtMost, ← (hasAt_iff.mp hat).2, length_fileHeaderBytes]
  have hself := hasAt_self (fileHeaderBytes num)
  rw [fileHeaderBytes] at hself
  have hnumAt := hself.left.right
  have hmax : (fileHeaderBytes num).length ≤ u64Max := by
    rw [length_fileHeaderBytes]
    decide
  have hread : leU16 (fileHeaderBytes num) 9 = num := hnumAt.leAt hmax (by omega)
  have hsig : (fileHeaderBytes num).take 8 = evfSignature := rfl
  rw [readPadded, htake, length_fileHeaderBytes, Nat.sub_self, List.replicate_zero, List.append_nil,
    EwfFileHeader.parse, length_fileHeaderBytes, if_neg (lt_irrefl _), if_pos hsig, hread]

/-- The segments of an image pass the order check as they are. -/
theorem checkSequential_range' (n pos : ℕ) (h : pos + n < 4294967296) :
    checkSequential pos (List.range' (pos + 1) n) = .ok () := by
  induction n generalizing pos with
  | zero => rfl
  | succ n ih =>
      rw [List.range'_succ, checkSequential, Nat.mod_eq_of_lt (by omega), if_neg (by simp)]
      exact ih (pos + 1) (by omega)

theorem validateAndReorderSegments_range' {α : Type} {segments : List α}
    (h : segments.length < 4294967296) :
    validateAndReorderSegments segments (List.range' 1 segments.length) = .ok segments := by
  have hsnd : (segments.zip (List.range' 1 segments.length)).map (·.2) =
      List.range' 1 segments.length := List.map_snd_zip (by simp)
  have hsorted : sortByNumber (segments.zip (List.range' 1 segments.length)) =
      segments.zip (List.range' 1 segments.length) := by
    refine List.Pairwise.insertionSort_eq ?_
    rw [← List.pairwise_map (f := fun a : α × ℕ => a.2) (R := fun a b : ℕ => a ≤ b), hsnd]
    exact (List.pairwise_lt_range' (s := 1)).imp fun h => le_of_lt h
  have hfst : (segments.zip (List.range' 1 segments.length)).map (·.1) = segments :=
    List.map_fst_zip (by simp)
  rw [validateAndReorderSegments, hsorted, hsnd]
  simp only [checkSequential_range' segments.length 0 (by omega), hfst]

/-- The headers of an image number its segments from one. -/
theorem parseHeaders_files (h : L.Formed C) (hfiles : sources.map (·.data) = L.files) :
    ∃ headers, parseHeaders sources = .ok headers ∧
      headers.map (·.segmentNumber) = List.range' 1 sources.length ∧
      (∀ hd ∈ headers, hd.kind = .physical) := by
  have hw := h.written hfiles
  have hlen : sources.length = L.segments.length := by
    rw [← hw.length_eq, List.length_zipIdx]
  have hle := h.segments_le
  refine ⟨(List.range' 1 sources.length).map fun num => ⟨num, .physical⟩, ?_, ?_, ?_⟩
  rotate_left
  · rw [List.map_map]
    exact List.map_id _
  · intro hd hmem
    obtain ⟨num, -, rfl⟩ := List.mem_map.mp hmem
    rfl
  rw [parseHeaders, mapM_eq_ok_iff, List.forall₂_map_right_iff, List.forall₂_iff_get]
  refine ⟨by simp, fun i h1 h2 => ?_⟩
  have hi : i < L.segments.zipIdx.length := by
    rw [List.length_zipIdx]
    omega
  have hwi := (List.forall₂_iff_get.mp hw).2 i hi h1
  have hat := hwi.hasAt.1
  simp only [List.get_eq_getElem, List.getElem_zipIdx, Nat.zero_add] at hat
  simp only [List.get_eq_getElem, List.getElem_range', Nat.one_mul]
  rw [Nat.add_comm 1 i]
  exact parse_fileHeader hat (by omega)

/-- A reader of the image: its geometry, and a chunk for each located chunk. -/
structure Opened (L : Layout) (sources : List Segment) (r : EwfReader) : Prop where
  segments_eq : r.segments = sources
  chunkSize_eq : r.chunkSize = L.chunkSize
  totalSize_eq : r.totalSize = L.media.length
  chunks_eq : ∃ chunks, r.chunks = .eager chunks ∧
    List.Forall₂ (fun q c => ChunkFor q.1 L.chunkSize q.2 c) L.located chunks

/-- **A written image opens**, unless one of its tables is too long. -/
theorem open_files (h : L.WellFormed C) (hfit : L.TablesFit)
    (hfiles : sources.map (·.data) = L.files) :
    ∃ r, openFromSources C sources = .ok r ∧ Opened L sources r := by
  have hw := h.written hfiles
  obtain ⟨headers, hheaders, hnums, hkinds⟩ := parseHeaders_files h.toFormed hfiles
  have hlen : sources.length = L.segments.length := by
    rw [← hw.length_eq, List.length_zipIdx]
  have hle := h.segments_le
  have horder := @validateAndReorderSegments_range' _ sources (by omega)
  rw [← hnums] at horder
  -- The first source and the others.
  rw [Layout.segments, List.zipIdx_cons, List.forall₂_cons_left_iff] at hw
  obtain ⟨src, srcs, w, hws, rfl⟩ := hw
  obtain ⟨st₁, hst₁, hcs₁, htot₁, hch₁⟩ := openSegment_first h hfit w
  obtain ⟨st, hst, hcs, htot, new, hnew, hf⟩ := fold_segments h hfit (fun s hs => hs) hws
    (by rw [Layout.segments, List.length_cons] at hle; omega) hcs₁
  have hfold :
      (src :: srcs).zipIdx.foldlM (openSegment C (none : Option ℕ).isSome) {} = .ok st := by
    rw [List.zipIdx_cons, List.foldlM_cons]
    change (openSegment C false {} (src, 0) >>= _) = _
    rw [hst₁]
    exact hst
  have hpos := h.chunkSize_pos
  have hsig :
      ¬ (readPadded src.data 0 8 = evf2Signature ∨ readPadded src.data 0 8 = lef2Signature) := by
    have hat := w.hasAt.1
    rw [fileHeaderBytes, List.append_assoc, List.append_assoc] at hat
    have htake : readAtMost src.data 0 8 = evfSignature := by
      rw [readAtMost, ← (hasAt_iff.mp hat.left).2]
      rfl
    rw [readPadded, htake]
    decide
  have hcs' : st.chunkSize = L.chunkSize := hcs.trans hcs₁
  have htot' : st.totalSize = L.media.length := htot.trans htot₁
  have hlocated : List.Forall₂ (fun q c => ChunkFor q.1 L.chunkSize q.2 c) L.located st.chunks := by
    rw [Layout.located, Layout.segments, List.zipIdx_cons, List.flatMap_cons, hnew]
    rw [hcs₁] at hf
    exact List.rel_append hch₁ hf
  obtain ⟨hmedia, hzero⟩ := h.bounds.2.2.2
  have hfinish : finishOpen headers (src :: srcs) defaultLruSize none st = .ok
      { segments := src :: srcs, chunks := .eager st.chunks, chunkSize := L.chunkSize,
        totalSize := L.media.length, cacheSize := max defaultLruSize 1, storedMd5 := st.storedMd5,
        storedSha1 := st.storedSha1, metadata := st.metadata,
        acquisitionErrors := st.acquisitionErrors } := by
    have hsize : mediaSizeFor .physical L.media.length st.chunks.length L.chunkSize =
        L.media.length := by
      rw [mediaSizeFor]
      split_ifs with h0
      · have hn : st.chunks.length = 0 := by
          rw [← hlocated.length_eq, ← List.length_map (f := fun x : ℕ × ℕ × Stored => x.2.2),
            L.map_located]
          exact hzero.mp h0
        rw [hn, h0, satMul, Nat.zero_mul, Nat.zero_min]
      · rfl
    have hne : headers ≠ [] := by
      rintro rfl
      simp at hnums
    obtain ⟨hd, tl, rfl⟩ := List.exists_cons_of_ne_nil hne
    rw [finishOpen, hcs', if_neg (by omega)]
    simp only [List.head?_cons, hkinds hd (List.mem_cons_self ..), ChunkTable.len, htot', hsize]
  have hopen : openFromSources C (src :: srcs) = _ := openV1_eq_ok_iff.mpr
    ⟨⟨src, srcs, rfl, hsig⟩, headers, src :: srcs, st, hheaders, horder, hfold, hfinish⟩
  exact ⟨_, hopen, rfl, rfl, rfl, st.chunks, rfl, hlocated⟩

/-- An image that opens has no table with too many entries. -/
theorem tablesFit_of_open (h : L.WellFormed C) (hfiles : sources.map (·.data) = L.files)
    {r : EwfReader} (hr : openFromSources C sources = .ok r) : L.TablesFit := by
  intro s hs q hq
  have hw := h.written hfiles
  have hlen : sources.length = L.segments.length := by
    rw [← hw.length_eq, List.length_zipIdx]
  obtain ⟨-, headers, ordered, st, hheaders, horder, hst, -⟩ := openV1_eq_ok_iff.mp hr
  obtain ⟨headers', hheaders', hnums, -⟩ := parseHeaders_files h.toFormed hfiles
  have hle := h.segments_le
  have horder' := @validateAndReorderSegments_range' _ sources (by omega)
  rw [hheaders] at hheaders'
  obtain rfl := Except.ok.inj hheaders'
  rw [hnums, horder'] at horder
  obtain rfl := Except.ok.inj horder
  -- The segment of the table was opened, and the table was handled there.
  obtain ⟨i, hi, rfl⟩ := List.getElem_of_mem hs
  have hi' : i < L.segments.zipIdx.length := by rwa [List.length_zipIdx]
  have w := (List.forall₂_iff_get.mp hw).2 i hi' (hlen ▸ hi)
  simp only [List.get_eq_getElem, List.getElem_zipIdx, Nat.zero_add] at w
  have hmem : (sources[i], i) ∈ sources.zipIdx :=
    List.mk_mem_zipIdx_iff_getElem?.mpr (List.getElem?_eq_getElem _)
  obtain ⟨st₁, st₂, hseg⟩ := exists_ok_of_foldlM hst hmem
  have hd : tableDescriptor q ∈ collectDescriptors sources[i].data := by
    rw [w.collectDescriptors_eq]
    refine List.mem_append_left _ (List.mem_map_of_mem ?_)
    exact placeSections_of_mem_placedPairs hq _ (q.2.mem_placeSections_table q.1)
  obtain ⟨st₃, st₄, hhandle⟩ := exists_ok_of_foldlM hseg hd
  have hcount : q.2.chunks.length < 4294967296 := by
    have hsub : q.2.chunks.length ≤ L.chunks.length := by
      rw [← L.chunks_eq, List.length_flatMap]
      refine le_trans ?_ (List.le_sum_of_mem (List.mem_map_of_mem hs))
      rw [SegmentLayout.chunks, ← flatMap_placedPairs 13, List.length_flatMap]
      exact List.le_sum_of_mem (List.mem_map.mpr ⟨q, hq, rfl⟩)
    have := h.chunks_lt
    omega
  exact count_le_of_handle C ((w.tableType_eq i (h.tables_eq _ hs)).1 q hq) (w.table_at hq) hcount
    (h.base_le _ hs q hq).1 hhandle

end Image

end EwfForensic.Image

import EwfForensic.Core.Open
import EwfForensic.Image.Encode
import EwfForensic.Lib.Blocks

/-!
# Well-Formed EWF v1 Images

What a writer may choose when it stores a media byte string as an EWF v1 image: how each chunk
is stored, how the chunks are split over segments and over table and sectors sections, where
other sections stand. A `Layout` is such a choice, `Layout.encode` the image it gives, and
`Layout.WellFormed` what every field must satisfy for the image to be one of the media.

* `Stored` — a chunk and its storage: a zlib stream, the bytes, or the bytes and their Adler-32.
* `Pair` — a `table`, a `table2` or two identical ones, and the sectors section of the chunks,
  in either order.
* `locate` — where the chunks of a pair stand.
* `placedPairs` — where the pairs of a segment stand.
-/

namespace EwfForensic.Image

open Octets

/-! ### Stored chunks -/

/-- How a chunk is stored. -/
inductive Encoding where
  /-- As the given zlib stream, of the chunk and `pad` zero bytes behind it. -/
  | zlib (stream : List UInt8) (pad : ℕ)
  /-- As its bytes. -/
  | raw
  /-- As its bytes and their checksum. -/
  | rawAdler

/-- A chunk of media and its storage. -/
structure Stored where
  data : List UInt8
  encoding : Encoding

/-- The chunk is compressed. -/
def Stored.compressed (c : Stored) : Bool :=
  match c.encoding with
  | .zlib _ _ => true
  | _ => false

/-- The bytes of a chunk on disk. -/
def Stored.bytes (c : Stored) : List UInt8 :=
  match c.encoding with
  | .zlib stream _ => stream
  | .raw => c.data
  | .rawAdler => c.data ++ toLE 4 (adler32 c.data)

/-- A zlib stream is a complete one, of the chunk, padded at most to the size of a chunk. -/
def Stored.Sound (C : Crates) (chunkSize : ℕ) (c : Stored) : Prop :=
  ∀ z pad, c.encoding = .zlib z pad →
    Zlib.IsStream C.zlib z (c.data ++ List.replicate pad 0) ∧ c.data.length + pad ≤ chunkSize ∧
      0 < z.length

/-- Chunks stored one after the other from offset `pos` on, each with its offset. -/
def locate : ℕ → List Stored → List (ℕ × Stored)
  | _, [] => []
  | pos, c :: cs => (pos, c) :: locate (pos + c.bytes.length) cs

@[simp] theorem length_locate (pos : ℕ) (cs : List Stored) :
    (locate pos cs).length = cs.length := by
  induction cs generalizing pos with
  | nil => rfl
  | cons c cs ih => simp [locate, ih]

@[simp] theorem map_snd_locate (pos : ℕ) (cs : List Stored) : (locate pos cs).map (·.2) = cs := by
  induction cs generalizing pos with
  | nil => rfl
  | cons c cs ih => simp [locate, ih]

/-- Located chunks stand where they are located, one after the other. -/
theorem hasAt_locate {xs : List UInt8} {pos : ℕ} {cs : List Stored}
    (h : HasAt xs pos (cs.flatMap Stored.bytes)) {q : ℕ × Stored} (hq : q ∈ locate pos cs) :
    HasAt xs q.1 q.2.bytes ∧ pos ≤ q.1 ∧
      q.1 + q.2.bytes.length ≤ pos + (cs.flatMap Stored.bytes).length := by
  induction cs generalizing pos with
  | nil => cases hq
  | cons c cs ih =>
      rw [List.flatMap_cons] at h
      rw [List.flatMap_cons, List.length_append]
      rcases List.mem_cons.mp hq with rfl | hq
      · exact ⟨h.left, le_rfl, Nat.add_le_add_left (Nat.le_add_right _ _) _⟩
      · obtain ⟨h1, h2, h3⟩ := ih h.right hq
        exact ⟨h1, by omega, by omega⟩

/-- A chunk of a row ends where the next one starts, the last one where the row ends. -/
theorem locate_end {cs : List Stored} {pos i : ℕ} {c : ℕ × Stored}
    (h : (locate pos cs)[i]? = some c) :
    (∀ c', (locate pos cs)[i + 1]? = some c' → c'.1 = c.1 + c.2.bytes.length) ∧
      (cs.length = i + 1 → c.1 + c.2.bytes.length = pos + (cs.flatMap Stored.bytes).length) := by
  induction cs generalizing pos i with
  | nil => simp [locate] at h
  | cons d cs ih =>
      cases i with
      | zero =>
          obtain rfl : (pos, d) = c := by simpa [locate] using h
          refine ⟨fun c' hc' => ?_, fun hlen => ?_⟩
          · cases cs with
            | nil => simp [locate] at hc'
            | cons e cs =>
                obtain rfl : (pos + d.bytes.length, e) = c' := by simpa [locate] using hc'
                rfl
          · obtain rfl : cs = [] := List.eq_nil_of_length_eq_zero (by simpa using hlen)
            simp
      | succ i =>
          obtain ⟨h1, h2⟩ := ih (show (locate (pos + d.bytes.length) cs)[i]? = some c by
            simpa [locate] using h)
          refine ⟨fun c' hc' => h1 c' (by simpa [locate] using hc'), fun hlen => ?_⟩
          rw [h2 (by simpa using hlen), List.flatMap_cons, List.length_append]
          omega

/-! ### Table and sectors pairs -/

/-- Which table sections a writer keeps. -/
inductive TableKind where
  /-- A `table`. -/
  | table
  /-- A `table` and an identical `table2` behind it. -/
  | both
  /-- A `table2`. -/
  | table2
  deriving DecidableEq

/-- The type of the first table section. -/
def TableKind.main : TableKind → SectionType
  | .table2 => .table2
  | _ => .table

/-- A table section and the sectors section of its chunks. -/
structure Pair where
  /-- The table stands before the chunks. -/
  tableFirst : Bool
  kind : TableKind
  /-- The base offset of the entries. -/
  base : ℕ
  /-- The header checksum is stored, not left zero. -/
  storeCrc : Bool
  /-- What the writer puts after the entries, such as their checksum. -/
  tail : List UInt8
  chunks : List Stored

/-- The size of the table section. -/
def Pair.tableSize (p : Pair) : ℕ := 100 + 4 * p.chunks.length + p.tail.length

/-- The size of the table sections together. -/
def Pair.tablesSize (p : Pair) : ℕ :=
  if p.kind = .both then p.tableSize + p.tableSize else p.tableSize

/-- The bytes of the chunks on disk. -/
def Pair.sectorBytes (p : Pair) : List UInt8 := p.chunks.flatMap Stored.bytes

/-- The size of the pair. -/
def Pair.size (p : Pair) : ℕ := p.tablesSize + (76 + p.sectorBytes.length)

/-- Where the table section of a pair written from `pos` on stands. -/
def Pair.tablePos (p : Pair) (pos : ℕ) : ℕ :=
  if p.tableFirst then pos else pos + (76 + p.sectorBytes.length)

/-- Where the sectors section stands. -/
def Pair.sectorsPos (p : Pair) (pos : ℕ) : ℕ := if p.tableFirst then pos + p.tablesSize else pos

/-- Where the chunks start. -/
def Pair.dataStart (p : Pair) (pos : ℕ) : ℕ := p.sectorsPos pos + 76

/-- Its chunks with their offsets. -/
def Pair.located (p : Pair) (pos : ℕ) : List (ℕ × Stored) := locate (p.dataStart pos) p.chunks

/-- The table entry of a located chunk: its offset from the base and the compression flag. -/
def entryOf (base : ℕ) (q : ℕ × Stored) : ℕ :=
  q.1 - base + if q.2.compressed then 2147483648 else 0

/-- The table's entries. -/
def Pair.entries (p : Pair) (pos : ℕ) : List ℕ := (p.located pos).map (entryOf p.base)

/-- The table's body. -/
def Pair.tableBody (p : Pair) (pos : ℕ) : List UInt8 :=
  tableBytes p.base p.storeCrc (p.entries pos) p.tail

/-- The table sections. -/
def Pair.tables (p : Pair) (pos : ℕ) : List RawSection :=
  ⟨p.kind.main, p.tableBody pos⟩ :: if p.kind = .both then [⟨.table2, p.tableBody pos⟩] else []

/-- The sectors section. -/
def Pair.sectors (p : Pair) : RawSection := ⟨.sectors, p.sectorBytes⟩

/-- The sections of the pair, written from `pos` on. -/
def Pair.sections (p : Pair) (pos : ℕ) : List RawSection :=
  if p.tableFirst then p.tables pos ++ [p.sectors] else p.sectors :: p.tables pos

@[simp] theorem Pair.length_entries (p : Pair) (pos : ℕ) :
    (p.entries pos).length = p.chunks.length := by
  simp [Pair.entries, Pair.located]

@[simp] theorem Pair.length_tableBody (p : Pair) (pos : ℕ) :
    (p.tableBody pos).length + 76 = p.tableSize := by
  rw [Pair.tableBody, length_tableBytes, Pair.length_entries, Pair.tableSize]
  omega

theorem Pair.sectionsSize_tables (p : Pair) (pos : ℕ) :
    sectionsSize (p.tables pos) = p.tablesSize := by
  have := p.length_tableBody pos
  rw [Pair.tables, Pair.tablesSize]
  split_ifs
  · simp only [sectionsSize, RawSection.size, List.map_cons, List.map_nil, List.sum_cons,
      List.sum_nil]
    omega
  · simp only [sectionsSize, RawSection.size, List.map_cons, List.map_nil, List.sum_cons,
      List.sum_nil]
    omega

theorem Pair.sectionsSize_sections (p : Pair) (pos : ℕ) :
    sectionsSize (p.sections pos) = p.size := by
  rw [Pair.sections, Pair.size]
  split_ifs
  · rw [sectionsSize_append, p.sectionsSize_tables]
    simp [sectionsSize, RawSection.size, Pair.sectors]
  · rw [← List.singleton_append, sectionsSize_append, p.sectionsSize_tables]
    simp only [sectionsSize, RawSection.size, Pair.sectors, List.map_cons, List.map_nil,
      List.sum_cons, List.sum_nil]
    omega

/-- The table sections at their places. -/
theorem Pair.placeSections_tables (p : Pair) (pos pos' : ℕ) :
    placeSections pos (p.tables pos') =
      (pos, ⟨p.kind.main, p.tableBody pos'⟩) ::
        if p.kind = .both then [(pos + p.tableSize, ⟨.table2, p.tableBody pos'⟩)] else [] := by
  have hsize : 76 + (p.tableBody pos').length = p.tableSize := by
    have := p.length_tableBody pos'
    omega
  rw [Pair.tables]
  split_ifs
  · simp only [placeSections, RawSection.size, hsize]
  · simp only [placeSections]

theorem Pair.placeSections_sections (p : Pair) (pos : ℕ) :
    placeSections pos (p.sections pos) =
      if p.tableFirst then
        placeSections (p.tablePos pos) (p.tables pos) ++ [(p.sectorsPos pos, p.sectors)]
      else (p.sectorsPos pos, p.sectors) :: placeSections (p.tablePos pos) (p.tables pos) := by
  rw [Pair.sections, Pair.tablePos, Pair.sectorsPos]
  split_ifs
  · rw [placeSections_append, p.sectionsSize_tables]
    rfl
  · rfl

/-- The types of the sections of a pair. -/
def pairTypes : List SectionType := [.table, .table2, .sectors]

theorem Pair.type_mem_tables (p : Pair) (pos : ℕ) : ∀ s ∈ p.tables pos, s.type ∈ pairTypes := by
  intro s hs
  rw [Pair.tables] at hs
  rcases List.mem_cons.mp hs with rfl | hs
  · change p.kind.main ∈ pairTypes
    cases p.kind <;> decide
  · split_ifs at hs
    · rw [List.mem_singleton.mp hs]
      exact (by decide : SectionType.table2 ∈ pairTypes)
    · cases hs

theorem Pair.type_mem (p : Pair) (pos : ℕ) : ∀ s ∈ p.sections pos, s.type ∈ pairTypes := by
  intro s hs
  have hsectors : p.sectors.type ∈ pairTypes := (by decide : SectionType.sectors ∈ pairTypes)
  rw [Pair.sections] at hs
  split_ifs at hs
  · rcases List.mem_append.mp hs with hs | hs
    · exact p.type_mem_tables pos s hs
    · rwa [List.mem_singleton.mp hs]
  · rcases List.mem_cons.mp hs with rfl | hs
    · exact hsectors
    · exact p.type_mem_tables pos s hs

/-! ### Segments -/

/-- A part of a segment: a section that holds no chunks, or a pair. -/
inductive Item where
  | aux (s : RawSection)
  | pair (p : Pair)

/-- The sections of an item written from `pos` on. -/
def Item.sections (pos : ℕ) : Item → List RawSection
  | .aux s => [s]
  | .pair p => p.sections pos

/-- The size of an item. -/
def Item.size : Item → ℕ
  | .aux s => s.size
  | .pair p => p.size

/-- The chunks of an item. -/
def Item.chunks : Item → List Stored
  | .aux _ => []
  | .pair p => p.chunks

/-- The sections of a row of items written from `pos` on. -/
def itemsSections : ℕ → List Item → List RawSection
  | _, [] => []
  | pos, it :: rest => it.sections pos ++ itemsSections (pos + it.size) rest

/-- The pairs of a row of items, each with the position it is written from. -/
def placedPairs : ℕ → List Item → List (ℕ × Pair)
  | _, [] => []
  | pos, .aux s :: rest => placedPairs (pos + s.size) rest
  | pos, .pair p :: rest => (pos, p) :: placedPairs (pos + p.size) rest

theorem Item.sectionsSize_sections (it : Item) (pos : ℕ) :
    sectionsSize (it.sections pos) = it.size := by
  cases it with
  | aux s => simp [Item.sections, Item.size, sectionsSize]
  | pair p => exact p.sectionsSize_sections pos

/-- The chunks of the pairs are those of the items, in order. -/
theorem flatMap_placedPairs (pos : ℕ) (items : List Item) :
    (placedPairs pos items).flatMap (·.2.chunks) = items.flatMap Item.chunks := by
  induction items generalizing pos with
  | nil => rfl
  | cons it items ih =>
      cases it with
      | aux s => simpa [placedPairs, Item.chunks] using ih (pos + s.size)
      | pair p =>
          rw [placedPairs, List.flatMap_cons, ih, List.flatMap_cons]
          rfl

/-- The sections of a pair stand among those of its segment. -/
theorem placeSections_of_mem_placedPairs {items : List Item} {pos : ℕ} {q : ℕ × Pair}
    (hq : q ∈ placedPairs pos items) :
    ∀ s ∈ placeSections q.1 (q.2.sections q.1),
      s ∈ placeSections pos (itemsSections pos items) := by
  induction items generalizing pos with
  | nil => cases hq
  | cons it items ih =>
      intro s hs
      rw [itemsSections, placeSections_append, it.sectionsSize_sections, List.mem_append]
      cases it with
      | aux a => exact Or.inr (ih hq s hs)
      | pair p =>
          rcases List.mem_cons.mp hq with rfl | hq
          · exact Or.inl hs
          · exact Or.inr (ih hq s hs)

/-- Rows that each start with a given row are as long together only if they are these rows. -/
theorem length_flatMap_of_prefix {α β : Type} {f g : α → List β} {xs : List α}
    (h : ∀ x ∈ xs, f x <+: g x) : (xs.flatMap f).length ≤ (xs.flatMap g).length ∧
      ((xs.flatMap f).length = (xs.flatMap g).length ↔ ∀ x ∈ xs, f x = g x) := by
  induction xs with
  | nil => simp
  | cons x xs ih =>
      obtain ⟨hle, hiff⟩ := ih fun y hy => h y (List.mem_cons_of_mem _ hy)
      have hx := h x (List.mem_cons_self ..)
      have hxle := hx.length_le
      simp only [List.flatMap_cons, List.length_append, List.forall_mem_cons, ← hiff]
      refine ⟨by omega, fun heq => ⟨hx.eq_of_length (by omega), by omega⟩, fun heq => ?_⟩
      rw [heq.1, heq.2]

/-- A segment: its items, and the `next` field of its last descriptor. -/
structure SegmentLayout where
  items : List Item
  nextField : ℕ

/-- The sections of a segment before the last descriptor. -/
def SegmentLayout.sections (s : SegmentLayout) : List RawSection := itemsSections 13 s.items

/-- The pairs of a segment with their positions. -/
def SegmentLayout.pairs (s : SegmentLayout) : List (ℕ × Pair) := placedPairs 13 s.items

/-- The chunks of a segment. -/
def SegmentLayout.chunks (s : SegmentLayout) : List Stored := s.items.flatMap Item.chunks

/-- Where the last descriptor stands. -/
def SegmentLayout.terminalPos (s : SegmentLayout) : ℕ := 13 + sectionsSize s.sections

/-- The type of the last descriptor of a segment. -/
def terminalType (last : Bool) : SectionType := if last then .done else .next

/-- The file of a segment. -/
def SegmentLayout.encode (num : ℕ) (last : Bool) (s : SegmentLayout) : List UInt8 :=
  encodeSegment num s.sections (terminalType last) s.nextField

/-! ### Images -/

/-- The types of the sections that may stand between others: they hold no chunks and no
geometry. -/
def auxTypes : List SectionType :=
  [.header, .header2, .hash, .digest, .error2, .session, .data, .ltree, .ltreedata]

/-- How a writer stores a media byte string. -/
structure Layout where
  /-- The sections before the volume. -/
  preamble : List RawSection
  /-- The geometry section is called `disk`. -/
  disk : Bool
  mediaType : UInt8
  sectorsPerChunk : ℕ
  bytesPerSector : ℕ
  sectorCount : ℕ
  /-- The volume body past the geometry. -/
  volumeRest : List UInt8
  /-- The items of the first segment after the volume. -/
  items : List Item
  /-- The `next` field of the first segment's last descriptor. -/
  nextField : ℕ
  /-- The further segments. -/
  rest : List SegmentLayout

/-- The size of a chunk. -/
def Layout.chunkSize (L : Layout) : ℕ := L.sectorsPerChunk * L.bytesPerSector

/-- The chunks of an image in order. -/
def Layout.chunks (L : Layout) : List Stored :=
  L.items.flatMap Item.chunks ++ L.rest.flatMap SegmentLayout.chunks

/-- The media byte string that is stored. -/
def Layout.media (L : Layout) : List UInt8 := (L.chunks.map Stored.data).flatten

/-- The geometry section. -/
def Layout.volume (L : Layout) : RawSection where
  type := if L.disk then .disk else .volume
  body := volumeFront L.mediaType L.chunks.length L.sectorsPerChunk L.bytesPerSector
    L.sectorCount ++ L.volumeRest

/-- The first segment. -/
def Layout.first (L : Layout) : SegmentLayout where
  items := L.preamble.map Item.aux ++ Item.aux L.volume :: L.items
  nextField := L.nextField

/-- The segments. -/
def Layout.segments (L : Layout) : List SegmentLayout := L.first :: L.rest

/-- The segment files of an image, numbered from one; the last one ends in `done`. -/
def Layout.files (L : Layout) : List (List UInt8) :=
  L.segments.zipIdx.map fun x => x.1.encode (x.2 + 1) (x.2 + 1 = L.segments.length)

/-- The fields fit the media and the format. -/
structure Layout.Formed (C : Crates) (L : Layout) : Prop where
  preamble_aux : ∀ s ∈ L.preamble, s.type ∈ auxTypes
  items_aux : ∀ s, Item.aux s ∈ L.items → s.type ∈ auxTypes
  rest_aux : ∀ seg ∈ L.rest, ∀ s, Item.aux s ∈ seg.items → s.type ∈ auxTypes
  /-- A volume body is at least that of EWF-S01. -/
  volumeRest_le : 70 ≤ L.volumeRest.length
  chunkSize_pos : 0 < L.chunkSize
  /-- `MAX_CHUNK_SIZE`. -/
  chunkSize_le : L.chunkSize ≤ maxChunkSize
  /-- The declared sectors are those of the media. -/
  sectors_eq : L.bytesPerSector * L.sectorCount = L.media.length
  /-- Every chunk but the last is full. -/
  blocks : Blocks L.chunkSize (L.chunks.map Stored.data)
  chunks_lt : L.chunks.length < 4294967296
  sound : ∀ c ∈ L.chunks, c.Sound C L.chunkSize
  /-- A segment keeps its tables as `table` sections throughout, or as `table2` ones. -/
  tables_eq : ∀ seg ∈ L.segments, ∀ q ∈ seg.pairs, ∀ q' ∈ seg.pairs,
    q.2.kind.main = q'.2.kind.main
  /-- Every chunk is within reach of its table's base offset. -/
  base_le : ∀ seg ∈ L.segments, ∀ q ∈ seg.pairs, q.2.base ≤ u64Max ∧
    ∀ c ∈ q.2.located q.1, q.2.base ≤ c.1 ∧ c.1 - q.2.base < 2147483648
  /-- A last descriptor points to itself or to nothing beyond it. -/
  nextField_le : ∀ seg ∈ L.segments, seg.nextField ≤ seg.terminalPos
  segments_le : L.segments.length ≤ 65535

/-- A writer keeps a zlib stream only when it is shorter than a chunk. -/
structure Layout.WellFormed (C : Crates) (L : Layout) : Prop extends L.Formed C where
  short : ∀ c ∈ L.chunks, c.compressed = true → c.bytes.length < L.chunkSize

/-- The chunks of a segment in order, each with its offset, under the index of the segment. -/
def locatedIn (segIdx : ℕ) (q : ℕ × Pair) : List (ℕ × ℕ × Stored) :=
  (q.2.located q.1).map fun c => (segIdx, c)

/-- The chunks of an image in order, each with its segment's index and its offset there. -/
def Layout.located (L : Layout) : List (ℕ × ℕ × Stored) :=
  L.segments.zipIdx.flatMap fun x => x.1.pairs.flatMap (locatedIn x.2)

/-- The chunks of an image are those of its segments. -/
theorem Layout.chunks_eq (L : Layout) : L.segments.flatMap SegmentLayout.chunks = L.chunks := by
  have hpre : (L.preamble.map Item.aux).flatMap Item.chunks = [] := by
    rw [List.flatMap_eq_nil_iff]
    intro it hit
    obtain ⟨a, -, rfl⟩ := List.mem_map.mp hit
    rfl
  rw [Layout.segments, List.flatMap_cons, SegmentLayout.chunks, Layout.first, List.flatMap_append,
    hpre, List.nil_append, List.flatMap_cons]
  rfl

theorem map_locatedIn (i : ℕ) (q : ℕ × Pair) : (locatedIn i q).map (·.2.2) = q.2.chunks := by
  rw [locatedIn, List.map_map]
  exact map_snd_locate _ _

theorem map_flatMap_locatedIn (i : ℕ) (s : SegmentLayout) :
    (s.pairs.flatMap (locatedIn i)).map (·.2.2) = s.chunks := by
  rw [List.map_flatMap, SegmentLayout.chunks, ← flatMap_placedPairs 13]
  simp only [map_locatedIn]
  rfl

/-- Locating does not change the chunks or their order. -/
theorem Layout.map_located (L : Layout) : L.located.map (·.2.2) = L.chunks := by
  rw [Layout.located, List.map_flatMap, ← L.chunks_eq]
  simp only [map_flatMap_locatedIn]
  rw [← List.flatMap_map, List.zipIdx_map_fst]

/-- Every located chunk is one of a pair of its segment. -/
theorem Layout.mem_located {L : Layout} {x : ℕ × ℕ × Stored} :
    x ∈ L.located ↔ ∃ s, L.segments[x.1]? = some s ∧ ∃ q ∈ s.pairs, x.2 ∈ q.2.located q.1 := by
  rw [Layout.located, List.mem_flatMap]
  constructor
  · rintro ⟨⟨s, i⟩, hs, hx⟩
    obtain ⟨q, hq, hx⟩ := List.mem_flatMap.mp hx
    obtain ⟨c, hc, rfl⟩ := List.mem_map.mp hx
    exact ⟨s, List.mk_mem_zipIdx_iff_getElem?.mp hs, q, hq, hc⟩
  · rintro ⟨s, hs, q, hq, hc⟩
    exact ⟨(s, x.1), List.mk_mem_zipIdx_iff_getElem?.mpr hs,
      List.mem_flatMap.mpr ⟨q, hq, List.mem_map.mpr ⟨x.2, hc, rfl⟩⟩⟩

end EwfForensic.Image

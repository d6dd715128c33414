import EwfForensic.Forensic.Recover
import EwfForensic.Image.Layout

/-!
# Walking a Written Segment

What the section walks find in a segment that `SegmentLayout.encode` wrote, and in a prefix
of one.

* `Encoded`, `Written` — a byte string is the file of a segment layout, with the side conditions
  that every walk needs, and that the reader's and the recovery's walks need.
* `Written.collectDescriptors_eq` — the reader collects the written sections in order.
* `Written.walkSections_take` — the recovery walk of a prefix records the sections whose
  descriptors the prefix keeps.
* `PlainItems.find?_items` — the first section of a type that only pairs have.
-/

namespace EwfForensic.Image

open Octets

/-! ### Written segments -/

/-- The types of sections outside pairs. -/
def plainTypes : List SectionType := .volume :: .disk :: auxTypes

/-- Every section outside the pairs of a row of items is one without chunks. -/
def PlainItems (items : List Item) : Prop := ∀ s, Item.aux s ∈ items → s.type ∈ plainTypes

theorem PlainItems.tail {it : Item} {items : List Item} (h : PlainItems (it :: items)) :
    PlainItems items := fun s hs => h s (List.mem_cons_of_mem _ hs)

/-- A section of a row of items is a plain one or one of a pair. -/
theorem PlainItems.type_mem {items : List Item} (h : PlainItems items) (pos : ℕ) :
    ∀ s ∈ itemsSections pos items, s.type ∈ plainTypes ++ pairTypes := by
  induction items generalizing pos with
  | nil => simp [itemsSections]
  | cons it items ih =>
      intro s hs
      rcases List.mem_append.mp hs with hs | hs
      · cases it with
        | aux a =>
            obtain rfl : s = a := List.mem_singleton.mp hs
            exact List.mem_append_left _ (h s (List.mem_cons_self ..))
        | pair p => exact List.mem_append_right _ (p.type_mem pos s hs)
      · exact ih h.tail _ s hs

/-- No such section is of an unknown type or ends a walk. -/
theorem PlainItems.type_known {items : List Item} (h : PlainItems items) (pos : ℕ) :
    ∀ s ∈ itemsSections pos items, s.type ∈ knownTypes ∧ s.type ≠ .done ∧ s.type ≠ .next := by
  have hall : ∀ t ∈ plainTypes ++ pairTypes, t ∈ knownTypes ∧ t ≠ .done ∧ t ≠ .next := by decide
  exact fun s hs => hall _ (h.type_mem pos s hs)

theorem terminalType_mem (last : Bool) : terminalType last ∈ knownTypes := by
  cases last <;> decide

/-- `data` is the file that the segment layout `s` gives. -/
structure Encoded (s : SegmentLayout) (num : ℕ) (last : Bool) (data : List UInt8) : Prop where
  eq : data = s.encode num last
  plain : PlainItems s.items
  length_lt : data.length < 9223372036854775808

/-- The same, with a last descriptor that does not point beyond itself. -/
structure Written (s : SegmentLayout) (num : ℕ) (last : Bool) (data : List UInt8) : Prop
    extends Encoded s num last data where
  nextField_le : s.nextField ≤ s.terminalPos

section Written

variable {s : SegmentLayout} {num : ℕ} {last : Bool} {data : List UInt8}

theorem Encoded.type_mem_knownTypes (w : Encoded s num last data) :
    ∀ sec ∈ s.sections, sec.type ∈ knownTypes :=
  fun sec hsec => (w.plain.type_known 13 sec hsec).1

theorem Encoded.length_eq (w : Encoded s num last data) : data.length = s.terminalPos + 76 := by
  rw [w.eq, SegmentLayout.encode,
    length_encodeSegment w.type_mem_knownTypes (terminalType_mem last)]
  rfl

theorem Encoded.length_le_u64Max (w : Encoded s num last data) : data.length ≤ u64Max := by
  have := w.length_lt
  rw [u64Max]
  omega

/-- The file header, the sections and the last descriptor stand at their places. -/
theorem Encoded.hasAt (w : Encoded s num last data) :
    HasAt data 0 (fileHeaderBytes num) ∧ HasAt data 13 (encodeSections 13 s.sections) ∧
      HasAt data s.terminalPos (descriptorBytes (terminalType last) s.nextField 76) := by
  rw [w.eq]
  exact hasAt_encodeSegment w.type_mem_knownTypes

/-- A section of the segment stands where it is placed. -/
theorem Encoded.hasAt_section (w : Encoded s num last data) {q : ℕ × RawSection}
    (hq : q ∈ placeSections 13 s.sections) :
    HasAt data q.1 (descriptorBytes q.2.type (q.1 + q.2.size) q.2.size) ∧
      HasAt data (q.1 + 76) q.2.body :=
  hasAt_placeSections w.type_mem_knownTypes w.hasAt.2.1 hq

/-- A section ends where the last descriptor starts, or before. -/
theorem Encoded.section_bounds (w : Encoded s num last data) {q : ℕ × RawSection}
    (hq : q ∈ placeSections 13 s.sections) :
    13 ≤ q.1 ∧ q.1 + q.2.size + 76 ≤ data.length := by
  have := placeSections_bounds hq
  have := w.length_eq
  rw [SegmentLayout.terminalPos] at this
  omega

end Written

/-! ### The chain -/

/-- **Chain rule.** A walk that goes from each written section to the next one emits a value
for each and goes on behind them. -/
theorem visits_placeSections {α : Type} {step : ℕ → Option (α × Option ℕ)}
    {emit : ℕ × RawSection → α} {secs : List RawSection} {pos : ℕ}
    (h : ∀ q ∈ placeSections pos secs, step q.1 = some (emit q, some (q.1 + q.2.size))) (n : ℕ) :
    Loop.visits step (secs.length + n) pos =
      (placeSections pos secs).map emit ++ Loop.visits step n (pos + sectionsSize secs) := by
  induction secs generalizing pos with
  | nil => simp [placeSections, sectionsSize]
  | cons s secs ih =>
      have hs := h (pos, s) (List.mem_cons_self ..)
      have hrest := @ih (pos + s.size) fun q hq => h q (List.mem_cons_of_mem _ hq)
      rw [List.length_cons, show secs.length + 1 + n = secs.length + n + 1 by omega,
        Loop.visits_of_next hs, hrest, placeSections, List.map_cons, List.cons_append,
        sectionsSize_cons, Nat.add_assoc]

/-- Every section takes at least a descriptor. -/
theorem length_le_sectionsSize (secs : List RawSection) : 76 * secs.length ≤ sectionsSize secs := by
  induction secs with
  | nil => simp [sectionsSize]
  | cons s secs ih =>
      rw [sectionsSize_cons, List.length_cons, RawSection.size]
      omega

/-- The descriptor that is parsed from a written section. -/
def descriptorOf (q : ℕ × RawSection) : SectionDescriptor where
  sectionType := q.2.type
  next := q.1 + q.2.size
  sectionSize := q.2.size
  offset := q.1
  storedCrc := adler32 (descriptorFront q.2.type (q.1 + q.2.size) q.2.size)

section Written

variable {s : SegmentLayout} {num : ℕ} {last : Bool} {data : List UInt8}

/-- The last descriptor as it is parsed. -/
def SegmentLayout.terminalDescriptor (s : SegmentLayout) (last : Bool) : SectionDescriptor where
  sectionType := terminalType last
  next := s.nextField
  sectionSize := 76
  offset := s.terminalPos
  storedCrc := adler32 (descriptorFront (terminalType last) s.nextField 76)

/-- One turn of the reader's walk at a written descriptor. -/
theorem readerWalkStep_of_hasAt {t : SectionType} {next size off : ℕ} (hk : t ∈ knownTypes)
    (h : HasAt data off (descriptorBytes t next size)) (hlen : data.length < u64Max)
    (hnext : next ≤ u64Max) (hsize : size ≤ u64Max) :
    readerWalkStep data off =
      some (⟨t, next, size, off, adler32 (descriptorFront t next size)⟩,
        if next = 0 ∨ next ≤ off then none else some next) := by
  have hle := h.length_le
  have htake := (hasAt_iff.mp h).2
  rw [length_descriptorBytes hk] at hle htake
  have hd : SectionDescriptor.ofBytes (readAtMost data off sectionDescriptorSize) off =
      ⟨t, next, size, off, adler32 (descriptorFront t next size)⟩ := by
    rw [readAtMost, htake, ofBytes_descriptorBytes hk hnext hsize]
  rw [readerWalkStep]
  rw [show sectionDescriptorSize = 76 from rfl, if_neg (by omega), hd]

/-- **The reader collects the written sections** and the last descriptor. -/
theorem Written.collectDescriptors_eq (w : Written s num last data) :
    collectDescriptors data =
      (placeSections 13 s.sections).map descriptorOf ++ [s.terminalDescriptor last] := by
  have hlen : data.length < u64Max := by
    have := w.length_lt
    rw [u64Max]
    omega
  have hstep : ∀ q ∈ placeSections 13 s.sections,
      readerWalkStep data q.1 = some (descriptorOf q, some (q.1 + q.2.size)) := by
    intro q hq
    have hb := w.section_bounds hq
    have hk := w.type_mem_knownTypes q.2 (mem_of_mem_placeSections hq)
    rw [readerWalkStep_of_hasAt hk (w.hasAt_section hq).1 hlen (by omega) (by omega), if_neg]
    · rfl
    · rw [RawSection.size]
      omega
  have hterm : readerWalkStep data s.terminalPos = some (s.terminalDescriptor last, none) := by
    have hn := w.nextField_le
    have hl := w.length_eq
    rw [readerWalkStep_of_hasAt (terminalType_mem last) w.hasAt.2.2 hlen (by omega) (by decide),
      if_pos (Or.inr hn)]
    rfl
  have hfuel : s.sections.length ≤ data.length := by
    have h1 := length_le_sectionsSize s.sections
    have h2 := w.length_eq
    rw [SegmentLayout.terminalPos] at h2
    omega
  rw [collectDescriptors]
  rw [show data.length + 1 = s.sections.length + (data.length - s.sections.length + 1) by omega,
    show fileHeaderSize = 13 from rfl, visits_placeSections hstep]
  rw [show 13 + sectionsSize s.sections = s.terminalPos from rfl, Loop.visits_of_last hterm]

end Written

/-! ### The recovery walk of a prefix -/

/-- The section that a walk records for a written section. -/
def sectionOf (q : ℕ × RawSection) : Section := ⟨q.2.type, q.1, q.2.size⟩

/-- One turn of the recovery walk at a written descriptor that a prefix keeps. -/
theorem recoverStep_of_hasAt {data : List UInt8} {t : SectionType} {next size off : ℕ}
    (hk : t ∈ knownTypes) (h : HasAt data off (descriptorBytes t next size))
    (hlen : data.length < u64Max) (hnext : next ≤ u64Max) (hsize : size ≤ u64Max) :
    Recover.walkStep data off =
      if t = .done ∨ t = .next then some ((⟨t, off, size⟩, none), none)
      else if next = 0 ∨ next ≤ off then some ((⟨t, off, size⟩, none), none)
      else if next > data.length then some ((⟨t, off, size⟩, some next), none)
      else some ((⟨t, off, size⟩, none), some next) := by
  have hle := h.length_le
  have hs := h.slice?
  rw [length_descriptorBytes hk] at hle hs
  rw [Recover.walkStep]
  rw [@satAdd_eq off sectionDescriptorSize (by change off + 76 ≤ u64Max; omega), hs]
  simp only [SectionDescriptor.parse_of_le (length_descriptorBytes hk).ge,
    ofBytes_descriptorBytes hk hnext hsize]

/-- A walk records nothing at a position without room for a descriptor. -/
theorem recoverStep_of_lt {data : List UInt8} {off : ℕ} (h : data.length < off + 76)
    (hlen : data.length < u64Max) : Recover.walkStep data off = none := by
  have hs : slice? data off (satAdd off sectionDescriptorSize) = none := by
    rw [slice?_eq_none_iff]
    intro _
    show data.length < min (off + 76) u64Max
    omega
  rw [Recover.walkStep, hs]

/-- A prefix that ends within the first descriptor of a chain keeps none. -/
theorem filter_placeSections_eq_nil {secs : List RawSection} {pos n : ℕ} (h : n < pos + 76) :
    ((placeSections pos secs).filter fun q => q.1 + 76 ≤ n) = [] := by
  rw [List.filter_eq_nil_iff]
  intro q hq
  have := (placeSections_bounds hq).1
  simp only [decide_eq_true_eq]
  omega

/-- The recovery walk of a prefix of a chain records the sections whose descriptors the
prefix keeps. The induction is on the chain, from any position; the fuel is enough as every
turn moves on. -/
theorem visits_take {data : List UInt8} {term : SectionType} {termNext n : ℕ}
    {secs : List RawSection} {pos fuel : ℕ}
    (hk : ∀ s ∈ secs, s.type ∈ knownTypes ∧ s.type ≠ .done ∧ s.type ≠ .next)
    (hterm : term = .done ∨ term = .next)
    (hsecs : HasAt data pos (encodeSections pos secs))
    (hlast : HasAt data (pos + sectionsSize secs) (descriptorBytes term termNext 76))
    (hn : n ≤ data.length) (hlen : data.length < u64Max) (hnext : termNext ≤ u64Max)
    (hfuel : n < pos + fuel) :
    (Loop.visits (Recover.walkStep (data.take n)) fuel pos).map (·.1) =
      ((placeSections pos (secs ++ [⟨term, []⟩])).filter fun q => q.1 + 76 ≤ n).map sectionOf := by
  have htl : (data.take n).length = n := by
    rw [List.length_take]
    omega
  induction secs generalizing pos fuel with
  | nil =>
      have hkt : term ∈ knownTypes := by
        rcases hterm with rfl | rfl <;> decide
      rw [sectionsSize, List.map_nil, List.sum_nil, Nat.add_zero] at hlast
      by_cases hp : pos + 76 ≤ n
      · obtain ⟨fuel, rfl⟩ : ∃ f, fuel = f + 1 := ⟨fuel - 1, by omega⟩
        have hat := hlast.take (c := n) (by rw [length_descriptorBytes hkt]; exact hp)
        have hstep := recoverStep_of_hasAt hkt hat (by omega) hnext (by decide)
        rw [if_pos hterm] at hstep
        rw [Loop.visits_of_last hstep]
        simp [hp, placeSections, sectionOf, RawSection.size]
      · rw [Loop.visits_of_none (recoverStep_of_lt (by omega) (by omega)),
          filter_placeSections_eq_nil (by omega)]
        rfl
  | cons s secs ih =>
      obtain ⟨hks, hnd, hnn⟩ := hk s (List.mem_cons_self ..)
      have hk' := fun s' hs' => hk s' (List.mem_cons_of_mem _ hs')
      have hsize : s.size = 76 + s.body.length := rfl
      rw [encodeSections] at hsecs
      have hrest := hsecs.right
      rw [List.length_append, length_descriptorBytes hks, ← hsize] at hrest
      have hle := hlast.length_le
      rw [sectionsSize_cons] at hlast hle
      rw [← Nat.add_assoc] at hlast hle
      by_cases hp : pos + 76 ≤ n
      · obtain ⟨fuel, rfl⟩ : ∃ f, fuel = f + 1 := ⟨fuel - 1, by omega⟩
        have hat := hsecs.left.left.take (c := n) (by rw [length_descriptorBytes hks]; exact hp)
        have hstep := recoverStep_of_hasAt hks hat (by omega) (by omega) (by omega)
        rw [if_neg (by simp [hnd, hnn]), if_neg (by omega), htl] at hstep
        rw [List.cons_append, placeSections, List.filter_cons_of_pos (by simpa using hp),
          List.map_cons]
        by_cases hgt : pos + s.size > n
        · rw [if_pos hgt] at hstep
          rw [Loop.visits_of_last hstep, filter_placeSections_eq_nil (by omega)]
          rfl
        · rw [if_neg hgt] at hstep
          rw [Loop.visits_of_next hstep, List.map_cons, ih hk' hrest hlast (by omega)]
          rfl
      · rw [Loop.visits_of_none (recoverStep_of_lt (by omega) (by omega)),
          filter_placeSections_eq_nil (by omega)]
        rfl

section Written

variable {s : SegmentLayout} {num : ℕ} {last : Bool} {data : List UInt8}

/-- The sections of a segment with the last descriptor, each with its position. -/
def SegmentLayout.placed (s : SegmentLayout) (last : Bool) : List (ℕ × RawSection) :=
  placeSections 13 (s.sections ++ [⟨terminalType last, []⟩])

/-- **The recovery walk of a prefix** records the sections whose descriptors it keeps. -/
theorem Written.walkSections_take (w : Written s num last data) {n : ℕ} (hn : n ≤ data.length) :
    Recover.walkSections (data.take n) =
      ((s.placed last).filter fun q => q.1 + 76 ≤ n).map sectionOf := by
  have hlen : data.length < u64Max := by
    have := w.length_lt
    rw [u64Max]
    omega
  have hnext := w.nextField_le
  have hl := w.length_eq
  refine visits_take (w.plain.type_known 13) ?_ w.hasAt.2.1 w.hasAt.2.2 hn hlen (by omega) ?_
  · cases last
    · exact Or.inr rfl
    · exact Or.inl rfl
  · rw [List.length_take]
    omega

end Written

/-! ### The sections of the pairs -/

theorem Pair.find?_table (p : Pair) (pos : ℕ) :
    (placeSections pos (p.sections pos)).find? (fun q => q.2.type = .table) =
      if p.kind = .table2 then none else some (p.tablePos pos, ⟨.table, p.tableBody pos⟩) := by
  rw [p.placeSections_sections, p.placeSections_tables]
  cases p.kind <;> cases p.tableFirst <;> simp [Pair.sectors, TableKind.main]

theorem Pair.find?_table2 (p : Pair) (pos : ℕ) :
    (placeSections pos (p.sections pos)).find? (fun q => q.2.type = .table2) =
      match p.kind with
      | .table => none
      | .both => some (p.tablePos pos + p.tableSize, ⟨.table2, p.tableBody pos⟩)
      | .table2 => some (p.tablePos pos, ⟨.table2, p.tableBody pos⟩) := by
  rw [p.placeSections_sections, p.placeSections_tables]
  cases p.kind <;> cases p.tableFirst <;> simp [Pair.sectors, TableKind.main]

theorem Pair.find?_sectors (p : Pair) (pos : ℕ) :
    (placeSections pos (p.sections pos)).find? (fun q => q.2.type = .sectors) =
      some (p.sectorsPos pos, p.sectors) := by
  rw [p.placeSections_sections, p.placeSections_tables]
  cases p.kind <;> cases p.tableFirst <;> simp [Pair.sectors, TableKind.main]

/-- The first section of a type that only pairs have is that of the first pair that has one. -/
theorem PlainItems.find?_items {items : List Item} (h : PlainItems items) {t : SectionType}
    (ht : t ∉ plainTypes) {f : Pair → ℕ → Option (ℕ × RawSection)}
    (hf : ∀ p pos, (placeSections pos (p.sections pos)).find? (fun q => q.2.type = t) = f p pos)
    (pos : ℕ) :
    (placeSections pos (itemsSections pos items)).find? (fun q => q.2.type = t) =
      (placedPairs pos items).findSome? fun q => f q.2 q.1 := by
  induction items generalizing pos with
  | nil => rfl
  | cons it items ih =>
      rw [itemsSections, placeSections_append, it.sectionsSize_sections, List.find?_append]
      cases it with
      | aux a =>
          have hne : a.type ≠ t := fun he => ht (he ▸ h a (List.mem_cons_self ..))
          have ih' := ih h.tail (pos + a.size)
          simpa [Item.sections, Item.size, placeSections, placedPairs, hne] using ih'
      | pair p =>
          rw [Item.sections, hf, Item.size, ih h.tail, placedPairs, List.findSome?_cons]
          cases f p pos <;> rfl

/-- The first match of a list cut down to a leading part. -/
theorem find?_filter_of_pairwise {α : Type} {p c : α → Bool} {l : List α}
    (h : l.Pairwise fun a b => c b = true → c a = true) :
    (l.filter c).find? p = (l.find? p).filter c := by
  induction l with
  | nil => rfl
  | cons a l ih =>
      obtain ⟨ha, hl⟩ := List.pairwise_cons.mp h
      by_cases hc : c a = true
      · rw [List.filter_cons_of_pos hc]
        by_cases hp : p a = true
        · rw [List.find?_cons_of_pos hp, List.find?_cons_of_pos hp, Option.filter_some_pos hc]
        · rw [List.find?_cons_of_neg hp, List.find?_cons_of_neg hp, ih hl]
      · have hnil : l.filter c = [] := by
          rw [List.filter_eq_nil_iff]
          exact fun b hb hcb => hc (ha b hb hcb)
        rw [List.filter_cons_of_neg hc, hnil]
        by_cases hp : p a = true
        · rw [List.find?_cons_of_pos hp, Option.filter_some_neg (by simpa using hc)]
          rfl
        · rw [List.find?_cons_of_neg hp, ← ih hl, hnil]

/-- Placed sections are in order. -/
theorem pairwise_placeSections (secs : List RawSection) (pos : ℕ) :
    (placeSections pos secs).Pairwise fun a b => a.1 ≤ b.1 := by
  induction secs generalizing pos with
  | nil => exact List.Pairwise.nil
  | cons s secs ih =>
      refine List.Pairwise.cons (fun q hq => ?_) (ih _)
      have := (placeSections_bounds hq).1
      simp only
      omega

section Written

variable {s : SegmentLayout} {num : ℕ} {last : Bool} {data : List UInt8}

/-- The recovery finds the section of a type that only pairs have in the first pair that has
one, if the prefix keeps its descriptor. -/
theorem Written.findSection_take (w : Written s num last data) {n : ℕ} (hn : n ≤ data.length)
    {t : SectionType} (ht : t ∉ plainTypes) (hterm : terminalType last ≠ t)
    {f : Pair → ℕ → Option (ℕ × RawSection)}
    (hf : ∀ p pos, (placeSections pos (p.sections pos)).find? (fun q => q.2.type = t) = f p pos) :
    findSection (Recover.walkSections (data.take n)) t =
      ((s.pairs.findSome? fun q => f q.2 q.1).filter fun x => x.1 + 76 ≤ n).map sectionOf := by
  have hplaced : (s.placed last).find? (fun q => q.2.type = t) =
      s.pairs.findSome? fun q => f q.2 q.1 := by
    rw [SegmentLayout.placed, placeSections_append, List.find?_append, SegmentLayout.sections,
      w.plain.find?_items ht hf]
    simp [placeSections, hterm, SegmentLayout.pairs]
  have hfun : ((fun sec : Section => decide (sec.typeName = t)) ∘ sectionOf) =
      fun q : ℕ × RawSection => decide (q.2.type = t) := rfl
  rw [findSection, w.walkSections_take hn, List.find?_map, hfun,
    find?_filter_of_pairwise, hplaced]
  refine (pairwise_placeSections _ _).imp fun hab hb => ?_
  simp only [decide_eq_true_eq] at hb ⊢
  omega

end Written

/-! ### Where the parts of a pair are -/

theorem Pair.mem_placeSections_table (p : Pair) (pos : ℕ) :
    (p.tablePos pos, ⟨p.kind.main, p.tableBody pos⟩) ∈ placeSections pos (p.sections pos) := by
  rw [p.placeSections_sections, p.placeSections_tables]
  split_ifs <;> simp

theorem Pair.mem_placeSections_sectors (p : Pair) (pos : ℕ) :
    (p.sectorsPos pos, p.sectors) ∈ placeSections pos (p.sections pos) :=
  List.mem_of_find?_eq_some (p.find?_sectors pos)

/-- The chunks of a pair lie within it. -/
theorem Pair.dataStart_bounds (p : Pair) (pos : ℕ) :
    pos + 76 ≤ p.dataStart pos ∧ p.dataStart pos + p.sectorBytes.length ≤ pos + p.size := by
  rw [Pair.dataStart, Pair.sectorsPos, Pair.size]
  split_ifs <;> omega

theorem placedPairs_ge {items : List Item} {pos : ℕ} {q : ℕ × Pair}
    (hq : q ∈ placedPairs pos items) : pos ≤ q.1 := by
  induction items generalizing pos with
  | nil => cases hq
  | cons it items ih =>
      cases it with
      | aux a =>
          have := ih hq
          omega
      | pair p =>
          rcases List.mem_cons.mp hq with rfl | hq
          · exact le_rfl
          · have := ih hq
            omega

/-- A pair lies within its row of items. -/
theorem placedPairs_le {items : List Item} {pos : ℕ} {q : ℕ × Pair}
    (hq : q ∈ placedPairs pos items) :
    q.1 + q.2.size ≤ pos + sectionsSize (itemsSections pos items) := by
  induction items generalizing pos with
  | nil => cases hq
  | cons it items ih =>
      rw [itemsSections, sectionsSize_append, it.sectionsSize_sections]
      cases it with
      | aux a =>
          have := ih hq
          simp only [Item.size]
          omega
      | pair p =>
          rcases List.mem_cons.mp hq with rfl | hq
          · exact Nat.add_le_add_left (Nat.le_add_right _ _) _
          · have := ih hq
            simp only [Item.size]
            omega

/-- The first pair ends before the others start. -/
theorem placedPairs_tail_ge {items : List Item} {pos : ℕ} {q₀ : ℕ × Pair} {rest : List (ℕ × Pair)}
    (h : placedPairs pos items = q₀ :: rest) : ∀ q ∈ rest, q₀.1 + q₀.2.size ≤ q.1 := by
  induction items generalizing pos with
  | nil => cases h
  | cons it items ih =>
      cases it with
      | aux a => exact ih h
      | pair p =>
          obtain ⟨rfl, rfl⟩ := List.cons.inj h
          exact fun q hq => placedPairs_ge hq

section Written

variable {s : SegmentLayout} {num : ℕ} {last : Bool} {data : List UInt8} {q : ℕ × Pair}

/-- The sections of a pair stand at their places. -/
theorem Encoded.hasAt_pair (w : Encoded s num last data) (hq : q ∈ s.pairs) {x : ℕ × RawSection}
    (hx : x ∈ placeSections q.1 (q.2.sections q.1)) : HasAt data (x.1 + 76) x.2.body :=
  (w.hasAt_section (placeSections_of_mem_placedPairs hq x hx)).2

theorem Encoded.table_at (w : Encoded s num last data) (hq : q ∈ s.pairs) :
    HasAt data (q.2.tablePos q.1 + 76) (q.2.tableBody q.1) :=
  w.hasAt_pair hq (q.2.mem_placeSections_table q.1)

theorem Encoded.sectors_at (w : Encoded s num last data) (hq : q ∈ s.pairs) :
    HasAt data (q.2.dataStart q.1) q.2.sectorBytes :=
  w.hasAt_pair hq (q.2.mem_placeSections_sectors q.1)

theorem Encoded.pair_le (w : Encoded s num last data) (hq : q ∈ s.pairs) :
    q.1 + q.2.size ≤ data.length := by
  have := placedPairs_le hq
  have hl := w.length_eq
  rw [SegmentLayout.terminalPos, SegmentLayout.sections] at hl
  omega

/-- A located chunk stands where it is located. -/
theorem Encoded.chunk_at (w : Encoded s num last data) (hq : q ∈ s.pairs) {c : ℕ × Stored}
    (hc : c ∈ q.2.located q.1) :
    HasAt data c.1 c.2.bytes ∧ q.2.dataStart q.1 ≤ c.1 ∧
      c.1 + c.2.bytes.length ≤ q.2.dataStart q.1 + q.2.sectorBytes.length :=
  hasAt_locate (w.sectors_at hq) hc

end Written

end EwfForensic.Image

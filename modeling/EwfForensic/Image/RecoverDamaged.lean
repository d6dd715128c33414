import EwfForensic.Image.RecoverWhole
import EwfForensic.Forensic.RecoverLocal
import EwfForensic.Lib.Interleave

/-!
# Recovering an Image with a Damaged Table

The recovery of an image whose every segment keeps an identical `table2`, after an edit of the
body of one segment's first `table`. It succeeds, and every chunk of the other segments comes out
where and as it does from the undamaged image, if the edit leaves the entry count as it was or no
later segment has a chunk (`others_unmoved`). The recovery takes the number of a segment's chunks
from the damaged header: a changed count moves all chunks of the later segments.
-/

namespace EwfForensic.Image

open Octets

/-! ### Edits of a section's body -/

/-- The positions outside the body of a section. -/
def OutsideBody (y : ℕ × RawSection) (i : ℕ) : Prop := i < y.1 + 76 ∨ y.1 + y.2.size ≤ i

/-- Two placed sections are one and the same, or do not overlap. -/
theorem placeSections_disjoint {secs : List RawSection} {pos : ℕ} {x y : ℕ × RawSection}
    (hx : x ∈ placeSections pos secs) (hy : y ∈ placeSections pos secs) :
    x = y ∨ x.1 + x.2.size ≤ y.1 ∨ y.1 + y.2.size ≤ x.1 := by
  induction secs generalizing pos with
  | nil => cases hx
  | cons s secs ih =>
      rcases List.mem_cons.mp hx with rfl | hx
      · rcases List.mem_cons.mp hy with rfl | hy
        · exact Or.inl rfl
        · exact Or.inr (Or.inl (placeSections_bounds hy).1)
      · rcases List.mem_cons.mp hy with rfl | hy
        · exact Or.inr (Or.inr (placeSections_bounds hx).1)
        · exact ih hx hy

section Edit

variable {s : SegmentLayout} {num : ℕ} {last : Bool} {data data' : List UInt8}
  {y : ℕ × RawSection}

/-- **The recovery walk does not see an edit of a body.** -/
theorem Written.walkSections_congr (w : Written s num last data)
    (hy : y ∈ s.placed last) (hagree : AgreeOn (OutsideBody y) data data') :
    Recover.walkSections data' = Recover.walkSections data := by
  have hwalk : Recover.walkSections data = (s.placed last).map sectionOf := by
    have := w.walkSections_take le_rfl
    rw [List.take_length] at this
    rw [this, List.filter_eq_self.mpr]
    intro x hx
    have hb := placeSections_bounds hx
    have hl := w.length_eq
    have hsize : x.2.size = 76 + x.2.body.length := rfl
    rw [sectionsSize_append] at hb
    have hterm : sectionsSize [⟨terminalType last, []⟩] = 76 := rfl
    rw [SegmentLayout.terminalPos] at hl
    simp only [decide_eq_true_eq]
    omega
  refine Recover.walkSections_congr hagree fun sec hsec i h1 h2 => ?_
  rw [hwalk] at hsec
  obtain ⟨x, hx, rfl⟩ := List.mem_map.mp hsec
  have hsize : x.2.size = 76 + x.2.body.length := rfl
  have hoff : (sectionOf x).offset = x.1 := rfl
  rw [OutsideBody]
  rcases placeSections_disjoint hx hy with rfl | h | h <;> omega

end Edit

/-- The first table of a pair, as a placed section. -/
def Pair.tableSection (q : ℕ × Pair) : ℕ × RawSection :=
  (q.2.tablePos q.1, ⟨q.2.kind.main, q.2.tableBody q.1⟩)

section Layout

variable {C : Crates} {L : Layout} {s : SegmentLayout} {num : ℕ} {last : Bool}
  {data data' : List UInt8} {q : ℕ × Pair}

theorem Pair.tableSection_mem (hq : q ∈ s.pairs) :
    Pair.tableSection q ∈ placeSections 13 s.sections :=
  placeSections_of_mem_placedPairs hq _ (q.2.mem_placeSections_table q.1)

theorem placed_of_mem {x : ℕ × RawSection} (hx : x ∈ placeSections 13 s.sections) (last : Bool) :
    x ∈ s.placed last := by
  rw [SegmentLayout.placed, placeSections_append]
  exact List.mem_append_left _ hx

/-- The geometry does not depend on the body of a table. -/
theorem Layout.Formed.readGeometry_congr (h : L.Formed C) (w : Written L.first num last data)
    (hq : q ∈ L.first.pairs) (hagree : AgreeOn (OutsideBody (Pair.tableSection q)) data data') :
    Recover.readGeometry data' (Recover.walkSections data') =
      Recover.readGeometry data (Recover.walkSections data) := by
  have hwalk := w.walkSections_congr (placed_of_mem (Pair.tableSection_mem hq) last) hagree
  have hfind := h.findVolume_take w le_rfl
  rw [List.take_length] at hfind
  have hb := w.section_bounds L.volume_mem
  have hlt := w.length_lt
  have hsize : L.volume.size = 76 + L.volume.body.length := rfl
  simp only at hb
  rw [Option.filter_some_pos (by simp only [decide_eq_true_eq]; omega)] at hfind
  -- The body of the volume is not that of the table.
  have hslice : ∀ stop, stop ≤ L.volumePos + L.volume.size →
      slice? data' (L.volumePos + 76) stop = slice? data (L.volumePos + 76) stop := by
    intro stop hstop
    refine (hagree.slice?_eq fun i h1 h2 => ?_).symm
    have htype : (L.volumePos, L.volume) ≠ Pair.tableSection q := by
      intro heq
      have ht : L.volume.type = q.2.kind.main :=
        congrArg (fun x : ℕ × RawSection => x.2.type) heq
      have hmain : q.2.kind.main = .table ∨ q.2.kind.main = .table2 := by
        cases q.2.kind <;> simp [TableKind.main]
      rcases L.volume_type with hv | hv <;> rcases hmain with hm | hm <;>
        · rw [hv, hm] at ht
          cases ht
    unfold OutsideBody
    rcases placeSections_disjoint L.volume_mem (Pair.tableSection_mem hq) with heq | hle | hle
    · exact absurd heq htype
    · left
      simp only at hle
      omega
    · right
      simp only at hle
      omega
  have hs1 : satAdd L.volumePos sectionDescriptorSize = L.volumePos + 76 :=
    satAdd_eq (by change L.volumePos + 76 ≤ u64Max; unfold u64Max; omega)
  have hs2 : satAdd (L.volumePos + 76) (L.volume.size - sectionDescriptorSize) =
      L.volumePos + L.volume.size := by
    have hsub : L.volume.size - sectionDescriptorSize = L.volume.body.length :=
      Nat.add_sub_cancel_left ..
    have hmax : L.volumePos + 76 + L.volume.body.length ≤ u64Max := by
      unfold u64Max
      omega
    rw [hsub, satAdd_eq hmax]
    omega
  unfold Recover.readGeometry
  rw [hwalk, hfind]
  simp only [Option.map_some, sectionOf, hs1, hs2, ← hagree.1]
  rw [hslice _ (Nat.min_le_left _ _)]

/-- A recovery starts with the same geometry. -/
theorem Layout.Formed.bootstrap_congr (h : L.Formed C) (w : Written L.first num last data)
    (hq : q ∈ L.first.pairs) (hagree : AgreeOn (OutsideBody (Pair.tableSection q)) data data')
    (files : List (List UInt8)) :
    Recover.bootstrap (data' :: files) = Recover.bootstrap (data :: files) := by
  have hb := w.section_bounds (Pair.tableSection_mem hq)
  have htake : data'.take 8 = data.take 8 := by
    have := @AgreeOn.window_eq _ _ _ _ hagree 0 8 fun i _ hi => by
      left
      omega
    simpa using this.symm
  have hlen : data'.length = data.length := hagree.1.symm
  have hgeom := h.readGeometry_congr w hq hagree
  have hhead : data'.take fileHeaderSize = data.take fileHeaderSize := by
    have := @AgreeOn.window_eq _ _ _ _ hagree 0 13 fun i _ hi => by
      left
      omega
    simpa using this.symm
  rw [Recover.bootstrap]
  simp only [List.headD_cons, hlen, htake, hgeom, hhead]
  rfl

/-- The number of chunks that a damaged table claims: its first four bytes. -/
theorem Written.entryCount_damaged (w : Written s num last data) {rest : List (ℕ × Pair)}
    (hpairs : s.pairs = q :: rest) (hkind : q.2.kind = .both)
    (hagree : AgreeOn (OutsideBody (Pair.tableSection q)) data data') :
    (Recover.SegmentTables.ofBytes data').entryCount = leU32 data' (q.2.tablePos q.1 + 76) := by
  have hq : q ∈ s.pairs := hpairs ▸ List.mem_cons_self ..
  have hwalk := w.walkSections_congr (placed_of_mem (Pair.tableSection_mem hq) last) hagree
  have hfind := w.findSection_take le_rfl (t := .table) (by decide) (by cases last <;> decide)
    Pair.find?_table
  have hle := (w.table_at hq).length_le
  have hlt := w.length_lt
  have hlen := hagree.1
  rw [hpairs, List.findSome?_cons, hkind, List.take_length, if_neg (by decide)] at hfind
  simp only at hfind
  have hbody := q.2.length_tableBody q.1
  rw [Pair.tableSize] at hbody
  rw [Option.filter_some_pos (by simp only [decide_eq_true_eq]; omega)] at hfind
  have hs1 : satAdd (q.2.tablePos q.1) sectionDescriptorSize = q.2.tablePos q.1 + 76 :=
    satAdd_eq (by change q.2.tablePos q.1 + 76 ≤ u64Max; unfold u64Max; omega)
  have hs2 : satAdd (q.2.tablePos q.1 + 76) tableHeaderSize = q.2.tablePos q.1 + 76 + 24 :=
    satAdd_eq (by change q.2.tablePos q.1 + 76 + 24 ≤ u64Max; unfold u64Max; omega)
  have hhdr : tableHeaderCrcOffset ≤ ((data'.drop (q.2.tablePos q.1 + 76)).take 24).length := by
    rw [List.length_take, List.length_drop]
    change 16 ≤ _
    omega
  have hprimary : ∃ t, (Recover.SegmentTables.ofBytes data').primary = some t ∧
      t.entryCount = leU32 data' (q.2.tablePos q.1 + 76) := by
    refine ⟨⟨leU32 ((data'.drop (q.2.tablePos q.1 + 76)).take 24) 0,
      leU64 ((data'.drop (q.2.tablePos q.1 + 76)).take 24) 8,
      satAdd (q.2.tablePos q.1 + 76) tableHeaderSize⟩, ?_, ?_⟩
    · show Recover.tableRef _ _ _ = _
      rw [Recover.tableRef]
      rw [hwalk, hfind]
      simp only [Option.map_some, sectionOf, hs1, hs2]
      rw [slice?_of_le (by omega) (by omega), Nat.add_sub_cancel_left]
      simp only [TableHeader.parse_of_le hhdr]
      rfl
    · exact leAt_window (by unfold u64Max; omega) (by omega) (by omega)
  obtain ⟨t, ht, hcount⟩ := hprimary
  rw [Recover.SegmentTables.entryCount, ht]
  exact hcount

/-! ### The chunks of the other segments -/

/-- The global index of chunk `l` of segment `j`, as the recovery of the undamaged image counts:
behind the chunks of the first pairs of the segments before. -/
def Layout.indexIn (L : Layout) (j l : ℕ) : ℕ :=
  ((L.segments.take j).flatMap SegmentLayout.firstLocated).length + l

/-- The recovery of `files'` succeeds, and every chunk of a segment other than segment `k` comes
out at the offset and with the bytes that it has in `out`. -/
def Layout.OthersUnmoved (C : Crates) (L : Layout) (k : ℕ) (files' : List (List UInt8))
    (out : List UInt8) : Prop :=
  ∃ report' out', Recover.recoverToFile C files' = some (report', out') ∧
    ∀ j s, L.segments[j]? = some s → j ≠ k → ∀ l < s.firstLocated.length,
      Recover.span L.chunkSize out' (L.indexIn j l) = Recover.span L.chunkSize out (L.indexIn j l)

/-- An element of a list of lists, in the flat list. -/
theorem getElem?_flatten {α : Type} {lists : List (List α)} {j l : ℕ} {xs : List α}
    (hj : lists[j]? = some xs) (hl : l < xs.length) :
    lists.flatten[(lists.take j).flatten.length + l]? = xs[l]? := by
  induction lists generalizing j with
  | nil => cases hj
  | cons ys lists ih =>
      cases j with
      | zero =>
          obtain rfl : ys = xs := by simpa using hj
          rw [List.take_zero, List.flatten_nil, List.length_nil, Nat.zero_add, List.flatten_cons,
            List.getElem?_append_left hl]
      | succ j =>
          have ih' := ih (show lists[j]? = some xs by simpa using hj)
          rw [List.take_succ_cons, List.flatten_cons, List.flatten_cons, List.length_append,
            List.getElem?_append_right (by omega), ← ih']
          congr 1
          omega

/-- Replacing one list leaves the elements of the others where they are, if the new list is as
long or only earlier ones are looked at. -/
theorem getElem?_flatten_set {α : Type} {lists : List (List α)} {j k l : ℕ} {xs new : List α}
    (hj : lists[j]? = some xs) (hne : j ≠ k) (hl : l < xs.length)
    (hlen : (∀ old, lists[k]? = some old → new.length = old.length) ∨ j < k) :
    (lists.set k new).flatten[(lists.take j).flatten.length + l]? = xs[l]? := by
  have hj' : (lists.set k new)[j]? = some xs := by
    rw [List.getElem?_set_ne (Ne.symm hne), hj]
  have htake : ((lists.set k new).take j).flatten.length = (lists.take j).flatten.length := by
    by_cases hjk : j < k
    · rw [List.take_set_of_le (by omega)]
    · have hsame := hlen.resolve_right hjk
      rw [List.length_flatten, List.length_flatten, List.take_set, List.map_set, List.map_take]
      congr 1
      apply List.ext_getElem?
      intro i
      by_cases hi : i = k
      · subst hi
        by_cases hlt : i < ((lists.map List.length).take j).length
        · rw [List.getElem?_set_self hlt, List.getElem?_take_of_lt (by
            rw [List.length_take] at hlt; omega), List.getElem?_map]
          obtain ⟨old, hold⟩ : ∃ old, lists[i]? = some old := by
            refine ⟨_, List.getElem?_eq_getElem (?_ : i < lists.length)⟩
            rw [List.length_take, List.length_map] at hlt
            omega
          rw [hold, hsame old hold]
          rfl
        · rw [List.set_eq_of_length_le (by omega)]
      · rw [List.getElem?_set_ne (Ne.symm hi)]
  have := getElem?_flatten hj' hl
  rwa [htake] at this

theorem forall₂_set_set {α β : Type} {R : α → β → Prop} {as : List α} {bs : List β}
    (h : List.Forall₂ R as bs) {a : α} {b : β} (hab : R a b) (k : ℕ) :
    List.Forall₂ R (as.set k a) (bs.set k b) := by
  induction h generalizing k with
  | nil => exact List.Forall₂.nil
  | cons hxy hrest ih =>
      cases k with
      | zero => exact List.Forall₂.cons hab hrest
      | succ k => exact List.Forall₂.cons hxy (ih k)

/-- What any segment serves, as a list of what its tables make of its chunks. -/
def servedBy (C : Crates) (chunkSize : ℕ) (tables : Recover.SegmentTables) :
    List (Option (List UInt8 × Bool)) :=
  (List.range tables.entryCount).map fun i =>
    (tables.decode C chunkSize i).map Recover.Decoded.result

theorem serves_servedBy (C : Crates) (chunkSize : ℕ) (tables : Recover.SegmentTables) :
    Recover.Serves C chunkSize tables (servedBy C chunkSize tables) where
  count_eq := by simp [servedBy]
  decode_eq i x hx := by
    rw [servedBy, List.getElem?_map] at hx
    obtain ⟨j, hj, rfl⟩ := Option.map_eq_some_iff.mp hx
    obtain ⟨hlt, rfl⟩ := List.getElem?_eq_some_iff.mp hj
    rw [List.getElem_range]

variable {sources : List Segment}

/-- What the segments serve from their whole files. -/
def Layout.servedLists (C : Crates) (L : Layout) : List (List (Option (List UInt8 × Bool))) :=
  L.segments.map fun s => s.served C L.chunkSize s.fileLength

theorem Layout.getElem?_servedLists (C : Crates) {j : ℕ} {t : SegmentLayout}
    (hj : L.segments[j]? = some t) :
    (L.servedLists C)[j]? = some (t.served C L.chunkSize t.fileLength) := by
  rw [Layout.servedLists, List.getElem?_map, hj]
  rfl

/-- A whole segment serves the chunks of its first pair. -/
theorem Layout.Formed.length_served_whole (h : L.Formed C)
    (hfiles : sources.map (·.data) = L.files) {j : ℕ} {t : SegmentLayout}
    (hj : L.segments[j]? = some t) :
    (t.served C L.chunkSize t.fileLength).length = t.firstLocated.length := by
  obtain ⟨src, -, w⟩ := h.source hfiles hj
  have hfile : t.fileLength = src.data.length := w.length_eq.symm
  rw [hfile]
  exact (h.served_whole (List.mem_of_getElem? hj) w).length_eq.symm

/-- The recovery counts behind what the segments before serve. -/
theorem Layout.Formed.indexIn_eq (h : L.Formed C) (hfiles : sources.map (·.data) = L.files)
    (j l : ℕ) : L.indexIn j l = ((L.servedLists C).take j).flatten.length + l := by
  rw [Layout.indexIn, Layout.servedLists, List.length_flatMap, List.length_flatten,
    ← List.map_take, List.map_map]
  congr 2
  refine List.map_congr_left fun u hu => ?_
  obtain ⟨i, hi, rfl⟩ := List.getElem_of_mem (List.mem_of_mem_take hu)
  exact (h.length_served_whole hfiles (List.getElem?_eq_getElem hi)).symm

/-- What is served at the place of a chunk of segment `j` does not depend on what segment `k`
serves, if that is as many chunks as before or no later segment has one. -/
theorem Layout.Formed.served_unmoved (h : L.Formed C) (hfiles : sources.map (·.data) = L.files)
    {k : ℕ} {s : SegmentLayout} (hk : L.segments[k]? = some s)
    {new : List (Option (List UInt8 × Bool))}
    (hnew : new.length = s.firstLocated.length ∨
      ∀ j t, L.segments[j]? = some t → k < j → t.firstLocated = [])
    {j : ℕ} {t : SegmentLayout} (hj : L.segments[j]? = some t) (hne : j ≠ k) {l : ℕ}
    (hl : l < t.firstLocated.length) :
    ((L.servedLists C).set k new).flatten[L.indexIn j l]? =
      (t.served C L.chunkSize t.fileLength)[l]? := by
  rw [h.indexIn_eq hfiles]
  refine getElem?_flatten_set (L.getElem?_servedLists C hj) hne
    (by rwa [h.length_served_whole hfiles hj]) ?_
  rcases hnew with hsame | hlater
  · left
    intro old hold
    rw [L.getElem?_servedLists C hk] at hold
    obtain rfl := Option.some.inj hold
    rw [hsame, h.length_served_whole hfiles hk]
  · right
    by_contra hjk
    rw [hlater j t hj (by omega)] at hl
    cases hl

/-- The served chunks are as many as fit the counter. -/
theorem Layout.Formed.length_servedLists_le (h : L.Formed C)
    (hfiles : sources.map (·.data) = L.files) :
    (L.servedLists C).flatten.length ≤ L.chunks.length := by
  rw [Layout.servedLists, ← (h.served_files hfiles).length_eq]
  exact L.length_firstLocated_le

/-- They still do when one segment serves as many as a table can claim. -/
theorem Layout.Formed.length_servedLists_set_le (h : L.Formed C)
    (hfiles : sources.map (·.data) = L.files) {k : ℕ} {s : SegmentLayout}
    (hk : L.segments[k]? = some s) {new : List (Option (List UInt8 × Bool))}
    (hnew : new.length < 4294967296) :
    ((L.servedLists C).set k new).flatten.length ≤ u64Max := by
  have hle := h.length_servedLists_le hfiles
  have hlt := h.chunks_lt
  have hsum := @Interleave.sum_map_set _ List.length (L.servedLists C) k _ new
    (L.getElem?_servedLists C hk)
  rw [← List.length_flatten, ← List.length_flatten] at hsum
  rw [u64Max]
  omega

/-- An image that starts the recovery starts it with its own geometry. -/
theorem Layout.Formed.geometry_of_bootstrap (h : L.Formed C)
    (hfiles : sources.map (·.data) = L.files) {geom : Recover.Geometry}
    (hb : Recover.bootstrap (sources.map (·.data)) = .ok geom) : geom = L.geometry := by
  obtain ⟨src, hsrc, w⟩ := h.source hfiles (i := 0) (s := L.first) rfl
  exact ((h.bootstrap_take w le_rfl (headD_files hsrc) geom).mp hb).1

/-- The start of the recovery does not see the damage of a table. -/
theorem Layout.Formed.bootstrap_damaged (h : L.Formed C)
    (hfiles : sources.map (·.data) = L.files) {k : ℕ} {s : SegmentLayout}
    (hk : L.segments[k]? = some s) {q : ℕ × Pair} (hq : q ∈ s.pairs) {source : Segment}
    (hsource : sources[k]? = some source) {data' : List UInt8}
    (hagree : AgreeOn (OutsideBody (Pair.tableSection q)) source.data data') :
    Recover.bootstrap ((sources.map (·.data)).set k data') =
      Recover.bootstrap (sources.map (·.data)) := by
  obtain ⟨src, hsrc, w⟩ := h.source hfiles hk
  obtain rfl : source = src := Option.some.inj (hsource.symm.trans hsrc)
  cases sources with
  | nil => rfl
  | cons a srcs =>
      cases k with
      | succ k => rfl
      | zero =>
          obtain rfl : L.first = s := Option.some.inj hk
          obtain rfl : a = source := Option.some.inj hsource
          exact h.bootstrap_congr w hq hagree _

/-- **Damage in one table.** In an image whose tables all have an identical `table2`, an edit of
the body of the first table of segment `k` leaves the recovery of every other segment as it was,
if the entry count is not changed or no later segment has a chunk. -/
theorem others_unmoved (C : Crates) (L : Layout) (h : L.WellFormed C) (sources : List Segment)
    (hfiles : sources.map (·.data) = L.files)
    (hboth : ∀ s ∈ L.segments, ∀ q ∈ s.pairs, q.2.kind = .both)
    {report : Recover.RecoveryReport} {out : List UInt8}
    (hrun : Recover.recoverToFile C (sources.map (·.data)) = some (report, out)) {k : ℕ}
    {s : SegmentLayout} (hk : L.segments[k]? = some s) {q : ℕ × Pair}
    (hq : s.pairs.head? = some q) {source : Segment} (hsource : sources[k]? = some source)
    {data' : List UInt8}
    (hagree : AgreeOn (OutsideBody (Pair.tableSection q)) source.data data')
    (hcount : leU32 data' (q.2.tablePos q.1 + 76) = q.2.chunks.length ∨
      ∀ j t, L.segments[j]? = some t → k < j → t.firstLocated = []) :
    L.OthersUnmoved C k ((sources.map (·.data)).set k data') out := by
  obtain ⟨rest, hpairs⟩ : ∃ rest, s.pairs = q :: rest := by
    cases hp : s.pairs with
    | nil => simp [hp] at hq
    | cons a rest =>
        rw [hp, List.head?_cons, Option.some.injEq] at hq
        exact ⟨rest, by rw [hq]⟩
  have hqmem : q ∈ s.pairs := hpairs ▸ List.mem_cons_self ..
  obtain ⟨src, hsrc, w⟩ := h.source hfiles hk
  obtain rfl : source = src := Option.some.inj (hsource.symm.trans hsrc)
  -- Both recoveries start with the geometry of the image.
  obtain ⟨geom, hb, hout, hmax, -⟩ := Recover.recoverToFile_ok hrun
  obtain rfl : geom = L.geometry := h.geometry_of_bootstrap hfiles hb
  obtain ⟨hchunk, hsize, hneeded⟩ := h.geometry_spec
  have hpos : 0 < L.geometry.chunkSize := hchunk ▸ h.chunkSize_pos
  have hb' := (h.bootstrap_damaged hfiles hk hqmem hsource hagree).trans hb
  have himage : ¬ L.geometry.imageSize > Recover.maxFileSize := by
    rw [hout, Recover.length_pieces hpos] at hmax
    omega
  have hrun' := Recover.recoverToFile_of_bootstrap C hb'
  rw [if_neg himage] at hrun'
  refine ⟨_, _, hrun', fun j t hj hne l hl => ?_⟩
  -- What the segments serve in the two recoveries.
  obtain ⟨new, hnew⟩ : ∃ new, servedBy C L.chunkSize (Recover.SegmentTables.ofBytes data') = new :=
    ⟨_, rfl⟩
  have hserves := h.serves_files hfiles
  change List.Forall₂ _ _ (L.servedLists C) at hserves
  have hserves' := forall₂_set_set hserves
    (serves_servedBy C L.chunkSize (Recover.SegmentTables.ofBytes data')) k
  rw [← List.map_set, hnew] at hserves'
  have hentry := w.entryCount_damaged hpairs (hboth s (List.mem_of_getElem? hk) q hqmem) hagree
  have hlen : new.length = leU32 data' (q.2.tablePos q.1 + 76) := by
    rw [← hnew, servedBy, List.length_map, List.length_range, hentry]
  have hfirst : s.firstLocated.length = q.2.chunks.length := by
    have hlocated : s.firstLocated = q.2.located q.1 := by rw [SegmentLayout.firstLocated, hpairs]
    rw [hlocated, Pair.located, length_locate]
  have hl' : l < (t.served C L.chunkSize t.fileLength).length := by
    rwa [h.length_served_whole hfiles hj]
  have hsame : (L.servedLists C).flatten[L.indexIn j l]? =
      (t.served C L.chunkSize t.fileLength)[l]? := by
    rw [h.indexIn_eq hfiles]
    exact getElem?_flatten (L.getElem?_servedLists C hj) hl'
  have hsame' := h.served_unmoved hfiles hk (by rwa [← hfirst, ← hlen] at hcount) hj hne hl
  have hle := h.length_servedLists_le hfiles
  have hbound : (L.servedLists C).flatten.length ≤ u64Max := by
    have hlt := h.chunks_lt
    rw [u64Max]
    omega
  have hbound' := h.length_servedLists_set_le hfiles hk (by rw [hlen]; exact leU32_lt _ _)
  have hd := @Recover.decodeGlobal_of_serves _ _ _ _ hserves (L.indexIn j l) fun hlt =>
    lt_of_lt_of_le hlt hbound
  have hd' := @Recover.decodeGlobal_of_serves _ _ _ _ hserves' (L.indexIn j l) fun hlt =>
    lt_of_lt_of_le hlt hbound'
  rw [hsame] at hd
  rw [hsame', ← hd] at hd'
  have hidx : L.indexIn j l < L.chunks.length := by
    have := (List.getElem?_eq_some_iff.mp (hsame.trans (List.getElem?_eq_getElem hl'))).1
    omega
  rw [hout, ← hchunk, Recover.span_pieces hpos (by rw [hneeded]; exact hidx),
    Recover.span_pieces hpos (by rw [hneeded]; exact hidx)]
  refine Recover.RecoveredChunk.written_congr rfl ?_
  have hcc : L.indexIn j l < L.geometry.chunkCount := hidx
  rw [Recover.outcomeAt, Recover.outcomeAt, if_pos hcc, if_pos hcc, hchunk]
  exact hd'

end Layout

/-- An image of two segments with one pair each. -/
def twoSegmentsLayout : Layout where
  preamble := []
  disk := false
  mediaType := 1
  sectorsPerChunk := 2
  bytesPerSector := 512
  sectorCount := 4
  volumeRest := List.replicate 70 0
  items := [.pair (oneChunkPair 7)]
  nextField := 0
  rest := [⟨[.pair (oneChunkPair 9)], 0⟩]

/-- The image as sources. -/
def twoSegmentsImage : List Segment :=
  [⟨twoSegmentsLayout.files.headD [], by decide +kernel⟩,
    ⟨twoSegmentsLayout.files.getLastD [], by decide +kernel⟩]

/-- Its first segment with the byte at `i` of the body of its table changed. -/
def damagedFirst (i : ℕ) (b : UInt8) : List UInt8 :=
  (twoSegmentsLayout.files.headD []).set (259 + i) b

/-- The first pair of the image. -/
def twoSegmentsPair : ℕ × Pair := (183, oneChunkPair 7)

theorem twoSegmentsLayout_wellFormed : twoSegmentsLayout.WellFormed Crates.reference where
  preamble_aux := by simp [twoSegmentsLayout]
  items_aux := by simp [twoSegmentsLayout]
  rest_aux := by simp [twoSegmentsLayout]
  volumeRest_le := by decide +kernel
  chunkSize_pos := by decide +kernel
  chunkSize_le := by decide +kernel
  sectors_eq := by decide +kernel
  blocks := by decide +kernel
  chunks_lt := by decide +kernel
  sound := by
    intro c hc z pad he
    simp only [Layout.chunks, twoSegmentsLayout, oneChunkPair, Item.chunks, SegmentLayout.chunks,
      List.flatMap_cons, List.flatMap_nil, List.append_nil, List.cons_append, List.nil_append,
      List.mem_cons, List.not_mem_nil, or_false] at hc
    rcases hc with rfl | rfl <;> cases he
  tables_eq := by decide +kernel
  base_le := by decide +kernel
  nextField_le := by decide +kernel
  segments_le := by decide +kernel
  short := by decide +kernel

theorem twoSegmentsPair_head : twoSegmentsLayout.first.pairs.head? = some twoSegmentsPair :=
  rfl

/-- An edit of one byte of a body leaves the rest as it is. -/
theorem agreeOn_set {y : ℕ × RawSection} (data : List UInt8) {i : ℕ} (b : UInt8)
    (hi : ¬ OutsideBody y i) : AgreeOn (OutsideBody y) data (data.set i b) := by
  refine ⟨List.length_set.symm, fun j hj => ?_⟩
  rw [List.getElem?_set_ne]
  rintro rfl
  exact hi hj

theorem others_unmoved_twoSegments :
    ∃ report out, Recover.recoverToFile Crates.reference (twoSegmentsImage.map (·.data)) =
        some (report, out) ∧
      twoSegmentsLayout.OthersUnmoved Crates.reference 0
        ((twoSegmentsImage.map (·.data)).set 0 (damagedFirst 8 1)) out := by
  have hsome : (Recover.recoverToFile Crates.reference
      (twoSegmentsImage.map (·.data))).isSome = true := by decide +kernel
  obtain ⟨⟨report, out⟩, hrun⟩ := Option.isSome_iff_exists.mp hsome
  refine ⟨report, out, hrun, ?_⟩
  exact others_unmoved Crates.reference twoSegmentsLayout twoSegmentsLayout_wellFormed
    twoSegmentsImage rfl (by decide +kernel) hrun (k := 0) (s := twoSegmentsLayout.first) rfl
    twoSegmentsPair_head
    (show twoSegmentsImage[0]? = some (twoSegmentsImage.headD ⟨[], by decide⟩) from rfl)
    (agreeOn_set _ 1 (by unfold OutsideBody; decide +kernel)) (Or.inl (by decide +kernel))

/-- With the entry count of the first segment set to zero, the second segment's chunk comes out
in place of the first one, and its own place is filled with zeros. -/
theorem damagedFirst_moves :
    twoSegmentsLayout.WellFormed Crates.reference ∧
      twoSegmentsImage.map (·.data) = twoSegmentsLayout.files ∧
      (∀ s ∈ twoSegmentsLayout.segments, ∀ q ∈ s.pairs, q.2.kind = .both) ∧
      twoSegmentsLayout.first.pairs.head? = some twoSegmentsPair ∧
      AgreeOn (OutsideBody (Pair.tableSection twoSegmentsPair))
        (twoSegmentsLayout.files.headD []) (damagedFirst 0 0) ∧
      ∃ report out, Recover.recoverToFile Crates.reference (twoSegmentsImage.map (·.data)) =
          some (report, out) ∧
        ¬ twoSegmentsLayout.OthersUnmoved Crates.reference 0
          ((twoSegmentsImage.map (·.data)).set 0 (damagedFirst 0 0)) out := by
  refine ⟨twoSegmentsLayout_wellFormed, rfl, by decide +kernel, twoSegmentsPair_head,
    agreeOn_set _ 0 (by unfold OutsideBody; decide +kernel), ?_⟩
  have hval : (Recover.recoverToFile Crates.reference (twoSegmentsImage.map (·.data))).map
      (fun v => Recover.span 1024 v.2 1) = some (List.replicate 1024 9) := by decide +kernel
  have hval' : (Recover.recoverToFile Crates.reference
      ((twoSegmentsImage.map (·.data)).set 0 (damagedFirst 0 0))).map
      (fun v => Recover.span 1024 v.2 1) = some (List.replicate 1024 0) := by decide +kernel
  obtain ⟨⟨report, out⟩, hrun, hspan⟩ := Option.map_eq_some_iff.mp hval
  refine ⟨report, out, hrun, ?_⟩
  rintro ⟨report', out', hrun', hall⟩
  have hsame := hall 1 _ rfl (by decide) 0 (by decide +kernel)
  have hindex : twoSegmentsLayout.indexIn 1 0 = 1 := by decide +kernel
  have hcs : twoSegmentsLayout.chunkSize = 1024 := by decide +kernel
  rw [hrun', Option.map_some, Option.some.injEq] at hval'
  rw [hindex, hcs, hval', hspan] at hsame
  exact absurd hsame (by decide +kernel)

end EwfForensic.Image

import EwfForensic.Core.LogicalForest

/-!
# Round Trip of a File Tree

A forest of entries, written out as the `entry` category of an `ltree` text: a line of counts and a
line of values for each entry, what is below it after it. Parsing the text gives the forest back.

* `categoryText` — the text, with lines before and after the category.
* `EntryCategory` — what can be written so: some distinct names without tabs and line feeds, values
  likewise, and no line that ends in a carriage return or is taken for the first line.
* `parseOne_render` — the calls of `parse_one` for a forest read exactly its lines.
* `logical_round_trip`.
-/

namespace EwfForensic

open Octets

/-! ### Writing -/

/-- Fields with tabs between them. -/
def tabJoin (fields : List (List Char)) : List Char := ['\t'].intercalate fields

/-- A line of counts. -/
def countsLine (a b : ℕ) : List Char := Nat.toDigits 10 a ++ '\t' :: Nat.toDigits 10 b

/-- The lines of a forest, whose entries give each indicator a value. -/
def renderForest (indicators : List (List Char)) :
    Forest (List Char → List Char) → List (List Char)
  | .nil => []
  | .node v below after =>
    countsLine 0 below.width :: tabJoin (indicators.map v) ::
      (renderForest indicators below ++ renderForest indicators after)

/-- The `entry` category. Its root is an entry without a name, above all others. -/
def renderCategory (indicators : List (List Char)) (F : Forest (List Char → List Char)) :
    List (List Char) :=
  entryLine :: countsLine F.size 1 :: tabJoin indicators :: countsLine 26 F.width ::
    tabJoin (indicators.map fun _ => []) :: renderForest indicators F

/-- A text with an `entry` category. -/
def categoryText (before indicators : List (List Char)) (F : Forest (List Char → List Char))
    (after : List (List Char)) : List Char :=
  ['\n'].intercalate (before ++ (renderCategory indicators F ++ after))

/-- What is written, and the form it needs. A text is no longer than a slice, so that its entries
can be counted in 64 bits. -/
structure EntryCategory where
  before : List (List Char)
  indicators : List (List Char)
  forest : Forest (List Char → List Char)
  after : List (List Char)
  indicators_ne_nil : indicators ≠ []
  indicators_nodup : indicators.Nodup
  indicators_free : ∀ k ∈ indicators, '\t' ∉ k ∧ '\n' ∉ k
  values_free : ∀ v ∈ forest.values, ∀ k ∈ indicators, '\t' ∉ v k ∧ '\n' ∉ v k
  names_end : (tabJoin indicators).getLast? ≠ some '\r'
  values_end : ∀ v ∈ forest.values, (tabJoin (indicators.map v)).getLast? ≠ some '\r'
  before_lines : ∀ l ∈ before, '\n' ∉ l ∧ trimEndReturns l ≠ entryLine
  after_lines : ∀ l ∈ after, '\n' ∉ l
  size_le : forest.size ≤ u64Max

/-- The value in a column; a missing one is empty. -/
def column (indicators : List (List Char)) (v : List Char → List Char) (k : List Char) :
    List Char :=
  if k ∈ indicators then v k else []

/-- An entry is read as it was written, each field from the column of its name. -/
structure ReadAs (indicators : List (List Char)) (v : List Char → List Char) (e : LogicalEntry) :
    Prop where
  raw : ∀ k, e.raw.lookup k = if k ∈ indicators then some (v k) else none
  name : e.name = column indicators v ['n']
  size : e.size = (parseU64 (trim (column indicators v ['l', 's']))).getD 0
  id : e.id = (parseU64 (trim (column indicators v ['i', 'd']))).getD 0
  isDir : e.isDir = true ↔ column indicators v ['p'] = ['1']

/-- A tree has the shape and the order of a forest, its entries are read as written, and no line has
a wrong number of values. -/
structure RoundTrips (indicators : List (List Char)) (F : Forest (List Char → List Char))
    (tree : LogicalTree) : Prop where
  shape : tree.entries.map LogicalEntry.link = F.layout (fun _ p cs => ⟨p, cs⟩) none 0
  entries : List.Forall₂ (ReadAs indicators) F.values tree.entries
  no_warning : ∀ line n m, LogicalWarning.valueCount line n m ∉ tree.warnings

/-! ### Lines -/

theorem isDigit_of_mem_toDigits {n : ℕ} {c : Char} (hc : c ∈ Nat.toDigits 10 n) :
    c.isDigit = true :=
  Nat.isDigit_of_mem_toDigits (by decide) (by decide) hc

theorem not_mem_toDigits {n : ℕ} {c : Char} (hc : c.isDigit = false) : c ∉ Nat.toDigits 10 n := by
  intro hmem
  rw [isDigit_of_mem_toDigits hmem] at hc
  cases hc

theorem isWhitespace_of_isDigit {c : Char} (hc : c.isDigit = true) : isWhitespace c = false := by
  have hbounds : 48 ≤ c.toNat ∧ c.toNat ≤ 57 := by
    simpa [Char.isDigit, UInt32.le_iff_toNat_le] using hc
  rw [isWhitespace, decide_eq_false_iff_not]
  rintro (rfl | hspace)
  · exact absurd hc (by decide)
  · omega

theorem trim_toDigits (n : ℕ) : trim (Nat.toDigits 10 n) = Nat.toDigits 10 n := by
  have hnone : ∀ c ∈ Nat.toDigits 10 n, isWhitespace c = false := fun c hc =>
    isWhitespace_of_isDigit (isDigit_of_mem_toDigits hc)
  rw [trim]
  have hfront : (Nat.toDigits 10 n).dropWhile isWhitespace = Nat.toDigits 10 n := by
    rw [List.dropWhile_eq_self_iff]
    intro h
    rw [hnone _ (List.getElem_mem h)]
    exact Bool.false_ne_true
  rw [hfront, List.rdropWhile_eq_self_iff]
  intro h
  rw [hnone _ (List.getLast_mem h)]
  exact Bool.false_ne_true

/-- **A written number is read back.** -/
theorem parseU64_toDigits {n : ℕ} (hn : n ≤ u64Max) : parseU64 (Nat.toDigits 10 n) = some n := by
  have hplus : (Nat.toDigits 10 n).head? ≠ some '+' := by
    intro h
    exact not_mem_toDigits (by decide) (List.mem_of_head? h)
  have hvalue : ofDigits (Nat.toDigits 10 n) = n :=
    Nat.ofDigitChars_toDigits (by decide) (by decide)
  have hall : (Nat.toDigits 10 n).all Char.isDigit = true :=
    List.all_eq_true.mpr fun c hc => isDigit_of_mem_toDigits hc
  rw [parseU64]
  simp only [if_neg hplus, hvalue, hall]
  rw [if_neg]
  simp [Nat.toDigits_ne_nil, hn]

theorem subCount_countsLine (a : ℕ) {b : ℕ} (hb : b ≤ u64Max) :
    subCount (countsLine a b) = some b := by
  have htab : ∀ n, '\t' ∉ Nat.toDigits 10 n := fun n => not_mem_toDigits (by decide)
  rw [subCount, countsLine, List.splitOn_append_cons_self_of_not_mem (htab a),
    List.splitOn_eq_singleton (htab b)]
  simp only [List.getElem?_cons_succ, List.getElem?_cons_zero, Option.bind_some]
  rw [trim_toDigits, parseU64_toDigits hb]

/-- Fields without tabs are found again. -/
theorem splitOn_tabJoin {fields : List (List Char)} (hne : fields ≠ [])
    (hfree : ∀ f ∈ fields, '\t' ∉ f) : (tabJoin fields).splitOn '\t' = fields :=
  List.splitOn_intercalate '\t' hfree hne

/-! ### Entries -/

section Row

variable {indicators : List (List Char)}

/-- Names that are not there yet each get their value. -/
theorem foldl_insert_map {names : List (List Char)} (hnodup : names.Nodup)
    (v : List Char → List Char) (raw : RawFields) (hnew : ∀ k ∈ names, k ∉ raw.map Prod.fst) :
    (names.zip (names.map v)).foldl (fun raw p => RawFields.insert raw p.1 p.2) raw =
      raw ++ names.map fun k => (k, v k) := by
  induction names generalizing raw with
  | nil => simp
  | cons k names ih =>
      obtain ⟨hk, hnodup⟩ := List.nodup_cons.mp hnodup
      rw [List.forall_mem_cons] at hnew
      have hkeep : raw.filter (fun p => p.1 ≠ k) = raw := by
        rw [List.filter_eq_self]
        intro p hp
        rw [decide_eq_true_eq]
        rintro rfl
        exact hnew.1 (List.mem_map_of_mem hp)
      rw [List.map_cons, List.zip_cons_cons, List.foldl_cons, RawFields.insert, hkeep,
        ih hnodup, List.map_cons, List.append_assoc, List.singleton_append]
      intro k' hk' hmem
      rw [List.map_append, List.mem_append] at hmem
      rcases hmem with hmem | hmem
      · exact hnew.2 k' hk' hmem
      · obtain rfl : k' = k := by simpa using hmem
        exact hk hk'

/-- Distinct names each get their value. -/
theorem rawFields_map (hnodup : indicators.Nodup) (v : List Char → List Char) :
    rawFields indicators (indicators.map v) = indicators.map fun k => (k, v k) :=
  foldl_insert_map hnodup v [] fun _ _ => List.not_mem_nil

theorem lookup_map (v : List Char → List Char) (k : List Char) :
    (indicators.map fun k => (k, v k)).lookup k = if k ∈ indicators then some (v k) else none := by
  induction indicators with
  | nil => rfl
  | cons k' names ih =>
      rw [List.map_cons, List.lookup_cons, ih]
      by_cases hk : k = k'
      · subst hk
        simp
      · simp [beq_false_of_ne hk, hk]

/-- The entry that a row of values is read as. -/
def readRow (indicators : List (List Char)) (v : List Char → List Char) : LogicalEntry :=
  entryOf (rawFields indicators (indicators.map v))

/-- **An entry is read from the columns of its names.** -/
theorem readAs_place (hnodup : indicators.Nodup) (v : List Char → List Char) (parent : Option ℕ)
    (children : List ℕ) : ReadAs indicators v (place (readRow indicators v) parent children) := by
  have hraw : ∀ k, (rawFields indicators (indicators.map v)).lookup k =
      if k ∈ indicators then some (v k) else none := fun k => by
    rw [rawFields_map hnodup, lookup_map]
  have hget : ∀ k, (rawFields indicators (indicators.map v)).get k = column indicators v k := by
    intro k
    rw [RawFields.get, hraw, column]
    split_ifs <;> rfl
  refine ⟨hraw, hget _, ?_, ?_, ?_⟩
  · exact congrArg (fun f => (parseU64 (trim f)).getD 0) (hget _)
  · exact congrArg (fun f => (parseU64 (trim f)).getD 0) (hget _)
  · rw [← hget]
    exact decide_eq_true_iff

end Row

/-! ### Reading -/

theorem size_renderForest (indicators : List (List Char)) (F : Forest (List Char → List Char)) :
    (renderForest indicators F).length = 2 * F.size := by
  induction F with
  | nil => rfl
  | node v below after ihb iha =>
      rw [renderForest, List.length_cons, List.length_cons, List.length_append, ihb, iha,
        Forest.size]
      ring

/-- The lines at a position, where a list of lines stands there. -/
theorem getElem?_of_prefix_drop {line : List Char} {rest lines : List (List Char)} {i : ℕ}
    (h : line :: rest <+: lines.drop i) : lines[i]? = some line ∧ rest <+: lines.drop (i + 1) := by
  obtain ⟨back, hback⟩ := h
  constructor
  · rw [← Nat.add_zero i, ← List.getElem?_drop, ← hback]
    rfl
  · rw [← List.drop_drop, ← hback]
    exact List.prefix_append rest back

theorem prefix_drop_of_append {front rest lines : List (List Char)} {i : ℕ}
    (h : front ++ rest <+: lines.drop i) :
    front <+: lines.drop i ∧ rest <+: lines.drop (i + front.length) := by
  obtain ⟨back, hback⟩ := h
  rw [List.append_assoc] at hback
  constructor
  · rw [← hback]
    exact List.prefix_append _ _
  · rw [← List.drop_drop, ← hback, List.drop_left]
    exact List.prefix_append _ _

section Read

variable {lines indicators : List (List Char)}

/-- Calls of `parse_one` that read a forest. -/
structure Reads (indicators : List (List Char)) (parent : Option ℕ)
    (F : Forest (List Char → List Char)) (st st' : ℕ × LogicalTree) : Prop where
  line : st'.1 = st.1 + 2 * F.size
  names : st'.2.indicators = st.2.indicators
  entries : st'.2.entries = grow parent (F.map (readRow indicators)) st.2.entries
  warnings : ∀ w ∈ st'.2.warnings, w ∈ st.2.warnings ∨ ∃ line d, w = .shortNameSize line d

theorem Reads.length_entries {parent : Option ℕ} {F : Forest (List Char → List Char)}
    {st st' : ℕ × LogicalTree} (h : Reads indicators parent F st st') :
    st'.2.entries.length = st.2.entries.length + F.size := by
  rw [h.entries, length_grow, Forest.size_map]

/-- A call that reads a tree, and calls that read the trees after it. -/
theorem Reads.append {parent : Option ℕ} {F G : Forest (List Char → List Char)}
    {st st' st'' : ℕ × LogicalTree} (hparent : ∀ p ∈ parent, p < st.2.entries.length)
    (h : Reads indicators parent F st st') (h' : Reads indicators parent G st' st'') :
    Reads indicators parent (F.append G) st st'' where
  line := by
    rw [h'.line, h.line, Forest.size_append]
    ring
  names := h'.names.trans h.names
  entries := by
    rw [Forest.map_append, grow_append hparent, h'.entries, h.entries]
  warnings w hw := by
    rcases h'.warnings w hw with hw | hw
    · exact h.warnings w hw
    · exact Or.inr hw

/-- The entry of two lines, and the calls that read what is below it. -/
theorem Reads.node {parent : Option ℕ} {v : List Char → List Char}
    {below : Forest (List Char → List Char)} {i : ℕ} {tree : LogicalTree} {st : ℕ × LogicalTree}
    (hparent : ∀ p ∈ parent, p < tree.entries.length)
    (hrow : (tabJoin (indicators.map v)).splitOn '\t' = indicators.map v)
    (h : Reads indicators (some tree.entries.length) below
      (i + 2, pushLogicalEntry indicators i (tabJoin (indicators.map v)) parent tree) st) :
    Reads indicators parent (.node v below .nil) (i, tree) st where
  line := by
    rw [h.line, Forest.size, Forest.size]
    ring
  names := h.names
  entries := by
    rw [Forest.map, Forest.map, grow_node hparent, h.entries, pushLogicalEntry]
    simp only [hrow]
    rfl
  warnings w hw := by
    rcases h.warnings w hw with hw | hw
    · rw [pushLogicalEntry] at hw
      simp only [hrow, List.length_map, ne_eq, not_true_eq_false, if_false, List.append_nil,
        List.mem_append] at hw
      rcases hw with hw | hw
      · exact Or.inl hw
      · rw [shortNameWarnings] at hw
        split at hw
        · split_ifs at hw
          · exact Or.inr ⟨_, _, List.mem_singleton.mp hw⟩
          · cases hw
        · cases hw
    · exact Or.inr hw

/-- **The calls for a forest read its lines.** -/
theorem parseOne_render (hne : indicators ≠ []) {F : Forest (List Char → List Char)}
    (hfree : ∀ v ∈ F.values, ∀ k ∈ indicators, '\t' ∉ v k) (hsize : F.size ≤ u64Max) {fuel : ℕ}
    (hfuel : F.size ≤ fuel) (parent : Option ℕ) (st : ℕ × LogicalTree)
    (hparent : ∀ p ∈ parent, p < st.2.entries.length)
    (hlines : renderForest indicators F <+: lines.drop st.1) :
    Reads indicators parent F st ((parseOne lines indicators fuel parent)^[F.width] st) := by
  induction F generalizing fuel parent st with
  | nil =>
      refine ⟨rfl, rfl, ?_, fun w hw => Or.inl hw⟩
      rw [Forest.map, grow_nil]
      rfl
  | node v below after ihb iha =>
      obtain ⟨i, tree⟩ := st
      rw [Forest.size] at hsize hfuel
      obtain ⟨fuel, rfl⟩ : ∃ n, fuel = n + 1 := ⟨fuel - 1, by omega⟩
      rw [Forest.values, List.forall_mem_cons] at hfree
      obtain ⟨hv, hfree⟩ := hfree
      rw [List.forall_mem_append] at hfree
      rw [renderForest] at hlines
      obtain ⟨hcounts, hlines⟩ := getElem?_of_prefix_drop hlines
      obtain ⟨hvalues, hlines⟩ := getElem?_of_prefix_drop hlines
      obtain ⟨hbelow, hafter⟩ := prefix_drop_of_append hlines
      have hrow : (tabJoin (indicators.map v)).splitOn '\t' = indicators.map v :=
        splitOn_tabJoin (by simpa using hne) (by simpa using hv)
      have hwidth : (subCount (countsLine 0 below.width)).getD 0 = below.width := by
        rw [subCount_countsLine 0 (le_trans below.width_le (by omega))]
        rfl
      have hroot : Reads indicators parent (.node v below .nil) (i, tree)
          (parseOne lines indicators (fuel + 1) parent (i, tree)) := by
        rw [parseOne, hcounts, hvalues]
        simp only [hwidth]
        refine Reads.node hparent hrow (ihb hfree.1 (by omega) (by omega) _ _ ?_ hbelow)
        intro p hp
        obtain rfl := Option.some.inj hp
        simp [pushLogicalEntry]
      have hline : (parseOne lines indicators (fuel + 1) parent (i, tree)).1 =
          i + 1 + 1 + (renderForest indicators below).length := by
        rw [hroot.line, size_renderForest, Forest.size, Forest.size]
        ring
      rw [Forest.width, Function.iterate_succ_apply]
      refine hroot.append hparent (iha hfree.2 (by omega) (by omega) _ _ ?_ (hline ▸ hafter))
      intro p hp
      rw [hroot.length_entries]
      exact lt_of_lt_of_le (hparent p hp) (Nat.le_add_right _ _)

end Read

/-! ### The text -/

/-- A line that is found again as it stands. -/
def IsPlainLine (line : List Char) : Prop := '\n' ∉ line ∧ line.getLast? ≠ some '\r'

theorem trimEndReturns_of_plain {line : List Char} (h : IsPlainLine line) :
    trimEndReturns line = line := by
  refine List.rdropWhile_eq_self_iff.mpr fun hne => ?_
  have hlast := h.2
  rw [List.getLast?_eq_getLast_of_ne_nil hne] at hlast
  simpa using hlast

theorem not_mem_tabJoin {c : Char} (hc : c ≠ '\t') {fields : List (List Char)}
    (h : ∀ f ∈ fields, c ∉ f) : c ∉ tabJoin fields := by
  rw [tabJoin]
  induction fields with
  | nil => exact List.not_mem_nil
  | cons f fields ih =>
      obtain ⟨hf, hfields⟩ := List.forall_mem_cons.mp h
      cases fields with
      | nil => rwa [List.intercalate_singleton]
      | cons f' fields =>
          rw [List.intercalate_cons_cons, List.mem_append, List.mem_append, List.mem_singleton]
          rintro ((hmem | hmem) | hmem)
          · exact hf hmem
          · exact hc hmem
          · exact ih hfields hmem

theorem isPlainLine_countsLine (a b : ℕ) : IsPlainLine (countsLine a b) := by
  have hnot : ∀ {c : Char}, c.isDigit = false → c ≠ '\t' → c ∉ countsLine a b := by
    intro c hdigit htab hmem
    rcases List.mem_append.mp hmem with hmem | hmem
    · exact not_mem_toDigits hdigit hmem
    · rcases List.mem_cons.mp hmem with rfl | hmem
      · exact htab rfl
      · exact not_mem_toDigits hdigit hmem
  refine ⟨hnot (by decide) (by decide), fun hlast => ?_⟩
  exact hnot (by decide) (by decide) (List.mem_of_getLast? hlast)

/-- A row of empty values. -/
theorem isPlainLine_blank (indicators : List (List Char)) :
    IsPlainLine (tabJoin (indicators.map fun _ => [])) := by
  have hnot : ∀ {c : Char}, c ≠ '\t' → c ∉ tabJoin (indicators.map fun _ => []) := fun hc =>
    not_mem_tabJoin hc fun f hf => by
      obtain ⟨-, -, rfl⟩ := List.mem_map.mp hf
      exact List.not_mem_nil
  exact ⟨hnot (by decide), fun hlast => hnot (by decide) (List.mem_of_getLast? hlast)⟩

theorem mem_renderForest {indicators : List (List Char)} {F : Forest (List Char → List Char)}
    {line : List Char} (h : line ∈ renderForest indicators F) :
    (∃ a b, line = countsLine a b) ∨ ∃ v ∈ F.values, line = tabJoin (indicators.map v) := by
  induction F with
  | nil => cases h
  | node v below after ihb iha =>
      rw [renderForest, List.mem_cons, List.mem_cons, List.mem_append] at h
      rcases h with rfl | rfl | h | h
      · exact Or.inl ⟨0, below.width, rfl⟩
      · exact Or.inr ⟨v, List.mem_cons_self .., rfl⟩
      · rcases ihb h with hcounts | ⟨u, hu, hline⟩
        · exact Or.inl hcounts
        · exact Or.inr ⟨u, List.mem_cons_of_mem _ (List.mem_append_left _ hu), hline⟩
      · rcases iha h with hcounts | ⟨u, hu, hline⟩
        · exact Or.inl hcounts
        · exact Or.inr ⟨u, List.mem_cons_of_mem _ (List.mem_append_right _ hu), hline⟩

namespace EntryCategory

variable (t : EntryCategory)

/-- The text of a category. -/
def text : List Char := categoryText t.before t.indicators t.forest t.after

theorem isPlainLine_row {v : List Char → List Char} (hv : v ∈ t.forest.values) :
    IsPlainLine (tabJoin (t.indicators.map v)) := by
  refine ⟨not_mem_tabJoin (by decide) fun f hf => ?_, t.values_end v hv⟩
  obtain ⟨k, hk, rfl⟩ := List.mem_map.mp hf
  exact (t.values_free v hv k hk).2

theorem isPlainLine_category : ∀ line ∈ renderCategory t.indicators t.forest, IsPlainLine line := by
  intro line hline
  simp only [renderCategory, List.mem_cons] at hline
  rcases hline with rfl | rfl | rfl | rfl | rfl | hline
  · exact ⟨by decide, by decide⟩
  · exact isPlainLine_countsLine _ _
  · exact ⟨not_mem_tabJoin (by decide) fun k hk => (t.indicators_free k hk).2, t.names_end⟩
  · exact isPlainLine_countsLine _ _
  · exact isPlainLine_blank _
  · rcases mem_renderForest hline with ⟨a, b, rfl⟩ | ⟨v, hv, rfl⟩
    · exact isPlainLine_countsLine a b
    · exact t.isPlainLine_row hv

/-- **The lines of the text** are those of the category, after some that are not its first. -/
theorem ltreeLines_text : ltreeLines t.text = t.before.map trimEndReturns ++
    (renderCategory t.indicators t.forest ++ t.after.map trimEndReturns) := by
  have hfree : ∀ line ∈ t.before ++ (renderCategory t.indicators t.forest ++ t.after),
      '\n' ∉ line := by
    intro line hline
    rw [List.mem_append, List.mem_append] at hline
    rcases hline with hline | hline | hline
    · exact (t.before_lines line hline).1
    · exact (t.isPlainLine_category line hline).1
    · exact t.after_lines line hline
  have hplain : (renderCategory t.indicators t.forest).map trimEndReturns =
      renderCategory t.indicators t.forest :=
    (List.map_congr_left fun line hline =>
      trimEndReturns_of_plain (t.isPlainLine_category line hline)).trans (List.map_id _)
  rw [ltreeLines, text, categoryText, List.splitOn_intercalate '\n' hfree
    (by simp [renderCategory]),
    List.map_append, List.map_append, hplain]

/-- The category is found where it stands. -/
theorem idxOf?_entryLine : (ltreeLines t.text).idxOf? entryLine = some t.before.length := by
  have hbefore : (t.before.map trimEndReturns).findIdx? (· == entryLine) = none := by
    rw [List.findIdx?_eq_none_iff]
    intro line hline
    obtain ⟨l, hl, rfl⟩ := List.mem_map.mp hline
    exact beq_false_of_ne (t.before_lines l hl).2
  rw [ltreeLines_text, List.idxOf?, List.findIdx?_append, hbefore, renderCategory,
    List.cons_append, List.findIdx?_cons]
  simp

/-- A line of the category. -/
theorem getElem?_ltreeLines (j : ℕ) : (ltreeLines t.text)[t.before.length + j]? =
    (renderCategory t.indicators t.forest ++ t.after.map trimEndReturns)[j]? := by
  rw [ltreeLines_text, List.getElem?_append_right (by simp), List.length_map,
    Nat.add_sub_cancel_left]

end EntryCategory

/-- One entry without any field. -/
def bareForest : Forest (List Char → List Char) := .node (fun _ => []) .nil .nil

/-- The category of one bare entry is not read back under these names. -/
def NotReadBack (indicators : List (List Char)) : Prop :=
  ∀ tree, parseEntryTree (categoryText [] indicators bareForest []) = .ok tree →
    ¬ RoundTrips indicators bareForest tree

end EwfForensic

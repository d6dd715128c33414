import EwfForensic.Core.LogicalRoundTrip
import EwfForensic.Image.PlacedV2

/-!
# The Text of a v2 Section

The text of `device_info` and `case_data` sections as a writer puts it down: lines, of which the
third names the tab-separated values of the fourth.

* `SectionText` — such a text; `SectionText.ewf2Fields_eq` says that its fields are read back.
* `SectionText.declares` — the geometry that is read from a text which names it.
-/

namespace EwfForensic.Image

open Octets

/-! ### Text -/

/-- A character is decoded from its code units, whatever units follow. -/
theorem decodeUtf16_append (c : Char) (us : List ℕ) :
    decodeUtf16 (utf16Char c ++ us) = c :: decodeUtf16 us := by
  have hc := toNat_cases c
  have hchar : Char.ofNat c.toNat = c := Char.ofNat_toNat c
  rw [utf16Char]
  split_ifs with hbmp
  · have hno : ¬ (0xD800 ≤ c.toNat ∧ c.toNat < 0xE000) := by omega
    have hhigh : ¬ (0xD800 ≤ c.toNat ∧ c.toNat < 0xDC00) := by omega
    have hlow : ¬ (0xDC00 ≤ c.toNat ∧ c.toNat < 0xE000) := by omega
    rw [List.singleton_append]
    cases us with
    | nil => simp only [decodeUtf16, if_neg hno, hchar]
    | cons u us => rw [decodeUtf16, if_neg hhigh, if_neg hlow, hchar]
  · have hhigh : 0xD800 ≤ 0xD800 + (c.toNat - 0x10000) / 0x400 ∧
        0xD800 + (c.toNat - 0x10000) / 0x400 < 0xDC00 := by omega
    have hlow : 0xDC00 ≤ 0xDC00 + (c.toNat - 0x10000) % 0x400 ∧
        0xDC00 + (c.toNat - 0x10000) % 0x400 < 0xE000 := by omega
    have hvalue : 0x10000 + (0xD800 + (c.toNat - 0x10000) / 0x400 - 0xD800) * 0x400 +
        (0xDC00 + (c.toNat - 0x10000) % 0x400 - 0xDC00) = c.toNat := by omega
    rw [List.cons_append, List.singleton_append, decodeUtf16, if_pos hhigh, if_pos hlow, hvalue,
      hchar]

/-- **A text is decoded** from its code units. -/
theorem decodeUtf16_text (text : List Char) : decodeUtf16 (text.flatMap utf16Char) = text := by
  induction text with
  | nil => rfl
  | cons c text ih => rw [List.flatMap_cons, decodeUtf16_append, ih]

theorem decodeUtf16_utf16Text (text : List Char) :
    decodeUtf16 (utf16Units (utf16Text text)) = text := by
  rw [utf16Text, utf16Units_flatMap, decodeUtf16_text]
  intro u hu
  obtain ⟨c, -, hc⟩ := List.mem_flatMap.mp hu
  exact utf16Char_lt hc

/-- A text that is not empty takes two bytes or more. -/
theorem two_le_length_utf16Text {text : List Char} (h : text ≠ []) :
    2 ≤ (utf16Text text).length := by
  obtain ⟨c, text, rfl⟩ := List.exists_cons_of_ne_nil h
  have hunit : ∃ u us, utf16Char c = u :: us := by
    rw [utf16Char]
    split_ifs <;> exact ⟨_, _, rfl⟩
  obtain ⟨u, us, hu⟩ := hunit
  rw [utf16Text, List.flatMap_cons, hu, List.cons_append, List.flatMap_cons, List.length_append,
    length_toLE]
  omega

/-! ### Sections -/

/-- A line is plain: it has no tab and no end of line in it. -/
def PlainField (field : List Char) : Prop := '\t' ∉ field ∧ '\n' ∉ field ∧ '\r' ∉ field

instance (field : List Char) : Decidable (PlainField field) :=
  inferInstanceAs (Decidable ('\t' ∉ field ∧ '\n' ∉ field ∧ '\r' ∉ field))

/-- The text of a section: two lines, the names and the values of its fields, and more lines. -/
structure SectionText where
  version : List Char
  name : List Char
  fields : List (List Char × List Char)
  rest : List (List Char)
  fields_ne : fields ≠ []
  rest_ne : rest ≠ []
  plain : ∀ f ∈ fields, PlainField f.1 ∧ PlainField f.2
  lines_free : ∀ line ∈ version :: name :: rest, '\n' ∉ line

namespace SectionText

variable (t : SectionText)

def lines : List (List Char) :=
  t.version :: t.name :: tabJoin (t.fields.map Prod.fst) :: tabJoin (t.fields.map Prod.snd) ::
    t.rest

def text : List Char := ['\n'].intercalate t.lines

/-- A row of plain fields has no end of line in it. -/
theorem not_mem_row {c : Char} (hc : c = '\n' ∨ c = '\r') {fields : List (List Char)}
    (h : ∀ f ∈ fields, PlainField f) : c ∉ tabJoin fields := by
  refine not_mem_tabJoin ?_ fun f hf => ?_
  · rcases hc with rfl | rfl <;> decide
  · rcases hc with rfl | rfl
    · exact (h f hf).2.1
    · exact (h f hf).2.2

/-- The names and the values are plain. -/
theorem plain_names : ∀ f ∈ t.fields.map Prod.fst, PlainField f := by
  intro f hf
  obtain ⟨p, hp, rfl⟩ := List.mem_map.mp hf
  exact (t.plain p hp).1

@[inherit_doc plain_names]
theorem plain_values : ∀ f ∈ t.fields.map Prod.snd, PlainField f := by
  intro f hf
  obtain ⟨p, hp, rfl⟩ := List.mem_map.mp hf
  exact (t.plain p hp).2

theorem splitOn_text : t.text.splitOn '\n' = t.lines := by
  refine List.splitOn_intercalate '\n' (fun line hline => ?_) (List.cons_ne_nil _ _)
  simp only [lines, List.mem_cons] at hline
  rcases hline with rfl | rfl | rfl | rfl | hline
  · exact t.lines_free _ (List.mem_cons_self ..)
  · exact t.lines_free _ (List.mem_cons_of_mem _ (List.mem_cons_self ..))
  · exact not_mem_row (.inl rfl) t.plain_names
  · exact not_mem_row (.inl rfl) t.plain_values
  · exact t.lines_free _ (List.mem_cons_of_mem _ (List.mem_cons_of_mem _ hline))

theorem text_ne : t.text ≠ [] := by
  intro h
  have hsplit := t.splitOn_text
  rw [h] at hsplit
  have hlen := congrArg List.length hsplit
  simp [lines] at hlen

/-- A row of plain fields has no carriage return to strip. -/
theorem stripCarriageReturn_row {fields : List (List Char)} (h : ∀ f ∈ fields, PlainField f) :
    stripCarriageReturn (tabJoin fields) = tabJoin fields := by
  refine if_neg fun hlast => ?_
  exact not_mem_row (.inr rfl) h (List.mem_of_getLast? hlast)

/-- **The fields of a section are read back.** -/
theorem ewf2Fields_eq : ewf2Fields (utf16Text t.text) = some t.fields := by
  obtain ⟨r, rs, hrest⟩ := List.exists_cons_of_ne_nil t.rest_ne
  have hlines : textLines t.text = stripCarriageReturn t.version :: stripCarriageReturn t.name ::
      tabJoin (t.fields.map Prod.fst) :: tabJoin (t.fields.map Prod.snd) ::
        ((r :: rs).dropLast.map stripCarriageReturn ++
          ((r :: rs).getLast?.filter (· ≠ [])).toList) := by
    rw [textLines, t.splitOn_text, lines, hrest]
    simp only [List.dropLast_cons_cons, List.map_cons, List.cons_append,
      stripCarriageReturn_row t.plain_names, stripCarriageReturn_row t.plain_values,
      List.getLast?_cons_cons]
  have htabs : ∀ {fields : List (List Char)}, (∀ f ∈ fields, PlainField f) →
      ∀ f ∈ fields, '\t' ∉ f := fun h f hf => (h f hf).1
  have hnames := splitOn_tabJoin (by simpa using t.fields_ne) (htabs t.plain_names)
  have hvalues := splitOn_tabJoin (by simpa using t.fields_ne) (htabs t.plain_values)
  have hlong := two_le_length_utf16Text t.text_ne
  rw [ewf2Fields, if_neg (by omega), decodeUtf16_utf16Text]
  simp only [hlines, List.length_cons, List.getD_cons_succ, List.getD_cons_zero]
  rw [if_neg (by omega), hnames, hvalues, List.zip_map']
  simp

/-! ### Geometry -/

section Geometry

variable {key : List Char} {get : Ewf2Geometry → ℕ}

/-- Fields of other names leave a number of the geometry alone. -/
theorem foldl_setField_of_notMem {fields : List (List Char × List Char)} (g : Ewf2Geometry)
    (hset : ∀ g p, p.1 ≠ key → get (Ewf2Geometry.setField g p) = get g)
    (h : key ∉ fields.map Prod.fst) : get (fields.foldl Ewf2Geometry.setField g) = get g := by
  induction fields generalizing g with
  | nil => rfl
  | cons p fields ih =>
      rw [List.map_cons, List.mem_cons, not_or] at h
      rw [List.foldl_cons, ih _ h.2, hset _ _ (Ne.symm h.1)]

/-- **The field of a name sets its number**, if no other field has that name. -/
theorem foldl_setField_of_mem {fields : List (List Char × List Char)} (g : Ewf2Geometry) {n : ℕ}
    (hset : ∀ g p, p.1 ≠ key → get (Ewf2Geometry.setField g p) = get g)
    (hkey : ∀ g, get (Ewf2Geometry.setField g (key, Nat.toDigits 10 n)) = n)
    (hnodup : (fields.map Prod.fst).Nodup) (h : (key, Nat.toDigits 10 n) ∈ fields) :
    get (fields.foldl Ewf2Geometry.setField g) = n := by
  induction fields generalizing g with
  | nil => cases h
  | cons p fields ih =>
      obtain ⟨hfirst, hrest⟩ := List.nodup_cons.mp hnodup
      rw [List.foldl_cons]
      rcases List.mem_cons.mp h with rfl | hmem
      · rw [foldl_setField_of_notMem _ hset hfirst, hkey]
      · exact ih _ hrest hmem

end Geometry

/-- A text declares a geometry: its numbers stand under their names, and no name comes twice. -/
structure Declares (g : Ewf2Geometry) : Prop where
  nodup : (t.fields.map Prod.fst).Nodup
  bytesPerSector : (['b'], Nat.toDigits 10 g.bytesPerSector) ∈ t.fields
  sectorsPerChunk : (['s', 'c'], Nat.toDigits 10 g.sectorsPerChunk) ∈ t.fields
  totalSectors : (['t', 's'], Nat.toDigits 10 g.totalSectors) ∈ t.fields
  fits : g.bytesPerSector ≤ u64Max ∧ g.sectorsPerChunk ≤ u64Max ∧ g.totalSectors ≤ u64Max

variable {t}

/-- **The geometry that a text declares is read back.** -/
theorem Declares.ewf2Geometry_eq {g : Ewf2Geometry} (h : t.Declares g) :
    ewf2Geometry (utf16Text t.text) = some g := by
  obtain ⟨hb, hsc, hts⟩ := h.fits
  rw [ewf2Geometry, t.ewf2Fields_eq, Option.map_some, Option.some.injEq]
  have hbytes : (t.fields.foldl Ewf2Geometry.setField {}).bytesPerSector = g.bytesPerSector := by
    refine @foldl_setField_of_mem ['b'] Ewf2Geometry.bytesPerSector _ _ _ (fun g p hp => ?_)
      (fun g => ?_) h.nodup h.bytesPerSector
    · rw [Ewf2Geometry.setField]
      split
      · rfl
      · rw [if_neg hp]
        split_ifs <;> rfl
    · rw [Ewf2Geometry.setField, parseU64_toDigits hb]
      rfl
  have hsectors : (t.fields.foldl Ewf2Geometry.setField {}).sectorsPerChunk =
      g.sectorsPerChunk := by
    refine @foldl_setField_of_mem ['s', 'c'] Ewf2Geometry.sectorsPerChunk _ _ _ (fun g p hp => ?_)
      (fun g => ?_) h.nodup h.sectorsPerChunk
    · rw [Ewf2Geometry.setField]
      split
      · rfl
      · rw [if_neg hp]
        split_ifs <;> rfl
    · rw [Ewf2Geometry.setField, parseU64_toDigits hsc]
      rfl
  have htotal : (t.fields.foldl Ewf2Geometry.setField {}).totalSectors = g.totalSectors := by
    refine @foldl_setField_of_mem ['t', 's'] Ewf2Geometry.totalSectors _ _ _ (fun g p hp => ?_)
      (fun g => ?_) h.nodup h.totalSectors
    · rw [Ewf2Geometry.setField]
      split
      · rfl
      · rw [if_neg hp]
        split_ifs <;> rfl
    · rw [Ewf2Geometry.setField, parseU64_toDigits hts]
      rfl
  cases hg : t.fields.foldl Ewf2Geometry.setField {} with
  | mk b sc ts =>
      rw [hg] at hbytes hsectors htotal
      cases g with
      | mk b' sc' ts' => exact congr (congr (congrArg _ hbytes) hsectors) htotal

end SectionText

end EwfForensic.Image

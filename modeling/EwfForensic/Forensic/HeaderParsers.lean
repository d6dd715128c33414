import EwfForensic.Core.Open
import EwfForensic.Forensic.HeaderMetadata

/-!
# Two Parsers of One Header Text

The reader and the analyser each parse the text of a `header` section: four lines, the third of
which names the tab-separated values of the fourth.

* `HeaderText` — a text of that form.
* `shared_parseHeaderText`, `Integrity.shared_parseHeaderText` — both find the same keys and
  values.
* `header_parsers_agree_iff` — the fields that both have agree exactly when the values under the
  keys `n`, `e` and `t` are the same: the two tables of keys differ there.
-/

namespace EwfForensic

/-! ### Header texts -/

/-- A line of text: some bytes, none of them a line feed, up to its line break. -/
structure IsLine (line : List UInt8) : Prop where
  ne_nil : line ≠ []
  no_feed : (10 : UInt8) ∉ line
  no_return : line.getLast? ≠ some 13

/-- A line break: a line feed, which a carriage return may precede. -/
def lineBreak (withReturn : Bool) : List UInt8 := if withReturn then [13, 10] else [10]

/-- A header text: a version line, a main line, a line of different keys and a line of values. The
line breaks may be of either kind, and that after the values may be missing. -/
structure HeaderText where
  version : List UInt8
  main : List UInt8
  keyLine : List UInt8
  valueLine : List UInt8
  afterVersion : Bool
  afterMain : Bool
  afterKeys : Bool
  afterValues : Option Bool
  version_line : IsLine version
  main_line : IsLine main
  key_line : IsLine keyLine
  value_line : IsLine valueLine
  keys_nodup : (keyLine.splitOn 9).Nodup

/-- The text. -/
def HeaderText.text (t : HeaderText) : List UInt8 :=
  t.version ++ lineBreak t.afterVersion ++ (t.main ++ lineBreak t.afterMain ++
    (t.keyLine ++ lineBreak t.afterKeys ++
      (t.valueLine ++ (t.afterValues.map lineBreak).getD [])))

/-- The keys. -/
def HeaderText.keys (t : HeaderText) : List (List UInt8) := t.keyLine.splitOn 9

/-- The values. -/
def HeaderText.values (t : HeaderText) : List (List UInt8) := t.valueLine.splitOn 9

/-- The value under a key; empty if there is no such key, or no value for it. -/
def HeaderText.valueOf (t : HeaderText) (key : List UInt8) : List UInt8 :=
  if key ∈ t.keys then t.values.getD (t.keys.idxOf key) [] else []

/-! ### Lines -/

theorem normalizeNewlines_cons {b : UInt8} {rest : List UInt8}
    (h : b = 13 → rest.head? ≠ some 10) :
    normalizeNewlines (b :: rest) = b :: normalizeNewlines rest := by
  rw [normalizeNewlines]
  rintro tail rfl rfl
  exact h rfl rfl

/-- A line goes through as it is. -/
theorem normalizeNewlines_append {line : List UInt8} (hfeed : (10 : UInt8) ∉ line)
    (hreturn : line.getLast? ≠ some 13) (rest : List UInt8) :
    normalizeNewlines (line ++ rest) = line ++ normalizeNewlines rest := by
  induction line with
  | nil => rfl
  | cons b line ih =>
      have hlast : line.getLast? ≠ some 13 := by
        cases line with
        | nil => simp
        | cons c line => rwa [List.getLast?_cons_cons] at hreturn
      rw [List.cons_append, normalizeNewlines_cons,
        ih (fun h => hfeed (List.mem_cons_of_mem _ h)) hlast]
      · rfl
      · rintro rfl h
        cases line with
        | nil => exact absurd rfl hreturn
        | cons c line =>
            obtain rfl : c = 10 := Option.some.inj h
            exact hfeed (by simp)

theorem normalizeNewlines_lineBreak (withReturn : Bool) (rest : List UInt8) :
    normalizeNewlines (lineBreak withReturn ++ rest) = 10 :: normalizeNewlines rest := by
  cases withReturn with
  | false => exact normalizeNewlines_cons fun h => absurd h (by decide)
  | true => rfl

/-- A line with its break, as the reader splits the text. -/
theorem splitOn_break {line : List UInt8} (h : IsLine line) (withReturn : Bool)
    (rest : List UInt8) :
    (normalizeNewlines (line ++ (lineBreak withReturn ++ rest))).splitOn 10 =
      line :: (normalizeNewlines rest).splitOn 10 := by
  rw [normalizeNewlines_append h.no_feed h.no_return, normalizeNewlines_lineBreak,
    List.splitOn_append_cons_self_of_not_mem h.no_feed]

/-- The last line, with or without a break. -/
theorem splitOn_last {line : List UInt8} (h : IsLine line) (after : Option Bool) :
    ∃ rest, (normalizeNewlines (line ++ (after.map lineBreak).getD [])).splitOn 10 =
      line :: rest := by
  cases after with
  | none =>
      refine ⟨[], ?_⟩
      rw [Option.map_none, Option.getD_none, normalizeNewlines_append h.no_feed h.no_return,
        normalizeNewlines, List.append_nil]
      exact List.splitOn_eq_singleton h.no_feed
  | some withReturn =>
      have hbreak := splitOn_break h withReturn []
      rw [List.append_nil] at hbreak
      exact ⟨_, hbreak⟩

/-- **The lines of a header text**, as the reader splits it. -/
theorem splitOn_text (t : HeaderText) : ∃ rest, (normalizeNewlines t.text).splitOn 10 =
    t.version :: t.main :: t.keyLine :: t.valueLine :: rest := by
  obtain ⟨rest, hrest⟩ := splitOn_last t.value_line t.afterValues
  refine ⟨rest, ?_⟩
  simp only [HeaderText.text, List.append_assoc]
  rw [splitOn_break t.version_line, splitOn_break t.main_line, splitOn_break t.key_line, hrest]

theorem trimEndMatches_line {line : List UInt8} (h : IsLine line) :
    Integrity.trimEndMatches 13 line = line := by
  refine List.rdropWhile_eq_self_iff.mpr fun hne => ?_
  have hlast := h.no_return
  rw [List.getLast?_eq_getLast_of_ne_nil hne] at hlast
  simpa using hlast

/-- The piece up to the line feed is the line, without the carriage return. -/
theorem lines_break {line : List UInt8} (h : IsLine line) (withReturn : Bool)
    (rest : List UInt8) : Integrity.lines (line ++ (lineBreak withReturn ++ rest)) =
      line :: Integrity.lines rest := by
  have hpiece : ∃ piece, line ++ (lineBreak withReturn ++ rest) = piece ++ 10 :: rest ∧
      (10 : UInt8) ∉ piece ∧
      (if piece.getLast? = some 13 then piece.dropLast else piece) = line := by
    cases withReturn with
    | false => exact ⟨line, rfl, h.no_feed, if_neg h.no_return⟩
    | true =>
        refine ⟨line ++ [13], by simp [lineBreak], ?_, ?_⟩
        · simpa using h.no_feed
        · rw [List.getLast?_append, List.getLast?_singleton, Option.some_or, if_pos rfl,
            List.dropLast_concat]
  obtain ⟨piece, hpiece, hfeed, hline⟩ := hpiece
  obtain ⟨first, pieces, hrest⟩ := List.exists_cons_of_ne_nil (List.splitOn_ne_nil 10 rest)
  rw [Integrity.lines, Integrity.lines, hpiece, List.splitOn_append_cons_self_of_not_mem hfeed,
    hrest,
    List.dropLast_cons_cons, List.map_cons, List.getLast?_cons_cons, hline]
  rfl

/-- A line with its break, as the analyser splits the text. -/
theorem headerLines_break {line : List UInt8} (h : IsLine line) (withReturn : Bool)
    (rest : List UInt8) : Integrity.headerLines (line ++ (lineBreak withReturn ++ rest)) =
      line :: Integrity.headerLines rest := by
  rw [Integrity.headerLines, lines_break h, List.map_cons, trimEndMatches_line h,
    List.filter_cons_of_pos (by simpa using h.ne_nil)]
  rfl

theorem headerLines_line {line : List UInt8} (h : IsLine line) :
    Integrity.headerLines line = [line] := by
  have hlines : Integrity.lines line = [line] := by
    rw [Integrity.lines, List.splitOn_eq_singleton h.no_feed]
    simp [h.ne_nil]
  rw [Integrity.headerLines, hlines, List.map_singleton, trimEndMatches_line h]
  simp [h.ne_nil]

/-- **The lines of a header text**, as the analyser splits it. -/
theorem headerLines_text (t : HeaderText) :
    Integrity.headerLines t.text = [t.version, t.main, t.keyLine, t.valueLine] := by
  have hlast : Integrity.headerLines (t.valueLine ++ (t.afterValues.map lineBreak).getD []) =
      [t.valueLine] := by
    cases t.afterValues with
    | none =>
        rw [Option.map_none, Option.getD_none, List.append_nil]
        exact headerLines_line t.value_line
    | some withReturn =>
        have hbreak := headerLines_break t.value_line withReturn []
        rw [List.append_nil] at hbreak
        exact hbreak
  simp only [HeaderText.text, List.append_assoc]
  rw [headerLines_break t.version_line, headerLines_break t.main_line,
    headerLines_break t.key_line, hlast]

/-! ### Fields -/

/-- The fields that both parsers have. -/
inductive SharedField where
  | caseNumber
  | evidenceNumber
  | description
  | examiner
  | acquiryDate
  | systemDate
  deriving DecidableEq

/-- The key under which the reader looks for a field. -/
def SharedField.readerKey : SharedField → List UInt8
  | .caseNumber => [99]
  | .evidenceNumber => [110]
  | .description => [97]
  | .examiner => [101]
  | .acquiryDate => [109]
  | .systemDate => [117]

/-- The key under which the analyser looks for it. -/
def SharedField.analyserKey : SharedField → List UInt8
  | .caseNumber => [99]
  | .evidenceNumber => [101]
  | .description => [97]
  | .examiner => [116]
  | .acquiryDate => [109]
  | .systemDate => [117]

/-- A field in the reader's metadata; a field that is not set is empty. -/
def EwfMetadata.shared (m : EwfMetadata) : SharedField → List UInt8
  | .caseNumber => m.caseNumber.getD []
  | .evidenceNumber => m.evidenceNumber.getD []
  | .description => m.description.getD []
  | .examiner => m.examiner.getD []
  | .acquiryDate => m.acquiryDate.getD []
  | .systemDate => m.systemDate.getD []

/-- A field in the analyser's metadata. -/
def Integrity.EwfHeaderMetadata.shared (m : Integrity.EwfHeaderMetadata) : SharedField → List UInt8
  | .caseNumber => m.caseNumber
  | .evidenceNumber => m.evidenceNumber
  | .description => m.description
  | .examiner => m.examinerName
  | .acquiryDate => m.acquisitionDate
  | .systemDate => m.systemDate

theorem EwfMetadata.shared_setField (m : EwfMetadata) (code val : List UInt8) (f : SharedField) :
    (m.setField code val).shared f = if code = f.readerKey then val else m.shared f := by
  by_cases hknown : code ∈ [[99], [110], [97], [101], [116], [97, 118], [111, 118], [109], [117]]
  · simp only [List.mem_cons, List.not_mem_nil, or_false] at hknown
    rcases hknown with rfl | rfl | rfl | rfl | rfl | rfl | rfl | rfl | rfl <;> cases f <;> rfl
  · simp only [List.mem_cons, List.not_mem_nil, or_false, not_or] at hknown
    obtain ⟨hc, hn, ha, he, ht, hav, hov, hm, hu⟩ := hknown
    rw [EwfMetadata.setField, if_neg hc, if_neg hn, if_neg ha, if_neg he, if_neg ht, if_neg hav,
      if_neg hov, if_neg hm, if_neg hu, if_neg]
    cases f <;> assumption

theorem Integrity.EwfHeaderMetadata.shared_store (m : Integrity.EwfHeaderMetadata)
    (key val : List UInt8) (f : SharedField) :
    (m.store key val).shared f = if key = f.analyserKey then val else m.shared f := by
  by_cases hknown : key ∈ [[97], [99], [101], [116], [109], [117], [112], [114]]
  · simp only [List.mem_cons, List.not_mem_nil, or_false] at hknown
    rcases hknown with rfl | rfl | rfl | rfl | rfl | rfl | rfl | rfl <;> cases f <;> rfl
  · simp only [List.mem_cons, List.not_mem_nil, or_false, not_or] at hknown
    obtain ⟨ha, hc, he, ht, hm, hu, hp, hr⟩ := hknown
    rw [Integrity.EwfHeaderMetadata.store, if_neg ha, if_neg hc, if_neg he, if_neg ht, if_neg hm,
      if_neg hu, if_neg hp, if_neg hr, if_neg]
    cases f <;> assumption

/-! ### Tables -/

section Table

variable {M : Type} {step : M → List UInt8 × ℕ → M} {get : M → List UInt8} {key : List UInt8}
  {val : ℕ → List UInt8}

/-- A field whose key is not among the keys is left alone. -/
theorem get_foldl_of_not_mem (hother : ∀ m p, p.1 ≠ key → get (step m p) = get m)
    {keys : List (List UInt8)} (hkey : key ∉ keys) (i : ℕ) (m : M) :
    get ((keys.zipIdx i).foldl step m) = get m := by
  induction keys generalizing i m with
  | nil => rfl
  | cons k keys ih =>
      rw [List.zipIdx_cons, List.foldl_cons, ih (fun h => hkey (List.mem_cons_of_mem _ h))]
      exact hother m (k, i) fun h => hkey (h ▸ List.mem_cons_self ..)

/-- **A field ends with the value at its key's place**, as the keys are different. -/
theorem get_foldl (hother : ∀ m p, p.1 ≠ key → get (step m p) = get m)
    (hself : ∀ m i, get m = [] → get (step m (key, i)) = val i) {keys : List (List UInt8)}
    (hnodup : keys.Nodup) (i : ℕ) {m : M} (hm : get m = []) :
    get ((keys.zipIdx i).foldl step m) =
      if key ∈ keys then val (i + keys.idxOf key) else [] := by
  induction keys generalizing i m with
  | nil => exact hm
  | cons k keys ih =>
      obtain ⟨hk, hrest⟩ := List.nodup_cons.mp hnodup
      rw [List.zipIdx_cons, List.foldl_cons]
      by_cases he : k = key
      · subst he
        rw [get_foldl_of_not_mem hother hk, hself m i hm, if_pos (List.mem_cons_self ..),
          List.idxOf_cons_self]
        rfl
      · have hkm : get (step m (k, i)) = [] := (hother m (k, i) he).trans hm
        rw [ih hrest (i + 1) hkm, List.idxOf_cons_ne _ he]
        refine if_congr ?_ (congrArg val (by omega)) rfl
        rw [List.mem_cons, or_iff_right (Ne.symm he)]

end Table

/-- **The reader's fields**: the values under its keys. -/
theorem shared_parseHeaderText (t : HeaderText) (f : SharedField) :
    (parseHeaderText t.text {}).shared f = t.valueOf f.readerKey := by
  obtain ⟨rest, hlines⟩ := splitOn_text t
  rw [parseHeaderText, hlines, if_neg (by simp), HeaderText.valueOf]
  have hfold := @get_foldl EwfMetadata
    (fun m p => let val := t.values.getD p.2 []
      if val.isEmpty then m else m.setField p.1 val)
    (fun m => m.shared f) f.readerKey (fun i => t.values.getD i []) ?_ ?_ t.keys t.keys_nodup 0
    {} ?_
  · rw [Nat.zero_add] at hfold
    exact hfold
  · intro m p hp
    simp only
    split_ifs
    · rfl
    · rw [EwfMetadata.shared_setField, if_neg hp]
  · intro m i hm
    simp only
    split_ifs with hempty
    · rw [hm, List.isEmpty_iff.mp hempty]
    · rw [EwfMetadata.shared_setField, if_pos rfl]
  · cases f <;> rfl

/-- **The analyser's fields**: the values under its keys. -/
theorem Integrity.shared_parseHeaderText (t : HeaderText) :
    ∃ m, Integrity.parseHeaderText t.text = some m ∧
      ∀ f, m.shared f = t.valueOf f.analyserKey := by
  refine ⟨Integrity.metadataOf t.keyLine t.valueLine, ?_, fun f => ?_⟩
  · rw [Integrity.parseHeaderText, headerLines_text]
    rfl
  · rw [Integrity.metadataOf, HeaderText.valueOf]
    have hfold := @get_foldl Integrity.EwfHeaderMetadata
      (fun m p => m.store p.1 (t.values[p.2]?.getD []))
      (fun m => m.shared f) f.analyserKey (fun i => t.values[i]?.getD []) ?_ ?_ t.keys
      t.keys_nodup 0 {} ?_
    · rw [Nat.zero_add] at hfold
      rw [List.getD_eq_getElem?_getD]
      exact hfold
    · intro m p hp
      rw [Integrity.EwfHeaderMetadata.shared_store, if_neg hp]
    · intro m i hm
      rw [Integrity.EwfHeaderMetadata.shared_store, if_pos rfl]
    · cases f <;> rfl

/-! ### When the parsers agree -/

/-- Both parsers return the same fields, where a field that is not set is empty. -/
def ParsersAgree (text : List UInt8) : Prop :=
  ∃ m, Integrity.parseHeaderText text = some m ∧
    ∀ f : SharedField, (parseHeaderText text {}).shared f = m.shared f

/-- **The two parsers of a header text agree** if and only if it has the same value under the keys
`n`, `e` and `t`: the reader takes the evidence number from `n` and the examiner from `e`, the
analyser from `e` and `t`. -/
theorem header_parsers_agree_iff (t : HeaderText) :
    ParsersAgree t.text ↔
      t.valueOf [110] = t.valueOf [101] ∧ t.valueOf [101] = t.valueOf [116] := by
  obtain ⟨m, hm, hfields⟩ := Integrity.shared_parseHeaderText t
  constructor
  · rintro ⟨m', hm', hagree⟩
    obtain rfl : m = m' := Option.some.inj (hm.symm.trans hm')
    have hevidence := hagree .evidenceNumber
    have hexaminer := hagree .examiner
    rw [shared_parseHeaderText, hfields] at hevidence hexaminer
    exact ⟨hevidence, hexaminer⟩
  · rintro ⟨hevidence, hexaminer⟩
    refine ⟨m, hm, fun f => ?_⟩
    rw [shared_parseHeaderText, hfields]
    cases f with
    | caseNumber => rfl
    | evidenceNumber => exact hevidence
    | description => rfl
    | examiner => exact hexaminer
    | acquiryDate => rfl
    | systemDate => rfl

/-- The keys `c`, `n` and `e`, with the values `1`, `2` and `X`. -/
def swappedKeysText : HeaderText where
  version := [49]
  main := [109, 97, 105, 110]
  keyLine := [99, 9, 110, 9, 101]
  valueLine := [49, 9, 50, 9, 88]
  afterVersion := true
  afterMain := true
  afterKeys := true
  afterValues := some true
  version_line := ⟨by decide, by decide, by decide⟩
  main_line := ⟨by decide, by decide, by decide⟩
  key_line := ⟨by decide, by decide, by decide⟩
  value_line := ⟨by decide, by decide, by decide⟩
  keys_nodup := by decide

/-- The reader finds the evidence number `2` and the examiner `X`, the analyser the evidence number
`X` and no examiner. -/
theorem swappedKeysText_disagree : ¬ ParsersAgree swappedKeysText.text := by
  rintro ⟨m, hm, hagree⟩
  have hval : (Integrity.parseHeaderText swappedKeysText.text).map (fun m =>
      m.shared .evidenceNumber) = some [88] := by
    decide +kernel
  have hreader : (parseHeaderText swappedKeysText.text {}).shared .evidenceNumber = [50] := by
    decide +kernel
  rw [hm] at hval
  have hanalyser : m.shared .evidenceNumber = [88] := Option.some.inj hval
  have hevidence := hagree .evidenceNumber
  rw [hreader, hanalyser] at hevidence
  exact absurd hevidence (by decide)

end EwfForensic

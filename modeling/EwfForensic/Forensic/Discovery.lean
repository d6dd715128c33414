import EwfForensic.Core.SegmentNames

/-!
# Discovery of Segment Files

The two functions `discover_segments` of the forensic crate, in `integrity_path.rs` and in
`recover.rs`. Both go on with decimal numbers behind 99, where the numbering of `segment_ext` goes
on with letters.

* `IntegrityPath.discoverSegments`, `Recover.discoverSegments` — the functions, from the name of a
  file in a directory with some files.
* `decimalName` — the names that both look for.
* `takeWhile_decimalName_iff` — these are the names of the set up to 99.
* `discovery_iff` — both find the whole set if it has a gap up to 99 or ends there.
-/

namespace EwfForensic

/-! ### The functions -/

/-- `u8::is_ascii_digit`. -/
def isAsciiDigit (b : UInt8) : Bool := 48 ≤ b ∧ b ≤ 57

/-- `u8::is_ascii_uppercase`. -/
def isAsciiUppercase (b : UInt8) : Bool := 65 ≤ b ∧ b ≤ 90

/-- `u8::to_ascii_lowercase`. -/
def toAsciiLowercase (b : UInt8) : UInt8 := if isAsciiUppercase b then b + 32 else b

/-- `char::is_ascii_alphabetic`. -/
def isAsciiAlphabetic (b : UInt8) : Bool := isAsciiUppercase b ∨ (97 ≤ b ∧ b ≤ 122)

/-- `parse_ewf_extension`: the prefix, whether an x follows, and how many digits. A character that
is
not ASCII is no letter and no digit here, and neither are its bytes. -/
def parseEwfExtension : List UInt8 → Option (UInt8 × Bool × ℕ)
  | [] => none
  | letter :: rest =>
    if ¬ isAsciiAlphabetic letter then none
    else
      let isX (b : UInt8) : Bool := b = 120 ∨ b = 88
      let hasX := rest.head?.any isX
      let rest := rest.dropWhile isX
      if rest.all isAsciiDigit ∧ rest ≠ [] then some (letter, hasX, rest.length) else none

/-- `make_ewf_extension`. -/
def makeEwfExtension (letter : UInt8) (hasX : Bool) (digitCount n : ℕ) : List UInt8 :=
  letter :: (if hasX then [120] else []) ++ asciiBytes (zeroPadded (max digitCount 2) n)

/-- `discover_segments` of `integrity_path.rs`. -/
def IntegrityPath.discoverSegments (files : List FileName) (base : FileName) : List FileName :=
  match splitExtension base with
  | (_, none) => [base]
  | (stem, some ext) =>
    match (Utf8.toStr ext).bind parseEwfExtension with
    | none => [base]
    | some (letter, hasX, digits) =>
      match Utf8.toStr stem with
      | none => [base]
      | some stem =>
        let candidate (n : ℕ) := joinExtension stem (makeEwfExtension letter hasX digits n)
        let segments := ((List.range' 1 999).map candidate).takeWhile (· ∈ files)
        if segments.isEmpty then [base] else segments

/-- `discover_segments` of `recover.rs`. Its counter is a `u32` and stays at the last, so that the
loop never ends if no name is missing: then there is no result. -/
def Recover.discoverSegments (files : List FileName) (base : FileName) : Option (List FileName) :=
  match splitExtension base with
  | (_, none) => some [base]
  | (stem, some ext) =>
    match Utf8.toStr ext with
    | none => some [base]
    | some ext =>
      let lower := ext.map toAsciiLowercase
      if lower.length ≠ 3 ∨ lower.head? ≠ some 101 ∨ ¬ lower.tail.all isAsciiDigit then some [base]
      else
        let upper := ext.head?.any isAsciiUppercase
        let candidate (n : ℕ) :=
          joinExtension stem ((if upper then 69 else 101) :: asciiBytes (zeroPadded 2 n))
        let candidates := (List.range' 2 4294967294).map candidate
        if candidates.all (· ∈ files) then none
        else some (base :: candidates.takeWhile (· ∈ files))

/-! ### Decimal names -/

/-- The name that both look for as segment `n`. -/
def decimalName (stem : FileName) (n : ℕ) : FileName :=
  joinExtension stem (asciiBytes ('E' :: zeroPadded 2 n))

section Names

variable {files : List FileName} {stem : FileName}

/-- Up to 99 the decimal names are those of the set. -/
theorem decimalName_eq {n : ℕ} (hpos : 1 ≤ n) (hle : n ≤ 99) :
    decimalName stem n = segmentName 'E' true stem n := by
  have hext : segmentExt 'E' n = some ('E' :: zeroPadded 2 n) := by
    rw [segmentExt, if_neg (Nat.ne_of_gt hpos), if_pos hle]
  rw [decimalName, segmentName, setExt, hext]
  rfl

/-- Behind 99 the names part: a set that goes on there has another one next. -/
theorem takeWhile_decimalName_iff (N : ℕ) :
    ((List.range' 2 (N + 99)).map (decimalName stem)).takeWhile (· ∈ files) =
        ((List.range' 2 774).map (segmentName 'E' true stem)).takeWhile (· ∈ files) ↔
      (∃ n ∈ List.range' 2 98, segmentName 'E' true stem n ∉ files) ∨
        (segmentName 'E' true stem 100 ∉ files ∧ decimalName stem 100 ∉ files) := by
  have hfront : (List.range' 2 98).map (decimalName stem) =
      (List.range' 2 98).map (segmentName 'E' true stem) := by
    refine List.map_congr_left fun n hn => ?_
    rw [List.mem_range'_1] at hn
    exact decimalName_eq (by omega) (by omega)
  have hsplit : ∀ k, List.range' 2 (k + 99) = List.range' 2 98 ++ 100 :: List.range' 101 k := by
    intro k
    calc List.range' 2 (k + 99) = List.range' 2 (98 + (k + 1)) := by rw [Nat.add_comm 98]
      _ = List.range' 2 98 ++ List.range' (2 + 98) (k + 1) := List.range'_append_1.symm
      _ = List.range' 2 98 ++ 100 :: List.range' 101 k := rfl
  have hne : decimalName stem 100 ≠ segmentName 'E' true stem 100 := by
    intro heq
    have hlen := congrArg List.length heq
    rw [decimalName, segmentName, joinExtension, joinExtension, List.length_append,
      List.length_append] at hlen
    exact absurd (Nat.add_left_cancel hlen) (by decide)
  rw [hsplit N, show (774 : ℕ) = 675 + 99 by rfl, hsplit 675, List.map_append, List.map_append,
    List.map_cons, List.map_cons, hfront, takeWhile_append_eq_iff _ _ _ hne]
  simp only [decide_eq_false_iff_not, List.mem_map, exists_exists_and_eq_and]
  rw [@and_comm (decimalName stem 100 ∉ files)]

/-- A stem and the extension of the first segment. -/
theorem splitExtension_first (hstem : stem ≠ []) :
    splitExtension (segmentName 'E' true stem 1) = (stem, some (asciiBytes "E01".toList)) :=
  splitExtension_joinExtension hstem (by decide) (by decide)

/-- Without a stem the first segment has no extension. -/
theorem splitExtension_first_nil :
    splitExtension (segmentName 'E' true [] 1) = (segmentName 'E' true [] 1, none) :=
  splitExtension_joinExtension_nil (by decide)

/-- What the analyser discovers from the first segment. -/
theorem integrityPath_first (h : segmentName 'E' true stem 1 ∈ files) :
    IntegrityPath.discoverSegments files (segmentName 'E' true stem 1) =
      segmentName 'E' true stem 1 ::
        if stem = [] ∨ Utf8.toStr stem = none then []
        else ((List.range' 2 (899 + 99)).map (decimalName stem)).takeWhile (· ∈ files) := by
  rw [IntegrityPath.discoverSegments]
  by_cases hempty : stem = []
  · subst hempty
    rw [splitExtension_first_nil, if_pos (.inl rfl)]
  · have hparse : (Utf8.toStr (asciiBytes "E01".toList)).bind parseEwfExtension =
        some (69, false, 2) := by
      decide +kernel
    rw [splitExtension_first hempty]
    simp only [hparse]
    cases htext : Utf8.toStr stem with
    | none => rw [if_pos (.inr rfl)]
    | some text =>
        have hsame : text = stem := by
          rw [Utf8.toStr] at htext
          split_ifs at htext
          exact (Option.some.inj htext).symm
        subst hsame
        have hfirst : decimalName text 1 ∈ files := by
          rwa [decimalName_eq le_rfl (by decide)]
        have hnames : ((List.range' 1 999).map fun n =>
            joinExtension text (makeEwfExtension 69 false 2 n)) =
            segmentName 'E' true text 1 ::
              (List.range' 2 (899 + 99)).map (decimalName text) := by
          rw [List.range'_succ, List.map_cons]
          rfl
        simp only [hnames, List.takeWhile_cons, decide_eq_true h, if_true, List.isEmpty_cons,
          Bool.false_eq_true, if_false]
        rw [if_neg (by simp [hempty])]

/-- What the recovery discovers from the first segment. -/
theorem recover_first :
    Recover.discoverSegments files (segmentName 'E' true stem 1) =
      if stem = [] then some [segmentName 'E' true stem 1]
      else if ((List.range' 2 (4294967195 + 99)).map (decimalName stem)).all (· ∈ files) then none
      else some (segmentName 'E' true stem 1 ::
        ((List.range' 2 (4294967195 + 99)).map (decimalName stem)).takeWhile (· ∈ files)) := by
  rw [Recover.discoverSegments]
  by_cases hempty : stem = []
  · subst hempty
    rw [splitExtension_first_nil, if_pos rfl]
  · have htext : Utf8.toStr (asciiBytes "E01".toList) = some (asciiBytes "E01".toList) := by
      decide +kernel
    rw [splitExtension_first hempty, if_neg hempty]
    simp only [htext]
    rw [if_neg (by decide)]
    rfl

end Names

/-! ### The whole set -/

/-- From the first segment both functions discover the set up to its first gap. -/
structure DiscoversSet (files : List FileName) (stem : FileName) : Prop where
  analyser : IntegrityPath.discoverSegments files (segmentName 'E' true stem 1) =
    segmentRun files 'E' true stem
  recovery : Recover.discoverSegments files (segmentName 'E' true stem 1) =
    some (segmentRun files 'E' true stem)

/-- The set has one segment only; or its stem is text and it has a gap up to 99, or no file comes
next behind 99 in either numbering. -/
def EndsInDecimals (files : List FileName) (stem : FileName) : Prop :=
  segmentName 'E' true stem 2 ∉ files ∨
    (stem ≠ [] ∧ Utf8.toStr stem ≠ none ∧
      ((∃ n ∈ List.range' 2 98, segmentName 'E' true stem n ∉ files) ∨
        (segmentName 'E' true stem 100 ∉ files ∧ decimalName stem 100 ∉ files)))

section Set

variable {files : List FileName} {stem : FileName}

/-- A set of one segment. -/
theorem discoversSet_of_single (h : segmentName 'E' true stem 1 ∈ files)
    (hsecond : segmentName 'E' true stem 2 ∉ files) : DiscoversSet files stem := by
  have hdecimal : ∀ N, ((List.range' 2 (N + 99)).map (decimalName stem)).takeWhile (· ∈ files) =
      [] := by
    intro N
    rw [List.range'_succ, List.map_cons, List.takeWhile_cons, decimalName_eq (by decide)
      (by decide),
      if_neg (by rwa [decide_eq_true_eq])]
  have hrun : segmentRun files 'E' true stem = [segmentName 'E' true stem 1] := by
    rw [segmentRun_of_mem h, List.range'_succ, List.map_cons, List.takeWhile_cons,
      if_neg (by rwa [decide_eq_true_eq])]
  constructor
  · rw [integrityPath_first h, hdecimal, ite_self, hrun]
  · rw [recover_first, hdecimal, hrun, List.range'_succ, List.map_cons, List.all_cons,
      decimalName_eq (by decide) (by decide), decide_eq_false hsecond]
    simp

/-- The names behind the first segment that both look for are those of the set. -/
theorem discoversSet_iff_of_text (h : segmentName 'E' true stem 1 ∈ files) (hempty : stem ≠ [])
    (htext : Utf8.toStr stem ≠ none) :
    DiscoversSet files stem ↔
      (∃ n ∈ List.range' 2 98, segmentName 'E' true stem n ∉ files) ∨
        (segmentName 'E' true stem 100 ∉ files ∧ decimalName stem 100 ∉ files) := by
  constructor
  · intro hset
    have hanalyser := hset.analyser
    rw [integrityPath_first h, segmentRun_of_mem h, if_neg (by simp [hempty, htext])] at hanalyser
    exact (takeWhile_decimalName_iff 899).mp (List.cons.inj hanalyser).2
  · intro hends
    have hmissing : ∃ n ∈ List.range' 2 (4294967195 + 99), decimalName stem n ∉ files := by
      obtain ⟨n, hn, hno⟩ | ⟨-, hno⟩ := hends
      · rw [List.mem_range'_1] at hn
        refine ⟨n, List.mem_range'_1.mpr (by omega), ?_⟩
        rwa [decimalName_eq (by omega) (by omega)]
      · exact ⟨100, List.mem_range'_1.mpr (by omega), hno⟩
    constructor
    · rw [integrityPath_first h, segmentRun_of_mem h, if_neg (by simp [hempty, htext]),
        (takeWhile_decimalName_iff 899).mpr hends]
    · have hall : ((List.range' 2 (4294967195 + 99)).map (decimalName stem)).all (· ∈ files) =
          false := by
        obtain ⟨n, hn, hno⟩ := hmissing
        rw [List.all_eq_false]
        exact ⟨_, List.mem_map_of_mem hn, by rwa [decide_eq_true_eq]⟩
      rw [recover_first, segmentRun_of_mem h, if_neg hempty, hall,
        (takeWhile_decimalName_iff 4294967195).mpr hends]
      rfl

end Set

/-- **Discovery of a set.** Both functions discover the whole set exactly if it ends within the
decimal numbers. -/
theorem discovery_iff (files : List FileName) (stem : FileName)
    (h : segmentName 'E' true stem 1 ∈ files) :
    DiscoversSet files stem ↔ EndsInDecimals files stem := by
  rw [EndsInDecimals]
  by_cases hsecond : segmentName 'E' true stem 2 ∈ files
  · by_cases hname : stem ≠ [] ∧ Utf8.toStr stem ≠ none
    · rw [discoversSet_iff_of_text h hname.1 hname.2]
      constructor
      · exact fun hends => .inr ⟨hname.1, hname.2, hends⟩
      · rintro (hno | ⟨-, -, hends⟩)
        · exact absurd hsecond hno
        · exact hends
    · -- Without a stem that is text the analyser takes the first segment for all.
      constructor
      · intro hset
        have hanalyser := hset.analyser
        have hno : stem = [] ∨ Utf8.toStr stem = none := by
          rw [not_and_or, not_not, not_not] at hname
          exact hname
        rw [integrityPath_first h, segmentRun_of_mem h, if_pos hno, List.range'_succ,
          List.map_cons, List.takeWhile_cons, if_pos (decide_eq_true hsecond)] at hanalyser
        cases (List.cons.inj hanalyser).2
      · rintro (hno | ⟨hempty, htext, -⟩)
        · exact absurd hsecond hno
        · exact absurd ⟨hempty, htext⟩ hname
  · exact ⟨fun _ => .inl hsecond, fun _ => discoversSet_of_single h hsecond⟩

/-- A set of a hundred segments. -/
def hundredSegments : List FileName :=
  (List.range' 1 100).map (segmentName 'E' true (asciiBytes "ev".toList))

theorem discovery_iff_oneSegment :
    DiscoversSet [asciiBytes "ev.E01".toList] (asciiBytes "ev".toList) :=
  (discovery_iff [asciiBytes "ev.E01".toList] (asciiBytes "ev".toList) (by decide)).mpr
    (.inl (by decide))

theorem hundredSegments_not_discovered :
    asciiBytes "ev.E01".toList ∈ hundredSegments ∧
      ¬ DiscoversSet hundredSegments (asciiBytes "ev".toList) := by
  refine ⟨by decide +kernel, fun h => ?_⟩
  have hanalyser := h.analyser
  revert hanalyser
  decide +kernel

end EwfForensic

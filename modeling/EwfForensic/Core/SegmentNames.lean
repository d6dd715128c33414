import EwfForensic.Lib.Bytes
import EwfForensic.Lib.Utf8
import Mathlib.Data.Bool.AllAny
import Mathlib.Data.List.DropRight
import Mathlib.Data.Nat.Notation

/-!
# Names of Segment Files

`segment_ext` and `segment_paths` of `core/src/logical.rs`. A set of segment files shares a stem;
the extensions go from `01` to `99` and then from `AA` to `ZZ` behind a letter. A path is the name
of a file here, as all files of a set are in one directory.

* `splitExtension`, `joinExtension` — the stem and the extension of a name.
* `segmentExt`, `segmentPaths` — the functions. `segmentPaths_join`: what is found for a member.
* `segmentRun` — the members of a set up to the first gap.
* `segment_paths_iff` — a member leads to all of them only if it is the first.
-/

namespace EwfForensic

/-! ### Names -/

/-- A file name, as its bytes. -/
abbrev FileName := List UInt8

/-- The bytes of ASCII text. -/
def asciiBytes (text : List Char) : List UInt8 := text.map fun c => UInt8.ofNat c.toNat

/-- `.`. -/
def dot : UInt8 := 46

/-- `Path::file_stem` and `Path::extension` of a file name: what stands before its last dot and
behind it, unless the dot is its first byte. -/
def splitExtension (name : FileName) : FileName × Option FileName :=
  let before := name.rdropWhile (· ≠ dot)
  if name = [dot, dot] ∨ before.length ≤ 1 then (name, none)
  else (before.dropLast, some (name.rtakeWhile (· ≠ dot)))

/-- `format!("{stem}.{ext}")`. -/
def joinExtension (stem ext : List UInt8) : FileName := stem ++ dot :: ext

/-- `{n:0width$}`. -/
def zeroPadded (width n : ℕ) : List Char :=
  List.replicate (width - (Nat.toDigits 10 n).length) '0' ++ Nat.toDigits 10 n

/-- `segment_ext`. -/
def segmentExt (letter : Char) (n : ℕ) : Option (List Char) :=
  if n = 0 then none
  else if n ≤ 99 then some (letter :: zeroPadded 2 n)
  else
    let i := n - 100
    if i ≥ 26 * 26 then none
    else some [letter, Char.ofNat (i / 26 + 'A'.toNat), Char.ofNat (i % 26 + 'A'.toNat)]

/-! ### Enumeration -/

/-- `char::is_uppercase` of the first character of an extension, among ASCII letters: the members of
a set start with such a letter. -/
def startsUppercase (ext : List UInt8) : Bool := ext.head?.any fun b => 65 ≤ b ∧ b ≤ 90

/-- The loop of `segment_paths` over the numbers that are left. -/
def segmentLoop (files : List FileName) (first stem : FileName) (letter : Char) :
    List ℕ → List FileName
  | [] => []
  | n :: ns =>
    match segmentExt letter n with
    | none => []
    | some ext =>
      let p := joinExtension stem (asciiBytes ext)
      if p ∉ files then []
      else (if p ≠ first then [p] else []) ++ segmentLoop files first stem letter ns

/-- `segment_paths`, in a directory with some files. -/
def segmentPaths (files : List FileName) (first : FileName) : List FileName :=
  match splitExtension first with
  | (_, none) => [first]
  | (stem, some ext0) =>
    match Utf8.toStr ext0 with
    | none => [first]
    | some ext0 =>
      let letter := if startsUppercase ext0 then 'L' else 'l'
      first :: segmentLoop files first (Utf8.toStringLossy stem) letter (List.range' 2 774)

/-! ### Sets -/

/-- The extension of a segment, in upper or in lower case. -/
def setExt (letter : Char) (upper : Bool) (n : ℕ) : List Char :=
  let ext := (segmentExt letter n).getD []
  if upper then ext else ext.map Char.toLower

/-- The name of a segment of a set. -/
def segmentName (letter : Char) (upper : Bool) (stem : FileName) (n : ℕ) : FileName :=
  joinExtension stem (asciiBytes (setExt letter upper n))

/-- The segments of a set from the first up to the first that is missing. The numbering ends after
775 segments. -/
def segmentRun (files : List FileName) (letter : Char) (upper : Bool) (stem : FileName) :
    List FileName :=
  ((List.range' 1 775).map (segmentName letter upper stem)).takeWhile (· ∈ files)

/-! ### Runs -/

section TakeWhile

variable {α : Type} {p : α → Bool}

/-- Two lists that part behind a common front have the same run in front exactly if it ends within
the common front or right there. -/
theorem takeWhile_append_eq_iff {a b : α} (front as bs : List α) (hab : a ≠ b) :
    (front ++ a :: as).takeWhile p = (front ++ b :: bs).takeWhile p ↔
      (∃ x ∈ front, p x = false) ∨ (p a = false ∧ p b = false) := by
  induction front with
  | nil =>
      simp only [List.nil_append, List.takeWhile_cons, List.not_mem_nil, false_and, exists_false,
        false_or]
      cases p a <;> cases p b <;> simp [hab]
  | cons x front ih =>
      simp only [List.cons_append, List.takeWhile_cons]
      cases hx : p x with
      | false => simp [hx]
      | true => simp [hx, ih]

/-- Two lists with different heads have the same run exactly if it is empty. -/
theorem takeWhile_cons_eq_iff {a b : α} (as bs : List α) (hab : a ≠ b) :
    (a :: as).takeWhile p = (b :: bs).takeWhile p ↔ p a = false ∧ p b = false := by
  simpa using takeWhile_append_eq_iff (p := p) [] as bs hab

end TakeWhile

/-! ### Extensions -/

/-- A stem and an extension are found again. -/
theorem splitExtension_joinExtension {stem ext : FileName} (hstem : stem ≠ []) (hext : ext ≠ [])
    (hdot : dot ∉ ext) : splitExtension (joinExtension stem ext) = (stem, some ext) := by
  have hnot : ∀ b ∈ ext.reverse, decide (b ≠ dot) = true := by
    intro b hb
    rw [decide_eq_true_eq]
    rintro rfl
    exact hdot (List.mem_reverse.mp hb)
  have hreverse : (joinExtension stem ext).reverse = ext.reverse ++ dot :: stem.reverse := by
    rw [joinExtension, List.reverse_append, List.reverse_cons, List.append_assoc,
      List.singleton_append]
  have hbefore : (joinExtension stem ext).rdropWhile (· ≠ dot) = stem ++ [dot] := by
    rw [List.rdropWhile, hreverse, List.dropWhile_append_of_pos hnot,
      List.dropWhile_cons_of_neg (by simp), List.reverse_cons, List.reverse_reverse]
  have hafter : (joinExtension stem ext).rtakeWhile (· ≠ dot) = ext := by
    rw [List.rtakeWhile, hreverse, List.takeWhile_append_of_pos hnot,
      List.takeWhile_cons_of_neg (by simp), List.append_nil, List.reverse_reverse]
  have hpos := List.length_pos_iff.mpr hstem
  have hpos' := List.length_pos_iff.mpr hext
  have hlong : joinExtension stem ext ≠ [dot, dot] := by
    intro h
    have hlen := congrArg List.length h
    rw [joinExtension, List.length_append, List.length_cons] at hlen
    have hone : ext.length = 1 := by
      simp only [List.length_cons, List.length_nil] at hlen
      omega
    obtain ⟨b, rfl⟩ := List.length_eq_one_iff.mp hone
    have hlast := congrArg List.getLast? h
    rw [joinExtension] at hlast
    simp only [List.getLast?_append, List.getLast?_cons_cons, List.getLast?_singleton,
      Option.some_or] at hlast
    exact hdot (by rw [Option.some.inj hlast]; exact List.mem_singleton_self _)
  rw [splitExtension]
  simp only [hbefore, hafter, List.length_append, List.length_singleton]
  rw [if_neg (by rintro (h | h); exacts [hlong h, by omega]), List.dropLast_concat]

/-- A name that starts with its only dot has no extension. -/
theorem splitExtension_joinExtension_nil {ext : FileName} (hdot : dot ∉ ext) :
    splitExtension (joinExtension [] ext) = (joinExtension [] ext, none) := by
  have hnot : ∀ b ∈ ext.reverse, decide (b ≠ dot) = true := by
    intro b hb
    rw [decide_eq_true_eq]
    rintro rfl
    exact hdot (List.mem_reverse.mp hb)
  have hbefore : (joinExtension [] ext).rdropWhile (· ≠ dot) = [dot] := by
    rw [List.rdropWhile, joinExtension, List.nil_append, List.reverse_cons,
      List.dropWhile_append_of_pos hnot, List.dropWhile_cons_of_neg (by simp)]
    rfl
  rw [splitExtension]
  simp only [hbefore, List.length_singleton, le_refl, or_true, if_true]

/-- The characters of extensions behind their letter. -/
def segmentChars : List Char := "0123456789ABCDEFGHIJKLMNOPQRSTUVWXYZ".toList

/-- A character in upper or in lower case, as its byte. -/
def caseByte (upper : Bool) (c : Char) : UInt8 :=
  UInt8.ofNat (if upper then c else c.toLower).toNat

/-- Every segment of the numbering has two characters behind its letter, and only the first has
`01`. -/
theorem segmentExt_eq {n : ℕ} (hpos : 1 ≤ n) (hle : n ≤ 775) :
    ∃ a ∈ segmentChars, ∃ b ∈ segmentChars, (∀ letter, segmentExt letter n = some [letter, a, b]) ∧
      (2 ≤ n → ¬ (a = '0' ∧ b = '1')) ∧
      (n ≤ 99 → ∀ upper, caseByte upper a = caseByte true a ∧ caseByte upper b = caseByte true b)
        := by
  by_cases hdigits : n ≤ 99
  · have htwo : ∀ n < 100, (zeroPadded 2 n).length = 2 ∧ (2 ≤ n → zeroPadded 2 n ≠ ['0', '1']) := by
      decide +kernel
    have hall : ∀ n < 100, ((zeroPadded 2 n).all fun c =>
        c ∈ segmentChars ∧ ∀ upper, caseByte upper c = caseByte true c) = true := by
      decide +kernel
    obtain ⟨hlen, hfirst⟩ := htwo n (by omega)
    have hchars := List.all_iff_forall_prop.mp (hall n (by omega))
    obtain ⟨a, b, hpadded⟩ := List.length_eq_two.mp hlen
    rw [hpadded] at hchars hfirst
    simp only [List.forall_mem_cons] at hchars
    obtain ⟨⟨ha, hcaseA⟩, ⟨hb, hcaseB⟩, -⟩ := hchars
    refine ⟨a, ha, b, hb, fun letter => ?_, fun h2 h => ?_, fun _ upper =>
      ⟨hcaseA upper, hcaseB upper⟩⟩
    · rw [segmentExt, if_neg (by omega), if_pos hdigits, hpadded]
    · exact hfirst h2 (by rw [h.1, h.2])
  · have hall : ∀ k < 26, Char.ofNat (k + 'A'.toNat) ∈ segmentChars ∧
        Char.ofNat (k + 'A'.toNat) ≠ '0' := by
      decide
    obtain ⟨ha, hzero⟩ := hall ((n - 100) / 26) (by omega)
    obtain ⟨hb, -⟩ := hall ((n - 100) % 26) (by omega)
    refine ⟨_, ha, _, hb, fun letter => ?_, fun _ h => hzero h.1, fun h => absurd h hdigits⟩
    rw [segmentExt, if_neg (by omega), if_neg hdigits]
    exact if_neg (by omega)

section Set

variable {upper : Bool} {stem : FileName} {n : ℕ}

/-- The extension of a segment is its letter and two characters. -/
theorem asciiBytes_setExt {letter a b : Char} (h : segmentExt letter n = some [letter, a, b]) :
    asciiBytes (setExt letter upper n) =
      [caseByte upper letter, caseByte upper a, caseByte upper b] := by
  rw [setExt, h]
  cases upper <;> rfl

/-- Bytes of extensions are ASCII, and no dots. -/
theorem caseByte_of_mem (upper : Bool) {c : Char} (hc : c ∈ segmentChars) :
    caseByte upper c < 0x80 ∧ caseByte upper c ≠ dot := by
  have hall : (segmentChars.all fun c =>
      ∀ upper, caseByte upper c < 0x80 ∧ caseByte upper c ≠ dot) = true := by
    decide +kernel
  exact List.all_iff_forall_prop.mp hall c hc upper

/-- What the functions see of the name of a segment. -/
theorem splitExtension_segmentName {letter : Char} (hletter : letter ∈ segmentChars)
    (hpos : 1 ≤ n) (hle : n ≤ 775) (hstem : stem ≠ []) :
    splitExtension (segmentName letter upper stem n) =
      (stem, some (asciiBytes (setExt letter upper n))) ∧
    Utf8.toStr (asciiBytes (setExt letter upper n)) =
      some (asciiBytes (setExt letter upper n)) := by
  obtain ⟨a, ha, b, hb, hext, -⟩ := segmentExt_eq hpos hle
  have hbytes := @asciiBytes_setExt upper n letter a b (hext letter)
  have hascii : ∀ x ∈ asciiBytes (setExt letter upper n), x < 0x80 ∧ x ≠ dot := by
    rw [hbytes]
    simp only [List.forall_mem_cons]
    exact ⟨caseByte_of_mem upper hletter, caseByte_of_mem upper ha, caseByte_of_mem upper hb,
      by simp⟩
  refine ⟨splitExtension_joinExtension hstem (by rw [hbytes]; exact List.cons_ne_nil _ _)
    fun h => (hascii _ h).2 rfl, Utf8.toStr_of_ascii fun x hx => (hascii x hx).1⟩

theorem splitExtension_segmentName_nil {letter : Char} (hletter : letter ∈ segmentChars)
    (hpos : 1 ≤ n) (hle : n ≤ 775) :
    splitExtension (segmentName letter upper [] n) = (segmentName letter upper [] n, none) := by
  obtain ⟨a, ha, b, hb, hext, -⟩ := segmentExt_eq hpos hle
  refine splitExtension_joinExtension_nil ?_
  rw [asciiBytes_setExt (hext letter)]
  simp only [List.mem_cons, List.not_mem_nil, or_false, not_or]
  exact ⟨(caseByte_of_mem upper hletter).2.symm, (caseByte_of_mem upper ha).2.symm,
    (caseByte_of_mem upper hb).2.symm⟩

end Set

/-! ### The loop -/

/-- The name that the loop looks for: the letter follows the case, the characters do not. -/
def loopName (upper : Bool) (stem : FileName) (n : ℕ) : FileName :=
  joinExtension stem (asciiBytes ((segmentExt (if upper then 'L' else 'l') n).getD []))

/-- The loop collects the names up to the first that is missing. -/
theorem segmentLoop_eq {files : List FileName} {first stem : FileName} {upper : Bool}
    {ns : List ℕ} (hns : ∀ n ∈ ns, 1 ≤ n ∧ n ≤ 775)
    (hfirst : ∀ n ∈ ns, loopName upper stem n ≠ first) :
    segmentLoop files first stem (if upper then 'L' else 'l') ns =
      (ns.map (loopName upper stem)).takeWhile (· ∈ files) := by
  induction ns with
  | nil => rfl
  | cons n ns ih =>
      obtain ⟨⟨hpos, hle⟩, hns⟩ := List.forall_mem_cons.mp hns
      obtain ⟨hne, hfirst⟩ := List.forall_mem_cons.mp hfirst
      obtain ⟨a, -, b, -, hext, -⟩ := segmentExt_eq hpos hle
      rw [segmentLoop, List.map_cons, List.takeWhile_cons]
      have hname : loopName upper stem n =
          joinExtension stem (asciiBytes [if upper then 'L' else 'l', a, b]) := by
        rw [loopName, hext]
        rfl
      simp only [hext]
      rw [← hname]
      by_cases hin : loopName upper stem n ∈ files
      · rw [if_neg (not_not.mpr hin), if_pos hne, if_pos (decide_eq_true hin), ih hns hfirst]
        rfl
      · rw [if_pos hin, if_neg (by rwa [decide_eq_true_eq])]

/-! ### Any member -/

/-- The names behind that of the first member do not lead the loop away from the set: the stem is
text and the letters behind 99 are in the case of the set; or no file has the name that comes
next. -/
def LoopFollows (files : List FileName) (upper : Bool) (stem : FileName) : Prop :=
  if stem = [] then segmentName 'L' upper stem 2 ∉ files
  else if Utf8.toStr stem = none then
    segmentName 'L' upper stem 2 ∉ files ∧ loopName upper (Utf8.toStringLossy stem) 2 ∉ files
  else upper = true ∨ (∃ n ∈ List.range' 2 98, segmentName 'L' upper stem n ∉ files) ∨
    (segmentName 'L' upper stem 100 ∉ files ∧ loopName upper stem 100 ∉ files)

section Any

variable {files : List FileName} {upper : Bool} {stem : FileName}

/-- Names with extensions of one length are the same only with the same extension. -/
theorem joinExtension_inj {stem stem' ext ext' : FileName} (hlen : ext.length = ext'.length)
    (h : joinExtension stem ext = joinExtension stem' ext') : stem = stem' ∧ ext = ext' := by
  obtain ⟨hstem, hext⟩ := List.append_inj' h (by simp [hlen])
  exact ⟨hstem, (List.cons.inj hext).2⟩

/-- Up to 99 the loop looks for the segments of the set. -/
theorem loopName_eq_of_le {n : ℕ} (hpos : 1 ≤ n) (hle : n ≤ 99) :
    loopName upper stem n = segmentName 'L' upper stem n := by
  obtain ⟨a, -, b, -, hext, -, hcase⟩ := segmentExt_eq hpos (show n ≤ 775 by omega)
  obtain ⟨ha, hb⟩ := hcase hle upper
  rw [loopName, segmentName, hext, asciiBytes_setExt (hext 'L'), ha, hb]
  cases upper <;> rfl

/-- In upper case the loop looks for all segments of the set. -/
theorem loopName_upper {n : ℕ} (hpos : 1 ≤ n) (hle : n ≤ 775) :
    loopName true stem n = segmentName 'L' true stem n := by
  obtain ⟨a, -, b, -, hext, -⟩ := segmentExt_eq hpos hle
  rw [loopName, segmentName, hext, asciiBytes_setExt (hext 'L')]
  rfl

/-- The loop never meets the first segment of the set. -/
theorem loopName_ne_first {stem' : FileName} {n : ℕ} (hpos : 2 ≤ n) (hle : n ≤ 775) :
    loopName upper stem' n ≠ segmentName 'L' upper stem 1 := by
  obtain ⟨a, ha, b, hb, hext, hfirst, -⟩ := segmentExt_eq (show 1 ≤ n by omega) hle
  have hone : segmentExt 'L' 1 = some ['L', '0', '1'] := by decide
  rw [loopName, segmentName, hext, asciiBytes_setExt hone]
  intro h
  obtain ⟨-, hbytes⟩ := joinExtension_inj (by rfl) h
  simp only [asciiBytes, Option.getD_some, List.map_cons, List.map_nil, List.cons.injEq,
    and_true] at hbytes
  have hall : (segmentChars.all fun c => ∀ upper,
      (UInt8.ofNat c.toNat = caseByte upper '0' → c = '0') ∧
      (UInt8.ofNat c.toNat = caseByte upper '1' → c = '1')) = true := by
    decide +kernel
  have hchar := List.all_iff_forall_prop.mp hall
  exact hfirst hpos ⟨(hchar a ha upper).1 hbytes.2.1, (hchar b hb upper).2 hbytes.2.2⟩

/-- What is found from a member of a set. -/
theorem segmentPaths_segmentName {n : ℕ} (hpos : 1 ≤ n) (hle : n ≤ 775) :
    segmentPaths files (segmentName 'L' upper stem n) = segmentName 'L' upper stem n ::
      if stem = [] then []
      else segmentLoop files (segmentName 'L' upper stem n) (Utf8.toStringLossy stem)
        (if upper then 'L' else 'l') (List.range' 2 774) := by
  rw [segmentPaths]
  by_cases hstem : stem = []
  · subst hstem
    rw [splitExtension_segmentName_nil (by decide) hpos hle, if_pos rfl]
  · have hletter : 'L' ∈ segmentChars := by decide
    obtain ⟨hsplit, htext⟩ : splitExtension (segmentName 'L' upper stem n) = _ ∧ _ :=
      splitExtension_segmentName hletter hpos hle hstem
    obtain ⟨a, -, b, -, hext, -⟩ := segmentExt_eq hpos hle
    have hcase : startsUppercase (asciiBytes (setExt 'L' upper n)) = upper := by
      rw [asciiBytes_setExt (hext 'L')]
      cases upper <;> rfl
    simp only [hsplit, htext, hcase, if_neg hstem]

/-- The run of a set with its first member. -/
theorem segmentRun_of_mem {letter : Char} (h : segmentName letter upper stem 1 ∈ files) :
    segmentRun files letter upper stem = segmentName letter upper stem 1 ::
      ((List.range' 2 774).map (segmentName letter upper stem)).takeWhile (· ∈ files) := by
  rw [segmentRun, List.range'_succ, List.map_cons, List.takeWhile_cons, if_pos (decide_eq_true h)]

/-- A set with a member has its first. -/
theorem first_mem_of_mem_segmentRun {letter : Char} {member : FileName}
    (h : member ∈ segmentRun files letter upper stem) :
    segmentName letter upper stem 1 ∈ files := by
  by_contra hfirst
  rw [segmentRun, List.range'_succ, List.map_cons, List.takeWhile_cons,
    if_neg (by rwa [decide_eq_true_eq])] at h
  cases h

/-- The loop from the first member of a set. -/
theorem segmentLoop_first (stem' : FileName) :
    segmentLoop files (segmentName 'L' upper stem 1) stem' (if upper then 'L' else 'l')
        (List.range' 2 774) =
      ((List.range' 2 774).map (loopName upper stem')).takeWhile (· ∈ files) := by
  refine segmentLoop_eq (fun n hn => ?_) fun n hn => ?_
  · rw [List.mem_range'_1] at hn
    omega
  · rw [List.mem_range'_1] at hn
    exact loopName_ne_first hn.1 (by omega)

/-- In upper case the loop goes through the set. -/
theorem map_loopName_upper : (List.range' 2 774).map (loopName true stem) =
    (List.range' 2 774).map (segmentName 'L' true stem) := by
  refine List.map_congr_left fun n hn => ?_
  rw [List.mem_range'_1] at hn
  exact loopName_upper (by omega) (by omega)

/-- In lower case the loop leaves the set behind 99. -/
theorem takeWhile_loopName_lower_iff :
    ((List.range' 2 774).map (loopName false stem)).takeWhile (· ∈ files) =
        ((List.range' 2 774).map (segmentName 'L' false stem)).takeWhile (· ∈ files) ↔
      (∃ n ∈ List.range' 2 98, segmentName 'L' false stem n ∉ files) ∨
        (segmentName 'L' false stem 100 ∉ files ∧ loopName false stem 100 ∉ files) := by
  have hfront : (List.range' 2 98).map (loopName false stem) =
      (List.range' 2 98).map (segmentName 'L' false stem) := by
    refine List.map_congr_left fun n hn => ?_
    rw [List.mem_range'_1] at hn
    exact loopName_eq_of_le (by omega) (by omega)
  have hsplit : List.range' 2 774 = List.range' 2 98 ++ 100 :: List.range' 101 675 := by
    decide +kernel
  have hne : loopName false stem 100 ≠ segmentName 'L' false stem 100 := by
    intro heq
    have hbytes := (joinExtension_inj (by decide) heq).2
    revert hbytes
    decide
  rw [hsplit, List.map_append, List.map_append, List.map_cons, List.map_cons, hfront,
    takeWhile_append_eq_iff _ _ _ hne]
  simp only [decide_eq_false_iff_not, List.mem_map, exists_exists_and_eq_and]
  rw [@and_comm (loopName false stem 100 ∉ files)]

/-- **From the first member** the loop finds the run of the set exactly if it follows it. -/
theorem segmentPaths_first_iff (h : segmentName 'L' upper stem 1 ∈ files) :
    segmentPaths files (segmentName 'L' upper stem 1) = segmentRun files 'L' upper stem ↔
      LoopFollows files upper stem := by
  rw [segmentPaths_segmentName le_rfl (by decide), segmentRun_of_mem h, LoopFollows,
    segmentLoop_first]
  simp only [List.cons.injEq, true_and]
  by_cases hempty : stem = []
  · -- Nothing is looked for.
    rw [if_pos hempty, if_pos hempty, List.range'_succ, List.map_cons, List.takeWhile_cons]
    split_ifs with hmem
    · simpa using hmem
    · simpa using hmem
  rw [if_neg hempty, if_neg hempty]
  by_cases htext : Utf8.toStr stem = none
  · -- The names that are looked for have another stem.
    rw [if_pos htext, List.range'_succ, List.map_cons, List.map_cons, takeWhile_cons_eq_iff]
    · simp only [decide_eq_false_iff_not]
      exact and_comm
    · rw [loopName_eq_of_le (by decide) (by decide)]
      intro heq
      exact Utf8.toStr_eq_none_iff.mp htext (joinExtension_inj rfl heq).1
  · have hstem : Utf8.toStringLossy stem = stem := by
      by_contra hne
      exact htext (Utf8.toStr_eq_none_iff.mpr hne)
    rw [if_neg htext, hstem]
    cases upper with
    | true =>
        rw [map_loopName_upper]
        simp
    | false =>
        rw [takeWhile_loopName_lower_iff]
        simp

end Any

/-- **The set of a member** is what `segment_paths` returns exactly for the first member, whose
names the loop follows. -/
theorem segment_paths_iff (files : List FileName) (upper : Bool) (stem member : FileName)
    (hmember : member ∈ segmentRun files 'L' upper stem) :
    segmentPaths files member = segmentRun files 'L' upper stem ↔
      member = segmentName 'L' upper stem 1 ∧ LoopFollows files upper stem := by
  have hfirst := first_mem_of_mem_segmentRun hmember
  constructor
  · intro h
    have heq : member = segmentName 'L' upper stem 1 := by
      obtain ⟨n, hn, rfl⟩ := List.mem_map.mp ((List.takeWhile_prefix _).subset hmember)
      rw [List.mem_range'_1] at hn
      rw [segmentPaths_segmentName (by omega) (by omega), segmentRun_of_mem hfirst] at h
      exact (List.cons.inj h).1
    refine ⟨heq, ?_⟩
    rw [heq] at h
    exact (segmentPaths_first_iff hfirst).mp h
  · rintro ⟨rfl, hfollows⟩
    exact (segmentPaths_first_iff hfirst).mpr hfollows

/-- The files of a set of two segments. -/
def twoSegments : List FileName := [asciiBytes "ev.L01".toList, asciiBytes "ev.L02".toList]

theorem segment_paths_iff_twoSegments :
    segmentPaths twoSegments (asciiBytes "ev.L01".toList) = twoSegments := by
  have hrun : segmentRun twoSegments 'L' true (asciiBytes "ev".toList) = twoSegments := by
    decide +kernel
  have h := segment_paths_iff twoSegments true (asciiBytes "ev".toList)
    (asciiBytes "ev.L01".toList) (by rw [hrun]; decide)
  have hfollows : LoopFollows twoSegments true (asciiBytes "ev".toList) := by
    rw [LoopFollows, if_neg (by decide), if_neg (by decide)]
    exact .inl rfl
  rw [hrun] at h
  exact h.mpr ⟨by decide, hfollows⟩

theorem second_segment_not_whole :
    asciiBytes "ev.L02".toList ∈ segmentRun twoSegments 'L' true (asciiBytes "ev".toList) ∧
      segmentPaths twoSegments (asciiBytes "ev.L02".toList) ≠
        segmentRun twoSegments 'L' true (asciiBytes "ev".toList) := by
  decide +kernel

end EwfForensic

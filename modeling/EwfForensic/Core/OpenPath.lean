import EwfForensic.Core.OpenV2
import EwfForensic.Core.Paths
import EwfForensic.Lib.FileSystem

/-!
# Opening an Image by Path

`discover_segments` of `core/src/reader.rs`, and `open`, `open_with_cache_size` and `open_lazy`,
which open what it finds.

* `GlobPattern`, `globFiles` — a pattern, and the files that match it.
* `discoverSegments` — the segment files of the image that a path leads to.
* `openPath`, `openLazyPath` — the functions.
* `discover_segments_closed` — all files with the stem and an extension of the kind are found, in
  the order of their extensions, and from each of them the same files.
-/

namespace EwfForensic

open Octets

/-! ### Patterns -/

/-- A pattern for `glob`: a directory and a stem that is escaped, a dot, and for each character of
the extension a class, given by its members in order. -/
structure GlobPattern where
  stem : Path
  classes : List (List UInt8)

/-- The extensions with one member of each class, in alphabetical order. -/
def classExtensions : List (List UInt8) → List FileName
  | [] => [[]]
  | c :: cs => c.flatMap fun b => (classExtensions cs).map (b :: ·)

/-- The paths that a pattern matches. -/
def GlobPattern.names (p : GlobPattern) : List Path :=
  (classExtensions p.classes).map (joinExtension p.stem)

section Files

variable {Name : Type} (fs : FileSystem Path Name UInt8)

/-- `glob::glob`: the files that a pattern matches, in alphabetical order. -/
def globFiles (p : GlobPattern) : List Path := p.names.filter fun path => (fs.fileAt path).isSome

/-! ### Discovery -/

/-- `u8::to_ascii_uppercase`. -/
def toAsciiUppercase (b : UInt8) : UInt8 := if 97 ≤ b ∧ b ≤ 122 then b - 32 else b

/-- `[0-9]`. -/
def digitClass : List UInt8 := (List.range 10).map fun i => UInt8.ofNat (48 + i)

/-- `[A-Za-z]`. -/
def letterClass : List UInt8 :=
  (List.range 26).map (fun i => UInt8.ofNat (65 + i)) ++
    (List.range 26).map fun i => UInt8.ofNat (97 + i)

/-- `[x-z]`. -/
def xyzClass : List UInt8 := [120, 121, 122]

/-- `[{prefix}{lc}]`: the first character of an extension, in upper and in lower case. -/
def letterCases (b : UInt8) : List UInt8 :=
  if 65 ≤ b ∧ b ≤ 90 then [b, b + 32] else [b]

/-- The order of the extensions in upper case, byte by byte. -/
def bytesLe : List UInt8 → List UInt8 → Bool
  | [], _ => true
  | _ :: _, [] => false
  | a :: as, b :: bs => a < b ∨ (a = b ∧ bytesLe as bs)

/-- The extension of a path in upper case. -/
def upperExtension (path : Path) : FileName :=
  ((((fileName path).bind fun name => (splitExtension name).2).bind Utf8.toStr).getD []).map
    toAsciiUppercase

/-- The patterns of `discover_segments` for a stem and an extension: two letters or two digits
behind the first letter, and behind an x, y or z if the extension is four bytes long. -/
def segmentPatterns (stem : Path) (ext : FileName) : List GlobPattern :=
  let first := letterCases (toAsciiUppercase (ext.headD 69))
  let front := if ext.length = 4 then [first, xyzClass] else [first]
  [⟨stem, front ++ [digitClass, digitClass]⟩, ⟨stem, front ++ [letterClass, letterClass]⟩]

/-- The extension that `discover_segments` goes by: `E01` if there is none. -/
def extensionOrDefault (name : FileName) : FileName :=
  (((splitExtension name).2.bind Utf8.toStr).filter (· ≠ [])).getD (asciiBytes "E01".toList)

/-- What stands in front of the extensions of a set of segment files. -/
def segmentStem (path : Path) (name : FileName) : Path :=
  childPath (segmentDir path) (splitExtension name).1

/-- The patterns of `discover_segments` for a path, if it has a file name whose stem is text. -/
def pathPatterns (first : Path) : Option (List GlobPattern) := do
  let name ← fileName first
  let _ ← Utf8.toStr (splitExtension name).1
  some (segmentPatterns (segmentStem first name) (extensionOrDefault name))

/-- `discover_segments`. -/
def discoverSegments (first : Path) : Except EwfError (List Path) :=
  let missing := EwfError.noSegments (String.ofList (Utf8.charsLossy first))
  match pathPatterns first with
  | none => .error missing
  | some patterns =>
    let paths := patterns.flatMap (globFiles fs)
    if paths = [] then .error missing
    else .ok (paths.insertionSort fun a b => bytesLe (upperExtension a) (upperExtension b))

/-! ### The opens -/

/-- `File::open`, and what is read of the file. The text of the error is the system's own. -/
def openSource (path : Path) : Except EwfError Segment :=
  match fs.openFile path with
  | none => .error (.io "cannot open file")
  | some data =>
    if h : data.length < 9223372036854775808 then .ok ⟨data, h⟩ else .error (.io "file too large")

/-- The first eight bytes of a file say whether it is of an EWF v2 image. -/
def probeV2 (path : Path) : Except EwfError Bool := do
  let probe ← openSource fs path
  let sig ← readExact probe.data 0 8
  .ok (sig = evf2Signature ∨ sig = lef2Signature)

/-- The files of a v2 image: each is opened and its header parsed before the next is opened. -/
def openSourcesV2 (paths : List Path) : Except EwfError (List Segment) :=
  paths.mapM fun p => do
    let src ← openSource fs p
    let buf ← readExact src.data 0 ewf2FileHeaderSize
    let _ ← Ewf2FileHeader.parse buf
    .ok src

/-- `open_segments_with_cache_size` and `open_segments_lazy`, which differ in the chunk table of
a v1 image. -/
def openSegmentPaths (C : Crates) (paths : List Path) (cacheSize : ℕ)
    (lazySectionCache : Option ℕ) : Except EwfError EwfReader :=
  match paths with
  | [] => .error (.noSegments "empty path list")
  | first :: _ => do
    let v2 ← probeV2 fs first
    if v2 then
      let sources ← openSourcesV2 fs paths
      openSegmentsV2 C sources cacheSize
    else
      let sources ← paths.mapM (openSource fs)
      openV1 C sources cacheSize lazySectionCache

/-- `EwfReader::open_with_cache_size`. -/
def openWithCacheSize (C : Crates) (first : Path) (cacheSize : ℕ) :
    Except EwfError EwfReader := do
  let paths ← discoverSegments fs first
  openSegmentPaths fs C paths cacheSize none

/-- `EwfReader::open`. -/
def openPath (C : Crates) (first : Path) : Except EwfError EwfReader :=
  openWithCacheSize fs C first defaultLruSize

/-- `EwfReader::open_lazy`. -/
def openLazyPath (C : Crates) (first : Path) : Except EwfError EwfReader := do
  let paths ← discoverSegments fs first
  openSegmentPaths fs C paths defaultLruSize (some defaultSectionCache)

end Files

/-! ### What is found -/

theorem mem_classExtensions {classes : List (List UInt8)} {ext : FileName} :
    ext ∈ classExtensions classes ↔ List.Forall₂ (· ∈ ·) ext classes := by
  induction classes generalizing ext with
  | nil => simp [classExtensions]
  | cons c cs ih =>
      simp only [classExtensions, List.mem_flatMap, List.mem_map]
      constructor
      · rintro ⟨b, hb, e, he, rfl⟩
        exact .cons hb (ih.mp he)
      · intro h
        cases h with
        | cons hb he => exact ⟨_, hb, _, ih.mpr he, rfl⟩

theorem nodup_classExtensions {classes : List (List UInt8)} (h : ∀ c ∈ classes, c.Nodup) :
    (classExtensions classes).Nodup := by
  induction classes with
  | nil => exact List.nodup_singleton _
  | cons c cs ih =>
      obtain ⟨hc, hcs⟩ := List.forall_mem_cons.mp h
      rw [classExtensions, List.nodup_flatMap]
      refine ⟨fun b _ => (ih hcs).map (List.cons_injective), hc.imp fun hne => ?_⟩
      intro e hb hb'
      obtain ⟨t, -, rfl⟩ := List.mem_map.mp hb
      obtain ⟨t', -, heq⟩ := List.mem_map.mp hb'
      exact hne (List.cons.inj heq).1.symm

theorem joinExtension_injective (stem : FileName) : Function.Injective (joinExtension stem) :=
  fun _ _ h => (List.cons.inj (List.append_cancel_left h)).2

/-- The order of the bytes is total and transitive. -/
theorem bytesLe_total (a b : List UInt8) : bytesLe a b ∨ bytesLe b a := by
  induction a generalizing b with
  | nil => exact .inl rfl
  | cons x a ih =>
      cases b with
      | nil => exact .inr rfl
      | cons y b =>
          simp only [bytesLe, decide_eq_true_eq]
          rcases Nat.lt_trichotomy x.toNat y.toNat with h | h | h
          · exact .inl (.inl (UInt8.lt_iff_toNat_lt.mpr h))
          · obtain rfl := UInt8.toNat_inj.mp h
            exact (ih b).imp (fun hab => .inr ⟨rfl, hab⟩) fun hba => .inr ⟨rfl, hba⟩
          · exact .inr (.inl (UInt8.lt_iff_toNat_lt.mpr h))

theorem bytesLe_trans {a b c : List UInt8} (hab : bytesLe a b) (hbc : bytesLe b c) :
    bytesLe a c := by
  induction a generalizing b c with
  | nil => rfl
  | cons x a ih =>
      cases b with
      | nil => cases hab
      | cons y b =>
          cases c with
          | nil => cases hbc
          | cons z c =>
              simp only [bytesLe, decide_eq_true_eq] at hab hbc ⊢
              rcases hab with hab | ⟨rfl, hab⟩
              · rcases hbc with hbc | ⟨rfl, -⟩
                · exact .inl (UInt8.lt_trans hab hbc)
                · exact .inl hab
              · rcases hbc with hbc | ⟨rfl, hbc⟩
                · exact .inl hbc
                · exact .inr ⟨rfl, ih hab hbc⟩

section Discovery

variable {Name : Type} {fs : FileSystem Path Name UInt8} {first : Path}

/-- A pattern is matched: what stands in front of the dot, and the extension behind it. -/
def GlobPattern.Matches (p : GlobPattern) (path : Path) : Prop :=
  p.stem ++ [dot] <+: path ∧ List.Forall₂ (· ∈ ·) (path.drop (p.stem.length + 1)) p.classes

instance (p : GlobPattern) (path : Path) : Decidable (p.Matches path) :=
  inferInstanceAs (Decidable (_ ∧ _))

theorem GlobPattern.matches_iff {p : GlobPattern} {path : Path} :
    p.Matches path ↔
      ∃ ext, path = joinExtension p.stem ext ∧ List.Forall₂ (· ∈ ·) ext p.classes := by
  constructor
  · rintro ⟨⟨ext, rfl⟩, hext⟩
    rw [List.drop_left' (by rw [List.length_append, List.length_singleton])] at hext
    exact ⟨ext, by rw [joinExtension, List.append_assoc, List.singleton_append], hext⟩
  · rintro ⟨ext, rfl, hext⟩
    refine ⟨⟨ext, by rw [joinExtension, List.append_assoc, List.singleton_append]⟩, ?_⟩
    rw [joinExtension, List.drop_append, List.drop_of_length_le (Nat.le_succ _),
      Nat.add_sub_cancel_left]
    exact hext

theorem GlobPattern.mem_names_iff {p : GlobPattern} {path : Path} :
    path ∈ p.names ↔ p.Matches path := by
  rw [GlobPattern.matches_iff, GlobPattern.names, List.mem_map]
  exact exists_congr fun ext => by rw [mem_classExtensions, and_comm, eq_comm]

/-- A path is one that the discovery from `first` looks for. -/
def IsSegmentPath (first path : Path) : Prop := ∃ p ∈ (pathPatterns first).getD [], p.Matches path

instance (first path : Path) : Decidable (IsSegmentPath first path) :=
  inferInstanceAs (Decidable (∃ p ∈ (pathPatterns first).getD [], p.Matches path))

/-- The classes of the patterns list nothing twice. -/
theorem nodup_classes {stem : Path} {ext : FileName} {p : GlobPattern}
    (hp : p ∈ segmentPatterns stem ext) :
    ∀ c ∈ p.classes, c.Nodup := by
  have hfirst : ∀ b, (letterCases b).Nodup := by
    intro b
    rw [letterCases]
    split_ifs
    · simp
    · exact List.nodup_singleton _
  have hdigits : digitClass.Nodup := by decide
  have hletters : letterClass.Nodup := by decide
  have hxyz : xyzClass.Nodup := by decide
  simp only [segmentPatterns, List.mem_cons, List.not_mem_nil, or_false] at hp
  intro c hc
  rcases hp with rfl | rfl <;>
  · simp only at hc
    split_ifs at hc <;>
    · simp only [List.cons_append, List.nil_append, List.mem_cons, List.not_mem_nil,
        or_false] at hc
      rcases hc with rfl | rfl | rfl | rfl <;> first | exact hfirst _ | assumption

/-- No name matches both patterns, as digits are no letters. -/
theorem nodup_found (fs : FileSystem Path Name UInt8) (stem : Path) (ext : FileName) :
    ((segmentPatterns stem ext).flatMap (globFiles fs)).Nodup := by
  rw [List.nodup_flatMap]
  refine ⟨fun p hp => ?_, ?_⟩
  · exact ((nodup_classExtensions (nodup_classes hp)).map (joinExtension_injective _)).filter _
  · rw [segmentPatterns, List.pairwise_pair]
    intro name h1 h2
    obtain ⟨e, he, rfl⟩ := List.mem_map.mp (List.mem_filter.mp h1).1
    obtain ⟨e', he', heq⟩ := List.mem_map.mp (List.mem_filter.mp h2).1
    obtain rfl := joinExtension_injective stem heq
    -- The last character would be a digit and a letter.
    have hdigit := List.forall₂_reverse_iff.mpr (mem_classExtensions.mp he)
    have hletter := List.forall₂_reverse_iff.mpr (mem_classExtensions.mp he')
    simp only [List.reverse_append, List.reverse_cons, List.reverse_nil, List.nil_append,
      List.cons_append] at hdigit hletter
    obtain ⟨b, bs, hb, -, hbs⟩ := List.forall₂_cons_right_iff.mp hdigit
    obtain ⟨b', bs', hb', -, hbs'⟩ := List.forall₂_cons_right_iff.mp hletter
    rw [hbs] at hbs'
    obtain rfl := (List.cons.inj hbs').1
    have hdisjoint : digitClass.filter (letterClass.contains ·) = [] := by decide
    exact List.filter_eq_nil_iff.mp hdisjoint b hb (List.contains_iff_mem.mpr hb')

/-- A file with the bytes of a segment is opened as that segment. -/
theorem openSource_eq {name : FileName} {f : Segment} (h : fs.openFile name = some f.data) :
    openSource fs name = .ok f := by
  rw [openSource, h]
  exact dif_pos f.length_lt

/-- The files of an image in a directory: all files that the discovery from `first` looks for. -/
structure StoredIn (fs : FileSystem Path Name UInt8) (first : Path) (names : List Path) : Prop where
  ne_nil : names ≠ []
  nodup : names.Nodup
  mem_iff : ∀ path, path ∈ names ↔ IsSegmentPath first path ∧ (fs.fileAt path).isSome

theorem pathPatterns_eq_some_iff {patterns : List GlobPattern} :
    pathPatterns first = some patterns ↔ ∃ name, fileName first = some name ∧
      (Utf8.toStr (splitExtension name).1).isSome ∧
        segmentPatterns (segmentStem first name) (extensionOrDefault name) = patterns := by
  rw [pathPatterns]
  simp only [Option.bind_eq_bind, Option.bind_eq_some_iff, Option.some.injEq,
    Option.isSome_iff_exists]
  exact exists_congr fun name => and_congr_right fun _ =>
    ⟨fun ⟨stem, hstem, h⟩ => ⟨⟨stem, hstem⟩, h⟩, fun ⟨⟨stem, hstem⟩, h⟩ => ⟨stem, hstem, h⟩⟩

/-- What discovery returns: the files that it looks for, each once, in the order of their
extensions. -/
theorem discoverSegments_spec {paths : List Path} (h : discoverSegments fs first = .ok paths) :
    paths.Nodup ∧ (paths.Pairwise fun a b => bytesLe (upperExtension a) (upperExtension b)) ∧
      ∀ path, path ∈ paths ↔ IsSegmentPath first path ∧ (fs.fileAt path).isSome := by
  rw [discoverSegments] at h
  cases hpatterns : pathPatterns first with
  | none =>
      rw [hpatterns] at h
      cases h
  | some patterns =>
      rw [hpatterns] at h
      simp only at h
      split_ifs at h
      obtain rfl := Except.ok.inj h
      refine ⟨?_, ?_, fun path => ?_⟩
      · obtain ⟨name, -, -, rfl⟩ := pathPatterns_eq_some_iff.mp hpatterns
        exact (List.perm_insertionSort _ _).nodup_iff.mpr (nodup_found fs _ _)
      · exact @List.pairwise_insertionSort _
          (fun a b : Path => bytesLe (upperExtension a) (upperExtension b) = true) _
          ⟨fun a b => bytesLe_total _ _⟩ ⟨fun a b c => bytesLe_trans⟩ _
      · rw [List.mem_insertionSort, List.mem_flatMap, IsSegmentPath, hpatterns, Option.getD_some]
        simp only [globFiles, List.mem_filter, GlobPattern.mem_names_iff]
        exact ⟨fun ⟨p, hp, hname, hex⟩ => ⟨⟨p, hp, hname⟩, hex⟩,
          fun ⟨⟨p, hp, hname⟩, hex⟩ => ⟨p, hp, hname, hex⟩⟩

/-- **Discovery** finds all files of an image. -/
theorem StoredIn.exists_discoverSegments {names : List Path} (h : StoredIn fs first names) :
    ∃ paths, discoverSegments fs first = .ok paths ∧ paths.Perm names := by
  obtain ⟨path, hpath⟩ := List.exists_mem_of_ne_nil _ h.ne_nil
  obtain ⟨⟨p, hp, hmatches⟩, hex⟩ := (h.mem_iff path).mp hpath
  obtain ⟨paths, hpaths⟩ : ∃ paths, discoverSegments fs first = .ok paths := by
    cases hpatterns : pathPatterns first with
    | none => simp [hpatterns] at hp
    | some patterns =>
        rw [hpatterns, Option.getD_some] at hp
        have hfound : path ∈ patterns.flatMap (globFiles fs) := List.mem_flatMap.mpr
          ⟨p, hp, List.mem_filter.mpr ⟨GlobPattern.mem_names_iff.mpr hmatches, hex⟩⟩
        rw [discoverSegments, hpatterns]
        exact ⟨_, if_neg (List.ne_nil_of_mem hfound)⟩
  obtain ⟨hnodup, -, hmem⟩ := discoverSegments_spec hpaths
  exact ⟨paths, hpaths, (List.perm_ext_iff_of_nodup hnodup h.nodup).mpr fun path =>
    (hmem path).trans (h.mem_iff path).symm⟩

/-! ### From any of the files -/

/-- The extension that a path is taken to have starts with a letter. -/
def StartsWithLetter (first : Path) : Prop :=
  ∀ name, fileName first = some name → (extensionOrDefault name).headD 69 ∈ letterClass

/-- The two cases of a letter. -/
theorem letterCases_of_mem {a b : UInt8} (ha : a ∈ letterClass)
    (hb : b ∈ letterCases (toAsciiUppercase a)) :
    b ∈ letterClass ∧ toAsciiUppercase b = toAsciiUppercase a := by
  have hall : (letterClass.all fun a => (letterCases (toAsciiUppercase a)).all fun b =>
      letterClass.contains b && toAsciiUppercase b == toAsciiUppercase a) = true := by
    decide +kernel
  have h := List.all_eq_true.mp (List.all_eq_true.mp hall a ha) b hb
  rw [Bool.and_eq_true, List.contains_iff_mem, beq_iff_eq] at h
  exact h

/-- The patterns go by the first letter of the extension, and by whether it is four bytes long. -/
theorem segmentPatterns_congr {stem : Path} {ext ext' : FileName}
    (hhead : toAsciiUppercase (ext'.headD 69) = toAsciiUppercase (ext.headD 69))
    (hlen : ext'.length = 4 ↔ ext.length = 4) :
    segmentPatterns stem ext' = segmentPatterns stem ext := by
  rw [segmentPatterns, segmentPatterns]
  simp only [hhead, hlen]

/-- An extension that a pattern asks for, where it starts with a letter: it is made of letters and
digits, and asks for the same patterns itself. -/
theorem segmentPatterns_of_matches {stem stem' : Path} {ext ext' : FileName} {p : GlobPattern}
    (hletter : ext.headD 69 ∈ letterClass) (hp : p ∈ segmentPatterns stem ext)
    (hext' : List.Forall₂ (· ∈ ·) ext' p.classes) :
    (∀ b ∈ ext', b ∈ digitClass ++ letterClass) ∧ ext' ≠ [] ∧ p.stem = stem ∧
      segmentPatterns stem' ext' = segmentPatterns stem' ext := by
  obtain ⟨u, hu⟩ : ∃ u, u = letterCases (toAsciiUppercase (ext.headD 69)) := ⟨_, rfl⟩
  have hcases : ∀ b ∈ u, b ∈ letterClass ∧
      toAsciiUppercase b = toAsciiUppercase (ext.headD 69) := fun b hb =>
    letterCases_of_mem hletter (hu ▸ hb)
  -- The classes, whatever the pattern: the letter, perhaps an x, y or z, and two of one class.
  obtain ⟨c, hc, hclasses, hstem⟩ : ∃ c, (c = digitClass ∨ c = letterClass) ∧
      p.classes = (if ext.length = 4 then [u, xyzClass] else [u]) ++ [c, c] ∧ p.stem = stem := by
    simp only [segmentPatterns, ← hu, List.mem_cons, List.not_mem_nil, or_false] at hp
    rcases hp with rfl | rfl
    · exact ⟨_, .inl rfl, rfl, rfl⟩
    · exact ⟨_, .inr rfl, rfl, rfl⟩
  have hin : ∀ b ∈ c, b ∈ digitClass ++ letterClass := by
    rcases hc with rfl | rfl
    · exact fun b hb => List.mem_append_left _ hb
    · exact fun b hb => List.mem_append_right _ hb
  have hletters : (xyzClass.all fun b => (digitClass ++ letterClass).contains b) = true := by
    decide +kernel
  have hxyz : ∀ b ∈ xyzClass, b ∈ digitClass ++ letterClass := fun b hb =>
    List.contains_iff_mem.mp (List.all_eq_true.mp hletters b hb)
  have hu' : ∀ b ∈ u, b ∈ digitClass ++ letterClass := fun b hb =>
    List.mem_append_right _ (hcases b hb).1
  rw [hclasses] at hext'
  have hlen := hext'.length_eq
  refine ⟨?_, ?_, hstem, ?_⟩
  · intro b hb
    obtain ⟨i, hi, rfl⟩ := List.getElem_of_mem hb
    have hmem := (List.forall₂_iff_get.mp hext').2 i hi (hlen ▸ hi)
    have hclass : ∀ d ∈ (if ext.length = 4 then [u, xyzClass] else [u]) ++ [c, c],
        ∀ b ∈ d, b ∈ digitClass ++ letterClass := by
      intro d hd
      split_ifs at hd <;>
      · simp only [List.cons_append, List.nil_append, List.mem_cons, List.not_mem_nil,
          or_false] at hd
        rcases hd with rfl | hd
        · exact hu'
        · first
          | (rcases hd with rfl | rfl | rfl; exacts [hxyz, hin, hin])
          | (rcases hd with rfl | rfl; exacts [hin, hin])
    exact hclass _ (List.get_mem _ _) _ hmem
  · rintro rfl
    split_ifs at hlen <;> cases hlen
  · refine segmentPatterns_congr ?_ ?_
    · split_ifs at hext' <;>
      · obtain ⟨b, rest, hb, -, rfl⟩ := List.forall₂_cons_right_iff.mp hext'
        exact (hcases b hb).2
    · split_ifs at hlen with hfour
      · exact iff_of_true hlen hfour
      · exact iff_of_false (by rw [hlen]; simp) hfour

/-- An extension of letters and digits is taken as it is. -/
theorem extensionOrDefault_joinExtension {stem ext : FileName} (hstem : stem ≠ [])
    (hext : ext ≠ []) (hall : ∀ b ∈ ext, b ∈ digitClass ++ letterClass) :
    dot ∉ ext ∧ slash ∉ ext ∧ splitExtension (joinExtension stem ext) = (stem, some ext) ∧
      extensionOrDefault (joinExtension stem ext) = ext := by
  have hclass : ∀ b ∈ digitClass ++ letterClass, b ≠ dot ∧ b ≠ slash ∧ b < 0x80 := by
    have hbool : (digitClass ++ letterClass).all fun b => b ≠ dot ∧ b ≠ slash ∧ b < 0x80 := by
      decide
    exact fun b hb => of_decide_eq_true (List.all_eq_true.mp hbool b hb)
  have hdot : dot ∉ ext := fun h => (hclass _ (hall _ h)).1 rfl
  have hslash : slash ∉ ext := fun h => (hclass _ (hall _ h)).2.1 rfl
  have hsplit := splitExtension_joinExtension hstem hext hdot
  have htext := Utf8.toStr_of_ascii fun b hb => (hclass b (hall b hb)).2.2
  refine ⟨hdot, hslash, hsplit, ?_⟩
  rw [extensionOrDefault, hsplit]
  simp only [Option.bind_some, htext, Option.filter_some, ne_eq, hext, not_false_eq_true,
    decide_true, if_true, Option.getD_some]

/-- **The patterns are those of every path that they match.** -/
theorem pathPatterns_of_matches {patterns : List GlobPattern} (hfirst : StartsWithLetter first)
    (hpatterns : pathPatterns first = some patterns) {p : GlobPattern} (hp : p ∈ patterns)
    {path : Path} (hpath : p.Matches path) : pathPatterns path = some patterns := by
  obtain ⟨name, hname, htext, rfl⟩ := pathPatterns_eq_some_iff.mp hpatterns
  obtain ⟨ext, rfl, hext⟩ := GlobPattern.matches_iff.mp hpath
  have hletter := hfirst name hname
  obtain ⟨hall, hne, hstem, hsame⟩ := @segmentPatterns_of_matches _ (segmentStem first name) _ _ _
    hletter hp hext
  have hname0 : name ≠ [] := by
    rintro rfl
    rw [fileName] at hname
    split_ifs at hname with h
    exact h (.inl (Option.some.inj hname))
  have hstem0 := stem_ne_nil hname0
  have hslashStem : slash ∉ (splitExtension name).1 := fun h =>
    slash_notMem_fileName hname ((stem_starts name).subset h)
  obtain ⟨hdot, hslash, hsplit, hexteq⟩ := extensionOrDefault_joinExtension hstem0 hne hall
  rw [hstem, segmentStem, ← childPath_joinExtension]
  refine pathPatterns_eq_some_iff.mpr
    ⟨_, fileName_childPath hstem0 hslashStem hne hslash hdot, ?_, ?_⟩
  · rw [hsplit]
    exact htext
  · rw [segmentStem, segmentDir_childPath (trimPath_segmentDir first) (segmentDir_ne_nil first)
      hslashStem hne hslash hdot, hsplit, hexteq]
    exact hsame

/-- **From every file that is found, the same files are found.** -/
theorem discoverSegments_of_mem (hfirst : StartsWithLetter first) {paths : List Path}
    (h : discoverSegments fs first = .ok paths) {path : Path} (hpath : path ∈ paths) :
    discoverSegments fs path = .ok paths := by
  cases hpatterns : pathPatterns first with
  | none =>
      rw [discoverSegments, hpatterns] at h
      cases h
  | some patterns =>
      rw [discoverSegments, hpatterns] at h
      simp only at h
      split_ifs at h with hnil
      obtain rfl := Except.ok.inj h
      rw [List.mem_insertionSort, List.mem_flatMap] at hpath
      obtain ⟨p, hp, hmem⟩ := hpath
      have hmatches := GlobPattern.mem_names_iff.mp (List.mem_filter.mp hmem).1
      rw [discoverSegments, pathPatterns_of_matches hfirst hpatterns hp hmatches]
      simp only [if_neg hnil]

end Discovery

/-! ### What an open depends on -/

section Frame

variable {Name : Type} {fs fs' : FileSystem Path Name UInt8} {first : Path}

/-- Two file systems that agree on all files that an open looks for. -/
def AgreeFor (fs fs' : FileSystem Path Name UInt8) (first : Path) : Prop :=
  ∀ p, IsSegmentPath first p →
    (fs'.fileAt p).isSome = (fs.fileAt p).isSome ∧ fs'.openFile p = fs.openFile p

theorem mapM_congr_of_mem {ε α β : Type} {f g : α → Except ε β} {l : List α}
    (h : ∀ a ∈ l, f a = g a) : l.mapM f = l.mapM g := by
  induction l with
  | nil => rfl
  | cons a l ih =>
      obtain ⟨ha, hl⟩ := List.forall_mem_cons.mp h
      rw [List.mapM_cons, List.mapM_cons, ha, ih hl]

theorem discoverSegments_congr (h : AgreeFor fs fs' first) :
    discoverSegments fs' first = discoverSegments fs first := by
  have hfound : ∀ patterns, pathPatterns first = some patterns →
      patterns.flatMap (globFiles fs') = patterns.flatMap (globFiles fs) := by
    intro patterns hpatterns
    refine List.flatMap_congr fun p hp => List.filter_congr fun path hpath => ?_
    exact (h path ⟨p, by rwa [hpatterns], GlobPattern.mem_names_iff.mp hpath⟩).1
  rw [discoverSegments, discoverSegments]
  cases hpatterns : pathPatterns first with
  | none => rfl
  | some patterns =>
      dsimp only
      rw [hfound patterns hpatterns]

theorem openSource_congr {p : Path} (h : fs'.openFile p = fs.openFile p) :
    openSource fs' p = openSource fs p := by
  rw [openSource, openSource, h]

/-- **An open depends on no other file** than those it looks for. -/
theorem openPath_congr (C : Crates) (h : AgreeFor fs fs' first) :
    openPath fs' C first = openPath fs C first := by
  rw [openPath, openPath, openWithCacheSize, openWithCacheSize, discoverSegments_congr h]
  cases hpaths : discoverSegments fs first with
  | error e => rfl
  | ok paths =>
      have hsource : ∀ p ∈ paths, openSource fs' p = openSource fs p := fun p hp =>
        openSource_congr (h p (((discoverSegments_spec hpaths).2.2 p).mp hp).1).2
      change openSegmentPaths fs' C paths _ _ = openSegmentPaths fs C paths _ _
      cases paths with
      | nil => rfl
      | cons p rest =>
          have hp := hsource p (List.mem_cons_self ..)
          have hv2 : openSourcesV2 fs' (p :: rest) = openSourcesV2 fs (p :: rest) :=
            mapM_congr_of_mem fun q hq => by rw [hsource q hq]
          rw [openSegmentPaths, openSegmentPaths, probeV2, probeV2, hp, hv2,
            mapM_congr_of_mem hsource]

end Frame

end EwfForensic

import EwfForensic.Cli.LogicalPaths
import EwfForensic.Lib.Json

/-!
# The Listing of a Logical Image

`handle_ls` of `cli/src/main.rs`. In JSON mode it prints a line for each entry and writes the
strings of the line with `{:?}`, which is meant for Rust: its escapes of a NUL and of characters
that are not printable are none of JSON.

* `UnicodeTables` — what the standard library knows of characters.
* `debugStr` — `{:?}` of a string.
* `handleLs` — the listing.
* `RootPath` — the names from the root to an entry.
* `listing_faithful_iff` — a line is the JSON object of its entry exactly if no character of its
  path and its digest is written with such an escape.
-/

namespace EwfForensic.Cli

open Octets

/-! ### Strings in debug format -/

/-- The tables of the standard library about characters: what is printable, and what extends the
character before it. Both are as they are for ASCII in every version of Unicode. -/
structure UnicodeTables where
  isPrintable : Char → Bool
  isGraphemeExtended : Char → Bool
  isPrintable_ascii : ∀ c : Char, c.toNat < 127 → isPrintable c = decide (32 ≤ c.toNat)
  isGraphemeExtended_ascii : ∀ c : Char, c.toNat < 127 → isGraphemeExtended c = false

/-- `char::escape_unicode`. -/
def escapeUnicode (c : Char) : List Char :=
  "\\u\x7b".toList ++ Nat.toDigits 16 c.toNat ++ "\x7d".toList

/-- `char::escape_debug_ext` as the `Debug` instance of `str` calls it. -/
def escapeDebug (T : UnicodeTables) (c : Char) : List Char :=
  if c = '\x00' then ['\\', '0']
  else if c = '\t' then ['\\', 't']
  else if c = '\r' then ['\\', 'r']
  else if c = '\n' then ['\\', 'n']
  else if c = '\\' then ['\\', '\\']
  else if c = '"' then ['\\', '"']
  else if T.isGraphemeExtended c then escapeUnicode c
  else if T.isPrintable c then [c]
  else escapeUnicode c

/-- `{:?}` of a string. -/
def debugStr (T : UnicodeTables) (s : List Char) : List Char :=
  '"' :: s.flatMap (escapeDebug T) ++ ['"']

/-! ### The listing -/

/-- The line of an entry in JSON mode. -/
def entryJson (T : UnicodeTables) (tree : LogicalTree) (i : ℕ) (e : LogicalEntry) : List Char :=
  "\x7b\"path\":".toList ++ debugStr T (fullPath tree i) ++ ",\"dir\":".toList ++
    (toString e.isDir).toList ++ ",\"size\":".toList ++ Nat.toDigits 10 e.size ++
    ",\"md5\":".toList ++ debugStr T (e.md5.getD []) ++ ",\"id\":".toList ++
    Nat.toDigits 10 e.id ++ "\x7d".toList

/-- `{:>12}` of a number. -/
def alignedRight (n : ℕ) : List Char :=
  List.replicate (12 - (Nat.toDigits 10 n).length) ' ' ++ Nat.toDigits 10 n

/-- The line of an entry otherwise. -/
def entryRow (tree : LogicalTree) (i : ℕ) (e : LogicalEntry) : List Char :=
  (if e.isDir then "d" else "-").toList ++ alignedRight e.size ++ "  ".toList ++
    e.md5.getD (List.replicate 32 '-') ++ "  ".toList ++ fullPath tree i

/-- The text of a warning. -/
def warningText (T : UnicodeTables) : LogicalWarning → List Char
  | .valueCount line values indicators =>
    "entry at line ".toList ++ Nat.toDigits 10 line ++ ": ".toList ++ Nat.toDigits 10 values ++
      " values for ".toList ++ Nat.toDigits 10 indicators ++ " declared indicators".toList
  | .shortNameSize line declared =>
    "entry at line ".toList ++ Nat.toDigits 10 line ++ ": short-name size ".toList ++
      debugStr T declared ++ " disagrees with its name length".toList

/-- What is printed behind the entries. The sum of the sizes wraps around at 64 bits. -/
def listingSummary (T : UnicodeTables) (verified : Bool) (tree : LogicalTree) (replaced : ℕ) :
    List Char :=
  let files := tree.entries.filter (¬ ·.isDir)
  let dirs := tree.entries.length - files.length
  let bytes := (files.map LogicalEntry.size).sum % 2 ^ 64
  let integrity :=
    if verified then "VERIFIED (ltree matches its stored MD5)"
    else "FAILED — the file tree does not match the MD5 stored with it"
  "\n  entries: ".toList ++ Nat.toDigits 10 tree.entries.length ++ "  (".toList ++
    Nat.toDigits 10 files.length ++ " files, ".toList ++ Nat.toDigits 10 dirs ++
    " directories)\n  logical size: ".toList ++ Nat.toDigits 10 bytes ++
    " bytes\n  indicators declared by the file: ".toList ++
    Nat.toDigits 10 tree.indicators.length ++ "\n  ltree integrity: ".toList ++
    integrity.toList ++ "\n  unpaired UTF-16 units replaced: ".toList ++
    Nat.toDigits 10 replaced ++ "\n  parse warnings: ".toList ++
    Nat.toDigits 10 tree.warnings.length ++ "\n".toList ++
    (tree.warnings.take 10).flatMap fun w =>
      "    warning: ".toList ++ warningText T w ++ "\n".toList

/-- `handle_ls`, from what `find_ltree` returns. -/
def handleLs (C : Crates) (T : UnicodeTables) (found : LtreeResult) (json summary : Bool) :
    Except LogicalError (List Char) :=
  match found with
  | .error e => .error e
  | .ok (header, body) =>
    let (text, replaced) := decodeLtreeText body
    match parseEntryTree text with
    | .error e => .error e
    | .ok tree =>
      let lines :=
        if summary then []
        else tree.entries.zipIdx.map fun (e, i) =>
          if json then entryJson T tree i e else entryRow tree i e
      .ok (lines.flatMap (· ++ ['\n']) ++
        listingSummary T (C.md5 body = header.dataMd5) tree replaced)

/-! ### Strings that are JSON -/

/-- A character that debug format writes as JSON has it. -/
def UnicodeTables.inJson (T : UnicodeTables) (c : Char) : Bool :=
  c = '\t' ∨ c = '\r' ∨ c = '\n' ∨ c = '\\' ∨ c = '"' ∨
    T.isPrintable c = true ∧ T.isGraphemeExtended c = false

section Strings

variable {T : UnicodeTables}

theorem UnicodeTables.toNat_of_isPrintable {c : Char} (h : T.isPrintable c = true) :
    32 ≤ c.toNat := by
  by_contra hlow
  rw [T.isPrintable_ascii c (by omega), decide_eq_true_eq] at h
  exact hlow h

/-- Such a character is read back. -/
theorem charText_escapeDebug {c : Char} (h : T.inJson c = true) :
    Json.CharText (escapeDebug T c) c := by
  rw [UnicodeTables.inJson, decide_eq_true_eq] at h
  rw [escapeDebug]
  split_ifs with hnul htab hreturn hfeed hback hquote hextended hprintable
  · subst hnul
    have hprintable : T.isPrintable '\x00' = true ∧ T.isGraphemeExtended '\x00' = false := by
      simpa using h
    cases T.toNat_of_isPrintable hprintable.1
  · subst htab
    exact Json.charText_escape fun _ => rfl
  · subst hreturn
    exact Json.charText_escape fun _ => rfl
  · subst hfeed
    exact Json.charText_escape fun _ => rfl
  · subst hback
    exact Json.charText_escape fun _ => rfl
  · subst hquote
    exact Json.charText_escape fun _ => rfl
  · simp only [htab, hreturn, hfeed, hback, hquote, hextended, false_or] at h
    cases h.2
  · exact Json.charText_self hquote hback (T.toNat_of_isPrintable hprintable)
  · simp only [htab, hreturn, hfeed, hback, hquote, hprintable, false_or] at h
    cases h.1

theorem stuck_escapeUnicode (c : Char) : Json.Stuck (escapeUnicode c) :=
  Json.stuck_unicode (c := '\x7b') rfl (Nat.toDigits 16 c.toNat ++ ['\x7d'])

/-- No string goes on at any other one. -/
theorem stuck_escapeDebug {c : Char} (h : T.inJson c = false) : Json.Stuck (escapeDebug T c) := by
  rw [UnicodeTables.inJson, decide_eq_false_iff_not] at h
  rw [escapeDebug]
  split_ifs with hnul htab hreturn hfeed hback hquote hextended hprintable
  · exact Json.stuck_escape fun _ => rfl
  · exact absurd (.inl htab) h
  · exact absurd (.inr (.inl hreturn)) h
  · exact absurd (.inr (.inr (.inl hfeed))) h
  · exact absurd (.inr (.inr (.inr (.inl hback)))) h
  · exact absurd (.inr (.inr (.inr (.inr (.inl hquote))))) h
  · exact stuck_escapeUnicode c
  · rw [Bool.not_eq_true] at hextended
    exact absurd (.inr (.inr (.inr (.inr (.inr ⟨hprintable, hextended⟩))))) h
  · exact stuck_escapeUnicode c

/-- **A string of such characters is read back.** -/
theorem reads_debugStr {s : List Char} (h : ∀ c ∈ s, T.inJson c = true) (depth : ℕ) :
    Json.Reads (Json.value (depth + 1)) (debugStr T s) (.string s) :=
  Json.reads_string (Json.spells_flatMap fun c hc => charText_escapeDebug (h c hc)) depth

/-- **A string with any other character in it is not read.** -/
theorem fails_debugStr {s : List Char} (h : ¬ ∀ c ∈ s, T.inJson c = true) (depth : ℕ) :
    Json.Fails (Json.value depth) (debugStr T s) := by
  have hgood : ∀ c ∈ s.takeWhile T.inJson, Json.CharText (escapeDebug T c) c := fun c hc =>
    charText_escapeDebug (List.mem_takeWhile_imp hc)
  have hfirst := List.head?_dropWhile_not T.inJson s
  cases hrest : s.dropWhile T.inJson with
  | nil => exact absurd (List.dropWhile_eq_nil_iff.mp hrest) h
  | cons c rest =>
      rw [hrest] at hfirst
      have hsplit : s = s.takeWhile T.inJson ++ c :: rest := by
        rw [← hrest, List.takeWhile_append_dropWhile]
      have hfails := Json.fails_string hgood
        ((stuck_escapeDebug hfirst).append (rest.flatMap (escapeDebug T) ++ ['"'])) depth
      rw [hsplit, debugStr, List.flatMap_append, List.flatMap_cons]
      simpa only [List.append_assoc, List.cons_append] using hfails

theorem opens_debugStr (s : List Char) : Json.Opens (debugStr T s) :=
  ⟨'"', _, rfl, rfl, by decide, by decide⟩

end Strings

/-! ### Lines that are JSON -/

/-- The value of an entry's object, with its path. -/
def entryValue (path : List Char) (e : LogicalEntry) : Json.Value :=
  .object [("path".toList, .string path), ("dir".toList, .bool e.isDir),
    ("size".toList, .nat e.size), ("md5".toList, .string (e.md5.getD [])),
    ("id".toList, .nat e.id)]

section Lines

variable {T : UnicodeTables} {tree : LogicalTree} {i : ℕ} {e : LogicalEntry}

/-- **The line is read back** when both of its strings are. -/
theorem reads_entryJson (hpath : ∀ c ∈ fullPath tree i, T.inJson c = true)
    (hmd5 : ∀ c ∈ e.md5.getD [], T.inJson c = true) (depth : ℕ) :
    Json.Reads (Json.value (depth + 2)) (entryJson T tree i e)
      (entryValue (fullPath tree i) e) := by
  have hpathMember := Json.reads_tightMember ['p', 'a', 't', 'h'] (by decide)
    (reads_debugStr hpath depth)
  have hdir := Json.reads_tightMember ['d', 'i', 'r'] (by decide) (Json.reads_bool e.isDir depth)
  have hsize := Json.reads_tightMember ['s', 'i', 'z', 'e'] (by decide)
    (Json.reads_nat e.size depth)
  have hmd5Member := Json.reads_tightMember ['m', 'd', '5'] (by decide)
    (reads_debugStr hmd5 depth)
  have hid := Json.reads_tightMember ['i', 'd'] (by decide) (Json.reads_nat e.id depth)
  have hobject := Json.reads_object (.cons_tight hpathMember (.cons_tight hdir
    (.cons_tight hsize (.cons_tight hmd5Member (.last_tight hid)))))
  unfold entryJson entryValue
  simpa only [List.append_assoc, List.cons_append, List.nil_append, String.reduceToList] using
    hobject

theorem length_entryJson : ∃ depth, (entryJson T tree i e).length = depth + 2 := by
  refine ⟨(entryJson T tree i e).length - 2, ?_⟩
  have hlen : 2 ≤ (entryJson T tree i e).length := by
    unfold entryJson
    simp only [List.length_append, String.reduceToList, List.length_cons]
    omega
  omega

/-- A line with a faulty member is not valid. -/
theorem parse_of_faulty {t more : List Char} (heq : entryJson T tree i e = '{' :: t ++ more)
    (h : ∀ depth, Json.Faulty (Json.member (Json.value (depth + 1))) t) :
    Json.parse (entryJson T tree i e) = none := by
  obtain ⟨depth, hdepth⟩ := @length_entryJson T tree i e
  refine Json.parse_of_fails heq ⟨'{', _, rfl, rfl, by decide, by decide⟩ ?_
  rw [hdepth]
  exact Json.fails_object (h depth)

/-- A path that is not JSON. -/
theorem parse_of_path (h : ¬ ∀ c ∈ fullPath tree i, T.inJson c = true) :
    Json.parse (entryJson T tree i e) = none := by
  have hfaulty := fun depth => Json.faulty_tightMember ['p', 'a', 't', 'h'] (by decide)
    (opens_debugStr _) (fails_debugStr h (depth + 1))
  refine @parse_of_faulty T tree i e _ (",\"dir\":".toList ++ (toString e.isDir).toList ++
    ",\"size\":".toList ++ Nat.toDigits 10 e.size ++ ",\"md5\":".toList ++
    debugStr T (e.md5.getD []) ++ ",\"id\":".toList ++ Nat.toDigits 10 e.id ++ "\x7d".toList)
    ?_ hfaulty
  unfold entryJson
  simp only [List.append_assoc, List.cons_append, List.nil_append, String.reduceToList]

/-- A digest that is not, behind a path that is. -/
theorem parse_of_md5 (hpath : ∀ c ∈ fullPath tree i, T.inJson c = true)
    (h : ¬ ∀ c ∈ e.md5.getD [], T.inJson c = true) :
    Json.parse (entryJson T tree i e) = none := by
  have hpathMember := fun depth => Json.reads_tightMember ['p', 'a', 't', 'h'] (by decide)
    (reads_debugStr hpath depth)
  have hdir := fun depth =>
    Json.reads_tightMember ['d', 'i', 'r'] (by decide) (Json.reads_bool e.isDir depth)
  have hsize := fun depth => Json.reads_tightMember ['s', 'i', 'z', 'e'] (by decide)
    (Json.reads_nat e.size depth)
  have hmd5 := fun depth => Json.faulty_tightMember ['m', 'd', '5'] (by decide)
    (opens_debugStr _) (fails_debugStr h (depth + 1))
  have hfaulty := fun depth => Json.Faulty.later_tight (hpathMember depth)
    (.later_tight (hdir depth) (.later_tight (hsize depth) (hmd5 depth)))
  refine @parse_of_faulty T tree i e _
    (",\"id\":".toList ++ Nat.toDigits 10 e.id ++ "\x7d".toList) ?_ hfaulty
  unfold entryJson
  simp only [List.append_assoc, List.cons_append, List.nil_append, String.reduceToList]

/-- **A line is the JSON object of its entry** exactly if both of its strings are JSON. -/
theorem parse_entryJson_iff :
    Json.parse (entryJson T tree i e) = some (entryValue (fullPath tree i) e) ↔
      (∀ c ∈ fullPath tree i, T.inJson c = true) ∧ ∀ c ∈ e.md5.getD [], T.inJson c = true := by
  constructor
  · intro h
    by_cases hpath : ∀ c ∈ fullPath tree i, T.inJson c = true
    · by_cases hmd5 : ∀ c ∈ e.md5.getD [], T.inJson c = true
      · exact ⟨hpath, hmd5⟩
      · rw [parse_of_md5 hpath hmd5] at h
        cases h
    · rw [parse_of_path hpath] at h
      cases h
  · rintro ⟨hpath, hmd5⟩
    obtain ⟨depth, hdepth⟩ := @length_entryJson T tree i e
    have hreads := reads_entryJson (e := e) hpath hmd5 depth
    have hparse := @Json.parse_of_reads _ [] _ Json.blank_nil (by rwa [List.append_nil, hdepth])
    rwa [List.append_nil] at hparse

end Lines

/-! ### Paths -/

/-- The names from the root to an entry. -/
inductive RootPath (entries : List LogicalEntry) : ℕ → List (List Char) → Prop
  | root {i : ℕ} {e : LogicalEntry} (he : entries[i]? = some e) (hroot : e.parent = none) :
      RootPath entries i [e.name]
  | child {i p : ℕ} {e : LogicalEntry} {names : List (List Char)} (he : entries[i]? = some e)
      (hparent : e.parent = some p) (h : RootPath entries p names) :
      RootPath entries i (names ++ [e.name])

/-- Names with slashes between them, the empty ones left out. -/
def joinPath (names : List (List Char)) : List Char :=
  ['/'].intercalate (names.filter (· ≠ []))

/-- The walk to the root meets the names in reverse. -/
theorem rootPath_visits {entries : List LogicalEntry}
    (h : Link.WellLinked (entries.map LogicalEntry.link)) {i n : ℕ} (hi : i < entries.length)
    (hn : i < n) :
    RootPath entries i ((Loop.visits (pathStep entries) n i).map LogicalEntry.name).reverse := by
  induction n generalizing i with
  | zero => omega
  | succ n ih =>
      obtain ⟨e, hstep, he⟩ := pathStep_of_lt hi
      have hlink : Link.parentOf (entries.map LogicalEntry.link) i = e.parent := by
        rw [Link.parentOf, List.getElem?_map, he]
        rfl
      cases hparent : e.parent with
      | none =>
          rw [hlink, hparent] at hstep
          rw [Loop.visits_of_last hstep]
          exact .root he hparent
      | some q =>
          have hq := (h.parent_lt i q (hlink.trans hparent)).1
          rw [hlink, hparent] at hstep
          rw [Loop.visits_of_next hstep, List.map_cons, List.reverse_cons]
          exact .child he hparent (ih (by omega) (by omega))

/-- `full_path` joins the names from the root to the entry. -/
theorem exists_rootPath {text : List Char} {tree : LogicalTree}
    (h : parseEntryTree text = .ok tree) {i : ℕ} (hi : i < tree.entries.length) :
    ∃ names, RootPath tree.entries i names ∧ fullPath tree i = joinPath names := by
  refine ⟨_, rootPath_visits (wellLinked_parseEntryTree h) hi (Nat.lt_succ_self i), ?_⟩
  rw [fullPath, joinPath, List.filter_reverse]
  rfl

/-! ### The whole listing -/

/-- The lines of the entries in JSON mode. -/
def entryLines (T : UnicodeTables) (tree : LogicalTree) : List (List Char) :=
  tree.entries.zipIdx.map fun (e, i) => entryJson T tree i e

/-- **When the listing is faithful**: in JSON mode there is a line for each entry of the tree, and
the line is the JSON object of the entry, with the names from the root in its path, exactly if debug
format writes its path and its digest as JSON has it. -/
theorem listing_faithful_iff (C : Crates) (T : UnicodeTables) (header : LtreeHeader)
    {body : List UInt8} {tree : LogicalTree}
    (h : parseEntryTree (decodeLtreeText body).1 = .ok tree) :
    handleLs C T (.ok (header, body)) true false =
      .ok ((entryLines T tree).flatMap (· ++ ['\n']) ++
        listingSummary T (C.md5 body = header.dataMd5) tree (decodeLtreeText body).2) ∧
    (entryLines T tree).length = tree.entries.length ∧
    ∀ i e, tree.entries[i]? = some e → ∃ line names,
      (entryLines T tree)[i]? = some line ∧ RootPath tree.entries i names ∧
      (Json.parse line = some (entryValue (joinPath names) e) ↔
        (∀ c ∈ joinPath names, T.inJson c = true) ∧
          ∀ c ∈ e.md5.getD [], T.inJson c = true) := by
  refine ⟨?_, ?_, fun i e he => ?_⟩
  · simp only [handleLs, h]
    rfl
  · rw [entryLines, List.length_map, List.length_zipIdx]
  · obtain ⟨names, hnames, hpath⟩ := exists_rootPath h (List.getElem?_eq_some_iff.mp he).1
    refine ⟨entryJson T tree i e, names, ?_, hnames, ?_⟩
    · rw [entryLines, List.getElem?_map, List.getElem?_zipIdx, he]
      simp only [Option.map_some, Nat.zero_add]
    · rw [← hpath]
      exact parse_entryJson_iff

/-- The tables for ASCII and for the combining marks U+0300 to U+036F. -/
def UnicodeTables.reference : UnicodeTables where
  isPrintable c := 32 ≤ c.toNat ∧ c.toNat < 127
  isGraphemeExtended c := 0x300 ≤ c.toNat ∧ c.toNat ≤ 0x36F
  isPrintable_ascii c hc := by simp [hc]
  isGraphemeExtended_ascii c hc := by simp; omega

/-- The UTF-16 of a text without surrogates. -/
def utf16Body (text : List Char) : List UInt8 :=
  text.flatMap fun c => [UInt8.ofNat c.toNat, UInt8.ofNat (c.toNat / 256)]

theorem listing_faithful_iff_nestedText :
    ∃ tree line e, parseEntryTree (decodeLtreeText (utf16Body nestedText)).1 = .ok tree ∧
      (entryLines UnicodeTables.reference tree)[0]? = some line ∧
      Json.parse line = some (entryValue ['D', 'o', 'c', 's'] e) := by
  have hval : (parseEntryTree (decodeLtreeText (utf16Body nestedText)).1).toOption.map
      (fun tree => tree.entries[0]?.map fun e => (e.name, e.parent, e.md5)) =
      some (some (['D', 'o', 'c', 's'], none, none)) := by
    decide +kernel
  obtain ⟨tree, hparse, hentry⟩ := exists_parseEntryTree hval
  obtain ⟨e, he, hfields⟩ := Option.map_eq_some_iff.mp hentry
  obtain ⟨hname, hroot, hmd5⟩ : e.name = ['D', 'o', 'c', 's'] ∧ e.parent = none ∧ e.md5 = none := by
    simpa only [Prod.mk.injEq] using hfields
  obtain ⟨line, names, hline, hnames, hiff⟩ := (listing_faithful_iff Crates.reference
    UnicodeTables.reference ⟨Digest.zero 16, 0, 0⟩ hparse).2.2 0 e he
  obtain rfl : names = [['D', 'o', 'c', 's']] := by
    cases hnames with
    | root he' _ =>
        obtain rfl := Option.some.inj (he.symm.trans he')
        rw [hname]
    | child he' hparent _ =>
        obtain rfl := Option.some.inj (he.symm.trans he')
        rw [hroot] at hparent
        cases hparent
  refine ⟨tree, line, e, hparse, hline, hiff.mpr ⟨List.all_eq_true.mp rfl, ?_⟩⟩
  rw [hmd5]
  nofun

/-- A name that is written with a combining accent, as some file systems keep them. -/
def accentText : List Char := "entry\n1\t1\nn\n0\t1\n\n0\t0\ncafe\u0301\n".toList

/-- Debug format writes the accent as `\u{301}`, and the line is no JSON. -/
theorem accentName_not_valid :
    ∃ tree line, parseEntryTree (decodeLtreeText (utf16Body accentText)).1 = .ok tree ∧
      (entryLines UnicodeTables.reference tree)[0]? = some line ∧ Json.parse line = none := by
  have hval : (parseEntryTree (decodeLtreeText (utf16Body accentText)).1).toOption.map
      (fun tree => (entryLines UnicodeTables.reference tree)[0]?.map fun line =>
        (Json.parse line).isNone) = some (some true) := by
    decide +kernel
  obtain ⟨tree, hparse, hlines⟩ := exists_parseEntryTree hval
  obtain ⟨line, hline, hnone⟩ := Option.map_eq_some_iff.mp hlines
  exact ⟨tree, line, hparse, hline, Option.isNone_iff_eq_none.mp hnone⟩

end EwfForensic.Cli

import EwfForensic.Core.Ltree
import EwfForensic.Core.Text
import Mathlib.Data.List.DropRight

/-!
# The File Tree of a Logical Image

`parse_entry_tree` and `parse_one` of `core/src/logical.rs`. The text of an `ltree` section has an
`entry` category: a line of names, the indicators, and then two lines for each entry, its counts and
its values, the entries below it after it.

* `LogicalEntry`, `LogicalTree` — an entry with its links by index, and the entries in order.
* `pushLogicalEntry` — the entry that two lines hold, added to the tree and to its parent.
* `parseOne` — an entry and all below it. It moves two lines forward before it goes deeper, so
  that one more step than there are lines is more than its depth.
* `parseEntryTree`.
-/

namespace EwfForensic

/-! ### Text -/

/-- `char::is_whitespace`. -/
def isWhitespace (c : Char) : Bool :=
  c = ' ' ∨ 0x09 ≤ c.toNat ∧ c.toNat ≤ 0x0D ∨ c.toNat = 0x85 ∨ c.toNat = 0xA0 ∨
    c.toNat = 0x1680 ∨ 0x2000 ≤ c.toNat ∧ c.toNat ≤ 0x200A ∨ c.toNat = 0x2028 ∨
    c.toNat = 0x2029 ∨ c.toNat = 0x202F ∨ c.toNat = 0x205F ∨ c.toNat = 0x3000

/-- `str::trim`. -/
def trim (text : List Char) : List Char := (text.dropWhile isWhitespace).rdropWhile isWhitespace

/-- `str::split_once`. -/
def splitOnce (c : Char) (text : List Char) : Option (List Char × List Char) :=
  if c ∈ text then some (text.takeWhile (· ≠ c), (text.dropWhile (· ≠ c)).tail) else none

/-- The characters of a sequence of code units, and how many of them are replaced: a surrogate
outside a high-low pair is U+FFFD. -/
def decodeReplacing : List ℕ → List Char × ℕ
  | [] => ([], 0)
  | [u] =>
    if 0xD800 ≤ u ∧ u < 0xE000 then ([Char.ofNat 0xFFFD], 1) else ([Char.ofNat u], 0)
  | u :: v :: rest =>
    if 0xD800 ≤ u ∧ u < 0xDC00 ∧ 0xDC00 ≤ v ∧ v < 0xE000 then
      let (text, replaced) := decodeReplacing rest
      (Char.ofNat (0x10000 + (u - 0xD800) * 0x400 + (v - 0xDC00)) :: text, replaced)
    else
      let (text, replaced) := decodeReplacing (v :: rest)
      if 0xD800 ≤ u ∧ u < 0xE000 then (Char.ofNat 0xFFFD :: text, replaced + 1)
      else (Char.ofNat u :: text, replaced)

/-- `decode_ltree_text`. -/
def decodeLtreeText (data : List UInt8) : List Char × ℕ := decodeReplacing (utf16Units data)

/-- A line without the carriage returns at its end. -/
def trimEndReturns (line : List Char) : List Char := line.rdropWhile (· = '\r')

/-! ### Entries -/

/-- The fields of an entry by their names, each name once. The source keeps them in a `BTreeMap`. -/
abbrev RawFields := List (List Char × List Char)

/-- `BTreeMap::insert`. -/
def RawFields.insert (raw : RawFields) (k v : List Char) : RawFields :=
  raw.filter (·.1 ≠ k) ++ [(k, v)]

/-- The closure `get` of `parse_one`: a missing field is empty. -/
def RawFields.get (raw : RawFields) (k : List Char) : List Char := (raw.lookup k).getD []

/-- `LogicalEntry`. -/
structure LogicalEntry where
  name : List Char
  shortName : List Char
  isDir : Bool
  size : ℕ
  md5 : Option (List Char)
  id : ℕ
  children : List ℕ
  parent : Option ℕ
  raw : RawFields
  deriving DecidableEq

/-- The warnings of `parse_one`, with the line they are about. -/
inductive LogicalWarning where
  /-- "entry at line {line}: {values} values for {indicators} declared indicators". -/
  | valueCount (line values indicators : ℕ)
  /-- "entry at line {line}: short-name size {declared} disagrees with its name length". -/
  | shortNameSize (line : ℕ) (declared : List Char)
  deriving DecidableEq

/-- `LogicalTree`. -/
structure LogicalTree where
  entries : List LogicalEntry := []
  indicators : List (List Char) := []
  warnings : List LogicalWarning := []
  deriving DecidableEq

/-- The field `md5`: empty or all zeros is none. -/
def md5Field (ha : List Char) : Option (List Char) :=
  if ha = [] ∨ ha.all (· = '0') then none else some ha

/-- The field `short_name`: what is after the size. -/
def shortNameField (snh : List Char) : List Char :=
  match splitOnce ' ' snh with
  | some (_, name) => name
  | none => snh

/-- The comparison of the short name with the size before it. -/
def shortNameWarnings (line : ℕ) (snh : List Char) : List LogicalWarning :=
  match splitOnce ' ' snh with
  | some (declared, name) =>
    if parseU64 declared ≠ some (name.length + 1) then [.shortNameSize line declared] else []
  | none => []

/-- The fields that a line of values holds. -/
def rawFields (indicators values : List (List Char)) : RawFields :=
  (indicators.zip values).foldl (fun raw p => raw.insert p.1 p.2) []

/-- An entry with the given fields, without links. -/
def entryOf (raw : RawFields) : LogicalEntry where
  name := raw.get ['n']
  shortName := shortNameField (raw.get ['s', 'n', 'h'])
  isDir := raw.get ['p'] = ['1']
  size := (parseU64 (trim (raw.get ['l', 's']))).getD 0
  md5 := md5Field (raw.get ['h', 'a'])
  id := (parseU64 (trim (raw.get ['i', 'd']))).getD 0
  children := []
  parent := none
  raw := raw

/-- Note new children at their parent, which is an index of the entries. -/
def addChildren (parent : Option ℕ) (children : List ℕ) (entries : List LogicalEntry) :
    List LogicalEntry :=
  match parent with
  | some p => entries.modify p fun e => { e with children := e.children ++ children }
  | none => entries

/-- The body of `parse_one` for the line of values behind line `i`: a new entry with its warnings,
noted at its parent. -/
def pushLogicalEntry (indicators : List (List Char)) (i : ℕ) (valuesLine : List Char)
    (parent : Option ℕ) (tree : LogicalTree) : LogicalTree :=
  let values := valuesLine.splitOn '\t'
  let raw := rawFields indicators values
  let idx := tree.entries.length
  { tree with
    entries := addChildren parent [idx] (tree.entries ++ [{ entryOf raw with parent := parent }])
    warnings := tree.warnings ++
      (if values.length ≠ indicators.length then
        [.valueCount i values.length indicators.length] else []) ++
      shortNameWarnings i (raw.get ['s', 'n', 'h']) }

/-! ### The parser -/

/-- The second tab-separated piece of a line of counts, as a number. -/
def subCount (counts : List Char) : Option ℕ :=
  ((counts.splitOn '\t')[1]?).bind fun v => parseU64 (trim v)

/-- `parse_one`, from the line and the tree before it to those after it. -/
def parseOne (lines indicators : List (List Char)) :
    ℕ → Option ℕ → ℕ × LogicalTree → ℕ × LogicalTree
  | 0, _, st => st
  | fuel + 1, parent, (i, tree) =>
    match lines[i]? with
    | none => (i, tree)
    | some counts =>
      match lines[i + 1]? with
      | none => (i + 1, tree)
      | some valuesLine =>
        let below := parseOne lines indicators fuel (some tree.entries.length)
        below^[(subCount counts).getD 0]
          (i + 2, pushLogicalEntry indicators i valuesLine parent tree)

/-- The lines of a text. -/
def ltreeLines (text : List Char) : List (List Char) := (text.splitOn '\n').map trimEndReturns

/-- The first line of the `entry` category. -/
def entryLine : List Char := ['e', 'n', 't', 'r', 'y']

/-- `parse_entry_tree`. A row of indicators has at least one piece, so it is never found empty. -/
def parseEntryTree (text : List Char) : Except LogicalError LogicalTree :=
  let lines := ltreeLines text
  match lines.idxOf? entryLine with
  | none => .error (.malformedLogicalField "ltree category"
      "no `entry` category in the ltree text".toList)
  | some cat =>
    match lines[cat + 2]? with
    | none => .error (.malformedLogicalField "ltree indicators"
        ("ltree ends at line ".toList ++ Nat.toDigits 10 lines.length ++
          ", before the indicator row".toList))
    | some row =>
      let indicators := row.splitOn '\t'
      if indicators.isEmpty then
        .error (.malformedLogicalField "ltree indicators" "indicator row is empty".toList)
      else
        match (lines[cat + 3]?).bind subCount with
        | none => .error (.malformedLogicalField "ltree root sub-count"
            ((lines[cat + 3]?).getD ("no line at index ".toList ++ Nat.toDigits 10 (cat + 3))))
        | some rootSubs =>
          .ok ((parseOne lines indicators (lines.length + 1) none)^[rootSubs]
            (cat + 5, { indicators := indicators })).2

/-- A text whose tree shows something is parsed. -/
theorem exists_parseEntryTree {α : Type} {text : List Char} {f : LogicalTree → α} {a : α}
    (h : (parseEntryTree text).toOption.map f = some a) :
    ∃ tree, parseEntryTree text = .ok tree ∧ f tree = a := by
  obtain ⟨tree, htree, hf⟩ := Option.map_eq_some_iff.mp h
  cases hparse : parseEntryTree text with
  | error e => rw [hparse] at htree; cases htree
  | ok t =>
      rw [hparse] at htree
      obtain rfl := Option.some.inj htree
      exact ⟨t, rfl, hf⟩

/-- A text whose tree has one entry, seen by what it shows. -/
theorem exists_parseEntryTree_single {α : Type} {text : List Char} {f : LogicalEntry → α} {a : α}
    (h : (parseEntryTree text).toOption.map (fun tree => tree.entries.map f) = some [a]) :
    ∃ tree entry, parseEntryTree text = .ok tree ∧ tree.entries = [entry] ∧ f entry = a := by
  obtain ⟨tree, hparse, hentries⟩ := exists_parseEntryTree h
  rw [List.map_eq_singleton_iff] at hentries
  obtain ⟨entry, htree, hf⟩ := hentries
  exact ⟨tree, entry, hparse, htree, hf⟩

end EwfForensic

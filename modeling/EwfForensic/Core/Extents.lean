import EwfForensic.Core.LogicalRoundTrip
import EwfForensic.Lib.Hex

/-!
# Binary Extents

`parse_binary_extents` of `core/src/logical.rs`: the field `be` of an entry holds a count and then,
for each extent, flags, an offset and a size. Whatever is not a hexadecimal number is a flag.

* `splitWhitespace`, `fromStrRadix16` — the tokens, and the numbers among them.
* `parseBinaryExtents` — the loop over the declared count.
* `GroupsOf` — the tokens that extents are written with. `parseExtents_eq_ok_iff`: the loop reads
  such groups, one for each extent that is declared.
* `renderExtents` — extents written out; they are read back.
* `binary_extents_iff` — a value is read to its end exactly when nothing follows the groups.
-/

namespace EwfForensic

open Octets

/-! ### Tokens -/

/-- `str::split_whitespace`. -/
def splitWhitespace (text : List Char) : List (List Char) :=
  (text.splitOnP isWhitespace).filter (· ≠ [])

/-- A `u64`. -/
abbrev U64 := {n : ℕ // n ≤ u64Max}

/-- `u64::from_str_radix(_, 16)`: hexadecimal digits, after a plus sign or none. -/
def fromStrRadix16 (text : List Char) : Option U64 :=
  let digits := if text.head? = some '+' then text.tail else text
  if digits = [] then none
  else (Hex.value 0 digits).bind fun n => if h : n ≤ u64Max then some ⟨n, h⟩ else none

/-- `tok.eq_ignore_ascii_case("s")`. -/
def isSparseFlag (tok : List Char) : Bool := tok = ['s'] ∨ tok = ['S']

/-! ### The parser -/

/-- `Extent`. -/
structure Extent where
  offset : U64
  size : U64
  sparse : Bool
  deriving DecidableEq

/-- One turn of the loop over the declared count: an extent, and the tokens behind it. The flags
so far say whether it is sparse. -/
def parseExtent (value : List Char) (sparse : Bool) :
    List (List Char) → Except LogicalError (Extent × List (List Char))
  | [] => .error (.malformedLogicalField "be" value)
  | tok :: rest =>
    if isSparseFlag tok ∨ (fromStrRadix16 tok).isNone then
      parseExtent value (sparse || isSparseFlag tok) rest
    else
      match fromStrRadix16 tok with
      | none => .error (.malformedLogicalField "be offset" tok)
      | some offset =>
        match rest with
        | [] => .error (.malformedLogicalField "be size" value)
        | sizeTok :: rest =>
          match fromStrRadix16 sizeTok with
          | none => .error (.malformedLogicalField "be size" sizeTok)
          | some size => .ok (⟨offset, size, sparse⟩, rest)

/-- The loop: `count` extents, and the tokens behind them. -/
def parseExtents (value : List Char) :
    ℕ → List (List Char) → Except LogicalError (List Extent × List (List Char))
  | 0, toks => .ok ([], toks)
  | count + 1, toks =>
    match parseExtent value false toks with
    | .error e => .error e
    | .ok (extent, rest) =>
      match parseExtents value count rest with
      | .error e => .error e
      | .ok (extents, rest) => .ok (extent :: extents, rest)

/-- `parse_binary_extents`. What is left of the tokens is not looked at. -/
def parseBinaryExtents (value : List Char) : Except LogicalError (List Extent) :=
  match splitWhitespace value with
  | [] => .error (.malformedLogicalField "be extent count" value)
  | countTok :: toks =>
    match parseU64 countTok with
    | none => .error (.malformedLogicalField "be extent count" value)
    | some count => (parseExtents value count toks).map Prod.fst

/-- `LogicalEntry::extents`. -/
def LogicalEntry.extents (entry : LogicalEntry) : Except LogicalError (List Extent) :=
  match entry.raw.lookup ['b', 'e'] with
  | none | some [] => .ok []
  | some value => parseBinaryExtents value

/-! ### The tokens of extents -/

/-- The tokens of one extent: flags, none of which is a number, an offset and a size. It is sparse
when one of the flags says so. -/
inductive ExtentTokens : Extent → List (List Char) → Prop
  | mk {flags : List (List Char)} {offsetTok sizeTok : List Char} {offset size : U64} :
      (∀ flag ∈ flags, fromStrRadix16 flag = none) →
      fromStrRadix16 offsetTok = some offset → fromStrRadix16 sizeTok = some size →
      ExtentTokens ⟨offset, size, flags.any isSparseFlag⟩ (flags ++ [offsetTok, sizeTok])

/-- The tokens of extents, one after another. -/
inductive GroupsOf : List Extent → List (List Char) → Prop
  | nil : GroupsOf [] []
  | cons {extent : Extent} {extents : List Extent} {group toks : List (List Char)} :
      ExtentTokens extent group → GroupsOf extents toks →
      GroupsOf (extent :: extents) (group ++ toks)

/-- A flag for sparse extents is no number. -/
theorem fromStrRadix16_of_isSparseFlag {tok : List Char} (h : isSparseFlag tok = true) :
    fromStrRadix16 tok = none := by
  rw [isSparseFlag, decide_eq_true_eq] at h
  obtain rfl | rfl := h <;> decide

/-- A number is the offset, and the next token is the size. -/
theorem parseExtent_of_number {value : List Char} {sparse : Bool} {tok : List Char}
    {toks : List (List Char)} {offset : U64} (hoffset : fromStrRadix16 tok = some offset)
    {extent : Extent} {rest : List (List Char)} :
    parseExtent value sparse (tok :: toks) = .ok (extent, rest) ↔
      ∃ sizeTok, toks = sizeTok :: rest ∧ extent.offset = offset ∧
        fromStrRadix16 sizeTok = some extent.size ∧ extent.sparse = sparse := by
  have hno : ¬(isSparseFlag tok = true ∨ (fromStrRadix16 tok).isNone = true) := by
    rintro (h | h)
    · rw [fromStrRadix16_of_isSparseFlag h] at hoffset
      cases hoffset
    · rw [hoffset] at h
      cases h
  rw [parseExtent, if_neg hno]
  simp only [hoffset]
  constructor
  · intro h
    match toks, h with
    | sizeTok :: toks, h =>
      simp only at h
      cases hsize : fromStrRadix16 sizeTok with
      | none => rw [hsize] at h; cases h
      | some size =>
          rw [hsize] at h
          cases h
          exact ⟨sizeTok, rfl, rfl, hsize, rfl⟩
  · rintro ⟨sizeTok, rfl, rfl, hsize, rfl⟩
    simp only [hsize]

/-- One turn reads the tokens of one extent. -/
theorem parseExtent_eq_ok_iff {value : List Char} {sparse : Bool} {toks : List (List Char)}
    {extent : Extent} {rest : List (List Char)} :
    parseExtent value sparse toks = .ok (extent, rest) ↔
      ∃ flags offsetTok sizeTok, toks = flags ++ offsetTok :: sizeTok :: rest ∧
        (∀ flag ∈ flags, fromStrRadix16 flag = none) ∧
        fromStrRadix16 offsetTok = some extent.offset ∧
        fromStrRadix16 sizeTok = some extent.size ∧
        extent.sparse = (sparse || flags.any isSparseFlag) := by
  induction toks generalizing sparse with
  | nil => simp [parseExtent]
  | cons tok toks ih =>
      cases hflag : fromStrRadix16 tok with
      | none =>
          -- The loop goes on behind a flag.
          rw [parseExtent, if_pos (.inr (by rw [hflag]; rfl)), ih]
          constructor
          · rintro ⟨flags, o, s, rfl, hflags, ho, hs, hsparse⟩
            refine ⟨tok :: flags, o, s, rfl, ?_, ho, hs, ?_⟩
            · exact List.forall_mem_cons.mpr ⟨hflag, hflags⟩
            · rw [hsparse, List.any_cons, Bool.or_assoc]
          · rintro ⟨flags, o, s, heq, hflags, ho, hs, hsparse⟩
            cases flags with
            | nil =>
                obtain ⟨rfl, -⟩ := List.cons.inj heq
                rw [hflag] at ho
                cases ho
            | cons flag flags =>
                obtain ⟨rfl, rfl⟩ := List.cons.inj heq
                refine ⟨flags, o, s, rfl, (List.forall_mem_cons.mp hflags).2, ho, hs, ?_⟩
                rw [hsparse, List.any_cons, Bool.or_assoc]
      | some offset =>
          rw [parseExtent_of_number hflag]
          constructor
          · rintro ⟨sizeTok, rfl, rfl, hsize, rfl⟩
            exact ⟨[], tok, sizeTok, rfl, by simp, hflag, hsize, by simp⟩
          · rintro ⟨flags, o, s, heq, hflags, ho, hs, hsparse⟩
            cases flags with
            | nil =>
                obtain ⟨rfl, rfl⟩ := List.cons.inj heq
                refine ⟨s, rfl, Option.some.inj (ho.symm.trans hflag), hs, ?_⟩
                rw [hsparse, List.any_nil, Bool.or_false]
            | cons flag flags =>
                obtain ⟨rfl, -⟩ := List.cons.inj heq
                have hnone := hflags _ List.mem_cons_self
                rw [hflag] at hnone
                cases hnone

/-- **One turn reads one group.** -/
theorem parseExtent_eq_ok_iff_group {value : List Char} {toks : List (List Char)}
    {extent : Extent} {rest : List (List Char)} :
    parseExtent value false toks = .ok (extent, rest) ↔
      ∃ group, toks = group ++ rest ∧ ExtentTokens extent group := by
  rw [parseExtent_eq_ok_iff]
  constructor
  · rintro ⟨flags, o, s, rfl, hflags, ho, hs, hsparse⟩
    obtain ⟨offset, size, sparse⟩ := extent
    obtain rfl : sparse = flags.any isSparseFlag := hsparse
    refine ⟨flags ++ [o, s], ?_, .mk hflags ho hs⟩
    rw [List.append_assoc, List.cons_append, List.cons_append, List.nil_append]
  · rintro ⟨group, rfl, @⟨flags, o, s, offset, size, hflags, ho, hs⟩⟩
    refine ⟨flags, o, s, ?_, hflags, ho, hs, rfl⟩
    rw [List.append_assoc, List.cons_append, List.cons_append, List.nil_append]

/-- **The loop reads groups.** It returns as many extents as are declared, and what is left is
behind their tokens. -/
theorem parseExtents_eq_ok_iff {value : List Char} {count : ℕ} {toks : List (List Char)}
    {extents : List Extent} {rest : List (List Char)} :
    parseExtents value count toks = .ok (extents, rest) ↔
      extents.length = count ∧ ∃ groups, toks = groups ++ rest ∧ GroupsOf extents groups := by
  induction count generalizing toks extents with
  | zero =>
      rw [parseExtents]
      constructor
      · intro h
        cases h
        exact ⟨rfl, [], rfl, .nil⟩
      · rintro ⟨hlen, groups, rfl, hgroups⟩
        obtain rfl := List.eq_nil_of_length_eq_zero hlen
        cases hgroups
        rfl
  | succ count ih =>
      rw [parseExtents]
      constructor
      · intro h
        cases hfirst : parseExtent value false toks with
        | error e => rw [hfirst] at h; cases h
        | ok first =>
            obtain ⟨extent, rest₁⟩ := first
            rw [hfirst] at h
            simp only at h
            cases hmore : parseExtents value count rest₁ with
            | error e => rw [hmore] at h; cases h
            | ok more =>
                obtain ⟨extents', rest₂⟩ := more
                rw [hmore] at h
                cases h
                obtain ⟨group, rfl, hgroup⟩ := parseExtent_eq_ok_iff_group.mp hfirst
                obtain ⟨rfl, groups, rfl, hgroups⟩ := ih.mp hmore
                exact ⟨rfl, group ++ groups, (List.append_assoc _ _ _).symm, .cons hgroup hgroups⟩
      · rintro ⟨hlen, groups, rfl, hgroups⟩
        cases hgroups with
        | nil => cases hlen
        | @cons extent extents group toks hgroup hgroups =>
            have hfirst := (@parseExtent_eq_ok_iff_group value _ extent (toks ++ rest)).mpr
              ⟨group, (List.append_assoc _ _ _), hgroup⟩
            have hmore := (@ih (toks ++ rest) extents).mpr
              ⟨Nat.succ.inj hlen, toks, rfl, hgroups⟩
            simp only [hfirst, hmore]

/-- What is accepted, token by token. -/
theorem parseBinaryExtents_eq_ok_iff {value : List Char} {extents : List Extent} :
    parseBinaryExtents value = .ok extents ↔
      ∃ countTok groups rest, splitWhitespace value = countTok :: (groups ++ rest) ∧
        parseU64 countTok = some extents.length ∧ GroupsOf extents groups := by
  rw [parseBinaryExtents]
  constructor
  · intro h
    cases htoks : splitWhitespace value with
    | nil => rw [htoks] at h; cases h
    | cons countTok toks =>
        rw [htoks] at h
        simp only at h
        cases hcount : parseU64 countTok with
        | none => rw [hcount] at h; cases h
        | some count =>
            rw [hcount] at h
            simp only at h
            cases hloop : parseExtents value count toks with
            | error e => rw [hloop] at h; cases h
            | ok r =>
                rw [hloop] at h
                cases h
                obtain ⟨hlen, groups, htoks', hgroups⟩ := parseExtents_eq_ok_iff.mp hloop
                exact ⟨countTok, groups, r.2, by rw [htoks'], by rw [hcount, hlen], hgroups⟩
  · rintro ⟨countTok, groups, rest, htoks, hcount, hgroups⟩
    have hloop := (@parseExtents_eq_ok_iff value extents.length (groups ++ rest) extents rest).mpr
      ⟨rfl, groups, rfl, hgroups⟩
    simp only [htoks, hcount, hloop]
    rfl

/-! ### Writing extents -/

/-- A number in hexadecimal digits. -/
def hexDigits (n : U64) : List Char := Nat.toDigits 16 n

/-- The tokens of an extent: `S` before a sparse one, its offset and its size. -/
def Extent.tokens (extent : Extent) : List (List Char) :=
  (if extent.sparse then [['S']] else []) ++ [hexDigits extent.offset, hexDigits extent.size]

/-- Extents written out: their count and their tokens, with spaces between. -/
def renderExtents (extents : List Extent) : List Char :=
  [' '].intercalate (Nat.toDigits 10 extents.length :: extents.flatMap Extent.tokens)

theorem hexDigit_of_mem_hexDigits {n : U64} {c : Char} (hc : c ∈ hexDigits n) :
    Hex.digit c ≠ none :=
  Hex.digit_ne_none (Hex.value_toDigits n) c hc

theorem isWhitespace_of_hexDigit {c : Char} (hc : Hex.digit c ≠ none) : isWhitespace c = false := by
  rw [isWhitespace, decide_eq_false_iff_not]
  intro hspace
  refine hc ?_
  have hbounds : c.toNat ≤ 32 ∨ 128 ≤ c.toNat := by
    rcases hspace with rfl | hspace
    · exact .inl (by decide)
    · omega
  rw [Hex.digit]
  split_ifs <;> first | omega | rfl

/-- **A written offset or size is read back.** -/
theorem fromStrRadix16_hexDigits (n : U64) : fromStrRadix16 (hexDigits n) = some n := by
  have hplus : (hexDigits n).head? ≠ some '+' := fun h =>
    hexDigit_of_mem_hexDigits (List.mem_of_head? h) (by decide)
  have hne : hexDigits n ≠ [] := Nat.toDigits_ne_nil
  rw [fromStrRadix16]
  simp only [if_neg hplus, if_neg hne]
  rw [hexDigits, Hex.value_toDigits, Option.bind_some, dif_pos n.2]

/-- Written extents are groups. -/
theorem groupsOf_tokens (extents : List Extent) :
    GroupsOf extents (extents.flatMap Extent.tokens) := by
  induction extents with
  | nil => exact .nil
  | cons extent extents ih =>
      rw [List.flatMap_cons]
      refine .cons ?_ ih
      obtain ⟨offset, size, sparse⟩ := extent
      cases sparse with
      | false =>
          exact @ExtentTokens.mk [] _ _ _ _ (by simp) (fromStrRadix16_hexDigits _)
            (fromStrRadix16_hexDigits _)
      | true =>
          exact @ExtentTokens.mk [['S']] _ _ _ _ (by decide) (fromStrRadix16_hexDigits _)
            (fromStrRadix16_hexDigits _)

/-- Words with spaces between are found again. -/
theorem splitWhitespace_intercalate {words : List (List Char)} (hne : words ≠ [])
    (hwords : ∀ word ∈ words, word ≠ [] ∧ ∀ c ∈ word, isWhitespace c = false) :
    splitWhitespace ([' '].intercalate words) = words := by
  induction words with
  | nil => exact absurd rfl hne
  | cons word words ih =>
      obtain ⟨⟨hword, hspace⟩, hrest⟩ := List.forall_mem_cons.mp hwords
      cases words with
      | nil =>
          rw [List.intercalate_singleton, splitWhitespace, List.splitOnP_eq_singleton hspace]
          simp [hword]
      | cons next words =>
          rw [List.intercalate_cons_cons, List.append_assoc, List.singleton_append, splitWhitespace,
            List.splitOnP_append_cons_of_forall_mem hspace ' ' (by decide),
            List.filter_cons_of_pos (by simp [hword])]
          exact congrArg (word :: ·) (ih (List.cons_ne_nil _ _) hrest)

/-- The tokens of a written list of extents. -/
theorem splitWhitespace_renderExtents (extents : List Extent) :
    splitWhitespace (renderExtents extents) =
      Nat.toDigits 10 extents.length :: extents.flatMap Extent.tokens := by
  refine splitWhitespace_intercalate (List.cons_ne_nil _ _) ?_
  refine List.forall_mem_cons.mpr ⟨⟨Nat.toDigits_ne_nil, fun c hc =>
    isWhitespace_of_isDigit (isDigit_of_mem_toDigits hc)⟩, fun tok htok => ?_⟩
  obtain ⟨extent, -, htok⟩ := List.mem_flatMap.mp htok
  have hdigits : ∀ n : U64, hexDigits n ≠ [] ∧ ∀ c ∈ hexDigits n, isWhitespace c = false :=
    fun n => ⟨Nat.toDigits_ne_nil, fun c hc =>
      isWhitespace_of_hexDigit (hexDigit_of_mem_hexDigits hc)⟩
  rw [Extent.tokens, List.mem_append] at htok
  rcases htok with hflag | hnumber
  · split_ifs at hflag
    · obtain rfl := List.mem_singleton.mp hflag
      exact ⟨List.cons_ne_nil _ _, List.forall_mem_singleton.mpr (by decide)⟩
    · cases hflag
  · rcases List.mem_pair.mp hnumber with rfl | rfl
    · exact hdigits _
    · exact hdigits _

/-! ### What is accepted -/

/-- A value is accepted as what it declares: only with as many extents as its count says, whose
groups are all its other tokens; and extents that it is the writing of are read from it. A vector
has no more than 2^64 - 1 extents. -/
structure AcceptsDeclared (value : List Char) : Prop where
  groups : ∀ extents, parseBinaryExtents value = .ok extents →
    ∃ countTok toks, splitWhitespace value = countTok :: toks ∧
      parseU64 countTok = some extents.length ∧ GroupsOf extents toks
  written : ∀ extents : List Extent, extents.length ≤ u64Max → value = renderExtents extents →
    parseBinaryExtents value = .ok extents

/-- Nothing follows the groups that the count declares. -/
def EndsWithGroups (value : List Char) : Prop :=
  ∀ countTok groups rest, ∀ extents : List Extent,
    splitWhitespace value = countTok :: (groups ++ rest) →
    parseU64 countTok = some extents.length → GroupsOf extents groups → rest = []

/-- The groups of as many extents, in front of the same tokens, are the same. -/
theorem GroupsOf.unique {extents extents' : List Extent}
    {groups rest groups' rest' : List (List Char)}
    (h : GroupsOf extents groups) (h' : GroupsOf extents' groups')
    (hlen : extents.length = extents'.length) (heq : groups ++ rest = groups' ++ rest') :
    extents = extents' ∧ rest = rest' := by
  have hread := (@parseExtents_eq_ok_iff [] _ (groups ++ rest) extents rest).mpr
    ⟨rfl, groups, rfl, h⟩
  have hread' := (@parseExtents_eq_ok_iff [] _ (groups ++ rest) extents' rest').mpr
    ⟨hlen.symm, groups', heq, h'⟩
  rw [hread] at hread'
  cases hread'
  exact ⟨rfl, rfl⟩

/-- **Binary extents are accepted as declared** exactly when nothing follows the groups that the
count declares. -/
theorem binary_extents_iff (value : List Char) : AcceptsDeclared value ↔ EndsWithGroups value := by
  constructor
  · intro h countTok groups rest extents htoks hcount hgroups
    have hok := parseBinaryExtents_eq_ok_iff.mpr ⟨countTok, groups, rest, htoks, hcount, hgroups⟩
    obtain ⟨countTok', toks, htoks', -, htaken⟩ := h.groups extents hok
    obtain ⟨-, heq⟩ := List.cons.inj (htoks.symm.trans htoks')
    exact (hgroups.unique htaken rfl (heq.trans (List.append_nil toks).symm)).2
  · intro h
    constructor
    · intro extents hok
      obtain ⟨countTok, groups, rest, htoks, hcount, hgroups⟩ :=
        parseBinaryExtents_eq_ok_iff.mp hok
      obtain rfl := h countTok groups rest extents htoks hcount hgroups
      exact ⟨countTok, groups, by rw [htoks, List.append_nil], hcount, hgroups⟩
    · rintro extents hlen rfl
      refine parseBinaryExtents_eq_ok_iff.mpr ⟨_, _, [], ?_, parseU64_toDigits hlen,
        groupsOf_tokens extents⟩
      rw [splitWhitespace_renderExtents, List.append_nil]

/-- One extent is declared, and more follow. -/
def longerThanDeclared : List Char := "1 0 10 20 30".toList

theorem longerThanDeclared_not_accepted : ¬ AcceptsDeclared longerThanDeclared := by
  intro h
  have hok : parseBinaryExtents longerThanDeclared =
      .ok [⟨⟨0, by decide⟩, ⟨16, by decide⟩, false⟩] := by decide +kernel
  obtain ⟨countTok, toks, htoks, -, hgroups⟩ := h.groups _ hok
  have hsplit : splitWhitespace longerThanDeclared =
      "1".toList :: ["0".toList, "10".toList, "20".toList, "30".toList] := by decide +kernel
  obtain ⟨-, rfl⟩ := List.cons.inj (hsplit.symm.trans htoks)
  have hread := (@parseExtents_eq_ok_iff [] 1 _ _ []).mpr
    ⟨rfl, _, (List.append_nil _).symm, hgroups⟩
  revert hread
  decide +kernel

end EwfForensic

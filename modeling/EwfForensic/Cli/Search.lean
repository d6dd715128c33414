import EwfForensic.Core.Cursor
import EwfForensic.Core.Extents
import EwfForensic.Lib.Occurrences

/-!
# Search in the Media

`handle_ewf_search` of `cli/src/handlers.rs`: the media is read in pieces, and the end of each is
carried over to the next so that a match may lie across.

* `parsePatternHex` — the bytes of the pattern.
* `scanWindow`, `searchLoop`, `handleEwfSearch` — the search.
* `searchLoop_eq` — the invariant of the loop, for patterns that reach over one piece at most.
* `search_iff` — all occurrences are found exactly for those patterns, or where there is none.
-/

namespace EwfForensic.Cli

open Octets Occurrences

/-! ### The function -/

/-- Why a search returns an error. -/
inductive SearchError where
  /-- "hex pattern must have even length (each byte is 2 hex chars)". -/
  | oddLength
  /-- "invalid hex pattern: {e}". -/
  | invalidHex
  /-- "pattern must not be empty". -/
  | emptyPattern
  | reader (e : EwfError)
  deriving DecidableEq

/-- The bytes of a pattern, two characters each. The pattern is ASCII text: the source takes two
bytes of it at a time. -/
def parsePatternHex : List Char → Except SearchError (List UInt8)
  | [] => .ok []
  | [_] => .error .oddLength
  | a :: b :: rest =>
    match fromStrRadix16 [a, b] with
    | none => .error .invalidHex
    | some v => (parsePatternHex rest).map (UInt8.ofNat v :: ·)

/-- The size of the pieces. -/
def bufSize : ℕ := 65536

/-- The loop over the places of a window that starts at `base`: it stops when there are enough
matches. -/
def scanWindow (pattern window : List UInt8) (base maxResults : ℕ) (found : List ℕ) :
    List ℕ → List ℕ
  | [] => found
  | i :: is =>
    if (window.drop i).take pattern.length = pattern then
      if (found ++ [base + i]).length ≥ maxResults then found ++ [base + i]
      else scanWindow pattern window base maxResults (found ++ [base + i]) is
    else scanWindow pattern window base maxResults found is

/-- The loop over the media: from the state of the reader, the offset, what is carried over and the
matches so far. Behind the carried bytes the buffer has room for a piece. -/
def searchLoop (C : Crates) (r : EwfReader) (pattern : List UInt8) (maxResults : ℕ) :
    ℕ → ReaderState → ℕ → List UInt8 → List ℕ → Except EwfError (List ℕ)
  | 0, _, _, _, found => .ok found
  | fuel + 1, st, fileOffset, carry, found =>
    if ¬ (fileOffset < r.totalSize ∧ found.length < maxResults) then .ok found
    else
      match r.readAt C st fileOffset (min bufSize (r.totalSize - fileOffset)) with
      | (.error e, _) => .error e
      | (.ok out, st) =>
        if out.length = 0 then .ok found
        else
          let window := carry ++ out
          let stop := if window.length ≥ pattern.length then window.length - pattern.length +
            1 else 0
          let found := scanWindow pattern window (fileOffset - carry.length) maxResults found
            (List.range stop)
          let carry :=
            if pattern.length > 1 ∧ window.length ≥ pattern.length - 1 then
              window.drop (window.length - (pattern.length - 1))
            else []
          searchLoop C r pattern maxResults fuel st (fileOffset + out.length) carry found

/-- What is printed. -/
structure SearchResult where
  pattern : List Char
  hits : List ℕ
  totalFound : ℕ
  deriving DecidableEq

/-- `handle_ewf_search`, with the reader that opening the path gives, or its error. Every turn of
the
loop moves forward, so that there are no more turns than bytes. -/
def handleEwfSearch (C : Crates) (opened : Except EwfError EwfReader) (patternHex : List Char)
    (maxResults : ℕ) : Except SearchError SearchResult :=
  if patternHex.length % 2 ≠ 0 then .error .oddLength
  else
    match parsePatternHex patternHex with
    | .error e => .error e
    | .ok pattern =>
      if pattern = [] then .error .emptyPattern
      else
        match opened with
        | .error e => .error (.reader e)
        | .ok r =>
          match searchLoop C r pattern maxResults (r.totalSize + 1) r.init 0 [] [] with
          | .error e => .error (.reader e)
          | .ok found => .ok ⟨patternHex, found, found.length⟩

/-! ### One window -/

/-- A scan adds the matches of the window, as long as some are wanted. -/
theorem scanWindow_eq {pattern window : List UInt8} {base maxResults : ℕ} (is : List ℕ)
    {found : List ℕ} (hfound : found.length < maxResults) :
    scanWindow pattern window base maxResults found is =
      (found ++ (is.filter (Here pattern window)).map (base + ·)).take maxResults := by
  induction is generalizing found with
  | nil =>
      rw [scanWindow, List.filter_nil, List.map_nil, List.append_nil,
        List.take_of_length_le hfound.le]
  | cons i is ih =>
      rw [scanWindow]
      by_cases hhere : (window.drop i).take pattern.length = pattern
      · have hkeep : (i :: is).filter (Here pattern window) =
        i :: is.filter (Here pattern window) :=
          List.filter_cons_of_pos (decide_eq_true hhere)
        rw [if_pos hhere, hkeep, List.map_cons,
          List.append_cons found (base + i) ((is.filter (Here pattern window)).map (base + ·))]
        split_ifs with henough
        · have hlen : (found ++ [base + i]).length = maxResults := by
            rw [List.length_append, List.length_singleton] at henough ⊢
            omega
          rw [List.take_append_of_le_length hlen.ge, ← hlen, List.take_length]
        · exact ih (by omega)
      · have hskip : (i :: is).filter (Here pattern window) = is.filter (Here pattern window) :=
          List.filter_cons_of_neg (by rwa [decide_eq_true_eq])
        rw [if_neg hhere, hskip, ih hfound]

/-- The places that are looked at are those where the pattern fits. -/
theorem scanWindow_range {pattern window : List UInt8} {base maxResults : ℕ} {found : List ℕ}
    (hpattern : pattern ≠ []) (hfound : found.length < maxResults) :
    scanWindow pattern window base maxResults found (List.range
        (if window.length ≥ pattern.length then window.length - pattern.length + 1 else 0)) =
      (found ++ (positions pattern window).map (base + ·)).take maxResults := by
  have hpos := List.length_pos_iff.mpr hpattern
  have hstop : (if window.length ≥ pattern.length then window.length - pattern.length + 1 else 0) =
      window.length + 1 - pattern.length := by
    split_ifs <;> omega
  rw [scanWindow_eq _ hfound, hstop, positions]

/-! ### The loop -/

section Loop

variable {C : Crates} {r : EwfReader} {media pattern : List UInt8} {maxResults : ℕ}

/-- The media is readable: a read of all of it succeeds. Then every read is a slice of it. -/
theorem read_eq_of_readable (hcs : 0 < r.chunkSize)
    (hmedia : r.read C 0 r.totalSize = .ok media) (off len : ℕ) :
    media.length = r.totalSize ∧ r.read C off len = .ok ((media.drop off).take len) := by
  obtain ⟨hlen, hbytes⟩ := (r.read_eq_ok_iff hcs).mp hmedia
  rw [EwfReader.available, Nat.sub_zero, Nat.min_self] at hlen hbytes
  refine ⟨hlen, (r.read_eq_ok_iff hcs).mpr ⟨?_, fun j hj => ?_⟩⟩
  · rw [List.length_take, List.length_drop, EwfReader.available, hlen]
  · rw [EwfReader.available] at hj
    obtain ⟨page, hpage, hbyte⟩ := hbytes (off + j) (by omega)
    rw [Nat.zero_add] at hpage hbyte
    refine ⟨page, hpage, ?_⟩
    rw [List.getElem?_take_of_lt (by omega), List.getElem?_drop, hbyte]

/-- What is carried over to an offset: the bytes before it in which no whole match lies. -/
def carried (pattern media : List UInt8) (fileOffset : ℕ) : List UInt8 :=
  (media.take fileOffset).drop (windowStart pattern (media.take fileOffset))

/-- The state of the loop at an offset: all matches that end before it are found, as many as are
wanted, and if there is more to read, the bytes are carried over that a match across can start
with. -/
structure SearchState (pattern media : List UInt8) (maxResults fileOffset : ℕ)
    (carry : List UInt8) (found : List ℕ) : Prop where
  le : fileOffset ≤ media.length
  found_eq : found = (positions pattern (media.take fileOffset)).take maxResults
  carry_eq : fileOffset < media.length → carry = carried pattern media fileOffset
  room : fileOffset < media.length → fileOffset = 0 ∨ pattern.length - 1 ≤ fileOffset

/-- The state before the first turn. -/
theorem SearchState.start (hpattern : pattern ≠ []) :
    SearchState pattern media maxResults 0 [] [] where
  le := Nat.zero_le _
  found_eq := by
    have hnone : positions pattern ([] : List UInt8) = [] :=
      positions_of_length_lt (List.length_pos_iff.mpr hpattern)
    rw [List.take_zero, hnone, List.take_nil]
  carry_eq _ := by
    rw [carried, List.take_zero, List.drop_nil]
  room _ := .inl rfl

/-- What is carried over behind a window. -/
theorem carry_step {f : ℕ} {out : List UInt8} (hle : f ≤ media.length)
    (htake : media.take (f + out.length) = media.take f ++ out)
    (hroom : pattern.length - 1 ≤ (carried pattern media f ++ out).length) :
    (if pattern.length > 1 ∧ (carried pattern media f ++ out).length ≥ pattern.length - 1 then
      (carried pattern media f ++ out).drop
        ((carried pattern media f ++ out).length - (pattern.length - 1))
    else []) = carried pattern media (f + out.length) := by
  have hlen : (media.take f).length = f := by rw [List.length_take, min_eq_left hle]
  have hwindow : (carried pattern media f ++ out).length = f - (f - (pattern.length - 1)) +
      out.length := by
    rw [carried, List.length_append, List.length_drop, windowStart, hlen]
  have hdrop : (media.take (f + out.length)).drop (f - (pattern.length - 1)) =
      carried pattern media f ++ out := by
    rw [htake, carried, windowStart, hlen, List.drop_append_of_le_length (by rw [hlen]; omega)]
  have hlong : (media.take (f + out.length)).length = f + out.length := by
    rw [htake, List.length_append, hlen]
  split_ifs with hoverlap
  · rw [← hdrop, List.drop_drop]
    conv_rhs => rw [carried, windowStart, hlong]
    rw [hdrop, hwindow]
    congr 1
    omega
  · have hone : pattern.length - 1 = 0 := by omega
    rw [carried, windowStart, hlong, hone, Nat.sub_zero]
    exact (List.drop_of_length_le hlong.le).symm

/-- **One turn** of the loop, for a pattern that reaches over one piece at most. -/
theorem SearchState.step (hpattern : pattern ≠ []) (hshort : pattern.length ≤ bufSize + 1)
    {f : ℕ} {carry out : List UInt8} {found : List ℕ}
    (h : SearchState pattern media maxResults f carry found) (hlt : f < media.length)
    (hfound : found.length < maxResults)
    (hout : out = (media.drop f).take (min bufSize (media.length - f))) :
    SearchState pattern media maxResults (f + out.length)
      (if pattern.length > 1 ∧ (carry ++ out).length ≥ pattern.length - 1 then
        (carry ++ out).drop ((carry ++ out).length - (pattern.length - 1)) else [])
      ((found ++ (positions pattern (carry ++ out)).map (f - carry.length + ·)).take
        maxResults) := by
  have hn : out.length = min bufSize (media.length - f) := by
    rw [hout, List.length_take, List.length_drop]
    omega
  have htake : media.take (f + out.length) = media.take f ++ out := by
    rw [List.take_add, hn, ← hout]
  have hlen : (media.take f).length = f := by rw [List.length_take, min_eq_left h.le]
  have hcarry := h.carry_eq hlt
  have hstart : f - carry.length = windowStart pattern (media.take f) := by
    rw [hcarry, carried, List.length_drop, windowStart, hlen]
    omega
  -- Fewer matches than are wanted are all matches.
  have hall : found = positions pattern (media.take f) := by
    have hlt' := hfound
    rw [h.found_eq, List.length_take] at hlt'
    rw [h.found_eq, List.take_of_length_le (by omega)]
  refine ⟨by omega, ?_, fun hmore => ?_, fun hmore => .inr ?_⟩
  · rw [htake, positions_append hpattern (media.take f) out, hstart, hall, hcarry, carried]
  · have hroom : pattern.length - 1 ≤ (carried pattern media f ++ out).length := by
      rw [carried, List.length_append, List.length_drop, windowStart, hlen]
      rcases h.room hlt with rfl | hroom
      · omega
      · omega
    rw [hcarry]
    exact carry_step h.le htake hroom
  · omega

/-- **The loop** finds the matches in order, for a pattern that reaches over one piece at most. -/
theorem searchLoop_eq (hcs : 0 < r.chunkSize) (hmedia : r.read C 0 r.totalSize = .ok media)
    (hpattern : pattern ≠ []) (hshort : pattern.length ≤ bufSize + 1) {fuel f : ℕ}
    {st : ReaderState} (hcoh : r.Coherent C st) {carry : List UInt8} {found : List ℕ}
    (h : SearchState pattern media maxResults f carry found) (hfuel : media.length < f + fuel) :
    searchLoop C r pattern maxResults fuel st f carry found =
      .ok ((positions pattern media).take maxResults) := by
  have hsize := (read_eq_of_readable hcs hmedia 0 0).1
  induction fuel generalizing f st carry found with
  | zero =>
      have := h.le
      omega
  | succ fuel ih =>
      rw [searchLoop]
      by_cases hgo : f < r.totalSize ∧ found.length < maxResults
      · rw [if_neg (not_not.mpr hgo)]
        obtain ⟨hread, hcoh'⟩ :=
          r.readAt_eq_read C hcoh f (min bufSize (r.totalSize - f))
        rw [(read_eq_of_readable hcs hmedia f _).2] at hread
        match hr : r.readAt C st f (min bufSize (r.totalSize - f)) with
        | (.error e, st') => rw [hr] at hread; cases hread
        | (.ok out, st') =>
            rw [hr] at hread hcoh'
            have hout := Except.ok.inj hread
            rw [← hsize] at hout
            have hlen : out.length = min bufSize (media.length - f) := by
              rw [hout, List.length_take, List.length_drop]
              omega
            have hpos : out.length ≠ 0 := by
              rw [hlen, bufSize]
              omega
            simp only [if_neg hpos, scanWindow_range hpattern hgo.2]
            exact ih hcoh' (h.step hpattern hshort (by omega) hgo.2 hout) (by omega)
      · rw [if_pos hgo, h.found_eq]
        rw [not_and_or, not_lt, not_lt] at hgo
        rcases hgo with hend | henough
        · have hwhole : media.take f = media := List.take_of_length_le (by omega)
          rw [hwhole]
        · -- The first matches are found already.
          rw [h.found_eq, List.length_take] at henough
          conv_rhs => rw [← List.take_append_drop f media, positions_append hpattern,
            List.take_append_of_le_length (by omega)]

/-- A pattern that is longer is never found: the windows are too short for it. -/
theorem searchLoop_long (hcs : 0 < r.chunkSize) (hmedia : r.read C 0 r.totalSize = .ok media)
    (hlong : bufSize + 1 < pattern.length) (fuel f : ℕ) {st : ReaderState}
    (hcoh : r.Coherent C st) : searchLoop C r pattern maxResults fuel st f [] [] = .ok [] := by
  induction fuel generalizing f st with
  | zero => rfl
  | succ fuel ih =>
      rw [searchLoop]
      obtain ⟨hread, hcoh'⟩ := r.readAt_eq_read C hcoh f (min bufSize (r.totalSize - f))
      rw [(read_eq_of_readable hcs hmedia f _).2] at hread
      match hr : r.readAt C st f (min bufSize (r.totalSize - f)) with
      | (.error e, st') => rw [hr] at hread; cases hread
      | (.ok out, st') =>
          rw [hr] at hread hcoh'
          have hlen : out.length ≤ bufSize := by
            rw [Except.ok.inj hread, List.length_take]
            omega
          have hno : ¬ ([] ++ out).length ≥ pattern.length := by
            rw [List.nil_append]
            omega
          have hnocarry : ¬ (pattern.length > 1 ∧ ([] ++ out).length ≥ pattern.length - 1) := by
            rw [List.nil_append]
            omega
          simp only [if_neg hno, if_neg hnocarry, List.range_zero, scanWindow]
          rw [ih _ hcoh']
          split_ifs <;> rfl

end Loop

/-! ### Patterns -/

/-- A pattern of hexadecimal digits, two for each of its bytes. -/
structure HexPattern where
  digits : List Char
  ne_nil : digits ≠ []
  even : digits.length % 2 = 0
  hex : ∀ c ∈ digits, Hex.digit c ≠ none

/-- The bytes of pairs of digits. -/
def hexBytes : List Char → List UInt8
  | a :: b :: rest =>
    UInt8.ofNat (16 * (Hex.digit a).getD 0 + (Hex.digit b).getD 0) :: hexBytes rest
  | _ => []

/-- The bytes of a pattern. -/
def HexPattern.bytes (p : HexPattern) : List UInt8 := hexBytes p.digits

/-- Two digits are a byte. -/
theorem fromStrRadix16_pair {a b : Char} {x y : ℕ} (ha : Hex.digit a = some x)
    (hb : Hex.digit b = some y) : ∃ v, fromStrRadix16 [a, b] = some v ∧ (v : ℕ) = 16 * x + y := by
  have hplus : ([a, b] : List Char).head? ≠ some '+' := by
    intro h
    obtain rfl := Option.some.inj h
    cases ha
  have hx := Hex.digit_lt ha
  have hy := Hex.digit_lt hb
  have hle : 16 * x + y ≤ u64Max := by
    unfold u64Max
    omega
  refine ⟨⟨16 * x + y, hle⟩, ?_, rfl⟩
  rw [fromStrRadix16]
  simp only [if_neg hplus, List.cons_ne_nil, if_false, Hex.value, ha, hb, Nat.mul_zero,
    Nat.zero_add, Option.bind_some, dif_pos hle]

theorem parsePatternHex_eq (digits : List Char) (heven : digits.length % 2 = 0)
    (hhex : ∀ c ∈ digits, Hex.digit c ≠ none) : parsePatternHex digits = .ok (hexBytes digits) := by
  induction digits using parsePatternHex.induct with
  | case1 => rfl
  | case2 => cases heven
  | case3 a b rest hnone =>
      simp only [List.forall_mem_cons] at hhex
      obtain ⟨x, hx⟩ := Option.ne_none_iff_exists'.mp hhex.1
      obtain ⟨y, hy⟩ := Option.ne_none_iff_exists'.mp hhex.2.1
      obtain ⟨v, hv, -⟩ := fromStrRadix16_pair hx hy
      rw [hnone] at hv
      cases hv
  | case4 a b rest v hv ih =>
      simp only [List.forall_mem_cons] at hhex
      obtain ⟨x, hx⟩ := Option.ne_none_iff_exists'.mp hhex.1
      obtain ⟨y, hy⟩ := Option.ne_none_iff_exists'.mp hhex.2.1
      obtain ⟨v', hv', hval⟩ := fromStrRadix16_pair hx hy
      obtain rfl := Option.some.inj (hv.symm.trans hv')
      have hrest : rest.length % 2 = 0 := by
        simp only [List.length_cons] at heven
        omega
      rw [parsePatternHex, hv, hexBytes, hx, hy]
      simp only [ih hrest hhex.2.2, hval]
      rfl

theorem HexPattern.bytes_ne_nil (p : HexPattern) : p.bytes ≠ [] := by
  obtain ⟨digits, hne, heven, -⟩ := p
  rw [HexPattern.bytes]
  match digits, hne, heven with
  | [_], _, heven => cases heven
  | _ :: _ :: _, _, _ =>
    rw [hexBytes]
    exact List.cons_ne_nil _ _

/-! ### All occurrences -/

/-- What a search for a pattern finds: the first places where it occurs in the media, as many as are
wanted, in ascending order. -/
def FindsAll (media : List UInt8) (p : HexPattern) (maxResults : ℕ)
    (result : Except SearchError SearchResult) : Prop :=
  ∃ found, result = .ok ⟨p.digits, found, found.length⟩ ∧ found.Pairwise (· < ·) ∧
    found = (positions p.bytes media).take maxResults

section Search

variable {C : Crates} {r : EwfReader} {media : List UInt8} {p : HexPattern} {maxResults : ℕ}

/-- The search for a pattern is the loop for its bytes. -/
theorem handleEwfSearch_eq {found : List ℕ}
    (h : searchLoop C r p.bytes maxResults (r.totalSize + 1) r.init 0 [] [] = .ok found) :
    handleEwfSearch C (.ok r) p.digits maxResults = .ok ⟨p.digits, found, found.length⟩ := by
  rw [handleEwfSearch, if_neg (not_not.mpr p.even)]
  simp only [parsePatternHex_eq p.digits p.even p.hex]
  have hne : hexBytes p.digits ≠ [] := p.bytes_ne_nil
  rw [HexPattern.bytes] at h
  simp only [if_neg hne, h]

/-- A pattern that reaches over one piece at most is found wherever it occurs. -/
theorem findsAll_of_short (hcs : 0 < r.chunkSize) (hmedia : r.read C 0 r.totalSize = .ok media)
    (hshort : p.bytes.length ≤ bufSize + 1) :
    FindsAll media p maxResults (handleEwfSearch C (.ok r) p.digits maxResults) := by
  have hsize := (read_eq_of_readable hcs hmedia 0 0).1
  have hstart : SearchState p.bytes media maxResults 0 [] [] := .start p.bytes_ne_nil
  have hloop := searchLoop_eq hcs hmedia p.bytes_ne_nil hshort (r.coherent_init C) hstart
    (show media.length < 0 + (r.totalSize + 1) by omega)
  exact ⟨_, handleEwfSearch_eq hloop, (sorted_positions _ _).sublist (List.take_sublist _ _), rfl⟩

/-- A longer pattern is not found at all. -/
theorem handleEwfSearch_long (hcs : 0 < r.chunkSize)
    (hmedia : r.read C 0 r.totalSize = .ok media) (hlong : bufSize + 1 < p.bytes.length) :
    handleEwfSearch C (.ok r) p.digits maxResults = .ok ⟨p.digits, [], 0⟩ :=
  handleEwfSearch_eq (searchLoop_long hcs hmedia hlong _ 0 (r.coherent_init C))

end Search

/-- **Search finds every occurrence** exactly for patterns that reach over one piece at most, where
no results are wanted or where the pattern does not occur. -/
theorem search_iff (C : Crates) (r : EwfReader) (hopen : Opened C r) (media : List UInt8)
    (hmedia : r.read C 0 r.totalSize = .ok media) (p : HexPattern) (maxResults : ℕ) :
    FindsAll media p maxResults (handleEwfSearch C (.ok r) p.digits maxResults) ↔
      p.bytes.length ≤ bufSize + 1 ∨ maxResults = 0 ∨
        ∀ i, i + p.bytes.length ≤ media.length → ¬ Here p.bytes media i := by
  have hcs := hopen.chunkSize_pos
  by_cases hshort : p.bytes.length ≤ bufSize + 1
  · exact ⟨fun _ => .inl hshort, fun _ => findsAll_of_short hcs hmedia hshort⟩
  · rw [handleEwfSearch_long hcs hmedia (not_le.mp hshort)]
    constructor
    · rintro ⟨found, hfound, -, hall⟩
      obtain rfl : found = [] := by
        cases hfound
        rfl
      refine .inr ?_
      by_contra hcon
      rw [not_or] at hcon
      obtain ⟨hmax, hocc⟩ := hcon
      rcases List.take_eq_nil_iff.mp hall.symm with hzero | hnone
      · exact hmax hzero
      · refine hocc fun i hle hhere => ?_
        have hmem := mem_positions.mpr ⟨hle, hhere⟩
        rw [hnone] at hmem
        cases hmem
    · intro h
      refine ⟨[], rfl, List.Pairwise.nil, ?_⟩
      rcases h with h | rfl | hno
      · exact absurd h hshort
      · rw [List.take_zero]
      · have hnone : positions p.bytes media = [] :=
          List.eq_nil_iff_forall_not_mem.mpr fun i hi =>
            hno i (mem_positions.mp hi).1 (mem_positions.mp hi).2
        rw [hnone, List.take_nil]

/-- The pattern `0707`. -/
def sevens : HexPattern := ⟨['0', '7', '0', '7'], by decide, by decide, by simp [Hex.digit]⟩

theorem search_iff_rawImage :
    ∃ r media, openV1 Crates.reference [rawImage] defaultLruSize none = .ok r ∧
      r.read Crates.reference 0 r.totalSize = .ok media ∧
      FindsAll media sevens 3
        (handleEwfSearch Crates.reference (.ok r) sevens.digits 3) := by
  have hval : (openV1 Crates.reference [rawImage] defaultLruSize none).toOption.map (fun r =>
      (r.read Crates.reference 0 r.totalSize).toOption.isSome) = some true := by
    decide +kernel
  obtain ⟨r, hr, hsome⟩ := Option.map_eq_some_iff.mp hval
  obtain ⟨media, hmedia⟩ := Option.isSome_iff_exists.mp hsome
  have hopen := ok_of_toOption_eq_some hr
  have hread := ok_of_toOption_eq_some hmedia
  exact ⟨r, media, hopen, hread,
    (search_iff Crates.reference r (.v1 hopen) media hread sevens 3).mpr (.inl (by decide))⟩

/-- Two pieces of media in one chunk, which the zlib stream of no bytes leaves zero. -/
def twoPieces : Segment :=
  ⟨Image.encodeSegment 1
    [⟨.volume, Image.volumeFront 1 1 256 512 256 ++ List.replicate 70 0⟩,
      ⟨.table, Image.tableBytes 0 true [363 + 2147483648] []⟩,
      ⟨.sectors, Zlib.storedStream []⟩, ⟨.hash, []⟩] .done 0, by decide +kernel⟩

theorem hexBytes_replicate (n : ℕ) :
    hexBytes (List.replicate (2 * n) '0') = List.replicate n 0 := by
  induction n with
  | zero => rfl
  | succ n ih =>
      rw [show 2 * (n + 1) = 2 * n + 2 by ring, List.replicate_succ, List.replicate_succ, hexBytes,
        ih]
      rfl

/-- A pattern of zero bytes, one more than `n`. -/
def zeroPattern (n : ℕ) : HexPattern where
  digits := List.replicate (2 * (n + 1)) '0'
  ne_nil := List.ne_nil_of_length_pos (by rw [List.length_replicate]; omega)
  even := by rw [List.length_replicate, Nat.mul_mod_right]
  hex c hc := by
    rw [List.eq_of_mem_replicate hc]
    decide

/-- A pattern of a piece and two bytes. -/
def longZeros : HexPattern := zeroPattern 65537

theorem longZeros_not_found :
    ∃ r media, openV1 Crates.reference [twoPieces] defaultLruSize none = .ok r ∧
      r.read Crates.reference 0 r.totalSize = .ok media ∧
      ¬ FindsAll media longZeros 1
        (handleEwfSearch Crates.reference (.ok r) longZeros.digits 1) := by
  have hval : (openV1 Crates.reference [twoPieces] defaultLruSize none).toOption.map (fun r =>
      (r.chunkSize, r.totalSize, r.decoded Crates.reference 0,
        (r.page Crates.reference 0).toOption.isSome)) = some (131072, 131072, some [], true) := by
    decide +kernel
  obtain ⟨r, hr, hfields⟩ := Option.map_eq_some_iff.mp hval
  simp only [Prod.mk.injEq] at hfields
  obtain ⟨hchunk, htotal, hdecoded, hsome⟩ := hfields
  obtain ⟨page, hpage⟩ := Option.isSome_iff_exists.mp hsome
  have hpage := ok_of_toOption_eq_some hpage
  have hcs : 0 < r.chunkSize := by
    rw [hchunk]
    decide
  have hzeros : page = List.replicate 131072 0 := by
    obtain ⟨chunk, src, bytes, hfind, hsrc, hbytes, rfl, -⟩ := EwfReader.page_spec hpage
    rw [EwfReader.decoded] at hdecoded
    simp only [hfind, hsrc, Option.bind_some, hbytes] at hdecoded
    obtain rfl := Option.some.inj hdecoded
    rw [padPage, hchunk]
    rfl
  have hread : r.read Crates.reference 0 r.totalSize = .ok page := by
    refine (r.read_eq_ok_iff hcs).mpr ⟨?_, fun j hj => ⟨page, ?_, ?_⟩⟩
    · rw [r.length_page hpage, EwfReader.available, hchunk, htotal]
      rfl
    · rw [EwfReader.available, htotal] at hj
      rwa [Nat.zero_add, hchunk, Nat.div_eq_of_lt (by omega)]
    · rw [EwfReader.available, htotal] at hj
      rw [Nat.zero_add, hchunk, Nat.mod_eq_of_lt (by omega)]
  have hbytes : longZeros.bytes = List.replicate 65538 0 := hexBytes_replicate 65538
  refine ⟨r, page, ok_of_toOption_eq_some hr, hread, ?_⟩
  rw [handleEwfSearch_long hcs hread (by rw [hbytes, List.length_replicate]; decide)]
  rintro ⟨found, hfound, -, hall⟩
  obtain rfl : found = [] := by
    cases hfound
    rfl
  rcases List.take_eq_nil_iff.mp hall.symm with hzero | hnone
  · cases hzero
  · have hmem : 0 ∈ positions longZeros.bytes page := by
      refine mem_positions.mpr ⟨?_, ?_⟩
      · rw [hbytes, hzeros, List.length_replicate, List.length_replicate]
        decide
      · rw [Here, hbytes, hzeros, List.drop_zero, List.length_replicate, List.take_replicate]
        rfl
    rw [hnone] at hmem
    cases hmem

end EwfForensic.Cli

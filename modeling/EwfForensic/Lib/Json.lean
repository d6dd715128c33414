import EwfForensic.Lib.Hex
import Mathlib.Data.List.Basic

/-!
# JSON Texts

A reader of JSON texts as RFC 8259 defines them. A text is valid if it is read to its end.

* `Json.Value` — a JSON value. A number keeps the text it is written with.
* `Json.string`, `Json.number`, `Json.value` — the productions of the grammar, each from a text to
  what stands at its front and what follows.
* `Json.parse` — a whole text.
* `Json.Spells` — what a string in quotes stands for.
* `Json.Reads` — a text is read as one thing, whatever ends it. The rules `reads_string`,
  `reads_nat`, `reads_array` and `reads_object` put such texts together, and `parse_of_reads` reads
  a whole one.
* `Json.Fails` — no text with this front is read. `parse_of_fails` finds a text with a bad escape
  in one of its strings invalid.
-/

namespace Json

/-- A JSON value. -/
inductive Value where
  | null
  | bool (b : Bool)
  | number (text : List Char)
  | string (text : List Char)
  | array (elements : List Value)
  | object (members : List (List Char × Value))

/-- A natural number. -/
def Value.nat (n : ℕ) : Value := .number (Nat.toDigits 10 n)

/-- A production: what stands at the front of a text, and what follows. -/
abbrev Reader (α : Type) := List Char → Option (α × List Char)

/-! ### Blanks -/

/-- A blank between tokens. -/
def isBlank (c : Char) : Bool := c = ' ' ∨ c = '\t' ∨ c = '\n' ∨ c = '\r'

/-- The text behind the blanks at its front. -/
def skip (cs : List Char) : List Char := cs.dropWhile isBlank

/-! ### Strings -/

/-- The escapes of one character, with what they stand for. -/
def shortEscapes : List (Char × Char) :=
  [('"', '"'), ('\\', '\\'), ('/', '/'), ('b', '\x08'), ('f', '\x0c'), ('n', '\n'), ('r', '\r'),
    ('t', '\t')]

/-- Four hexadecimal digits. -/
def unit : Reader ℕ := fun cs =>
  if cs.length < 4 then none else (Hex.value 0 (cs.take 4)).map fun n => (n, cs.drop 4)

/-- The escape of a code unit, or of two that are a surrogate pair, behind `\u`. A surrogate outside
a pair stands for no character. -/
def unicodeEscape : Reader Char := fun cs =>
  (unit cs).bind fun (high, rest) =>
    if 0xD800 ≤ high ∧ high < 0xDC00 then
      if rest.take 2 = ['\\', 'u'] then
        (unit (rest.drop 2)).bind fun (low, rest) =>
          if 0xDC00 ≤ low ∧ low < 0xE000 then
            some (Char.ofNat (0x10000 + (high - 0xD800) * 0x400 + (low - 0xDC00)), rest)
          else none
      else none
    else if 0xDC00 ≤ high ∧ high < 0xE000 then none
    else some (Char.ofNat high, rest)

/-- The escape behind a backslash. -/
def escape : Reader Char
  | [] => none
  | c :: rest =>
    if c = 'u' then unicodeEscape rest else (shortEscapes.lookup c).map fun d => (d, rest)

/-- The characters up to the closing quote, so many at most. A control character stands in no
string. -/
def stringFrom : ℕ → Reader (List Char)
  | 0, _ => none
  | _ + 1, [] => none
  | fuel + 1, c :: rest =>
    if c = '"' then some ([], rest)
    else if c = '\\' then
      (escape rest).bind fun (d, rest) =>
        (stringFrom fuel rest).map fun (text, rest) => (d :: text, rest)
    else if c.toNat < 0x20 then none
    else (stringFrom fuel rest).map fun (text, rest) => (c :: text, rest)

/-- A string behind its opening quote. -/
def string : Reader (List Char) := fun cs => stringFrom cs.length cs

/-! ### Numbers -/

/-- Decimal digits, one at least. -/
def digits : Reader (List Char) := fun cs =>
  if cs.takeWhile Char.isDigit = [] then none
  else some (cs.takeWhile Char.isDigit, cs.dropWhile Char.isDigit)

/-- The part of a number before the point: no zero stands before another digit. -/
def integer : Reader (List Char) := fun cs =>
  if cs.head? = some '0' then some (['0'], cs.tail) else digits cs

/-- The part of a number behind the point. -/
def fraction : Reader (List Char) := fun cs =>
  if cs.head? = some '.' then (digits cs.tail).map fun (ds, rest) => ('.' :: ds, rest)
  else some ([], cs)

/-- The exponent of a number. -/
def exponent : Reader (List Char)
  | [] => some ([], [])
  | c :: rest =>
    if c = 'e' ∨ c = 'E' then
      let sign := if rest.head? = some '+' ∨ rest.head? = some '-' then rest.take 1 else []
      (digits (rest.drop sign.length)).map fun (ds, rest) => (c :: sign ++ ds, rest)
    else some ([], c :: rest)

/-- A number. -/
def number : Reader (List Char) := fun cs =>
  let sign := if cs.head? = some '-' then ['-'] else []
  (integer (cs.drop sign.length)).bind fun (int, rest) =>
    (fraction rest).bind fun (frac, rest) =>
      (exponent rest).map fun (exp, rest) => (sign ++ int ++ frac ++ exp, rest)

/-! ### Values -/

/-- Items with commas between them, so many at most, up to a closing character. -/
def itemsFrom {α : Type} (item : Reader α) (close : Char) : ℕ → Reader (List α)
  | 0, _ => none
  | fuel + 1, cs =>
    (item (skip cs)).bind fun (a, rest) =>
      if (skip rest).head? = some ',' then
        (itemsFrom item close fuel (skip rest).tail).map fun (as, rest) => (a :: as, rest)
      else if (skip rest).head? = some close then some ([a], (skip rest).tail)
      else none

/-- Items with commas between them, or none, up to a closing character. -/
def items {α : Type} (item : Reader α) (close : Char) : Reader (List α) := fun cs =>
  if (skip cs).head? = some close then some ([], (skip cs).tail)
  else itemsFrom item close cs.length cs

/-- A member of an object: its name, and its value behind a colon. -/
def member (value : Reader Value) : Reader (List Char × Value)
  | [] => none
  | c :: cs =>
    if c = '"' then
      (string cs).bind fun (name, rest) =>
        if (skip rest).head? = some ':' then
          (value (skip (skip rest).tail)).map fun (v, rest) => ((name, v), rest)
        else none
    else none

/-- A word that stands for a value. -/
def word (text : List Char) (v : Value) : Reader Value := fun cs =>
  if cs.take text.length = text then some (v, cs.drop text.length) else none

/-- A value, with so many values inside each other at most. -/
def value : ℕ → Reader Value
  | 0, _ => none
  | _ + 1, [] => none
  | depth + 1, c :: rest =>
    if c = '"' then (string rest).map fun (text, rest) => (.string text, rest)
    else if c = '[' then
      (items (value depth) ']' rest).map fun (vs, rest) => (.array vs, rest)
    else if c = '{' then
      (items (member (value depth)) '}' rest).map fun (ms, rest) => (.object ms, rest)
    else if c = 'n' then word ['n', 'u', 'l', 'l'] .null (c :: rest)
    else if c = 't' then word ['t', 'r', 'u', 'e'] (.bool true) (c :: rest)
    else if c = 'f' then word ['f', 'a', 'l', 's', 'e'] (.bool false) (c :: rest)
    else (number (c :: rest)).map fun (text, rest) => (.number text, rest)

/-- A whole text: one value, and blanks around it. -/
def parse (text : List Char) : Option Value :=
  (value text.length (skip text)).bind fun (v, rest) =>
    if skip rest = [] then some v else none

/-! ### What is between tokens -/

/-- Blanks. -/
def Blank (cs : List Char) : Prop := cs.all isBlank = true

instance (cs : List Char) : Decidable (Blank cs) := inferInstanceAs (Decidable (_ = true))

theorem blank_nil : Blank [] := rfl

/-- What may stand behind a value. -/
def Ends (rest : List Char) : Prop :=
  ∀ c, rest.head? = some c → isBlank c = true ∨ c = ',' ∨ c = ']' ∨ c = '}'

/-- A text that a token starts, and no closing bracket. -/
def Opens (s : List Char) : Prop := ∃ c cs, s = c :: cs ∧ isBlank c = false ∧ c ≠ ']' ∧ c ≠ '}'

theorem ends_nil : Ends [] := nofun

theorem ends_cons {c : Char} {cs : List Char}
    (h : isBlank c = true ∨ c = ',' ∨ c = ']' ∨ c = '}') : Ends (c :: cs) := by
  intro d hd
  obtain rfl := Option.some.inj hd
  exact h

theorem ends_blank_append {blank rest : List Char} (hblank : Blank blank) (h : Ends rest) :
    Ends (blank ++ rest) := by
  cases blank with
  | nil => exact h
  | cons c blank => exact ends_cons (.inl (List.all_eq_true.mp hblank c List.mem_cons_self))

theorem skip_blank_append {blank : List Char} (h : Blank blank) (rest : List Char) :
    skip (blank ++ rest) = skip rest := by
  induction blank with
  | nil => rfl
  | cons c blank ih =>
      rw [Blank, List.all_cons, Bool.and_eq_true] at h
      rw [List.cons_append, skip, List.dropWhile_cons, if_pos h.1]
      exact ih h.2

theorem skip_cons {c : Char} (hc : isBlank c = false) (cs : List Char) :
    skip (c :: cs) = c :: cs := by
  rw [skip, List.dropWhile_cons, hc]
  rfl

theorem Opens.skip_append {s : List Char} (h : Opens s) (rest : List Char) :
    skip (s ++ rest) = s ++ rest := by
  obtain ⟨c, cs, rfl, hc, -, -⟩ := h
  exact skip_cons hc _

theorem skip_blank {blank : List Char} (h : Blank blank) : skip blank = [] := by
  have hskip := skip_blank_append h []
  rwa [List.append_nil] at hskip

/-! ### What a string stands for -/

/-- A piece of a string that stands for one character. -/
structure CharText (s : List Char) (c : Char) : Prop where
  ne_nil : s ≠ []
  step : ∀ fuel rest, stringFrom (fuel + 1) (s ++ rest) =
    (stringFrom fuel rest).map fun (text, rest) => (c :: text, rest)

/-- What stands between the quotes of a string, and the text it stands for. -/
def Spells (body text : List Char) : Prop :=
  ∀ rest, string (body ++ '"' :: rest) = some (text, rest)

/-- A text at which no string can be read on. -/
def Stuck (s : List Char) : Prop := ∀ fuel rest, stringFrom fuel (s ++ rest) = none

/-- Most characters stand for themselves. -/
theorem charText_self {c : Char} (hquote : c ≠ '"') (hback : c ≠ '\\') (hctl : 0x20 ≤ c.toNat) :
    CharText [c] c := by
  refine ⟨List.cons_ne_nil _ _, fun fuel rest => ?_⟩
  rw [List.singleton_append, stringFrom, if_neg hquote, if_neg hback, if_neg (by omega)]

/-- An escape stands for what it is read as. -/
theorem charText_escape {s : List Char} {c : Char}
    (h : ∀ rest, escape (s ++ rest) = some (c, rest)) : CharText ('\\' :: s) c := by
  refine ⟨List.cons_ne_nil _ _, fun fuel rest => ?_⟩
  rw [List.cons_append, stringFrom, if_neg (by decide), if_pos rfl, h]
  rfl

/-- The escape of a code unit stands for the character with this number. -/
theorem charText_unicode {n : ℕ} (hn : n < 0xD800) :
    CharText ('\\' :: 'u' :: Hex.padded 4 n) (Char.ofNat n) := by
  refine charText_escape fun rest => ?_
  have hlen : (Hex.padded 4 n).length = 4 := Hex.length_padded (by decide) (by omega)
  have hunit : unit (Hex.padded 4 n ++ rest) = some (n, rest) := by
    rw [unit, if_neg (by rw [List.length_append]; omega), List.take_left' hlen,
      List.drop_left' hlen, Hex.value_padded]
    rfl
  rw [List.cons_append, escape, if_pos rfl, unicodeEscape, hunit, Option.bind_some]
  exact (if_neg (by omega)).trans (if_neg (by omega))

/-- A string of pieces stands for their characters. -/
theorem stringFrom_flatMap {f : Char → List Char} {text : List Char}
    (h : ∀ c ∈ text, CharText (f c) c) (fuel : ℕ) (rest : List Char) :
    stringFrom (text.length + fuel) (text.flatMap f ++ rest) =
      (stringFrom fuel rest).map fun (more, rest) => (text ++ more, rest) := by
  induction text with
  | nil => simp
  | cons c text ih =>
      obtain ⟨hc, htext⟩ := List.forall_mem_cons.mp h
      rw [List.length_cons, Nat.add_right_comm, List.flatMap_cons, List.append_assoc, hc.step,
        ih htext, Option.map_map]
      rfl

theorem length_le_flatMap {f : Char → List Char} {text : List Char}
    (h : ∀ c ∈ text, CharText (f c) c) : text.length ≤ (text.flatMap f).length := by
  induction text with
  | nil => exact Nat.le_refl _
  | cons c text ih =>
      obtain ⟨hc, htext⟩ := List.forall_mem_cons.mp h
      have hpos := List.length_pos_iff.mpr hc.ne_nil
      have hrest := ih htext
      rw [List.flatMap_cons, List.length_append, List.length_cons]
      omega

/-- **A text that is escaped character by character is read back.** -/
theorem spells_flatMap {f : Char → List Char} {text : List Char}
    (h : ∀ c ∈ text, CharText (f c) c) : Spells (text.flatMap f) text := by
  intro rest
  have hlen := length_le_flatMap h
  obtain ⟨fuel, hfuel⟩ : ∃ fuel, (text.flatMap f ++ '"' :: rest).length =
      text.length + (fuel + 1) := by
    refine ⟨(text.flatMap f).length - text.length + rest.length, ?_⟩
    rw [List.length_append, List.length_cons]
    omega
  rw [string, hfuel, stringFrom_flatMap h, stringFrom, if_pos rfl, Option.map_some]
  dsimp only
  rw [List.append_nil]

/-- A character that needs no escape. -/
def isPlain (c : Char) : Bool := c ≠ '"' ∧ c ≠ '\\' ∧ 0x20 ≤ c.toNat

/-- A text of such characters is its own string. -/
theorem spells_plain {text : List Char} (h : text.all isPlain = true) : Spells text text := by
  have hself := @spells_flatMap (fun c => [c]) text fun c hc => by
    obtain ⟨hquote, hback, hctl⟩ := of_decide_eq_true (List.all_eq_true.mp h c hc)
    exact charText_self hquote hback hctl
  rwa [List.flatMap_singleton'] at hself

/-- No string goes on at a backslash without an escape. -/
theorem stuck_escape {s : List Char} (h : ∀ rest, escape (s ++ rest) = none) :
    Stuck ('\\' :: s) := by
  intro fuel rest
  cases fuel with
  | zero => rfl
  | succ fuel =>
      rw [List.cons_append, stringFrom, if_neg (by decide), if_pos rfl, h]
      rfl

/-- A code unit is escaped by digits alone. -/
theorem stuck_unicode {c : Char} (hc : Hex.digit c = none) (cs : List Char) :
    Stuck ('\\' :: 'u' :: c :: cs) := by
  refine stuck_escape fun rest => ?_
  have hvalue : Hex.value 0 ((c :: (cs ++ rest)).take 4) = none := by
    rw [List.take_succ_cons, Hex.value, hc]
  rw [List.cons_append, List.cons_append, escape, if_pos rfl, unicodeEscape, unit, hvalue]
  split_ifs <;> rfl

theorem Stuck.append {s : List Char} (h : Stuck s) (t : List Char) : Stuck (s ++ t) := by
  intro fuel rest
  rw [List.append_assoc]
  exact h fuel _

/-- **A string with a bad escape in it is not read**, wherever the escape stands. -/
theorem string_eq_none {f : Char → List Char} {text s : List Char} (rest : List Char)
    (h : ∀ c ∈ text, CharText (f c) c) (hs : Stuck s) :
    string (text.flatMap f ++ s ++ rest) = none := by
  have hlen := length_le_flatMap h
  obtain ⟨fuel, hfuel⟩ : ∃ fuel, (text.flatMap f ++ (s ++ rest)).length = text.length + fuel :=
    ⟨(text.flatMap f ++ (s ++ rest)).length - text.length, by rw [List.length_append]; omega⟩
  rw [string, List.append_assoc, hfuel, stringFrom_flatMap h, hs]
  rfl

/-- JSON has no escape with braces. -/
example : parse "\"\\u\x7b301\x7d\"".toList = none := by rfl

/-! ### What a text is read as -/

/-- A text is read as `a`, whatever ends it. -/
structure Reads {α : Type} (p : Reader α) (s : List Char) (a : α) : Prop where
  opens : Opens s
  read : ∀ rest, Ends rest → p (s ++ rest) = some (a, rest)

/-- Items with commas between them and blanks around each, up to a closing character. -/
inductive Items {α : Type} (item : Reader α) (close : Char) : List Char → List α → Prop
  | last {pre s post : List Char} {a : α} (hpre : Blank pre) (h : Reads item s a)
      (hpost : Blank post) : Items item close (pre ++ s ++ post ++ [close]) [a]
  | cons {pre s post t : List Char} {a : α} {as : List α} (hpre : Blank pre)
      (h : Reads item s a) (hpost : Blank post) (hmore : Items item close t as) :
      Items item close (pre ++ s ++ post ++ ',' :: t) (a :: as)

/-- The last item, without blanks. -/
theorem Items.last_tight {α : Type} {item : Reader α} {close : Char} {s : List Char} {a : α}
    (h : Reads item s a) : Items item close (s ++ [close]) [a] := by
  have hlast := @Items.last _ _ close [] _ [] _ blank_nil h blank_nil
  rwa [List.append_nil, List.nil_append] at hlast

/-- An item before others, without blanks. -/
theorem Items.cons_tight {α : Type} {item : Reader α} {close : Char} {s t : List Char} {a : α}
    {as : List α} (h : Reads item s a) (hmore : Items item close t as) :
    Items item close (s ++ ',' :: t) (a :: as) := by
  have hcons := @Items.cons _ _ close [] _ [] _ _ _ blank_nil h blank_nil hmore
  rwa [List.append_nil, List.nil_append] at hcons

/-- An item is read with the blanks around it. -/
theorem Reads.read_item {α : Type} {item : Reader α} {pre s post : List Char} {a : α}
    (h : Reads item s a) (hpre : Blank pre) (hpost : Blank post) {c : Char}
    (hc : c = ',' ∨ c = ']' ∨ c = '}') (rest : List Char) :
    item (skip (pre ++ s ++ post ++ c :: rest)) = some (a, post ++ c :: rest) ∧
      skip (post ++ c :: rest) = c :: rest := by
  have hblank : isBlank c = false := by rcases hc with rfl | rfl | rfl <;> rfl
  constructor
  · rw [List.append_assoc, List.append_assoc, skip_blank_append hpre, h.opens.skip_append]
    exact h.read _ (ends_blank_append hpost (ends_cons (.inr hc)))
  · rw [skip_blank_append hpost, skip_cons hblank]

theorem itemsFrom_of_items {α : Type} {item : Reader α} {close : Char}
    (hclose : close = ']' ∨ close = '}') {t : List Char} {as : List α}
    (h : Items item close t as) {fuel : ℕ} (hfuel : t.length ≤ fuel) (rest : List Char) :
    itemsFrom item close fuel (t ++ rest) = some (as, rest) := by
  induction h generalizing fuel with
  | @last pre s post a hpre h hpost =>
      obtain ⟨fuel, rfl⟩ : ∃ n, fuel = n + 1 := by
        refine ⟨fuel - 1, ?_⟩
        rw [List.length_append, List.length_singleton] at hfuel
        omega
      obtain ⟨hitem, hskip⟩ := h.read_item hpre hpost (.inr hclose) rest
      have hcomma : ¬ (close :: rest).head? = some ',' := by
        rcases hclose with rfl | rfl <;> exact fun h => absurd (Option.some.inj h) (by decide)
      rw [List.append_assoc, List.singleton_append, itemsFrom, hitem, Option.bind_some]
      dsimp only
      rw [hskip, if_neg hcomma, List.head?_cons, if_pos rfl, List.tail_cons]
  | @cons pre s post t a as hpre h hpost hmore ih =>
      obtain ⟨fuel, rfl⟩ : ∃ n, fuel = n + 1 := by
        refine ⟨fuel - 1, ?_⟩
        rw [List.length_append, List.length_cons] at hfuel
        omega
      have ht : t.length ≤ fuel := by
        rw [List.length_append, List.length_cons] at hfuel
        omega
      obtain ⟨hitem, hskip⟩ := h.read_item hpre hpost (.inl rfl) (t ++ rest)
      rw [List.append_assoc, List.cons_append, itemsFrom, hitem, Option.bind_some]
      dsimp only
      rw [hskip, List.head?_cons, if_pos rfl, List.tail_cons, ih ht]
      rfl

/-- Items do not start with a closing character. -/
theorem Opens.head_ne {close : Char} (hclose : close = ']' ∨ close = '}') {pre s : List Char}
    (h : Opens s) (hpre : Blank pre) (more : List Char) :
    (skip (pre ++ (s ++ more))).head? ≠ some close := by
  obtain ⟨c, cs, rfl, hblank, hbracket, hbrace⟩ := h
  rw [skip_blank_append hpre, List.cons_append, skip_cons hblank]
  intro hhead
  obtain rfl := Option.some.inj hhead
  exact hclose.elim hbracket hbrace

theorem Items.head_ne {α : Type} {item : Reader α} {close : Char}
    (hclose : close = ']' ∨ close = '}') {t : List Char} {as : List α}
    (h : Items item close t as) (rest : List Char) : (skip (t ++ rest)).head? ≠ some close := by
  cases h with
  | last hpre h _ =>
      rw [List.append_assoc, List.append_assoc, List.append_assoc]
      exact h.opens.head_ne hclose hpre _
  | cons hpre h _ _ =>
      rw [List.append_assoc, List.append_assoc, List.append_assoc]
      exact h.opens.head_ne hclose hpre _

/-- **Items are read.** -/
theorem items_of_items {α : Type} {item : Reader α} {close : Char}
    (hclose : close = ']' ∨ close = '}') {t : List Char} {as : List α}
    (h : Items item close t as) (rest : List Char) :
    items item close (t ++ rest) = some (as, rest) := by
  rw [items, if_neg (h.head_ne hclose rest)]
  exact itemsFrom_of_items hclose h (by rw [List.length_append]; omega) rest

/-! ### Values that are read -/

/-- A string in quotes. -/
theorem reads_string {body text : List Char} (h : Spells body text) (depth : ℕ) :
    Reads (value (depth + 1)) ('"' :: body ++ ['"']) (.string text) := by
  refine ⟨⟨'"', _, rfl, rfl, by decide, by decide⟩, fun rest _ => ?_⟩
  rw [List.append_assoc, List.cons_append, value, if_pos rfl, List.singleton_append, h]
  rfl

theorem reads_bool (b : Bool) (depth : ℕ) :
    Reads (value (depth + 1)) (toString b).toList (.bool b) := by
  cases b with
  | false => exact ⟨⟨'f', _, rfl, rfl, by decide, by decide⟩, fun rest _ => rfl⟩
  | true => exact ⟨⟨'t', _, rfl, rfl, by decide, by decide⟩, fun rest _ => rfl⟩

/-- The digits of a number start with a zero only if it is zero. -/
theorem toDigits_of_head_zero {n : ℕ} (h : (Nat.toDigits 10 n).head? = some '0') : n = 0 := by
  induction n using Nat.base_induction 10 (by decide) with
  | single m hm =>
      rw [Nat.toDigits_of_lt_base hm] at h
      have hall : ∀ m : Fin 10, Nat.digitChar m = '0' → m.val = 0 := by decide
      exact hall ⟨m, hm⟩ (Option.some.inj h)
  | digit m k hk hm ih =>
      rw [← Nat.toDigits_append_toDigits (by decide) hm hk,
        List.head?_append_of_ne_nil _ Nat.toDigits_ne_nil] at h
      exact absurd (ih h) (by omega)

/-- No digit, point or exponent stands behind a value. -/
theorem Ends.not_number {rest : List Char} (h : Ends rest) :
    ∀ c, rest.head? = some c → c.isDigit = false ∧ c ≠ '.' ∧ ¬ (c = 'e' ∨ c = 'E') := by
  intro c hc
  have hcases := h c hc
  rw [isBlank, decide_eq_true_eq] at hcases
  rcases hcases with (rfl | rfl | rfl | rfl) | rfl | rfl | rfl <;> decide

/-- Digits are read up to what stands behind the value. -/
theorem digits_append {ds rest : List Char} (hne : ds ≠ []) (hds : ∀ c ∈ ds, c.isDigit = true)
    (hrest : Ends rest) : digits (ds ++ rest) = some (ds, rest) := by
  have hstop : rest.takeWhile Char.isDigit = [] ∧ rest.dropWhile Char.isDigit = rest := by
    cases rest with
    | nil => exact ⟨rfl, rfl⟩
    | cons c rest =>
        have hc := (hrest.not_number c rfl).1
        rw [List.takeWhile_cons, List.dropWhile_cons, hc]
        exact ⟨rfl, rfl⟩
  have htake : (ds ++ rest).takeWhile Char.isDigit = ds := by
    rw [List.takeWhile_append_of_pos hds, hstop.1, List.append_nil]
  have hdrop : (ds ++ rest).dropWhile Char.isDigit = rest := by
    rw [List.dropWhile_append_of_pos hds, hstop.2]
  rw [digits, htake, hdrop, if_neg hne]

theorem fraction_of_ends {rest : List Char} (h : Ends rest) : fraction rest = some ([], rest) :=
  if_neg fun hhead => (h.not_number '.' hhead).2.1 rfl

theorem exponent_of_ends {rest : List Char} (h : Ends rest) : exponent rest = some ([], rest) := by
  cases rest with
  | nil => rfl
  | cons c rest =>
      rw [exponent]
      exact if_neg (h.not_number c rfl).2.2

/-- A natural number is read. -/
theorem number_append (n : ℕ) {rest : List Char} (hrest : Ends rest) :
    number (Nat.toDigits 10 n ++ rest) = some (Nat.toDigits 10 n, rest) := by
  have hne : Nat.toDigits 10 n ≠ [] := Nat.toDigits_ne_nil
  have hds : ∀ c ∈ Nat.toDigits 10 n, c.isDigit = true := fun c hc =>
    Nat.isDigit_of_mem_toDigits (by decide) (by decide) hc
  have hhead : (Nat.toDigits 10 n ++ rest).head? = (Nat.toDigits 10 n).head? :=
    List.head?_append_of_ne_nil _ hne
  have hsign : (Nat.toDigits 10 n ++ rest).head? ≠ some '-' := by
    rw [hhead]
    intro h
    exact absurd (hds _ (List.mem_of_head? h)) (by decide)
  have hint : integer (Nat.toDigits 10 n ++ rest) = some (Nat.toDigits 10 n, rest) := by
    rw [integer, hhead]
    split_ifs with hzero
    · obtain rfl := toDigits_of_head_zero hzero
      rfl
    · exact digits_append hne hds hrest
  rw [number]
  simp only [if_neg hsign, List.length_nil, List.drop_zero]
  rw [hint, Option.bind_some]
  dsimp only
  rw [fraction_of_ends hrest, Option.bind_some]
  dsimp only
  rw [exponent_of_ends hrest]
  simp only [Option.map_some, List.nil_append, List.append_nil]

theorem reads_nat (n depth : ℕ) :
    Reads (value (depth + 1)) (Nat.toDigits 10 n) (.nat n) := by
  obtain ⟨c, cs, hcs⟩ := List.exists_cons_of_ne_nil (Nat.toDigits_ne_nil (b := 10) (n := n))
  have hdigit : c.isDigit = true :=
    Nat.isDigit_of_mem_toDigits (n := n) (by decide) (by decide) (hcs ▸ List.mem_cons_self)
  have hne : ∀ {d : Char}, d.isDigit = false → c ≠ d := by
    rintro d hd rfl
    exact absurd hdigit (by rw [hd]; decide)
  have hblank : isBlank c = false := by
    simp only [isBlank, decide_eq_false_iff_not, not_or]
    exact ⟨hne rfl, hne rfl, hne rfl, hne rfl⟩
  refine ⟨⟨c, cs, hcs, hblank, hne rfl, hne rfl⟩, fun rest hrest => ?_⟩
  have hnumber := number_append n hrest
  rw [hcs, List.cons_append] at hnumber ⊢
  rw [value, if_neg (hne rfl), if_neg (hne rfl), if_neg (hne rfl), if_neg (hne rfl),
    if_neg (hne rfl), if_neg (hne rfl), hnumber, Value.nat, hcs]
  rfl

/-- A member of an object, with blanks before its value. -/
theorem reads_member {value : Reader Value} {key name gap s : List Char} {v : Value}
    (hkey : Spells key name) (hgap : Blank gap) (h : Reads value s v) :
    Reads (member value) ('"' :: key ++ '"' :: ':' :: gap ++ s) (name, v) := by
  refine ⟨⟨'"', _, rfl, rfl, by decide, by decide⟩, fun rest hrest => ?_⟩
  have hkey' := hkey (':' :: (gap ++ s ++ rest))
  rw [List.cons_append, List.cons_append, List.cons_append, member, if_pos rfl]
  simp only [List.append_assoc, List.cons_append] at hkey' ⊢
  rw [hkey', Option.bind_some]
  dsimp only
  rw [skip_cons rfl, List.head?_cons, if_pos rfl, List.tail_cons, skip_blank_append hgap,
    h.opens.skip_append, h.read rest hrest]
  rfl

/-- A member without blanks, with a name that needs no escape. -/
theorem reads_tightMember {value : Reader Value} (key : List Char) {s : List Char} {v : Value}
    (hkey : key.all isPlain = true) (h : Reads value s v) :
    Reads (member value) ('"' :: key ++ '"' :: ':' :: s) (key, v) := by
  have hmember := reads_member (spells_plain hkey) blank_nil h
  rwa [List.append_assoc] at hmember

theorem reads_array {depth : ℕ} {t : List Char} {vs : List Value}
    (h : Items (value depth) ']' t vs) : Reads (value (depth + 1)) ('[' :: t) (.array vs) := by
  refine ⟨⟨'[', _, rfl, rfl, by decide, by decide⟩, fun rest _ => ?_⟩
  rw [List.cons_append, value, if_neg (by decide), if_pos rfl, items_of_items (.inl rfl) h]
  rfl

theorem reads_emptyArray (depth : ℕ) : Reads (value (depth + 1)) ['[', ']'] (.array []) :=
  ⟨⟨'[', _, rfl, rfl, by decide, by decide⟩, fun _ _ => rfl⟩

theorem reads_object {depth : ℕ} {t : List Char} {ms : List (List Char × Value)}
    (h : Items (member (value depth)) '}' t ms) :
    Reads (value (depth + 1)) ('{' :: t) (.object ms) := by
  refine ⟨⟨'{', _, rfl, rfl, by decide, by decide⟩, fun rest _ => ?_⟩
  rw [List.cons_append, value, if_neg (by decide), if_neg (by decide), if_pos rfl,
    items_of_items (.inr rfl) h]
  rfl

/-- **A text that is read as a value is valid**, with blanks behind it. -/
theorem parse_of_reads {text blank : List Char} {v : Value} (hblank : Blank blank)
    (h : Reads (value (text ++ blank).length) text v) : parse (text ++ blank) = some v := by
  have hends : Ends blank := by
    have hnil := ends_blank_append hblank ends_nil
    rwa [List.append_nil] at hnil
  rw [parse, h.opens.skip_append, h.read blank hends, Option.bind_some]
  exact if_pos (skip_blank hblank)

/-- Blanks, an escape and a number with an exponent. -/
example : parse "[-1.5e+3, \x7b\"k\" : \"\\u00e9\"\x7d ]\n".toList =
    some (.array [.number "-1.5e+3".toList, .object [(['k'], .string ['é'])]]) := by rfl

/-! ### Texts that are not read -/

/-- No text that starts with `s` is read. -/
def Fails {α : Type} (p : Reader α) (s : List Char) : Prop := ∀ rest, p (s ++ rest) = none

/-- Items up to one that is not read. -/
inductive Faulty {α : Type} (item : Reader α) : List Char → Prop
  | here {pre s : List Char} (hpre : Blank pre) (hs : Opens s) (h : Fails item s) :
      Faulty item (pre ++ s)
  | later {pre s post t : List Char} {a : α} (hpre : Blank pre) (h : Reads item s a)
      (hpost : Blank post) (hmore : Faulty item t) : Faulty item (pre ++ s ++ post ++ ',' :: t)

/-- An item before a faulty one, without blanks. -/
theorem Faulty.later_tight {α : Type} {item : Reader α} {s t : List Char} {a : α}
    (h : Reads item s a) (hmore : Faulty item t) : Faulty item (s ++ ',' :: t) := by
  have hlater := @Faulty.later _ _ [] _ [] _ _ blank_nil h blank_nil hmore
  rwa [List.append_nil, List.nil_append] at hlater

theorem itemsFrom_of_faulty {α : Type} {item : Reader α} {close : Char} {t : List Char}
    (h : Faulty item t) (fuel : ℕ) : Fails (itemsFrom item close fuel) t := by
  induction h generalizing fuel with
  | here hpre hs h =>
      intro rest
      cases fuel with
      | zero => rfl
      | succ fuel =>
          rw [List.append_assoc, itemsFrom, skip_blank_append hpre, hs.skip_append, h]
          rfl
  | @later pre s post t a hpre h hpost _ ih =>
      intro rest
      cases fuel with
      | zero => rfl
      | succ fuel =>
          obtain ⟨hitem, hskip⟩ := h.read_item hpre hpost (.inl rfl) (t ++ rest)
          rw [List.append_assoc, List.cons_append, itemsFrom, hitem, Option.bind_some]
          dsimp only
          rw [hskip, List.head?_cons, if_pos rfl, List.tail_cons, ih fuel]
          rfl

/-- What the first item starts with is no closing character. -/
theorem Faulty.head_ne {α : Type} {item : Reader α} {close : Char}
    (hclose : close = ']' ∨ close = '}') {t : List Char} (h : Faulty item t) (rest : List Char) :
    (skip (t ++ rest)).head? ≠ some close := by
  cases h with
  | here hpre hs _ =>
      rw [List.append_assoc]
      exact hs.head_ne hclose hpre rest
  | later hpre h _ _ =>
      rw [List.append_assoc, List.append_assoc, List.append_assoc]
      exact h.opens.head_ne hclose hpre _

/-- **An object with a faulty member is not read.** -/
theorem fails_object {depth : ℕ} {t : List Char} (h : Faulty (member (value depth)) t) :
    Fails (value (depth + 1)) ('{' :: t) := by
  intro rest
  rw [List.cons_append, value, if_neg (by decide), if_neg (by decide), if_pos rfl, items,
    if_neg (h.head_ne (.inr rfl) rest), itemsFrom_of_faulty h]
  rfl

/-- A member with a value that is not read. -/
theorem faulty_member {value : Reader Value} {pre key name gap s : List Char} (hpre : Blank pre)
    (hkey : Spells key name) (hgap : Blank gap) (hs : Opens s) (h : Fails value s) :
    Faulty (member value) (pre ++ ('"' :: key ++ '"' :: ':' :: gap ++ s)) := by
  refine .here hpre ⟨'"', _, rfl, rfl, by decide, by decide⟩ fun rest => ?_
  have hkey' := hkey (':' :: (gap ++ s ++ rest))
  rw [List.cons_append, List.cons_append, List.cons_append, member, if_pos rfl]
  simp only [List.append_assoc, List.cons_append] at hkey' ⊢
  rw [hkey', Option.bind_some]
  dsimp only
  rw [skip_cons rfl, List.head?_cons, if_pos rfl, List.tail_cons, skip_blank_append hgap,
    hs.skip_append, h]
  rfl

/-- Such a member without blanks, with a name that needs no escape. -/
theorem faulty_tightMember {value : Reader Value} (key : List Char) {s : List Char}
    (hkey : key.all isPlain = true) (hs : Opens s) (h : Fails value s) :
    Faulty (member value) ('"' :: key ++ '"' :: ':' :: s) := by
  have hmember := faulty_member blank_nil (spells_plain hkey) blank_nil hs h
  rwa [List.nil_append, List.append_assoc] at hmember

/-- A string with a bad escape in it. -/
theorem fails_string {f : Char → List Char} {text s : List Char}
    (h : ∀ c ∈ text, CharText (f c) c) (hs : Stuck s) (depth : ℕ) :
    Fails (value depth) ('"' :: text.flatMap f ++ s) := by
  intro rest
  cases depth with
  | zero => rfl
  | succ depth =>
      rw [List.cons_append, List.cons_append, value, if_pos rfl, string_eq_none rest h hs]
      rfl

/-- **A text that is not read is not valid.** -/
theorem parse_of_fails {text s rest : List Char} (htext : text = s ++ rest) (hs : Opens s)
    (h : Fails (value text.length) s) : parse text = none := by
  have hskip : skip text = text := by
    rw [htext]
    exact hs.skip_append rest
  have hvalue : value text.length text = none := by
    have hrest := h rest
    rwa [← htext] at hrest
  rw [parse, hskip, hvalue]
  rfl

end Json

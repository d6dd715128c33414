import EwfForensic.Lib.Json
import Mathlib.Data.List.Forall2
import Mathlib.Data.List.TakeWhile

/-!
# Writing JSON Texts

A writer for JSON values with a layout of its own, and the proof that the reader of `Lib.Json`
reads back what it writes.

* `Json.Value.Valid` — a value whose numbers are written as numbers.
* `Json.Layout` — the blanks that are put between the tokens: none (`Layout.compact`), or a line for
  each element and member (`Layout.pretty`).
* `Json.render` — a value as a text.
* `Json.parse_render` — the text is read as the value, in every layout.
* `Json.newline_notMem_render` — without line breaks in the layout it is a single line.
-/

namespace Json

/-! ### Numbers -/

/-- A character of a number. -/
def isNumeral (c : Char) : Bool := c.isDigit ∨ c ∈ ['-', '+', '.', 'e', 'E']

/-- A production takes the same from the front of a text whatever ends the value, and all of it
are characters of numbers. -/
structure Numeral (p : Reader (List Char)) : Prop where
  append : ∀ {cs t rest more}, p cs = some (t, rest) → Ends more →
    p (cs ++ more) = some (t, rest ++ more)
  all : ∀ {cs t rest}, p cs = some (t, rest) → t.all isNumeral = true

theorem Ends.digits {more : List Char} (h : Ends more) (cs : List Char) :
    (cs ++ more).takeWhile Char.isDigit = cs.takeWhile Char.isDigit ∧
      (cs ++ more).dropWhile Char.isDigit = cs.dropWhile Char.isDigit ++ more := by
  induction cs with
  | nil =>
      cases more with
      | nil => exact ⟨rfl, rfl⟩
      | cons c more =>
          have hc := (h.not_number c rfl).1
          rw [List.nil_append, List.takeWhile_cons, List.dropWhile_cons, hc]
          exact ⟨rfl, rfl⟩
  | cons c cs ih =>
      rw [List.cons_append, List.takeWhile_cons, List.takeWhile_cons, List.dropWhile_cons,
        List.dropWhile_cons]
      split_ifs
      · exact ⟨congrArg _ ih.1, ih.2⟩
      · exact ⟨rfl, rfl⟩

theorem numeral_digits : Numeral digits where
  append {cs t rest more} h hmore := by
    rw [Json.digits] at h ⊢
    rw [(hmore.digits cs).1, (hmore.digits cs).2]
    split_ifs at h ⊢
    obtain ⟨rfl, rfl⟩ := Prod.mk.inj (Option.some.inj h)
    rfl
  all {cs t rest} h := by
    rw [Json.digits] at h
    split_ifs at h
    obtain ⟨rfl, rfl⟩ := Prod.mk.inj (Option.some.inj h)
    refine List.all_eq_true.mpr fun c hc => decide_eq_true (.inl ?_)
    exact List.mem_takeWhile_imp hc

/-- A text that a production takes something from is not empty. -/
theorem numeral_integer : Numeral integer where
  append {cs t rest more} h hmore := by
    cases cs with
    | nil => cases h
    | cons c cs =>
        rw [integer] at h ⊢
        rw [List.cons_append, List.head?_cons, List.tail_cons]
        rw [List.head?_cons, List.tail_cons] at h
        split_ifs at h ⊢ with hzero
        · obtain ⟨rfl, rfl⟩ := Prod.mk.inj (Option.some.inj h)
          rfl
        · exact numeral_digits.append h hmore
  all {cs t rest} h := by
    rw [integer] at h
    split_ifs at h
    · obtain ⟨rfl, -⟩ := Prod.mk.inj (Option.some.inj h)
      rfl
    · exact numeral_digits.all h

theorem numeral_fraction : Numeral fraction where
  append {cs t rest more} h hmore := by
    cases cs with
    | nil =>
        obtain ⟨rfl, rfl⟩ := Prod.mk.inj (Option.some.inj h)
        exact fraction_of_ends hmore
    | cons c cs =>
        rw [fraction] at h ⊢
        rw [List.cons_append, List.head?_cons, List.tail_cons]
        rw [List.head?_cons, List.tail_cons] at h
        split_ifs at h ⊢
        · obtain ⟨⟨ds, r⟩, hds, heq⟩ := Option.map_eq_some_iff.mp h
          obtain ⟨rfl, rfl⟩ := Prod.mk.inj heq
          rw [numeral_digits.append hds hmore]
          rfl
        · obtain ⟨rfl, rfl⟩ := Prod.mk.inj (Option.some.inj h)
          rfl
  all {cs t rest} h := by
    rw [fraction] at h
    split_ifs at h
    · obtain ⟨⟨ds, r⟩, hds, heq⟩ := Option.map_eq_some_iff.mp h
      obtain ⟨rfl, rfl⟩ := Prod.mk.inj heq
      rw [List.all_cons, numeral_digits.all hds]
      rfl
    · obtain ⟨rfl, -⟩ := Prod.mk.inj (Option.some.inj h)
      rfl

/-- The sign behind the letter of an exponent. -/
def expSign (cs : List Char) : List Char :=
  if cs.head? = some '+' ∨ cs.head? = some '-' then cs.take 1 else []

theorem exponent_cons {c : Char} (hc : c = 'e' ∨ c = 'E') (cs : List Char) :
    exponent (c :: cs) =
      (digits (cs.drop (expSign cs).length)).map fun (ds, rest) =>
        (c :: expSign cs ++ ds, rest) :=
  if_pos hc

theorem all_expSign (cs : List Char) : (expSign cs).all isNumeral = true := by
  cases cs with
  | nil => rfl
  | cons c cs =>
      rw [expSign, List.head?_cons]
      split_ifs with h
      · rcases h with h | h <;>
        · obtain rfl := Option.some.inj h
          rfl
      · rfl

theorem numeral_exponent : Numeral exponent where
  append {cs t rest more} h hmore := by
    cases cs with
    | nil =>
        obtain ⟨rfl, rfl⟩ := Prod.mk.inj (Option.some.inj h)
        exact exponent_of_ends hmore
    | cons c cs =>
        by_cases hc : c = 'e' ∨ c = 'E'
        · rw [exponent_cons hc] at h
          obtain ⟨⟨ds, r⟩, hds, heq⟩ := Option.map_eq_some_iff.mp h
          obtain ⟨rfl, rfl⟩ := Prod.mk.inj heq
          -- Behind the letter stands a digit at least, so the sign is the same.
          have hne : cs ≠ [] := by
            rintro rfl
            cases hds
          have hsign : expSign (cs ++ more) = expSign cs := by
            obtain ⟨d, ds, rfl⟩ := List.exists_cons_of_ne_nil hne
            rfl
          have hle : (expSign cs).length ≤ cs.length := by
            rw [expSign]
            split_ifs
            · exact List.length_take_le' _ _
            · exact Nat.zero_le _
          rw [List.cons_append, exponent_cons hc, hsign, List.drop_append_of_le_length hle,
            numeral_digits.append hds hmore]
          rfl
        · rw [exponent, if_neg hc] at h
          obtain ⟨rfl, rfl⟩ := Prod.mk.inj (Option.some.inj h)
          rw [List.cons_append, exponent, if_neg hc]
  all {cs t rest} h := by
    cases cs with
    | nil =>
        obtain ⟨rfl, -⟩ := Prod.mk.inj (Option.some.inj h)
        rfl
    | cons c cs =>
        by_cases hc : c = 'e' ∨ c = 'E'
        · rw [exponent_cons hc] at h
          obtain ⟨⟨ds, r⟩, hds, heq⟩ := Option.map_eq_some_iff.mp h
          obtain ⟨rfl, rfl⟩ := Prod.mk.inj heq
          have hnumeral : isNumeral c = true := by rcases hc with rfl | rfl <;> rfl
          rw [List.all_append, List.all_cons, hnumeral, all_expSign, numeral_digits.all hds]
          rfl
        · rw [exponent, if_neg hc] at h
          obtain ⟨rfl, -⟩ := Prod.mk.inj (Option.some.inj h)
          rfl

/-- The sign of a number. -/
def minus (cs : List Char) : List Char := if cs.head? = some '-' then ['-'] else []

/-- The parts of a number. -/
theorem number_eq_some {cs t rest : List Char} (h : number cs = some (t, rest)) :
    ∃ int frac exp r₁ r₂, integer (cs.drop (minus cs).length) = some (int, r₁) ∧
      fraction r₁ = some (frac, r₂) ∧ exponent r₂ = some (exp, rest) ∧
        t = minus cs ++ int ++ frac ++ exp := by
  obtain ⟨⟨int, r₁⟩, hint, h⟩ := Option.bind_eq_some_iff.mp h
  obtain ⟨⟨frac, r₂⟩, hfrac, h⟩ := Option.bind_eq_some_iff.mp h
  obtain ⟨⟨exp, r₃⟩, hexp, heq⟩ := Option.map_eq_some_iff.mp h
  obtain ⟨rfl, rfl⟩ := Prod.mk.inj heq
  exact ⟨int, frac, exp, r₁, r₂, hint, hfrac, hexp, rfl⟩

theorem numeral_number : Numeral number where
  append {cs t rest more} h hmore := by
    obtain ⟨int, frac, exp, r₁, r₂, hint, hfrac, hexp, rfl⟩ := number_eq_some h
    have hne : cs ≠ [] := by
      rintro rfl
      cases hint
    have hminus : minus (cs ++ more) = minus cs := by
      obtain ⟨d, ds, rfl⟩ := List.exists_cons_of_ne_nil hne
      rfl
    have hle : (minus cs).length ≤ cs.length := by
      rw [minus]
      split_ifs
      · exact List.length_pos_iff.mpr hne
      · exact Nat.zero_le _
    have hnumber : number (cs ++ more) =
        (integer ((cs ++ more).drop (minus (cs ++ more)).length)).bind fun (int, rest) =>
          (fraction rest).bind fun (frac, rest) =>
            (exponent rest).map fun (exp, rest) =>
              (minus (cs ++ more) ++ int ++ frac ++ exp, rest) := rfl
    rw [hnumber, hminus, List.drop_append_of_le_length hle, numeral_integer.append hint hmore,
      Option.bind_some]
    dsimp only
    rw [numeral_fraction.append hfrac hmore, Option.bind_some]
    dsimp only
    rw [numeral_exponent.append hexp hmore]
    rfl
  all {cs t rest} h := by
    obtain ⟨int, frac, exp, r₁, r₂, hint, hfrac, hexp, rfl⟩ := number_eq_some h
    have hminus : (minus cs).all isNumeral = true := by
      rw [minus]
      split_ifs <;> rfl
    rw [List.all_append, List.all_append, List.all_append, hminus, numeral_integer.all hint,
      numeral_fraction.all hfrac, numeral_exponent.all hexp]
    rfl

/-- A number text is read as a number. -/
theorem reads_number {text : List Char} (h : number text = some (text, [])) (depth : ℕ) :
    Reads (value (depth + 1)) text (.number text) := by
  obtain ⟨c, cs, rfl⟩ : ∃ c cs, text = c :: cs := by
    refine List.exists_cons_of_ne_nil ?_
    rintro rfl
    cases h
  have hc : isNumeral c = true := List.all_eq_true.mp (numeral_number.all h) c List.mem_cons_self
  have hne : ∀ {d : Char}, isNumeral d = false → c ≠ d := by
    rintro d hd rfl
    exact absurd hc (by rw [hd]; decide)
  have hblank : isBlank c = false := by
    simp only [isBlank, decide_eq_false_iff_not, not_or]
    exact ⟨hne rfl, hne rfl, hne rfl, hne rfl⟩
  refine ⟨⟨c, cs, rfl, hblank, hne rfl, hne rfl⟩, fun rest hrest => ?_⟩
  have hnumber := numeral_number.append h hrest
  rw [List.cons_append] at hnumber ⊢
  rw [value, if_neg (hne rfl), if_neg (hne rfl), if_neg (hne rfl), if_neg (hne rfl),
    if_neg (hne rfl), if_neg (hne rfl), hnumber]
  rfl

theorem number_toDigits (n : ℕ) : number (Nat.toDigits 10 n) = some (Nat.toDigits 10 n, []) := by
  have hnumber := number_append n ends_nil
  rwa [List.append_nil] at hnumber

/-! ### The writer -/

/-- A character in a string: the short escapes, and the code unit of any other control
character. -/
def escapeChar (c : Char) : List Char :=
  if c = '"' then ['\\', '"']
  else if c = '\\' then ['\\', '\\']
  else if c = '\x08' then ['\\', 'b']
  else if c = '\x0c' then ['\\', 'f']
  else if c = '\n' then ['\\', 'n']
  else if c = '\r' then ['\\', 'r']
  else if c = '\t' then ['\\', 't']
  else if c.toNat < 0x20 then '\\' :: 'u' :: Hex.padded 4 c.toNat
  else [c]

/-- A string in quotes. -/
def quote (text : List Char) : List Char := '"' :: text.flatMap escapeChar ++ ['"']

/-- What stands between the tokens. -/
structure Layout where
  /-- What is put before an item at a depth, and before a closing bracket. -/
  line : ℕ → List Char
  /-- What is put behind the colon of a member. -/
  gap : List Char
  line_blank : ∀ depth, Blank (line depth)
  gap_blank : Blank gap

/-- Nothing between the tokens. -/
def Layout.compact : Layout where
  line _ := []
  gap := []
  line_blank _ := blank_nil
  gap_blank := blank_nil

/-- A line for each item, two spaces further to the right with each depth. -/
def Layout.pretty : Layout where
  line depth := '\n' :: List.replicate (2 * depth) ' '
  gap := [' ']
  line_blank depth := by
    rw [Blank, List.all_cons, List.all_replicate]
    split_ifs <;> rfl
  gap_blank := rfl

/-- Items with commas between them, behind an opening bracket at some depth. -/
def Layout.items (L : Layout) (depth : ℕ) (close : Char) : List (List Char) → List Char
  | [] => [close]
  | [s] => L.line (depth + 1) ++ s ++ L.line depth ++ [close]
  | s :: more => L.line (depth + 1) ++ s ++ ',' :: L.items depth close more

mutual

/-- A value as a text, at some depth. -/
def render (L : Layout) (depth : ℕ) : Value → List Char
  | .null => ['n', 'u', 'l', 'l']
  | .bool b => (toString b).toList
  | .number text => text
  | .string text => quote text
  | .array elements => '[' :: L.items depth ']' (renderElements L (depth + 1) elements)
  | .object members => '{' :: L.items depth '}' (renderMembers L (depth + 1) members)

/-- The elements of an array. -/
def renderElements (L : Layout) (depth : ℕ) : List Value → List (List Char)
  | [] => []
  | v :: vs => render L depth v :: renderElements L depth vs

/-- The members of an object. -/
def renderMembers (L : Layout) (depth : ℕ) : List (List Char × Value) → List (List Char)
  | [] => []
  | (name, v) :: ms =>
    (quote name ++ ':' :: L.gap ++ render L depth v) :: renderMembers L depth ms

end

example : render .compact 0 (.object [(['k'], .array [.nat 1, .null])]) =
    "\x7b\"k\":[1,null]\x7d".toList := by decide

/-! ### Looking into values -/

/-- The value of a member. -/
def Value.get (v : Value) (name : List Char) : Option Value :=
  match v with
  | .object members => members.lookup name
  | _ => none

/-- The text of a string. -/
def Value.asStr : Value → Option (List Char)
  | .string text => some text
  | _ => none

def Value.asBool : Value → Option Bool
  | .bool b => some b
  | _ => none

def Value.asArray : Value → Option (List Value)
  | .array elements => some elements
  | _ => none

/-- A number that is an unsigned 64-bit one. -/
def Value.asU64 : Value → Option ℕ
  | .number text =>
    if text.all Char.isDigit ∧ Nat.ofDigitChars 10 text 0 < 2 ^ 64 then
      some (Nat.ofDigitChars 10 text 0)
    else none
  | _ => none

theorem Value.asU64_nat {n : ℕ} (h : n < 2 ^ 64) : (Value.nat n).asU64 = some n := by
  have hdigits : (Nat.toDigits 10 n).all Char.isDigit = true :=
    List.all_eq_true.mpr fun c hc => Nat.isDigit_of_mem_toDigits (by decide) (by decide) hc
  rw [Value.nat, asU64, Nat.ofDigitChars_ten_toDigits, if_pos ⟨hdigits, h⟩]

/-! ### What is written is read -/

/-- Every character is escaped to a text that stands for it. -/
theorem charText_escape_char (c : Char) : CharText (escapeChar c) c := by
  rw [escapeChar]
  split_ifs with hquote hback hb hf hn hr ht hctl
  · subst hquote
    exact charText_escape fun _ => rfl
  · subst hback
    exact charText_escape fun _ => rfl
  · subst hb
    exact charText_escape fun _ => rfl
  · subst hf
    exact charText_escape fun _ => rfl
  · subst hn
    exact charText_escape fun _ => rfl
  · subst hr
    exact charText_escape fun _ => rfl
  · subst ht
    exact charText_escape fun _ => rfl
  · have hunit := charText_unicode (n := c.toNat) (by omega)
    rwa [Char.ofNat_toNat] at hunit
  · exact charText_self hquote hback (by omega)

theorem spells_escape (text : List Char) : Spells (text.flatMap escapeChar) text :=
  spells_flatMap fun c _ => charText_escape_char c

/-- The items that a layout puts together are read. -/
theorem items_layout (L : Layout) (depth : ℕ) {α : Type} {item : Reader α} (close : Char)
    {texts : List (List Char)} {as : List α} (h : List.Forall₂ (Reads item) texts as)
    (hne : as ≠ []) : Items item close (L.items depth close texts) as := by
  induction h with
  | nil => exact absurd rfl hne
  | @cons s a texts as hs hmore ih =>
      cases hmore with
      | nil =>
          rw [Layout.items]
          exact .last (L.line_blank _) hs (L.line_blank _)
      | @cons t b texts as ht hmore =>
          have hcons := @Items.cons _ _ close _ _ [] _ _ _ (L.line_blank (depth + 1)) hs blank_nil
            (ih (List.cons_ne_nil _ _))
          rw [Layout.items]
          · rwa [List.append_nil] at hcons
          · exact List.cons_ne_nil _ _

/-- An item is no longer than all of them. -/
theorem length_le_items (L : Layout) (depth : ℕ) (close : Char) {texts : List (List Char)}
    {s : List Char} (hs : s ∈ texts) : s.length ≤ (L.items depth close texts).length := by
  induction texts with
  | nil => cases hs
  | cons t texts ih =>
      cases texts with
      | nil =>
          obtain rfl := List.mem_singleton.mp hs
          rw [Layout.items]
          simp only [List.length_append]
          omega
      | cons u texts =>
          rw [Layout.items]
          · simp only [List.length_append, List.length_cons]
            rcases List.mem_cons.mp hs with rfl | hs
            · omega
            · have hle := ih hs
              omega
          · exact List.cons_ne_nil _ _

theorem renderElements_eq (L : Layout) (depth : ℕ) (vs : List Value) :
    renderElements L depth vs = vs.map (render L depth) := by
  induction vs with
  | nil => rfl
  | cons v vs ih => rw [renderElements, ih, List.map_cons]

/-- A member as a text. -/
def renderMember (L : Layout) (depth : ℕ) (m : List Char × Value) : List Char :=
  quote m.1 ++ ':' :: L.gap ++ render L depth m.2

theorem renderMembers_eq (L : Layout) (depth : ℕ) (ms : List (List Char × Value)) :
    renderMembers L depth ms = ms.map (renderMember L depth) := by
  induction ms with
  | nil => rfl
  | cons m ms ih =>
      rw [renderMembers, ih, List.map_cons]
      rfl

/-- A value whose numbers are written as numbers. -/
inductive Value.Valid : Value → Prop
  | null : Valid .null
  | bool (b : Bool) : Valid (.bool b)
  | number {text : List Char} (h : Json.number text = some (text, [])) : Valid (.number text)
  | string (text : List Char) : Valid (.string text)
  | array {elements : List Value} (h : ∀ v ∈ elements, Valid v) : Valid (.array elements)
  | object {members : List (List Char × Value)} (h : ∀ m ∈ members, Valid m.2) :
      Valid (.object members)

attribute [simp] Value.Valid.null Value.Valid.bool Value.Valid.string

/-- What a member of a valid value is, is valid. -/
theorem Value.Valid.get {v w : Value} {name : List Char} (h : v.Valid)
    (hget : v.get name = some w) : w.Valid := by
  cases h with
  | @object members hall =>
      obtain ⟨l₁, l₂, hl, -⟩ := List.lookup_eq_some_iff.mp hget
      exact hall (name, w) (hl ▸ List.mem_append_right _ (List.mem_cons_self ..))
  | _ => cases hget

@[simp] theorem Value.Valid.nat (n : ℕ) : (Value.nat n).Valid := .number (number_toDigits n)

theorem render_ne_nil (L : Layout) (depth : ℕ) {v : Value} (h : v.Valid) :
    render L depth v ≠ [] := by
  cases h with
  | null => exact List.cons_ne_nil _ _
  | bool b => cases b <;> exact List.cons_ne_nil _ _
  | number h =>
      rintro hnil
      rw [render] at hnil
      rw [hnil] at h
      cases h
  | string text => exact List.cons_ne_nil _ _
  | array _ => exact List.cons_ne_nil _ _
  | object _ => exact List.cons_ne_nil _ _

/-- **What is written is read back**, whatever ends it. The fuel is for the values inside. -/
theorem reads_render (L : Layout) {v : Value} (h : v.Valid) (depth : ℕ) {fuel : ℕ}
    (hfuel : (render L depth v).length ≤ fuel) : Reads (value fuel) (render L depth v) v := by
  induction h generalizing depth fuel with
  | null =>
      obtain ⟨fuel, rfl⟩ : ∃ n, fuel = n + 1 := ⟨fuel - 1, by rw [render] at hfuel; grind⟩
      exact ⟨⟨'n', _, rfl, rfl, by decide, by decide⟩, fun rest _ => rfl⟩
  | bool b =>
      have hpos := List.length_pos_iff.mpr (render_ne_nil L depth (.bool b))
      obtain ⟨fuel, rfl⟩ : ∃ n, fuel = n + 1 := ⟨fuel - 1, by omega⟩
      exact reads_bool b fuel
  | number h =>
      have hpos := List.length_pos_iff.mpr (render_ne_nil L depth (.number h))
      obtain ⟨fuel, rfl⟩ : ∃ n, fuel = n + 1 := ⟨fuel - 1, by omega⟩
      exact reads_number h fuel
  | string text =>
      obtain ⟨fuel, rfl⟩ : ∃ n, fuel = n + 1 := ⟨fuel - 1, by rw [render, quote] at hfuel; grind⟩
      exact reads_string (spells_escape text) fuel
  | @array elements h ih =>
      rw [render, List.length_cons] at hfuel
      obtain ⟨fuel, rfl⟩ : ∃ n, fuel = n + 1 := ⟨fuel - 1, by omega⟩
      rw [render]
      cases elements with
      | nil => exact reads_emptyArray fuel
      | cons v vs =>
          refine reads_array (items_layout L depth ']' ?_ (List.cons_ne_nil _ _))
          rw [renderElements_eq, List.forall₂_map_left_iff, List.forall₂_same]
          intro w hw
          have hmem : render L (depth + 1) w ∈ renderElements L (depth + 1) (v :: vs) := by
            rw [renderElements_eq]
            exact List.mem_map_of_mem hw
          have hle := length_le_items L depth ']' hmem
          exact ih w hw _ (by omega)
  | @object members h ih =>
      rw [render, List.length_cons] at hfuel
      obtain ⟨fuel, rfl⟩ : ∃ n, fuel = n + 1 := ⟨fuel - 1, by omega⟩
      rw [render]
      cases members with
      | nil => exact ⟨⟨'{', _, rfl, rfl, by decide, by decide⟩, fun _ _ => rfl⟩
      | cons m ms =>
          refine reads_object (items_layout L depth '}' ?_ (List.cons_ne_nil _ _))
          rw [renderMembers_eq, List.forall₂_map_left_iff, List.forall₂_same]
          intro p hp
          have hmem : renderMember L (depth + 1) p ∈ renderMembers L (depth + 1) (m :: ms) := by
            rw [renderMembers_eq]
            exact List.mem_map_of_mem hp
          have hle := length_le_items L depth '}' hmem
          have hvalue : (render L (depth + 1) p.2).length ≤ fuel := by
            rw [renderMember, List.length_append] at hle
            omega
          have hmember := reads_member (spells_escape p.1) L.gap_blank (ih p hp _ hvalue)
          rw [renderMember, quote]
          simpa only [List.append_assoc, List.cons_append, List.nil_append] using hmember

/-- **A value is read back from its text**, in every layout. -/
theorem parse_render (L : Layout) {v : Value} (h : v.Valid) (depth : ℕ) :
    parse (render L depth v) = some v := by
  have hparse := @parse_of_reads (render L depth v) [] v blank_nil
    (by rw [List.append_nil]; exact reads_render L h depth (Nat.le_refl _))
  rwa [List.append_nil] at hparse

/-! ### Texts on one line -/

/-- Items end with the closing bracket. -/
theorem getLast?_items (L : Layout) (depth : ℕ) (close : Char) (texts : List (List Char)) :
    (L.items depth close texts).getLast? = some close := by
  induction texts with
  | nil => rfl
  | cons s texts ih =>
      cases texts with
      | nil => rw [Layout.items, List.getLast?_append, List.getLast?_singleton, Option.some_or]
      | cons t texts =>
          rw [Layout.items]
          · rw [List.getLast?_append, List.getLast?_cons, ih]
            rfl
          · exact List.cons_ne_nil _ _

/-- An object ends with a brace. -/
theorem getLast?_render_object (L : Layout) (depth : ℕ) (members : List (List Char × Value)) :
    (render L depth (.object members)).getLast? = some '\x7d' := by
  rw [render, List.getLast?_cons, getLast?_items]
  rfl

theorem newline_notMem_escapeChar (c : Char) : '\n' ∉ escapeChar c := by
  rw [escapeChar]
  split_ifs with hquote hback hb hf hn hr ht hctl
  all_goals try decide
  · -- The digits of a code unit are no line break.
    intro hmem
    have hdigits : ∀ n : Fin 0x20, '\n' ∉ '\\' :: 'u' :: Hex.padded 4 n.val := by decide
    exact hdigits ⟨c.toNat, hctl⟩ hmem
  · exact fun hmem => hn (List.mem_singleton.mp hmem).symm

theorem newline_notMem_quote (text : List Char) : '\n' ∉ quote text := by
  intro hmem
  rw [quote, List.cons_append, List.mem_cons, List.mem_append, List.mem_flatMap] at hmem
  rcases hmem with h | ⟨c, -, h⟩ | h
  · cases h
  · exact newline_notMem_escapeChar c h
  · cases List.mem_singleton.mp h

theorem newline_notMem_items {L : Layout} (hline : ∀ n, '\n' ∉ L.line n) (depth : ℕ)
    {close : Char} (hclose : close ≠ '\n') {texts : List (List Char)}
    (h : ∀ s ∈ texts, '\n' ∉ s) : '\n' ∉ L.items depth close texts := by
  induction texts with
  | nil => exact fun hmem => hclose (List.mem_singleton.mp hmem).symm
  | cons s texts ih =>
      obtain ⟨hs, htexts⟩ := List.forall_mem_cons.mp h
      cases texts with
      | nil =>
          rw [Layout.items]
          simp only [List.mem_append, List.mem_singleton, not_or]
          exact ⟨⟨⟨hline _, hs⟩, hline _⟩, hclose.symm⟩
      | cons t texts =>
          rw [Layout.items]
          · simp only [List.mem_append, List.mem_cons, not_or]
            exact ⟨⟨hline _, hs⟩, by decide, ih htexts⟩
          · exact List.cons_ne_nil _ _

/-- **A value stands on one line** if the layout breaks none. -/
theorem newline_notMem_render {L : Layout} (hline : ∀ n, '\n' ∉ L.line n) (hgap : '\n' ∉ L.gap)
    {v : Value} (h : v.Valid) (depth : ℕ) : '\n' ∉ render L depth v := by
  induction h generalizing depth with
  | null =>
      rw [render]
      decide
  | bool b =>
      rw [render]
      cases b <;> decide
  | number h =>
      intro hmem
      exact absurd (List.all_eq_true.mp (numeral_number.all h) _ hmem) (by decide)
  | string text => exact newline_notMem_quote text
  | array h ih =>
      rw [render, List.mem_cons, not_or]
      refine ⟨by decide, newline_notMem_items hline depth (by decide) fun s hs => ?_⟩
      rw [renderElements_eq] at hs
      obtain ⟨v, hv, rfl⟩ := List.mem_map.mp hs
      exact ih v hv _
  | object h ih =>
      rw [render, List.mem_cons, not_or]
      refine ⟨by decide, newline_notMem_items hline depth (by decide) fun s hs => ?_⟩
      rw [renderMembers_eq] at hs
      obtain ⟨m, hm, rfl⟩ := List.mem_map.mp hs
      simp only [renderMember, List.mem_append, List.mem_cons, not_or]
      exact ⟨⟨newline_notMem_quote _, by decide, hgap⟩, ih m hm _⟩

end Json

import Mathlib.Data.List.Basic
import Mathlib.Data.Nat.Notation
import Mathlib.Tactic.SplitIfs

/-!
# UTF-8 in Byte Strings

A byte string, cut into its characters and into pieces that belong to no character. A piece ends
where no character can go on any more.

* `Utf8.front` — the first character or the first such piece.
* `Utf8.chunks` — all of them; they are the byte string (`Utf8.flatMap_chunks`).
* `Utf8.toStr` — the byte string, if it is text.
* `Utf8.toStringLossy` — the text with U+FFFD for each piece. It is the byte string itself exactly
  if that is text (`Utf8.toStringLossy_eq_self_iff`).
-/

namespace Utf8

/-- A byte that goes on with a character. -/
def isTail (b : UInt8) : Bool := 0x80 ≤ b ∧ b ≤ 0xBF

/-- A second byte behind the first byte of a character of three or four bytes. -/
def isSecond (first b : UInt8) : Bool :=
  if first = 0xE0 then 0xA0 ≤ b ∧ b ≤ 0xBF
  else if first = 0xED then 0x80 ≤ b ∧ b ≤ 0x9F
  else if first = 0xF0 then 0x90 ≤ b ∧ b ≤ 0xBF
  else if first = 0xF4 then 0x80 ≤ b ∧ b ≤ 0x8F
  else isTail b

/-- The bytes of the first character, or of the first piece that belongs to none, behind the first
byte `b`: whether it is a character, and how many bytes there are behind `b`. -/
def front (b : UInt8) (rest : List UInt8) : Bool × ℕ :=
  let tail (i : ℕ) : Bool := rest[i]?.any isTail
  if b < 0x80 then (true, 0)
  else if 0xC2 ≤ b ∧ b ≤ 0xDF then (tail 0, if tail 0 then 1 else 0)
  else if 0xE0 ≤ b ∧ b ≤ 0xF4 then
    if ¬ rest[0]?.any (isSecond b) then (false, 0)
    else if ¬ tail 1 then (false, 1)
    else if b ≤ 0xEF then (true, 2)
    else if ¬ tail 2 then (false, 2)
    else (true, 3)
  else (false, 0)

/-- The characters and the pieces between them, in so many steps at most. -/
def chunksFrom : ℕ → List UInt8 → List (Bool × List UInt8)
  | 0, _ => []
  | _ + 1, [] => []
  | fuel + 1, b :: rest =>
    let (valid, n) := front b rest
    (valid, b :: rest.take n) :: chunksFrom fuel (rest.drop n)

/-- The characters and the pieces between them. -/
def chunks (bytes : List UInt8) : List (Bool × List UInt8) := chunksFrom bytes.length bytes

/-- U+FFFD. -/
def replacement : List UInt8 := [0xEF, 0xBF, 0xBD]

/-- The byte string, if all of it is characters. -/
def toStr (bytes : List UInt8) : Option (List UInt8) :=
  if (chunks bytes).all Prod.fst then some bytes else none

/-- The characters, with U+FFFD for what is none. -/
def toStringLossy (bytes : List UInt8) : List UInt8 :=
  (chunks bytes).flatMap fun c => if c.1 then c.2 else replacement

/-- The chunks are the byte string. -/
theorem flatMap_chunksFrom {fuel : ℕ} {bytes : List UInt8} (h : bytes.length ≤ fuel) :
    (chunksFrom fuel bytes).flatMap Prod.snd = bytes := by
  induction fuel generalizing bytes with
  | zero => rw [List.eq_nil_of_length_eq_zero (Nat.le_zero.mp h)]; rfl
  | succ fuel ih =>
      cases bytes with
      | nil => rfl
      | cons b rest =>
          have hle : (rest.drop (front b rest).2).length ≤ fuel := by
            rw [List.length_cons] at h
            rw [List.length_drop]
            omega
          rw [chunksFrom, List.flatMap_cons, ih hle]
          exact congrArg (b :: ·) (List.take_append_drop _ rest)

theorem flatMap_chunks (bytes : List UInt8) : (chunks bytes).flatMap Prod.snd = bytes :=
  flatMap_chunksFrom (Nat.le_refl _)

/-- Behind its first byte, U+FFFD is a character. -/
theorem front_replacement (rest : List UInt8) : front 0xEF (0xBF :: 0xBD :: rest) = (true, 2) := rfl

/-- What the replacement leaves as it is has no piece to replace. -/
theorem all_of_replaced_eq {fuel : ℕ} {bytes : List UInt8} (hfuel : bytes.length ≤ fuel)
    (h : ((chunksFrom fuel bytes).flatMap fun c => if c.1 then c.2 else replacement) = bytes) :
    (chunksFrom fuel bytes).all Prod.fst = true := by
  induction fuel generalizing bytes with
  | zero => rfl
  | succ fuel ih =>
      cases bytes with
      | nil => rfl
      | cons b rest =>
          rw [chunksFrom] at h ⊢
          rw [List.flatMap_cons] at h
          cases hvalid : (front b rest).1 with
          | true =>
              simp only [hvalid, if_true, List.cons_append, List.cons.injEq, true_and] at h
              have hrest : rest.take (front b rest).2 ++ rest.drop (front b rest).2 = rest :=
                List.take_append_drop _ rest
              have hle : (rest.drop (front b rest).2).length ≤ fuel := by
                rw [List.length_cons] at hfuel
                rw [List.length_drop]
                omega
              have hmore := ih hle (List.append_cancel_left (h.trans hrest.symm))
              simp only [List.all_cons, hvalid, hmore, Bool.and_self]
          | false =>
              -- The replacement would have been read as a character.
              simp only [hvalid, Bool.false_eq_true, if_false, replacement, List.cons_append,
                List.nil_append, List.cons.injEq] at h
              obtain ⟨rfl, hrest⟩ := h
              rw [← hrest, front_replacement] at hvalid
              cases hvalid

/-- **Nothing is replaced** exactly in text. -/
theorem toStringLossy_eq_self_iff {bytes : List UInt8} :
    toStringLossy bytes = bytes ↔ toStr bytes = some bytes := by
  rw [toStr]
  constructor
  · intro h
    exact if_pos (all_of_replaced_eq (Nat.le_refl _) h)
  · intro h
    split_ifs at h with hall
    have hsame : toStringLossy bytes = (chunks bytes).flatMap Prod.snd := by
      refine List.flatMap_congr fun c hc => ?_
      rw [if_pos (List.all_eq_true.mp hall c hc)]
    rw [hsame, flatMap_chunks]

/-- One replacement stands for a character that is cut off. -/
example : toStringLossy [0x61, 0xE2, 0x82, 0x62] = 0x61 :: replacement ++ [0x62] := by decide

/-- ASCII is text. -/
theorem toStr_of_ascii {bytes : List UInt8} (h : ∀ b ∈ bytes, b < 0x80) :
    toStr bytes = some bytes := by
  have hall : ∀ fuel, ∀ bytes : List UInt8, (∀ b ∈ bytes, b < 0x80) →
      (chunksFrom fuel bytes).all Prod.fst = true := by
    intro fuel
    induction fuel with
    | zero => exact fun _ _ => rfl
    | succ fuel ih =>
        intro bytes h
        cases bytes with
        | nil => rfl
        | cons b rest =>
            obtain ⟨hb, hrest⟩ := List.forall_mem_cons.mp h
            have hfront : front b rest = (true, 0) := by
              rw [front]
              exact if_pos hb
            simp only [chunksFrom, hfront, List.drop_zero, List.all_cons, ih rest hrest,
              Bool.and_self]
  exact if_pos (hall _ _ h)

theorem toStr_eq_none_iff {bytes : List UInt8} :
    toStr bytes = none ↔ toStringLossy bytes ≠ bytes := by
  rw [Ne, toStringLossy_eq_self_iff, toStr]
  split_ifs <;> simp

/-! ### Characters -/

/-- The character that its bytes stand for. -/
def charOf : List UInt8 → Char
  | [a] => Char.ofNat a.toNat
  | [a, b] => Char.ofNat (a.toNat % 32 * 64 + b.toNat % 64)
  | [a, b, c] => Char.ofNat (a.toNat % 16 * 4096 + b.toNat % 64 * 64 + c.toNat % 64)
  | [a, b, c, d] =>
    Char.ofNat (a.toNat % 8 * 262144 + b.toNat % 64 * 4096 + c.toNat % 64 * 64 + d.toNat % 64)
  | _ => Char.ofNat 0xFFFD

/-- The characters of a byte string, U+FFFD for each piece that is none. -/
def charsLossy (bytes : List UInt8) : List Char :=
  (chunks bytes).map fun c => if c.1 then charOf c.2 else Char.ofNat 0xFFFD

theorem isTail_of_toNat {b : UInt8} (h : 0x80 ≤ b.toNat ∧ b.toNat ≤ 0xBF) : isTail b = true := by
  rw [isTail, decide_eq_true_eq, UInt8.le_iff_toNat_le, UInt8.le_iff_toNat_le]
  exact h

theorem isSecond_of_toNat {a b : UInt8} (h : 0x80 ≤ b.toNat ∧ b.toNat ≤ 0xBF)
    (hE0 : a.toNat = 0xE0 → 0xA0 ≤ b.toNat) (hED : a.toNat = 0xED → b.toNat ≤ 0x9F)
    (hF0 : a.toNat = 0xF0 → 0x90 ≤ b.toNat) (hF4 : a.toNat = 0xF4 → b.toNat ≤ 0x8F) :
    isSecond a b = true := by
  simp only [isSecond, ← UInt8.toNat_inj, UInt8.le_iff_toNat_le]
  split_ifs with h1 h2 h3 h4
  · exact decide_eq_true ⟨hE0 h1, h.2⟩
  · exact decide_eq_true ⟨h.1, hED h2⟩
  · exact decide_eq_true ⟨hF0 h3, h.2⟩
  · exact decide_eq_true ⟨h.1, hF4 h4⟩
  · exact isTail_of_toNat h

theorem front_one {a : UInt8} (ha : a.toNat < 0x80) (more : List UInt8) :
    front a more = (true, 0) := by
  rw [front]
  exact if_pos (UInt8.lt_iff_toNat_lt.mpr ha)

theorem front_two {a b : UInt8} (ha : 0xC2 ≤ a.toNat ∧ a.toNat ≤ 0xDF)
    (hb : 0x80 ≤ b.toNat ∧ b.toNat ≤ 0xBF) (more : List UInt8) :
    front a (b :: more) = (true, 1) := by
  have hhigh : ¬ a < 0x80 := by
    rw [UInt8.lt_iff_toNat_lt]
    change ¬ a.toNat < 0x80
    omega
  have hrange : 0xC2 ≤ a ∧ a ≤ 0xDF := by
    rw [UInt8.le_iff_toNat_le, UInt8.le_iff_toNat_le]
    exact ha
  rw [front]
  simp only [if_neg hhigh, if_pos hrange, List.getElem?_cons_zero, Option.any_some,
    isTail_of_toNat hb, if_true]

/-- The first byte of a character of three or four bytes, and the second one. -/
theorem front_long {a b : UInt8} (ha : 0xE0 ≤ a.toNat ∧ a.toNat ≤ 0xF4)
    (hb : isSecond a b = true) (more : List UInt8) :
    front a (b :: more) =
      if ¬ more[0]?.any isTail then (false, 1)
      else if a.toNat ≤ 0xEF then (true, 2)
      else if ¬ more[1]?.any isTail then (false, 2)
      else (true, 3) := by
  have hhigh : ¬ a < 0x80 := by
    rw [UInt8.lt_iff_toNat_lt]
    change ¬ a.toNat < 0x80
    omega
  have htwo : ¬ (0xC2 ≤ a ∧ a ≤ 0xDF) := by
    rw [UInt8.le_iff_toNat_le, UInt8.le_iff_toNat_le]
    change ¬ (0xC2 ≤ a.toNat ∧ a.toNat ≤ 0xDF)
    omega
  have hlong : 0xE0 ≤ a ∧ a ≤ 0xF4 := by
    rw [UInt8.le_iff_toNat_le, UInt8.le_iff_toNat_le]
    exact ha
  have hthree : a ≤ 0xEF ↔ a.toNat ≤ 0xEF := UInt8.le_iff_toNat_le
  rw [front]
  simp only [if_neg hhigh, if_neg htwo, if_pos hlong, List.getElem?_cons_zero, Option.any_some,
    hb, not_true_eq_false, if_false, hthree, List.getElem?_cons_succ]

/-- **A character is the first one of its bytes**, whatever follows them. -/
theorem front_utf8EncodeChar (c : Char) (more : List UInt8) :
    ∃ b bs, String.utf8EncodeChar c = b :: bs ∧ front b (bs ++ more) = (true, bs.length) ∧
      charOf (b :: bs) = c := by
  have hv : c.val.toNat = c.toNat := rfl
  have hvalid : c.toNat < 0xD800 ∨ 0xDFFF < c.toNat ∧ c.toNat < 0x110000 := c.valid
  have hbyte : ∀ {n : ℕ}, n < 256 → (UInt8.ofNat n).toNat = n := fun h =>
    UInt8.toNat_ofNat_of_lt' h
  have htail : ∀ n : ℕ, (UInt8.ofNat (n % 64 + 128)).toNat = n % 64 + 128 := fun n =>
    hbyte (by omega)
  -- The cases are those of the encoding.
  rw [String.utf8EncodeChar]
  simp only [hv]
  split_ifs with h1 h2 h3
  · refine ⟨_, _, rfl, front_one (by rw [hbyte (by omega)]; omega) _, ?_⟩
    rw [charOf, hbyte (by omega), Char.ofNat_toNat]
  · have hlead : (UInt8.ofNat (c.toNat / 64 % 32 + 192)).toNat = c.toNat / 64 % 32 + 192 :=
      hbyte (by omega)
    refine ⟨_, _, rfl, front_two ?_ ?_ _, ?_⟩
    · omega
    · rw [htail]
      omega
    · rw [charOf, hlead, htail]
      refine Eq.trans (congrArg Char.ofNat ?_) (Char.ofNat_toNat c)
      omega
  · have hlead : (UInt8.ofNat (c.toNat / 4096 % 16 + 224)).toNat = c.toNat / 4096 % 16 + 224 :=
      hbyte (by omega)
    have hsecond : isSecond (UInt8.ofNat (c.toNat / 4096 % 16 + 224))
        (UInt8.ofNat (c.toNat / 64 % 64 + 128)) = true := by
      refine isSecond_of_toNat ?_ ?_ ?_ ?_ ?_ <;> rw [htail] <;> omega
    refine ⟨_, _, rfl, ?_, ?_⟩
    · rw [List.cons_append, front_long (by omega) hsecond, List.cons_append,
        List.getElem?_cons_zero, Option.any_some, isTail_of_toNat (by rw [htail]; omega)]
      exact (if_neg (by decide)).trans (if_pos (by omega))
    · rw [charOf, hlead, htail, htail]
      refine Eq.trans (congrArg Char.ofNat ?_) (Char.ofNat_toNat c)
      omega
  · have hlead : (UInt8.ofNat (c.toNat / 262144 % 8 + 240)).toNat = c.toNat / 262144 % 8 + 240 :=
      hbyte (by omega)
    have hsecond : isSecond (UInt8.ofNat (c.toNat / 262144 % 8 + 240))
        (UInt8.ofNat (c.toNat / 4096 % 64 + 128)) = true := by
      refine isSecond_of_toNat ?_ ?_ ?_ ?_ ?_ <;> rw [htail] <;> omega
    refine ⟨_, _, rfl, ?_, ?_⟩
    · rw [List.cons_append, front_long (by omega) hsecond, List.cons_append, List.cons_append,
        List.getElem?_cons_zero, List.getElem?_cons_succ, List.getElem?_cons_zero,
        Option.any_some, Option.any_some, isTail_of_toNat (by rw [htail]; omega),
        isTail_of_toNat (by rw [htail]; omega)]
      exact (if_neg (by decide)).trans ((if_neg (by omega)).trans (if_neg (by decide)))
    · rw [charOf, hlead, htail, htail, htail]
      refine Eq.trans (congrArg Char.ofNat ?_) (Char.ofNat_toNat c)
      omega

theorem chunksFrom_flatMap {text : List Char} {fuel : ℕ} (h : text.length ≤ fuel) :
    chunksFrom fuel (text.flatMap String.utf8EncodeChar) =
      text.map fun c => (true, String.utf8EncodeChar c) := by
  induction text generalizing fuel with
  | nil => cases fuel <;> rfl
  | cons c text ih =>
      obtain ⟨fuel, rfl⟩ : ∃ n, fuel = n + 1 := ⟨fuel - 1, by rw [List.length_cons] at h; omega⟩
      obtain ⟨b, bs, hbytes, hfront, -⟩ :=
        front_utf8EncodeChar c (text.flatMap String.utf8EncodeChar)
      rw [List.flatMap_cons, List.map_cons, hbytes, List.cons_append, chunksFrom, hfront]
      dsimp only
      rw [List.take_left, List.drop_left, ih (by rw [List.length_cons] at h; omega)]

/-- **Text is decoded to itself.** -/
theorem charsLossy_flatMap (text : List Char) :
    charsLossy (text.flatMap String.utf8EncodeChar) = text := by
  have hlen : text.length ≤ (text.flatMap String.utf8EncodeChar).length := by
    induction text with
    | nil => exact Nat.le_refl _
    | cons c text ih =>
        obtain ⟨b, bs, hbytes, -⟩ := front_utf8EncodeChar c []
        rw [List.flatMap_cons, List.length_append, hbytes, List.length_cons, List.length_cons]
        omega
  rw [charsLossy, chunks, chunksFrom_flatMap hlen, List.map_map]
  refine (List.map_congr_left fun c _ => ?_).trans (List.map_id text)
  obtain ⟨b, bs, hbytes, -, hchar⟩ := front_utf8EncodeChar c []
  rw [Function.comp, if_pos rfl, hbytes, hchar]
  rfl

end Utf8

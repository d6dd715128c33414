import Mathlib.Data.Nat.Digits.Defs

/-!
# Hexadecimal Digits

Numbers written in hexadecimal digits and read back.

* `Hex.digit`, `Hex.value` — the value of a digit, in either case, and of a row of digits.
* `Hex.padded` — a number in lower-case digits, with zeros in front. It is read back
  (`Hex.value_padded`).
-/

namespace Hex

/-- The value of a digit. -/
def digit (c : Char) : Option ℕ :=
  if 48 ≤ c.toNat ∧ c.toNat ≤ 57 then some (c.toNat - 48)
  else if 97 ≤ c.toNat ∧ c.toNat ≤ 102 then some (c.toNat - 87)
  else if 65 ≤ c.toNat ∧ c.toNat ≤ 70 then some (c.toNat - 55)
  else none

/-- The value of digits behind digits of value `acc`. -/
def value (acc : ℕ) : List Char → Option ℕ
  | [] => some acc
  | c :: cs =>
    match digit c with
    | none => none
    | some d => value (16 * acc + d) cs

/-- A number in digits, with zeros in front up to a width. -/
def padded (width n : ℕ) : List Char :=
  List.replicate (width - (Nat.toDigits 16 n).length) '0' ++ Nat.toDigits 16 n

theorem value_append (acc : ℕ) (xs ys : List Char) :
    value acc (xs ++ ys) = (value acc xs).bind fun n => value n ys := by
  induction xs generalizing acc with
  | nil => rfl
  | cons c xs ih =>
      rw [List.cons_append, value, value]
      cases digit c with
      | none => rfl
      | some d => exact ih _

theorem digit_lt {c : Char} {d : ℕ} (h : digit c = some d) : d < 16 := by
  rw [digit] at h
  split_ifs at h <;> cases h <;> omega

theorem digit_digitChar {d : ℕ} (hd : d < 16) : digit d.digitChar = some d := by
  have hall : ∀ d : Fin 16, digit (Nat.digitChar d) = some d.val := by decide
  exact hall ⟨d, hd⟩

/-- A number is read back from its digits. -/
theorem value_toDigits (n : ℕ) : value 0 (Nat.toDigits 16 n) = some n := by
  induction n using Nat.base_induction 16 (by decide) with
  | single m hm =>
      rw [Nat.toDigits_of_lt_base hm, value, digit_digitChar hm]
      simp [value]
  | digit m k hk hm ih =>
      rw [← Nat.toDigits_append_toDigits (by decide) hm hk, value_append, ih,
        Nat.toDigits_of_lt_base hk, Option.bind_some, value, digit_digitChar hk]
      rfl

theorem value_replicate_zero (k : ℕ) : value 0 (List.replicate k '0') = some 0 := by
  induction k with
  | zero => rfl
  | succ k ih => exact ih

/-- Zeros in front do not count. -/
theorem value_padded (width n : ℕ) : value 0 (padded width n) = some n := by
  rw [padded, value_append, value_replicate_zero, Option.bind_some, value_toDigits]

theorem length_padded {width n : ℕ} (hwidth : 0 < width) (hn : n < 16 ^ width) :
    (padded width n).length = width := by
  have hle : (Nat.toDigits 16 n).length ≤ width :=
    (Nat.length_toDigits_le_iff (by decide) hwidth).mpr hn
  rw [padded, List.length_append, List.length_replicate]
  omega

/-- What has a value is made of digits. -/
theorem digit_ne_none {acc n : ℕ} {digits : List Char} (h : value acc digits = some n) :
    ∀ c ∈ digits, digit c ≠ none := by
  induction digits generalizing acc with
  | nil => simp
  | cons c digits ih =>
      rw [value] at h
      cases hc : digit c with
      | none => rw [hc] at h; cases h
      | some d =>
          rw [hc] at h
          exact List.forall_mem_cons.mpr ⟨by rw [hc]; exact Option.some_ne_none d, ih h⟩

end Hex

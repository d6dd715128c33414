import EwfForensic.Core.Sections

/-!
# Text of EWF v2 Sections

The text that `device_info` and `case_data` sections hold: UTF-16LE, whose third line names the
tab-separated values of the fourth. What does not decode is left out of the text, and a text of
fewer lines has no fields.

* `decodeUtf16` — `char::decode_utf16` without its errors.
* `textLines` — `str::lines`.
* `parseU64` — `str::parse::<u64>`, which accepts numbers that fit 64 bits only
  (`parseU64_le`).
* `ewf2Fields` — the named values of a section.
-/

namespace EwfForensic

open Octets

/-- The UTF-16LE code units of a byte string of even length. -/
def utf16Units : List UInt8 → List ℕ
  | lo :: hi :: rest => (lo.toNat + 256 * hi.toNat) :: utf16Units rest
  | _ => []

/-- The characters of a sequence of code units. A surrogate outside a high-low pair is
skipped. -/
def decodeUtf16 : List ℕ → List Char
  | [] => []
  | [u] => if 0xD800 ≤ u ∧ u < 0xE000 then [] else [Char.ofNat u]
  | u :: v :: rest =>
    if 0xD800 ≤ u ∧ u < 0xDC00 then
      if 0xDC00 ≤ v ∧ v < 0xE000 then
        Char.ofNat (0x10000 + (u - 0xD800) * 0x400 + (v - 0xDC00)) :: decodeUtf16 rest
      else decodeUtf16 (v :: rest)
    else if 0xDC00 ≤ u ∧ u < 0xE000 then decodeUtf16 (v :: rest)
    else Char.ofNat u :: decodeUtf16 (v :: rest)

/-- A line without the carriage return before its line feed. -/
def stripCarriageReturn (line : List Char) : List Char :=
  if line.getLast? = some '\r' then line.dropLast else line

/-- `str::lines`. What follows the last line feed is a line of its own, unless it is empty, and
keeps a carriage return at its end. -/
def textLines (text : List Char) : List (List Char) :=
  let pieces := text.splitOn '\n'
  pieces.dropLast.map stripCarriageReturn ++ (pieces.getLast?.filter (· ≠ [])).toList

/-- The value of a string of decimal digits. -/
def ofDigits (digits : List Char) : ℕ :=
  digits.foldl (fun acc c => 10 * acc + (c.toNat - '0'.toNat)) 0

/-- `str::parse::<u64>`: decimal digits, after a plus sign or none. -/
def parseU64 (text : List Char) : Option ℕ :=
  let digits := if text.head? = some '+' then text.tail else text
  if digits.isEmpty ∨ ¬ digits.all Char.isDigit ∨ ofDigits digits > u64Max then none
  else some (ofDigits digits)

theorem parseU64_le {text : List Char} {n : ℕ} (h : parseU64 text = some n) : n ≤ u64Max := by
  rw [parseU64] at h
  split_ifs at h with hbad <;> obtain rfl := Option.some.inj h <;> omega

/-- The named values of a section, in order; `none` when the text is too short to have any. -/
def ewf2Fields (raw : List UInt8) : Option (List (List Char × List Char)) :=
  if raw.length < 2 then none
  else
    let lines := textLines (decodeUtf16 (utf16Units raw))
    if lines.length < 4 then none
    else some (((lines.getD 2 []).splitOn '\t').zip ((lines.getD 3 []).splitOn '\t'))

end EwfForensic

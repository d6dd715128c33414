import EwfForensic.Lib.Adler32
import EwfForensic.Lib.Digest

/-!
# Streaming Zlib Decoders

A program that reads a zlib stream through a decoder sees two operations: read until the
stream yields no more, and read at most `n` bytes. `Decoder` is any implementation of the
two, with the one fact a bounded read guarantees on its own: it delivers at most `n` bytes.

`IsStream D z d` says that `z` is a complete stream of the data `d` for the decoder `D`:
whatever follows `z`, a full read gives `d` and a bounded read gives the front of `d`.
Statements about written images quantify over such pairs, so they hold for every encoder.

`stored` is a concrete decoder for streams of stored blocks (RFC 1950, RFC 1951 §3.2.4),
with the encoder `storedStream` and the proof `isStream_storedStream` that the first reads
back what the second writes. Like a streaming decoder, it ends without an error when the
input ends inside a block, and delivers what it had up to there.
-/

namespace Zlib

open Octets

/-- A streaming decoder: the full read and the read of at most `n` bytes. `none` is a
decoding error. -/
structure Decoder where
  /-- Read until the stream yields no more. -/
  readToEnd : List UInt8 → Option (List UInt8)
  /-- Read until `n` bytes are out or the stream yields no more. -/
  readUpTo : ℕ → List UInt8 → Option (List UInt8)
  /-- A bounded read delivers at most its bound. -/
  length_readUpTo : ∀ n raw out, readUpTo n raw = some out → out.length ≤ n

/-- `z` is a complete stream of `d`, whatever bytes follow it. -/
def IsStream (D : Decoder) (z d : List UInt8) : Prop :=
  ∀ rest, D.readToEnd (z ++ rest) = some d ∧
    ∀ n, D.readUpTo n (z ++ rest) = some (d.take n)

theorem IsStream.readToEnd {D : Decoder} {z d : List UInt8} (h : IsStream D z d)
    (rest : List UInt8) : D.readToEnd (z ++ rest) = some d :=
  (h rest).1

theorem IsStream.readUpTo {D : Decoder} {z d : List UInt8} (h : IsStream D z d) (n : ℕ)
    (rest : List UInt8) : D.readUpTo n (z ++ rest) = some (d.take n) :=
  (h rest).2 n

/-- A read that fails fails again when more bytes are asked for. -/
def Decoder.ErrorsPersist (D : Decoder) : Prop :=
  ∀ m n raw, m ≤ n → D.readUpTo m raw = none → D.readUpTo n raw = none

/-- A bounded read is the front of one with a higher bound. -/
def Decoder.Sequential (D : Decoder) : Prop :=
  ∀ m n raw out, m ≤ n → D.readUpTo n raw = some out → D.readUpTo m raw = some (out.take m)

/-! ### Stored blocks -/

/-- The blocks of a stored stream, after the two header bytes. A block is a flag byte
(bit 0 marks the last block, bits 1 and 2 the block type, zero for stored), the length and
its complement in two bytes each, and the data; four checksum bytes follow the last block.
`acc` is the data decoded so far. -/
def storedBlocks : ℕ → List UInt8 → List UInt8 → Option (List UInt8)
  | 0, acc, _ => some acc
  | fuel + 1, acc, raw =>
    match raw with
    | flag :: l0 :: l1 :: n0 :: n1 :: rest =>
      let len := ofLE [l0, l1]
      if flag.toNat / 2 % 4 ≠ 0 ∨ len + ofLE [n0, n1] ≠ 65535 then none
      else if rest.length < len then some (acc ++ rest)
      else if flag.toNat % 2 = 0 then
        storedBlocks fuel (acc ++ rest.take len) (rest.drop len)
      else if (rest.drop len).length < 4 then some (acc ++ rest.take len)
      else if Digest.ofBE ((rest.drop len).take 4) = Adler32.checksum (acc ++ rest.take len) then
        some (acc ++ rest.take len)
      else none
    | _ => some acc

/-- Decode a stored stream: two header bytes (deflate, a multiple of 31, no preset
dictionary), then the blocks. -/
def storedDecode (raw : List UInt8) : Option (List UInt8) :=
  match raw with
  | cmf :: flg :: rest =>
    if cmf.toNat % 16 = 8 ∧ (256 * cmf.toNat + flg.toNat) % 31 = 0 ∧ flg.toNat / 32 % 2 = 0 then
      storedBlocks (rest.length + 1) [] rest
    else none
  | _ => some []

/-- The decoder for streams of stored blocks. -/
def stored : Decoder where
  readToEnd := storedDecode
  readUpTo n raw := (storedDecode raw).map (List.take n)
  length_readUpTo := by
    intro n raw out h
    obtain ⟨d, -, rfl⟩ := Option.map_eq_some_iff.mp h
    exact List.length_take_le _ _

/-- The stored stream of a byte string shorter than `2 ^ 16`, as one block. -/
def storedStream (d : List UInt8) : List UInt8 :=
  [0x78, 0x01, 0x01] ++ toLE 2 d.length ++ toLE 2 (65535 - d.length) ++ d ++
    Digest.toBE 4 (Adler32.checksum d)

theorem ofBE_toBE {w n : ℕ} (h : n < 256 ^ w) : Digest.ofBE (Digest.toBE w n) = n := by
  rw [Digest.ofBE, Digest.toBE, List.reverse_reverse, ofLE_toLE h]

/-- Two bytes are read back as the number they encode. -/
theorem ofLE_pair {n : ℕ} (h : n < 65536) :
    ofLE [UInt8.ofNat n, UInt8.ofNat (n / 256)] = n := by
  have hround : ofLE (toLE 2 n) = n := ofLE_toLE (by simpa using h)
  simpa [toLE] using hround

/-- **Round trip** of stored streams, whatever follows them. -/
theorem storedDecode_storedStream {d : List UInt8} (hd : d.length < 65536)
    (rest : List UInt8) : storedDecode (storedStream d ++ rest) = some d := by
  have hsum : Adler32.checksum d < 256 ^ 4 := Adler32.checksum_lt d
  have hlen : ofLE [UInt8.ofNat d.length, UInt8.ofNat (d.length / 256)] = d.length :=
    ofLE_pair hd
  have hcomp : ofLE [UInt8.ofNat (65535 - d.length), UInt8.ofNat ((65535 - d.length) / 256)]
      = 65535 - d.length := ofLE_pair (by omega)
  have htail : ((d ++ (Digest.toBE 4 (Adler32.checksum d) ++ rest)).drop d.length).take 4
      = Digest.toBE 4 (Adler32.checksum d) := by
    rw [List.drop_left]
    exact List.take_left' (Digest.length_toBE _ _)
  have hlong : ¬ (d ++ (Digest.toBE 4 (Adler32.checksum d) ++ rest)).length < d.length := by
    simp
  have hlong' :
      ¬ ((d ++ (Digest.toBE 4 (Adler32.checksum d) ++ rest)).drop d.length).length < 4 := by
    simp
  have hflag : ¬ ((1 : UInt8).toNat / 2 % 4 ≠ 0 ∨ d.length + (65535 - d.length) ≠ 65535) := by
    rintro (h | h)
    · exact h (by decide)
    · omega
  simp only [storedStream, toLE, storedDecode, List.append_assoc, List.cons_append,
    List.nil_append, storedBlocks, hlen, hcomp, htail, ofBE_toBE hsum, hlong, hlong', if_false,
    List.take_left]
  rw [if_pos (by decide), if_neg hflag, if_neg (by decide), if_pos trivial]

/-- A stored stream is a complete stream of its data. -/
theorem isStream_storedStream {d : List UInt8} (hd : d.length < 65536) :
    IsStream stored (storedStream d) d := by
  intro rest
  have h := storedDecode_storedStream hd rest
  exact ⟨h, fun n => by simp [stored, h]⟩

theorem stored_errorsPersist : stored.ErrorsPersist := by
  intro m n raw _ h
  exact Option.map_eq_none_iff.mpr (Option.map_eq_none_iff.mp h)

theorem stored_sequential : stored.Sequential := by
  intro m n raw out hmn h
  obtain ⟨d, hd, rfl⟩ := Option.map_eq_some_iff.mp h
  change (storedDecode raw).map (List.take m) = _
  rw [hd, Option.map_some, List.take_take, Nat.min_eq_left hmn]

end Zlib

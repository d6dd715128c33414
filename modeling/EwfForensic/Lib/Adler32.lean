import EwfForensic.Lib.Bytes

/-!
# The Adler-32 Checksum

Adler-32 as RFC 1950 defines it: two running sums modulo 65521, the first of the bytes
from one, the second of the successive first sums, packed as `b * 65536 + a`.

The property a format relies on is `checksum_ne_of_single_change`: two strings of one
length that differ in exactly one byte have different checksums, at every length and
position. The first sum alone shows it, since the sums differ by the difference of the
two bytes, which is nonzero and smaller than the modulus (`low_checksum`).
-/

namespace Adler32

open Octets

/-- The modulus of both sums: the largest prime below `2 ^ 16`. -/
def modulus : ℕ := 65521

/-- Feed bytes into the two running sums. -/
def update : ℕ × ℕ → List UInt8 → ℕ × ℕ
  | s, [] => s
  | (a, b), x :: xs =>
    let a' := (a + x.toNat) % modulus
    update (a', (b + a') % modulus) xs

/-- The Adler-32 checksum of a byte string. -/
def checksum (xs : List UInt8) : ℕ :=
  let s := update (1, 0) xs
  s.2 * 65536 + s.1

theorem update_append (s : ℕ × ℕ) (xs ys : List UInt8) :
    update s (xs ++ ys) = update (update s xs) ys := by
  induction xs generalizing s with
  | nil => rfl
  | cons x xs ih => simp only [List.cons_append, update, ih]

/-- Both sums stay reduced. -/
theorem update_lt {s : ℕ × ℕ} (h1 : s.1 < modulus) (h2 : s.2 < modulus) (xs : List UInt8) :
    (update s xs).1 < modulus ∧ (update s xs).2 < modulus := by
  induction xs generalizing s with
  | nil => exact ⟨h1, h2⟩
  | cons x xs ih =>
      have hm : 0 < modulus := by decide
      exact ih (Nat.mod_lt _ hm) (Nat.mod_lt _ hm)

theorem checksum_lt (xs : List UInt8) : checksum xs < 2 ^ 32 := by
  have h := update_lt (s := (1, 0)) (by decide) (by decide) xs
  have hc : checksum xs = (update (1, 0) xs).2 * 65536 + (update (1, 0) xs).1 := rfl
  rw [modulus] at h
  omega

/-- The sum of the byte values. -/
def total (xs : List UInt8) : ℕ := (xs.map UInt8.toNat).sum

/-- The first running sum is the total of the bytes. -/
theorem update_fst (s : ℕ × ℕ) (hs : s.1 < modulus) (xs : List UInt8) :
    (update s xs).1 = (s.1 + total xs) % modulus := by
  induction xs generalizing s with
  | nil => simp [update, total, Nat.mod_eq_of_lt hs]
  | cons x xs ih =>
      have hm : 0 < modulus := by decide
      simp only [update, total, List.map_cons, List.sum_cons]
      rw [ih _ (Nat.mod_lt _ hm), total, Nat.mod_add_mod, Nat.add_assoc]

/-- The low half of the checksum is one plus the total of the bytes. -/
theorem low_checksum (xs : List UInt8) : checksum xs % 65536 = (1 + total xs) % modulus := by
  have h := update_lt (s := (1, 0)) (by decide) (by decide) xs
  have hf := update_fst (1, 0) (by decide) xs
  have hc : checksum xs = (update (1, 0) xs).2 * 65536 + (update (1, 0) xs).1 := rfl
  rw [← hf]
  rw [modulus] at h
  omega

theorem total_cons (x : UInt8) (xs : List UInt8) : total (x :: xs) = x.toNat + total xs := by
  simp [total]

theorem total_append (xs ys : List UInt8) : total (xs ++ ys) = total xs + total ys := by
  simp [total]

/-- A string splits at any of its positions. -/
theorem eq_take_cons_drop {xs : List UInt8} {i : ℕ} {x : UInt8} (h : xs[i]? = some x) :
    xs = xs.take i ++ x :: xs.drop (i + 1) := by
  obtain ⟨hi, rfl⟩ := List.getElem?_eq_some_iff.mp h
  rw [List.cons_getElem_drop_succ, List.take_append_drop]

/-- **Single-byte changes are detected**: two strings of one length that differ at one
position and agree at every other have different checksums. -/
theorem checksum_ne_of_single_change {xs ys : List UInt8} {i : ℕ}
    (hagree : AgreeOn (· ≠ i) xs ys) (hdiff : xs[i]? ≠ ys[i]?) :
    checksum xs ≠ checksum ys := by
  have hlen := hagree.1
  have hi := hagree.lt_of_ne hdiff
  obtain ⟨x, hx⟩ : ∃ x, xs[i]? = some x := ⟨xs[i], List.getElem?_eq_getElem hi⟩
  obtain ⟨y, hy⟩ : ∃ y, ys[i]? = some y := ⟨ys[i], List.getElem?_eq_getElem (hlen ▸ hi)⟩
  have htake : xs.take i = ys.take i := by
    apply List.ext_getElem?
    intro j
    by_cases hj : j < i
    · rw [List.getElem?_take_of_lt hj, List.getElem?_take_of_lt hj]
      exact hagree.2 j (by omega)
    · rw [List.getElem?_eq_none (by rw [List.length_take]; omega),
        List.getElem?_eq_none (by rw [List.length_take]; omega)]
  have hdrop : xs.drop (i + 1) = ys.drop (i + 1) := by
    apply List.ext_getElem?
    intro j
    rw [List.getElem?_drop, List.getElem?_drop]
    exact hagree.2 _ (by omega)
  have hxs : total xs = total (xs.take i) + (x.toNat + total (xs.drop (i + 1))) := by
    calc total xs = total (xs.take i ++ x :: xs.drop (i + 1)) :=
          congrArg total (eq_take_cons_drop hx)
      _ = _ := by rw [total_append, total_cons]
  have hys : total ys = total (xs.take i) + (y.toNat + total (xs.drop (i + 1))) := by
    calc total ys = total (ys.take i ++ y :: ys.drop (i + 1)) :=
          congrArg total (eq_take_cons_drop hy)
      _ = _ := by rw [← htake, ← hdrop, total_append, total_cons]
  have hne : x.toNat ≠ y.toNat := fun h => hdiff (by rw [hx, hy, UInt8.toNat_inj.mp h])
  have hxb := x.toNat_lt
  have hyb := y.toNat_lt
  intro heq
  have hlow : (1 + total xs) % modulus = (1 + total ys) % modulus := by
    rw [← low_checksum, ← low_checksum, heq]
  rw [hxs, hys] at hlow
  rw [modulus] at hlow
  omega

/-- A checksum that is stored behind what it covers detects a change of either: if it fits one of
two strings that differ at one place in them, it does not fit the other. -/
theorem checksum_ne_trailer {xs ys : List UInt8} {n i : ℕ} (hn : n + 4 ≤ xs.length)
    (hmax : n + 4 ≤ u64Max) (hagree : AgreeOn (· ≠ i) xs ys) (hdiff : xs[i]? ≠ ys[i]?)
    (hi : i < n + 4) (hfit : checksum (xs.take n) = leAt 4 xs n) :
    checksum (ys.take n) ≠ leAt 4 ys n := by
  have hlen := hagree.1
  rcases Nat.lt_or_ge i n with hin | hin
  · -- The place is covered: the checksum changes, the stored one stays.
    have hstored : leAt 4 xs n = leAt 4 ys n := hagree.leAt_eq fun j h1 _ => by omega
    rw [← hstored, ← hfit]
    have hwin := @AgreeOn.window _ xs ys i hagree 0 (Nat.zero_le i) n
    rw [List.drop_zero, List.drop_zero, Nat.sub_zero] at hwin
    refine (checksum_ne_of_single_change hwin ?_).symm
    rwa [List.getElem?_take_of_lt hin, List.getElem?_take_of_lt hin]
  · -- The place is in the stored checksum: it changes, what it covers stays.
    have htake : xs.take n = ys.take n :=
      @AgreeOn.window_eq _ _ xs ys hagree 0 n fun j _ h2 => by omega
    rw [← htake, hfit]
    intro heq
    have hend : satAdd n 4 = n + 4 := satAdd_eq hmax
    rw [leAt, leAt, hend, slice?_of_le (by omega) hn, slice?_of_le (by omega) (hlen ▸ hn),
      Nat.add_sub_cancel_left] at heq
    have hbytes := ofLE_inj (by
      rw [List.length_take, List.length_take, List.length_drop, List.length_drop, hlen]) heq
    refine hdiff ?_
    rw [← getElem?_window hin hi, ← getElem?_window hin hi, hbytes]

example : checksum "Wikipedia".toUTF8.toList = 0x11E60398 := by decide +kernel

end Adler32

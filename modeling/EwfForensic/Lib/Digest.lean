import EwfForensic.Lib.Bytes

/-!
# Message Digests

MD5 (RFC 1321), SHA-1 and SHA-256 (FIPS 180-4) on byte strings, with 32-bit words as
natural numbers below `2 ^ 32`. All three pad the message to a multiple of 64 bytes and
fold a compression function over the blocks, so they share `pad` and `foldBlocks`; they
differ in byte order, initial state and compression function.

A digest is a byte string that carries its length (`Digest`). The definitions evaluate:
each ends with a published test vector.
-/

namespace Digest

open Octets

/-- A byte string of length `n`. -/
abbrev Bytes (n : ℕ) := { bs : List UInt8 // bs.length = n }

/-- The all-zero byte string of length `n`. -/
def zero (n : ℕ) : Bytes n := ⟨List.replicate n 0, List.length_replicate⟩

/-- The `n` bytes at offset `off`; `none` when they leave `data`. -/
def bytesAt? (n : ℕ) (data : List UInt8) (off : ℕ) : Option (Bytes n) :=
  if h : ((data.drop off).take n).length = n then some ⟨(data.drop off).take n, h⟩ else none

/-- The `n` bytes at offset `off`, all zero when they leave `data`. -/
def bytesAt (n : ℕ) (data : List UInt8) (off : ℕ) : Bytes n :=
  (bytesAt? n data off).getD (zero n)

theorem bytesAt?_eq_some_iff {n : ℕ} {data : List UInt8} {off : ℕ} {b : Bytes n} (hn : 0 < n) :
    bytesAt? n data off = some b ↔ HasAt data off b.val := by
  have hb := b.property
  rw [bytesAt?]
  split_ifs with h
  · rw [List.length_take, List.length_drop] at h
    simp only [Option.some.injEq, Subtype.ext_iff, hasAt_iff, hb]
    exact ⟨fun he => ⟨by omega, he⟩, fun he => he.2⟩
  · simp only [false_iff]
    intro hat
    obtain ⟨_, htake⟩ := hasAt_iff.mp hat
    rw [hb] at htake
    exact h (by rw [htake, hb])

theorem isSome_bytesAt? {n : ℕ} {data : List UInt8} {off : ℕ} (hn : 0 < n) :
    (bytesAt? n data off).isSome ↔ off + n ≤ data.length := by
  rw [bytesAt?]
  split_ifs with h
  · rw [List.length_take, List.length_drop] at h
    simp only [Option.isSome_some, true_iff]
    omega
  · rw [List.length_take, List.length_drop] at h
    simp only [Option.isSome_none, Bool.false_eq_true, false_iff]
    omega

/-- The big-endian value of a byte string. -/
def ofBE (bs : List UInt8) : ℕ := ofLE bs.reverse

/-- The `w` big-endian bytes of `n`. -/
def toBE (w n : ℕ) : List UInt8 := (toLE w n).reverse

@[simp] theorem length_toBE (w n : ℕ) : (toBE w n).length = w := by
  simp [toBE]

/-! ### 32-bit words -/

/-- Sum of 32-bit words. -/
def add32 (x y : ℕ) : ℕ := (x + y) % 4294967296

/-- Rotation of a 32-bit word to the left. -/
def rotl (x n : ℕ) : ℕ := (x <<< n) % 4294967296 ||| x >>> (32 - n)

/-- Rotation of a 32-bit word to the right. -/
def rotr (x n : ℕ) : ℕ := rotl x (32 - n)

/-- Complement of a 32-bit word. -/
def not32 (x : ℕ) : ℕ := x ^^^ 4294967295

/-- The first `n` 32-bit words of a byte string, each decoded by `dec`. -/
def words (dec : List UInt8 → ℕ) : ℕ → List UInt8 → List ℕ
  | 0, _ => []
  | n + 1, bs => dec (bs.take 4) :: words dec n (bs.drop 4)

/-- The bytes of a list of words, each encoded by `enc`. -/
def unwords (enc : ℕ → ℕ → List UInt8) (ws : List ℕ) : List UInt8 :=
  ws.flatMap (enc 4)

theorem length_unwords {enc : ℕ → ℕ → List UInt8} (henc : ∀ w n, (enc w n).length = w)
    (ws : List ℕ) : (unwords enc ws).length = 4 * ws.length := by
  induction ws with
  | nil => rfl
  | cons w ws ih =>
      simp only [unwords, List.flatMap_cons, List.length_append, henc, List.length_cons] at ih ⊢
      omega

/-! ### Padding and blocks -/

/-- The message, a `0x80` byte, zeros up to 56 modulo 64, and the bit length in 8 bytes. -/
def pad (enc : ℕ → ℕ → List UInt8) (msg : List UInt8) : List UInt8 :=
  msg ++ 0x80 :: List.replicate ((119 - msg.length % 64) % 64) 0 ++ enc 8 (8 * msg.length)

/-- Fold a compression function over the first `n` 64-byte blocks. -/
def foldBlocks (compress : List ℕ → List UInt8 → List ℕ) :
    ℕ → List ℕ → List UInt8 → List ℕ
  | 0, s, _ => s
  | n + 1, s, bs => foldBlocks compress n (compress s (bs.take 64)) (bs.drop 64)

/-- A compression function that keeps the number of state words keeps it over a message. -/
theorem length_foldBlocks {compress : List ℕ → List UInt8 → List ℕ} {k : ℕ}
    (h : ∀ s bs, s.length = k → (compress s bs).length = k) (n : ℕ) {s : List ℕ}
    (hs : s.length = k) (bs : List UInt8) : (foldBlocks compress n s bs).length = k := by
  induction n generalizing s bs with
  | zero => exact hs
  | succ n ih => exact ih (h _ _ hs) _

/-- The word-wise sum of two states, which ends every compression function here. -/
def addStates (s t : List ℕ) : List ℕ := List.zipWith add32 s t

/-- A digest function from its byte order, compression function and initial state. -/
def hash (enc : ℕ → ℕ → List UInt8) (compress : List ℕ → List UInt8 → List ℕ)
    (init : List ℕ) (msg : List UInt8) : List UInt8 :=
  let padded := pad enc msg
  unwords enc (foldBlocks compress (padded.length / 64) init padded)

theorem length_hash {enc : ℕ → ℕ → List UInt8} (henc : ∀ w n, (enc w n).length = w)
    {compress : List ℕ → List UInt8 → List ℕ} {init : List ℕ}
    (h : ∀ s bs, s.length = init.length → (compress s bs).length = init.length)
    (msg : List UInt8) : (hash enc compress init msg).length = 4 * init.length := by
  rw [hash, length_unwords henc, length_foldBlocks h _ rfl]

/-! ### MD5 -/

/-- The sine table of MD5. -/
def md5Table : List ℕ := [
  0xd76aa478, 0xe8c7b756, 0x242070db, 0xc1bdceee, 0xf57c0faf, 0x4787c62a, 0xa8304613, 0xfd469501,
  0x698098d8, 0x8b44f7af, 0xffff5bb1, 0x895cd7be, 0x6b901122, 0xfd987193, 0xa679438e, 0x49b40821,
  0xf61e2562, 0xc040b340, 0x265e5a51, 0xe9b6c7aa, 0xd62f105d, 0x02441453, 0xd8a1e681, 0xe7d3fbc8,
  0x21e1cde6, 0xc33707d6, 0xf4d50d87, 0x455a14ed, 0xa9e3e905, 0xfcefa3f8, 0x676f02d9, 0x8d2a4c8a,
  0xfffa3942, 0x8771f681, 0x6d9d6122, 0xfde5380c, 0xa4beea44, 0x4bdecfa9, 0xf6bb4b60, 0xbebfbc70,
  0x289b7ec6, 0xeaa127fa, 0xd4ef3085, 0x04881d05, 0xd9d4d039, 0xe6db99e5, 0x1fa27cf8, 0xc4ac5665,
  0xf4292244, 0x432aff97, 0xab9423a7, 0xfc93a039, 0x655b59c3, 0x8f0ccc92, 0xffeff47d, 0x85845dd1,
  0x6fa87e4f, 0xfe2ce6e0, 0xa3014314, 0x4e0811a1, 0xf7537e82, 0xbd3af235, 0x2ad7d2bb, 0xeb86d391]

/-- The rotation amounts of MD5. -/
def md5Shifts : List ℕ := [
  7, 12, 17, 22, 7, 12, 17, 22, 7, 12, 17, 22, 7, 12, 17, 22,
  5, 9, 14, 20, 5, 9, 14, 20, 5, 9, 14, 20, 5, 9, 14, 20,
  4, 11, 16, 23, 4, 11, 16, 23, 4, 11, 16, 23, 4, 11, 16, 23,
  6, 10, 15, 21, 6, 10, 15, 21, 6, 10, 15, 21, 6, 10, 15, 21]

/-- The round function of MD5 in round `i`. -/
def md5Mix (i b c d : ℕ) : ℕ :=
  if i < 16 then b &&& c ||| not32 b &&& d
  else if i < 32 then d &&& b ||| not32 d &&& c
  else if i < 48 then b ^^^ c ^^^ d
  else c ^^^ (b ||| not32 d)

/-- The message word used in round `i` of MD5. -/
def md5Index (i : ℕ) : ℕ :=
  if i < 16 then i
  else if i < 32 then (5 * i + 1) % 16
  else if i < 48 then (3 * i + 5) % 16
  else 7 * i % 16

/-- The 64 rounds of MD5 on the working words `a b c d`. -/
def md5Rounds (m : List ℕ) : List (ℕ × ℕ) → ℕ → ℕ → ℕ → ℕ → ℕ → List ℕ
  | [], _, a, b, c, d => [a, b, c, d]
  | (k, r) :: ks, i, a, b, c, d =>
    let f := (md5Mix i b c d + a + k + m.getD (md5Index i) 0) % 4294967296
    md5Rounds m ks (i + 1) d (add32 b (rotl f r)) b c

/-- The compression function of MD5. -/
def md5Compress (s : List ℕ) (bs : List UInt8) : List ℕ :=
  match s with
  | [a, b, c, d] =>
    addStates s (md5Rounds (words ofLE 16 bs) (md5Table.zip md5Shifts) 0 a b c d)
  | _ => s

theorem length_md5Rounds (m : List ℕ) (ks : List (ℕ × ℕ)) (i a b c d : ℕ) :
    (md5Rounds m ks i a b c d).length = 4 := by
  induction ks generalizing i a b c d with
  | nil => rfl
  | cons k ks ih => exact ih _ _ _ _ _

theorem length_md5Compress (s : List ℕ) (bs : List UInt8) (h : s.length = 4) :
    (md5Compress s bs).length = 4 := by
  match s, h with
  | [a, b, c, d], _ => simp [md5Compress, addStates, length_md5Rounds]

/-- The MD5 digest of a byte string. -/
def md5 (msg : List UInt8) : Bytes 16 :=
  ⟨hash toLE md5Compress [0x67452301, 0xefcdab89, 0x98badcfe, 0x10325476] msg,
    length_hash length_toLE (fun _ _ h => length_md5Compress _ _ h) msg⟩

example : (md5 []).val = [0xd4, 0x1d, 0x8c, 0xd9, 0x8f, 0x00, 0xb2, 0x04, 0xe9, 0x80, 0x09,
    0x98, 0xec, 0xf8, 0x42, 0x7e] := by decide +kernel

/-! ### SHA-1 -/

/-- Extend a message schedule, newest word first, by `n` words that `next` computes. -/
def extend (next : List ℕ → ℕ) : ℕ → List ℕ → List ℕ
  | 0, w => w
  | n + 1, w => extend next n (next w :: w)

/-- The round function and constant of SHA-1 in round `i`. -/
def sha1Mix (i b c d : ℕ) : ℕ × ℕ :=
  if i < 20 then (b &&& c ||| not32 b &&& d, 0x5a827999)
  else if i < 40 then (b ^^^ c ^^^ d, 0x6ed9eba1)
  else if i < 60 then (b &&& c ||| b &&& d ||| c &&& d, 0x8f1bbcdc)
  else (b ^^^ c ^^^ d, 0xca62c1d6)

/-- The rounds of SHA-1 on the working words, one for each schedule word. -/
def sha1Rounds : List ℕ → ℕ → ℕ → ℕ → ℕ → ℕ → ℕ → List ℕ
  | [], _, a, b, c, d, e => [a, b, c, d, e]
  | w :: ws, i, a, b, c, d, e =>
    let (f, k) := sha1Mix i b c d
    sha1Rounds ws (i + 1) ((rotl a 5 + f + e + k + w) % 4294967296) a (rotl b 30) c d

/-- The compression function of SHA-1. -/
def sha1Compress (s : List ℕ) (bs : List UInt8) : List ℕ :=
  match s with
  | [a, b, c, d, e] =>
    let next := fun w : List ℕ =>
      rotl (w.getD 2 0 ^^^ w.getD 7 0 ^^^ w.getD 13 0 ^^^ w.getD 15 0) 1
    addStates s (sha1Rounds (extend next 64 (words ofBE 16 bs).reverse).reverse 0 a b c d e)
  | _ => s

theorem length_sha1Rounds (ws : List ℕ) (i a b c d e : ℕ) :
    (sha1Rounds ws i a b c d e).length = 5 := by
  induction ws generalizing i a b c d e with
  | nil => rfl
  | cons w ws ih => exact ih _ _ _ _ _ _

theorem length_sha1Compress (s : List ℕ) (bs : List UInt8) (h : s.length = 5) :
    (sha1Compress s bs).length = 5 := by
  match s, h with
  | [a, b, c, d, e], _ => simp [sha1Compress, addStates, length_sha1Rounds]

/-- The SHA-1 digest of a byte string. -/
def sha1 (msg : List UInt8) : Bytes 20 :=
  ⟨hash toBE sha1Compress [0x67452301, 0xefcdab89, 0x98badcfe, 0x10325476, 0xc3d2e1f0] msg,
    length_hash length_toBE (fun _ _ h => length_sha1Compress _ _ h) msg⟩

example : (sha1 []).val = [0xda, 0x39, 0xa3, 0xee, 0x5e, 0x6b, 0x4b, 0x0d, 0x32, 0x55, 0xbf,
    0xef, 0x95, 0x60, 0x18, 0x90, 0xaf, 0xd8, 0x07, 0x09] := by decide +kernel

/-! ### SHA-256 -/

/-- The round constants of SHA-256. -/
def sha256Table : List ℕ := [
  0x428a2f98, 0x71374491, 0xb5c0fbcf, 0xe9b5dba5, 0x3956c25b, 0x59f111f1, 0x923f82a4, 0xab1c5ed5,
  0xd807aa98, 0x12835b01, 0x243185be, 0x550c7dc3, 0x72be5d74, 0x80deb1fe, 0x9bdc06a7, 0xc19bf174,
  0xe49b69c1, 0xefbe4786, 0x0fc19dc6, 0x240ca1cc, 0x2de92c6f, 0x4a7484aa, 0x5cb0a9dc, 0x76f988da,
  0x983e5152, 0xa831c66d, 0xb00327c8, 0xbf597fc7, 0xc6e00bf3, 0xd5a79147, 0x06ca6351, 0x14292967,
  0x27b70a85, 0x2e1b2138, 0x4d2c6dfc, 0x53380d13, 0x650a7354, 0x766a0abb, 0x81c2c92e, 0x92722c85,
  0xa2bfe8a1, 0xa81a664b, 0xc24b8b70, 0xc76c51a3, 0xd192e819, 0xd6990624, 0xf40e3585, 0x106aa070,
  0x19a4c116, 0x1e376c08, 0x2748774c, 0x34b0bcb5, 0x391c0cb3, 0x4ed8aa4a, 0x5b9cca4f, 0x682e6ff3,
  0x748f82ee, 0x78a5636f, 0x84c87814, 0x8cc70208, 0x90befffa, 0xa4506ceb, 0xbef9a3f7, 0xc67178f2]

/-- The next schedule word of SHA-256. -/
def sha256Next (w : List ℕ) : ℕ :=
  let x := w.getD 14 0
  let y := w.getD 1 0
  let s0 := rotr x 7 ^^^ rotr x 18 ^^^ x >>> 3
  let s1 := rotr y 17 ^^^ rotr y 19 ^^^ y >>> 10
  (w.getD 15 0 + s0 + w.getD 6 0 + s1) % 4294967296

/-- The rounds of SHA-256, one for each pair of round constant and schedule word. -/
def sha256Rounds : List (ℕ × ℕ) → ℕ → ℕ → ℕ → ℕ → ℕ → ℕ → ℕ → ℕ → List ℕ
  | [], a, b, c, d, e, f, g, h => [a, b, c, d, e, f, g, h]
  | (k, w) :: kws, a, b, c, d, e, f, g, h =>
    let s1 := rotr e 6 ^^^ rotr e 11 ^^^ rotr e 25
    let ch := e &&& f ^^^ not32 e &&& g
    let t1 := (h + s1 + ch + k + w) % 4294967296
    let s0 := rotr a 2 ^^^ rotr a 13 ^^^ rotr a 22
    let maj := a &&& b ^^^ a &&& c ^^^ b &&& c
    sha256Rounds kws (add32 t1 (add32 s0 maj)) a b c (add32 d t1) e f g

/-- The compression function of SHA-256. -/
def sha256Compress (s : List ℕ) (bs : List UInt8) : List ℕ :=
  match s with
  | [a, b, c, d, e, f, g, h] =>
    let schedule := (extend sha256Next 48 (words ofBE 16 bs).reverse).reverse
    addStates s (sha256Rounds (sha256Table.zip schedule) a b c d e f g h)
  | _ => s

theorem length_sha256Rounds (kws : List (ℕ × ℕ)) (a b c d e f g h : ℕ) :
    (sha256Rounds kws a b c d e f g h).length = 8 := by
  induction kws generalizing a b c d e f g h with
  | nil => rfl
  | cons kw kws ih => exact ih _ _ _ _ _ _ _ _

theorem length_sha256Compress (s : List ℕ) (bs : List UInt8) (hs : s.length = 8) :
    (sha256Compress s bs).length = 8 := by
  match s, hs with
  | [a, b, c, d, e, f, g, h], _ => simp [sha256Compress, addStates, length_sha256Rounds]

/-- The SHA-256 digest of a byte string. -/
def sha256 (msg : List UInt8) : Bytes 32 :=
  ⟨hash toBE sha256Compress [0x6a09e667, 0xbb67ae85, 0x3c6ef372, 0xa54ff53a, 0x510e527f,
      0x9b05688c, 0x1f83d9ab, 0x5be0cd19] msg,
    length_hash length_toBE (fun _ _ h => length_sha256Compress _ _ h) msg⟩

example : (sha256 []).val = [0xe3, 0xb0, 0xc4, 0x42, 0x98, 0xfc, 0x1c, 0x14, 0x9a, 0xfb, 0xf4,
    0xc8, 0x99, 0x6f, 0xb9, 0x24, 0x27, 0xae, 0x41, 0xe4, 0x64, 0x9b, 0x93, 0x4c, 0xa4, 0x95,
    0x99, 0x1b, 0x78, 0x52, 0xb8, 0x55] := by decide +kernel

end Digest

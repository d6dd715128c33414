import EwfForensic.Cli.Mcp
import EwfForensic.Core.ParallelVerify

/-!
# Commands

What two commands of `cli/src/main.rs` show their user: `ewf verify` with its exit status, and
`ewf read` with its hex dump.

* `verifyStatus` — the exit status of `ewf verify`. `verify_status_zero_iff` says for all files what
  a zero means, `verify_status_image` when a stored image has it.
* `formatHexDump`, `ewfRead` — the bytes of a range as lines with an address, sixteen columns and a
  gutter with the characters.
* `readRow` — what a reader of the dump sees in a line: its address and its bytes.
  `readRow_dumpLine` and `lines_formatHexDump` read back a line and all lines.
* `hex_dump_exact` — the dump of a stored image shows the bytes of its media.
-/

namespace EwfForensic.Cli

open LineServer

/-! ### `ewf verify` -/

/-- Whether an answer says that the verification failed. -/
def failedVerify (v : Json.Value) : Bool :=
  (v.get "md5_match".toList).bind Json.Value.asBool = some false ∨
    (v.get "sha1_match".toList).bind Json.Value.asBool = some false ∨
      (v.get "complete".toList).bind Json.Value.asBool = some false

/-- The exit status of `ewf verify`. A panic ends the program with 101. -/
def verifyStatus {Name : Type} (T : Texts) (fs : FileSystem Path Name UInt8) (C : Crates)
    (threads : ℕ) (path : List Char) : ℕ :=
  match handleEwfVerify T fs C threads path with
  | .ok v => if failedVerify v then 2 else 0
  | .error (.error _) => 1
  | .error .panic => 101

/-- Every read delivers a slice of the media, whatever was read before. -/
structure Delivers (C : Crates) (r : EwfReader) (media : List UInt8) : Prop where
  totalSize_eq : r.totalSize = media.length
  readAt_eq : ∀ st, r.Reachable C st → ∀ off len,
    (r.readAt C st off len).1 = .ok ((media.drop off).take len)

/-- The digests that an image stores are those of a media. -/
def DigestsFit (C : Crates) (r : EwfReader) (media : List UInt8) : Prop :=
  (∀ stored, r.storedMd5 = some stored → stored = C.md5 media) ∧
    ∀ stored, r.storedSha1 = some stored → stored = C.sha1 media

/-- What the answer of a verification says. -/
theorem failedVerify_verifyValue (v : VerifyResult) :
    failedVerify (verifyValue v) = true ↔
      v.md5Match = some false ∨ v.sha1Match = some false ∨ v.isComplete = false := by
  have hoption : ∀ m : Option Bool, (jsonOption Json.Value.bool m).asBool = some false ↔
      m = some false := by
    decide
  have hmd5 : (verifyValue v).get "md5_match".toList = some (jsonOption .bool v.md5Match) :=
    get_jsonObject (by simp) (by simp)
  have hsha1 : (verifyValue v).get "sha1_match".toList = some (jsonOption .bool v.sha1Match) :=
    get_jsonObject (by simp) (by simp)
  have hcomplete : (verifyValue v).get "complete".toList = some (.bool v.isComplete) :=
    get_jsonObject (by simp) (by simp)
  rw [failedVerify, decide_eq_true_iff, hmd5, hsha1, hcomplete, Option.bind_some, Option.bind_some,
    Option.bind_some, hoption, hoption, Json.Value.asBool, Option.some.injEq]

/-- A stored digest that does not fit is reported. -/
theorem match_eq_some_false_iff {n : ℕ} {stored : Option (Digest.Bytes n)}
    {computed : Digest.Bytes n} :
    stored.map (fun s => decide (s = computed)) = some false ↔
      ¬ ∀ s, stored = some s → s = computed := by
  cases stored with
  | none => simp
  | some s => simp

/-- What `verify` hashes to the end is what every read delivers. -/
theorem delivers_of_verifyStream {C : Crates} {r : EwfReader} {threads : ℕ} {media : List UInt8}
    (h : r.verifyStream C threads = .ok media)
    (hall : r.totalSize ≤ r.chunkSize * r.chunks.len) : Delivers C r media := by
  obtain ⟨pages, hpages, rfl⟩ := r.verifyStream_eq_ok_iff.mp h
  rw [Nat.mul_comm] at hall
  refine ⟨?_, fun st hst off len => ?_⟩
  · rw [List.length_take, hpages.length_flatten, Nat.min_eq_left hall]
  · rw [hst.readAt_eq]
    rcases Nat.eq_zero_or_pos r.chunkSize with hzero | hpos
    · -- Without a chunk size there is nothing to read.
      have htotal : r.totalSize = 0 := by
        rw [hzero, Nat.mul_zero] at hall
        exact Nat.le_zero.mp hall
      have hturn : r.turnSize off len = 0 := by
        rw [EwfReader.turnSize, htotal]
        omega
      rw [EwfReader.read, EwfReader.pureLoop, hturn, if_pos rfl, htotal, List.take_zero,
        List.drop_nil, List.take_nil]
    · exact r.read_eq_slice hpos hpages hall off len

/-- The answer about a reader whose stream is hashed to the end. -/
theorem handleEwfVerify_eq {Name : Type} {T : Texts} {fs : FileSystem Path Name UInt8} {C : Crates}
    {threads : ℕ} {path : List Char} {r : EwfReader} {media : List UInt8}
    (hopen : openPath fs C (pathOf path) = .ok r) (hs : r.verifyStream C threads = .ok media) :
    handleEwfVerify T fs C threads path = .ok (verifyValue (r.verifyResult C media)) := by
  rw [handleEwfVerify, openReader, hopen]
  change ((r.verify C threads).mapError (failure T) >>= _) = _
  rw [EwfReader.verify_eq, hs]
  rfl

/-- The answer says that the verification failed when a part of the media is missing or a stored
digest is not the one of the media. -/
theorem failedVerify_verifyResult (C : Crates) (r : EwfReader) (media : List UInt8) :
    failedVerify (verifyValue (r.verifyResult C media)) = true ↔
      ¬ ((r.verifyResult C media).isComplete = true ∧ DigestsFit C r media) := by
  rw [failedVerify_verifyValue, EwfReader.verifyResult, match_eq_some_false_iff,
    match_eq_some_false_iff, DigestsFit, not_and_or, not_and_or, Bool.not_eq_true]
  tauto

/-- The numbers of a text of digits, two at a time; pairs that are none are left out. The text of an
answer has two digits for each byte, so none is left over. -/
def pairBytes : List Char → List UInt8
  | a :: b :: rest =>
    match fromStrRadix16 [a, b] with
    | some v => UInt8.ofNat v :: pairBytes rest
    | none => pairBytes rest
  | _ => []

/-- `bytes.chunks(16)`. -/
def dumpChunks (bytes : List UInt8) : List (List UInt8) :=
  (List.range ((bytes.length + 15) / 16)).map fun i => (bytes.drop (i * 16)).take 16

/-- The columns of the bytes of a row, from the `j`th on. A gap stands behind the eighth. -/
def byteColumns : ℕ → List UInt8 → List Char
  | _, [] => []
  | j, b :: rest =>
    Hex.padded 2 b.toNat ++ [' '] ++ (if j = 7 then [' '] else []) ++ byteColumns (j + 1) rest

/-- The blanks for the columns that a row of `n` bytes lacks. -/
def blankColumns (n : ℕ) : List Char :=
  (List.range (16 - n)).flatMap fun j =>
    [' ', ' ', ' '] ++ if n + j = 7 then [' '] else []

/-- What stands for a byte in the gutter. -/
def gutterChar (b : UInt8) : Char :=
  if 32 ≤ b.toNat ∧ b.toNat ≤ 126 then Char.ofNat b.toNat else '.'

/-- A line of the dump. -/
def dumpLine (addr : ℕ) (chunk : List UInt8) : List Char :=
  Hex.padded 8 addr ++ [' ', ' '] ++ (byteColumns 0 chunk ++ blankColumns chunk.length) ++
    [' ', '|'] ++ chunk.map gutterChar ++ ['|']

/-- The lines of the dump of some bytes, with the address of the first one. -/
def dumpLines (offset : ℕ) (bytes : List UInt8) : List (List Char) :=
  (dumpChunks bytes).zipIdx.map fun p => dumpLine (offset + p.2 * 16) p.1

/-- `format_hex_dump`. -/
def formatHexDump (v : Json.Value) : List Char :=
  (dumpLines (((v.get "offset".toList).bind Json.Value.asU64).getD 0)
    (pairBytes (((v.get "hex".toList).bind Json.Value.asStr).getD []))).flatMap (· ++ ['\n'])

/-- `ewf read`: what is printed, or the error. -/
def ewfRead {Name : Type} (T : Texts) (fs : FileSystem Path Name UInt8) (C : Crates)
    (path : List Char) (offset : UInt64) (length : ℕ) : Except Failure (List Char) :=
  (handleEwfReadSectors T fs C path offset (min length 4096)).map formatHexDump

/-! ### Reading a dump -/

/-- The address and the bytes of a line: the digits up to the first blank, and those in the columns
behind the two blanks. -/
def readRow (line : List Char) : Option ℕ × List UInt8 :=
  (Hex.value 0 (line.takeWhile (· ≠ ' ')),
    pairBytes ((((line.dropWhile (· ≠ ' ')).drop 2).take 49).filter (· ≠ ' ')))

/-- The digits of a number are no blanks. -/
theorem ne_blank_of_mem_padded {width n : ℕ} {c : Char} (h : c ∈ Hex.padded width n) :
    c ≠ ' ' := by
  rintro rfl
  exact Hex.digit_ne_none (Hex.value_padded width n) _ h rfl

/-- A byte is written with two digits, which are read as the byte. -/
theorem exists_padded_byte (b : UInt8) :
    ∃ x y, Hex.padded 2 b.toNat = [x, y] ∧
      ∃ v, fromStrRadix16 [x, y] = some v ∧ UInt8.ofNat (v : ℕ) = b := by
  have hlen : (Hex.padded 2 b.toNat).length = 2 := Hex.length_padded (by decide) b.toNat_lt
  obtain ⟨x, y, hxy⟩ := List.length_eq_two.mp hlen
  have hvalue := Hex.value_padded 2 b.toNat
  have hdigits := Hex.digit_ne_none hvalue
  rw [hxy] at hvalue hdigits
  obtain ⟨dx, hx⟩ := Option.ne_none_iff_exists'.mp (hdigits x (List.mem_cons_self ..))
  obtain ⟨dy, hy⟩ := Option.ne_none_iff_exists'.mp
    (hdigits y (List.mem_cons_of_mem _ (List.mem_cons_self ..)))
  obtain ⟨v, hv, hnat⟩ := fromStrRadix16_pair hx hy
  have hsum : 16 * dx + dy = b.toNat := by
    simp only [Hex.value, hx, hy] at hvalue
    simpa using hvalue
  refine ⟨x, y, hxy, v, hv, ?_⟩
  rw [hnat, hsum, UInt8.ofNat_toNat]

/-- **Digits are read back** as the bytes they were written for. -/
theorem pairBytes_hexString (bytes : List UInt8) : pairBytes (hexString bytes) = bytes := by
  induction bytes with
  | nil => rfl
  | cons b bytes ih =>
      obtain ⟨x, y, hxy, v, hv, hb⟩ := exists_padded_byte b
      rw [hexString, List.flatMap_cons, hxy, List.cons_append, List.cons_append, List.nil_append,
        pairBytes, hv]
      exact congrArg₂ List.cons hb ih

/-- Without the blanks, the columns are the digits. -/
theorem filter_byteColumns (j : ℕ) (bytes : List UInt8) :
    (byteColumns j bytes).filter (· ≠ ' ') = hexString bytes := by
  induction bytes generalizing j with
  | nil => rfl
  | cons b bytes ih =>
      have hdigits : (Hex.padded 2 b.toNat).filter (· ≠ ' ') = Hex.padded 2 b.toNat :=
        List.filter_eq_self.mpr fun c hc => decide_eq_true (ne_blank_of_mem_padded hc)
      have hgap : (if j = 7 then [' '] else []).filter (fun c : Char => c ≠ ' ') = [] := by
        split_ifs <;> rfl
      have hblank : [' '].filter (fun c : Char => c ≠ ' ') = [] := rfl
      rw [byteColumns, List.filter_append, List.filter_append, List.filter_append, hdigits, hgap,
        hblank, ih, List.append_nil, List.append_nil, hexString, hexString, List.flatMap_cons]

theorem filter_blankColumns (n : ℕ) : (blankColumns n).filter (· ≠ ' ') = [] := by
  refine List.filter_eq_nil_iff.mpr fun c hc => ?_
  obtain ⟨j, -, hmem⟩ := List.mem_flatMap.mp hc
  have hblank : c = ' ' := by
    split_ifs at hmem <;> simpa using hmem
  simp [hblank]

theorem length_byteColumns (j : ℕ) (bytes : List UInt8) :
    (byteColumns j bytes).length =
      3 * bytes.length + if j ≤ 7 ∧ 7 < j + bytes.length then 1 else 0 := by
  induction bytes generalizing j with
  | nil =>
      have hno : ¬ (j ≤ 7 ∧ 7 < j + 0) := by omega
      simp only [byteColumns, List.length_nil, if_neg hno]
  | cons b bytes ih =>
      have hlen : (Hex.padded 2 b.toNat).length = 2 := Hex.length_padded (by decide) b.toNat_lt
      simp only [byteColumns, List.length_append, hlen, ih, List.length_cons, List.length_nil]
      split_ifs <;> simp only [List.length_cons, List.length_nil] <;> omega

/-- **The columns** of a row of sixteen bytes at most are 49 characters wide. -/
theorem length_columns {chunk : List UInt8} (h : chunk.length ≤ 16) :
    (byteColumns 0 chunk ++ blankColumns chunk.length).length = 49 := by
  have hblank : ∀ n : Fin 17, (blankColumns n.val).length =
      3 * (16 - n.val) + if n.val ≤ 7 then 1 else 0 := by decide
  have hrest : (blankColumns chunk.length).length =
      3 * (16 - chunk.length) + if chunk.length ≤ 7 then 1 else 0 :=
    hblank ⟨chunk.length, by omega⟩
  rw [List.length_append, length_byteColumns, hrest]
  split_ifs <;> omega

/-- **A line is read back.** -/
theorem readRow_dumpLine (addr : ℕ) {chunk : List UInt8} (h : chunk.length ≤ 16) :
    readRow (dumpLine addr chunk) = (some addr, chunk) := by
  obtain ⟨columns, hcolumns⟩ :
      ∃ columns, columns = byteColumns 0 chunk ++ blankColumns chunk.length := ⟨_, rfl⟩
  have hwidth : columns.length = 49 := hcolumns ▸ length_columns h
  have hdigits : ∀ c ∈ Hex.padded 8 addr, decide (c ≠ ' ') = true := fun c hc =>
    decide_eq_true (ne_blank_of_mem_padded hc)
  obtain ⟨gutter, hgutter⟩ : ∃ gutter, gutter = [' ', '|'] ++ chunk.map gutterChar ++ ['|'] :=
    ⟨_, rfl⟩
  have hline : dumpLine addr chunk =
      Hex.padded 8 addr ++ ' ' :: ' ' :: (columns ++ gutter) := by
    rw [dumpLine, ← hcolumns, hgutter]
    simp only [List.append_assoc, List.cons_append, List.nil_append]
  have htake : (dumpLine addr chunk).takeWhile (· ≠ ' ') = Hex.padded 8 addr := by
    rw [hline, List.takeWhile_append_of_pos hdigits]
    simp
  have hdrop : (dumpLine addr chunk).dropWhile (· ≠ ' ') = ' ' :: ' ' :: (columns ++ gutter) := by
    rw [hline, List.dropWhile_append_of_pos hdigits]
    simp
  have hbytes : columns.filter (· ≠ ' ') = hexString chunk := by
    rw [hcolumns, List.filter_append, filter_byteColumns, filter_blankColumns, List.append_nil]
  rw [readRow, htake, hdrop, Hex.value_padded, List.drop_succ_cons, List.drop_succ_cons,
    List.drop_zero, List.take_left' hwidth, hbytes, pairBytes_hexString]

/-! ### All lines -/

/-- The chunks are the bytes. -/
theorem flatten_dumpChunks (bytes : List UInt8) : (dumpChunks bytes).flatten = bytes := by
  have htake : ∀ k, ((List.range k).map fun i => (bytes.drop (i * 16)).take 16).flatten =
      bytes.take (k * 16) := by
    intro k
    induction k with
    | zero => simp
    | succ k ih =>
        rw [List.range_succ, List.map_append, List.flatten_append, ih, List.map_singleton,
          List.flatten_singleton, Nat.succ_mul, List.take_add]
  rw [dumpChunks, htake]
  exact List.take_of_length_le (by omega)

theorem length_le_of_mem_dumpChunks {bytes chunk : List UInt8} (h : chunk ∈ dumpChunks bytes) :
    chunk.length ≤ 16 := by
  obtain ⟨i, -, rfl⟩ := List.mem_map.mp h
  exact List.length_take_le _ _

/-- The characters of a line are no line breaks. -/
theorem newline_notMem_dumpLine (addr : ℕ) (chunk : List UInt8) : '\n' ∉ dumpLine addr chunk := by
  have hdigits : ∀ width n, '\n' ∉ Hex.padded width n := fun width n h =>
    Hex.digit_ne_none (Hex.value_padded width n) _ h rfl
  have hcolumns : ∀ j bytes, '\n' ∉ byteColumns j bytes := by
    intro j bytes
    induction bytes generalizing j with
    | nil => exact List.not_mem_nil
    | cons b bytes ih =>
        simp only [byteColumns, List.mem_append, not_or]
        refine ⟨⟨⟨hdigits _ _, by decide⟩, ?_⟩, ih _⟩
        split_ifs <;> decide
  have hblanks : '\n' ∉ blankColumns chunk.length := by
    intro hmem
    obtain ⟨j, -, h⟩ := List.mem_flatMap.mp hmem
    split_ifs at h <;> simp at h
  have hgutter : '\n' ∉ chunk.map gutterChar := by
    intro hmem
    obtain ⟨b, -, hb⟩ := List.mem_map.mp hmem
    have hall : ∀ n : Fin 256, gutterChar (UInt8.ofNat n.val) ≠ '\n' := by decide +kernel
    exact hall ⟨b.toNat, b.toNat_lt⟩ (by rw [UInt8.ofNat_toNat]; exact hb)
  simp only [dumpLine, List.mem_append, not_or]
  exact ⟨⟨⟨⟨⟨hdigits _ _, by decide⟩, hcolumns _ _, hblanks⟩, by decide⟩, hgutter⟩, by decide⟩

/-- **The lines of a dump** are read back: each has the address of its first byte, and together they
have all bytes. -/
theorem lines_formatHexDump (offset : ℕ) (bytes : List UInt8) :
    ((dumpLines offset bytes).map readRow) =
        (dumpChunks bytes).zipIdx.map (fun p => (some (offset + p.2 * 16), p.1)) ∧
      ((dumpLines offset bytes).flatMap fun line => (readRow line).2) = bytes := by
  have hrows : (dumpLines offset bytes).map readRow =
      (dumpChunks bytes).zipIdx.map (fun p => (some (offset + p.2 * 16), p.1)) := by
    rw [dumpLines, List.map_map]
    refine List.map_congr_left fun p hp => ?_
    exact readRow_dumpLine _ (length_le_of_mem_dumpChunks (List.fst_mem_of_mem_zipIdx hp))
  refine ⟨hrows, ?_⟩
  calc (dumpLines offset bytes).flatMap (fun line => (readRow line).2)
      = (((dumpLines offset bytes).map readRow).map Prod.snd).flatten := by
        rw [List.map_map]
        rfl
    _ = ((dumpChunks bytes).zipIdx.map Prod.fst).flatten := by
        rw [hrows, List.map_map]
        rfl
    _ = bytes := by
        rw [List.zipIdx_map_fst, flatten_dumpChunks]

/-- What is printed, split at its line breaks. -/
theorem readLines_formatHexDump {v : Json.Value} {offset : ℕ} {bytes : List UInt8}
    (hoffset : (v.get "offset".toList).bind Json.Value.asU64 = some offset)
    (hhex : (v.get "hex".toList).bind Json.Value.asStr = some (hexString bytes)) :
    readLines (encode (formatHexDump v)) = dumpLines offset bytes := by
  have hwrite : encode (formatHexDump v) = writeLines (dumpLines offset bytes) := by
    rw [formatHexDump, hoffset, hhex, Option.getD_some, Option.getD_some, pairBytes_hexString,
      encode, List.flatMap_assoc, writeLines]
    refine List.flatMap_congr fun line _ => ?_
    rw [List.flatMap_append, encode]
    rfl
  rw [hwrite]
  refine readLines_writeLines fun line hline => ?_
  obtain ⟨p, -, rfl⟩ := List.mem_map.mp hline
  refine ⟨newline_notMem_dumpLine _ _, ?_⟩
  rw [dumpLine, List.getLast?_append, List.getLast?_singleton, Option.some_or]
  decide

end EwfForensic.Cli

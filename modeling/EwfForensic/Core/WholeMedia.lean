import EwfForensic.Core.Read
import EwfForensic.Lib.Blocks

/-!
# A Reader of a Media

Whatever the format, an image that opens well gives a reader whose pages start with the blocks of
the media, in order.

* `EwfReader.Stores` — a reader of the blocks of a media.
* `EwfReader.Stores.readAt_eq` — every read is a slice of the media, whatever was read before.
* `EwfReader.Stores.verify_eq` — `verify` digests the media, whatever the number of threads.
-/

namespace EwfForensic

open Octets

/-- The pages of a reader start with the blocks of a media, and its sizes are those of the
media. -/
structure EwfReader.Stores (C : Crates) (r : EwfReader) (blocks : List (List UInt8)) : Prop where
  chunkSize_pos : 0 < r.chunkSize
  cut : Blocks r.chunkSize blocks
  totalSize_eq : r.totalSize = blocks.flatten.length
  len_eq : r.chunks.len = blocks.length
  page : ∀ j b, blocks[j]? = some b → ∃ rest, r.page C j = .ok (b ++ rest)

/-- `VerifyResult::is_complete`. -/
def VerifyResult.isComplete (v : VerifyResult) : Bool := v.addressableBytes ≥ v.declaredBytes

/-- `VerifyResult::missing_bytes`. -/
def VerifyResult.missingBytes (v : VerifyResult) : ℕ := v.declaredBytes - v.addressableBytes

section Stores

variable {C : Crates} {r : EwfReader} {blocks : List (List UInt8)}

/-- A read without caches is a slice of the media. -/
theorem EwfReader.Stores.read_eq (h : r.Stores C blocks) (off len : ℕ) :
    r.read C off len = .ok ((blocks.flatten.drop off).take len) := by
  have havail : r.available off len = min len (blocks.flatten.length - off) := by
    rw [EwfReader.available, h.totalSize_eq]
  refine (r.read_eq_ok_iff h.chunkSize_pos).mpr ⟨?_, fun j hj => ?_⟩
  · rw [havail, List.length_take, List.length_drop]
  · have hlt : off + j < blocks.flatten.length := by omega
    -- The byte of the media is a byte of the block that backs it.
    have hbyte := h.cut.getElem?_flatten h.chunkSize_pos (off + j)
    rw [List.getElem?_eq_getElem hlt] at hbyte
    obtain ⟨b, hb, hget⟩ := Option.bind_eq_some_iff.mp hbyte.symm
    obtain ⟨rest, hpage⟩ := h.page _ b hb
    refine ⟨_, hpage, ?_⟩
    have hin : (off + j) % r.chunkSize < b.length := (List.getElem?_eq_some_iff.mp hget).1
    rw [List.getElem?_take_of_lt (by omega), List.getElem?_drop, List.getElem?_append_left hin,
      hget, List.getElem?_eq_getElem hlt]

/-- **Every read is a slice of the media**, whatever was read before. -/
theorem EwfReader.Stores.readAt_eq (h : r.Stores C blocks) {st : ReaderState}
    (hst : r.Reachable C st) (off len : ℕ) :
    (r.readAt C st off len).1 = .ok ((blocks.flatten.drop off).take len) := by
  rw [hst.readAt_eq, h.read_eq]

/-- **`verify` hashes the media**, whatever the number of threads. -/
theorem EwfReader.Stores.verifyStream_eq (h : r.Stores C blocks) (threads : ℕ) :
    r.verifyStream C threads = .ok blocks.flatten := by
  have hrest : ∀ j : Fin blocks.length, ∃ rest, r.page C j = .ok (blocks[j] ++ rest) := fun j =>
    h.page j _ (List.getElem?_eq_getElem j.isLt)
  choose rest hrest using hrest
  refine EwfReader.verifyStream_eq_ok_iff.mpr
    ⟨List.ofFn fun j : Fin blocks.length => blocks[j] ++ rest j, ?_, ?_⟩
  · rw [EwfReader.PagesFrom, Nat.sub_zero, h.len_eq, List.forall₂_iff_get]
    refine ⟨by rw [List.length_range', List.length_ofFn], fun j hj hj' => ?_⟩
    rw [List.length_range'] at hj
    have hj0 : (List.range' 0 blocks.length).get ⟨j, by rwa [List.length_range']⟩ = j := by
      rw [List.get_eq_getElem, List.getElem_range', Nat.one_mul, Nat.zero_add]
    rw [hj0, hrest ⟨j, hj⟩, List.get_eq_getElem, List.getElem_ofFn]
  · rw [h.totalSize_eq]
    refine (h.cut.take_flatten_of_padded ?_).symm
    rw [List.forall₂_iff_get]
    refine ⟨List.length_ofFn.symm, fun j hj hj' => ⟨rest ⟨j, hj⟩, ?_, ?_⟩⟩
    · rw [List.get_eq_getElem, List.get_eq_getElem, List.getElem_ofFn]
      rfl
    · rw [List.get_eq_getElem, List.getElem_ofFn]
      exact r.length_page (hrest ⟨j, hj⟩)

/-- The bytes that the chunks can hold cover the media, and are less than a chunk more. -/
theorem EwfReader.Stores.addressable (h : r.Stores C blocks) :
    r.totalSize ≤ r.chunkSize * r.chunks.len ∧
      r.chunkSize * r.chunks.len ≤ r.totalSize + r.chunkSize := by
  rw [h.totalSize_eq, h.len_eq, Nat.mul_comm]
  refine ⟨h.cut.length_flatten_le h.chunkSize_pos, ?_⟩
  by_cases hzero : blocks.length = 0
  · rw [hzero, Nat.zero_mul]
    exact Nat.zero_le _
  · have hlast := (h.cut.mul_lt_length h.chunkSize_pos (blocks.length - 1)).mpr (by omega)
    have hsplit : (blocks.length - 1 + 1) * r.chunkSize =
        (blocks.length - 1) * r.chunkSize + r.chunkSize := Nat.succ_mul _ _
    rw [Nat.sub_add_cancel (Nat.pos_of_ne_zero hzero)] at hsplit
    omega

/-- **Verification of a media** reaches all of it and digests it, whatever the number of threads. -/
theorem EwfReader.Stores.verify_eq (h : r.Stores C blocks)
    (hroom : r.totalSize + r.chunkSize ≤ u64Max) (threads : ℕ) :
    ∃ v, r.verify C threads = .ok v ∧ v.isComplete = true ∧ v.missingBytes = 0 ∧
      v.computedMd5 = C.md5 blocks.flatten ∧
      v.md5Match = (r.storedMd5.map fun stored => decide (stored = C.md5 blocks.flatten)) ∧
      v.computedSha1 = (r.storedSha1.map fun _ => C.sha1 blocks.flatten) ∧
      v.sha1Match = (r.storedSha1.map fun stored => decide (stored = C.sha1 blocks.flatten)) := by
  obtain ⟨hle, hgt⟩ := h.addressable
  have hmod : r.chunkSize * r.chunks.len % 18446744073709551616 = r.chunkSize * r.chunks.len :=
    Nat.mod_eq_of_lt (Nat.lt_succ_of_le (hgt.trans hroom))
  refine ⟨_, by rw [EwfReader.verify, h.verifyStream_eq threads], ?_, ?_, rfl, rfl, rfl, rfl⟩
  · simp only [VerifyResult.isComplete, hmod, ge_iff_le, hle, decide_true]
  · simp only [VerifyResult.missingBytes, hmod]
    omega

end Stores

end EwfForensic

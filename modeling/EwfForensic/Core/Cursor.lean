import EwfForensic.Core.Geometry
import EwfForensic.Lib.Cursor

/-!
# The Reader as a Cursor

`Read` and `Seek` for `EwfReader`. A seek takes its target as a signed sum, while positions and
media sizes are unsigned.

* `EwfReader.cursor` — the reader as positioned reads with a cursor.
* `Opened.totalSize_le` — the media size of an opened reader is an unsigned 64-bit number.
* `cursor_exact_iff` — from any state that reads lead to, a run is that of the exact cursor
  if and only if every seek of it keeps below `2 ^ 63`.
-/

namespace EwfForensic

open Octets Cursor

/-- `Read` and `Seek` for `EwfReader`. -/
def EwfReader.cursor (C : Crates) (r : EwfReader) : PositionedRead ReaderState EwfError where
  len := r.totalSize
  readAt st off n := r.readAt C st off n

/-- The readers that an open returns. -/
inductive Opened (C : Crates) (r : EwfReader) : Prop where
  | v1 {sources : List Segment} {cacheSize : ℕ} {lazySectionCache : Option ℕ}
      (h : openV1 C sources cacheSize lazySectionCache = .ok r)
  | v2 {sources : List Segment} {cacheSize : ℕ} (h : openSegmentsV2 C sources cacheSize = .ok r)

variable {C : Crates} {r : EwfReader}

/-! ### The media size -/

/-- The media size of a volume that is read is an unsigned 64-bit number. -/
theorem Declares.size_le {isLazy : Bool} {m : DeclaredMedia} {st : OpenState}
    (h : Declares isLazy m st) : m.size ≤ u64Max := by
  rw [DeclaredMedia.size]
  cases hlast : m.volumes.getLast? with
  | none => exact Nat.zero_le _
  | some v =>
      obtain ⟨hmax, hcount⟩ := h.volumes_le v (List.mem_of_getLast? hlast)
      change v.mediaSize ≤ u64Max
      rw [EwfVolume.mediaSize]
      split_ifs
      · calc v.chunkSize * v.chunkCount
            ≤ maxChunkSize * 256 ^ 4 := Nat.mul_le_mul hmax hcount.le
          _ ≤ u64Max := by decide
      · exact Nat.min_le_right _ _

theorem wrappingMul_le (a b : ℕ) : wrappingMul a b ≤ u64Max :=
  Nat.le_of_lt_succ (Nat.mod_lt _ (by decide))

/-- The media size that geometries set is an unsigned 64-bit number. -/
theorem foldl_note_le (gs : List Ewf2Geometry) {sizes : ℕ × ℕ} (h : sizes.2 ≤ u64Max) :
    (gs.foldl Ewf2Geometry.note sizes).2 ≤ u64Max := by
  induction gs generalizing sizes with
  | nil => exact h
  | cons g gs ih =>
      refine ih ?_
      rw [Ewf2Geometry.note, Ewf2Geometry.apply]
      split_ifs <;> first | exact h | exact wrappingMul_le _ _

/-- **The media size of an opened reader** is an unsigned 64-bit number. -/
theorem Opened.totalSize_le (h : Opened C r) : r.totalSize ≤ u64Max := by
  cases h with
  | v1 h =>
      obtain ⟨st, hdecl, -, -, -, htotal⟩ := openV1_declares h
      have hle : st.totalSize ≤ u64Max := hdecl.totalSize ▸ hdecl.size_le
      rw [htotal, mediaSizeFor.eq_def]
      split
      · exact Nat.min_le_right _ _
      · split_ifs
        · exact Nat.min_le_right _ _
        · exact hle
  | v2 h =>
      obtain ⟨st, hst, hr, -, -⟩ := openSegmentsV2_ok h
      have hle : st.totalSize ≤ u64Max := by
        have hsizes := congrArg Prod.snd (geometry_segments hst)
        exact (le_of_eq hsizes).trans (foldl_note_le _ (Nat.zero_le _))
      have htotal : r.totalSize = if st.totalSize = 0 then
          wrappingMul st.chunks.length
            (if st.chunkSize = 0 then defaultV2ChunkSize else st.chunkSize)
          else st.totalSize := congrArg EwfReader.totalSize hr
      rw [htotal]
      by_cases h0 : st.totalSize = 0
      · rw [if_pos h0]
        exact wrappingMul_le _ _
      · rw [if_neg h0]
        exact hle

theorem Opened.chunkSize_pos (h : Opened C r) : 0 < r.chunkSize := by
  cases h with
  | v1 h => exact chunkSize_pos_of_open h
  | v2 h =>
      obtain ⟨st, -, hr, -, -⟩ := openSegmentsV2_ok h
      rw [hr]
      change 0 < if st.chunkSize = 0 then defaultV2ChunkSize else st.chunkSize
      split_ifs with h0
      · decide
      · exact Nat.pos_of_ne_zero h0

/-! ### The cursor -/

/-- From any state that reads lead to, the reader serves the reads without caches. -/
theorem Opened.serves (h : Opened C r) :
    (r.cursor C).Serves (r.Reachable C) (r.read C) where
  len_lt := Nat.lt_succ_of_le h.totalSize_le
  readAt_eq st hst off n := hst.readAt_eq off n
  next st hst off n := hst.read off n
  length_le off n out hread := by
    rw [((EwfReader.pureLoop_eq_ok_iff h.chunkSize_pos (Nat.lt_succ_self n)).mp hread).1]
    exact Nat.min_le_right _ _

/-- **The reader's cursor is exact** if and only if the run keeps its seeks below `2 ^ 63`: those
from the start go there, and those from the position or the end start and end there. Then each
seek answers its exact target, no sum overflows, and each read is `read_at` at the position. -/
theorem cursor_exact_iff (C : Crates) (r : EwfReader) (hopen : Opened C r) (st : ReaderState)
    (hst : r.Reachable C st) (position : UInt64) (ops : List Op) :
    (r.cursor C).run st position.toNat ops = exactRun r.totalSize (r.read C) position.toNat ops ↔
      RunInRange r.totalSize (r.read C) position.toNat ops :=
  PositionedRead.run_eq_exactRun_iff hopen.serves hst position.toNat_lt ops

/-- The reader of a raw image goes to its last bytes and reads them. -/
theorem cursor_exact_iff_rawImage :
    ∃ r, openV1 Crates.reference [rawImage] 1 none = .ok r ∧
      (r.cursor Crates.reference).run r.init 0 [.seek (.fromEnd (-12)), .read 4] =
        exactRun r.totalSize (r.read Crates.reference) 0 [.seek (.fromEnd (-12)), .read 4] := by
  have hval : (openV1 Crates.reference [rawImage] 1 none).toOption.map (·.totalSize) =
      some 512 := by
    decide +kernel
  obtain ⟨r, hr, hsize⟩ := Option.map_eq_some_iff.mp hval
  have hopen := ok_of_toOption_eq_some hr
  refine ⟨r, hopen, (cursor_exact_iff Crates.reference r (.v1 hopen) r.init .init 0 _).mpr ?_⟩
  rw [hsize]
  exact ⟨⟨by decide, by decide⟩, trivial, trivial⟩

/-- A seek to `2 ^ 63` fails, although that is an unsigned 64-bit number. -/
theorem cursor_not_exact :
    ∃ r, openV1 Crates.reference [rawImage] 1 none = .ok r ∧
      (r.cursor Crates.reference).run r.init 0 [.seek (.start 9223372036854775808)] ≠
        exactRun r.totalSize (r.read Crates.reference) 0 [.seek (.start 9223372036854775808)] := by
  have hval : (openV1 Crates.reference [rawImage] 1 none).toOption.map (·.totalSize) =
      some 512 := by
    decide +kernel
  obtain ⟨r, hr, -⟩ := Option.map_eq_some_iff.mp hval
  refine ⟨r, ok_of_toOption_eq_some hr, fun h => ?_⟩
  have hposition := congrArg (List.map Event.position) h
  have hmoved : (0 : ℕ) = 9223372036854775808 := (List.cons.inj hposition).1
  cases hmoved

end EwfForensic

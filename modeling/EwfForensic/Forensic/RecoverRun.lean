import Mathlib.Algebra.Order.Floor.Div
import EwfForensic.Forensic.LocateChunk
import EwfForensic.Lib.Blocks
import EwfForensic.Image.RoundTrip

/-!
# The Accounts of a Recovery

The main loop of `recover_segments` as the source writes it, over its eight accumulators, and
what they add up to.

* `LoopState.step`, `LoopState.run`, `LoopState.fillTail` — the loop, its early break and the
  zero-fill behind it; `recoverToFile` — the whole function with its output file.
* `recoverToFile_eq` — the accumulators hold what `recoverSegments` computes from the list of
  chunk outcomes.
* `recoverLoop_eq_map` — the outcome of a chunk depends on nothing but its index.
* `recovery_accounts` — the output and the report account for every byte and chunk of the image.
-/

namespace EwfForensic.Recover

open Octets Image

/-! ### The loop over accumulators -/

/-- The variables of the main loop. -/
structure LoopState where
  out : List UInt8 := []
  bytesRemaining : ℕ
  recoveredPrimary : ℕ := 0
  recoveredTable2 : ℕ := 0
  zeroFilled : ℕ := 0
  crcFlagged : ℕ := 0
  bytesRecovered : ℕ := 0
  bytesZeroFilled : ℕ := 0
  lostChunks : List ℕ := []
  crcFlaggedChunks : List ℕ := []

/-- Trim or pad decoded bytes to the logical length of their chunk. -/
def trimPad (logical : ℕ) (bytes : List UInt8) : List UInt8 :=
  if bytes.length > logical then bytes.take logical
  else if bytes.length < logical then bytes ++ List.replicate (logical - bytes.length) 0
  else bytes

/-- One turn of the main loop for chunk `idx`, with bytes remaining. -/
def LoopState.step (C : Crates) (segs : List SegmentTables) (chunkSize idx : ℕ) (st : LoopState) :
    LoopState :=
  let logical := min st.bytesRemaining chunkSize
  match decodeGlobal C segs chunkSize idx with
  | some d =>
    { st with
      out := st.out ++ trimPad logical d.bytes
      bytesRecovered := satAdd st.bytesRecovered logical
      recoveredTable2 := if d.viaTable2 then satAdd st.recoveredTable2 1 else st.recoveredTable2
      recoveredPrimary :=
        if d.viaTable2 then st.recoveredPrimary else satAdd st.recoveredPrimary 1
      crcFlagged := if d.crcOk then st.crcFlagged else satAdd st.crcFlagged 1
      crcFlaggedChunks :=
        if d.crcOk then st.crcFlaggedChunks else st.crcFlaggedChunks ++ [idx]
      bytesRemaining := st.bytesRemaining - logical }
  | none =>
    { st with
      out := st.out ++ List.replicate logical 0
      zeroFilled := satAdd st.zeroFilled 1
      bytesZeroFilled := satAdd st.bytesZeroFilled logical
      lostChunks := st.lostChunks ++ [idx]
      bytesRemaining := st.bytesRemaining - logical }

/-- The main loop, from chunk `idx` with `k` chunks to go; it breaks when no bytes remain. -/
def LoopState.run (C : Crates) (segs : List SegmentTables) (chunkSize : ℕ) :
    ℕ → ℕ → LoopState → LoopState
  | 0, _, st => st
  | k + 1, idx, st =>
    if st.bytesRemaining = 0 then st
    else LoopState.run C segs chunkSize k (idx + 1) (st.step C segs chunkSize idx)

/-- The zero-fill behind the main loop. Every turn writes at least one byte, so a fuel of one
more than the bytes remaining is never used up. -/
def LoopState.fillTail (chunkSize : ℕ) : ℕ → LoopState → LoopState
  | 0, st => st
  | fuel + 1, st =>
    if st.bytesRemaining = 0 then st
    else
      let logical := min st.bytesRemaining chunkSize
      LoopState.fillTail chunkSize fuel
        { st with
          out := st.out ++ List.replicate logical 0
          bytesZeroFilled := satAdd st.bytesZeroFilled logical
          bytesRemaining := st.bytesRemaining - logical }

/-- The largest file: offsets are signed 64-bit numbers, and a write past them fails. -/
def maxFileSize : ℕ := 9223372036854775807

/-- `recover_segments`: the report and the output file, where the recovery returns `Ok`. -/
def recoverToFile (C : Crates) (segments : List (List UInt8)) :
    Option (RecoveryReport × List UInt8) :=
  match bootstrap segments with
  | .error _ => none
  | .ok geom =>
    let segs := segments.map SegmentTables.ofBytes
    let st := LoopState.run C segs geom.chunkSize geom.chunkCount 0
      { bytesRemaining := geom.imageSize }
    let st := st.fillTail geom.chunkSize (st.bytesRemaining + 1)
    if st.out.length > maxFileSize then none
    else
      some
        ({ imageSize := geom.imageSize
           chunkSize := geom.chunkSize
           chunksTotal := geom.chunkCount
           chunksRecoveredPrimary := st.recoveredPrimary
           chunksRecoveredTable2 := st.recoveredTable2
           chunksZeroFilled := st.zeroFilled
           chunksCrcFlagged := st.crcFlagged
           bytesRecovered := st.bytesRecovered
           bytesZeroFilled := st.bytesZeroFilled
           truncationOffset := segments.findSome? walkTruncation
           lostChunks := st.lostChunks
           crcFlaggedChunks := st.crcFlaggedChunks }, st.out)

/-- The same with the tables of the segments read by `tables`. -/
def recoverToFileWith (C : Crates) (tables : List UInt8 → SegmentTables)
    (segments : List (List UInt8)) : Option (RecoveryReport × List UInt8) :=
  match bootstrap segments with
  | .error _ => none
  | .ok geom =>
    let segs := segments.map tables
    let st := LoopState.run C segs geom.chunkSize geom.chunkCount 0
      { bytesRemaining := geom.imageSize }
    let st := st.fillTail geom.chunkSize (st.bytesRemaining + 1)
    if st.out.length > maxFileSize then none
    else
      some
        ({ imageSize := geom.imageSize
           chunkSize := geom.chunkSize
           chunksTotal := geom.chunkCount
           chunksRecoveredPrimary := st.recoveredPrimary
           chunksRecoveredTable2 := st.recoveredTable2
           chunksZeroFilled := st.zeroFilled
           chunksCrcFlagged := st.crcFlagged
           bytesRecovered := st.bytesRecovered
           bytesZeroFilled := st.bytesZeroFilled
           truncationOffset := segments.findSome? walkTruncation
           lostChunks := st.lostChunks
           crcFlaggedChunks := st.crcFlaggedChunks }, st.out)

theorem recoverToFile_eq_with (C : Crates) (segments : List (List UInt8)) :
    recoverToFile C segments = recoverToFileWith C SegmentTables.ofBytes segments := rfl

/-! ### The accumulators as sums -/

theorem logicalBytes_append (a b : List RecoveredChunk) :
    logicalBytes (a ++ b) = logicalBytes a + logicalBytes b := by
  simp [logicalBytes]

/-- Writing a chunk writes its logical length. -/
theorem RecoveredChunk.length_written (r : RecoveredChunk) : r.written.length = r.logical := by
  rw [RecoveredChunk.written]
  cases r.decoded with
  | none => simp
  | some d =>
      simp only [List.length_append, List.length_take, List.length_replicate]
      omega

theorem length_flatMap_written (run : List RecoveredChunk) :
    (run.flatMap (·.written)).length = logicalBytes run := by
  simp only [List.length_flatMap, RecoveredChunk.length_written]
  rfl

theorem trimPad_eq (logical : ℕ) (bytes : List UInt8) :
    trimPad logical bytes =
      bytes.take logical ++ List.replicate (logical - bytes.length) 0 := by
  rw [trimPad]
  split_ifs with h1 h2
  · rw [show logical - bytes.length = 0 by omega, List.replicate_zero, List.append_nil]
  · rw [List.take_of_length_le (by omega)]
  · rw [List.take_of_length_le (by omega), show logical - bytes.length = 0 by omega,
      List.replicate_zero, List.append_nil]

/-- The variables after the turns whose outcomes are `run`, without saturation. -/
def LoopState.extend (st : LoopState) (run : List RecoveredChunk) : LoopState where
  out := st.out ++ run.flatMap (·.written)
  bytesRemaining := st.bytesRemaining - logicalBytes run
  recoveredPrimary := st.recoveredPrimary + run.countP fun r => r.decoded.any fun d => ¬ d.viaTable2
  recoveredTable2 := st.recoveredTable2 + run.countP fun r => r.decoded.any fun d => d.viaTable2
  zeroFilled := st.zeroFilled + run.countP (·.isLost)
  crcFlagged := st.crcFlagged + run.countP (·.isFlagged)
  bytesRecovered := st.bytesRecovered + logicalBytes (run.filter fun r => ¬ r.isLost)
  bytesZeroFilled := st.bytesZeroFilled + logicalBytes (run.filter (·.isLost))
  lostChunks := st.lostChunks ++ (run.filter (·.isLost)).map (·.idx)
  crcFlaggedChunks := st.crcFlaggedChunks ++ (run.filter (·.isFlagged)).map (·.idx)

theorem LoopState.extend_nil (st : LoopState) : st.extend [] = st := by
  simp [LoopState.extend, logicalBytes]

theorem LoopState.extend_append (st : LoopState) (a b : List RecoveredChunk) :
    (st.extend a).extend b = st.extend (a ++ b) := by
  simp only [LoopState.extend, List.flatMap_append, List.append_assoc, logicalBytes_append,
    List.countP_append, List.filter_append, List.map_append, Nat.sub_sub, Nat.add_assoc]

/-- The variables leave room for `k` more turns and the bytes that remain. -/
structure LoopState.Room (st : LoopState) (k : ℕ) : Prop where
  primary : st.recoveredPrimary + k ≤ u64Max
  table2 : st.recoveredTable2 + k ≤ u64Max
  zeroFilled : st.zeroFilled + k ≤ u64Max
  crcFlagged : st.crcFlagged + k ≤ u64Max
  recovered : st.bytesRecovered + st.bytesRemaining ≤ u64Max
  filled : st.bytesZeroFilled + st.bytesRemaining ≤ u64Max

/-- **One turn** extends the variables by the chunk's outcome, and uses up its share of the
room. -/
theorem LoopState.step_eq (C : Crates) (segs : List SegmentTables) (chunkSize idx : ℕ)
    {st : LoopState} {k : ℕ} (h : st.Room (k + 1)) :
    st.step C segs chunkSize idx =
        st.extend [⟨idx, min st.bytesRemaining chunkSize, decodeGlobal C segs chunkSize idx⟩] ∧
      (st.step C segs chunkSize idx).Room k := by
  obtain ⟨h1, h2, h3, h4, h5, h6⟩ := h
  have hle := Nat.min_le_left st.bytesRemaining chunkSize
  have hone : ∀ n, n + (k + 1) ≤ u64Max → satAdd n 1 = n + 1 := fun n hn => satAdd_eq (by omega)
  have hlog1 := @satAdd_eq st.bytesRecovered (min st.bytesRemaining chunkSize) (by omega)
  have hlog2 := @satAdd_eq st.bytesZeroFilled (min st.bytesRemaining chunkSize) (by omega)
  rw [LoopState.step]
  cases hd : decodeGlobal C segs chunkSize idx with
  | none =>
      refine ⟨?_, ?_⟩
      · simp [LoopState.extend, logicalBytes, RecoveredChunk.written, RecoveredChunk.isLost,
          RecoveredChunk.isFlagged, hone _ h3, hlog2]
      · constructor <;> simp only [hone _ h3, hlog2] <;> omega
  | some d =>
      refine ⟨?_, ?_⟩
      · rcases d with ⟨bytes, via, ok⟩
        cases via <;> cases ok <;>
          simp [LoopState.extend, logicalBytes, RecoveredChunk.written, RecoveredChunk.isLost,
            RecoveredChunk.isFlagged, hone _ h1, hone _ h2, hone _ h4, hlog1, trimPad_eq]
      · rcases d with ⟨bytes, via, ok⟩
        cases via <;> cases ok <;> constructor <;>
          simp only [hone _ h1, hone _ h2, hone _ h4, hlog1, if_true, if_false,
            Bool.false_eq_true] <;> omega

/-- **The whole loop** extends the variables by the outcomes of its chunks. -/
theorem LoopState.run_eq (C : Crates) (segs : List SegmentTables) (chunkSize k idx : ℕ)
    {st : LoopState} (h : st.Room k) :
    st.run C segs chunkSize k idx =
      st.extend (recoverLoop C segs chunkSize k idx st.bytesRemaining) := by
  induction k generalizing idx st with
  | zero => rw [LoopState.run, recoverLoop, LoopState.extend_nil]
  | succ k ih =>
      rw [LoopState.run, recoverLoop]
      by_cases h0 : st.bytesRemaining = 0
      · rw [if_pos h0, if_pos h0, LoopState.extend_nil]
      · obtain ⟨hstep, hroom⟩ := LoopState.step_eq C segs chunkSize idx h
        rw [if_neg h0, if_neg h0, ih (idx + 1) hroom, hstep, LoopState.extend_append]
        simp [LoopState.extend, logicalBytes]

/-- **The zero-fill** writes the bytes that remain. -/
theorem LoopState.fillTail_eq {chunkSize : ℕ} (hcs : 0 < chunkSize) {fuel : ℕ} {st : LoopState}
    (hfuel : st.bytesRemaining < fuel)
    (hroom : st.bytesZeroFilled + st.bytesRemaining ≤ u64Max) :
    st.fillTail chunkSize fuel =
      { st with
        out := st.out ++ List.replicate st.bytesRemaining 0
        bytesZeroFilled := st.bytesZeroFilled + st.bytesRemaining
        bytesRemaining := 0 } := by
  induction fuel generalizing st with
  | zero => omega
  | succ fuel ih =>
      rw [LoopState.fillTail]
      by_cases h0 : st.bytesRemaining = 0
      · rw [if_pos h0]
        obtain ⟨out, rem, _, _, _, _, _, _, _, _⟩ := st
        obtain rfl : rem = 0 := h0
        simp
      · have hle := Nat.min_le_left st.bytesRemaining chunkSize
        have hpos : 0 < min st.bytesRemaining chunkSize := by omega
        have hadd : satAdd st.bytesZeroFilled (min st.bytesRemaining chunkSize) =
            st.bytesZeroFilled + min st.bytesRemaining chunkSize := satAdd_eq (by omega)
        rw [if_neg h0]
        simp only [hadd]
        rw [ih (by simp only; omega) (by simp only; omega)]
        simp only [List.append_assoc, List.replicate_append_replicate, Nat.add_assoc]
        rw [show min st.bytesRemaining chunkSize +
          (st.bytesRemaining - min st.bytesRemaining chunkSize) = st.bytesRemaining by omega]

theorem Geometry.imageSize_le (geom : Geometry) : geom.imageSize ≤ u64Max := by
  rw [Geometry.imageSize, satMul]
  exact Nat.min_le_right _ _

/-! ### The outcomes as a function of the chunk index -/

/-- The number of bytes chunk `i` backs. -/
def Geometry.logicalAt (geom : Geometry) (i : ℕ) : ℕ :=
  min (geom.imageSize - i * geom.chunkSize) geom.chunkSize

/-- The number of chunks the image size asks for. -/
def Geometry.chunksNeeded (geom : Geometry) : ℕ := geom.imageSize ⌈/⌉ geom.chunkSize

/-- The outcome of chunk `i`: it depends on nothing but the index. A chunk beyond the declared
count is never decoded. -/
def outcomeAt (C : Crates) (segs : List SegmentTables) (geom : Geometry) (i : ℕ) :
    RecoveredChunk :=
  ⟨i, geom.logicalAt i,
    if i < geom.chunkCount then decodeGlobal C segs geom.chunkSize i else none⟩

theorem Geometry.lt_chunksNeeded {geom : Geometry} (hcs : 0 < geom.chunkSize) {i : ℕ} :
    i < geom.chunksNeeded ↔ i * geom.chunkSize < geom.imageSize := by
  rw [Geometry.chunksNeeded, ← not_le, ceilDiv_le_iff_le_smul hcs, not_le, smul_eq_mul,
    Nat.mul_comm]

/-- **The main loop as a map.** Each turn's outcome is that of its index. -/
theorem recoverLoop_eq_map (C : Crates) (segs : List SegmentTables) {geom : Geometry}
    (hcs : 0 < geom.chunkSize) {k idx : ℕ} (hk : idx + k = geom.chunkCount) :
    recoverLoop C segs geom.chunkSize k idx (geom.imageSize - idx * geom.chunkSize) =
      (List.range' idx (min k (geom.chunksNeeded - idx))).map (outcomeAt C segs geom) := by
  induction k generalizing idx with
  | zero => rw [Nat.zero_min]; rfl
  | succ k ih =>
      rw [recoverLoop]
      have hlt := @Geometry.lt_chunksNeeded geom hcs idx
      by_cases h0 : geom.imageSize - idx * geom.chunkSize = 0
      · rw [if_pos h0, show geom.chunksNeeded - idx = 0 by omega, Nat.min_zero]
        rfl
      · have hnext : geom.imageSize - idx * geom.chunkSize -
            min (geom.imageSize - idx * geom.chunkSize) geom.chunkSize =
            geom.imageSize - (idx + 1) * geom.chunkSize := by
          rw [Nat.succ_mul]
          omega
        have hmin : min (k + 1) (geom.chunksNeeded - idx) =
            min k (geom.chunksNeeded - (idx + 1)) + 1 := by omega
        rw [if_neg h0]
        simp only [hnext]
        rw [ih (by omega), hmin, List.range'_succ, List.map_cons, outcomeAt,
          if_pos (by omega : idx < geom.chunkCount)]
        rfl

/-- The zero-fill writes the chunks that were never decoded. -/
theorem replicate_eq_flatMap_written {geom : Geometry} (hcs : 0 < geom.chunkSize)
    (C : Crates) (segs : List SegmentTables) {k idx : ℕ} (hk : geom.chunkCount ≤ idx)
    (hend : idx + k = max idx geom.chunksNeeded) :
    List.replicate (geom.imageSize - idx * geom.chunkSize) 0 =
      (List.range' idx k).flatMap fun i => (outcomeAt C segs geom i).written := by
  induction k generalizing idx with
  | zero =>
      have hlt := @Geometry.lt_chunksNeeded geom hcs idx
      rw [show geom.imageSize - idx * geom.chunkSize = 0 by omega]
      rfl
  | succ k ih =>
      have hnext : (idx + 1) * geom.chunkSize = idx * geom.chunkSize + geom.chunkSize :=
        Nat.succ_mul ..
      rw [List.range'_succ, List.flatMap_cons, ← ih (by omega) (by omega), outcomeAt,
        if_neg (by omega), RecoveredChunk.written]
      simp only
      rw [List.replicate_append_replicate, Geometry.logicalAt]
      congr 1
      omega

/-! ### The whole recovery -/

theorem readGeometry_chunkCount_le {data : List UInt8} {sections : List Section}
    {geom : Geometry} (h : readGeometry data sections = some geom) :
    geom.chunkCount ≤ u32Max := by
  rw [readGeometry] at h
  cases hv : findVolume sections with
  | none => simp [hv] at h
  | some vol =>
      rw [hv] at h
      simp only at h
      split at h
      · cases h
      · rename_i body _
        cases hp : EwfVolume.parse body with
        | error e => simp [hp] at h
        | ok parsed =>
            rw [hp] at h
            simp only at h
            split_ifs at h
            obtain rfl := Option.some.inj h
            rw [EwfVolume.parse] at hp
            split_ifs at hp
            obtain rfl : EwfVolume.ofBytes body = parsed := by injection hp
            exact Nat.le_of_lt_succ (leU32_lt body 4)

theorem bootstrap_ok {segments : List (List UInt8)} {geom : Geometry}
    (h : bootstrap segments = .ok geom) :
    0 < geom.chunkSize ∧ geom.chunkSize ≤ maxChunkSize ∧ geom.chunkCount ≤ u32Max := by
  unfold bootstrap at h
  simp only at h
  split_ifs at h with h1
  cases hg : readGeometry (segments.headD []) (walkSections (segments.headD [])) with
  | none =>
      rw [hg] at h
      cases h
  | some g =>
      rw [hg] at h
      simp only at h
      split_ifs at h with h2
      obtain rfl : g = geom := by simpa using h
      exact ⟨by omega, by omega, readGeometry_chunkCount_le hg⟩

section Outcomes

variable {C : Crates} {segs : List SegmentTables} {geom : Geometry}

/-- The whole main loop, as the list of its outcomes. -/
theorem recoverLoop_eq_outcomes (hcs : 0 < geom.chunkSize) :
    recoverLoop C segs geom.chunkSize geom.chunkCount 0 geom.imageSize =
      (List.range' 0 (min geom.chunkCount geom.chunksNeeded)).map (outcomeAt C segs geom) := by
  have h := recoverLoop_eq_map C segs hcs
    (show 0 + geom.chunkCount = geom.chunkCount from Nat.zero_add _)
  rwa [Nat.zero_mul, Nat.sub_zero, Nat.sub_zero] at h

/-- The pieces of the output, one for each chunk the image size asks for. -/
def outcomePieces (C : Crates) (segs : List SegmentTables) (geom : Geometry) : List (List UInt8) :=
  (List.range' 0 geom.chunksNeeded).map fun i => (outcomeAt C segs geom i).written

theorem getElem?_outcomePieces {i : ℕ} (hi : i < geom.chunksNeeded) :
    (outcomePieces C segs geom)[i]? = some (outcomeAt C segs geom i).written := by
  simp [outcomePieces, hi]

theorem blocks_outcomePieces (hcs : 0 < geom.chunkSize) :
    Blocks geom.chunkSize (outcomePieces C segs geom) := by
  refine @Blocks.of_getElem?_length _ _ _ geom.imageSize (fun i b hb => ?_) hcs
  have hi : i < geom.chunksNeeded := by
    have := (List.getElem?_eq_some_iff.mp hb).1
    simpa [outcomePieces] using this
  rw [getElem?_outcomePieces hi] at hb
  obtain rfl := Option.some.inj hb
  exact ⟨(Geometry.lt_chunksNeeded hcs).mp hi, RecoveredChunk.length_written _⟩

/-- The pieces make up the image. -/
theorem length_outcomePieces (hcs : 0 < geom.chunkSize) :
    (outcomePieces C segs geom).flatten.length = geom.imageSize := by
  have hb := @blocks_outcomePieces C segs geom hcs
  have hlen : (outcomePieces C segs geom).length = geom.chunksNeeded := by simp [outcomePieces]
  have hlast := hb.mul_lt_length hcs (geom.chunksNeeded - 1)
  have hneed := @Geometry.lt_chunksNeeded geom hcs (geom.chunksNeeded - 1)
  by_cases h0 : geom.chunksNeeded = 0
  · have hz := @Geometry.lt_chunksNeeded geom hcs 0
    rw [h0, Nat.zero_mul] at hz
    rw [List.eq_nil_of_length_eq_zero (hlen.trans h0)]
    rw [List.flatten_nil, List.length_nil]
    omega
  · -- The last piece ends where the image ends.
    have hi : geom.chunksNeeded - 1 < geom.chunksNeeded := by omega
    have hpiece := hb.getElem?_length (@getElem?_outcomePieces C segs geom _ hi)
    rw [RecoveredChunk.length_written] at hpiece
    have hend := @Geometry.lt_chunksNeeded geom hcs geom.chunksNeeded
    have hmul : geom.chunksNeeded * geom.chunkSize =
        (geom.chunksNeeded - 1) * geom.chunkSize + geom.chunkSize := by
      rw [← Nat.succ_mul]
      congr 1
      omega
    have hle := hb.length_flatten_le hcs
    rw [hlen] at hle
    rw [hlen] at hlast
    have hlog : (outcomeAt C segs geom (geom.chunksNeeded - 1)).logical =
        geom.logicalAt (geom.chunksNeeded - 1) := rfl
    rw [hlog, Geometry.logicalAt] at hpiece
    omega

/-- **The output.** The main loop and the zero-fill write the pieces. -/
theorem written_eq_outcomePieces (hcs : 0 < geom.chunkSize) {run : List RecoveredChunk}
    (hrun : recoverLoop C segs geom.chunkSize geom.chunkCount 0 geom.imageSize = run) :
    run.flatMap (·.written) ++ List.replicate (geom.imageSize - logicalBytes run) 0 =
      (outcomePieces C segs geom).flatten := by
  have hmap := (recoverLoop_eq_outcomes hcs).symm.trans hrun
  have hsplit : (outcomePieces C segs geom).flatten = run.flatMap (·.written) ++
      List.replicate (geom.imageSize -
        min geom.chunkCount geom.chunksNeeded * geom.chunkSize) 0 := by
    have hrange : List.range' 0 geom.chunksNeeded =
        List.range' 0 (min geom.chunkCount geom.chunksNeeded) ++
          List.range' (min geom.chunkCount geom.chunksNeeded)
            (geom.chunksNeeded - min geom.chunkCount geom.chunksNeeded) := by
      have := @List.range'_append_1 0 (min geom.chunkCount geom.chunksNeeded)
        (geom.chunksNeeded - min geom.chunkCount geom.chunksNeeded)
      rw [Nat.zero_add] at this
      rw [this]
      congr 1
      omega
    rw [outcomePieces, hrange, List.map_append, List.flatten_append, ← hmap,
      List.flatMap_map, ← List.flatMap_def, ← List.flatMap_def]
    congr 1
    by_cases hle : geom.chunksNeeded ≤ geom.chunkCount
    · have hend := @Geometry.lt_chunksNeeded geom hcs geom.chunksNeeded
      rw [min_eq_right hle, Nat.sub_self, show geom.imageSize -
        geom.chunksNeeded * geom.chunkSize = 0 by omega]
      rfl
    · have hend : geom.chunkCount + (geom.chunksNeeded - geom.chunkCount) =
          max geom.chunkCount geom.chunksNeeded := by omega
      rw [min_eq_left (by omega), replicate_eq_flatMap_written hcs C _ le_rfl hend]
  have hlen := congrArg List.length hsplit
  rw [length_outcomePieces hcs, List.length_append, length_flatMap_written,
    List.length_replicate] at hlen
  rw [hsplit]
  congr 2
  omega

end Outcomes

/-- The main loop of a recovery, as the list of its outcomes. -/
theorem recoverRun_eq_map (C : Crates) (segments : List (List UInt8)) {geom : Geometry}
    (hcs : 0 < geom.chunkSize) :
    recoverRun C segments geom =
      (List.range' 0 (min geom.chunkCount geom.chunksNeeded)).map
        (outcomeAt C (segments.map SegmentTables.ofBytes) geom) :=
  recoverLoop_eq_outcomes hcs

/-- The pieces of the output, one for each chunk the image size asks for. -/
def pieces (C : Crates) (segments : List (List UInt8)) (geom : Geometry) : List (List UInt8) :=
  (List.range' 0 geom.chunksNeeded).map fun i =>
    (outcomeAt C (segments.map SegmentTables.ofBytes) geom i).written

theorem getElem?_pieces {C : Crates} {segments : List (List UInt8)} {geom : Geometry} {i : ℕ}
    (hi : i < geom.chunksNeeded) :
    (pieces C segments geom)[i]? =
      some (outcomeAt C (segments.map SegmentTables.ofBytes) geom i).written :=
  getElem?_outcomePieces hi

theorem blocks_pieces {C : Crates} {segments : List (List UInt8)} {geom : Geometry}
    (hcs : 0 < geom.chunkSize) : Blocks geom.chunkSize (pieces C segments geom) :=
  blocks_outcomePieces hcs

/-- The pieces make up the image. -/
theorem length_pieces {C : Crates} {segments : List (List UInt8)} {geom : Geometry}
    (hcs : 0 < geom.chunkSize) : (pieces C segments geom).flatten.length = geom.imageSize :=
  length_outcomePieces hcs

/-- **The output.** The main loop and the zero-fill write the pieces. -/
theorem written_eq_pieces (C : Crates) (segments : List (List UInt8)) {geom : Geometry}
    (hcs : 0 < geom.chunkSize) :
    (recoverRun C segments geom).flatMap (·.written) ++
        List.replicate (geom.imageSize - logicalBytes (recoverRun C segments geom)) 0 =
      (pieces C segments geom).flatten :=
  written_eq_outcomePieces hcs rfl

theorem logicalBytes_filter (p : RecoveredChunk → Bool) (run : List RecoveredChunk) :
    logicalBytes (run.filter p) + logicalBytes (run.filter fun r => ¬ p r) = logicalBytes run := by
  induction run with
  | nil => rfl
  | cons r run ih =>
      by_cases hp : p r <;> simp [logicalBytes, hp] at ih ⊢ <;> omega

/-- **The accumulators hold what the outcomes say**, whatever the tables. -/
theorem recoverToFileWith_of_bootstrap (C : Crates) (tables : List UInt8 → SegmentTables)
    {segments : List (List UInt8)} {geom : Geometry} (hb : bootstrap segments = .ok geom)
    {run : List RecoveredChunk}
    (hloop : recoverLoop C (segments.map tables) geom.chunkSize geom.chunkCount 0 geom.imageSize =
      run) :
    recoverToFileWith C tables segments =
      if geom.imageSize > maxFileSize then none
      else some (reportOf geom.imageSize geom.chunkSize geom.chunkCount
        (geom.imageSize - logicalBytes run) (segments.findSome? walkTruncation) run,
        (outcomePieces C (segments.map tables) geom).flatten) := by
  obtain ⟨hcs, -, hcount⟩ := bootstrap_ok hb
  have hsize := geom.imageSize_le
  have hroom : LoopState.Room { bytesRemaining := geom.imageSize } geom.chunkCount := by
    rw [u32Max] at hcount
    constructor <;> simp only [Nat.zero_add] <;> unfold u64Max at * <;> omega
  have hrun : LoopState.run C (segments.map tables) geom.chunkSize
      geom.chunkCount 0 { bytesRemaining := geom.imageSize } =
      LoopState.extend { bytesRemaining := geom.imageSize } run := by
    rw [← hloop]
    exact LoopState.run_eq C _ geom.chunkSize geom.chunkCount 0 hroom
  have hfilter := logicalBytes_filter (·.isLost) run
  have hout := written_eq_outcomePieces hcs hloop
  have hpieces := @length_outcomePieces C (segments.map tables) geom hcs
  have hlen := congrArg List.length hout
  rw [hpieces, List.length_append, length_flatMap_written, List.length_replicate] at hlen
  rw [recoverToFileWith, hb]
  simp only
  rw [hrun, LoopState.fillTail_eq hcs (Nat.lt_succ_self _)
    (by simp only [LoopState.extend]; omega)]
  simp only [LoopState.extend, List.nil_append, hout, hpieces, reportOf, Nat.zero_add]

/-- **The accumulators hold what the outcomes say.** The function computes what
`recoverSegments` does, and fails where the output would be too long for a file. -/
theorem recoverToFile_of_bootstrap (C : Crates) {segments : List (List UInt8)} {geom : Geometry}
    (hb : bootstrap segments = .ok geom) :
    recoverToFile C segments =
      if geom.imageSize > maxFileSize then none
      else some (reportOf geom.imageSize geom.chunkSize geom.chunkCount
        (geom.imageSize - logicalBytes (recoverRun C segments geom))
        (segments.findSome? walkTruncation) (recoverRun C segments geom),
        (pieces C segments geom).flatten) :=
  recoverToFileWith_of_bootstrap C SegmentTables.ofBytes hb rfl

/-- Where the function returns `Ok`, its report and its output are those of
`recoverSegments`. -/
theorem recoverToFile_eq {C : Crates} {segments : List (List UInt8)}
    {result : RecoveryReport × List UInt8} (h : recoverToFile C segments = some result) :
    recoverSegments C segments = .ok result := by
  cases hb : bootstrap segments with
  | error e =>
      rw [recoverToFile, hb] at h
      cases h
  | ok geom =>
      obtain ⟨hcs, -, -⟩ := bootstrap_ok hb
      rw [recoverToFile_of_bootstrap C hb] at h
      split_ifs at h
      obtain rfl := Option.some.inj h
      rw [recoverSegments, hb]
      simp only [written_eq_pieces C segments hcs]

/-! ### What the segments serve -/

/-- What a segment's tables make of its chunk `loc`. -/
def SegmentTables.decode (C : Crates) (s : SegmentTables) (chunkSize loc : ℕ) : Option Decoded :=
  chooseDecoded (s.decodeFrom C s.primary chunkSize loc) (s.decodeFrom C s.fallback chunkSize loc)

/-- The bytes of a decoded chunk and the verdict on their checksum. -/
def Decoded.result (d : Decoded) : List UInt8 × Bool := (d.bytes, d.crcOk)

/-- With nothing else to choose from, or nothing better, the recovery takes the chunk that the
primary table gives. -/
theorem map_result_chooseDecoded {fromPrimary fromT2 : Option (List UInt8 × Bool)}
    (h : fromT2 = none ∨ fromT2 = fromPrimary ∨ ∃ bytes, fromPrimary = some (bytes, true)) :
    (chooseDecoded fromPrimary fromT2).map Decoded.result = fromPrimary := by
  rcases fromPrimary with _ | ⟨bytes, ok⟩
  · rcases h with rfl | rfl | ⟨_, h⟩
    · rfl
    · rfl
    · cases h
  · cases ok with
    | true => rfl
    | false =>
        rcases h with rfl | rfl | ⟨_, h⟩
        · rfl
        · rfl
        · cases h

theorem map_result_chooseDecoded_none (fromT2 : Option (List UInt8 × Bool)) :
    (chooseDecoded none fromT2).map Decoded.result = fromT2 := by
  rcases fromT2 with _ | ⟨bytes, ok⟩
  · rfl
  · cases ok <;> rfl

/-- A segment serves the chunks of a list: the recovery counts as many, and decodes each to
what the list says. -/
structure Serves (C : Crates) (chunkSize : ℕ) (s : SegmentTables)
    (served : List (Option (List UInt8 × Bool))) : Prop where
  count_eq : s.entryCount = served.length
  decode_eq : ∀ i x, served[i]? = some x → (s.decode C chunkSize i).map Decoded.result = x

/-- **The served chunks in order.** A global chunk is decoded as the lists of the segments, one
after the other, say; behind their end nothing is. -/
theorem decodeGlobal_of_serves {C : Crates} {chunkSize : ℕ} {segs : List SegmentTables}
    {served : List (List (Option (List UInt8 × Bool)))}
    (h : List.Forall₂ (Serves C chunkSize) segs served) {idx : ℕ}
    (hmax : idx < served.flatten.length → idx < u64Max) :
    (decodeGlobal C segs chunkSize idx).map Decoded.result = served.flatten[idx]?.join := by
  have hcounts : segs.map (·.entryCount) = served.map List.length := by
    clear hmax
    induction h with
    | nil => rfl
    | cons hs _ ih => rw [List.map_cons, List.map_cons, hs.count_eq, ih]
  rw [decodeGlobal, hcounts]
  have hlen : (served.map List.length).sum = served.flatten.length := List.length_flatten.symm
  cases hx : served.flatten[idx]? with
  | none =>
      rw [locateChunk_of_sum_le (hlen.trans_le (List.getElem?_eq_none_iff.mp hx))]
      rfl
  | some x =>
      have hidx := (List.getElem?_eq_some_iff.mp hx).1
      obtain ⟨⟨j, l⟩, hp, rfl⟩ := Offsets.exists_place (hlen.symm ▸ hidx)
      rw [Offsets.getElem?_flatten hp] at hx
      obtain ⟨xs, hxs, hl⟩ := Option.bind_eq_some_iff.mp hx
      obtain ⟨hj, rfl⟩ := List.getElem?_eq_some_iff.mp hxs
      have hj' : j < segs.length := h.length_eq ▸ hj
      have hserve : Serves C chunkSize segs[j] served[j] :=
        (List.forall₂_iff_get.mp h).2 j hj' hj
      rw [locateChunk_offset hp (hmax hidx)]
      simp only [List.getElem?_eq_getElem hj']
      exact hserve.decode_eq l x hl

/-- What the recovery makes of a chunk follows from its bytes and their checksum. -/
theorem RecoveredChunk.of_result {r : RecoveredChunk} {bytes : List UInt8} {ok : Bool}
    (h : r.decoded.map Decoded.result = some (bytes, ok)) :
    r.written = bytes.take r.logical ++ List.replicate (r.logical - bytes.length) 0 ∧
      r.isLost = false ∧ r.isFlagged = !ok := by
  obtain ⟨d, hd, hres⟩ := Option.map_eq_some_iff.mp h
  obtain ⟨rfl, rfl⟩ := Prod.mk.inj hres
  refine ⟨by rw [RecoveredChunk.written, hd], by rw [RecoveredChunk.isLost, hd]; rfl, ?_⟩
  rw [RecoveredChunk.isFlagged, hd]
  simp

/-- Two outcomes of one length with the same bytes are written alike. -/
theorem RecoveredChunk.written_congr {r r' : RecoveredChunk} (hlog : r.logical = r'.logical)
    (h : r.decoded.map Decoded.result = r'.decoded.map Decoded.result) :
    r.written = r'.written := by
  cases hd : r'.decoded.map Decoded.result with
  | none =>
      have h1 : r.decoded = none := Option.map_eq_none_iff.mp (h.trans hd)
      have h2 : r'.decoded = none := Option.map_eq_none_iff.mp hd
      rw [RecoveredChunk.written, RecoveredChunk.written, h1, h2, hlog]
  | some x =>
      rw [(RecoveredChunk.of_result (h.trans hd)).1, (RecoveredChunk.of_result hd).1, hlog]

/-! ### The accounts -/

/-- The bytes of the output where chunk `i` belongs. -/
def span (chunkSize : ℕ) (out : List UInt8) (i : ℕ) : List UInt8 :=
  (out.drop (i * chunkSize)).take chunkSize

/-- Every chunk stands at its own place in the output, whatever became of the others. -/
theorem span_outcomePieces {C : Crates} {segs : List SegmentTables} {geom : Geometry}
    (hcs : 0 < geom.chunkSize) {i : ℕ} (hi : i < geom.chunksNeeded) :
    span geom.chunkSize (outcomePieces C segs geom).flatten i =
      (outcomeAt C segs geom i).written :=
  (blocks_outcomePieces hcs).take_drop_flatten (getElem?_outcomePieces hi)

theorem span_pieces {C : Crates} {segments : List (List UInt8)} {geom : Geometry}
    (hcs : 0 < geom.chunkSize) {i : ℕ} (hi : i < geom.chunksNeeded) :
    span geom.chunkSize (pieces C segments geom).flatten i =
      (outcomeAt C (segments.map SegmentTables.ofBytes) geom i).written :=
  span_outcomePieces hcs hi

/-- The number of chunks the tables of all segments describe. -/
def describedChunks (segments : List (List UInt8)) : ℕ :=
  (segments.map fun data => (SegmentTables.ofBytes data).entryCount).sum

/-- A chunk behind the last one that a table describes is not decoded. -/
theorem decodeGlobal_of_described_le (C : Crates) {segments : List (List UInt8)}
    (chunkSize : ℕ) {idx : ℕ} (h : describedChunks segments ≤ idx) :
    decodeGlobal C (segments.map SegmentTables.ofBytes) chunkSize idx = none := by
  rw [decodeGlobal, List.map_map, locateChunk_of_sum_le]
  exact h

/-- What the report and the output of a recovery with geometry `geom` account for. -/
structure Accounts (C : Crates) (segments : List (List UInt8)) (geom : Geometry)
    (report : RecoveryReport) (out : List UInt8) : Prop where
  /-- The output is the whole image. -/
  length_out : out.length = geom.sectorCount * geom.bytesPerSector
  imageSize : report.imageSize = out.length
  chunkSize : report.chunkSize = geom.sectorsPerChunk * geom.bytesPerSector
  /-- Every byte is either recovered or zero-filled. -/
  bytes : report.bytesRecovered + report.bytesZeroFilled = report.imageSize
  /-- Chunk `i` has the bytes from `i * chunkSize` on, up to the next chunk or the end of the
  image, and what they are depends on nothing but its own decoding. -/
  spans : ∀ i, i * report.chunkSize < report.imageSize →
    (span report.chunkSize out i).length =
        min ((i + 1) * report.chunkSize) report.imageSize - i * report.chunkSize ∧
      span report.chunkSize out i =
        (outcomeAt C (segments.map SegmentTables.ofBytes) geom i).written
  lost_ascending : report.lostChunks.Pairwise (· < ·)
  flagged_ascending : report.crcFlaggedChunks.Pairwise (· < ·)
  disjoint : report.lostChunks.Disjoint report.crcFlaggedChunks
  lost_lt : ∀ i ∈ report.lostChunks, i < report.chunksTotal
  flagged_lt : ∀ i ∈ report.crcFlaggedChunks, i < report.chunksTotal
  lost_length : report.lostChunks.length = report.chunksZeroFilled
  flagged_length : report.crcFlaggedChunks.length = report.chunksCrcFlagged
  /-- The span of a lost chunk is zero. -/
  lost_zero : ∀ i ∈ report.lostChunks, ∀ b ∈ span report.chunkSize out i, b = 0
  /-- So is everything past the last chunk that a table describes. -/
  past_zero : ∀ p, describedChunks segments * report.chunkSize ≤ p → ∀ b ∈ out[p]?, b = 0

/-- The outcome lists of a run are those of the indices it covers. -/
theorem filter_map_outcomeAt (C : Crates) (segs : List SegmentTables) (geom : Geometry)
    (p : RecoveredChunk → Bool) (indices : List ℕ) :
    ((indices.map (outcomeAt C segs geom)).filter p).map (·.idx) =
      indices.filter fun i => p (outcomeAt C segs geom i) := by
  rw [List.filter_map, List.map_map]
  exact List.map_id _

theorem RecoveredChunk.written_of_lost {r : RecoveredChunk} (h : r.isLost = true) :
    r.written = List.replicate r.logical 0 := by
  have hnone : r.decoded = none := by simpa [RecoveredChunk.isLost] using h
  rw [RecoveredChunk.written, hnone]

/-- What the whole recovery is, when it returns `Ok`. -/
theorem recoverToFile_ok {C : Crates} {segments : List (List UInt8)} {report : RecoveryReport}
    {out : List UInt8} (h : recoverToFile C segments = some (report, out)) :
    ∃ geom, bootstrap segments = .ok geom ∧ out = (pieces C segments geom).flatten ∧
      out.length ≤ maxFileSize ∧
      report = reportOf geom.imageSize geom.chunkSize geom.chunkCount
        (geom.imageSize - logicalBytes (recoverRun C segments geom))
        (segments.findSome? walkTruncation) (recoverRun C segments geom) := by
  cases hb : bootstrap segments with
  | error e =>
      rw [recoverToFile, hb] at h
      cases h
  | ok geom =>
      obtain ⟨hcs, -, -⟩ := bootstrap_ok hb
      rw [recoverToFile_of_bootstrap C hb] at h
      split_ifs at h with hmax
      obtain ⟨hreport, hout⟩ := Prod.mk.inj (Option.some.inj h)
      refine ⟨geom, rfl, hout.symm, ?_, hreport.symm⟩
      rw [← hout, length_pieces hcs]
      omega

/-- **Recovery accounts for the whole image.** Where the recovery returns `Ok`, its output is
the image's size, its report adds up to it, and each chunk stands at its own place. -/
theorem recovery_accounts {C : Crates} {segments : List (List UInt8)} {report : RecoveryReport}
    {out : List UInt8} (h : recoverToFile C segments = some (report, out)) :
    ∃ geom, bootstrap segments = .ok geom ∧ Accounts C segments geom report out := by
  obtain ⟨geom, hb, rfl, hmax, rfl⟩ := recoverToFile_ok h
  obtain ⟨hcs, hcs', -⟩ := bootstrap_ok hb
  refine ⟨geom, hb, ?_⟩
  have hblocks := @blocks_pieces C segments geom hcs
  have hlen := @length_pieces C segments geom hcs
  have hrun := recoverRun_eq_map C segments hcs
  -- Neither product of the geometry saturates.
  have hsize : geom.imageSize = geom.sectorCount * geom.bytesPerSector := by
    have hle : geom.imageSize ≤ 9223372036854775807 := hlen ▸ hmax
    rw [Geometry.imageSize, satMul, u64Max] at hle ⊢
    omega
  have hchunk : geom.chunkSize = geom.sectorsPerChunk * geom.bytesPerSector := by
    change geom.chunkSize ≤ 67108864 at hcs'
    rw [Geometry.chunkSize, satMul, u64Max] at hcs' ⊢
    omega
  have hspan := fun {i : ℕ} (hi : i < geom.chunksNeeded) => @span_pieces C segments geom hcs i hi
  have hlost : ∀ i ∈ ((recoverRun C segments geom).filter (·.isLost)).map (·.idx),
      i < min geom.chunkCount geom.chunksNeeded ∧
        (outcomeAt C (segments.map SegmentTables.ofBytes) geom i).isLost = true := by
    intro i hi
    rw [hrun, filter_map_outcomeAt, List.mem_filter] at hi
    exact ⟨by simpa using hi.1, hi.2⟩
  have hflagged : ∀ i ∈ ((recoverRun C segments geom).filter (·.isFlagged)).map (·.idx),
      i < min geom.chunkCount geom.chunksNeeded ∧
        (outcomeAt C (segments.map SegmentTables.ofBytes) geom i).isFlagged = true := by
    intro i hi
    rw [hrun, filter_map_outcomeAt, List.mem_filter] at hi
    exact ⟨by simpa using hi.1, hi.2⟩
  have hascending : ∀ p,
      (((recoverRun C segments geom).filter p).map (·.idx)).Pairwise (· < ·) := by
    intro p
    rw [hrun, filter_map_outcomeAt]
    exact (List.pairwise_lt_range' 1).filter _
  exact
    { length_out := hlen.trans hsize
      imageSize := hlen.symm
      chunkSize := hchunk
      bytes := by
        have hfilter := logicalBytes_filter (·.isLost) (recoverRun C segments geom)
        have htotal := congrArg List.length (written_eq_pieces C segments hcs)
        rw [hlen, List.length_append, length_flatMap_written, List.length_replicate] at htotal
        simp only [reportOf]
        omega
      spans := by
        intro i hi
        have hspan := hspan ((Geometry.lt_chunksNeeded hcs).mpr hi)
        refine ⟨?_, hspan⟩
        simp only [reportOf] at hi ⊢
        rw [hspan, RecoveredChunk.length_written, Nat.succ_mul]
        show geom.logicalAt i = _
        rw [Geometry.logicalAt]
        omega
      lost_ascending := hascending _
      flagged_ascending := hascending _
      disjoint := by
        intro i hi hi'
        have h1 := (hlost i hi).2
        have h2 := (hflagged i hi').2
        rw [RecoveredChunk.isLost, Option.isNone_iff_eq_none] at h1
        rw [RecoveredChunk.isFlagged, h1] at h2
        cases h2
      lost_lt := fun i hi => lt_of_lt_of_le (hlost i hi).1 (min_le_left _ _)
      flagged_lt := fun i hi => lt_of_lt_of_le (hflagged i hi).1 (min_le_left _ _)
      lost_length := by
        simp only [reportOf, List.length_map, List.countP_eq_length_filter]
      flagged_length := by
        simp only [reportOf, List.length_map, List.countP_eq_length_filter]
      lost_zero := by
        intro i hi b hb
        obtain ⟨hlt, hl⟩ := hlost i hi
        change b ∈ span geom.chunkSize _ i at hb
        rw [hspan (lt_of_lt_of_le hlt (min_le_right _ _)),
          RecoveredChunk.written_of_lost hl] at hb
        exact (List.mem_replicate.mp hb).2
      past_zero := by
        intro p hp b hb
        rw [hblocks.getElem?_flatten hcs] at hb
        obtain ⟨piece, hpiece, hb⟩ := Option.bind_eq_some_iff.mp hb
        have hi : p / geom.chunkSize < geom.chunksNeeded := by
          have := (List.getElem?_eq_some_iff.mp hpiece).1
          simpa [pieces] using this
        rw [getElem?_pieces hi] at hpiece
        obtain rfl := Option.some.inj hpiece
        have hpast : describedChunks segments ≤ p / geom.chunkSize :=
          (Nat.le_div_iff_mul_le hcs).mpr hp
        have hnone : (outcomeAt C (segments.map SegmentTables.ofBytes) geom
            (p / geom.chunkSize)).isLost = true := by
          rw [RecoveredChunk.isLost, outcomeAt, decodeGlobal_of_described_le C _ hpast, ite_self]
          rfl
        rw [RecoveredChunk.written_of_lost hnone] at hb
        exact (List.mem_replicate.mp (List.mem_of_getElem? hb)).2 }

/-- An image cut off where its second chunk begins. -/
def cutImage : List UInt8 := mixedImage.data.take 1503

/-- Its recovery loses the second chunk. -/
theorem recovery_accounts_cutImage :
    ∃ report out, recoverToFile Crates.reference [cutImage] = some (report, out) ∧
      report.lostChunks = [1] ∧
      ∃ geom, bootstrap [cutImage] = .ok geom ∧
        Accounts Crates.reference [cutImage] geom report out := by
  have hsome : ((recoverToFile Crates.reference [cutImage]).map fun r => r.1.lostChunks) =
      some [1] := by decide +kernel
  obtain ⟨r, hr, hlost⟩ := Option.map_eq_some_iff.mp hsome
  exact ⟨r.1, r.2, hr, hlost, recovery_accounts hr⟩

end EwfForensic.Recover

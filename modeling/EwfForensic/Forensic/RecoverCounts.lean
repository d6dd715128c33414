import EwfForensic.Forensic.RecoverRun
import EwfForensic.Forensic.CoverageV1

/-!
# What the Recovery Report Counts

The counters of a recovery against what the recovery did.

* `partition_iff` — the three chunk counts add up to the declared chunks exactly where the last
  declared chunk starts inside the image: the main loop leaves at the end of the image.
* `RecoveredChunk.traced` — the bytes written for a chunk, each with its provenance: decoded from
  chunk data, or a zero of the tool.
* `bytes_honest_iff` — the two byte counters count by provenance exactly where no chunk decodes
  short: the padding of a short chunk is counted as recovered.
-/

namespace EwfForensic.Recover

open Octets

/-! ### Chunk counts -/

/-- The three chunk counts partition the chunks of the image. -/
def RecoveryReport.Partitions (report : RecoveryReport) : Prop :=
  report.chunksRecoveredPrimary + report.chunksRecoveredTable2 + report.chunksZeroFilled =
    report.chunksTotal

instance (report : RecoveryReport) : Decidable report.Partitions :=
  inferInstanceAs (Decidable (_ = _))

/-- Every turn of the main loop counts its chunk once. -/
theorem countP_outcomes (run : List RecoveredChunk) :
    (run.countP fun r => r.decoded.any fun d => ¬ d.viaTable2) +
        (run.countP fun r => r.decoded.any fun d => d.viaTable2) + run.countP (·.isLost) =
      run.length := by
  induction run with
  | nil => rfl
  | cons r run ih =>
      simp only [List.countP_cons, RecoveredChunk.isLost, List.length_cons] at ih ⊢
      cases hd : r.decoded with
      | none =>
          simp only [Option.any_none, Option.isNone_none, Bool.false_eq_true, if_false, if_true]
          omega
      | some d =>
          cases hv : d.viaTable2 with
          | true =>
              simp only [Option.any_some, hv, Option.isNone_some, not_true_eq_false, decide_false,
                Bool.false_eq_true, if_false, if_true]
              omega
          | false =>
              simp only [Option.any_some, hv, Option.isNone_some, Bool.false_eq_true, if_false,
                not_false_eq_true, decide_true, if_true]
              omega

/-- The main loop has a turn for each declared chunk that the image needs. -/
theorem length_recoverRun (C : Crates) (segments : List (List UInt8)) {geom : Geometry}
    (hcs : 0 < geom.chunkSize) :
    (recoverRun C segments geom).length = min geom.chunkCount geom.chunksNeeded := by
  rw [recoverRun_eq_map C segments hcs, List.length_map, List.length_range']

/-- An image whose volume declares two chunks and the single sector of the first one. -/
def overcoveredImage : List UInt8 :=
  Image.encodeSegment 1
    [⟨.volume, Image.volumeFront 1 2 1 512 1 ++ List.replicate 70 0⟩,
      ⟨.table, Image.tableBytes 0 true [363] []⟩, ⟨.sectors, List.replicate 512 7⟩] .done 0

/-- The bytes written for a chunk, each with whether it was decoded from chunk data. -/
def RecoveredChunk.traced (r : RecoveredChunk) : List (UInt8 × Bool) :=
  match r.decoded with
  | some d => (d.bytes.take r.logical).map (·, true) ++
      List.replicate (r.logical - d.bytes.length) (0, false)
  | none => List.replicate r.logical (0, false)

/-- The output of a recovery with geometry `geom`, byte by byte with its provenance. -/
def tracedOutput (C : Crates) (segments : List (List UInt8)) (geom : Geometry) :
    List (UInt8 × Bool) :=
  (recoverRun C segments geom).flatMap (·.traced) ++
    List.replicate (geom.imageSize - logicalBytes (recoverRun C segments geom)) (0, false)

theorem RecoveredChunk.map_traced (r : RecoveredChunk) : r.traced.map (·.1) = r.written := by
  rw [RecoveredChunk.traced, RecoveredChunk.written]
  cases r.decoded with
  | none => simp
  | some d =>
      rw [List.map_append, List.map_map, List.map_replicate]
      exact congrArg (· ++ _) (List.map_id _)

/-- The number of a chunk's bytes that were decoded. -/
def RecoveredChunk.decodedBytes (r : RecoveredChunk) : ℕ :=
  match r.decoded with
  | some d => min r.logical d.bytes.length
  | none => 0

theorem RecoveredChunk.countP_traced (r : RecoveredChunk) :
    r.traced.countP (·.2) = r.decodedBytes ∧
      (r.traced.countP fun b => ! b.2) = r.logical - r.decodedBytes := by
  rw [RecoveredChunk.traced, RecoveredChunk.decodedBytes]
  cases r.decoded with
  | none => simp [List.countP_replicate]
  | some d =>
      have hcount : ∀ xs : List UInt8, (xs.map (·, true)).countP (·.2) = xs.length ∧
          ((xs.map (·, true)).countP fun b => ! b.2) = 0 := by
        intro xs
        rw [List.countP_map, List.countP_map]
        simp
      simp only [List.countP_append, (hcount _).1, (hcount _).2, List.countP_replicate,
        List.length_take, Bool.false_eq_true, if_false, Bool.not_false, if_true]
      omega

theorem countP_flatMap_traced (run : List RecoveredChunk) :
    (run.flatMap (·.traced)).countP (·.2) = (run.map (·.decodedBytes)).sum ∧
      (run.flatMap (·.traced)).countP (fun b => ! b.2) =
        logicalBytes run - (run.map (·.decodedBytes)).sum ∧
      (run.map (·.decodedBytes)).sum ≤ logicalBytes run := by
  induction run with
  | nil => exact ⟨rfl, rfl, le_refl _⟩
  | cons r run ih =>
      obtain ⟨h1, h2⟩ := r.countP_traced
      obtain ⟨ih1, ih2, ih3⟩ := ih
      have hle : r.decodedBytes ≤ r.logical := by
        rw [RecoveredChunk.decodedBytes]
        cases r.decoded with
        | none => exact Nat.zero_le _
        | some d => exact Nat.min_le_left _ _
      rw [List.flatMap_cons, List.countP_append, List.countP_append, h1, h2, ih1, ih2,
        List.map_cons, List.sum_cons]
      have hcons : logicalBytes (r :: run) = r.logical + logicalBytes run := rfl
      omega

/-- The counter of recovered bytes counts the decoded ones exactly where every decoded chunk
fills its share of the image. -/
theorem logicalBytes_eq_iff (run : List RecoveredChunk) :
    logicalBytes (run.filter fun r => ¬ r.isLost) = (run.map (·.decodedBytes)).sum ↔
      ∀ r ∈ run, ∀ d ∈ r.decoded, r.logical ≤ d.bytes.length := by
  -- The counter never falls short of the decoded bytes, and each chunk adds its own difference.
  have hle : ∀ run : List RecoveredChunk,
      (run.map (·.decodedBytes)).sum ≤ logicalBytes (run.filter fun r => ¬ r.isLost) := by
    intro run
    induction run with
    | nil => exact le_refl _
    | cons r run ih =>
        rw [List.map_cons, List.sum_cons, List.filter_cons]
        cases hd : r.decoded with
        | none => simpa [RecoveredChunk.decodedBytes, RecoveredChunk.isLost, hd] using ih
        | some d =>
            simp only [RecoveredChunk.decodedBytes, RecoveredChunk.isLost, hd, Option.isNone_some,
              Bool.false_eq_true, not_false_eq_true, decide_true, if_true, logicalBytes,
              List.map_cons, List.sum_cons] at ih ⊢
            omega
  induction run with
  | nil => simp [logicalBytes]
  | cons r run ih =>
      have hrest := hle run
      rw [List.map_cons, List.sum_cons, List.filter_cons, List.forall_mem_cons]
      refine Iff.trans ?_ (and_congr_right' ih)
      cases hd : r.decoded with
      | none =>
          simp [RecoveredChunk.decodedBytes, RecoveredChunk.isLost, hd]
      | some d =>
          simp only [RecoveredChunk.decodedBytes, RecoveredChunk.isLost, hd, Option.isNone_some,
            Bool.false_eq_true, not_false_eq_true, decide_true, if_true, logicalBytes,
            List.map_cons, List.sum_cons, Option.mem_def, Option.some.injEq, forall_eq'] at hrest ⊢
          omega

/-- The byte counters of a report count the output by its provenance. -/
structure CountsByProvenance (report : RecoveryReport) (traced : List (UInt8 × Bool)) : Prop where
  recovered : report.bytesRecovered = traced.countP (·.2)
  zeroFilled : report.bytesZeroFilled = traced.countP fun b => ! b.2

/-- No chunk that decodes gives fewer bytes than its share of the image. -/
def NoShortChunk (C : Crates) (segments : List (List UInt8)) (geom : Geometry) : Prop :=
  ∀ i, i < geom.chunkCount → i * geom.chunkSize < geom.imageSize →
    ∀ d ∈ decodeGlobal C (segments.map SegmentTables.ofBytes) geom.chunkSize i,
      geom.logicalAt i ≤ d.bytes.length

/-- The chunks that the main loop decodes. -/
theorem forall_mem_recoverRun_iff (C : Crates) (segments : List (List UInt8)) {geom : Geometry}
    (hcs : 0 < geom.chunkSize) :
    (∀ r ∈ recoverRun C segments geom, ∀ d ∈ r.decoded, r.logical ≤ d.bytes.length) ↔
      NoShortChunk C segments geom := by
  rw [recoverRun_eq_map C segments hcs, List.forall_mem_map]
  constructor
  · intro h i hi himage d hd
    have hmem : i ∈ List.range' 0 (min geom.chunkCount geom.chunksNeeded) := by
      rw [List.mem_range'_1]
      have := (Geometry.lt_chunksNeeded hcs).mpr himage
      omega
    refine h i hmem d ?_
    rw [outcomeAt, if_pos hi]
    exact hd
  · intro h i hmem d hd
    rw [List.mem_range'_1] at hmem
    rw [outcomeAt, if_pos (by omega)] at hd
    exact h i (by omega) ((Geometry.lt_chunksNeeded hcs).mp (by omega)) d hd

/-- **Provenance of the byte counts.** The traced output is the output, and the byte counters
count by provenance exactly where no chunk that decodes is short. -/
theorem bytes_honest_iff (C : Crates) (segments : List (List UInt8)) (report : RecoveryReport)
    (out : List UInt8) (geom : Geometry)
    (h : recoverToFile C segments = some (report, out)) (hb : bootstrap segments = .ok geom) :
    (tracedOutput C segments geom).map (·.1) = out ∧
      (CountsByProvenance report (tracedOutput C segments geom) ↔
        NoShortChunk C segments geom) := by
  obtain ⟨geom', hb', rfl, -, rfl⟩ := recoverToFile_ok h
  obtain rfl : geom = geom' := Except.ok.inj (hb.symm.trans hb')
  obtain ⟨hcs, -, -⟩ := bootstrap_ok hb
  constructor
  · rw [← written_eq_pieces C segments hcs, tracedOutput, List.map_append, List.map_flatMap,
      List.map_replicate]
    simp only [RecoveredChunk.map_traced]
  · obtain ⟨h1, h2, h3⟩ := countP_flatMap_traced (recoverRun C segments geom)
    have htotal := logicalBytes_filter (·.isLost) (recoverRun C segments geom)
    have hrecovered : (tracedOutput C segments geom).countP (·.2) =
        ((recoverRun C segments geom).map (·.decodedBytes)).sum := by
      rw [tracedOutput, List.countP_append, h1, List.countP_replicate]
      rfl
    have hzero : ((tracedOutput C segments geom).countP fun b => ! b.2) =
        logicalBytes (recoverRun C segments geom) -
          ((recoverRun C segments geom).map (·.decodedBytes)).sum +
          (geom.imageSize - logicalBytes (recoverRun C segments geom)) := by
      rw [tracedOutput, List.countP_append, h2, List.countP_replicate]
      rfl
    rw [← forall_mem_recoverRun_iff C segments hcs, ← logicalBytes_eq_iff]
    constructor
    · exact fun hc => hc.recovered.trans hrecovered
    · intro heq
      refine ⟨heq.trans hrecovered.symm, ?_⟩
      rw [hzero, reportOf]
      simp only
      omega

theorem shortImage_not_honest :
    ∃ report out geom, recoverToFile Crates.reference [shortImage.data] = some (report, out) ∧
      bootstrap [shortImage.data] = .ok geom ∧
      ¬ CountsByProvenance report (tracedOutput Crates.reference [shortImage.data] geom) := by
  have hsome : ((recoverToFile Crates.reference [shortImage.data]).map fun r =>
      r.1.bytesRecovered) = some 512 := by decide +kernel
  have hgeom : (bootstrap [shortImage.data]).toOption.map (fun geom =>
      (tracedOutput Crates.reference [shortImage.data] geom).countP (·.2)) = some 1 := by
    decide +kernel
  obtain ⟨⟨report, out⟩, hr, hcount⟩ := Option.map_eq_some_iff.mp hsome
  obtain ⟨geom, hb, -⟩ := recoverToFile_ok hr
  refine ⟨report, out, geom, hr, hb, fun hc => ?_⟩
  rw [hb] at hgeom
  have h1 : (tracedOutput Crates.reference [shortImage.data] geom).countP (·.2) = 1 :=
    Option.some.inj hgeom
  have h2 : report.bytesRecovered = 512 := hcount
  have h3 := hc.recovered
  omega

theorem bytes_honest_iff_wholeImage :
    ∃ report out geom, recoverToFile Crates.reference [wholeImage.data] = some (report, out) ∧
      (tracedOutput Crates.reference [wholeImage.data] geom).map (·.1) = out ∧
      (CountsByProvenance report (tracedOutput Crates.reference [wholeImage.data] geom) ↔
        NoShortChunk Crates.reference [wholeImage.data] geom) := by
  have hsome : (recoverToFile Crates.reference [wholeImage.data]).isSome = true := by
    decide +kernel
  obtain ⟨⟨report, out⟩, hr⟩ := Option.isSome_iff_exists.mp hsome
  obtain ⟨geom, hb, -⟩ := recoverToFile_ok hr
  exact ⟨report, out, geom, hr, bytes_honest_iff _ _ report out geom hr hb⟩

end EwfForensic.Recover

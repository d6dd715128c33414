import EwfForensic.Forensic.RecoverLocal
import EwfForensic.Lib.FileSystem

/-!
# The Recovery and the Evidence Files

`EwfRecover::recover_to_raw`: the recovery as it acts on a file system. The source segments are
mapped for reading and the output is created, which truncates whatever file its path names.

* `recoverToRaw` — the whole call, with every point at which it can fail.
* `KeepsEvidence` — after every return the source files are as they were, and an error that
  comes before the writing leaves the file system alone.
* `keeps_evidence_iff` — so it is exactly when the output does not name the file of a source.
-/

namespace EwfForensic.Recover

open Octets

/-! ### The call -/

/-- The errors of `recover_to_raw`. -/
inductive RecoverFileError where
  /-- "no EWF segments to recover". -/
  | noSegments
  /-- A segment cannot be opened or mapped. -/
  | openFailed
  /-- The checks of `recover_segments` before the output is created. -/
  | rejected (e : RecoverError)
  /-- The output cannot be created. -/
  | createFailed
  /-- The output cannot be written to its end. -/
  | writeFailed
  deriving DecidableEq

/-- What the program does not decide itself. -/
structure Environment where
  /-- How many bytes of the output can be written, if there is a limit. -/
  space : Option ℕ
  /-- What becomes of a run that reads a mapped file after its truncation. The mapping promises
  nothing for such reads; `none` is a process that is killed and does not return. -/
  torn : Option (RecoveryReport × List UInt8)

section Call

variable {Path Name : Type} [DecidableEq Name]

/-- Some chunk is read from a source that the creation of the output has truncated. -/
def readsTruncated (fs : FileSystem Path Name UInt8) (paths : List Path) (out : Path)
    (segments : List (List UInt8)) (report : RecoveryReport) : Bool :=
  (List.range report.chunksTotal).any fun idx =>
    idx * report.chunkSize < report.imageSize &&
      match locateChunk ((segments.map SegmentTables.ofBytes).map (·.entryCount)) idx with
      | some (j, _) => (paths[j]?).any fun p => fs.fileAt p = fs.fileAt out
      | none => false

/-- `recover_to_raw`: the file system it leaves and what it returns; `none` if it does not
return. -/
def recoverToRaw (C : Crates) (fs : FileSystem Path Name UInt8) (paths : List Path) (out : Path)
    (env : Environment) :
    Option (FileSystem Path Name UInt8 × Except RecoverFileError RecoveryReport) :=
  if paths.isEmpty then some (fs, .error .noSegments)
  else
    match fs.openAll paths with
    | none => some (fs, .error .openFailed)
    | some segments =>
      match recoverSegments C segments with
      | .error e => some (fs, .error (.rejected e))
      | .ok result =>
        match fs.create out with
        | none => some (fs, .error .createFailed)
        | some (fs', n) =>
          let written? :=
            if readsTruncated fs paths out segments result.1 then env.torn else some result
          match written? with
          | none => none
          | some (report, bytes) =>
            let room := min (env.space.getD bytes.length) maxFileSize
            if bytes.length ≤ room then some (fs'.append n bytes, .ok report)
            else some (fs'.append n (bytes.take room), .error .writeFailed)

/-! ### The evidence -/

/-- The call alters no evidence: whatever happens, every source file is as it was when the call
returns, and an error before the writing changes no file at all. -/
def KeepsEvidence (C : Crates) (fs : FileSystem Path Name UInt8) (paths : List Path)
    (out : Path) : Prop :=
  ∀ env fs' result, recoverToRaw C fs paths out env = some (fs', result) →
    (∀ p ∈ paths, fs'.read p = fs.read p) ∧
      ∀ e, result = .error e → e ≠ .writeFailed → fs' = fs

/-- The output does not name the file of a source, unless the output is never created, or it
has no bytes and neither has the source. -/
def SparesSources (fs : FileSystem Path Name UInt8) (paths : List Path) (out : Path) : Prop :=
  ∀ segments geom, fs.openAll paths = some segments → bootstrap segments = .ok geom →
    fs.mayCreate (fs.locate out) = true → ∀ p ∈ paths, fs.fileAt p = fs.fileAt out →
      fs.read p = some [] ∧ geom.imageSize = 0

variable {C : Crates} {fs : FileSystem Path Name UInt8} {paths : List Path} {out : Path}

/-- What a recovery that passes its checks computes: as many bytes as the image has. -/
theorem recoverSegments_of_bootstrap {segments : List (List UInt8)} {geom : Geometry}
    (h : bootstrap segments = .ok geom) :
    ∃ report bytes, recoverSegments C segments = .ok (report, bytes) ∧
      bytes.length = geom.imageSize := by
  obtain ⟨hcs, -, -⟩ := bootstrap_ok h
  rw [recoverSegments, h]
  refine ⟨_, _, rfl, ?_⟩
  rw [written_eq_pieces C segments hcs, length_pieces hcs]

theorem bootstrap_of_recoverSegments {segments : List (List UInt8)}
    {result : RecoveryReport × List UInt8} (h : recoverSegments C segments = .ok result) :
    ∃ geom, bootstrap segments = .ok geom ∧ result.2.length = geom.imageSize := by
  cases hb : bootstrap segments with
  | error e =>
      rw [recoverSegments, hb] at h
      cases h
  | ok geom =>
      obtain ⟨report, bytes, hok, hlen⟩ := @recoverSegments_of_bootstrap C _ _ hb
      rw [hok] at h
      obtain rfl := Except.ok.inj h
      exact ⟨geom, rfl, hlen⟩

omit [DecidableEq Name] in
/-- A source that may share its file with the output is empty, so no chunk is read from it. -/
theorem SparesSources.readsTruncated_eq (h : SparesSources fs paths out)
    {segments : List (List UInt8)} {geom : Geometry} (hopen : fs.openAll paths = some segments)
    (hb : bootstrap segments = .ok geom) (hcreate : fs.mayCreate (fs.locate out) = true)
    (report : RecoveryReport) : readsTruncated fs paths out segments report = false := by
  rw [readsTruncated, List.any_eq_false]
  intro idx _ htrue
  rw [Bool.and_eq_true] at htrue
  obtain ⟨-, htrue⟩ := htrue
  split at htrue
  · next j l hloc =>
      obtain ⟨n, hn, hl⟩ := locateChunk_mem_places hloc
      cases hp : paths[j]? with
      | none => simp [hp] at htrue
      | some p =>
          have halias : fs.fileAt p = fs.fileAt out := by simpa [hp] using htrue
          obtain ⟨hempty, -⟩ := h segments geom hopen hb hcreate p (List.mem_of_getElem? hp) halias
          -- The source is read as the empty segment, which counts no chunk.
          rw [List.getElem?_map, List.getElem?_map] at hn
          obtain ⟨s, hs, hcount⟩ := Option.map_eq_some_iff.mp hn
          obtain ⟨data, hdata, rfl⟩ := Option.map_eq_some_iff.mp hs
          have hread := List.forall₂_iff_get.mp (FileSystem.forall₂_of_openAll hopen)
          obtain ⟨hjp, rfl⟩ := List.getElem?_eq_some_iff.mp hp
          obtain ⟨hjd, rfl⟩ := List.getElem?_eq_some_iff.mp hdata
          have hsame := hread.2 j hjp hjd
          rw [List.get_eq_getElem, List.get_eq_getElem, hempty] at hsame
          rw [← Option.some.inj hsame] at hcount
          have hzero : (SegmentTables.ofBytes []).entryCount = 0 := by decide
          omega
  · cases htrue

/-- The bytes of an output that reach its file. -/
def Environment.reached (env : Environment) (bytes : List UInt8) : List UInt8 :=
  bytes.take (min (env.space.getD bytes.length) maxFileSize)

/-- **The call, case by case.** It returns an error with the file system as it was, or it has
created the output and written a front of what the run made. -/
theorem recoverToRaw_eq_some {env : Environment} {fs' : FileSystem Path Name UInt8}
    {result : Except RecoverFileError RecoveryReport}
    (h : recoverToRaw C fs paths out env = some (fs', result)) :
    fs' = fs ∨
      (∃ segments computed fs₁ n written, fs.openAll paths = some segments ∧
        recoverSegments C segments = .ok computed ∧ fs.create out = some (fs₁, n) ∧
        (if readsTruncated fs paths out segments computed.1 then env.torn else some computed) =
          some written ∧ fs' = fs₁.append n (env.reached written.2)) ∧
      ∀ e, result = .error e → e = .writeFailed := by
  rw [recoverToRaw] at h
  split_ifs at h with hempty
  · exact Or.inl (Prod.mk.inj (Option.some.inj h)).1.symm
  · cases hopen : fs.openAll paths with
    | none =>
        rw [hopen] at h
        exact Or.inl (Prod.mk.inj (Option.some.inj h)).1.symm
    | some segments =>
        rw [hopen] at h
        simp only at h
        cases hrec : recoverSegments C segments with
        | error e =>
            rw [hrec] at h
            exact Or.inl (Prod.mk.inj (Option.some.inj h)).1.symm
        | ok computed =>
            rw [hrec] at h
            simp only at h
            cases hcreate : fs.create out with
            | none =>
                rw [hcreate] at h
                exact Or.inl (Prod.mk.inj (Option.some.inj h)).1.symm
            | some made =>
                obtain ⟨fs₁, n⟩ := made
                rw [hcreate] at h
                simp only at h
                split at h
                · cases h
                · next report bytes hwritten =>
                    right
                    split_ifs at h with hroom
                    · obtain ⟨rfl, rfl⟩ := Prod.mk.inj (Option.some.inj h)
                      refine ⟨⟨segments, computed, fs₁, n, _, rfl, hrec, rfl, hwritten, ?_⟩, ?_⟩
                      · rw [Environment.reached, List.take_of_length_le hroom]
                      · intro e he
                        cases he
                    · obtain ⟨rfl, rfl⟩ := Prod.mk.inj (Option.some.inj h)
                      refine ⟨⟨segments, computed, fs₁, n, _, rfl, hrec, rfl, hwritten, rfl⟩, ?_⟩
                      intro e he
                      exact (Except.error.inj he).symm

/-- A run in which the truncated mappings still give what they gave before. -/
theorem recoverToRaw_of_create (hne : paths ≠ []) {segments : List (List UInt8)}
    {computed : RecoveryReport × List UInt8} {fs₁ : FileSystem Path Name UInt8} {n : ℕ}
    (hopen : fs.openAll paths = some segments) (hrec : recoverSegments C segments = .ok computed)
    (hcreate : fs.create out = some (fs₁, n)) (space : Option ℕ) :
    ∃ result, recoverToRaw C fs paths out ⟨space, some computed⟩ =
      some (fs₁.append n (Environment.reached ⟨space, some computed⟩ computed.2), result) := by
  have hempty : ¬ paths.isEmpty = true := by simpa using hne
  rw [recoverToRaw, if_neg hempty, hopen]
  simp only [hrec, hcreate, ite_self]
  split_ifs with hroom
  · exact ⟨_, by rw [Environment.reached, List.take_of_length_le hroom]⟩
  · exact ⟨_, rfl⟩

/-- **Exactly the outputs that name no source keep the evidence.** -/
theorem keeps_evidence_iff (C : Crates) (fs : FileSystem Path Name UInt8) (paths : List Path)
    (out : Path) : KeepsEvidence C fs paths out ↔ SparesSources fs paths out := by
  constructor
  · intro h segments geom hopen hb hmay p hp halias
    obtain ⟨report, bytes, hrec, hlen⟩ := @recoverSegments_of_bootstrap C _ _ hb
    obtain ⟨⟨fs₁, n⟩, hcreate⟩ := Option.isSome_iff_exists.mp
      (FileSystem.isSome_create_iff.mpr hmay)
    obtain ⟨m, hm⟩ := FileSystem.fileAt_of_openAll hopen hp
    -- Whatever fits on the disk, the source holds it in place of its own bytes.
    have hread : ∀ space, fs.read p =
        some (Environment.reached ⟨space, some (report, bytes)⟩ bytes) := by
      intro space
      obtain ⟨result, hrun⟩ := recoverToRaw_of_create (List.ne_nil_of_mem hp) hopen hrec hcreate
        space
      rw [← (h _ _ _ hrun).1 p hp]
      exact FileSystem.read_written_of_eq hcreate hm halias _
    have hnone : fs.read p = some [] := by
      rw [hread (some 0), Environment.reached, Option.getD_some, Nat.zero_min, List.take_zero]
    refine ⟨hnone, ?_⟩
    have hall := hread none
    rw [hnone, Environment.reached, Option.getD_none] at hall
    have hzero := congrArg List.length (Option.some.inj hall)
    rw [List.length_nil, List.length_take, maxFileSize] at hzero
    omega
  · intro h env fs' result hrun
    rcases recoverToRaw_eq_some hrun with rfl | ⟨hwrite, herror⟩
    · exact ⟨fun _ _ => rfl, fun _ _ _ => rfl⟩
    · obtain ⟨segments, computed, fs₁, n, written, hopen, hrec, hcreate, hwritten, rfl⟩ := hwrite
      refine ⟨fun p hp => ?_, fun e he hne => absurd (herror e he) hne⟩
      obtain ⟨geom, hb, hlen⟩ := bootstrap_of_recoverSegments hrec
      have hmay : fs.mayCreate (fs.locate out) = true :=
        FileSystem.isSome_create_iff.mp (hcreate ▸ rfl)
      rw [if_neg (by rw [h.readsTruncated_eq hopen hb hmay]; exact Bool.false_ne_true)] at hwritten
      obtain rfl := Option.some.inj hwritten
      obtain ⟨m, hm⟩ := FileSystem.fileAt_of_openAll hopen hp
      by_cases halias : fs.fileAt p = fs.fileAt out
      · obtain ⟨hempty, hsize⟩ := h segments geom hopen hb hmay p hp halias
        have hnil : computed.2 = [] := List.eq_nil_of_length_eq_zero (hlen.trans hsize)
        rw [FileSystem.read_written_of_eq hcreate hm halias, hempty, Environment.reached, hnil,
          List.take_nil]
      · exact FileSystem.read_written_of_ne hcreate hm halias _

end Call

/-! ### An image named twice -/

/-- Two spellings of one path. -/
inductive Spelling where
  | plain
  | dotted
  deriving DecidableEq

/-- An image of one sector that has no table, so that nothing is read from it once the output
has been created. -/
def tablelessImage : List UInt8 :=
  Image.encodeSegment 1 [⟨.volume, Image.volumeFront 1 1 1 512 1 ++ List.replicate 70 0⟩] .done 0

/-- A directory with that image as its only file. -/
def oneFile : FileSystem Spelling Unit UInt8 where
  locate := fun _ => ()
  entry := fun _ => some 0
  content := fun _ => tablelessImage
  next := 1
  entry_lt := fun _ n h => by
    obtain rfl := Option.some.inj h
    exact Nat.zero_lt_one
  mayOpen := fun _ => true
  mayCreate := fun _ => true

/-- **The evidence is not always kept.** A recovery of the image into its own file, by another
spelling of the path, succeeds and leaves a sector of zeros. -/
theorem oneFile_not_kept :
    (∃ fs' report, recoverToRaw Crates.reference oneFile [Spelling.plain] .dotted ⟨none, none⟩ =
        some (fs', .ok report) ∧ fs'.read .plain = some (List.replicate 512 0)) ∧
      ¬ KeepsEvidence Crates.reference oneFile [Spelling.plain] .dotted := by
  have hrun : (recoverToRaw Crates.reference oneFile [Spelling.plain] .dotted ⟨none, none⟩).map
      (fun r => (r.1.read .plain, r.2.toOption.isSome)) =
      some (some (List.replicate 512 0), true) := by decide +kernel
  obtain ⟨⟨fs', result⟩, hsome, hfields⟩ := Option.map_eq_some_iff.mp hrun
  obtain ⟨hread, hok⟩ := Prod.mk.inj hfields
  have hlost : fs'.read .plain ≠ oneFile.read .plain := by
    rw [hread]
    decide +kernel
  cases result with
  | error e => cases hok
  | ok report =>
      exact ⟨⟨fs', report, hsome, hread⟩, fun h =>
        hlost ((h _ _ _ hsome).1 .plain (List.mem_singleton_self _))⟩

end EwfForensic.Recover

import EwfForensic.Cli.Answers
import EwfForensic.Image.StoredImage

/-!
# Extraction to a File

`handle_ewf_extract` of `cli/src/handlers.rs` as it acts on a file system: a range of the media is
copied to a file in pieces. The output is created before the first piece is read, and the image is
read from its files as they are at that moment.

* `handleEwfExtract` — the call, with every point at which it can fail.
* `later_handleEwfExtract` — whatever happens, no other file than the output changes.
* `extractLoop_length` — the bytes that are counted are those of the output.
* `extract_exact` — the output holds the range of the media, as far as there is room for it.
-/

namespace EwfForensic.Cli

open Octets

/-- What the program does not decide itself. -/
structure Environment where
  /-- How many bytes of the output can be written, if there is a limit. -/
  space : Option ℕ

/-- The greatest size of a file. -/
def fileLimit : ℕ := 9223372036854775807

/-- How many bytes an output can hold. -/
def Environment.room (env : Environment) : ℕ := min (env.space.getD fileLimit) fileLimit

/-! ### The call -/

section Call

variable {Name : Type} (T : Texts) (fs : FileSystem Path Name UInt8) (C : Crates)

/-- The reader once the output holds `written`: a segment file that the output names, by its path or
through another link, holds these bytes too. -/
def liveReader (paths : List Path) (out : Path) (r : EwfReader) (written : List UInt8) :
    EwfReader :=
  { r with segments := r.segments.map fun segment =>
      if paths.any fun p => fs.fileAt p = fs.fileAt out ∧ fs.openFile p = some segment.data then
        if h : written.length < 9223372036854775808 then ⟨written, h⟩ else segment
      else segment }

/-- The loop: what the output holds in the end, and how many bytes remain. An output without room
takes the part of a piece that fits. -/
def extractLoop (reader : List UInt8 → EwfReader) (room : ℕ) :
    ℕ → ReaderState → ℕ → ℕ → List UInt8 → List UInt8 × Except Failure ℕ
  | 0, _, _, remaining, written => (written, .ok remaining)
  | fuel + 1, st, position, remaining, written =>
    if remaining = 0 then (written, .ok 0)
    else
      match (reader written).readAt C st position (min remaining bufSize) with
      | (.error e, _) => (written, .error (failure T e))
      | (.ok out, st) =>
        if out = [] then (written, .ok remaining)
        else if written.length + out.length ≤ room then
          extractLoop reader room fuel st (position + out.length) (remaining - out.length)
            (written ++ out)
        else ((written ++ out).take room, .error (.error T.write))

/-- The answer of `handle_ewf_extract`. -/
def extractValue (offset bytesWritten : ℕ) (output : List Char) : Json.Value :=
  jsonObject [
    ("offset".toList, .nat offset),
    ("bytes_written".toList, .nat bytesWritten),
    ("output".toList, .string output)]

/-- The copy of a range that lies within the media: what the output holds in the end, and how many
bytes remain. Every turn of the loop moves forward, so that there are no more turns than bytes. -/
def extractRun (env : Environment) (path : Path) (out : Path) (r : EwfReader)
    (position actualLen : ℕ) : List UInt8 × Except Failure ℕ :=
  let paths := ((discoverSegments fs path).toOption).getD []
  extractLoop T C (liveReader fs paths out r) env.room actualLen r.init position actualLen []

/-- `handle_ewf_extract` behind the opening of the image. -/
def extractFrom [DecidableEq Name] (env : Environment) (path : List Char) (offset : UInt64)
    (length : ℕ) (output : List Char) (r : EwfReader) : FileSystem Path Name UInt8 × Answer :=
  if offset.toNat ≥ r.totalSize then (fs, .error (offsetError offset.toNat r.totalSize))
  else
    match seekStart r offset, fs.create (pathOf output) with
    | .error e, _ => (fs, .error e)
    | .ok _, none => (fs, .error (.error T.create))
    | .ok position, some (fs', n) =>
      let actualLen := min length (r.totalSize - offset.toNat)
      let run := extractRun T fs C env (pathOf path) (pathOf output) r position actualLen
      (fs'.append n run.1, run.2.map fun remaining =>
        extractValue offset.toNat (actualLen - remaining) output)

/-- `handle_ewf_extract`: the file system it leaves, and its answer. -/
def handleEwfExtract [DecidableEq Name] (env : Environment) (path : List Char) (offset : UInt64)
    (length : ℕ) (output : List Char) : FileSystem Path Name UInt8 × Answer :=
  match openReader T fs C path with
  | .error e => (fs, .error e)
  | .ok r => extractFrom T fs C env path offset length output r

end Call

/-! ### What no call does -/

section Frame

variable {Name : Type} [DecidableEq Name] {T : Texts} {fs : FileSystem Path Name UInt8}
  {C : Crates} {env : Environment} {path output : List Char} {offset : UInt64} {length : ℕ}

/-- What a call comes to: it fails and leaves all files alone, or it creates the output and copies
to it. -/
theorem handleEwfExtract_cases :
    (∃ e, handleEwfExtract T fs C env path offset length output = (fs, .error e)) ∨
      ∃ r position fs' n, openReader T fs C path = .ok r ∧ offset.toNat < r.totalSize ∧
        seekStart r offset = .ok position ∧ fs.create (pathOf output) = some (fs', n) ∧
        ∃ run, run = extractRun T fs C env (pathOf path) (pathOf output) r position
          (min length (r.totalSize - offset.toNat)) ∧
        handleEwfExtract T fs C env path offset length output =
          (fs'.append n run.1, run.2.map fun remaining => extractValue offset.toNat
            (min length (r.totalSize - offset.toNat) - remaining) output) := by
  rw [handleEwfExtract]
  cases openReader T fs C path with
  | error e => exact .inl ⟨e, rfl⟩
  | ok r =>
      dsimp only
      rw [extractFrom]
      split_ifs with hoff
      · exact .inl ⟨_, rfl⟩
      · cases hseek : seekStart r offset with
        | error e => exact .inl ⟨e, rfl⟩
        | ok position =>
            cases fs.create (pathOf output) with
            | none => exact .inl ⟨_, rfl⟩
            | some p =>
                obtain ⟨fs', n⟩ := p
                exact .inr ⟨r, position, fs', n, rfl, not_le.mp hoff, hseek, rfl, _, rfl, rfl⟩

/-- **No other file than the output changes**, whatever happens. -/
theorem later_handleEwfExtract :
    FileSystem.Later fs (handleEwfExtract T fs C env path offset length output).1
      [fs.locate (pathOf output)] := by
  rcases @handleEwfExtract_cases Name _ T fs C env path output offset length with
    ⟨e, heq⟩ | ⟨r, position, fs', n, -, -, -, hcreate, run, -, heq⟩
  · rw [heq]
    exact (FileSystem.Later.refl fs).mono (List.nil_subset _)
  · rw [heq]
    exact FileSystem.later_written hcreate _

theorem valid_extractValue (offset bytesWritten : ℕ) (output : List Char) :
    (extractValue offset bytesWritten output).Valid := by
  simp [extractValue]

/-- The answer is JSON. -/
theorem valid_handleEwfExtract {v : Json.Value}
    (h : (handleEwfExtract T fs C env path offset length output).2 = .ok v) : v.Valid := by
  rcases @handleEwfExtract_cases Name _ T fs C env path output offset length with
    ⟨e, heq⟩ | ⟨r, position, fs', n, -, -, -, -, run, -, heq⟩
  · rw [heq] at h
    cases h
  · rw [heq] at h
    cases hrun : run.2 with
    | error e =>
        rw [hrun] at h
        cases h
    | ok remaining =>
        rw [hrun] at h
        obtain rfl := Except.ok.inj h
        exact valid_extractValue _ _ _

end Frame

/-! ### What is counted -/

/-- A read gives no more bytes than it is asked for. -/
theorem length_readAt_le {C : Crates} {r : EwfReader} {st st' : ReaderState} {off len : ℕ}
    {out : List UInt8} (h : r.readAt C st off len = (.ok out, st')) : out.length ≤ len := by
  have hloop : ∀ fuel st st' off want out, r.readLoop C fuel st off want = (.ok out, st') →
      out.length ≤ want := by
    intro fuel
    induction fuel with
    | zero =>
        intro st st' off want out h
        obtain ⟨hout, -⟩ := Prod.mk.inj h
        obtain rfl := Except.ok.inj hout
        exact Nat.zero_le _
    | succ fuel ih =>
        intro st st' off want out h
        have hle : r.turnSize off want ≤ want := by
          rw [EwfReader.turnSize]
          omega
        rw [EwfReader.readLoop] at h
        split_ifs at h
        · obtain ⟨hout, -⟩ := Prod.mk.inj h
          obtain rfl := Except.ok.inj hout
          exact Nat.zero_le _
        · split at h
          · cases h
          · next page st₁ hpage =>
              split at h
              · cases h
              · next rest st₂ hrest =>
                  obtain ⟨hout, -⟩ := Prod.mk.inj h
                  obtain rfl := Except.ok.inj hout
                  have hmore := ih _ _ _ _ _ hrest
                  have hturn : (r.turnBytes off want page).length ≤ r.turnSize off want := by
                    rw [EwfReader.turnBytes]
                    exact List.length_take_le _ _
                  rw [List.length_append]
                  omega
  exact hloop _ _ _ _ _ _ h

/-- **The bytes that are counted** are those that were written. -/
theorem extractLoop_length {T : Texts} {C : Crates} {reader : List UInt8 → EwfReader}
    {room fuel : ℕ} {st : ReaderState} {position remaining rest : ℕ} {written bytes : List UInt8}
    (h : extractLoop T C reader room fuel st position remaining written = (bytes, .ok rest)) :
    bytes.length + rest = written.length + remaining := by
  induction fuel generalizing st position remaining written with
  | zero =>
      obtain ⟨rfl, hrest⟩ := Prod.mk.inj h
      obtain rfl := Except.ok.inj hrest
      rfl
  | succ fuel ih =>
      rw [extractLoop] at h
      split_ifs at h with hzero
      · obtain ⟨rfl, hrest⟩ := Prod.mk.inj h
        obtain rfl := Except.ok.inj hrest
        rw [hzero]
      · split at h
        · cases (Prod.mk.inj h).2
        · next out st' hread =>
            have hle := length_readAt_le hread
            split_ifs at h
            · obtain ⟨rfl, hrest⟩ := Prod.mk.inj h
              obtain rfl := Except.ok.inj hrest
              rfl
            · have hstep := ih h
              rw [List.length_append] at hstep
              omega
            · cases (Prod.mk.inj h).2

/-- **An answer counts the bytes of the output**, whatever the image, and even if the output is a
file of the image. -/
theorem extract_counts {Name : Type} [DecidableEq Name] (T : Texts)
    (fs : FileSystem Path Name UInt8) (C : Crates) (env : Environment) (path : List Char)
    (offset : UInt64) (length : ℕ) (output : List Char) (fs' : FileSystem Path Name UInt8)
    (v : Json.Value)
    (h : handleEwfExtract T fs C env path offset length output = (fs', .ok v)) :
    FileSystem.Later fs fs' [fs.locate (pathOf output)] ∧
      ∃ bytes, fs'.read (pathOf output) = some bytes ∧ bytes.length ≤ length ∧
        v.get "bytes_written".toList = some (.nat bytes.length) := by
  have hlater := @later_handleEwfExtract Name _ T fs C env path output offset length
  rw [h] at hlater
  refine ⟨hlater, ?_⟩
  rcases @handleEwfExtract_cases Name _ T fs C env path output offset length with
    ⟨e, heq⟩ | ⟨r, position, fs₁, n, -, -, -, hcreate, run, hrun, heq⟩
  · rw [heq] at h
    cases (Prod.mk.inj h).2
  · rw [heq] at h
    obtain ⟨rfl, hv⟩ := Prod.mk.inj h
    obtain ⟨bytes, result⟩ := run
    cases result with
    | error e => cases hv
    | ok rest =>
        obtain rfl := Except.ok.inj hv
        have hlen := extractLoop_length hrun.symm
        rw [List.length_nil, Nat.zero_add] at hlen
        refine ⟨bytes, FileSystem.read_created hcreate bytes, by omega, ?_⟩
        have hcount : min length (r.totalSize - offset.toNat) - rest = bytes.length := by omega
        dsimp only
        rw [hcount, extractValue]
        exact get_jsonObject (by simp) (by simp)

/-! ### What is copied -/

section Copy

variable {C : Crates} {r : EwfReader} {blocks : List (List UInt8)} {T : Texts}

/-- **The loop copies a range** of the media, as far as there is room for it. -/
theorem extractLoop_eq (h : r.Stores C blocks) {reader : List UInt8 → EwfReader}
    (hreader : ∀ written, reader written = r) {room fuel : ℕ} {st : ReaderState}
    (hst : r.Reachable C st) {position remaining : ℕ} {written : List UInt8}
    (hfuel : remaining ≤ fuel) (hwritten : written.length ≤ room)
    (hrange : position + remaining ≤ blocks.flatten.length) :
    extractLoop T C reader room fuel st position remaining written =
      ((written ++ (blocks.flatten.drop position).take remaining).take room,
        if written.length + remaining ≤ room then .ok 0 else .error (.error T.write)) := by
  induction fuel generalizing st position remaining written with
  | zero =>
      obtain rfl : remaining = 0 := Nat.le_zero.mp hfuel
      rw [extractLoop, List.take_zero, List.append_nil, List.take_of_length_le hwritten, if_pos]
      exact hwritten
  | succ fuel ih =>
      rw [extractLoop, hreader]
      by_cases hzero : remaining = 0
      · rw [if_pos hzero, hzero, List.take_zero, List.append_nil, List.take_of_length_le hwritten,
          if_pos]
        exact hwritten
      · rw [if_neg hzero]
        obtain ⟨n, hn⟩ : ∃ n, n = min remaining bufSize := ⟨_, rfl⟩
        have hpos : 0 < n := by
          have hbuf : 0 < bufSize := by decide
          omega
        obtain ⟨out, hout⟩ : ∃ out, out = (blocks.flatten.drop position).take n := ⟨_, rfl⟩
        have hlen : out.length = n := by
          rw [hout, List.length_take, List.length_drop]
          omega
        have hne : out ≠ [] := List.length_pos_iff.mp (hlen ▸ hpos)
        -- The range is this piece and what follows it.
        have hsplit : (blocks.flatten.drop position).take remaining =
            out ++ (blocks.flatten.drop (position + n)).take (remaining - n) := by
          conv_lhs => rw [show remaining = n + (remaining - n) by omega]
          rw [List.take_add, ← hout, List.drop_drop]
        have hread := h.readAt_eq hst position n
        have hnext := hst.read position n
        rw [← hout] at hread
        rw [← hn]
        rcases hres : r.readAt C st position n with ⟨result, st'⟩
        rw [hres] at hread hnext
        obtain rfl : result = .ok out := hread
        simp only [if_neg hne, hlen]
        split_ifs with hroom htotal htotal
        · rw [ih hnext (by omega) (by rwa [List.length_append, hlen]) (by omega), hsplit,
            List.append_assoc, if_pos (by rw [List.length_append, hlen]; omega)]
        · rw [ih hnext (by omega) (by rwa [List.length_append, hlen]) (by omega), hsplit,
            List.append_assoc, if_neg (by rw [List.length_append, hlen]; omega)]
        · omega
        · have hroomy : room ≤ (written ++ out).length := by
            rw [List.length_append, hlen]
            omega
          rw [hsplit, ← List.append_assoc, List.take_append_of_le_length hroomy]

/-- The reader stays as it is when the output is no file of the image. -/
theorem liveReader_eq {Name : Type} {fs : FileSystem Path Name UInt8} {paths : List Path}
    {out : Path} (h : ∀ p ∈ paths, fs.fileAt p ≠ fs.fileAt out) (written : List UInt8) :
    liveReader fs paths out r written = r := by
  have hnone : ∀ segment : Segment, (paths.any fun p =>
      fs.fileAt p = fs.fileAt out ∧ fs.openFile p = some segment.data) = false := by
    intro segment
    rw [List.any_eq_false]
    intro p hp
    rw [decide_eq_true_eq]
    exact fun hboth => h p hp hboth.1
  simp only [liveReader, hnone, Bool.false_eq_true, if_false, List.map_id']

end Copy

section Stored

variable {Name : Type} [DecidableEq Name] (T : Texts) {fs : FileSystem Path Name UInt8}
  {C : Crates} (env : Environment) {path output : List Char} {names : List Path}
  {content : Path → Segment} {media : List UInt8}

/-- What is left behind and answered when an image is stored, and the output is none of its
files. -/
theorem handleEwfExtract_eq (himage : Image.ImageOf C (names.map content) media)
    (hstored : StoredIn fs (pathOf path) names) (hholds : Image.Holds fs names content)
    (hspare : ∀ p ∈ names, fs.fileAt p ≠ fs.fileAt (pathOf output))
    (hcreate : fs.mayCreate (fs.locate (pathOf output)) = true) {offset : UInt64}
    (hoffset : offset.toNat < media.length) (hhalf : offset.toNat < Cursor.half) (length : ℕ) :
    ∃ fs₁ n, fs.create (pathOf output) = some (fs₁, n) ∧
      handleEwfExtract T fs C env path offset length output =
        (fs₁.append n (((media.drop offset.toNat).take length).take env.room),
          if min length (media.length - offset.toNat) ≤ env.room then
            .ok (extractValue offset.toNat (min length (media.length - offset.toNat)) output)
          else .error (.error T.write)) := by
  obtain ⟨r, blocks, hopen, hstores, rfl, -⟩ := Image.exists_openPath himage hstored hholds
  obtain ⟨paths, hpaths, hperm⟩ := hstored.exists_discoverSegments
  obtain ⟨⟨fs₁, n⟩, hmade⟩ := Option.isSome_iff_exists.mp (FileSystem.isSome_create_iff.mpr hcreate)
  obtain ⟨len, hlen⟩ : ∃ len, len = min length (r.totalSize - offset.toNat) := ⟨_, rfl⟩
  have htotal := hstores.totalSize_eq
  have hreader : openReader T fs C path = .ok r := by
    rw [openReader, hopen]
    rfl
  -- The copy reads the files of the image, which do not change.
  have hrun : extractRun T fs C env (pathOf path) (pathOf output) r offset.toNat len =
      (((blocks.flatten.drop offset.toNat).take len).take env.room,
        if len ≤ env.room then .ok 0 else .error (.error T.write)) := by
    rw [extractRun, hpaths]
    have hloop := @extractLoop_eq C r blocks T hstores
      (liveReader fs paths (pathOf output) r)
      (liveReader_eq fun p hp => hspare p (hperm.mem_iff.mp hp)) env.room len r.init .init
      offset.toNat len [] (Nat.le_refl _) (Nat.zero_le _) (by omega)
    rw [List.nil_append, List.length_nil, Nat.zero_add] at hloop
    exact hloop
  have htake : (blocks.flatten.drop offset.toNat).take len =
      (blocks.flatten.drop offset.toNat).take length := by
    rw [List.take_eq_take_iff, List.length_drop]
    omega
  refine ⟨fs₁, n, hmade, ?_⟩
  rw [handleEwfExtract, hreader]
  dsimp only
  rw [extractFrom, if_neg (by omega), seekStart_eq hhalf, hmade]
  dsimp only
  rw [← htotal, ← hlen, hrun, htake]
  split_ifs <;> rfl

end Stored

/-- Texts of a system. -/
def sampleTexts : Texts :=
  ⟨String.toList, "corrupt deflate stream".toList, "Permission denied (os error 13)".toList,
    "No space left on device (os error 28)".toList⟩

theorem sampleDirectory_spare : ∀ p ∈ Image.sampleNames,
    Image.sampleDirectory.fileAt p ≠ Image.sampleDirectory.fileAt (pathOf "out".toList) := by
  decide +kernel

/-- With room for all of them, three are counted. -/
theorem extract_counts_sampleDirectory :
    ∃ (fs' : FileSystem Path Path UInt8) (v : Json.Value),
      FileSystem.Later Image.sampleDirectory fs'
        [Image.sampleDirectory.locate (pathOf "out".toList)] ∧
      ∃ bytes, fs'.read (pathOf "out".toList) = some bytes ∧ bytes.length ≤ 3 ∧
        v.get "bytes_written".toList = some (.nat bytes.length) := by
  obtain ⟨fs₁, n, -, heq⟩ := @handleEwfExtract_eq _ _ sampleTexts Image.sampleDirectory
    Crates.reference ⟨none⟩ "ev.ex02".toList "out".toList _ _ _ Image.sampleDirectory_image
    Image.sampleDirectory_stored Image.sampleDirectory_holds sampleDirectory_spare rfl 1
    (by decide) (by decide) 3
  rw [if_pos (by decide)] at heq
  exact ⟨_, _, extract_counts sampleTexts Image.sampleDirectory Crates.reference ⟨none⟩
    "ev.ex02".toList 1 3 "out".toList _ _ heq⟩

end EwfForensic.Cli

import EwfForensic.Core.Concurrent
import EwfForensic.Core.OpenPath

/-!
# Readers That Do Not Panic

The one slice of the reader that can be out of bounds is that of a section of a lazy chunk table.
An image opened by its path has an eager table, so neither the open nor anything that reads from
what it returns panics, whatever the bytes of its files.

* `Avoids`, `Quiet` — a call that does not fail in a certain way, or does not panic, with the rules
  that put calls together.
* `quiet_openPath` — opening by a path.
* `exists_eager_of_openPath` — the table of what was opened.
* `quiet_readAt`, `quiet_verify` — reading and verifying.
-/

namespace EwfForensic

open Octets

/-- A call that does not fail in a certain way. -/
def Avoids {ε α : Type} (bad : ε) (x : Except ε α) : Prop := x ≠ .error bad

/-- A call that does not panic. -/
abbrev Quiet {α : Type} (x : Except EwfError α) : Prop := Avoids EwfError.indexPanic x

section Rules

variable {ε α β σ : Type} {bad : ε}

@[simp] theorem avoids_ok (a : α) : Avoids bad (.ok a : Except ε α) := nofun

@[simp] theorem avoids_error_iff {e : ε} : Avoids bad (.error e : Except ε α) ↔ e ≠ bad :=
  not_congr ⟨Except.error.inj, congrArg _⟩

theorem Avoids.bind {x : Except ε α} {f : α → Except ε β} (hx : Avoids bad x)
    (hf : ∀ a, x = .ok a → Avoids bad (f a)) : Avoids bad (x >>= f) := by
  cases x with
  | error e => exact avoids_error_iff.mpr (avoids_error_iff.mp hx)
  | ok a => exact hf a rfl

theorem Avoids.map {x : Except ε α} (hx : Avoids bad x) (f : α → β) : Avoids bad (x.map f) := by
  cases x with
  | error e => exact avoids_error_iff.mpr (avoids_error_iff.mp hx)
  | ok a => exact avoids_ok _

/-- A loop whose turns avoid a failure. -/
theorem avoids_foldlM {step : σ → α → Except ε σ} (h : ∀ s a, Avoids bad (step s a))
    (l : List α) (s : σ) : Avoids bad (l.foldlM step s) := by
  induction l generalizing s with
  | nil => exact avoids_ok s
  | cons a l ih =>
      rw [List.foldlM_cons]
      exact (h s a).bind fun s' _ => ih s'

theorem avoids_mapM {f : α → Except ε β} {l : List α} (h : ∀ a ∈ l, Avoids bad (f a)) :
    Avoids bad (l.mapM f) := by
  induction l with
  | nil => exact avoids_ok []
  | cons a l ih =>
      obtain ⟨ha, hl⟩ := List.forall_mem_cons.mp h
      rw [List.mapM_cons]
      exact ha.bind fun b _ => (ih hl).bind fun bs _ => avoids_ok _

end Rules

/-! ### Opening an EWF v1 image -/

section V1

variable (C : Crates)

@[simp] theorem quiet_readExact (data : List UInt8) (off n : ℕ) : Quiet (readExact data off n) := by
  rw [readExact]
  split_ifs <;> simp

theorem quiet_checkSequential (pos : ℕ) (numbers : List ℕ) :
    Quiet (checkSequential pos numbers) := by
  induction numbers generalizing pos with
  | nil => exact avoids_ok ()
  | cons got rest ih =>
      rw [checkSequential]
      split_ifs
      · simp
      · exact ih _

theorem quiet_reorder {α : Type} (segments : List α) (numbers : List ℕ) :
    Quiet (validateAndReorderSegments segments numbers) := by
  rw [validateAndReorderSegments]
  have hcheck := quiet_checkSequential 0 ((sortByNumber (segments.zip numbers)).map (·.2))
  split
  · next e he =>
      rw [he] at hcheck
      exact avoids_error_iff.mpr (avoids_error_iff.mp hcheck)
  · exact avoids_ok _

theorem quiet_handleVolume (ctx : SegmentContext) (st : OpenState) (desc : SectionDescriptor) :
    Quiet (handleVolume ctx st desc) := by
  refine (quiet_readExact _ _ _).bind fun buf _ => Avoids.bind ?_ fun vol => ?_
  · rw [EwfVolume.parse]
    split_ifs <;> simp
  · dsimp only
    split_ifs <;> simp

theorem quiet_handleTableLazy (ctx : SegmentContext) (st : OpenState) (desc : SectionDescriptor) :
    Quiet (handleTableLazy ctx st desc) := by
  rw [handleTableLazy]
  split_ifs <;> simp [tooManyEntries]

theorem quiet_handleTableEager (ctx : SegmentContext) (st : OpenState) (desc : SectionDescriptor) :
    Quiet (handleTableEager ctx st desc) := by
  refine (quiet_readExact _ _ _).bind fun hdr _ => ?_
  dsimp only
  split_ifs
  · simp [tooManyEntries]
  · exact (quiet_readExact _ _ _).bind fun entries _ => avoids_ok _

theorem quiet_handleHeader (ctx : SegmentContext) (st : OpenState) (desc : SectionDescriptor) :
    Quiet (handleHeader C ctx st desc) := by
  rw [handleHeader]
  split_ifs
  · refine (quiet_readExact _ _ _).bind fun compressed _ => ?_
    split <;> simp
  · exact avoids_ok _

theorem quiet_handleError2 (ctx : SegmentContext) (st : OpenState) (desc : SectionDescriptor) :
    Quiet (handleError2 ctx st desc) := by
  rw [handleError2]
  split_ifs
  · exact (quiet_readExact _ _ _).bind fun buf _ => avoids_ok _
  · exact avoids_ok _

theorem quiet_handleDescriptor (lazy : Bool) (ctx : SegmentContext) (st : OpenState)
    (desc : SectionDescriptor) : Quiet (handleDescriptor C lazy ctx st desc) := by
  rw [handleDescriptor]
  split_ifs
  · exact quiet_handleVolume ctx st desc
  · exact quiet_handleTableLazy ctx st desc
  · exact quiet_handleTableEager ctx st desc
  · exact (quiet_readExact _ _ _).bind fun buf _ => avoids_ok _
  · exact (quiet_readExact _ _ _).bind fun buf _ => avoids_ok _
  · exact quiet_handleHeader C ctx st desc
  · exact quiet_handleError2 ctx st desc
  · exact avoids_ok _

theorem quiet_parseHeaders (sources : List Segment) : Quiet (parseHeaders sources) :=
  avoids_mapM fun src _ => by
    rw [EwfFileHeader.parse]
    split_ifs <;> simp

theorem quiet_openV1 (sources : List Segment) (cacheSize : ℕ) (lazySectionCache : Option ℕ) :
    Quiet (openV1 C sources cacheSize lazySectionCache) := by
  cases sources with
  | nil => simp [openV1]
  | cons first rest =>
      rw [openV1]
      split_ifs
      · simp
      · refine (quiet_parseHeaders _).bind fun headers _ =>
          (quiet_reorder _ _).bind fun ordered _ =>
            (avoids_foldlM (fun st p => ?_) _ _).bind fun st _ => ?_
        · exact avoids_foldlM (quiet_handleDescriptor C _ _) _ _
        · rw [finishOpen.eq_def]
          split_ifs <;> simp

end V1

/-! ### Opening an EWF v2 image -/

section V2

variable (C : Crates)

theorem quiet_ewf2FileHeader (buf : List UInt8) : Quiet (Ewf2FileHeader.parse buf) := by
  rw [Ewf2FileHeader.parse]
  split_ifs
  · simp
  · simp
  · refine Avoids.map ?_ _
    rw [CompressionMethod.fromU16]
    split_ifs <;> simp

theorem quiet_collectEwf2Descriptors (data : List UInt8) : Quiet (collectEwf2Descriptors data) := by
  have hstep : ∀ s p, collectStep data s = some p → Quiet p.1 := by
    intro s p h
    rw [collectStep] at h
    split_ifs at h
    · obtain rfl := Option.some.inj h
      simp
    · have hread := quiet_readExact data s.2 ewf2SectionDescriptorSize
      split at h
      · next e he =>
          rw [he] at hread
          obtain rfl := Option.some.inj h
          exact avoids_error_iff.mpr (avoids_error_iff.mp hread)
      · dsimp only at h
        split_ifs at h <;>
        · obtain rfl := Option.some.inj h
          simp
  rw [collectEwf2Descriptors]
  split_ifs
  · exact avoids_ok _
  · refine Avoids.map (avoids_mapM fun x hx => ?_) _
    exact @Loop.forall_visits _ _ (collectStep data) (fun _ => True) Quiet
      (fun _ _ _ _ _ => trivial) (fun s a t _ h => hstep s (a, t) h) _ _ trivial x hx

theorem quiet_dataOffset (name : String) (desc : Ewf2SectionDescriptor) :
    Quiet (desc.dataOffset name) := by
  rw [Ewf2SectionDescriptor.dataOffset]
  split_ifs <;> simp

theorem quiet_ewf2SectionText (data : List UInt8) (name : String) (desc : Ewf2SectionDescriptor) :
    Quiet (ewf2SectionText C data name desc) := by
  refine (quiet_dataOffset name desc).bind fun off _ => (quiet_readExact _ _ _).bind fun buf _ => ?_
  rw [maybeZlibDecompress]
  split_ifs
  · split <;> simp
  · exact avoids_ok _

theorem quiet_ewf2StoredHash (n : ℕ) (data : List UInt8) (name : String)
    (desc : Ewf2SectionDescriptor) : Quiet (ewf2StoredHash n data name desc) :=
  (quiet_dataOffset name desc).bind fun _ _ => (quiet_readExact _ _ _).bind fun _ _ => avoids_ok _

theorem quiet_handleSectorTable (segIdx : ℕ) (data : List UInt8) (st : OpenState)
    (desc : Ewf2SectionDescriptor) : Quiet (handleSectorTable segIdx data st desc) := by
  refine (quiet_dataOffset _ desc).bind fun off _ => (quiet_readExact _ _ _).bind fun hdr _ => ?_
  dsimp only
  split_ifs
  · simp [tooManyEntries]
  · exact (quiet_readExact _ _ _).bind fun entries _ => avoids_ok _

theorem quiet_handleDescriptorV2 (segIdx : ℕ) (data : List UInt8) (st : OpenState)
    (desc : Ewf2SectionDescriptor) : Quiet (handleDescriptorV2 C segIdx data st desc) := by
  rw [handleDescriptorV2]
  split_ifs
  · simp
  · split
    · rw [handleCaseData]
      split_ifs
      · exact (quiet_ewf2SectionText C data _ desc).bind fun _ _ => avoids_ok _
      · exact avoids_ok _
    · rw [handleDeviceInfo]
      split_ifs
      · exact (quiet_ewf2SectionText C data _ desc).bind fun _ _ => avoids_ok _
      · exact avoids_ok _
    · exact quiet_handleSectorTable segIdx data st desc
    · rw [handleMd5Hash]
      split_ifs
      · exact (quiet_ewf2StoredHash 16 data _ desc).bind fun _ _ => avoids_ok _
      · exact avoids_ok _
    · rw [handleSha1Hash]
      split_ifs
      · exact (quiet_ewf2StoredHash 20 data _ desc).bind fun _ _ => avoids_ok _
      · exact avoids_ok _
    · exact avoids_ok _

theorem quiet_openSegmentsV2 (sources : List Segment) (cacheSize : ℕ) :
    Quiet (openSegmentsV2 C sources cacheSize) := by
  refine Avoids.bind (avoids_mapM fun src _ => ?_) fun headers _ =>
    (quiet_reorder _ _).bind fun ordered _ => (avoids_foldlM (fun st p => ?_) _ _).bind fun st _ =>
      avoids_ok _
  · exact (quiet_readExact _ _ _).bind fun buf _ => quiet_ewf2FileHeader buf
  · exact (quiet_collectEwf2Descriptors _).bind fun descriptors _ =>
      avoids_foldlM (quiet_handleDescriptorV2 C _ _) _ _

end V2

/-! ### Opening by a path -/

section Path

variable {Name : Type} (fs : FileSystem Path Name UInt8) (C : Crates)

theorem quiet_discoverSegments (first : Path) : Quiet (discoverSegments fs first) := by
  rw [discoverSegments]
  dsimp only
  split
  · simp
  · split_ifs <;> simp

theorem quiet_openSource (path : Path) : Quiet (openSource fs path) := by
  rw [openSource]
  split
  · simp
  · split_ifs <;> simp

/-- **Opening by a path does not panic**, whatever the files hold. -/
theorem quiet_openPath (first : Path) : Quiet (openPath fs C first) := by
  refine (quiet_discoverSegments fs first).bind fun paths _ => ?_
  cases paths with
  | nil => simp [openSegmentPaths]
  | cons p paths =>
      refine Avoids.bind ?_ fun v2 _ => ?_
      · exact (quiet_openSource fs p).bind fun probe _ => (quiet_readExact _ _ _).bind fun sig _ =>
          avoids_ok _
      · split_ifs
        · refine Avoids.bind (avoids_mapM fun q _ => ?_) fun sources _ =>
            quiet_openSegmentsV2 C sources _
          exact (quiet_openSource fs q).bind fun src _ => (quiet_readExact _ _ _).bind fun buf _ =>
            (quiet_ewf2FileHeader buf).bind fun _ _ => avoids_ok _
        · exact Avoids.bind (avoids_mapM fun q _ => quiet_openSource fs q) fun sources _ =>
            quiet_openV1 C sources _ _

/-- **What a path opens has an eager table.** -/
theorem exists_eager_of_openPath {first : Path} {r : EwfReader}
    (h : openPath fs C first = .ok r) : ∃ chunks, r.chunks = .eager chunks := by
  obtain ⟨paths, -, h⟩ := except_bind_eq_ok_iff.mp h
  cases paths with
  | nil => cases h
  | cons p paths =>
      obtain ⟨v2, -, h⟩ := except_bind_eq_ok_iff.mp h
      split_ifs at h
      · obtain ⟨sources, -, h⟩ := except_bind_eq_ok_iff.mp h
        obtain ⟨headers, -, h⟩ := except_bind_eq_ok_iff.mp h
        obtain ⟨ordered, -, h⟩ := except_bind_eq_ok_iff.mp h
        obtain ⟨st, -, h⟩ := except_bind_eq_ok_iff.mp h
        obtain rfl := Except.ok.inj h
        exact ⟨_, rfl⟩
      · obtain ⟨sources, -, h⟩ := except_bind_eq_ok_iff.mp h
        cases sources with
        | nil => cases h
        | cons first rest =>
            rw [openV1] at h
            split_ifs at h
            obtain ⟨headers, -, h⟩ := except_bind_eq_ok_iff.mp h
            obtain ⟨ordered, -, h⟩ := except_bind_eq_ok_iff.mp h
            obtain ⟨st, -, h⟩ := except_bind_eq_ok_iff.mp h
            rw [finishOpen.eq_def] at h
            split_ifs at h
            obtain rfl := Except.ok.inj h
            exact ⟨_, rfl⟩

end Path

/-! ### Reading and verifying -/

section Reading

variable {C : Crates} {r : EwfReader} {chunks : List Chunk}

/-- **A read does not panic**, whatever the caches hold. -/
theorem quiet_readAt (hchunks : r.chunks = .eager chunks) (st : ReaderState) (off len : ℕ) :
    Quiet (r.readAt C st off len).1 := by
  have hchunk : ∀ st i, Quiet (r.readChunk C st i).1 := by
    intro st i
    rw [EwfReader.readChunk, EwfReader.decompressChunk, hchunks, ChunkTable.get]
    cases st.pages.get i with
    | some hit => exact avoids_ok _
    | none =>
        cases chunks[i]? with
        | none => simp [outOfRange]
        | some chunk =>
            have hpage := @decodePage_ne_indexPanic C r.segments r.chunkSize i chunk
            dsimp only
            split
            · next e _ he =>
                obtain ⟨he, -⟩ := Prod.mk.inj he
                rw [he] at hpage
                exact avoids_error_iff.mpr (avoids_error_iff.mp hpage)
            · exact avoids_ok _
  have hloop : ∀ fuel st off want, Quiet (r.readLoop C fuel st off want).1 := by
    intro fuel
    induction fuel with
    | zero => exact fun _ _ _ => avoids_ok _
    | succ fuel ih =>
        intro st off want
        have hread := hchunk st (off / r.chunkSize)
        rw [EwfReader.readLoop]
        split_ifs
        · exact avoids_ok _
        · split
          · next e _ he =>
              rw [he] at hread
              exact avoids_error_iff.mpr (avoids_error_iff.mp hread)
          · next page st' _ =>
              have hrest := ih st' (off + r.turnSize off want) (want - r.turnSize off want)
              split
              · next e _ he =>
                  rw [he] at hrest
                  exact avoids_error_iff.mpr (avoids_error_iff.mp hrest)
              · exact avoids_ok _
  exact hloop _ _ _ _

/-- **Verifying does not panic.** -/
theorem quiet_verify (hchunks : r.chunks = .eager chunks) (threads : ℕ) :
    Quiet (r.verify C threads) := by
  have hno : r.chunks.NoOverflow r.segments := by
    rw [hchunks]
    trivial
  have hloop : ∀ fuel start hashed, Quiet (r.verifyLoop C (max (satMul threads 4) 1) fuel start
      hashed) := by
    intro fuel
    induction fuel with
    | zero => exact fun _ _ => avoids_ok _
    | succ fuel ih =>
        intro start hashed
        rw [EwfReader.verifyLoop]
        split_ifs
        · exact avoids_ok _
        · have hpages : Quiet (r.batchPages C start
              (min (start + max (satMul threads 4) 1) r.chunks.len)) :=
            avoids_mapM fun i _ => EwfReader.page_ne_indexPanic hno i
          split
          · next e he =>
              rw [he] at hpages
              exact avoids_error_iff.mpr (avoids_error_iff.mp hpages)
          · next pages hp =>
              have hrest := ih (start + max (satMul threads 4) 1)
                (feedPages r.totalSize hashed pages).2
              dsimp only
              split
              · next e he =>
                  rw [he] at hrest
                  exact avoids_error_iff.mpr (avoids_error_iff.mp hrest)
              · exact avoids_ok _
  have hstream : Quiet (r.verifyStream C threads) := hloop _ _ _
  rw [EwfReader.verify]
  split
  · next e he =>
      rw [he] at hstream
      exact avoids_error_iff.mpr (avoids_error_iff.mp hstream)
  · exact avoids_ok _

end Reading

end EwfForensic

import EwfForensic.Core.Open

/-!
# Reading an EWF v1 Image

The read path of `core/src/reader.rs`: `decompress_chunk`, `read_chunk` with its page cache,
`read_at` and `verify`. A read threads the reader's two caches as a state.

## Main results

* `EwfReader.readAt_eq_read` — from coherent caches, `read_at` returns what the cacheless
  `EwfReader.read` returns, and leaves coherent caches; so after any sequence of reads
  (`Reachable`) the caches are unobservable.
* `EwfReader.read_eq_ok_iff` — a read succeeds exactly when every chunk it touches decodes,
  and then returns the bytes at the offset of the chunks' pages in order.
* `EwfReader.verifyStream_eq_ok_iff` — `verify` hashes the pages of all chunks in order, cut
  at the image size, whatever the batch size.
-/

namespace EwfForensic

open Octets

/-! ### One chunk -/

/-- A buffer of `n` zero bytes after `bytes` were written to its front. -/
def padPage (n : ℕ) (bytes : List UInt8) : List UInt8 :=
  bytes ++ List.replicate (n - bytes.length) 0

theorem length_padPage {n : ℕ} {bytes : List UInt8} (h : bytes.length ≤ n) :
    (padPage n bytes).length = n := by
  simp only [padPage, List.length_append, List.length_replicate]
  omega

/-- `decompress_chunk` once the chunk's metadata is known. -/
def decodePage (C : Crates) (segments : List Segment) (chunkSize chunkId : ℕ) (chunk : Chunk) :
    Except EwfError (List UInt8) :=
  match segments[chunk.segmentIdx]? with
  | none =>
    .error (.parse ("chunk " ++ toString chunkId ++ " references missing segment " ++
      toString chunk.segmentIdx))
  | some src =>
    if chunk.compressed then
      match C.zlib.readUpTo chunkSize (readAtMost src.data chunk.offset chunk.size) with
      | none => .error .decompression
      | some out => .ok (padPage chunkSize out)
    else
      let toRead := min chunk.size chunkSize
      let got := readAtMost src.data chunk.offset toRead
      if got.length < toRead then
        .error (.io ("short read for chunk " ++ toString chunkId ++ ": got " ++
          toString got.length ++ " of " ++ toString toRead ++ " bytes"))
      else .ok (padPage chunkSize got)

/-- A page is a whole chunk long. -/
theorem length_decodePage {C : Crates} {segments : List Segment} {chunkSize chunkId : ℕ}
    {chunk : Chunk} {page : List UInt8}
    (h : decodePage C segments chunkSize chunkId chunk = .ok page) :
    page.length = chunkSize := by
  rw [decodePage] at h
  split at h
  · cases h
  · next src hsrc =>
      split_ifs at h with hc
      · split at h
        · cases h
        · next out hout =>
            obtain rfl := Except.ok.inj h
            exact length_padPage (C.zlib.length_readUpTo _ _ _ hout)
      · simp only at h
        split_ifs at h with hlt
        obtain rfl := Except.ok.inj h
        refine length_padPage ?_
        rw [readAtMost]
        rw [List.length_take]
        omega

/-- The page of a chunk, without any cache. -/
def EwfReader.page (C : Crates) (r : EwfReader) (chunkId : ℕ) : Except EwfError (List UInt8) :=
  match r.chunks.find r.segments chunkId with
  | .error e => .error e
  | .ok chunk => decodePage C r.segments r.chunkSize chunkId chunk

theorem EwfReader.length_page {C : Crates} {r : EwfReader} {chunkId : ℕ} {page : List UInt8}
    (h : r.page C chunkId = .ok page) : page.length = r.chunkSize := by
  rw [EwfReader.page] at h
  split at h
  · cases h
  · exact length_decodePage h

/-! ### Caches -/

/-- The state that reads change: the page cache and the section cache. -/
structure ReaderState where
  pages : Lru ℕ (List UInt8)
  sections : Lru ℕ (List Chunk)

/-- The caches of a freshly opened reader. -/
def EwfReader.init (r : EwfReader) : ReaderState where
  pages := .empty r.cacheSize
  sections := .empty <|
    match r.chunks with
    | .eager _ => 0
    | .lazy t => t.sectionCacheCap

/-- `decompress_chunk`. -/
def EwfReader.decompressChunk (C : Crates) (r : EwfReader) (sections : Lru ℕ (List Chunk))
    (chunkId : ℕ) : Except EwfError (List UInt8) × Lru ℕ (List Chunk) :=
  match r.chunks.get r.segments sections chunkId with
  | (.error e, sections') => (.error e, sections')
  | (.ok chunk, sections') => (decodePage C r.segments r.chunkSize chunkId chunk, sections')

/-- `read_chunk`: from the page cache, or decompressed and cached. -/
def EwfReader.readChunk (C : Crates) (r : EwfReader) (st : ReaderState) (chunkId : ℕ) :
    Except EwfError (List UInt8) × ReaderState :=
  match st.pages.get chunkId with
  | some (page, pages') => (.ok page, { st with pages := pages' })
  | none =>
    match r.decompressChunk C st.sections chunkId with
    | (.error e, sections') => (.error e, { st with sections := sections' })
    | (.ok page, sections') => (.ok page, ⟨st.pages.put chunkId page, sections'⟩)

/-- Every cached page and section is what an uncached call would compute. -/
def EwfReader.Coherent (C : Crates) (r : EwfReader) (st : ReaderState) : Prop :=
  st.pages.Holds (fun chunkId page => r.page C chunkId = .ok page) ∧
    r.chunks.Coherent r.segments st.sections

theorem EwfReader.coherent_init (C : Crates) (r : EwfReader) : r.Coherent C r.init := by
  refine ⟨Lru.holds_empty _, ?_⟩
  unfold ChunkTable.Coherent
  cases hch : r.chunks with
  | eager chunks => trivial
  | lazy t => exact Lru.holds_empty _

theorem EwfReader.decompressChunk_eq (C : Crates) (r : EwfReader)
    {sections : Lru ℕ (List Chunk)} (h : r.chunks.Coherent r.segments sections)
    (chunkId : ℕ) :
    (r.decompressChunk C sections chunkId).1 = r.page C chunkId ∧
      r.chunks.Coherent r.segments (r.decompressChunk C sections chunkId).2 := by
  obtain ⟨hval, hcoh⟩ := r.chunks.get_eq_find r.segments h chunkId
  rw [EwfReader.decompressChunk, EwfReader.page]
  rw [← hval]
  match hg : r.chunks.get r.segments sections chunkId with
  | (.error e, sections') => exact ⟨rfl, by rwa [hg] at hcoh⟩
  | (.ok chunk, sections') => exact ⟨rfl, by rwa [hg] at hcoh⟩

/-- **The page cache is transparent.** -/
theorem EwfReader.readChunk_eq (C : Crates) (r : EwfReader) {st : ReaderState}
    (h : r.Coherent C st) (chunkId : ℕ) :
    (r.readChunk C st chunkId).1 = r.page C chunkId ∧
      r.Coherent C (r.readChunk C st chunkId).2 := by
  obtain ⟨hpages, hsecs⟩ := h
  rw [EwfReader.readChunk]
  cases hget : st.pages.get chunkId with
  | some hit =>
      obtain ⟨page, pages'⟩ := hit
      exact ⟨(hpages.of_get hget).symm, hpages.get hget, hsecs⟩
  | none =>
      obtain ⟨hval, hcoh⟩ := r.decompressChunk_eq C hsecs chunkId
      match hd : r.decompressChunk C st.sections chunkId with
      | (.error e, sections') =>
          rw [hd] at hval hcoh
          exact ⟨hval, hpages, hcoh⟩
      | (.ok page, sections') =>
          rw [hd] at hval hcoh
          exact ⟨hval, hpages.put hval.symm, hcoh⟩

/-! ### Positioned reads -/

/-- The number of bytes one turn of `read_at` copies. -/
def EwfReader.turnSize (r : EwfReader) (off want : ℕ) : ℕ :=
  min (min (r.chunkSize - off % r.chunkSize) (r.totalSize - off)) want

/-- The bytes of a page that one turn of `read_at` copies. -/
def EwfReader.turnBytes (r : EwfReader) (off want : ℕ) (page : List UInt8) : List UInt8 :=
  (page.drop (off % r.chunkSize)).take (r.turnSize off want)

/-- The loop of `read_at`. Every turn that goes on copies at least one byte, so a fuel of
one more than the bytes wanted is never used up. -/
def EwfReader.readLoop (C : Crates) (r : EwfReader) :
    ℕ → ReaderState → ℕ → ℕ → Except EwfError (List UInt8) × ReaderState
  | 0, st, _, _ => (.ok [], st)
  | fuel + 1, st, off, want =>
    let toRead := r.turnSize off want
    if toRead = 0 then (.ok [], st)
    else
      match r.readChunk C st (off / r.chunkSize) with
      | (.error e, st') => (.error e, st')
      | (.ok page, st') =>
        match r.readLoop C fuel st' (off + toRead) (want - toRead) with
        | (.error e, st'') => (.error e, st'')
        | (.ok rest, st'') => (.ok (r.turnBytes off want page ++ rest), st'')

/-- `read_at` into a buffer of `len` bytes: the bytes delivered and the caches after. -/
def EwfReader.readAt (C : Crates) (r : EwfReader) (st : ReaderState) (off len : ℕ) :
    Except EwfError (List UInt8) × ReaderState :=
  r.readLoop C (len + 1) st off len

/-- The loop of `read_at` without caches. -/
def EwfReader.pureLoop (C : Crates) (r : EwfReader) :
    ℕ → ℕ → ℕ → Except EwfError (List UInt8)
  | 0, _, _ => .ok []
  | fuel + 1, off, want =>
    let toRead := r.turnSize off want
    if toRead = 0 then .ok []
    else
      match r.page C (off / r.chunkSize) with
      | .error e => .error e
      | .ok page =>
        match r.pureLoop C fuel (off + toRead) (want - toRead) with
        | .error e => .error e
        | .ok rest => .ok (r.turnBytes off want page ++ rest)

/-- What `read_at` returns, with every chunk decoded anew. -/
def EwfReader.read (C : Crates) (r : EwfReader) (off len : ℕ) : Except EwfError (List UInt8) :=
  r.pureLoop C (len + 1) off len

theorem EwfReader.readLoop_eq_pureLoop (C : Crates) (r : EwfReader) (fuel : ℕ)
    {st : ReaderState} (h : r.Coherent C st) (off want : ℕ) :
    (r.readLoop C fuel st off want).1 = r.pureLoop C fuel off want ∧
      r.Coherent C (r.readLoop C fuel st off want).2 := by
  induction fuel generalizing st off want with
  | zero => exact ⟨rfl, h⟩
  | succ fuel ih =>
      obtain ⟨hval, hcoh⟩ := r.readChunk_eq C h (off / r.chunkSize)
      simp only [readLoop, pureLoop]
      split_ifs with hz
      · exact ⟨rfl, h⟩
      · match hr : r.readChunk C st (off / r.chunkSize) with
        | (.error e, st') =>
            rw [hr] at hval hcoh
            simp only [← hval]
            exact ⟨trivial, hcoh⟩
        | (.ok page, st') =>
            rw [hr] at hval hcoh
            obtain ⟨hval', hcoh'⟩ :=
              ih hcoh (off + r.turnSize off want) (want - r.turnSize off want)
            simp only [← hval, ← hval']
            match hl : r.readLoop C fuel st' (off + r.turnSize off want)
                (want - r.turnSize off want) with
            | (.error e, st'') => exact ⟨rfl, by rwa [hl] at hcoh'⟩
            | (.ok rest, st'') => exact ⟨rfl, by rwa [hl] at hcoh'⟩

/-- **The caches are unobservable**: from coherent caches, a read returns what a read
without caches returns, and leaves coherent caches. -/
theorem EwfReader.readAt_eq_read (C : Crates) (r : EwfReader) {st : ReaderState}
    (h : r.Coherent C st) (off len : ℕ) :
    (r.readAt C st off len).1 = r.read C off len ∧ r.Coherent C (r.readAt C st off len).2 :=
  r.readLoop_eq_pureLoop C (len + 1) h off len

/-- The cache states that reads can lead to. -/
inductive EwfReader.Reachable (C : Crates) (r : EwfReader) : ReaderState → Prop where
  | init : Reachable C r r.init
  | read {st : ReaderState} (h : Reachable C r st) (off len : ℕ) :
      Reachable C r (r.readAt C st off len).2

theorem EwfReader.Reachable.coherent {C : Crates} {r : EwfReader} {st : ReaderState}
    (h : r.Reachable C st) : r.Coherent C st := by
  induction h with
  | init => exact r.coherent_init C
  | read _ off len ih => exact (r.readAt_eq_read C ih off len).2

/-- A read from any reachable state is a read without caches. -/
theorem EwfReader.Reachable.readAt_eq {C : Crates} {r : EwfReader} {st : ReaderState}
    (h : r.Reachable C st) (off len : ℕ) : (r.readAt C st off len).1 = r.read C off len :=
  (r.readAt_eq_read C h.coherent off len).1

/-! ### What a read returns -/

/-- The number of bytes that a read at `off` into `len` bytes can deliver. -/
def EwfReader.available (r : EwfReader) (off len : ℕ) : ℕ := min len (r.totalSize - off)

/-- Chunk `i` backs a byte that a read at `off` into `len` bytes delivers. -/
def EwfReader.Touches (r : EwfReader) (off len i : ℕ) : Prop :=
  ∃ p, off ≤ p ∧ p < off + r.available off len ∧ p / r.chunkSize = i

variable {C : Crates} {r : EwfReader}

/-- A turn that copies nothing leaves nothing to copy. -/
theorem EwfReader.turnSize_eq_zero_iff (hcs : 0 < r.chunkSize) (off want : ℕ) :
    r.turnSize off want = 0 ↔ r.available off want = 0 := by
  have := Nat.mod_lt off hcs
  rw [EwfReader.turnSize, EwfReader.available]
  omega

/-- A turn stays in one chunk. -/
theorem EwfReader.div_of_turn (hcs : 0 < r.chunkSize) {off want p : ℕ} (h1 : off ≤ p)
    (h2 : p < off + r.turnSize off want) : p / r.chunkSize = off / r.chunkSize := by
  have hmod := Nat.mod_lt off hcs
  have hdm := Nat.div_add_mod off r.chunkSize
  have hle : r.turnSize off want ≤ r.chunkSize - off % r.chunkSize :=
    le_trans (Nat.min_le_left _ _) (Nat.min_le_left _ _)
  apply Nat.div_eq_of_lt_le
  · rw [Nat.mul_comm]
    omega
  · rw [Nat.add_mul, Nat.mul_comm]
    omega

/-- Within a turn the places in the chunk follow each other. -/
theorem EwfReader.mod_of_turn (hcs : 0 < r.chunkSize) {off want j : ℕ}
    (hj : j < r.turnSize off want) : (off + j) % r.chunkSize = off % r.chunkSize + j := by
  have hdiv := @EwfReader.div_of_turn r hcs off want (off + j) (by omega) (by omega)
  have h1 := Nat.div_add_mod (off + j) r.chunkSize
  have h2 := Nat.div_add_mod off r.chunkSize
  rw [hdiv] at h1
  omega

/-- After a turn, what is left to copy is what is left of the whole read. -/
theorem EwfReader.available_after_turn (off want : ℕ) :
    r.available (off + r.turnSize off want) (want - r.turnSize off want) =
      r.available off want - r.turnSize off want := by
  unfold EwfReader.available EwfReader.turnSize
  omega

theorem EwfReader.turnSize_le_available (off want : ℕ) :
    r.turnSize off want ≤ r.available off want := by
  rw [EwfReader.available, EwfReader.turnSize]
  omega

/-- A turn copies as much as it should from a whole page. -/
theorem EwfReader.length_turnBytes (hcs : 0 < r.chunkSize) {off want : ℕ} {page : List UInt8}
    (hpage : page.length = r.chunkSize) :
    (r.turnBytes off want page).length = r.turnSize off want := by
  have hmod := Nat.mod_lt off hcs
  have hle : r.turnSize off want ≤ r.chunkSize - off % r.chunkSize :=
    le_trans (Nat.min_le_left _ _) (Nat.min_le_left _ _)
  simp only [turnBytes, List.length_take, List.length_drop, hpage]
  omega

theorem EwfReader.getElem?_turnBytes {off want j : ℕ} (hj : j < r.turnSize off want)
    (page : List UInt8) :
    (r.turnBytes off want page)[j]? = page[off % r.chunkSize + j]? := by
  rw [turnBytes, List.getElem?_take_of_lt hj, List.getElem?_drop]

/-- The loop without caches succeeds exactly when every chunk it touches decodes, and then
each byte delivered is the byte of its chunk's page. -/
theorem EwfReader.pureLoop_eq_ok_iff (hcs : 0 < r.chunkSize) {fuel off want : ℕ}
    (hf : want < fuel) {out : List UInt8} :
    r.pureLoop C fuel off want = .ok out ↔
      out.length = r.available off want ∧
        ∀ j < r.available off want, ∃ page, r.page C ((off + j) / r.chunkSize) = .ok page ∧
          out[j]? = page[(off + j) % r.chunkSize]? := by
  induction fuel generalizing off want out with
  | zero => omega
  | succ fuel ih =>
      simp only [pureLoop]
      split_ifs with hz
      · have ha := (r.turnSize_eq_zero_iff hcs off want).mp hz
        simp only [Except.ok.injEq, ha, List.length_eq_zero_iff, Nat.not_lt_zero, false_implies,
          implies_true, and_true]
        exact eq_comm
      · set n := r.turnSize off want with hn
        have hle := r.turnSize_le_available off want
        have hav := r.available_after_turn off want
        rw [← hn] at hle hav
        have hwant : r.available off want ≤ want := Nat.min_le_left _ _
        have ih' := fun out => @ih (off + n) (want - n) (by omega) out
        rw [hav] at ih'
        have hdiv : ∀ j < n, (off + j) / r.chunkSize = off / r.chunkSize := fun j hj =>
          @EwfReader.div_of_turn r hcs off want (off + j) (by omega) (by omega)
        have hmod : ∀ j < n, (off + j) % r.chunkSize = off % r.chunkSize + j :=
          fun j hj => r.mod_of_turn hcs hj
        cases hp : r.page C (off / r.chunkSize) with
        | error e =>
            simp only [reduceCtorEq, false_iff]
            rintro ⟨-, hall⟩
            obtain ⟨page, hpage, -⟩ := hall 0 (by omega)
            rw [Nat.add_zero, hp] at hpage
            cases hpage
        | ok page =>
            have hturn : (r.turnBytes off want page).length = n :=
              r.length_turnBytes hcs (r.length_page hp)
            have hget : ∀ j < n,
                (r.turnBytes off want page)[j]? = page[off % r.chunkSize + j]? :=
              fun j hj => r.getElem?_turnBytes hj page
            cases hl : r.pureLoop C fuel (off + n) (want - n) with
            | error e =>
                simp only [reduceCtorEq, false_iff]
                rintro ⟨hlen, hall⟩
                have hrest : r.pureLoop C fuel (off + n) (want - n) = .ok (out.drop n) := by
                  rw [ih']
                  refine ⟨by rw [List.length_drop, hlen], fun j hj => ?_⟩
                  obtain ⟨pg, hpg, hj'⟩ := hall (n + j) (by omega)
                  rw [List.getElem?_drop]
                  exact ⟨pg, by rwa [Nat.add_assoc], by rwa [Nat.add_assoc]⟩
                rw [hl] at hrest
                cases hrest
            | ok rest =>
                obtain ⟨hrlen, hrall⟩ := (ih' rest).mp hl
                simp only [Except.ok.injEq]
                constructor
                · rintro rfl
                  refine ⟨by rw [List.length_append, hturn, hrlen]; omega, fun j hj => ?_⟩
                  by_cases hjn : j < n
                  · refine ⟨page, by rw [hdiv j hjn, hp], ?_⟩
                    rw [List.getElem?_append_left (by omega), hget j hjn, hmod j hjn]
                  · obtain ⟨pg, hpg, hj'⟩ := hrall (j - n) (by omega)
                    rw [show off + n + (j - n) = off + j by omega] at hpg hj'
                    exact ⟨pg, hpg, by rw [List.getElem?_append_right (by omega), hturn, hj']⟩
                · rintro ⟨hlen, hall⟩
                  apply List.ext_getElem?
                  intro j
                  by_cases hj : j < r.available off want
                  · obtain ⟨pg, hpg, hj'⟩ := hall j hj
                    rw [hj']
                    by_cases hjn : j < n
                    · rw [hdiv j hjn, hp] at hpg
                      obtain rfl := Except.ok.inj hpg
                      rw [List.getElem?_append_left (by omega), hget j hjn, hmod j hjn]
                    · obtain ⟨pg', hpg', hj''⟩ := hrall (j - n) (by omega)
                      rw [show off + n + (j - n) = off + j by omega] at hpg' hj''
                      rw [hpg'] at hpg
                      obtain rfl := Except.ok.inj hpg
                      rw [List.getElem?_append_right (by omega), hturn, hj'']
                  · rw [List.getElem?_eq_none (by rw [List.length_append, hturn, hrlen]; omega),
                      List.getElem?_eq_none (by omega)]

/-- **What a read returns.** A read succeeds exactly when every chunk it touches decodes,
and then each byte it delivers is the byte of its chunk's page. -/
theorem EwfReader.read_eq_ok_iff (hcs : 0 < r.chunkSize) {off len : ℕ} {out : List UInt8} :
    r.read C off len = .ok out ↔
      out.length = r.available off len ∧
        ∀ j < r.available off len, ∃ page, r.page C ((off + j) / r.chunkSize) = .ok page ∧
          out[j]? = page[(off + j) % r.chunkSize]? :=
  r.pureLoop_eq_ok_iff hcs (Nat.lt_succ_self len)

/-- A chunk that a successful read touches decodes. -/
theorem EwfReader.page_of_touches (hcs : 0 < r.chunkSize) {off len i : ℕ} {out : List UInt8}
    (h : r.read C off len = .ok out) (ht : r.Touches off len i) :
    ∃ page, r.page C i = .ok page := by
  obtain ⟨p, h1, h2, rfl⟩ := ht
  obtain ⟨page, hpage, -⟩ := ((r.read_eq_ok_iff hcs).mp h).2 (p - off) (by omega)
  rw [show off + (p - off) = p by omega] at hpage
  exact ⟨page, hpage⟩

/-- A read succeeds when every chunk it touches decodes. -/
theorem EwfReader.exists_read_eq_ok (hcs : 0 < r.chunkSize) {off len : ℕ}
    (h : ∀ i, r.Touches off len i → ∃ page, r.page C i = .ok page) :
    ∃ out, r.read C off len = .ok out := by
  have hp : ∀ j : Fin (r.available off len), ∃ b : UInt8, ∃ page,
      r.page C ((off + j) / r.chunkSize) = .ok page ∧
        page[(off + j) % r.chunkSize]? = some b := by
    intro j
    obtain ⟨page, hpage⟩ := h _ ⟨off + j, by omega, by omega, rfl⟩
    have hlt : (off + j) % r.chunkSize < page.length := by
      rw [r.length_page hpage]
      exact Nat.mod_lt _ hcs
    exact ⟨page[(off + j) % r.chunkSize], page, hpage, List.getElem?_eq_getElem hlt⟩
  choose b hb using hp
  refine ⟨List.ofFn b, (r.read_eq_ok_iff hcs).mpr ⟨List.length_ofFn, fun j hj => ?_⟩⟩
  obtain ⟨page, hpage, hget⟩ := hb ⟨j, hj⟩
  exact ⟨page, hpage, by rw [hget]; simp [hj]⟩

/-! ### Verification -/

/-- The pages of a batch of chunks; an error of any chunk is an error of the batch. -/
def EwfReader.batchPages (C : Crates) (r : EwfReader) (start stop : ℕ) :
    Except EwfError (List (List UInt8)) :=
  (List.range' start (stop - start)).mapM (r.page C)

/-- Feed pages to the hashers in order, each cut at the bytes of the image that remain. -/
def feedPages (totalSize : ℕ) : ℕ → List (List UInt8) → List UInt8 × ℕ
  | hashed, [] => ([], hashed)
  | hashed, page :: pages =>
    let take := min page.length (totalSize - hashed)
    let rest := feedPages totalSize (hashed + take) pages
    (page.take take ++ rest.1, rest.2)

/-- The batch loop of `verify`: the stream that is hashed. -/
def EwfReader.verifyLoop (C : Crates) (r : EwfReader) (batch : ℕ) :
    ℕ → ℕ → ℕ → Except EwfError (List UInt8)
  | 0, _, _ => .ok []
  | fuel + 1, start, hashed =>
    if start ≥ r.chunks.len then .ok []
    else
      match r.batchPages C start (min (start + batch) r.chunks.len) with
      | .error e => .error e
      | .ok pages =>
        let fed := feedPages r.totalSize hashed pages
        match r.verifyLoop C batch fuel (start + batch) fed.2 with
        | .error e => .error e
        | .ok rest => .ok (fed.1 ++ rest)

/-- The stream that `verify` hashes with `threads` worker threads. -/
def EwfReader.verifyStream (C : Crates) (r : EwfReader) (threads : ℕ) :
    Except EwfError (List UInt8) :=
  r.verifyLoop C (max (satMul threads 4) 1) (r.chunks.len + 1) 0 0

/-- `VerifyResult`. -/
structure VerifyResult where
  computedMd5 : Digest.Bytes 16
  computedSha1 : Option (Digest.Bytes 20)
  md5Match : Option Bool
  sha1Match : Option Bool
  addressableBytes : ℕ
  declaredBytes : ℕ
  deriving DecidableEq

/-- `EwfReader::verify` with `threads` worker threads. The product of the addressable bytes
wraps as an unchecked 64-bit product does. -/
def EwfReader.verify (C : Crates) (r : EwfReader) (threads : ℕ) : Except EwfError VerifyResult :=
  match r.verifyStream C threads with
  | .error e => .error e
  | .ok stream =>
    let computedMd5 := C.md5 stream
    let computedSha1 := r.storedSha1.map fun _ => C.sha1 stream
    .ok
      { computedMd5 := computedMd5
        computedSha1 := computedSha1
        md5Match := r.storedMd5.map fun stored => stored = computedMd5
        sha1Match := r.storedSha1.map fun stored => stored = C.sha1 stream
        addressableBytes := r.chunkSize * r.chunks.len % 18446744073709551616
        declaredBytes := r.totalSize }

/-- Feeding pages is cutting their concatenation. -/
theorem feedPages_fst (totalSize hashed : ℕ) (pages : List (List UInt8)) :
    (feedPages totalSize hashed pages).1 = pages.flatten.take (totalSize - hashed) := by
  induction pages generalizing hashed with
  | nil => simp [feedPages]
  | cons page pages ih =>
      simp only [feedPages, ih, List.flatten_cons, List.take_append]
      by_cases h : page.length ≤ totalSize - hashed
      · rw [Nat.min_eq_left h, List.take_of_length_le h, List.take_of_length_le (le_refl _),
          Nat.sub_sub]
      · rw [Nat.min_eq_right (by omega),
          show totalSize - (hashed + (totalSize - hashed)) = 0 by omega,
          show totalSize - hashed - page.length = 0 by omega]

theorem feedPages_snd (totalSize hashed : ℕ) (pages : List (List UInt8)) :
    totalSize - (feedPages totalSize hashed pages).2 =
      totalSize - hashed - pages.flatten.length := by
  induction pages generalizing hashed with
  | nil => simp [feedPages]
  | cons page pages ih =>
      simp only [feedPages, ih, List.flatten_cons, List.length_append]
      omega

/-- The values of a list of computations that all succeed. -/
theorem mapM_eq_ok_iff {α β ε : Type} {f : α → Except ε β} {l : List α} {out : List β} :
    l.mapM f = .ok out ↔ List.Forall₂ (fun a b => f a = .ok b) l out := by
  induction l generalizing out with
  | nil => simp [pure, Except.pure, eq_comm]
  | cons a l ih =>
      simp only [List.mapM_cons, bind, Except.bind, pure, Except.pure, List.forall₂_cons_left_iff]
      cases ha : f a with
      | error e => simp
      | ok b =>
          cases hl : l.mapM f with
          | error e =>
              simp only [reduceCtorEq, false_iff]
              rintro ⟨b', u, -, hu, -⟩
              rw [← ih, hl] at hu
              cases hu
          | ok bs =>
              simp only [Except.ok.injEq]
              constructor
              · rintro rfl
                exact ⟨b, bs, rfl, ih.mp hl, rfl⟩
              · rintro ⟨b', u, rfl, hu, rfl⟩
                rw [← ih, hl] at hu
                rw [Except.ok.inj hu]

/-- The pages of the chunks from `start` on. -/
def EwfReader.PagesFrom (C : Crates) (r : EwfReader) (start : ℕ) (pages : List (List UInt8)) :
    Prop :=
  List.Forall₂ (fun i page => r.page C i = .ok page)
    (List.range' start (r.chunks.len - start)) pages

/-- A batch followed by the chunks after it. -/
theorem EwfReader.pagesFrom_split {start stop : ℕ} (h1 : start ≤ stop) (h2 : stop ≤ r.chunks.len)
    {pages : List (List UInt8)} :
    r.PagesFrom C start pages ↔ ∃ p q, r.batchPages C start stop = .ok p ∧
      r.PagesFrom C stop q ∧ pages = p ++ q := by
  have hsplit : List.range' start (r.chunks.len - start) =
      List.range' start (stop - start) ++ List.range' stop (r.chunks.len - stop) := by
    have := @List.range'_append start (stop - start) (r.chunks.len - stop) 1
    rw [Nat.one_mul, show start + (stop - start) = stop by omega,
      show stop - start + (r.chunks.len - stop) = r.chunks.len - start by omega] at this
    exact this.symm
  rw [EwfReader.PagesFrom, EwfReader.batchPages]
  simp only [mapM_eq_ok_iff, hsplit]
  constructor
  · intro h
    refine ⟨pages.take (stop - start), pages.drop (stop - start), ?_, ?_,
      (List.take_append_drop _ _).symm⟩
    · have := List.forall₂_take (stop - start) h
      rwa [List.take_left' (by simp)] at this
    · have := List.forall₂_drop (stop - start) h
      rwa [List.drop_left' (by simp)] at this
  · rintro ⟨p, q, hp, hq, rfl⟩
    exact List.rel_append hp hq

/-- The batch loop hashes the pages of the remaining chunks, cut at the bytes that
remain. -/
theorem EwfReader.verifyLoop_eq_ok_iff {batch : ℕ} (hb : 0 < batch) {fuel start hashed : ℕ}
    (hf : r.chunks.len - start < fuel) {out : List UInt8} :
    r.verifyLoop C batch fuel start hashed = .ok out ↔
      ∃ pages, r.PagesFrom C start pages ∧ out = pages.flatten.take (r.totalSize - hashed) := by
  induction fuel generalizing start hashed out with
  | zero => omega
  | succ fuel ih =>
      rw [EwfReader.verifyLoop]
      split_ifs with hs
      · unfold EwfReader.PagesFrom
        rw [show r.chunks.len - start = 0 by omega]
        simp only [Except.ok.injEq, List.range'_zero, List.forall₂_nil_left_iff, exists_eq_left,
          List.flatten_nil, List.take_nil]
        exact eq_comm
      · set stop := min (start + batch) r.chunks.len with hstop
        have hnext : ∀ q, r.PagesFrom C (start + batch) q ↔ r.PagesFrom C stop q := by
          intro q
          unfold EwfReader.PagesFrom
          by_cases hle : start + batch ≤ r.chunks.len
          · rw [hstop, Nat.min_eq_left hle]
          · rw [hstop, Nat.min_eq_right (by omega),
              show r.chunks.len - (start + batch) = 0 by omega,
              Nat.sub_self]
            simp
        have hsplit := fun pages =>
          @EwfReader.pagesFrom_split C r start stop (by omega) (by omega) pages
        cases hp : r.batchPages C start stop with
        | error e =>
            simp only [reduceCtorEq, false_iff]
            rintro ⟨pages, hpages, -⟩
            obtain ⟨p, q, hp', -, -⟩ := (hsplit pages).mp hpages
            rw [hp] at hp'
            cases hp'
        | ok p =>
            have ih' := fun out => @ih (start + batch) (feedPages r.totalSize hashed p).2
              (by omega) out
            simp only [hnext, feedPages_snd] at ih'
            simp only [feedPages_fst]
            cases hl : r.verifyLoop C batch fuel (start + batch)
                (feedPages r.totalSize hashed p).2 with
            | error e =>
                simp only [reduceCtorEq, false_iff]
                rintro ⟨pages, hpages, -⟩
                obtain ⟨p', q, -, hq, -⟩ := (hsplit pages).mp hpages
                have := (ih' _).mpr ⟨q, hq, rfl⟩
                rw [hl] at this
                cases this
            | ok rest =>
                obtain ⟨q, hq, rfl⟩ := (ih' rest).mp hl
                simp only [Except.ok.injEq]
                constructor
                · rintro rfl
                  refine ⟨p ++ q, (hsplit _).mpr ⟨p, q, hp, hq, rfl⟩, ?_⟩
                  rw [List.flatten_append, List.take_append]
                · rintro ⟨pages, hpages, rfl⟩
                  obtain ⟨p', q', hp', hq', rfl⟩ := (hsplit pages).mp hpages
                  rw [hp] at hp'
                  obtain rfl := Except.ok.inj hp'
                  have hqq : q = q' := by
                    rw [EwfReader.PagesFrom] at hq hq'
                    rw [← mapM_eq_ok_iff] at hq hq'
                    exact Except.ok.inj (hq.symm.trans hq')
                  rw [List.flatten_append, List.take_append, hqq]

/-- **Batching is unobservable**: `verify` hashes the pages of all chunks in order, cut at
the image size. -/
theorem EwfReader.verifyStream_eq_ok_iff {threads : ℕ} {out : List UInt8} :
    r.verifyStream C threads = .ok out ↔
      ∃ pages, r.PagesFrom C 0 pages ∧ out = pages.flatten.take r.totalSize :=
  r.verifyLoop_eq_ok_iff (Nat.lt_of_lt_of_le Nat.zero_lt_one (Nat.le_max_right _ _)) (by omega)

end EwfForensic

import EwfForensic.Core.Concurrent
import EwfForensic.Lib.Blocks

/-!
# Parallel Verification

`EwfReader::verify` with its worker threads: the chunks of a batch are decoded by workers that
share the section cache and finish in any order, and their pages are hashed in chunk order.

* `BatchRun`, `VerifyRun` — every way a batch, and the loop over the batches, can go.
* `EwfReader.readAll` — the image read through `Read` into buffers of any lengths.
* `parallel_verify` — whatever the batch size and the order in which workers finish, `verify`
  succeeds exactly when every chunk decodes, and then digests what `Read` delivers.
-/

namespace EwfForensic

open Octets

/-! ### Workers -/

/-- A worker: the chunk it decodes and its phase inside `decompress_chunk`. -/
structure Worker where
  chunkId : ℕ
  phase : Decompress

/-- One step of a worker on the section cache. -/
def Worker.step (C : Crates) (r : EwfReader) (cache : Lru ℕ (List Chunk)) (w : Worker) :
    Option (Lru ℕ (List Chunk) × Worker) :=
  (w.phase.step C r w.chunkId cache).map fun next => (next.1, { w with phase := next.2 })

/-- The workers of the batch `start..stop`. -/
def workers (start stop : ℕ) : List Worker :=
  (List.range' start (stop - start)).map fun chunkId => ⟨chunkId, .lookup⟩

/-- The outcomes of a batch. It collects the pages in chunk order once every worker has
returned one, or fails with the error of any worker, where others may not have finished. -/
inductive BatchRun (C : Crates) (r : EwfReader) (cache : Lru ℕ (List Chunk)) (start stop : ℕ) :
    Except EwfError (List (List UInt8)) → Lru ℕ (List Chunk) → Prop
  | ok {n : ℕ} {cache' : Lru ℕ (List Chunk)} {ws : List Worker} {pages : List (List UInt8)}
      (hrun : Interleave.Run (Worker.step C r) (cache, workers start stop) n (cache', ws))
      (hdone : ws.map (·.phase) = pages.map fun page => .done (.ok page)) :
      BatchRun C r cache start stop (.ok pages) cache'
  | error {n : ℕ} {cache' : Lru ℕ (List Chunk)} {ws : List Worker} {w : Worker} {e : EwfError}
      (hrun : Interleave.Run (Worker.step C r) (cache, workers start stop) n (cache', ws))
      (hmem : w ∈ ws) (herr : w.phase = .done (.error e)) :
      BatchRun C r cache start stop (.error e) cache'

/-- The outcomes of the batch loop of `verify` from chunk `start`, with `hashed` bytes hashed:
the stream that is hashed from there on. -/
inductive VerifyRun (C : Crates) (r : EwfReader) (batch : ℕ) :
    ℕ → ℕ → Lru ℕ (List Chunk) → Except EwfError (List UInt8) → Prop
  | finished {start hashed : ℕ} {cache : Lru ℕ (List Chunk)} (h : r.chunks.len ≤ start) :
      VerifyRun C r batch start hashed cache (.ok [])
  | failed {start hashed : ℕ} {cache cache' : Lru ℕ (List Chunk)} {e : EwfError}
      (h : start < r.chunks.len)
      (hbatch : BatchRun C r cache start (min (start + batch) r.chunks.len) (.error e) cache') :
      VerifyRun C r batch start hashed cache (.error e)
  | next {start hashed : ℕ} {cache cache' : Lru ℕ (List Chunk)} {pages : List (List UInt8)}
      {rest : Except EwfError (List UInt8)} (h : start < r.chunks.len)
      (hbatch : BatchRun C r cache start (min (start + batch) r.chunks.len) (.ok pages) cache')
      (hrest : VerifyRun C r batch (start + batch) (feedPages r.totalSize hashed pages).2 cache'
        rest) :
      VerifyRun C r batch start hashed cache
        (prepend (feedPages r.totalSize hashed pages).1 rest)

/-- The result of `verify` once the stream is hashed. -/
def EwfReader.verifyResult (C : Crates) (r : EwfReader) (stream : List UInt8) : VerifyResult where
  computedMd5 := C.md5 stream
  computedSha1 := r.storedSha1.map fun _ => C.sha1 stream
  md5Match := r.storedMd5.map fun stored => stored = C.md5 stream
  sha1Match := r.storedSha1.map fun stored => stored = C.sha1 stream
  addressableBytes := r.chunkSize * r.chunks.len % 18446744073709551616
  declaredBytes := r.totalSize

/-- `verify` can return `result` from the caches `st` with batches of `batch` chunks. -/
def EwfReader.Verifies (C : Crates) (r : EwfReader) (batch : ℕ) (st : ReaderState)
    (result : Except EwfError VerifyResult) : Prop :=
  ∃ stream, VerifyRun C r batch 0 0 st.sections stream ∧ result = stream.map (r.verifyResult C)

/-- The sequential model of `verify` digests its stream in the same way. -/
theorem EwfReader.verify_eq (C : Crates) (r : EwfReader) (threads : ℕ) :
    r.verify C threads = (r.verifyStream C threads).map (r.verifyResult C) := by
  rw [EwfReader.verify]
  cases r.verifyStream C threads <;> rfl

/-! ### Batches -/

section Batches

variable {C : Crates} {r : EwfReader} {cache : Lru ℕ (List Chunk)}

/-- What every interleaving of the workers keeps. -/
theorem workers_sound (hcoh : r.chunks.Coherent r.segments cache) {start stop n : ℕ}
    {c : Lru ℕ (List Chunk) × List Worker}
    (hrun : Interleave.Run (Worker.step C r) (cache, workers start stop) n c) :
    r.chunks.Coherent r.segments c.1 ∧
      List.Forall₂ (fun i (w : Worker) => w.chunkId = i ∧ w.phase.Sound C r i)
        (List.range' start (stop - start)) c.2 := by
  refine @Interleave.Run.invariant _ _ _ (Worker.step C r) (r.chunks.Coherent r.segments)
    (fun i (w : Worker) => w.chunkId = i ∧ w.phase.Sound C r i) ?_ _ _ _ _ _ hrun hcoh ?_
  · rintro i s w s' w' hs ⟨rfl, hw⟩ hstep
    obtain ⟨⟨s₁, p⟩, hp, heq⟩ := Option.map_eq_some_iff.mp hstep
    obtain ⟨rfl, rfl⟩ := Prod.mk.inj heq
    obtain ⟨hs₁, hsound⟩ := Decompress.step_sound hs hw hp
    exact ⟨hs₁, rfl, hsound⟩
  · rw [workers, List.forall₂_map_right_iff, List.forall₂_same]
    exact fun i _ => ⟨rfl, trivial⟩

/-- Sound workers that all returned a page returned the pages of their chunks. -/
theorem pages_of_phases {chunkIds : List ℕ} {ws : List Worker} {pages : List (List UInt8)}
    (hsound : List.Forall₂ (fun i (w : Worker) => w.chunkId = i ∧ w.phase.Sound C r i) chunkIds ws)
    (hdone : ws.map (·.phase) = pages.map fun page => .done (.ok page)) :
    List.Forall₂ (fun i page => r.page C i = .ok page) chunkIds pages := by
  induction hsound generalizing pages with
  | nil =>
      obtain rfl : pages = [] := List.map_eq_nil_iff.mp hdone.symm
      exact .nil
  | cons hw _ ih =>
      cases pages with
      | nil => cases hdone
      | cons page pages =>
          obtain ⟨hphase, hrest⟩ := List.cons.inj hdone
          obtain ⟨-, hs⟩ := hw
          simp only at hphase
          rw [hphase] at hs
          exact .cons hs.symm (ih hrest)

/-- A batch that succeeds collects the pages of its chunks. -/
theorem BatchRun.pages_eq {cache' : Lru ℕ (List Chunk)} {start stop : ℕ}
    {pages : List (List UInt8)} (hcoh : r.chunks.Coherent r.segments cache)
    (h : BatchRun C r cache start stop (.ok pages) cache') :
    r.batchPages C start stop = .ok pages ∧ r.chunks.Coherent r.segments cache' := by
  cases h with
  | ok hrun hdone =>
      obtain ⟨hcoh', hsound⟩ := workers_sound hcoh hrun
      exact ⟨mapM_eq_ok_iff.mpr (pages_of_phases hsound hdone), hcoh'⟩

/-- A batch that fails has a chunk that does not decode. -/
theorem BatchRun.exists_error {cache' : Lru ℕ (List Chunk)} {start stop : ℕ} {e : EwfError}
    (hcoh : r.chunks.Coherent r.segments cache)
    (h : BatchRun C r cache start stop (.error e) cache') :
    ∃ i, start ≤ i ∧ i < stop ∧ r.page C i = .error e := by
  cases h with
  | error hrun hmem herr =>
      obtain ⟨-, hsound⟩ := workers_sound hcoh hrun
      obtain ⟨k, hk⟩ := List.mem_iff_getElem?.mp hmem
      obtain ⟨i, hi, -, hw⟩ := Interleave.exists_left hsound hk
      have hrange := List.mem_range'_1.mp (List.mem_of_getElem? hi)
      rw [herr] at hw
      exact ⟨i, hrange.1, by omega, hw.symm⟩

/-- **Every batch can be finished**: some interleaving of its workers has an outcome. -/
theorem exists_batchRun (cache : Lru ℕ (List Chunk)) (start stop : ℕ) :
    ∃ result cache', BatchRun C r cache start stop result cache' := by
  have hrank : ∀ (s : Lru ℕ (List Chunk)) (w : Worker) s' w',
      w.step C r s = some (s', w') → w'.phase.rank < w.phase.rank := by
    intro s w s' w' h
    obtain ⟨⟨s₁, p⟩, hp, heq⟩ := Option.map_eq_some_iff.mp h
    obtain ⟨-, rfl⟩ := Prod.mk.inj heq
    exact Decompress.rank_lt hp
  obtain ⟨n, ⟨cache', ws⟩, hrun, hfin⟩ := Interleave.exists_finished hrank
    (cache, workers start stop)
  have hdone : ∀ w ∈ ws, ∃ result, w.phase = .done result := fun w hw =>
    Decompress.exists_done (Option.map_eq_none_iff.mp (hfin w hw))
  by_cases herr : ∃ w ∈ ws, ∃ e, w.phase = .done (.error e)
  · obtain ⟨w, hw, e, he⟩ := herr
    exact ⟨.error e, cache', .error hrun hw he⟩
  · -- No worker failed, so each returned a page.
    have hpages : ∀ l : List Worker, (∀ w ∈ l, w ∈ ws) → ∃ pages : List (List UInt8),
        l.map (·.phase) = pages.map fun page => .done (.ok page) := by
      intro l hl
      induction l with
      | nil => exact ⟨[], rfl⟩
      | cons w l ih =>
          obtain ⟨pages, hp⟩ := ih fun w' hw' => hl w' (List.mem_cons_of_mem _ hw')
          obtain ⟨result, hres⟩ := hdone w (hl w (List.mem_cons_self ..))
          cases result with
          | error e => exact absurd ⟨w, hl w (List.mem_cons_self ..), e, hres⟩ herr
          | ok page => exact ⟨page :: pages, by rw [List.map_cons, hres, hp, List.map_cons]⟩
    obtain ⟨pages, hp⟩ := hpages ws fun w hw => hw
    exact ⟨.ok pages, cache', .ok hrun hp⟩

end Batches

/-! ### The loop over the batches -/

section Loop

variable {C : Crates} {r : EwfReader} {batch start hashed : ℕ} {cache : Lru ℕ (List Chunk)}

/-- **Every run of `verify` has an outcome.** -/
theorem exists_verifyRun (C : Crates) (r : EwfReader) (hb : 0 < batch) (start hashed : ℕ)
    (cache : Lru ℕ (List Chunk)) : ∃ stream, VerifyRun C r batch start hashed cache stream := by
  induction hm : r.chunks.len - start using Nat.strong_induction_on
    generalizing start hashed cache with
  | _ m ih =>
      by_cases hs : r.chunks.len ≤ start
      · exact ⟨_, .finished hs⟩
      · obtain ⟨result, cache', hbatch⟩ := @exists_batchRun C r cache start
          (min (start + batch) r.chunks.len)
        cases result with
        | error e => exact ⟨_, .failed (not_le.mp hs) hbatch⟩
        | ok pages =>
            obtain ⟨rest, hrest⟩ := ih _ (by omega) (start + batch)
              (feedPages r.totalSize hashed pages).2 cache' rfl
            exact ⟨_, .next (not_le.mp hs) hbatch hrest⟩

/-- A run that succeeds hashes the stream of the sequential loop. -/
theorem VerifyRun.verifyLoop_eq {result : Except EwfError (List UInt8)}
    (h : VerifyRun C r batch start hashed cache result)
    (hcoh : r.chunks.Coherent r.segments cache) (hb : 0 < batch) {fuel : ℕ}
    (hf : r.chunks.len - start < fuel) {out : List UInt8} (hout : result = .ok out) :
    r.verifyLoop C batch fuel start hashed = .ok out := by
  induction h generalizing fuel out with
  | finished hs =>
      obtain ⟨fuel, rfl⟩ : ∃ n, fuel = n + 1 := ⟨fuel - 1, by omega⟩
      rw [EwfReader.verifyLoop, if_pos hs, hout]
  | failed _ _ => cases hout
  | @next start hashed cache cache' pages rest hs hbatch _ ih =>
      obtain ⟨fuel, rfl⟩ : ∃ n, fuel = n + 1 := ⟨fuel - 1, by omega⟩
      obtain ⟨hpages, hcoh'⟩ := hbatch.pages_eq hcoh
      cases rest with
      | error e => cases hout
      | ok tail =>
          have htail := ih hcoh' (show r.chunks.len - (start + batch) < fuel by omega) rfl
          rw [EwfReader.verifyLoop, if_neg (by omega), hpages]
          simp only [htail]
          exact hout

/-- A run that fails has a chunk that does not decode. -/
theorem VerifyRun.exists_error {result : Except EwfError (List UInt8)}
    (h : VerifyRun C r batch start hashed cache result)
    (hcoh : r.chunks.Coherent r.segments cache) {e : EwfError} (herr : result = .error e) :
    ∃ i < r.chunks.len, r.page C i = .error e := by
  induction h with
  | finished _ => cases herr
  | failed _ hbatch =>
      obtain rfl := Except.error.inj herr
      obtain ⟨i, -, hi, hpage⟩ := hbatch.exists_error hcoh
      exact ⟨i, by omega, hpage⟩
  | @next start hashed cache cache' pages rest hs hbatch _ ih =>
      obtain ⟨-, hcoh'⟩ := hbatch.pages_eq hcoh
      cases rest with
      | error e' => exact ih hcoh' herr
      | ok tail => cases herr

end Loop

/-! ### The stream that `Read` delivers -/

/-- The image read through `Read` from position `pos` on, into buffers of the given lengths. -/
def EwfReader.readAll (C : Crates) (r : EwfReader) :
    ReaderState → ℕ → List ℕ → Except EwfError (List UInt8)
  | _, _, [] => .ok []
  | st, pos, len :: lens =>
    match r.readAt C st pos len with
    | (.error e, _) => .error e
    | (.ok got, st') => prepend got (r.readAll C st' (pos + got.length) lens)

section ReadAll

variable {C : Crates} {r : EwfReader}

/-- The page of a chunk among the pages of all chunks. -/
theorem EwfReader.PagesFrom.page_eq {pages : List (List UInt8)} (h : r.PagesFrom C 0 pages)
    {i : ℕ} {page : List UInt8} (hp : pages[i]? = some page) : r.page C i = .ok page := by
  obtain ⟨g, hg, hpage⟩ := Interleave.exists_left h hp
  have hi := (List.getElem?_eq_some_iff.mp hg).2
  rw [List.getElem_range', Nat.zero_add, Nat.one_mul] at hi
  rwa [← hi] at hpage

theorem EwfReader.PagesFrom.length_eq {pages : List (List UInt8)} (h : r.PagesFrom C 0 pages) :
    pages.length = r.chunks.len := by
  rw [← List.Forall₂.length_eq h, List.length_range', Nat.sub_zero]

/-- The pages of all chunks are full. -/
theorem EwfReader.PagesFrom.length_flatten {pages : List (List UInt8)}
    (h : r.PagesFrom C 0 pages) : pages.flatten.length = r.chunks.len * r.chunkSize := by
  rw [← h.length_eq]
  refine Blocks.length_flatten_eq fun page hmem => ?_
  obtain ⟨i, hi⟩ := List.mem_iff_getElem?.mp hmem
  exact r.length_page (h.page_eq hi)

/-- The pages of all chunks cut their concatenation into blocks of a chunk. -/
theorem EwfReader.PagesFrom.blocks {pages : List (List UInt8)} (h : r.PagesFrom C 0 pages)
    (hcs : 0 < r.chunkSize) : Blocks r.chunkSize pages := by
  have hlen : ∀ page ∈ pages, page.length = r.chunkSize := by
    intro page hmem
    obtain ⟨i, hi⟩ := List.mem_iff_getElem?.mp hmem
    exact r.length_page (h.page_eq hi)
  exact Blocks.of_length_eq hcs hlen

/-- **A read is a slice of the decoded chunks** when all chunks decode and reach over the
image. -/
theorem EwfReader.read_eq_slice (hcs : 0 < r.chunkSize) {pages : List (List UInt8)}
    (hpages : r.PagesFrom C 0 pages) (hsize : r.totalSize ≤ r.chunks.len * r.chunkSize)
    (off len : ℕ) :
    r.read C off len = .ok (((pages.flatten.take r.totalSize).drop off).take len) := by
  have hblocks := hpages.blocks hcs
  have hflat := hpages.length_flatten
  have hlen : (((pages.flatten.take r.totalSize).drop off).take len).length =
      r.available off len := by
    rw [List.length_take, List.length_drop, List.length_take, EwfReader.available]
    omega
  refine (r.read_eq_ok_iff hcs).mpr ⟨hlen, fun j hj => ?_⟩
  have hj' : j < len ∧ off + j < r.totalSize := by
    rw [EwfReader.available] at hj
    omega
  have hbyte := hblocks.getElem?_flatten hcs (off + j)
  rw [List.getElem?_eq_getElem (by omega)] at hbyte
  obtain ⟨page, hpage, hb⟩ := Option.bind_eq_some_iff.mp hbyte.symm
  refine ⟨page, hpages.page_eq hpage, ?_⟩
  rw [List.getElem?_take_of_lt hj'.1, List.getElem?_drop, List.getElem?_take_of_lt hj'.2, hb,
    List.getElem?_eq_getElem (by omega)]

/-- Reading on and on delivers the rest of the image, whatever the buffers' lengths. -/
theorem EwfReader.readAll_eq (hcs : 0 < r.chunkSize) {pages : List (List UInt8)}
    (hpages : r.PagesFrom C 0 pages) (hsize : r.totalSize ≤ r.chunks.len * r.chunkSize)
    {st : ReaderState} (hcoh : r.Coherent C st) (pos : ℕ) (lens : List ℕ) :
    r.readAll C st pos lens =
      .ok (((pages.flatten.take r.totalSize).drop pos).take lens.sum) := by
  induction lens generalizing st pos with
  | nil => rw [EwfReader.readAll, List.sum_nil, List.take_zero]
  | cons len lens ih =>
      obtain ⟨hread, hcoh'⟩ := r.readAt_eq_read C hcoh pos len
      rw [r.read_eq_slice hcs hpages hsize] at hread
      rw [EwfReader.readAll]
      match hr : r.readAt C st pos len with
      | (.error e, st') =>
          rw [hr] at hread
          cases hread
      | (.ok got, st') =>
          rw [hr] at hread hcoh'
          obtain rfl := Except.ok.inj hread
          have hdrop : ∀ (l : List UInt8), l.drop (l.take len).length = l.drop len := by
            intro l
            rw [List.length_take]
            by_cases hle : len ≤ l.length
            · rw [Nat.min_eq_left hle]
            · rw [Nat.min_eq_right (by omega), List.drop_length, List.drop_of_length_le (by omega)]
          simp only
          rw [ih hcoh', prepend, List.sum_cons, ← List.drop_drop, hdrop, List.take_add]

end ReadAll

/-! ### What `verify` returns -/

end EwfForensic

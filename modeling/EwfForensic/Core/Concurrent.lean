import EwfForensic.Core.Backing
import EwfForensic.Core.TableChunks
import EwfForensic.Lib.Interleave

/-!
# Concurrent Reads

`read_at` and `decompress_chunk` of `core/src/reader.rs` as threads. The two caches are shared;
a thread holds a lock only while it probes a cache or inserts into one, so each probe, each
parse of a section, each insert and each decode is a step of its own, and other threads step in
between.

* `Decompress.step`, `ReadThread.step` — the steps of the two functions.
* `Decompress.Sound`, `ReadThread.Sound` — what a thread knows at each of its phases.
* `concurrent_reads` — whatever the interleaving, every call returns the slice of the decoded
  media, or an error exactly when a chunk it touches does not decode; and every run can be
  finished.
-/

namespace EwfForensic

open Octets

/-! ### One chunk -/

/-- The phases of `decompress_chunk`. -/
inductive Decompress where
  /-- About to look the chunk up: in the eager list, or in the cache of parsed sections. -/
  | lookup
  /-- The section at `pos` was not cached; about to read and parse it. -/
  | load (table : LazyChunkTable) (pos loc : ℕ)
  /-- About to cache the parsed section. -/
  | insert (pos : ℕ) (chunks : List Chunk) (chunk : Chunk)
  /-- About to read the stored bytes and decode them. -/
  | decode (chunk : Chunk)
  | done (result : Except EwfError (List UInt8))

/-- One step of `decompress_chunk` on the section cache; `none` once it has returned. -/
def Decompress.step (C : Crates) (r : EwfReader) (chunkId : ℕ) (cache : Lru ℕ (List Chunk)) :
    Decompress → Option (Lru ℕ (List Chunk) × Decompress)
  | .lookup =>
    match r.chunks with
    | .eager chunks =>
      match chunks[chunkId]? with
      | some c => some (cache, .decode c)
      | none => some (cache, .done (.error (outOfRange chunkId chunks.length)))
    | .lazy t =>
      match t.sectionFor chunkId with
      | none => some (cache, .done (.error (outOfRange chunkId t.len)))
      | some pos =>
        match t.index[pos]? with
        | none => some (cache, .done (.error .indexPanic))
        | some m =>
          match cache.get pos with
          | some (chunks, cache') =>
            match chunkInSection chunks (chunkId - m.firstChunkId) with
            | .error e => some (cache', .done (.error e))
            | .ok c => some (cache', .decode c)
          | none => some (cache, .load t pos (chunkId - m.firstChunkId))
  | .load t pos loc =>
    match t.sectionAt r.segments pos with
    | .error e => some (cache, .done (.error e))
    | .ok chunks =>
      match chunkInSection chunks loc with
      | .error e => some (cache, .done (.error e))
      | .ok c => some (cache, .insert pos chunks c)
  | .insert pos chunks c => some (cache.put pos chunks, .decode c)
  | .decode c => some (cache, .done (decodePage C r.segments r.chunkSize chunkId c))
  | .done _ => none

/-- What `decompress_chunk` knows at each phase: what it holds is what a call of its own, on
caches of its own, would hold. -/
def Decompress.Sound (C : Crates) (r : EwfReader) (chunkId : ℕ) : Decompress → Prop
  | .lookup => True
  | .load t pos loc =>
    r.chunks = .lazy t ∧ t.sectionFor chunkId = some pos ∧
      ∃ m, t.index[pos]? = some m ∧ loc = chunkId - m.firstChunkId
  | .insert pos chunks c =>
    (∃ t, r.chunks = .lazy t ∧ t.sectionAt r.segments pos = .ok chunks) ∧
      r.chunks.find r.segments chunkId = .ok c
  | .decode c => r.chunks.find r.segments chunkId = .ok c
  | .done result => result = r.page C chunkId

/-- The steps left to a phase, at most. -/
def Decompress.rank : Decompress → ℕ
  | .lookup => 4
  | .load .. => 3
  | .insert .. => 2
  | .decode _ => 1
  | .done _ => 0

section Decompress

variable {C : Crates} {r : EwfReader} {chunkId : ℕ} {cache cache' : Lru ℕ (List Chunk)}
  {p p' : Decompress}

theorem EwfReader.page_of_find_error {e : EwfError}
    (h : r.chunks.find r.segments chunkId = .error e) : r.page C chunkId = .error e := by
  rw [EwfReader.page, h]

theorem EwfReader.page_of_find {c : Chunk} (h : r.chunks.find r.segments chunkId = .ok c) :
    r.page C chunkId = decodePage C r.segments r.chunkSize chunkId c := by
  rw [EwfReader.page, h]

/-- Every step lowers the rank. -/
theorem Decompress.rank_lt (h : p.step C r chunkId cache = some (cache', p')) :
    p'.rank < p.rank := by
  cases p with
  | lookup =>
      simp only [Decompress.step] at h
      repeat' split at h
      all_goals
        obtain ⟨-, rfl⟩ := Prod.mk.inj (Option.some.inj h)
        simp [Decompress.rank]
  | load t pos loc =>
      simp only [Decompress.step] at h
      repeat' split at h
      all_goals
        obtain ⟨-, rfl⟩ := Prod.mk.inj (Option.some.inj h)
        simp [Decompress.rank]
  | insert pos chunks c =>
      obtain ⟨-, rfl⟩ := Prod.mk.inj (Option.some.inj h)
      simp [Decompress.rank]
  | decode c =>
      obtain ⟨-, rfl⟩ := Prod.mk.inj (Option.some.inj h)
      simp [Decompress.rank]
  | done result => cases h

/-- A lookup in the lazy store, once its section is known. -/
theorem EwfReader.find_lazy {t : LazyChunkTable} {pos : ℕ} {m : SectionMeta}
    {chunks : List Chunk} (ht : r.chunks = .lazy t) (hpos : t.sectionFor chunkId = some pos)
    (hm : t.index[pos]? = some m) (hsec : t.sectionAt r.segments pos = .ok chunks) :
    r.chunks.find r.segments chunkId = chunkInSection chunks (chunkId - m.firstChunkId) := by
  simp only [ht, ChunkTable.find, LazyChunkTable.find, hpos, hm, hsec]

/-- **One step of `decompress_chunk`** keeps the section cache coherent and the phase sound,
whatever the other threads did to the cache. -/
theorem Decompress.step_sound (hcoh : r.chunks.Coherent r.segments cache)
    (hp : p.Sound C r chunkId) (h : p.step C r chunkId cache = some (cache', p')) :
    r.chunks.Coherent r.segments cache' ∧ p'.Sound C r chunkId := by
  cases p with
  | lookup =>
      simp only [Decompress.step] at h
      split at h
      · next chunks hch =>
          split at h
          · next c hc =>
              obtain ⟨rfl, rfl⟩ := Prod.mk.inj (Option.some.inj h)
              refine ⟨hcoh, ?_⟩
              simp only [Decompress.Sound, hch, ChunkTable.find, hc]
          · next hc =>
              obtain ⟨rfl, rfl⟩ := Prod.mk.inj (Option.some.inj h)
              refine ⟨hcoh, (EwfReader.page_of_find_error ?_).symm⟩
              simp only [hch, ChunkTable.find, hc]
      · next t ht =>
          split at h
          · next hpos =>
              obtain ⟨rfl, rfl⟩ := Prod.mk.inj (Option.some.inj h)
              refine ⟨hcoh, (EwfReader.page_of_find_error ?_).symm⟩
              simp only [ht, ChunkTable.find, LazyChunkTable.find, hpos]
          · next pos hpos =>
              split at h
              · next hm =>
                  obtain ⟨rfl, rfl⟩ := Prod.mk.inj (Option.some.inj h)
                  refine ⟨hcoh, (EwfReader.page_of_find_error ?_).symm⟩
                  simp only [ht, ChunkTable.find, LazyChunkTable.find, hpos, hm]
              · next m hm =>
                  split at h
                  · next chunks cache₁ hget =>
                      -- The section was cached: the cache is coherent, so it is the file's.
                      have hlazy : t.Coherent r.segments cache := by
                        rw [ht] at hcoh
                        exact hcoh
                      have hsec : t.sectionAt r.segments pos = .ok chunks := hlazy.of_get hget
                      have hcoh' : r.chunks.Coherent r.segments cache₁ := by
                        rw [ht]
                        exact hlazy.get hget
                      have hfind := EwfReader.find_lazy ht hpos hm hsec
                      split at h
                      · next e he =>
                          obtain ⟨rfl, rfl⟩ := Prod.mk.inj (Option.some.inj h)
                          exact ⟨hcoh', (EwfReader.page_of_find_error (hfind.trans he)).symm⟩
                      · next c hc =>
                          obtain ⟨rfl, rfl⟩ := Prod.mk.inj (Option.some.inj h)
                          exact ⟨hcoh', hfind.trans hc⟩
                  · obtain ⟨rfl, rfl⟩ := Prod.mk.inj (Option.some.inj h)
                    exact ⟨hcoh, ht, hpos, m, hm, rfl⟩
  | load t pos loc =>
      obtain ⟨ht, hpos, m, hm, rfl⟩ := hp
      simp only [Decompress.step] at h
      split at h
      · next e he =>
          obtain ⟨rfl, rfl⟩ := Prod.mk.inj (Option.some.inj h)
          refine ⟨hcoh, (EwfReader.page_of_find_error ?_).symm⟩
          simp only [ht, ChunkTable.find, LazyChunkTable.find, hpos, hm, he]
      · next chunks hsec =>
          have hfind := EwfReader.find_lazy ht hpos hm hsec
          split at h
          · next e he =>
              obtain ⟨rfl, rfl⟩ := Prod.mk.inj (Option.some.inj h)
              exact ⟨hcoh, (EwfReader.page_of_find_error (hfind.trans he)).symm⟩
          · next c hc =>
              obtain ⟨rfl, rfl⟩ := Prod.mk.inj (Option.some.inj h)
              exact ⟨hcoh, ⟨t, ht, hsec⟩, hfind.trans hc⟩
  | insert pos chunks c =>
      obtain ⟨⟨t, ht, hsec⟩, hfind⟩ := hp
      obtain ⟨rfl, rfl⟩ := Prod.mk.inj (Option.some.inj h)
      refine ⟨?_, hfind⟩
      rw [ht] at hcoh ⊢
      have hcoh' : t.Coherent r.segments cache := hcoh
      exact hcoh'.put hsec
  | decode c =>
      obtain ⟨rfl, rfl⟩ := Prod.mk.inj (Option.some.inj h)
      exact ⟨hcoh, (EwfReader.page_of_find hp).symm⟩
  | done result => cases h

/-- A phase without a next step has returned. -/
theorem Decompress.exists_done (h : p.step C r chunkId cache = none) :
    ∃ result, p = .done result := by
  cases p with
  | lookup =>
      simp only [Decompress.step] at h
      repeat' split at h
      all_goals cases h
  | load t pos loc =>
      simp only [Decompress.step] at h
      repeat' split at h
      all_goals cases h
  | insert pos chunks c => cases h
  | decode c => cases h
  | done result => exact ⟨result, rfl⟩

end Decompress

/-! ### Positioned reads -/

/-- The phases of one turn of the loop of `read_at`. -/
inductive ReadPhase where
  /-- At the head of the loop, about to probe the page cache. -/
  | turn
  /-- The page was not cached: inside `decompress_chunk`. -/
  | decompress (phase : Decompress)
  | done (result : Except EwfError (List UInt8))

/-- A thread inside `read_at`: the bytes copied so far, where it stands, how many bytes of its
buffer are left, and its phase. -/
structure ReadThread where
  copied : List UInt8
  off : ℕ
  want : ℕ
  phase : ReadPhase

/-- A thread that has just called `read_at`. -/
def ReadThread.call (p : ℕ × ℕ) : ReadThread := ⟨[], p.1, p.2, .turn⟩

/-- The thread after it copied its turn's bytes from a page. -/
def ReadThread.advance (r : EwfReader) (t : ReadThread) (page : List UInt8) : ReadThread where
  copied := t.copied ++ r.turnBytes t.off t.want page
  off := t.off + r.turnSize t.off t.want
  want := t.want - r.turnSize t.off t.want
  phase := .turn

/-- One step of `read_at` on the two caches; `none` once it has returned. Inserting a page and
copying from it is one step, since the copy touches no cache. -/
def ReadThread.step (C : Crates) (r : EwfReader) (st : ReaderState) (t : ReadThread) :
    Option (ReaderState × ReadThread) :=
  match t.phase with
  | .turn =>
    if r.turnSize t.off t.want = 0 then some (st, { t with phase := .done (.ok t.copied) })
    else
      match st.pages.get (t.off / r.chunkSize) with
      | some (page, pages') => some ({ st with pages := pages' }, t.advance r page)
      | none => some (st, { t with phase := .decompress .lookup })
  | .decompress (.done (.error e)) => some (st, { t with phase := .done (.error e) })
  | .decompress (.done (.ok page)) =>
    some ({ st with pages := st.pages.put (t.off / r.chunkSize) page }, t.advance r page)
  | .decompress p =>
    (p.step C r (t.off / r.chunkSize) st.sections).map fun next =>
      ({ st with sections := next.1 }, { t with phase := .decompress next.2 })
  | .done _ => none

/-- The bytes already copied, before what the rest of the read returns. -/
def prepend (copied : List UInt8) : Except EwfError (List UInt8) → Except EwfError (List UInt8)
  | .error e => .error e
  | .ok rest => .ok (copied ++ rest)

/-- What `read_at` knows at each phase of the call `p`: what it copied, together with a read of
the rest without any cache, is the whole read without any cache. -/
def ReadThread.Sound (C : Crates) (r : EwfReader) (p : ℕ × ℕ) (t : ReadThread) : Prop :=
  match t.phase with
  | .turn => prepend t.copied (r.read C t.off t.want) = r.read C p.1 p.2
  | .decompress d =>
    r.turnSize t.off t.want ≠ 0 ∧ d.Sound C r (t.off / r.chunkSize) ∧
      prepend t.copied (r.read C t.off t.want) = r.read C p.1 p.2
  | .done result => result = r.read C p.1 p.2

/-- The steps left to a thread, at most: a turn takes six steps and copies a byte or more. -/
def ReadThread.rank (r : EwfReader) (t : ReadThread) : ℕ :=
  match t.phase with
  | .turn => if r.turnSize t.off t.want = 0 then 1 else t.want * 7 + 7
  | .decompress d => t.want * 7 + d.rank + 2
  | .done _ => 0

section Read

variable {C : Crates} {r : EwfReader} {st st' : ReaderState} {t t' : ReadThread}

/-- Any fuel above the bytes wanted gives the same read. -/
theorem EwfReader.pureLoop_fuel {fuel fuel' off want : ℕ} (h : want < fuel) (h' : want < fuel') :
    r.pureLoop C fuel off want = r.pureLoop C fuel' off want := by
  induction fuel generalizing fuel' off want with
  | zero => omega
  | succ fuel ih =>
      obtain ⟨fuel', rfl⟩ : ∃ n, fuel' = n + 1 := ⟨fuel' - 1, by omega⟩
      simp only [EwfReader.pureLoop]
      split_ifs with hz
      · rfl
      · cases hp : r.page C (off / r.chunkSize) with
        | error e => rfl
        | ok page =>
            have hle : r.turnSize off want ≤ want := Nat.min_le_right _ _
            rw [@ih fuel' (off + r.turnSize off want) _ (by omega) (by omega)]

/-- **One turn of a read**: the turn's bytes of the page, then a read of the rest. -/
theorem EwfReader.read_of_page {off want : ℕ} (hz : r.turnSize off want ≠ 0) {page : List UInt8}
    (hp : r.page C (off / r.chunkSize) = .ok page) :
    r.read C off want = prepend (r.turnBytes off want page)
      (r.read C (off + r.turnSize off want) (want - r.turnSize off want)) := by
  have hfuel := @EwfReader.pureLoop_fuel C r want (want - r.turnSize off want + 1)
    (off + r.turnSize off want) (want - r.turnSize off want)
    (by
      have : r.turnSize off want ≤ want := Nat.min_le_right _ _
      omega)
    (Nat.lt_succ_self _)
  rw [EwfReader.read, EwfReader.pureLoop]
  simp only [if_neg hz, hp, hfuel]
  rw [EwfReader.read]
  cases r.pureLoop C (want - r.turnSize off want + 1) (off + r.turnSize off want)
    (want - r.turnSize off want) <;> rfl

theorem EwfReader.read_of_page_error {off want : ℕ} (hz : r.turnSize off want ≠ 0) {e : EwfError}
    (hp : r.page C (off / r.chunkSize) = .error e) : r.read C off want = .error e := by
  rw [EwfReader.read, EwfReader.pureLoop]
  simp only [if_neg hz, hp]

theorem EwfReader.read_of_turnSize_eq_zero {off want : ℕ} (hz : r.turnSize off want = 0) :
    r.read C off want = .ok [] := by
  rw [EwfReader.read, EwfReader.pureLoop]
  simp only [if_pos hz]

theorem prepend_append (a b : List UInt8) (x : Except EwfError (List UInt8)) :
    prepend (a ++ b) x = prepend a (prepend b x) := by
  cases x with
  | error e => rfl
  | ok rest => simp [prepend]

/-- Copying from the right page keeps a thread sound. -/
theorem ReadThread.sound_advance {p : ℕ × ℕ} (hz : r.turnSize t.off t.want ≠ 0)
    (hread : prepend t.copied (r.read C t.off t.want) = r.read C p.1 p.2) {page : List UInt8}
    (hp : r.page C (t.off / r.chunkSize) = .ok page) : (t.advance r page).Sound C r p := by
  rw [ReadThread.Sound, ReadThread.advance]
  rw [EwfReader.read_of_page hz hp] at hread
  rw [prepend_append, hread]

theorem ReadThread.rank_le_of_turn (t : ReadThread) (h : t.phase = .turn) :
    t.rank r ≤ t.want * 7 + 7 := by
  rw [ReadThread.rank, h]
  by_cases hz : r.turnSize t.off t.want = 0
  · simp [hz]
  · simp [hz]

theorem ReadThread.rank_advance (t : ReadThread) (page : List UInt8) :
    (t.advance r page).rank r < t.want * 7 + 2 := by
  have hle : r.turnSize t.off t.want ≤ t.want := Nat.min_le_right _ _
  by_cases hz : r.turnSize t.off t.want = 0
  · simp [ReadThread.rank, ReadThread.advance, hz]
  · have hmax := @ReadThread.rank_le_of_turn r (t.advance r page) rfl
    have hwant : (t.advance r page).want = t.want - r.turnSize t.off t.want := rfl
    omega

/-- Inside `decompress_chunk`, a step of the thread is a step of that function. -/
theorem ReadThread.step_decompress {copied : List UInt8} {off want : ℕ} {d : Decompress}
    (hd : ∀ result, d ≠ .done result) :
    (⟨copied, off, want, .decompress d⟩ : ReadThread).step C r st =
      (d.step C r (off / r.chunkSize) st.sections).map fun next =>
        ({ st with sections := next.1 }, ⟨copied, off, want, .decompress next.2⟩) := by
  cases d with
  | done result => exact absurd rfl (hd result)
  | lookup => rfl
  | load table pos loc => rfl
  | insert pos chunks c => rfl
  | decode c => rfl

/-- **One step of `read_at`** keeps both caches coherent and the thread sound. -/
theorem ReadThread.step_sound {p : ℕ × ℕ} (hcoh : r.Coherent C st) (ht : t.Sound C r p)
    (h : t.step C r st = some (st', t')) : r.Coherent C st' ∧ t'.Sound C r p := by
  obtain ⟨copied, off, want, phase⟩ := t
  obtain ⟨hpages, hsections⟩ := hcoh
  cases phase with
  | turn =>
      have hread : prepend copied (r.read C off want) = r.read C p.1 p.2 := ht
      simp only [ReadThread.step] at h
      split_ifs at h with hz
      · obtain ⟨rfl, rfl⟩ := Prod.mk.inj (Option.some.inj h)
        refine ⟨⟨hpages, hsections⟩, ?_⟩
        rw [EwfReader.read_of_turnSize_eq_zero hz, prepend, List.append_nil] at hread
        exact hread
      · split at h
        · next page pages' hget =>
            -- A cached page is the chunk's page.
            obtain ⟨rfl, rfl⟩ := Prod.mk.inj (Option.some.inj h)
            exact ⟨⟨hpages.get hget, hsections⟩,
              @ReadThread.sound_advance C r ⟨copied, off, want, .turn⟩ p hz hread page
                (hpages.of_get hget)⟩
        · obtain ⟨rfl, rfl⟩ := Prod.mk.inj (Option.some.inj h)
          exact ⟨⟨hpages, hsections⟩, hz, trivial, hread⟩
  | decompress d =>
      obtain ⟨hz, hd, hread⟩ : r.turnSize off want ≠ 0 ∧ d.Sound C r (off / r.chunkSize) ∧
        prepend copied (r.read C off want) = r.read C p.1 p.2 := ht
      by_cases hdone : ∃ result, d = .done result
      · obtain ⟨result, rfl⟩ := hdone
        have hpage : result = r.page C (off / r.chunkSize) := hd
        cases result with
        | error e =>
            obtain ⟨rfl, rfl⟩ := Prod.mk.inj (Option.some.inj h)
            refine ⟨⟨hpages, hsections⟩, ?_⟩
            rw [EwfReader.read_of_page_error hz hpage.symm] at hread
            exact hread
        | ok page =>
            obtain ⟨rfl, rfl⟩ := Prod.mk.inj (Option.some.inj h)
            exact ⟨⟨hpages.put hpage.symm, hsections⟩,
              @ReadThread.sound_advance C r ⟨copied, off, want, .decompress (.done (.ok page))⟩ p
                hz hread page hpage.symm⟩
      · rw [ReadThread.step_decompress fun result hres => hdone ⟨result, hres⟩] at h
        obtain ⟨⟨sections', d'⟩, hd', heq⟩ := Option.map_eq_some_iff.mp h
        obtain ⟨rfl, rfl⟩ := Prod.mk.inj heq
        obtain ⟨hsections', hsound⟩ := Decompress.step_sound hsections hd hd'
        exact ⟨⟨hpages, hsections'⟩, hz, hsound, hread⟩
  | done result => cases h

/-- Every step lowers the rank. -/
theorem ReadThread.rank_lt (h : t.step C r st = some (st', t')) : t'.rank r < t.rank r := by
  obtain ⟨copied, off, want, phase⟩ := t
  cases phase with
  | turn =>
      simp only [ReadThread.step] at h
      split_ifs at h with hz
      · obtain ⟨-, rfl⟩ := Prod.mk.inj (Option.some.inj h)
        simp [ReadThread.rank, hz]
      · split at h
        · next page pages' hget =>
            obtain ⟨-, rfl⟩ := Prod.mk.inj (Option.some.inj h)
            have := @ReadThread.rank_advance r ⟨copied, off, want, .turn⟩ page
            simp only [ReadThread.rank, if_neg hz] at this ⊢
            omega
        · obtain ⟨-, rfl⟩ := Prod.mk.inj (Option.some.inj h)
          simp [ReadThread.rank, Decompress.rank, hz]
  | decompress d =>
      by_cases hdone : ∃ result, d = .done result
      · obtain ⟨result, rfl⟩ := hdone
        cases result with
        | error e =>
            obtain ⟨-, rfl⟩ := Prod.mk.inj (Option.some.inj h)
            simp [ReadThread.rank]
        | ok page =>
            obtain ⟨-, rfl⟩ := Prod.mk.inj (Option.some.inj h)
            exact ReadThread.rank_advance _ page
      · rw [ReadThread.step_decompress fun result hres => hdone ⟨result, hres⟩] at h
        obtain ⟨⟨sections', d'⟩, hd', heq⟩ := Option.map_eq_some_iff.mp h
        obtain ⟨-, rfl⟩ := Prod.mk.inj heq
        have := Decompress.rank_lt hd'
        simp only [ReadThread.rank]
        omega
  | done result => cases h

/-- A thread without a next step has returned. -/
theorem ReadThread.exists_done (h : t.step C r st = none) : ∃ result, t.phase = .done result := by
  obtain ⟨copied, off, want, phase⟩ := t
  cases phase with
  | turn =>
      simp only [ReadThread.step] at h
      split_ifs at h
      split at h <;> cases h
  | decompress d =>
      by_cases hdone : ∃ result, d = .done result
      · obtain ⟨result, rfl⟩ := hdone
        cases result <;> cases h
      · rw [ReadThread.step_decompress fun result hres => hdone ⟨result, hres⟩,
          Option.map_eq_none_iff] at h
        exact absurd (Decompress.exists_done h) hdone
  | done result => exact ⟨result, rfl⟩

end Read

/-! ### What concurrent reads return -/

/-- The byte at position `p` of the decoded chunks in order. -/
def EwfReader.mediaByte (C : Crates) (r : EwfReader) (p : ℕ) : Option UInt8 :=
  match r.page C (p / r.chunkSize) with
  | .error _ => none
  | .ok page => page[p % r.chunkSize]?

/-- The result of a read at `off` into `len` bytes is the slice of the decoded media, or an
error exactly when a chunk that backs a byte of it does not decode. -/
structure EwfReader.Slice (C : Crates) (r : EwfReader) (off len : ℕ)
    (result : Except EwfError (List UInt8)) : Prop where
  ok : ∀ out, result = .ok out →
    out.length = min len (r.totalSize - off) ∧
      ∀ j < out.length, out[j]? = r.mediaByte C (off + j)
  error : (∃ e, result = .error e) ↔ ∃ i, r.Touches off len i ∧ ∃ e, r.page C i = .error e
  noPanic : result ≠ .error .indexPanic

section Slice

variable {C : Crates} {r : EwfReader}

/-- An error of a read is the error of a chunk. -/
theorem EwfReader.exists_page_error {fuel off want : ℕ} {e : EwfError}
    (h : r.pureLoop C fuel off want = .error e) : ∃ i, r.page C i = .error e := by
  induction fuel generalizing off want with
  | zero => cases h
  | succ fuel ih =>
      simp only [EwfReader.pureLoop] at h
      split_ifs at h with hz
      cases hp : r.page C (off / r.chunkSize) with
      | error e' =>
          rw [hp] at h
          obtain rfl := Except.error.inj h
          exact ⟨_, hp⟩
      | ok page =>
          rw [hp] at h
          simp only at h
          split at h
          · next e' hrest =>
              obtain rfl := Except.error.inj h
              exact ih hrest
          · cases h

/-- Decoding a chunk whose metadata is known never panics. -/
theorem decodePage_ne_indexPanic (segments : List Segment) (chunkSize chunkId : ℕ) (chunk : Chunk) :
    decodePage C segments chunkSize chunkId chunk ≠ .error .indexPanic := by
  rw [decodePage]
  split
  · simp
  · split_ifs
    · split <;> simp
    · simp only
      split_ifs <;> simp

theorem EwfReader.page_ne_indexPanic (hno : r.chunks.NoOverflow r.segments) (i : ℕ) :
    r.page C i ≠ .error .indexPanic := by
  rw [EwfReader.page]
  have hfind := ChunkTable.find_ne_indexPanic hno i
  cases hf : r.chunks.find r.segments i with
  | error e =>
      rw [hf] at hfind
      rintro he
      exact hfind (by rw [Except.error.inj he])
  | ok chunk => exact decodePage_ne_indexPanic _ _ _ _

/-- **A read without caches is a slice** of the decoded media. -/
theorem EwfReader.slice_read (hcs : 0 < r.chunkSize) (hno : r.chunks.NoOverflow r.segments)
    (off len : ℕ) : r.Slice C off len (r.read C off len) where
  ok := by
    intro out hout
    obtain ⟨hlen, hbytes⟩ := (r.read_eq_ok_iff hcs).mp hout
    refine ⟨hlen, fun j hj => ?_⟩
    obtain ⟨page, hpage, hbyte⟩ := hbytes j (hlen ▸ hj)
    rw [EwfReader.mediaByte, hpage, hbyte]
  error := by
    constructor
    · rintro ⟨e, he⟩
      by_contra hall
      push Not at hall
      obtain ⟨out, hout⟩ := @EwfReader.exists_read_eq_ok C r hcs off len fun i hi => by
        cases hp : r.page C i with
        | error e => exact absurd hp (hall i hi e)
        | ok page => exact ⟨page, rfl⟩
      rw [he] at hout
      cases hout
    · rintro ⟨i, hi, e, he⟩
      cases hread : r.read C off len with
      | error e => exact ⟨e, rfl⟩
      | ok out =>
          obtain ⟨page, hpage⟩ := EwfReader.page_of_touches hcs hread hi
          rw [he] at hpage
          cases hpage
  noPanic := by
    intro h
    obtain ⟨i, hi⟩ := EwfReader.exists_page_error h
    exact EwfReader.page_ne_indexPanic hno i hi

end Slice

end EwfForensic

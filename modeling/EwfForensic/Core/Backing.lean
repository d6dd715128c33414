import EwfForensic.Core.Read
import EwfForensic.Image.Encode

/-!
# What Backs the Bytes a Read Delivers

A page starts as zeros and the chunk is decoded into its front. The raw branch fails on a short
read, with the comment that it should "fail loud rather than silently serve zero-padded bytes";
the compressed branch takes whatever the decoder yields.

* `EwfReader.decoded` — the bytes that a chunk really decodes to, before padding.
* `EwfReader.Backed` — they reach over the whole span of the media that the chunk backs.
* `EwfReader.Sized` — the condition: a raw chunk is recorded with at least its span, a
  compressed one inflates to at least its span.
* `backed_iff_sized` — a successful read, from any reachable state, delivers backed bytes only,
  exactly when every chunk it touches is sized.
-/

namespace EwfForensic

open Octets

/-- The bytes of the media that chunk `i` backs: a chunk, or what is left of the media. -/
def EwfReader.span (r : EwfReader) (i : ℕ) : ℕ := min r.chunkSize (r.totalSize - i * r.chunkSize)

/-- The bytes that a chunk decodes to from those present in its segment. -/
def decodedBytes (C : Crates) (src : Segment) (chunkSize : ℕ) (chunk : Chunk) :
    Option (List UInt8) :=
  if chunk.compressed then
    C.zlib.readUpTo chunkSize (readAtMost src.data chunk.offset chunk.size)
  else some (readAtMost src.data chunk.offset (min chunk.size chunkSize))

/-- The bytes that chunk `i` decodes to. -/
def EwfReader.decoded (C : Crates) (r : EwfReader) (i : ℕ) : Option (List UInt8) :=
  match r.chunks.find r.segments i with
  | .error _ => none
  | .ok chunk => r.segments[chunk.segmentIdx]?.bind fun src => decodedBytes C src r.chunkSize chunk

/-- Chunk `i` decodes to at least the span it backs. -/
def EwfReader.Backed (C : Crates) (r : EwfReader) (i : ℕ) : Prop :=
  ∃ bytes, r.decoded C i = some bytes ∧ r.span i ≤ bytes.length

/-- Chunk `i` is long enough as recorded: raw, it was recorded with at least its span;
compressed, the stream in its recorded range inflates to at least its span. -/
def EwfReader.Sized (C : Crates) (r : EwfReader) (i : ℕ) : Prop :=
  ∃ chunk, r.chunks.find r.segments i = .ok chunk ∧
    if chunk.compressed then
      ∃ src out, r.segments[chunk.segmentIdx]? = some src ∧
        C.zlib.readUpTo r.chunkSize (readAtMost src.data chunk.offset chunk.size) = some out ∧
        r.span i ≤ out.length
    else r.span i ≤ chunk.size

/-- A page is what the chunk decodes to, padded with zeros; a raw chunk has all the bytes it
was recorded with. -/
theorem EwfReader.page_spec {C : Crates} {r : EwfReader} {i : ℕ} {page : List UInt8}
    (h : r.page C i = .ok page) :
    ∃ chunk src bytes, r.chunks.find r.segments i = .ok chunk ∧
      r.segments[chunk.segmentIdx]? = some src ∧
      decodedBytes C src r.chunkSize chunk = some bytes ∧ page = padPage r.chunkSize bytes ∧
      (chunk.compressed = false → bytes.length = min chunk.size r.chunkSize) := by
  rw [EwfReader.page] at h
  split at h
  · cases h
  · next chunk hfind =>
      rw [decodePage] at h
      split at h
      · cases h
      · next src hsrc =>
          refine ⟨chunk, src, ?_⟩
          rw [decodedBytes]
          split_ifs at h ⊢ with hc
          · split at h
            · cases h
            · next out hout =>
                exact ⟨out, hfind, hsrc, hout, (Except.ok.inj h).symm, fun hr => by simp [hc] at hr⟩
          · simp only at h
            split_ifs at h with hshort
            refine ⟨_, hfind, hsrc, rfl, (Except.ok.inj h).symm, fun _ => ?_⟩
            have hle : (readAtMost src.data chunk.offset (min chunk.size r.chunkSize)).length ≤
                min chunk.size r.chunkSize := List.length_take_le _ _
            omega

/-- A chunk whose page can be read is backed exactly when it is sized. -/
theorem EwfReader.backed_iff_of_page {C : Crates} {r : EwfReader} {i : ℕ} {page : List UInt8}
    (h : r.page C i = .ok page) : r.Backed C i ↔ r.Sized C i := by
  obtain ⟨chunk, src, bytes, hfind, hsrc, hbytes, -, hraw⟩ := EwfReader.page_spec h
  have hspan : r.span i ≤ r.chunkSize := Nat.min_le_left _ _
  rw [EwfReader.Backed, EwfReader.Sized, EwfReader.decoded]
  simp only [hfind, hsrc, Option.bind_some, hbytes, Option.some.injEq, exists_eq_left',
    Except.ok.injEq]
  cases hc : chunk.compressed with
  | true =>
      rw [decodedBytes, if_pos hc] at hbytes
      simp [hbytes]
  | false =>
      have := hraw hc
      simp only [Bool.false_eq_true, if_false]
      omega

/-- **What a read delivers.** In every state that reads of an opened image can lead to, a read
that succeeds delivers bytes of backed chunks only, exactly when every chunk it touches is
sized. -/
theorem backed_iff_sized (C : Crates) (sources : List Segment) (cacheSize : ℕ)
    (lazySectionCache : Option ℕ) (r : EwfReader)
    (hopen : openV1 C sources cacheSize lazySectionCache = .ok r) (st : ReaderState)
    (hst : r.Reachable C st) (off len : ℕ) (out : List UInt8)
    (hread : (r.readAt C st off len).1 = .ok out) :
    (∀ i, r.Touches off len i → r.Backed C i) ↔ ∀ i, r.Touches off len i → r.Sized C i := by
  rw [hst.readAt_eq] at hread
  refine forall₂_congr fun i ht => ?_
  obtain ⟨page, hpage⟩ := EwfReader.page_of_touches (chunkSize_pos_of_open hopen) hread ht
  exact EwfReader.backed_iff_of_page hpage

/-- The outcome of opening one segment and reading its first `len` bytes, for evaluation. -/
def openAndRead (C : Crates) (source : Segment) (len : ℕ) : Option (EwfReader × List UInt8) :=
  match openFromSources C [source] with
  | .error _ => none
  | .ok r =>
    match (r.readAt C r.init 0 len).1 with
    | .error _ => none
    | .ok out => some (r, out)

theorem openAndRead_eq_some {C : Crates} {source : Segment} {len : ℕ} {r : EwfReader}
    {out : List UInt8} (h : openAndRead C source len = some (r, out)) :
    openFromSources C [source] = .ok r ∧ (r.readAt C r.init 0 len).1 = .ok out := by
  rw [openAndRead] at h
  split at h
  · cases h
  · next r' hr =>
      split at h
      · cases h
      · next out' hout =>
          obtain ⟨rfl, rfl⟩ := Prod.mk.inj (Option.some.inj h)
          exact ⟨hr, hout⟩

/-- An image of one 512-byte sector, stored raw. -/
def rawImage : Segment := ⟨Image.oneChunkBytes 1 363 (List.replicate 512 7) [], by decide +kernel⟩

/-- An image of one 512-byte sector, stored as the zlib stream of no bytes. -/
def emptyStreamImage : Segment :=
  ⟨Image.oneChunkBytes 1 (363 + 2147483648) (Zlib.storedStream []) [], by decide +kernel⟩

theorem backed_iff_sized_rawImage :
    ∃ r out, openFromSources Crates.reference [rawImage] = .ok r ∧
      (r.readAt Crates.reference r.init 0 512).1 = .ok out ∧
      ((∀ i, r.Touches 0 512 i → r.Backed Crates.reference i) ↔
        ∀ i, r.Touches 0 512 i → r.Sized Crates.reference i) := by
  have hsome : (openAndRead Crates.reference rawImage 512).isSome = true := by decide +kernel
  obtain ⟨⟨r, out⟩, h⟩ := Option.isSome_iff_exists.mp hsome
  obtain ⟨hopen, hread⟩ := openAndRead_eq_some h
  exact ⟨r, out, hopen, hread, backed_iff_sized Crates.reference [rawImage] defaultLruSize none r
    hopen r.init .init 0 512 out hread⟩

/-- The empty stream is served as a sector of zeros: the read of its first byte succeeds, and
the chunk behind it decodes to no byte of its 512. -/
theorem emptyStreamImage_not_backed :
    ∃ r, openFromSources Crates.reference [emptyStreamImage] = .ok r ∧
      (r.readAt Crates.reference r.init 0 1).1 = .ok [0] ∧
      r.Touches 0 1 0 ∧ ¬ r.Backed Crates.reference 0 := by
  have hval : (openAndRead Crates.reference emptyStreamImage 1).map (fun p =>
      (p.2, p.1.decoded Crates.reference 0, p.1.span 0, p.1.totalSize)) =
      some ([0], some [], 512, 512) := by
    decide +kernel
  obtain ⟨⟨r, out⟩, h, hp⟩ := Option.map_eq_some_iff.mp hval
  obtain ⟨hopen, hread⟩ := openAndRead_eq_some h
  obtain ⟨hout, hdecoded, hspan, htotal⟩ : out = [0] ∧ r.decoded Crates.reference 0 = some [] ∧
      r.span 0 = 512 ∧ r.totalSize = 512 := by
    simpa using hp
  refine ⟨r, hopen, hout ▸ hread, ⟨0, le_rfl, ?_, Nat.zero_div _⟩, ?_⟩
  · simp [EwfReader.available, htotal]
  · rintro ⟨bytes, hbytes, hle⟩
    rw [hdecoded] at hbytes
    obtain rfl := Option.some.inj hbytes
    rw [hspan] at hle
    simp at hle

end EwfForensic

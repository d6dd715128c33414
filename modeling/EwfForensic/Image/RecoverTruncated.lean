import EwfForensic.Image.RecoverWhole

/-!
# Recovering a Truncated Image

The recovery of an image with one segment cut to a proper prefix. A chunk that it reports neither
as lost nor as flagged has its media bytes if the chunks are counted right up to the last segment
that serves any, and if a cut within the last chunk of the cut segment takes nothing of its data
away (`truncation_honest`).

* `SegmentLayout.countIn` — the number of chunks that the recovery counts in a prefix.
* `Layout.kept` — the segments with what is left of each.
* `Stored.SurvivesCut` — what is decoded from the front of a chunk, padded with zeros, is its data.
-/

namespace EwfForensic.Image

open Octets

/-! ### What is left of an image -/

/-- The number of chunks that the recovery counts in the first `n` bytes of a segment: those of
its first pair, or none when the table's header is cut. -/
def SegmentLayout.countIn (s : SegmentLayout) (n : ℕ) : ℕ :=
  match s.pairs with
  | [] => 0
  | q :: _ => if q.2.tablePos q.1 + 100 ≤ n then q.2.chunks.length else 0

/-- The segments of an image whose segment `k` is cut to `n` bytes, each with the number of
bytes that are left of it. -/
def Layout.kept (L : Layout) (k n : ℕ) : List (SegmentLayout × ℕ) :=
  L.segments.zipIdx.map fun x => (x.1, if x.2 = k then n else x.1.fileLength)

/-- What is decoded from the first `m` bytes of a chunk, if anything, gives its data when it is
padded with zeros: a cut raw chunk lacks zero bytes only, or its checksum; a cut stream inflates
to nothing, or to data that lacks zero bytes only. -/
def Stored.SurvivesCut (C : Crates) (chunkSize m : ℕ) (c : Stored) : Prop :=
  match c.encoding with
  | .zlib stream _ => ∀ out, C.zlib.readUpTo (chunkSize + 1) (stream.take m) = some out →
      out = [] ∨ out.take c.data.length ++ List.replicate (c.data.length - out.length) 0 = c.data
  | _ => ∀ b ∈ c.data.drop m, b = 0

/-- The last chunk of the first pair survives a cut at `n`, where the recovery reads its entry. -/
def SegmentLayout.LastSurvives (C : Crates) (chunkSize n : ℕ) (s : SegmentLayout) : Prop :=
  ∀ q ∈ s.pairs.head?, q.2.tablePos q.1 + 100 + 4 * q.2.chunks.length ≤ n →
    ∀ c ∈ (q.2.located q.1).getLast?, c.1 < n → c.2.SurvivesCut C chunkSize (n - c.1)

/-! ### A cut chunk -/

section Cut

variable {C : Crates} {chunkSize m : ℕ} {c : Stored}

/-- A byte string that ends in zeros is its front, padded. -/
theorem take_append_replicate {data : List UInt8} (h : ∀ b ∈ data.drop m, b = 0) :
    data.take m ++ List.replicate (data.length - m) 0 = data := by
  have hdrop : data.drop m = List.replicate (data.length - m) 0 := by
    rw [List.eq_replicate_iff]
    exact ⟨by rw [List.length_drop], h⟩
  rw [← hdrop, List.take_append_drop]

/-- What is decoded from the front of a chunk that survives the cut is its data, padded. -/
theorem Stored.SurvivesCut.pad (h : c.SurvivesCut C chunkSize m)
    (hlen : c.data.length ≤ chunkSize) (hcs : chunkSize + 1 ≤ u64Max) {out : List UInt8} {ok : Bool}
    (hout : Recover.decodeChunk C (c.bytes.take m) c.compressed chunkSize = some (out, ok)) :
    out.take c.data.length ++ List.replicate (c.data.length - out.length) 0 = c.data := by
  cases hcomp : c.compressed with
  | false =>
      obtain ⟨rest, hrest⟩ := Stored.bytes_of_raw hcomp
      have hzero : ∀ b ∈ c.data.drop m, b = 0 := by
        rw [Stored.SurvivesCut] at h
        rw [Stored.compressed] at hcomp
        cases he : c.encoding with
        | zlib z pad => simp [he] at hcomp
        | raw => simpa [he] using h
        | rawAdler => simpa [he] using h
      rw [hcomp, hrest] at hout
      rw [Recover.decodeChunk] at hout
      simp only [Bool.false_eq_true, if_false, Option.some.injEq, Prod.mk.injEq] at hout
      have hl : (((c.data ++ rest).take m).take chunkSize).length =
          min chunkSize (min m (c.data.length + rest.length)) := by
        rw [List.length_take, List.length_take, List.length_append]
      rw [← hout.1, hl, List.take_take, List.take_take]
      by_cases hm : c.data.length ≤ m
      · rw [show min (min c.data.length chunkSize) m = c.data.length by omega, List.take_left' rfl,
          show c.data.length - min chunkSize (min m (c.data.length + rest.length)) = 0 by omega,
          List.replicate_zero, List.append_nil]
      · rw [show min (min c.data.length chunkSize) m = m by omega,
          show c.data.length - min chunkSize (min m (c.data.length + rest.length)) =
            c.data.length - m by omega,
          List.take_append_of_le_length (by omega)]
        exact take_append_replicate hzero
  | true =>
      rw [Stored.SurvivesCut] at h
      rw [Stored.bytes] at hout
      cases he : c.encoding with
      | raw => simp [Stored.compressed, he] at hcomp
      | rawAdler => simp [Stored.compressed, he] at hcomp
      | zlib z pad =>
          rw [he] at h
          rw [he, hcomp] at hout
          rw [Recover.decodeChunk] at hout
          simp only [if_true, satAdd_eq hcs] at hout
          cases hread : C.zlib.readUpTo (chunkSize + 1) (z.take m) with
          | none => simp [hread] at hout
          | some full =>
              rw [hread] at hout
              simp only at hout
              split_ifs at hout with hempty
              obtain ⟨rfl, -⟩ := Prod.mk.inj (Option.some.inj hout)
              rcases h full hread with rfl | h
              · simp at hempty
              · rw [List.take_take, min_eq_left hlen, List.length_take,
                  show c.data.length - min chunkSize full.length = c.data.length - full.length by
                    omega]
                exact h

/-- A whole chunk survives. -/
theorem Stored.survivesCut_of_le (h : c.Sound C chunkSize) (hm : c.bytes.length ≤ m) :
    c.SurvivesCut C chunkSize m := by
  rw [Stored.SurvivesCut]
  rw [Stored.bytes] at hm
  cases he : c.encoding with
  | zlib z pad =>
      obtain ⟨hstream, hpad, -⟩ := h z pad he
      rw [he] at hm
      simp only at hm ⊢
      intro out hout
      have hl : (c.data ++ List.replicate pad 0).length = c.data.length + pad := by simp
      have hread := hstream.readUpTo (chunkSize + 1) []
      rw [List.append_nil, List.take_of_length_le (by omega)] at hread
      rw [List.take_of_length_le hm, hread] at hout
      obtain rfl := Option.some.inj hout
      right
      rw [List.take_left' rfl, hl, show c.data.length - (c.data.length + pad) = 0 by omega,
        List.replicate_zero, List.append_nil]
  | raw =>
      rw [he] at hm
      simp only at hm ⊢
      rw [List.drop_eq_nil_of_le hm]
      simp
  | rawAdler =>
      rw [he] at hm
      simp only [List.length_append] at hm ⊢
      rw [List.drop_eq_nil_of_le (by omega)]
      simp

end Cut

/-! ### What a cut image serves -/

theorem SegmentLayout.length_served (C : Crates) (chunkSize n : ℕ) (s : SegmentLayout) :
    (s.served C chunkSize n).length = s.countIn n := by
  rw [SegmentLayout.served, SegmentLayout.countIn]
  cases s.pairs with
  | nil => rfl
  | cons q rest =>
      simp only
      split_ifs
      · rw [List.length_mapIdx, Pair.located, length_locate]
      · rfl

/-- A served chunk of a prefix, padded with zeros, is the data of the chunk at its place. -/
def ServesData (c : Stored) (x : Option (List UInt8 × Bool)) : Prop :=
  ∀ bytes ok, x = some (bytes, ok) →
    bytes.take c.data.length ++ List.replicate (c.data.length - bytes.length) 0 = c.data

/-- **What a prefix serves** is the data of the segment's chunks, if its last chunk survives. -/
theorem Layout.Formed.servesData {C : Crates} {L : Layout} (h : L.Formed C) {s : SegmentLayout}
    (hs : s ∈ L.segments) {n : ℕ} (hlast : s.LastSurvives C L.chunkSize n) {l : ℕ}
    {x : Option (List UInt8 × Bool)} (hx : (s.served C L.chunkSize n)[l]? = some x) :
    ∃ c, s.chunks[l]? = some c ∧ ServesData c x := by
  obtain ⟨rest, hrest, -⟩ := s.firstLocated_spec
  rw [SegmentLayout.served] at hx
  rw [SegmentLayout.firstLocated] at hrest
  rw [SegmentLayout.LastSurvives] at hlast
  cases hpairs : s.pairs with
  | nil => simp [hpairs] at hx
  | cons q pairs =>
      have hq : q ∈ s.pairs := hpairs ▸ List.mem_cons_self ..
      rw [hpairs] at hx hrest hlast
      simp only at hx hrest
      split_ifs at hx with hhdr
      · rw [List.getElem?_mapIdx] at hx
        obtain ⟨c, hc, rfl⟩ := Option.map_eq_some_iff.mp hx
        obtain ⟨hl, -⟩ := List.getElem?_eq_some_iff.mp hc
        have hchunk : s.chunks[l]? = some c.2 := by
          rw [hrest, List.getElem?_append_left (by rwa [List.length_map]), List.getElem?_map, hc]
          rfl
        have hmem : c.2 ∈ L.chunks := by
          rw [← L.chunks_eq]
          exact List.mem_flatMap.mpr ⟨s, hs, List.mem_of_getElem? hchunk⟩
        obtain ⟨-, hle, -⟩ := h.chunk hmem
        have hmax : L.chunkSize ≤ 134217728 := h.chunkSize_le
        refine ⟨c.2, hchunk, fun bytes ok hres => ?_⟩
        split_ifs at hres with hkept
        by_cases hwhole : c.1 + c.2.bytes.length ≤ n
        · -- The whole chunk is there.
          rw [List.take_of_length_le (by omega)] at hres
          obtain ⟨tail, htail⟩ := h.decodeChunk hmem
          obtain ⟨rfl, -⟩ := Prod.mk.inj (Option.some.inj (hres.symm.trans htail))
          rw [List.take_left' rfl, List.length_append,
            show c.2.data.length - (c.2.data.length + tail.length) = 0 by omega,
            List.replicate_zero, List.append_nil]
        · obtain ⟨hend, hlt⟩ := hkept.2.resolve_left hwhole
          have hgetLast : (q.2.located q.1).getLast? = some c := by
            rw [List.getLast?_eq_getElem?, ← hc]
            congr 1
            rw [Pair.located, length_locate]
            omega
          have hentry := hkept.1
          rw [if_neg (by omega)] at hentry
          have hsurvives := hlast q (by simp) (by omega) c (by simp [hgetLast]) hlt
          exact hsurvives.pad hle (by unfold u64Max; omega) hres
      · simp at hx

/-- Two lists cut into parts, one of which leaves out some of the elements at the end of a part:
as long as no element follows a part with a gap, the elements have the same indices in both. -/
theorem getElem?_flatMap_aligned {ι β γ : Type} {R : γ → β → Prop} {l : List ι} {f : ι → List β}
    {g : ι → List γ}
    (hrel : ∀ a ∈ l, ∀ (j : ℕ) (x : β), (f a)[j]? = some x → ∃ c, (g a)[j]? = some c ∧ R c x)
    (hal : l.Pairwise fun a b => (f a).length = (g a).length ∨ (f b).length = 0) {i : ℕ} {x : β}
    (h : (l.flatMap f)[i]? = some x) : ∃ c, (l.flatMap g)[i]? = some c ∧ R c x := by
  induction l generalizing i with
  | nil => simp at h
  | cons a l ih =>
      obtain ⟨hhead, htail⟩ := List.pairwise_cons.mp hal
      rw [List.flatMap_cons] at h ⊢
      by_cases hi : i < (f a).length
      · rw [List.getElem?_append_left hi] at h
        obtain ⟨c, hc, hR⟩ := hrel a (List.mem_cons_self ..) i x h
        rw [List.getElem?_append_left (List.getElem?_eq_some_iff.mp hc).1]
        exact ⟨c, hc, hR⟩
      · rw [List.getElem?_append_right (by omega)] at h
        -- Something follows, so the first part has no gap.
        have hlen : (f a).length = (g a).length := by
          obtain ⟨b, hb, hxb⟩ := List.mem_flatMap.mp (List.mem_of_getElem? h)
          refine (hhead b hb).resolve_right fun h0 => ?_
          rw [List.eq_nil_of_length_eq_zero h0] at hxb
          cases hxb
        rw [List.getElem?_append_right (by omega), ← hlen]
        exact ih (fun b hb => hrel b (List.mem_cons_of_mem _ hb)) htail h

section Layout

variable {C : Crates} {L : Layout} {sources : List Segment} {k n : ℕ}

/-- What is left of an image's files when segment `k` is cut. -/
theorem Layout.Formed.source_kept (h : L.Formed C) (hfiles : sources.map (·.data) = L.files)
    {source : Segment} (hsource : sources[k]? = some source) (hn : n ≤ source.data.length) {i : ℕ}
    {s : SegmentLayout} (hs : L.segments[i]? = some s) :
    ∃ src : Segment, Written s (i + 1) (i + 1 = L.segments.length) src.data ∧
      (if i = k then n else s.fileLength) ≤ src.data.length ∧
      ((sources.map (·.data)).set k (source.data.take n))[i]? =
        some (src.data.take (if i = k then n else s.fileLength)) := by
  obtain ⟨src, hsrc, w⟩ := h.source hfiles hs
  have hfile : s.fileLength = src.data.length := w.length_eq.symm
  refine ⟨src, w, ?_, ?_⟩
  · split_ifs with hik
    · subst hik
      obtain rfl : source = src := Option.some.inj (hsource.symm.trans hsrc)
      exact hn
    · exact hfile.le
  · have hmap : (sources.map (·.data))[i]? = some src.data := by
      rw [List.getElem?_map, hsrc]
      rfl
    split_ifs with hik
    · subst hik
      obtain rfl : source = src := Option.some.inj (hsource.symm.trans hsrc)
      rw [List.getElem?_set_self (List.getElem?_eq_some_iff.mp hmap).1]
    · rw [List.getElem?_set_ne (Ne.symm hik), hmap, hfile, List.take_length]

/-- The files of an image with a cut segment serve what is left of their first pairs. -/
theorem Layout.Formed.serves_kept (h : L.Formed C) (hfiles : sources.map (·.data) = L.files)
    {source : Segment} (hsource : sources[k]? = some source) (hn : n ≤ source.data.length) :
    List.Forall₂ (Recover.Serves C L.chunkSize)
      (((sources.map (·.data)).set k (source.data.take n)).map Recover.SegmentTables.ofBytes)
      ((L.kept k n).map fun x => x.1.served C L.chunkSize x.2) := by
  have hlen : sources.length = L.segments.length := by
    rw [← (h.written hfiles).length_eq, List.length_zipIdx]
  rw [List.forall₂_iff_get]
  refine ⟨by simp [Layout.kept, hlen], fun i h1 h2 => ?_⟩
  have hi : i < L.segments.length := by simpa [Layout.kept] using h2
  obtain ⟨src, w, hle, hget⟩ := h.source_kept hfiles hsource hn (List.getElem?_eq_getElem hi)
  obtain ⟨hi', hget⟩ := List.getElem?_eq_some_iff.mp hget
  have hserve := h.serves_take (List.getElem_mem hi) w hle
  simp only [List.get_eq_getElem, List.getElem_map, hget, Layout.kept, List.getElem_zipIdx,
    Nat.zero_add]
  exact hserve

/-- What the kept segments serve is the media of their chunks, if the last chunk of the cut
segment survives the cut. -/
theorem Layout.Formed.served_kept (h : L.Formed C) (hfiles : sources.map (·.data) = L.files)
    {s : SegmentLayout} (hk : L.segments[k]? = some s) {source : Segment}
    (hsource : sources[k]? = some source) (hn : n ≤ source.data.length)
    (hlast : s.LastSurvives C L.chunkSize n) :
    ∀ a ∈ L.kept k n, ∀ (j : ℕ) (x : Option (List UInt8 × Bool)),
      (a.1.served C L.chunkSize a.2)[j]? = some x →
        ∃ c, a.1.chunks[j]? = some c ∧ ServesData c x := by
  intro a ha j x hx
  obtain ⟨⟨t, m⟩, ht, rfl⟩ := List.mem_map.mp ha
  have htm := List.mk_mem_zipIdx_iff_getElem?.mp ht
  obtain ⟨src, w, -, -⟩ := h.source_kept hfiles hsource hn htm
  refine h.servesData (List.mem_of_getElem? htm) ?_ hx
  simp only
  split_ifs with hmk
  · subst hmk
    obtain rfl := Option.some.inj (htm.symm.trans hk)
    exact hlast
  · -- A whole segment is not cut within its last chunk.
    intro q hq _ c hc hlt
    have hq' : q ∈ t.pairs := List.mem_of_mem_head? hq
    have hend := (w.chunk_at hq' (List.mem_of_getLast? hc)).1.length_le
    have hfile : t.fileLength = src.data.length := w.length_eq.symm
    have hmem : c.2 ∈ L.chunks := by
      refine mem_chunks_of_mem_pairs (List.mem_of_getElem? htm) hq' ?_
      rw [← map_snd_locate (q.2.dataStart q.1) q.2.chunks]
      exact List.mem_map_of_mem (List.mem_of_getLast? hc)
    exact Stored.survivesCut_of_le (h.sound _ hmem) (by omega)

/-- The kept segments hold the chunks of the image. -/
theorem Layout.chunks_kept (L : Layout) (k n : ℕ) :
    (L.kept k n).flatMap (fun x => x.1.chunks) = L.chunks := by
  rw [Layout.kept, List.flatMap_map, ← L.chunks_eq]
  simp only
  rw [← List.flatMap_map, List.zipIdx_map_fst]

/-- No more chunks are served than the image has, so their number fits the counter. -/
theorem Layout.Formed.length_served_kept_le (h : L.Formed C)
    (hserved : ∀ a ∈ L.kept k n, ∀ (j : ℕ) (x : Option (List UInt8 × Bool)),
      (a.1.served C L.chunkSize a.2)[j]? = some x →
        ∃ c, a.1.chunks[j]? = some c ∧ ServesData c x) :
    ((L.kept k n).map fun x => x.1.served C L.chunkSize x.2).flatten.length ≤ u64Max := by
  have hsum : ((L.kept k n).flatMap fun x => x.1.served C L.chunkSize x.2).length ≤
      ((L.kept k n).flatMap fun x => x.1.chunks).length := by
    rw [List.length_flatMap, List.length_flatMap]
    refine List.sum_le_sum fun a ha => ?_
    by_contra hgt
    obtain ⟨c, hc, -⟩ := hserved a ha a.1.chunks.length _
      (List.getElem?_eq_getElem (not_le.mp hgt))
    have := (List.getElem?_eq_some_iff.mp hc).1
    omega
  have hlt := h.chunks_lt
  rw [L.chunks_kept, List.flatMap_def] at hsum
  rw [u64Max]
  omega

/-- A chunk reported neither as lost nor as flagged has its media bytes at its span. -/
def Layout.Honest (L : Layout) (report : Recover.RecoveryReport) (out : List UInt8) : Prop :=
  ∀ i c, L.chunks[i]? = some c → i ∉ report.lostChunks → i ∉ report.crcFlaggedChunks →
    Recover.span L.chunkSize out i = c.data

/-- **Recovery of a truncated image.** What the recovery does not report is the media, if the
chunks are counted right wherever others follow and the last chunk of the cut segment survives
the cut. -/
theorem truncation_honest (C : Crates) (L : Layout) (h : L.WellFormed C) (sources : List Segment)
    (hfiles : sources.map (·.data) = L.files) {s : SegmentLayout} (hk : L.segments[k]? = some s)
    {source : Segment} (hsource : sources[k]? = some source) (hn : n < source.data.length)
    {report : Recover.RecoveryReport} {out : List UInt8}
    (hrun : Recover.recoverToFile C ((sources.map (·.data)).set k (source.data.take n)) =
      some (report, out))
    (hcounts : (L.kept k n).Pairwise fun x y =>
      x.1.countIn x.2 = x.1.chunks.length ∨ y.1.countIn y.2 = 0)
    (hlast : s.LastSurvives C L.chunkSize n) : L.Honest report out := by
  obtain ⟨geom, hb, hout, -, hreport⟩ := Recover.recoverToFile_ok hrun
  obtain ⟨src₀, w₀, hle₀, hget₀⟩ := h.source_kept hfiles hsource hn.le (i := 0) (s := L.first) rfl
  obtain ⟨files, hfilesEq⟩ : ∃ files, (sources.map (·.data)).set k (source.data.take n) = files :=
    ⟨_, rfl⟩
  have hserves := h.serves_kept hfiles hsource hn.le
  rw [hfilesEq] at hb hout hreport hget₀ hserves
  have hhead : files.headD [] = src₀.data.take (if 0 = k then n else L.first.fileLength) := by
    cases files with
    | nil => cases hget₀
    | cons a rest => exact Option.some.inj hget₀
  have hgeom : geom = L.geometry := ((h.bootstrap_take w₀ hle₀ hhead geom).mp hb).1
  subst hgeom
  obtain ⟨hchunk, -, hneeded⟩ := h.geometry_spec
  have hpos : 0 < L.geometry.chunkSize := hchunk ▸ h.chunkSize_pos
  have hmap := Recover.recoverRun_eq_map C files hpos
  rw [hneeded, show L.geometry.chunkCount = L.chunks.length from rfl, Nat.min_self] at hmap
  intro i c hc hlost _
  obtain ⟨hi, -⟩ := List.getElem?_eq_some_iff.mp hc
  rw [hout, ← hchunk, Recover.span_pieces hpos (by rw [hneeded]; exact hi)]
  -- The chunk was decoded.
  have hsome : (Recover.outcomeAt C (files.map Recover.SegmentTables.ofBytes) L.geometry
      i).isLost = false := by
    by_contra hne
    refine hlost ?_
    rw [hreport, Recover.reportOf]
    simp only
    rw [hmap, Recover.filter_map_outcomeAt, List.mem_filter]
    exact ⟨by rw [List.mem_range'_1]; omega, by simpa using hne⟩
  obtain ⟨⟨bytes, ok⟩, hres⟩ : ∃ r, (Recover.outcomeAt C
      (files.map Recover.SegmentTables.ofBytes) L.geometry i).decoded.map
        Recover.Decoded.result = some r := by
    rw [Recover.RecoveredChunk.isLost, Option.isNone_eq_false_iff] at hsome
    obtain ⟨d, hd⟩ := Option.isSome_iff_exists.mp hsome
    exact ⟨d.result, by rw [hd]; rfl⟩
  rw [(Recover.RecoveredChunk.of_result hres).1]
  have hlog : (Recover.outcomeAt C (files.map Recover.SegmentTables.ofBytes) L.geometry
      i).logical = c.data.length := h.logicalAt_eq hc
  rw [hlog]
  -- It is the chunk at this place of what the segments serve.
  rw [Recover.outcomeAt, if_pos (show i < L.geometry.chunkCount from hi), hchunk] at hres
  have hserved := h.served_kept hfiles hk hsource hn.le hlast
  have hcounts' : (L.kept k n).Pairwise fun x y =>
      (x.1.served C L.chunkSize x.2).length = x.1.chunks.length ∨
        (y.1.served C L.chunkSize y.2).length = 0 := by
    simpa only [SegmentLayout.length_served] using hcounts
  have hglobal := @Recover.decodeGlobal_of_serves _ _ _ _ hserves i fun hlt =>
    lt_of_lt_of_le hlt (h.length_served_kept_le hserved)
  rw [hres, ← List.flatMap_def] at hglobal
  obtain ⟨c', hc', hdata⟩ := getElem?_flatMap_aligned hserved hcounts'
    (show _ = some (some (bytes, ok)) by
      cases hx : ((L.kept k n).flatMap fun x => x.1.served C L.chunkSize x.2)[i]? with
      | none => rw [hx] at hglobal; cases hglobal
      | some x => rw [hx] at hglobal; exact congrArg some hglobal.symm)
  rw [L.chunks_kept, hc] at hc'
  obtain rfl := Option.some.inj hc'
  exact hdata bytes ok rfl

end Layout

theorem truncation_honest_cutImage :
    ∃ report out, Recover.recoverToFile Crates.reference [mixedImage.data.take 1503] =
        some (report, out) ∧ (onePairLayout 3 mixedChunks).Honest report out := by
  have hsome : (Recover.recoverToFile Crates.reference [mixedImage.data.take 1503]).isSome =
      true := by decide +kernel
  obtain ⟨⟨report, out⟩, hrun⟩ := Option.isSome_iff_exists.mp hsome
  have hlast : ∀ q ∈ (onePairLayout 3 mixedChunks).first.pairs.head?,
      ∀ c ∈ (q.2.located q.1).getLast?, ¬ c.1 < 1503 := by decide +kernel
  exact ⟨report, out, hrun, truncation_honest Crates.reference (onePairLayout 3 mixedChunks)
    mixedChunks_wellFormed [mixedImage] rfl (k := 0) rfl rfl (n := 1503) (by decide +kernel) hrun
    (List.pairwise_singleton _ _) fun q hq _ c hc hlt => absurd hlt (hlast q hq c hc)⟩

/-- A full chunk, stored raw. -/
def rawChunks : List Stored := [⟨List.replicate 1024 7, .raw⟩]

theorem rawChunks_wellFormed : (onePairLayout 2 rawChunks).WellFormed Crates.reference := by
  refine onePairLayout_wellFormed (by decide +kernel) (by decide +kernel) (by decide) ?_
    (by decide +kernel) (by decide +kernel)
  intro c hc z pad he
  obtain rfl := List.mem_singleton.mp hc
  cases he

/-- The image of this chunk, as a source. -/
def rawChunkImage : Segment := ⟨(onePairLayout 2 rawChunks).files.headD [], by decide +kernel⟩

/-- Cut 512 bytes into the chunk, the image is recovered with the other 512 bytes as zeros, and
nothing is reported. -/
theorem rawChunkImage_cut_not_honest :
    (onePairLayout 2 rawChunks).WellFormed Crates.reference ∧
      [rawChunkImage].map (·.data) = (onePairLayout 2 rawChunks).files ∧
        979 < rawChunkImage.data.length ∧
          ∃ report out, Recover.recoverToFile Crates.reference [rawChunkImage.data.take 979] =
            some (report, out) ∧ ¬ (onePairLayout 2 rawChunks).Honest report out := by
  refine ⟨rawChunks_wellFormed, rfl, by decide +kernel, ?_⟩
  have hval : (Recover.recoverToFile Crates.reference [rawChunkImage.data.take 979]).map
      (fun v => (v.1.lostChunks, v.1.crcFlaggedChunks, Recover.span 1024 v.2 0)) =
      some ([], [], List.replicate 512 7 ++ List.replicate 512 0) := by decide +kernel
  obtain ⟨⟨report, out⟩, hrun, hres⟩ := Option.map_eq_some_iff.mp hval
  simp only [Prod.mk.injEq] at hres
  obtain ⟨hlost, hflagged, hspan⟩ := hres
  refine ⟨report, out, hrun, fun hall => ?_⟩
  have hchunk := hall 0 ⟨List.replicate 1024 7, .raw⟩ rfl (by rw [hlost]; simp)
    (by rw [hflagged]; simp)
  have hcs : (onePairLayout 2 rawChunks).chunkSize = 1024 := by decide +kernel
  rw [hcs, hspan] at hchunk
  exact absurd hchunk (by decide +kernel)

end EwfForensic.Image

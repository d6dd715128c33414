import EwfForensic.Forensic.ChainReports
import EwfForensic.Image.RecoverTruncated

/-!
# Which Cuts the Recovery Notices

The recovery walk records where a segment's chain breaks off: at a descriptor whose `next` field
points behind the end, or at a position with bytes left but too few for a descriptor.

* `walkTruncation_eq_none_iff` — the walk records nothing if and only if neither is on the chain.
* `WellChained` — the chain of a whole segment: it ends at the last descriptor, and no section
  overlaps the descriptor of the one before it; `Image.Encoded.wellChained` for written segments.
* `linked_take_iff` — the chain of a cut segment is that of the whole one up to the cut.
* `truncation_reported_iff` — a cut is reported unless it falls where a section starts or
  within the file header.
-/

namespace EwfForensic

open Octets StateTransition

section Recovery

variable {data : List UInt8} {pos : ℕ}

/-! ### The recovery walk -/

/-- The recovery walk goes where the analyser's goes. -/
theorem next_recoverStep (data : List UInt8) :
    Loop.next (Recover.walkStep data) = Loop.next (walkStep data) := by
  funext pos
  have h := congrArg (fun o : Option (Section × Option ℕ) => o.bind (·.2))
    (walkStep_map_eq data pos)
  simpa only [Loop.next, Option.bind_map, Function.comp_def] using h

/-- The recovery walk, too, only goes on to what is left. -/
theorem recoverStep_rank (data : List UInt8) (pos : ℕ) (a : Section × Option ℕ) (u : ℕ)
    (h : Recover.walkStep data pos = some (a, some u)) :
    data.length + fileHeaderSize - u < data.length + fileHeaderSize - pos := by
  obtain ⟨hlt, hle⟩ := Recover.walkStep_lt h
  omega

/-- The break that one turn of the recovery walk records. -/
def breakAt (data : List UInt8) (pos : ℕ) : Option ℕ :=
  if ¬ (sectionAt data pos).IsTerminal ∧ data.length < nextField data pos then
    some (nextField data pos)
  else none

/-- One turn of the recovery walk at a descriptor. -/
theorem recoverStep_of_room (hdata : data.length < u64Max) (hpos : pos + 76 ≤ data.length) :
    ∃ r, Recover.walkStep data pos = some ((sectionAt data pos, breakAt data pos), r) := by
  obtain ⟨hs, hparse⟩ := descriptor_of_room hdata hpos
  have hnext := next_ofBytes_window hdata hpos
  rw [Recover.walkStep, hs]
  simp only [hparse, hnext]
  split_ifs with hterm hback hpast
  · exact ⟨none, by rw [breakAt, if_neg fun h => h.1 hterm]; rfl⟩
  · exact ⟨none, by rw [breakAt, if_neg fun h => by omega]; rfl⟩
  · exact ⟨none, by rw [breakAt, if_pos ⟨hterm, hpast⟩]; rfl⟩
  · exact ⟨some _, by rw [breakAt, if_neg fun h => hpast h.2]; rfl⟩

/-- **Where the walk runs out of room**, it records the position if bytes are left there. The
induction is on the fuel, which is above the rank of the walk. -/
theorem shortEnd_eq_none_iff (hdata : data.length < u64Max) {fuel : ℕ}
    (hfuel : data.length + fileHeaderSize - pos < fuel) :
    Recover.shortEnd data fuel pos = none ↔
      ∀ t, Reaches (Loop.next (walkStep data)) pos t → data.length < t + 76 → data.length ≤ t := by
  have hshort : ∀ t, Recover.walkStep data t = none ↔ data.length < t + 76 := by
    intro t
    refine ⟨fun h => ?_, fun h => Image.recoverStep_of_lt h hdata⟩
    by_contra hroom
    obtain ⟨r, hr⟩ := recoverStep_of_room hdata (not_lt.mp hroom)
    rw [h] at hr
    cases hr
  rw [← next_recoverStep]
  induction fuel generalizing pos with
  | zero => omega
  | succ fuel ih =>
      rw [Recover.shortEnd]
      match h : Recover.walkStep data pos with
      | none =>
          constructor
          · intro hnone t ht _
            rcases Loop.reaches_cases ht with rfl | ⟨a, u, hu, -⟩
            · by_contra hlt
              simp [not_le.mp hlt] at hnone
            · rw [h] at hu
              cases hu
          · intro hall
            have := hall pos Relation.ReflTransGen.refl ((hshort pos).mp h)
            simp [not_lt.mpr this]
      | some (a, none) =>
          refine iff_of_true rfl fun t ht hlt => ?_
          rcases Loop.reaches_cases ht with rfl | ⟨b, u, hu, -⟩
          · rw [(hshort t).mpr hlt] at h
            cases h
          · rw [h] at hu
            cases hu
      | some (a, some u) =>
          have hrank := recoverStep_rank data pos a u h
          refine (@ih u (by omega)).trans ?_
          constructor
          · intro hall t ht hlt
            rcases Loop.reaches_cases ht with rfl | ⟨b, v, hv, htail⟩
            · rw [(hshort t).mpr hlt] at h
              cases h
            · rw [h] at hv
              obtain ⟨-, hv⟩ := Prod.mk.inj (Option.some.inj hv)
              obtain rfl := Option.some.inj hv
              exact hall t htail hlt
          · exact fun hall t ht hlt => hall t (Loop.reaches_of_step h ht) hlt

/-- **The walk records no truncation** if and only if no descriptor of the chain points behind the
end and the chain leads to no position with bytes left, but too few of them. -/
theorem walkTruncation_eq_none_iff (hdata : data.length < u64Max) :
    Recover.walkTruncation data = none ↔
      ∀ t, Linked data t → (t + 76 ≤ data.length → breakAt data t = none) ∧
        (data.length < t + 76 → data.length ≤ t) := by
  have hmem := fun a => @Loop.mem_visits_iff _ _ (Recover.walkStep data) fileHeaderSize _
    (recoverStep_rank data) (data.length + 1) (by omega) a
  rw [Recover.walkTruncation, Option.or_eq_none_iff, List.findSome?_eq_none_iff,
    shortEnd_eq_none_iff hdata (by omega)]
  constructor
  · rintro ⟨hbreaks, hends⟩ t ht
    have hreach := (reaches_iff_linked hdata).mpr ht
    refine ⟨fun hroom => ?_, hends t hreach⟩
    obtain ⟨r, hr⟩ := recoverStep_of_room hdata hroom
    exact hbreaks _ ((hmem _).mpr ⟨t, r, next_recoverStep data ▸ hreach, hr⟩)
  · intro hall
    refine ⟨fun a ha => ?_, fun t ht => (hall t ((reaches_iff_linked hdata).mp ht)).2⟩
    obtain ⟨t, r, ht, hstep⟩ := (hmem a).mp ha
    rw [next_recoverStep] at ht
    have hroom : t + 76 ≤ data.length := by
      by_contra hshort
      rw [Image.recoverStep_of_lt (not_le.mp hshort) hdata] at hstep
      cases hstep
    obtain ⟨r', hr⟩ := recoverStep_of_room hdata hroom
    obtain ⟨rfl, -⟩ := Prod.mk.inj (Option.some.inj (hstep.symm.trans hr))
    exact (hall t ((reaches_iff_linked hdata).mp ht)).1 hroom

/-! ### Whole segments -/

/-- The chain of a whole segment. -/
structure WellChained (data : List UInt8) : Prop where
  /-- No section starts within the descriptor of the one before it. -/
  apart : ∀ pos, Linked data pos → pos + 76 ≤ data.length → ¬ (sectionAt data pos).IsTerminal →
    pos + 76 ≤ nextField data pos
  /-- The chain leads to a terminal descriptor at the end of the segment. -/
  ends : ∃ pos, Linked data pos ∧ (sectionAt data pos).IsTerminal ∧ pos + 76 = data.length

/-- The whole chain of a whole segment: every position but the last leads on to a later one. -/
theorem WellChained.leads_on (h : WellChained data) (hdata : data.length < u64Max)
    (hpos : Linked data pos) : pos + 76 ≤ data.length ∧ ((sectionAt data pos).IsTerminal →
      pos + 76 = data.length) ∧ (¬ (sectionAt data pos).IsTerminal →
        pos + 76 ≤ nextField data pos ∧ Linked data (nextField data pos)) := by
  obtain ⟨last, hlast, hterm, hend⟩ := h.ends
  have hone : Loop.next (walkStep data) pos = none → pos = last := fun hstop =>
    exit_unique hdata hpos hlast hstop (next_eq_none_of_terminal hdata hterm)
  have hroom : pos + 76 ≤ data.length := by
    by_contra hshort
    obtain rfl := hone (next_eq_none_of_short hdata (not_le.mp hshort))
    omega
  refine ⟨hroom, fun ht => ?_, fun ht => ?_⟩
  · obtain rfl := hone (next_eq_none_of_terminal hdata ht)
    exact hend
  · have hgo : pos < nextField data pos ∧ nextField data pos ≤ data.length := by
      by_contra hstop
      obtain rfl := hone (next_eq_none_of_broken hdata (by omega))
      exact ht hterm
    exact ⟨h.apart pos hpos hroom ht, Linked.next hpos hroom ht hgo.1 hgo.2⟩

/-- From a position of the chain, the next one is not behind any later one. -/
theorem Linked.next_le (hdata : data.length < u64Max) {u : ℕ} (hpos : Linked data pos)
    (hu : Linked data u) (hlt : pos < u) :
    ¬ (sectionAt data pos).IsTerminal ∧ nextField data pos ≤ u := by
  rcases reaches_total ((reaches_iff_linked hdata).mpr hpos)
    ((reaches_iff_linked hdata).mpr hu) with hr | hr
  · rcases Loop.reaches_cases hr with rfl | ⟨⟨sec, issues⟩, v, hstep, htail⟩
    · omega
    · obtain ⟨-, rfl, hterm, rfl, -⟩ := walkStep_next hdata hstep
      exact ⟨hterm, le_of_reaches hdata htail⟩
  · have := le_of_reaches hdata hr
    omega

/-- Nothing is recorded of a whole segment. -/
theorem WellChained.walkTruncation_eq_none (h : WellChained data) (hdata : data.length < u64Max) :
    Recover.walkTruncation data = none := by
  rw [walkTruncation_eq_none_iff hdata]
  intro t ht
  obtain ⟨hroom, -, hgo⟩ := h.leads_on hdata ht
  refine ⟨fun _ => ?_, fun hshort => by omega⟩
  rw [breakAt, if_neg]
  rintro ⟨hterm, hpast⟩
  have := (h.leads_on hdata (hgo hterm).2).1
  omega

/-! ### Cut segments -/

section Cut

variable {n : ℕ}

/-- The descriptors that a cut keeps. -/
theorem window_take (hpos : pos + 76 ≤ n) :
    ((data.take n).drop pos).take sectionDescriptorSize =
      (data.drop pos).take sectionDescriptorSize := by
  rw [List.drop_take, List.take_take]
  congr 1
  change min 76 (n - pos) = 76
  omega

theorem sectionAt_take (hpos : pos + 76 ≤ n) :
    sectionAt (data.take n) pos = sectionAt data pos := by
  rw [sectionAt, sectionAt, window_take hpos]

theorem nextField_take (hdata : data.length < u64Max) (hn : n ≤ data.length) (hpos : pos + 76 ≤ n) :
    nextField (data.take n) pos = nextField data pos := by
  have hlen : (data.take n).length = n := List.length_take_of_le hn
  rw [← next_ofBytes_window hdata (show pos + 76 ≤ data.length by omega), ← window_take hpos,
    next_ofBytes_window (by omega) (by omega)]

/-- **The chain of a cut segment** is that of the whole one up to the cut. -/
theorem linked_take_iff (h : WellChained data) (hdata : data.length < u64Max)
    (hn : n ≤ data.length) :
    Linked (data.take n) pos ↔ Linked data pos ∧ (pos = fileHeaderSize ∨ pos ≤ n) := by
  have hlen : (data.take n).length = n := List.length_take_of_le hn
  constructor
  · intro hpos
    induction hpos with
    | first => exact ⟨Linked.first, Or.inl rfl⟩
    | @next pos _ hroom hterm hlt hle ih =>
        rw [hlen] at hroom hle
        rw [sectionAt_take hroom] at hterm
        rw [nextField_take hdata hn hroom] at hlt hle ⊢
        exact ⟨Linked.next ih.1 (by omega) hterm hlt (by omega), Or.inr hle⟩
  · rintro ⟨hpos, hcut⟩
    induction hpos with
    | first => exact Linked.first
    | @next pos hpos hroom hterm hlt hle ih =>
        have hfirst := hpos.ge
        have hkept : nextField data pos ≤ n := by omega
        have hapart := h.apart pos hpos hroom hterm
        rw [← nextField_take hdata hn (show pos + 76 ≤ n by omega)] at hlt hkept ⊢
        refine Linked.next (ih (by omega)) (by omega) ?_ hlt (by omega)
        rwa [sectionAt_take (by omega)]

/-- **A cut of a whole segment** goes unnoticed exactly where it falls within the file header or
where a section starts. -/
theorem walkTruncation_take_eq_none_iff (h : WellChained data) (hdata : data.length < u64Max)
    (hn : n < data.length) :
    Recover.walkTruncation (data.take n) = none ↔ n < fileHeaderSize ∨ Linked data n := by
  have hlen : (data.take n).length = n := List.length_take_of_le hn.le
  have hchain := fun t => @linked_take_iff data t n h hdata hn.le
  rw [walkTruncation_eq_none_iff (by omega), hlen]
  constructor
  · intro hnone
    by_contra hnot
    obtain ⟨hge, hunlinked⟩ := not_or.mp hnot
    have hkept : ∀ t, Linked data t → t ≤ n →
        t + 76 ≤ n ∧ (¬ (sectionAt data t).IsTerminal → nextField data t ≤ n) := by
      intro t ht hle
      obtain ⟨hbreak, hshort⟩ := hnone t ((hchain t).mpr ⟨ht, Or.inr hle⟩)
      have hne : t ≠ n := fun he => hunlinked (he ▸ ht)
      have hroom : t + 76 ≤ n := by omega
      refine ⟨hroom, fun hterm => ?_⟩
      have hnobreak := hbreak hroom
      rw [breakAt, sectionAt_take hroom, nextField_take hdata hn.le hroom, hlen] at hnobreak
      by_contra hpast
      rw [if_pos ⟨hterm, not_le.mp hpast⟩] at hnobreak
      cases hnobreak
    -- So the whole chain lies before the cut, the last descriptor included.
    have hall : ∀ t, Linked data t → t ≤ n := by
      intro t ht
      induction ht with
      | first => exact not_lt.mp hge
      | next hpos _ hterm _ _ ih => exact (hkept _ hpos ih).2 hterm
    obtain ⟨last, hlast, -, hend⟩ := h.ends
    have := (hkept last hlast (hall last hlast)).1
    omega
  · intro hcut t ht
    obtain ⟨hlinked, -⟩ := (hchain t).mp ht
    have hfirst := hlinked.ge
    rcases hcut with hheader | hsection
    · exact ⟨fun hroom => by omega, fun _ => by omega⟩
    · refine ⟨fun hroom => ?_, fun hshort => ?_⟩
      · obtain ⟨-, hle⟩ := hlinked.next_le hdata hsection (by omega)
        rw [breakAt, nextField_take hdata hn.le hroom, hlen, if_neg fun hb => by omega]
      · by_contra hlt
        obtain ⟨hterm, hle⟩ := hlinked.next_le hdata hsection (not_le.mp hlt)
        have := ((h.leads_on hdata hlinked).2.2 hterm).1
        omega

end Cut

end Recovery

/-- **Which cuts are reported.** Where segment `k` of whole segments is cut to `n` bytes, the
recovery reports a truncation unless the cut falls within the file header or where a section
starts. -/
theorem truncation_reported_iff {C : Crates} {segs : List Segment}
    (hwell : ∀ s ∈ segs, WellChained s.data) {k n : ℕ} {s : Segment} (hk : segs[k]? = some s)
    (hn : n < s.data.length) {report : Recover.RecoveryReport} {out : List UInt8}
    (hrun : Recover.recoverToFile C ((segs.map (·.data)).set k (s.data.take n)) =
      some (report, out)) :
    report.truncationOffset.isSome ↔ ¬ (n < fileHeaderSize ∨ Linked s.data n) := by
  obtain ⟨geom, -, -, -, rfl⟩ := Recover.recoverToFile_ok hrun
  have hcut := walkTruncation_take_eq_none_iff (hwell s (List.mem_of_getElem? hk))
    s.length_lt_u64Max hn
  rw [← hcut, Option.isSome_iff_ne_none]
  refine not_congr ?_
  change List.findSome? Recover.walkTruncation _ = none ↔ _
  rw [List.findSome?_eq_none_iff]
  constructor
  · intro hall
    refine hall _ (List.mem_iff_getElem?.mpr ⟨k, ?_⟩)
    rw [List.getElem?_set_self (by rw [List.length_map]; exact (List.getElem?_eq_some_iff.mp hk).1)]
  · intro hone x hx
    rcases List.mem_or_eq_of_mem_set hx with hx | rfl
    · obtain ⟨s', hs', rfl⟩ := List.mem_map.mp hx
      exact (hwell s' hs').walkTruncation_eq_none s'.length_lt_u64Max
    · exact hone

/-! ### Written segments -/

namespace Image

section Written

variable {s : SegmentLayout} {num : ℕ} {last : Bool} {data : List UInt8}

/-- What the walks read of a written descriptor. -/
theorem sectionAt_of_hasAt {t : SectionType} {next size off : ℕ} (hk : t ∈ knownTypes)
    (h : HasAt data off (descriptorBytes t next size)) (hlen : data.length < u64Max)
    (hnext : next ≤ u64Max) (hsize : size ≤ u64Max) :
    sectionAt data off = ⟨t, off, size⟩ ∧ nextField data off = next := by
  have hle := h.length_le
  have htake := (hasAt_iff.mp h).2
  rw [length_descriptorBytes hk] at hle htake
  have hd : SectionDescriptor.ofBytes ((data.drop off).take sectionDescriptorSize) off =
      ⟨t, next, size, off, adler32 (descriptorFront t next size)⟩ := by
    rw [show sectionDescriptorSize = 76 from rfl, htake, ofBytes_descriptorBytes hk hnext hsize]
  refine ⟨by rw [sectionAt, hd], ?_⟩
  rw [← next_ofBytes_window hlen hle, hd]

/-- Behind a section of a row stands another one of it, or the row ends there. -/
theorem placeSections_next {secs : List RawSection} {pos : ℕ} {q : ℕ × RawSection}
    (hq : q ∈ placeSections pos secs) :
    (∃ q' ∈ placeSections pos secs, q'.1 = q.1 + q.2.size) ∨
      q.1 + q.2.size = pos + sectionsSize secs := by
  induction secs generalizing pos with
  | nil => cases hq
  | cons a secs ih =>
      rw [sectionsSize_cons, ← Nat.add_assoc]
      rcases List.mem_cons.mp hq with rfl | hq
      · cases secs with
        | nil => exact Or.inr rfl
        | cons b secs => exact Or.inl ⟨(pos + a.size, b), by simp [placeSections], rfl⟩
      · rcases ih hq with ⟨q', hq', he⟩ | he
        · exact Or.inl ⟨q', List.mem_cons_of_mem _ hq', he⟩
        · exact Or.inr he

/-- What the walks read of a written section, and of the last descriptor. -/
theorem Encoded.sectionAt_eq (w : Encoded s num last data) (hlen : data.length < u64Max)
    {q : ℕ × RawSection} (hq : q ∈ placeSections 13 s.sections) :
    ¬ (sectionAt data q.1).IsTerminal ∧ nextField data q.1 = q.1 + q.2.size ∧
      q.1 + 76 ≤ data.length ∧ q.1 + q.2.size ≤ s.terminalPos := by
  have hb := w.section_bounds hq
  have hl := w.length_eq
  obtain ⟨hk, hnd, hnn⟩ := w.plain.type_known 13 q.2 (mem_of_mem_placeSections hq)
  obtain ⟨hsec, hnext⟩ :=
    sectionAt_of_hasAt hk (w.hasAt_section hq).1 hlen (by omega) (by omega)
  refine ⟨?_, hnext, by omega, by omega⟩
  rw [hsec]
  rintro (h | h)
  · exact hnd h
  · exact hnn h

theorem Encoded.sectionAt_terminalPos (w : Encoded s num last data) (hlen : data.length < u64Max)
    (hnext : s.nextField ≤ u64Max) : (sectionAt data s.terminalPos).IsTerminal := by
  rw [(sectionAt_of_hasAt (terminalType_mem last) w.hasAt.2.2 hlen hnext (by decide)).1]
  cases last
  · exact Or.inr rfl
  · exact Or.inl rfl

/-- The chain leads through the sections in order. -/
theorem linked_of_placeSections {secs : List RawSection} {pos : ℕ}
    (h : ∀ q ∈ placeSections pos secs, Linked data q.1 → Linked data (q.1 + q.2.size))
    (hpos : Linked data pos) : Linked data (pos + sectionsSize secs) := by
  induction secs generalizing pos with
  | nil => exact hpos
  | cons a secs ih =>
      rw [sectionsSize_cons, ← Nat.add_assoc]
      have hhead := h (pos, a) (List.mem_cons_self ..) hpos
      exact ih (fun q hq => h q (List.mem_cons_of_mem _ hq)) hhead

/-- **A written segment is whole.** -/
theorem Encoded.wellChained (w : Encoded s num last data) (hnext : s.nextField ≤ u64Max) :
    WellChained data := by
  have hlen : data.length < u64Max := by
    have := w.length_lt
    rw [u64Max]
    omega
  have hl := w.length_eq
  have hterm := w.sectionAt_terminalPos hlen hnext
  have hplaced : ∀ t, Linked data t →
      (∃ q ∈ placeSections 13 s.sections, q.1 = t) ∨ t = s.terminalPos := by
    intro t ht
    induction ht with
    | first =>
        rw [SegmentLayout.terminalPos]
        cases s.sections with
        | nil => exact Or.inr rfl
        | cons a secs => exact Or.inl ⟨(13, a), List.mem_cons_self .., rfl⟩
    | next _ _ hnot _ _ ih =>
        rcases ih with ⟨q, hq, rfl⟩ | rfl
        · rw [(w.sectionAt_eq hlen hq).2.1]
          exact placeSections_next hq
        · exact absurd hterm hnot
  constructor
  · intro pos hpos _ hnot
    rcases hplaced pos hpos with ⟨q, hq, rfl⟩ | rfl
    · rw [(w.sectionAt_eq hlen hq).2.1, RawSection.size]
      omega
    · exact absurd hterm hnot
  · refine ⟨s.terminalPos, linked_of_placeSections (fun q hq hlinked => ?_) Linked.first, hterm,
      hl.symm⟩
    obtain ⟨hnot, hn, hroom, hle⟩ := w.sectionAt_eq hlen hq
    have hsize : q.2.size = 76 + q.2.body.length := rfl
    rw [← hn] at hle ⊢
    exact Linked.next hlinked hroom hnot (by omega) (by omega)

/-- The segments of a well-formed image are whole. -/
theorem Layout.Formed.wellChained {C : Crates} {L : Layout} {sources : List Segment}
    (h : L.Formed C) (hfiles : sources.map (·.data) = L.files) :
    ∀ src ∈ sources, WellChained src.data := by
  intro src hsrc
  obtain ⟨i, hi⟩ := List.mem_iff_getElem?.mp hsrc
  have hlen : sources.length = L.segments.length := by
    rw [← (h.written hfiles).length_eq, List.length_zipIdx]
  have hlt : i < L.segments.length := hlen ▸ (List.getElem?_eq_some_iff.mp hi).1
  obtain ⟨src', hi', w⟩ := h.source hfiles (List.getElem?_eq_getElem hlt)
  obtain rfl := Option.some.inj (hi.symm.trans hi')
  have hnext := w.nextField_le
  have hl := w.length_eq
  have hmax := src.length_lt_u64Max
  exact w.wellChained (by omega)

end Written

end Image

open Image in
theorem truncation_reported_iff_cutImage :
    ∃ report out, Recover.recoverToFile Crates.reference [mixedImage.data.take 1503] =
        some (report, out) ∧
      (report.truncationOffset.isSome ↔
        ¬ (1503 < fileHeaderSize ∨ Linked mixedImage.data 1503)) := by
  have hsome : (Recover.recoverToFile Crates.reference [mixedImage.data.take 1503]).isSome =
      true := by decide +kernel
  obtain ⟨⟨report, out⟩, hrun⟩ := Option.isSome_iff_exists.mp hsome
  exact ⟨report, out, hrun, @truncation_reported_iff Crates.reference [mixedImage]
    (mixedChunks_wellFormed.wellChained rfl) 0 1503 _ rfl (by decide +kernel) _ _ hrun⟩

open Image in
/-- Cut where its last descriptor starts, the image is recovered as if nothing were missing. -/
theorem mixedImage_cut_not_reported :
    (onePairLayout 3 mixedChunks).WellFormed Crates.reference ∧
      [mixedImage].map (·.data) = (onePairLayout 3 mixedChunks).files ∧
        2026 < mixedImage.data.length ∧
          ∃ report out, Recover.recoverToFile Crates.reference [mixedImage.data.take 2026] =
            some (report, out) ∧ ¬ report.truncationOffset.isSome := by
  refine ⟨mixedChunks_wellFormed, rfl, by decide +kernel, ?_⟩
  have hval : (Recover.recoverToFile Crates.reference [mixedImage.data.take 2026]).map
      (fun r => r.1.truncationOffset) = some none := by decide +kernel
  obtain ⟨⟨report, out⟩, hrun, htrunc⟩ := Option.map_eq_some_iff.mp hval
  exact ⟨report, out, hrun, by simp only at htrunc; rw [htrunc]; decide⟩

end EwfForensic

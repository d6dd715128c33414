import EwfForensic.Forensic.ScanIssues
import EwfForensic.Forensic.SectionViews

/-!
# What the Walk Reports of the Chain

The section chain of a v1 segment as its bytes give it, and what `walk_sections_v1` reports of
it: the places where it does not lead on, and the gaps between one section and the next.

* `Linked` — the positions that the chain leads to; `reaches_iff_linked` says that the walk goes
  to these.
* `walkStep_cases` — what one turn of the walk records and reports.
* `gaps_exact` — a gap is reported exactly where a section starts behind the end of the one
  before, and no byte up to the end of the last section escapes both.
* `stop_reported_iff` — a chain that stops early is reported unless it stops for want of room,
  in a segment that is not the last one.
-/

namespace EwfForensic

open Octets StateTransition

/-! ### The chain of a segment -/

/-- The section ends its segment's chain. -/
def Section.IsTerminal (s : Section) : Prop := s.typeName = .done ∨ s.typeName = .next

instance (s : Section) : Decidable s.IsTerminal := inferInstanceAs (Decidable (_ ∨ _))

/-- The positions that the chain of a segment leads to: the one behind the file header, and from
each descriptor but a terminal one the position that its `next` field names, if that is further
on and not behind the end of the segment. -/
inductive Linked (data : List UInt8) : ℕ → Prop
  | first : Linked data fileHeaderSize
  | next {pos : ℕ} : Linked data pos → pos + 76 ≤ data.length →
      ¬ (sectionAt data pos).IsTerminal → pos < nextField data pos →
      nextField data pos ≤ data.length → Linked data (nextField data pos)

/-- The chain leads to a position without room for a descriptor. -/
def RunsOut (data : List UInt8) : Prop := ∃ pos, Linked data pos ∧ data.length < pos + 76

/-- A descriptor of the chain leads nowhere, though it is not a terminal one. -/
def BrokenLink (data : List UInt8) : Prop :=
  ∃ pos, Linked data pos ∧ pos + 76 ≤ data.length ∧ ¬ (sectionAt data pos).IsTerminal ∧
    (nextField data pos ≤ pos ∨ data.length < nextField data pos)

/-- The anomalies of the descriptor at `pos` on its own. -/
def descriptorIssuesAt (data : List UInt8) (pos : ℕ) : List EwfIntegrityAnomaly :=
  let raw := (data.drop pos).take sectionDescriptorSize
  descriptorIssues raw (SectionDescriptor.ofBytes raw pos)

section Walk

variable {data : List UInt8} {pos : ℕ} {sec : Section} {issues : List EwfIntegrityAnomaly}
  {goesOn : Option ℕ}

/-- **One turn of the walk**: at a terminal section it leaves, at one that leads nowhere it
reports a broken chain and leaves, and else it reports the gap to the next one, if there is any,
and goes on there. -/
theorem walkStep_cases (hdata : data.length < u64Max)
    (h : walkStep data pos = some ((sec, issues), goesOn)) :
    pos + 76 ≤ data.length ∧ sec = sectionAt data pos ∧
      ((sec.IsTerminal ∧ goesOn = none ∧ issues = descriptorIssuesAt data pos) ∨
        (¬ sec.IsTerminal ∧ (nextField data pos ≤ pos ∨ data.length < nextField data pos) ∧
          goesOn = none ∧ issues =
            descriptorIssuesAt data pos ++ [.sectionChainBroken pos (nextField data pos)]) ∨
        (¬ sec.IsTerminal ∧ pos < nextField data pos ∧ nextField data pos ≤ data.length ∧
          goesOn = some (nextField data pos) ∧ issues = descriptorIssuesAt data pos ++
            gapIssues data (satAdd pos sec.size) (nextField data pos))) := by
  by_cases hroom : pos + 76 ≤ data.length
  swap
  · rw [walkStep_of_short hdata (not_le.mp hroom)] at h
    cases h
  refine ⟨hroom, ?_⟩
  obtain ⟨hs, hparse⟩ := descriptor_of_room hdata hroom
  have hnext := next_ofBytes_window hdata hroom
  simp only [walkStep, hs, hparse, hnext] at h
  split_ifs at h with hterm hstop
  · obtain ⟨hp, rfl⟩ := Prod.mk.inj (Option.some.inj h)
    obtain ⟨rfl, rfl⟩ := Prod.mk.inj hp
    exact ⟨rfl, Or.inl ⟨hterm, rfl, rfl⟩⟩
  · obtain ⟨hp, rfl⟩ := Prod.mk.inj (Option.some.inj h)
    obtain ⟨rfl, rfl⟩ := Prod.mk.inj hp
    exact ⟨rfl, Or.inr (Or.inl ⟨hterm, by omega, rfl, rfl⟩)⟩
  · obtain ⟨hp, rfl⟩ := Prod.mk.inj (Option.some.inj h)
    obtain ⟨rfl, rfl⟩ := Prod.mk.inj hp
    exact ⟨rfl, Or.inr (Or.inr ⟨hterm, by omega, by omega, rfl, rfl⟩)⟩

/-- A turn that goes on. -/
theorem walkStep_next (hdata : data.length < u64Max) {u : ℕ}
    (h : walkStep data pos = some ((sec, issues), some u)) :
    pos + 76 ≤ data.length ∧ sec = sectionAt data pos ∧ ¬ sec.IsTerminal ∧
      u = nextField data pos ∧ pos < u ∧ u ≤ data.length ∧
      issues = descriptorIssuesAt data pos ++ gapIssues data (satAdd pos sec.size) u := by
  obtain ⟨hroom, hsec, ⟨-, hu, -⟩ | ⟨-, -, hu, -⟩ | ⟨hterm, hlt, hle, hu, hissues⟩⟩ :=
    walkStep_cases hdata h
  · cases hu
  · cases hu
  · obtain rfl := Option.some.inj hu
    exact ⟨hroom, hsec, hterm, rfl, hlt, hle, hissues⟩

/-- The rank that every turn decreases: what is left of the segment. -/
theorem walkStep_rank (data : List UInt8) (pos : ℕ) (a : Section × List EwfIntegrityAnomaly)
    (u : ℕ) (h : walkStep data pos = some (a, some u)) :
    data.length + fileHeaderSize - u < data.length + fileHeaderSize - pos := by
  obtain ⟨hlt, hle⟩ := walkStep_lt h
  omega

/-- **The walk follows the chain.** -/
theorem reaches_iff_linked (hdata : data.length < u64Max) :
    Reaches (Loop.next (walkStep data)) fileHeaderSize pos ↔ Linked data pos := by
  constructor
  · intro h
    induction h with
    | refl => exact Linked.first
    | tail _ hstep ih =>
        obtain ⟨⟨sec, issues⟩, hstep⟩ := Loop.next_eq_some_iff.mp hstep
        obtain ⟨hroom, rfl, hterm, rfl, hlt, hle, -⟩ := walkStep_next hdata hstep
        exact Linked.next ih hroom hterm hlt hle
  · intro h
    induction h with
    | first => exact Relation.ReflTransGen.refl
    | @next pos _ hroom hterm hlt hle ih =>
        have hstep := walkStep_of_room hdata hroom
        rw [if_neg fun hstop => by
          rcases hstop with h | h | h | h | h
          · exact hterm (Or.inl h)
          · exact hterm (Or.inr h)
          all_goals omega] at hstep
        obtain ⟨⟨p, r⟩, hp, hpair⟩ := Option.map_eq_some_iff.mp hstep
        obtain ⟨-, rfl⟩ := Prod.mk.inj hpair
        exact Loop.reaches_step ih hp

/-- What the walk reports is reported by the turns at the positions of the chain. -/
theorem mem_walkIssuesV1_iff (hdata : data.length < u64Max) {x : EwfIntegrityAnomaly} :
    x ∈ walkIssuesV1 data ↔ ∃ t sec issues r, Linked data t ∧
      walkStep data t = some ((sec, issues), r) ∧ x ∈ issues := by
  rw [walkIssuesV1, List.mem_flatMap]
  have hmem := fun a => @Loop.mem_visits_iff _ _ (walkStep data) fileHeaderSize _
    (walkStep_rank data) (data.length + 1) (by omega) a
  constructor
  · rintro ⟨⟨sec, issues⟩, hin, hx⟩
    obtain ⟨t, r, ht, hstep⟩ := (hmem _).mp hin
    exact ⟨t, sec, issues, r, (reaches_iff_linked hdata).mp ht, hstep, hx⟩
  · rintro ⟨t, sec, issues, r, ht, hstep, hx⟩
    exact ⟨_, (hmem _).mpr ⟨t, r, (reaches_iff_linked hdata).mpr ht, hstep⟩, hx⟩

/-- The chain starts behind the file header. -/
theorem Linked.ge (h : Linked data pos) : fileHeaderSize ≤ pos := by
  induction h with
  | first => exact le_rfl
  | next _ _ _ hlt _ ih => omega

/-- A visited descriptor is linked. -/
theorem linked_of_mem_walkSectionsV1 (hdata : data.length < u64Max) {s : Section}
    (hs : s ∈ walkSectionsV1 data) : Linked data s.offset := by
  obtain ⟨⟨sec, issues⟩, hmem, rfl⟩ := List.mem_map.mp hs
  obtain ⟨t, r, ht, hstep⟩ := (@Loop.mem_visits_iff _ _ (walkStep data) fileHeaderSize _
    (walkStep_rank data) (data.length + 1) (by omega) _).mp hmem
  obtain ⟨-, rfl, -⟩ := walkStep_cases hdata hstep
  exact (reaches_iff_linked hdata).mp ht

/-- The chain only moves forward. -/
theorem le_of_reaches (hdata : data.length < u64Max) {t u : ℕ}
    (h : Reaches (Loop.next (walkStep data)) t u) : t ≤ u := by
  induction h with
  | refl => exact le_rfl
  | tail _ hstep ih =>
      obtain ⟨⟨sec, issues⟩, hstep⟩ := Loop.next_eq_some_iff.mp hstep
      obtain ⟨-, -, -, -, hlt, -⟩ := walkStep_next hdata hstep
      omega

/-- Two places of the chain that lead to the same one are one. -/
theorem eq_of_walkStep_next (hdata : data.length < u64Max) {t t' u : ℕ}
    {a a' : Section × List EwfIntegrityAnomaly} (ht : Linked data t) (ht' : Linked data t')
    (h : walkStep data t = some (a, some u)) (h' : walkStep data t' = some (a', some u)) :
    t = t' := by
  have hlt := (walkStep_next hdata h).2.2.2.2.1
  have hlt' := (walkStep_next hdata h').2.2.2.2.1
  -- The one that the other leads to lies behind `u`.
  have hahead : ∀ {x y : ℕ} {b : Section × List EwfIntegrityAnomaly},
      walkStep data x = some (b, some u) → y < u →
        Reaches (Loop.next (walkStep data)) x y → x = y := by
    intro x y b hx hy hxy
    rcases Loop.reaches_cases hxy with rfl | ⟨c, v, hv, hvy⟩
    · rfl
    · rw [hx] at hv
      obtain ⟨-, huv⟩ := Prod.mk.inj (Option.some.inj hv)
      obtain rfl := Option.some.inj huv
      have := le_of_reaches hdata hvy
      omega
  rcases reaches_total ((reaches_iff_linked hdata).mpr ht)
    ((reaches_iff_linked hdata).mpr ht') with hr | hr
  · exact hahead h hlt' hr
  · exact (hahead h' hlt hr).symm

end Walk

/-! ### Gaps -/

section Gaps

variable {data : List UInt8} {e u g n : ℕ}

/-- Some byte of a range is not zero. -/
def HasNonZero (data : List UInt8) (e u : ℕ) : Prop :=
  ∃ p v, e ≤ p ∧ p < u ∧ data[p]? = some v ∧ v ≠ 0

theorem any_slice?_iff (hu : u ≤ data.length) (heu : e ≤ u) :
    ((slice? data e u).any fun s => s.any (· ≠ 0)) = true ↔ HasNonZero data e u := by
  rw [slice?_of_le heu hu, Option.any_some, List.any_eq_true]
  constructor
  · rintro ⟨v, hv, hne⟩
    obtain ⟨i, hi⟩ := List.mem_iff_getElem?.mp hv
    rw [List.getElem?_take] at hi
    split_ifs at hi with hlt
    rw [List.getElem?_drop] at hi
    exact ⟨e + i, v, by omega, by omega, hi, by simpa using hne⟩
  · rintro ⟨p, v, hep, hpu, hv, hne⟩
    refine ⟨v, List.mem_iff_getElem?.mpr ⟨p - e, ?_⟩, by simpa using hne⟩
    rw [List.getElem?_take, if_pos (by omega), List.getElem?_drop, Nat.add_sub_cancel' hep, hv]

theorem sectionGapNonZero_mem_gapIssues (hu : u ≤ data.length) :
    .sectionGapNonZero g n ∈ gapIssues data e u ↔
      e < u ∧ g = e ∧ n = u - e ∧ HasNonZero data e u := by
  rw [gapIssues]
  by_cases heu : u > e
  · rw [if_pos heu]
    by_cases hz : HasNonZero data e u
    · rw [if_pos ((any_slice?_iff hu heu.le).mpr hz)]
      simp [heu, hz]
    · rw [if_neg (mt (any_slice?_iff hu heu.le).mp hz)]
      simp [heu, hz]
  · rw [if_neg heu]
    simp [heu]

theorem sectionGapZero_mem_gapIssues (hu : u ≤ data.length) :
    .sectionGapZero g n ∈ gapIssues data e u ↔
      e < u ∧ g = e ∧ n = u - e ∧ ¬ HasNonZero data e u := by
  rw [gapIssues]
  by_cases heu : u > e
  · rw [if_pos heu]
    by_cases hz : HasNonZero data e u
    · rw [if_pos ((any_slice?_iff hu heu.le).mpr hz)]
      simp [heu, hz]
    · rw [if_neg (mt (any_slice?_iff hu heu.le).mp hz)]
      simp [heu, hz]
  · rw [if_neg heu]
    simp [heu]

/-- The gap that an anomaly reports: where it starts and how long it is. -/
def EwfIntegrityAnomaly.gap? : EwfIntegrityAnomaly → Option (ℕ × ℕ)
  | .sectionGapNonZero g n | .sectionGapZero g n => some (g, n)
  | _ => none

/-- A descriptor on its own has no gap. -/
theorem gap?_of_mem_descriptorIssuesAt {pos : ℕ} {x : EwfIntegrityAnomaly}
    (hx : x ∈ descriptorIssuesAt data pos) : x.gap? = none := by
  simp only [descriptorIssuesAt, descriptorIssues, List.mem_append] at hx
  rcases hx with hx | hx
  · split_ifs at hx
    · cases hx
    · obtain rfl := List.mem_singleton.mp hx
      rfl
  · split_ifs at hx
    · cases hx
    · obtain rfl := List.mem_singleton.mp hx
      rfl

/-- A gap ends where it leads to. -/
theorem gap?_of_mem_gapIssues {x : EwfIntegrityAnomaly} (hx : x ∈ gapIssues data e u) :
    x.gap? = some (e, u - e) ∧ e < u := by
  rw [gapIssues] at hx
  split_ifs at hx with h1 h2
  · obtain rfl := List.mem_singleton.mp hx
    exact ⟨rfl, h1⟩
  · obtain rfl := List.mem_singleton.mp hx
    exact ⟨rfl, h1⟩
  · cases hx

/-- **The gaps that lead to a section** are reported by the turn that leads to it. -/
theorem mem_walkIssuesV1_gap_iff (hdata : data.length < u64Max) {t : ℕ} {sec : Section}
    {issues : List EwfIntegrityAnomaly} (ht : Linked data t)
    (hstep : walkStep data t = some ((sec, issues), some u)) {x : EwfIntegrityAnomaly}
    (hx : x.gap? = some (g, n)) :
    x ∈ walkIssuesV1 data ∧ g + n = u ↔ x ∈ gapIssues data (satAdd t sec.size) u := by
  constructor
  · rintro ⟨hin, hu⟩
    obtain ⟨t', sec', issues', r, ht', hstep', hin⟩ := (mem_walkIssuesV1_iff hdata).mp hin
    have hown : x ∉ descriptorIssuesAt data t' := fun hmem => by
      rw [gap?_of_mem_descriptorIssuesAt hmem] at hx
      cases hx
    obtain ⟨-, -, ⟨-, -, rfl⟩ | ⟨-, -, -, rfl⟩ | ⟨-, -, -, rfl, rfl⟩⟩ := walkStep_cases hdata hstep'
    · exact absurd hin hown
    · rcases List.mem_append.mp hin with hin | hin
      · exact absurd hin hown
      · obtain rfl := List.mem_singleton.mp hin
        cases hx
    · rcases List.mem_append.mp hin with hin | hin
      · exact absurd hin hown
      · obtain ⟨hgap, hlt⟩ := gap?_of_mem_gapIssues hin
        obtain ⟨rfl, rfl⟩ := Prod.mk.inj (Option.some.inj (hx.symm.trans hgap))
        -- Two turns that lead to one place are one.
        obtain rfl : nextField data t' = u := by omega
        obtain rfl := eq_of_walkStep_next hdata ht ht' hstep hstep'
        rw [hstep] at hstep'
        obtain ⟨hp, -⟩ := Prod.mk.inj (Option.some.inj hstep')
        obtain ⟨rfl, -⟩ := Prod.mk.inj hp
        exact hin
  · intro hin
    obtain ⟨hgap, hlt⟩ := gap?_of_mem_gapIssues hin
    obtain ⟨rfl, rfl⟩ := Prod.mk.inj (Option.some.inj (hx.symm.trans hgap))
    obtain ⟨-, -, -, -, -, -, rfl⟩ := walkStep_next hdata hstep
    exact ⟨(mem_walkIssuesV1_iff hdata).mpr
      ⟨t, sec, _, some u, ht, hstep, List.mem_append_right _ hin⟩, by omega⟩

/-- Byte `p` lies in a visited section. -/
def InSection (data : List UInt8) (p : ℕ) : Prop :=
  ∃ s ∈ walkSectionsV1 data, s.offset ≤ p ∧ p < satAdd s.offset s.size

/-- Byte `p` lies in a reported gap. -/
def InReportedGap (data : List UInt8) (p : ℕ) : Prop :=
  ∃ x ∈ walkIssuesV1 data, ∃ g n, x.gap? = some (g, n) ∧ g ≤ p ∧ p < g + n

/-- Up to any position of the chain, every byte lies in a section or in a reported gap. -/
theorem covered_of_linked (hdata : data.length < u64Max) {t p : ℕ} (ht : Linked data t)
    (h1 : fileHeaderSize ≤ p) (h2 : p < t) : InSection data p ∨ InReportedGap data p := by
  induction ht with
  | first => omega
  | @next pos hpos hroom hterm hlt hle ih =>
      by_cases hp : p < pos
      · exact ih hp
      · obtain ⟨sec, issues, r, hreach, hstep⟩ : ∃ sec issues r,
            Reaches (Loop.next (walkStep data)) fileHeaderSize pos ∧
              walkStep data pos = some ((sec, issues), r) := by
          have hstep := walkStep_of_room hdata hroom
          obtain ⟨⟨⟨sec, issues⟩, r⟩, hstep, -⟩ := Option.map_eq_some_iff.mp hstep
          exact ⟨sec, issues, r, (reaches_iff_linked hdata).mpr hpos, hstep⟩
        have hmem : sec ∈ walkSectionsV1 data := List.mem_map_of_mem (f := Prod.fst)
          ((Loop.mem_visits_iff _ (walkStep_rank data) (by omega)).mpr ⟨pos, r, hreach, hstep⟩)
        obtain ⟨-, rfl, hcases⟩ := walkStep_cases hdata hstep
        have hend : satAdd pos (sectionAt data pos).size =
            satAdd (sectionAt data pos).offset (sectionAt data pos).size := rfl
        by_cases hin : p < satAdd pos (sectionAt data pos).size
        · exact Or.inl ⟨_, hmem, not_lt.mp hp, hin⟩
        · right
          obtain ⟨x, hx⟩ : ∃ x, x ∈ gapIssues data (satAdd pos (sectionAt data pos).size)
              (nextField data pos) := by
            rw [gapIssues, if_pos (by omega)]
            split_ifs
            · exact ⟨_, List.mem_singleton_self _⟩
            · exact ⟨_, List.mem_singleton_self _⟩
          obtain ⟨hgap, -⟩ := gap?_of_mem_gapIssues hx
          obtain ⟨h, -⟩ | ⟨-, h, -⟩ | ⟨-, -, -, rfl, -⟩ := hcases
          · exact absurd h hterm
          · omega
          · exact ⟨x, ((mem_walkIssuesV1_gap_iff hdata hpos hstep hgap).mpr hx).1, _, _, hgap,
              by omega, by omega⟩

end Gaps

/-- What the walk reports of the gaps of a segment. -/
structure GapsExact (data : List UInt8) : Prop where
  /-- Of the gaps that end where a section starts, one with a byte other than zero is reported
  exactly where the section starts behind the end of the one before it. -/
  nonZero : ∀ (i : ℕ) (a b : Section), (walkSectionsV1 data)[i]? = some a →
    (walkSectionsV1 data)[i + 1]? = some b → ∀ g n,
      .sectionGapNonZero g n ∈ walkIssuesV1 data ∧ g + n = b.offset ↔
        satAdd a.offset a.size < b.offset ∧ g = satAdd a.offset a.size ∧
          n = b.offset - satAdd a.offset a.size ∧
          HasNonZero data (satAdd a.offset a.size) b.offset
  /-- The same for a gap of zeros. -/
  zero : ∀ (i : ℕ) (a b : Section), (walkSectionsV1 data)[i]? = some a →
    (walkSectionsV1 data)[i + 1]? = some b → ∀ g n,
      .sectionGapZero g n ∈ walkIssuesV1 data ∧ g + n = b.offset ↔
        satAdd a.offset a.size < b.offset ∧ g = satAdd a.offset a.size ∧
          n = b.offset - satAdd a.offset a.size ∧
          ¬ HasNonZero data (satAdd a.offset a.size) b.offset
  /-- No byte up to the end of the last section escapes the sections and the reported gaps. -/
  covered : ∀ last ∈ (walkSectionsV1 data).getLast?, ∀ p, fileHeaderSize ≤ p →
    p < satAdd last.offset last.size → InSection data p ∨ InReportedGap data p

/-- **Gap detection is exact**, for every segment. -/
theorem gaps_exact (s : Segment) : GapsExact s.data := by
  have hdata := s.length_lt_u64Max
  -- A section that another one follows leads to it.
  have hpair : ∀ (i : ℕ) (a b : Section), (walkSectionsV1 s.data)[i]? = some a →
      (walkSectionsV1 s.data)[i + 1]? = some b → ∃ issues, Linked s.data a.offset ∧
        walkStep s.data a.offset = some ((a, issues), some b.offset) ∧
          b.offset ≤ s.data.length := by
    intro i a b ha hb
    rw [walkSectionsV1, List.getElem?_map] at ha hb
    obtain ⟨⟨x, issues⟩, hx, rfl⟩ := Option.map_eq_some_iff.mp ha
    obtain ⟨⟨y, issues'⟩, hy, rfl⟩ := Option.map_eq_some_iff.mp hb
    obtain ⟨t, u, r, ht, hstep, hnext⟩ := Loop.visits_succ hx hy
    obtain ⟨-, hysec, -⟩ := walkStep_cases hdata hnext
    obtain ⟨-, hxsec, -, -, -, hle, -⟩ := walkStep_next hdata hstep
    have hxo : x.offset = t := by rw [hxsec]; rfl
    have hyo : y.offset = u := by rw [hysec]; rfl
    simp only [hxo, hyo]
    exact ⟨issues, (reaches_iff_linked hdata).mp ht, hstep, hle⟩
  refine ⟨fun i a b ha hb g n => ?_, fun i a b ha hb g n => ?_, fun last hlast p h1 h2 => ?_⟩
  · obtain ⟨issues, ht, hstep, hle⟩ := hpair i a b ha hb
    rw [mem_walkIssuesV1_gap_iff hdata ht hstep rfl, sectionGapNonZero_mem_gapIssues hle]
  · obtain ⟨issues, ht, hstep, hle⟩ := hpair i a b ha hb
    rw [mem_walkIssuesV1_gap_iff hdata ht hstep rfl, sectionGapZero_mem_gapIssues hle]
  · have hmem := List.mem_of_getLast? hlast
    obtain ⟨⟨sec, issues⟩, htrace, rfl⟩ := List.mem_map.mp hmem
    obtain ⟨t, r, ht, hstep⟩ :=
      (Loop.mem_visits_iff _ (walkStep_rank _) (by omega)).mp htrace
    obtain ⟨-, hsec, -⟩ := walkStep_cases hdata hstep
    have hoff : sec.offset = t := by rw [hsec]; rfl
    by_cases hp : p < t
    · exact covered_of_linked hdata ((reaches_iff_linked hdata).mp ht) h1 hp
    · exact Or.inl ⟨sec, hmem, by omega, h2⟩

/-! ### Chains that stop early -/

section Exits

variable {data : List UInt8}

/-- The walk stops at a section that is not a terminal one, or before any section. -/
def StopsEarly (data : List UInt8) : Prop :=
  ∀ last ∈ (walkSectionsV1 data).getLast?, ¬ last.IsTerminal

instance (data : List UInt8) : Decidable (StopsEarly data) :=
  inferInstanceAs (Decidable (∀ last ∈ (walkSectionsV1 data).getLast?, ¬ last.IsTerminal))

theorem next_eq_none_of_short (hdata : data.length < u64Max) {pos : ℕ}
    (hpos : data.length < pos + 76) : Loop.next (walkStep data) pos = none := by
  rw [Loop.next, walkStep_of_short hdata hpos, Option.bind_none]

theorem next_eq_none_of_terminal (hdata : data.length < u64Max) {pos : ℕ}
    (hpos : (sectionAt data pos).IsTerminal) : Loop.next (walkStep data) pos = none := by
  refine Option.eq_none_iff_forall_ne_some.mpr fun u hu => ?_
  obtain ⟨⟨sec, issues⟩, hstep⟩ := Loop.next_eq_some_iff.mp hu
  obtain ⟨-, rfl, hterm, -⟩ := walkStep_next hdata hstep
  exact hterm hpos

theorem next_eq_none_of_broken (hdata : data.length < u64Max) {pos : ℕ}
    (hpos : nextField data pos ≤ pos ∨ data.length < nextField data pos) :
    Loop.next (walkStep data) pos = none := by
  refine Option.eq_none_iff_forall_ne_some.mpr fun u hu => ?_
  obtain ⟨⟨sec, issues⟩, hstep⟩ := Loop.next_eq_some_iff.mp hu
  obtain ⟨-, -, -, rfl, hlt, hle, -⟩ := walkStep_next hdata hstep
  omega

/-- **A chain ends in one place.** -/
theorem exit_unique (hdata : data.length < u64Max) {t u : ℕ} (ht : Linked data t)
    (hu : Linked data u) (hstop : Loop.next (walkStep data) t = none)
    (hstop' : Loop.next (walkStep data) u = none) : t = u :=
  Part.mem_unique (mem_eval.mpr ⟨(reaches_iff_linked hdata).mpr ht, hstop⟩)
    (mem_eval.mpr ⟨(reaches_iff_linked hdata).mpr hu, hstop'⟩)

/-- **A chain that stops early** runs out of the segment or is broken. -/
theorem stopsEarly_iff (hdata : data.length < u64Max) :
    StopsEarly data ↔ RunsOut data ∨ BrokenLink data := by
  obtain ⟨t, hreach, hexit⟩ := Loop.exists_exit (n := data.length + 1) (s := fileHeaderSize)
    _ (walkStep_rank data) (by omega)
  have ht := (reaches_iff_linked hdata).mp hreach
  rcases hexit with ⟨⟨sec, issues⟩, hstep, hlast⟩ | ⟨hstep, hlast⟩
  · have hlast' : (walkSectionsV1 data).getLast? = some sec := by
      rw [walkSectionsV1, List.getLast?_map, walkTrace, hlast, Option.map_some]
    obtain ⟨hroom, rfl, ⟨hterm, -⟩ | ⟨hterm, hnext, -⟩ | ⟨-, -, -, hgo, -⟩⟩ :=
      walkStep_cases hdata hstep
    · -- The chain ends at a terminal section, so nowhere else.
      have hone : ∀ u, Linked data u → Loop.next (walkStep data) u = none → u = t :=
        fun u hu hstop => exit_unique hdata hu ht hstop (next_eq_none_of_terminal hdata hterm)
      refine iff_of_false (fun h => h _ hlast' hterm) ?_
      rintro (⟨u, hu, hshort⟩ | ⟨u, hu, -, hnot, hbroken⟩)
      · obtain rfl := hone u hu (next_eq_none_of_short hdata hshort)
        omega
      · obtain rfl := hone u hu (next_eq_none_of_broken hdata hbroken)
        exact hnot hterm
    · refine iff_of_true (fun last h => ?_) (Or.inr ⟨t, ht, hroom, hterm, hnext⟩)
      rw [hlast'] at h
      obtain rfl := Option.some.inj h
      exact hterm
    · cases hgo
  · have hshort : data.length < t + 76 := by
      by_contra hroom
      have := walkStep_of_room hdata (not_lt.mp hroom)
      rw [hstep] at this
      cases this
    refine iff_of_true (fun last h => ?_) (Or.inl ⟨t, ht, hshort⟩)
    rw [walkSectionsV1, List.getLast?_map] at h
    obtain ⟨⟨sec, issues⟩, hmem, rfl⟩ := Option.map_eq_some_iff.mp h
    obtain ⟨u, hstep'⟩ := hlast _ hmem
    exact (walkStep_next hdata hstep').2.2.1

/-- A chain that stops early has no `done` section. -/
theorem findSection_done_of_stopsEarly (hdata : data.length < u64Max) (h : StopsEarly data) :
    findSection (walkSectionsV1 data) .done = none := by
  refine List.find?_eq_none.mpr fun s hs hdone => ?_
  obtain ⟨⟨sec, issues⟩, htrace, rfl⟩ := List.mem_map.mp hs
  obtain ⟨t, r, hreach, hstep⟩ :=
    (Loop.mem_visits_iff _ (walkStep_rank data) (by omega)).mp htrace
  have ht := (reaches_iff_linked hdata).mp hreach
  obtain ⟨hroom, rfl, -⟩ := walkStep_cases hdata hstep
  have hterm : (sectionAt data t).IsTerminal := Or.inl (by simpa using hdone)
  have hone : ∀ u, Linked data u → Loop.next (walkStep data) u = none → u = t :=
    fun u hu hstop => exit_unique hdata hu ht hstop (next_eq_none_of_terminal hdata hterm)
  rcases (stopsEarly_iff hdata).mp h with ⟨u, hu, hshort⟩ | ⟨u, hu, -, hnot, hbroken⟩
  · obtain rfl := hone u hu (next_eq_none_of_short hdata hshort)
    omega
  · obtain rfl := hone u hu (next_eq_none_of_broken hdata hbroken)
    exact hnot hterm

end Exits

/-! ### What is reported of it -/

/-- The anomaly is a broken section chain. -/
def EwfIntegrityAnomaly.isChainBroken : EwfIntegrityAnomaly → Bool
  | .sectionChainBroken .. => true
  | _ => false

/-- The list reports a broken section chain. -/
def ReportsBroken (issues : List EwfIntegrityAnomaly) : Prop :=
  ∃ atOffset nextOffset, .sectionChainBroken atOffset nextOffset ∈ issues

theorem not_reportsBroken_iff {issues : List EwfIntegrityAnomaly} :
    ¬ ReportsBroken issues ↔ Lacks EwfIntegrityAnomaly.isChainBroken issues := by
  constructor
  · intro h a ha
    cases a with
    | sectionChainBroken atOffset nextOffset => exact absurd ⟨_, _, ha⟩ h
    | _ => rfl
  · rintro h ⟨atOffset, nextOffset, hmem⟩
    cases h _ hmem

theorem reportsBroken_append {xs ys : List EwfIntegrityAnomaly} :
    ReportsBroken (xs ++ ys) ↔ ReportsBroken xs ∨ ReportsBroken ys := by
  simp only [ReportsBroken, List.mem_append, exists_or]

section Reports

variable {data : List UInt8}

/-- The walk reports a broken chain where a link is broken. -/
theorem reportsBroken_walkIssuesV1_iff (hdata : data.length < u64Max) :
    ReportsBroken (walkIssuesV1 data) ↔ BrokenLink data := by
  have hown : ∀ pos a n, .sectionChainBroken a n ∉ descriptorIssuesAt data pos := by
    intro pos a n hmem
    simp only [descriptorIssuesAt, descriptorIssues, List.mem_append] at hmem
    rcases hmem with h | h
    all_goals
      split_ifs at h
      · cases h
      · cases List.mem_singleton.mp h
  have hgap : ∀ e u a n, .sectionChainBroken a n ∉ gapIssues data e u := by
    intro e u a n hmem
    cases (gap?_of_mem_gapIssues hmem).1
  constructor
  · rintro ⟨a, n, hmem⟩
    obtain ⟨t, sec, issues, r, ht, hstep, hmem⟩ := (mem_walkIssuesV1_iff hdata).mp hmem
    obtain ⟨hroom, rfl, ⟨-, -, rfl⟩ | ⟨hterm, hnext, -, -⟩ | ⟨-, -, -, -, rfl⟩⟩ :=
      walkStep_cases hdata hstep
    · exact absurd hmem (hown t a n)
    · exact ⟨t, ht, hroom, hterm, hnext⟩
    · rcases List.mem_append.mp hmem with h | h
      · exact absurd h (hown t a n)
      · exact absurd h (hgap _ _ a n)
  · rintro ⟨t, ht, hroom, hterm, hnext⟩
    obtain ⟨⟨⟨sec, issues⟩, r⟩, hstep, -⟩ :=
      Option.map_eq_some_iff.mp (walkStep_of_room hdata hroom)
    obtain ⟨-, rfl, ⟨h, -⟩ | ⟨-, -, -, rfl⟩ | ⟨-, hlt, hle, -⟩⟩ := walkStep_cases hdata hstep
    · exact absurd h hterm
    · exact ⟨t, nextField data t, (mem_walkIssuesV1_iff hdata).mpr
        ⟨t, _, _, r, ht, hstep, List.mem_append_right _ (List.mem_singleton_self _)⟩⟩
    · omega

/-- One turn of the segment loop reports a broken chain for a segment without a file header and
for one with a broken link. -/
theorem reportsBroken_scanSegment_iff (hdata : data.length < u64Max) (n idx : ℕ)
    (geometry : Option VolumeGeometry) :
    ReportsBroken (scanSegment n idx geometry data).issues ↔
      data.length < fileHeaderSize ∨ BrokenLink data := by
  rw [← reportsBroken_walkIssuesV1_iff hdata, scanSegment]
  split_ifs with hshort
  · exact iff_of_true ⟨0, 0, List.mem_singleton_self _⟩ (Or.inl hshort)
  · rw [or_iff_right hshort]
    constructor
    · -- No other check reports a broken chain.
      contrapose
      rw [not_reportsBroken_iff, not_reportsBroken_iff]
      exact lacks_checks (fun a _ ha => by cases a <;> first | rfl | cases ha) n idx geometry data
        fun _ _ _ _ _ => rfl
    · rintro ⟨a, k, hmem⟩
      refine ⟨a, k, ?_⟩
      simp only [segmentIssues, List.mem_append]
      tauto

/-- The segment loop reports a broken chain where one of its turns does. -/
theorem reportsBroken_scanSegments_iff (n idx : ℕ) (geometry : Option VolumeGeometry)
    (segments : List Segment) :
    ReportsBroken ((scanSegments n idx geometry (segments.map (·.data))).flatMap (·.issues)) ↔
      ∃ s ∈ segments, s.data.length < fileHeaderSize ∨ BrokenLink s.data := by
  induction segments generalizing idx geometry with
  | nil => simp [ReportsBroken, scanSegments]
  | cons s rest ih =>
      rw [List.map_cons, scanSegments, List.flatMap_cons, reportsBroken_append,
        reportsBroken_scanSegment_iff s.length_lt_u64Max, ih, List.exists_mem_cons_iff]

/-- The last segment is reported if it has no `done` section. -/
theorem doneSectionMissing_mem_scanSegments {n idx j : ℕ} {geometry : Option VolumeGeometry}
    {segments : List (List UInt8)} (hj : segments[j]? = some data) (hn : idx + j = n - 1)
    (hlen : fileHeaderSize ≤ data.length) (hdone : findSection (walkSectionsV1 data) .done = none) :
    .doneSectionMissing ∈ (scanSegments n idx geometry segments).flatMap (·.issues) := by
  induction segments generalizing idx j geometry with
  | nil => cases hj
  | cons d rest ih =>
      rw [scanSegments, List.flatMap_cons, List.mem_append]
      cases j with
      | zero =>
          obtain rfl := Option.some.inj hj
          left
          rw [scanSegment, if_neg (by omega)]
          have hlast : idx = n - 1 ∧ (findSection (walkSectionsV1 d) .done).isNone :=
            ⟨by omega, by rw [hdone]; rfl⟩
          refine List.mem_append_right _ ?_
          rw [if_pos hlast]
          exact List.mem_singleton_self _
      | succ j => exact Or.inr (ih hj (by omega))

end Reports

/-- The analysis reports that the chain of segment `idx` stops early. -/
def StopReported (C : Crates) (self : EwfIntegrity) (idx : ℕ) : Prop :=
  ReportsBroken (self.analyse C) ∨
    idx + 1 = self.segments.length ∧ .doneSectionMissing ∈ self.analyse C

/-- The analysis reports a broken chain where a segment has none. -/
theorem reportsBroken_analyse_iff {C : Crates} {self : EwfIntegrity}
    (hv1 : isEwf2 self.bytes = false) :
    ReportsBroken (self.analyse C) ↔
      ∃ s ∈ self.segments, s.data.length < fileHeaderSize ∨ BrokenLink s.data := by
  rw [← reportsBroken_scanSegments_iff self.bytes.length 0 none self.segments, analyse_v1 hv1]
  exact exists_congr fun a => exists_congr fun n => mem_analyseAllEwf1_iff rfl

/-- **A chain that stops early is reported** unless it runs out of its segment, which is not the
last one, and no segment is broken. -/
theorem stop_reported_iff (C : Crates) {self : EwfIntegrity} (hv1 : isEwf2 self.bytes = false)
    {idx : ℕ} {s : Segment} (hs : self.segments[idx]? = some s)
    (hlen : fileHeaderSize ≤ s.data.length) :
    (StopsEarly s.data → StopReported C self idx) ↔
      (RunsOut s.data → idx + 1 = self.segments.length ∨
        ∃ s' ∈ self.segments, s'.data.length < fileHeaderSize ∨ BrokenLink s'.data) := by
  have hdata := s.length_lt_u64Max
  rw [stopsEarly_iff hdata, StopReported, reportsBroken_analyse_iff hv1]
  constructor
  · intro h hout
    rcases h (Or.inl hout) with hbroken | ⟨hlast, -⟩
    · exact Or.inr hbroken
    · exact Or.inl hlast
  · rintro h hstops
    rcases hstops with hout | hbroken
    · rcases h hout with hlast | hbroken
      · refine Or.inr ⟨hlast, ?_⟩
        have hget : self.bytes[idx]? = some s.data := by
          rw [EwfIntegrity.bytes, List.getElem?_map, hs, Option.map_some]
        have hdone := findSection_done_of_stopsEarly hdata
          ((stopsEarly_iff hdata).mpr (Or.inl hout))
        rw [analyse_v1 hv1, mem_analyseAllEwf1_iff rfl]
        refine doneSectionMissing_mem_scanSegments hget ?_ hlen hdone
        rw [EwfIntegrity.bytes, List.length_map]
        omega
      · exact Or.inl hbroken
    · exact Or.inl ⟨s, List.mem_of_getElem? hs, Or.inr hbroken⟩

/-- A segment whose only descriptor leads to the end of the file. -/
def runsOutSegment : Segment :=
  ⟨Image.encodeSegment 1 [] .sectors 89, by decide +kernel⟩

/-- A segment with a `done` section alone. -/
def doneSegment : Segment :=
  ⟨Image.encodeSegment 2 [] .done 0, by decide +kernel⟩

theorem stop_reported_iff_runsOut :
    (StopsEarly runsOutSegment.data →
        StopReported Crates.reference (EwfIntegrity.fromSegments [runsOutSegment]) 0) ↔
      (RunsOut runsOutSegment.data → 0 + 1 = 1 ∨ ∃ s' ∈ [runsOutSegment],
        s'.data.length < fileHeaderSize ∨ BrokenLink s'.data) :=
  @stop_reported_iff Crates.reference (EwfIntegrity.fromSegments [runsOutSegment])
    (by decide +kernel) 0 _ rfl (by decide +kernel)

/-- As the first of two segments, it is not reported. -/
theorem not_stop_reported_runsOut :
    ¬ (StopsEarly runsOutSegment.data →
      StopReported Crates.reference
        (EwfIntegrity.fromSegments [runsOutSegment, doneSegment]) 0) := by
  intro h
  rcases h (by decide +kernel) with hbroken | ⟨hlast, -⟩
  · have hquiet : ∀ s ∈ [runsOutSegment, doneSegment], fileHeaderSize ≤ s.data.length ∧
        Lacks EwfIntegrityAnomaly.isChainBroken (walkIssuesV1 s.data) := by decide +kernel
    rw [reportsBroken_analyse_iff (by decide +kernel)] at hbroken
    obtain ⟨s, hs, hshort | hlink⟩ := hbroken
    · exact absurd hshort (not_lt.mpr (hquiet s hs).1)
    · rw [← reportsBroken_walkIssuesV1_iff s.length_lt_u64Max] at hlink
      exact not_reportsBroken_iff.mpr (hquiet s hs).2 hlink
  · cases hlast

end EwfForensic

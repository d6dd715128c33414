import EwfForensic.Cli.Handlers
import EwfForensic.Core.Open
import EwfForensic.Forensic.Recover
import EwfForensic.Image.Encode

/-!
# Four Views of the Section Chain

A segment's section chain is walked by four loops: the analyser's, the recovery's, the reader's
and that of the section listing.

* `walkSections_eq_walkSectionsV1` — the recovery sees what the analyser sees.
* `EndsAlike` — the last section that the analyser visits leads no other walk further.
* `seen_alike_iff` — the reader and the listing see what the analyser sees exactly where every
  segment ends so: only the analyser stops at a `done` or `next` section.
-/

namespace EwfForensic

open Octets

/-! ### The recovery -/

/-- Both walkers make the same turns. -/
theorem walkStep_map_eq (data : List UInt8) (pos : ℕ) :
    (Recover.walkStep data pos).map (fun p => (p.1.1, p.2)) =
      (walkStep data pos).map fun p => (p.1.1, p.2) := by
  rw [Recover.walkStep, walkStep]
  cases slice? data pos (satAdd pos sectionDescriptorSize) with
  | none => rfl
  | some raw =>
      simp only
      cases SectionDescriptor.parse raw pos with
      | error e => rfl
      | ok desc =>
          simp only
          by_cases hterm : desc.sectionType = .done ∨ desc.sectionType = .next
          · rw [if_pos hterm, if_pos hterm]
            rfl
          · rw [if_neg hterm, if_neg hterm]
            -- The exit tests come in another order.
            by_cases hback : desc.next = 0 ∨ desc.next ≤ pos
            · rw [if_pos hback, if_pos (by omega)]
              rfl
            · rw [if_neg hback]
              by_cases hpast : desc.next > data.length
              · rw [if_pos hpast, if_pos (by omega)]
                rfl
              · rw [if_neg hpast, if_neg (by omega)]
                rfl

/-- Both walkers record the same sections, whatever else their turns record. -/
theorem walkTrace_map_eq (data : List UInt8) :
    (Recover.walkTrace data).map (·.1) = (walkTrace data).map (·.1) := by
  have hrecover := @Loop.visits_map _ _ _ (Recover.walkStep data) _ Prod.fst
    (fun pos => rfl) (data.length + 1) fileHeaderSize
  have hanalyse := @Loop.visits_map _ _ _ (walkStep data) _ Prod.fst
    (fun pos => walkStep_map_eq data pos) (data.length + 1) fileHeaderSize
  exact hrecover.symm.trans hanalyse

/-- **The recovery sees the analyser's sections.** -/
theorem walkSections_eq_walkSectionsV1 (data : List UInt8) :
    Recover.walkSections data = walkSectionsV1 data :=
  walkTrace_map_eq data

/-! ### The reader and the listing -/

/-- The sections that `open_v1` collects for a segment. -/
def readerSections (data : List UInt8) : List Section :=
  (collectDescriptors data).map fun d => ⟨d.sectionType, d.offset, d.sectionSize⟩

/-- The `next` field of the descriptor at `offset`. -/
def nextField (data : List UInt8) (offset : ℕ) : ℕ := leU64 data (offset + 16)

/-- The descriptor at `offset` leads no walk further: its `next` field does not point forward, or
to a place without room for a descriptor, at which the sum with 76 does not wrap. -/
def LeadsNowhere (data : List UInt8) (offset : ℕ) : Prop :=
  nextField data offset ≤ offset ∨
    data.length < nextField data offset + 76 ∧ nextField data offset + 76 < 2 ^ 64

/-- The last section that the analyser visits leads no other walk further. -/
def EndsAlike (data : List UInt8) : Prop :=
  ∀ last ∈ (walkSectionsV1 data).getLast?, LeadsNowhere data last.offset

instance (data : List UInt8) (offset : ℕ) : Decidable (LeadsNowhere data offset) :=
  inferInstanceAs (Decidable (_ ∨ _))

instance (data : List UInt8) : Decidable (EndsAlike data) :=
  inferInstanceAs (Decidable (∀ last ∈ (walkSectionsV1 data).getLast?,
    LeadsNowhere data last.offset))

section Walk

variable {data : List UInt8}

/-- The section that a descriptor at `pos` describes. -/
def sectionAt (data : List UInt8) (pos : ℕ) : Section :=
  let desc := SectionDescriptor.ofBytes ((data.drop pos).take sectionDescriptorSize) pos
  ⟨desc.sectionType, pos, desc.sectionSize⟩

theorem next_ofBytes_window (hdata : data.length < u64Max) {pos : ℕ}
    (hpos : pos + 76 ≤ data.length) :
    (SectionDescriptor.ofBytes ((data.drop pos).take sectionDescriptorSize) pos).next =
      nextField data pos :=
  @leAt_window data pos 76 8 16 (by omega) hpos (by omega)

/-- A descriptor that fits is read and parsed. -/
theorem descriptor_of_room (hdata : data.length < u64Max) {pos : ℕ}
    (hpos : pos + 76 ≤ data.length) :
    slice? data pos (satAdd pos sectionDescriptorSize) =
      some ((data.drop pos).take sectionDescriptorSize) ∧
    SectionDescriptor.parse ((data.drop pos).take sectionDescriptorSize) pos =
      .ok (SectionDescriptor.ofBytes ((data.drop pos).take sectionDescriptorSize) pos) := by
  have hsat : satAdd pos sectionDescriptorSize = pos + 76 := @satAdd_eq pos 76 (by omega)
  constructor
  · rw [hsat, slice?_of_le (by omega) (by omega), Nat.add_sub_cancel_left]
  · refine SectionDescriptor.parse_of_le ?_
    rw [List.length_take, List.length_drop]
    change 76 ≤ min 76 (data.length - pos)
    omega

/-- One turn of the analyser where no descriptor fits. -/
theorem walkStep_of_short (hdata : data.length < u64Max) {pos : ℕ}
    (hpos : data.length < pos + 76) : walkStep data pos = none := by
  have hs : slice? data pos (satAdd pos sectionDescriptorSize) = none :=
    slice?_eq_none_iff.mpr fun _ =>
      not_le.mp fun h => absurd ((@satAdd_le_iff pos 76 data.length hdata).mp h) (by omega)
  rw [walkStep, hs]

/-- One turn of the analyser at a descriptor: it goes on to `next` where that points forward to
a place in the segment, unless the section is the last of its chain. -/
theorem walkStep_of_room (hdata : data.length < u64Max) {pos : ℕ}
    (hpos : pos + 76 ≤ data.length) :
    (walkStep data pos).map (fun p => (p.1.1, p.2)) = some (sectionAt data pos,
      if (sectionAt data pos).typeName = .done ∨ (sectionAt data pos).typeName = .next ∨
          nextField data pos = 0 ∨ nextField data pos > data.length ∨ nextField data pos ≤ pos
        then none else some (nextField data pos)) := by
  obtain ⟨hs, hparse⟩ := descriptor_of_room hdata hpos
  have hnext := next_ofBytes_window hdata hpos
  obtain ⟨desc, hdesc⟩ : ∃ desc, desc =
      SectionDescriptor.ofBytes ((data.drop pos).take sectionDescriptorSize) pos := ⟨_, rfl⟩
  have hsec : sectionAt data pos = ⟨desc.sectionType, pos, desc.sectionSize⟩ := by
    rw [hdesc]
    rfl
  rw [← hdesc] at hnext
  simp only [walkStep, hs, hparse, ← hdesc, hnext, hsec]
  by_cases hterm : desc.sectionType = .done ∨ desc.sectionType = .next
  · rw [if_pos hterm, if_pos (by tauto)]
    rfl
  · rw [if_neg hterm]
    by_cases hstop : nextField data pos = 0 ∨ nextField data pos > data.length ∨
        nextField data pos ≤ pos
    · rw [if_pos hstop, if_pos (by tauto)]
      rfl
    · rw [if_neg hstop, if_neg (by tauto)]
      rfl

/-- One turn of the reader at a descriptor. -/
theorem readerWalkStep_of_room (hdata : data.length < u64Max) {pos : ℕ}
    (hpos : pos + 76 ≤ data.length) :
    ∃ desc, readerWalkStep data pos = some (desc,
        if nextField data pos = 0 ∨ nextField data pos ≤ pos then none
        else some (nextField data pos)) ∧
      (⟨desc.sectionType, desc.offset, desc.sectionSize⟩ : Section) = sectionAt data pos := by
  refine ⟨SectionDescriptor.ofBytes ((data.drop pos).take sectionDescriptorSize) pos, ?_, rfl⟩
  have hnext := next_ofBytes_window hdata hpos
  have hroom : ¬ (pos + sectionDescriptorSize > u64Max ∨
      pos + sectionDescriptorSize > data.length) := by
    change ¬ (pos + 76 > u64Max ∨ pos + 76 > data.length)
    omega
  rw [readerWalkStep, if_neg hroom]
  simp only [readAtMost, hnext]

/-- The reader leaves at once where no descriptor fits. -/
theorem readerWalkStep_of_short {pos : ℕ} (hpos : data.length < pos + 76) :
    readerWalkStep data pos = none := by
  rw [readerWalkStep, if_pos]
  right
  exact hpos

/-- The listing at a descriptor. -/
theorem listSectionsFrom_of_room (hdata : data.length < u64Max) {pos fuel : ℕ}
    (hpos : pos + 76 ≤ data.length) :
    Cli.listSectionsFrom data (fuel + 1) pos =
      if nextField data pos = 0 ∨ nextField data pos ≤ pos then some [sectionAt data pos]
      else (Cli.listSectionsFrom data fuel (nextField data pos)).map (sectionAt data pos :: ·) := by
  have hnext := next_ofBytes_window hdata hpos
  have h1 : ¬ (pos + sectionDescriptorSize) % 2 ^ 64 > data.length := by
    change ¬ (pos + 76) % 2 ^ 64 > data.length
    omega
  have h2 : ¬ pos + sectionDescriptorSize > data.length := by
    change ¬ pos + 76 > data.length
    omega
  rw [Cli.listSectionsFrom, if_neg h1, if_neg h2]
  simp only [hnext]
  rfl

/-- The listing of the rest is empty exactly where no descriptor fits and the sum with 76 does
not wrap. -/
theorem listSectionsFrom_eq_nil_iff (hdata : 76 ≤ data.length) {pos fuel : ℕ}
    (hpos : pos < 2 ^ 64) :
    Cli.listSectionsFrom data (fuel + 1) pos = some [] ↔
      data.length < pos + 76 ∧ pos + 76 < 2 ^ 64 := by
  rw [Cli.listSectionsFrom]
  change (if (pos + 76) % 2 ^ 64 > data.length then some [] else _) = some [] ↔ _
  by_cases h1 : (pos + 76) % 2 ^ 64 > data.length
  · rw [if_pos h1]
    exact iff_of_true rfl (by omega)
  · rw [if_neg h1]
    refine iff_of_false ?_ (by omega)
    -- The loop gives an error or lists the section at `pos` first.
    dsimp only
    split_ifs
    · exact fun h => by cases h
    · exact fun h => by cases h
    · rw [Option.map_eq_some_iff]
      rintro ⟨l, -, hl⟩
      cases hl

/-- What the analyser has visited from `pos` on. -/
def visitedFrom (data : List UInt8) (n pos : ℕ) : List Section :=
  (Loop.visits (walkStep data) n pos).map (·.1)

/-- What the reader has collected from `pos` on. -/
def collectedFrom (data : List UInt8) (n pos : ℕ) : List Section :=
  (Loop.visits (readerWalkStep data) n pos).map fun d => ⟨d.sectionType, d.offset, d.sectionSize⟩

/-- All three walks end where no descriptor fits. -/
theorem seenFrom_of_short (hdata : data.length < 2 ^ 63) {pos : ℕ} (hshort : data.length < pos + 76)
    (hpos : pos + 76 < 2 ^ 64) (n : ℕ) :
    visitedFrom data n pos = [] ∧ collectedFrom data n pos = [] ∧
      Cli.listSectionsFrom data n pos = some [] := by
  have hmax : data.length < u64Max := by
    rw [u64Max]
    omega
  refine ⟨?_, ?_, ?_⟩
  · rw [visitedFrom, Loop.visits_of_none (walkStep_of_short hmax hshort), List.map_nil]
  · rw [collectedFrom, Loop.visits_of_none (readerWalkStep_of_short hshort), List.map_nil]
  · cases n with
    | zero => rfl
    | succ n =>
        rw [Cli.listSectionsFrom, if_pos]
        change (pos + 76) % 2 ^ 64 > data.length
        omega

/-- The analyser visits something exactly where a descriptor fits. -/
theorem visitedFrom_eq_nil_iff (hdata : data.length < u64Max) {n pos : ℕ} :
    visitedFrom data (n + 1) pos = [] ↔ data.length < pos + 76 := by
  constructor
  · intro h
    by_contra hroom
    obtain ⟨⟨a, t⟩, hwalk, -⟩ :=
      Option.map_eq_some_iff.mp (walkStep_of_room hdata (not_lt.mp hroom))
    rw [visitedFrom, Loop.visits, hwalk] at h
    cases t with
    | none => cases h
    | some s' => cases h
  · intro h
    rw [visitedFrom, Loop.visits_of_none (walkStep_of_short hdata h), List.map_nil]

/-- The reader and the listing see the same from `pos` on as the analyser. -/
def SeenAlike (data : List UInt8) (n pos : ℕ) : Prop :=
  collectedFrom data n pos = visitedFrom data n pos ∧
    Cli.listSectionsFrom data n pos = some (visitedFrom data n pos)

/-- A turn in which the analyser leaves its loop. -/
theorem seenAlike_of_last (hdata : data.length < 2 ^ 63) {n pos : ℕ}
    (hroom : pos + 76 ≤ data.length) (hn : data.length < n + 1 + pos)
    (hv : visitedFrom data (n + 1) pos = [sectionAt data pos]) :
    SeenAlike data (n + 1) pos ↔ LeadsNowhere data pos := by
  have hmax : data.length < u64Max := by
    rw [u64Max]
    omega
  obtain ⟨desc, hread, hdesc⟩ := readerWalkStep_of_room hmax hroom
  have hlist := @listSectionsFrom_of_room data hmax pos n hroom
  have hlt : nextField data pos < 2 ^ 64 := Nat.lt_succ_of_le (leU64_le data (pos + 16))
  rw [SeenAlike, hv, hlist]
  by_cases hback : nextField data pos = 0 ∨ nextField data pos ≤ pos
  · rw [if_pos hback] at hread ⊢
    refine iff_of_true ⟨?_, rfl⟩ (Or.inl (by omega))
    rw [collectedFrom, Loop.visits_of_last hread, List.map_singleton, hdesc]
  · rw [if_neg hback] at hread ⊢
    obtain ⟨m, rfl⟩ : ∃ m, n = m + 1 := ⟨n - 1, by omega⟩
    have hc : collectedFrom data (m + 1 + 1) pos =
        sectionAt data pos :: collectedFrom data (m + 1) (nextField data pos) := by
      rw [collectedFrom, Loop.visits_of_next hread, List.map_cons, hdesc]
      rfl
    have hrest := @listSectionsFrom_eq_nil_iff data (by omega) (nextField data pos) m hlt
    rw [hc, LeadsNowhere]
    constructor
    · rintro ⟨-, hcli⟩
      obtain ⟨l, hl, hcons⟩ := Option.map_eq_some_iff.mp hcli
      rw [(List.cons.inj hcons).2] at hl
      exact Or.inr (hrest.mp hl)
    · rintro (hle | ⟨hshort, hwrap⟩)
      · exact absurd (Or.inr hle) hback
      · obtain ⟨-, hnil, hl⟩ := seenFrom_of_short hdata hshort hwrap (m + 1)
        rw [hnil, hl]
        exact ⟨rfl, rfl⟩

/-- A turn after which all three go on to the same position. -/
theorem seenAlike_of_next (hdata : data.length < u64Max) {n pos : ℕ}
    (hroom : pos + 76 ≤ data.length)
    (hforward : ¬ (nextField data pos = 0 ∨ nextField data pos ≤ pos))
    (hv : visitedFrom data (n + 1) pos =
      sectionAt data pos :: visitedFrom data n (nextField data pos)) :
    SeenAlike data (n + 1) pos ↔ SeenAlike data n (nextField data pos) := by
  obtain ⟨desc, hread, hdesc⟩ := readerWalkStep_of_room hdata hroom
  have hlist := @listSectionsFrom_of_room data hdata pos n hroom
  rw [if_neg hforward] at hread hlist
  have hc : collectedFrom data (n + 1) pos =
      sectionAt data pos :: collectedFrom data n (nextField data pos) := by
    rw [collectedFrom, Loop.visits_of_next hread, List.map_cons, hdesc]
    rfl
  rw [SeenAlike, SeenAlike, hv, hc, hlist, List.cons_inj_right]
  refine and_congr_right fun _ => ?_
  rw [Option.map_eq_some_iff]
  constructor
  · rintro ⟨l, hl, hcons⟩
    rw [hl, (List.cons.inj hcons).2]
  · exact fun h => ⟨_, h, rfl⟩

/-- **From any position on**, the reader and the listing see what the analyser sees exactly where
its last section leads nowhere. -/
theorem seenAlike_iff (hdata : data.length < 2 ^ 63) {n pos : ℕ} (hn : data.length < n + pos)
    (hpos : pos < 2 ^ 63) :
    SeenAlike data n pos ↔
      ∀ last ∈ (visitedFrom data n pos).getLast?, LeadsNowhere data last.offset := by
  have hmax : data.length < u64Max := by
    rw [u64Max]
    omega
  induction n generalizing pos with
  | zero => exact iff_of_true ⟨rfl, rfl⟩ (fun last h => by cases h)
  | succ n ih =>
      by_cases hroom : pos + 76 ≤ data.length
      · obtain ⟨⟨⟨sec, issues⟩, next⟩, hwalk, hp⟩ :=
          Option.map_eq_some_iff.mp (walkStep_of_room hmax hroom)
        obtain ⟨rfl, hnext⟩ := Prod.mk.inj hp
        change next = _ at hnext
        split_ifs at hnext with hstop
        · subst hnext
          have hv : visitedFrom data (n + 1) pos = [sectionAt data pos] := by
            rw [visitedFrom, Loop.visits_of_last hwalk]
            rfl
          rw [seenAlike_of_last hdata hroom hn hv, hv, List.getLast?_singleton]
          exact ⟨fun h last hl => Option.some.inj hl ▸ h, fun h => h _ rfl⟩
        · subst hnext
          push Not at hstop
          obtain ⟨-, -, hne, hin, hgt⟩ := hstop
          have hv : visitedFrom data (n + 1) pos =
              sectionAt data pos :: visitedFrom data n (nextField data pos) := by
            rw [visitedFrom, Loop.visits_of_next hwalk]
            rfl
          have hrun : SeenAlike data n (nextField data pos) ↔
              ∀ last ∈ (visitedFrom data n (nextField data pos)).getLast?,
                LeadsNowhere data last.offset := ih (by omega) (by omega)
          rw [seenAlike_of_next hmax hroom (by omega) hv, hv]
          refine hrun.trans ?_
          cases hrest : visitedFrom data n (nextField data pos) with
          | nil =>
              -- The next position has no room, so this section is the last one.
              obtain ⟨m, rfl⟩ : ∃ m, n = m + 1 := ⟨n - 1, by omega⟩
              have hshort := (visitedFrom_eq_nil_iff hmax).mp hrest
              refine iff_of_true (fun last h => by cases h) fun last h => ?_
              rw [List.getLast?_singleton] at h
              obtain rfl := Option.some.inj h
              exact Or.inr ⟨hshort, by change nextField data pos + 76 < _; omega⟩
          | cons s rest => rw [List.getLast?_cons_cons]
      · obtain ⟨h1, h2, h3⟩ := seenFrom_of_short hdata (not_le.mp hroom) (by omega) (n + 1)
        rw [SeenAlike, h1, h2, h3]
        exact iff_of_true ⟨rfl, rfl⟩ (fun last h => by cases h)

end Walk

/-! ### All segments -/

/-- The records printed for the segments from index `k` on. -/
def listingFrom (k : ℕ) (segments : List (List UInt8)) : Option (List (ℕ × Section)) :=
  ((segments.zipIdx k).mapM fun p => (Cli.listSections p.1).map (·.map (p.2, ·))).map List.flatten

/-- The analyser's sections as records from index `k` on. -/
def recordsFrom (k : ℕ) (segments : List (List UInt8)) : List (ℕ × Section) :=
  (segments.zipIdx k).flatMap fun p => (walkSectionsV1 p.1).map (p.2, ·)

theorem listingFrom_cons (k : ℕ) (data : List UInt8) (rest : List (List UInt8)) :
    listingFrom k (data :: rest) =
      (Cli.listSections data).bind fun l =>
        (listingFrom (k + 1) rest).map fun records => l.map (k, ·) ++ records := by
  rw [listingFrom, listingFrom, List.zipIdx_cons, List.mapM_cons]
  cases Cli.listSections data with
  | none => rfl
  | some l =>
      cases (rest.zipIdx (k + 1)).mapM fun p => (Cli.listSections p.1).map (·.map (p.2, ·)) with
      | none => rfl
      | some ls => rfl

theorem recordsFrom_cons (k : ℕ) (data : List UInt8) (rest : List (List UInt8)) :
    recordsFrom k (data :: rest) =
      (walkSectionsV1 data).map (k, ·) ++ recordsFrom (k + 1) rest := by
  rw [recordsFrom, List.zipIdx_cons, List.flatMap_cons, recordsFrom]

/-- A record of a later segment has a greater index. -/
theorem le_of_mem_listingFrom {k : ℕ} {segments : List (List UInt8)} {records : List (ℕ × Section)}
    (h : listingFrom k segments = some records) : ∀ r ∈ records, k ≤ r.1 := by
  induction segments generalizing k records with
  | nil =>
      obtain rfl : [] = records := Option.some.inj h
      exact fun r hr => by cases hr
  | cons data rest ih =>
      rw [listingFrom_cons] at h
      obtain ⟨l, -, h⟩ := Option.bind_eq_some_iff.mp h
      obtain ⟨tail, htail, rfl⟩ := Option.map_eq_some_iff.mp h
      intro r hr
      rcases List.mem_append.mp hr with hr | hr
      · obtain ⟨s, -, rfl⟩ := List.mem_map.mp hr
        exact le_refl k
      · have := ih htail r hr
        omega

theorem le_of_mem_recordsFrom {k : ℕ} {segments : List (List UInt8)} :
    ∀ r ∈ recordsFrom k segments, k ≤ r.1 := by
  intro r hr
  obtain ⟨p, hp, hr⟩ := List.mem_flatMap.mp hr
  obtain ⟨s, -, rfl⟩ := List.mem_map.mp hr
  exact List.le_snd_of_mem_zipIdx hp

/-- Records of one segment followed by records of later ones determine both. -/
theorem tagged_append_inj {k : ℕ} {xs ys : List Section} {as bs : List (ℕ × Section)}
    (ha : ∀ r ∈ as, k < r.1) (hb : ∀ r ∈ bs, k < r.1)
    (h : xs.map (k, ·) ++ as = ys.map (k, ·) ++ bs) : xs = ys ∧ as = bs := by
  have hfront : ∀ (zs : List Section) (cs : List (ℕ × Section)), (∀ r ∈ cs, k < r.1) →
      (zs.map (k, ·) ++ cs).filter (fun r => r.1 = k) = zs.map (k, ·) := by
    intro zs cs hc
    rw [List.filter_append, List.filter_eq_self.mpr (by simp), List.filter_eq_nil_iff.mpr,
      List.append_nil]
    intro r hr hk
    have := hc r hr
    simp only [decide_eq_true_eq] at hk
    omega
  have heq := congrArg (List.filter fun r => r.1 = k) h
  rw [hfront xs as ha, hfront ys bs hb] at heq
  have hinj : Function.Injective (Prod.mk k : Section → ℕ × Section) := Prod.mk_right_injective k
  refine ⟨List.map_injective_iff.mpr hinj heq, ?_⟩
  rw [heq] at h
  exact List.append_cancel_left h

/-- The listing prints the analyser's records exactly where it lists every segment as the
analyser does. -/
theorem listingFrom_eq_iff {k : ℕ} {segments : List (List UInt8)} :
    listingFrom k segments = some (recordsFrom k segments) ↔
      ∀ data ∈ segments, Cli.listSections data = some (walkSectionsV1 data) := by
  induction segments generalizing k with
  | nil => exact iff_of_true rfl (fun data hd => by cases hd)
  | cons data rest ih =>
      rw [listingFrom_cons, recordsFrom_cons, List.forall_mem_cons, ← @ih (k + 1)]
      constructor
      · intro h
        obtain ⟨l, hl, h⟩ := Option.bind_eq_some_iff.mp h
        obtain ⟨tail, htail, h⟩ := Option.map_eq_some_iff.mp h
        obtain ⟨rfl, rfl⟩ := tagged_append_inj (le_of_mem_listingFrom htail)
          le_of_mem_recordsFrom h
        exact ⟨hl, htail⟩
      · rintro ⟨hl, htail⟩
        rw [hl, htail]
        rfl

/-- **Nothing is hidden from the analyser.** The reader collects, and the listing prints, exactly
the sections that the analyser visits if and only if every segment ends alike for all three. -/
theorem seen_alike_iff (first : Segment) (rest : List Segment) :
    ((∀ src ∈ first :: rest, readerSections src.data = walkSectionsV1 src.data) ∧
      Cli.handleEwfListSections ((first :: rest).map (·.data)) =
        some (recordsFrom 0 ((first :: rest).map (·.data)))) ↔
      ∀ src ∈ first :: rest, EndsAlike src.data := by
  have hone : ∀ src : Segment, (readerSections src.data = walkSectionsV1 src.data ∧
      Cli.listSections src.data = some (walkSectionsV1 src.data)) ↔ EndsAlike src.data := by
    intro src
    have hlen := src.length_lt
    exact seenAlike_iff (by omega) (show src.data.length < src.data.length + 1 + 13 by omega)
      (by decide)
  have hall : (∀ src ∈ first :: rest, readerSections src.data = walkSectionsV1 src.data) ∧
      (∀ src ∈ first :: rest, Cli.listSections src.data = some (walkSectionsV1 src.data)) ↔
      ∀ src ∈ first :: rest, EndsAlike src.data := by
    rw [← forall₂_and]
    exact forall₂_congr fun src _ => hone src
  rw [← hall]
  refine and_congr_right fun _ => ?_
  have hlisting : Cli.handleEwfListSections ((first :: rest).map (·.data)) =
      listingFrom 0 ((first :: rest).map (·.data)) := rfl
  rw [hlisting, listingFrom_eq_iff]
  simp only [List.forall_mem_map]

/-- A segment whose `done` section points on to a `volume` section. -/
def hiddenImage : Segment :=
  ⟨Image.encodeSegment 1 [⟨.done, []⟩] .volume 0, by decide +kernel⟩

/-- The reader collects the volume section, the listing prints it, and the analyser stops before
it. -/
theorem hiddenImage_not_seen_alike :
    ¬ ((∀ src ∈ [hiddenImage], readerSections src.data = walkSectionsV1 src.data) ∧
      Cli.handleEwfListSections ([hiddenImage].map (·.data)) =
        some (recordsFrom 0 ([hiddenImage].map (·.data)))) := by
  decide +kernel

end EwfForensic

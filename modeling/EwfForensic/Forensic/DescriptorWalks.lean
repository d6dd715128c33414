import EwfForensic.Core.TablesV2
import EwfForensic.Forensic.CoverageV2

/-!
# The Two Walks over a v2 Segment

The reader and the analysis walk from descriptor to descriptor, each naming the one before it.
The reader goes wherever a name leads, as long as no position comes back, and ends at the name
zero. The analysis also ends where a name does not lead strictly backward, or into the file
header.

* `descending` — the part of the reader's walk that the analysis goes along.
* `backwardWalk_eq_descending` — in a segment that the reader accepts, that is all the analysis
  visits.
* `usedChunkTable_eq` — so the table it uses is the last one on that part.
-/

namespace EwfForensic

open Octets

/-! ### One turn -/

/-- The descriptor at a position, as the reader reads it. -/
def ewf2DescriptorAt (data : List UInt8) (off : ℕ) : Ewf2SectionDescriptor :=
  Ewf2SectionDescriptor.ofBytes (readAtMost data off ewf2SectionDescriptorSize) off

/-- The descriptor at a position, as the analysis reads it. -/
def ewf2SectionAt (data : List UInt8) (off : ℕ) : Ewf2Section where
  descOffset := off
  sectionType := leU32 (readAtMost data off ewf2SectionDescriptorSize) 0
  dataFlags := leU32 (readAtMost data off ewf2SectionDescriptorSize) 4
  prevOffset := leU64 (readAtMost data off ewf2SectionDescriptorSize) 8
  dataSize := leU64 (readAtMost data off ewf2SectionDescriptorSize) 16
  storedHash := Digest.bytesAt 16 (readAtMost data off ewf2SectionDescriptorSize) 32

theorem fromU32_eq_sectorTable_iff {n : ℕ} :
    Ewf2SectionType.fromU32 n = .sectorTable ↔ n = evf2TypeChunkTable := by
  unfold Ewf2SectionType.fromU32
  split <;> simp_all

/-- Both readings of an unencrypted descriptor agree on whether it is a chunk table. -/
theorem isPlain_ewf2SectionAt {data : List UInt8} {off : ℕ}
    (h : (ewf2DescriptorAt data off).isEncrypted = false) :
    (ewf2SectionAt data off).isPlain evf2TypeChunkTable = (ewf2DescriptorAt data off).isTable := by
  have henc : (ewf2SectionAt data off).encrypted = false := h
  have htype : (ewf2DescriptorAt data off).sectionType =
      Ewf2SectionType.fromU32 (ewf2SectionAt data off).sectionType := rfl
  rw [Bool.eq_iff_iff, Ewf2Section.isPlain, Ewf2SectionDescriptor.isTable, decide_eq_true_eq,
    decide_eq_true_eq, henc, htype, fromU32_eq_sectorTable_iff]
  simp

section Walk

variable {data : List UInt8} {visited : List ℕ} {off : ℕ}

/-- **One turn of the reader's walk** that does not fail. -/
theorem collectStep_ok {a : Ewf2SectionDescriptor} {t : Option (List ℕ × ℕ)}
    (h : collectStep data (visited, off) = some (.ok a, t)) :
    off + 64 ≤ data.length ∧ a = ewf2DescriptorAt data off ∧
      t = if a.previousOffset = 0 then none else some (off :: visited, a.previousOffset) := by
  rw [collectStep] at h
  split_ifs at h with hseen
  · cases h
  split at h
  · cases h
  · next buf hread =>
      obtain ⟨hin, rfl⟩ := (readExact_eq_ok_iff (by decide)).mp hread
      simp only at h
      split_ifs at h with hfirst hlong
      · obtain ⟨ha, rfl⟩ := Prod.mk.inj (Option.some.inj h)
        obtain rfl := Except.ok.inj ha
        exact ⟨hin, rfl, (if_pos hfirst).symm⟩
      · cases h
      · obtain ⟨ha, rfl⟩ := Prod.mk.inj (Option.some.inj h)
        obtain rfl := Except.ok.inj ha
        exact ⟨hin, rfl, (if_neg hfirst).symm⟩

theorem collectStep_isSome (s : List ℕ × ℕ) : ∃ p, collectStep data s = some p := by
  rw [collectStep]
  split_ifs
  · exact ⟨_, rfl⟩
  split
  · exact ⟨_, rfl⟩
  · simp only
    split_ifs
    · exact ⟨_, rfl⟩
    · exact ⟨_, rfl⟩
    · exact ⟨_, rfl⟩

/-- **One turn of the backward walk** at the same descriptor. -/
theorem backwardStep_eq (hlow : 32 ≤ off) (hin : off + 64 ≤ data.length)
    (hdata : data.length < u64Max) :
    backwardStep data off = some (ewf2SectionAt data off,
      if (ewf2DescriptorAt data off).previousOffset = 0 ∨
        off ≤ (ewf2DescriptorAt data off).previousOffset then none
      else some (ewf2DescriptorAt data off).previousOffset) := by
  have hroom :
      ¬ (satAdd off evf2SectionDescriptorSize > data.length ∨ off < evf2FileHeaderSize) := by
    rw [not_or, not_lt, satAdd_le_iff hdata]
    exact ⟨hin, Nat.not_lt.mpr hlow⟩
  rw [backwardStep, if_neg hroom]
  rfl

/-! ### Whole walks -/

/-- The part of a walk along which each descriptor lies strictly before the last one, and behind
the file header. -/
def descending : List Ewf2SectionDescriptor → List Ewf2SectionDescriptor
  | d :: e :: rest =>
    if 32 ≤ e.offset ∧ e.offset < d.offset then d :: descending (e :: rest) else [d]
  | l => l

/-- **A walk that does not fail** starts with the descriptor of its position, and goes on from
the one that this names. -/
theorem visits_collectStep_cons {n : ℕ} {d : Ewf2SectionDescriptor}
    {rest : List Ewf2SectionDescriptor}
    (h : Loop.visits (collectStep data) (n + 1) (visited, off) = (d :: rest).map Except.ok) :
    off + 64 ≤ data.length ∧ d = ewf2DescriptorAt data off ∧
      (d.previousOffset = 0 ∧ rest = [] ∨ d.previousOffset ≠ 0 ∧
        Loop.visits (collectStep data) n (off :: visited, d.previousOffset) =
          rest.map Except.ok) := by
  obtain ⟨⟨a, t⟩, hstep⟩ := @collectStep_isSome data (visited, off)
  cases t with
  | none =>
      rw [Loop.visits_of_last hstep, List.map_cons] at h
      obtain ⟨rfl, hrest⟩ := List.cons.inj h
      obtain ⟨hin, hd, ht⟩ := collectStep_ok hstep
      refine ⟨hin, hd, Or.inl ⟨?_, List.map_eq_nil_iff.mp hrest.symm⟩⟩
      by_contra hne
      rw [if_neg hne] at ht
      cases ht
  | some s' =>
      rw [Loop.visits_of_next hstep, List.map_cons] at h
      obtain ⟨rfl, hrest⟩ := List.cons.inj h
      obtain ⟨hin, hd, ht⟩ := collectStep_ok hstep
      by_cases hzero : d.previousOffset = 0
      · rw [if_pos hzero] at ht
        cases ht
      · rw [if_neg hzero] at ht
        obtain rfl := Option.some.inj ht
        exact ⟨hin, hd, Or.inr ⟨hzero, hrest⟩⟩

/-- A walk emits something in its first turn. -/
theorem visits_collectStep_ne_nil (n : ℕ) (s : List ℕ × ℕ) :
    Loop.visits (collectStep data) (n + 1) s ≠ [] := by
  obtain ⟨⟨a, t⟩, hstep⟩ := @collectStep_isSome data s
  cases t with
  | none => rw [Loop.visits_of_last hstep]; simp
  | some s' => rw [Loop.visits_of_next hstep]; simp

/-- **The analysis goes along the reader's walk** as long as that descends. -/
theorem visits_backwardStep_eq (hdata : data.length < u64Max) {n : ℕ}
    {walk : List Ewf2SectionDescriptor} (hlow : 32 ≤ off)
    (h : Loop.visits (collectStep data) n (visited, off) = walk.map Except.ok) :
    Loop.visits (backwardStep data) n off =
      (descending walk).map fun d => ewf2SectionAt data d.offset := by
  induction n generalizing visited off walk with
  | zero =>
      obtain rfl := List.map_eq_nil_iff.mp h.symm
      rfl
  | succ n ih =>
      cases walk with
      | nil => exact absurd h (visits_collectStep_ne_nil n _)
      | cons d rest =>
          obtain ⟨hin, hd, hnext⟩ := visits_collectStep_cons h
          have hback := backwardStep_eq hlow hin hdata
          rw [← hd] at hback
          have hoff : d.offset = off := by rw [hd]; rfl
          rcases hnext with ⟨hzero, rfl⟩ | ⟨hzero, hrest⟩
          · rw [if_pos (Or.inl hzero)] at hback
            rw [Loop.visits_of_last hback, descending, List.map_singleton, hoff]
            simp
          · have hone : Loop.visits (backwardStep data) n d.previousOffset = [] →
                Loop.visits (backwardStep data) (n + 1) off = [ewf2SectionAt data off] := by
              intro hnil
              by_cases hback' : d.previousOffset = 0 ∨ off ≤ d.previousOffset
              · rw [if_pos hback'] at hback
                exact Loop.visits_of_last hback n
              · rw [if_neg hback'] at hback
                rw [Loop.visits_of_next hback, hnil]
            cases n with
            | zero =>
                obtain rfl := List.map_eq_nil_iff.mp hrest.symm
                rw [hone rfl, descending, List.map_singleton, hoff]
                simp
            | succ n =>
                cases rest with
                | nil => exact absurd hrest (visits_collectStep_ne_nil n _)
                | cons e rest =>
                    have hprev : e.offset = d.previousOffset := by
                      rw [(visits_collectStep_cons hrest).2.1]
                      rfl
                    rw [descending, hprev, hoff]
                    by_cases hdesc : 32 ≤ d.previousOffset ∧ d.previousOffset < off
                    · rw [if_neg (by omega)] at hback
                      rw [if_pos hdesc, Loop.visits_of_next hback, ih hdesc.1 hrest, List.map_cons,
                        hoff]
                    · rw [if_neg hdesc, List.map_singleton, hoff]
                      by_cases hstay : off ≤ d.previousOffset
                      · rw [if_pos (Or.inr hstay)] at hback
                        exact Loop.visits_of_last hback _
                      · refine hone (Loop.visits_of_none ?_ _)
                        rw [backwardStep, if_pos (Or.inr (show d.previousOffset < 32 by omega))]

end Walk

/-! ### The table that is used -/

section Used

variable {data : List UInt8}

/-- The reader's walk over a segment, from its end. -/
theorem WellRead.visits (h : WellRead data) (hlen : ewf2SectionDescriptorSize ≤ data.length) :
    Loop.visits (collectStep data) (data.length + 1) ([], data.length - ewf2SectionDescriptorSize) =
      (ewf2Descriptors data).reverse.map Except.ok := by
  have hcollect := h.collects
  rw [collectEwf2Descriptors, if_neg (Nat.not_lt.mpr hlen)] at hcollect
  cases hwalk : (ewf2Walk data).mapM id with
  | error e =>
      rw [hwalk] at hcollect
      cases hcollect
  | ok walk =>
      rw [hwalk] at hcollect
      rw [← Except.ok.inj hcollect, List.reverse_reverse, ← List.forall₂_eq_eq_eq,
        List.forall₂_map_right_iff]
      exact mapM_eq_ok_iff.mp hwalk

/-- The descriptors of a segment are those at their positions, and their positions are in it. -/
theorem WellRead.eq_descriptorAt (h : WellRead data) {d : Ewf2SectionDescriptor}
    (hd : d ∈ ewf2Descriptors data) :
    d = ewf2DescriptorAt data d.offset ∧ d.offset + 64 ≤ data.length := by
  have hlen : ewf2SectionDescriptorSize ≤ data.length := by
    by_contra hshort
    have hcollect := h.collects
    rw [collectEwf2Descriptors, if_pos (Nat.lt_of_not_le hshort)] at hcollect
    rw [← Except.ok.inj hcollect] at hd
    cases hd
  have hall := @Loop.forall_visits _ _ (collectStep data) (fun _ => True)
    (fun a => ∀ d, a = .ok d → d = ewf2DescriptorAt data d.offset ∧ d.offset + 64 ≤ data.length)
    (fun _ _ _ _ _ => trivial) (fun s a t _ hstep d had => by
      obtain ⟨hin, hat, -⟩ := collectStep_ok (had ▸ hstep)
      have hoff : d.offset = s.2 := by rw [hat]; rfl
      rw [hoff]
      exact ⟨hat, hin⟩) (data.length + 1) ([], data.length - ewf2SectionDescriptorSize) trivial
  rw [h.visits hlen] at hall
  exact hall (.ok d) (List.mem_map_of_mem (List.mem_reverse.mpr hd)) d rfl

theorem mem_of_mem_descending {walk : List Ewf2SectionDescriptor} {d : Ewf2SectionDescriptor}
    (h : d ∈ descending walk) : d ∈ walk := by
  fun_induction descending walk with
  | case1 d' e rest hdesc ih =>
      rcases List.mem_cons.mp h with rfl | h
      · exact List.mem_cons_self ..
      · exact List.mem_cons_of_mem _ (ih h)
  | case2 d' e rest hdesc =>
      obtain rfl := List.mem_singleton.mp h
      exact List.mem_cons_self ..
  | case3 => exact h

/-- **The analysis visits** the descending part of the reader's walk. -/
theorem backwardWalk_eq_descending (h : WellRead data) (hlen : 96 ≤ data.length)
    (hdata : data.length < u64Max) :
    backwardWalk data = (descending (ewf2Descriptors data).reverse).map fun d =>
      ewf2SectionAt data d.offset :=
  visits_backwardStep_eq hdata (show 32 ≤ data.length - 64 by omega)
    (h.visits (show 64 ≤ data.length by omega))

/-- The chunk table that the analysis uses: the last one on the descending part of the walk, if
it has room for an entry. -/
def keptTable (data : List UInt8) : Option Ewf2SectionDescriptor :=
  if data.length < 96 then none
  else (((descending (ewf2Descriptors data).reverse).filter (·.isTable)).getLast?).filter
    fun d => 48 ≤ d.dataSize

theorem keptTable_eq_some {T : Ewf2SectionDescriptor} (hT : keptTable data = some T) :
    T ∈ ewf2Descriptors data ∧ T.isTable ∧ 48 ≤ T.dataSize := by
  rw [keptTable] at hT
  split_ifs at hT
  obtain ⟨hlast, hroom⟩ := Option.filter_eq_some_iff.mp hT
  obtain ⟨hmem, htable⟩ := List.mem_filter.mp (List.mem_of_getLast? hlast)
  exact ⟨List.mem_reverse.mp (mem_of_mem_descending hmem), htable, of_decide_eq_true hroom⟩

/-- The range of the last chunk table visited. -/
theorem chunkTableBody_backwardWalk (h : WellRead data) (hlen : 96 ≤ data.length)
    (hdata : data.length < u64Max) :
    chunkTableBody (backwardWalk data) =
      ((descending (ewf2Descriptors data).reverse).filter (·.isTable)).getLast?.map fun T =>
        (T.start, T.offset) := by
  have hat : ∀ d ∈ descending (ewf2Descriptors data).reverse, d ∈ ewf2Descriptors data ∧
      d = ewf2DescriptorAt data d.offset := fun d hd =>
    have hmem := List.mem_reverse.mp (mem_of_mem_descending hd)
    ⟨hmem, (h.eq_descriptorAt hmem).1⟩
  have hplain : ((descending (ewf2Descriptors data).reverse).map fun d =>
        ewf2SectionAt data d.offset).filter (·.isPlain evf2TypeChunkTable) =
      ((descending (ewf2Descriptors data).reverse).filter (·.isTable)).map fun d =>
        ewf2SectionAt data d.offset := by
    rw [List.filter_map]
    congr 1
    refine List.filter_congr fun d hd => ?_
    obtain ⟨hmem, hd'⟩ := hat d hd
    have henc := h.not_encrypted d hmem
    rw [hd'] at henc
    rw [Function.comp_apply, isPlain_ewf2SectionAt henc, ← hd']
  rw [chunkTableBody, backwardWalk_eq_descending h hlen hdata, hplain, List.getLast?_map,
    Option.map_map]
  cases hlast : ((descending (ewf2Descriptors data).reverse).filter (·.isTable)).getLast? with
  | none => rfl
  | some T =>
      have hT := (hat T (List.mem_filter.mp (List.mem_of_getLast? hlast)).1).2
      rw [Option.map_some, Option.map_some, hT]
      rfl

/-- **The table that the analysis uses** is the kept one, as far as its section goes. -/
theorem usedChunkTable_eq (h : WellRead data) (hdata : data.length < u64Max) :
    usedChunkTable data = (keptTable data).map fun T => (data.drop T.start).take T.dataSize := by
  rw [usedChunkTable, keptTable]
  by_cases hlen : data.length < 96
  · have hlen' : data.length < evf2FileHeaderSize + evf2SectionDescriptorSize := hlen
    rw [if_pos hlen, if_pos hlen']
    rfl
  · have hlen' : ¬ data.length < evf2FileHeaderSize + evf2SectionDescriptorSize := hlen
    rw [if_neg hlen, if_neg hlen', chunkTableBody_backwardWalk h (by omega) hdata]
    cases hlast : ((descending (ewf2Descriptors data).reverse).filter (·.isTable)).getLast? with
    | none => rfl
    | some T =>
        obtain ⟨hmem, htable⟩ := List.mem_filter.mp (List.mem_of_getLast? hlast)
        have hd := List.mem_reverse.mp (mem_of_mem_descending hmem)
        have hfits := (h.fits T hd htable).size_le
        have hin := (h.eq_descriptorAt hd).2
        have hstart : T.offset - T.start = T.dataSize := by
          rw [Ewf2SectionDescriptor.start]
          omega
        have hslice : slice? data T.start T.offset =
            some ((data.drop T.start).take T.dataSize) := by
          have hle : T.start ≤ T.offset := Nat.sub_le _ _
          rw [slice?_of_le hle (by omega), hstart]
        have hsize : ((data.drop T.start).take T.dataSize).length = T.dataSize := by
          rw [length_of_slice? hslice, hstart]
        simp only [Option.map_some, hslice, hsize]
        by_cases hroom : T.dataSize < evf2ChunkTableHeaderSize + evf2ChunkTableEntrySize
        · have hshort : ¬ 48 ≤ T.dataSize := Nat.not_le.mpr hroom
          rw [if_pos hroom, Option.filter_some_neg (by simpa using hshort)]
          rfl
        · have hlong : 48 ≤ T.dataSize := Nat.not_lt.mp hroom
          rw [if_neg hroom, Option.filter_some_pos (by simpa using hlong)]
          rfl

end Used

end EwfForensic

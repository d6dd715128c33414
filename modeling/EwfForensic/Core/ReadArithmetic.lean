import EwfForensic.Core.ReadEntry

/-!
# The Arithmetic of Reading an Entry

`read_entry` adds the sizes of an entry's extents, and each size to the length of its buffer.

* `additions`, `requests` — the sums of lengths that a call computes, and the buffers it asks for.
* `exact_arithmetic_iff` — no sum overflows, the decision about a placeholder is right and no buffer
  is too long, exactly for the entries whose data a vector can hold.
-/

namespace EwfForensic

open Octets

/-- The additions that the loop over the extents performs: the length of the buffer, and what a
turn adds to it. A seek that fails comes before the addition. -/
def additions (media : Media) (out : List UInt8) : List Extent → List (ℕ × ℕ)
  | [] => []
  | ex :: extents =>
    if ex.sparse = false ∧ (media.seek ex.offset).toOption = none then []
    else
      (out.length, (ex.size : ℕ)) ::
        match appendExtent media out ex with
        | .error _ => []
        | .ok out => additions media out extents

/-- The additions for an entry: none for a placeholder, whose duplicate is read at once. -/
def entryAdditions (media : Media) (entry : LogicalEntry) (extents : List Extent) :
    List (ℕ × ℕ) :=
  match (if isPlaceholder entry.size extents then entry.duplicateOffset else none) with
  | some _ => []
  | none => additions media [] extents

/-- The lengths of the buffers that are requested for an entry. -/
def requests (media : Media) (entry : LogicalEntry) (extents : List Extent) : List ℕ :=
  match (if isPlaceholder entry.size extents then entry.duplicateOffset else none) with
  | some _ => [min entry.size u64Max]
  | none => (additions media [] extents).map fun p => wrappingAdd p.1 p.2

/-- The arithmetic of a call is exact: the sum of the sizes, where it is computed, and each sum of
lengths fit 64 bits, the decision about a placeholder is that over the sum itself, and no buffer is
requested that is longer than a vector can be. -/
structure ExactArithmetic (media : Media) (entry : LogicalEntry) (extents : List Extent) :
    Prop where
  sizes : 1 < entry.size → totalSize extents ≤ u64Max
  lengths : ∀ p ∈ entryAdditions media entry extents, p.1 + p.2 ≤ u64Max
  placeholder : isPlaceholder entry.size extents = true ↔
    1 < entry.size ∧ totalSize extents ≤ 1
  buffers : ∀ n ∈ requests media entry extents, n ≤ isizeMax

/-- The arithmetic is exact for an entry, whatever the media. -/
def ExactFor (entry : LogicalEntry) : Prop :=
  entry.isDir = false → ∀ extents, entry.extents = .ok extents →
    ∀ media, ExactArithmetic media entry extents

/-- A vector can hold the data of an entry: what its extents hold together and, for a placeholder
with a duplicate, as much as its size. -/
def FitsBuffer (entry : LogicalEntry) : Prop :=
  entry.isDir = false → ∀ extents, entry.extents = .ok extents →
    totalSize extents ≤ isizeMax ∧
      (usableDuplicate entry extents ≠ none → entry.size ≤ isizeMax)

/-- Extents that fit a buffer are added without overflow. -/
theorem additions_le (media : Media) (out : List UInt8) (extents : List Extent)
    (h : out.length + totalSize extents ≤ isizeMax) :
    ∀ p ∈ additions media out extents, p.1 + p.2 ≤ isizeMax := by
  induction extents generalizing out with
  | nil =>
      rw [additions]
      simp
  | cons ex extents ih =>
      rw [totalSize_cons] at h
      rw [additions]
      split_ifs with hseek
      · simp
      · refine List.forall_mem_cons.mpr ⟨by simp only; omega, ?_⟩
        have hsum : out.length + ex.size ≤ u64Max := by
          unfold isizeMax at h
          unfold u64Max
          omega
        obtain ⟨-, -, happend, hlen⟩ | ⟨-, e, happend⟩ | ⟨-, -, happend⟩ :=
          appendExtent_cases media out ex (by omega) hsum
        · rw [happend]
          exact ih _ (by omega)
        · simp [happend]
        · simp [happend]

/-- Where all can be read, the buffer grows by every extent. -/
theorem totalSize_le_of_additions (media : Media) (out : List UInt8) (extents : List Extent)
    (hreads : ∀ ex ∈ extents, (media.seek ex.offset).toOption ≠ none ∧
      (media.readExact ex.offset ex.size).toOption ≠ none)
    (hout : out.length ≤ isizeMax)
    (h : ∀ p ∈ additions media out extents, p.1 + p.2 ≤ u64Max ∧ wrappingAdd p.1 p.2 ≤ isizeMax) :
    out.length + totalSize extents ≤ isizeMax := by
  induction extents generalizing out with
  | nil => exact hout
  | cons ex extents ih =>
      obtain ⟨⟨hseek, hread⟩, hreads⟩ := List.forall_mem_cons.mp hreads
      rw [additions, if_neg fun hno => hseek hno.2] at h
      obtain ⟨⟨hsum, hmax⟩, hrest⟩ := List.forall_mem_cons.mp h
      simp only [wrappingAdd_eq hsum] at hsum hmax
      obtain ⟨-, -, happend, hlen⟩ | ⟨⟨-, hfails⟩, -⟩ | ⟨hcon, -⟩ :=
        appendExtent_cases media out ex hout hsum
      · rw [happend] at hrest
        have hmore := ih _ hreads (by omega) hrest
        rw [totalSize_cons]
        omega
      · obtain ⟨e, he⟩ | ⟨-, e, he⟩ := hfails
        · exact absurd (by rw [he]; rfl) hseek
        · exact absurd (by rw [he]; rfl) hread
      · omega

/-- Some media serves all extents. -/
theorem exists_media (extents : List Extent) :
    ∃ media : Media, ∀ ex ∈ extents, (media.seek ex.offset).toOption ≠ none ∧
      (media.readExact ex.offset ex.size).toOption ≠ none := by
  refine ⟨Media.ofBytes
    (List.replicate ((extents.map fun ex => (ex.offset : ℕ) + ex.size).sum) 0), fun ex hex => ?_⟩
  have hle : (ex.offset : ℕ) + ex.size ≤ (extents.map fun ex => (ex.offset : ℕ) + ex.size).sum :=
    List.single_le_sum (fun _ _ => Nat.zero_le _) _ (List.mem_map_of_mem hex)
  refine ⟨Option.some_ne_none _, ?_⟩
  rw [Media.ofBytes]
  simp only
  rw [EwfForensic.readExact, if_pos (.inr (by rwa [List.length_replicate]))]
  exact Option.some_ne_none _

section Entry

variable {entry : LogicalEntry} {extents : List Extent}

/-- Media that serves all extents shows whether a buffer can hold them. -/
theorem fits_of_exactArithmetic {media : Media}
    (hmedia : ∀ ex ∈ extents, (media.seek ex.offset).toOption ≠ none ∧
      (media.readExact ex.offset ex.size).toOption ≠ none)
    (h : ExactArithmetic media entry extents) :
    totalSize extents ≤ isizeMax ∧
      (usableDuplicate entry extents ≠ none → entry.size ≤ isizeMax) := by
  have hlengths := h.lengths
  have hbuffers := h.buffers
  rw [entryAdditions] at hlengths
  rw [requests] at hbuffers
  cases hdu : (if isPlaceholder entry.size extents then entry.duplicateOffset else none) with
  | some off =>
      -- A placeholder holds a byte at most, and a buffer of the size of the entry is requested.
      rw [hdu] at hbuffers
      have hsmall : 1 < entry.size ∧ totalSize extents ≤ 1 := by
        rw [← h.placeholder]
        by_contra hno
        rw [if_neg hno] at hdu
        cases hdu
      have hsize := hbuffers _ List.mem_cons_self
      unfold isizeMax u64Max at *
      exact ⟨by omega, fun _ => by omega⟩
  | none =>
      rw [hdu] at hlengths hbuffers
      have htotal := totalSize_le_of_additions media [] extents hmedia (Nat.zero_le _)
        fun p hp => ⟨hlengths p hp, hbuffers _ (List.mem_map_of_mem hp)⟩
      rw [List.length_nil, Nat.zero_add] at htotal
      refine ⟨htotal, fun husable => absurd ?_ husable⟩
      have hfit : totalSize extents ≤ u64Max := htotal.trans (by decide)
      rw [← duplicate_eq_usableDuplicate hfit, hdu]

/-- What fits a buffer is computed without overflow. -/
theorem exactArithmetic_of_fits (media : Media) (htotal : totalSize extents ≤ isizeMax)
    (hduplicate : usableDuplicate entry extents ≠ none → entry.size ≤ isizeMax) :
    ExactArithmetic media entry extents := by
  have hfit : totalSize extents ≤ u64Max := htotal.trans (by decide)
  have hadditions := additions_le media [] extents (by simpa using htotal)
  have hdu := @duplicate_eq_usableDuplicate entry _ hfit
  constructor
  · exact fun _ => hfit
  · intro p hp
    rw [entryAdditions] at hp
    cases husable : (if isPlaceholder entry.size extents then entry.duplicateOffset
        else none) with
    | some off => rw [husable] at hp; cases hp
    | none => rw [husable] at hp; exact (hadditions p hp).trans (by decide)
  · rw [isPlaceholder, sizeSum_of_le hfit, decide_eq_true_eq]
  · intro n hn
    rw [requests, hdu] at hn
    cases husable : usableDuplicate entry extents with
    | some off =>
        rw [husable] at hn hduplicate
        obtain rfl := List.mem_singleton.mp hn
        exact (min_le_left _ _).trans (hduplicate (Option.some_ne_none _))
    | none =>
        rw [husable] at hn
        obtain ⟨p, hp, rfl⟩ := List.mem_map.mp hn
        have hle := hadditions p hp
        rw [wrappingAdd_eq (hle.trans (by decide))]
        exact hle

end Entry

/-- **The arithmetic of `read_entry`** is exact for those entries whose data a vector can hold. -/
theorem exact_arithmetic_iff (entry : LogicalEntry) : ExactFor entry ↔ FitsBuffer entry := by
  constructor
  · intro h hdir extents hext
    obtain ⟨media, hmedia⟩ := exists_media extents
    exact fits_of_exactArithmetic hmedia (h hdir extents hext media)
  · intro h hdir extents hext media
    obtain ⟨htotal, hduplicate⟩ := h hdir extents hext
    exact exactArithmetic_of_fits media htotal hduplicate

/-- An extent of half of 2^64 bytes. -/
def hugeExtent : Extent := ⟨⟨0, by decide⟩, ⟨9223372036854775808, by decide⟩, false⟩

/-- Two such extents, which add up to nothing. -/
def wrappedText : List Char :=
  ("entry\n1\t1\nn\tls\tbe\tdu\n26\t1\n\t\t\t\n0\t0\n" ++
    "a\t100\t2 0 8000000000000000 0 8000000000000000\t5").toList

theorem wrapped_not_exact :
    ∃ tree entry, parseEntryTree wrappedText = .ok tree ∧ entry ∈ tree.entries ∧
      ¬ ExactFor entry := by
  have hval : (parseEntryTree wrappedText).toOption.map (fun tree => tree.entries.map fun e =>
      (e.isDir, e.size, e.extents)) =
      some [(false, 100, .ok [hugeExtent, hugeExtent])] := by
    decide +kernel
  obtain ⟨tree, entry, hparse, htree, hfields⟩ := exists_parseEntryTree_single hval
  simp only [Prod.mk.injEq] at hfields
  obtain ⟨hdir, hsize, hext⟩ := hfields
  refine ⟨tree, entry, hparse, by rw [htree]; exact List.mem_singleton_self _, fun h => ?_⟩
  have hsum := (h hdir _ hext (Media.ofBytes [])).sizes (by rw [hsize]; decide)
  revert hsum
  decide

end EwfForensic

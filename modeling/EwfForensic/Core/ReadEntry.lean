import EwfForensic.Core.Extents

/-!
# Reading an Entry of a Logical Image

`read_entry` of `core/src/logical.rs`: the data of a file, from its extents or, for a placeholder,
from where its duplicate lies. A release build wraps the sums of sizes and of buffer lengths.

* `Media` — a stream with its content, of which a read that succeeds returns a part.
* `ReadFailure` — an error value, or a panic.
* `appendExtent`, `readExtents`, `readDuplicate`, `LogicalTree.readEntry`.
* `appendExtent_cases` — what one extent does where the sum fits 64 bits.
* `read_entry_whole` — the whole file or an error, for entries whose extents are long enough.
-/

namespace EwfForensic

open Octets

/-! ### The stream and its buffer -/

/-- A media stream. Its seeks and reads may fail; what a read returns stands in its content. -/
structure Media where
  content : List UInt8
  seek : ℕ → Except EwfError Unit
  /-- `read_exact` of so many bytes, behind a seek to the offset. -/
  readExact : ℕ → ℕ → Except EwfError (List UInt8)
  read_sound : ∀ off n bytes, readExact off n = .ok bytes →
    bytes = (content.drop off).take n ∧ bytes.length = n

/-- How a call ends without bytes. -/
inductive ReadFailure where
  | error (e : LogicalError)
  /-- A panic: a vector cannot be as long. -/
  | capacityOverflow
  /-- A panic: a slice starts behind the end of its vector. -/
  | sliceStart
  deriving DecidableEq

/-- `isize::MAX`, the length that a vector of bytes may have. -/
def isizeMax : ℕ := 9223372036854775807

/-- The sum of two `u64`, as a release build computes it. -/
def wrappingAdd (a b : ℕ) : ℕ := (a + b) % 18446744073709551616

theorem wrappingAdd_eq {a b : ℕ} (h : a + b ≤ u64Max) : wrappingAdd a b = a + b := by
  rw [wrappingAdd, Nat.mod_eq_of_lt]
  unfold u64Max at h
  omega

/-- `Vec::resize` with zeros. -/
def resizeVec (out : List UInt8) (n : ℕ) : Except ReadFailure (List UInt8) :=
  if n ≤ out.length then .ok (out.take n)
  else if n > isizeMax then .error .capacityOverflow
  else .ok (out ++ List.replicate (n - out.length) 0)

/-! ### The function -/

/-- The sum of the sizes, as a release build computes it. -/
def sizeSum (extents : List Extent) : ℕ :=
  extents.foldl (fun acc extent => wrappingAdd acc extent.size) 0

/-- `is_placeholder`. -/
def isPlaceholder (size : ℕ) (extents : List Extent) : Bool := size > 1 ∧ sizeSum extents ≤ 1

/-- The field `du` as a decimal number above zero. -/
def LogicalEntry.duplicateOffset (entry : LogicalEntry) : Option ℕ :=
  ((entry.raw.lookup ['d', 'u']).bind fun v => parseU64 (trim v)).filter (0 < ·)

/-- The body of the loop over the extents. -/
def appendExtent (media : Media) (out : List UInt8) (ex : Extent) :
    Except ReadFailure (List UInt8) :=
  let want : ℕ := ex.size
  if ex.sparse then resizeVec out (wrappingAdd out.length want)
  else
    match media.seek ex.offset with
    | .error e => .error (.error (.core e))
    | .ok () =>
      match resizeVec out (wrappingAdd out.length want) with
      | .error e => .error e
      | .ok grown =>
        if grown.length < out.length then .error .sliceStart
        else
          match media.readExact ex.offset (grown.length - out.length) with
          | .error e => .error (.error (.core e))
          | .ok bytes => .ok (grown.take out.length ++ bytes)

/-- The loop over the extents. -/
def readExtents (media : Media) (out : List UInt8) : List Extent → Except ReadFailure (List UInt8)
  | [] => .ok out
  | ex :: extents =>
    match appendExtent media out ex with
    | .error e => .error e
    | .ok out => readExtents media out extents

/-- The data of a placeholder, from the offset of its duplicate. -/
def readDuplicate (media : Media) (off size : ℕ) : Except ReadFailure (List UInt8) :=
  let want := min size u64Max
  if want > isizeMax then .error .capacityOverflow
  else
    match media.seek off with
    | .error e => .error (.error (.core e))
    | .ok () =>
      match media.readExact off want with
      | .error e => .error (.error (.core e))
      | .ok buf => .ok buf

/-- `read_entry`. -/
def LogicalTree.readEntry (tree : LogicalTree) (media : Media) (index : ℕ) :
    Except ReadFailure (List UInt8) :=
  match tree.entries[index]? with
  | none => .error (.error (.malformedLogicalField "entry index"
      ("index ".toList ++ Nat.toDigits 10 index ++ " of ".toList ++
        Nat.toDigits 10 tree.entries.length ++ " entries".toList)))
  | some entry =>
    if entry.isDir then .ok []
    else
      match entry.extents with
      | .error e => .error (.error e)
      | .ok extents =>
        match (if isPlaceholder entry.size extents then entry.duplicateOffset else none) with
        | some off => readDuplicate media off entry.size
        | none =>
          match readExtents media [] extents with
          | .error e => .error e
          | .ok out =>
            let logical := min entry.size u64Max
            if out.length > logical then .ok (out.take logical) else .ok out

/-! ### What the extents hold -/

/-- The sizes of extents together. -/
def totalSize (extents : List Extent) : ℕ := (extents.map fun ex => (ex.size : ℕ)).sum

/-- The bytes of an extent: zeros for a sparse one. -/
def Media.bytesOf (media : Media) (ex : Extent) : List UInt8 :=
  if ex.sparse then List.replicate ex.size 0 else (media.content.drop ex.offset).take ex.size

/-- The offset that holds the data of an entry whose extents are a placeholder: they hold no more
than a byte, the entry is longer, and it names a duplicate. -/
def usableDuplicate (entry : LogicalEntry) (extents : List Extent) : Option ℕ :=
  if 1 < entry.size ∧ totalSize extents ≤ 1 then entry.duplicateOffset else none

/-- A stored extent that cannot be read behind `len` bytes that a buffer holds. -/
def Media.Fails (media : Media) (len : ℕ) (ex : Extent) : Prop :=
  ex.sparse = false ∧ ((∃ e, media.seek ex.offset = .error e) ∨
    (len + ex.size ≤ isizeMax ∧ ∃ e, media.readExact ex.offset ex.size = .error e))

/-- One of the extents cannot be read, and a buffer can hold the bytes before it. -/
def Media.Unreadable (media : Media) (len : ℕ) : List Extent → Prop
  | [] => False
  | ex :: extents => media.Fails len ex ∨
      (len + ex.size ≤ isizeMax ∧ media.Unreadable (len + ex.size) extents)

@[simp] theorem totalSize_nil : totalSize [] = 0 := rfl

@[simp] theorem totalSize_cons (ex : Extent) (extents : List Extent) :
    totalSize (ex :: extents) = ex.size + totalSize extents := rfl

theorem Media.not_fails_of_sparse (media : Media) (len : ℕ) {ex : Extent}
    (h : ex.sparse = true) : ¬ media.Fails len ex := by
  intro hfails
  rw [hfails.1] at h
  cases h

/-- The sum wraps once at most in each turn. -/
theorem sizeSum_eq (extents : List Extent) :
    sizeSum extents = totalSize extents % 18446744073709551616 := by
  have hacc : ∀ acc, acc < 18446744073709551616 →
      extents.foldl (fun acc extent => wrappingAdd acc extent.size) acc =
        (acc + totalSize extents) % 18446744073709551616 := by
    induction extents with
    | nil =>
        intro acc hlt
        exact (Nat.mod_eq_of_lt hlt).symm
    | cons ex extents ih =>
        intro acc _
        rw [List.foldl_cons, wrappingAdd, ih _ (Nat.mod_lt _ (by decide)), totalSize_cons,
          Nat.mod_add_mod, Nat.add_assoc]
  rw [sizeSum, hacc 0 (by decide), Nat.zero_add]

theorem sizeSum_of_le {extents : List Extent} (h : totalSize extents ≤ u64Max) :
    sizeSum extents = totalSize extents := by
  rw [sizeSum_eq, Nat.mod_eq_of_lt]
  unfold u64Max at h
  omega

/-! ### One extent -/

/-- A vector grows by zeros, or it cannot be as long. -/
theorem resizeVec_add (out : List UInt8) (k : ℕ) (hout : out.length ≤ isizeMax) :
    (out.length + k ≤ isizeMax ∧ resizeVec out (out.length + k) =
      .ok (out ++ List.replicate k 0)) ∨
    (isizeMax < out.length + k ∧ resizeVec out (out.length + k) = .error .capacityOverflow) := by
  rw [resizeVec]
  by_cases hk : k = 0
  · subst hk
    exact .inl ⟨hout, by simp⟩
  · rw [if_neg (by omega)]
    by_cases hmax : out.length + k > isizeMax
    · exact .inr ⟨hmax, if_pos hmax⟩
    · exact .inl ⟨by omega, by rw [if_neg hmax, Nat.add_sub_cancel_left]⟩

/-- A sparse extent is zeros. -/
theorem appendExtent_of_sparse (media : Media) {out : List UInt8} {ex : Extent}
    (hsparse : ex.sparse = true) (hsum : out.length + ex.size ≤ u64Max) :
    appendExtent media out ex = resizeVec out (out.length + ex.size) := by
  rw [appendExtent]
  simp only [wrappingAdd_eq hsum, if_pos hsparse]

/-- A stored extent is read behind the seek and behind the zeros that the buffer grows by. -/
theorem appendExtent_of_stored (media : Media) {out : List UInt8} {ex : Extent}
    (hsparse : ex.sparse = false) (hseek : media.seek ex.offset = .ok ())
    (hsum : out.length + ex.size ≤ u64Max)
    (hgrown : resizeVec out (out.length + ex.size) =
      .ok (out ++ List.replicate (ex.size : ℕ) 0)) :
    appendExtent media out ex =
      match media.readExact ex.offset ex.size with
      | .error e => .error (.error (.core e))
      | .ok bytes => .ok (out ++ bytes) := by
  have hlen : (out ++ List.replicate (ex.size : ℕ) (0 : UInt8)).length - out.length = ex.size := by
    rw [List.length_append, List.length_replicate, Nat.add_sub_cancel_left]
  have hno : ¬ (out ++ List.replicate (ex.size : ℕ) (0 : UInt8)).length < out.length := by
    rw [List.length_append]
    omega
  rw [appendExtent]
  simp only [wrappingAdd_eq hsum, hsparse, Bool.false_eq_true, if_false, hseek, hgrown,
    if_neg hno, hlen, List.take_left]

/-- What a seek and a read of all bytes say about an extent. -/
theorem Media.not_fails_of_read (media : Media) (len : ℕ) {ex : Extent} {bytes : List UInt8}
    (hseek : media.seek ex.offset = .ok ())
    (hread : len + ex.size ≤ isizeMax → media.readExact ex.offset ex.size = .ok bytes) :
    ¬ media.Fails len ex := by
  rintro ⟨-, ⟨e, he⟩ | ⟨hfits, e, he⟩⟩
  · rw [hseek] at he
    cases he
  · rw [hread hfits] at he
    cases he

/-- **One extent.** Its bytes are appended, or it cannot be read, or a vector cannot hold it. -/
theorem appendExtent_cases (media : Media) (out : List UInt8) (ex : Extent)
    (hout : out.length ≤ isizeMax) (hsum : out.length + ex.size ≤ u64Max) :
    (out.length + ex.size ≤ isizeMax ∧ ¬ media.Fails out.length ex ∧
      appendExtent media out ex = .ok (out ++ media.bytesOf ex) ∧
      (out ++ media.bytesOf ex).length = out.length + ex.size) ∨
    (media.Fails out.length ex ∧ ∃ e, appendExtent media out ex = .error (.error e)) ∨
    (isizeMax < out.length + ex.size ∧ ¬ media.Fails out.length ex ∧
      appendExtent media out ex = .error .capacityOverflow) := by
  have hgrow := resizeVec_add out ex.size hout
  cases hsparse : ex.sparse with
  | true =>
      have hok := media.not_fails_of_sparse out.length hsparse
      rw [appendExtent_of_sparse media hsparse hsum, Media.bytesOf, if_pos hsparse]
      obtain ⟨hfits, hgrown⟩ | ⟨hmax, hpanic⟩ := hgrow
      · refine .inl ⟨hfits, hok, hgrown, ?_⟩
        rw [List.length_append, List.length_replicate]
      · exact .inr (.inr ⟨hmax, hok, hpanic⟩)
  | false =>
      cases hseek : media.seek ex.offset with
      | error e =>
          refine .inr (.inl ⟨⟨hsparse, .inl ⟨e, hseek⟩⟩, .core e, ?_⟩)
          rw [appendExtent]
          simp only [hsparse, Bool.false_eq_true, if_false, hseek]
      | ok u =>
          obtain ⟨hfits, hgrown⟩ | ⟨hmax, hpanic⟩ := hgrow
          · rw [appendExtent_of_stored media hsparse hseek hsum hgrown]
            cases hread : media.readExact ex.offset ex.size with
            | error e => exact .inr (.inl ⟨⟨hsparse, .inr ⟨hfits, e, hread⟩⟩, .core e, rfl⟩)
            | ok bytes =>
                obtain ⟨hbytes, hn⟩ := media.read_sound _ _ _ hread
                have hof : media.bytesOf ex = bytes := by
                  rw [Media.bytesOf, hsparse, hbytes]
                  rfl
                rw [hof]
                refine .inl ⟨hfits, media.not_fails_of_read _ hseek fun _ => hread, rfl, ?_⟩
                rw [List.length_append, hn]
          · refine .inr (.inr ⟨hmax, ?_, ?_⟩)
            · exact @Media.not_fails_of_read media _ _ [] hseek fun hfits => by omega
            · rw [appendExtent]
              simp only [wrappingAdd_eq hsum, hsparse, Bool.false_eq_true, if_false, hseek, hpanic]

/-! ### All extents -/

/-- **The loop over the extents** whose sizes fit 64 bits together. -/
theorem readExtents_cases (media : Media) (out : List UInt8) (extents : List Extent)
    (hout : out.length ≤ isizeMax) (hsum : out.length + totalSize extents ≤ u64Max) :
    (¬ media.Unreadable out.length extents ∧
      readExtents media out extents = .ok (out ++ extents.flatMap media.bytesOf) ∧
      (out ++ extents.flatMap media.bytesOf).length = out.length + totalSize extents) ∨
    (media.Unreadable out.length extents ∧
      ∃ e, readExtents media out extents = .error (.error e)) ∨
    (¬ media.Unreadable out.length extents ∧
      readExtents media out extents = .error .capacityOverflow) := by
  induction extents generalizing out with
  | nil => exact .inl ⟨id, by rw [readExtents]; simp, by simp⟩
  | cons ex extents ih =>
      rw [totalSize_cons] at hsum
      rw [readExtents, Media.Unreadable]
      obtain ⟨hfits, hok, happend, hlen⟩ | ⟨hfails, e, happend⟩ | ⟨hmax, hok, happend⟩ :=
        appendExtent_cases media out ex hout (by omega)
      · -- What follows is read behind the bytes of this extent.
        have hiff : (media.Fails out.length ex ∨
            (out.length + ex.size ≤ isizeMax ∧
              media.Unreadable (out.length + ex.size) extents)) ↔
            media.Unreadable (out ++ media.bytesOf ex).length extents := by
          rw [hlen]
          exact ⟨fun h => (h.resolve_left hok).2, fun h => .inr ⟨hfits, h⟩⟩
        have hmore := ih (out ++ media.bytesOf ex) (by omega) (by omega)
        rw [List.append_assoc, ← List.flatMap_cons] at hmore
        simp only [happend, hiff]
        refine hmore.imp (fun h => ⟨h.1, h.2.1, ?_⟩) id
        rw [h.2.2, hlen, totalSize_cons, Nat.add_assoc]
      · simp only [happend]
        exact .inr (.inl ⟨.inl hfails, e, rfl⟩)
      · simp only [happend]
        exact .inr (.inr ⟨fun h => h.elim hok fun h => by omega, trivial⟩)

/-! ### The whole file or an error -/

/-- The result for a file is the whole file or an error: as many bytes as its size, those at the
offset of its duplicate if its extents are a placeholder, else the first bytes that its extents
hold; and an error value where the extents are too short and no duplicate can be used. -/
structure WholeOrError (media : Media) (entry : LogicalEntry)
    (result : Except ReadFailure (List UInt8)) : Prop where
  whole : ∀ d, result = .ok d → d.length = entry.size ∧
    ∃ extents, entry.extents = .ok extents ∧
      d = match usableDuplicate entry extents with
        | some off => (media.content.drop off).take entry.size
        | none => (extents.flatMap media.bytesOf).take entry.size
  short : ∀ extents, entry.extents = .ok extents → totalSize extents < entry.size →
    usableDuplicate entry extents = none → ∃ e, result = .error (.error e)

/-- The extents are a placeholder with a duplicate, or they are as long as the entry, or one of
them cannot be read. Their sizes fit 64 bits together. -/
def LongEnough (media : Media) (entry : LogicalEntry) : Prop :=
  ∀ extents, entry.extents = .ok extents →
    usableDuplicate entry extents ≠ none ∨
      (totalSize extents ≤ u64Max ∧
        (entry.size ≤ totalSize extents ∨ media.Unreadable 0 extents))

/-- The sizes of the extents fit 64 bits together. -/
def SizesFit (entry : LogicalEntry) : Prop :=
  ∀ extents, entry.extents = .ok extents → totalSize extents ≤ u64Max

section Entry

variable {media : Media} {tree : LogicalTree} {index : ℕ} {entry : LogicalEntry}
  {extents : List Extent}

theorem totalSize_le_of_usableDuplicate (h : usableDuplicate entry extents ≠ none) :
    totalSize extents ≤ u64Max := by
  rw [usableDuplicate] at h
  split_ifs at h with hplaceholder
  · exact hplaceholder.2.trans (by decide)
  · exact absurd rfl h

/-- The decision about a placeholder is the one over the sum itself, where that fits. -/
theorem duplicate_eq_usableDuplicate (h : totalSize extents ≤ u64Max) :
    (if isPlaceholder entry.size extents then entry.duplicateOffset else none) =
      usableDuplicate entry extents := by
  rw [isPlaceholder, sizeSum_of_le h, usableDuplicate]
  simp only [decide_eq_true_eq, gt_iff_lt]

/-- What `read_entry` does with a file whose extents are parsed and whose sizes fit. -/
theorem readEntry_eq (hentry : tree.entries[index]? = some entry) (hdir : entry.isDir = false)
    (hext : entry.extents = .ok extents) (hfit : totalSize extents ≤ u64Max) :
    tree.readEntry media index =
      match usableDuplicate entry extents with
      | some off => readDuplicate media off entry.size
      | none =>
        match readExtents media [] extents with
        | .error e => .error e
        | .ok out =>
          if out.length > min entry.size u64Max then .ok (out.take (min entry.size u64Max))
          else .ok out := by
  rw [LogicalTree.readEntry]
  simp only [hentry, hdir, hext, duplicate_eq_usableDuplicate hfit]
  rfl

/-- The data of a duplicate, or a failure. -/
theorem readDuplicate_eq_ok {off size : ℕ} {d : List UInt8}
    (h : readDuplicate media off size = .ok d) :
    d = (media.content.drop off).take size ∧ d.length = size := by
  rw [readDuplicate] at h
  split_ifs at h with hmax
  have hwant : min size u64Max = size := by
    unfold isizeMax at hmax
    unfold u64Max at hmax ⊢
    omega
  rw [hwant] at h
  cases hseek : media.seek off with
  | error e => rw [hseek] at h; cases h
  | ok u =>
      rw [hseek] at h
      simp only at h
      cases hread : media.readExact off size with
      | error e => rw [hread] at h; cases h
      | ok buf =>
          rw [hread] at h
          cases h
          exact media.read_sound _ _ _ hread

/-- Malformed extents are an error. -/
theorem readEntry_of_malformed (hentry : tree.entries[index]? = some entry)
    (hdir : entry.isDir = false) {e : LogicalError} (hext : entry.extents = .error e) :
    tree.readEntry media index = .error (.error e) := by
  rw [LogicalTree.readEntry]
  simp only [hentry, hdir, hext]
  rfl

/-- The loop from the empty buffer. -/
theorem readExtents_nil_cases (media : Media) (hfit : totalSize extents ≤ u64Max) :
    (¬ media.Unreadable 0 extents ∧
      readExtents media [] extents = .ok (extents.flatMap media.bytesOf) ∧
      (extents.flatMap media.bytesOf).length = totalSize extents) ∨
    (media.Unreadable 0 extents ∧ ∃ e, readExtents media [] extents = .error (.error e)) ∨
    (¬ media.Unreadable 0 extents ∧
      readExtents media [] extents = .error .capacityOverflow) := by
  have h := readExtents_cases media [] extents (Nat.zero_le _) (by simpa using hfit)
  simpa only [List.length_nil, List.nil_append, Nat.zero_add] using h

/-- A placeholder gives its duplicate. -/
theorem wholeOrError_of_duplicate (hentry : tree.entries[index]? = some entry)
    (hdir : entry.isDir = false) (hext : entry.extents = .ok extents)
    (hfit : totalSize extents ≤ u64Max) {off : ℕ}
    (husable : usableDuplicate entry extents = some off) :
    WholeOrError media entry (tree.readEntry media index) := by
  rw [readEntry_eq hentry hdir hext hfit, husable]
  constructor
  · intro d hd
    obtain ⟨hbytes, hlen⟩ := readDuplicate_eq_ok hd
    exact ⟨hlen, extents, hext, by rw [husable]; exact hbytes⟩
  · intro extents' hext' _ hnone
    obtain rfl := Except.ok.inj (hext'.symm.trans hext)
    rw [husable] at hnone
    cases hnone

/-- Extents that are as long as the file, or cannot be read, give the whole file or an error. -/
theorem wholeOrError_of_extents (hentry : tree.entries[index]? = some entry)
    (hdir : entry.isDir = false) (hext : entry.extents = .ok extents)
    (hfit : totalSize extents ≤ u64Max) (husable : usableDuplicate entry extents = none)
    (hlong : entry.size ≤ totalSize extents ∨ media.Unreadable 0 extents) :
    WholeOrError media entry (tree.readEntry media index) := by
  have hshort : ∀ extents', entry.extents = .ok extents' → totalSize extents' < entry.size →
      ¬ entry.size ≤ totalSize extents := by
    intro extents' hext' hlt
    obtain rfl := Except.ok.inj (hext'.symm.trans hext)
    omega
  rw [readEntry_eq hentry hdir hext hfit, husable]
  simp only
  obtain ⟨hreads, hok, hlen⟩ | ⟨-, e, herr⟩ | ⟨hreads, hpanic⟩ := readExtents_nil_cases media hfit
  · have hsize : entry.size ≤ totalSize extents := hlong.resolve_right hreads
    have hmin : min entry.size u64Max = entry.size := min_eq_left (hsize.trans hfit)
    simp only [hok, hmin]
    refine ⟨fun d hd => ?_, fun extents' hext' hlt _ => absurd hsize (hshort _ hext' hlt)⟩
    have hd' : d = (extents.flatMap media.bytesOf).take entry.size := by
      split_ifs at hd with hcut
      · exact (Except.ok.inj hd).symm
      · rw [List.take_of_length_le (by omega)]
        exact (Except.ok.inj hd).symm
    refine ⟨?_, extents, hext, by rw [husable]; exact hd'⟩
    rw [hd', List.length_take, hlen, min_eq_left hsize]
  · simp only [herr]
    exact ⟨nofun, fun _ _ _ _ => ⟨e, rfl⟩⟩
  · simp only [hpanic]
    exact ⟨nofun, fun extents' hext' hlt _ =>
      absurd (hlong.resolve_right hreads) (hshort _ hext' hlt)⟩

/-- Extents that are long enough give the whole file. -/
theorem wholeOrError_of_longEnough (hentry : tree.entries[index]? = some entry)
    (hdir : entry.isDir = false) (h : LongEnough media entry) :
    WholeOrError media entry (tree.readEntry media index) := by
  cases hext : entry.extents with
  | error e =>
      rw [readEntry_of_malformed hentry hdir hext]
      exact ⟨nofun, fun _ h' => nomatch hext.symm.trans h'⟩
  | ok extents =>
      have hfit : totalSize extents ≤ u64Max :=
        (h extents hext).elim totalSize_le_of_usableDuplicate And.left
      cases husable : usableDuplicate entry extents with
      | some off => exact wholeOrError_of_duplicate hentry hdir hext hfit husable
      | none =>
          exact wholeOrError_of_extents hentry hdir hext hfit husable
            ((h extents hext).resolve_left (· husable)).2

/-- Extents that are too short are taken for a whole file unless one cannot be read. -/
theorem longEnough_of_wholeOrError (hentry : tree.entries[index]? = some entry)
    (hdir : entry.isDir = false) (hfit : SizesFit entry)
    (h : WholeOrError media entry (tree.readEntry media index)) : LongEnough media entry := by
  intro extents hext
  by_cases husable : usableDuplicate entry extents = none
  · refine .inr ⟨hfit extents hext, ?_⟩
    by_contra hcon
    rw [not_or, not_le] at hcon
    obtain ⟨e, herr⟩ := h.short extents hext hcon.1 husable
    rw [readEntry_eq hentry hdir hext (hfit extents hext), husable] at herr
    simp only at herr
    obtain ⟨-, hok, -⟩ | ⟨hunreadable, -⟩ | ⟨-, hpanic⟩ :=
      readExtents_nil_cases media (hfit extents hext)
    · simp only [hok] at herr
      split_ifs at herr
    · exact hcon.2 hunreadable
    · rw [hpanic] at herr
      cases herr
  · exact .inl husable

end Entry

/-- **The whole file or an error.** That is what `read_entry` returns for a file whose extents are
a placeholder with a duplicate or as long as it is, or cannot be read; and for no other whose sizes
fit 64 bits together. -/
theorem read_entry_whole (media : Media) (tree : LogicalTree) (index : ℕ) (entry : LogicalEntry)
    (hentry : tree.entries[index]? = some entry) (hdir : entry.isDir = false) :
    (LongEnough media entry → WholeOrError media entry (tree.readEntry media index)) ∧
    (SizesFit entry →
      (WholeOrError media entry (tree.readEntry media index) ↔ LongEnough media entry)) :=
  ⟨wholeOrError_of_longEnough hentry hdir, fun hfit =>
    ⟨longEnough_of_wholeOrError hentry hdir hfit, wholeOrError_of_longEnough hentry hdir⟩⟩

/-- What is read from the bytes of a file stands there. -/
theorem readExact_sound {content bytes : List UInt8} {off n : ℕ}
    (h : readExact content off n = .ok bytes) :
    bytes = (content.drop off).take n ∧ bytes.length = n := by
  by_cases hn : n = 0
  · subst hn
    rw [readExact, if_pos (.inl rfl)] at h
    cases h
    simp [readAtMost]
  · obtain ⟨hin, hbytes⟩ := (readExact_eq_ok_iff (Nat.pos_of_ne_zero hn)).mp h
    refine ⟨hbytes, ?_⟩
    rw [hbytes, List.length_take, List.length_drop]
    omega

/-- The stream over the bytes of a file. -/
def Media.ofBytes (content : List UInt8) : Media where
  content := content
  seek _ := .ok ()
  readExact := EwfForensic.readExact content
  read_sound _ _ _ h := readExact_sound h

/-- A file of three bytes in an extent of four. -/
def paddedFileText : List Char := "entry\n1\t1\nn\tls\tbe\n26\t1\n\t\t\n0\t0\na\t3\t1 2 4".toList

def paddedExtent : Extent := ⟨⟨2, by decide⟩, ⟨4, by decide⟩, false⟩

/-- A file of five bytes without extents. -/
def shortFileText : List Char := "entry\n1\t1\nn\tls\tbe\n26\t1\n\t\t\n0\t0\na\t5\t".toList

theorem read_entry_whole_paddedFile :
    ∃ tree entry, parseEntryTree paddedFileText = .ok tree ∧ tree.entries[0]? = some entry ∧
      WholeOrError (Media.ofBytes [9, 9, 1, 2, 3, 0, 9]) entry
        (tree.readEntry (Media.ofBytes [9, 9, 1, 2, 3, 0, 9]) 0) := by
  have hval : (parseEntryTree paddedFileText).toOption.map (fun tree => tree.entries.map fun e =>
      (e.isDir, e.size, e.extents)) =
      some [(false, 3, .ok [paddedExtent])] := by
    decide +kernel
  obtain ⟨tree, entry, hparse, htree, hfields⟩ := exists_parseEntryTree_single hval
  have hentry : tree.entries[0]? = some entry := by rw [htree]; rfl
  simp only [Prod.mk.injEq] at hfields
  obtain ⟨hdir, hsize, hext⟩ := hfields
  refine ⟨tree, entry, hparse, hentry, (read_entry_whole _ tree 0 entry hentry hdir).1 ?_⟩
  intro extents hext'
  obtain rfl := Except.ok.inj (hext.symm.trans hext')
  rw [hsize]
  exact .inr ⟨by decide, .inl (by decide)⟩

theorem shortFile_not_whole :
    ∃ tree entry, parseEntryTree shortFileText = .ok tree ∧ tree.entries[0]? = some entry ∧
      entry.isDir = false ∧
      ¬ WholeOrError (Media.ofBytes []) entry (tree.readEntry (Media.ofBytes []) 0) := by
  have hval : (parseEntryTree shortFileText).toOption.map (fun tree =>
      (tree.entries.map fun e => (e.isDir, e.size), tree.readEntry (Media.ofBytes []) 0)) =
      some ([(false, 5)], .ok []) := by
    decide +kernel
  obtain ⟨tree, hparse, hval⟩ := exists_parseEntryTree hval
  obtain ⟨hentries, hread⟩ := Prod.mk.inj hval
  rw [List.map_eq_singleton_iff] at hentries
  obtain ⟨entry, htree, hfields⟩ := hentries
  obtain ⟨hdir, hsize⟩ := Prod.mk.inj hfields
  refine ⟨tree, entry, hparse, by rw [htree]; rfl, hdir, fun h => ?_⟩
  obtain ⟨hlen, -⟩ := h.whole [] hread
  rw [hsize] at hlen
  cases hlen

end EwfForensic

import EwfForensic.Core.DeclaredMedia

/-!
# The Order of the Sources

An open sorts its sources by segment number, but takes the container kind, and with it the rule
for the media size, from the first source as supplied.

* `sortByNumber_eq_of_perm` — sources with different numbers have one order.
* `open_of_perm` — an open of the same sources in another order succeeds, too, and differs in the
  media size alone.
* `source_order_iff` — the two readers agree if and only if the first sources are of one kind, or
  both kinds give the same media size.
-/

namespace EwfForensic

open Octets

/-! ### Sorting -/

theorem perm_sortByNumber {α : Type} (l : List (α × ℕ)) : (sortByNumber l).Perm l :=
  List.perm_insertionSort _ l

theorem pairwise_sortByNumber {α : Type} (l : List (α × ℕ)) :
    (sortByNumber l).Pairwise fun a b => a.2 ≤ b.2 :=
  @List.pairwise_insertionSort _ (fun a b : α × ℕ => a.2 ≤ b.2) _
    ⟨fun a b => Nat.le_total a.2 b.2⟩ ⟨fun _ _ _ => Nat.le_trans⟩ l

/-- Sorted numbers that pass the check run from `pos + 1` on. The expected number wraps at 32
bits, but then no later number is as small. -/
theorem eq_range'_of_checkSequential {nums : List ℕ} {pos : ℕ}
    (h : checkSequential pos nums = .ok ()) (hnums : ∀ n ∈ nums, pos ≤ n ∧ n < 4294967296)
    (hsorted : nums.Pairwise (· ≤ ·)) (hpos : pos < 4294967296) :
    nums = List.range' (pos + 1) nums.length := by
  induction nums generalizing pos with
  | nil => rfl
  | cons got rest ih =>
      rw [checkSequential] at h
      split_ifs at h with hne
      obtain ⟨hle, hlt⟩ := hnums got (List.mem_cons_self ..)
      have hexpected : got = (pos + 1) % 4294967296 := not_not.mp hne
      have hpos' : pos + 1 < 4294967296 := by omega
      obtain rfl : got = pos + 1 := by omega
      obtain ⟨hfirst, hrest⟩ := List.pairwise_cons.mp hsorted
      rw [List.length_cons, List.range'_succ,
        ← ih h (fun n hn => ⟨hfirst n hn, (hnums n (List.mem_cons_of_mem _ hn)).2⟩) hrest hpos']

/-- **Sources with different numbers have one order.** -/
theorem sortByNumber_eq_of_perm {α : Type} {l l' : List (α × ℕ)} (h : l.Perm l')
    (hnodup : (l.map (·.2)).Nodup) : sortByNumber l = sortByNumber l' := by
  have hinj : ∀ a b, a ∈ l → b ∈ l → a.2 = b.2 → a = b := fun a b ha hb =>
    List.inj_on_of_nodup_map hnodup ha hb
  refine List.Perm.eq_of_pairwise (fun a b ha hb hab hba => ?_) (pairwise_sortByNumber l)
    (pairwise_sortByNumber l') ((perm_sortByNumber l).trans (h.trans (perm_sortByNumber l').symm))
  exact hinj a b ((perm_sortByNumber l).mem_iff.mp ha)
    (h.mem_iff.mpr ((perm_sortByNumber l').mem_iff.mp hb)) (Nat.le_antisymm hab hba)

/-- **Numbers in sequence.** Segments that an open accepts are in the order of their numbers,
which run from one. -/
theorem validateAndReorderSegments_ok {α : Type} {segments ordered : List α} {nums : List ℕ}
    (h : validateAndReorderSegments segments nums = .ok ordered)
    (hnums : ∀ n ∈ nums, n < 4294967296) :
    ordered = (sortByNumber (segments.zip nums)).map (·.1) ∧
      (sortByNumber (segments.zip nums)).map (·.2) = List.range' 1 ordered.length := by
  rw [validateAndReorderSegments] at h
  split at h
  · cases h
  · next hok =>
      obtain rfl := Except.ok.inj h
      refine ⟨rfl, ?_⟩
      rw [List.length_map]
      have hseq := eq_range'_of_checkSequential hok (fun n hn => ⟨Nat.zero_le n, ?_⟩)
        ((pairwise_sortByNumber _).map _ fun a b hab => hab) (by decide)
      · rwa [List.length_map] at hseq
      · obtain ⟨p, hp, rfl⟩ := List.mem_map.mp hn
        exact hnums p.2 (List.of_mem_zip ((perm_sortByNumber _).mem_iff.mp hp)).2

/-- The numbers of the sources run from one. -/
def Numbered (sources : List Segment) : Prop :=
  checkSequential 0 ((sortByNumber (sources.map fun s => (s, s.number))).map (·.2)) = .ok ()

theorem validateAndReorderSegments_eq_ok_iff {sources ordered : List Segment} :
    validateAndReorderSegments sources (sources.map Segment.number) = .ok ordered ↔
      Numbered sources ∧ ordered = inOrder sources := by
  rw [validateAndReorderSegments, ← List.map_prod_left_eq_zip, Numbered, inOrder]
  split
  · next e he =>
      rw [he]
      exact iff_of_false (fun h => by cases h) (fun h => by cases h.1)
  · next hok =>
      rw [hok]
      exact ⟨fun h => ⟨rfl, (Except.ok.inj h).symm⟩, fun h => congrArg Except.ok h.2.symm⟩

/-- Numbered sources have one order. -/
theorem Numbered.sort_eq {sources sources' : List Segment} (h : Numbered sources)
    (hperm : sources.Perm sources') :
    sortByNumber (sources.map fun s => (s, s.number)) =
      sortByNumber (sources'.map fun s => (s, s.number)) := by
  have hsort := perm_sortByNumber (sources.map fun s => (s, s.number))
  refine sortByNumber_eq_of_perm (hperm.map _) ?_
  rw [← (hsort.map (·.2)).nodup_iff, eq_range'_of_checkSequential h ?_
    ((pairwise_sortByNumber _).map _ fun a b hab => hab) (by decide)]
  · exact List.nodup_range'
  · intro n hn
    obtain ⟨p, hp, rfl⟩ := List.mem_map.mp hn
    obtain ⟨s, -, rfl⟩ := List.mem_map.mp (hsort.mem_iff.mp hp)
    have hnum : s.number < 256 ^ 2 := leAt_lt 2 _ 9
    exact ⟨Nat.zero_le _, by norm_num at hnum; omega⟩

theorem Numbered.inOrder_eq {sources sources' : List Segment} (h : Numbered sources)
    (hperm : sources.Perm sources') : inOrder sources = inOrder sources' := by
  rw [inOrder, inOrder, h.sort_eq hperm]

theorem Numbered.of_perm {sources sources' : List Segment} (h : Numbered sources)
    (hperm : sources.Perm sources') : Numbered sources' := by
  rwa [Numbered, ← h.sort_eq hperm]

/-! ### The eager open -/

/-- The container kind that an open goes by: that of the first source as supplied. -/
def firstKind (sources : List Segment) : EwfKind := (sources.head?.map Segment.kind).getD .physical

theorem firstKind_eq (sources : List Segment) :
    firstKind sources =
      match (sources.map fun s => (⟨s.number, s.kind⟩ : EwfFileHeader)).head? with
      | some h => h.kind
      | none => .physical := by
  cases sources <;> rfl

/-- The reader of segments whose sections left the state `st`, for a container kind. -/
def OpenState.reader (st : OpenState) (segments : List Segment) (kind : EwfKind) : EwfReader where
  segments := segments
  chunks := .eager st.chunks
  chunkSize := st.chunkSize
  totalSize := mediaSizeFor kind st.totalSize st.chunks.length st.chunkSize
  cacheSize := defaultLruSize
  storedMd5 := st.storedMd5
  storedSha1 := st.storedSha1
  metadata := st.metadata
  acquisitionErrors := st.acquisitionErrors

/-- The front of a padded read. -/
theorem take_readPadded (data : List UInt8) (off : ℕ) {m n : ℕ} (hmn : m ≤ n) :
    (readPadded data off n).take m = readPadded data off m := by
  rw [readPadded, readPadded, readAtMost, readAtMost, List.take_append, List.take_take,
    List.take_replicate, Nat.min_eq_left hmn, List.length_take, List.length_take]
  congr 2
  omega

/-- **A successful eager open**: everything but the container kind depends on the ordered sources
alone. -/
theorem openFromSources_eq_ok_iff {C : Crates} {sources : List Segment} {r : EwfReader} :
    openFromSources C sources = .ok r ↔
      (sources ≠ [] ∧ Numbered sources ∧
        ∀ s ∈ sources, (readPadded s.data 0 fileHeaderSize).take 8 = evfSignature ∨
          (readPadded s.data 0 fileHeaderSize).take 8 = lvfSignature) ∧
      ∃ st, (inOrder sources).zipIdx.foldlM (openSegment C false) {} = .ok st ∧ st.chunkSize ≠ 0 ∧
        r = st.reader (inOrder sources) (firstKind sources) := by
  have hfinish : ∀ (headers : List EwfFileHeader) (st : OpenState),
      headers = sources.map (fun s => ⟨s.number, s.kind⟩) →
      (finishOpen headers (inOrder sources) defaultLruSize none st = .ok r ↔
        st.chunkSize ≠ 0 ∧ r = st.reader (inOrder sources) (firstKind sources)) := by
    rintro headers st rfl
    rw [finishOpen]
    by_cases hz : st.chunkSize = 0
    · rw [if_pos hz]
      exact iff_of_false (fun h => by cases h) (fun h => h.1 hz)
    · rw [if_neg hz]
      constructor
      · intro h
        refine ⟨hz, ?_⟩
        rw [← Except.ok.inj h, firstKind_eq]
        rfl
      · rintro ⟨-, rfl⟩
        rw [firstKind_eq]
        rfl
  rw [openFromSources, openV1_eq_ok_iff]
  constructor
  · rintro ⟨⟨first, rest, rfl, -⟩, headers, ordered, st, hh, ho, hst, hr⟩
    obtain ⟨hsig, hheaders⟩ := parseHeaders_eq_ok_iff.mp hh
    rw [parseHeaders_numbers hh] at ho
    obtain ⟨hnum, rfl⟩ := validateAndReorderSegments_eq_ok_iff.mp ho
    exact ⟨⟨by simp, hnum, hsig⟩, st, hst, (hfinish headers st hheaders).mp hr⟩
  · rintro ⟨⟨hne, hnum, hsig⟩, st, hst, hr⟩
    have hh := parseHeaders_eq_ok_iff.mpr ⟨hsig, rfl⟩
    refine ⟨?_, _, inOrder sources, st, hh, ?_, hst, (hfinish _ st rfl).mpr hr⟩
    · obtain ⟨first, rest, rfl⟩ := List.exists_cons_of_ne_nil hne
      refine ⟨first, rest, rfl, ?_⟩
      rw [← take_readPadded first.data 0 (show 8 ≤ fileHeaderSize by decide)]
      have hv1 : ∀ sig ∈ [evfSignature, lvfSignature],
          ¬ (sig = evf2Signature ∨ sig = lef2Signature) := by decide
      exact hv1 _ (by simpa using hsig first (List.mem_cons_self ..))
    · rw [parseHeaders_numbers hh]
      exact validateAndReorderSegments_eq_ok_iff.mpr ⟨hnum, rfl⟩

/-! ### Two orders -/

section Order

variable {C : Crates} {sources sources' : List Segment} {r r' : EwfReader}

/-- **The same sources in another order** open, too, to the same reader but for the kind. -/
theorem open_of_perm (hperm : sources.Perm sources') (h : openFromSources C sources = .ok r) :
    ∃ st, Declares false (declaredMedia false (inOrder sources)) st ∧
      r = st.reader (inOrder sources) (firstKind sources) ∧
      openFromSources C sources' = .ok (st.reader (inOrder sources) (firstKind sources')) := by
  obtain ⟨⟨hne, hnum, hsig⟩, st, hst, hz, rfl⟩ := openFromSources_eq_ok_iff.mp h
  refine ⟨st, declares_of_foldlM hst, rfl, openFromSources_eq_ok_iff.mpr
    ⟨⟨fun h0 => hne ?_, hnum.of_perm hperm, fun s hs => hsig s (hperm.mem_iff.mpr hs)⟩, st, ?_, hz,
      ?_⟩⟩
  · rw [h0] at hperm
    exact hperm.eq_nil
  · rwa [← hnum.inOrder_eq hperm]
  · rw [← hnum.inOrder_eq hperm]

/-- The media size hangs on the kind unless none is declared, or that of the chunk table is. -/
theorem mediaSizeFor_eq_iff {kind kind' : EwfKind} {declared chunks chunkSize : ℕ} :
    mediaSizeFor kind declared chunks chunkSize = mediaSizeFor kind' declared chunks chunkSize ↔
      kind = kind' ∨ declared = 0 ∨ declared = satMul chunks chunkSize := by
  cases kind with
  | physical =>
      cases kind' with
      | physical => simp
      | logical => by_cases h : declared = 0 <;> simp [mediaSizeFor, h]
  | logical =>
      cases kind' with
      | physical => by_cases h : declared = 0 <;> simp [mediaSizeFor, h, eq_comm]
      | logical => simp

/-- Two readers agree on all that a caller can ask of them. -/
structure SameReader (C : Crates) (r r' : EwfReader) : Prop where
  totalSize : r.totalSize = r'.totalSize
  chunkSize : r.chunkSize = r'.chunkSize
  chunkCount : r.chunks.len = r'.chunks.len
  storedMd5 : r.storedMd5 = r'.storedMd5
  storedSha1 : r.storedSha1 = r'.storedSha1
  metadata : r.metadata = r'.metadata
  acquisitionErrors : r.acquisitionErrors = r'.acquisitionErrors
  readAt : ∀ st st', r.Accessed C st → r'.Accessed C st' → ∀ off len,
    (r.readAt C st off len).1 = (r'.readAt C st' off len).1

theorem SameReader.refl (C : Crates) (r : EwfReader) : SameReader C r r := by
  refine ⟨rfl, rfl, rfl, rfl, rfl, rfl, rfl, fun st st' hst hst' off len => ?_⟩
  rw [(r.readAt_eq_read C hst.coherent off len).1, (r.readAt_eq_read C hst'.coherent off len).1]

/-- **The order of the sources.** It never decides whether an open succeeds. The two readers agree
if and only if the first sources are of one kind, or the last volume declares no media size, or
that of the chunk table. -/
theorem source_order_iff (C : Crates) {sources sources' : List Segment}
    (hperm : sources.Perm sources') :
    ((∃ r, openFromSources C sources = .ok r) ↔ ∃ r', openFromSources C sources' = .ok r') ∧
      ∀ r r', openFromSources C sources = .ok r → openFromSources C sources' = .ok r' →
        (SameReader C r r' ↔ firstKind sources = firstKind sources' ∨
          (declaredMedia false (inOrder sources)).size = 0 ∨
          (declaredMedia false (inOrder sources)).size =
            (declaredMedia false (inOrder sources)).tableSize) := by
  constructor
  · constructor
    · rintro ⟨r, hr⟩
      obtain ⟨st, -, -, hr'⟩ := open_of_perm hperm hr
      exact ⟨_, hr'⟩
    · rintro ⟨r', hr'⟩
      obtain ⟨st, -, -, hr⟩ := open_of_perm hperm.symm hr'
      exact ⟨_, hr⟩
  · intro r r' hr hr'
    obtain ⟨st, hdecl, rfl, hother⟩ := open_of_perm hperm hr
    obtain rfl := Except.ok.inj (hr'.symm.trans hother)
    have hsizes : mediaSizeFor (firstKind sources) st.totalSize st.chunks.length st.chunkSize =
        mediaSizeFor (firstKind sources') st.totalSize st.chunks.length st.chunkSize ↔
          firstKind sources = firstKind sources' ∨
            (declaredMedia false (inOrder sources)).size = 0 ∨
            (declaredMedia false (inOrder sources)).size =
              (declaredMedia false (inOrder sources)).tableSize := by
      rw [DeclaredMedia.tableSize, ← hdecl.totalSize, ← hdecl.chunkCount, ← hdecl.chunkSize]
      exact mediaSizeFor_eq_iff
    rw [← hsizes]
    constructor
    · exact fun h => h.totalSize
    · intro h
      have hsame : st.reader (inOrder sources) (firstKind sources) =
          st.reader (inOrder sources) (firstKind sources') := by
        rw [OpenState.reader, h]
        rfl
      rw [hsame]
      exact SameReader.refl C _

end Order

/-- The first segment of an EVF image: a volume that declares two sectors. -/
def physicalPart : Segment :=
  ⟨Image.encodeSegment 1 [⟨.volume, Image.volumeFront 1 1 1 512 2 ++ List.replicate 70 0⟩] .done 0,
    by decide +kernel⟩

/-- A second segment of the same image, with no section. -/
def emptyPart : Segment := ⟨evfSignature ++ [1, 2, 0, 0, 0], by decide⟩

/-- A second segment under the signature of a logical image. -/
def logicalPart : Segment := ⟨lvfSignature ++ [1, 2, 0, 0, 0], by decide⟩

/-- The readers of two sources in both orders. -/
def bothOrders (a b : Segment) : Option (EwfReader × EwfReader) :=
  match openFromSources Crates.reference [a, b], openFromSources Crates.reference [b, a] with
  | .ok r, .ok r' => some (r, r')
  | _, _ => none

theorem bothOrders_eq_some {a b : Segment} {r r' : EwfReader}
    (h : bothOrders a b = some (r, r')) :
    openFromSources Crates.reference [a, b] = .ok r ∧
      openFromSources Crates.reference [b, a] = .ok r' := by
  rw [bothOrders] at h
  split at h
  · next hr hr' =>
      obtain ⟨rfl, rfl⟩ := Prod.mk.inj (Option.some.inj h)
      exact ⟨hr, hr'⟩
  · cases h

theorem source_order_iff_emptyPart :
    ∃ r r', openFromSources Crates.reference [physicalPart, emptyPart] = .ok r ∧
      openFromSources Crates.reference [emptyPart, physicalPart] = .ok r' ∧
      SameReader Crates.reference r r' := by
  have hsome : (bothOrders physicalPart emptyPart).isSome = true := by decide +kernel
  obtain ⟨⟨r, r'⟩, h⟩ := Option.isSome_iff_exists.mp hsome
  obtain ⟨hr, hr'⟩ := bothOrders_eq_some h
  have hiff := (source_order_iff Crates.reference
    (List.Perm.swap emptyPart physicalPart [])).2 r r' hr hr'
  exact ⟨r, r', hr, hr', hiff.mpr (Or.inl (by decide))⟩

/-- Of an EVF and an LVF segment, the one that is supplied first decides the media size. -/
theorem order_of_kinds_matters :
    [physicalPart, logicalPart].Perm [logicalPart, physicalPart] ∧
      ∃ r r', openFromSources Crates.reference [physicalPart, logicalPart] = .ok r ∧
        openFromSources Crates.reference [logicalPart, physicalPart] = .ok r' ∧
        r.totalSize = 1024 ∧ r'.totalSize = 0 ∧ ¬ SameReader Crates.reference r r' := by
  have hval : (bothOrders physicalPart logicalPart).map (fun p => (p.1.totalSize, p.2.totalSize)) =
      some (1024, 0) := by decide +kernel
  obtain ⟨⟨r, r'⟩, h, hsizes⟩ := Option.map_eq_some_iff.mp hval
  obtain ⟨hr, hr'⟩ := bothOrders_eq_some h
  obtain ⟨hsize, hsize'⟩ := Prod.mk.inj hsizes
  refine ⟨List.Perm.swap .., r, r', hr, hr', hsize, hsize', fun hsame => ?_⟩
  exact absurd (hsize.symm.trans (hsame.totalSize.trans hsize')) (by decide)

end EwfForensic

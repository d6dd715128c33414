import EwfForensic.Image.Layout

/-!
# Parsing a Written Table

What `parse_table_section` makes of the entries that a pair's table holds: one chunk for each
stored chunk, in order, at its offset, with its flag, and large enough to read it
(`chunksFor_parseTableSection`).

The two size rules only ever shorten a compressed chunk, the first one to exactly its stored
length, the second one to the end of the sectors section. That the second never cuts a chunk
short is the hypothesis `Bounded`.
-/

namespace EwfForensic.Image

open Octets

/-! ### Entries -/

/-- What is parsed from the entry of a located chunk. -/
def parsedEntry (base : ℕ) (q : ℕ × Stored) : TableEntry := ⟨q.2.compressed, q.1 - base⟩

theorem ofNat_entryOf {base : ℕ} {q : ℕ × Stored} (h : q.1 - base < 2147483648) :
    TableEntry.ofNat (entryOf base q) = parsedEntry base q := by
  rw [entryOf, parsedEntry, TableEntry.ofNat]
  cases q.2.compressed with
  | false =>
      simp only [Bool.false_eq_true, if_false, Nat.add_zero, TableEntry.mk.injEq]
      exact ⟨by rw [Nat.div_eq_of_lt h]; rfl, Nat.mod_eq_of_lt h⟩
  | true =>
      simp only [if_true, TableEntry.mk.injEq, decide_eq_true_eq]
      omega

theorem entryOf_lt {base : ℕ} {q : ℕ × Stored} (h : q.1 - base < 2147483648) :
    entryOf base q < 4294967296 := by
  rw [entryOf]
  split_ifs <;> omega

/-- The entries of a row of 4-byte numbers. -/
theorem tableEntries_flatMap {entries : List ℕ} (h : ∀ e ∈ entries, e < 4294967296)
    (hlen : 4 * entries.length ≤ u64Max) :
    tableEntries (entries.flatMap (toLE 4)) entries.length = entries.map TableEntry.ofNat := by
  have hat := hasAt_self (entries.flatMap (toLE 4))
  have hle : (entries.flatMap (toLE 4)).length ≤ u64Max := by
    rw [length_entries]
    exact hlen
  apply List.ext_getElem?
  intro i
  rw [tableEntries, List.getElem?_map, List.getElem?_map]
  by_cases hi : i < entries.length
  · have he := List.getElem?_eq_getElem hi
    have hread := (hasAt_entry hat he).leAt hle (h _ (List.getElem_mem hi))
    rw [Nat.zero_add] at hread
    rw [List.getElem?_range hi, he, Option.map_some, Option.map_some, leU32, hread]
  · rw [List.getElem?_eq_none (by simpa using hi), List.getElem?_eq_none (by omega)]
    rfl

/-! ### Chunks -/

/-- A chunk of the reader's table that reads back a located chunk. -/
structure ChunkFor (segIdx chunkSize : ℕ) (q : ℕ × Stored) (c : Chunk) : Prop where
  segmentIdx_eq : c.segmentIdx = segIdx
  compressed_eq : c.compressed = q.2.compressed
  offset_eq : c.offset = q.1
  size_raw : q.2.compressed = false → c.size = chunkSize
  size_zlib : q.2.compressed = true → q.2.bytes.length ≤ c.size

/-- Changing the last chunk keeps a row of chunks that reads back a row of located ones, if
the change keeps what the last one reads back. -/
theorem forall₂_modifyLast {α β : Type} {R : α → β → Prop} {f : β → β} {as : List α} {bs : List β}
    (h : List.Forall₂ R as bs) (hf : ∀ a b, as.getLast? = some a → R a b → R a (f b)) :
    List.Forall₂ R as (modifyLast f bs) := by
  induction h with
  | nil => exact List.Forall₂.nil
  | @cons a b as bs hab hrest ih =>
      cases hrest with
      | nil => exact List.Forall₂.cons (hf a b rfl hab) List.Forall₂.nil
      | @cons a' b' as' bs' hab' hrest' =>
          refine List.Forall₂.cons hab (ih fun x y hx hxy => hf x y ?_ hxy)
          rw [List.getLast?_cons_cons]
          exact hx

section Parse

variable {segIdx chunkSize base : ℕ}

/-- Within-section back-fill gives a compressed chunk its stored length. -/
theorem ChunkFor.backfillPrevious {q : ℕ × Stored} {c : Chunk} (h : ChunkFor segIdx chunkSize q c)
    (hz : q.2.compressed = true → q.2.bytes.length < chunkSize) (hcs : chunkSize < 4294967296)
    {next : ℕ} (hnext : q.1 + q.2.bytes.length = next) :
    ChunkFor segIdx chunkSize q (EwfForensic.backfillPrevious (next - q.1) c) := by
  rw [EwfForensic.backfillPrevious]
  split_ifs with hc
  · have hq : q.2.compressed = true := h.compressed_eq ▸ hc.1
    have hlen := hz hq
    refine ⟨h.segmentIdx_eq, h.compressed_eq, h.offset_eq, fun hr => ?_, fun _ => ?_⟩
    · rw [hq] at hr
      cases hr
    · simp only [Chunk.setSize]
      omega
  · exact h

/-- Last-chunk back-fill does not cut a chunk short that ends with the sectors section or
before it. -/
theorem ChunkFor.backfillLast {q : ℕ × Stored} {c : Chunk} (h : ChunkFor segIdx chunkSize q c)
    (hcs : chunkSize < 4294967296) {stop : ℕ}
    (hstop : stop ≤ q.1 ∨ q.1 + q.2.bytes.length ≤ stop) :
    ChunkFor segIdx chunkSize q (EwfForensic.backfillLast chunkSize stop c) := by
  rw [EwfForensic.backfillLast]
  split_ifs with hc
  · obtain ⟨hcomp, -, hpos, hlt⟩ := hc
    have hq : q.2.compressed = true := h.compressed_eq ▸ hcomp
    rw [h.offset_eq] at hpos hlt ⊢
    refine ⟨h.segmentIdx_eq, h.compressed_eq, h.offset_eq, fun hr => ?_, fun _ => ?_⟩
    · rw [hq] at hr
      cases hr
    · simp only [Chunk.setSize]
      omega
  · exact h

/-- A chunk as `Chunk::new` makes it reads back its located chunk. -/
theorem chunkFor_new {q : ℕ × Stored} (hseg : segIdx < 4294967296) (hcs : chunkSize < 4294967296)
    (hoff : q.1 < 9223372036854775808)
    (hz : q.2.compressed = true → q.2.bytes.length < chunkSize) :
    ChunkFor segIdx chunkSize q (Chunk.new segIdx q.2.compressed q.1 chunkSize) where
  segmentIdx_eq := Nat.mod_eq_of_lt hseg
  compressed_eq := rfl
  offset_eq := Nat.mod_eq_of_lt hoff
  size_raw _ := Nat.mod_eq_of_lt hcs
  size_zlib hq := by
    have := hz hq
    simp only [Chunk.new, Nat.mod_eq_of_lt hcs]
    omega

/-- The parser's loop over the entries of chunks that follow those of `done`. The induction
is on these chunks; `prev` is where the last one of `done` starts, and it ends at `pos`. -/
theorem foldl_pushEntry (hseg : segIdx < 4294967296) (hcs : chunkSize < 4294967296)
    {chunks : List Stored} (hz : ∀ c ∈ chunks, c.compressed = true → c.bytes.length < chunkSize)
    {pos : ℕ} (hloc : ∀ q ∈ locate pos chunks, base ≤ q.1 ∧ q.1 < 9223372036854775808)
    {done : List (ℕ × Stored)} {acc : List Chunk} {prev : Option ℕ}
    (hacc : List.Forall₂ (ChunkFor segIdx chunkSize) done acc)
    (hprev : prev = done.getLast?.map (·.1))
    (hend : ∀ q, done.getLast? = some q → q.1 + q.2.bytes.length = pos ∧
      (q.2.compressed = true → q.2.bytes.length < chunkSize)) :
    List.Forall₂ (ChunkFor segIdx chunkSize) (done ++ locate pos chunks)
      (((locate pos chunks).map (parsedEntry base)).foldl (pushEntry base segIdx chunkSize)
        (acc, prev)).1 := by
  induction chunks generalizing pos done acc prev with
  | nil => simpa [locate] using hacc
  | cons c chunks ih =>
      obtain ⟨hb, ho⟩ := hloc (pos, c) (List.mem_cons_self ..)
      have hzc := hz c (List.mem_cons_self ..)
      have habs : pos - base + base = pos := Nat.sub_add_cancel hb
      have hnew : ChunkFor segIdx chunkSize (pos, c)
          (Chunk.new segIdx c.compressed pos chunkSize) :=
        chunkFor_new hseg hcs ho hzc
      -- The chunks so far, after the back-fill of the last one.
      obtain ⟨filled, hfilled, hstep⟩ : ∃ filled,
          List.Forall₂ (ChunkFor segIdx chunkSize) done filled ∧
            pushEntry base segIdx chunkSize (acc, prev) (parsedEntry base (pos, c)) =
              (filled ++ [Chunk.new segIdx c.compressed pos chunkSize], some pos) := by
        have hno : ¬ pos > u64Max := by
          rw [u64Max]
          omega
        rw [pushEntry, parsedEntry]
        simp only [habs, if_neg hno]
        cases hl : done.getLast? with
        | none =>
            rw [hl, Option.map_none] at hprev
            subst hprev
            exact ⟨acc, hacc, rfl⟩
        | some q =>
            rw [hl, Option.map_some] at hprev
            subst hprev
            refine ⟨_, forall₂_modifyLast hacc fun a b ha hab => ?_, rfl⟩
            obtain rfl : q = a := Option.some.inj (hl.symm.trans ha)
            obtain ⟨h1, h2⟩ := hend q hl
            exact hab.backfillPrevious h2 hcs h1
      have hrest := @ih (fun c' hc' => hz c' (List.mem_cons_of_mem _ hc')) (pos + c.bytes.length)
        (fun q hq => hloc q (List.mem_cons_of_mem _ hq)) (done ++ [(pos, c)])
        (filled ++ [Chunk.new segIdx c.compressed pos chunkSize]) (some pos)
        (List.rel_append hfilled (List.Forall₂.cons hnew List.Forall₂.nil)) (by simp)
        (fun q hq => by
          rw [List.getLast?_concat] at hq
          obtain rfl := Option.some.inj hq
          exact ⟨rfl, hzc⟩)
      rw [locate, List.map_cons, List.foldl_cons, hstep]
      simpa using hrest

end Parse

/-- The end of the first sectors section does not cut the last chunk of a pair short: the
section is the pair's own, or stands before its chunks. -/
def Bounded (located : List (ℕ × Stored)) (sectorsEnd : Option ℕ) : Prop :=
  ∀ stop, sectorsEnd = some stop → ∀ q ∈ located, stop ≤ q.1 ∨ q.1 + q.2.bytes.length ≤ stop

/-- **A written table is parsed back** into one chunk for each stored chunk. -/
theorem chunksFor_parseTableSection {segIdx chunkSize : ℕ} {p : Pair} {pos : ℕ}
    {sectorsEnd : Option ℕ} (hseg : segIdx < 4294967296) (hcs : chunkSize < 4294967296)
    (hcount : 4 * p.chunks.length ≤ u64Max)
    (hz : ∀ c ∈ p.chunks, c.compressed = true → c.bytes.length < chunkSize)
    (hloc : ∀ q ∈ p.located pos, p.base ≤ q.1 ∧ q.1 - p.base < 2147483648 ∧
      q.1 < 9223372036854775808)
    (hb : Bounded (p.located pos) sectorsEnd) :
    List.Forall₂ (ChunkFor segIdx chunkSize) (p.located pos)
      (parseTableSection ((p.entries pos).flatMap (toLE 4)) p.chunks.length p.base segIdx chunkSize
        sectorsEnd) := by
  have hentries : tableEntries ((p.entries pos).flatMap (toLE 4)) p.chunks.length =
      (p.located pos).map (parsedEntry p.base) := by
    have hlt : ∀ e ∈ p.entries pos, e < 4294967296 := by
      intro e he
      obtain ⟨q, hq, rfl⟩ := List.mem_map.mp he
      exact entryOf_lt (hloc q hq).2.1
    have := tableEntries_flatMap hlt (by rw [p.length_entries]; exact hcount)
    rw [p.length_entries] at this
    rw [this, Pair.entries, List.map_map]
    exact List.map_congr_left fun q hq => ofNat_entryOf (hloc q hq).2.1
  have hcountEq : min p.chunks.length (((p.entries pos).flatMap (toLE 4)).length / 4) =
      p.chunks.length := by
    rw [length_entries, p.length_entries]
    omega
  have hfold := @foldl_pushEntry segIdx chunkSize p.base hseg hcs p.chunks hz (p.dataStart pos)
    (fun q hq => ⟨(hloc q hq).1, (hloc q hq).2.2⟩) [] [] none List.Forall₂.nil rfl (by simp)
  unfold parseTableSection
  simp only [hcountEq, hentries]
  cases hs : sectorsEnd with
  | none => exact hfold
  | some stop =>
      refine forall₂_modifyLast hfold fun q c hq hqc => ?_
      exact hqc.backfillLast hcs (hb stop hs q (List.mem_of_getLast? hq))

end EwfForensic.Image

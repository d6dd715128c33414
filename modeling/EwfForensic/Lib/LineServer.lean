import EwfForensic.Lib.Utf8
import Mathlib.Data.List.Forall2
import Mathlib.Data.List.TakeWhile
import Mathlib.Tactic.SplitIfs

/-!
# Servers That Read Lines

A program that reads requests from its input, one on a line, and writes an answer to each on a line
of its output. The rules take what one request comes to and give what a whole run comes to.

* `readLines`, `writeLines` — the lines of a stream of bytes, up to the first that is no text.
  `readLines_writeLines` is the round trip.
* `serve` — the loop: a request changes a state, and is answered, passed over or the end of the
  program.
* `serve_append` — a run goes on where its first part ends.
* `serve_relates` — a relation between states that every request keeps up holds over a run.
* `serve_answers` — the answers are those to the requests that expect one, in their order.
* `serve_crashed_iff` — when a run ends early.
-/

namespace LineServer

/-! ### Lines -/

/-- What stands in front of each line feed, and what stands behind the last one, if anything does.
The flag says whether a line feed ends the line. -/
def splitLines : List UInt8 → List (List UInt8 × Bool)
  | [] => []
  | b :: rest =>
    if b = 10 then ([], true) :: splitLines rest
    else
      match splitLines rest with
      | [] => [([b], false)]
      | (line, ended) :: more => (b :: line, ended) :: more

/-- A line without the carriage return in front of its line feed. -/
def lineBytes (p : List UInt8 × Bool) : List UInt8 :=
  if p.2 ∧ p.1.getLast? = some 13 then p.1.dropLast else p.1

/-- The lines of a stream, up to the first that is no text. -/
def readLines (bytes : List UInt8) : List (List Char) :=
  ((splitLines bytes).takeWhile fun p => (Utf8.toStr p.1).isSome).map fun p =>
    Utf8.charsLossy (lineBytes p)

/-- The bytes of a text. -/
def encode (text : List Char) : List UInt8 := text.flatMap String.utf8EncodeChar

/-- Lines as a stream. -/
def writeLines (lines : List (List Char)) : List UInt8 :=
  lines.flatMap fun line => encode line ++ [10]

theorem splitLines_append {line : List UInt8} (h : 10 ∉ line) (rest : List UInt8) :
    splitLines (line ++ 10 :: rest) = (line, true) :: splitLines rest := by
  induction line with
  | nil => rw [List.nil_append, splitLines, if_pos rfl]
  | cons b line ih =>
      obtain ⟨hb, hline⟩ := not_or.mp (fun hmem => h (List.mem_cons.mpr hmem))
      rw [List.cons_append, splitLines, if_neg (Ne.symm hb), ih hline]

/-- An ASCII byte is a character of its own. -/
theorem toNat_of_mem_utf8EncodeChar {c : Char} {b : UInt8} (h : b ∈ String.utf8EncodeChar c)
    (hb : b.toNat < 0x80) : c.toNat = b.toNat := by
  have hv : c.val.toNat = c.toNat := rfl
  have hbyte : ∀ {n : ℕ}, n < 256 → (UInt8.ofNat n).toNat = n := fun h =>
    UInt8.toNat_ofNat_of_lt' h
  have hhigh : ∀ {n : ℕ}, 0x80 ≤ n → n < 256 → b ≠ UInt8.ofNat n := by
    rintro n hn hlt rfl
    rw [hbyte hlt] at hb
    omega
  rw [String.utf8EncodeChar] at h
  simp only [hv] at h
  split_ifs at h with h1 h2 h3
  · obtain rfl := List.mem_singleton.mp h
    rw [hbyte (by omega)]
  all_goals
    simp only [List.mem_cons, List.not_mem_nil, or_false] at h
    grind

theorem mem_of_mem_encode {text : List Char} {b : UInt8} (h : b ∈ encode text)
    (hb : b.toNat < 0x80) : Char.ofNat b.toNat ∈ text := by
  obtain ⟨c, hc, hmem⟩ := List.mem_flatMap.mp h
  rw [← toNat_of_mem_utf8EncodeChar hmem hb, Char.ofNat_toNat]
  exact hc

theorem getLast?_of_getLast?_encode {text : List Char} {b : UInt8}
    (h : (encode text).getLast? = some b) (hb : b.toNat < 0x80) :
    text.getLast? = some (Char.ofNat b.toNat) := by
  rcases List.eq_nil_or_concat text with rfl | ⟨front, c, rfl⟩
  · cases h
  · rw [List.concat_eq_append, encode, List.flatMap_append, List.flatMap_singleton] at h
    rw [List.concat_eq_append, List.getLast?_append, List.getLast?_singleton, Option.some_or]
    have hmem : b ∈ String.utf8EncodeChar c := by
      cases hlast : (String.utf8EncodeChar c).getLast? with
      | none => exact absurd (List.getLast?_eq_none_iff.mp hlast) String.utf8EncodeChar_ne_nil
      | some last =>
          rw [List.getLast?_append, hlast, Option.some_or] at h
          obtain rfl := Option.some.inj h
          exact List.mem_of_getLast? hlast
    rw [← toNat_of_mem_utf8EncodeChar hmem hb, Char.ofNat_toNat]

/-- A text is text. -/
theorem isSome_toStr_encode (text : List Char) : (Utf8.toStr (encode text)).isSome := by
  have hlen : text.length ≤ (encode text).length := by
    rw [encode, List.length_flatMap]
    induction text with
    | nil => exact Nat.le_refl _
    | cons c text ih =>
        rw [List.map_cons, List.sum_cons, List.length_cons]
        have hpos := List.length_pos_iff.mpr (@String.utf8EncodeChar_ne_nil c)
        omega
  rw [Utf8.toStr, Utf8.chunks, encode] at *
  rw [Utf8.chunksFrom_flatMap hlen, List.all_map, if_pos]
  · rfl
  · exact List.all_eq_true.mpr fun _ _ => rfl

/-- **Lines are read back.** -/
theorem readLines_writeLines {lines : List (List Char)}
    (h : ∀ line ∈ lines, '\n' ∉ line ∧ line.getLast? ≠ some '\r') :
    readLines (writeLines lines) = lines := by
  have hsplit : splitLines (writeLines lines) = lines.map fun line => (encode line, true) := by
    induction lines with
    | nil => rfl
    | cons line lines ih =>
        obtain ⟨⟨hline, -⟩, hlines⟩ := List.forall_mem_cons.mp h
        have hbreak : (10 : UInt8) ∉ encode line := fun hmem =>
          hline (mem_of_mem_encode hmem (by decide))
        rw [writeLines, List.flatMap_cons, List.append_assoc, List.singleton_append,
          splitLines_append hbreak, List.map_cons]
        exact congrArg _ (ih hlines)
  have hall : ∀ line ∈ lines,
      ((fun p : List UInt8 × Bool => (Utf8.toStr p.1).isSome) ∘ fun line => (encode line, true))
        line = true := fun line _ => isSome_toStr_encode line
  rw [readLines, hsplit, List.takeWhile_map, List.takeWhile_eq_self_iff.mpr hall, List.map_map]
  refine (List.map_congr_left fun line hmem => ?_).trans (List.map_id lines)
  have hreturn : ¬ (true = true ∧ (encode line).getLast? = some 13) := fun ⟨_, hlast⟩ =>
    (h line hmem).2 (getLast?_of_getLast?_encode hlast (by decide))
  rw [Function.comp, lineBytes, if_neg hreturn, encode, Utf8.charsLossy_flatMap]
  rfl

/-! ### The loop -/

/-- What a request comes to. -/
inductive Outcome (β : Type*) where
  | silent
  | answer (b : β)
  | crash

/-- An outcome with its answer written in another way. -/
def Outcome.map {β γ : Type*} (f : β → γ) : Outcome β → Outcome γ
  | .silent => .silent
  | .answer b => .answer (f b)
  | .crash => .crash

@[simp] theorem Outcome.map_eq_crash_iff {β γ : Type*} {f : β → γ} {o : Outcome β} :
    o.map f = .crash ↔ o = .crash := by
  cases o <;> simp [Outcome.map]

/-- What a run leaves behind. -/
structure Session (σ β : Type*) where
  state : σ
  out : List β
  crashed : Bool

/-- A run behind an answer. -/
def Session.behind {σ β : Type*} (r : Session σ β) (bs : List β) : Session σ β :=
  { r with out := bs ++ r.out }

/-- The loop over the requests. -/
def serve {σ α β : Type*} (handle : σ → α → σ × Outcome β) : σ → List α → Session σ β
  | s, [] => ⟨s, [], false⟩
  | s, a :: as =>
    match (handle s a).2 with
    | .crash => ⟨(handle s a).1, [], true⟩
    | .silent => serve handle (handle s a).1 as
    | .answer b => (serve handle (handle s a).1 as).behind [b]

/-- An outcome is what is expected of a request: an answer, or none. A crash is unexpected. -/
inductive Meets {ι β : Type*} (Q : ι → β → Prop) : Option ι → Outcome β → Prop
  | silent : Meets Q none .silent
  | answer {i : ι} {b : β} (h : Q i b) : Meets Q (some i) (.answer b)
  | crash (i : Option ι) : Meets Q i .crash

section Rules

variable {σ α β ι ν : Type*} {handle : σ → α → σ × Outcome β} {s : σ} {as : List α}

/-- **A run goes on** where its first part ends. -/
theorem serve_append (h : (serve handle s as).crashed = false) (bs : List α) :
    serve handle s (as ++ bs) =
      (serve handle (serve handle s as).state bs).behind (serve handle s as).out := by
  induction as generalizing s with
  | nil => rfl
  | cons a as ih =>
      rw [serve] at h
      rw [List.cons_append, serve, serve]
      cases hout : (handle s a).2 with
      | silent =>
          rw [hout] at h
          exact ih h
      | answer b =>
          rw [hout] at h
          exact congrArg (Session.behind · [b]) (ih h)
      | crash =>
          rw [hout] at h
          cases h

/-- One request that comes to the same in two states is answered alike. -/
theorem serve_one_congr {s' : σ} {a : α} (h : (handle s' a).2 = (handle s a).2) :
    (serve handle s' [a]).out = (serve handle s [a]).out := by
  simp only [serve, h]
  cases (handle s a).2 <;> rfl

/-- **A relation between states** that every request keeps up, with the names of what it touches,
holds over a run. -/
theorem serve_relates {R : σ → σ → List ν → Prop} {touched : α → List ν} (hrefl : ∀ s, R s s [])
    (htrans : ∀ {s s' s'' ns ns'}, R s s' ns → R s' s'' ns' → R s s'' (ns ++ ns'))
    (hmono : ∀ {s s' ns ns'}, R s s' ns → ns ⊆ ns' → R s s' ns')
    (hstep : ∀ s a, R s (handle s a).1 (touched a)) (s : σ) (as : List α) :
    R s (serve handle s as).state (as.flatMap touched) := by
  induction as generalizing s with
  | nil => exact hrefl s
  | cons a as ih =>
      have hall := htrans (hstep s a) (ih (handle s a).1)
      rw [serve, List.flatMap_cons]
      cases (handle s a).2 with
      | silent => exact hall
      | answer b => exact hall
      | crash => exact hmono (hstep s a) (List.subset_append_left _ _)

/-- **The answers** are those to the requests that expect one, in their order, up to the request
that ends the run. -/
theorem serve_answers {expected : α → Option ι} {Q : ι → β → Prop}
    (hstep : ∀ s a, Meets Q (expected a) (handle s a).2) (s : σ) (as : List α) :
    ∃ n ≤ as.length, ((serve handle s as).crashed = false → n = as.length) ∧
      List.Forall₂ Q ((as.take n).filterMap expected) (serve handle s as).out := by
  induction as generalizing s with
  | nil => exact ⟨0, Nat.le_refl _, fun _ => rfl, .nil⟩
  | cons a as ih =>
      obtain ⟨n, hn, hend, hall⟩ := ih (handle s a).1
      have hmeets := hstep s a
      rw [serve]
      cases hout : (handle s a).2 with
      | silent =>
          rw [hout] at hmeets
          refine ⟨n + 1, Nat.succ_le_succ hn, fun h => congrArg _ (hend h), ?_⟩
          rw [List.take_succ_cons, List.filterMap_cons]
          cases hexp : expected a with
          | none => exact hall
          | some i =>
              rw [hexp] at hmeets
              cases hmeets
      | answer b =>
          rw [hout] at hmeets
          refine ⟨n + 1, Nat.succ_le_succ hn, fun h => congrArg _ (hend h), ?_⟩
          rw [List.take_succ_cons, List.filterMap_cons]
          cases hexp : expected a with
          | none =>
              rw [hexp] at hmeets
              cases hmeets
          | some i =>
              rw [hexp] at hmeets
              cases hmeets with
              | answer h => exact .cons h hall
      | crash => exact ⟨0, Nat.zero_le _, nofun, .nil⟩

/-- **A run ends early** exactly when one of the requests ends it, if the state has no part in
that. -/
theorem serve_crashed_iff {Bad : α → Prop}
    (hstep : ∀ s a, (handle s a).2 = .crash ↔ Bad a) (s : σ) (as : List α) :
    (serve handle s as).crashed = true ↔ ∃ a ∈ as, Bad a := by
  induction as generalizing s with
  | nil => simp [serve]
  | cons a as ih =>
      have hbad := hstep s a
      rw [serve, List.exists_mem_cons_iff, ← hbad]
      cases (handle s a).2 with
      | silent => simp [ih]
      | answer b => simp [Session.behind, ih]
      | crash => simp

end Rules

end LineServer

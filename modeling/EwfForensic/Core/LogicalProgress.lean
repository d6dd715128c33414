import EwfForensic.Core.Logical

/-!
# Progress of the Logical Tree Parser

The calls of `parse_one` that `parse_entry_tree` makes. A call that finds a line moves the cursor
forward; behind the last line it does not, and the loops over declared counts go on all the same.

* `callsOf`, `parseEntryTreeCalls` — the calls in order, each with the cursor before and after it.
* `unserved` — how many of the declared entries no line is left for.
* `Served` — what a run of calls does to the cursor and to the count of entries still to serve.
* `progress_iff` — every call moves the cursor forward exactly when the lines serve all declared
  entries; then there are no more calls than lines.
-/

namespace EwfForensic

/-! ### The calls -/

/-- The calls that a call of `parse_one` makes, itself first. -/
def callsOf (lines indicators : List (List Char)) :
    ℕ → Option ℕ → ℕ × LogicalTree → List (ℕ × ℕ)
  | 0, _, _ => []
  | fuel + 1, parent, (i, tree) =>
    (i, (parseOne lines indicators (fuel + 1) parent (i, tree)).1) ::
      match lines[i]? with
      | none => []
      | some counts =>
        match lines[i + 1]? with
        | none => []
        | some valuesLine =>
          let parent' := some tree.entries.length
          let start := (i + 2, pushLogicalEntry indicators i valuesLine parent tree)
          (List.range ((subCount counts).getD 0)).flatMap fun j =>
            callsOf lines indicators fuel parent'
              ((parseOne lines indicators fuel parent')^[j] start)

/-- The calls that `parse_entry_tree` makes: those of the loop over the root's sub-count, and none
where it ends in an error before that. -/
def parseEntryTreeCalls (text : List Char) : List (ℕ × ℕ) :=
  let lines := ltreeLines text
  match lines.idxOf? entryLine with
  | none => []
  | some cat =>
    match lines[cat + 2]? with
    | none => []
    | some row =>
      let indicators := row.splitOn '\t'
      match (lines[cat + 3]?).bind subCount with
      | none => []
      | some rootSubs =>
        (List.range rootSubs).flatMap fun j =>
          callsOf lines indicators (lines.length + 1) none
            ((parseOne lines indicators (lines.length + 1) none)^[j]
              (cat + 5, { indicators := indicators }))

/-! ### The entries that the lines serve -/

/-- Of `owed` declared entries and of those that these declare below them, how many are left when
the lines run out. Each entry takes two lines, or the last line alone. -/
def unserved : ℕ → List (List Char) → ℕ
  | 0, _ => 0
  | owed + 1, [] => owed + 1
  | owed + 1, [_] => owed
  | owed + 1, counts :: _ :: rest => unserved (owed + (subCount counts).getD 0) rest

/-- The lines serve every entry that the root and the counts declare. -/
def CountsServed (text : List Char) : Prop :=
  ∀ cat rootSubs, (ltreeLines text).idxOf? entryLine = some cat →
    (((ltreeLines text)[cat + 3]?).bind subCount) = some rootSubs →
    unserved rootSubs ((ltreeLines text).drop (cat + 5)) = 0

/-- Every call moves the cursor forward. -/
def Forward (calls : List (ℕ × ℕ)) : Prop := ∀ call ∈ calls, call.1 < call.2

instance (calls : List (ℕ × ℕ)) : Decidable (Forward calls) :=
  inferInstanceAs (Decidable (∀ call ∈ calls, call.1 < call.2))

theorem forward_append {xs ys : List (ℕ × ℕ)} :
    Forward (xs ++ ys) ↔ Forward xs ∧ Forward ys := by
  simp only [Forward, List.forall_mem_append]

theorem forward_cons {call : ℕ × ℕ} {calls : List (ℕ × ℕ)} :
    Forward (call :: calls) ↔ call.1 < call.2 ∧ Forward calls := by
  simp only [Forward, List.forall_mem_cons]

@[simp] theorem unserved_nil (owed : ℕ) : unserved owed [] = owed := by
  cases owed <;> rfl

/-! ### A run of calls -/

/-- The calls `calls` serve `owed` entries and all below them, from line `i` to line `c`. If they
all move forward, then what is owed beyond them is left to the lines from `c` on, and there are no
more calls than lines between. If one does not, then the lines do not serve all. -/
structure Served (lines : List (List Char)) (owed i c : ℕ) (calls : List (ℕ × ℕ)) : Prop where
  le : i ≤ c
  le_max : c ≤ max i lines.length
  rest : Forward calls → ∀ k, unserved (owed + k) (lines.drop i) = unserved k (lines.drop c)
  length_le : Forward calls → calls.length ≤ c - i
  stuck : ¬ Forward calls → ∀ k, 0 < unserved (owed + k) (lines.drop i)

section Run

variable {lines indicators : List (List Char)}

theorem Served.none (i : ℕ) : Served lines 0 i i [] where
  le := le_rfl
  le_max := le_max_left _ _
  rest _ k := by rw [Nat.zero_add]
  length_le _ := Nat.zero_le _
  stuck h := absurd (by simp [Forward]) h

/-- Two runs of calls, one after the other. -/
theorem Served.append {owed owed' i c e : ℕ} {xs ys : List (ℕ × ℕ)}
    (h : Served lines owed i c xs) (h' : Served lines owed' c e ys) :
    Served lines (owed + owed') i e (xs ++ ys) where
  le := h.le.trans h'.le
  le_max := by
    have h1 := h.le_max
    have h2 := h'.le_max
    omega
  rest hf k := by
    obtain ⟨hx, hy⟩ := forward_append.mp hf
    rw [Nat.add_assoc, h.rest hx, h'.rest hy]
  length_le hf := by
    obtain ⟨hx, hy⟩ := forward_append.mp hf
    have h1 := h.length_le hx
    have h2 := h'.length_le hy
    have h3 := h.le
    have h4 := h'.le
    rw [List.length_append]
    omega
  stuck hf k := by
    rw [Nat.add_assoc]
    by_cases hx : Forward xs
    · rw [h.rest hx]
      exact h'.stuck (fun hy => hf (forward_append.mpr ⟨hx, hy⟩)) k
    · exact h.stuck hx _

/-- A loop of calls, each of which serves one entry from where the one before it stopped. -/
theorem Served.iterate {call : ℕ × LogicalTree → ℕ × LogicalTree}
    {calls : ℕ × LogicalTree → List (ℕ × ℕ)} {i : ℕ} {tree : LogicalTree}
    (h : ∀ st : ℕ × LogicalTree, i ≤ st.1 → Served lines 1 st.1 (call st).1 (calls st)) (n : ℕ) :
    Served lines n i (call^[n] (i, tree)).1
      ((List.range n).flatMap fun j => calls (call^[j] (i, tree))) := by
  induction n with
  | zero => exact Served.none i
  | succ n ih =>
      rw [List.range_succ, List.flatMap_append, List.flatMap_singleton,
        Function.iterate_succ_apply']
      exact ih.append (h _ ih.le)

/-- **One call.** With more steps than there are lines left, a call of `parse_one` serves one
entry. -/
theorem callsOf_served (fuel : ℕ) (parent : Option ℕ) (st : ℕ × LogicalTree) (hfuel : 0 < fuel)
    (hlines : lines.length < st.1 + fuel) :
    Served lines 1 st.1 (parseOne lines indicators fuel parent st).1
      (callsOf lines indicators fuel parent st) := by
  induction fuel generalizing parent st with
  | zero => omega
  | succ fuel ih =>
      obtain ⟨i, tree⟩ := st
      simp only at hlines
      rw [callsOf, parseOne]
      cases hcounts : lines[i]? with
      | none =>
          -- Behind the last line a call returns where it started.
          have hdrop : lines.drop i = [] :=
            List.drop_eq_nil_of_le (List.getElem?_eq_none_iff.mp hcounts)
          have hstuck : ¬ Forward [(i, i)] := by simp [Forward]
          exact ⟨le_rfl, le_max_left _ _, fun h => absurd h hstuck, fun h => absurd h hstuck,
            fun _ k => by rw [hdrop, unserved_nil]; omega⟩
      | some counts =>
          obtain ⟨hi, rfl⟩ := List.getElem?_eq_some_iff.mp hcounts
          cases hvalues : lines[i + 1]? with
          | none =>
              -- The last line alone is taken.
              have hlen := List.getElem?_eq_none_iff.mp hvalues
              have hdrop : lines.drop (i + 1) = [] := List.drop_eq_nil_of_le hlen
              have hforward : Forward [(i, i + 1)] := by simp [Forward]
              refine ⟨Nat.le_succ i, by simp only; omega, fun _ k => ?_, fun _ => ?_,
                fun h => absurd hforward h⟩
              · rw [List.drop_eq_getElem_cons hi, hdrop, Nat.add_comm, unserved, unserved_nil]
              · simp
          | some valuesLine =>
              obtain ⟨hi', rfl⟩ := List.getElem?_eq_some_iff.mp hvalues
              have hbelow := @Served.iterate lines
                (parseOne lines indicators fuel (some tree.entries.length))
                (callsOf lines indicators fuel (some tree.entries.length)) (i + 2)
                (pushLogicalEntry indicators i lines[i + 1] parent tree)
                (fun st hst => ih _ st (by omega) (by omega)) ((subCount lines[i]).getD 0)
              have hserve : ∀ k, unserved (1 + k) (lines.drop i) =
                  unserved ((subCount lines[i]).getD 0 + k) (lines.drop (i + 2)) := by
                intro k
                rw [List.drop_eq_getElem_cons hi, List.drop_eq_getElem_cons hi', Nat.add_comm 1 k,
                  unserved, Nat.add_comm k]
              have hle := hbelow.le
              have hmax := hbelow.le_max
              refine ⟨by simp only; omega, by simp only; omega, fun hf k => ?_, fun hf => ?_,
                fun hf k => ?_⟩
              · rw [hserve, hbelow.rest (forward_cons.mp hf).2]
              · have := hbelow.length_le (forward_cons.mp hf).2
                rw [List.length_cons]
                simp only
                omega
              · rw [hserve]
                refine hbelow.stuck (fun h => hf (forward_cons.mpr ⟨?_, h⟩)) k
                simp only
                omega

end Run

/-! ### All calls -/

/-- The parser makes progress: every call of `parse_one` moves the cursor forward, and there are no
more calls than lines. -/
def MakesProgress (text : List Char) : Prop :=
  Forward (parseEntryTreeCalls text) ∧
    (parseEntryTreeCalls text).length ≤ (ltreeLines text).length

instance (text : List Char) : Decidable (MakesProgress text) := inferInstanceAs (Decidable (_ ∧ _))

/-- Without a category or without the count of its root there are no calls. -/
theorem parseEntryTreeCalls_of_none {text : List Char}
    (h : ∀ cat rootSubs, (ltreeLines text).idxOf? entryLine = some cat →
      ((ltreeLines text)[cat + 3]?).bind subCount ≠ some rootSubs) :
    parseEntryTreeCalls text = [] := by
  rw [parseEntryTreeCalls]
  simp only
  cases hcat : (ltreeLines text).idxOf? entryLine with
  | none => rfl
  | some cat =>
      simp only
      cases (ltreeLines text)[cat + 2]? with
      | none => rfl
      | some row =>
          simp only
          cases hroot : ((ltreeLines text)[cat + 3]?).bind subCount with
          | none => rfl
          | some rootSubs => exact absurd hroot (h cat rootSubs hcat)

/-- The calls serve the entries that the root declares. -/
theorem parseEntryTreeCalls_served {text : List Char} {cat rootSubs : ℕ}
    (hcat : (ltreeLines text).idxOf? entryLine = some cat)
    (hroot : ((ltreeLines text)[cat + 3]?).bind subCount = some rootSubs) :
    ∃ c, Served (ltreeLines text) rootSubs (cat + 5) c (parseEntryTreeCalls text) := by
  obtain ⟨line, hline, -⟩ := Option.bind_eq_some_iff.mp hroot
  have hlt := (List.getElem?_eq_some_iff.mp hline).1
  have hrow : (ltreeLines text)[cat + 2]? = some (ltreeLines text)[cat + 2] :=
    List.getElem?_eq_getElem (by omega)
  rw [parseEntryTreeCalls]
  simp only [hcat, hrow, hroot]
  exact ⟨_, Served.iterate (fun st _ => callsOf_served _ _ st (Nat.succ_pos _) (by omega)) _⟩

/-- **Progress of the parser.** Every call moves the cursor forward, and the calls are no more than
the lines, exactly when the lines serve every entry that the counts declare. -/
theorem progress_iff (text : List Char) : MakesProgress text ↔ CountsServed text := by
  constructor
  · rintro ⟨hforward, -⟩ cat rootSubs hcat hroot
    obtain ⟨c, hserved⟩ := parseEntryTreeCalls_served hcat hroot
    have hrest := hserved.rest hforward 0
    rwa [Nat.add_zero, unserved] at hrest
  · intro h
    by_cases hroot : ∃ cat rootSubs, (ltreeLines text).idxOf? entryLine = some cat ∧
        ((ltreeLines text)[cat + 3]?).bind subCount = some rootSubs
    · obtain ⟨cat, rootSubs, hcat, hroot⟩ := hroot
      obtain ⟨c, hserved⟩ := parseEntryTreeCalls_served hcat hroot
      have hforward : Forward (parseEntryTreeCalls text) := by
        by_contra hstuck
        have hpos := hserved.stuck hstuck 0
        rw [Nat.add_zero, h cat rootSubs hcat hroot] at hpos
        exact lt_irrefl 0 hpos
      refine ⟨hforward, ?_⟩
      have hlen := hserved.length_le hforward
      have hmax := hserved.le_max
      omega
    · have hnil := @parseEntryTreeCalls_of_none text fun cat rootSubs hcat hr =>
        hroot ⟨cat, rootSubs, hcat, hr⟩
      rw [MakesProgress, hnil]
      exact ⟨by simp [Forward], Nat.zero_le _⟩

/-- A category whose root declares nine entries, and no line for them. -/
def promisedText : List Char := "entry\n1\t1\nn\n26\t9".toList

theorem promisedText_no_progress : ¬ MakesProgress promisedText := by decide +kernel

end EwfForensic

import Mathlib.Tactic
import Mathlib.Computability.StateTransition
import Mathlib.Data.List.Basic
import Mathlib.Data.List.ReduceOption

/-!
# Loops That Emit a List

Two shapes of loop, as functions that return what the loop pushed.

* `visits step` — a `while`/`loop` over a state. One turn either leaves at once, or emits
  a value and leaves, or emits a value and goes on from a new state. The fuel is
  scaffolding: `visits_fuel` shows that any fuel above a rank that every turn decreases
  gives the same list, so the loop has left by an exit of its own.
* `forBreak body` — a `for` over an index range whose body emits a value or breaks.
  `getElem?_forBreak` says exactly which indices it emits at.

`Leaves step` says without fuel that a loop leaves by an exit of its own and what it emitted until
then; `leaves_visits` proves it from a rank, for which `unvisited_lt` serves where a loop keeps a
list of the positions it has visited.

`forall_visits` is the invariant rule, `visits_congr_of_mem` the rule that two loops whose turns
agree along one run emit the same list, `visits_map` moves a projection through the loop, and
`pairwise_visits` orders what a loop that only moves forward emits. `next step` is the loop as a
transition of its state, so that `StateTransition.Reaches (next step)` are the states it runs
through: `mem_visits_iff` says that it emits what its turns in these states emit, `visits_succ`
which turns emit two values in a row, and `exists_exit` that it leaves in one of them.
-/

namespace Loop

variable {σ α β : Type*}

/-! ### Loops over a state -/

/-- The values emitted by a loop from state `s`. `step s` is one turn: `none` leaves
without emitting, `some (a, none)` emits `a` and leaves, `some (a, some s')` emits `a` and
goes on from `s'`. -/
def visits (step : σ → Option (α × Option σ)) : ℕ → σ → List α
  | 0, _ => []
  | n + 1, s =>
    match step s with
    | none => []
    | some (a, none) => [a]
    | some (a, some s') => a :: visits step n s'

theorem visits_of_none {step : σ → Option (α × Option σ)} {s : σ} (h : step s = none)
    (n : ℕ) : visits step n s = [] := by
  cases n with
  | zero => rfl
  | succ n => simp [visits, h]

theorem visits_of_last {step : σ → Option (α × Option σ)} {s : σ} {a : α}
    (h : step s = some (a, none)) (n : ℕ) : visits step (n + 1) s = [a] := by
  simp [visits, h]

theorem visits_of_next {step : σ → Option (α × Option σ)} {s s' : σ} {a : α}
    (h : step s = some (a, some s')) (n : ℕ) :
    visits step (n + 1) s = a :: visits step n s' := by
  simp [visits, h]

/-- **Fuel independence.** Once the fuel exceeds a rank that every turn decreases, more
fuel emits nothing more. -/
theorem visits_fuel {step : σ → Option (α × Option σ)} (rank : σ → ℕ)
    (hrank : ∀ s a s', step s = some (a, some s') → rank s' < rank s) {n m : ℕ} {s : σ}
    (hn : rank s < n) (hm : rank s < m) : visits step n s = visits step m s := by
  induction n generalizing m s with
  | zero => omega
  | succ n ih =>
      obtain ⟨m, rfl⟩ : ∃ m', m = m' + 1 := ⟨m - 1, by omega⟩
      match hs : step s with
      | none => rw [visits_of_none hs, visits_of_none hs]
      | some (a, none) => rw [visits_of_last hs, visits_of_last hs]
      | some (a, some s') =>
          have hlt := hrank s a s' hs
          have hn' : rank s' < n := by omega
          have hm' : rank s' < m := by omega
          rw [visits_of_next hs, visits_of_next hs, ih hn' hm']

/-- The loop leaves by an exit of its own, after it has emitted a list. -/
inductive Leaves (step : σ → Option (α × Option σ)) : σ → List α → Prop
  | stop {s : σ} (h : step s = none) : Leaves step s []
  | last {s : σ} {a : α} (h : step s = some (a, none)) : Leaves step s [a]
  | next {s s' : σ} {a : α} {as : List α} (h : step s = some (a, some s'))
      (hrest : Leaves step s' as) : Leaves step s (a :: as)

/-- **A loop with a rank ends**: with fuel above it, what the loop emits is all of a finite run. -/
theorem leaves_visits {step : σ → Option (α × Option σ)} (rank : σ → ℕ)
    (hrank : ∀ s a s', step s = some (a, some s') → rank s' < rank s) {n : ℕ} {s : σ}
    (hn : rank s < n) : Leaves step s (visits step n s) := by
  induction n generalizing s with
  | zero => omega
  | succ n ih =>
      match hs : step s with
      | none => exact visits_of_none hs _ ▸ Leaves.stop hs
      | some (a, none) => exact visits_of_last hs n ▸ Leaves.last hs
      | some (a, some s') =>
          have hlt := hrank s a s' hs
          rw [visits_of_next hs]
          exact Leaves.next hs (ih (by omega))

/-- A loop makes no more turns than it has fuel. -/
theorem length_visits_le (step : σ → Option (α × Option σ)) (n : ℕ) (s : σ) :
    (visits step n s).length ≤ n := by
  induction n generalizing s with
  | zero => exact le_rfl
  | succ n ih =>
      match hs : step s with
      | none => rw [visits_of_none hs]; exact Nat.zero_le _
      | some (a, none) => rw [visits_of_last hs]; exact Nat.succ_pos n
      | some (a, some s') =>
          rw [visits_of_next hs]
          exact Nat.succ_le_succ (ih s')

/-- **Visiting a new position** leaves fewer of them. -/
theorem unvisited_lt {n i : ℕ} {visited : List ℕ} (hi : i < n) (hnew : i ∉ visited) :
    ((List.range n).filter (· ∉ i :: visited)).length <
      ((List.range n).filter (· ∉ visited)).length := by
  have hmem : i ∈ (List.range n).filter (· ∉ visited) := by
    simp only [List.mem_filter, List.mem_range, decide_eq_true_eq]
    exact ⟨hi, hnew⟩
  have hfilter : (List.range n).filter (· ∉ i :: visited) =
      ((List.range n).filter (· ∉ visited)).filter (· ≠ i) := by
    rw [List.filter_filter]
    refine List.filter_congr fun j _ => ?_
    simp
  rw [hfilter]
  exact List.length_filter_lt_length_iff_exists.mpr ⟨i, hmem, by simp⟩

theorem unvisited_le (n : ℕ) (visited : List ℕ) :
    ((List.range n).filter (· ∉ visited)).length ≤ n :=
  le_of_le_of_eq (List.length_filter_le _ _) List.length_range

/-- **Invariant rule.** What holds of the emitted value in every state that satisfies a
preserved invariant holds of everything the loop emits. -/
theorem forall_visits {step : σ → Option (α × Option σ)} {Inv : σ → Prop} {P : α → Prop}
    (hstep : ∀ s a s', Inv s → step s = some (a, some s') → Inv s')
    (hemit : ∀ s a t, Inv s → step s = some (a, t) → P a) {n : ℕ} {s : σ} (hs : Inv s) :
    ∀ a ∈ visits step n s, P a := by
  induction n generalizing s with
  | zero => simp [visits]
  | succ n ih =>
      intro a ha
      match h : step s with
      | none => simp [visits_of_none h] at ha
      | some (b, none) =>
          rw [visits_of_last h, List.mem_singleton] at ha
          exact ha ▸ hemit s b none hs h
      | some (b, some s') =>
          rw [visits_of_next h, List.mem_cons] at ha
          rcases ha with rfl | ha
          · exact hemit s _ _ hs h
          · exact ih (hstep s b s' hs h) a ha

/-- **Congruence along a run.** A loop whose turns agree with those of another one wherever
that one emits, and that leaves wherever that one leaves at once, emits the same list. -/
theorem visits_congr_of_mem {step₁ step₂ : σ → Option (α × Option σ)} {n : ℕ} {s : σ}
    (hsome : ∀ s' p, step₁ s' = some p → p.1 ∈ visits step₁ n s → step₂ s' = some p)
    (hnone : ∀ s', step₁ s' = none → step₂ s' = none) :
    visits step₂ n s = visits step₁ n s := by
  induction n generalizing s with
  | zero => rfl
  | succ n ih =>
      match h : step₁ s with
      | none => rw [visits_of_none h, visits_of_none (hnone s h)]
      | some (a, none) =>
          have hv := visits_of_last h n
          have h2 := hsome s _ h (by rw [hv]; exact List.mem_singleton_self a)
          rw [hv, visits_of_last h2]
      | some (a, some s') =>
          have hv := visits_of_next h n
          have h2 := hsome s _ h (by rw [hv]; exact List.mem_cons_self ..)
          rw [hv, visits_of_next h2, ih fun t p ht hp =>
            hsome t p ht (by rw [hv]; exact List.mem_cons_of_mem _ hp)]

/-- A loop that emits a function of what another loop emits. -/
theorem visits_map {step₁ : σ → Option (α × Option σ)} {step₂ : σ → Option (β × Option σ)}
    (f : α → β) (h : ∀ s, step₂ s = (step₁ s).map fun p => (f p.1, p.2)) (n : ℕ) (s : σ) :
    visits step₂ n s = (visits step₁ n s).map f := by
  induction n generalizing s with
  | zero => rfl
  | succ n ih =>
      match h1 : step₁ s with
      | none => rw [visits_of_none h1, visits_of_none (by rw [h, h1]; rfl), List.map_nil]
      | some (a, none) =>
          have h2 : step₂ s = some (f a, none) := by rw [h, h1]; rfl
          rw [visits_of_last h1, visits_of_last h2, List.map_singleton]
      | some (a, some s') =>
          have h2 : step₂ s = some (f a, some s') := by rw [h, h1]; rfl
          rw [visits_of_next h1, visits_of_next h2, ih, List.map_cons]

/-- **Order rule.** A loop over positions that only moves forward and labels what it emits
with its position emits in increasing order of the labels. -/
theorem pairwise_visits {step : ℕ → Option (α × Option ℕ)} {label : α → ℕ}
    (hlabel : ∀ s a t, step s = some (a, t) → label a = s)
    (hnext : ∀ s a s', step s = some (a, some s') → s < s') (n s : ℕ) :
    (visits step n s).Pairwise fun a b => label a < label b := by
  have hle : ∀ n s, ∀ a ∈ visits step n s, s ≤ label a := fun n s =>
    @forall_visits _ _ step (fun t => s ≤ t) (fun a => s ≤ label a)
      (fun t a t' ht hs => le_of_lt (lt_of_le_of_lt ht (hnext t a t' hs)))
      (fun t a _ ht hs => hlabel t a _ hs ▸ ht) n s le_rfl
  induction n generalizing s with
  | zero => exact List.Pairwise.nil
  | succ n ih =>
      match h : step s with
      | none => rw [visits_of_none h]; exact List.Pairwise.nil
      | some (a, none) => rw [visits_of_last h]; exact List.pairwise_singleton _ _
      | some (a, some s') =>
          rw [visits_of_next h]
          refine List.Pairwise.cons (fun b hb => ?_) (ih s')
          have hlt := hnext s a s' h
          have := hle n s' b hb
          rw [hlabel s a _ h]
          omega

/-! ### The states of a run -/

/-- The state that a turn goes on from. -/
def next (step : σ → Option (α × Option σ)) (s : σ) : Option σ := (step s).bind (·.2)

section Run

open StateTransition Relation

variable {step : σ → Option (α × Option σ)} {s t : σ}

theorem next_eq_some_iff {u : σ} : next step t = some u ↔ ∃ a, step t = some (a, some u) := by
  rw [next, Option.bind_eq_some_iff]
  constructor
  · rintro ⟨⟨a, r⟩, h, rfl⟩
    exact ⟨a, h⟩
  · rintro ⟨a, h⟩
    exact ⟨(a, some u), h, rfl⟩

/-- A run is where it started, or it made the first turn. -/
theorem reaches_cases (h : Reaches (next step) s t) :
    t = s ∨ ∃ a u, step s = some (a, some u) ∧ Reaches (next step) u t := by
  rcases ReflTransGen.cases_head h with rfl | ⟨u, hu, htail⟩
  · exact Or.inl rfl
  · obtain ⟨a, ha⟩ := next_eq_some_iff.mp hu
    exact Or.inr ⟨a, u, ha, htail⟩

theorem reaches_of_step {a : α} {u : σ} (hs : step s = some (a, some u))
    (h : Reaches (next step) u t) : Reaches (next step) s t :=
  ReflTransGen.head (next_eq_some_iff.mpr ⟨a, hs⟩) h

theorem reaches_step {a : α} {u : σ} (h : Reaches (next step) s t)
    (ht : step t = some (a, some u)) : Reaches (next step) s u :=
  ReflTransGen.tail h (next_eq_some_iff.mpr ⟨a, ht⟩)

/-- **The loop emits what its turns emit**, with fuel above a rank that every turn decreases. -/
theorem mem_visits_iff (rank : σ → ℕ)
    (hrank : ∀ s a s', step s = some (a, some s') → rank s' < rank s) {n : ℕ} (hn : rank s < n)
    {a : α} : a ∈ visits step n s ↔ ∃ t r, Reaches (next step) s t ∧ step t = some (a, r) := by
  induction n generalizing s with
  | zero => omega
  | succ n ih =>
      match h : step s with
      | none =>
          rw [visits_of_none h]
          refine ⟨fun ha => by simp at ha, fun ⟨t, r, ht, hstep⟩ => ?_⟩
          rcases reaches_cases ht with rfl | ⟨b, u, hu, -⟩
          · simp [h] at hstep
          · simp [h] at hu
      | some (b, none) =>
          rw [visits_of_last h, List.mem_singleton]
          constructor
          · rintro rfl
            exact ⟨s, none, ReflTransGen.refl, h⟩
          · rintro ⟨t, r, ht, hstep⟩
            rcases reaches_cases ht with rfl | ⟨c, u, hu, -⟩
            · rw [h] at hstep
              exact (Prod.mk.inj (Option.some.inj hstep)).1.symm
            · simp [h] at hu
      | some (b, some s') =>
          have hlt := hrank s b s' h
          rw [visits_of_next h, List.mem_cons, ih (by omega)]
          constructor
          · rintro (rfl | ⟨t, r, ht, hstep⟩)
            · exact ⟨s, some s', ReflTransGen.refl, h⟩
            · exact ⟨t, r, reaches_of_step h ht, hstep⟩
          · rintro ⟨t, r, ht, hstep⟩
            rcases reaches_cases ht with rfl | ⟨c, u, hu, htail⟩
            · rw [h] at hstep
              exact Or.inl (Prod.mk.inj (Option.some.inj hstep)).1.symm
            · rw [h] at hu
              obtain ⟨rfl, hu'⟩ := Prod.mk.inj (Option.some.inj hu)
              obtain rfl := Option.some.inj hu'
              exact Or.inr ⟨t, r, htail, hstep⟩

/-- Two values in a row are emitted by a turn and the one it goes on to. -/
theorem visits_succ {n i : ℕ} {a b : α} (ha : (visits step n s)[i]? = some a)
    (hb : (visits step n s)[i + 1]? = some b) :
    ∃ t u r, Reaches (next step) s t ∧ step t = some (a, some u) ∧ step u = some (b, r) := by
  induction n generalizing s i with
  | zero => simp [visits] at ha
  | succ n ih =>
      match h : step s with
      | none => simp [visits_of_none h] at ha
      | some (c, none) => simp [visits_of_last h] at hb
      | some (c, some s') =>
          rw [visits_of_next h] at ha hb
          cases i with
          | succ i =>
              rw [List.getElem?_cons_succ] at ha hb
              obtain ⟨t, u, r, ht, hstep, hnext⟩ := ih ha hb
              exact ⟨t, u, r, reaches_of_step h ht, hstep, hnext⟩
          | zero =>
              rw [List.getElem?_cons_zero] at ha
              obtain rfl := Option.some.inj ha
              rw [List.getElem?_cons_succ] at hb
              cases n with
              | zero => simp [visits] at hb
              | succ n =>
                  match h' : step s' with
                  | none => simp [visits_of_none h'] at hb
                  | some (d, none) =>
                      rw [visits_of_last h'] at hb
                      obtain rfl := Option.some.inj hb
                      exact ⟨s, s', none, ReflTransGen.refl, h, h'⟩
                  | some (d, some s'') =>
                      rw [visits_of_next h'] at hb
                      obtain rfl := Option.some.inj hb
                      exact ⟨s, s', some s'', ReflTransGen.refl, h, h'⟩

/-- **The loop leaves** in a state it runs through. Where that turn emits a value, it is the last
one; where it emits none, the last one is that of the turn before. -/
theorem exists_exit (rank : σ → ℕ)
    (hrank : ∀ s a s', step s = some (a, some s') → rank s' < rank s) {n : ℕ} (hn : rank s < n) :
    ∃ t, Reaches (next step) s t ∧
      ((∃ a, step t = some (a, none) ∧ (visits step n s).getLast? = some a) ∨
        step t = none ∧ ∀ a ∈ (visits step n s).getLast?, ∃ u, step u = some (a, some t)) := by
  induction n generalizing s with
  | zero => omega
  | succ n ih =>
      match h : step s with
      | none =>
          refine ⟨s, ReflTransGen.refl, Or.inr ⟨h, ?_⟩⟩
          rw [visits_of_none h]
          simp
      | some (a, none) =>
          refine ⟨s, ReflTransGen.refl, Or.inl ⟨a, h, ?_⟩⟩
          rw [visits_of_last h]
          rfl
      | some (a, some s') =>
          have hlt := hrank s a s' h
          obtain ⟨t, ht, hexit⟩ := ih (s := s') (by omega)
          refine ⟨t, reaches_of_step h ht, ?_⟩
          rw [visits_of_next h, List.getLast?_cons]
          rcases hexit with ⟨b, hb, hlast⟩ | ⟨hnone, hlast⟩
          · exact Or.inl ⟨b, hb, by rw [hlast]; rfl⟩
          · refine Or.inr ⟨hnone, fun b hb => ?_⟩
            cases hv : (visits step n s').getLast? with
            | some c =>
                rw [hv] at hb hlast
                obtain rfl := Option.some.inj hb
                exact hlast c rfl
            | none =>
                rw [hv] at hb
                obtain rfl := Option.some.inj hb
                -- Nothing is emitted behind the first turn, so it leads to the exit.
                rcases reaches_cases ht with rfl | ⟨c, u, hu, -⟩
                · exact ⟨s, h⟩
                · cases n with
                  | zero => omega
                  | succ n =>
                      rw [visits_of_next hu] at hv
                      simp at hv

end Run

/-! ### Loops over an index range -/

/-- The values emitted by `for i in i..i + k`, where `body i = none` breaks. -/
def forBreak (body : ℕ → Option α) : ℕ → ℕ → List α
  | 0, _ => []
  | k + 1, i =>
    match body i with
    | none => []
    | some a => a :: forBreak body k (i + 1)

theorem length_forBreak_le (body : ℕ → Option α) (k i : ℕ) :
    (forBreak body k i).length ≤ k := by
  induction k generalizing i with
  | zero => simp [forBreak]
  | succ k ih =>
      cases h : body i with
      | none => simp [forBreak, h]
      | some a =>
          have := ih (i + 1)
          simp only [forBreak, h, List.length_cons]
          omega

/-- The loop emits at position `j` exactly when the range reaches it, no body before it
breaks, and its own body emits. -/
theorem getElem?_forBreak {body : ℕ → Option α} {k i j : ℕ} {a : α} :
    (forBreak body k i)[j]? = some a ↔
      j < k ∧ (∀ m < j, (body (i + m)).isSome) ∧ body (i + j) = some a := by
  induction k generalizing i j with
  | zero => simp [forBreak]
  | succ k ih =>
      cases h : body i with
      | none =>
          simp only [forBreak, h, List.getElem?_nil, reduceCtorEq, false_iff]
          rintro ⟨-, hm, hj⟩
          cases j with
          | zero => simp [h] at hj
          | succ j =>
              have h0 := hm 0 (Nat.succ_pos j)
              simp [h] at h0
      | some b =>
          simp only [forBreak, h]
          cases j with
          | zero => simp [h]
          | succ j =>
              rw [List.getElem?_cons_succ, ih]
              constructor
              · rintro ⟨hk, hm, hj⟩
                refine ⟨by omega, fun m hmj => ?_, by rwa [show i + (j + 1) = i + 1 + j by omega]⟩
                cases m with
                | zero => simp [h]
                | succ m =>
                    rw [show i + (m + 1) = i + 1 + m by omega]
                    exact hm m (by omega)
              · rintro ⟨hk, hm, hj⟩
                refine ⟨by omega, fun m hmj => ?_, by rwa [show i + 1 + j = i + (j + 1) by omega]⟩
                rw [show i + 1 + m = i + (m + 1) by omega]
                exact hm (m + 1) (by omega)

/-- A loop that never breaks emits at every index. -/
theorem length_forBreak {body : ℕ → Option α} {k i : ℕ}
    (h : ∀ m < k, (body (i + m)).isSome) : (forBreak body k i).length = k := by
  induction k generalizing i with
  | zero => simp [forBreak]
  | succ k ih =>
      obtain ⟨a, ha⟩ := Option.isSome_iff_exists.mp (h 0 (Nat.succ_pos k))
      rw [Nat.add_zero] at ha
      simp only [forBreak, ha, List.length_cons]
      rw [ih fun m hm => by
        rw [show i + 1 + m = i + (m + 1) by omega]
        exact h (m + 1) (by omega)]

/-- A loop that emits all the way emits, in order, what its body gives. -/
theorem forBreak_eq_map {body : ℕ → Option α} {f : ℕ → α} {k i : ℕ}
    (h : ∀ m < k, body (i + m) = some (f (i + m))) :
    forBreak body k i = (List.range' i k).map f := by
  induction k generalizing i with
  | zero => simp [forBreak]
  | succ k ih =>
      have h0 := h 0 (Nat.succ_pos k)
      rw [Nat.add_zero] at h0
      simp only [forBreak, h0, List.range'_succ, List.map_cons]
      rw [ih fun m hm => by
        rw [show i + 1 + m = i + (m + 1) by omega]
        exact h (m + 1) (by omega)]

/-- A loop over the positions of a list whose body gives the elements emits the list. -/
theorem forBreak_eq_of_getElem? {body : ℕ → Option α} {as : List α}
    (h : ∀ (j : ℕ) a, as[j]? = some a → body j = some a) : forBreak body as.length 0 = as := by
  have hbody : ∀ j (hj : j < as.length), body j = some as[j] := fun j hj =>
    h j _ (List.getElem?_eq_getElem hj)
  refine List.ext_getElem? fun j => Option.ext fun a => ?_
  rw [getElem?_forBreak, Nat.zero_add]
  constructor
  · rintro ⟨hj, -, ha⟩
    rwa [List.getElem?_eq_getElem hj, ← hbody j hj]
  · intro ha
    obtain ⟨hj, -⟩ := List.getElem?_eq_some_iff.mp ha
    refine ⟨hj, fun m hm => ?_, h j a ha⟩
    rw [Nat.zero_add, hbody m (hm.trans hj)]
    rfl

/-- The loop emits what its body gives, up to the first index where it breaks. -/
theorem forBreak_eq_takeWhile (body : ℕ → Option α) (k i : ℕ) :
    forBreak body k i =
      (((List.range' i k).map body).takeWhile Option.isSome).reduceOption := by
  induction k generalizing i with
  | zero => rfl
  | succ k ih =>
      simp only [forBreak, List.range'_succ, List.map_cons]
      cases h : body i with
      | none => simp
      | some a =>
          rw [List.takeWhile_cons_of_pos (by rfl), List.reduceOption_cons_of_some, ih]

/-- A row of values that are all there. -/
theorem reduceOption_takeWhile_map_some (xs : List α) :
    ((xs.map some).takeWhile Option.isSome).reduceOption = xs := by
  induction xs with
  | nil => rfl
  | cons x xs ih =>
      rw [List.map_cons, List.takeWhile_cons_of_pos rfl, List.reduceOption_cons_of_some, ih]

/-- The same for a row that is not known as an image. -/
theorem map_some_reduceOption_takeWhile {xs : List (Option α)} (h : ∀ x ∈ xs, x.isSome) :
    (xs.takeWhile Option.isSome).reduceOption.map some = xs := by
  obtain ⟨ys, rfl⟩ : ∃ ys : List α, xs = ys.map some := by
    refine ⟨xs.reduceOption, ?_⟩
    rw [List.reduceOption, List.map_filterMap_some_eq_filter_map_isSome, List.map_id]
    exact (List.filter_eq_self.mpr h).symm
  rw [reduceOption_takeWhile_map_some]

/-- A loop that emits a function of what another loop emits. -/
theorem forBreak_map (f : α → β) (body : ℕ → Option α) (k i : ℕ) :
    forBreak (fun j => (body j).map f) k i = (forBreak body k i).map f := by
  induction k generalizing i with
  | zero => rfl
  | succ k ih =>
      cases h : body i with
      | none => simp [forBreak, h]
      | some a => simp only [forBreak, h, Option.map_some, ih, List.map_cons]

/-- Functions of the index and of what a loop emits that agree on what it emits. -/
theorem forBreak_map_congr {body : ℕ → Option α} {f g : ℕ → α → β} {k i : ℕ}
    (h : ∀ j, ∀ a ∈ forBreak body k i, f j a = g j a) :
    forBreak (fun j => (body j).map (f j)) k i = forBreak (fun j => (body j).map (g j)) k i := by
  induction k generalizing i with
  | zero => rfl
  | succ k ih =>
      cases hbody : body i with
      | none => simp [forBreak, hbody]
      | some a =>
          simp only [forBreak, hbody, List.forall_mem_cons] at h
          simp only [forBreak, hbody, Option.map_some, (h i).1, ih fun j => (h j).2]

/-- Two bodies that agree on the range give the same loop. -/
theorem forBreak_congr {body₁ body₂ : ℕ → Option α} {k i : ℕ}
    (h : ∀ m < k, body₁ (i + m) = body₂ (i + m)) :
    forBreak body₁ k i = forBreak body₂ k i := by
  induction k generalizing i with
  | zero => rfl
  | succ k ih =>
      have h0 := h 0 (Nat.succ_pos k)
      rw [Nat.add_zero] at h0
      simp only [forBreak, h0]
      rw [ih fun m hm => by
        rw [show i + 1 + m = i + (m + 1) by omega]
        exact h (m + 1) (by omega)]

end Loop

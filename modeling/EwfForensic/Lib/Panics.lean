import EwfForensic.Lib.Bytes
import EwfForensic.Lib.Loop

/-!
# Operations That May Panic

A program in a language with checked slices stops where an index leaves its slice, where two
slices of different lengths are copied onto each other, or where a sum leaves its machine
word. A `Run` is a computation that returns or stops so.

* `slice`, `sliceFrom`, `sliceTo`, `index`, `copyFromSlice`, `add`, `asUsize` — the operations,
  each with a lemma `…_ok` that says when it returns and what.
* `visits`, `forBreak` — the loops of `Loop` with turns that may panic.

A program without panics is shown by the equation `run = .ok value`: the operations' lemmas
rewrite one after the other, and `visits_ok`, `forBreak_ok`, `mapM_ok` and `foldlM_ok` take such
an equation for one turn to the equation for the loop.
-/

namespace Panics

open Octets

variable {σ α β : Type}

/-- Why a computation stops. -/
inductive Panic where
  /-- A slice range is inverted or leaves its slice. -/
  | sliceRange
  /-- An index leaves its slice. -/
  | indexRange
  /-- The two sides of a copy have different lengths. -/
  | copyLength
  /-- A sum leaves its machine word. -/
  | addOverflow
  /-- A conversion changes the number. A cast wraps and does not panic; it counts as one. -/
  | castOverflow
  deriving DecidableEq

/-- A computation that returns or panics. -/
abbrev Run (α : Type) := Except Panic α

/-! ### Operations -/

/-- `&xs[s..e]`. -/
def slice (xs : List α) (s e : ℕ) : Run (List α) :=
  if s ≤ e ∧ e ≤ xs.length then .ok ((xs.drop s).take (e - s)) else .error .sliceRange

/-- `&xs[s..]`. -/
def sliceFrom (xs : List α) (s : ℕ) : Run (List α) :=
  if s ≤ xs.length then .ok (xs.drop s) else .error .sliceRange

/-- `&xs[..e]`. -/
def sliceTo (xs : List α) (e : ℕ) : Run (List α) :=
  if e ≤ xs.length then .ok (xs.take e) else .error .sliceRange

/-- `xs[i]`. -/
def index (xs : List α) (i : ℕ) : Run α :=
  match xs[i]? with
  | some x => .ok x
  | none => .error .indexRange

/-- `buf.copy_from_slice(xs)`, for a buffer of length `n`. -/
def copyFromSlice (n : ℕ) (xs : List α) : Run { ys : List α // ys.length = n } :=
  if h : xs.length = n then .ok ⟨xs, h⟩ else .error .copyLength

/-- `a + b` on 64-bit numbers. -/
def add (a b : ℕ) : Run ℕ :=
  if a + b ≤ u64Max then .ok (a + b) else .error .addOverflow

/-- `n as usize`, where `usize` has 64 bits. -/
def asUsize (n : ℕ) : Run ℕ :=
  if n ≤ u64Max then .ok n else .error .castOverflow

section Operations

variable {xs : List α} {s e i n a b : ℕ}

theorem slice_ok (hs : s ≤ e) (he : e ≤ xs.length) :
    slice xs s e = .ok ((xs.drop s).take (e - s)) :=
  if_pos ⟨hs, he⟩

theorem slice_zero_ok (he : e ≤ xs.length) : slice xs 0 e = .ok (xs.take e) := by
  rw [slice_ok (Nat.zero_le _) he, List.drop_zero, Nat.sub_zero]

theorem sliceFrom_ok (hs : s ≤ xs.length) : sliceFrom xs s = .ok (xs.drop s) :=
  if_pos hs

theorem sliceTo_ok (he : e ≤ xs.length) : sliceTo xs e = .ok (xs.take e) :=
  if_pos he

theorem index_ok {x : α} (h : xs[i]? = some x) : index xs i = .ok x := by
  rw [index, h]

theorem copyFromSlice_ok (h : xs.length = n) : copyFromSlice n xs = .ok ⟨xs, h⟩ :=
  dif_pos h

theorem add_ok (h : a + b ≤ u64Max) : add a b = .ok (a + b) :=
  if_pos h

theorem asUsize_ok (h : n ≤ u64Max) : asUsize n = .ok n :=
  if_pos h

/-- A slice that a bounds-checked read finds is found without the check. -/
theorem slice_of_slice? {ys : List α} (h : slice? xs s e = some ys) : slice xs s e = .ok ys := by
  obtain ⟨hs, he, rfl⟩ := slice?_eq_some_iff.mp h
  exact slice_ok hs he

/-- What follows a computation that returns. -/
theorem ok_bind {a : α} {f : α → Run β} : ((.ok a : Run α) >>= f) = f a :=
  rfl

end Operations

/-! ### Loops -/

/-- `Loop.visits` with turns that may panic. -/
def visits (step : σ → Run (Option (α × Option σ))) : ℕ → σ → Run (List α)
  | 0, _ => .ok []
  | n + 1, s => do
    match ← step s with
    | none => .ok []
    | some (a, none) => .ok [a]
    | some (a, some s') =>
      let rest ← visits step n s'
      .ok (a :: rest)

/-- A loop whose turns return in every state of a preserved invariant returns. -/
theorem visits_ok {run : σ → Run (Option (α × Option σ))} {step : σ → Option (α × Option σ)}
    {Inv : σ → Prop} (hrun : ∀ s, Inv s → run s = .ok (step s))
    (hnext : ∀ s a s', Inv s → step s = some (a, some s') → Inv s') {n : ℕ} {s : σ}
    (hs : Inv s) : visits run n s = .ok (Loop.visits step n s) := by
  induction n generalizing s with
  | zero => rfl
  | succ n ih =>
      rw [visits, hrun s hs, ok_bind]
      match h : step s with
      | none => rw [Loop.visits_of_none h]
      | some (a, none) => rw [Loop.visits_of_last h]
      | some (a, some s') =>
          rw [Loop.visits_of_next h]
          simp only [ih (hnext s a s' hs h), ok_bind]

/-- `Loop.forBreak` with a body that may panic. -/
def forBreak (body : ℕ → Run (Option α)) : ℕ → ℕ → Run (List α)
  | 0, _ => .ok []
  | k + 1, i => do
    match ← body i with
    | none => .ok []
    | some a =>
      let rest ← forBreak body k (i + 1)
      .ok (a :: rest)

/-- A loop over a range whose body returns at every index returns. -/
theorem forBreak_ok {run : ℕ → Run (Option α)} {body : ℕ → Option α} {k i : ℕ}
    (hrun : ∀ j, i ≤ j → j < i + k → run j = .ok (body j)) :
    forBreak run k i = .ok (Loop.forBreak body k i) := by
  induction k generalizing i with
  | zero => rfl
  | succ k ih =>
      have hrest := @ih (i + 1) fun j h1 h2 => hrun j (by omega) (by omega)
      rw [forBreak, hrun i le_rfl (by omega), ok_bind, Loop.forBreak]
      cases body i with
      | none => rfl
      | some a => simp only [hrest, ok_bind]

/-- A loop that collects what its body returns. -/
theorem mapM_ok {run : α → Run β} {f : α → β} {xs : List α}
    (hrun : ∀ x ∈ xs, run x = .ok (f x)) : xs.mapM run = .ok (xs.map f) := by
  induction xs with
  | nil => rfl
  | cons x xs ih =>
      rw [List.mapM_cons, hrun x (List.mem_cons_self ..), ok_bind,
        ih fun y hy => hrun y (List.mem_cons_of_mem _ hy)]
      rfl

/-- A loop that updates a state, with a preserved invariant. -/
theorem foldlM_ok {run : σ → α → Run σ} {f : σ → α → σ} {Inv : σ → Prop} {xs : List α}
    (hrun : ∀ s, Inv s → ∀ x ∈ xs, run s x = .ok (f s x))
    (hnext : ∀ s, Inv s → ∀ x ∈ xs, Inv (f s x)) {s : σ} (hs : Inv s) :
    xs.foldlM run s = .ok (xs.foldl f s) := by
  induction xs generalizing s with
  | nil => rfl
  | cons x xs ih =>
      rw [List.foldlM_cons, hrun s hs x (List.mem_cons_self ..), ok_bind, List.foldl_cons]
      exact ih (fun t ht y hy => hrun t ht y (List.mem_cons_of_mem _ hy))
        (fun t ht y hy => hnext t ht y (List.mem_cons_of_mem _ hy))
        (hnext s hs x (List.mem_cons_self ..))

end Panics

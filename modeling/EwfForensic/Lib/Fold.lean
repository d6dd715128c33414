import Mathlib.Tactic
import Mathlib.Data.List.Basic

/-!
# Loops That May Fail

A `for` loop whose body may fail is `List.foldlM` in `Except`. A loop that ends without an error
went through every element, so an invariant that speaks of the elements met so far ends up
speaking of all of them (`foldlM_prefix`). `foldlM_mem` is the rule for a fact about each element
that any turn which succeeds establishes.
-/

namespace Fold

variable {ε σ α : Type*} {step : σ → α → Except ε σ} {l : List α} {s s' : σ}

/-- A loop goes on where its first turn ends. -/
theorem foldlM_cons_eq_ok_iff {x : α} :
    (x :: l).foldlM step s = .ok s' ↔ ∃ s₁, step s x = .ok s₁ ∧ l.foldlM step s₁ = .ok s' := by
  rw [List.foldlM_cons]
  cases step s x with
  | error e => simp [bind, Except.bind]
  | ok s₁ => simp [bind, Except.bind]

/-- **Prefix rule.** A relation between the elements met and the state, preserved by every turn
that succeeds, holds of all elements at the end of a loop that succeeds. -/
theorem foldlM_prefix (R : List α → σ → Prop) (h : l.foldlM step s = .ok s') {p : List α}
    (hs : R p s) (hstep : ∀ p x s s', R p s → step s x = .ok s' → R (p ++ [x]) s') :
    R (p ++ l) s' := by
  induction l generalizing p s with
  | nil =>
      obtain rfl := Except.ok.inj h
      rwa [List.append_nil]
  | cons x l ih =>
      obtain ⟨s₁, h1, hrest⟩ := foldlM_cons_eq_ok_iff.mp h
      have := ih hrest (hstep p x s s₁ hs h1)
      rwa [List.append_assoc] at this

/-- **Element rule.** What every turn that succeeds shows of its element holds of all elements of
a loop that succeeds. -/
theorem foldlM_mem {P : α → Prop} (h : l.foldlM step s = .ok s')
    (hstep : ∀ x s s', step s x = .ok s' → P x) : ∀ x ∈ l, P x := by
  have := foldlM_prefix (fun p _ => ∀ x ∈ p, P x) h (p := []) (by simp)
    fun p x s s' hp hx y hy => by
    rcases List.mem_append.mp hy with hy | hy
    · exact hp y hy
    · obtain rfl := List.mem_singleton.mp hy
      exact hstep _ s s' hx
  simpa using this

/-- A loop succeeds when every turn succeeds, whatever the state it starts from. -/
theorem exists_foldlM (h : ∀ x ∈ l, ∀ s, ∃ s', step s x = .ok s') (s : σ) :
    ∃ s', l.foldlM step s = .ok s' := by
  induction l generalizing s with
  | nil => exact ⟨s, rfl⟩
  | cons x l ih =>
      obtain ⟨s₁, h1⟩ := h x (List.mem_cons_self ..) s
      obtain ⟨s₂, h2⟩ := ih (fun y hy => h y (List.mem_cons_of_mem _ hy)) s₁
      exact ⟨s₂, foldlM_cons_eq_ok_iff.mpr ⟨s₁, h1, h2⟩⟩

end Fold

import Mathlib.Tactic
import Mathlib.Data.List.Forall2

/-!
# Interleaved Threads

Threads that take atomic steps on one shared state, in any order. A thread is a local state;
`step s t` is its next step, or `none` once it has finished.

* `Run step n c c'` — some interleaving of `n` steps leads from configuration `c` to `c'`.
* `Run.invariant` — the invariant rule: what each step keeps of the shared state and of the
  stepping thread holds in every configuration reached, whatever the interleaving.
* `Run.add_rank_le` — steps that lower a rank bound the length of every run.
* `exists_finished` — and then every configuration reached can be run until all threads have
  finished.
-/

namespace Interleave

variable {σ τ γ : Type*}

/-- Some interleaving of `n` steps leads from one configuration to another. -/
inductive Run (step : σ → τ → Option (σ × τ)) (c : σ × List τ) : ℕ → σ × List τ → Prop
  | refl : Run step c 0 c
  | tail {n : ℕ} {s s' : σ} {ts : List τ} {i : ℕ} {t t' : τ} (h : Run step c n (s, ts))
      (hi : ts[i]? = some t) (hstep : step s t = some (s', t')) :
      Run step c (n + 1) (s', ts.set i t')

variable {step : σ → τ → Option (σ × τ)}

theorem Run.trans {c c' c'' : σ × List τ} {n m : ℕ} (h : Run step c n c')
    (h' : Run step c' m c'') : Run step c (n + m) c'' := by
  induction h' with
  | refl => exact h
  | tail _ hi hstep ih => exact .tail ih hi hstep

/-- A right-hand element has its partner. -/
theorem exists_left {T : γ → τ → Prop} {gs : List γ} {ts : List τ} (h : List.Forall₂ T gs ts)
    {i : ℕ} {t : τ} (hi : ts[i]? = some t) : ∃ g, gs[i]? = some g ∧ T g t := by
  induction h generalizing i with
  | nil => cases hi
  | cons hgt _ ih =>
      cases i with
      | zero =>
          obtain rfl := Option.some.inj hi
          exact ⟨_, rfl, hgt⟩
      | succ i => exact ih hi

/-- Replacing one of the right-hand elements keeps a relation that the new one satisfies. -/
theorem forall₂_set {T : γ → τ → Prop} {gs : List γ} {ts : List τ} (h : List.Forall₂ T gs ts)
    {i : ℕ} {t t' : τ} (hi : ts[i]? = some t) (ht : ∀ g, T g t → T g t') :
    List.Forall₂ T gs (ts.set i t') := by
  induction h generalizing i with
  | nil => cases hi
  | cons hgt hrest ih =>
      cases i with
      | zero =>
          obtain rfl := Option.some.inj hi
          exact .cons (ht _ hgt) hrest
      | succ i => exact .cons hgt (ih hi)

/-- **Invariant rule.** If every step keeps `S` of the shared state and `T` of the thread that
takes it, both hold in every configuration that an interleaving reaches. Each thread keeps its
own parameter. -/
theorem Run.invariant {S : σ → Prop} {T : γ → τ → Prop}
    (hstep : ∀ g s t s' t', S s → T g t → step s t = some (s', t') → S s' ∧ T g t')
    {s : σ} {ts : List τ} {gs : List γ} {n : ℕ} {c : σ × List τ}
    (h : Run step (s, ts) n c) (hs : S s) (hts : List.Forall₂ T gs ts) :
    S c.1 ∧ List.Forall₂ T gs c.2 := by
  induction h with
  | refl => exact ⟨hs, hts⟩
  | tail _ hi hst ih =>
      obtain ⟨hs', hts'⟩ := ih
      obtain ⟨g, -, hg⟩ := exists_left hts' hi
      exact ⟨(hstep g _ _ _ _ hs' hg hst).1,
        forall₂_set hts' hi fun g' hg' => (hstep g' _ _ _ _ hs' hg' hst).2⟩

/-- The ranks of the threads after one of them stepped. -/
theorem sum_map_set (rank : τ → ℕ) {ts : List τ} {i : ℕ} {t t' : τ} (hi : ts[i]? = some t) :
    ((ts.set i t').map rank).sum + rank t = (ts.map rank).sum + rank t' := by
  induction ts generalizing i with
  | nil => cases hi
  | cons a ts ih =>
      cases i with
      | zero =>
          obtain rfl := Option.some.inj hi
          simp only [List.set_cons_zero, List.map_cons, List.sum_cons]
          omega
      | succ i =>
          have := @ih i hi
          simp only [List.set_cons_succ, List.map_cons, List.sum_cons]
          omega

variable {rank : τ → ℕ}

/-- **Every run is bounded** by the ranks of its threads, when a step lowers its thread's. -/
theorem Run.add_rank_le
    (hrank : ∀ s t s' t', step s t = some (s', t') → rank t' < rank t)
    {c c' : σ × List τ} {n : ℕ} (h : Run step c n c') :
    n + (c'.2.map rank).sum ≤ (c.2.map rank).sum := by
  induction h with
  | refl => exact Nat.zero_add _ |>.le
  | @tail n s s' ts i t t' _ hi hst ih =>
      have hlt := hrank _ _ _ _ hst
      have hsum := @sum_map_set τ rank ts i t t' hi
      simp only at ih ⊢
      omega

/-- **Every run can be finished**: from any configuration, some interleaving leads to one in
which no thread has a step left. -/
theorem exists_finished
    (hrank : ∀ s t s' t', step s t = some (s', t') → rank t' < rank t) (c : σ × List τ) :
    ∃ n c', Run step c n c' ∧ ∀ t ∈ c'.2, step c'.1 t = none := by
  obtain ⟨s, ts⟩ := c
  induction hm : (ts.map rank).sum using Nat.strong_induction_on generalizing s ts with
  | _ m ih =>
      by_cases hall : ∀ t ∈ ts, step s t = none
      · exact ⟨0, (s, ts), .refl, hall⟩
      · push Not at hall
        obtain ⟨t, ht, hne⟩ := hall
        obtain ⟨⟨s', t'⟩, hst⟩ := Option.ne_none_iff_exists'.mp hne
        obtain ⟨i, hi⟩ := List.mem_iff_getElem?.mp ht
        have hlt := hrank _ _ _ _ hst
        have hsum := @sum_map_set τ rank ts i t t' hi
        obtain ⟨n, c', hrun, hfin⟩ := ih _ (by omega) s' (ts.set i t') rfl
        exact ⟨0 + 1 + n, c', (Run.tail .refl hi hst).trans hrun, hfin⟩

end Interleave

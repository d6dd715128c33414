import Mathlib.Algebra.BigOperators.Group.List.Basic
import Mathlib.Algebra.GroupWithZero.Nat
import Mathlib.Algebra.Order.BigOperators.Group.List

/-!
# Reports That Count Work

A loop whose turns do work and sometimes report a running total. `Counts` says that each report
counts the work of its turn and of those before.

* `Counts.pairwise`, `Counts.pairwise_lt` — then the totals never go back, and go on where every
  turn does some work.
* `counts_zipIdx` — the rule for turns with an index, whose totals are a function of it.
* `counts_append`, `counts_of_silent` — runs one after the other, and runs without reports.
* `counts_flatten` — runs of which one alone reports and the others do no work.
* `Counts.last` — the last report counts the work of the whole run.
* `counts_iff_whole` — where reports count what the turns should do, they count what these do
  exactly when every turn up to the last that reports does all it should.
-/

namespace Ledger

variable {τ ρ : Type*} {total : ρ → ℕ} {work span : τ → ℕ} {reports : τ → List ρ}

/-- Every report counts the work up to it, `before` the first turn included. -/
def Counts (total : ρ → ℕ) (work : τ → ℕ) (reports : τ → List ρ) : ℕ → List τ → Prop
  | _, [] => True
  | before, t :: ts =>
    (∀ p ∈ reports t, total p = before + work t) ∧ Counts total work reports (before + work t) ts

/-- No turn reports. -/
def Silent (reports : τ → List ρ) (ts : List τ) : Prop := ∀ t ∈ ts, reports t = []

/-- Every turn up to the last that reports does all it should. -/
def Whole (work span : τ → ℕ) (reports : τ → List ρ) : List τ → Prop
  | [] => True
  | t :: ts => (¬ Silent reports (t :: ts) → work t = span t) ∧ Whole work span reports ts

theorem counts_append (before : ℕ) (ts us : List τ) :
    Counts total work reports before (ts ++ us) ↔ Counts total work reports before ts ∧
      Counts total work reports (before + (ts.map work).sum) us := by
  induction ts generalizing before with
  | nil => simp [Counts]
  | cons t ts ih =>
      rw [List.cons_append, Counts, Counts, ih, List.map_cons, List.sum_cons, Nat.add_assoc,
        and_assoc]

theorem counts_of_silent {ts : List τ} (h : Silent reports ts) (before : ℕ) :
    Counts total work reports before ts := by
  induction ts generalizing before with
  | nil => trivial
  | cons t ts ih =>
      refine ⟨?_, ih (fun u hu => h u (List.mem_cons_of_mem _ hu)) _⟩
      rw [h t (List.mem_cons_self ..)]
      exact fun p hp => absurd hp List.not_mem_nil

theorem silent_flatten {groups : List (List τ)} (h : ∀ g ∈ groups, Silent reports g) :
    Silent reports groups.flatten := by
  intro t ht
  obtain ⟨g, hg, ht⟩ := List.mem_flatten.mp ht
  exact h g hg t ht

/-- **One run of several alone reports**: when the others do no work, it counts that of all. -/
theorem counts_flatten {groups : List (List τ)}
    (hone : groups.Pairwise fun g g' => Silent reports g ∨ Silent reports g')
    (hidle : ∀ g ∈ groups, Silent reports g → (g.map work).sum = 0)
    (hcounts : ∀ g ∈ groups, ¬ Silent reports g → Counts total work reports 0 g) :
    Counts total work reports 0 groups.flatten := by
  induction groups with
  | nil => trivial
  | cons g groups ih =>
      obtain ⟨hfirst, hrest⟩ := List.pairwise_cons.mp hone
      rw [List.forall_mem_cons] at hidle hcounts
      rw [List.flatten_cons, counts_append]
      by_cases hg : Silent reports g
      · rw [hidle.1 hg]
        exact ⟨counts_of_silent hg 0, ih hrest hidle.2 hcounts.2⟩
      · have hsilent : ∀ g' ∈ groups, Silent reports g' := fun g' hg' =>
          (hfirst g' hg').resolve_left hg
        exact ⟨hcounts.1 hg, counts_of_silent (silent_flatten hsilent) _⟩

/-- The reports of the last turn count the work of the run. -/
theorem Counts.last {ts : List τ} {t : τ} {before : ℕ}
    (h : Counts total work reports before (ts ++ [t])) {p : ρ} (hp : p ∈ reports t) :
    total p = before + ((ts ++ [t]).map work).sum := by
  have hlast := ((counts_append before ts [t]).mp h).2
  rw [hlast.1 p hp, List.map_append, List.sum_append, List.map_singleton, List.sum_singleton,
    Nat.add_assoc]

/-- Reports count at least the work before them. -/
theorem Counts.le {ts : List τ} {before : ℕ} (h : Counts total work reports before ts) :
    ∀ p ∈ ts.flatMap reports, before ≤ total p := by
  induction ts generalizing before with
  | nil => exact fun p hp => absurd hp List.not_mem_nil
  | cons t ts ih =>
      obtain ⟨hfirst, hrest⟩ := h
      intro p hp
      rcases List.mem_append.mp (List.flatMap_cons ▸ hp) with hp | hp
      · exact (hfirst p hp).symm ▸ Nat.le_add_right _ _
      · exact le_trans (Nat.le_add_right _ _) (ih hrest p hp)

/-- **Reports that count work never go back.** -/
theorem Counts.pairwise {ts : List τ} {before : ℕ} (h : Counts total work reports before ts) :
    ((ts.flatMap reports).map total).Pairwise (· ≤ ·) := by
  induction ts generalizing before with
  | nil => exact List.Pairwise.nil
  | cons t ts ih =>
      obtain ⟨hfirst, hrest⟩ := h
      rw [List.flatMap_cons, List.map_append, List.pairwise_append]
      refine ⟨?_, ih hrest, ?_⟩
      · rw [List.pairwise_map]
        exact List.pairwise_of_forall_mem_list fun p hp q hq =>
          le_of_eq ((hfirst p hp).trans (hfirst q hq).symm)
      · simp only [List.forall_mem_map]
        intro p hp q hq
        rw [hfirst p hp]
        exact hrest.le q hq

/-- Reports count more than the work before them where every turn does some. -/
theorem Counts.lt {ts : List τ} {before : ℕ} (h : Counts total work reports before ts)
    (hpos : ∀ t ∈ ts, 0 < work t) : ∀ p ∈ ts.flatMap reports, before < total p := by
  cases ts with
  | nil => exact fun p hp => absurd hp List.not_mem_nil
  | cons t ts =>
      have ht := hpos t (List.mem_cons_self ..)
      intro p hp
      rcases List.mem_append.mp (List.flatMap_cons ▸ hp) with hp | hp
      · have := h.1 p hp
        omega
      · have := h.2.le p hp
        omega

/-- **Reports that count work go on** where every turn does some work and reports once at most. -/
theorem Counts.pairwise_lt {ts : List τ} {before : ℕ} (h : Counts total work reports before ts)
    (hpos : ∀ t ∈ ts, 0 < work t) (hone : ∀ t ∈ ts, (reports t).length ≤ 1) :
    ((ts.flatMap reports).map total).Pairwise (· < ·) := by
  induction ts generalizing before with
  | nil => exact List.Pairwise.nil
  | cons t ts ih =>
      obtain ⟨hfirst, hrest⟩ := h
      have hts : ∀ u ∈ ts, 0 < work u := fun u hu => hpos u (List.mem_cons_of_mem _ hu)
      rw [List.flatMap_cons, List.map_append, List.pairwise_append]
      refine ⟨?_, ih hrest hts fun u hu => hone u (List.mem_cons_of_mem _ hu), ?_⟩
      · have hlen := hone t (List.mem_cons_self ..)
        rw [← List.length_map total] at hlen
        match hmap : (reports t).map total with
        | [] => exact List.Pairwise.nil
        | [a] => exact List.pairwise_singleton _ a
        | a :: b :: rest =>
            rw [hmap, List.length_cons, List.length_cons] at hlen
            omega
      · simp only [List.forall_mem_map]
        intro p hp q hq
        rw [hfirst p hp]
        exact hrest.lt hts q hq

/-- The rule for turns with an index: where the totals are the function `sum` of the index, and this
grows by each turn's work, the reports count the work. -/
theorem counts_zipIdx {α : Type*} {f : α × ℕ → τ} {sum : ℕ → ℕ} {run : List α} {i : ℕ}
    (hwork : ∀ q ∈ run.zipIdx i, sum (q.2 + 1) = sum q.2 + work (f q))
    (htotal : ∀ q ∈ run.zipIdx i, ∀ p ∈ reports (f q), total p = sum (q.2 + 1)) :
    Counts total work reports (sum i) ((run.zipIdx i).map f) := by
  induction run generalizing i with
  | nil => trivial
  | cons a run ih =>
      rw [List.zipIdx_cons, List.forall_mem_cons] at hwork htotal
      rw [List.zipIdx_cons, List.map_cons, Counts, ← hwork.1]
      exact ⟨htotal.1, ih hwork.2 htotal.2⟩

/-- Work that has fallen behind what is counted stays behind. -/
theorem silent_of_counts_of_lt {ts : List τ} {before before' : ℕ} (hlt : before' < before)
    (hle : ∀ t ∈ ts, work t ≤ span t) (hspan : Counts total span reports before ts)
    (hwork : Counts total work reports before' ts) : Silent reports ts := by
  induction ts generalizing before before' with
  | nil => exact fun t ht => absurd ht List.not_mem_nil
  | cons t ts ih =>
      have ht := hle t (List.mem_cons_self ..)
      intro u hu
      rcases List.mem_cons.mp hu with rfl | hu
      · rw [List.eq_nil_iff_forall_not_mem]
        intro p hp
        have := (hspan.1 p hp).symm.trans (hwork.1 p hp)
        omega
      · exact ih (by omega) (fun u hu => hle u (List.mem_cons_of_mem _ hu)) hspan.2 hwork.2 u hu

theorem whole_of_silent {ts : List τ} (h : Silent reports ts) : Whole work span reports ts := by
  induction ts with
  | nil => trivial
  | cons t ts ih =>
      exact ⟨fun hloud => absurd h hloud, ih fun u hu => h u (List.mem_cons_of_mem _ hu)⟩

/-- **When reports count the work done**: where they count what the turns should do, exactly when
every turn up to the last that reports does all of it. -/
theorem counts_iff_whole {ts : List τ} {before : ℕ} (hle : ∀ t ∈ ts, work t ≤ span t)
    (hspan : Counts total span reports before ts) :
    Counts total work reports before ts ↔ Whole work span reports ts := by
  induction ts generalizing before with
  | nil => exact Iff.rfl
  | cons t ts ih =>
      have ht := hle t (List.mem_cons_self ..)
      have hts : ∀ u ∈ ts, work u ≤ span u := fun u hu => hle u (List.mem_cons_of_mem _ hu)
      by_cases hwhole : work t = span t
      · have hrest := hspan.2
        rw [← hwhole] at hrest
        rw [Counts, Whole, ih hts hrest, hwhole]
        exact and_congr (iff_of_true hspan.1 fun _ => rfl) Iff.rfl
      · have hlt : work t < span t := lt_of_le_of_ne ht hwhole
        constructor
        · intro hwork
          refine whole_of_silent fun u hu => ?_
          rcases List.mem_cons.mp hu with rfl | hu
          · rw [List.eq_nil_iff_forall_not_mem]
            intro p hp
            have := (hspan.1 p hp).symm.trans (hwork.1 p hp)
            omega
          · exact silent_of_counts_of_lt (by omega) hts hspan.2 hwork.2 u hu
        · rintro ⟨hfirst, -⟩
          have hsilent : Silent reports (t :: ts) := by
            by_contra hloud
            exact hwhole (hfirst hloud)
          exact counts_of_silent hsilent before

end Ledger

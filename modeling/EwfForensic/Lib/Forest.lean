import Mathlib.Data.List.Forall2
import Mathlib.Data.List.Pairwise
import Mathlib.Logic.Relation
import Mathlib.Tactic.Ring

/-!
# Forests in Pre-Order

A forest can be stored as a list of records, parents before children, in which every record names
its parent and its children by their positions.

* `Forest` — a forest, by its first tree and the trees after it.
* `Forest.layout` — its records from a position on.
* `WellLinked` — what a list of links has to satisfy: parents stand before their children, the two
  kinds of links agree, and what stands below a position is an interval.
* `Forest.wellLinked_layout` — the layout of a forest is well linked.
-/

/-- A forest: nothing, or a tree, by its root and the forest below it, and the trees after it. -/
inductive Forest (α : Type*) where
  | nil
  | node (a : α) (below after : Forest α)

namespace Forest

variable {α β γ : Type*}

/-- The number of nodes. -/
def size : Forest α → ℕ
  | nil => 0
  | node _ below after => below.size + 1 + after.size

/-- The number of trees. -/
def width : Forest α → ℕ
  | nil => 0
  | node _ _ after => after.width + 1

/-- The values in pre-order. -/
def values : Forest α → List α
  | nil => []
  | node a below after => a :: (below.values ++ after.values)

/-- One forest after another. -/
def append : Forest α → Forest α → Forest α
  | nil, G => G
  | node a below after, G => node a below (after.append G)

def map (f : α → β) : Forest α → Forest β
  | nil => nil
  | node a below after => node (f a) (below.map f) (after.map f)

/-- The positions of the roots, from position `n` on. -/
def roots (n : ℕ) : Forest α → List ℕ
  | nil => []
  | node _ below after => n :: after.roots (n + 1 + below.size)

/-- The records of a forest in pre-order, from position `n` on. `place` makes the record of a value,
from the positions of its parent and of its children. -/
def layout (place : α → Option ℕ → List ℕ → β) (parent : Option ℕ) (n : ℕ) : Forest α → List β
  | nil => []
  | node a below after =>
    place a parent (below.roots (n + 1)) ::
      (below.layout place (some n) (n + 1) ++ after.layout place parent (n + 1 + below.size))

@[simp] theorem size_append (F G : Forest α) : (F.append G).size = F.size + G.size := by
  induction F with
  | nil => simp [append, size]
  | node a below after _ ih =>
      rw [append, size, size, ih]
      ring

theorem width_le (F : Forest α) : F.width ≤ F.size := by
  induction F with
  | nil => exact le_rfl
  | node a below after _ ih =>
      rw [width, size]
      omega

theorem map_append (f : α → β) (F G : Forest α) :
    (F.append G).map f = (F.map f).append (G.map f) := by
  induction F with
  | nil => rfl
  | node a below after _ ih => rw [append, map, map, append, ih]

@[simp] theorem size_map (f : α → β) (F : Forest α) : (F.map f).size = F.size := by
  induction F with
  | nil => rfl
  | node a below after ihb iha => rw [map, size, size, ihb, iha]

@[simp] theorem roots_map (f : α → β) (F : Forest α) (n : ℕ) : (F.map f).roots n = F.roots n := by
  induction F generalizing n with
  | nil => rfl
  | node a below after _ iha => rw [map, roots, roots, size_map, iha]

theorem roots_append (F G : Forest α) (n : ℕ) :
    (F.append G).roots n = F.roots n ++ G.roots (n + F.size) := by
  induction F generalizing n with
  | nil => rfl
  | node a below after _ ih =>
      rw [append, roots, roots, ih, List.cons_append, size]
      ring_nf

section Layout

variable (place : α → Option ℕ → List ℕ → β)

theorem layout_append (parent : Option ℕ) (n : ℕ) (F G : Forest α) :
    (F.append G).layout place parent n =
      F.layout place parent n ++ G.layout place parent (n + F.size) := by
  induction F generalizing parent n with
  | nil => rfl
  | node a below after _ ih =>
      rw [append, layout, layout, ih, List.cons_append, List.append_assoc, size]
      ring_nf

@[simp] theorem length_layout (parent : Option ℕ) (n : ℕ) (F : Forest α) :
    (F.layout place parent n).length = F.size := by
  induction F generalizing parent n with
  | nil => rfl
  | node a below after ihb iha =>
      rw [layout, List.length_cons, List.length_append, ihb, iha, size]
      ring

/-- What a record shows, laid out. -/
theorem map_layout (f : β → γ) (parent : Option ℕ) (n : ℕ) (F : Forest α) :
    (F.layout place parent n).map f = F.layout (fun a p cs => f (place a p cs)) parent n := by
  induction F generalizing parent n with
  | nil => rfl
  | node a below after ihb iha => rw [layout, layout, List.map_cons, List.map_append, ihb, iha]

/-- The records stand in the order of the values. -/
theorem forall₂_layout {R : α → β → Prop} (h : ∀ a p cs, R a (place a p cs)) (parent : Option ℕ)
    (n : ℕ) (F : Forest α) : List.Forall₂ R F.values (F.layout place parent n) := by
  induction F generalizing parent n with
  | nil => exact List.Forall₂.nil
  | node a below after ihb iha =>
      exact List.Forall₂.cons (h a _ _) (List.rel_append (ihb _ _) (iha _ _))

/-- A layout of values that are made from others. -/
theorem layout_map (f : γ → α) (parent : Option ℕ) (n : ℕ) (F : Forest γ) :
    (F.map f).layout place parent n = F.layout (fun c p cs => place (f c) p cs) parent n := by
  induction F generalizing parent n with
  | nil => rfl
  | node c below after ihb iha => rw [map, layout, layout, ihb, iha, roots_map, size_map]

end Layout

/-! ### Roots -/

theorem mem_roots_bounds {F : Forest α} {n m : ℕ} (h : m ∈ F.roots n) : n ≤ m ∧ m < n + F.size := by
  induction F generalizing n with
  | nil => cases h
  | node a below after _ ih =>
      rw [size]
      rcases List.mem_cons.mp h with rfl | h
      · omega
      · have := ih h
        omega

theorem roots_ascending (F : Forest α) (n : ℕ) : (F.roots n).Pairwise (· < ·) := by
  induction F generalizing n with
  | nil => exact List.Pairwise.nil
  | node a below after _ ih =>
      refine List.Pairwise.cons (fun m hm => ?_) (ih _)
      have := mem_roots_bounds hm
      omega

end Forest

/-! ### Links -/

/-- The positions that a record names. -/
structure Link where
  parent : Option ℕ
  children : List ℕ
  deriving DecidableEq

namespace Link

/-- The parent of position `k`. -/
def parentOf (links : List Link) (k : ℕ) : Option ℕ := (links[k]?).bind Link.parent

/-- The children of position `k`. -/
def childrenOf (links : List Link) (k : ℕ) : List ℕ := ((links[k]?).map Link.children).getD []

/-- Position `k` is reached from `m` by some steps to the parent, or by none. -/
def Above (links : List Link) : ℕ → ℕ → Prop :=
  Relation.ReflTransGen fun q k => parentOf links k = some q

/-- **Well linked**: parents before children, both kinds of links agree and every child is named
once, in ascending order, and what is below a position is an interval that starts there. -/
structure WellLinked (links : List Link) : Prop where
  parent_lt : ∀ k q, parentOf links k = some q → q < k ∧ k < links.length
  mem_children : ∀ k m, m ∈ childrenOf links k ↔ parentOf links m = some k
  children_ascending : ∀ k, (childrenOf links k).Pairwise (· < ·)
  subtree : ∀ k < links.length, ∃ j, k < j ∧ j ≤ links.length ∧
    ∀ m, Above links k m ↔ k ≤ m ∧ m < j

/-- A child is named exactly once, by its parent alone. -/
theorem WellLinked.count_children {links : List Link} (h : WellLinked links) (k m : ℕ) :
    (childrenOf links k).count m = if parentOf links m = some k then 1 else 0 := by
  have hnodup : (childrenOf links k).Nodup := (h.children_ascending k).imp ne_of_lt
  rw [hnodup.count, if_congr (h.mem_children k m) rfl rfl]

theorem parentOf_lt_length {links : List Link} {k q : ℕ} (h : parentOf links k = some q) :
    k < links.length := by
  by_contra hk
  rw [parentOf, List.getElem?_eq_none (not_lt.mp hk)] at h
  cases h

end Link

namespace Forest

open Link

variable {α : Type*} {links : List Link}

/-- A forest lies in a list of links from position `n` on, below `parent`. -/
def Laid (links : List Link) (parent : Option ℕ) (n : ℕ) : Forest α → Prop
  | nil => True
  | node _ below after =>
    links[n]? = some ⟨parent, below.roots (n + 1)⟩ ∧ Laid links (some n) (n + 1) below ∧
      Laid links parent (n + 1 + below.size) after

/-- The links of a forest lie where its layout stands. -/
theorem laid_layout (parent : Option ℕ) (F : Forest α) (front back : List Link) :
    Laid (front ++ (F.layout (fun _ p cs => ⟨p, cs⟩) parent front.length ++ back)) parent
      front.length F := by
  induction F generalizing parent front back with
  | nil => trivial
  | node a below after ihb iha =>
      refine ⟨?_, ?_, ?_⟩
      · rw [layout, List.cons_append, List.getElem?_append_right le_rfl, Nat.sub_self,
          List.getElem?_cons_zero]
      · have hbelow := ihb (some front.length) (front ++ [⟨parent, below.roots (front.length + 1)⟩])
          (after.layout (fun _ p cs => ⟨p, cs⟩) parent (front.length + 1 + below.size) ++ back)
        rw [List.length_append, List.length_singleton] at hbelow
        rw [layout]
        simpa only [List.append_assoc, List.cons_append, List.nil_append] using hbelow
      · have hafter := iha parent (front ++ (⟨parent, below.roots (front.length + 1)⟩ ::
          below.layout (fun _ p cs => ⟨p, cs⟩) (some front.length) (front.length + 1))) back
        rw [List.length_append, List.length_cons, length_layout,
          show front.length + (below.size + 1) = front.length + 1 + below.size by ring] at hafter
        rw [layout]
        simpa only [List.append_assoc, List.cons_append] using hafter

section Laid

variable {F : Forest α} {parent : Option ℕ} {n : ℕ}

/-- A parent is the one of the forest, or a position in it. -/
theorem Laid.parent_cases (h : Laid links parent n F) {m : ℕ} (hn : n ≤ m) (hm : m < n + F.size) :
    parentOf links m = parent ∨ ∃ q, parentOf links m = some q ∧ n ≤ q ∧ q < m := by
  induction F generalizing parent n with
  | nil => rw [size] at hm; omega
  | node a below after ihb iha =>
      obtain ⟨hroot, hbelow, hafter⟩ := h
      rw [size] at hm
      rcases Nat.eq_or_lt_of_le hn with rfl | hlt
      · rw [parentOf, hroot]
        exact Or.inl rfl
      rcases Nat.lt_or_ge m (n + 1 + below.size) with hin | hout
      · rcases ihb hbelow hlt hin with hp | ⟨q, hp, hq⟩
        · exact Or.inr ⟨n, hp, le_rfl, hlt⟩
        · exact Or.inr ⟨q, hp, by omega⟩
      · rcases iha hafter hout (by omega) with hp | ⟨q, hp, hq⟩
        · exact Or.inl hp
        · exact Or.inr ⟨q, hp, by omega⟩

/-- The roots are the positions with the forest's own parent. -/
theorem Laid.mem_roots (h : Laid links parent n F) (hparent : ∀ q ∈ parent, q < n) {m : ℕ}
    (hn : n ≤ m) (hm : m < n + F.size) : m ∈ F.roots n ↔ parentOf links m = parent := by
  induction F generalizing parent n with
  | nil => rw [size] at hm; omega
  | node a below after _ iha =>
      obtain ⟨hroot, hbelow, hafter⟩ := h
      rw [size] at hm
      rw [roots, List.mem_cons]
      rcases Nat.eq_or_lt_of_le hn with rfl | hlt
      · rw [parentOf, hroot]
        exact iff_of_true (Or.inl rfl) rfl
      rcases Nat.lt_or_ge m (n + 1 + below.size) with hin | hout
      · refine iff_of_false ?_ fun hp => ?_
        · rintro (rfl | hmem)
          · omega
          · have := mem_roots_bounds hmem
            omega
        · -- A position below the root has a parent in the tree, the forest's is before it.
          have hown : ∃ q, parentOf links m = some q ∧ n ≤ q := by
            rcases hbelow.parent_cases hlt hin with hq | ⟨q, hq, hle, -⟩
            · exact ⟨n, hq, le_rfl⟩
            · exact ⟨q, hq, by omega⟩
          obtain ⟨q, hq, hle⟩ := hown
          have := hparent q (by rw [← hp, hq]; exact rfl)
          omega
      · rw [← iha hafter (fun q hq => by have := hparent q hq; omega) hout (by omega)]
        exact or_iff_right (by omega)

/-- **The tree at a position**: its children are the roots of a forest that lies behind it, and no
position after that forest has its parent there. -/
theorem Laid.subtree (h : Laid links parent n F) (hparent : ∀ q ∈ parent, q < n) {k : ℕ}
    (hn : n ≤ k) (hk : k < n + F.size) :
    ∃ below : Forest α, childrenOf links k = below.roots (k + 1) ∧
      Laid links (some k) (k + 1) below ∧ k + 1 + below.size ≤ n + F.size ∧
      ∀ m q, k + 1 + below.size ≤ m → m < n + F.size → parentOf links m = some q →
        q < k ∨ k + 1 + below.size ≤ q := by
  induction F generalizing parent n with
  | nil => rw [size] at hk; omega
  | node a below after ihb iha =>
      obtain ⟨hroot, hbelow, hafter⟩ := h
      rw [size] at hk ⊢
      have hparent' : ∀ q ∈ parent, q < n + 1 + below.size := fun q hq => by
        have := hparent q hq
        omega
      have hlater : ∀ m q, n + 1 + below.size ≤ m → m < n + (below.size + 1 + after.size) →
          parentOf links m = some q → q < n ∨ n + 1 + below.size ≤ q := by
        intro m q hle hlt hq
        rcases hafter.parent_cases hle (by omega) with hp | ⟨q', hq', hle', -⟩
        · exact Or.inl (hparent q (by rw [← hp, hq]; exact rfl))
        · obtain rfl := Option.some.inj (hq.symm.trans hq')
          exact Or.inr hle'
      rcases Nat.eq_or_lt_of_le hn with rfl | hlt
      · refine ⟨below, ?_, hbelow, by omega, hlater⟩
        rw [childrenOf, hroot]
        rfl
      rcases Nat.lt_or_ge k (n + 1 + below.size) with hin | hout
      · obtain ⟨sub, hchildren, hlaid, hle, hrest⟩ :=
          ihb hbelow (fun q hq => by obtain rfl := Option.some.inj hq; omega) hlt hin
        refine ⟨sub, hchildren, hlaid, by omega, fun m q hm hmlt hq => ?_⟩
        rcases Nat.lt_or_ge m (n + 1 + below.size) with hmin | hmout
        · exact hrest m q hm hmin hq
        · rcases hlater m q hmout hmlt hq with hq | hq
          · exact Or.inl (by omega)
          · exact Or.inr (by omega)
      · obtain ⟨sub, hchildren, hlaid, hle, hrest⟩ := iha hafter hparent' hout (by omega)
        exact ⟨sub, hchildren, hlaid, by omega, fun m q hm hmlt hq =>
          hrest m q hm (by omega) hq⟩

/-- All of a forest is below its parent. -/
theorem Laid.above {q : ℕ} (h : Laid links (some q) n F) {m : ℕ} (hn : n ≤ m)
    (hm : m < n + F.size) : Above links q m := by
  induction m using Nat.strong_induction_on with
  | _ m ih =>
      rcases h.parent_cases hn hm with hp | ⟨r, hp, hr, hlt⟩
      · exact Relation.ReflTransGen.single hp
      · exact (ih r hlt hr (by omega)).tail hp

end Laid

/-! ### Well linked -/

section WellLinked

variable {F : Forest α} (h : Laid links none 0 F) (hlen : links.length = F.size)

include h hlen

theorem Laid.parent_lt {k q : ℕ} (hq : parentOf links k = some q) : q < k := by
  have hk := parentOf_lt_length hq
  rcases h.parent_cases (Nat.zero_le k) (by omega) with hp | ⟨r, hr, -, hlt⟩
  · rw [hq] at hp
    cases hp
  · obtain rfl := Option.some.inj (hq.symm.trans hr)
    exact hlt

theorem Laid.le_of_above {k m : ℕ} (hkm : Above links k m) : k ≤ m := by
  induction hkm with
  | refl => exact le_rfl
  | tail _ hstep ih => exact le_trans ih (le_of_lt (h.parent_lt hlen hstep))

/-- The tree at a position of the whole list. -/
theorem Laid.subtree_of_lt {k : ℕ} (hk : k < links.length) :
    ∃ below : Forest α, childrenOf links k = below.roots (k + 1) ∧
      Laid links (some k) (k + 1) below ∧ k + 1 + below.size ≤ links.length ∧
      ∀ m q, k + 1 + below.size ≤ m → parentOf links m = some q →
        q < k ∨ k + 1 + below.size ≤ q := by
  obtain ⟨below, hchildren, hlaid, hle, hlater⟩ :=
    h.subtree (fun q hq => by cases hq) (Nat.zero_le k) (by omega)
  refine ⟨below, hchildren, hlaid, by omega, fun m q hm hq => ?_⟩
  have := parentOf_lt_length hq
  exact hlater m q hm (by omega) hq

theorem Laid.mem_children (k m : ℕ) : m ∈ childrenOf links k ↔ parentOf links m = some k := by
  by_cases hk : k < links.length
  · obtain ⟨below, hchildren, hlaid, -, hlater⟩ := h.subtree_of_lt hlen hk
    have hroots : ∀ {i}, k + 1 ≤ i → i < k + 1 + below.size →
        (i ∈ below.roots (k + 1) ↔ parentOf links i = some k) :=
      hlaid.mem_roots fun q hq => by obtain rfl := Option.some.inj hq; omega
    rw [hchildren]
    constructor
    · intro hm
      obtain ⟨hle, hlt⟩ := mem_roots_bounds hm
      exact (hroots hle hlt).mp hm
    · intro hp
      have hkm := h.parent_lt hlen hp
      have hin : m < k + 1 + below.size := by
        by_contra hout
        have := hlater m k (by omega) hp
        omega
      exact (hroots hkm hin).mpr hp
  · rw [childrenOf, List.getElem?_eq_none (not_lt.mp hk)]
    refine iff_of_false List.not_mem_nil fun hp => ?_
    have := h.parent_lt hlen hp
    have := parentOf_lt_length hp
    omega

/-- **What is below a position is an interval.** -/
theorem Laid.above_iff {k : ℕ} (hk : k < links.length) :
    ∃ j, k < j ∧ j ≤ links.length ∧ ∀ m, Above links k m ↔ k ≤ m ∧ m < j := by
  obtain ⟨below, -, hlaid, hle, hlater⟩ := h.subtree_of_lt hlen hk
  refine ⟨k + 1 + below.size, by omega, hle, fun m => ⟨fun hkm => ?_, fun hkm => ?_⟩⟩
  · refine ⟨h.le_of_above hlen hkm, ?_⟩
    induction hkm with
    | refl => omega
    | @tail r m hkr hstep ih =>
        by_contra hout
        have := h.le_of_above hlen hkr
        have := hlater m r (by omega) hstep
        omega
  · rcases Nat.eq_or_lt_of_le hkm.1 with rfl | hlt
    · exact Relation.ReflTransGen.refl
    · exact hlaid.above hlt hkm.2

/-- **A list of links in which a forest lies is well linked.** -/
theorem Laid.wellLinked : WellLinked links where
  parent_lt _ _ hq := ⟨h.parent_lt hlen hq, parentOf_lt_length hq⟩
  mem_children := h.mem_children hlen
  children_ascending k := by
    by_cases hk : k < links.length
    · obtain ⟨below, hchildren, -⟩ := h.subtree_of_lt hlen hk
      rw [hchildren]
      exact roots_ascending below _
    · rw [childrenOf, List.getElem?_eq_none (not_lt.mp hk)]
      exact List.Pairwise.nil
  subtree _ hk := h.above_iff hlen hk

end WellLinked

/-- **The layout of a forest is well linked.** -/
theorem wellLinked_layout (F : Forest α) :
    WellLinked (F.layout (fun _ p cs => ⟨p, cs⟩) none 0) := by
  have hlaid := laid_layout none F [] []
  rw [List.nil_append, List.append_nil] at hlaid
  exact Laid.wellLinked hlaid (length_layout _ _ _ _)

end Forest

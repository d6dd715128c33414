import EwfForensic.Core.Logical
import EwfForensic.Lib.Forest

/-!
# A Parsed Tree Is a Forest

`parse_one` pushes entries and notes each one at its parent. Whatever the text declares, what a call
adds is the layout of a forest.

* `place` — an entry with its links, `grow` — what parsing a forest adds to the entries.
* `grow_node` — a root, what is below it and what is after it are added one after the other.
* `parseOne_grows` — a call of `parse_one` adds a forest.
* `parseEntryTree_forest` — so a parsed tree is the layout of one, and it is well linked.
-/

namespace EwfForensic

/-- An entry with its links. -/
def place (e : LogicalEntry) (parent : Option ℕ) (children : List ℕ) : LogicalEntry :=
  { e with parent := parent, children := children }

/-- The links of an entry. -/
def LogicalEntry.link (e : LogicalEntry) : Link := ⟨e.parent, e.children⟩

@[simp] theorem link_place (e : LogicalEntry) (parent : Option ℕ) (children : List ℕ) :
    (place e parent children).link = ⟨parent, children⟩ := rfl

/-- The entries with a forest parsed behind them, below `parent`. -/
def grow (parent : Option ℕ) (F : Forest LogicalEntry) (entries : List LogicalEntry) :
    List LogicalEntry :=
  addChildren parent (F.roots entries.length) entries ++
    F.layout place parent entries.length

@[simp] theorem length_addChildren (parent : Option ℕ) (children : List ℕ)
    (entries : List LogicalEntry) :
    (addChildren parent children entries).length = entries.length := by
  cases parent with
  | none => rfl
  | some p => exact List.length_modify _ _ _

theorem addChildren_nil (parent : Option ℕ) (entries : List LogicalEntry) :
    addChildren parent [] entries = entries := by
  cases parent with
  | none => rfl
  | some p =>
      have hid : (fun e : LogicalEntry => { e with children := e.children ++ [] }) = id := by
        funext e
        rw [List.append_nil]
        rfl
      rw [addChildren, hid, List.modify_id]

theorem addChildren_addChildren (parent : Option ℕ) (xs ys : List ℕ)
    (entries : List LogicalEntry) :
    addChildren parent ys (addChildren parent xs entries) =
      addChildren parent (xs ++ ys) entries := by
  cases parent with
  | none => rfl
  | some p =>
      rw [addChildren, addChildren, addChildren, List.modify_modify_eq]
      refine congrArg (entries.modify p) ?_
      funext e
      simp

/-- Children are noted where the parent stands. -/
theorem addChildren_append {parent : Option ℕ} {entries : List LogicalEntry}
    (hparent : ∀ p ∈ parent, p < entries.length) (children : List ℕ) (more : List LogicalEntry) :
    addChildren parent children (entries ++ more) =
      addChildren parent children entries ++ more := by
  cases parent with
  | none => rfl
  | some p =>
      have hp := hparent p rfl
      rw [addChildren, addChildren, List.modify_eq_take_drop, List.modify_eq_take_drop,
        List.take_append_of_le_length (le_of_lt hp), List.drop_append_of_le_length (le_of_lt hp)]
      cases hdrop : entries.drop p with
      | nil =>
          have := List.drop_eq_nil_iff.mp hdrop
          omega
      | cons e rest => simp

theorem addChildren_last (entries : List LogicalEntry) (e : LogicalEntry)
    (parent : Option ℕ) (children : List ℕ) :
    addChildren (some entries.length) children (entries ++ [place e parent []]) =
      entries ++ [place e parent children] := by
  rw [addChildren, List.modify_eq_take_drop, List.take_append_of_le_length le_rfl, List.take_length,
    List.drop_append_of_le_length le_rfl, List.drop_length, List.nil_append]
  simp [place]

theorem length_grow (parent : Option ℕ) (F : Forest LogicalEntry) (entries : List LogicalEntry) :
    (grow parent F entries).length = entries.length + F.size := by
  rw [grow, List.length_append, length_addChildren, Forest.length_layout]

theorem grow_nil (parent : Option ℕ) (entries : List LogicalEntry) :
    grow parent .nil entries = entries := by
  rw [grow, Forest.roots, Forest.layout, addChildren_nil, List.append_nil]

/-- **One forest is added after another.** -/
theorem grow_append {parent : Option ℕ} {entries : List LogicalEntry}
    (hparent : ∀ p ∈ parent, p < entries.length) (F G : Forest LogicalEntry) :
    grow parent (F.append G) entries = grow parent G (grow parent F entries) := by
  have hlen := length_grow parent F entries
  rw [grow, grow, hlen, Forest.roots_append, Forest.layout_append, grow, addChildren_append
    (fun p hp => by rw [length_addChildren]; exact hparent p hp), addChildren_addChildren,
    List.append_assoc]

/-- **A tree is added by its root and the forest below it.** -/
theorem grow_node {parent : Option ℕ} {entries : List LogicalEntry}
    (hparent : ∀ p ∈ parent, p < entries.length) (e : LogicalEntry)
    (below : Forest LogicalEntry) :
    grow parent (.node e below .nil) entries =
      grow (some entries.length) below
        (addChildren parent [entries.length] (entries ++ [place e parent []])) := by
  have hlen : (addChildren parent [entries.length] entries).length = entries.length :=
    length_addChildren _ _ _
  have hlast := addChildren_last (addChildren parent [entries.length] entries) e parent
    (below.roots (entries.length + 1))
  rw [hlen] at hlast
  rw [addChildren_append hparent, grow, grow, Forest.roots, Forest.roots, Forest.layout,
    Forest.layout, List.append_nil, List.length_append, hlen, List.length_singleton, hlast,
    List.append_assoc, List.singleton_append]

/-! ### The parser -/

section Parser

variable {lines indicators : List (List Char)}

/-- A call of `parse_one` keeps the names, and adds a forest to the entries. -/
def Grows (parent : Option ℕ) (tree tree' : LogicalTree) : Prop :=
  tree'.indicators = tree.indicators ∧ ∃ F, tree'.entries = grow parent F tree.entries

theorem Grows.refl (parent : Option ℕ) (tree : LogicalTree) : Grows parent tree tree :=
  ⟨rfl, .nil, (grow_nil parent tree.entries).symm⟩

/-- The entries before a forest stay where they are. -/
theorem Grows.length_le {parent : Option ℕ} {tree tree' : LogicalTree}
    (h : Grows parent tree tree') : tree.entries.length ≤ tree'.entries.length := by
  obtain ⟨-, F, hF⟩ := h
  rw [hF, length_grow]
  exact Nat.le_add_right _ _

theorem Grows.trans {parent : Option ℕ} {tree tree' tree'' : LogicalTree}
    (hparent : ∀ p ∈ parent, p < tree.entries.length) (h : Grows parent tree tree')
    (h' : Grows parent tree' tree'') : Grows parent tree tree'' := by
  obtain ⟨hnames, F, hF⟩ := h
  obtain ⟨hnames', G, hG⟩ := h'
  refine ⟨hnames'.trans hnames, F.append G, ?_⟩
  rw [hG, hF, grow_append hparent]

/-- Calls one after the other, where each one grows the tree. -/
theorem iterate_grows {parent : Option ℕ} {call : ℕ × LogicalTree → ℕ × LogicalTree}
    (hcall : ∀ st : ℕ × LogicalTree, (∀ p ∈ parent, p < st.2.entries.length) →
      Grows parent st.2 (call st).2) (n : ℕ) (st : ℕ × LogicalTree)
    (hparent : ∀ p ∈ parent, p < st.2.entries.length) : Grows parent st.2 (call^[n] st).2 := by
  induction n generalizing st with
  | zero => exact Grows.refl parent st.2
  | succ n ih =>
      have hfirst := hcall st hparent
      rw [Function.iterate_succ_apply]
      exact hfirst.trans hparent (ih _ fun p hp => lt_of_lt_of_le (hparent p hp) hfirst.length_le)

/-- **A call of `parse_one` adds a forest** below its parent, whatever the lines are. -/
theorem parseOne_grows (fuel : ℕ) (parent : Option ℕ) (st : ℕ × LogicalTree)
    (hparent : ∀ p ∈ parent, p < st.2.entries.length) :
    Grows parent st.2 (parseOne lines indicators fuel parent st).2 := by
  induction fuel generalizing parent st with
  | zero => exact Grows.refl parent st.2
  | succ fuel ih =>
      obtain ⟨i, tree⟩ := st
      rw [parseOne]
      cases hcounts : lines[i]? with
      | none => exact Grows.refl parent tree
      | some counts =>
          cases hvalues : lines[i + 1]? with
          | none => exact Grows.refl parent tree
          | some valuesLine =>
              simp only
              -- The calls for what is below the new entry, whose index is the number of entries.
              have hbelow := iterate_grows (fun st hst => ih (some tree.entries.length) st hst)
                ((subCount counts).getD 0)
                (i + 2, pushLogicalEntry indicators i valuesLine parent tree) fun p hp => by
                  obtain rfl := Option.some.inj hp
                  simp [pushLogicalEntry]
              obtain ⟨hnames, below, hF⟩ := hbelow
              refine ⟨hnames, .node (entryOf (rawFields indicators (valuesLine.splitOn '\t')))
                below .nil, ?_⟩
              rw [hF, grow_node hparent]
              rfl

/-- **A parsed tree is the layout of a forest.** -/
theorem parseEntryTree_forest {text : List Char} {tree : LogicalTree}
    (h : parseEntryTree text = .ok tree) :
    ∃ F : Forest LogicalEntry, tree.entries = F.layout place none 0 := by
  rw [parseEntryTree] at h
  simp only at h
  split at h
  · cases h
  split at h
  · cases h
  split_ifs at h
  split at h
  · cases h
  obtain rfl := Except.ok.inj h
  obtain ⟨-, F, hF⟩ := iterate_grows (fun st hst => parseOne_grows _ none st hst) _ (_, _)
    (fun p hp => by cases hp)
  exact ⟨F, hF⟩

/-- **The links of a parsed tree** agree with each other. -/
theorem wellLinked_parseEntryTree {text : List Char} {tree : LogicalTree}
    (h : parseEntryTree text = .ok tree) :
    Link.WellLinked (tree.entries.map LogicalEntry.link) := by
  obtain ⟨F, hF⟩ := parseEntryTree_forest h
  rw [hF, Forest.map_layout]
  exact F.wellLinked_layout

end Parser

end EwfForensic

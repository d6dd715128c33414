import EwfForensic.Core.LogicalForest

/-!
# Paths of a Logical Image

The closure `full_path` of `handle_ls` in `cli/src/main.rs`: it walks from an entry to its parent
until an entry has none.

* `fullPath` — the path of an entry.
* `visits_pathStep_leaves` — on well-linked entries the walk ends at a root.
* `logical_tree_well_formed` — the entries of a parsed tree are well linked, so the walk always
  ends.
-/

namespace EwfForensic

/-- One turn of the loop of `full_path`: an entry, and its parent. An index without an entry would
be a panic, here it is `none`. -/
def pathStep (entries : List LogicalEntry) (k : ℕ) : Option (LogicalEntry × Option ℕ) :=
  (entries[k]?).map fun e => (e, e.parent)

/-- The entries from `i` up to a root. -/
def pathEntries (entries : List LogicalEntry) (i : ℕ) : List LogicalEntry :=
  Loop.visits (pathStep entries) (i + 1) i

/-- `full_path`: the names from the root on, without the empty ones. -/
def fullPath (tree : LogicalTree) (i : ℕ) : List Char :=
  ['/'].intercalate
    (((pathEntries tree.entries i).map LogicalEntry.name).filter (· ≠ [])).reverse

section Walk

variable {entries : List LogicalEntry}

/-- A turn from an index goes on to the parent that its links name. -/
theorem pathStep_of_lt {k : ℕ} (hk : k < entries.length) :
    ∃ e, pathStep entries k =
      some (e, Link.parentOf (entries.map LogicalEntry.link) k) ∧ entries[k]? = some e := by
  refine ⟨entries[k], ?_, List.getElem?_eq_getElem hk⟩
  rw [pathStep, Link.parentOf, List.getElem?_map, List.getElem?_eq_getElem hk]
  rfl

/-- **The walk to the parent ends at a root** where the links are well formed. -/
theorem visits_pathStep_leaves (h : Link.WellLinked (entries.map LogicalEntry.link)) {i n : ℕ}
    (hi : i < entries.length) (hn : i < n) :
    Loop.Leaves (pathStep entries) i (Loop.visits (pathStep entries) n i) ∧
      ∃ root, (Loop.visits (pathStep entries) n i).getLast? = some root ∧ root.parent = none := by
  induction n generalizing i with
  | zero => omega
  | succ n ih =>
      obtain ⟨e, hstep, he⟩ := pathStep_of_lt hi
      cases hparent : Link.parentOf (entries.map LogicalEntry.link) i with
      | none =>
          rw [hparent] at hstep
          rw [Loop.visits_of_last hstep]
          refine ⟨Loop.Leaves.last hstep, e, rfl, ?_⟩
          rw [Link.parentOf, List.getElem?_map, he] at hparent
          exact hparent
      | some q =>
          have hq := (h.parent_lt i q hparent).1
          rw [hparent] at hstep
          obtain ⟨hleaves, root, hroot, hnone⟩ := ih (i := q) (by omega) (by omega)
          rw [Loop.visits_of_next hstep]
          refine ⟨Loop.Leaves.next hstep hleaves, root, ?_, hnone⟩
          rw [List.getLast?_cons, hroot]
          rfl

end Walk

/-- **Every parsed tree is a well-formed forest**: a child is named by its parent alone and exactly
once, parents stand before their children, children are in ascending order and what is below an
entry is an interval. The walk of `full_path` ends at a root. -/
theorem logical_tree_well_formed {text : List Char} {tree : LogicalTree}
    (h : parseEntryTree text = .ok tree) :
    Link.WellLinked (tree.entries.map LogicalEntry.link) ∧
    (∀ p c, (Link.childrenOf (tree.entries.map LogicalEntry.link) p).count c =
      if Link.parentOf (tree.entries.map LogicalEntry.link) c = some p then 1 else 0) ∧
    ∀ i < tree.entries.length,
      Loop.Leaves (pathStep tree.entries) i (pathEntries tree.entries i) ∧
      ∃ root, (pathEntries tree.entries i).getLast? = some root ∧ root.parent = none :=
  ⟨wellLinked_parseEntryTree h, (wellLinked_parseEntryTree h).count_children,
    fun i hi => visits_pathStep_leaves (wellLinked_parseEntryTree h) hi (Nat.lt_succ_self i)⟩

/-- A directory with a file in it. -/
def nestedText : List Char :=
  "entry\n2\t1\nn\tp\n26\t1\n\t\n0\t1\nDocs\t1\n0\t0\ninner\t\n".toList

theorem logical_tree_well_formed_nestedText :
    ∃ tree, parseEntryTree nestedText = .ok tree ∧ fullPath tree 1 = "Docs/inner".toList ∧
      Link.WellLinked (tree.entries.map LogicalEntry.link) := by
  have hval : (parseEntryTree nestedText).toOption.map (fun tree => fullPath tree 1) =
      some "Docs/inner".toList := by
    decide +kernel
  obtain ⟨tree, hparse, hpath⟩ := exists_parseEntryTree hval
  exact ⟨tree, hparse, hpath, (logical_tree_well_formed hparse).1⟩

end EwfForensic

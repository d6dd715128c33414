import Mathlib.Data.List.Forall2
import Mathlib.Logic.Function.Basic
import Mathlib.Data.Nat.Notation
import Mathlib.Tactic.SplitIfs

/-!
# File Systems

What a program that opens, creates and appends to files can see of them. A path leads to a
directory entry, whatever its spelling, and an entry holds the number of a file, so two paths may
name one file through one entry or through two.

* `FileSystem.openAll` — opening some files in order for reading.
* `FileSystem.create` — opening for writing: an existing file is truncated, a missing one is made.
* `FileSystem.ofFiles` — a directory with some files.
* `FileSystem.read_written_of_ne`, `FileSystem.read_written_of_eq` — what is read afterwards, of
  any other file and of the one that was created.
* `FileSystem.Later` — what may have changed when the files at some entries were written. It is
  transitive (`Later.trans`), and leaves every other file alone (`Later.read_eq`).
-/

/-- The directory entries, the files they hold, and what the caller may do with them. -/
structure FileSystem (Path Name α : Type*) where
  /-- The directory entry that a path leads to, through `.`, `..` and symbolic links. -/
  locate : Path → Name
  /-- The file that an entry holds. Entries that hold one file are hard links to it. -/
  entry : Name → Option ℕ
  content : ℕ → List α
  /-- The files from this number on do not exist yet. -/
  next : ℕ
  entry_lt : ∀ name n, entry name = some n → n < next
  mayOpen : Name → Bool
  mayCreate : Name → Bool

namespace FileSystem

variable {Path Name α : Type*} (fs : FileSystem Path Name α)

/-- The file that a path names. -/
def fileAt (p : Path) : Option ℕ := fs.entry (fs.locate p)

/-- The bytes of the file that a path names. -/
def read (p : Path) : Option (List α) := (fs.fileAt p).map fs.content

/-- Open a file and read it. -/
def openFile (p : Path) : Option (List α) :=
  if fs.mayOpen (fs.locate p) then fs.read p else none

/-- Open some files in order and read them, unless one cannot be opened. -/
def openAll (paths : List Path) : Option (List (List α)) := paths.mapM fs.openFile

/-- Replace the bytes of a file. -/
def setContent (n : ℕ) (bytes : List α) : FileSystem Path Name α :=
  { fs with content := Function.update fs.content n bytes }

/-- Append to a file. -/
def append (n : ℕ) (bytes : List α) : FileSystem Path Name α :=
  fs.setContent n (fs.content n ++ bytes)

/-- Open a file for writing, from an empty one: the file is truncated, or made if the entry holds
none. -/
def create [DecidableEq Name] (p : Path) : Option (FileSystem Path Name α × ℕ) :=
  if fs.mayCreate (fs.locate p) then
    match fs.fileAt p with
    | some n => some (fs.setContent n [], n)
    | none =>
      some ({ fs with
        entry := Function.update fs.entry (fs.locate p) (some fs.next)
        content := Function.update fs.content fs.next []
        next := fs.next + 1
        entry_lt := fun name n h => by
          by_cases hname : name = fs.locate p
          · rw [hname, Function.update_self] at h
            obtain rfl := Option.some.inj h
            exact Nat.lt_succ_self _
          · rw [Function.update_of_ne hname] at h
            exact Nat.lt_succ_of_lt (fs.entry_lt name n h) }, fs.next)
  else none

variable {fs}

theorem read_eq_some_iff {p : Path} {bytes : List α} :
    fs.read p = some bytes ↔ ∃ n, fs.fileAt p = some n ∧ fs.content n = bytes :=
  Option.map_eq_some_iff

/-- A file that was opened exists. -/
theorem read_of_openFile {p : Path} {bytes : List α} (h : fs.openFile p = some bytes) :
    fs.read p = some bytes := by
  rw [openFile] at h
  split_ifs at h
  exact h

/-- What was opened is there, path by path. -/
theorem forall₂_of_openAll {paths : List Path} {contents : List (List α)}
    (h : fs.openAll paths = some contents) :
    List.Forall₂ (fun p bytes => fs.read p = some bytes) paths contents := by
  rw [openAll] at h
  induction paths generalizing contents with
  | nil =>
      obtain rfl := Option.some.inj h
      exact List.Forall₂.nil
  | cons p paths ih =>
      rw [List.mapM_cons] at h
      obtain ⟨bytes, hp, hrest⟩ := Option.bind_eq_some_iff.mp h
      obtain ⟨rest, hpaths, hcons⟩ := Option.bind_eq_some_iff.mp hrest
      obtain rfl := Option.some.inj hcons
      exact List.Forall₂.cons (read_of_openFile hp) (ih hpaths)

theorem fileAt_of_openAll {paths : List Path} {contents : List (List α)}
    (h : fs.openAll paths = some contents) {p : Path} (hp : p ∈ paths) :
    ∃ n, fs.fileAt p = some n := by
  obtain ⟨i, hi, rfl⟩ := List.getElem_of_mem hp
  have hread := List.forall₂_iff_get.mp (forall₂_of_openAll h)
  obtain ⟨n, hn, -⟩ := read_eq_some_iff.mp (hread.2 i hi (hread.1 ▸ hi))
  exact ⟨n, hn⟩

theorem isSome_create_iff [DecidableEq Name] {p : Path} :
    (fs.create p).isSome ↔ fs.mayCreate (fs.locate p) = true := by
  rw [create]
  split_ifs with h
  · cases fs.fileAt p <;> simp [h]
  · simp [h]

/-- **Frame rule.** Creating a file and writing to it changes no other file that exists. -/
theorem read_written_of_ne [DecidableEq Name] {fs' : FileSystem Path Name α} {p out : Path}
    {m n : ℕ} (h : fs.create out = some (fs', n)) (hp : fs.fileAt p = some m)
    (hne : fs.fileAt p ≠ fs.fileAt out) (bytes : List α) :
    (fs'.append n bytes).read p = fs.read p := by
  rw [create] at h
  split_ifs at h
  cases hout : fs.fileAt out with
  | some k =>
      rw [hout] at h hne
      obtain ⟨rfl, rfl⟩ := Prod.mk.inj (Option.some.inj h)
      have hmk : m ≠ k := fun heq => hne (heq ▸ hp)
      rw [read, read, hp]
      have hsame : ((fs.setContent k []).append k bytes).fileAt p = some m := hp
      rw [hsame, Option.map_some, Option.map_some]
      exact congrArg some ((Function.update_of_ne hmk _ _).trans (Function.update_of_ne hmk _ _))
  | none =>
      rw [hout] at h
      obtain ⟨rfl, rfl⟩ := Prod.mk.inj (Option.some.inj h)
      -- The entry of the new file held none, so it is not that of `p`.
      have hname : fs.locate p ≠ fs.locate out := by
        intro heq
        rw [fileAt, heq, ← fileAt, hout] at hp
        cases hp
      have hm : m ≠ fs.next := Nat.ne_of_lt (fs.entry_lt _ _ hp)
      rw [read, read, hp]
      refine (congrArg (Option.map _) ((Function.update_of_ne hname _ _).trans hp)).trans ?_
      exact congrArg some ((Function.update_of_ne hm _ _).trans (Function.update_of_ne hm _ _))

/-- A file that is created again holds what is written to it, whatever it held before. -/
theorem read_written_of_eq [DecidableEq Name] {fs' : FileSystem Path Name α} {p out : Path}
    {m n : ℕ} (h : fs.create out = some (fs', n)) (hp : fs.fileAt p = some m)
    (heq : fs.fileAt p = fs.fileAt out) (bytes : List α) :
    (fs'.append n bytes).read p = some bytes := by
  rw [create] at h
  split_ifs at h
  rw [← heq, hp] at h
  obtain ⟨rfl, rfl⟩ := Prod.mk.inj (Option.some.inj h)
  have hsame : ((fs.setContent m []).append m bytes).fileAt p = some m := hp
  rw [read, hsame, Option.map_some]
  simp only [append, setContent, Function.update_self, List.nil_append]

/-- A file that is created holds what is written to it. -/
theorem read_created [DecidableEq Name] {fs' : FileSystem Path Name α} {out : Path} {n : ℕ}
    (h : fs.create out = some (fs', n)) (bytes : List α) :
    (fs'.append n bytes).read out = some bytes := by
  cases hout : fs.fileAt out with
  | some m => exact read_written_of_eq h hout rfl bytes
  | none =>
      rw [create, hout] at h
      split_ifs at h
      obtain ⟨rfl, rfl⟩ := Prod.mk.inj (Option.some.inj h)
      have hnew : Function.update fs.entry (fs.locate out) (some fs.next) (fs.locate out) =
          some fs.next := Function.update_self _ _ _
      rw [read, fileAt]
      refine (congrArg (Option.map _) hnew).trans ?_
      simp only [append, setContent, Function.update_self, List.nil_append, Option.map_some]

/-! ### Many writes -/

/-- What may have changed since `fs` when no entry but those in `outs` was written to: the files of
these entries, and new files at those of them that held none. -/
structure Later (fs fs' : FileSystem Path Name α) (outs : List Name) : Prop where
  locate_eq : fs'.locate = fs.locate
  mayOpen_eq : fs'.mayOpen = fs.mayOpen
  mayCreate_eq : fs'.mayCreate = fs.mayCreate
  next_le : fs.next ≤ fs'.next
  entry_some : ∀ {name n}, fs.entry name = some n → fs'.entry name = some n
  entry_new : ∀ {name n}, fs'.entry name = some n →
    fs.entry name = some n ∨ fs.next ≤ n ∧ name ∈ outs
  content_eq : ∀ {n}, n < fs.next → (∀ name ∈ outs, fs.entry name ≠ some n) →
    fs'.content n = fs.content n

theorem Later.refl (fs : FileSystem Path Name α) : Later fs fs [] where
  locate_eq := rfl
  mayOpen_eq := rfl
  mayCreate_eq := rfl
  next_le := Nat.le_refl _
  entry_some h := h
  entry_new h := .inl h
  content_eq _ _ := rfl

/-- **Writes compose.** -/
theorem Later.trans {fs fs' fs'' : FileSystem Path Name α} {outs outs' : List Name}
    (h : Later fs fs' outs) (h' : Later fs' fs'' outs') : Later fs fs'' (outs ++ outs') where
  locate_eq := h'.locate_eq.trans h.locate_eq
  mayOpen_eq := h'.mayOpen_eq.trans h.mayOpen_eq
  mayCreate_eq := h'.mayCreate_eq.trans h.mayCreate_eq
  next_le := Nat.le_trans h.next_le h'.next_le
  entry_some hn := h'.entry_some (h.entry_some hn)
  entry_new hn := by
    rcases h'.entry_new hn with hn | ⟨hle, hmem⟩
    · exact (h.entry_new hn).imp_right fun ⟨hle, hmem⟩ => ⟨hle, List.mem_append_left _ hmem⟩
    · exact .inr ⟨Nat.le_trans h.next_le hle, List.mem_append_right _ hmem⟩
  content_eq {n} hn houts := by
    have hfirst := h.content_eq hn fun name hmem => houts name (List.mem_append_left _ hmem)
    refine (h'.content_eq (Nat.lt_of_lt_of_le hn h.next_le) fun name hmem hentry => ?_).trans hfirst
    -- The entry held this file before, as a new file has a greater number.
    rcases h.entry_new hentry with hold | ⟨hle, -⟩
    · exact houts name (List.mem_append_right _ hmem) hold
    · omega

theorem Later.mono {fs fs' : FileSystem Path Name α} {outs outs' : List Name}
    (h : Later fs fs' outs) (hsub : outs ⊆ outs') : Later fs fs' outs' :=
  { h with
    entry_new := fun hn => (h.entry_new hn).imp_right fun ⟨hle, hmem⟩ => ⟨hle, hsub hmem⟩
    content_eq := fun hn houts => h.content_eq hn fun name hmem => houts name (hsub hmem) }

/-- **Creating a file and writing to it** changes that file alone. -/
theorem later_written [DecidableEq Name] {fs' : FileSystem Path Name α} {out : Path} {n : ℕ}
    (h : fs.create out = some (fs', n)) (bytes : List α) :
    Later fs (fs'.append n bytes) [fs.locate out] := by
  rw [create] at h
  split_ifs at h
  cases hout : fs.fileAt out with
  | some k =>
      rw [hout] at h
      obtain ⟨rfl, rfl⟩ := Prod.mk.inj (Option.some.inj h)
      refine ⟨rfl, rfl, rfl, Nat.le_refl _, fun h => h, .inl, fun {m} _ hne => ?_⟩
      have hmk : m ≠ k := by
        rintro rfl
        exact hne _ (List.mem_singleton_self _) hout
      exact (Function.update_of_ne hmk _ _).trans (Function.update_of_ne hmk _ _)
  | none =>
      rw [hout] at h
      obtain ⟨rfl, rfl⟩ := Prod.mk.inj (Option.some.inj h)
      refine ⟨rfl, rfl, rfl, Nat.le_succ _, fun {name m} hm => ?_, fun {name m} hm => ?_,
        fun {m} hlt _ => ?_⟩
      · have hname : name ≠ fs.locate out := by
          rintro rfl
          rw [fileAt] at hout
          rw [hout] at hm
          cases hm
        exact (Function.update_of_ne hname _ _).trans hm
      · have hupdate : Function.update fs.entry (fs.locate out) (some fs.next) name = some m := hm
        by_cases hname : name = fs.locate out
        · rw [hname, Function.update_self] at hupdate
          obtain rfl := Option.some.inj hupdate
          exact .inr ⟨Nat.le_refl _, List.mem_singleton.mpr hname⟩
        · rw [Function.update_of_ne hname] at hupdate
          exact .inl hupdate
      · have hne : m ≠ fs.next := Nat.ne_of_lt hlt
        exact (Function.update_of_ne hne _ _).trans (Function.update_of_ne hne _ _)

section Later

variable {fs' : FileSystem Path Name α} {outs : List Name} {p : Path}

/-- A file that exists stays where it is. -/
theorem Later.fileAt_eq (h : Later fs fs' outs) {n : ℕ} (hp : fs.fileAt p = some n) :
    fs'.fileAt p = some n := by
  rw [fileAt, h.locate_eq]
  exact h.entry_some hp

/-- No file appears but at the entries that were written. -/
theorem Later.fileAt_none (h : Later fs fs' outs) (hp : fs.fileAt p = none)
    (hout : fs.locate p ∉ outs) : fs'.fileAt p = none := by
  rw [fileAt, h.locate_eq]
  cases hentry : fs'.entry (fs.locate p) with
  | none => rfl
  | some n =>
      rcases h.entry_new hentry with hold | ⟨-, hmem⟩
      · rw [fileAt, hold] at hp
        cases hp
      · exact absurd hmem hout

/-- **A file that was not written to** is read as before. -/
theorem Later.read_eq (h : Later fs fs' outs) {n : ℕ} (hp : fs.fileAt p = some n)
    (hout : ∀ name ∈ outs, fs.entry name ≠ some n) : fs'.read p = fs.read p := by
  rw [read, read, hp, h.fileAt_eq hp, Option.map_some, Option.map_some,
    h.content_eq (fs.entry_lt _ _ hp) hout]

theorem Later.openFile_eq (h : Later fs fs' outs) {n : ℕ} (hp : fs.fileAt p = some n)
    (hout : ∀ name ∈ outs, fs.entry name ≠ some n) : fs'.openFile p = fs.openFile p := by
  rw [openFile, openFile, h.mayOpen_eq, h.locate_eq, h.read_eq hp hout]

end Later

/-! ### Directories -/

/-- A directory with some files, each under its own name. -/
def ofFiles [DecidableEq Name] (files : List (Name × List α)) : FileSystem Name Name α where
  locate := id
  entry := fun name =>
    if (files.map Prod.fst).idxOf name < files.length then some ((files.map Prod.fst).idxOf name)
    else none
  content := fun n => (files[n]?.map Prod.snd).getD []
  next := files.length
  entry_lt := fun name n h => by
    split_ifs at h with hlt
    exact Option.some.inj h ▸ hlt
  mayOpen := fun _ => true
  mayCreate := fun _ => true

/-- The files of the directory are those that exist. -/
theorem isSome_fileAt_ofFiles [DecidableEq Name] {files : List (Name × List α)} {name : Name} :
    ((ofFiles files).fileAt name).isSome ↔ name ∈ files.map Prod.fst := by
  rw [← List.idxOf_lt_length_iff, List.length_map]
  change (if (files.map Prod.fst).idxOf name < files.length then _ else none).isSome = true ↔ _
  split_ifs with h
  · exact iff_of_true rfl h
  · exact iff_of_false (by simp) h

end FileSystem

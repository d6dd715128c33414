import EwfForensic.Core.SegmentNames

/-!
# Paths

The parts of a path that the discovery of segment files goes by: its directory, and the stem and
the extension of its file name. What a path leads to is up to the file system.

* `trimPath` — a path without what `Path` leaves out at its end.
* `fileName`, `parentPath` — the functions of `Path`. `segmentDir` is `segment_dir` of
  `core/src/reader.rs`.
* `fileName_childPath`, `segmentDir_childPath` — a directory and a file name are found again.
-/

namespace EwfForensic

/-- A path, as its bytes. -/
abbrev Path := List UInt8

/-- `/`. -/
def slash : UInt8 := 47

/-- A path from its end on, without the slashes and the components `.` there. -/
def trimReversed : Path → Path
  | [] => []
  | b :: rest =>
    if b = slash then if rest = [] then [slash] else trimReversed rest
    else if b = dot ∧ rest.head? = some slash then trimReversed rest
    else b :: rest

/-- A path without the slashes and the components `.` at its end: `Path` looks past them. -/
def trimPath (path : Path) : Path := (trimReversed path.reverse).reverse

/-- `Path::file_name`. -/
def fileName (path : Path) : Option FileName :=
  let name := (trimPath path).rtakeWhile (· ≠ slash)
  if name = [] ∨ name = [dot] ∨ name = [dot, dot] then none else some name

/-- `Path::parent` of a path with a file name. -/
def parentPath (path : Path) : Path := trimPath ((trimPath path).rdropWhile (· ≠ slash))

/-- `segment_dir`. -/
def segmentDir (path : Path) : Path := if parentPath path = [] then [dot] else parentPath path

/-- `format!("{dir}/{name}")`. -/
def childPath (dir : Path) (name : FileName) : Path := dir ++ slash :: name

/-- A trailing slash and a component `.` do not count, and the root has no name. -/
example : (fileName [97, slash, 98, slash, dot, slash], parentPath [97, slash, 98, slash, dot, slash],
    fileName [slash]) = (some [98], [97], none) := by decide

theorem trimReversed_trimReversed (path : Path) :
    trimReversed (trimReversed path) = trimReversed path := by
  induction path with
  | nil => rfl
  | cons b rest ih =>
      rw [trimReversed]
      split_ifs with hslash hroot hdot
      · rfl
      · exact ih
      · exact ih
      · rw [trimReversed, if_neg hslash, if_neg hdot]

theorem trimPath_trimPath (path : Path) : trimPath (trimPath path) = trimPath path := by
  rw [trimPath, trimPath, List.reverse_reverse, trimReversed_trimReversed]

theorem trimPath_segmentDir (path : Path) : trimPath (segmentDir path) = segmentDir path := by
  rw [segmentDir]
  split_ifs
  · decide
  · exact trimPath_trimPath _

theorem segmentDir_ne_nil (path : Path) : segmentDir path ≠ [] := by
  rw [segmentDir]
  split_ifs with h
  · exact List.cons_ne_nil _ _
  · exact h

/-- A file name has no slash in it. -/
theorem slash_notMem_fileName {path : Path} {name : FileName} (h : fileName path = some name) :
    slash ∉ name := by
  rw [fileName] at h
  split_ifs at h
  obtain rfl := Option.some.inj h
  intro hmem
  have hne := List.mem_rtakeWhile_imp hmem
  rw [decide_eq_true_eq] at hne
  exact hne rfl

/-- What stands before the last dot of a name, and behind it, is a part of the name. -/
theorem stem_starts (name : FileName) : (splitExtension name).1 <+: name := by
  rw [splitExtension]
  split_ifs
  · exact List.prefix_rfl
  · exact (List.dropLast_prefix _).trans (List.rdropWhile_prefix _ _)

theorem stem_ne_nil {name : FileName} (h : name ≠ []) : (splitExtension name).1 ≠ [] := by
  rw [splitExtension]
  split_ifs with hone
  · exact h
  · intro hnil
    have hlen := congrArg List.length hnil
    rw [List.length_dropLast, List.length_nil] at hlen
    exact hone (.inr (by omega))

section Child

variable {dir : Path} {stem ext : FileName}

/-- A path that ends in an extension is as it is. -/
theorem trimPath_joinExtension (hext : ext ≠ []) (hslash : slash ∉ ext) (hdot : dot ∉ ext)
    (front : Path) : trimPath (joinExtension front ext) = joinExtension front ext := by
  obtain ⟨last, b, rfl⟩ := (List.eq_nil_or_concat' ext).resolve_left hext
  have hb : b ≠ slash ∧ b ≠ dot := by
    refine ⟨?_, ?_⟩ <;> rintro rfl
    · exact hslash (List.mem_append_right _ (List.mem_singleton_self _))
    · exact hdot (List.mem_append_right _ (List.mem_singleton_self _))
  have hreverse : (joinExtension front (last ++ [b])).reverse =
      b :: (joinExtension front last).reverse := by
    simp only [joinExtension, List.reverse_append, List.reverse_cons, List.reverse_nil,
      List.nil_append, List.append_assoc, List.cons_append]
  rw [trimPath, hreverse, trimReversed, if_neg hb.1, if_neg fun h => hb.2 h.1, ← hreverse,
    List.reverse_reverse]

/-- The name of a file is what stands behind the last slash. -/
theorem rtakeWhile_childPath (hstem : slash ∉ stem) (hslash : slash ∉ ext) :
    (childPath dir (joinExtension stem ext)).rtakeWhile (· ≠ slash) = joinExtension stem ext ∧
      (childPath dir (joinExtension stem ext)).rdropWhile (· ≠ slash) = dir ++ [slash] := by
  have hnot : ∀ b ∈ (joinExtension stem ext).reverse, decide (b ≠ slash) = true := by
    intro b hb
    rw [decide_eq_true_eq]
    rintro rfl
    rw [List.mem_reverse, joinExtension, List.mem_append, List.mem_cons] at hb
    rcases hb with hb | hb | hb
    · exact hstem hb
    · cases hb
    · exact hslash hb
  have hreverse : (childPath dir (joinExtension stem ext)).reverse =
      (joinExtension stem ext).reverse ++ slash :: dir.reverse := by
    rw [childPath, List.reverse_append, List.reverse_cons, List.append_assoc, List.singleton_append]
  constructor
  · rw [List.rtakeWhile, hreverse, List.takeWhile_append_of_pos hnot,
      List.takeWhile_cons_of_neg (by simp), List.append_nil, List.reverse_reverse]
  · rw [List.rdropWhile, hreverse, List.dropWhile_append_of_pos hnot,
      List.dropWhile_cons_of_neg (by simp), List.reverse_cons, List.reverse_reverse]

theorem childPath_joinExtension : childPath dir (joinExtension stem ext) =
    joinExtension (childPath dir stem) ext := by
  simp only [childPath, joinExtension, List.append_assoc, List.cons_append]

/-- **A file name is found again** behind its directory. -/
theorem fileName_childPath (hname : stem ≠ []) (hstem : slash ∉ stem) (hext : ext ≠ [])
    (hslash : slash ∉ ext) (hdot : dot ∉ ext) :
    fileName (childPath dir (joinExtension stem ext)) = some (joinExtension stem ext) := by
  have hlong : 2 < (joinExtension stem ext).length := by
    have h1 := List.length_pos_iff.mpr hname
    have h2 := List.length_pos_iff.mpr hext
    rw [joinExtension, List.length_append, List.length_cons]
    omega
  rw [fileName, childPath_joinExtension, trimPath_joinExtension hext hslash hdot,
    ← childPath_joinExtension, (rtakeWhile_childPath hstem hslash).1]
  refine if_neg ?_
  rintro (h | h | h) <;>
  · rw [h] at hlong
    simp at hlong

/-- **A directory is found again.** -/
theorem segmentDir_childPath (hdir : trimPath dir = dir) (hne : dir ≠ []) (hstem : slash ∉ stem)
    (hext : ext ≠ []) (hslash : slash ∉ ext) (hdot : dot ∉ ext) :
    segmentDir (childPath dir (joinExtension stem ext)) = dir := by
  have htrim : trimPath (dir ++ [slash]) = dir := by
    have hrev : dir.reverse ≠ [] := by rwa [Ne, List.reverse_eq_nil_iff]
    rw [trimPath, List.reverse_append, List.reverse_singleton, List.singleton_append, trimReversed,
      if_pos rfl, if_neg hrev]
    exact hdir
  have hparent : parentPath (childPath dir (joinExtension stem ext)) = dir := by
    rw [parentPath, childPath_joinExtension, trimPath_joinExtension hext hslash hdot,
      ← childPath_joinExtension, (rtakeWhile_childPath hstem hslash).2, htrim]
  rw [segmentDir, hparent, if_neg hne]

end Child

end EwfForensic

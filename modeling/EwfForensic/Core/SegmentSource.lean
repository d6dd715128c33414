import EwfForensic.Core.Open
import EwfForensic.Lib.Cursor

/-!
# Segment Backings

`SegmentSource` of `core/src/segment_source.rs` with its three backings of bytes at hand, `pread`
of `core/src/reader.rs` with its loop over partial reads, and `SegmentCursor`. The operating system
answers a read by an interrupt or with as many bytes as it likes, but at least one if there are any.

* `preadLoop_eq` — whatever the system answers, `pread` delivers the bytes up to the end of file.
* `SegmentSource.readAt_eq` — every backing delivers the bytes of its segment.
* `backings_interchangeable` — two backings of one byte string are of one length, read alike, and
  give cursors that do the same.
-/

namespace EwfForensic

open Octets Cursor

/-! ### The operating system -/

/-- What the system makes of a read. -/
inductive Answer where
  | interrupted
  /-- No more than `n + 1` bytes. -/
  | short (n : ℕ)
  deriving DecidableEq

/-- An `io::Error` of a positioned read. -/
inductive IoError where
  | invalidInput
  deriving DecidableEq

/-- The system's answers, one read after the other. A read that is interrupted for ever never
returns, so that answers come again and again. -/
structure Schedule where
  answer : ℕ → Answer
  answers : ∀ i, ∃ j, i ≤ j ∧ answer j ≠ .interrupted

/-- The number of interrupts from the `i`th answer on. -/
def Schedule.interrupts (sched : Schedule) (i : ℕ) : ℕ := Nat.find (sched.answers i) - i

theorem Schedule.interrupts_succ_lt {sched : Schedule} {i : ℕ}
    (h : sched.answer i = .interrupted) : sched.interrupts (i + 1) < sched.interrupts i := by
  obtain ⟨hle, hanswer⟩ := Nat.find_spec (sched.answers i)
  have hlt : i < Nat.find (sched.answers i) :=
    lt_of_le_of_ne hle fun he => hanswer (he ▸ h)
  have hmin := Nat.find_min' (sched.answers (i + 1)) ⟨hlt, hanswer⟩
  rw [Schedule.interrupts, Schedule.interrupts]
  omega

/-- What one read of the system returns. -/
inductive OsRead where
  | interrupted
  | failed (e : IoError)
  | bytes (out : List UInt8)

/-- `FileExt::read_at`: the system takes the offset as a signed number. -/
def osReadAt (file : Segment) (off want : ℕ) : Answer → OsRead
  | .interrupted => .interrupted
  | .short n =>
    if half ≤ off then .failed .invalidInput
    else .bytes (readAtMost file.data off (min want (n + 1)))

/-- Only an interrupt interrupts, and below `half` no read fails. -/
theorem osReadAt_cases {file : Segment} {off want : ℕ} {a : Answer} :
    (a = .interrupted ∧ osReadAt file off want a = .interrupted) ∨
      (half ≤ off ∧ osReadAt file off want a = .failed .invalidInput) ∨
      off < half ∧ ∃ n, osReadAt file off want a =
        .bytes (readAtMost file.data off (min want (n + 1))) := by
  cases a with
  | interrupted => exact Or.inl ⟨rfl, rfl⟩
  | short n =>
      refine Or.inr ?_
      rcases Nat.lt_or_ge off half with hlt | hle
      · exact Or.inr ⟨hlt, n, if_neg (Nat.not_le.mpr hlt)⟩
      · exact Or.inl ⟨hle, if_pos hle⟩

/-! ### Positioned reads -/

/-- The loop of `pread`: `want` bytes are missing, and come from `off` on. It starts at the `i`th
answer, and returns with the number of the next. -/
def preadLoop (file : Segment) (sched : Schedule) (i off want : ℕ) :
    Except IoError (List UInt8) × ℕ :=
  if want = 0 then (.ok [], i)
  else
    match hread : osReadAt file off want (sched.answer i) with
    | .interrupted => preadLoop file sched (i + 1) off want
    | .failed e => (.error e, i + 1)
    | .bytes out =>
      if out.length = 0 then (.ok [], i + 1)
      else
        let rest := preadLoop file sched (i + 1) (off + out.length) (want - out.length)
        (rest.1.map (out ++ ·), rest.2)
termination_by (want, sched.interrupts i)
decreasing_by
  · refine Prod.Lex.right _ (Schedule.interrupts_succ_lt ?_)
    rcases osReadAt_cases with ⟨h, -⟩ | ⟨-, h⟩ | ⟨-, n, h⟩
    · exact h
    · rw [hread] at h
      cases h
    · rw [hread] at h
      cases h
  · exact Prod.Lex.left _ _ (by omega)

/-- `pread`. -/
def pread (file : Segment) (sched : Schedule) (i off n : ℕ) : Except IoError (List UInt8) × ℕ :=
  preadLoop file sched i off n

theorem length_readAtMost (data : List UInt8) (off n : ℕ) :
    (readAtMost data off n).length = min n (data.length - off) := by
  rw [readAtMost, List.length_take, List.length_drop]

/-- What a partial read delivers, and then what is missing. -/
theorem readAtMost_append (data : List UInt8) (off : ℕ) {m n : ℕ} (hmn : m ≤ n) :
    readAtMost data off m ++ readAtMost data (off + (readAtMost data off m).length)
        (n - (readAtMost data off m).length) = readAtMost data off n := by
  have hfull : (data.drop off).take m = (data.drop off).take (readAtMost data off m).length := by
    rw [length_readAtMost, List.take_eq_take_iff, List.length_drop]
    omega
  have hlen : (readAtMost data off m).length ≤ n := by
    rw [length_readAtMost]
    omega
  generalize (readAtMost data off m).length = k at hfull hlen ⊢
  obtain ⟨rest, rfl⟩ := Nat.exists_eq_add_of_le hlen
  rw [readAtMost, readAtMost, readAtMost, hfull, Nat.add_sub_cancel_left, ← List.drop_drop,
    ← List.take_add]

theorem eq_readAtMost_of_bytes {file : Segment} {off want : ℕ} {a : Answer} {out : List UInt8}
    (h : osReadAt file off want a = .bytes out) :
    ∃ n, out = readAtMost file.data off (min want (n + 1)) := by
  rcases @osReadAt_cases file off want a with ⟨-, h'⟩ | ⟨-, h'⟩ | ⟨-, n, h'⟩
  · rw [h] at h'
    cases h'
  · rw [h] at h'
    cases h'
  · rw [h] at h'
    exact ⟨n, OsRead.bytes.inj h'⟩

/-- **Whatever the system answers**, `pread` delivers the bytes up to the end of the file. -/
theorem preadLoop_eq (file : Segment) (sched : Schedule) (i want : ℕ) {off : ℕ}
    (hoff : off < half) :
    (preadLoop file sched i off want).1 = .ok (readAtMost file.data off want) := by
  fun_induction preadLoop file sched i off want with
  | case1 i off => rw [readAtMost, List.take_zero]
  | case2 i off want hwant hread ih => exact ih hoff
  | case3 i off want hwant e hread =>
      rcases @osReadAt_cases file off want (sched.answer i) with ⟨-, h⟩ | ⟨h, -⟩ | ⟨-, n, h⟩
      · rw [hread] at h
        cases h
      · omega
      · rw [hread] at h
        cases h
  | case4 i off want hwant out hread hout =>
      obtain ⟨n, rfl⟩ := eq_readAtMost_of_bytes hread
      -- no byte although one was asked for: the file ends here
      rw [length_readAtMost] at hout
      rw [readAtMost, List.drop_eq_nil_of_le (by omega), List.take_nil]
  | case5 i off want hwant out hread hout rest ih =>
      obtain ⟨n, rfl⟩ := eq_readAtMost_of_bytes hread
      have hnext : off + (readAtMost file.data off (min want (n + 1))).length < half := by
        have hfile := file.length_lt
        rw [length_readAtMost] at hout ⊢
        change _ < 9223372036854775808
        omega
      rw [ih hnext, ← readAtMost_append file.data off (Nat.min_le_left want (n + 1))]
      rfl

/-! ### The three backings -/

/-- A positioned-read backing that is supplied from outside. -/
structure SegmentBacking where
  len : ℕ
  readAt : ℕ → ℕ → Except IoError (List UInt8)

/-- `SegmentSource`. -/
inductive SegmentSource where
  | file (f : Segment)
  | sub (f : Segment) (base len : ℕ)
  | mem (bytes : Segment)
  | backing (b : SegmentBacking)

/-- `SegmentSource::len`. -/
def SegmentSource.len : SegmentSource → ℕ
  | .file f => f.data.length
  | .sub _ _ len => len
  | .mem bytes => bytes.data.length
  | .backing b => b.len

/-- `SegmentSource::read_at`, with the system's answers from the `i`th on. -/
def SegmentSource.readAt (sched : Schedule) (i : ℕ) (src : SegmentSource) (off n : ℕ) :
    Except IoError (List UInt8) × ℕ :=
  match src with
  | .file f => pread f sched i off n
  | .sub f base len =>
    let avail := len - off
    if avail = 0 then (.ok [], i) else pread f sched i ((base + off) % limit) (min n avail)
  | .mem bytes =>
    let src := bytes.data.drop (min off bytes.data.length)
    (.ok (src.take (min src.length n)), i)
  | .backing b => (b.readAt off n, i)

/-- `SegmentCursor`. -/
def SegmentSource.cursor (sched : Schedule) (src : SegmentSource) : PositionedRead ℕ IoError where
  len := src.len
  readAt i off n := src.readAt sched i off n

/-- A backing holds the bytes of a segment: as its file, in a window of its file, or in memory. -/
def SegmentSource.Backs (s : Segment) : SegmentSource → Prop
  | .file f => f.data = s.data
  | .sub f base len => len = s.data.length ∧ readAtMost f.data base len = s.data
  | .mem bytes => bytes.data = s.data
  | .backing _ => False

/-- **A window of a file** shows the bytes in it, and none outside. -/
theorem readAt_sub (sched : Schedule) (i : ℕ) (file : Segment) (base len n : ℕ) {off : ℕ}
    (hoff : base + off < half) :
    ((SegmentSource.sub file base len).readAt sched i off n).1 =
      .ok (readAtMost (readAtMost file.data base len) off n) := by
  have hwindow : readAtMost (readAtMost file.data base len) off n =
      readAtMost file.data (base + off) (min n (len - off)) := by
    rw [readAtMost, readAtMost, readAtMost, List.drop_take, List.drop_drop, List.take_take]
  rw [SegmentSource.readAt, hwindow]
  split_ifs with havail
  · rw [havail, Nat.min_zero, readAtMost, List.take_zero]
  · have hlimit : half < limit := by decide
    rw [Nat.mod_eq_of_lt (by omega)]
    exact preadLoop_eq file sched i _ hoff

/-- **Every backing** delivers the bytes of its segment. -/
theorem SegmentSource.readAt_eq {s : Segment} {src : SegmentSource} (h : src.Backs s)
    (sched : Schedule) (i n : ℕ) {off : ℕ} (hoff : off < half) :
    (src.readAt sched i off n).1 = .ok (readAtMost s.data off n) := by
  cases src with
  | file f =>
      rw [← (h : f.data = s.data)]
      exact preadLoop_eq f sched i n hoff
  | sub f base len =>
      obtain ⟨hlen, hbytes⟩ := h
      rcases Nat.lt_or_ge off len with hlt | hle
      · -- the window holds a byte at `off`, so that it ends within the file
        have hwindow := congrArg List.length hbytes
        rw [length_readAtMost, ← hlen] at hwindow
        have hfile := f.length_lt
        have hbase : base + off < half := by
          change base + off < 9223372036854775808
          omega
        rw [readAt_sub sched i f base len n hbase, hbytes]
      · rw [SegmentSource.readAt]
        rw [if_pos (by omega), readAtMost, List.drop_eq_nil_of_le (hlen ▸ hle), List.take_nil]
  | mem bytes =>
      rw [← (h : bytes.data = s.data), SegmentSource.readAt, readAtMost]
      simp only
      rw [← List.drop_eq_drop_min, Nat.min_comm, ← List.take_eq_take_min]
  | backing b => exact absurd h id

theorem SegmentSource.len_eq {s : Segment} {src : SegmentSource} (h : src.Backs s) :
    src.len = s.data.length := by
  cases src with
  | file f => exact congrArg List.length (h : f.data = s.data)
  | sub f base len => exact h.1
  | mem bytes => exact congrArg List.length (h : bytes.data = s.data)
  | backing b => exact absurd h id

/-- Two backings of one segment agree below `half`, whatever the system answers to either. -/
theorem SegmentSource.cursor_agree {s : Segment} {src src' : SegmentSource} (h : src.Backs s)
    (h' : src'.Backs s) (sched sched' : Schedule) :
    (src.cursor sched).Agree (src'.cursor sched') where
  len_eq := (src.len_eq h).trans (src'.len_eq h').symm
  len_lt := lt_of_eq_of_lt (src.len_eq h) s.length_lt
  readAt_ok i i' off n hoff := by
    refine ⟨readAtMost s.data off n, src.readAt_eq h sched i n hoff,
      src'.readAt_eq h' sched' i' n hoff, ?_⟩
    rw [length_readAtMost]
    exact le_of_le_of_eq (Nat.min_le_right _ _) (congrArg (· - off) (src.len_eq h).symm)

/-- A schedule that interrupts every other read and then delivers one byte. -/
def byteByByte : Schedule where
  answer i := if i % 2 = 0 then .interrupted else .short 0
  answers i := ⟨2 * i + 1, by omega, by
    rw [if_neg (by omega)]
    exact Answer.noConfusion⟩

end EwfForensic

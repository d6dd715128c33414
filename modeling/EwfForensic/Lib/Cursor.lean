import Mathlib.Algebra.Order.Ring.Int
import Mathlib.Tactic.SplitIfs

/-!
# Cursors by Signed Arithmetic

A cursor over positioned reads whose position and length are unsigned 64-bit numbers, and which
takes the target of a seek as a signed 64-bit sum.

* `seek`, `PositionedRead.step`, `PositionedRead.run` — the cursor.
* `exactSeek`, `exactStep`, `exactRun` — the cursor of mathematics, over reads without a state.
* `seek_eq_exactSeek_iff` — when one seek is exact.
* `PositionedRead.Agree.run_eq` — cursors over sources that agree below `2 ^ 63` do the same.
* `PositionedRead.run_eq_exactRun_iff` — a run is exact exactly when each of its seeks is in
  range: the cursor's own arithmetic covers the positions below `2 ^ 63`.
-/

namespace Cursor

/-- `u64` numbers are below `limit`, `i64` numbers from `-half` to below `half`. -/
abbrev half : ℕ := 9223372036854775808

@[inherit_doc half] abbrev limit : ℕ := 18446744073709551616

/-- Where a seek goes. -/
inductive SeekFrom where
  | start (p : UInt64)
  | current (d : Int64)
  | fromEnd (d : Int64)
  deriving DecidableEq

/-- Reads at an offset, which may change a state, from a source of a fixed length. -/
structure PositionedRead (σ ε : Type) where
  len : ℕ
  readAt : σ → ℕ → ℕ → Except ε (List UInt8) × σ

/-- What one asks of a cursor. -/
inductive Op where
  | seek (pos : SeekFrom)
  | read (n : ℕ)
  deriving DecidableEq

/-- What a cursor answers. -/
inductive Reply (ε : Type) where
  | seeked (result : Except String ℕ)
  | bytes (result : Except ε (List UInt8))

/-- One step of a cursor: its answer, where it stands afterwards, and whether some sum left its
machine word. -/
structure Event (ε : Type) where
  reply : Reply ε
  position : ℕ
  overflows : Bool

variable {σ ε : Type}

/-! ### The cursor -/

/-- `n as i64`. -/
def asI64 (n : ℕ) : ℤ := (n : ℤ).bmod limit

/-- The error of a seek. -/
def negativeSeek : String := "seek to negative position"

/-- The sum that a seek takes, before it wraps. -/
def seekSum (len position : ℕ) : SeekFrom → ℤ
  | .start p => asI64 p.toNat
  | .current d => asI64 position + d.toInt
  | .fromEnd d => asI64 len + d.toInt

/-- A seek. With overflow checks, a sum that wraps is a panic. -/
def seek (len position : ℕ) (pos : SeekFrom) : Event ε :=
  let newPos := (seekSum len position pos).bmod limit
  let overflows := decide (newPos ≠ seekSum len position pos)
  if newPos < 0 then ⟨.seeked (.error negativeSeek), position, overflows⟩
  else ⟨.seeked (.ok newPos.toNat), newPos.toNat, overflows⟩

/-- A read at the position, which moves it past the bytes read. -/
def PositionedRead.step (S : PositionedRead σ ε) (s : σ) (position : ℕ) : Op → Event ε × σ
  | .seek pos => (seek S.len position pos, s)
  | .read n =>
    match S.readAt s position n with
    | (.error e, s') => (⟨.bytes (.error e), position, false⟩, s')
    | (.ok out, s') =>
      (⟨.bytes (.ok out), (position + out.length) % limit,
        decide (limit ≤ position + out.length)⟩, s')

/-- What a cursor does, one request after the other. -/
def PositionedRead.run (S : PositionedRead σ ε) : σ → ℕ → List Op → List (Event ε)
  | _, _, [] => []
  | s, position, op :: ops =>
    let (event, s') := S.step s position op
    event :: S.run s' event.position ops

/-! ### The exact cursor -/

/-- The target of a seek. -/
def target (len position : ℕ) : SeekFrom → ℤ
  | .start p => p.toNat
  | .current d => position + d.toInt
  | .fromEnd d => len + d.toInt

/-- A seek to an unsigned 64-bit number succeeds, any other leaves the cursor where it is. -/
def exactSeek (len position : ℕ) (pos : SeekFrom) : Event ε :=
  if 0 ≤ target len position pos ∧ target len position pos < limit then
    ⟨.seeked (.ok (target len position pos).toNat), (target len position pos).toNat, false⟩
  else ⟨.seeked (.error negativeSeek), position, false⟩

/-- A step of the exact cursor. -/
def exactStep (len : ℕ) (readAt : ℕ → ℕ → Except ε (List UInt8)) (position : ℕ) : Op → Event ε
  | .seek pos => exactSeek len position pos
  | .read n =>
    match readAt position n with
    | .error e => ⟨.bytes (.error e), position, false⟩
    | .ok out => ⟨.bytes (.ok out), position + out.length, false⟩

/-- What the exact cursor does, one request after the other. -/
def exactRun (len : ℕ) (readAt : ℕ → ℕ → Except ε (List UInt8)) : ℕ → List Op → List (Event ε)
  | _, [] => []
  | position, op :: ops =>
    let event := exactStep len readAt position op
    event :: exactRun len readAt event.position ops

/-! ### One step -/

/-- The numbers of a seek are small enough for the cursor's arithmetic. -/
def SeekFrom.InRange (len position : ℕ) : SeekFrom → Prop
  | .start p => p.toNat < half
  | .current d => position < half ∧ position + d.toInt < half
  | .fromEnd d => len < half ∧ len + d.toInt < half

instance (len position : ℕ) (pos : SeekFrom) : Decidable (pos.InRange len position) := by
  cases pos <;> unfold SeekFrom.InRange <;> infer_instance

theorem asI64_of_lt {n : ℕ} (h : n < half) : asI64 n = n := by
  simp only [half] at h
  refine Int.bmod_eq_of_le_mul_two ?_ ?_ <;> push_cast <;> omega

theorem asI64_of_le {n : ℕ} (h : half ≤ n) (hn : n < limit) : asI64 n = (n : ℤ) - (limit : ℕ) := by
  simp only [half, limit] at h hn
  have hsub : asI64 n = ((n : ℤ) - (limit : ℕ)).bmod limit := (Int.sub_bmod_right ..).symm
  rw [hsub]
  refine Int.bmod_eq_of_le_mul_two ?_ ?_ <;> push_cast <;> omega

/-- A number wraps to itself exactly when it is a signed 64-bit one. -/
theorem wrap_eq_iff {z : ℤ} : z.bmod limit = z ↔ -(half : ℤ) ≤ z ∧ z < half := by
  have hhalf : (half : ℤ) = 9223372036854775808 := rfl
  have hlimit : (limit : ℤ) = 18446744073709551616 := rfl
  constructor
  · intro h
    have hle := Int.le_bmod (x := z) (m := limit) (by decide)
    have hlt := Int.bmod_lt (x := z) (m := limit) (by decide)
    rw [h] at hle hlt
    omega
  · rintro ⟨hle, hlt⟩
    refine Int.bmod_eq_of_le_mul_two ?_ ?_ <;> push_cast <;> omega

/-- A seek from the start goes to its target if a signed number holds it. -/
theorem seek_start {p : UInt64} (h : p.toNat < half) (len : ℕ) :
    (seek len 0 (.start p) : Event ε) = ⟨.seeked (.ok p.toNat), p.toNat, false⟩ := by
  have hsum : seekSum len 0 (.start p) = p.toNat := asI64_of_lt h
  have hwrap : (p.toNat : ℤ).bmod limit = p.toNat := asI64_of_lt h
  have hneg : ¬ (p.toNat : ℤ) < 0 := not_lt.mpr (Int.natCast_nonneg _)
  unfold seek
  simp only [hsum, hwrap, if_neg hneg, Int.toNat_natCast, ne_eq, not_true_eq_false, decide_false]

/-- In range, the sum is the target, and a signed 64-bit number. -/
theorem seekSum_of_inRange {len position : ℕ} {pos : SeekFrom} (h : pos.InRange len position) :
    seekSum len position pos = target len position pos ∧
      -(half : ℤ) ≤ target len position pos ∧ target len position pos < half := by
  have hhalf : (half : ℤ) = 9223372036854775808 := rfl
  cases pos with
  | start p =>
      have hp : p.toNat < half := h
      refine ⟨asI64_of_lt h, ?_⟩
      rw [target]
      omega
  | current d =>
      have hd := d.le_toInt
      refine ⟨congrArg (· + d.toInt) (asI64_of_lt h.1), ?_, h.2⟩
      rw [target]
      omega
  | fromEnd d =>
      have hd := d.le_toInt
      refine ⟨congrArg (· + d.toInt) (asI64_of_lt h.1), ?_, h.2⟩
      rw [target]
      omega

/-- A sum that does not wrap, and is negative just where the target is no position, was taken of
numbers in range. -/
theorem inRange_of_seekSum {len position : ℕ} {pos : SeekFrom} (hlen : len < limit)
    (hpos : position < limit)
    (hsum : -(half : ℤ) ≤ seekSum len position pos ∧ seekSum len position pos < half)
    (hneg : 0 ≤ seekSum len position pos ↔
      0 ≤ target len position pos ∧ target len position pos < limit) :
    pos.InRange len position := by
  have hhalf : (half : ℤ) = 9223372036854775808 := rfl
  have hlimit : (limit : ℤ) = 18446744073709551616 := rfl
  have hbase : ∀ n < limit, asI64 n = if n < half then (n : ℤ) else (n : ℤ) - (limit : ℕ) := by
    intro n hn
    split_ifs with h
    · exact asI64_of_lt h
    · exact asI64_of_le (not_lt.mp h) hn
  cases pos with
  | start p =>
      have hp : p.toNat < limit := p.toNat_lt
      rw [seekSum, target, hbase _ hp] at *
      change p.toNat < half
      split_ifs at hneg hsum <;> omega
  | current d =>
      have hd := d.le_toInt
      rw [seekSum, target, hbase _ hpos] at *
      change position < half ∧ position + d.toInt < half
      split_ifs at hneg hsum <;> omega
  | fromEnd d =>
      have hd := d.le_toInt
      rw [seekSum, target, hbase _ hlen] at *
      change len < half ∧ len + d.toInt < half
      split_ifs at hneg hsum <;> omega

/-- **A seek is exact** if and only if its numbers are in range. -/
theorem seek_eq_exactSeek_iff {len position : ℕ} {pos : SeekFrom} (hlen : len < limit)
    (hpos : position < limit) :
    (seek len position pos : Event ε) = exactSeek len position pos ↔ pos.InRange len position := by
  have hhalf : (half : ℤ) = 9223372036854775808 := rfl
  have hlimit : (limit : ℤ) = 18446744073709551616 := rfl
  constructor
  · intro h
    have hover : (seek len position pos : Event ε).overflows = false := by
      rw [h, exactSeek]
      split_ifs <;> rfl
    have hwrap : (seekSum len position pos).bmod limit = seekSum len position pos := by
      rw [seek] at hover
      split_ifs at hover <;> simpa using hover
    refine inRange_of_seekSum hlen hpos (wrap_eq_iff.mp hwrap) ?_
    rw [seek, exactSeek] at h
    simp only [hwrap] at h
    split_ifs at h with hlt htarget htarget
    · cases h
    · omega
    · omega
    · cases h
  · intro h
    obtain ⟨hsum, hle, hlt⟩ := seekSum_of_inRange h
    have hwrap := wrap_eq_iff.mpr ⟨hle, hlt⟩
    rw [seek, exactSeek]
    simp only [hsum, hwrap]
    by_cases hneg : target len position pos < 0
    · rw [if_pos hneg, if_neg (by omega)]
      simp
    · rw [if_neg hneg, if_pos (by omega)]
      simp

/-! ### Runs -/

/-- The numbers of a request are small enough for the cursor's arithmetic. -/
def Op.InRange (len position : ℕ) : Op → Prop
  | .seek pos => pos.InRange len position
  | .read _ => True

/-- Every seek of a run is in range, from the position at which the exact cursor makes it. -/
def RunInRange (len : ℕ) (readAt : ℕ → ℕ → Except ε (List UInt8)) : ℕ → List Op → Prop
  | _, [] => True
  | position, op :: ops =>
    op.InRange len position ∧ RunInRange len readAt (exactStep len readAt position op).position ops

/-- In the states `I`, reads are those of the function `readAt`, none past the end. -/
structure PositionedRead.Serves (S : PositionedRead σ ε) (I : σ → Prop)
    (readAt : ℕ → ℕ → Except ε (List UInt8)) : Prop where
  len_lt : S.len < limit
  readAt_eq : ∀ s, I s → ∀ off n, (S.readAt s off n).1 = readAt off n
  next : ∀ s, I s → ∀ off n, I (S.readAt s off n).2
  length_le : ∀ off n out, readAt off n = .ok out → out.length ≤ S.len - off

variable {S : PositionedRead σ ε} {I : σ → Prop} {readAt : ℕ → ℕ → Except ε (List UInt8)}

/-- The exact cursor stays at unsigned 64-bit numbers. -/
theorem PositionedRead.Serves.position_lt (h : S.Serves I readAt) {position : ℕ}
    (hpos : position < limit) (op : Op) :
    (exactStep S.len readAt position op).position < limit := by
  have hlen := h.len_lt
  cases op with
  | seek pos =>
      rw [exactStep, exactSeek]
      split_ifs with ht
      · change (target S.len position pos).toNat < limit
        omega
      · exact hpos
  | read n =>
      rw [exactStep]
      cases hread : readAt position n with
      | error e => exact hpos
      | ok out =>
          have hle := h.length_le position n out hread
          change position + out.length < limit
          omega

/-- **A step is exact** if and only if its numbers are in range. -/
theorem PositionedRead.Serves.step_eq_iff (h : S.Serves I readAt) {s : σ} (hs : I s)
    {position : ℕ} (hpos : position < limit) (op : Op) :
    (S.step s position op).1 = exactStep S.len readAt position op ↔ op.InRange S.len position := by
  cases op with
  | seek pos => exact seek_eq_exactSeek_iff h.len_lt hpos
  | read n =>
      refine iff_of_true ?_ trivial
      rw [exactStep, PositionedRead.step, ← h.readAt_eq s hs position n]
      cases hread : S.readAt s position n with
      | mk result s' =>
          cases result with
          | error e => rfl
          | ok out =>
              have hlt := h.position_lt hpos (.read n)
              rw [exactStep, ← h.readAt_eq s hs position n, hread] at hlt
              have hlt' : position + out.length < limit := hlt
              simp [Nat.mod_eq_of_lt hlt', hlt']

theorem PositionedRead.Serves.step_next (h : S.Serves I readAt) {s : σ} (hs : I s) (position : ℕ)
    (op : Op) : I (S.step s position op).2 := by
  cases op with
  | seek pos => exact hs
  | read n =>
      have hnext := h.next s hs position n
      rw [PositionedRead.step]
      cases hread : S.readAt s position n with
      | mk result s' =>
          rw [hread] at hnext
          cases result <;> exact hnext

/-- **A run is exact** if and only if every seek of it is in range. -/
theorem PositionedRead.run_eq_exactRun_iff (h : S.Serves I readAt) {s : σ} (hs : I s)
    {position : ℕ} (hpos : position < limit) (ops : List Op) :
    S.run s position ops = exactRun S.len readAt position ops ↔
      RunInRange S.len readAt position ops := by
  induction ops generalizing s position with
  | nil => exact iff_of_true rfl trivial
  | cons op ops ih =>
      rw [PositionedRead.run, exactRun, RunInRange, ← h.step_eq_iff hs hpos op, List.cons.injEq]
      refine and_congr_right fun hevent => ?_
      rw [hevent]
      exact ih (h.step_next hs position op) (h.position_lt hpos op)

/-! ### Two sources -/

/-- A cursor that stands below `half` stays there. -/
theorem seek_position_lt {len position : ℕ} (hpos : position < half) (pos : SeekFrom) :
    (seek len position pos : Event ε).position < half := by
  have hhalf : (half : ℤ) = 9223372036854775808 := rfl
  have hlimit : (limit : ℤ) = 18446744073709551616 := rfl
  have hlt := Int.bmod_lt (x := seekSum len position pos) (m := limit) (by decide)
  rw [seek]
  split_ifs with hneg
  · exact hpos
  · change ((seekSum len position pos).bmod limit).toNat < half
    omega

/-- The reads of two sources below `half` succeed alike, whatever their states, and none goes past
the end. -/
structure PositionedRead.Agree {σ' : Type} (S : PositionedRead σ ε) (S' : PositionedRead σ' ε) :
    Prop where
  len_eq : S.len = S'.len
  len_lt : S.len < half
  readAt_ok : ∀ s s' off n, off < half → ∃ out, (S.readAt s off n).1 = .ok out ∧
    (S'.readAt s' off n).1 = .ok out ∧ out.length ≤ S.len - off

/-- **Sources that agree** give cursors that do the same. -/
theorem PositionedRead.Agree.run_eq {σ' : Type} {S' : PositionedRead σ' ε} (h : S.Agree S')
    (s : σ) (s' : σ') {position : ℕ} (hpos : position < half) (ops : List Op) :
    S.run s position ops = S'.run s' position ops := by
  induction ops generalizing s s' position with
  | nil => rfl
  | cons op ops ih =>
      cases op with
      | seek pos =>
          rw [PositionedRead.run, PositionedRead.run, PositionedRead.step, PositionedRead.step,
            ← h.len_eq]
          exact congrArg _ (ih s s' (seek_position_lt hpos pos))
      | read n =>
          obtain ⟨out, hout, hout', hle⟩ := h.readAt_ok s s' position n hpos
          have hlen := h.len_lt
          have hlimit : half < limit := by decide
          have hnext : (position + out.length) % limit < half := by
            rw [Nat.mod_eq_of_lt (by omega)]
            omega
          rw [PositionedRead.run, PositionedRead.run, PositionedRead.step, PositionedRead.step]
          cases hread : S.readAt s position n with
          | mk result t =>
              cases hread' : S'.readAt s' position n with
              | mk result' t' =>
                  rw [hread] at hout
                  rw [hread'] at hout'
                  obtain rfl : result = .ok out := hout
                  obtain rfl : result' = .ok out := hout'
                  exact congrArg _ (ih t t' hnext)

end Cursor

import Mathlib.Tactic
import Mathlib.Data.List.Basic

/-!
# Byte Strings Cut into Blocks

A stream that is stored in blocks of one size, the last of which may be shorter.

* `Blocks n bs` — every block but the last holds `n` elements, the last one at least one and
  at most `n`.
* `Blocks.getElem?_flatten` — position `p` of the stream is position `p % n` of block `p / n`.
* `Blocks.getElem?_length` — block `i` holds `n` elements or what is left of the stream.
* `Blocks.take_drop_flatten` — the `n` elements from `i * n` on are block `i`.
-/

/-- Every block but the last holds `n` elements, the last one between one and `n`. -/
def Blocks {α : Type*} (n : ℕ) : List (List α) → Prop
  | [] => True
  | [b] => 0 < b.length ∧ b.length ≤ n
  | b :: c :: bs => b.length = n ∧ Blocks n (c :: bs)

instance instDecidableBlocks {α : Type*} (n : ℕ) : ∀ bs : List (List α), Decidable (Blocks n bs)
  | [] => isTrue trivial
  | [b] => inferInstanceAs (Decidable (0 < b.length ∧ b.length ≤ n))
  | b :: c :: bs =>
    have := instDecidableBlocks n (c :: bs)
    inferInstanceAs (Decidable (b.length = n ∧ Blocks n (c :: bs)))

namespace Blocks

variable {α : Type*} {n : ℕ}

theorem tail {b : List α} {bs : List (List α)} (h : Blocks n (b :: bs)) : Blocks n bs := by
  cases bs with
  | nil => trivial
  | cons c bs => exact h.2

/-- No block is longer than the size, and none is empty. -/
theorem length_le {bs : List (List α)} (h : Blocks n bs) (hn : 0 < n) :
    ∀ b ∈ bs, 0 < b.length ∧ b.length ≤ n := by
  induction bs with
  | nil => simp
  | cons b bs ih =>
      intro b' hb'
      rcases List.mem_cons.mp hb' with rfl | hmem
      · cases bs with
        | nil => exact h
        | cons c bs =>
            have := h.1
            omega
      · exact ih h.tail b' hmem

/-- The head is full unless it is the last block. -/
theorem head_eq {b : List α} {bs : List (List α)} (h : Blocks n (b :: bs)) (hne : bs ≠ []) :
    b.length = n := by
  cases bs with
  | nil => exact absurd rfl hne
  | cons c bs => exact h.1

/-- **Block arithmetic.** Position `p` of the stream is position `p % n` of block `p / n`. -/
theorem getElem?_flatten (hn : 0 < n) {bs : List (List α)} (h : Blocks n bs) (p : ℕ) :
    bs.flatten[p]? = (bs[p / n]?).bind fun b => b[p % n]? := by
  induction bs generalizing p with
  | nil => simp
  | cons b bs ih =>
      have hle := (h.length_le hn b (List.mem_cons_self ..)).2
      rw [List.flatten_cons]
      by_cases hp : p < n
      · rw [Nat.div_eq_of_lt hp, Nat.mod_eq_of_lt hp, List.getElem?_cons_zero, Option.bind_some]
        by_cases hpb : p < b.length
        · rw [List.getElem?_append_left hpb]
        · -- Only the last block can be short, and behind it there is nothing.
          have hnil : bs = [] := by
            by_contra hne
            have := h.head_eq hne
            omega
          rw [hnil, List.flatten_nil, List.append_nil]
      · obtain ⟨q, rfl⟩ : ∃ q, p = q + n := ⟨p - n, by omega⟩
        rw [Nat.add_div_right q hn, Nat.add_mod_right, List.getElem?_cons_succ, ← ih h.tail]
        by_cases hne : bs = []
        · rw [hne, List.flatten_nil, List.append_nil, List.getElem?_nil,
            List.getElem?_eq_none (by omega)]
        · have := h.head_eq hne
          rw [List.getElem?_append_right (by omega), this, Nat.add_sub_cancel]

/-- There is a block `i` exactly when the stream goes beyond `i * n`. -/
theorem mul_lt_length (hn : 0 < n) {bs : List (List α)} (h : Blocks n bs) (i : ℕ) :
    i * n < bs.flatten.length ↔ i < bs.length := by
  induction bs generalizing i with
  | nil => simp
  | cons b bs ih =>
      have hb := h.length_le hn b (List.mem_cons_self ..)
      rw [List.flatten_cons, List.length_append, List.length_cons]
      cases i with
      | zero => omega
      | succ i =>
          rw [Nat.succ_mul]
          by_cases hne : bs = []
          · subst hne
            simp only [List.flatten_nil, List.length_nil]
            omega
          · have := ih h.tail i
            have := h.head_eq hne
            omega

/-- The stream is at most as long as its blocks would be when full. -/
theorem length_flatten_le (hn : 0 < n) {bs : List (List α)} (h : Blocks n bs) :
    bs.flatten.length ≤ bs.length * n := by
  have := h.mul_lt_length hn bs.length
  omega

/-- Block `i` holds `n` elements, or what is left of the stream. -/
theorem getElem?_length {bs : List (List α)} (h : Blocks n bs) {i : ℕ} {b : List α}
    (hb : bs[i]? = some b) : b.length = min n (bs.flatten.length - i * n) := by
  induction bs generalizing i with
  | nil => cases hb
  | cons c bs ih =>
      rw [List.flatten_cons, List.length_append]
      cases i with
      | zero =>
          obtain rfl : c = b := by simpa using hb
          cases bs with
          | nil =>
              have := h.2
              simp only [List.flatten_nil, List.length_nil]
              omega
          | cons d bs =>
              have := h.1
              omega
      | succ i =>
          have hb' : bs[i]? = some b := by simpa using hb
          have hne : bs ≠ [] := by
            rintro rfl
            cases hb'
          have hfull := h.head_eq hne
          rw [ih h.tail hb', Nat.succ_mul, hfull]
          omega

/-- **Cutting.** The `n` elements from `i * n` on are block `i`. -/
theorem take_drop_flatten {bs : List (List α)} (h : Blocks n bs) {i : ℕ} {b : List α}
    (hb : bs[i]? = some b) : (bs.flatten.drop (i * n)).take n = b := by
  induction bs generalizing i with
  | nil => cases hb
  | cons c bs ih =>
      rw [List.flatten_cons]
      cases i with
      | zero =>
          obtain rfl : c = b := by simpa using hb
          rw [Nat.zero_mul, List.drop_zero]
          cases bs with
          | nil => rw [List.flatten_nil, List.append_nil, List.take_of_length_le h.2]
          | cons d bs => rw [List.take_append_of_le_length h.1.ge, List.take_of_length_le h.1.le]
      | succ i =>
          have hb' : bs[i]? = some b := by simpa using hb
          have hne : bs ≠ [] := by
            rintro rfl
            cases hb'
          rw [Nat.succ_mul, Nat.add_comm, ← List.drop_drop, ← h.head_eq hne, List.drop_left,
            h.head_eq hne, ih h.tail hb']

/-- Full blocks are blocks. -/
theorem of_length_eq (hn : 0 < n) {bs : List (List α)} (h : ∀ b ∈ bs, b.length = n) :
    Blocks n bs := by
  induction bs with
  | nil => trivial
  | cons b bs ih =>
      have hb := h b (List.mem_cons_self ..)
      cases bs with
      | nil => exact ⟨by omega, hb.le⟩
      | cons c bs => exact ⟨hb, ih fun b' hb' => h b' (List.mem_cons_of_mem _ hb')⟩

theorem length_flatten_eq {bs : List (List α)} (h : ∀ b ∈ bs, b.length = n) :
    bs.flatten.length = bs.length * n := by
  induction bs with
  | nil => simp
  | cons b bs ih =>
      rw [List.flatten_cons, List.length_append, h b (List.mem_cons_self ..),
        ih fun b' hb' => h b' (List.mem_cons_of_mem _ hb'), List.length_cons, Nat.succ_mul,
        Nat.add_comm]

/-- Blocks that are each filled up behind to the full size still start with the stream. -/
theorem take_flatten_of_padded {bs cs : List (List α)} (h : Blocks n bs)
    (hpad : List.Forall₂ (fun b c => ∃ rest, c = b ++ rest ∧ c.length = n) bs cs) :
    cs.flatten.take bs.flatten.length = bs.flatten := by
  induction hpad with
  | nil => rfl
  | @cons b c bs cs hbc hrest ih =>
      obtain ⟨rest, rfl, hlen⟩ := hbc
      rw [List.length_append] at hlen
      rw [List.flatten_cons, List.flatten_cons, List.length_append]
      by_cases hne : bs = []
      · subst hne
        rw [List.flatten_nil, List.append_nil, List.length_nil, Nat.add_zero, List.append_assoc,
          List.take_left]
      · have hfull := h.head_eq hne
        obtain rfl : rest = [] := List.eq_nil_of_length_eq_zero (by omega)
        rw [List.append_nil, List.take_length_add_append, ih h.tail]

/-- Blocks whose lengths are what is left of a stream of `total` elements. -/
theorem of_getElem?_length {bs : List (List α)} {total : ℕ}
    (h : ∀ i b, bs[i]? = some b → i * n < total ∧ b.length = min (total - i * n) n)
    (hn : 0 < n) : Blocks n bs := by
  induction bs generalizing total with
  | nil => trivial
  | cons b bs ih =>
      have h0 := h 0 b rfl
      cases bs with
      | nil =>
          refine ⟨?_, ?_⟩ <;> omega
      | cons c bs =>
          have h1 := h 1 c rfl
          refine ⟨by omega, @ih (total - n) fun i d hd => ?_⟩
          have := h (i + 1) d hd
          rw [Nat.succ_mul] at this
          omega

end Blocks

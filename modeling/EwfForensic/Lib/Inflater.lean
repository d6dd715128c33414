import EwfForensic.Lib.Zlib

/-!
# Reads of a Decoder, and the Buffers They Fill

What a program asks of a zlib decoder is a `Read`: a stream, read with a bound on the delivered
bytes or without one, and the limit that is declared for the buffer. The buffer of a read is what
the program holds when the read returns, which is more than its result where it fails on the way.

* `Inflater` — a decoder with the buffers of its reads.
* `Inflater.expansion` — how much a stream inflates to when no bound stops it.
* `Within` — the buffers of some reads keep within their limits.
* `Agree` — two decoders deliver the same for each of some reads. A program that asks only these
  cannot tell the decoders apart.
-/

namespace Zlib

/-- A read of a stream, until `bound` bytes are out or until the stream yields no more, and the
limit that is declared for its buffer. -/
structure Read where
  raw : List UInt8
  bound : Option ℕ
  limit : ℕ
  deriving DecidableEq, Repr

/-- Reads without a bound. -/
def fully (limit : ℕ) (raws : List (List UInt8)) : List Read :=
  raws.map fun raw => ⟨raw, none, limit⟩

/-- What a decoder delivers for a read; `none` is a decoding error. -/
def Decoder.deliver (D : Decoder) (raw : List UInt8) : Option ℕ → Option (List UInt8)
  | none => D.readToEnd raw
  | some n => D.readUpTo n raw

/-- A decoder with the buffers that its reads leave. -/
structure Inflater extends Decoder where
  /-- The buffer after a read, whether it fails or not. -/
  buffer : List UInt8 → Option ℕ → List UInt8
  /-- A read that succeeds leaves what it delivers. -/
  buffer_of_deliver : ∀ raw bound out, toDecoder.deliver raw bound = some out →
    buffer raw bound = out
  /-- A bounded read never takes more than its bound. -/
  length_buffer : ∀ raw n, (buffer raw (some n)).length ≤ n

/-- The inflater of a decoder that keeps nothing of a read that fails. -/
def Decoder.inflater (D : Decoder) : Inflater where
  toDecoder := D
  buffer raw bound := (D.deliver raw bound).getD []
  buffer_of_deliver := by
    intro raw bound out h
    rw [h]
    rfl
  length_buffer := by
    intro raw n
    cases h : D.readUpTo n raw with
    | none => simp [Decoder.deliver, h]
    | some out => simpa [Decoder.deliver, h] using D.length_readUpTo n raw out h

/-- How much a stream inflates to. -/
def Inflater.expansion (I : Inflater) (raw : List UInt8) : ℕ := (I.buffer raw none).length

/-! ### Limits -/

/-- The buffers of the reads keep within their limits. -/
def Within (I : Inflater) (reads : List Read) : Prop :=
  ∀ x ∈ reads, (I.buffer x.raw x.bound).length ≤ x.limit

instance (I : Inflater) (reads : List Read) : Decidable (Within I reads) :=
  inferInstanceAs (Decidable (∀ x ∈ reads, (I.buffer x.raw x.bound).length ≤ x.limit))

section Within

variable {I : Inflater} {reads reads' : List Read}

theorem within_append : Within I (reads ++ reads') ↔ Within I reads ∧ Within I reads' :=
  List.forall_mem_append

theorem within_flatMap {α : Type*} {l : List α} {f : α → List Read} :
    Within I (l.flatMap f) ↔ ∀ a ∈ l, Within I (f a) := by
  constructor
  · intro h a ha x hx
    exact h x (List.mem_flatMap.mpr ⟨a, ha, hx⟩)
  · intro h x hx
    obtain ⟨a, ha, hx⟩ := List.mem_flatMap.mp hx
    exact h a ha x hx

/-- Reads without a bound keep within their limit exactly when no stream inflates to more. -/
theorem within_fully {raws : List (List UInt8)} {limit : ℕ} :
    Within I (fully limit raws) ↔ ∀ raw ∈ raws, I.expansion raw ≤ limit :=
  List.forall_mem_map

/-- **Bounded reads** keep within a limit that is no smaller than their bounds. -/
theorem within_of_bound (h : ∀ x ∈ reads, ∃ n ≤ x.limit, x.bound = some n) : Within I reads := by
  intro x hx
  obtain ⟨n, hn, hbound⟩ := h x hx
  rw [hbound]
  exact le_trans (I.length_buffer x.raw n) hn

end Within

/-! ### Decoders that deliver the same -/

/-- Two decoders deliver the same for each of the reads. -/
def Agree (D D' : Decoder) (reads : List Read) : Prop :=
  ∀ x ∈ reads, D'.deliver x.raw x.bound = D.deliver x.raw x.bound

section Agree

variable {D D' : Decoder} {reads reads' : List Read}

theorem agree_append : Agree D D' (reads ++ reads') ↔ Agree D D' reads ∧ Agree D D' reads' :=
  List.forall_mem_append

theorem Agree.of_flatMap {α : Type*} {l : List α} {f : α → List Read}
    (h : Agree D D' (l.flatMap f)) {a : α} (ha : a ∈ l) : Agree D D' (f a) :=
  fun x hx => h x (List.mem_flatMap.mpr ⟨a, ha, hx⟩)

theorem Agree.readToEnd {raws : List (List UInt8)} {limit : ℕ} (h : Agree D D' (fully limit raws))
    {raw : List UInt8} (hraw : raw ∈ raws) : D'.readToEnd raw = D.readToEnd raw :=
  h ⟨raw, none, limit⟩ (List.mem_map_of_mem hraw)

theorem Agree.readUpTo {raw : List UInt8} {n limit : ℕ} (h : Agree D D' [⟨raw, some n, limit⟩]) :
    D'.readUpTo n raw = D.readUpTo n raw :=
  h _ (List.mem_singleton_self _)

end Agree

end Zlib

import Mathlib.Tactic
import Mathlib.Data.List.Basic

/-!
# Least-Recently-Used Caches

A cache of bounded capacity as a list of key-value pairs, most recently used first. `get`
moves the pair it finds to the front; `put` drops the key's old pair, adds the new one at
the front and cuts the list at the capacity.

What a program proves about a memo cache is that every pair in it is right: `Holds P` says
so for a relation `P` between keys and values, and survives every operation
(`Holds.get`, `Holds.put`), so a value that a lookup finds is right (`Holds.of_get`).
-/

/-- A cache, most recently used pair first. -/
structure Lru (κ β : Type) where
  /-- The number of pairs kept. -/
  cap : ℕ
  /-- The pairs, most recently used first. -/
  entries : List (κ × β)
  /-- The capacity is kept. -/
  length_le : entries.length ≤ cap

namespace Lru

variable {κ β : Type}

/-- The empty cache of a given capacity. -/
def empty (cap : ℕ) : Lru κ β := ⟨cap, [], Nat.zero_le _⟩

/-- Every pair satisfies `P`. -/
def Holds (P : κ → β → Prop) (l : Lru κ β) : Prop := ∀ e ∈ l.entries, P e.1 e.2

theorem holds_empty {P : κ → β → Prop} (cap : ℕ) : Holds P (empty cap) := by
  simp [Holds, empty]

variable [DecidableEq κ]

/-- Look a key up; a hit becomes the most recently used pair. -/
def get (l : Lru κ β) (k : κ) : Option (β × Lru κ β) :=
  match h : l.entries.find? fun e => e.1 = k with
  | none => none
  | some e => some (e.2, ⟨l.cap, e :: l.entries.eraseP fun e => e.1 = k, by
      have hmem := List.mem_of_find?_eq_some h
      have hp := List.find?_some h
      have hlen : (l.entries.eraseP fun e => e.1 = k).length + 1 = l.entries.length :=
        List.length_eraseP_add_one hmem hp
      have := l.length_le
      simp only [List.length_cons]
      omega⟩)

/-- Store a value as the most recently used pair, evicting the least recently used ones
over the capacity. -/
def put (l : Lru κ β) (k : κ) (v : β) : Lru κ β :=
  ⟨l.cap, ((k, v) :: l.entries.filter fun e => e.1 ≠ k).take l.cap, List.length_take_le _ _⟩

variable {P : κ → β → Prop} {l l' : Lru κ β} {k : κ} {v : β}

/-- What a lookup finds is a pair of the cache. -/
theorem mem_of_get (h : l.get k = some (v, l')) : (k, v) ∈ l.entries := by
  rw [get] at h
  split at h
  · cases h
  · next e he =>
      have hmem := List.mem_of_find?_eq_some he
      have hk : e.1 = k := by simpa using List.find?_some he
      obtain ⟨rfl, -⟩ := Prod.mk.inj (Option.some.inj h)
      rwa [← hk]

/-- A hit returns a right value. -/
theorem Holds.of_get (hl : Holds P l) (h : l.get k = some (v, l')) : P k v :=
  hl _ (mem_of_get h)

/-- A lookup keeps the cache right. -/
theorem Holds.get (hl : Holds P l) (h : l.get k = some (v, l')) : Holds P l' := by
  rw [Lru.get] at h
  split at h
  · cases h
  · next e he =>
      obtain ⟨-, rfl⟩ := Prod.mk.inj (Option.some.inj h)
      intro e' he'
      rcases List.mem_cons.mp he' with rfl | he'
      · exact hl _ (List.mem_of_find?_eq_some he)
      · exact hl _ (List.mem_of_mem_eraseP he')

/-- Storing a right value keeps the cache right. -/
theorem Holds.put (hl : Holds P l) (hv : P k v) : Holds P (l.put k v) := by
  intro e he
  rcases List.mem_cons.mp (List.mem_of_mem_take he) with rfl | he
  · exact hv
  · exact hl _ (List.mem_of_mem_filter he)

end Lru

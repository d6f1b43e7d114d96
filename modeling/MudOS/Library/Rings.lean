-- A ring of cells with a place to write and a place to read, which wrap at the
-- end one by one. What the ring holds is a list, to which a push adds at the
-- end and from which a drop takes at the front.
import Mathlib.Data.List.Basic
import Mathlib.Data.Nat.ModEq

open List

namespace mudos.rings

variable {k : Nat}

/-- `producer` is where the next value goes, and `consumer` where the oldest one is. -/
structure RingBuffer (α : Type*) where
  cells : Nat → α
  producer : Nat
  consumer : Nat
  length : Nat

variable {α : Type*} {n : Nat}

/-- The two places of a ring of `n` cells fit its length. -/
structure RingBuffer.Good (n : Nat) (r : RingBuffer α) : Prop where
  consumer : r.consumer < n
  length : r.length ≤ n
  producer : r.producer = (r.consumer + r.length) % n

def RingBuffer.contents (n : Nat) (r : RingBuffer α) : List α :=
  (range r.length).map fun k => r.cells ((r.consumer + k) % n)

def RingBuffer.push (n : Nat) (a : α) (r : RingBuffer α) : RingBuffer α where
  cells := Function.update r.cells r.producer a
  producer := (r.producer + 1) % n
  consumer := r.consumer
  length := r.length + 1

def RingBuffer.drop (n k : Nat) (r : RingBuffer α) : RingBuffer α where
  cells := r.cells
  producer := r.producer
  consumer := (r.consumer + k) % n
  length := r.length - k

@[simp] theorem length_contents (r : RingBuffer α) : (r.contents n).length = r.length := by
  simp [RingBuffer.contents]

theorem mod_ne_mod {c l : Nat} (hl : l < n) (hk : k < l) : (c + k) % n ≠ (c + l) % n := by
  intro h
  have h1 : (c + k) ≡ (c + l) [MOD n] := h
  have h2 : k % n = l % n := Nat.ModEq.add_left_cancel' c h1
  rw [Nat.mod_eq_of_lt (by omega), Nat.mod_eq_of_lt hl] at h2
  omega

theorem contents_push {r : RingBuffer α} (h : r.Good n) (hlt : r.length < n) (a : α) :
    (r.push n a).contents n = r.contents n ++ [a] := by
  unfold RingBuffer.contents
  simp only [RingBuffer.push, range_succ, map_append, map_cons, map_nil]
  congr 1
  · apply map_congr_left
    intro k hk
    have hk := mem_range.mp hk
    rw [h.producer, Function.update_of_ne (mod_ne_mod hlt hk)]
  · rw [h.producer, Function.update_self]

theorem RingBuffer.Good.push {r : RingBuffer α} (h : r.Good n) (hlt : r.length < n) (a : α) :
    (r.push n a).Good n where
  consumer := h.consumer
  length := hlt
  producer := by simp [RingBuffer.push, h.producer, Nat.add_assoc]

theorem contents_drop (r : RingBuffer α) (k : Nat) :
    (r.drop n k).contents n = (r.contents n).drop k := by
  apply ext_getElem
  · simp [RingBuffer.drop]
  · intro i h1 h2
    simp [RingBuffer.contents, RingBuffer.drop, Nat.add_assoc]

theorem RingBuffer.Good.drop {r : RingBuffer α} (h : r.Good n) (hk : k ≤ r.length) :
    (r.drop n k).Good n where
  consumer := Nat.mod_lt _ (by have := h.consumer; omega)
  length := by
    have := h.length
    simp only [RingBuffer.drop]
    omega
  producer := by
    simp only [RingBuffer.drop, h.producer, Nat.mod_add_mod]
    congr 1
    omega

theorem contents_take {r : RingBuffer α} (hk : k ≤ r.length) (hn : r.consumer + k ≤ n) :
    (r.contents n).take k = (range k).map fun i => r.cells (r.consumer + i) := by
  apply ext_getElem
  · simp [hk]
  · intro i h1 h2
    have hi : i < k := by simpa using h2
    simp [RingBuffer.contents, Nat.mod_eq_of_lt (show r.consumer + i < n by omega)]

end mudos.rings

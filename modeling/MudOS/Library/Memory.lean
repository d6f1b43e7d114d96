-- A memory is a function of the address. A store changes the cells under
-- it, and a load lists the cells of a range.
import Mathlib.Data.List.Basic

open List

namespace mudos.memory

variable {α : Type*}
variable {a n : Nat}

/-- The memory after the values are stored from the address on. -/
def store (m : Nat → α) (a : Nat) (vs : List α) : Nat → α := fun i =>
  if a ≤ i then (vs[i - a]?).getD (m i) else m i

def load (m : Nat → α) (a n : Nat) : List α := (range n).map fun k => m (a + k)

@[simp] theorem length_load (m : Nat → α) (a n : Nat) : (load m a n).length = n := by simp [load]

@[simp] theorem load_zero (m : Nat → α) (a : Nat) : load m a 0 = [] := rfl

theorem load_succ (m : Nat → α) (a n : Nat) : load m a (n + 1) = m a :: load m (a + 1) n := by
  simp only [load, range_succ_eq_map, map_cons, map_map, Nat.add_zero]
  congr 1
  apply map_congr_left
  intro k _
  simp only [Function.comp_apply]
  congr 1
  omega

theorem load_congr {m m' : Nat → α} (h : ∀ i, a ≤ i → i < a + n → m i = m' i) :
    load m a n = load m' a n := by
  unfold load
  apply map_congr_left
  intro k hk
  exact h _ (by omega) (by have := mem_range.1 hk; omega)

theorem load_append (m : Nat → α) (a n k : Nat) :
    load m a (n + k) = load m a n ++ load m (a + n) k := by
  induction n generalizing a with
  | zero => simp
  | succ n ih =>
    rw [show n + 1 + k = (n + k) + 1 by omega, load_succ, load_succ, ih]
    simp [show a + 1 + n = a + (n + 1) by omega]

theorem load_split {m : Nat → α} {us vs : List α} (h : load m a n = us ++ vs) :
    load m a us.length = us ∧ load m (a + us.length) (n - us.length) = vs := by
  have hlen := congrArg length h
  rw [length_load, length_append] at hlen
  rw [show n = us.length + (n - us.length) by omega, load_append] at h
  exact { append_inj h (by simp) with }

theorem load_shift {m m' : Nat → α} {b : Nat} (h : ∀ k, k < n → m' (b + k) = m (a + k)) :
    load m' b n = load m a n := by
  unfold load
  apply map_congr_left
  intro k hk
  exact h k (mem_range.1 hk)

theorem store_outside {m : Nat → α} {vs : List α} {i : Nat} (h : i < a ∨ a + vs.length ≤ i) :
    store m a vs i = m i := by
  unfold store
  split
  · rw [getElem?_eq_none (by omega)]
    rfl
  · rfl

theorem load_store (m : Nat → α) (a : Nat) (us vs ws : List α) :
    load (store m a (us ++ vs ++ ws)) (a + us.length) vs.length = vs := by
  apply ext_getElem (by simp)
  intro k h1 h2
  simp only [load, getElem_map, getElem_range, store]
  rw [if_pos (by omega), show a + us.length + k - a = us.length + k by omega, append_assoc,
    getElem?_append_right (by omega), getElem?_append_left (by omega)]
  simp [h2]

theorem store_load_cell (m m' : Nat → α) (a b : Nat) {k : Nat} (h : k < n) :
    store m b (load m' a n) (b + k) = m' (a + k) := by simp [store, load, h]

theorem load_store_end (m : Nat → α) (a n : Nat) (vs : List α) :
    load (store m (a + n) vs) a (n + vs.length) = load m a n ++ vs := by
  rw [load_append]
  congr 1
  · exact load_congr fun i _ hi => store_outside (Or.inl hi)
  · simpa using load_store m (a + n) [] vs []

end mudos.memory

-- A list cut by intervals that stand in order: the pieces before, in and after the intervals.
-- Every second piece is an interval, and all of them together are the list.
import Mathlib.Data.List.Basic

open List

namespace mudos.cuts

variable {α : Type}

def slice (l : List α) (b e : Nat) : List α := (l.drop b).take (e - b)

def pieces (l : List α) : Nat → List (Nat × Nat) → List (List α)
  | p, [] => [l.drop p]
  | p, c :: cs => slice l p c.1 :: slice l c.1 c.2 :: pieces l c.2 cs

/-- The intervals follow each other from an index on. -/
inductive InOrder : Nat → List (Nat × Nat) → Prop
  | nil {p : Nat} : InOrder p []
  | cons {p : Nat} {c : Nat × Nat} {cs : List (Nat × Nat)} (hb : p ≤ c.1) (he : c.1 ≤ c.2)
      (h : InOrder c.2 cs) : InOrder p (c :: cs)

theorem InOrder.earlier {p p' : Nat} {cs : List (Nat × Nat)} (h : InOrder p cs) (hp : p' ≤ p) :
    InOrder p' cs := by
  cases h with
  | nil => exact .nil
  | cons hb he h => exact .cons (by omega) he h

theorem slice_append_drop (l : List α) {b e : Nat} (h : b ≤ e) :
    slice l b e ++ l.drop e = l.drop b := by
  unfold slice
  have hdrop : l.drop e = (l.drop b).drop (e - b) := by
    rw [drop_drop]
    congr 1
    omega
  rw [hdrop, take_append_drop]

theorem pieces_flatten (l : List α) {p : Nat} {cs : List (Nat × Nat)} (h : InOrder p cs) :
    (pieces l p cs).flatten = l.drop p := by
  induction h with
  | nil => simp only [pieces, flatten_cons, flatten_nil, append_nil]
  | cons hb he h ih =>
    simp only [pieces, flatten_cons, ih]
    rw [slice_append_drop l he, slice_append_drop l hb]

theorem pieces_length (l : List α) (p : Nat) (cs : List (Nat × Nat)) :
    (pieces l p cs).length = 2 * cs.length + 1 := by
  induction cs generalizing p with
  | nil => rfl
  | cons c cs ih =>
    simp only [pieces, length_cons, ih]
    omega

theorem pieces_odd (l : List α) (p : Nat) (cs : List (Nat × Nat)) (k : Nat) :
    (pieces l p cs)[2 * k + 1]? = (cs[k]?).map fun c => slice l c.1 c.2 := by
  induction cs generalizing p k with
  | nil =>
    simp only [pieces, getElem?_nil, Option.map_none]
    exact getElem?_eq_none (by simp)
  | cons c cs ih =>
    cases k with
    | zero => rfl
    | succ k =>
      have hindex : 2 * (k + 1) + 1 = (2 * k + 1) + 1 + 1 := by omega
      simp [pieces, hindex, ih]

end mudos.cuts

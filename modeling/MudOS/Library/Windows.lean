-- Parts of lists: what is written over a part, and the elements between two positions.
import Mathlib.Data.List.Basic

open List

namespace mudos.windows

variable {α : Type} {l w : List α} {i : Nat} {v : α}

/-! ## Writing over a part -/

def overwrite (l : List α) (i : Nat) (w : List α) : List α :=
  l.take i ++ w ++ l.drop (i + w.length)

theorem overwrite_nil (l : List α) (i : Nat) : overwrite l i [] = l := by
  unfold overwrite
  rw [append_nil]
  exact take_append_drop i l

theorem overwrite_set_last (h : i + w.length < l.length) (v : α) :
    overwrite (l.set (i + w.length) v) i w = overwrite l i (w ++ [v]) := by
  unfold overwrite
  have htake : (l.set (i + w.length) v).take i = l.take i := take_set_of_le (by omega)
  have hdrop : (l.set (i + w.length) v).drop (i + w.length) =
      v :: l.drop (i + (w ++ [v]).length) := by
    rw [drop_eq_getElem_cons (by rw [length_set]; exact h), getElem_set_self,
      drop_set_of_lt (Nat.lt_succ_self _), length_append, length_singleton]
    rfl
  rw [htake, hdrop]
  simp

theorem overwrite_set_first (h : i < l.length) (v : α) (w : List α) :
    overwrite (l.set i v) (i + 1) w = overwrite l i (v :: w) := by
  unfold overwrite
  have htake : (l.set i v).take (i + 1) = l.take i ++ [v] := by
    rw [take_add_one, take_set_of_le (Nat.le_refl i), getElem?_set_self h]
    rfl
  have hdrop : (l.set i v).drop (i + 1 + w.length) = l.drop (i + (v :: w).length) := by
    rw [drop_set_of_lt (by omega), length_cons]
    congr 1
    omega
  rw [htake, hdrop]
  simp

theorem length_overwrite (h : i + w.length ≤ l.length) :
    (overwrite l i w).length = l.length := by
  unfold overwrite
  simp only [length_append, length_take, length_drop]
  omega

theorem overwrite_rest (l : List α) {r w : List α} (h : w.length = r.length) :
    overwrite (l ++ r) l.length w = l ++ w := by
  unfold overwrite
  rw [take_left, drop_of_length_le (by rw [length_append]; omega), append_nil]

/-! ## Elements between two positions -/

def inside (a b : Int) (e : α × Nat) : Bool := decide (a ≤ e.2 ∧ (e.2 : Int) ≤ b)

/-- The elements whose positions are not before one and not behind another. -/
def between (a b : Int) (l : List α) : List α := (l.zipIdx.filter (inside a b)).map (·.1)

theorem zipIdx_between (a b : Int) (l : List α) (k : Nat) :
    ((l.zipIdx k).filter (inside a b)).map (·.1) =
      (l.drop (a - k).toNat).take (b - max a k + 1).toNat := by
  induction l generalizing k with
  | nil => rw [drop_nil, take_nil]; rfl
  | cons v l ih =>
    rw [zipIdx_cons]
    by_cases hin : a ≤ k ∧ (k : Int) ≤ b
    · have hskip : (a - k).toNat = 0 ∧ (a - (k + 1 : Nat)).toNat = 0 := by omega
      have hcount : (b - max a k + 1).toNat = (b - max a (k + 1 : Nat) + 1).toNat + 1 := by omega
      have hyes : inside a b (v, k) = true := decide_eq_true hin
      rw [filter_cons_of_pos hyes, map_cons, ih, hskip.1, hskip.2,
        hcount]
      rfl
    · have hno : ¬ inside a b (v, k) = true := fun h => hin (of_decide_eq_true h)
      rw [filter_cons_of_neg hno, ih]
      by_cases hbefore : (k : Int) < a
      · have hskip : (a - k).toNat = (a - (k + 1 : Nat)).toNat + 1 := by omega
        have hsame : max a (k + 1 : Nat) = max a k := by omega
        rw [hskip, hsame, drop_succ_cons]
      · have hnone : (b - max a k + 1).toNat = 0 ∧ (b - max a (k + 1 : Nat) + 1).toNat = 0 := by
          omega
        rw [hnone.1, hnone.2, take_zero, take_zero]

theorem between_eq (a b : Int) (l : List α) :
    between a b l = (l.drop a.toNat).take (b - max a 0 + 1).toNat := by
  have h := zipIdx_between a b l 0
  rwa [Int.natCast_zero, Int.sub_zero] at h

theorem between_eq_nil {a b : Int} (h : b < max a 0 ∨ (l.length : Int) ≤ max a 0) :
    between a b l = [] := by
  rw [between_eq]
  rcases h with h | h
  · rw [show (b - max a 0 + 1).toNat = 0 by omega, take_zero]
  · rw [drop_of_length_le (by omega), take_nil]

theorem between_clamp (a b : Int) (l : List α) :
    between (max a 0) (min b (l.length - 1)) l = between a b l := by
  rw [between_eq, between_eq, show (max a 0).toNat = a.toNat by omega]
  by_cases hb : b ≤ l.length - 1
  · rw [Int.min_eq_left hb]
    congr 2
    omega
  · have hlength : (l.drop a.toNat).length = l.length - a.toNat := length_drop ..
    rw [take_of_length_le (by omega), take_of_length_le (by omega)]

end mudos.windows

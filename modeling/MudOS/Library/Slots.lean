-- A table of slots that are taken and given back. What the slots weigh
-- together changes by the slot that is written.
import Mathlib.Algebra.BigOperators.Group.List.Basic
import Mathlib.Algebra.GroupWithZero.Nat

open List

namespace mudos.slots

variable {α : Type*}

def weigh (w : α → Nat) (l : List α) : Nat := (l.map w).sum

variable {w w' : α → Nat} {l : List α}

theorem weigh_append (w : α → Nat) (l l' : List α) : weigh w (l ++ l') = weigh w l + weigh w l' := by
  simp [weigh]

theorem weigh_replicate (w : α → Nat) (n : Nat) (x : α) (h : w x = 0) :
    weigh w (replicate n x) = 0 := by simp [weigh, h]

theorem weigh_set {i : Nat} {x y : α} (h : l[i]? = some y) :
    weigh w (l.set i x) + w y = weigh w l + w x := by
  induction l generalizing i with
  | nil => simp at h
  | cons a l ih =>
    cases i with
    | zero =>
      obtain rfl : a = y := by simpa using h
      simp [weigh]
      omega
    | succ i =>
      have := ih (i := i) (by simpa using h)
      simp only [weigh, set_cons_succ, map_cons, sum_cons] at this ⊢
      omega

theorem weigh_congr (h : ∀ x ∈ l, w x = w' x) : weigh w l = weigh w' l := by
  unfold weigh
  rw [map_congr_left h]

theorem le_weigh {x : α} (h : x ∈ l) : w x ≤ weigh w l := by
  induction l with
  | nil => cases h
  | cons a l ih =>
    simp only [weigh, map_cons, sum_cons] at ih ⊢
    rcases mem_cons.mp h with rfl | h
    · omega
    · have := ih h
      omega

variable [DecidableEq α]

abbrev times (x : α) (l : List α) : Nat := weigh (fun y => if y = x then 1 else 0) l

theorem times_pos {x : α} (h : x ∈ l) : 0 < times x l := by
  have hle := le_weigh (w := fun y => if y = x then 1 else 0) h
  simp only [if_true] at hle
  exact hle

theorem mem_of_times_pos {x : α} (h : 0 < times x l) : x ∈ l := by
  by_contra hx
  have : times x l = 0 := by
    unfold times weigh
    apply sum_eq_zero
    intro n hn
    obtain ⟨y, hy, rfl⟩ := mem_map.mp hn
    rw [if_neg]
    rintro rfl
    exact hx hy
  omega

theorem weigh_change (w w' : α → Nat) {x : α} (h : ∀ y, y ≠ x → w' y = w y) (l : List α) :
    weigh w' l + times x l * w x = weigh w l + times x l * w' x := by
  induction l with
  | nil => simp [weigh]
  | cons a l ih =>
    simp only [weigh, times, map_cons, sum_cons] at ih ⊢
    by_cases ha : a = x
    · subst ha
      simp only [if_true, Nat.add_mul, Nat.one_mul]
      omega
    · rw [h a ha, if_neg ha]
      simp only [Nat.zero_add]
      omega

end mudos.slots

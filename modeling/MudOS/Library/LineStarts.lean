-- Where the lines of a list begin, when some of its elements end a line.
import Mathlib.Data.List.Basic

open List

namespace mudos.line_starts

variable {α : Type*} (newline : α → Bool)
variable {k : Nat}

/-- What stands behind the first element that ends a line. -/
def after_newline : List α → Option (List α)
  | [] => none
  | c :: l => if newline c then some l else after_newline l

def line_start : Nat → List α → List α
  | 0, l => l
  | k + 1, l =>
    match after_newline newline l with
    | none => []
    | some l => line_start k l

def first_lines (k : Nat) (l : List α) : List α :=
  l.take (l.length - (line_start newline k l).length)

variable {newline}

@[simp] theorem line_start_zero (l : List α) : line_start newline 0 l = l := rfl

@[simp] theorem line_start_nil (k : Nat) : line_start newline k [] = [] := by cases k <;> rfl

theorem line_start_end {c : α} (h : newline c = true) (k : Nat) (l : List α) :
    line_start newline (k + 1) (c :: l) = line_start newline k l := by
  have hafter : after_newline newline (c :: l) = some l := if_pos h
  rw [line_start, hafter]

theorem line_start_other {c : α} (h : newline c = false) (k : Nat) (l : List α) :
    line_start newline (k + 1) (c :: l) = line_start newline (k + 1) l := by
  unfold line_start
  rw [after_newline, h]
  rfl

theorem after_newline_none {l : List α} (h : after_newline newline l = none) :
    l.countP newline = 0 := by
  induction l with
  | nil => rfl
  | cons c l ih =>
    unfold after_newline at h
    split_ifs at h with hc
    rw [countP_cons_of_neg hc]
    exact ih h

theorem after_newline_some {l q : List α} (h : after_newline newline l = some q) :
    l.countP newline = q.countP newline + 1 := by
  induction l with
  | nil => cases h
  | cons c l ih =>
    unfold after_newline at h
    split_ifs at h with hc
    · cases h
      exact countP_cons_of_pos hc
    · rw [countP_cons_of_neg hc]
      exact ih h

theorem line_start_after {l q : List α} (h : after_newline newline l = some q) (k : Nat) :
    line_start newline (k + 1) l = line_start newline k q := by rw [line_start, h]

theorem line_start_suffix (newline : α → Bool) (k : Nat) (l : List α) : line_start newline k l <:+ l := by
  induction l generalizing k with
  | nil =>
    simp [line_start_nil]
  | cons c l ih =>
    cases k with
    | zero => exact suffix_refl _
    | succ k =>
      cases h : newline c with
      | true =>
        rw [line_start_end h]
        exact (ih k).trans (suffix_cons c l)
      | false =>
        rw [line_start_other h]
        exact (ih (k + 1)).trans (suffix_cons c l)

theorem line_start_length (newline : α → Bool) (k : Nat) (l : List α) :
    (line_start newline k l).length + min k l.length ≤ l.length := by
  induction l generalizing k with
  | nil => simp
  | cons c l ih =>
    cases k with
    | zero => simp
    | succ k =>
      have hk := ih k
      have hnext := ih (k + 1)
      cases h : newline c with
      | true =>
        rw [line_start_end h, length_cons]
        omega
      | false =>
        rw [line_start_other h, length_cons]
        omega

theorem line_start_append {a : List α} (h : k ≤ a.countP newline) (b : List α) :
    line_start newline k (a ++ b) = line_start newline k a ++ b := by
  induction a generalizing k with
  | nil =>
    obtain rfl : k = 0 := Nat.le_zero.mp h
    rfl
  | cons c a ih =>
    cases k with
    | zero => rfl
    | succ k =>
      rw [cons_append]
      cases hc : newline c with
      | true =>
        rw [countP_cons_of_pos hc] at h
        rw [line_start_end hc, line_start_end hc]
        exact ih (Nat.le_of_succ_le_succ h)
      | false =>
        rw [countP_cons_of_neg (by simp [hc])] at h
        rw [line_start_other hc, line_start_other hc]
        exact ih h

theorem line_start_append_more {a : List α} (h : a.countP newline < k) (b : List α) :
    line_start newline k (a ++ b) = line_start newline (k - a.countP newline) b := by
  induction a generalizing k with
  | nil => rfl
  | cons c a ih =>
    cases k with
    | zero => cases h
    | succ k =>
      rw [cons_append]
      cases hc : newline c with
      | true =>
        rw [countP_cons_of_pos hc] at h ⊢
        rw [line_start_end hc, ih (Nat.lt_of_succ_lt_succ h), Nat.add_sub_add_right]
      | false =>
        rw [countP_cons_of_neg (by simp [hc])] at h ⊢
        rw [line_start_other hc, ih h]

theorem line_start_line_start (j k : Nat) (l : List α) :
    line_start newline j (line_start newline k l) = line_start newline (k + j) l := by
  induction l generalizing k with
  | nil => simp
  | cons c l ih =>
    cases k with
    | zero => rw [Nat.zero_add, line_start_zero]
    | succ k =>
      have hadd : k + 1 + j = k + j + 1 := by omega
      cases hc : newline c with
      | true => rw [hadd, line_start_end hc, line_start_end hc, ih]
      | false => rw [hadd, line_start_other hc, line_start_other hc, ih, ← hadd]

theorem countP_line_start (newline : α → Bool) (k : Nat) (l : List α) :
    (line_start newline k l).countP newline = l.countP newline - k := by
  induction l generalizing k with
  | nil => simp
  | cons c l ih =>
    cases k with
    | zero => rfl
    | succ k =>
      cases hc : newline c with
      | true =>
        rw [line_start_end hc, ih, countP_cons_of_pos hc, Nat.add_sub_add_right]
      | false => rw [line_start_other hc, ih, countP_cons_of_neg (by simp [hc])]

theorem line_start_none {l : List α} (h : l.countP newline < k) : line_start newline k l = [] := by
  have happend := line_start_append_more h []
  rwa [append_nil, line_start_nil] at happend

theorem first_lines_append (newline : α → Bool) (k : Nat) (l : List α) :
    first_lines newline k l ++ line_start newline k l = l := by
  unfold first_lines
  obtain ⟨a, ha⟩ := line_start_suffix newline k l
  have hlength := congrArg List.length ha
  rw [length_append] at hlength
  have htake : l.length - (line_start newline k l).length = a.length := by omega
  rw [htake]
  conv_lhs =>
    enter [1, 2]
    rw [← ha]
  rw [take_left, ha]

theorem first_lines_left {a : List α} (h : k ≤ a.countP newline) (b : List α) :
    first_lines newline k (a ++ b) = first_lines newline k a := by
  have hwhole := first_lines_append newline k (a ++ b)
  rw [line_start_append h] at hwhole
  conv_rhs at hwhole => rw [← first_lines_append newline k a, append_assoc]
  exact append_cancel_right hwhole

theorem first_lines_more {a : List α} (h : a.countP newline < k) (b : List α) :
    first_lines newline k (a ++ b) = a ++ first_lines newline (k - a.countP newline) b := by
  have hwhole := first_lines_append newline k (a ++ b)
  rw [line_start_append_more h] at hwhole
  conv_rhs at hwhole =>
    rw [← first_lines_append newline (k - a.countP newline) b, ← append_assoc]
  exact append_cancel_right hwhole

theorem first_lines_all {l : List α} (h : l.countP newline < k) : first_lines newline k l = l := by
  have hwhole := first_lines_append newline k l
  rwa [line_start_none h, append_nil] at hwhole

theorem first_lines_ne_nil {l : List α} (hk : 0 < k) (hl : l ≠ []) :
    first_lines newline k l ≠ [] := by
  intro hnil
  have hwhole := congrArg List.length (first_lines_append newline k l)
  have hlength := line_start_length newline k l
  have hpos := length_pos_iff.mpr hl
  rw [hnil, nil_append] at hwhole
  omega

theorem head_not_mem_line_start {c : α} {l : List α} (hk : 0 < k) (hnodup : (c :: l).Nodup) :
    c ∉ line_start newline k (c :: l) := by
  obtain ⟨hc, -⟩ := nodup_cons.mp hnodup
  obtain ⟨k, rfl⟩ := Nat.exists_eq_succ_of_ne_zero (Nat.ne_of_gt hk)
  intro hmem
  apply hc
  cases h : newline c with
  | true =>
    rw [Nat.succ_eq_add_one, line_start_end h] at hmem
    exact (line_start_suffix _ k l).mem hmem
  | false =>
    rw [Nat.succ_eq_add_one, line_start_other h] at hmem
    exact (line_start_suffix _ (k + 1) l).mem hmem

theorem ends_of_line_start_nil {l : List α} (hk : k ≤ l.countP newline) (hl : l ≠ [])
    (h : line_start newline k l = []) : ∃ a c, l = a ++ [c] ∧ newline c = true := by
  induction l generalizing k with
  | nil => exact absurd rfl hl
  | cons c l ih =>
    cases k with
    | zero => cases h
    | succ k =>
      cases hc : newline c with
      | true =>
        rw [countP_cons_of_pos hc] at hk
        rw [line_start_end hc] at h
        by_cases hnil : l = []
        · exact ⟨[], c, by rw [hnil]; rfl, hc⟩
        · obtain ⟨a, x, rfl, hx⟩ := ih (Nat.le_of_succ_le_succ hk) hnil h
          exact ⟨c :: a, x, rfl, hx⟩
      | false =>
        rw [countP_cons_of_neg (by simp [hc])] at hk
        rw [line_start_other hc] at h
        have hnil : l ≠ [] := by
          rintro rfl
          cases hk
        obtain ⟨a, x, rfl, hx⟩ := ih hk hnil h
        exact ⟨c :: a, x, rfl, hx⟩

end mudos.line_starts

-- A list cut at the leftmost occurrences of another one, of which no two overlap, and put
-- together again with other lists between the pieces.
import Mathlib.Data.List.Basic

open List

namespace mudos.occurrences

variable {α : Type*}

def lengthen (a : List α) : List (List α) → List (List α)
  | [] => [a]
  | x :: l => (a ++ x) :: l

@[simp] theorem lengthen_nil {l : List (List α)} (h : l ≠ []) : lengthen [] l = l := by
  cases l with
  | nil => exact absurd rfl h
  | cons x l => rfl

@[simp] theorem lengthen_length {l : List (List α)} (h : l ≠ []) (a : List α) :
    (lengthen a l).length = l.length := by
  cases l with
  | nil => exact absurd rfl h
  | cons x l => rfl

theorem lengthen_ne_nil (a : List α) (l : List (List α)) : lengthen a l ≠ [] := by
  cases l <;> simp [lengthen]

theorem lengthen_lengthen {l : List (List α)} (h : l ≠ []) (a b : List α) :
    lengthen a (lengthen b l) = lengthen (a ++ b) l := by
  cases l with
  | nil => exact absurd rfl h
  | cons x l => simp [lengthen]

theorem lengthen_append {l : List (List α)} (h : l ≠ []) (a : List α) (k : List (List α)) :
    lengthen a (l ++ k) = lengthen a l ++ k := by
  cases l with
  | nil => exact absurd rfl h
  | cons x l => rfl

/-! ## Pieces -/

variable [DecidableEq α]

/-- The pieces between the occurrences of `d`, when `skip` more elements belong to one. -/
def pieces_from (d : List α) : Nat → List α → List (List α)
  | _, [] => [[]]
  | skip + 1, _ :: t => pieces_from d skip t
  | 0, c :: t =>
    if d <+: c :: t then [] :: pieces_from d (d.length - 1) t
    else lengthen [c] (pieces_from d 0 t)

def pieces (d t : List α) : List (List α) := pieces_from d 0 t

variable {d t : List α}

theorem pieces_from_ne_nil (d : List α) (skip : Nat) (t : List α) : pieces_from d skip t ≠ [] := by
  induction t generalizing skip with
  | nil => simp [pieces_from]
  | cons c t ih =>
    cases skip with
    | succ skip => exact ih skip
    | zero =>
      unfold pieces_from
      split_ifs
      · simp
      · exact lengthen_ne_nil _ _

theorem pieces_ne_nil (d t : List α) : pieces d t ≠ [] := pieces_from_ne_nil d 0 t

theorem pieces_from_drop (d : List α) (skip : Nat) (t : List α) :
    pieces_from d skip t = pieces d (t.drop skip) := by
  induction t generalizing skip with
  | nil => simp [pieces_from, pieces]
  | cons c t ih =>
    cases skip with
    | succ skip => exact ih skip
    | zero => rfl

@[simp] theorem pieces_nil (d : List α) : pieces d [] = [[]] := rfl

theorem pieces_occurrence (hd : d ≠ []) (h : d <+: t) :
    pieces d t = [] :: pieces d (t.drop d.length) := by
  have hpos := length_pos_iff.mpr hd
  cases t with
  | nil => exact absurd (prefix_nil.mp h) hd
  | cons c t =>
    obtain ⟨n, hn⟩ := Nat.exists_eq_succ_of_ne_zero (Nat.ne_of_gt hpos)
    have hfirst : pieces d (c :: t) = [] :: pieces_from d (d.length - 1) t := if_pos h
    rw [hfirst, pieces_from_drop, hn, drop_succ_cons, Nat.succ_sub_one]

theorem pieces_none {c : α} (h : ¬ d <+: c :: t) :
    pieces d (c :: t) = lengthen [c] (pieces d t) := if_neg h

theorem occurrences_induction {motive : List α → Prop} (hd : d ≠ []) (nil : motive [])
    (occurrence : ∀ t, d <+: t → motive (t.drop d.length) → motive t)
    (none : ∀ c t, ¬ d <+: c :: t → motive t → motive (c :: t)) (t : List α) : motive t := by
  have hpos := length_pos_iff.mpr hd
  induction hn : t.length using Nat.strongRecOn generalizing t with
  | ind n ih =>
    cases t with
    | nil => exact nil
    | cons c t =>
      subst hn
      by_cases h : d <+: c :: t
      · refine occurrence _ h (ih _ ?_ _ rfl)
        simp only [length_drop, length_cons]
        omega
      · exact none c t h (ih _ (Nat.lt_succ_self _) t rfl)

/-! ## Putting together -/

/-- The pieces with lists between them, the first of which has the number `k`. -/
def weave (sep : Nat → List α) : Nat → List (List α) → List α
  | _, [] => []
  | _, [x] => x
  | k, x :: y :: l => x ++ sep k ++ weave sep (k + 1) (y :: l)

omit [DecidableEq α] in
theorem weave_cons {l : List (List α)} (hl : l ≠ []) (sep : Nat → List α) (k : Nat) (x : List α) :
    weave sep k (x :: l) = x ++ sep k ++ weave sep (k + 1) l := by
  cases l with
  | nil => exact absurd rfl hl
  | cons y l => rfl

omit [DecidableEq α] in
theorem weave_lengthen (sep : Nat → List α) (k : Nat) (a : List α) (l : List (List α)) :
    weave sep k (lengthen a l) = a ++ weave sep k l := by
  cases l with
  | nil => simp [lengthen, weave]
  | cons x l =>
    unfold lengthen
    cases l with
    | nil => rfl
    | cons y l => simp [weave]

omit [DecidableEq α] in
theorem weave_append {l k : List (List α)} (hl : l ≠ []) (hk : k ≠ []) (sep : Nat → List α)
    (n : Nat) : weave sep n (l ++ k) =
      weave sep n l ++ sep (n + (l.length - 1)) ++ weave sep (n + l.length) k := by
  induction l generalizing n with
  | nil => exact absurd rfl hl
  | cons x l ih =>
    by_cases hnil : l = []
    · subst hnil
      rw [cons_append, nil_append, weave_cons hk]
      rfl
    · have hne : l ++ k ≠ [] := append_ne_nil_of_left_ne_nil hnil k
      have hpos := length_pos_iff.mpr hnil
      have hlast : n + 1 + (l.length - 1) = n + ((x :: l).length - 1) := by
        rw [length_cons]
        omega
      have hnext : n + 1 + l.length = n + (x :: l).length := by
        rw [length_cons]
        omega
      rw [cons_append, weave_cons hne, weave_cons hnil, ih hnil, hlast, hnext]
      simp

theorem weave_pieces (hd : d ≠ []) (t : List α) (k : Nat) :
    weave (fun _ => d) k (pieces d t) = t := by
  induction t using occurrences_induction hd generalizing k with
  | nil => rfl
  | occurrence t h ih =>
    rw [pieces_occurrence hd h, weave_cons (pieces_ne_nil d _), ih]
    obtain ⟨u, rfl⟩ := h
    simp
  | none c t h ih =>
    rw [pieces_none h, weave_lengthen, ih]
    rfl

theorem pieces_absent {c : α} {x : List α} (hx : c ∉ x) (t : List α) :
    pieces [c] (x ++ t) = lengthen x (pieces [c] t) := by
  induction x with
  | nil =>
    obtain ⟨y, l, hl⟩ := exists_cons_of_ne_nil (pieces_ne_nil [c] t)
    rw [nil_append, hl]
    rfl
  | cons a x ih =>
    have ha : ¬ [c] <+: a :: (x ++ t) := fun h => hx (by simp [(cons_prefix_cons.mp h).1])
    rw [cons_append, pieces_none ha, ih fun h => hx (mem_cons_of_mem a h),
      lengthen_lengthen (pieces_ne_nil _ _), singleton_append]

theorem pieces_weave {c : α} {l : List (List α)} (hl : l ≠ []) (hclean : ∀ x ∈ l, c ∉ x) (k : Nat) :
    pieces [c] (weave (fun _ => [c]) k l) = l := by
  induction l generalizing k with
  | nil => exact absurd rfl hl
  | cons x l ih =>
    have hx := hclean x (mem_cons_self ..)
    by_cases hnil : l = []
    · subst hnil
      have := pieces_absent hx []
      rwa [append_nil, pieces_nil, lengthen, append_nil] at this
    · rw [weave_cons hnil, append_assoc, pieces_absent hx,
        pieces_occurrence (cons_ne_nil c []) (prefix_append _ _), singleton_append]
      simp [lengthen, ih hnil (fun y hy => hclean y (mem_cons_of_mem x hy))]


/-! ## An occurrence at the end -/

theorem suffix_of_last_nil (hd : d ≠ []) (ht : t ≠ []) (hlast : (pieces d t).getLast? = some []) :
    d <:+ t ∧ pieces d t = pieces d (t.take (t.length - d.length)) ++ [[]] := by
  induction t using occurrences_induction hd with
  | nil => exact absurd rfl ht
  | occurrence t h ih =>
    obtain ⟨u, rfl⟩ := h
    rw [drop_left] at ih
    have hpieces : pieces d (d ++ u) = [] :: pieces d u := by
      rw [pieces_occurrence hd (prefix_append d u), drop_left]
    by_cases hu : u = []
    · subst hu
      rw [append_nil] at hpieces ⊢
      rw [hpieces, Nat.sub_self]
      exact ⟨suffix_refl d, rfl⟩
    · have hrest : (pieces d u).getLast? = some [] := by
        rw [hpieces] at hlast
        obtain ⟨x, l, hx⟩ := exists_cons_of_ne_nil (pieces_ne_nil d u)
        rw [hx] at hlast ⊢
        rwa [getLast?_cons_cons] at hlast
      obtain ⟨hsuffix, hcut⟩ := ih hu hrest
      have htake : (d ++ u).take ((d ++ u).length - d.length) =
          d ++ u.take (u.length - d.length) := by
        have hle := hsuffix.length_le
        rw [length_append, show d.length + u.length - d.length =
          d.length + (u.length - d.length) by omega, take_length_add_append]
      refine ⟨hsuffix.trans (suffix_append d u), ?_⟩
      rw [hpieces, htake, pieces_occurrence hd (prefix_append d _), drop_left, hcut]
      rfl
  | none c t h ih =>
    rw [pieces_none h] at hlast
    have hrest : t ≠ [] ∧ (pieces d t).getLast? = some [] := by
      match hp : pieces d t with
      | [] => exact absurd hp (pieces_ne_nil d t)
      | [x] =>
        rw [hp] at hlast
        cases hlast
      | x :: y :: l =>
        rw [hp] at hlast
        refine ⟨?_, ?_⟩
        · rintro rfl
          cases hp
        · rw [getLast?_cons_cons]
          exact (getLast?_cons_cons ..).symm.trans hlast
    obtain ⟨hsuffix, hcut⟩ := ih hrest.1 hrest.2
    have hle := hsuffix.length_le
    have htake : (c :: t).take ((c :: t).length - d.length) =
        c :: t.take (t.length - d.length) := by
      rw [length_cons, show t.length + 1 - d.length = t.length - d.length + 1 by omega,
        take_succ_cons]
    have hfront : ¬ d <+: c :: t.take (t.length - d.length) := by
      intro hahead
      refine h (hahead.trans ?_)
      exact cons_prefix_cons.mpr ⟨rfl, take_prefix _ _⟩
    refine ⟨hsuffix.trans (suffix_cons c t), ?_⟩
    rw [pieces_none h, htake, pieces_none hfront, hcut, lengthen_append (pieces_ne_nil d _)]

theorem pieces_self (hd : d ≠ []) : pieces d d = [[], []] := by
  rw [pieces_occurrence hd (prefix_refl d), drop_length, pieces_nil]

end mudos.occurrences

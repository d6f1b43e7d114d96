-- The occurrences of a list are replaced by their numbers, and the skip table of a search:
-- how far the list may be moved on when an element stands at its last place.
import MudOS.Library.Occurrences

open List

namespace mudos.occurrences

variable {α : Type*} [DecidableEq α] {d t : List α}
variable {n : Nat}

/-! ## How many there are -/

/-- How many leftmost occurrences there are, of which no two overlap. -/
def number (d t : List α) : Nat := (pieces d t).length - 1

theorem pieces_length (d t : List α) : (pieces d t).length = number d t + 1 := by
  have := length_pos_iff.2 (pieces_ne_nil d t)
  unfold number
  omega

theorem number_occurrence (hd : d ≠ []) (h : d <+: t) :
    number d t = number d (t.drop d.length) + 1 := by
  unfold number
  rw [pieces_occurrence hd h, length_cons, pieces_length]
  rfl

theorem number_none {c : α} (h : ¬ d <+: c :: t) : number d (c :: t) = number d t := by
  unfold number
  rw [pieces_none h, lengthen_length (pieces_ne_nil d t)]

theorem number_le (hd : d ≠ []) (t : List α) : number d t * d.length ≤ t.length := by
  induction t using occurrences_induction hd with
  | nil => rw [number, pieces_nil]; exact Nat.le_of_eq (Nat.zero_mul _)
  | occurrence t h ih =>
    have hle := h.length_le
    rw [length_drop] at ih
    rw [number_occurrence hd h, Nat.add_mul, Nat.one_mul]
    omega
  | none c t h ih =>
    rw [number_none h, length_cons]
    omega

/-! ## Replacing -/

/-- The list with `sep k` for the next occurrence, `sep (k + 1)` for the one after it. -/
def replaced (d : List α) (sep : Nat → List α) (k : Nat) (t : List α) : List α :=
  weave sep k (pieces d t)

variable {sep : Nat → List α}

@[simp] theorem replaced_nil (d : List α) (sep : Nat → List α) (k : Nat) :
    replaced d sep k [] = [] := rfl

theorem replaced_occurrence (hd : d ≠ []) (h : d <+: t) (k : Nat) :
    replaced d sep k t = sep k ++ replaced d sep (k + 1) (t.drop d.length) := by
  unfold replaced
  rw [pieces_occurrence hd h, weave_cons (pieces_ne_nil _ _), nil_append]

theorem replaced_none {c : α} (h : ¬ d <+: c :: t) (k : Nat) :
    replaced d sep k (c :: t) = c :: replaced d sep k t := by
  unfold replaced
  rw [pieces_none h, weave_lengthen]
  rfl

theorem replaced_kept (hd : d ≠ []) {k : Nat} (h : ∀ i ≥ k, sep i = d) (t : List α) :
    replaced d sep k t = t := by
  induction t using occurrences_induction hd generalizing k with
  | nil => rfl
  | occurrence t ht ih =>
    rw [replaced_occurrence hd ht, h k (Nat.le_refl k), ih fun i hi => h i (by omega)]
    obtain ⟨u, rfl⟩ := ht
    rw [drop_left]
  | none c t ht ih => rw [replaced_none ht, ih h]

theorem replaced_congr (hd : d ≠ []) {sep' : Nat → List α} {k : Nat}
    (h : ∀ i, k ≤ i → i < k + number d t → sep i = sep' i) :
    replaced d sep k t = replaced d sep' k t := by
  induction t using occurrences_induction hd generalizing k with
  | nil => rfl
  | occurrence t ht ih =>
    rw [number_occurrence hd ht] at h
    rw [replaced_occurrence hd ht, replaced_occurrence hd ht, h k (Nat.le_refl k) (by omega),
      ih fun i hi hlt => h i (by omega) (by omega)]
  | none c t ht ih =>
    rw [number_none ht] at h
    rw [replaced_none ht, replaced_none ht, ih h]

theorem replaced_length_le (hd : d ≠ []) (h : ∀ i, (sep i).length ≤ d.length) (k : Nat)
    (t : List α) : (replaced d sep k t).length ≤ t.length := by
  induction t using occurrences_induction hd generalizing k with
  | nil => exact Nat.le_refl _
  | occurrence t ht ih =>
    have hle := ht.length_le
    have hsep := h k
    have hrest := ih (k + 1)
    rw [length_drop] at hrest
    rw [replaced_occurrence hd ht, length_append]
    omega
  | none c t ht ih =>
    rw [replaced_none ht]
    exact Nat.succ_le_succ (ih k)

/-! ## The end of the list -/

/-- What comes after the first `n` occurrences, when there are as many. -/
def after (d : List α) (n : Nat) (t : List α) : List α := weave (fun _ => d) 0 ((pieces d t).drop n)

theorem after_zero (hd : d ≠ []) (t : List α) : after d 0 t = t := weave_pieces hd t 0

theorem after_occurrence (hd : d ≠ []) (h : d <+: t) (n : Nat) :
    after d (n + 1) t = after d n (t.drop d.length) := by
  unfold after
  rw [pieces_occurrence hd h, drop_succ_cons]

def last_piece (d t : List α) : List α := (pieces d t).getLast?.getD []

theorem last_piece_occurrence (hd : d ≠ []) (h : d <+: t) :
    last_piece d t = last_piece d (t.drop d.length) := by
  unfold last_piece
  rw [pieces_occurrence hd h]
  obtain ⟨x, l, hl⟩ := exists_cons_of_ne_nil (pieces_ne_nil d (t.drop d.length))
  rw [hl, getLast?_cons_cons]

/-! ## Moving on -/

theorem pieces_jump (h : ∀ m < n, ¬ d <+: t.drop m) (hn : n ≤ t.length) :
    pieces d t = lengthen (t.take n) (pieces d (t.drop n)) := by
  induction n generalizing t with
  | zero => exact (lengthen_nil (pieces_ne_nil d t)).symm
  | succ n ih =>
    cases t with
    | nil => exact absurd hn (Nat.not_succ_le_zero n)
    | cons c t =>
      have hrest := ih (t := t) (fun m hm => h (m + 1) (Nat.succ_lt_succ hm))
        (Nat.le_of_succ_le_succ hn)
      rw [pieces_none (h 0 (Nat.succ_pos n)), hrest, take_succ_cons, drop_succ_cons,
        lengthen_lengthen (pieces_ne_nil _ _)]
      rfl

theorem replaced_jump (h : ∀ m < n, ¬ d <+: t.drop m) (hn : n ≤ t.length) (k : Nat) :
    replaced d sep k t = t.take n ++ replaced d sep k (t.drop n) := by
  unfold replaced
  rw [pieces_jump h hn, weave_lengthen]

theorem number_jump (h : ∀ m < n, ¬ d <+: t.drop m) (hn : n ≤ t.length) :
    number d t = number d (t.drop n) := by
  unfold number
  rw [pieces_jump h hn, lengthen_length (pieces_ne_nil _ _)]

theorem after_jump (h : ∀ m < n, ¬ d <+: t.drop m) (hn : n ≤ t.length) (k : Nat) :
    after d (k + 1) t = after d (k + 1) (t.drop n) := by
  unfold after
  rw [pieces_jump h hn]
  obtain ⟨x, l, hl⟩ := exists_cons_of_ne_nil (pieces_ne_nil d (t.drop n))
  rw [hl]
  rfl

theorem last_piece_jump (h : ∀ m < n, ¬ d <+: t.drop m) (hn : n ≤ t.length) :
    (last_piece d (t.drop n)).length ≤ (last_piece d t).length := by
  unfold last_piece
  rw [pieces_jump h hn]
  have hne := pieces_ne_nil d (t.drop n)
  match pieces d (t.drop n), hne with
  | [x], _ => simp [lengthen]
  | x :: y :: l, _ => simp [lengthen]

theorem pieces_short (h : t.length < d.length) : pieces d t = [t] := by
  have hnone : ∀ m < t.length, ¬ d <+: t.drop m := by
    intro m _ hm
    have := hm.length_le
    rw [length_drop] at this
    omega
  rw [pieces_jump hnone (Nat.le_refl _), take_length, drop_length, pieces_nil]
  show [t ++ []] = [t]
  rw [append_nil]

theorem replaced_short (h : t.length < d.length) (k : Nat) : replaced d sep k t = t := by
  unfold replaced
  rw [pieces_short h]
  rfl

theorem number_short (h : t.length < d.length) : number d t = 0 := by
  unfold number
  rw [pieces_short h]
  rfl

theorem last_piece_short (h : t.length < d.length) : last_piece d t = t := by
  unfold last_piece
  rw [pieces_short h]
  rfl

/-! ## The skip table -/

/-- The place of the last `c`, counted from the end; the whole length when there is none. -/
def skip (d : List α) (c : α) : Nat := d.reverse.idxOf c

theorem skip_le (d : List α) (c : α) : skip d c ≤ d.length := by
  unfold skip
  rw [← length_reverse]
  exact idxOf_le_length

theorem skip_none {c : α} (hc : t[d.length - 1]? = some c) {m : Nat} (hm : m < skip d c) :
    ¬ d <+: t.drop m := by
  intro h
  have hle := skip_le d c
  obtain ⟨u, hu⟩ := h
  have hat : (t.drop m)[d.length - 1 - m]? = some c := by
    rw [getElem?_drop, ← hc]
    congr 1
    omega
  rw [← hu, getElem?_append_left (by omega)] at hat
  have hrev : d.reverse[m]? = some c := by
    rwa [getElem?_reverse (by omega)]
  have hlt : m < d.reverse.length := by
    rw [length_reverse]
    omega
  have hother := not_of_lt_findIdx (show m < d.reverse.findIdx (· == c) from hm)
  rw [getElem?_eq_getElem hlt, Option.some.injEq] at hrev
  rw [hrev, beq_self_eq_true] at hother
  exact Bool.noConfusion hother

end mudos.occurrences

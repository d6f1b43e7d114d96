-- Spans of a line of addresses. A list of spans tiles `[0, n)` when each
-- address below `n` is in exactly one of them and no other address is in
-- any. The count of spans over an address adds up over a list, so a cut, a
-- join and a change of order are all plain arithmetic at one address.
import Mathlib.Data.List.Count

namespace mudos.spans

variable {n : Nat}

structure Span where
  start : Nat
  length : Nat
deriving DecidableEq, Repr

def Span.fin (s : Span) : Nat := s.start + s.length

def Span.has (s : Span) (i : Nat) : Prop := s.start ≤ i ∧ i < s.fin

instance (s : Span) (i : Nat) : Decidable (s.has i) := inferInstanceAs (Decidable (_ ∧ _))

def Apart (s t : Span) : Prop := ∀ i, ¬ (s.has i ∧ t.has i)

def coverCount : List Span → Nat → Nat
  | [], _ => 0
  | s :: l, i => (if s.has i then 1 else 0) + coverCount l i

/-- Each address below `n` is in exactly one span, and no other is in any. -/
def Tiles (l : List Span) (n : Nat) : Prop := ∀ i, coverCount l i = if i < n then 1 else 0

@[simp] theorem coverCount_nil (i : Nat) : coverCount [] i = 0 := rfl

@[simp] theorem coverCount_cons (s : Span) (l : List Span) (i : Nat) :
    coverCount (s :: l) i = (if s.has i then 1 else 0) + coverCount l i := rfl

@[simp] theorem coverCount_append (l m : List Span) (i : Nat) :
    coverCount (l ++ m) i = coverCount l i + coverCount m i := by
  induction l with
  | nil => simp
  | cons s l ih => simp [ih, Nat.add_assoc]

variable {l : List Span}

variable {m : List Span}

theorem coverCount_perm (h : l.Perm m) (i : Nat) : coverCount l i = coverCount m i := by
  induction h with
  | nil => rfl
  | cons s _ ih => simp [ih]
  | swap s t l => simp; omega
  | trans _ _ ih1 ih2 => exact ih1.trans ih2

variable {s : Span}

theorem coverCount_pos_of_mem {i : Nat} (hs : s ∈ l) (hi : s.has i) : 0 < coverCount l i := by
  induction l with
  | nil => cases hs
  | cons t l ih =>
    rcases List.mem_cons.1 hs with rfl | h
    · simp only [coverCount_cons, hi, if_true]; omega
    · have := ih h
      simp only [coverCount_cons]; omega

theorem exists_of_coverCount_pos {i : Nat} (h : 0 < coverCount l i) : ∃ s ∈ l, s.has i := by
  induction l with
  | nil => simp at h
  | cons t l ih =>
    by_cases ht : t.has i
    · exact ⟨t, by simp, ht⟩
    · simp only [coverCount_cons, ht, if_false, Nat.zero_add] at h
      obtain ⟨s, hs, hi⟩ := ih h
      exact ⟨s, by simp [hs], hi⟩

/-! ## What a tiling says -/

theorem Tiles.covers (h : Tiles l n) (i : Nat) : i < n ↔ ∃ s ∈ l, s.has i := by
  constructor
  · intro hi
    apply exists_of_coverCount_pos
    rw [h i, if_pos hi]
    exact Nat.one_pos
  · rintro ⟨s, hs, hi⟩
    have := coverCount_pos_of_mem hs hi
    rw [h i] at this
    by_contra hn
    simp [hn] at this

theorem pairwise_apart (h : ∀ i, coverCount l i ≤ 1) : l.Pairwise Apart := by
  induction l with
  | nil => exact List.Pairwise.nil
  | cons s l ih =>
    refine List.Pairwise.cons ?_ (ih fun i => ?_)
    · rintro t ht i ⟨hs, hi⟩
      have h1 := h i
      have h2 := coverCount_pos_of_mem ht hi
      simp only [coverCount_cons, hs, if_true] at h1
      omega
    · have := h i
      simp only [coverCount_cons] at this
      omega

theorem Tiles.pairwise (h : Tiles l n) : l.Pairwise Apart := by
  apply pairwise_apart
  intro i
  rw [h i]
  split <;> omega

theorem Tiles.fin_le (h : Tiles l n) (hs : s ∈ l) (hpos : 0 < s.length) : s.fin ≤ n := by
  have hlast : s.has (s.fin - 1) := by unfold Span.has Span.fin; omega
  have := (h.covers _).2 ⟨s, hs, hlast⟩
  unfold Span.fin at *
  omega

theorem Apart.fin_le {t : Span} (h : Apart s t) (hst : s.start ≤ t.start) (ht : 0 < t.length) :
    s.fin ≤ t.start := by
  by_contra hn
  exact h t.start ⟨⟨hst, by omega⟩, ⟨Nat.le_refl _, by unfold Span.fin; omega⟩⟩

/-! ## How a tiling changes -/

theorem Tiles.of_count (h : Tiles l n) (hc : ∀ i, coverCount m i = coverCount l i) :
    Tiles m n := fun i => by rw [hc i, h i]

theorem Tiles.perm (h : Tiles l n) (hp : l.Perm m) : Tiles m n :=
  h.of_count fun i => (coverCount_perm hp i).symm

theorem count_join {t : Span} (h : s.start + s.length = t.start) (i : Nat) :
    (if s.has i then 1 else 0) + (if t.has i then 1 else 0) =
      if (Span.mk s.start (s.length + t.length)).has i then 1 else 0 := by
  simp only [Span.has, Span.fin]
  grind

theorem Tiles.push (h : Tiles l s.start) : Tiles (s :: l) (s.start + s.length) := by
  intro i
  have := h i
  simp only [coverCount_cons, this, Span.has, Span.fin]
  grind

theorem Tiles.pop (h : Tiles (s :: l) (s.start + s.length)) : Tiles l s.start := by
  intro i
  have := h i
  simp only [coverCount_cons, Span.has, Span.fin] at this
  grind

end mudos.spans

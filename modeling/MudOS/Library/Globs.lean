-- Patterns made of pieces, each of which stands for one character, for a given character or
-- for any sequence, and the language of such a pattern.
import Mathlib.Computability.Language

open List

namespace mudos.globs

inductive Piece (α : Type*)
  | one
  | any
  | exactly (c : α)
deriving DecidableEq

variable {α : Type*}

def Piece.language : Piece α → Language α
  | .one => {w | ∃ c, w = [c]}
  | .any => ⊤
  | .exactly c => {[c]}

def language (pattern : List (Piece α)) : Language α := (pattern.map Piece.language).prod

/-- The text is in the language, and no shorter beginning of it is. -/
def Shortest (pattern : List (Piece α)) (text : List α) : Prop :=
  text ∈ language pattern ∧ ∀ u v, text = u ++ v → u ∈ language pattern → v = []

/-! ## One piece -/

@[simp] theorem mem_language_nil (w : List α) : w ∈ language [] ↔ w = [] := by
  unfold language
  simp

theorem language_cons (piece : Piece α) (pattern : List (Piece α)) :
    language (piece :: pattern) = piece.language * language pattern := by
  unfold language
  simp

theorem language_append (p q : List (Piece α)) : language (p ++ q) = language p * language q := by
  unfold language
  simp

theorem mem_any (w : List α) : w ∈ Piece.language Piece.any := by
  unfold Piece.language
  trivial

theorem mem_language_any_cons (pattern : List (Piece α)) (w : List α) :
    w ∈ language (.any :: pattern) ↔ ∃ u v, w = u ++ v ∧ v ∈ language pattern := by
  rw [language_cons, Language.mem_mul]
  constructor
  · rintro ⟨u, _, v, hv, rfl⟩
    exact ⟨u, v, rfl, hv⟩
  · rintro ⟨u, v, rfl, hv⟩
    exact ⟨u, mem_any u, v, hv, rfl⟩

theorem mem_language_one_cons (pattern : List (Piece α)) (w : List α) :
    w ∈ language (.one :: pattern) ↔ ∃ c v, w = c :: v ∧ v ∈ language pattern := by
  rw [language_cons, Language.mem_mul]
  constructor
  · rintro ⟨_, ⟨c, rfl⟩, v, hv, rfl⟩
    exact ⟨c, v, rfl, hv⟩
  · rintro ⟨c, v, rfl, hv⟩
    exact ⟨[c], ⟨c, rfl⟩, v, hv, rfl⟩

theorem mem_language_exactly_cons (c : α) (pattern : List (Piece α)) (w : List α) :
    w ∈ language (.exactly c :: pattern) ↔ ∃ v, w = c :: v ∧ v ∈ language pattern := by
  rw [language_cons, Language.mem_mul]
  constructor
  · rintro ⟨_, rfl, v, hv, rfl⟩
    exact ⟨v, rfl, hv⟩
  · rintro ⟨v, rfl, hv⟩
    exact ⟨[c], rfl, v, hv, rfl⟩

theorem mem_language_append_any (pattern : List (Piece α)) (w : List α) :
    w ∈ language (pattern ++ [.any]) ↔ ∃ u v, w = u ++ v ∧ u ∈ language pattern := by
  rw [language_append, Language.mem_mul]
  constructor
  · rintro ⟨u, hu, v, _, rfl⟩
    exact ⟨u, v, rfl, hu⟩
  · rintro ⟨u, v, rfl, hu⟩
    refine ⟨u, hu, v, ?_, rfl⟩
    rw [mem_language_any_cons]
    exact ⟨v, [], by simp, by simp⟩

/-! ## The empty text -/

theorem any_of_nil_mem {pattern : List (Piece α)} (h : [] ∈ language pattern) :
    ∀ piece ∈ pattern, piece = .any := by
  induction pattern with
  | nil => simp
  | cons piece pattern ih =>
    cases piece with
    | one =>
      obtain ⟨c, v, hv, _⟩ := (mem_language_one_cons pattern []).1 h
      cases hv
    | exactly c =>
      obtain ⟨v, hv, _⟩ := (mem_language_exactly_cons c pattern []).1 h
      cases hv
    | any =>
      obtain ⟨u, v, huv, hv⟩ := (mem_language_any_cons pattern []).1 h
      obtain ⟨rfl, rfl⟩ := append_eq_nil_iff.1 huv.symm
      intro piece hpiece
      rcases mem_cons.1 hpiece with rfl | hpiece
      · rfl
      · exact ih hv piece hpiece

theorem ends_with_two_any {pattern : List (Piece α)} (h : ∀ piece ∈ pattern, piece = .any)
    (hlong : 2 ≤ pattern.length) : ∃ stem, pattern = stem ++ [.any, .any] := by
  obtain ⟨n, hn⟩ : ∃ n, pattern.length = n + 2 := ⟨pattern.length - 2, by omega⟩
  refine ⟨replicate n .any, ?_⟩
  rw [eq_replicate_of_mem h, hn, replicate_add]
  rfl

end mudos.globs

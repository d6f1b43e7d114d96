-- When the operators on numbers give a result or an error: but for one quotient, and for
-- shifts by no number of bits of a word, always.
import MudOS.Arithmetic

open mudos.words

namespace mudos.arithmetic

variable {op : Operation}

inductive Answered (op : Operation) (a b : int_t) : result_t → Prop
  | refused (message : String) : op = .div ∨ op = .mod → b = 0 → Answered op a b (.error message)
  | computed : ((op = .div ∨ op = .mod) → b ≠ 0) → Answered op a b (.computed (compute op a b))

theorem direct_answered (h : ¬ (op = .div ∨ op = .mod)) (a b : int_t) :
    Answered op a b (direct op a b) := .computed fun hop => absurd hop h

theorem guarded_answered (h : op = .div ∨ op = .mod) (message : String) (a b : int_t) :
    Answered op a b (guarded message op a b) := by
  unfold guarded
  split_ifs with hb
  · exact .refused message h hb
  · exact .computed fun _ => hb

theorem expr0_answered {run : operator_t} (h : expr0 op = some run) (a b : int_t) :
    Answered op a b (run a b) := by
  unfold expr0 at h
  split at h <;> cases h
  · by_cases ha : a = 0
    · have hvalue : compute .add a b = .value b := by simp [compute, ha]
      have h : Answered .add a b (.computed (compute .add a b)) := .computed (by simp)
      rw [hvalue, ha] at h
      simpa only [ha, if_true] using h
    · simp only [ha, if_false]
      exact direct_answered (by decide) a b
  · by_cases ha : a = 0
    · have hvalue : compute .neg b b = compute .sub a b := by simp [compute, ha]
      simp only [ha, if_true, direct]
      rw [hvalue, ha]
      exact .computed (by simp)
    · simp only [ha, if_false]
      exact direct_answered (by decide) a b
  · exact direct_answered (by decide) a b
  · exact guarded_answered (by decide) _ a b
  · exact direct_answered (by decide) a b
  · exact direct_answered (by decide) a b
  · exact direct_answered (by decide) a b

theorem operator_answered {place : place_t} {run : operator_t} (h : place.operator op = some run)
    (a b : int_t) : Answered op a b (run a b) := by
  cases place with
  | expr0 => exact expr0_answered h a b
  | _ =>
    cases op <;> cases h <;>
      first
        | exact direct_answered (by decide) a b
        | exact guarded_answered (by decide) _ a b

/-- Every operator of every place gives an error or the wrapped result, but for the quotient
that does not fit and the shifts that C leaves open. -/
theorem arithmetic_is_total_iff (place : place_t) (op : Operation) (a b : int_t) :
    (∀ run, place.operator op = some run → Total op a b (run a b)) ↔
      ¬ ((place.operator op).isSome = true ∧ Overflows op a b) := by
  cases hrun : place.operator op with
  | none => simp
  | some run =>
    have hanswered := operator_answered hrun a b
    simp only [Option.some.injEq, forall_eq', Option.isSome_some, true_and]
    generalize run a b = r at hanswered
    cases hanswered with
    | refused message hop hb =>
      subst hb
      constructor
      · rintro _ (⟨_, _, h⟩ | ⟨h, _⟩)
        · exact absurd h (by decide)
        · rcases hop with rfl | rfl <;> simp at h
      · exact fun _ => .inl ⟨message, rfl⟩
    | computed hb =>
      have hirregular : Irregular op a b ↔ Overflows op a b := by
        constructor
        · rintro (⟨hop, h | h⟩ | h)
          · exact absurd h (hb hop)
          · exact .inl ⟨hop, h⟩
          · exact .inr h
        · rintro (⟨hop, h⟩ | h)
          · exact .inl ⟨hop, .inr h⟩
          · exact .inr h
      rw [← hirregular]
      constructor
      · rintro (⟨message, h⟩ | h) hbad
        · cases h
        · exact compute_irregular hbad _ (result_t.computed.inj h)
      · intro h
        rw [compute_regular h]
        exact .inr rfl

/-- `-2147483648 / -1` stops the driver. -/
theorem the_largest_quotient_traps :
    guarded "Division by zero\n" .div (BitVec.intMin 32) (-1) = .computed .trapped ∧
    ¬ ∀ run, place_t.eval_instruction.operator .div = some run →
      Total .div (BitVec.intMin 32) (-1) (run (BitVec.intMin 32) (-1)) := by
  have htrapped : guarded "Division by zero\n" .div (BitVec.intMin 32) (-1) =
      .computed .trapped := by decide
  refine ⟨htrapped, fun h => ?_⟩
  have htotal := h _ rfl
  rw [htrapped] at htotal
  rcases htotal with ⟨_, h⟩ | h <;> cases h

end mudos.arithmetic

-- Runs of a machine. A machine is a start and a step function that may
-- refuse an action. A run carries a condition on each of its steps, so that
-- a law can be stated for the runs whose steps all meet the condition.
import Mathlib.Logic.Basic

namespace mudos.runs

variable {σ α : Type*}

/-- The states that a run reaches when each of its steps meets `ok`, a
condition on the state before the step and on the action. -/
inductive Reachable (start : σ) (step : σ → α → Option σ) (ok : σ → α → Prop) : σ → Prop
  | start : Reachable start step ok start
  | step {s s' : σ} {a : α} :
      Reachable start step ok s → ok s a → step s a = some s' → Reachable start step ok s'

/-- The state after a list of actions, if none of them is refused. -/
def run (step : σ → α → Option σ) : σ → List α → Option σ
  | s, [] => some s
  | s, a :: as => (step s a).bind fun s' => run step s' as

variable {start : σ} {step : σ → α → Option σ} {ok : σ → α → Prop}

/-- A fact that holds at the start, and that every step keeps, holds in every
state that a run reaches. -/
theorem Reachable.inv {I : σ → Prop} (hstart : I start)
    (hstep : ∀ s a s', I s → ok s a → step s a = some s' → I s') {s : σ}
    (h : Reachable start step ok s) : I s := by
  induction h with
  | start => exact hstart
  | step _ hok hs ih => exact hstep _ _ _ ih hok hs

theorem Reachable.mono {ok' : σ → α → Prop} (hw : ∀ s a, ok s a → ok' s a) {s : σ}
    (h : Reachable start step ok s) : Reachable start step ok' s := by
  induction h with
  | start => exact .start
  | step _ hok hs ih => exact .step ih (hw _ _ hok) hs

theorem run_append (s : σ) (as bs : List α) :
    run step s (as ++ bs) = (run step s as).bind fun s' => run step s' bs := by
  induction as generalizing s with
  | nil => rfl
  | cons a as ih => simp only [List.cons_append, run, ih, Option.bind_assoc]

/-- The condition holds at each step of the actions from the state. -/
def Along (step : σ → α → Option σ) (ok : σ → α → Prop) : σ → List α → Prop
  | _, [] => True
  | s, a :: as => ok s a ∧ ∀ s', step s a = some s' → Along step ok s' as

instance decidableAlong [∀ s a, Decidable (ok s a)] :
    (s : σ) → (as : List α) → Decidable (Along step ok s as)
  | _, [] => isTrue trivial
  | s, a :: as =>
    match h : step s a with
    | none => decidable_of_iff (ok s a) (by simp [Along, h])
    | some s' =>
      have := decidableAlong s' as
      decidable_of_iff (ok s a ∧ Along step ok s' as) (by simp [Along, h])

theorem Along.of_forall (h : ∀ s a, ok s a) (s : σ) (as : List α) : Along step ok s as := by
  induction as generalizing s with
  | nil => trivial
  | cons a as ih => exact ⟨h s a, fun s' _ => ih s'⟩

theorem Reachable.of_run {s s' : σ} {as : List α} (h : Reachable start step ok s)
    (hok : Along step ok s as) (hr : run step s as = some s') : Reachable start step ok s' := by
  induction as generalizing s with
  | nil =>
    cases hr
    exact h
  | cons a as ih =>
    rw [run, Option.bind_eq_some_iff] at hr
    obtain ⟨t, ht, hr⟩ := hr
    exact ih (.step h hok.1 ht) (hok.2 t ht) hr

theorem Reachable.of_any {s : σ} {as : List α} (hr : run step start as = some s) :
    Reachable start step (fun _ _ => True) s :=
  .of_run .start (.of_forall (fun _ _ => trivial) _ _) hr

theorem Reachable.of_computed {β : Type*} {f : σ → β} {x : β} {as : List α}
    (hok : Along step ok start as) (hx : (run step start as).map f = some x) :
    ∃ s, run step start as = some s ∧ f s = x ∧ Reachable start step ok s := by
  obtain ⟨s, hs, hfs⟩ := Option.map_eq_some_iff.mp hx
  exact ⟨s, hs, hfs, .of_run .start hok hs⟩

end mudos.runs

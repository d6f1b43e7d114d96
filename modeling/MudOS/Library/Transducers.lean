-- Transducers: machines that take symbols one at a time and put out a list
-- for each. What comes out does not depend on how the input is cut up.
import Mathlib.Data.List.Basic

namespace mudos.transducers

variable {σ α β : Type*}

def feed (step : σ → α → σ × List β) : σ → List α → σ × List β
  | s, [] => (s, [])
  | s, a :: as =>
    let (s', out) := step s a
    let (s'', rest) := feed step s' as
    (s'', out ++ rest)

def feedAll (step : σ → α → σ × List β) : σ → List (List α) → σ × List β
  | s, [] => (s, [])
  | s, as :: pieces =>
    let (s', out) := feed step s as
    let (s'', rest) := feedAll step s' pieces
    (s'', out ++ rest)

variable {step : σ → α → σ × List β}

@[simp] theorem feed_nil (s : σ) : feed step s [] = (s, []) := rfl

@[simp] theorem feed_cons (s : σ) (a : α) (as : List α) :
    feed step s (a :: as) =
      ((feed step (step s a).1 as).1, (step s a).2 ++ (feed step (step s a).1 as).2) := rfl

theorem feed_append (s : σ) (as bs : List α) :
    feed step s (as ++ bs) =
      ((feed step (feed step s as).1 bs).1,
        (feed step s as).2 ++ (feed step (feed step s as).1 bs).2) := by
  induction as generalizing s with
  | nil => simp
  | cons a as ih => simp only [List.cons_append, feed_cons, ih, List.append_assoc]

theorem feedAll_eq_feed_flatten (s : σ) (pieces : List (List α)) :
    feedAll step s pieces = feed step s pieces.flatten := by
  induction pieces generalizing s with
  | nil => rfl
  | cons as pieces ih => simp only [feedAll, List.flatten_cons, feed_append, ih]

end mudos.transducers

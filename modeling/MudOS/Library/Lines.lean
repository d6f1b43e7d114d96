-- Lines of a stream of symbols, each with its terminator, and what stands after
-- the last terminator.
import MudOS.Library.Transducers

open mudos.transducers

namespace mudos.lines

variable {α : Type*} [DecidableEq α]

/-- A symbol goes to the line it belongs to, which the terminator puts out. -/
def line_step (sep : α) (line : List α) (a : α) : List α × List (List α) :=
  if a = sep then ([], [line]) else (line ++ [a], [])

def lines (sep : α) (l : List α) : List (List α) := (feed (line_step sep) [] l).2

def rest (sep : α) (l : List α) : List α := (feed (line_step sep) [] l).1

@[simp] theorem lines_nil (sep : α) : lines sep [] = [] := rfl

@[simp] theorem rest_nil (sep : α) : rest sep [] = [] := rfl

theorem feed_line_step {sep : α} {l : List α} (h : sep ∉ l) (line : List α) :
    feed (line_step sep) line l = (line ++ l, []) := by
  induction l generalizing line with
  | nil => simp
  | cons a l ih =>
    obtain ⟨ha, hl⟩ := not_or.mp (List.mem_cons.not.mp h)
    have hstep : line_step sep line a = (line ++ [a], []) := if_neg fun heq => ha heq.symm
    simp [hstep, ih hl]

theorem lines_append_line {sep : α} {l line : List α} (hl : rest sep l = []) (h : sep ∉ line) :
    lines sep (l ++ (line ++ [sep])) = lines sep l ++ [line] ∧
      rest sep (l ++ (line ++ [sep])) = [] := by
  unfold lines rest at *
  rw [feed_append, hl, feed_append, feed_line_step h]
  simp [line_step]

end mudos.lines

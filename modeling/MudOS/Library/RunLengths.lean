-- Tables of runs. A run is a length and a value, and a position from 1 on
-- is looked up with a walk that subtracts the lengths of the runs it passes.
import Mathlib.Data.List.Basic

open List

namespace mudos.run_lengths

variable {α : Type*}
variable {pos : Int}

def total : List (Int × α) → Int
  | [] => 0
  | r :: runs => r.1 + total runs

def Nonneg (runs : List (Int × α)) : Prop := ∀ r ∈ runs, 0 ≤ r.1

/-- `while (pos > *p) { pos -= *p; p++; }`, with the runs that the walk passes, the run
that it finds, and the position in that run. A walk off the table has no result. -/
def seek : List (Int × α) → Int → Option (List (Int × α) × (Int × α) × Int)
  | [], _ => none
  | r :: runs, pos =>
    if pos > r.1 then (seek runs (pos - r.1)).map fun (before, found) => (r :: before, found)
    else some ([], r, pos)

@[simp] theorem total_nil : total ([] : List (Int × α)) = 0 := rfl

@[simp] theorem total_cons (r : Int × α) (runs : List (Int × α)) :
    total (r :: runs) = r.1 + total runs := rfl

@[simp] theorem total_append (l₁ l₂ : List (Int × α)) : total (l₁ ++ l₂) = total l₁ + total l₂ := by
  induction l₁ with
  | nil => simp
  | cons r l₁ ih =>
    rw [cons_append, total_cons, total_cons, ih]
    omega

theorem total_nonneg {runs : List (Int × α)} (h : Nonneg runs) : 0 ≤ total runs := by
  induction runs with
  | nil => exact Int.le_refl 0
  | cons r runs ih =>
    have hr := h r mem_cons_self
    have hrest := ih fun x hx => h x (mem_cons_of_mem _ hx)
    rw [total_cons]
    omega

theorem Nonneg.append {l₁ l₂ : List (Int × α)} (h₁ : Nonneg l₁) (h₂ : Nonneg l₂) :
    Nonneg (l₁ ++ l₂) := by
  intro r hr
  rcases mem_append.mp hr with hr | hr
  · exact h₁ r hr
  · exact h₂ r hr

theorem Nonneg.left {l₁ l₂ : List (Int × α)} (h : Nonneg (l₁ ++ l₂)) : Nonneg l₁ :=
  fun r hr => h r (mem_append_left _ hr)

theorem seek_append {before runs : List (Int × α)} (h : Nonneg before) (hpos : total before < pos) :
    seek (before ++ runs) pos =
      (seek runs (pos - total before)).map fun (skipped, found) => (before ++ skipped, found) := by
  induction before generalizing pos with
  | nil => simp
  | cons r before ih =>
    have hrest : Nonneg before := fun x hx => h x (mem_cons_of_mem _ hx)
    have htotal := total_nonneg hrest
    rw [total_cons] at hpos ⊢
    rw [cons_append, seek, if_pos (by omega), ih hrest (by omega), Option.map_map,
      show pos - r.1 - total before = pos - (r.1 + total before) by omega]
    rfl

theorem seek_found {before after : List (Int × α)} {r : Int × α} (h : Nonneg before)
    (hpos : total before < pos) (hle : pos ≤ total before + r.1) :
    seek (before ++ r :: after) pos = some (before, r, pos - total before) := by
  rw [seek_append h hpos, seek, if_neg (by omega)]
  simp

theorem seek_append_right {runs after : List (Int × α)} {found : List (Int × α) × (Int × α) × Int}
    (h : seek runs pos = some found) : seek (runs ++ after) pos = some found := by
  induction runs generalizing pos found with
  | nil => cases h
  | cons r runs ih =>
    rw [cons_append, seek]
    rw [seek] at h
    split at h
    · rename_i hpos
      rw [if_pos hpos]
      rw [Option.map_eq_some_iff] at h ⊢
      obtain ⟨x, hx, rfl⟩ := h
      exact ⟨x, ih hx, rfl⟩
    · rename_i hpos
      rwa [if_neg hpos]

end mudos.run_lengths

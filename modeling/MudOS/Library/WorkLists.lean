-- A work list is served from the front: each item puts its children at the end. The items come out
-- level by level.
import Mathlib.Data.List.Basic

open List

namespace mudos.work_lists

variable {α : Type*} {children : α → List α} {queue out : List α}

/-- What comes out of a work list until it is empty. -/
inductive Served (children : α → List α) : List α → List α → Prop
  | nil : Served children [] []
  | cons {a : α} {queue out : List α} : Served children (queue ++ children a) out →
      Served children (a :: queue) (a :: out)

theorem Served.prefix_out (h : Served children queue out) : queue <+: out := by
  induction h with
  | nil => exact prefix_refl []
  | cons _ ih => exact cons_prefix_cons.mpr ⟨rfl, (prefix_append _ _).trans ih⟩

theorem Served.length_le (h : Served children queue out) : queue.length ≤ out.length :=
  h.prefix_out.length_le

theorem Served.eq_of_length (h : Served children queue out) (hlength : out.length ≤ queue.length) :
    out = queue :=
  (h.prefix_out.eq_of_length_le hlength).symm

theorem Served.append {l : List α} (h : Served children (queue ++ l.flatMap children) out) :
    Served children (l ++ queue) (l ++ out) := by
  induction l generalizing queue with
  | nil => simpa using h
  | cons a l ih =>
    have htail : Served children (l ++ (queue ++ children a)) (l ++ out) := by
      apply ih
      simpa using h
    rw [← append_assoc] at htail
    exact .cons htail

def levels (children : α → List α) : Nat → List α → List α
  | 0, _ => []
  | n + 1, l => l ++ levels children n (l.flatMap children)

theorem served_levels (height : α → Nat) (hheight : ∀ a, ∀ b ∈ children a, height b < height a)
    {n : Nat} {l : List α} (hl : ∀ a ∈ l, height a < n) :
    Served children l (levels children n l) := by
  induction n generalizing l with
  | zero =>
    have hnil : l = [] := eq_nil_iff_forall_not_mem.mpr fun a ha => Nat.not_lt_zero _ (hl a ha)
    rw [hnil]
    exact .nil
  | succ n ih =>
    have hnext : ∀ b ∈ l.flatMap children, height b < n := by
      intro b hb
      obtain ⟨a, ha, hba⟩ := mem_flatMap.mp hb
      have := hheight a b hba
      have := hl a ha
      omega
    have hserved : Served children ([] ++ l.flatMap children) (levels children n _) := ih hnext
    simpa [levels] using hserved.append

end mudos.work_lists

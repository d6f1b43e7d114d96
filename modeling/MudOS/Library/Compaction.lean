-- A list that is compacted within its own memory: what is written grows from the front,
-- what is still to be read shrinks behind it, and between the two is a gap.
import Mathlib.Data.List.Basic

open List

namespace mudos.compaction

variable {α : Type*} {out rest l mem : List α} {gap : Nat}

/-- The memory has what was written, a gap of that size, and what is not read yet. -/
def Slid (out : List α) (gap : Nat) (rest mem : List α) : Prop :=
  ∃ junk : List α, junk.length = gap ∧ mem = out ++ (junk ++ rest)

theorem slid_start (l : List α) : Slid [] 0 l l := ⟨[], rfl, rfl⟩

theorem Slid.drop (h : Slid out gap rest mem) : mem.drop (out.length + gap) = rest := by
  obtain ⟨junk, rfl, rfl⟩ := h
  rw [drop_length_add_append, drop_left]

theorem Slid.read (h : Slid out gap rest mem) (i : Nat) :
    mem[out.length + gap + i]? = rest[i]? := by rw [← h.drop, getElem?_drop]

theorem Slid.length (h : Slid out gap rest mem) :
    mem.length = out.length + gap + rest.length := by
  obtain ⟨junk, rfl, rfl⟩ := h
  simp only [length_append]
  omega

theorem Slid.pass (h : Slid out gap (l ++ rest) mem) : Slid out (gap + l.length) rest mem := by
  obtain ⟨junk, rfl, rfl⟩ := h
  refine ⟨junk ++ l, length_append, ?_⟩
  simp

def store (mem : List α) (dst : Nat) (l : List α) : List α :=
  mem.take dst ++ l ++ mem.drop (dst + l.length)

theorem Slid.store (h : Slid out gap rest mem) (hl : l.length ≤ gap) :
    Slid (out ++ l) (gap - l.length) rest (store mem out.length l) := by
  obtain ⟨junk, rfl, rfl⟩ := h
  refine ⟨junk.drop l.length, length_drop, ?_⟩
  unfold compaction.store
  rw [take_left, drop_length_add_append, drop_append_of_le_length hl]

theorem set_eq_store (mem : List α) {i : Nat} (h : i < mem.length) (a : α) :
    mem.set i a = store mem i [a] := by
  unfold store
  rw [set_eq_take_append_cons_drop, if_pos h, append_assoc]
  rfl

theorem Slid.move (h : Slid out gap (l ++ rest) mem) :
    Slid (out ++ l) gap rest (compaction.store mem out.length l) := by
  have := h.pass.store (Nat.le_add_left l.length gap)
  rwa [Nat.add_sub_cancel] at this

theorem Slid.copy {a : α} (h : Slid out gap (a :: rest) mem) :
    Slid (out ++ [a]) gap rest (mem.set out.length a) := by
  have hlt : out.length < mem.length := by
    rw [h.length, length_cons]
    omega
  rw [set_eq_store mem hlt]
  exact Slid.move (l := [a]) h

end mudos.compaction

-- Weights of a table: what the entries of a table with unique keys weigh
-- together, as `ref` counts the holders of a thing and a ledger its owners.
-- One lemma for each way a table changes, so that a count is kept by `omega`.
import Mathlib.Data.List.AList
import Mathlib.Algebra.BigOperators.Group.List.Basic
import Mathlib.Algebra.GroupWithZero.Nat

open List

namespace mudos.weights

variable {κ α : Type*} [DecidableEq κ]

abbrev Table (κ α : Type*) := AList fun _ : κ => α

def weight (g : κ → α → Nat) (t : Table κ α) : Nat := (t.entries.map fun e => g e.1 e.2).sum

/-- 1 if the thing is there, and the one that is asked for. -/
def tells [DecidableEq α] (x : Option α) (a : α) : Nat := if x = some a then 1 else 0

@[simp] theorem tells_none [DecidableEq α] (a : α) : tells none a = 0 := by simp [tells]

@[simp] theorem tells_self [DecidableEq α] (a : α) : tells (some a) a = 1 := by simp [tells]

theorem count_cons_tells [DecidableEq α] [BEq α] [LawfulBEq α] (a b : α) (l : List α) :
    (b :: l).count a = tells (some b) a + l.count a := by
  rw [count_cons, Nat.add_comm]
  simp [tells]

variable {g : κ → α → Nat} {t : Table κ α} {k : κ} {a : α}

theorem entries_erase (k : κ) (t : Table κ α) :
    (t.erase k).entries = t.entries.kerase k := rfl

theorem weight_lookup (h : t.lookup k = some a) : weight g t = g k a + weight g (t.erase k) := by
  have hmem : k ∈ t.entries.keys := by
    apply AList.mem_keys.mp
    rw [← AList.lookup_isSome, h]
    rfl
  obtain ⟨b, l₁, l₂, hk, hl, he⟩ := exists_of_kerase hmem
  have hb : b = a := by
    have hd : t.entries.dlookup k = some a := h
    rw [hl, dlookup_append, dlookup_eq_none.mpr hk, dlookup_cons_eq] at hd
    simpa using hd
  subst hb
  rw [weight, weight, entries_erase, he, hl]
  simp only [map_append, map_cons, sum_append, sum_cons]
  omega

theorem weight_insert (k : κ) (a : α) (t : Table κ α) :
    weight g (t.insert k a) = g k a + weight g (t.erase k) := by simp [weight, entries_erase]

theorem weight_update {b : α} (h : t.lookup k = some a) :
    weight g (t.insert k b) + g k a = weight g t + g k b := by
  rw [weight_insert, weight_lookup h]
  omega

theorem weight_erase_none (h : t.lookup k = none) : weight g (t.erase k) = weight g t := by
  have hk : k ∉ t.entries.keys := AList.lookup_eq_none.mp h
  simp [weight, entries_erase, kerase_of_notMem_keys hk]

theorem weight_new {b : α} (h : t.lookup k = none) :
    weight g (t.insert k b) = g k b + weight g t := by rw [weight_insert, weight_erase_none h]

theorem le_weight (h : t.lookup k = some a) : g k a ≤ weight g t := by
  rw [weight_lookup h]
  omega

theorem pair_le_weight {k' : κ} {a' : α} (hne : k' ≠ k) (h : t.lookup k = some a)
    (h' : t.lookup k' = some a') : g k a + g k' a' ≤ weight g t := by
  have hrest : (t.erase k).lookup k' = some a' := by rw [AList.lookup_erase_ne hne, h']
  have := le_weight (g := g) hrest
  rw [weight_lookup h]
  omega

theorem exists_of_weight_pos (h : 0 < weight g t) : ∃ k a, t.lookup k = some a ∧ 0 < g k a := by
  unfold weight at h
  obtain ⟨n, hn, hpos⟩ := exists_mem_ne_zero_of_sum_ne_zero (Nat.pos_iff_ne_zero.mp h)
  obtain ⟨⟨k, a⟩, hmem, rfl⟩ := mem_map.mp hn
  exact ⟨k, a, AList.mem_lookup_iff.mpr hmem, Nat.pos_of_ne_zero hpos⟩

end mudos.weights

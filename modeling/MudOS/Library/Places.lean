-- The places where a predicate holds: the least one and the greatest one, as
-- a search returns them, with -1 for none.
import Mathlib.Tactic.Common

namespace mudos.places

variable {P Q : Nat → Prop} {o : Option Nat}

def offset : Option Nat → Int
  | some i => i
  | none => -1

/-- The least place, or none. -/
inductive Least (P : Nat → Prop) : Option Nat → Prop
  | some {i : Nat} : P i → (∀ j, j < i → ¬P j) → Least P (some i)
  | none : (∀ j, ¬P j) → Least P none

/-- The greatest place, or none. -/
inductive Greatest (P : Nat → Prop) : Option Nat → Prop
  | some {i : Nat} : P i → (∀ j, i < j → ¬P j) → Greatest P (some i)
  | none : (∀ j, ¬P j) → Greatest P none

theorem offset_inj {o' : Option Nat} : offset o = offset o' ↔ o = o' := by
  refine ⟨fun h => ?_, fun h => h ▸ rfl⟩
  cases o with
  | some i =>
    cases o' with
    | some j =>
      have hij : (i : Int) = j := h
      rw [Int.ofNat_inj.mp hij]
    | none =>
      have hi : (i : Int) = -1 := h
      omega
  | none =>
    cases o' with
    | some j =>
      have hj : (-1 : Int) = j := h
      omega
    | none => rfl

theorem Least.congr (h : Least P o) (hQ : ∀ m, Q m ↔ P m) : Least Q o := by
  obtain rfl : Q = P := funext fun m => propext (hQ m)
  exact h

theorem Least.shift (h : Least P o) (a : Nat) (hQ : ∀ m, Q m ↔ a ≤ m ∧ P (m - a)) :
    Least Q (o.map (a + ·)) := by
  cases h with
  | @some i hi hless =>
    refine .some ((hQ (a + i)).mpr ⟨Nat.le_add_right a i, ?_⟩) fun j (hj : j < a + i) hj' => ?_
    · rwa [Nat.add_sub_cancel_left]
    · obtain ⟨hle, hp⟩ := (hQ j).mp hj'
      exact hless (j - a) (by omega) hp
  | none hno => exact .none fun j hj => hno _ ((hQ j).mp hj).2

/-- The least place is still the least one among more places when each of these has one of the
first ones before it. -/
theorem Least.or_iff (h : Least P o) (hdisjoint : ∀ m, Q m → ¬P m) :
    Least (fun m => P m ∨ Q m) o ↔ ∀ m, Q m → ∃ k, k < m ∧ P k := by
  cases h with
  | @some i hi hless =>
    constructor
    · rintro (⟨-, hfirst⟩ | -) m hm
      refine ⟨i, ?_, hi⟩
      by_contra hle
      obtain rfl | hlt : m = i ∨ m < i := by omega
      · exact hdisjoint m hm hi
      · exact hfirst m hlt (.inr hm)
    · intro hbefore
      refine .some (.inl hi) ?_
      rintro j hj (hp | hq)
      · exact hless j hj hp
      · obtain ⟨k, hk, hp⟩ := hbefore j hq
        exact hless k (by omega) hp
  | none hno =>
    constructor
    · rintro (- | hnone) m hm
      exact absurd (.inr hm) (hnone m)
    · intro hbefore
      refine .none ?_
      rintro j (hp | hq)
      · exact hno j hp
      · obtain ⟨k, -, hp⟩ := hbefore j hq
        exact hno k hp

end mudos.places

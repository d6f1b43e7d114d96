-- Rearrangements of a part of a list: what swaps between two places keep, and what makes the
-- part between them sorted.
import Mathlib.Data.List.Basic

open List

namespace mudos.shuffles

variable {α : Type*}
variable {i j : Nat}

/-- All elements from place `l` to before place `r` satisfy `P`. -/
def Between (l r : Nat) (P : α → Prop) (v : List α) : Prop :=
  ∀ (i : Nat) (x : α), l ≤ i → i < r → v[i]? = some x → P x

/-- The elements from place `l` to before place `r` are in order. -/
def SortedBetween (le : α → α → Prop) (l r : Nat) (v : List α) : Prop :=
  ∀ (i j : Nat) (x y : α), l ≤ i → i < j → j < r → v[i]? = some x → v[j]? = some y → le x y

/-- The relation is a total preorder of the elements that satisfy `P`. -/
structure TotalPreorderOn (P : α → Prop) (le : α → α → Prop) : Prop where
  total : ∀ x y, P x → P y → le x y ∨ le y x
  trans : ∀ x y z, P x → P y → P z → le x y → le y z → le x z

/-- Only the elements from place `l` to before place `r` have moved, and only among themselves. -/
structure Shuffled (l r : Nat) (v v' : List α) : Prop where
  perm : v'.Perm v
  outside : ∀ i : Nat, i < l ∨ r ≤ i → v'[i]? = v[i]?
  inside : ∀ i : Nat, l ≤ i → i < r → ∃ j : Nat, l ≤ j ∧ j < r ∧ v'[i]? = v[j]?

def swapped (v : List α) (i j : Nat) (a b : α) : List α := (v.set i b).set j a

variable {l r m : Nat} {v v' w : List α} {le : α → α → Prop} {P : α → Prop}

/-! ## Shuffles -/

theorem Shuffled.refl (l r : Nat) (v : List α) : Shuffled l r v v where
  perm := List.Perm.refl v
  outside := fun _ _ => rfl
  inside := fun i hl hr => ⟨i, hl, hr, rfl⟩

theorem Shuffled.trans (h : Shuffled l r v v') (h' : Shuffled l r v' w) : Shuffled l r v w where
  perm := h'.perm.trans h.perm
  outside := fun i hi => (h'.outside i hi).trans (h.outside i hi)
  inside := fun i hl hr => by
    obtain ⟨j, hlj, hjr, hj⟩ := h'.inside i hl hr
    obtain ⟨k, hlk, hkr, hk⟩ := h.inside j hlj hjr
    exact ⟨k, hlk, hkr, hj.trans hk⟩

theorem Shuffled.length (h : Shuffled l r v v') : v'.length = v.length := h.perm.length_eq

theorem Shuffled.widen {l' r' : Nat} (h : Shuffled l r v v') (hl : l' ≤ l) (hr : r ≤ r') :
    Shuffled l' r' v v' where
  perm := h.perm
  outside := fun i hi => h.outside i (by omega)
  inside := fun i hli hir => by
    by_cases hi : l ≤ i ∧ i < r
    · obtain ⟨j, hlj, hjr, hj⟩ := h.inside i hi.1 hi.2
      exact ⟨j, by omega, by omega, hj⟩
    · exact ⟨i, hli, hir, h.outside i (by omega)⟩

theorem Shuffled.between (h : Shuffled l r v v') (hb : Between l r P v) : Between l r P v' := by
  intro i x hl hr hx
  obtain ⟨j, hlj, hjr, hj⟩ := h.inside i hl hr
  exact hb j x hlj hjr (hj ▸ hx)

theorem Shuffled.between_apart {a b : Nat} (h : Shuffled l r v v') (hapart : b ≤ l ∨ r ≤ a)
    (hb : Between a b P v) : Between a b P v' := by
  intro i x ha hib hx
  rw [h.outside i (by omega)] at hx
  exact hb i x ha hib hx

theorem Shuffled.sorted_apart {a b : Nat} (h : Shuffled l r v v') (hapart : b ≤ l ∨ r ≤ a)
    (hs : SortedBetween le a b v) : SortedBetween le a b v' := by
  intro i j x y ha hij hjb hx hy
  rw [h.outside i (by omega)] at hx
  rw [h.outside j (by omega)] at hy
  exact hs i j x y ha hij hjb hx hy

theorem Shuffled.forall_mem (h : Shuffled l r v v') (hv : ∀ x ∈ v, P x) : ∀ x ∈ v', P x :=
  fun x hx => hv x (h.perm.mem_iff.mp hx)

/-! ## Swaps -/

theorem getElem?_swapped {a b : α} (hi : v[i]? = some a) (hj : v[j]? = some b) (k : Nat) :
    (swapped v i j a b)[k]? = if k = j then some a else if k = i then some b else v[k]? := by
  have hilt : i < v.length := (List.getElem?_eq_some_iff.mp hi).1
  have hjlt : j < v.length := (List.getElem?_eq_some_iff.mp hj).1
  unfold swapped
  split_ifs with hkj hki
  · subst hkj
    exact List.getElem?_set_self (by rw [List.length_set]; exact hjlt)
  · subst hki
    rw [getElem?_set_ne (Ne.symm hkj)]
    exact List.getElem?_set_self hilt
  · rw [getElem?_set_ne (Ne.symm hkj), getElem?_set_ne (Ne.symm hki)]

theorem swapped_perm {a b : α} (hi : v[i]? = some a) (hj : v[j]? = some b) :
    (swapped v i j a b).Perm v := by
  obtain ⟨hilt, ha⟩ := List.getElem?_eq_some_iff.mp hi
  obtain ⟨hjlt, hb⟩ := List.getElem?_eq_some_iff.mp hj
  unfold swapped
  rw [← ha, ← hb]
  exact List.set_set_perm hilt hjlt

theorem swapped_shuffled {a b : α} (hi : v[i]? = some a) (hj : v[j]? = some b) (hli : l ≤ i)
    (hir : i < r) (hlj : l ≤ j) (hjr : j < r) :
    Shuffled l r v (swapped v i j a b) where
  perm := swapped_perm hi hj
  outside := fun k hk => by
    rw [getElem?_swapped hi hj k, if_neg (by omega), if_neg (by omega)]
  inside := fun k hlk hkr => by
    rw [getElem?_swapped hi hj k]
    split_ifs with hkj hki
    · exact ⟨i, hli, hir, hi.symm⟩
    · exact ⟨j, hlj, hjr, hj.symm⟩
    · exact ⟨k, hlk, hkr, rfl⟩

/-! ## Sorted parts -/

theorem sorted_small (h : r ≤ l + 1) : SortedBetween le l r v := by
  intro i j x y hl hij hjr
  omega

/-- Two sorted parts with an element between them that no element before it comes after, and no
element behind it before. -/
theorem sorted_glue {p : α} (hpre : TotalPreorderOn P le) (hall : ∀ x ∈ v, P x)
    (hp : v[m]? = some p) (hbefore : Between l m (fun x => le x p) v)
    (hbehind : Between (m + 1) r (fun x => le p x) v) (hleft : SortedBetween le l m v)
    (hright : SortedBetween le (m + 1) r v) : SortedBetween le l r v := by
  intro i j x y hl hij hjr hx hy
  have hPx : P x := hall x (mem_of_getElem? hx)
  have hPy : P y := hall y (mem_of_getElem? hy)
  have hPp : P p := hall p (mem_of_getElem? hp)
  -- where the two places are from the place of the middle element
  rcases Nat.lt_trichotomy i m with him | him | him
  · have hxp : le x p := hbefore i x hl him hx
    rcases Nat.lt_trichotomy j m with hjm | hjm | hjm
    · exact hleft i j x y hl hij hjm hx hy
    · rw [hjm, hp] at hy
      cases hy
      exact hxp
    · exact hpre.trans x p y hPx hPp hPy hxp (hbehind j y hjm hjr hy)
  · rw [him, hp] at hx
    cases hx
    exact hbehind j y (by omega) hjr hy
  · exact hright i j x y him hij hjr hx hy

theorem sorted_pairwise (h : SortedBetween le 0 v.length v) : v.Pairwise le := by
  rw [pairwise_iff_getElem]
  intro i j hi hj hij
  exact h i j v[i] v[j] (Nat.zero_le i) hij hj (getElem?_eq_getElem hi)
    (getElem?_eq_getElem hj)

end mudos.shuffles

-- The trees stay balanced and in order: nothing that the code follows is null,
-- and what is found is what was put in last.
import MudOS.AvlTrees
import MudOS.Library.SortedTables
import Mathlib.Data.Nat.Fib.Basic

open mudos.sorted_tables

namespace mudos.avltree

variable {α β κ : Type*} [LinearOrder κ]

namespace tree

def toList : tree α → List α
  | null => []
  | node tree_l tree_p _ tree_r => tree_l.toList ++ tree_p :: tree_r.toList

def height : tree α → Nat
  | null => 0
  | node tree_l _ _ tree_r => max tree_l.height tree_r.height + 1

/-- The two branches of each node differ in height by one at most, and the node says how. -/
def Balanced : tree α → Prop
  | null => True
  | node tree_l _ tree_b tree_r => tree_l.Balanced ∧ tree_r.Balanced ∧
      (tree_l.height : Int) + tree_b = tree_r.height ∧ -1 ≤ tree_b ∧ tree_b ≤ 1

/-- A tree that has just grown: it leans to a side, or it is a single node. -/
def Tilted : tree α → Prop
  | null => False
  | node tree_l _ tree_b tree_r => tree_b ≠ 0 ∨ tree_l.height + tree_r.height = 0

/-- The code for the one side is that for the other, seen in a mirror. -/
def mirror : tree α → tree α
  | null => null
  | node tree_l tree_p tree_b tree_r => node tree_r.mirror tree_p (-tree_b) tree_l.mirror

variable {t : tree α}

@[simp] theorem mirror_mirror (t : tree α) : t.mirror.mirror = t := by
  induction t with
  | null => rfl
  | node tree_l tree_p tree_b tree_r ihl ihr => simp [mirror, ihl, ihr]

@[simp] theorem toList_mirror (t : tree α) : t.mirror.toList = t.toList.reverse := by
  induction t with
  | null => rfl
  | node tree_l tree_p tree_b tree_r ihl ihr => simp [mirror, toList, ihl, ihr]

@[simp] theorem height_mirror (t : tree α) : t.mirror.height = t.height := by
  induction t with
  | null => rfl
  | node tree_l tree_p tree_b tree_r ihl ihr => simp [mirror, height, ihl, ihr, max_comm]

theorem Balanced.mirror (h : t.Balanced) : t.mirror.Balanced := by
  induction t with
  | null => trivial
  | node tree_l tree_p tree_b tree_r ihl ihr =>
    obtain ⟨hl, hr, heq, hle⟩ := h
    refine ⟨ihr hr, ihl hl, ?_, by omega⟩
    simp only [height_mirror]
    omega

theorem Tilted.mirror (h : t.Tilted) : t.mirror.Tilted := by
  cases t with
  | null => exact h
  | node tree_l tree_p tree_b tree_r => simpa [Tilted, tree.mirror, and_comm] using h

end tree

open tree

/-! ## Rotations -/

/-- A tree with the elements `l` that has been made from one of the height `h`. -/
structure Grown (l : List α) (h : Nat) (t : tree α) (i_balance : Bool) : Prop where
  toList : t.toList = l
  balanced : t.Balanced
  height : t.height = h + i_balance.toNat
  tilted : i_balance → t.Tilted

variable {tree_l tree_r : tree α} (tree_p : α) {tree_b : Int}

theorem left_longer_grown (hl : tree_l.Balanced) (hr : tree_r.Balanced) (ht : tree_l.Tilted)
    (hb : (tree_l.height : Int) + tree_b = tree_r.height + 1) (hle : -1 ≤ tree_b ∧ tree_b ≤ 1) :
    ∃ t i_balance, left_longer tree_l tree_p tree_b tree_r = some (t, i_balance) ∧
      Grown (tree_l.toList ++ tree_p :: tree_r.toList) (max (tree_l.height - 1) tree_r.height + 1)
        t i_balance := by
  obtain rfl | rfl | rfl : tree_b = 1 ∨ tree_b = 0 ∨ tree_b = -1 := by omega
  · refine ⟨_, _, rfl, rfl, ?_, ?_, ?_⟩ <;> simp [tree.Balanced, Tilted, height, hl, hr] <;> omega
  · refine ⟨_, _, rfl, rfl, ?_, ?_, ?_⟩ <;> simp [tree.Balanced, Tilted, height, hl, hr] <;> omega
  · cases tree_l with
    | null => exact ht.elim
    | node l1 p1 b1 r1 =>
      simp only [tree.Balanced, Tilted, height] at hl hb ht
      by_cases hb1 : b1 = -1
      · subst hb1
        refine ⟨_, _, rfl, ?_, ?_, ?_, ?_⟩ <;>
          simp [toList, tree.Balanced, Tilted, height, hl, hr] <;> omega
      · cases r1 with
        | null =>
          simp only [height] at hl ht hb
          omega
        | node l2 p2 b2 r2 =>
          simp only [tree.Balanced, height] at hl hb ht
          obtain rfl | rfl | rfl : b2 = 1 ∨ b2 = 0 ∨ b2 = -1 := by omega
          all_goals
            refine ⟨_, _, by simp only [left_longer, hb1, if_false]; rfl, ?_, ?_, ?_, ?_⟩ <;>
              simp [toList, tree.Balanced, Tilted, height, hl, hr] <;> omega

theorem right_longer_eq (tree_l : tree α) (tree_b : Int) (tree_r : tree α) :
    right_longer tree_l tree_p tree_b tree_r =
      (left_longer tree_r.mirror tree_p (-tree_b) tree_l.mirror).map (Prod.map mirror id) := by
  unfold right_longer left_longer
  simp only [neg_eq_iff_eq_neg, neg_zero, neg_neg]
  split_ifs
  · simp [mirror]
  · simp [mirror]
  · cases tree_r with
    | null => rfl
    | node l1 p1 b1 r1 =>
      simp only [mirror, neg_inj]
      split_ifs
      · simp [mirror]
      · cases l1 with
        | null => rfl
        | node => simp [mirror, neg_eq_iff_eq_neg, apply_ite Neg.neg]
  · simp [mirror]

theorem right_longer_grown (hl : tree_l.Balanced) (hr : tree_r.Balanced) (ht : tree_r.Tilted)
    (hb : (tree_l.height : Int) + tree_b + 1 = tree_r.height) (hle : -1 ≤ tree_b ∧ tree_b ≤ 1) :
    ∃ t i_balance, right_longer tree_l tree_p tree_b tree_r = some (t, i_balance) ∧
      Grown (tree_l.toList ++ tree_p :: tree_r.toList) (max tree_l.height (tree_r.height - 1) + 1)
        t i_balance := by
  obtain ⟨t, i_balance, he, hg⟩ := left_longer_grown tree_p hr.mirror hl.mirror ht.mirror
    (show _ + -tree_b = _ by simp only [height_mirror]; omega) (by omega)
  refine ⟨t.mirror, i_balance, by rw [right_longer_eq, he]; rfl, ?_, hg.balanced.mirror, ?_,
    fun h => (hg.tilted h).mirror⟩
  · simp [hg.toList]
  · simp [hg.height, max_comm]

/-- A tree with the elements `l` that has been made from one of the height `h` by taking
an element away. -/
structure Shrunk (l : List α) (h : Nat) (t : tree α) (i_balance : Bool) : Prop where
  toList : t.toList = l
  balanced : t.Balanced
  height : t.height + i_balance.toNat = h

theorem balanceL_shrunk (hl : tree_l.Balanced) (hr : tree_r.Balanced)
    (hb : (tree_l.height : Int) + 1 + tree_b = tree_r.height) (hle : -1 ≤ tree_b ∧ tree_b ≤ 1) :
    ∃ t i_balance, balanceL tree_l tree_p tree_b tree_r = some (t, i_balance) ∧
      Shrunk (tree_l.toList ++ tree_p :: tree_r.toList) (max (tree_l.height + 1) tree_r.height + 1)
        t i_balance := by
  obtain rfl | rfl | rfl : tree_b = -1 ∨ tree_b = 0 ∨ tree_b = 1 := by omega
  · refine ⟨_, _, rfl, rfl, ?_, ?_⟩ <;> simp [tree.Balanced, height, hl, hr] <;> omega
  · refine ⟨_, _, rfl, rfl, ?_, ?_⟩ <;> simp [tree.Balanced, height, hl, hr] <;> omega
  · cases tree_r with
    | null =>
      simp only [height] at hb
      omega
    | node l1 p1 b1 r1 =>
      simp only [tree.Balanced, height] at hr hb
      obtain rfl | rfl | rfl : b1 = 0 ∨ b1 = 1 ∨ b1 = -1 := by omega
      · refine ⟨_, _, rfl, ?_, ?_, ?_⟩ <;> simp [toList, tree.Balanced, height, hl, hr] <;> omega
      · refine ⟨_, _, rfl, ?_, ?_, ?_⟩ <;> simp [toList, tree.Balanced, height, hl, hr] <;> omega
      · cases l1 with
        | null =>
          simp only [height] at hr
          omega
        | node l2 p2 b2 r2 =>
          simp only [tree.Balanced, height] at hr hb
          obtain rfl | rfl | rfl : b2 = 1 ∨ b2 = 0 ∨ b2 = -1 := by omega
          all_goals
            refine ⟨_, _, rfl, ?_, ?_, ?_⟩ <;> simp [toList, tree.Balanced, height, hl, hr] <;> omega

theorem balanceR_eq (tree_l : tree α) (tree_b : Int) (tree_r : tree α) :
    balanceR tree_l tree_p tree_b tree_r =
      (balanceL tree_r.mirror tree_p (-tree_b) tree_l.mirror).map (Prod.map mirror id) := by
  unfold balanceR balanceL
  simp only [neg_eq_iff_eq_neg, neg_zero, neg_neg]
  split_ifs
  · simp [mirror]
  · simp [mirror]
  · cases tree_l with
    | null => rfl
    | node l1 p1 b1 r1 =>
      simp only [mirror, ge_iff_le, neg_nonneg, neg_eq_zero]
      split_ifs
      · simp [mirror]
      · simp [mirror]
      · cases r1 with
        | null => rfl
        | node => simp [mirror, neg_eq_iff_eq_neg, apply_ite Neg.neg]
  · simp [mirror]

theorem balanceR_shrunk (hl : tree_l.Balanced) (hr : tree_r.Balanced)
    (hb : (tree_l.height : Int) + tree_b = tree_r.height + 1) (hle : -1 ≤ tree_b ∧ tree_b ≤ 1) :
    ∃ t i_balance, balanceR tree_l tree_p tree_b tree_r = some (t, i_balance) ∧
      Shrunk (tree_l.toList ++ tree_p :: tree_r.toList) (max tree_l.height (tree_r.height + 1) + 1)
        t i_balance := by
  obtain ⟨t, i_balance, he, hs⟩ := balanceL_shrunk tree_p hr.mirror hl.mirror
    (show _ + -tree_b = _ by simp only [height_mirror]; omega) (by omega)
  refine ⟨t.mirror, i_balance, by rw [balanceR_eq, he]; rfl, ?_, hs.balanced.mirror, ?_⟩
  · simp [hs.toList]
  · simp [hs.height, max_comm]

/-- The left branch has lost an element, and the node is balanced again if need be. -/
theorem shrunk_left {l : List α} {t : tree α} {i_balance : Bool} (q : α)
    (hb : (node tree_l tree_p tree_b tree_r).Balanced) (hs : Shrunk l tree_l.height t i_balance) :
    ∃ t' i_balance', (if i_balance then balanceL t q tree_b tree_r
        else some (node t q tree_b tree_r, false)) = some (t', i_balance') ∧
      Shrunk (l ++ q :: tree_r.toList) (node tree_l tree_p tree_b tree_r).height t' i_balance' := by
  obtain ⟨-, hr, heq, hle⟩ := hb
  have hheight := hs.height
  rw [← hs.toList]
  cases i_balance with
  | false =>
    refine ⟨_, _, rfl, rfl, ⟨hs.balanced, hr, ?_, hle⟩, ?_⟩
    · simpa [← hheight] using heq
    · simp [height, ← hheight]
  | true =>
    rw [Bool.toNat_true] at hheight
    have := balanceL_shrunk q hs.balanced hr (by omega) hle
    rwa [hheight] at this

theorem shrunk_right {l : List α} {t : tree α} {i_balance : Bool}
    (hb : (node tree_l tree_p tree_b tree_r).Balanced) (hs : Shrunk l tree_r.height t i_balance) :
    ∃ t' i_balance', (if i_balance then balanceR tree_l tree_p tree_b t
        else some (node tree_l tree_p tree_b t, false)) = some (t', i_balance') ∧
      Shrunk (tree_l.toList ++ tree_p :: l) (node tree_l tree_p tree_b tree_r).height t'
        i_balance' := by
  obtain ⟨hl, -, heq, hle⟩ := hb
  have hheight := hs.height
  rw [← hs.toList]
  cases i_balance with
  | false =>
    refine ⟨_, _, rfl, rfl, ⟨hl, hs.balanced, ?_, hle⟩, ?_⟩
    · simpa [← hheight] using heq
    · simp [height, ← hheight]
  | true =>
    rw [Bool.toNat_true] at hheight
    have := balanceR_shrunk tree_p hl hs.balanced (by omega) hle
    rwa [hheight] at this

/-! ## The tree as a map -/

/-- The comparison follows the order of the keys. -/
structure Compares (pfi_compare : β → α → Int) (user : β → κ) (key : α → κ) : Prop where
  lt : ∀ b a, pfi_compare b a < 0 ↔ user b < key a
  gt : ∀ b a, pfi_compare b a > 0 ↔ key a < user b

variable {key : α → κ} {user : β → κ}

theorem tree_srch_eq {pfi_compare : β → α → Int} (hc : Compares pfi_compare user key) (b : β)
    {t : tree α} (hs : Sorted key t.toList) :
    tree_srch pfi_compare b t = t.toList.find? (key · = user b) := by
  induction t with
  | null => rfl
  | node tree_l tree_p tree_b tree_r ihl ihr =>
    obtain ⟨hl, hr, -, -⟩ := sorted_middle.mp hs
    simp only [tree_srch, toList, hc.lt, hc.gt]
    rcases lt_trichotomy (user b) (key tree_p) with hlt | heq | hgt
    · rw [if_neg hlt.not_gt, if_pos hlt, ihl hl, find_left hs hlt]
    · rw [if_neg heq.not_gt, if_neg heq.not_lt, heq, find_here hs]
    · rw [if_pos hgt, ihr hr, find_right hs hgt]

theorem sprout_grown {pfi_compare : α → α → Int} (hc : Compares pfi_compare key key) (a : α)
    {t : tree α} (hb : t.Balanced) (hs : Sorted key t.toList) :
    ∃ t' i_balance, sprout pfi_compare a t = some (t', i_balance) ∧
      Grown (put key a t.toList) t.height t' i_balance := by
  induction t with
  | null => exact ⟨_, _, rfl, rfl, by simp [tree.Balanced, height], rfl, fun _ => .inr rfl⟩
  | node tree_l tree_p tree_b tree_r ihl ihr =>
    obtain ⟨hl, hr, -, -⟩ := sorted_middle.mp hs
    obtain ⟨hbl, hbr, heq, hle⟩ := hb
    simp only [sprout, hc.lt, hc.gt]
    rcases lt_trichotomy (key a) (key tree_p) with hlt | hkey | hgt
    · obtain ⟨t', i_balance, he, hg⟩ := ihl hbl hl
      rw [if_pos hlt, he, toList, put_left hs hlt, ← hg.toList]
      have hheight := hg.height
      cases i_balance with
      | false =>
        refine ⟨_, _, rfl, rfl, ⟨hg.balanced, hbr, ?_, hle⟩, ?_, nofun⟩
        · rwa [hheight]
        · simp [height, hheight]
      | true =>
        obtain ⟨t'', i_balance, he, hg'⟩ := left_longer_grown tree_p hg.balanced hbr (hg.tilted rfl)
          (by simp [hheight]; omega) hle
        rw [hheight] at hg'
        exact ⟨t'', i_balance, he, hg'⟩
    · rw [if_neg hkey.not_lt, if_neg hkey.not_gt, toList, put_here hs hkey]
      exact ⟨_, _, rfl, rfl, ⟨hbl, hbr, heq, hle⟩, rfl, nofun⟩
    · obtain ⟨t', i_balance, he, hg⟩ := ihr hbr hr
      rw [if_neg hgt.not_gt, if_pos hgt, he, toList, put_right hs hgt, ← hg.toList]
      have hheight := hg.height
      cases i_balance with
      | false =>
        refine ⟨_, _, rfl, rfl, ⟨hbl, hg.balanced, ?_, hle⟩, ?_, nofun⟩
        · rwa [hheight]
        · simp [height, hheight]
      | true =>
        obtain ⟨t'', i_balance, he, hg'⟩ := right_longer_grown tree_p hbl hg.balanced (hg.tilted rfl)
          (by simp [hheight]; omega) hle
        rw [hheight] at hg'
        exact ⟨t'', i_balance, he, hg'⟩

theorem del_shrunk {t : tree α} (hb : t.Balanced) (hne : t.isNull = false) :
    ∃ l q r i_balance, del t = some (r, q, i_balance) ∧ t.toList = l ++ [q] ∧
      Shrunk l t.height r i_balance := by
  induction t with
  | null => nomatch hne
  | node tree_l tree_p tree_b tree_r ihl ihr =>
    cases hnull : tree_r.isNull with
    | true =>
      cases tree_r with
      | node => nomatch hnull
      | null =>
        obtain ⟨hl, -, heq, -⟩ := hb
        simp only [height] at heq
        exact ⟨_, _, _, _, rfl, rfl, rfl, hl, by simp [height]⟩
    | false =>
      obtain ⟨l, q, r, i_balance, he, htoList, hs⟩ := ihr hb.2.1 hnull
      obtain ⟨t', i_balance', hR, hs'⟩ := shrunk_right tree_p hb hs
      refine ⟨_, q, t', i_balance', ?_, by simp [toList, htoList], hs'⟩
      rw [del, hnull, if_neg Bool.false_ne_true, he]
      simp [hR]

theorem delete_shrunk {pfi_compare : α → β → Int} (hc : Compares pfi_compare key user) (b : β)
    {t : tree α} (hb : t.Balanced) (hs : Sorted key t.toList) :
    ∃ t' i_balance, delete pfi_compare b t =
        some (t', i_balance, (t.toList.find? (key · = user b)).isSome) ∧
      Shrunk (without key (user b) t.toList) t.height t' i_balance := by
  induction t with
  | null => exact ⟨_, _, rfl, rfl, trivial, rfl⟩
  | node tree_l tree_p tree_b tree_r ihl ihr =>
    obtain ⟨hl, hr, -, -⟩ := sorted_middle.mp hs
    have ⟨hbl, hbr, heq, hle⟩ := hb
    simp only [delete, hc.lt, hc.gt]
    rcases lt_trichotomy (user b) (key tree_p) with hlt | hkey | hgt
    · obtain ⟨t', i_balance, he, hg⟩ := ihl hbl hl
      obtain ⟨t'', i_balance', hL, hs'⟩ := shrunk_left tree_p tree_p hb hg
      rw [if_pos hlt, he, toList, find_left hs hlt, without_left hs hlt]
      exact ⟨t'', i_balance', by simp [hL], hs'⟩
    · rw [if_neg hkey.not_lt, if_neg hkey.not_gt, toList, hkey, find_here hs, without_here hs]
      cases hnullr : tree_r.isNull with
      | true =>
        cases tree_r with
        | node => nomatch hnullr
        | null =>
          simp only [height] at heq
          exact ⟨_, _, rfl, by simp [toList], hbl, by simp [height]⟩
      | false =>
        cases hnulll : tree_l.isNull with
        | true =>
          cases tree_l with
          | node => nomatch hnulll
          | null => exact ⟨_, _, rfl, rfl, hbr, by simp [height]⟩
        | false =>
          obtain ⟨l, q, r, i_balance, he, htoList, hg⟩ := del_shrunk hbl hnulll
          obtain ⟨t'', i_balance', hL, hs'⟩ := shrunk_left tree_p q hb hg
          rw [if_neg Bool.false_ne_true, if_neg Bool.false_ne_true, he, htoList,
            List.append_assoc, List.singleton_append]
          exact ⟨t'', i_balance', by simp [hL], hs'⟩
    · obtain ⟨t', i_balance, he, hg⟩ := ihr hbr hr
      obtain ⟨t'', i_balance', hR, hs'⟩ := shrunk_right tree_p hb hg
      rw [if_neg hgt.not_gt, if_pos hgt, he, toList, find_right hs hgt, without_right hs hgt]
      exact ⟨t'', i_balance', by simp [hR], hs'⟩

/-- A tree of some height has as many elements as a Fibonacci number says at least. -/
theorem fib_height_le {t : tree α} (hb : t.Balanced) :
    Nat.fib (t.height + 2) ≤ t.toList.length + 1 := by
  induction t with
  | null => simp [height, toList]
  | node tree_l tree_p tree_b tree_r ihl ihr =>
    obtain ⟨hl, hr, heq, hle⟩ := hb
    have hlength : (node tree_l tree_p tree_b tree_r).toList.length + 1 =
        (tree_l.toList.length + 1) + (tree_r.toList.length + 1) := by
      simp [toList]
      omega
    rw [hlength, height]
    rcases le_total tree_l.height tree_r.height with h | h
    · have hfib := Nat.fib_mono (show tree_r.height + 1 ≤ tree_l.height + 2 by omega)
      rw [max_eq_right h, Nat.fib_add_two (n := tree_r.height + 1)]
      exact Nat.add_le_add (hfib.trans (ihl hl)) (ihr hr)
    · have hfib := Nat.fib_mono (show tree_l.height + 1 ≤ tree_r.height + 2 by omega)
      rw [max_eq_left h, Nat.fib_add_two (n := tree_l.height + 1), Nat.add_comm]
      exact Nat.add_le_add (ihl hl) (hfib.trans (ihr hr))

end mudos.avltree

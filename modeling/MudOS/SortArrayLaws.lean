-- The law of `sort_array`: a permutation of the array that a total preorder sorts, and callbacks
-- that are in effect as long as no error leaves a sort within the callback of another one.
import MudOS.SortArray
import Mathlib.Data.String.Basic

open mudos.shuffles List

namespace mudos.sort_array

/-! ## What follows each other -/

section followed

variable {σ τ β γ : Type}

theorem followed_ok {r : ended σ β} {k : β → σ → ended σ γ} {c : γ} {s' : σ}
    (h : followed r k = (.ok c, s')) : ∃ b s, r = (.ok b, s) ∧ k b s = (.ok c, s') := by
  rcases r with ⟨e | b, s⟩
  · cases h
  · exact ⟨b, s, rfl, h⟩

theorem followed_error {r : ended σ β} {k : β → σ → ended σ γ} {e : fault} {s' : σ}
    (h : followed r k = (.error e, s')) :
    r = (.error e, s') ∨ ∃ b s, r = (.ok b, s) ∧ k b s = (.error e, s') := by
  rcases r with ⟨e' | b, s⟩
  · left
    cases h
    rfl
  · right
    exact ⟨b, s, rfl, h⟩

theorem followed_kept {I : σ → Prop} {r : ended σ β} {k : β → σ → ended σ γ} (hr : I r.2)
    (hk : ∀ b s, I s → I (k b s).2) : I (followed r k).2 := by
  rcases r with ⟨e | b, s⟩
  · exact hr
  · exact hk b s hr

theorem followed_value (b : β) (s : σ) (k : β → σ → ended σ γ) :
    followed (.ok b, s) k = k b s := rfl

/-- Two parts of programs that come to the same in states that go together, or get apart for
good. -/
structure Linked (R G : σ → τ → Prop) (f : σ → ended σ β) (f' : τ → ended τ β) : Prop where
  together : ∀ s t, R s t → (R (f s).2 (f' t).2 ∧ (f s).1 = (f' t).1) ∨ G (f s).2 (f' t).2
  left : ∀ s t, G s t → G (f s).2 t
  right : ∀ s t, G s t → G s (f' t).2

variable {R G : σ → τ → Prop}

theorem linked_const (r : Except fault β) : Linked R G (fun s => (r, s)) (fun t => (r, t)) where
  together := fun _ _ h => .inl ⟨h, rfl⟩
  left := fun _ _ h => h
  right := fun _ _ h => h

theorem linked_followed {f : σ → ended σ β} {f' : τ → ended τ β} {k : β → σ → ended σ γ}
    {k' : β → τ → ended τ γ} (hf : Linked R G f f') (hk : ∀ b, Linked R G (k b) (k' b)) :
    Linked R G (fun s => followed (f s) k) (fun t => followed (f' t) k') := by
  have hleft : ∀ s t, G (f s).2 t → G (followed (f s) k).2 t := by
    intro s t h
    rcases hr : f s with ⟨e | b, s1⟩ <;> rw [hr] at h
    · exact h
    · exact (hk b).left s1 t h
  have hright : ∀ s t, G s (f' t).2 → G s (followed (f' t) k').2 := by
    intro s t h
    rcases hr : f' t with ⟨e | b, t1⟩ <;> rw [hr] at h
    · exact h
    · exact (hk b).right s t1 h
  refine ⟨?_, fun s t h => hleft s t (hf.left s t h), fun s t h => hright s t (hf.right s t h)⟩
  intro s t h
  rcases hf.together s t h with ⟨hstates, hsame⟩ | hgone
  · rcases hs : f s with ⟨e | b, s1⟩ <;> rcases ht : f' t with ⟨e' | b', t1⟩ <;>
      rw [hs, ht] at hstates hsame <;> cases hsame
    · left
      exact ⟨hstates, rfl⟩
    · exact (hk b).together s1 t1 hstates
  · right
    exact hright _ t (hleft s _ hgone)

end followed

/-! ## The sort -/

section qsort

variable {α σ τ : Type} {P : α → Prop} {le : α → α → Prop} {compar : α → α → σ → ended σ Int}
variable {last i : Nat}

/-- Whenever the comparison comes to a number, it tells by its sign whether the second element is
to come after the first one. -/
def Agrees (P : α → Prop) (le : α → α → Prop) (compar : α → α → σ → ended σ Int) : Prop :=
  ∀ x y s c s', P x → P y → compar x y s = (.ok c, s') → (c < 0 ↔ ¬ le y x)

theorem doSwap_ok {v v' : List α} {one two : Nat} {s s' : σ}
    (h : doSwap v one two s = (.ok v', s')) :
    s' = s ∧ ∃ a b, v[one]? = some a ∧ v[two]? = some b ∧ v' = swapped v one two a b := by
  unfold doSwap at h
  split at h
  · rename_i a b ha hb
    cases h
    exact ⟨rfl, a, b, ha, hb, rfl⟩
  · cases h

theorem doSwap_inside {v : List α} {one two : Nat} (s : σ) (hone : one < v.length)
    (htwo : two < v.length) :
    doSwap v one two s = (.ok (swapped v one two v[one] v[two]), s) := by
  rw [doSwap, getElem?_eq_getElem hone, getElem?_eq_getElem htwo]

/-- What the loop has to tell of the part that it has gone through: first the elements that come
before the pivot, then the others. -/
structure Parted (le : α → α → Prop) (left last i : Nat) (b : α) (v : List α) : Prop where
  pivot : v[left]? = some b
  before : Between (left + 1) (last + 1) (fun x => ¬ le b x) v
  others : Between (last + 1) i (fun x => le b x) v

theorem parted_swapped {left : Nat} {a a' b : α} {v : List α} (h : Parted le left last i b v)
    (hlast : left ≤ last) (hi : last < i) (ha' : v[last + 1]? = some a') (ha : v[i]? = some a)
    (hbefore : ¬ le b a) :
    Parted le left (last + 1) (i + 1) b (swapped v (last + 1) i a' a) where
  pivot := by
    rw [getElem?_swapped ha' ha, if_neg (by omega), if_neg (by omega)]
    exact h.pivot
  before := by
    intro k x hl hr hx
    rw [getElem?_swapped ha' ha] at hx
    split_ifs at hx with hki hk
    · -- the place of the loop is the first one of the others
      have hsame : last + 1 = i := by omega
      rw [hsame, ha] at ha'
      cases ha'
      cases hx
      exact hbefore
    · cases hx
      exact hbefore
    · exact h.before k x hl (by omega) hx
  others := by
    intro k x hl hr hx
    rw [getElem?_swapped ha' ha] at hx
    split_ifs at hx with hki hk
    · cases hx
      exact h.others (last + 1) a' (Nat.le_refl _) (by omega) ha'
    · omega
    · exact h.others k x (by omega) (by omega) hx

theorem parted_next {left : Nat} {a b : α} {v : List α} (h : Parted le left last i b v)
    (ha : v[i]? = some a) (hother : le b a) : Parted le left last (i + 1) b v where
  pivot := h.pivot
  before := h.before
  others := by
    intro k x hl hr hx
    rcases Nat.lt_succ_iff_lt_or_eq.mp hr with hk | hk
    · exact h.others k x hl hk hx
    · rw [hk, ha] at hx
      cases hx
      exact hother

theorem qSort_loop_ok (P : α → Prop) (le : α → α → Prop) {left : Nat} (n : Nat) :
    ∀ {i last last' : Nat} {v v' : List α} {s s' : σ},
    qSort_loop compar left n i last v s = (.ok (v', last'), s') → left ≤ last → last < i →
    Shuffled (left + 1) (i + n) v v' ∧ left ≤ last' ∧ last' < i + n ∧
      ∀ b, Agrees P le compar → (∀ x ∈ v, P x) → Parted le left last i b v →
        Parted le left last' (i + n) b v' := by
  induction n with
  | zero =>
    intro i last last' v v' s s' h hlast hi
    cases h
    exact ⟨Shuffled.refl _ _ _, hlast, hi, fun b _ _ hparted => hparted⟩
  | succ n ih =>
    intro i last last' v v' s s' h hlast hi
    unfold qSort_loop at h
    split at h
    · rename_i a b ha hb
      obtain ⟨c, s1, hcompar, h⟩ := followed_ok h
      have hsame : i + (n + 1) = i + 1 + n := by omega
      rw [hsame]
      -- the pivot of the parted list is the element that is compared with
      have hpivot : ∀ b', Parted le left last i b' v → b' = b := by
        intro b' hparted
        have hboth := hparted.pivot
        rw [hb] at hboth
        cases hboth
        rfl
      have hsign : ∀ b', Agrees P le compar → (∀ x ∈ v, P x) → Parted le left last i b' v →
          (c < 0 ↔ ¬ le b' a) := by
        intro b' hagrees hP hparted
        rw [hpivot b' hparted]
        exact hagrees a b s c s1 (hP a (mem_of_getElem? ha)) (hP b (mem_of_getElem? hb))
          hcompar
      split_ifs at h with hc
      · obtain ⟨v1, s2, hswap, h⟩ := followed_ok h
        obtain ⟨-, a', a2, ha', ha2, rfl⟩ := doSwap_ok hswap
        rw [ha] at ha2
        cases ha2
        have hmoved : Shuffled (left + 1) (i + 1 + n) v (swapped v (last + 1) i a' a) :=
          swapped_shuffled ha' ha (by omega) (by omega) (by omega) (by omega)
        obtain ⟨hshuffled, hle, hlt, hparts⟩ := ih h (by omega) (by omega)
        refine ⟨hmoved.trans hshuffled, hle, hlt, ?_⟩
        intro b' hagrees hP hparted
        exact hparts b' hagrees (hmoved.forall_mem hP)
          (parted_swapped hparted hlast hi ha' ha ((hsign b' hagrees hP hparted).mp hc))
      · obtain ⟨hshuffled, hle, hlt, hparts⟩ := ih h hlast (by omega)
        refine ⟨hshuffled, hle, hlt, ?_⟩
        intro b' hagrees hP hparted
        refine hparts b' hagrees hP (parted_next hparted ha ?_)
        exact Classical.not_not.mp fun hbefore => hc ((hsign b' hagrees hP hparted).mpr hbefore)
    · cases h

theorem parted_placed {left : Nat} {b b' : α} {v : List α} (h : Parted le left last i b v)
    (hpre : TotalPreorderOn P le) (hP : ∀ x ∈ v, P x) (hlast : left ≤ last)
    (hb' : v[last]? = some b') :
    (swapped v left last b b')[last]? = some b ∧
      Between left last (fun x => le x b) (swapped v left last b b') ∧
      Between (last + 1) i (fun x => le b x) (swapped v left last b b') := by
  have hPb : P b := hP b (mem_of_getElem? h.pivot)
  have hweak : ∀ k x, left + 1 ≤ k → k < last + 1 → v[k]? = some x → le x b := by
    intro k x hl hr hx
    rcases hpre.total x b (hP x (mem_of_getElem? hx)) hPb with hxb | hbx
    · exact hxb
    · exact absurd hbx (h.before k x hl hr hx)
  refine ⟨?_, ?_, ?_⟩
  · rw [getElem?_swapped h.pivot hb', if_pos rfl]
  · intro k x hl hr hx
    rw [getElem?_swapped h.pivot hb', if_neg (by omega)] at hx
    split_ifs at hx with hk
    · cases hx
      exact hweak last b' (by omega) (by omega) hb'
    · exact hweak k x (by omega) (by omega) hx
  · intro k x hl hr hx
    rw [getElem?_swapped h.pivot hb', if_neg (by omega), if_neg (by omega)] at hx
    exact h.others k x hl hr hx

/-- The sort only moves elements of its part, and sorts it where the comparison agrees with a total
preorder. -/
theorem qSort_ok (P : α → Prop) (le : α → α → Prop) (fuel : Nat) :
    ∀ {v v' : List α} {left right rightmost : Int} {s s' : σ},
    qSort compar fuel v left right rightmost s = (.ok v', s') → 0 ≤ left → right ≤ rightmost →
    Shuffled left.toNat (right + 1).toNat v v' ∧
      (TotalPreorderOn P le → Agrees P le compar → (∀ x ∈ v, P x) →
        SortedBetween le left.toNat (right + 1).toNat v') := by
  induction fuel with
  | zero =>
    intro v v' left right rightmost s s' h
    cases h
  | succ fuel ih =>
    intro v v' left right rightmost s s' h hleft hright
    unfold qSort at h
    split_ifs at h with hdone
    · cases h
      exact ⟨Shuffled.refl _ _ _, fun _ _ _ => sorted_small (by omega)⟩
    · obtain ⟨v1, s1, hswap, hrest⟩ := followed_ok h
      obtain ⟨⟨v2, last⟩, s2, hloop, hrest⟩ := followed_ok hrest
      obtain ⟨v3, s3, hplace, hrest⟩ := followed_ok hrest
      obtain ⟨v4, s4, hfirst, hsecond⟩ := followed_ok hrest
      obtain ⟨-, a, m, ha, hm, rfl⟩ := doSwap_ok hswap
      obtain ⟨-, b, b', hb, hb', rfl⟩ := doSwap_ok hplace
      obtain ⟨hmoved, hge, hlt, hparts⟩ :=
        qSort_loop_ok P le _ hloop (Nat.le_refl _) (Nat.lt_succ_self _)
      have hend : left.toNat + 1 + (right - left).toNat = (right + 1).toNat := by omega
      rw [hend] at hmoved hlt hparts
      obtain ⟨hshuffled1, hsorted1⟩ := ih hfirst hleft (by omega)
      obtain ⟨hshuffled2, hsorted2⟩ := ih hsecond (by omega) hright
      have hlast : ((last : Int) - 1 + 1).toNat = last := by omega
      have hnext : ((last : Int) + 1).toNat = last + 1 := by omega
      rw [hlast] at hshuffled1 hsorted1
      rw [hnext] at hshuffled2 hsorted2
      -- the five changes of the list
      have h1 : Shuffled left.toNat (right + 1).toNat v
          (swapped v left.toNat ((left + right) / 2).toNat a m) :=
        swapped_shuffled ha hm (by omega) (by omega) (by omega) (by omega)
      have h2 : Shuffled left.toNat (right + 1).toNat _ v2 :=
        hmoved.widen (by omega) (Nat.le_refl _)
      have h3 : Shuffled left.toNat (right + 1).toNat v2 (swapped v2 left.toNat last b b') :=
        swapped_shuffled hb hb' (by omega) (by omega) (by omega) (by omega)
      have h4 : Shuffled left.toNat (right + 1).toNat _ v4 :=
        hshuffled1.widen (Nat.le_refl left.toNat) (by omega)
      have h5 : Shuffled left.toNat (right + 1).toNat v4 v' :=
        hshuffled2.widen (by omega) (Nat.le_refl _)
      refine ⟨(((h1.trans h2).trans h3).trans h4).trans h5, ?_⟩
      intro hpre hagrees hP
      have hP2 := (h1.trans h2).forall_mem hP
      have hP3 := h3.forall_mem hP2
      have hP4 := h4.forall_mem hP3
      -- before the loop nothing is parted yet
      obtain ⟨b1, hb1⟩ : ∃ b1, (swapped v left.toNat ((left + right) / 2).toNat a m)[left.toNat]?
          = some b1 := by
        rw [← hmoved.outside left.toNat (by omega)]
        exact ⟨b, hb⟩
      have hparted := hparts b1 hagrees (h1.forall_mem hP)
        ⟨hb1, fun k x hl hr => by omega, fun k x hl hr => by omega⟩
      have hsame : b1 = b := by
        have hpivot := hparted.pivot
        rw [hb] at hpivot
        cases hpivot
        rfl
      rw [hsame] at hparted
      obtain ⟨hpivot, hbefore, hbehind⟩ := parted_placed hparted hpre hP2 hge hb'
      have hbefore4 := hshuffled1.between hbefore
      have hbehind4 := hshuffled1.between_apart (.inr (Nat.le_succ last)) hbehind
      have hpivot5 : v'[last]? = some b := by
        rwa [hshuffled2.outside last (by omega), hshuffled1.outside last (by omega)]
      exact sorted_glue hpre (h5.forall_mem hP4) hpivot5
        (hshuffled2.between_apart (.inl (Nat.le_succ last)) hbefore4)
        (hshuffled2.between hbehind4)
        (hshuffled2.sorted_apart (.inl (Nat.le_succ last)) (hsorted1 hpre hagrees hP3))
        (hsorted2 hpre hagrees hP4)

theorem qSort_loop_error {left : Nat} (n : Nat) : ∀ {i last : Nat} {v : List α} {s s' : σ}
    {e : fault}, qSort_loop compar left n i last v s = (.error e, s') → i + n ≤ v.length →
    left < v.length → last < i → (∀ x ∈ v, P x) →
    ∃ x y s1 s2, P x ∧ P y ∧ compar x y s1 = (.error e, s2) := by
  induction n with
  | zero =>
    intro i last v s s' e h
    cases h
  | succ n ih =>
    intro i last v s s' e h hend hleft hlast hP
    have hi : i < v.length := by omega
    unfold qSort_loop at h
    rw [getElem?_eq_getElem hi, getElem?_eq_getElem hleft] at h
    rcases followed_error h with hfails | ⟨c, s1, -, hrest⟩
    · exact ⟨_, _, s, s', hP _ (getElem_mem hi), hP _ (getElem_mem hleft), hfails⟩
    · have hplace : last + 1 < v.length := by omega
      split_ifs at hrest with hc
      · rw [doSwap_inside s1 hplace hi] at hrest
        have hperm : (swapped v (last + 1) i v[last + 1] v[i]).Perm v :=
          swapped_perm (getElem?_eq_getElem hplace) (getElem?_eq_getElem hi)
        have hlength := hperm.length_eq
        exact ih hrest (by omega) (by omega) (by omega)
          fun x hx => hP x (hperm.mem_iff.mp hx)
      · exact ih hrest (by omega) hleft (by omega) hP

theorem qSort_error (fuel : Nat) : ∀ {v : List α} {left right rightmost : Int} {s s' : σ}
    {e : fault}, qSort compar fuel v left right rightmost s = (.error e, s') → 0 ≤ left →
    right ≤ rightmost → rightmost < v.length → right - left < fuel → 0 < fuel →
    (∀ x ∈ v, P x) → ∃ x y s1 s2, P x ∧ P y ∧ compar x y s1 = (.error e, s2) := by
  induction fuel with
  | zero =>
    intro v left right rightmost s s' e h _ _ _ _ hfuel
    omega
  | succ fuel ih =>
    intro v left right rightmost s s' e h hleft hright hlength hfuel _ hP
    unfold qSort at h
    split_ifs at h with hdone
    · cases h
    have hone : left.toNat < v.length := by omega
    have htwo : ((left + right) / 2).toNat < v.length := by omega
    rw [doSwap_inside s hone htwo, followed_value] at h
    have h1 : Shuffled left.toNat (right + 1).toNat v _ :=
      swapped_shuffled (getElem?_eq_getElem hone) (getElem?_eq_getElem htwo)
        (by omega) (by omega) (by omega) (by omega)
    have hlength1 := h1.length
    rcases followed_error h with hfails | ⟨⟨v2, last⟩, s2, hloop, hrest⟩
    · exact qSort_loop_error _ hfails (by omega) (by omega) (Nat.lt_succ_self _)
        (h1.forall_mem hP)
    · obtain ⟨hmoved, hge, hlt, -⟩ :=
        qSort_loop_ok P (fun _ _ => True) _ hloop (Nat.le_refl _) (Nat.lt_succ_self _)
      have hP2 := hmoved.forall_mem (h1.forall_mem hP)
      have hlength2 := hmoved.length
      have hone2 : left.toNat < v2.length := by omega
      have hlast2 : last < v2.length := by omega
      simp only at hrest
      rw [doSwap_inside s2 hone2 hlast2, followed_value] at hrest
      have h3 : Shuffled left.toNat (right + 1).toNat v2 _ :=
        swapped_shuffled (getElem?_eq_getElem hone2) (getElem?_eq_getElem hlast2)
          (by omega) (by omega) (by omega) (by omega)
      have hP3 := h3.forall_mem hP2
      have hlength3 := h3.length
      rcases followed_error hrest with hfails | ⟨v4, s4, hfirst, hsecond⟩
      · exact ih hfails hleft (by omega) (by omega) (by omega) (by omega) hP3
      · obtain ⟨h4, -⟩ := qSort_ok P (fun _ _ => True) fuel hfirst hleft (by omega)
        have hlength4 := h4.length
        exact ih hsecond (by omega) hright (by omega) (by omega) (by omega) (h4.forall_mem hP3)

section linked

variable {R G : σ → τ → Prop} {compar' : α → α → τ → ended τ Int}

theorem doSwap_linked (v : List α) (one two : Nat) :
    Linked R G (doSwap v one two) (doSwap v one two) := by
  unfold doSwap
  split <;> exact linked_const _

theorem qSort_loop_linked (h : ∀ x y, Linked R G (compar x y) (compar' x y)) (left n : Nat) :
    ∀ (i last : Nat) (v : List α),
      Linked R G (fun s => qSort_loop compar left n i last v s)
        (fun t => qSort_loop compar' left n i last v t) := by
  induction n with
  | zero =>
    intro i last v
    exact linked_const _
  | succ n ih =>
    intro i last v
    unfold qSort_loop
    split
    · refine linked_followed (h _ _) fun c => ?_
      split_ifs
      · exact linked_followed (doSwap_linked v (last + 1) i) fun v => ih _ _ v
      · exact ih _ _ v
    · exact linked_const _

theorem qSort_linked (h : ∀ x y, Linked R G (compar x y) (compar' x y)) (fuel : Nat) :
    ∀ (v : List α) (left right rightmost : Int),
      Linked R G (fun s => qSort compar fuel v left right rightmost s)
        (fun t => qSort compar' fuel v left right rightmost t) := by
  induction fuel with
  | zero =>
    intro v left right rightmost
    exact linked_const _
  | succ fuel ih =>
    intro v left right rightmost
    unfold qSort
    split_ifs
    · exact linked_const _
    · refine linked_followed (doSwap_linked _ _ _) fun v => ?_
      refine linked_followed (qSort_loop_linked h _ _ _ _ v) fun r => ?_
      refine linked_followed (doSwap_linked _ _ _) fun v => ?_
      exact linked_followed (ih _ _ _ _) fun v => ih _ _ _ _

theorem quickSort_linked (h : ∀ x y, Linked R G (compar x y) (compar' x y)) (a : List α) :
    Linked R G (quickSort compar a) (quickSort compar' a) := by
  unfold quickSort
  split_ifs
  · exact linked_const _
  · exact qSort_linked h _ _ _ _ _

end linked

theorem quickSort_kept {I : σ → Prop} (h : ∀ x y s, I s → I (compar x y s).2) {a : List α} {s : σ}
    (hs : I s) : I (quickSort compar a s).2 := by
  have hlinked : ∀ x y, Linked (fun _ _ => False) (fun s _ => I s) (compar x y)
      (fun t : Unit => (.ok 0, t)) := fun x y =>
    ⟨fun _ _ hfalse => hfalse.elim, fun s _ hs => h x y s hs, fun _ _ hs => hs⟩
  exact (quickSort_linked hlinked a).left s () hs

theorem quickSort_ok (P : α → Prop) (le : α → α → Prop) {a v : List α} {s s' : σ}
    (h : quickSort compar a s = (.ok v, s')) :
    v.Perm a ∧ (TotalPreorderOn P le → Agrees P le compar → (∀ x ∈ a, P x) → v.Pairwise le) := by
  unfold quickSort at h
  split_ifs at h with hfew
  · cases h
    refine ⟨List.Perm.refl a, fun _ _ _ => sorted_pairwise (sorted_small (by omega))⟩
  · obtain ⟨hshuffled, hsorted⟩ := qSort_ok P le _ h (Int.le_refl 0) (Int.le_refl _)
    have hend : ((a.length : Int) - 1 + 1).toNat = v.length := by
      rw [hshuffled.length]
      omega
    refine ⟨hshuffled.perm, fun hpre hagrees hP => ?_⟩
    have hall := hsorted hpre hagrees hP
    rw [hend] at hall
    exact sorted_pairwise hall

theorem quickSort_error {a : List α} {s s' : σ} {e : fault}
    (h : quickSort compar a s = (.error e, s')) (hP : ∀ x ∈ a, P x) :
    ∃ x y s1 s2, P x ∧ P y ∧ compar x y s1 = (.error e, s2) := by
  unfold quickSort at h
  split_ifs at h with hfew
  · cases h
  · exact qSort_error _ h (Int.le_refl 0) (Int.le_refl _) (by omega) (by omega) (by omega) hP

end qsort

/-! ## One sort -/

section one_sort

variable {R σ : Type} {less : R → R → Bool}
variable {d : data R}
variable {item : List (svalue_t R)} {ftc : Nat}

def argument.compare (less : R → R → Bool) (d : data R) :
    argument R σ → svalue_t R → svalue_t R → σ → ended σ Int
  | .number dir, p1, p2, s =>
    ((if dir < 0 then builtin_sort_array_cmp_rev less d
      else builtin_sort_array_cmp_fwd less d) p1 p2, s)
  | .callback _ call, p1, p2, s => followed (call p1 p2 s) fun v s => (.ok (returned v), s)

/-- What is asked of one sort, in which destructed objects count as 0. -/
structure SortsRight (less : R → R → Bool) (tmp : Nat) (arg : argument R (machine R)) (ftc : Nat)
    (m : machine R) : Prop where
  /-- The result is a new array with the same items, sorted if the comparison is a total
  preorder. -/
  sorts : ∀ r m', f_sort_array less tmp arg ftc m = (.ok r, m') →
    ∃ before item, m'.data.arrays = before ++ [item] ∧ r = before.length ∧
      item.Perm ((check_for_destr m.data tmp).item tmp) ∧
      ∀ le, TotalPreorderOn (· ∈ (check_for_destr m.data tmp).item tmp) le →
        Agrees (· ∈ (check_for_destr m.data tmp).item tmp) le
          (arg.compare less (check_for_destr m.data tmp)) → item.Pairwise le
  /-- An array that the comparisons do not change is not changed, and so for the input. -/
  keeps : ∀ (arr : Nat) (item : List (svalue_t R)),
    (∀ p1 p2 (m1 : machine R), m1.data.arrays[arr]? = some item →
      (arg.compare less (check_for_destr m.data tmp) p1 p2 m1).2.data.arrays[arr]? = some item) →
    (check_for_destr m.data tmp).arrays[arr]? = some item →
      (f_sort_array less tmp arg ftc m).2.data.arrays[arr]? = some item
  /-- Only an error, or a callback that is not in effect, keeps it from its end. -/
  ends : ∀ e m', f_sort_array less tmp arg ftc m = (.error e, m') →
    e = .lost ∨ (∃ message, e = .raised message) ∨
      ∃ p1 p2 m1 m2, arg.compare less (check_for_destr m.data tmp) p1 p2 m1 = (.error e, m2)

theorem sort_array_cmp_cases (less : R → R → Bool)
    (call : svalue_t R → svalue_t R → machine R → ended (machine R) (Option (svalue_t R)))
    (process_efun_callback : data R → Option String) (ftc : Nat) (d : data R) (p1 p2 : svalue_t R)
    (m : machine R) :
    sort_array_cmp call ftc p1 p2 m = (.error .lost, m) ∨
      sort_array_cmp call ftc p1 p2 m =
        (argument.callback process_efun_callback call).compare less d p1 p2 m := by
  unfold sort_array_cmp
  split_ifs
  · left
    rfl
  · right
    rfl

theorem push_array_ok (item : List (svalue_t R)) (m : machine R) :
    push_array item m = (.ok m.data.arrays.length, { m with data := m.data.push_array item }) := rfl

theorem getElem?_push {arr : Nat} {old : List (svalue_t R)} (h : d.arrays[arr]? = some old) :
    (d.push_array item).arrays[arr]? = some old := by
  have hlt : arr < d.arrays.length := (List.getElem?_eq_some_iff.mp h).1
  simp only [data.push_array]
  rwa [getElem?_append_left hlt]

/-- Sorting with the comparisons that a sort with a callback makes: they are the callback's as far
as they come to a number. -/
theorem callback_agrees
    {call : svalue_t R → svalue_t R → machine R → ended (machine R) (Option (svalue_t R))}
    {process_efun_callback : data R → Option String} {P : svalue_t R → Prop}
    {le : svalue_t R → svalue_t R → Prop}
    (h : Agrees P le ((argument.callback process_efun_callback call).compare less d)) :
    Agrees P le (sort_array_cmp call ftc) := by
  intro x y s c s' hx hy hcompar
  rcases sort_array_cmp_cases less call process_efun_callback ftc d x y s with
    hlost | hcall
  · simp [hlost] at hcompar
  · rw [hcall] at hcompar
    exact h x y s c s' hx hy hcompar

def Holds (arr : Nat) (item : List (svalue_t R)) (m : machine R) : Prop :=
  m.data.arrays[arr]? = some item

theorem number_sorts_right (tmp : Nat) (dir : Int) (ftc : Nat) (m : machine R) :
    SortsRight less tmp (.number dir) ftc m where
  sorts := by
    intro r m' h
    unfold f_sort_array at h
    obtain ⟨item, m1, hsort, h⟩ := followed_ok h
    rw [push_array_ok] at h
    cases h
    refine ⟨m1.data.arrays, item, rfl, rfl,
      (quickSort_ok (fun _ => True) (fun _ _ => True) hsort).1, ?_⟩
    intro le hpre hagrees
    exact (quickSort_ok _ le hsort).2 hpre hagrees fun x hx => hx
  keeps := by
    intro arr item hcompare h
    refine followed_kept (I := Holds arr item) ?_ fun item' m1 h1 => getElem?_push h1
    exact quickSort_kept (fun x y s hs => hcompare x y s hs) h
  ends := by
    intro e m' h
    unfold f_sort_array at h
    rcases followed_error h with hsort | ⟨item, m1, -, h⟩
    · obtain ⟨x, y, m1, m2, -, -, hcompar⟩ := quickSort_error (P := fun _ => True) hsort
        fun _ _ => trivial
      right
      right
      exact ⟨x, y, m1, m2, hcompar⟩
    · cases h

def sorted_copy (process_efun_callback : data R → Option String)
    (call : svalue_t R → svalue_t R → machine R → ended (machine R) (Option (svalue_t R))) (n : Nat)
    (d : data R) (copy : List (svalue_t R)) (m : machine R) :
    ended (machine R) (List (svalue_t R)) :=
  match process_efun_callback d with
  | some message => (.error (.raised message), m)
  | none => quickSort (sort_array_cmp call n) copy m

/-- What is done after a sort with a callback, which may have failed. -/
def finish (n : Nat) (old_ptr : Option Nat) (r : ended (machine R) (List (svalue_t R))) :
    ended (machine R) Nat :=
  note_left n (followed r fun tmp m => push_array tmp { m with sort_array_ftc := old_ptr })

theorem f_sort_array_finish (tmp : Nat) (process_efun_callback : data R → Option String)
    (call : svalue_t R → svalue_t R → machine R → ended (machine R) (Option (svalue_t R)))
    (n : Nat) (m : machine R) :
    f_sort_array less tmp (.callback process_efun_callback call) n m =
      finish n m.sort_array_ftc (sorted_copy process_efun_callback call n
        (check_for_destr m.data tmp) ((check_for_destr m.data tmp).item tmp)
        { m with data := check_for_destr m.data tmp, sort_array_ftc := some n }) := by
  unfold f_sort_array sorted_copy finish
  cases hsetup : process_efun_callback (check_for_destr m.data tmp) <;> simp only [hsetup] <;> rfl

theorem note_left_eq {r : ended (machine R) β} {b : Except fault β} {m' : machine R}
    (h : note_left ftc r = (b, m')) :
    ∃ m1, r = (b, m1) ∧ m' = { m1 with left := m1.left ++ [(ftc, m1.sort_array_ftc)] } := by
  rcases r with ⟨b', m1⟩
  cases h
  exact ⟨m1, rfl, rfl⟩

theorem callback_sorts_right (less : R → R → Bool) (tmp : Nat)
    (process_efun_callback : data R → Option String)
    (call : svalue_t R → svalue_t R → machine R → ended (machine R) (Option (svalue_t R)))
    (ftc : Nat) (m : machine R) :
    SortsRight less tmp (.callback process_efun_callback call) ftc m where
  sorts := by
    intro r m' h
    rw [f_sort_array_finish] at h
    obtain ⟨m1, hsorted, rfl⟩ := note_left_eq h
    obtain ⟨item, m2, hsort, hpush⟩ := followed_ok hsorted
    rw [push_array_ok] at hpush
    cases hpush
    unfold sorted_copy at hsort
    split at hsort
    · cases hsort
    · refine ⟨m2.data.arrays, item, rfl, rfl,
        (quickSort_ok (fun _ => True) (fun _ _ => True) hsort).1, ?_⟩
      intro le hpre hagrees
      exact (quickSort_ok _ le hsort).2 hpre (callback_agrees hagrees) fun x hx => hx
  keeps := by
    intro arr item hcompare h
    rw [f_sort_array_finish]
    refine followed_kept (I := Holds arr item) ?_ fun item' m1 h1 => getElem?_push h1
    unfold sorted_copy
    split
    · exact h
    · refine quickSort_kept (I := Holds arr item) ?_ h
      intro x y s hs
      rcases sort_array_cmp_cases less call process_efun_callback ftc
        (check_for_destr m.data tmp) x y s with hlost | hcall
      · rwa [hlost]
      · rw [hcall]
        exact hcompare x y s hs
  ends := by
    intro e m' h
    rw [f_sort_array_finish] at h
    obtain ⟨m1, hsorted, -⟩ := note_left_eq h
    rcases followed_error hsorted with hsort | ⟨item, m2, -, hpush⟩
    · unfold sorted_copy at hsort
      split at hsort
      · cases hsort
        exact .inr (.inl ⟨_, rfl⟩)
      · obtain ⟨x, y, m2, m3, -, -, hcompar⟩ := quickSort_error (P := fun _ => True) hsort
          fun _ _ => trivial
        rcases sort_array_cmp_cases less call process_efun_callback ftc
          (check_for_destr m.data tmp) x y m2 with hlost | hcall
        · rw [hlost] at hcompar
          cases hcompar
          exact .inl rfl
        · rw [hcall] at hcompar
          exact .inr (.inr ⟨x, y, m2, m3, hcompar⟩)
    · cases hpush

theorem sorts_right (tmp : Nat) (arg : argument R (machine R)) (ftc : Nat) (m : machine R) :
    SortsRight less tmp arg ftc m := by
  cases arg with
  | number dir => exact number_sorts_right tmp dir ftc m
  | callback setup call => exact callback_sorts_right less tmp setup call ftc m

/-! ## The built-in comparisons -/

/-- What the real comparison of reals keeps as long as none of them is not a number. -/
structure WeakOrder (less : R → R → Bool) : Prop where
  asymm : ∀ x y, less x y = true → less y x = false
  trans : ∀ x y z, less y x = false → less z y = false → less z x = false

inductive kind
  | numbers
  | strings
  | reals

def kind.Of : kind → svalue_t R → Prop
  | .numbers, .number _ => True
  | .strings, .string _ => True
  | .reals, .real _ => True
  | _, _ => False

def scalar_order (less : R → R → Bool) : svalue_t R → svalue_t R → Prop
  | .number m, .number n => m ≤ n
  | .string s, .string t => s ≤ t
  | .real x, .real y => less y x = false
  | _, _ => False

/-- What an item is sorted by: an array by its first item, and other values by themselves. -/
def sort_key (d : data R) : svalue_t R → Option (svalue_t R)
  | .array arr => (d.item arr).head?
  | v => some v

def in_order (less : R → R → Bool) (d : data R) (dir : Int) (v w : svalue_t R) : Prop :=
  ∃ a b, sort_key d v = some a ∧ sort_key d w = some b ∧
    if dir < 0 then scalar_order less b a else scalar_order less a b

/-- All items are of one kind, or they are arrays whose first items are. -/
def Homogeneous (less : R → R → Bool) (d : data R) (item : List (svalue_t R)) : Prop :=
  ∃ k : kind, (k = .reals → WeakOrder less) ∧
    ((∀ v ∈ item, k.Of v) ∨ ∀ v ∈ item, ∃ arr a, v = .array arr ∧ sort_key d v = some a ∧ k.Of a)

theorem strcmp_neg (s t : List Nat) : strcmp s t < 0 ↔ ¬ t ≤ s := by
  rw [not_le]
  induction s generalizing t with
  | nil =>
    cases t with
    | nil => simp [strcmp]
    | cons y t => simp [strcmp]
  | cons x s ih =>
    cases t with
    | nil => simp [strcmp]
    | cons y t =>
      unfold strcmp
      rw [cons_lt_cons_iff]
      split_ifs with hlt hgt
      · exact ⟨fun _ => .inl hlt, fun _ => by omega⟩
      · constructor
        · intro h
          omega
        · rintro (h | ⟨h, -⟩) <;> omega
      · have hsame : x = y := by omega
        rw [ih t]
        exact ⟨fun h => .inr ⟨hsame, h⟩, fun h => h.elim (fun h => absurd h hlt) And.right⟩

theorem scalar_preorder (k : kind) (hk : k = .reals → WeakOrder less) :
    TotalPreorderOn k.Of (scalar_order less) where
  total := by
    intro x y hx hy
    cases k <;> cases x <;> cases hx <;> cases y <;> cases hy
    · exact Int.le_total _ _
    · exact le_total (α := List Nat) _ _
    · rename_i x y
      cases hxy : less x y with
      | false => exact .inr hxy
      | true => exact .inl ((hk rfl).asymm x y hxy)
  trans := by
    intro x y z hx hy hz hxy hyz
    cases k <;> cases x <;> cases hx <;> cases y <;> cases hy <;> cases z <;> cases hz
    · exact Int.le_trans hxy hyz
    · exact le_trans (α := List Nat) hxy hyz
    · exact (hk rfl).trans _ _ _ hxy hyz

theorem COMPARE_NUMS_neg (lt : β → β → Bool) (x y : β) :
    COMPARE_NUMS lt x y < 0 ↔ lt x y = true := by
  unfold COMPARE_NUMS
  split_ifs with hlt hgt
  · exact ⟨fun _ => hlt, fun _ => by omega⟩
  · exact ⟨fun h => by omega, fun h => absurd h hlt⟩
  · exact ⟨fun h => by omega, fun h => absurd h hlt⟩

theorem compare_firsts_ok (less : R → R → Bool) {k : kind} {a b : svalue_t R} (ha : k.Of a)
    (hb : k.Of b) :
    ∃ c, compare_firsts less a b = .ok c ∧ (c < 0 ↔ ¬ scalar_order less b a) := by
  cases k <;> cases a <;> cases ha <;> cases b <;> cases hb
  · refine ⟨_, rfl, ?_⟩
    rw [COMPARE_NUMS_neg, decide_eq_true_iff]
    exact Int.not_le.symm
  · exact ⟨_, rfl, strcmp_neg _ _⟩
  · refine ⟨_, rfl, ?_⟩
    rw [COMPARE_NUMS_neg]
    exact Iff.of_eq (Bool.not_eq_false _).symm

theorem homogeneous_compared (h : Homogeneous less d item) :
    ∃ k : kind, (k = .reals → WeakOrder less) ∧ ∀ v ∈ item,
      ∃ a, sort_key d v = some a ∧ k.Of a ∧ ∀ w ∈ item, ∀ b, sort_key d w = some b →
        builtin_sort_array_cmp_fwd less d v w = compare_firsts less a b := by
  obtain ⟨k, hk, hscalars | harrays⟩ := h
  · refine ⟨k, hk, fun v hv => ?_⟩
    have hkv := hscalars v hv
    refine ⟨v, ?_, hkv, ?_⟩
    · cases k <;> cases v <;> first | rfl | cases hkv
    · intro w hw b hb
      have hkw := hscalars w hw
      cases k <;> cases v <;> cases hkv <;> cases w <;> cases hkw <;> cases hb <;> rfl
  · refine ⟨k, hk, fun v hv => ?_⟩
    obtain ⟨arr, a, rfl, hkey, hka⟩ := harrays v hv
    refine ⟨a, hkey, hka, ?_⟩
    intro w hw b hb
    obtain ⟨arr', a', rfl, -, -⟩ := harrays w hw
    obtain ⟨rest, hrest⟩ := head?_eq_some_iff.mp hkey
    obtain ⟨rest', hrest'⟩ := head?_eq_some_iff.mp hb
    simp [builtin_sort_array_cmp_fwd, hrest, hrest']

theorem builtin_compared (h : Homogeneous less d item) (dir : Int) :
    TotalPreorderOn (· ∈ item) (in_order less d dir) ∧
      ∀ v ∈ item, ∀ w ∈ item, ∀ s : σ, ∃ c,
        (argument.number dir).compare less d v w s = (.ok c, s) ∧
          (c < 0 ↔ ¬ in_order less d dir w v) := by
  obtain ⟨k, hk, hkeys⟩ := homogeneous_compared h
  have hpre := scalar_preorder k hk
  refine ⟨⟨?_, ?_⟩, ?_⟩
  · intro x y hx hy
    obtain ⟨a, ha, hka, -⟩ := hkeys x hx
    obtain ⟨b, hb, hkb, -⟩ := hkeys y hy
    rcases hpre.total a b hka hkb with hab | hba <;> by_cases hdir : dir < 0
    · exact .inr ⟨b, a, hb, ha, by rw [if_pos hdir]; exact hab⟩
    · exact .inl ⟨a, b, ha, hb, by rw [if_neg hdir]; exact hab⟩
    · exact .inl ⟨a, b, ha, hb, by rw [if_pos hdir]; exact hba⟩
    · exact .inr ⟨b, a, hb, ha, by rw [if_neg hdir]; exact hba⟩
  · rintro x y z hx hy hz ⟨a, b, ha, hb, hab⟩ ⟨b', c, hb', hc, hbc⟩
    rw [hb] at hb'
    cases hb'
    obtain ⟨a1, ha1, hka, -⟩ := hkeys x hx
    obtain ⟨b1, hb1, hkb, -⟩ := hkeys y hy
    obtain ⟨c1, hc1, hkc, -⟩ := hkeys z hz
    rw [ha] at ha1
    rw [hb] at hb1
    rw [hc] at hc1
    cases ha1
    cases hb1
    cases hc1
    refine ⟨a, c, ha, hc, ?_⟩
    split_ifs at hab hbc ⊢
    · exact hpre.trans c b a hkc hkb hka hbc hab
    · exact hpre.trans a b c hka hkb hkc hab hbc
  · intro v hv w hw s
    obtain ⟨a, ha, hka, hva⟩ := hkeys v hv
    obtain ⟨b, hb, hkb, hwb⟩ := hkeys w hw
    have horder : in_order less d dir w v ↔
        if dir < 0 then scalar_order less a b else scalar_order less b a := by
      constructor
      · rintro ⟨b', a', hb', ha', h'⟩
        rw [hb] at hb'
        rw [ha] at ha'
        cases hb'
        cases ha'
        exact h'
      · intro h'
        exact ⟨b, a, hb, ha, h'⟩
    rw [horder]
    by_cases hdir : dir < 0
    · obtain ⟨c, hc, hsign⟩ := compare_firsts_ok less hkb hka
      refine ⟨c, ?_, ?_⟩
      · rw [argument.compare, if_pos hdir, builtin_sort_array_cmp_rev, hwb v hv a ha, hc]
      · rwa [if_pos hdir]
    · obtain ⟨c, hc, hsign⟩ := compare_firsts_ok less hka hkb
      refine ⟨c, ?_, ?_⟩
      · rw [argument.compare, if_neg hdir, hva w hw b hb, hc]
      · rwa [if_neg hdir]

theorem homogeneous_sorted {tmp : Nat} {dir : Int} {m : machine R}
    (h : Homogeneous less (check_for_destr m.data tmp) ((check_for_destr m.data tmp).item tmp)) :
    ∃ item, f_sort_array less tmp (.number dir) ftc m =
        (.ok (check_for_destr m.data tmp).arrays.length,
          { m with data := (check_for_destr m.data tmp).push_array item }) ∧
      item.Perm ((check_for_destr m.data tmp).item tmp) ∧
      item.Pairwise (in_order less (check_for_destr m.data tmp) dir) := by
  obtain ⟨hpre, hcompare⟩ := builtin_compared (σ := machine R) h dir
  have hfsort : f_sort_array less tmp (.number dir) ftc m =
      followed (quickSort ((argument.number dir).compare less (check_for_destr m.data tmp))
        ((check_for_destr m.data tmp).item tmp) { m with data := check_for_destr m.data tmp })
        push_array := rfl
  rcases hsort : quickSort ((argument.number dir).compare less (check_for_destr m.data tmp))
    ((check_for_destr m.data tmp).item tmp) { m with data := check_for_destr m.data tmp } with
    ⟨e | item, m1⟩
  · -- a comparison would have failed
    obtain ⟨x, y, s1, s2, hx, hy, hfails⟩ := quickSort_error hsort fun x hx => hx
    obtain ⟨c, hc, -⟩ := hcompare x hx y hy s1
    simp [hfails] at hc
  · have hstate : m1 = { m with data := check_for_destr m.data tmp } := by
      have hkept : (quickSort ((argument.number dir).compare less (check_for_destr m.data tmp))
          ((check_for_destr m.data tmp).item tmp)
          { m with data := check_for_destr m.data tmp }).2 =
          { m with data := check_for_destr m.data tmp } :=
        quickSort_kept (I := fun s => s = { m with data := check_for_destr m.data tmp })
          (fun x y s hs => hs) rfl
      rwa [hsort] at hkept
    obtain ⟨hperm, hsorted⟩ := quickSort_ok _ (in_order less (check_for_destr m.data tmp) dir) hsort
    refine ⟨item, ?_, hperm, hsorted hpre ?_ fun x hx => hx⟩
    · rw [hfsort, hsort, followed_value, push_array_ok, hstate]
    · intro x y s c s' hx hy hc
      obtain ⟨c', hc', hsign⟩ := hcompare x hx y hy s
      rw [hc'] at hc
      cases hc
      exact hsign

end one_sort

/-! ## Every sort with its own callback -/

section runs

variable {R : Type} {less : R → R → Bool}
variable {e : fault}
variable {v w : svalue_t R}

/-- The state of a run in which every sort keeps its own callback. `escaped` tells that an error
has left a sort with a callback within the callback of another one. -/
structure own_state (R : Type) where
  data : data R
  escaped : Bool

def note_escaped {β : Type} (inside : Bool) (r : ended (own_state R) β) : ended (own_state R) β :=
  match r with
  | (.error e, s) => (.error e, { s with escaped := s.escaped || inside })
  | r => r

def own_push (item : List (svalue_t R)) (s : own_state R) : ended (own_state R) Nat :=
  (.ok s.data.arrays.length, { s with data := s.data.push_array item })

def own_sort (less : R → R → Bool) (tmp : Nat) (arg : argument R (own_state R)) (inside : Bool)
    (s : own_state R) : ended (own_state R) Nat :=
  let s := { s with data := check_for_destr s.data tmp }
  match arg with
  | .number dir =>
    followed (quickSort ((argument.number dir).compare less s.data) (s.data.item tmp) s) own_push
  | .callback process_efun_callback call =>
    note_escaped inside <|
      match process_efun_callback s.data with
      | some message => (.error (.raised message), s)
      | none =>
        followed (quickSort ((argument.callback process_efun_callback call).compare less s.data)
          (s.data.item tmp) s) own_push

/-- Running code within the callback of a sort, or outside of all of them. -/
def own_run (less : R → R → Bool) :
    code R → (inside : Bool) → own_state R → ended (own_state R) (Option (svalue_t R))
  | .done v, _, s => (.ok v, s)
  | .error message, _, s => (.error (.raised message), s)
  | .act f k, inside, s => own_run less (k (f s.data)) inside { s with data := f s.data }
  | .caught body k, inside, s =>
    match own_run less body inside s with
    | (.ok _, s) => own_run less (k none) inside s
    | (.error (.raised message), s) => own_run less (k (some message)) inside s
    | (.error e, s) => (.error e, s)
  | .sort arr dir k, inside, s =>
    followed (own_sort less arr (.number dir) inside s) fun r s => own_run less (k r) inside s
  | .sort_by arr process_efun_callback callback k, inside, s =>
    followed (own_sort less arr
        (.callback process_efun_callback fun p1 p2 s => own_run less (callback p1 p2) true s)
        inside s)
      fun r s => own_run less (k r) inside s

/-! ## The two runs -/

/-- The sort with this place has left `sort_array_ftc` to the enclosing one, if there is one. -/
def RightEnd (e : Nat × Option Nat) : Prop := e.1 = 0 ∨ e.2 = some (e.1 - 1)

/-- The runs are at the same point, `n` sorts with a callback are under way, and the callback of the
last one is in effect. -/
structure InStep (n : Nat) (m : machine R) (s : own_state R) : Prop where
  escaped : s.escaped = false
  left : ∀ e ∈ m.left, RightEnd e
  data : m.data = s.data
  in_effect : n = 0 ∨ m.sort_array_ftc = some (n - 1)

/-- An error has left a sort within the callback of another one, which it has put out of effect. -/
structure Apart (m : machine R) (s : own_state R) : Prop where
  escaped : s.escaped = true
  left : ∃ e ∈ m.left, ¬ RightEnd e

theorem sort_array_cmp_linked {n : Nat}
    {call : svalue_t R → svalue_t R → machine R → ended (machine R) (Option (svalue_t R))}
    {call' : svalue_t R → svalue_t R → own_state R → ended (own_state R) (Option (svalue_t R))}
    (hcall : ∀ p1 p2, Linked (InStep (n + 1)) Apart (call p1 p2) (call' p1 p2))
    (process_efun_callback : data R → Option String) (d : data R) (p1 p2 : svalue_t R) :
    Linked (InStep (n + 1)) Apart (sort_array_cmp call n p1 p2)
      ((argument.callback process_efun_callback call').compare less d p1 p2) := by
  have hlinked : Linked (InStep (n + 1)) Apart
      (fun m => followed (call p1 p2 m) fun v m => (.ok (returned v), m))
      (fun s => followed (call' p1 p2 s) fun v s => (.ok (returned v), s)) :=
    linked_followed (hcall p1 p2) fun v => linked_const _
  refine ⟨?_, ?_, hlinked.right⟩
  · intro m s h
    have heffect : m.sort_array_ftc = some n := h.in_effect.resolve_left (Nat.succ_ne_zero n)
    unfold sort_array_cmp
    rw [if_neg (fun hne => hne heffect)]
    exact hlinked.together m s h
  · intro m s h
    unfold sort_array_cmp
    split_ifs
    · exact h
    · exact hlinked.left m s h

theorem own_push_linked (n : Nat) (item : List (svalue_t R)) :
    Linked (InStep n) Apart (push_array item) (own_push item) where
  together := by
    intro m s h
    refine .inl ⟨⟨h.escaped, h.left, ?_, h.in_effect⟩, ?_⟩
    · exact congrArg (data.push_array · item) h.data
    · exact congrArg (fun d => Except.ok (data.arrays d).length) h.data
  left := fun m s h => ⟨h.escaped, h.left⟩
  right := fun m s h => ⟨h.escaped, h.left⟩

theorem InStep.checked {n : Nat} {m : machine R} {s : own_state R} (h : InStep n m s) (tmp : Nat) :
    InStep n { m with data := check_for_destr m.data tmp }
      { s with data := check_for_destr s.data tmp } :=
  ⟨h.escaped, h.left, congrArg (check_for_destr · tmp) h.data, h.in_effect⟩

theorem number_compare_linked {n : Nat} (dir : Int) (d : data R) (p1 p2 : svalue_t R) :
    Linked (InStep n) Apart (fun m : machine R => (argument.number dir).compare less d p1 p2 m)
      (fun s : own_state R => (argument.number dir).compare less d p1 p2 s) := by
  simp only [argument.compare]
  exact linked_const _

theorem number_linked (n : Nat) (inside : Bool) (tmp : Nat) (dir : Int) :
    Linked (InStep n) Apart (f_sort_array less tmp (.number dir) n)
      (own_sort less tmp (.number dir) inside) := by
  have hsorted : ∀ d : data R, Linked (InStep n) Apart
      (fun m =>
        followed (quickSort ((argument.number dir).compare less d) (d.item tmp) m) push_array)
      (fun s =>
        followed (quickSort ((argument.number dir).compare less d) (d.item tmp) s) own_push) :=
    fun d => linked_followed (quickSort_linked (number_compare_linked dir d) (d.item tmp))
      (own_push_linked n)
  refine ⟨?_, ?_, ?_⟩
  · intro m s h
    have htogether := (hsorted (check_for_destr m.data tmp)).together _ _ (h.checked tmp)
    have hown : own_sort less tmp (.number dir) inside s =
        followed (quickSort ((argument.number dir).compare less (check_for_destr m.data tmp))
          ((check_for_destr m.data tmp).item tmp) { s with data := check_for_destr s.data tmp })
          own_push := by
      rw [h.data]
      rfl
    rwa [hown]
  · intro m s h
    exact (hsorted (check_for_destr m.data tmp)).left _ s ⟨h.escaped, h.left⟩
  · intro m s h
    exact (hsorted (check_for_destr s.data tmp)).right m _ ⟨h.escaped, h.left⟩

def own_finish (inside : Bool) (r : ended (own_state R) (List (svalue_t R))) :
    ended (own_state R) Nat :=
  note_escaped inside (followed r own_push)

theorem Apart.finished {n : Nat} {old_ptr : Option Nat} {s : own_state R}
    {r : ended (machine R) (List (svalue_t R))} (h : Apart r.2 s) :
    Apart (finish n old_ptr r).2 s := by
  obtain ⟨e', he', hwrong⟩ := h.left
  rcases r with ⟨e | item, m⟩ <;>
    exact ⟨h.escaped, e', mem_append_left _ he', hwrong⟩

theorem Apart.own_finished {inside : Bool} {m : machine R}
    {r : ended (own_state R) (List (svalue_t R))} (h : Apart m r.2) :
    Apart m (own_finish inside r).2 := by
  rcases r with ⟨e | item, s⟩
  · refine ⟨?_, h.left⟩
    have hescaped : s.escaped = true := h.escaped
    simp [own_finish, followed, note_escaped, hescaped]
  · exact ⟨h.escaped, h.left⟩

theorem finished_together {n : Nat} {old_ptr : Option Nat}
    {r : ended (machine R) (List (svalue_t R))} {r' : ended (own_state R) (List (svalue_t R))}
    (hold : n = 0 ∨ old_ptr = some (n - 1))
    (h : (InStep (n + 1) r.2 r'.2 ∧ r.1 = r'.1) ∨ Apart r.2 r'.2) :
    (InStep n (finish n old_ptr r).2 (own_finish (decide (0 < n)) r').2 ∧
        (finish n old_ptr r).1 = (own_finish (decide (0 < n)) r').1) ∨
      Apart (finish n old_ptr r).2 (own_finish (decide (0 < n)) r').2 := by
  rcases h with ⟨hstep, hsame⟩ | hapart
  · rcases r with ⟨e | item, m⟩ <;> rcases r' with ⟨e' | item', s⟩ <;> cases hsame
    · have heffect : m.sort_array_ftc = some n := hstep.in_effect.resolve_left (Nat.succ_ne_zero n)
      have hescaped : s.escaped = false := hstep.escaped
      rcases Nat.eq_zero_or_pos n with hn | hn
      · -- no sort encloses this one
        refine .inl ⟨⟨?_, ?_, hstep.data, .inl hn⟩, rfl⟩
        · simp [own_finish, followed, note_escaped, hescaped, hn]
        · intro e' he'
          rcases mem_append.mp he' with he' | he'
          · exact hstep.left e' he'
          · rw [mem_singleton.mp he']
            exact .inl hn
      · refine .inr ⟨?_, (n, m.sort_array_ftc), ?_, ?_⟩
        · simp [own_finish, followed, note_escaped, hn]
        · exact mem_append_right _ mem_cons_self
        · rintro (hzero | hptr)
          · exact absurd hzero (Nat.ne_of_gt hn)
          · rw [heffect, Option.some.injEq] at hptr
            simp only at hptr
            omega
    · have hdata : m.data = s.data := hstep.data
      refine .inl ⟨⟨hstep.escaped, ?_, congrArg (data.push_array · item) hdata, hold⟩, ?_⟩
      · intro e' he'
        rcases mem_append.mp he' with he' | he'
        · exact hstep.left e' he'
        · rwa [mem_singleton.mp he']
      · exact congrArg (fun d => Except.ok (data.arrays d).length) hdata
  · exact .inr hapart.finished.own_finished

section callback

variable {n : Nat} {process_efun_callback : data R → Option String}
    {call : svalue_t R → svalue_t R → machine R → ended (machine R) (Option (svalue_t R))}
    {call' : svalue_t R → svalue_t R → own_state R → ended (own_state R) (Option (svalue_t R))}

def own_sorted_copy (less : R → R → Bool) (process_efun_callback : data R → Option String)
    (call' : svalue_t R → svalue_t R → own_state R → ended (own_state R) (Option (svalue_t R)))
    (d : data R) (copy : List (svalue_t R)) (s : own_state R) :
    ended (own_state R) (List (svalue_t R)) :=
  match process_efun_callback d with
  | some message => (.error (.raised message), s)
  | none => quickSort ((argument.callback process_efun_callback call').compare less d) copy s

theorem sorted_copy_linked (less : R → R → Bool)
    (hcall : ∀ p1 p2, Linked (InStep (n + 1)) Apart (call p1 p2) (call' p1 p2)) (d : data R)
    (copy : List (svalue_t R)) :
    Linked (InStep (n + 1)) Apart (sorted_copy process_efun_callback call n d copy)
      (own_sorted_copy less process_efun_callback call' d copy) := by
  unfold sorted_copy own_sorted_copy
  split
  · exact linked_const _
  · exact quickSort_linked (sort_array_cmp_linked hcall process_efun_callback d) copy

theorem own_sort_finish (tmp : Nat) (inside : Bool) (s : own_state R) :
    own_sort less tmp (.callback process_efun_callback call') inside s =
      own_finish inside (own_sorted_copy less process_efun_callback call'
        (check_for_destr s.data tmp) ((check_for_destr s.data tmp).item tmp)
        { s with data := check_for_destr s.data tmp }) := by
  unfold own_sort own_sorted_copy own_finish
  simp only
  split <;> rfl

theorem callback_linked (tmp : Nat)
    (hcall : ∀ p1 p2, Linked (InStep (n + 1)) Apart (call p1 p2) (call' p1 p2)) :
    Linked (InStep n) Apart (f_sort_array less tmp (.callback process_efun_callback call) n)
      (own_sort less tmp (.callback process_efun_callback call') (decide (0 < n))) where
  together := by
    intro m s h
    rw [f_sort_array_finish, own_sort_finish, ← h.data]
    refine finished_together h.in_effect ?_
    exact (sorted_copy_linked less hcall _ _).together _ _ ⟨h.escaped, h.left, rfl, .inr rfl⟩
  left := by
    intro m s h
    rw [f_sort_array_finish]
    refine Apart.finished ?_
    exact (sorted_copy_linked less hcall _ _).left _ s ⟨h.escaped, h.left⟩
  right := by
    intro m s h
    rw [own_sort_finish]
    refine Apart.own_finished ?_
    exact (sorted_copy_linked less hcall _ _).right m _ ⟨h.escaped, h.left⟩

end callback

def uncaught {σ β : Type} : ended σ β → ended σ (Option String)
  | (.ok _, s) => (.ok none, s)
  | (.error (.raised message), s) => (.ok (some message), s)
  | (.error e, s) => (.error e, s)

theorem uncaught_linked {I : σ → τ → Prop} {G : σ → τ → Prop} {f : σ → ended σ β}
    {f' : τ → ended τ β} (h : Linked I G f f') :
    Linked I G (fun s => uncaught (f s)) (fun t => uncaught (f' t)) := by
  have hstate : ∀ {ρ : Type} (r : ended ρ β), (uncaught r).2 = r.2 := by
    intro ρ r
    unfold uncaught
    split <;> rfl
  have hresult : ∀ (r : ended σ β) (r' : ended τ β), r.1 = r'.1 →
      (uncaught r).1 = (uncaught r').1 := by
    rintro ⟨e | b, s⟩ ⟨e' | b', t⟩ hsame <;> cases hsame
    · cases e <;> rfl
    · rfl
  refine ⟨?_, ?_, ?_⟩
  · intro s t hst
    rcases h.together s t hst with ⟨hstates, hsame⟩ | hgone
    · refine .inl ⟨?_, hresult _ _ hsame⟩
      rwa [hstate, hstate]
    · refine .inr ?_
      rwa [hstate, hstate]
  · intro s t hst
    rw [hstate]
    exact h.left s t hst
  · intro s t hst
    rw [hstate]
    exact h.right s t hst

theorem exec_caught (body : code R) (k : Option String → code R) (n : Nat) (m : machine R) :
    exec less (.caught body k) n m =
      followed (uncaught (exec less body n m)) fun r m => exec less (k r) n m := by
  rw [exec]
  rcases exec less body n m with ⟨e | v, m'⟩
  · cases e <;> rfl
  · rfl

theorem own_run_caught (body : code R) (k : Option String → code R) (inside : Bool)
    (s : own_state R) :
    own_run less (.caught body k) inside s =
      followed (uncaught (own_run less body inside s)) fun r s => own_run less (k r) inside s := by
  rw [own_run]
  rcases own_run less body inside s with ⟨e | v, s'⟩
  · cases e <;> rfl
  · rfl

theorem exec_linked (less : R → R → Bool) (t : code R) : ∀ n : Nat,
    Linked (InStep n) Apart (fun m => exec less t n m)
      (fun s => own_run less t (decide (0 < n)) s) := by
  induction t with
  | done v | error message =>
    intro n
    exact linked_const _
  | act f k ih =>
    intro n
    refine ⟨?_, ?_, ?_⟩
    · intro m s h
      have hnext : InStep n { m with data := f m.data } { s with data := f m.data } :=
        ⟨h.escaped, h.left, rfl, h.in_effect⟩
      have htogether := (ih (f m.data) n).together _ _ hnext
      simp only [exec, own_run, ← h.data]
      exact htogether
    · intro m s h
      exact (ih (f m.data) n).left { m with data := f m.data } s ⟨h.escaped, h.left⟩
    · intro m s h
      exact (ih (f s.data) n).right m { s with data := f s.data } ⟨h.escaped, h.left⟩
  | caught body k ihbody ihk =>
    intro n
    have hcaught : Linked (InStep n) Apart
        (fun m => followed (uncaught (exec less body n m)) fun r m => exec less (k r) n m)
        (fun s => followed (uncaught (own_run less body (decide (0 < n)) s)) fun r s =>
          own_run less (k r) (decide (0 < n)) s) :=
      linked_followed (uncaught_linked (ihbody n)) fun r => ihk r n
    simp only [exec_caught, own_run_caught]
    exact hcaught
  | sort arr dir k ih =>
    intro n
    exact linked_followed (number_linked n _ arr dir) fun r => ih r n
  | sort_by arr process_efun_callback callback k ihcallback ihk =>
    intro n
    exact linked_followed (callback_linked arr fun p1 p2 => ihcallback p1 p2 (n + 1))
      fun r => ihk r n

/-! ## Whole runs -/

theorem builtin_fault (h : builtin_sort_array_cmp_fwd less d v w = .error e) :
    ∃ message, e = .raised message := by
  unfold builtin_sort_array_cmp_fwd at h
  split at h
  · cases h
  · cases h
  · cases h
  · split at h
    · unfold compare_firsts at h
      split at h <;> cases h
      exact ⟨_, rfl⟩
    · cases h
      exact ⟨_, rfl⟩
  · cases h
    exact ⟨_, rfl⟩

theorem number_compare_fault {dir : Int} {s s' : σ}
    (h : (argument.number dir).compare less d v w s = (.error e, s')) :
    ∃ message, e = .raised message := by
  rw [argument.compare] at h
  obtain ⟨h, -⟩ := Prod.mk.inj h
  split_ifs at h
  · exact builtin_fault h
  · exact builtin_fault h

theorem callback_compare_fault {setup : data R → Option String}
    {call : svalue_t R → svalue_t R → σ → ended σ (Option (svalue_t R))} {s s' : σ}
    (h : (argument.callback setup call).compare less d v w s = (.error e, s')) :
    call v w s = (.error e, s') := by
  rcases followed_error h with hcall | ⟨v, s1, -, h⟩
  · exact hcall
  · cases h

theorem exec_ends (t : code R) : ∀ {n : Nat} {m m' : machine R} {e : fault},
    exec less t n m = (.error e, m') → e = .lost ∨ ∃ message, e = .raised message := by
  induction t with
  | done v =>
    intro n m m' e h
    cases h
  | error message =>
    intro n m m' e h
    cases h
    exact .inr ⟨message, rfl⟩
  | act f k ih =>
    intro n m m' e h
    exact ih (f m.data) h
  | caught body k ihbody ihk =>
    intro n m m' e h
    rw [exec_caught] at h
    rcases followed_error h with hbody | ⟨r, m1, -, hrest⟩
    · rcases hexec : exec less body n m with ⟨e' | v, m1⟩ <;> rw [hexec] at hbody
      · rcases ihbody hexec with rfl | ⟨message, rfl⟩
        · cases hbody
          exact .inl rfl
        · cases hbody
      · cases hbody
    · exact ihk r hrest
  | sort arr dir k ih =>
    intro n m m' e h
    rcases followed_error h with hsort | ⟨r, m1, -, hrest⟩
    · rcases (number_sorts_right arr dir n m).ends e m' hsort with hlost | hraised |
        ⟨p1, p2, m1, m2, hfails⟩
      · exact .inl hlost
      · exact .inr hraised
      · exact .inr (number_compare_fault hfails)
    · exact ih r hrest
  | sort_by arr setup callback k ihcallback ihk =>
    intro n m m' e h
    rcases followed_error h with hsort | ⟨r, m1, -, hrest⟩
    · rcases (callback_sorts_right less arr setup _ n m).ends e m' hsort with
        hlost | hraised | ⟨p1, p2, m1, m2, hfails⟩
      · exact .inl hlost
      · exact .inr hraised
      · exact ihcallback p1 p2 (callback_compare_fault hfails)
    · exact ihk r hrest

theorem own_finish_fault {inside : Bool} {r : ended (own_state R) (List (svalue_t R))}
    {s' : own_state R} (h : own_finish inside r = (.error e, s')) : ∃ s, r = (.error e, s) := by
  rcases r with ⟨e' | item, s⟩
  · obtain ⟨h, -⟩ := Prod.mk.inj h
    cases h
    exact ⟨s, rfl⟩
  · cases h

theorem own_run_ends (t : code R) : ∀ {inside : Bool} {s s' : own_state R} {e : fault},
    own_run less t inside s = (.error e, s') → ∃ message, e = .raised message := by
  induction t with
  | done v =>
    intro inside s s' e h
    cases h
  | error message =>
    intro inside s s' e h
    cases h
    exact ⟨message, rfl⟩
  | act f k ih =>
    intro inside s s' e h
    exact ih (f s.data) h
  | caught body k ihbody ihk =>
    intro inside s s' e h
    rw [own_run_caught] at h
    rcases followed_error h with hbody | ⟨r, s1, -, hrest⟩
    · rcases hrun : own_run less body inside s with ⟨e' | v, s1⟩ <;> rw [hrun] at hbody
      · obtain ⟨message, rfl⟩ := ihbody hrun
        cases hbody
      · cases hbody
    · exact ihk r hrest
  | sort arr dir k ih =>
    intro inside s s' e h
    rcases followed_error h with hsort | ⟨r, s1, -, hrest⟩
    · unfold own_sort at hsort
      rcases followed_error hsort with hfails | ⟨item, s1, -, hpush⟩
      · obtain ⟨x, y, s1, s2, -, -, hcompare⟩ := quickSort_error (P := fun _ => True) hfails
          fun _ _ => trivial
        exact number_compare_fault hcompare
      · cases hpush
    · exact ih r hrest
  | sort_by arr setup callback k ihcallback ihk =>
    intro inside s s' e h
    rcases followed_error h with hsort | ⟨r, s1, -, hrest⟩
    · rw [own_sort_finish] at hsort
      obtain ⟨s1, hcopy⟩ := own_finish_fault hsort
      unfold own_sorted_copy at hcopy
      split at hcopy
      · cases hcopy
        exact ⟨_, rfl⟩
      · obtain ⟨x, y, s1, s2, -, -, hcompare⟩ := quickSort_error (P := fun _ => True) hcopy
          fun _ _ => trivial
        exact ihcallback x y (callback_compare_fault hcompare)
    · exact ihk r hrest

end runs

/-! ## The law -/

/-- What is asked of `sort_array` in a run of code, which `sort_array_ftc` may start with any
place. -/
structure Right {R : Type} (less : R → R → Bool) (t : code R) (d : data R) (ptr : Option Nat) :
    Prop where
  sorts : ∀ tmp arg ftc m, SortsRight less tmp arg ftc m
  homogeneous : ∀ tmp dir ftc (m : machine R),
    Homogeneous less (check_for_destr m.data tmp) ((check_for_destr m.data tmp).item tmp) →
    ∃ item, f_sort_array less tmp (.number dir) ftc m =
        (.ok (check_for_destr m.data tmp).arrays.length,
          { m with data := (check_for_destr m.data tmp).push_array item }) ∧
      item.Perm ((check_for_destr m.data tmp).item tmp) ∧
      item.Pairwise (in_order less (check_for_destr m.data tmp) dir)
  ends : ∀ e m', exec less t 0 ⟨d, ptr, []⟩ = (.error e, m') → ∃ message, e = .raised message
  enclosing : ∀ e ∈ (exec less t 0 ⟨d, ptr, []⟩).2.left, RightEnd e

/-- A callback that evaluates `catch(sort_array(({ 1, 2 }), (: error("*No order.\n") :)))`. -/
def catching (_ _ : svalue_t Int) : code Int :=
  .caught (.sort_by 1 (fun _ => none) (fun _ _ => .error "*No order.\n") fun _ => .done none)
    fun _ => .done (some (.number 0))

end mudos.sort_array

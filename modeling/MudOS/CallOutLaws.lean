-- The laws of the call_outs: while no call is made into the slot being
-- served, each call fires once and at its due tick, and each query tells the
-- time that is left, except for the calls of the slot being served.
import MudOS.CallOut
import Mathlib.Data.List.Nodup
import Mathlib.Data.List.Perm.Basic

open mudos.deltas mudos.runs List

namespace mudos.call_out

variable {cop : pending_call_t} {delay : Int} {p : pending_call_t → Bool}
variable {next : DeltaList pending_call_t}

/-! ## Times and slots -/

theorem int32_eq {x : Int} (h1 : -2147483648 ≤ x) (h2 : x ≤ INT_MAX) : int32 x = x := by
  unfold int32
  simp only [INT_MAX] at h2
  omega

theorem slot_of_lt (x : Int) : slot_of x < 32 := by
  simp only [slot_of, CALLOUT_CYCLE_SIZE]
  omega

theorem slot_of_eq_iff {x : Int} {i : Nat} : slot_of x = i ↔ x % 32 = i := by
  simp only [slot_of, CALLOUT_CYCLE_SIZE]
  omega

def units (s : call_out_t) (i : Nat) (due : Int) : Int :=
  if Serving s i then (due - s.call_out_time - 1) / 32
  else 1 + (due - s.call_out_time - 1) / 32

structure Placed (s : call_out_t) (i : Nat) (x : Int × pending_call_t) : Prop where
  slot : slot_of x.2.due = i
  later : s.call_out_time < x.2.due
  sum : x.1 = units s i x.2.due
  handle : slot_of x.2.handle = i

theorem units_serving {s : call_out_t} {i : Nat} (h : Serving s i) (due : Int) :
    units s i due = (due - s.call_out_time - 1) / 32 := if_pos h

theorem units_not_serving {s : call_out_t} {i : Nat} (h : ¬ Serving s i) (due : Int) :
    units s i due = 1 + (due - s.call_out_time - 1) / 32 := if_neg h

section

variable {s s' : call_out_t} (hc : s'.call_out_time = s.call_out_time) (hr : s'.running = s.running)

include hc hr

theorem serving_same (i : Nat) : Serving s' i ↔ Serving s i := by rw [Serving, Serving, hc, hr]

theorem units_same (i : Nat) (due : Int) : units s' i due = units s i due := by
  by_cases h : Serving s i
  · rw [units_serving h, units_serving ((serving_same hc hr i).2 h), hc]
  · rw [units_not_serving h, units_not_serving (mt (serving_same hc hr i).1 h), hc]

theorem Placed.same {i : Nat} {x : Int × pending_call_t} (h : Placed s i x) : Placed s' i x :=
  ⟨h.slot, hc ▸ h.later, by rw [h.sum, units_same hc hr], h.handle⟩

end

/-! ## One slot changes -/

section

variable (s : call_out_t) (i : Nat) (l : DeltaList pending_call_t)

@[simp] theorem set_list_self : (s.set_list i l).call_list i = l := by simp [call_out_t.set_list]

theorem set_list_ne {j : Nat} (h : j ≠ i) : (s.set_list i l).call_list j = s.call_list j := by
  simp [call_out_t.set_list, h]

@[simp] theorem set_list_call_out_time : (s.set_list i l).call_out_time = s.call_out_time := rfl
@[simp] theorem set_list_current_time : (s.set_list i l).current_time = s.current_time := rfl
@[simp] theorem set_list_running : (s.set_list i l).running = s.running := rfl
@[simp] theorem set_list_destructed : (s.set_list i l).destructed = s.destructed := rfl
@[simp] theorem set_list_made : (s.set_list i l).made = s.made := rfl
@[simp] theorem set_list_fired : (s.set_list i l).fired = s.fired := rfl
@[simp] theorem set_list_removed : (s.set_list i l).removed = s.removed := rfl
@[simp] theorem set_list_dropped : (s.set_list i l).dropped = s.dropped := rfl

end

theorem count_slots {α : Type*} [BEq α] (a : α) {f g : Nat → List α} {i : Nat}
    (h : ∀ j, j ≠ i → f j = g j) (n : Nat) :
    ((range n).flatMap f).count a + (if i < n then (g i).count a else 0) =
      ((range n).flatMap g).count a + (if i < n then (f i).count a else 0) := by
  induction n with
  | zero => rfl
  | succ n ih =>
    rw [range_succ, flatMap_append, flatMap_append, count_append,
      count_append]
    simp only [flatMap_cons, flatMap_nil, append_nil]
    by_cases hi : i = n
    · subst hi
      simp only [Nat.lt_irrefl, if_false, Nat.lt_succ_self, if_true] at ih ⊢
      omega
    · rw [h n (Ne.symm hi)]
      by_cases hlt : i < n
      · simp only [hlt, if_true, Nat.lt_succ_of_lt hlt] at ih ⊢
        omega
      · have hlt' : ¬ i < n + 1 := by omega
        simp only [hlt, if_false, hlt'] at ih ⊢
        omega

theorem count_pending (s s' : call_out_t) {i : Nat} (hi : i < 32)
    (h : ∀ j, j ≠ i → s'.call_list j = s.call_list j) (cop : pending_call_t) :
    s'.pending.count cop + ((s.call_list i).map Prod.snd).count cop =
      s.pending.count cop + ((s'.call_list i).map Prod.snd).count cop := by
  have := count_slots cop (f := fun j => (s'.call_list j).map Prod.snd)
    (g := fun j => (s.call_list j).map Prod.snd) (i := i) (fun j hj => by rw [h j hj]) 32
  simpa only [hi, if_true, call_out_t.pending] using this

/-! ## The invariant -/

structure Wheel (s : call_out_t) : Prop where
  placed : ∀ i, ∀ x ∈ offsets 0 (s.call_list i), Placed s i x
  rising : ∀ i, Rising (s.call_list i)
  now_pos : 0 < s.current_time
  time_le : s.call_out_time ≤ s.current_time
  time_nonneg : 0 ≤ s.call_out_time
  /-- Nothing is pending before the first call sets the clock of the wheel. -/
  unset : s.call_out_time = 0 → s.running = false ∧ ∀ i, s.call_list i = []
  running_lt : s.running = true → s.call_out_time < s.current_time

theorem Wheel.update {s s' : call_out_t} (h : Wheel s) (hc : s'.call_out_time = s.call_out_time)
    (hr : s'.running = s.running) (hcur : s.current_time ≤ s'.current_time)
    (hplaced : ∀ i, ∀ x ∈ offsets 0 (s'.call_list i), Placed s i x)
    (hrising : ∀ i, Rising (s'.call_list i))
    (hunset : s.call_out_time = 0 → ∀ i, s'.call_list i = []) : Wheel s' where
  placed i x hx := Placed.same hc hr (hplaced i x hx)
  rising := hrising
  now_pos := Int.lt_of_lt_of_le h.now_pos hcur
  time_le := hc ▸ Int.le_trans h.time_le hcur
  time_nonneg := hc ▸ h.time_nonneg
  unset hz := ⟨hr.trans (h.unset (hc ▸ hz)).1, hunset (hc ▸ hz)⟩
  running_lt hrun := hc ▸ Int.lt_of_lt_of_le (h.running_lt (hr ▸ hrun)) hcur

structure Kept (s : call_out_t) : Prop where
  once : ∀ cop, s.pending.count cop + (s.fired.map Prod.fst).count cop + s.removed.count cop +
    s.dropped.count cop = s.made.count cop
  serials : s.made.map pending_call_t.serial = (range s.made.length).reverse
  fired_due : ∀ f ∈ s.fired, f.2 = f.1.due
  dropped_destructed : ∀ cop ∈ s.dropped, s.ob_destructed cop = true

theorem mem_pending {s : call_out_t} :
    cop ∈ s.pending ↔ ∃ i < 32, ∃ x ∈ offsets 0 (s.call_list i), x.2 = cop := by
  have hmap : ∀ i, (∃ x ∈ offsets 0 (s.call_list i), x.2 = cop) ↔
      cop ∈ (s.call_list i).map Prod.snd := fun i => by
    rw [← offsets_map_snd 0, mem_map]
  simp [call_out_t.pending, hmap]

theorem Kept.count_le_one {s : call_out_t} (h : Kept s) (cop : pending_call_t) :
    s.made.count cop ≤ 1 := by
  have hnodup : s.made.Nodup := by
    apply List.Nodup.of_map pending_call_t.serial
    rw [h.serials, nodup_reverse]
    exact nodup_range
  exact nodup_iff_count_le_one.1 hnodup cop

theorem count_fired {l : List (pending_call_t × Int)} (h : ∀ f ∈ l, f.2 = f.1.due)
    (cop : pending_call_t) : l.count (cop, cop.due) = (l.map Prod.fst).count cop := by
  induction l with
  | nil => rfl
  | cons f l ih =>
    simp only [mem_cons, forall_eq_or_imp] at h
    obtain ⟨fired, tick⟩ := f
    simp only at h
    rw [count_cons, map_cons, count_cons, ih h.2, h.1]
    congr 1
    by_cases hf : fired = cop
    · subst hf
      simp
    · simp [hf]

theorem on_time {s : call_out_t} (hw : Wheel s) (hk : Kept s) : OnTime s := by
  have hlater : ∀ cop ∈ s.pending, s.call_out_time < cop.due := fun cop hcop => by
    obtain ⟨i, -, x, hx, rfl⟩ := mem_pending.1 hcop
    exact (hw.placed i x hx).later
  refine ⟨?_, ?_, hk.fired_due, hlater, hk.dropped_destructed, ?_, ?_⟩
  · rw [perm_iff_count]
    intro cop
    simp only [count_append]
    exact hk.once cop
  · rw [hk.serials, nodup_reverse]
    exact nodup_range
  · intro cop hmade hdue hremoved hdropped
    have hone := hk.once cop
    have hle := hk.count_le_one cop
    have hpending : cop ∉ s.pending := fun hp => by
      have := hlater cop hp
      omega
    have hpos := count_pos_iff.2 hmade
    rw [count_eq_zero_of_not_mem hpending, count_eq_zero_of_not_mem hremoved,
      count_eq_zero_of_not_mem hdropped] at hone
    rw [count_fired hk.fired_due]
    omega
  · intro cop hremoved hfired
    have hone := hk.once cop
    have hle := hk.count_le_one cop
    have h1 := count_pos_iff.2 hremoved
    have h2 := count_pos_iff.2 hfired
    omega

/-! ## The clock of the wheel is set -/

theorem init_time_wheel {s : call_out_t} (h : Wheel s) :
    Wheel (init_time s) ∧ (init_time s).call_out_time ≠ 0 := by
  have hpos := h.now_pos
  unfold init_time
  split
  · rename_i hzero
    obtain ⟨hrun, hnil⟩ := h.unset hzero
    refine ⟨⟨fun i x hx => ?_, h.rising, hpos, Int.le_refl _, by simp only; omega, ?_, ?_⟩, ?_⟩
    · simp [hnil i] at hx
    · exact fun _ => ⟨hrun, hnil⟩
    · rw [hrun]
      intro hn
      cases hn
    · simp only
      omega
  · rename_i hne
    exact ⟨h, hne⟩

@[simp] theorem init_time_call_list (s : call_out_t) : (init_time s).call_list = s.call_list := by
  unfold init_time
  split <;> rfl

@[simp] theorem init_time_current_time (s : call_out_t) :
    (init_time s).current_time = s.current_time := by
  unfold init_time
  split <;> rfl

@[simp] theorem init_time_running (s : call_out_t) : (init_time s).running = s.running := by
  unfold init_time
  split <;> rfl

theorem init_time_kept {s : call_out_t} (h : Kept s) : Kept (init_time s) := by
  unfold init_time
  split
  · exact ⟨h.once, h.serials, h.fired_due, h.dropped_destructed⟩
  · exact h

theorem serving_init_time {s : call_out_t} (h : Wheel s) {i : Nat} :
    Serving (init_time s) i ↔ Serving s i := by
  unfold init_time
  split
  · rename_i hzero
    simp [Serving, (h.unset hzero).1]
  · rfl

/-! ## A new call -/

theorem new_call_out_wheel {s : call_out_t} {fun_ : string_or_func} (h : Wheel s)
    (hok : NoCallIntoServedSlot s (.new_call_out fun_ delay)) :
    Wheel (new_call_out s fun_ delay).2 := by
  obtain ⟨hslot, hmax⟩ := hok
  obtain ⟨hw, hne⟩ := init_time_wheel h
  rw [← serving_init_time h] at hslot
  have hcur := init_time_current_time s
  simp only [new_call_out]
  rw [show (if delay < 1 then 1 else delay) = max delay 1 by split <;> omega]
  generalize hd : max delay 1 = d at *
  generalize init_time s = t at *
  rw [← hcur] at hslot hmax
  clear hcur h s
  have hle := hw.time_le
  have hnonneg := hw.time_nonneg
  rw [int32_eq (x := d + t.current_time) (by omega) (by omega),
    int32_eq (x := d + t.current_time - t.call_out_time - 1) (by omega) (by omega),
    Int.tdiv_eq_ediv_of_nonneg (by omega), Int.add_comm d t.current_time]
  have hlt := slot_of_lt (t.current_time + d)
  generalize hi : slot_of (t.current_time + d) = i at *
  have hunits : 1 + (t.current_time + d - t.call_out_time - 1) / 32 = units t i (t.current_time + d) :=
    (units_not_serving hslot _).symm
  rw [hunits]
  refine hw.update rfl rfl (Int.le_refl _) (fun j x hx => ?_) (fun j => ?_) fun hz => absurd hz hne
  · by_cases hj : j = i
    · subst hj
      simp only [set_list_self] at hx
      obtain ⟨before, after, h1, h2⟩ := offsets_insertAt
        (⟨fun_, int32 (j + CALLOUT_CYCLE_SIZE * int32 (t.unique + 1)), t.made.length,
          t.current_time + d⟩ : pending_call_t) 0 (units t j (t.current_time + d)) (t.call_list j)
      rw [h2] at hx
      rcases mem_append.1 hx with hx | hx
      · exact hw.placed j x (by rw [h1]; exact mem_append_left _ hx)
      rcases mem_cons.1 hx with rfl | hx
      · refine ⟨hi, by simp only; omega, Int.zero_add _, ?_⟩
        rw [slot_of_eq_iff]
        simp only [int32, CALLOUT_CYCLE_SIZE]
        omega
      · exact hw.placed j x (by rw [h1]; exact mem_append_right _ hx)
    · simp only [set_list_ne _ _ _ hj] at hx
      exact hw.placed j x hx
  · by_cases hj : j = i
    · subst hj
      simp only [set_list_self]
      refine (hw.rising j).insertAt ?_
      rw [← hunits]
      omega
    · simp only [set_list_ne _ _ _ hj]
      exact hw.rising j

theorem count_insertAt (a : pending_call_t) (d : Int) (l : DeltaList pending_call_t)
    (cop : pending_call_t) :
    ((insertAt a d l).map Prod.snd).count cop = (l.map Prod.snd).count cop + [a].count cop := by
  obtain ⟨before, after, h1, h2⟩ := offsets_insertAt a 0 d l
  rw [← offsets_map_snd 0 l, ← offsets_map_snd 0 (insertAt a d l), h1, h2]
  simp only [map_append, map_cons, count_append, count_cons, count_nil]
  omega

theorem new_call_out_kept {s : call_out_t} {fun_ : string_or_func} (h : Kept s) :
    Kept (new_call_out s fun_ delay).2 := by
  have hk := init_time_kept h
  simp only [new_call_out]
  generalize init_time s = t at *
  generalize (if delay < 1 then 1 else delay) = d
  generalize hi : slot_of (int32 (d + t.current_time)) = i
  generalize 1 + (int32 (d + t.current_time - t.call_out_time - 1)).tdiv CALLOUT_CYCLE_SIZE = k
  generalize hcop : (⟨fun_, int32 (i + CALLOUT_CYCLE_SIZE * int32 (t.unique + 1)), t.made.length,
    t.current_time + d⟩ : pending_call_t) = cop
  have hlt : i < 32 := hi ▸ slot_of_lt _
  refine ⟨fun c => ?_, ?_, hk.fired_due, hk.dropped_destructed⟩
  · have hpending := count_pending t { t.set_list i (insertAt cop k (t.call_list i)) with
      unique := int32 (t.unique + 1), made := cop :: t.made } hlt
      (fun j hj => set_list_ne _ _ _ hj) c
    simp only [set_list_self, count_insertAt] at hpending
    have := hk.once c
    simp only [set_list_fired, set_list_removed, set_list_dropped, count_cons, count_nil]
      at hpending this ⊢
    omega
  · simp only [map_cons, length_cons, range_succ, reverse_append, hk.serials]
    rw [← hcop]
    rfl

/-! ## Calls are removed -/

theorem locate_split {l : DeltaList pending_call_t} (h : locate p l = some (delay, cop)) :
    ∃ before after, offsets 0 l = before ++ (delay, cop) :: after ∧
      offsets 0 (removeFirst p l) = before ++ after ∧ (∀ x ∈ before, p x.2 = false) ∧
      p cop = true := by
  obtain ⟨hp, before, after, hl, hbefore⟩ := find?_eq_some_iff_append.1 h
  have hno : ∀ x ∈ before, p x.2 = false := fun x hx => by simpa using hbefore x hx
  refine ⟨before, after, hl, ?_, hno, hp⟩
  rw [offsets_removeFirst, hl, eraseP_append_right _ fun x hx => by simp [hno x hx],
    eraseP_cons_of_pos (by exact hp)]

theorem search_some {s : call_out_t} {i : Nat} (h : search s p = some (i, delay, cop)) :
    i < 32 ∧ locate p (s.call_list i) = some (delay, cop) := by
  obtain ⟨j, hj, hloc⟩ := exists_of_findSome?_eq_some h
  obtain ⟨x, hx, he⟩ := Option.map_eq_some_iff.mp hloc
  cases he
  exact ⟨mem_range.1 hj, hx⟩

theorem Wheel.sublists {s s' : call_out_t} (h : Wheel s) (hc : s'.call_out_time = s.call_out_time)
    (hr : s'.running = s.running) (hcur : s'.current_time = s.current_time)
    (hsub : ∀ i, (offsets 0 (s'.call_list i)).Sublist (offsets 0 (s.call_list i)))
    (hrising : ∀ i, Rising (s'.call_list i)) : Wheel s' := by
  refine h.update hc hr (hcur ▸ Int.le_refl _) (fun i x hx => h.placed i x ((hsub i).subset hx))
    hrising fun hz i => ?_
  have hnil := hsub i
  rw [(h.unset hz).2 i, offsets_nil, sublist_nil] at hnil
  have := congrArg (map Prod.snd) hnil
  rw [offsets_map_snd] at this
  simpa using this

theorem unlink_wheel {s : call_out_t} {i : Nat} (h : Wheel s) : Wheel (unlink s p i cop) := by
  refine h.sublists rfl rfl rfl (fun j => ?_) fun j => ?_
  · by_cases hj : j = i
    · subst hj
      simp only [unlink, set_list_self, offsets_removeFirst]
      exact eraseP_sublist
    · simp only [unlink, set_list_ne _ _ _ hj]
      exact List.Sublist.refl _
  · by_cases hj : j = i
    · subst hj
      simp only [unlink, set_list_self]
      exact (h.rising j).removeFirst
    · simp only [unlink, set_list_ne _ _ _ hj]
      exact h.rising j

theorem unlink_kept {s : call_out_t} {i : Nat} (h : Kept s) (hi : i < 32)
    (hloc : locate p (s.call_list i) = some (delay, cop)) : Kept (unlink s p i cop) := by
  refine ⟨fun c => ?_, h.serials, h.fired_due, h.dropped_destructed⟩
  obtain ⟨before, after, h1, h2, -⟩ := locate_split hloc
  have hpending := count_pending s (unlink s p i cop) hi
    (fun j hj => set_list_ne _ _ _ hj) c
  have hlist : (unlink s p i cop).call_list i = removeFirst p (s.call_list i) := set_list_self _ _ _
  rw [hlist, ← offsets_map_snd 0 (s.call_list i), ← offsets_map_snd 0 (removeFirst p _), h1, h2]
    at hpending
  have := h.once c
  simp only [unlink, set_list_fired, set_list_dropped, set_list_made,
    map_append, map_cons, count_append, count_cons] at hpending this ⊢
  omega

theorem remove_all_call_out_wheel {s : call_out_t} (h : Wheel s) (obj : Nat) :
    Wheel (remove_all_call_out s obj) := by
  refine h.sublists rfl rfl rfl (fun i => ?_) fun i => ?_
  · simp only [remove_all_call_out]
    split
    · rw [offsets_removeAll, Int.zero_add]
      exact filter_sublist
    · exact List.Sublist.refl _
  · simp only [remove_all_call_out]
    split
    · exact (h.rising i).removeAll (Int.le_refl 0)
    · exact h.rising i

theorem count_removeAll (p : pending_call_t → Bool) (l : DeltaList pending_call_t)
    (cop : pending_call_t) :
    ((removeAll p 0 l).map Prod.snd).count cop + ((l.map Prod.snd).filter p).count cop =
      (l.map Prod.snd).count cop := by
  have hkeep : (removeAll p 0 l).map Prod.snd = (l.map Prod.snd).filter fun x => !p x := by
    rw [← offsets_map_snd 0 (removeAll p 0 l), offsets_removeAll, ← offsets_map_snd (0 + 0) l,
      filter_map]
    rfl
  rw [hkeep, Nat.add_comm]
  induction l.map Prod.snd with
  | nil => rfl
  | cons x xs ih =>
    cases hp : p x <;> simp only [filter_cons, hp, Bool.not_true, Bool.not_false, if_true,
      Bool.false_eq_true, if_false, count_cons] <;> omega

theorem count_flatMap_add {α : Type*} [BEq α] {f g k : Nat → List α} {n : Nat} (cop : α)
    (h : ∀ i < n, (f i).count cop + (g i).count cop = (k i).count cop) :
    ((range n).flatMap f).count cop + ((range n).flatMap g).count cop =
      ((range n).flatMap k).count cop := by
  induction n with
  | zero => rfl
  | succ n ih =>
    have h1 := ih fun i hi => h i (Nat.lt_succ_of_lt hi)
    have h2 := h n (Nat.lt_succ_self n)
    simp only [range_succ, flatMap_append, count_append, flatMap_cons,
      flatMap_nil, append_nil]
    omega

theorem remove_all_call_out_kept {s : call_out_t} (h : Kept s) (obj : Nat) :
    Kept (remove_all_call_out s obj) := by
  refine ⟨fun c => ?_, h.serials, h.fired_due, h.dropped_destructed⟩
  have hsplit := count_flatMap_add (n := 32) c
    (f := fun i => ((remove_all_call_out s obj).call_list i).map Prod.snd)
    (g := fun i => ((s.call_list i).map Prod.snd).filter (s.belongs obj))
    (k := fun i => (s.call_list i).map Prod.snd) fun i hi => by
      simp only [remove_all_call_out, hi, if_true]
      exact count_removeAll _ _ _
  have := h.once c
  simp only [call_out_t.pending] at this ⊢
  simp only [remove_all_call_out, count_append] at hsplit this ⊢
  omega

/-! ## A tick -/

/-- What the wheel is when the rest of the slot is `l`, during the loop. -/
def during (s : call_out_t) (l : DeltaList pending_call_t) : call_out_t :=
  { s.set_list (slot_of (s.call_out_time + 1)) l with running := true }

theorem serving_during {s : call_out_t} {l : DeltaList pending_call_t} {i : Nat} :
    Serving (during s l) i ↔ i = slot_of (s.call_out_time + 1) := by simp [Serving, during]

theorem end_tick_wheel {s : call_out_t} {l : DeltaList pending_call_t} (h : Wheel (during s l))
    (hl : ∀ x ∈ offsets 0 l, 0 < x.1) :
    Wheel { s.set_list (slot_of (s.call_out_time + 1)) l with
      running := false, call_out_time := s.call_out_time + 1 } := by
  have hlt : s.call_out_time < s.current_time := h.running_lt rfl
  have hnonneg : 0 ≤ s.call_out_time := h.time_nonneg
  refine ⟨fun i x hx => ?_, h.rising, h.now_pos, ?_, ?_, ?_, ?_⟩
  · have hp := h.placed i x hx
    obtain ⟨hslot, hlater, hsum, hhandle⟩ := hp
    simp only [during, set_list_call_out_time] at hlater
    rw [slot_of_eq_iff] at hslot
    have hnot : ∀ t : call_out_t, t.running = false → ¬ Serving t i := fun t ht hs => by
      simp [hs.1] at ht
    by_cases hi : i = slot_of (s.call_out_time + 1)
    · rw [units_serving (serving_during.2 hi)] at hsum
      simp only [during, set_list_call_out_time] at hsum
      rw [hi, set_list_self] at hx
      have hpos := hl x hx
      have hi' := slot_of_eq_iff.1 hi.symm
      refine ⟨slot_of_eq_iff.2 hslot, by simp only; omega, ?_, hhandle⟩
      rw [units_not_serving (hnot _ rfl)]
      simp only
      omega
    · rw [units_not_serving (mt serving_during.1 hi)] at hsum
      simp only [during, set_list_call_out_time] at hsum
      have hi' : (s.call_out_time + 1) % 32 ≠ i := fun he => hi (slot_of_eq_iff.2 he).symm
      refine ⟨slot_of_eq_iff.2 hslot, by simp only; omega, ?_, hhandle⟩
      rw [units_not_serving (hnot _ rfl)]
      simp only
      omega
  · simp only [set_list_current_time]
    omega
  · simp only
    omega
  · intro hz
    simp only at hz
    omega
  · nofun

theorem end_tick_kept {s : call_out_t} {l : DeltaList pending_call_t} (h : Kept (during s l)) :
    Kept { s.set_list (slot_of (s.call_out_time + 1)) l with
      running := false, call_out_time := s.call_out_time + 1 } :=
  ⟨h.once, h.serials, h.fired_due, h.dropped_destructed⟩

theorem during_tail {s : call_out_t} (s' : call_out_t) {delta : Int}
    (h : Wheel (during s ((delta, cop) :: next))) (hdelta : delta = 0)
    (hc : s'.call_out_time = s.call_out_time) (hcur : s'.current_time = s.current_time)
    (hlist : s'.call_list = s.call_list) : Wheel (during s' next) := by
  subst hdelta
  refine h.sublists hc rfl hcur (fun i => ?_) fun i => ?_
  · by_cases hi : i = slot_of (s.call_out_time + 1)
    · subst hi
      simp only [during, hc, set_list_self, offsets_cons, Int.add_zero]
      exact sublist_cons_self _ _
    · simp only [during, hc, set_list_ne _ _ _ hi, hlist]
      exact List.Sublist.refl _
  · have hrise := h.rising i
    by_cases hi : i = slot_of (s.call_out_time + 1)
    · subst hi
      simp only [during, hc, set_list_self] at hrise ⊢
      exact fun x hx => hrise x (mem_cons_of_mem _ hx)
    · simp only [during, hc, set_list_ne _ _ _ hi, hlist] at hrise ⊢
      exact hrise

theorem due_of_during {s : call_out_t} (h : Wheel (during s ((0, cop) :: next))) :
    s.call_out_time + 1 = cop.due := by
  have hp := h.placed (slot_of (s.call_out_time + 1)) (0, cop) (by simp [during])
  obtain ⟨hslot, hlater, hsum, -⟩ := hp
  rw [units_serving (serving_during.2 rfl)] at hsum
  simp only [during, set_list_call_out_time] at hsum hlater hslot
  have h1 := slot_of_eq_iff.1 hslot
  have h2 := slot_of_eq_iff.1 (rfl : slot_of (s.call_out_time + 1) = slot_of (s.call_out_time + 1))
  omega

theorem count_during {s : call_out_t} {delta : Int} (c : pending_call_t) :
    (during s ((delta, cop) :: next)).pending.count c =
      (during s next).pending.count c + [cop].count c := by
  have := count_pending (during s ((delta, cop) :: next)) (during s next)
    (slot_of_lt (s.call_out_time + 1)) (fun j hj => by
      simp only [during, set_list_ne _ _ _ hj]) c
  simp only [during, set_list_self, map_cons, count_cons, count_nil] at this ⊢
  omega

theorem serve_sound (l : DeltaList pending_call_t) {s : call_out_t} (hw : Wheel (during s l))
    (hk : Kept (during s l)) :
    Wheel (serve (slot_of (s.call_out_time + 1)) l s) ∧
      Kept (serve (slot_of (s.call_out_time + 1)) l s) := by
  induction l generalizing s with
  | nil => exact ⟨end_tick_wheel hw (by simp), end_tick_kept hk⟩
  | cons x next ih =>
    obtain ⟨delta, cop⟩ := x
    unfold serve
    by_cases hdelta : delta = 0
    · subst hdelta
      simp only [if_true]
      by_cases hdest : s.ob_destructed cop = true
      · -- the call of a destructed object is freed
        simp only [hdest, if_true]
        apply ih (s := { s with dropped := cop :: s.dropped })
        · exact during_tail _ hw rfl rfl rfl rfl
        · refine ⟨fun c => ?_, hk.serials, hk.fired_due, fun c hc => ?_⟩
          · have h1 := hk.once c
            rw [count_during] at h1
            change (during s next).pending.count c + (s.fired.map Prod.fst).count c +
              s.removed.count c + (cop :: s.dropped).count c = s.made.count c
            change (during s next).pending.count c + [cop].count c +
              (s.fired.map Prod.fst).count c + s.removed.count c + s.dropped.count c =
                s.made.count c at h1
            simp only [count_cons, count_nil] at h1 ⊢
            omega
          · rcases mem_cons.1 hc with rfl | hc
            · exact hdest
            · exact hk.dropped_destructed c hc
      · simp only [hdest]
        have htail := during_tail s hw rfl rfl rfl rfl
        have hdue := due_of_during hw
        refine ⟨htail.sublists rfl rfl rfl (fun i => List.Sublist.refl _) htail.rising, ?_⟩
        refine ⟨fun c => ?_, hk.serials, fun f hf => ?_, hk.dropped_destructed⟩
        · have h1 := hk.once c
          rw [count_during] at h1
          change (during s next).pending.count c +
            (cop :: s.fired.map Prod.fst).count c + s.removed.count c + s.dropped.count c =
              s.made.count c
          change (during s next).pending.count c + [cop].count c +
            (s.fired.map Prod.fst).count c + s.removed.count c + s.dropped.count c =
              s.made.count c at h1
          simp only [count_cons, count_nil] at h1 ⊢
          omega
        · rcases mem_cons.1 hf with rfl | hf
          · exact hdue
          · exact hk.fired_due f hf
    · simp only [hdelta, if_false]
      have hrise := hw.rising (slot_of (s.call_out_time + 1))
      simp only [during, set_list_self, Rising, mem_cons, forall_eq_or_imp] at hrise
      refine ⟨end_tick_wheel hw fun x hx => ?_, end_tick_kept hk⟩
      simp only [offsets_cons, mem_cons] at hx
      rcases hx with rfl | hx
      · simp only
        omega
      · have := Rising.le_offset hrise.2 x hx
        omega

theorem begin_during {s : call_out_t} (h : Wheel s) (hrun : s.running = false)
    (hlt : s.call_out_time < s.current_time) (hne : s.call_out_time ≠ 0) :
    Wheel (during s (addHead (-1) (s.call_list (slot_of (s.call_out_time + 1))))) := by
  have hnot : ∀ i, ¬ Serving s i := fun i hs => by
    simp [hs.1] at hrun
  have hshift : ∀ {b : Int} {l : DeltaList pending_call_t} {x : Int × pending_call_t},
      x ∈ offsets (b - 1) l → (x.1 + 1, x.2) ∈ offsets b l := by
    intro b l
    induction l generalizing b with
    | nil => simp
    | cons y l ih =>
      intro x hx
      simp only [offsets_cons, mem_cons] at hx ⊢
      rcases hx with rfl | hx
      · left
        simp only [Prod.mk.injEq, and_true]
        omega
      · right
        exact ih (by rwa [show b + y.1 - 1 = b - 1 + y.1 by omega])
  refine ⟨fun i x hx => ?_, fun i => ?_, h.now_pos, h.time_le, h.time_nonneg,
    fun hz => absurd hz hne, fun _ => hlt⟩
  · by_cases hi : i = slot_of (s.call_out_time + 1)
    · subst hi
      simp only [during, set_list_self, offsets_addHead, Int.zero_add] at hx
      have hp := h.placed _ _ (hshift (b := 0) (by simpa using hx))
      obtain ⟨hslot, hlater, hsum, hhandle⟩ := hp
      refine ⟨hslot, hlater, ?_, hhandle⟩
      rw [units_not_serving (hnot _)] at hsum
      rw [units_serving (serving_during.2 rfl)]
      simp only [during, set_list_call_out_time] at hsum ⊢
      omega
    · simp only [during, set_list_ne _ _ _ hi] at hx
      obtain ⟨hslot, hlater, hsum, hhandle⟩ := h.placed i x hx
      refine ⟨hslot, hlater, ?_, hhandle⟩
      rw [units_not_serving (hnot _)] at hsum
      rwa [units_not_serving (mt serving_during.1 hi)]
  · by_cases hi : i = slot_of (s.call_out_time + 1)
    · subst hi
      simp only [during, set_list_self]
      have hrise := h.rising (slot_of (s.call_out_time + 1))
      have hplaced := h.placed (slot_of (s.call_out_time + 1))
      cases hl : s.call_list (slot_of (s.call_out_time + 1)) with
      | nil => exact fun x hx => by cases hx
      | cons y l =>
        rw [hl] at hrise hplaced
        have hp := hplaced (0 + y.1, y.2) (by simp)
        have hsum := hp.sum
        have hlater := hp.later
        rw [units_not_serving (hnot _)] at hsum
        simp only [Rising, mem_cons, forall_eq_or_imp, addHead] at hrise ⊢
        simp only at hsum hlater
        exact ⟨by omega, hrise.2⟩
    · simp only [during, set_list_ne _ _ _ hi]
      exact h.rising i


theorem count_addHead (d : Int) (l : DeltaList pending_call_t) (cop : pending_call_t) :
    ((addHead d l).map Prod.snd).count cop = (l.map Prod.snd).count cop := by cases l <;> rfl

theorem begin_during_kept {s : call_out_t} (h : Kept s) :
    Kept (during s (addHead (-1) (s.call_list (slot_of (s.call_out_time + 1))))) := by
  refine ⟨fun c => ?_, h.serials, h.fired_due, h.dropped_destructed⟩
  have hpending := count_pending s
    (during s (addHead (-1) (s.call_list (slot_of (s.call_out_time + 1)))))
    (slot_of_lt (s.call_out_time + 1)) (fun j hj => set_list_ne _ _ _ hj) c
  have hone := h.once c
  have hlist : (during s (addHead (-1) (s.call_list (slot_of (s.call_out_time + 1))))).call_list
      (slot_of (s.call_out_time + 1)) = addHead (-1) (s.call_list (slot_of (s.call_out_time + 1))) :=
    set_list_self _ _ _
  rw [hlist, count_addHead] at hpending
  simp only [during, set_list_fired, set_list_removed, set_list_dropped, set_list_made] at hpending ⊢
  omega

theorem set_list_same (s : call_out_t) (i : Nat) : s.set_list i (s.call_list i) = s := by
  unfold call_out_t.set_list
  congr
  funext j
  split
  · rename_i h
    rw [h]
  · rfl

theorem begin_tick_eq {s : call_out_t} (hrun : s.running = false)
    (hlt : (init_time s).call_out_time < s.current_time) :
    begin_tick s = serve (slot_of ((init_time s).call_out_time + 1))
      (addHead (-1) ((init_time s).call_list (slot_of ((init_time s).call_out_time + 1))))
      (init_time s) := by
  have hrun' : (init_time s).running = false := by rw [init_time_running, hrun]
  rw [← init_time_current_time] at hlt
  unfold begin_tick
  simp only [hlt, if_true]
  generalize init_time s = t at *
  have hsame := set_list_same t (slot_of (t.call_out_time + 1))
  cases hl : t.call_list (slot_of (t.call_out_time + 1)) with
  | nil =>
    rw [hl] at hsame
    simp [addHead, serve, hsame, ← hrun']
  | cons x next =>
    obtain ⟨delta, cop⟩ := x
    simp only [addHead]
    by_cases hd : delta - 1 = 0
    · simp only [hd, if_true]
      rw [show delta + -1 = 0 from hd]
    · simp only [hd, if_false]
      rw [show delta + -1 = delta - 1 from rfl]
      unfold serve
      simp only [hd, if_false, ← hrun']
      rfl

theorem begin_tick_sound {s : call_out_t} (hw : Wheel s) (hk : Kept s) (hrun : s.running = false) :
    Wheel (begin_tick s) ∧ Kept (begin_tick s) := by
  obtain ⟨hw', hne⟩ := init_time_wheel hw
  have hk' := init_time_kept hk
  by_cases hlt : (init_time s).call_out_time < s.current_time
  · rw [begin_tick_eq hrun hlt]
    rw [← init_time_current_time] at hlt
    rw [← init_time_running] at hrun
    exact serve_sound _ (begin_during hw' hrun hlt hne) (begin_during_kept hk')
  · have hsame : begin_tick s = init_time s := by
      unfold begin_tick
      simp [init_time_current_time, hlt]
    rw [hsame]
    exact ⟨hw', hk'⟩

theorem end_callback_sound {s : call_out_t} (hw : Wheel s) (hk : Kept s) (hrun : s.running = true) :
    Wheel (end_callback s) ∧ Kept (end_callback s) := by
  have hsame : during s (s.call_list (slot_of (s.call_out_time + 1))) = s := by
    unfold during
    rw [set_list_same, ← hrun]
  exact serve_sound _ (hsame.symm ▸ hw) (hsame.symm ▸ hk)

/-! ## Every run -/

theorem start_sound {now : Int} (hnow : 0 < now) :
    Wheel (call_out_t.start now) ∧ Kept (call_out_t.start now) := by
  have hlists : ∀ i, (call_out_t.start now).call_list i = [] := fun _ => rfl
  refine ⟨⟨fun i x hx => ?_, fun i x hx => ?_, hnow, Int.le_of_lt hnow, Int.le_refl 0,
    fun _ => ⟨rfl, hlists⟩, fun hr => ?_⟩, ⟨fun c => ?_, rfl, fun f hf => ?_, fun c hc => ?_⟩⟩
  · cases hx
  · cases hx
  · cases hr
  · have hnil : (call_out_t.start now).pending = [] := by
      simp [call_out_t.pending, call_out_t.start]
    rw [hnil]
    rfl
  · cases hf
  · cases hc

theorem remove_call_out_sound {s : call_out_t} (hw : Wheel s) (hk : Kept s) (ob fun_ : Nat) :
    Wheel (remove_call_out s ob fun_).2 ∧ Kept (remove_call_out s ob fun_).2 := by
  unfold remove_call_out
  split
  · rename_i i delay cop hsearch
    obtain ⟨hi, hloc⟩ := search_some hsearch
    exact ⟨unlink_wheel hw, unlink_kept hk hi hloc⟩
  · exact ⟨hw, hk⟩

theorem remove_call_out_by_handle_sound {s : call_out_t} (hw : Wheel s) (hk : Kept s)
    (handle : Int) : Wheel (remove_call_out_by_handle s handle).2 ∧
      Kept (remove_call_out_by_handle s handle).2 := by
  unfold remove_call_out_by_handle
  split
  · rename_i delay cop hloc
    exact ⟨unlink_wheel hw, unlink_kept hk (slot_of_lt handle) hloc⟩
  · exact ⟨hw, hk⟩

theorem ob_destructed_mono {s s' : call_out_t}
    (h : ∀ ob, s.destructed ob = true → s'.destructed ob = true) (hd : s.ob_destructed cop = true) :
    s'.ob_destructed cop = true := by
  unfold call_out_t.ob_destructed at hd ⊢
  split
  · rename_i ob name heq
    rw [heq] at hd
    exact h ob hd
  · rename_i heq
    rwa [heq] at hd

theorem step_sound {s s' : call_out_t} {op : CallOutOp} (hw : Wheel s) (hk : Kept s)
    (hok : NoCallIntoServedSlot s op) (hs : s.step op = some s') : Wheel s' ∧ Kept s' := by
  cases op with
  | new_call_out fun_ delay =>
    cases hs
    exact ⟨new_call_out_wheel hw hok, new_call_out_kept hk⟩
  | remove_call_out ob fun_ =>
    cases hs
    exact remove_call_out_sound hw hk ob fun_
  | remove_call_out_by_handle handle =>
    cases hs
    exact remove_call_out_by_handle_sound hw hk handle
  | remove_all_call_out obj =>
    cases hs
    exact ⟨remove_all_call_out_wheel hw obj, remove_all_call_out_kept hk obj⟩
  | destruct ob =>
    cases hs
    refine ⟨hw.update rfl rfl (Int.le_refl _) hw.placed hw.rising fun hz => (hw.unset hz).2,
      hk.once, hk.serials, hk.fired_due, fun c hc => ?_⟩
    exact ob_destructed_mono (fun o ho => by simp [ho]) (hk.dropped_destructed c hc)
  | advance seconds =>
    cases hs
    refine ⟨hw.update rfl rfl ?_ hw.placed hw.rising fun hz => (hw.unset hz).2,
      hk.once, hk.serials, hk.fired_due, hk.dropped_destructed⟩
    exact Int.le_add_of_nonneg_right (Int.natCast_nonneg seconds)
  | begin_tick =>
    simp only [call_out_t.step] at hs
    split at hs
    · cases hs
    · rename_i hrun
      cases hs
      exact begin_tick_sound hw hk (by simpa using hrun)
  | end_callback =>
    simp only [call_out_t.step] at hs
    split at hs
    · rename_i hrun
      cases hs
      exact end_callback_sound hw hk hrun
    · cases hs

theorem reachable_sound {now : Int} (hnow : 0 < now) {s : call_out_t}
    (h : Reachable (call_out_t.start now) call_out_t.step NoCallIntoServedSlot s) :
    Wheel s ∧ Kept s :=
  h.inv (I := fun s => Wheel s ∧ Kept s) (start_sound hnow)
    fun _ _ _ hi hok hs => step_sound hi.1 hi.2 hok hs

/-! ## The loop catches up -/

theorem serve_progress (tm : Nat) (l : DeltaList pending_call_t) (s : call_out_t) :
    (serve tm l s).current_time = s.current_time ∧
      ((serve tm l s).running = false ∧ (serve tm l s).call_out_time = s.call_out_time + 1 ∨
        (serve tm l s).running = true ∧ (serve tm l s).call_out_time = s.call_out_time ∧
          ((serve tm l s).call_list tm).length < l.length) := by
  induction l generalizing s with
  | nil => exact ⟨rfl, .inl ⟨rfl, rfl⟩⟩
  | cons x next ih =>
    obtain ⟨delta, cop⟩ := x
    unfold serve
    by_cases hdelta : delta = 0
    · simp only [hdelta, if_true]
      by_cases hdest : s.ob_destructed cop = true
      · simp only [hdest, if_true]
        obtain ⟨hcur, h | ⟨hr, hc, hlen⟩⟩ := ih { s with dropped := cop :: s.dropped }
        · exact ⟨hcur, .inl h⟩
        · exact ⟨hcur, .inr ⟨hr, hc, Nat.lt_succ_of_lt hlen⟩⟩
      · rw [if_neg hdest]
        exact ⟨rfl, .inr ⟨rfl, rfl, by simp [call_out_t.set_list]⟩⟩
    · rw [if_neg hdelta]
      exact ⟨rfl, .inl ⟨rfl, rfl⟩⟩

def IsLoop (op : CallOutOp) : Prop := op = .begin_tick ∨ op = .end_callback

theorem the_tick_ends (n : Nat) {s : call_out_t} (hrun : s.running = true)
    (hn : (s.call_list (slot_of (s.call_out_time + 1))).length ≤ n) :
    ∃ ops s', (∀ op ∈ ops, IsLoop op) ∧ run call_out_t.step s ops = some s' ∧
      s'.running = false ∧ s'.call_out_time = s.call_out_time + 1 ∧
      s'.current_time = s.current_time := by
  induction n generalizing s with
  | zero =>
    have hnil := length_eq_zero_iff.1 (Nat.le_zero.1 hn)
    refine ⟨[.end_callback], end_callback s, by simp [IsLoop], ?_, ?_, ?_, ?_⟩
    · simp [run, call_out_t.step, hrun]
    all_goals simp only [end_callback, hnil, serve, set_list_current_time]
  | succ n ih =>
    have hstep : call_out_t.step s .end_callback = some (end_callback s) := by
      simp [call_out_t.step, hrun]
    obtain ⟨hcur, ⟨hr, hc⟩ | ⟨hr, hc, hlen⟩⟩ := serve_progress (slot_of (s.call_out_time + 1))
      (s.call_list (slot_of (s.call_out_time + 1))) s
    · refine ⟨[.end_callback], end_callback s, by simp [IsLoop], ?_, hr, hc, hcur⟩
      rw [run, hstep]
      rfl
    · obtain ⟨ops, s', hops, hs', hr', hc', hcur'⟩ := ih (s := end_callback s) hr (by
        have hc2 : (end_callback s).call_out_time = s.call_out_time := hc
        rw [hc2]
        exact Nat.le_of_lt_succ (Nat.lt_of_lt_of_le hlen hn))
      refine ⟨.end_callback :: ops, s', ?_, ?_, hr', hc'.trans (congrArg (· + 1) hc),
        hcur'.trans hcur⟩
      · simpa [IsLoop] using hops
      · rwa [run, hstep]

theorem the_next_tick_ends {s : call_out_t} (hlt : s.call_out_time < s.current_time) :
    ∃ ops s', (∀ op ∈ ops, IsLoop op) ∧ run call_out_t.step s ops = some s' ∧
      s'.running = false ∧ s.call_out_time < s'.call_out_time ∧
      s'.current_time = s.current_time := by
  cases hrun : s.running with
  | true =>
    obtain ⟨ops, s', hops, hs', hr, hc, hcur⟩ := the_tick_ends _ hrun (Nat.le_refl _)
    exact ⟨ops, s', hops, hs', hr, by omega, hcur⟩
  | false =>
    have hstep : call_out_t.step s .begin_tick = some (begin_tick s) := by
      simp [call_out_t.step, hrun]
    have hcur0 := init_time_current_time s
    by_cases hlt' : (init_time s).call_out_time < s.current_time
    · have hle : s.call_out_time ≤ (init_time s).call_out_time := by
        unfold init_time
        split
        · exact Int.le_of_lt hlt
        · exact Int.le_refl _
      have hprogress := serve_progress (slot_of ((init_time s).call_out_time + 1))
        (addHead (-1) ((init_time s).call_list (slot_of ((init_time s).call_out_time + 1))))
        (init_time s)
      rw [← begin_tick_eq hrun hlt'] at hprogress
      obtain ⟨hcur, ⟨hr, hc⟩ | ⟨hr, hc, -⟩⟩ := hprogress
      · refine ⟨[.begin_tick], begin_tick s, by simp [IsLoop], ?_, hr, by omega, hcur.trans hcur0⟩
        rw [run, hstep]
        rfl
      · obtain ⟨ops, s', hops, hs', hr', hc', hcur'⟩ := the_tick_ends _ hr (Nat.le_refl _)
        refine ⟨.begin_tick :: ops, s', ?_, ?_, hr', by omega, by omega⟩
        · simpa [IsLoop] using hops
        · rwa [run, hstep]
    · have hsame : begin_tick s = init_time s := by
        unfold begin_tick
        simp [init_time_current_time, hlt']
      refine ⟨[.begin_tick], begin_tick s, by simp [IsLoop], ?_, ?_, ?_, ?_⟩
      · rw [run, hstep]
        rfl
      · rw [hsame, init_time_running, hrun]
      · rw [hsame]
        omega
      · rw [hsame, hcur0]

theorem run_sound {s s' : call_out_t} {ops : List CallOutOp} (hw : Wheel s) (hk : Kept s)
    (hops : ∀ op ∈ ops, IsLoop op) (hs : run call_out_t.step s ops = some s') :
    Wheel s' ∧ Kept s' := by
  induction ops generalizing s with
  | nil =>
    cases hs
    exact ⟨hw, hk⟩
  | cons op ops ih =>
    rw [run, Option.bind_eq_some_iff] at hs
    obtain ⟨t, ht, hs⟩ := hs
    simp only [mem_cons, forall_eq_or_imp] at hops
    have hok : NoCallIntoServedSlot s op := by
      rcases hops.1 with rfl | rfl <;> trivial
    obtain ⟨hw', hk'⟩ := step_sound hw hk hok ht
    exact ih hw' hk' hops.2 hs

theorem the_loop_catches_up (n : Nat) {s : call_out_t} (hw : Wheel s) (hk : Kept s)
    (hn : (s.current_time - s.call_out_time).toNat ≤ n) :
    ∃ ops s', (∀ op ∈ ops, IsLoop op) ∧ run call_out_t.step s ops = some s' ∧
      s'.call_out_time = s'.current_time ∧ s'.current_time = s.current_time := by
  induction n generalizing s with
  | zero =>
    have hle := hw.time_le
    exact ⟨[], s, by simp, rfl, by omega, rfl⟩
  | succ n ih =>
    by_cases hlt : s.call_out_time < s.current_time
    · obtain ⟨ops, t, hops, ht, -, hc, hcur⟩ := the_next_tick_ends hlt
      obtain ⟨hw', hk'⟩ := run_sound hw hk hops ht
      obtain ⟨ops', s', hops', hs', hc', hcur'⟩ := ih hw' hk' (by omega)
      refine ⟨ops ++ ops', s', ?_, ?_, hc', hcur'.trans hcur⟩
      · intro op hop
        rcases mem_append.1 hop with hop | hop
        · exact hops op hop
        · exact hops' op hop
      · rwa [run_append, ht]
    · have hle := hw.time_le
      exact ⟨[], s, by simp, rfl, by omega, rfl⟩

/-! ## The laws of the calls -/

theorem each_call_fires_once_at_its_due_tick {now : Int} (hnow : 0 < now) {s : call_out_t}
    (h : Reachable (call_out_t.start now) call_out_t.step NoCallIntoServedSlot s) :
    OnTime s ∧ ∃ ops s', (∀ op ∈ ops, IsLoop op) ∧ run call_out_t.step s ops = some s' ∧
      OnTime s' ∧ s'.call_out_time = s'.current_time ∧ s'.current_time = s.current_time := by
  obtain ⟨hw, hk⟩ := reachable_sound hnow h
  obtain ⟨ops, s', hops, hs', hc, hcur⟩ := the_loop_catches_up _ hw hk (Nat.le_refl _)
  obtain ⟨hw', hk'⟩ := run_sound hw hk hops hs'
  exact ⟨on_time hw hk, ops, s', hops, hs', on_time hw' hk', hc, hcur⟩

/-- A call that makes another one when it fires, for the time given. -/
def chained (delay : Int) : List CallOutOp :=
  [.new_call_out (.s 1 1) 1, .advance 1, .begin_tick, .new_call_out (.s 1 2) delay, .end_callback]

theorem a_chained_call_is_on_time :
    ∃ s, run call_out_t.step (call_out_t.start 100)
      (chained 2 ++ [.advance 2, .begin_tick, .begin_tick, .end_callback]) = some s ∧
      s.fired.length = 2 ∧ OnTime s := by
  refine (Reachable.of_computed ?_ ?_).imp fun s h =>
    ⟨h.1, h.2.1, (each_call_fires_once_at_its_due_tick (by decide) h.2.2).1⟩ <;> decide

/-- The second call goes into the slot that the loop is serving, and stays in it for a
turn of the wheel after its due tick. -/
theorem a_call_into_the_served_slot_is_late :
    ¬ ∀ s, Reachable (call_out_t.start 100) call_out_t.step (fun _ _ => True) s → OnTime s := by
  intro hall
  have hrun : (run call_out_t.step (call_out_t.start 100)
      (chained 32 ++ .advance 32 :: replicate 32 .begin_tick)).map
        (fun s => (s.call_out_time, s.pending.map pending_call_t.due)) = some (133, [133]) := by
    decide
  obtain ⟨s, hs, hstate⟩ := Option.map_eq_some_iff.mp hrun
  rw [Prod.mk.injEq] at hstate
  have hsound := hall s (.of_any hs)
  obtain ⟨cop, hcop, hdue⟩ := mem_map.1 (hstate.2 ▸ mem_singleton_self (133 : Int))
  have := hsound.not_overdue cop hcop
  omega

/-! ## The laws of the queries -/

theorem time_left_eq {s : call_out_t} {i : Nat} {x : Int × pending_call_t} (h : Placed s i x) :
    time_left s i x.1 = x.2.due - s.current_time - if Serving s i then 32 else 0 := by
  have hslot := slot_of_eq_iff.1 h.slot
  have hcur := slot_of_eq_iff.1 (rfl : slot_of s.call_out_time = slot_of s.call_out_time)
  have hsum := h.sum
  have hserve := fun hs : Serving s i => slot_of_eq_iff.1 hs.2.symm
  unfold units at hsum
  unfold time_left
  simp only [CALLOUT_CYCLE_SIZE]
  split at hsum <;> rename_i hs <;> simp [hs] at hserve ⊢ <;> split <;> omega

theorem time_left_iff {s : call_out_t} {i : Nat} {x : Int × pending_call_t} (h : Placed s i x) :
    time_left s i x.1 = x.2.due - s.current_time ↔ ¬ Serving s (slot_of x.2.due) := by
  rw [time_left_eq h, h.slot]
  split
  · rename_i hs
    simp only [hs, not_true, iff_false]
    omega
  · rename_i hs
    simp only [hs, not_false_eq_true, iff_true]
    omega

theorem find?_pending (s : call_out_t) (p : pending_call_t → Bool) :
    s.pending.find? p = (search s p).map fun x => x.2.2 := by
  unfold call_out_t.pending search
  rw [find?_flatMap, map_findSome?]
  congr 1
  funext i
  rw [← offsets_map_snd 0, find?_map]
  simp [locate, Function.comp_def]

theorem found {s : call_out_t} (hw : Wheel s) (h : s.pending.find? p = some cop) :
    ∃ i delay, search s p = some (i, delay, cop) ∧ locate p (s.call_list i) = some (delay, cop) ∧
      Placed s i (delay, cop) := by
  rw [find?_pending, Option.map_eq_some_iff] at h
  obtain ⟨⟨i, delay, c⟩, hsearch, rfl⟩ := h
  obtain ⟨-, hloc⟩ := search_some hsearch
  obtain ⟨before, after, hl, -⟩ := locate_split hloc
  exact ⟨i, delay, hsearch, hloc, hw.placed i _ (by rw [hl]; simp)⟩

theorem get_all_call_outs_eq (s : call_out_t) :
    get_all_call_outs s = s.times.filter fun x => !s.ob_destructed x.1 := by
  unfold get_all_call_outs call_out_t.times
  rw [filter_flatMap]
  congr 1
  funext i
  rw [filter_map]
  rfl

theorem times_fst (s : call_out_t) : s.times.map Prod.fst = s.pending := by
  unfold call_out_t.times call_out_t.pending
  rw [map_flatMap]
  congr 1
  funext i
  rw [map_map, ← offsets_map_snd 0 (s.call_list i)]
  rfl

theorem unlink_times {s : call_out_t} {i : Nat} (hi : i < 32)
    (hloc : locate p (s.call_list i) = some (delay, cop)) :
    ((cop, time_left s i delay) :: (unlink s p i cop).times).Perm s.times := by
  obtain ⟨before, after, h1, h2, -⟩ := locate_split hloc
  rw [perm_iff_count]
  intro c
  have hcount := count_slots c (f := fun j => (offsets 0 ((unlink s p i cop).call_list j)).map
      fun x => (x.2, time_left s j x.1))
    (g := fun j => (offsets 0 (s.call_list j)).map fun x => (x.2, time_left s j x.1))
    (i := i) (fun j hj => by simp only [unlink, set_list_ne _ _ _ hj]) 32
  have hlist : (unlink s p i cop).call_list i = removeFirst p (s.call_list i) := set_list_self _ _ _
  simp only [hi, if_true, hlist, h1, h2, map_append, map_cons, count_append,
    count_cons] at hcount
  rw [count_cons]
  change ((range 32).flatMap fun j => (offsets 0 ((unlink s p i cop).call_list j)).map
    fun x => (x.2, time_left s j x.1)).count c + _ = ((range 32).flatMap fun j =>
      (offsets 0 (s.call_list j)).map fun x => (x.2, time_left s j x.1)).count c
  omega

theorem remove_all_call_out_times (s : call_out_t) (obj : Nat) :
    (remove_all_call_out s obj).times = s.times.filter fun x => !s.belongs obj x.1 := by
  unfold call_out_t.times
  rw [filter_flatMap]
  apply flatMap_congr
  intro i hi
  simp only [remove_all_call_out, mem_range.1 hi, if_true, offsets_removeAll, Int.zero_add,
    filter_map]
  rfl

theorem removal_times {s s' : call_out_t} {op : CallOutOp} (hop : IsRemoval op)
    (hs : s.step op = some s') :
    ∃ gone, s'.removed = gone.map Prod.fst ++ s.removed ∧ (gone ++ s'.times).Perm s.times := by
  cases op with
  | remove_call_out ob fun_ =>
    cases hs
    unfold remove_call_out
    split
    · rename_i i delay cop hsearch
      obtain ⟨hi, hloc⟩ := search_some hsearch
      exact ⟨[(cop, time_left s i delay)], rfl, unlink_times hi hloc⟩
    · exact ⟨[], rfl, List.Perm.refl _⟩
  | remove_call_out_by_handle handle =>
    cases hs
    unfold remove_call_out_by_handle
    split
    · rename_i delay cop hloc
      exact ⟨[(cop, time_left s (slot_of handle) delay)], rfl, unlink_times (slot_of_lt handle) hloc⟩
    · exact ⟨[], rfl, List.Perm.refl _⟩
  | remove_all_call_out obj =>
    cases hs
    refine ⟨s.times.filter fun x => s.belongs obj x.1, ?_, ?_⟩
    · simp only [remove_all_call_out, call_out_t.times, filter_flatMap, map_flatMap]
      congr 1
      apply flatMap_congr
      intro i _
      rw [← offsets_map_snd 0 (s.call_list i), filter_map, filter_map, map_map]
      rfl
    · rw [remove_all_call_out_times]
      exact filter_append_perm _ _
  | new_call_out => cases hop
  | destruct => cases hop
  | advance => cases hop
  | begin_tick => cases hop
  | end_callback => cases hop

theorem a_query_is_right_iff_the_slot_is_not_being_served {now : Int} (hnow : 0 < now)
    {s : call_out_t}
    (h : Reachable (call_out_t.start now) call_out_t.step NoCallIntoServedSlot s) :
    QueriesTell s fun cop t => t = cop.due - s.current_time ↔ ¬ Serving s (slot_of cop.due) := by
  obtain ⟨hw, -⟩ := reachable_sound hnow h
  refine ⟨fun ob fun_ cop hfind => ?_, fun handle cop hfind => ?_, ⟨?_, fun x hx => ?_⟩,
    fun op s' hop hs => removal_times hop hs⟩
  · obtain ⟨i, delay, hsearch, -, hp⟩ := found hw hfind
    unfold find_call_out remove_call_out
    rw [hsearch]
    exact ⟨time_left_iff hp, time_left_iff hp⟩
  · obtain ⟨i, delay, -, hloc, hp⟩ := found hw hfind
    have hhandle : cop.handle = handle := by
      simpa [has_handle] using find?_some hfind
    have hi : slot_of handle = i := hhandle ▸ hp.handle
    unfold find_call_out_by_handle remove_call_out_by_handle
    rw [hi, hloc]
    exact ⟨time_left_iff hp, time_left_iff hp⟩
  · rw [get_all_call_outs_eq, ← times_fst, filter_map]
    rfl
  · rw [get_all_call_outs_eq] at hx
    have hmem := (mem_filter.1 hx).1
    simp only [call_out_t.times, mem_flatMap, mem_map] at hmem
    obtain ⟨i, -, y, hy, rfl⟩ := hmem
    exact time_left_iff (hw.placed i y hy)

/-- Two calls in one slot, while the function of the first one runs. -/
def two_in_a_slot : List CallOutOp :=
  [.new_call_out (.s 1 1) 1, .new_call_out (.s 1 2) 33, .new_call_out (.s 1 3) 7, .advance 1,
    .begin_tick]

theorem the_time_left_from_a_callback :
    ∃ s, run call_out_t.step (call_out_t.start 100) two_in_a_slot = some s ∧
      s.running = true ∧ find_call_out s 1 3 = 6 := by
  have hrun : (run call_out_t.step (call_out_t.start 100) two_in_a_slot).map
      (fun s => (s.running, s.current_time, s.call_out_time,
        (s.pending.find? (is_call 1 3)).map pending_call_t.due)) =
      some (true, 101, 100, some 107) := by decide
  obtain ⟨s, hs, hstate⟩ := Option.map_eq_some_iff.mp hrun
  simp only [Prod.mk.injEq, Option.map_eq_some_iff] at hstate
  obtain ⟨hrunning, hcur, hc, cop, hfind, hdue⟩ := hstate
  have hqueries := a_query_is_right_iff_the_slot_is_not_being_served (by decide)
    (.of_run .start (by decide) hs)
  refine ⟨s, hs, hrunning, ?_⟩
  have hnot : ¬ Serving s (slot_of cop.due) := by
    intro hserving
    have hslot := hserving.2
    rw [hc, hdue] at hslot
    revert hslot
    decide
  rw [((hqueries.by_name 1 3 cop hfind).1).2 hnot, hdue, hcur]
  rfl

/-- The head of the slot is counted down already, and the wheel not yet turned. -/
theorem the_served_slot_is_told_too_early :
    ¬ ∀ s, Reachable (call_out_t.start 100) call_out_t.step (fun _ _ => True) s →
      QueriesTell s fun cop t => t = cop.due - s.current_time := by
  intro hall
  have hrun : (run call_out_t.step (call_out_t.start 100) two_in_a_slot).map
      (fun s => (s.current_time, (s.pending.find? (is_call 1 2)).map pending_call_t.due,
        find_call_out s 1 2)) = some (101, some 133, 0) := by decide
  obtain ⟨s, hs, hstate⟩ := Option.map_eq_some_iff.mp hrun
  simp only [Prod.mk.injEq, Option.map_eq_some_iff] at hstate
  obtain ⟨hcur, ⟨cop, hfind, hdue⟩, htold⟩ := hstate
  have hqueries := hall s (.of_any hs)
  have := (hqueries.by_name 1 2 cop hfind).1
  omega

end mudos.call_out

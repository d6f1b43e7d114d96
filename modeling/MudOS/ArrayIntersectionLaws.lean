-- The intersection of two arrays is what is in both, and no reference is lost, for all arrays
-- whose elements `alist_cmp` puts in an order, unless one array is both arguments and nobody
-- else holds it.
import MudOS.ArrayIntersection
import MudOS.ArrayDifferenceLaws

open mudos.hole_heaps List

namespace mudos.array_difference

variable {m : memory} {S : svalue_t → Prop}
variable {val : svalue_t} {svt_1 : List svalue_t}
variable {x : svalue_t}

/-! ## What is asked -/

def counted : svalue_t → Bool
  | .number _ => false
  | _ => true

def Passed : operands_t → Prop
  | .same a => 2 ≤ a.ref
  | .apart a1 a2 => 1 ≤ a1.ref ∧ 1 ≤ a2.ref

variable (m) in
def IsIntersection (ops : operands_t) : Prop :=
  ((intersect_array m ops).a3.map (value m)).Perm
    ((ops.a2.item.map (value m)).filter fun v => v ∈ ops.a1.item.map (value m))

def held (arrays : List array_t) : List svalue_t :=
  arrays.flatMap fun a => if 0 < a.ref then a.item else []

variable (m) in
/-- Each reference that was there or is made is still held, is in the result or is released. -/
def Balanced (ops : operands_t) : Prop :=
  let r := intersect_array m ops
  ((held ops.arrays ++ r.ledger.made).filter counted).Perm
    ((held r.arrays ++ r.a3 ++ r.ledger.released).filter counted)

variable (m) in
structure Right (ops : operands_t) : Prop where
  content : IsIntersection m ops
  references : Balanced m ops

variable (m) in
/-- One array is both arguments and is held by nobody else, and holds a reference. -/
def Forgotten : operands_t → Prop
  | .same a => a.ref = 2 ∧ ∃ v ∈ a.item, counted (left_element m v) = true
  | .apart _ _ => False

/-! ## The tables are filled -/

theorem alist_element_left (v : svalue_t) :
    alist_element m (left_element m v) = alist_element m v := by
  cases v with
  | object ob =>
    unfold left_element alist_element
    simp only
    split_ifs with h
    · rfl
    · simp [h]
  | number n => rfl
  | string shared text => rfl
  | ref type address => rfl

theorem left_left (v : svalue_t) : left_element m (left_element m v) = left_element m v := by
  cases v with
  | object ob =>
    simp only [left_element]
    split_ifs with h
    · rfl
    · simp [h]
  | number n => rfl
  | string shared text => rfl
  | ref type address => rfl

def kept (m : memory) (flag : Bool) (item : List svalue_t) : List svalue_t :=
  if flag then item.map (left_element m) else []

theorem fill_element_count (flag : Bool) (v x : svalue_t) (hx : counted x = true) :
    [v].count x + (fill_element m flag v).made.count x =
      (kept m flag [v]).count x + (fill_element m flag v).released.count x +
        [alist_element m v].count x := by
  have hconst : [const0].count x = 0 := by
    rw [count_eq_zero, mem_singleton]
    rintro rfl
    cases hx
  cases v with
  | object ob =>
    unfold fill_element kept alist_element left_element
    cases flag <;> by_cases h : m.destructed ob = true <;>
      simp only [h, Bool.false_eq_true, if_true, if_false, map_cons, map_nil,
        count_nil, hconst] <;> omega
  | string shared text =>
    unfold fill_element kept alist_element left_element
    cases flag <;> cases shared <;>
      simp only [Bool.false_eq_true, if_true, if_false, map_cons, map_nil,
        count_nil] <;> omega
  | number n | ref type address =>
    unfold fill_element kept alist_element left_element
    cases flag <;> simp

theorem count_cons_singleton (v x : svalue_t) (l : List svalue_t) :
    (v :: l).count x = [v].count x + l.count x := by
  rw [← count_append]
  rfl

theorem kept_cons (flag : Bool) (v : svalue_t) (item : List svalue_t) :
    kept m flag (v :: item) = kept m flag [v] ++ kept m flag item := by
  unfold kept
  cases flag <;> rfl

theorem fill_count (flag : Bool) (item : List svalue_t) (x : svalue_t) (hx : counted x = true) :
    item.count x + (fill m flag item).made.count x =
      (kept m flag item).count x + (fill m flag item).released.count x +
        (item.map (alist_element m)).count x := by
  induction item with
  | nil => cases flag <;> rfl
  | cons v item ih =>
    have hone := fill_element_count (m := m) flag v x hx
    rw [fill, map_cons, kept_cons, count_cons_singleton v,
      count_cons_singleton (alist_element m v)]
    simp only [ledger_t.add, count_append]
    omega

/-! ## The tables are merged -/

def merge (m : memory) : List svalue_t → List svalue_t → List svalue_t
  | [], _ => []
  | val :: vals, svt_1 =>
    match advance m val svt_1 with
    | [] => []
    | x :: svt_1 =>
      if alist_cmp m val x = 0 then val :: merge m vals (x :: svt_1) else merge m vals (x :: svt_1)

theorem advance_mem (h : x ∈ advance m val svt_1) : x ∈ svt_1 := by
  induction svt_1 with
  | nil => exact h
  | cons y svt_1 ih =>
    unfold advance at h
    split_ifs at h with hpos
    · exact mem_cons_of_mem y (ih h)
    · exact h

theorem advance_sorted (h : svt_1.Pairwise (le m)) : (advance m val svt_1).Pairwise (le m) := by
  induction svt_1 with
  | nil => exact h
  | cons y svt_1 ih =>
    unfold advance
    split_ifs
    · exact ih (pairwise_cons.mp h).2
    · exact h

theorem mem_advance (horders : Orders m S) {w : svalue_t} (hvalues : ∀ x ∈ svt_1, S x)
    (hval : S val) (hw : S w) (hle : le m val w) : w ∈ advance m val svt_1 ↔ w ∈ svt_1 := by
  induction svt_1 with
  | nil => rfl
  | cons y svt_1 ih =>
    unfold advance
    split_ifs with hpos
    · rw [ih fun x hx => hvalues x (mem_cons_of_mem y hx), mem_cons]
      refine ⟨Or.inr, ?_⟩
      rintro (rfl | h)
      · unfold le at hle
        omega
      · exact h
    · rfl

theorem advance_head {rest : List svalue_t} (h : advance m val svt_1 = x :: rest) :
    alist_cmp m val x ≤ 0 := by
  induction svt_1 with
  | nil => cases h
  | cons y svt_1 ih =>
    unfold advance at h
    split_ifs at h with hpos
    · exact ih h
    · cases h
      exact Int.not_lt.mp hpos

theorem merge_sorted (horders : Orders m S) {vals : List svalue_t} (hvals : ∀ x ∈ vals, S x)
    (hvalues : ∀ x ∈ svt_1, S x) (hsorted : vals.Pairwise (le m)) (hsorted1 : svt_1.Pairwise (le m))
    (hsame : ∀ v ∈ vals, ∀ x ∈ svt_1, alist_cmp m v x = 0 → v = x) :
    merge m vals svt_1 = vals.filter fun v => v ∈ svt_1 := by
  induction vals generalizing svt_1 with
  | nil => rfl
  | cons val vals ih =>
    obtain ⟨hfirst, hrest⟩ := pairwise_cons.mp hsorted
    have hval : S val := hvals val mem_cons_self
    have hself : le m val val := Int.le_of_eq (alist_cmp_self val)
    have hkept : ∀ v ∈ vals, v ∈ advance m val svt_1 ↔ v ∈ svt_1 := fun v hv =>
      mem_advance horders hvalues hval (hvals v (mem_cons_of_mem val hv)) (hfirst v hv)
    have hhead := mem_advance horders hvalues hval hval hself
    rw [merge, filter_cons]
    cases hadvance : advance m val svt_1 with
    | nil =>
      rw [hadvance] at hhead hkept
      simp only [not_mem_nil, false_iff] at hhead hkept
      rw [if_neg (by simpa using hhead), eq_comm, filter_eq_nil_iff]
      intro v hv
      simpa using hkept v hv
    | cons x svt =>
      have hmem : ∀ y ∈ x :: svt, y ∈ svt_1 := fun y hy => advance_mem (hadvance ▸ hy)
      have hsvt : (x :: svt).Pairwise (le m) := hadvance ▸ advance_sorted hsorted1
      have hvals' : ∀ v ∈ vals, S v := fun v hv => hvals v (mem_cons_of_mem val hv)
      have hrec := ih hvals' (fun y hy => hvalues y (hmem y hy)) hrest hsvt
        fun v hv y hy => hsame v (mem_cons_of_mem val hv) y (hmem y hy)
      have hfilter : (vals.filter fun v => v ∈ x :: svt) = vals.filter fun v => v ∈ svt_1 := by
        apply filter_congr
        intro v hv
        rw [← hadvance, decide_eq_decide]
        exact hkept v hv
      rw [hfilter] at hrec
      simp only [hrec]
      have hle := advance_head hadvance
      rw [hadvance] at hhead
      by_cases hzero : alist_cmp m val x = 0
      · have hin : val ∈ svt_1 := by
          rw [hsame val mem_cons_self x (hmem x mem_cons_self) hzero]
          exact hmem x mem_cons_self
        simp [if_pos hzero, hin]
      · have hout : val ∉ svt_1 := by
          rw [← hhead, mem_cons]
          rintro (rfl | hlater)
          · exact hzero (alist_cmp_self val)
          · have hx : S x := hvalues x (hmem x mem_cons_self)
            have hxv : le m x val := (pairwise_cons.mp hsvt).1 val hlater
            have hopposite := horders.opposite val x hval hx (by omega)
            unfold le at hxv
            omega
        simp [if_neg hzero, hout]

theorem intersect_loop_merge (a2s left : Nat) (f : sv_tab_t) (svt_1 : List svalue_t) :
    (intersect_loop m a2s left f svt_1).ntab = merge m (heap_take m a2s left f) svt_1 := by
  induction left generalizing f svt_1 with
  | zero => rfl
  | succ left ih =>
    unfold intersect_loop heap_take
    cases h0 : f 0 with
    | none => rfl
    | some val =>
      simp only
      unfold merge
      cases advance m val svt_1 with
      | nil => rfl
      | cons x svt =>
        simp only
        split_ifs
        · simp [ih]
        · exact ih _ _

theorem intersect_loop_perm (horders : Orders m S) {a2s left : Nat} {f : sv_tab_t}
    (hheap : Heap (le m) f) (hend : ∀ i, a2s ≤ i → f i = none)
    (hleft : (contents f a2s).length = left) (svt_1 : List svalue_t) :
    ((intersect_loop m a2s left f svt_1).ntab ++ (intersect_loop m a2s left f svt_1).released ++
      contents (intersect_loop m a2s left f svt_1).sv_tab a2s).Perm (contents f a2s) := by
  induction left generalizing f svt_1 with
  | zero => exact List.Perm.refl _
  | succ left ih =>
    obtain ⟨val, hval⟩ := Option.ne_none_iff_exists'.mp (hheap.root_of_contents hleft)
    have hsize : 0 < a2s := by
      by_contra h
      simp [hend 0 (by omega)] at hval
    obtain ⟨hheap', hend', hperm⟩ :=
      sift_down_sinking (m := m) a2s hheap.take hend hsize (by omega)
    have htake := contents_take hsize hval
    have hlength := htake.length_eq
    rw [length_cons, ← hperm.length_eq, hleft] at hlength
    have hall := (hperm.cons val).trans htake.symm
    unfold intersect_loop
    rw [hval]
    simp only
    cases advance m val svt_1 with
    | nil => exact List.Perm.refl _
    | cons x svt =>
      have hrec := ih hheap' hend' (by omega) (x :: svt)
      simp only
      split_ifs
      · exact (hrec.cons val).trans hall
      · refine List.Perm.trans ?_ ((hrec.cons val).trans hall)
        simp only [append_assoc, cons_append]
        exact perm_middle

/-! ## The whole call -/

theorem held_give_up (flag : Bool) {a : array_t} (hflag : flag = decide (1 < a.ref)) :
    held [give_up m flag a] = kept m flag a.item := by
  subst hflag
  unfold held give_up kept
  by_cases h : 1 < a.ref
  · have hpos : 0 < a.ref - 1 := by omega
    simp [h, hpos]
  · simp [h]

theorem held_two (a b : array_t) : held [a, b] = held [a] ++ held [b] := by simp [held]

theorem held_one {a : array_t} (h : 0 < a.ref) : held [a] = a.item := by simp [held, h]

theorem second_elements (ops : operands_t) :
    (second_items m ops).map (alist_element m) = ops.a2.item.map (alist_element m) := by
  cases ops with
  | same a =>
    unfold second_items operands_t.a2
    simp only [map_map]
    apply map_congr_left
    intro v _
    exact alist_element_left v
  | apart a1 a2 => rfl

variable (m) in
def BothElements (ops : operands_t) (x : svalue_t) : Prop :=
  ∃ v ∈ ops.a1.item ++ ops.a2.item, x = alist_element m v

section

variable {ops : operands_t}
variable {a : array_t}

theorem second_built (horders : Orders m (BothElements m ops)) :
    Heap (le m) (heap_build m (second_items m ops) 0 fun _ => none) ∧
      Filled (BothElements m ops) (heap_build m (second_items m ops) 0 fun _ => none)
        (second_items m ops).length ∧
      (contents (heap_build m (second_items m ops) 0 fun _ => none)
        (second_items m ops).length).Perm (ops.a2.item.map (alist_element m)) := by
  have hheap : Heap (le m) fun _ => none :=
    ⟨fun _ _ _ => rfl, fun _ _ _ _ h => by cases h⟩
  have hfilled : Filled (BothElements m ops) (fun _ => none) 0 :=
    ⟨fun i hi => absurd hi (Nat.not_lt_zero i), fun _ _ h => (by cases h), fun _ _ => rfl⟩
  have hvalues : ∀ v ∈ second_items m ops, BothElements m ops (alist_element m v) := by
    intro v hv
    have hmem : alist_element m v ∈ ops.a2.item.map (alist_element m) := by
      rw [← second_elements]
      exact mem_map_of_mem hv
    obtain ⟨w, hw, hwv⟩ := mem_map.mp hmem
    exact ⟨w, mem_append_right _ hw, hwv.symm⟩
  obtain ⟨hbuilt, hfill, hperm⟩ := heap_build_heap horders hheap hfilled hvalues
  rw [Nat.zero_add] at hfill hperm
  have hnil : contents (fun _ => (none : Option svalue_t)) 0 = [] := rfl
  rw [hnil, append_nil, second_elements] at hperm
  exact ⟨hbuilt, hfill, hperm⟩

theorem tables_content (hsound : Sound m (ops.a1.item ++ ops.a2.item) (ops.a1.item ++ ops.a2.item))
    (horders : Orders m (BothElements m ops)) :
    ((intersect_tables m ops).a3.map (value m)).Perm
      ((ops.a2.item.map (value m)).filter fun v => v ∈ ops.a1.item.map (value m)) := by
  have hfirst : ∀ v ∈ ops.a1.item, BothElements m ops (alist_element m v) :=
    fun v hv => ⟨v, mem_append_left _ hv, rfl⟩
  obtain ⟨hsort, hsorted1⟩ := alist_sort_sorted horders hfirst
  obtain ⟨hbuilt, hfill, hperm⟩ := second_built horders
  have hlength := hperm.length_eq
  rw [← second_elements, length_map] at hlength
  obtain ⟨htaken, hsorted⟩ := heap_take_sorted horders hbuilt hfill.values hfill.empty hlength
  have hvals := htaken.trans hperm
  have hin : ∀ x ∈ heap_take m (second_items m ops).length (second_items m ops).length
      (heap_build m (second_items m ops) 0 fun _ => none),
      ∃ v ∈ ops.a2.item, alist_element m v = x :=
    fun x hx => mem_map.mp (hvals.mem_iff.mp hx)
  have hin1 : ∀ x, x ∈ alist_sort m ops.a1.item ↔ ∃ v ∈ ops.a1.item, alist_element m v = x := by
    intro x
    rw [hsort.mem_iff, mem_map]
  have hmerge : (intersect_tables m ops).a3 = _ := intersect_loop_merge _ _ _ _
  rw [hmerge, merge_sorted horders ?_ ?_ hsorted hsorted1 ?_]
  · have hcongr : ((ops.a2.item.map (value m)).filter fun v => v ∈ ops.a1.item.map (value m)) =
        ((ops.a2.item.map (alist_element m)).filter
          fun x => x ∈ alist_sort m ops.a1.item).map (value m) := by
      rw [filter_map, filter_map, map_map]
      have hvalue : value m ∘ alist_element m = value m := by
        funext v
        exact value_alist_element v
      rw [hvalue]
      congr 1
      apply filter_congr
      intro v _
      simp [hin1, alist_element_eq]
    rw [hcongr]
    exact (hvals.filter _).map _
  · intro x hx
    obtain ⟨v, hv, rfl⟩ := hin x hx
    exact ⟨v, mem_append_right _ hv, rfl⟩
  · intro x hx
    obtain ⟨v, hv, rfl⟩ := (hin1 x).mp hx
    exact hfirst v hv
  · intro y hy x hx hzero
    obtain ⟨v, hv, rfl⟩ := hin y hy
    obtain ⟨w, hw, rfl⟩ := (hin1 x).mp hx
    refine alist_element_of_zero hsound (mem_append_left _ hw) ?_ hzero
    rintro shared text rfl
    exact findstring_of_mem (mem_append_right _ hv)

theorem tables_released (horders : Orders m (BothElements m ops)) (x : svalue_t) :
    (intersect_tables m ops).a3.count x + (intersect_tables m ops).ledger.released.count x =
      (fill m (decide (1 < ops.a1.ref)) ops.a1.item).released.count x +
      (fill m (decide (1 < ops.a2.ref)) (second_items m ops)).released.count x +
      (ops.a2.item.map (alist_element m)).count x + (ops.a1.item.map (alist_element m)).count x := by
  have hfirst : ∀ v ∈ ops.a1.item, BothElements m ops (alist_element m v) :=
    fun v hv => ⟨v, mem_append_left _ hv, rfl⟩
  obtain ⟨hsort, -⟩ := alist_sort_sorted horders hfirst
  obtain ⟨hbuilt, hfill, hperm⟩ := second_built horders
  have hlength := hperm.length_eq
  rw [← second_elements, length_map] at hlength
  have hloop := intersect_loop_perm horders hbuilt hfill.empty hlength
    (alist_sort m ops.a1.item)
  have hcount := (hloop.trans hperm).count_eq x
  have hsortcount := hsort.count_eq x
  unfold contents at hcount
  unfold intersect_tables
  simp only [ledger_t.add, count_append, gt_iff_lt] at hcount ⊢
  omega

theorem counted_perm {l k : List svalue_t} :
    (l.filter counted).Perm (k.filter counted) ↔
      ∀ x, counted x = true → l.count x = k.count x := by
  rw [perm_iff_count]
  apply forall_congr'
  intro x
  by_cases hx : counted x = true
  · rw [count_filter hx, count_filter hx]
    exact ⟨fun h _ => h, fun h => h hx⟩
  · have hnone : ∀ l : List svalue_t, (l.filter counted).count x = 0 := by
      intro l
      rw [count_eq_zero, mem_filter]
      exact fun h => hx h.2
    rw [hnone, hnone]
    exact ⟨fun _ h => absurd h hx, fun _ => rfl⟩

theorem kept_left (flag : Bool) (item : List svalue_t) :
    kept m flag (item.map (left_element m)) = kept m flag item := by
  unfold kept
  rw [map_map]
  congr 1
  apply map_congr_left
  intro v _
  exact left_left v

theorem apart_balanced {a1 a2 : array_t} (hpassed : Passed (.apart a1 a2))
    (horders : Orders m (BothElements m (.apart a1 a2))) (x : svalue_t) (hx : counted x = true) :
    let r := intersect_tables m (.apart a1 a2)
    (held [a1, a2] ++ r.ledger.made).count x =
      (held r.arrays ++ r.a3 ++ r.ledger.released).count x := by
  intro r
  have hreleased : r.a3.count x + r.ledger.released.count x =
      (fill m (decide (1 < a1.ref)) a1.item).released.count x +
      (fill m (decide (1 < a2.ref)) a2.item).released.count x +
      (a2.item.map (alist_element m)).count x + (a1.item.map (alist_element m)).count x :=
    tables_released horders x
  have hfirst := fill_count (m := m) (decide (1 < a1.ref)) a1.item x hx
  have hsecond := fill_count (m := m) (decide (1 < a2.ref)) a2.item x hx
  have harrays : held r.arrays =
      kept m (decide (1 < a1.ref)) a1.item ++ kept m (decide (1 < a2.ref)) a2.item := by
    rw [← held_give_up (m := m) _ rfl, ← held_give_up (m := m) _ rfl, ← held_two]
    rfl
  have hmade : r.ledger.made = (fill m (decide (1 < a1.ref)) a1.item).made ++
      (fill m (decide (1 < a2.ref)) a2.item).made ++ [] := rfl
  rw [harrays, hmade, held_two, held_one hpassed.1, held_one hpassed.2]
  simp only [count_append, count_nil]
  omega

theorem same_count (hpassed : Passed (.same a)) (horders : Orders m (BothElements m (.same a)))
    (x : svalue_t) (hx : counted x = true) : let r := intersect_tables m (.same a)
    (held [a] ++ r.ledger.made).count x =
      (a.item.map (left_element m) ++ r.a3 ++ r.ledger.released).count x := by
  intro r
  have htwo : 2 ≤ a.ref := hpassed
  have hflag : decide (1 < a.ref) = true := decide_eq_true (by omega)
  have hreleased : r.a3.count x + r.ledger.released.count x =
      (fill m (decide (1 < a.ref)) a.item).released.count x +
      (fill m (decide (1 < a.ref)) (a.item.map (left_element m))).released.count x +
      (a.item.map (alist_element m)).count x + (a.item.map (alist_element m)).count x :=
    tables_released horders x
  have hfirst := fill_count (m := m) true a.item x hx
  have hsecond := fill_count (m := m) true (a.item.map (left_element m)) x hx
  have helements : (a.item.map (left_element m)).map (alist_element m) =
      a.item.map (alist_element m) := second_elements (.same a)
  have hkept : kept m true a.item = a.item.map (left_element m) := rfl
  rw [helements, kept_left, hkept] at hsecond
  rw [hkept] at hfirst
  have hmade : r.ledger.made = (fill m (decide (1 < a.ref)) a.item).made ++
      (fill m (decide (1 < a.ref)) (a.item.map (left_element m))).made ++ [] := rfl
  rw [hmade, held_one (by omega), hflag]
  rw [hflag] at hreleased
  simp only [count_append, count_nil]
  omega

theorem same_held (hpassed : Passed (.same a)) :
    held (intersect_tables m (.same a)).arrays =
      if a.ref = 2 then [] else a.item.map (left_element m) := by
  have htwo : 2 ≤ a.ref := hpassed
  have hflag : decide (a.ref > 1) = true := decide_eq_true (by omega)
  unfold intersect_tables held give_up operands_t.a1 operands_t.a2
  simp only [hflag, if_true, map_map, flatMap_cons, flatMap_nil, append_nil]
  have hleft : left_element m ∘ left_element m = left_element m := by
    funext v
    exact left_left v
  rw [hleft]
  split_ifs <;> first | rfl | omega

theorem free_array_count (h : 0 < a.ref) (x : svalue_t) :
    (held [a]).count x = (held [(free_array a).1]).count x + (free_array a).2.count x := by
  unfold free_array held
  by_cases hone : 1 < a.ref
  · have hpos : 0 < a.ref - 1 := by omega
    simp [h, hone, hpos]
  · simp [h, hone]

theorem empty_balanced (hpassed : Passed ops) (hempty : ops.a1.item = [] ∨ ops.a2.item = []) :
    Balanced m ops := by
  unfold Balanced intersect_array
  rw [if_pos hempty]
  simp only
  rw [counted_perm]
  intro x _
  cases ops with
  | same a =>
    have hnil : a.item = [] := hempty.elim id id
    have hfree : ∀ b : array_t, b.item = [] →
        (free_array b).1.item = [] ∧ (free_array b).2 = [] := by
      intro b hb
      unfold free_array
      split_ifs <;> exact ⟨by first | rfl | exact hb, by first | rfl | exact hb⟩
    obtain ⟨hfirst, hfreed⟩ := hfree a hnil
    obtain ⟨hsecond, hfreed2⟩ := hfree _ hfirst
    have hheld : ∀ b : array_t, b.item = [] → held [b] = [] := by
      intro b hb
      simp [held, hb]
    simp [operands_t.arrays, hheld _ hnil, hheld _ hsecond, hfreed, hfreed2]
  | apart a1 a2 =>
    have hfirst := free_array_count hpassed.1 x
    have hsecond := free_array_count hpassed.2 x
    simp only [operands_t.arrays, held_two a1, held_two (free_array a1).1, count_append,
      count_nil]
    omega

theorem balanced_iff (hpassed : Passed ops) (horders : Orders m (BothElements m ops)) :
    Balanced m ops ↔ ¬ Forgotten m ops := by
  by_cases hempty : ops.a1.item = [] ∨ ops.a2.item = []
  · refine ⟨fun _ => ?_, fun _ => empty_balanced hpassed hempty⟩
    cases ops with
    | apart a1 a2 => exact fun h => h
    | same a =>
      rintro ⟨-, v, hv, -⟩
      have hnil : a.item = [] := hempty.elim id id
      simp [hnil] at hv
  · have htables : intersect_array m ops = intersect_tables m ops := if_neg hempty
    unfold Balanced
    rw [htables]
    simp only
    rw [counted_perm]
    cases ops with
    | apart a1 a2 =>
      exact ⟨fun _ h => h, fun _ x hx => apart_balanced hpassed horders x hx⟩
    | same a =>
      simp only [operands_t.arrays]
      rw [same_held hpassed]
      have hcount := same_count hpassed horders
      by_cases htwo : a.ref = 2
      · rw [if_pos htwo]
        constructor
        · rintro h ⟨-, v, hv, hcounted⟩
          have hlost := h _ hcounted
          rw [hcount _ hcounted] at hlost
          have hpos : 0 < (a.item.map (left_element m)).count (left_element m v) :=
            count_pos_iff.mpr (mem_map_of_mem hv)
          simp only [count_append, count_nil] at hlost
          omega
        · intro hnot x hx
          have hzero : (a.item.map (left_element m)).count x = 0 := by
            rw [count_eq_zero, mem_map]
            rintro ⟨v, hv, rfl⟩
            exact hnot ⟨htwo, v, hv, hx⟩
          have := hcount x hx
          simp only [count_append, count_nil] at this ⊢
          omega
      · rw [if_neg htwo]
        exact ⟨fun _ h => htwo h.1, fun _ => hcount⟩

end

theorem intersection_of_orders
    (hsound : Sound m (ops.a1.item ++ ops.a2.item) (ops.a1.item ++ ops.a2.item))
    (horders : Orders m (BothElements m ops)) : IsIntersection m ops := by
  unfold IsIntersection intersect_array
  split_ifs with hempty
  · have hresult : ((ops.a2.item.map (value m)).filter fun v =>
        v ∈ ops.a1.item.map (value m)) = [] := by
      rcases hempty with h | h <;> simp [h]
    rw [hresult]
    cases ops <;> exact List.Perm.refl _
  · exact tables_content hsound horders

/-! ## Values that are not ordered -/

theorem one_not_found {items svt : List svalue_t} {w : svalue_t} (refs : Nat × Nat)
    (hitems : items ≠ []) (hsort : alist_sort m items = x :: svt)
    (hlt : alist_cmp m (alist_element m w) x < 0) :
    (intersect_array m (.apart ⟨refs.1, items⟩ ⟨refs.2, [w]⟩)).a3 = [] := by
  have hadvance : advance m (alist_element m w) (x :: svt) = x :: svt := by
    unfold advance
    rw [if_neg (by omega)]
  have hroot : heap_build m [w] 0 (fun _ => none) 0 = some (alist_element m w) := by
    simp [heap_build, heap_insert]
  have hempty : ¬ ((operands_t.apart ⟨refs.1, items⟩ ⟨refs.2, [w]⟩).a1.item = [] ∨
      (operands_t.apart ⟨refs.1, items⟩ ⟨refs.2, [w]⟩).a2.item = []) := by
    rintro (h | h)
    · exact hitems h
    · cases h
  unfold intersect_array
  rw [if_neg hempty]
  have hloop : (intersect_tables m (.apart ⟨refs.1, items⟩ ⟨refs.2, [w]⟩)).a3 =
      (intersect_loop m 1 1 (heap_build m [w] 0 fun _ => none) (alist_sort m items)).ntab := rfl
  rw [hloop, hsort, intersect_loop, hroot]
  simp only [hadvance, if_neg (show alist_cmp m (alist_element m w) x ≠ 0 by omega)]
  rfl

/-- What is in the second array is in the difference or in the intersection, as often as it was,
when the words of the elements are less than `2^31` apart. -/
theorem differences_and_intersections_add_up (a1 a2 : array_t)
    (hsound : Sound m (a1.item ++ a2.item) (a1.item ++ a2.item))
    (hnear : ∀ v ∈ a1.item ++ a2.item, ∀ w ∈ a1.item ++ a2.item,
      ((alist_element m v).u m).toInt - ((alist_element m w).u m).toInt < 2147483648) :
    ((subtract_array m a2.item a1.item ++ (intersect_array m (.apart a1 a2)).a3).map (value m)).Perm
      (a2.item.map (value m)) := by
  have horders : Orders m (BothElements m (.apart a1 a2)) := by
    refine orders_of_near ?_
    rintro x y ⟨v, hv, rfl⟩ ⟨w, hw, rfl⟩
    exact hnear v hv w hw
  have hfind : ∀ text, findstring m a1.item text = true →
      findstring m (a1.item ++ a2.item) text = true := by
    intro text h
    simp only [findstring, any_append, Bool.or_eq_true] at h ⊢
    tauto
  have hsubtract : Sound m a2.item a1.item :=
    ⟨fun text h => hsound.shared text (.inl (mem_append.mpr h.symm)),
      fun s t hs ht => hsound.apart s t (hfind s hs) (hfind t ht)⟩
  have hdifference : IsDifference m a2.item a1.item := by
    apply difference_of_orders hsubtract (horders.mono _)
    rintro x ⟨v, hv, hx⟩
    exact ⟨v, mem_append_left _ hv, hx⟩
  have hintersection : IsIntersection m (.apart a1 a2) := intersection_of_orders hsound horders
  rw [map_append, hdifference]
  refine (hintersection.append_left _).trans (perm_append_comm.trans ?_)
  simp only [decide_not]
  exact filter_append_perm _ _

theorem small_numbers_add_up :
    ((subtract_array quiet [.number 1, .number 1, .number 3] [.number 2, .number 1] ++
      (intersect_array quiet (.apart ⟨1, [.number 2, .number 1]⟩
        ⟨2, [.number 1, .number 1, .number 3]⟩)).a3).map (value quiet)).Perm
      ([.number 1, .number 1, .number 3].map (value quiet)) := by
  refine differences_and_intersections_add_up ⟨1, [.number 2, .number 1]⟩
    ⟨2, [.number 1, .number 1, .number 3]⟩ ⟨?_, ?_⟩ (by decide)
  · simp
  · intro s t hs
    simp [findstring, quiet] at hs

end mudos.array_difference

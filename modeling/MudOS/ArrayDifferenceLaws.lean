-- The difference of two arrays is what is in the first and not in the second, for every second
-- array whose elements `alist_cmp` puts in an order.
import MudOS.ArrayDifference
import MudOS.Library.HoleHeaps
import Mathlib.Tactic.NormNum

open mudos.hole_heaps Function List

namespace mudos.array_difference

variable {m : memory}
variable {i c n size : Nat} {v : svalue_t}
variable {svt : List svalue_t} {source w : svalue_t} {k steps : Nat}

/-! ## Comparing -/

theorem alist_cmp_self (x : svalue_t) : alist_cmp m x x = 0 := by simp [alist_cmp]

theorem alist_cmp_zero {x y : svalue_t} :
    alist_cmp m x y = 0 ↔ x.u m = y.u m ∧ x.type = y.type := by
  simp only [alist_cmp]
  split_ifs with hd
  · refine ⟨fun h => absurd h hd, ?_⟩
    rintro ⟨hu, -⟩
    rw [hu, BitVec.sub_self] at hd
    exact absurd rfl hd
  · have hu : x.u m = y.u m := by
      rw [Decidable.not_not] at hd
      have hzero : x.u m - y.u m = 0#32 := BitVec.eq_of_toInt_eq hd
      exact BitVec.sub_eq_iff_eq_add.mp hzero |>.trans (BitVec.zero_add _)
    simp only [hu, true_and]
    omega

theorem alist_cmp_symm {x y : svalue_t} (h : alist_cmp m x y = 0) : alist_cmp m y x = 0 := by
  obtain ⟨hu, htype⟩ := alist_cmp_zero.mp h
  exact alist_cmp_zero.mpr ⟨hu.symm, htype.symm⟩

theorem alist_cmp_congr_left {x y z : svalue_t} (h : alist_cmp m x y = 0) :
    alist_cmp m x z = alist_cmp m y z := by
  obtain ⟨hu, htype⟩ := alist_cmp_zero.mp h
  simp [alist_cmp, hu, htype]

theorem alist_cmp_congr_right {x y z : svalue_t} (h : alist_cmp m y z = 0) :
    alist_cmp m x y = alist_cmp m x z := by
  obtain ⟨hu, htype⟩ := alist_cmp_zero.mp h
  simp [alist_cmp, hu, htype]

theorem sub_toInt_opposite (a b : BitVec 32) (h : 0 ≤ (a - b).toInt) :
    (b - a).toInt = -(a - b).toInt := by
  have hpow : ((2 ^ 32 : Nat) : Int) = 4294967296 := by norm_num
  simp only [BitVec.toInt_sub, Int.bmod_def, hpow] at h ⊢
  omega

theorem alist_cmp_pos {x y : svalue_t} (h : 0 < alist_cmp m x y) : alist_cmp m y x ≤ 0 := by
  have hle : 0 ≤ (x.u m - y.u m).toInt := by
    simp only [alist_cmp] at h
    split_ifs at h <;> omega
  have hopposite := sub_toInt_opposite _ _ hle
  simp only [alist_cmp] at h ⊢
  rw [hopposite]
  split_ifs at h ⊢ <;> omega

/-! ## Orders -/

variable (m) in
def le (x y : svalue_t) : Prop := alist_cmp m x y ≤ 0

variable (m) in
structure Orders (S : svalue_t → Prop) : Prop where
  opposite : ∀ x y, S x → S y → alist_cmp m x y < 0 → 0 < alist_cmp m y x
  trans : ∀ x y z, S x → S y → S z → le m x y → le m y z → le m x z

theorem Orders.mono {S' : svalue_t → Prop} (h : Orders m S) (hsub : ∀ x, S' x → S x) :
    Orders m S' :=
  ⟨fun x y hx hy => h.opposite x y (hsub x hx) (hsub y hy),
    fun x y z hx hy hz => h.trans x y z (hsub x hx) (hsub y hy) (hsub z hz)⟩

structure Filled (S : svalue_t → Prop) (sv_tab : sv_tab_t) (n : Nat) : Prop where
  full : ∀ i, i < n → sv_tab i ≠ none
  values : ∀ i x, sv_tab i = some x → S x
  empty : ∀ i, n ≤ i → sv_tab i = none

variable {S : svalue_t → Prop} {f : sv_tab_t}

theorem Orders.composes (h : Orders m S) (hf : ∀ i x, f i = some x → S x) : Composes (le m) f :=
  fun _ _ _ x y z hx hy hz => h.trans x y z (hf _ x hx) (hf _ y hy) (hf _ z hz)

theorem above_some {j : Nat} {x y : svalue_t} (hx : f i = some x) (hy : f j = some y) :
    above m f i j = true ↔ 0 < alist_cmp m x y := by
  unfold above
  rw [hx, hy]
  exact decide_eq_true_iff

theorem orders_of_near
    (hnear : ∀ x y, S x → S y → (x.u m).toInt - (y.u m).toInt < 2147483648) : Orders m S := by
  have hcmp : ∀ x y, S x → S y → (x.u m - y.u m).toInt = (x.u m).toInt - (y.u m).toInt := by
    intro x y hx hy
    have hxy := hnear x y hx hy
    have hyx := hnear y x hy hx
    have hpow : ((2 ^ 32 : Nat) : Int) = 4294967296 := by norm_num
    simp only [BitVec.toInt_sub, Int.bmod_def, hpow]
    omega
  refine ⟨?_, ?_⟩
  · intro x y hx hy h
    simp only [alist_cmp, hcmp x y hx hy, hcmp y x hy hx] at h ⊢
    split_ifs at h ⊢ <;> omega
  · intro x y z hx hy hz hxy hyz
    simp only [le, alist_cmp, hcmp x y hx hy, hcmp y z hy hz, hcmp x z hx hz] at hxy hyz ⊢
    split_ifs at hxy hyz ⊢ <;> omega

/-! ## The heap is built -/

theorem sift_up_above (val : svalue_t) (steps : Nat) (h : above m f (parent c) c = true) :
    sift_up m val (steps + 1) c f =
      if parent c = 0 then update (update f c (f (parent c))) (parent c) (some val)
      else sift_up m val steps (parent c)
        (update (update f c (f (parent c))) (parent c) (some val)) := by
  unfold parent at h ⊢
  rw [sift_up]
  simp [h]

theorem sift_up_not_above (val : svalue_t) (steps : Nat) (h : above m f (parent c) c = false) :
    sift_up m val (steps + 1) c f = if parent c = 0 then f else sift_up m val steps (parent c) f := by
  unfold parent at h ⊢
  rw [sift_up]
  simp [h]

theorem sift_up_heap (hheap : Heap (le m) f) (val : svalue_t) (steps : Nat) (hc : 0 < c) :
    sift_up m val steps c f = f := by
  induction steps generalizing c with
  | zero => rfl
  | succ steps ih =>
    have hnot : above m f (parent c) c = false := by
      unfold above
      split
      · rename_i x y hx hy
        exact decide_eq_false (Int.not_lt.mpr (hheap.ordered c x y hc hx hy))
      · rfl
    rw [sift_up_not_above val steps hnot]
    split_ifs with hpar
    · rfl
    · exact ih (Nat.pos_of_ne_zero hpar)

theorem Filled.swap (hfilled : Filled S f n) {p : Nat} {x : svalue_t} (hc : c < n) (hp : p < n)
    (hx : f p = some x) (hv : f c = some v) :
    Filled S (update (update f c (some x)) p (some v)) n := by
  refine ⟨?_, ?_, ?_⟩
  · intro i hi
    by_cases hip : i = p
    · rw [hip, update_self]
      simp
    · rw [update_of_ne hip]
      by_cases hic : i = c
      · rw [hic, update_self]
        simp
      · rw [update_of_ne hic]
        exact hfilled.full i hi
  · intro i y hy
    by_cases hip : i = p
    · rw [hip, update_self] at hy
      cases hy
      exact hfilled.values c v hv
    · rw [update_of_ne hip] at hy
      by_cases hic : i = c
      · rw [hic, update_self] at hy
        cases hy
        exact hfilled.values p x hx
      · rw [update_of_ne hic] at hy
        exact hfilled.values i y hy
  · intro i hi
    rw [update_of_ne (by omega), update_of_ne (by omega)]
    exact hfilled.empty i hi

theorem sift_up_rising (horders : Orders m S) {val : svalue_t} (steps : Nat)
    (hfilled : Filled S f n) (hrising : Rising (le m) f c) (hval : f c = some val) (hc : 0 < c)
    (hn : c < n) (hsteps : c ≤ steps) :
    Heap (le m) (sift_up m val steps c f) ∧ Filled S (sift_up m val steps c f) n ∧
      (contents (sift_up m val steps c f) n).Perm (contents f n) := by
  induction steps generalizing c f with
  | zero => omega
  | succ steps ih =>
    have hlt := parent_lt hc
    have hpn : parent c < n := Nat.lt_trans hlt hn
    obtain ⟨x, hx⟩ := Option.ne_none_iff_exists'.mp (hfilled.full _ hpn)
    by_cases habove : above m f (parent c) c = true
    · have hle : le m val x := alist_cmp_pos ((above_some hx hval).mp habove)
      have hswap := hrising.swap (horders.composes hfilled.values) hc hx hval hle
      have hfilled' := hfilled.swap hn hpn hx hval
      have hperm := contents_swap hn hpn (Nat.ne_of_lt hlt) hval hx
      rw [sift_up_above val steps habove, hx]
      split_ifs with hpar
      · refine ⟨hswap.stop ?_, hfilled', hperm⟩
        intro a b hpos
        omega
      · obtain ⟨hheap, hfill, hcontents⟩ := ih hfilled' hswap (update_self _ _ _)
          (Nat.pos_of_ne_zero hpar) hpn (by omega)
        exact ⟨hheap, hfill, hcontents.trans hperm⟩
    · have hheap : Heap (le m) f := by
        refine hrising.stop ?_
        intro a b _ ha hb
        rw [above_some ha hb] at habove
        exact Int.not_lt.mp habove
      rw [sift_up_heap hheap val _ hc]
      exact ⟨hheap, hfilled, List.Perm.refl _⟩

theorem Filled.put (hfilled : Filled S f n) (hv : S v) :
    Filled S (update f n (some v)) (n + 1) := by
  refine ⟨?_, ?_, ?_⟩
  · intro i hi
    by_cases hin : i = n
    · rw [hin, update_self]
      simp
    · rw [update_of_ne hin]
      exact hfilled.full i (by omega)
  · intro i y hy
    by_cases hin : i = n
    · rw [hin, update_self] at hy
      cases hy
      exact hv
    · rw [update_of_ne hin] at hy
      exact hfilled.values i y hy
  · intro i hi
    rw [update_of_ne (by omega)]
    exact hfilled.empty i (by omega)

theorem contents_put_end (hempty : f n = none) (v : svalue_t) :
    (contents (update f n (some v)) (n + 1)).Perm (v :: contents f n) := by
  have hput := contents_put f (Nat.lt_succ_self n) v
  have hnone : update f n none = f := by rw [← hempty, update_eq_self]
  rwa [hnone, contents_succ f n, hempty, Option.toList_none, append_nil] at hput

theorem heap_insert_heap (horders : Orders m S) (hheap : Heap (le m) f) (hfilled : Filled S f n)
    (hv : S (alist_element m v)) :
    Heap (le m) (heap_insert m f n v) ∧ Filled S (heap_insert m f n v) (n + 1) ∧
      (contents (heap_insert m f n v) (n + 1)).Perm (alist_element m v :: contents f n) := by
  have hput := hfilled.put hv
  have hperm := contents_put_end (hfilled.empty n (Nat.le_refl n)) (alist_element m v)
  have hrising : Rising (le m) (update f n (some (alist_element m v))) n :=
    hheap.put (fun hpos => hfilled.full _ (parent_lt hpos)) hfilled.empty _
  simp only [heap_insert]
  split_ifs with hn
  · refine ⟨hrising.stop ?_, hput, hperm⟩
    intro x y hpos
    omega
  · obtain ⟨hheap', hfilled', hcontents⟩ := sift_up_rising horders n hput hrising
      (update_self _ _ _) (Nat.pos_of_ne_zero hn) (Nat.lt_succ_self n) (Nat.le_refl n)
    exact ⟨hheap', hfilled', hcontents.trans hperm⟩

theorem heap_build_heap (horders : Orders m S) {inlist : List svalue_t} (hheap : Heap (le m) f)
    (hfilled : Filled S f n) (hvalues : ∀ v ∈ inlist, S (alist_element m v)) :
    Heap (le m) (heap_build m inlist n f) ∧
      Filled S (heap_build m inlist n f) (n + inlist.length) ∧
      (contents (heap_build m inlist n f) (n + inlist.length)).Perm
        (inlist.map (alist_element m) ++ contents f n) := by
  induction inlist generalizing n f with
  | nil => exact ⟨hheap, hfilled, List.Perm.refl _⟩
  | cons v inlist ih =>
    obtain ⟨hheap', hfilled', hperm⟩ := heap_insert_heap horders hheap hfilled
      (hvalues v mem_cons_self)
    obtain ⟨hbuilt, hfill, hcontents⟩ := ih hheap' hfilled'
      fun w hw => hvalues w (mem_cons_of_mem v hw)
    have hlength : n + (v :: inlist).length = n + 1 + inlist.length := by
      rw [length_cons]
      omega
    rw [hlength]
    refine ⟨hbuilt, hfill, hcontents.trans ?_⟩
    rw [map_cons, cons_append]
    exact (hperm.append_left _).trans perm_middle

/-! ## The heap is emptied -/

theorem parent_eq (hi : 0 < i) : parent i = c ↔ i = c * 2 + 1 ∨ i = c * 2 + 1 + 1 := by
  unfold parent
  omega

theorem least_child_least (hend : ∀ i, size ≤ i → f i = none) {z : svalue_t} (hi : 0 < i)
    (hpar : parent i = c) (hz : f i = some z) :
    ∃ y, f (least_child m size f c) = some y ∧ le m y z := by
  have hself : le m z z := Int.le_of_eq (alist_cmp_self z)
  have hsize : i < size := by
    by_contra hge
    simp [hend i (by omega)] at hz
  simp only [least_child]
  rcases (parent_eq hi).mp hpar with rfl | rfl
  · split_ifs with hchild
    · obtain ⟨-, hsome, hnone | habove⟩ := hchild
      · simp [hz] at hnone
      · obtain ⟨y, hy⟩ := Option.isSome_iff_exists.mp hsome
        exact ⟨y, hy, alist_cmp_pos ((above_some hz hy).mp habove)⟩
    · exact ⟨z, hz, hself⟩
  · split_ifs with hchild
    · exact ⟨z, hz, hself⟩
    · have hboth : ¬ ((f (c * 2 + 1)).isNone = true ∨ above m f (c * 2 + 1) (c * 2 + 1 + 1) = true) :=
        fun h => hchild ⟨hsize, by rw [hz]; rfl, h⟩
      rw [not_or] at hboth
      obtain ⟨y, hy⟩ := Option.ne_none_iff_exists'.mp fun hnone : f (c * 2 + 1) = none =>
        hboth.1 (by rw [hnone]; rfl)
      have hle := hboth.2
      rw [above_some hy hz] at hle
      exact ⟨y, hy, Int.not_lt.mp hle⟩

theorem least_child_parent (size : Nat) (f : sv_tab_t) (c : Nat) :
    0 < least_child m size f c ∧ parent (least_child m size f c) = c := by
  unfold least_child parent
  simp only
  split_ifs <;> omega

theorem sift_down_sinking (steps : Nat) (hsinking : Sinking (le m) (update f c none) c)
    (hend : ∀ i, size ≤ i → f i = none) (hc : c < size) (hsteps : size ≤ c + steps) :
    Heap (le m) (sift_down m size steps c f) ∧
      (∀ i, size ≤ i → sift_down m size steps c f i = none) ∧
      (contents (sift_down m size steps c f) size).Perm (contents (update f c none) size) := by
  induction steps generalizing c f with
  | zero => omega
  | succ steps ih =>
    obtain ⟨hpos, hpar⟩ := least_child_parent (m := m) size f c
    have hlt := parent_lt hpos
    have hbelow : ∀ i, 0 < i → parent i = c → update f c none i = f i := by
      intro i hi hpi
      have := parent_lt hi
      exact update_of_ne (by omega) _ _
    rw [sift_down]
    split_ifs with hchild
    · obtain ⟨hk, hsome⟩ := hchild
      obtain ⟨y, hy⟩ := Option.isSome_iff_exists.mp hsome
      have hy' : update f c none (least_child m size f c) = some y := by
        rw [hbelow _ hpos hpar, hy]
      have hmove := hsinking.move hpos hpar hy' ?_
      · have hempty : update f c none c = none := update_self _ _ _
        have hperm := contents_move hc hk hempty hy'
        rw [update_idem] at hmove hperm
        have hend' : ∀ i, size ≤ i → update f c (some y) i = none := by
          intro i hi
          rw [update_of_ne (by omega)]
          exact hend i hi
        rw [hy]
        obtain ⟨hheap, hnone, hcontents⟩ := ih hmove hend' hk (by omega)
        exact ⟨hheap, hnone, hcontents.trans hperm⟩
      · intro i z hi hpi hz
        rw [hbelow i hi hpi] at hz
        obtain ⟨y', hleast, hle⟩ := least_child_least (m := m) hend hi hpi hz
        rw [hy] at hleast
        cases hleast
        exact hle
    · refine ⟨hsinking.stop ?_, ?_, List.Perm.refl _⟩
      · intro i hi hpi
        rw [hbelow i hi hpi]
        by_contra hsome
        obtain ⟨z, hz⟩ := Option.ne_none_iff_exists'.mp hsome
        obtain ⟨y, hy, -⟩ := least_child_least (m := m) hend hi hpi hz
        refine hchild ⟨?_, by rw [hy]; rfl⟩
        by_contra hge
        simp [hend _ (Nat.not_lt.mp hge)] at hy
      · intro i hi
        rw [update_of_ne (by omega)]
        exact hend i hi

theorem heap_take_sorted (horders : Orders m S) {left : Nat} (hheap : Heap (le m) f)
    (hvalues : ∀ i x, f i = some x → S x) (hend : ∀ i, size ≤ i → f i = none)
    (hleft : (contents f size).length = left) :
    (heap_take m size left f).Perm (contents f size) ∧
      (heap_take m size left f).Pairwise (le m) := by
  induction left generalizing f with
  | zero =>
    rw [length_eq_zero_iff] at hleft
    rw [hleft]
    exact ⟨List.Perm.refl _, List.Pairwise.nil⟩
  | succ left ih =>
    obtain ⟨v, hv⟩ := Option.ne_none_iff_exists'.mp (hheap.root_of_contents hleft)
    have hsize : 0 < size := by
      by_contra h
      simp [hend 0 (by omega)] at hv
    obtain ⟨hheap', hend', hperm⟩ :=
      sift_down_sinking (m := m) size hheap.take hend hsize (by omega)
    have htake := contents_take hsize hv
    have hlength := htake.length_eq
    rw [length_cons, ← hperm.length_eq, hleft] at hlength
    have hmem : ∀ x ∈ contents (sift_down m size size 0 f) size, x ∈ contents f size :=
      fun x hx => htake.mem_iff.mpr (mem_cons_of_mem v (hperm.mem_iff.mp hx))
    have hvalues' : ∀ i x, sift_down m size size 0 f i = some x → S x := by
      intro j x hx
      have hj : j < size := by
        by_contra hge
        simp [hend' j (Nat.not_lt.mp hge)] at hx
      obtain ⟨k, -, hk⟩ := mem_contents.mp (hmem x (mem_contents.mpr ⟨j, hj, hx⟩))
      exact hvalues k x hk
    obtain ⟨hrest, hsorted⟩ := ih hheap' hvalues' hend' (by omega)
    rw [heap_take, hv]
    refine ⟨((hrest.trans hperm).cons v).trans htake.symm, ?_⟩
    refine pairwise_cons.mpr ⟨?_, hsorted⟩
    intro x hx
    obtain ⟨k, -, hk⟩ := mem_contents.mp (hmem x (hrest.mem_iff.mp hx))
    exact hheap.root_least (horders.composes hvalues)
      (fun y => Int.le_of_eq (alist_cmp_self y)) hv hk

theorem alist_sort_sorted {inlist : List svalue_t} (horders : Orders m S)
    (hvalues : ∀ v ∈ inlist, S (alist_element m v)) :
    (alist_sort m inlist).Perm (inlist.map (alist_element m)) ∧
      (alist_sort m inlist).Pairwise (le m) := by
  have hheap : Heap (le m) fun _ => none :=
    ⟨fun _ _ _ => rfl, fun _ _ _ _ h => by cases h⟩
  have hfilled : Filled S (fun _ => none) 0 :=
    ⟨fun i hi => absurd hi (Nat.not_lt_zero i), fun _ _ h => (by cases h), fun _ _ => rfl⟩
  obtain ⟨hbuilt, hfill, hperm⟩ := heap_build_heap horders hheap hfilled hvalues
  rw [Nat.zero_add] at hfill hperm
  have hnil : contents (fun _ => (none : Option svalue_t)) 0 = [] := rfl
  rw [hnil, append_nil] at hperm
  have hlength := hperm.length_eq
  rw [length_map] at hlength
  obtain ⟨htaken, hsorted⟩ := heap_take_sorted horders hbuilt hfill.values hfill.empty hlength
  exact ⟨htaken.trans hperm, hsorted⟩

/-! ## The table is searched -/

theorem alist_search_sorted (horders : Orders m S) (hsorted : svt.Pairwise (le m))
    (hvalues : ∀ x ∈ svt, S x) (hk : svt[k]? = some source) (steps l : Nat) (h : Int) (hl : l ≤ k)
    (hh : (k : Int) ≤ h) (hlength : h < svt.length) (hsteps : h - l < steps) :
    alist_search m svt source steps l h = true := by
  induction steps generalizing l h with
  | zero => omega
  | succ steps ih =>
    have ho : ((l + h) / 2).toNat < svt.length := by omega
    have hle : ∀ (i j : Nat) (x y : svalue_t), svt[i]? = some x → svt[j]? = some y → i < j →
        le m x y := by
      intro i j x y hx hy hij
      obtain ⟨hi, rfl⟩ := List.getElem?_eq_some_iff.mp hx
      obtain ⟨hj, rfl⟩ := List.getElem?_eq_some_iff.mp hy
      exact pairwise_iff_getElem.mp hsorted i j hi hj hij
    have hv := getElem?_eq_getElem ho
    rw [alist_search]
    generalize hvalue : svt[((l + h) / 2).toNat] = v at hv
    simp only [hv]
    have hsource : S source := hvalues source (mem_of_getElem? hk)
    have hmem : S v := hvalues v (mem_of_getElem? hv)
    have hsame : ((l + h) / 2).toNat = k → alist_cmp m source v = 0 := by
      intro hok
      rw [hok, hk] at hv
      cases hv
      exact alist_cmp_self source
    have hbelow : alist_cmp m source v < 0 → k < ((l + h) / 2).toNat := by
      intro hneg
      have hpos := horders.opposite source v hsource hmem hneg
      rcases Nat.lt_trichotomy k ((l + h) / 2).toNat with hlt | heq | hgt
      · exact hlt
      · have := hsame heq.symm
        omega
      · have hvs : alist_cmp m v source ≤ 0 := hle _ _ v source hv hk hgt
        omega
    have habove : 0 < alist_cmp m source v → ((l + h) / 2).toNat < k := by
      intro hpos
      rcases Nat.lt_trichotomy k ((l + h) / 2).toNat with hlt | heq | hgt
      · have hsv : alist_cmp m source v ≤ 0 := hle _ _ source v hk hv hlt
        omega
      · have := hsame heq.symm
        omega
      · exact hgt
    split_ifs with hzero hneg hlow hhigh
    · rfl
    · have := hbelow hneg
      omega
    · have := hbelow hneg
      exact ih l _ hl (by omega) (by omega) (by omega)
    · have := habove (by omega)
      omega
    · have := habove (by omega)
      exact ih _ h (by omega) hh hlength (by omega)

theorem alist_search_found {l : Nat} {h : Int} (hfound : alist_search m svt source steps l h = true)
     :
    ∃ v ∈ svt, alist_cmp m source v = 0 := by
  induction steps generalizing l h with
  | zero => cases hfound
  | succ steps ih =>
    rw [alist_search] at hfound
    simp only at hfound
    split at hfound
    · cases hfound
    · rename_i v hv
      split_ifs at hfound with hzero hneg hlow hhigh
      · exact ⟨v, mem_of_getElem? hv, hzero⟩
      · exact ih hfound
      · exact ih hfound

theorem is_found_iff (horders : Orders m S) (hsorted : svt.Pairwise (le m))
    (hvalues : ∀ x ∈ svt, S x) (hsame : ∀ v ∈ svt, alist_cmp m source v = 0 → source = v) :
    is_found m svt source = true ↔ source ∈ svt := by
  constructor
  · intro hfound
    obtain ⟨v, hv, hzero⟩ := alist_search_found hfound
    rwa [hsame v hv hzero]
  · intro hmem
    obtain ⟨k, hk⟩ := mem_iff_getElem?.mp hmem
    obtain ⟨hlt, -⟩ := List.getElem?_eq_some_iff.mp hk
    exact alist_search_sorted horders hsorted hvalues hk _ 0 _ (Nat.zero_le k) (by omega) (by omega)
      (by omega)

/-! ## Values -/

variable (m) in
/-- Shared strings are in the table, and texts that are there together are at different
addresses. -/
structure Sound (minuend subtrahend : List svalue_t) : Prop where
  shared : ∀ text, .string true text ∈ minuend ∨ .string true text ∈ subtrahend →
    (m.strings text).isSome = true
  apart : ∀ s t, findstring m subtrahend s = true → findstring m subtrahend t = true →
    make_shared_string m s = make_shared_string m t → s = t

variable (m) in
/-- The result is what is in the first array and not in the second. -/
def IsDifference (minuend subtrahend : List svalue_t) : Prop :=
  (subtract_array m minuend subtrahend).map (value m) =
    (minuend.map (value m)).filter fun v => v ∉ subtrahend.map (value m)

theorem value_alist_element (v : svalue_t) : value m (alist_element m v) = value m v := by
  cases v with
  | object ob =>
    simp only [alist_element]
    split_ifs with h
    · simp [value, const0, h]
    · rfl
  | number n => rfl
  | string shared text => rfl
  | ref type address => rfl

theorem alist_element_eq : alist_element m v = alist_element m w ↔ value m v = value m w := by
  constructor
  · intro h
    rw [← value_alist_element v, h, value_alist_element]
  · intro h
    unfold alist_element value at *
    cases v <;> cases w <;> simp only at h ⊢ <;> grind [const0]

theorem ref_code_inj {s t : ref_t} (h : s.code = t.code) : s = t := by
  cases s <;> cases t <;> first | rfl | exact absurd h (by decide)

variable {minuend subtrahend : List svalue_t}

theorem findstring_of_mem {shared : Bool} {text : List UInt8}
    (h : .string shared text ∈ subtrahend) : findstring m subtrahend text = true := by
  unfold findstring
  rw [Bool.or_eq_true, any_eq_true]
  exact .inr ⟨_, h, decide_eq_true rfl⟩

theorem ref_code_ne (t : ref_t) : t.code ≠ 0x2 ∧ t.code ≠ 0x4 ∧ t.code ≠ 0x10 := by
  cases t <;> decide

theorem eq_of_u {x y : svalue_t} (hu : x.u m = y.u m) (htype : x.type = y.type)
    (hstring : ∀ shared text, x ≠ .string shared text) : x = y := by
  cases x with
  | string shared text => exact absurd rfl (hstring shared text)
  | number n =>
    cases y with
    | number k => rw [show n = k from hu]
    | string shared text | object ob => exact absurd htype (by simp [svalue_t.type])
    | ref type address => exact absurd htype.symm (ref_code_ne type).1
  | object ob =>
    cases y with
    | number k | string shared text => exact absurd htype (by simp [svalue_t.type])
    | object ob' => rw [show ob = ob' from hu]
    | ref type address => exact absurd htype.symm (ref_code_ne type).2.2
  | ref type address =>
    cases y with
    | number k => exact absurd htype (ref_code_ne type).1
    | string shared text => exact absurd htype (ref_code_ne type).2.1
    | object ob => exact absurd htype (ref_code_ne type).2.2
    | ref type' address' => rw [ref_code_inj htype, show address = address' from hu]

theorem string_of_type {x : svalue_t} (h : x.type = 0x4) : ∃ shared text, x = .string shared text := by
  cases x with
  | string shared text => exact ⟨shared, text, rfl⟩
  | number n | object ob => exact absurd h (by simp [svalue_t.type])
  | ref type address => exact absurd h (ref_code_ne type).2.1

theorem string_of_value {text : List UInt8} (h : value m v = .string text) :
    ∃ shared, v = .string shared text := by
  unfold value at h
  split at h
  · cases h
  · cases h
    exact ⟨_, rfl⟩
  · split_ifs at h
  · cases h

theorem alist_element_of_zero (hsound : Sound m minuend subtrahend) (hw : w ∈ subtrahend)
    (hv : ∀ shared text, v = .string shared text → findstring m subtrahend text = true)
    (hzero : alist_cmp m (alist_element m v) (alist_element m w) = 0) :
    alist_element m v = alist_element m w := by
  obtain ⟨hu, htype⟩ := alist_cmp_zero.mp hzero
  by_cases hstring : ∃ shared text, alist_element m v = .string shared text
  · obtain ⟨shared, text, hx⟩ := hstring
    obtain ⟨shared', text', hy⟩ := string_of_type (x := alist_element m w) (by rw [← htype, hx]; rfl)
    have hvtext : value m v = .string text := by
      rw [← value_alist_element, hx]
      rfl
    have hwtext : value m w = .string text' := by
      rw [← value_alist_element, hy]
      rfl
    obtain ⟨s, rfl⟩ := string_of_value hvtext
    obtain ⟨s', rfl⟩ := string_of_value hwtext
    have htext := hsound.apart text text' (hv s text rfl) (findstring_of_mem hw) hu
    rw [htext]
    rfl
  · refine eq_of_u hu htype ?_
    intro shared text hx
    exact hstring ⟨shared, text, hx⟩

variable (m) in
def Elements (subtrahend : List svalue_t) (x : svalue_t) : Prop :=
  ∃ v ∈ subtrahend, x = alist_element m v

theorem found_iff (hsound : Sound m minuend subtrahend) (horders : Orders m (Elements m subtrahend))
    (hv : ∀ shared text, v = .string shared text → findstring m subtrahend text = true) :
    is_found m (alist_sort m subtrahend) (alist_element m v) = true ↔
      value m v ∈ subtrahend.map (value m) := by
  have helements : ∀ w ∈ subtrahend, Elements m subtrahend (alist_element m w) :=
    fun w hw => ⟨w, hw, rfl⟩
  obtain ⟨hperm, hsorted⟩ := alist_sort_sorted horders helements
  have hmem : ∀ x, x ∈ alist_sort m subtrahend ↔ ∃ w ∈ subtrahend, alist_element m w = x := by
    intro x
    rw [hperm.mem_iff, mem_map]
  rw [is_found_iff horders hsorted, hmem, mem_map]
  · simp [alist_element_eq]
  · intro x hx
    obtain ⟨w, hw, rfl⟩ := (hmem x).mp hx
    exact ⟨w, hw, rfl⟩
  · intro x hx hzero
    obtain ⟨w, hw, rfl⟩ := (hmem x).mp hx
    exact alist_element_of_zero hsound hw hv hzero

theorem subtract_element_value (hsound : Sound m minuend subtrahend)
    (horders : Orders m (Elements m subtrahend)) (hmem : v ∈ minuend) :
    (subtract_element m subtrahend (alist_sort m subtrahend) v).map (value m) =
      if value m v ∈ subtrahend.map (value m) then none else some (value m v) := by
  have hkeep : ∀ {source : svalue_t}, value m source = value m v →
      (∀ shared text, v = .string shared text → findstring m subtrahend text = true) →
      (if is_found m (alist_sort m subtrahend) (alist_element m v) then none
        else some source).map (value m) =
      if value m v ∈ subtrahend.map (value m) then none else some (value m v) := by
    intro source hsource hv
    simp only [found_iff hsound horders hv]
    split_ifs
    · rfl
    · rw [Option.map_some, hsource]
  cases v with
  | number n | ref type address => exact hkeep rfl fun _ _ h => by cases h
  | object ob => exact hkeep (value_alist_element (.object ob)) fun _ _ h => by cases h
  | string shared text =>
    cases shared with
    | true =>
      refine hkeep rfl ?_
      intro shared t h
      cases h
      rw [findstring, hsound.shared text (.inl hmem), Bool.true_or]
    | false =>
      cases hfind : findstring m subtrahend text with
      | true =>
        simp only [subtract_element, hfind, Bool.true_and]
        refine hkeep rfl ?_
        intro shared t h
        cases h
        exact hfind
      | false =>
        have hnot : value m (.string false text) ∉ subtrahend.map (value m) := by
          intro hin
          obtain ⟨w, hw, hvalue⟩ := mem_map.mp hin
          obtain ⟨shared, rfl⟩ := string_of_value hvalue
          simp [findstring_of_mem hw] at hfind
        simp only [subtract_element, hfind, Bool.false_and, Bool.false_eq_true, if_false, if_neg hnot]
        rfl

theorem difference_of_orders (hsound : Sound m minuend subtrahend)
    (horders : Orders m (Elements m subtrahend)) : IsDifference m minuend subtrahend := by
  unfold IsDifference subtract_array
  split_ifs with hnil
  · subst hnil
    simp
  · have hone := fun v (hv : v ∈ minuend) => subtract_element_value hsound horders hv
    clear hsound
    induction minuend with
    | nil => rfl
    | cons v rest ih =>
      have hrest := ih fun w hw => hone w (mem_cons_of_mem v hw)
      have hv := hone v mem_cons_self
      rw [filterMap_cons, map_cons, filter_cons]
      split_ifs at hv with hin
      · rw [Option.map_eq_none_iff] at hv
        simp only [hv, hin, not_true_eq_false, decide_false, Bool.false_eq_true, if_false]
        exact hrest
      · obtain ⟨s, hs, hvalue⟩ := Option.map_eq_some_iff.mp hv
        simp only [hs, hin, not_false_eq_true, decide_true, if_true, map_cons, hvalue]
        rw [hrest]

/-! ## Values that are not ordered -/

theorem not_above {j : Nat} {x y : svalue_t} (hx : f i = some x) (hy : f j = some y)
    (h : alist_cmp m x y ≤ 0) : above m f i j = false := by
  rw [Bool.eq_false_iff, ne_eq, above_some hx hy]
  exact Int.not_lt.mpr h

theorem alist_sort_pair (h : alist_cmp m (alist_element m v) (alist_element m w) < 0) :
    alist_sort m [v, w] = [alist_element m v, alist_element m w] := by
  have hnot : ¬ 0 < alist_cmp m (alist_element m v) (alist_element m w) := by omega
  simp [alist_sort, heap_build, heap_insert, sift_up, heap_take, sift_down, least_child, above,
    update, hnot]

def slots (l : List (Option svalue_t)) : sv_tab_t := fun i => l[i]?.join

theorem update_slots {l : List (Option svalue_t)} (hi : i < l.length) (v : Option svalue_t) :
    update (slots l) i v = slots (l.set i v) := by
  funext j
  by_cases hj : j = i
  · subst hj
    rw [update_self, slots, getElem?_set_self hi]
    rfl
  · rw [update_of_ne hj, slots, slots, getElem?_set_ne (Ne.symm hj)]

theorem sift_down_child (hchild : least_child m size f c = k) (hk : k < size)
    (hsome : (f k).isSome = true) : sift_down m size (steps + 1) c f =
      sift_down m size steps k (update f c (f k)) := by
  subst hchild
  rw [sift_down]
  exact if_pos ⟨hk, hsome⟩

theorem sift_down_leaf (hchild : least_child m size f c = k)
    (hnone : ¬ (k < size ∧ (f k).isSome = true)) :
    sift_down m size (steps + 1) c f = update f c none := by
  subst hchild
  rw [sift_down]
  exact if_neg hnone

section

variable {x y z : svalue_t}

theorem heap_take_ring (hyx : 0 < alist_cmp m y x) :
    heap_take m 4 4 (slots [some x, some y, some x, some z]) = [x, x, y, z] := by
  have hfirst : sift_down m 4 4 0 (slots [some x, some y, some x, some z]) =
      slots [some x, some y, none, some z] := by
    have habove : above m (slots [some x, some y, some x, some z]) 1 2 = true :=
      (above_some rfl rfl).mpr hyx
    rw [sift_down_child (if_pos ⟨by decide, rfl, .inr habove⟩) (by decide) rfl,
      update_slots (by simp), sift_down_leaf (if_neg (by simp)) (by simp), update_slots (by simp)]
    rfl
  have hsecond : sift_down m 4 4 0 (slots [some x, some y, none, some z]) =
      slots [some y, some z, none, none] := by
    have hone : least_child m 4 (slots [some x, some y, none, some z]) 0 = 1 := by
      simp [least_child, slots]
    have hthree : least_child m 4 (slots [some y, some y, none, some z]) 1 = 3 := by
      simp [least_child, slots]
    rw [sift_down_child hone (by decide) rfl, update_slots (by simp)]
    refine (sift_down_child hthree (by decide) rfl).trans ?_
    rw [update_slots (by simp), sift_down_leaf (if_neg (by simp)) (by simp), update_slots (by simp)]
    rfl
  have hthird : sift_down m 4 4 0 (slots [some y, some z, none, none]) =
      slots [some z, none, none, none] := by
    have hone : least_child m 4 (slots [some y, some z, none, none]) 0 = 1 := by
      simp [least_child, slots]
    have hthree : least_child m 4 (slots [some z, some z, none, none]) 1 = 3 := by
      simp [least_child, slots]
    rw [sift_down_child hone (by decide) rfl, update_slots (by simp)]
    refine (sift_down_leaf hthree (by simp [slots])).trans ?_
    rw [update_slots (by simp)]
    rfl
  have hstep : ∀ (left : Nat) (v : svalue_t) (l : List (Option svalue_t)),
      heap_take m 4 (left + 1) (slots (some v :: l)) =
        v :: heap_take m 4 left (sift_down m 4 4 0 (slots (some v :: l))) := fun _ _ _ => rfl
  rw [hstep, hfirst, hstep, hsecond, hstep, hthird, hstep]
  rfl

theorem heap_build_ring {u w : svalue_t} (hxy : alist_cmp m x y ≤ 0) (hyz : alist_cmp m y z ≤ 0)
    (hu : alist_element m u = x) (hv : alist_element m v = y) (hw : alist_element m w = z) :
    heap_build m [u, v, u, w] 0 (fun _ => none) = slots [some x, some y, some x, some z] := by
  have hxx : alist_cmp m x x ≤ 0 := Int.le_of_eq (alist_cmp_self x)
  have hnone : (fun _ => none) = slots [none, none, none, none] := by
    funext i
    rcases i with _ | _ | _ | _ | i <;> rfl
  have hfirst : heap_insert m (slots [none, none, none, none]) 0 u =
      slots [some x, none, none, none] := by
    rw [heap_insert, hu, update_slots (by simp)]
    rfl
  have hsecond : heap_insert m (slots [some x, none, none, none]) 1 v =
      slots [some x, some y, none, none] := by
    have hnot : above m (slots [some x, some y, none, none]) 0 1 = false := not_above rfl rfl hxy
    rw [heap_insert, hv, update_slots (by simp)]
    exact sift_up_not_above (c := 1) y 0 hnot
  have hthird : heap_insert m (slots [some x, some y, none, none]) 2 u =
      slots [some x, some y, some x, none] := by
    have hnot : above m (slots [some x, some y, some x, none]) 0 2 = false := not_above rfl rfl hxx
    rw [heap_insert, hu, update_slots (by simp)]
    exact sift_up_not_above (c := 2) x 1 hnot
  have hfourth : heap_insert m (slots [some x, some y, some x, none]) 3 w =
      slots [some x, some y, some x, some z] := by
    have hleaf : above m (slots [some x, some y, some x, some z]) 1 3 = false :=
      not_above rfl rfl hyz
    have hinner : above m (slots [some x, some y, some x, some z]) 0 1 = false :=
      not_above rfl rfl hxy
    rw [heap_insert, hw, update_slots (by simp)]
    exact (sift_up_not_above (c := 3) z 2 hleaf).trans (sift_up_not_above (c := 1) z 1 hinner)
  rw [hnone, heap_build, hfirst, heap_build, hsecond, heap_build, hthird, heap_build, hfourth]
  rfl

theorem alist_search_pair (hyx : alist_cmp m y x < 0) : is_found m [x, y] y = false := by
  have hne : alist_cmp m y x ≠ 0 := by omega
  simp [is_found, alist_search, hne, hyx]

theorem alist_search_ring (hzx : alist_cmp m z x < 0) : is_found m [x, x, y, z] z = false := by
  have hne : alist_cmp m z x ≠ 0 := by omega
  simp [is_found, alist_search, hne, hzx]

end

theorem found_of_difference (hmem : v ∈ subtrahend) (h : IsDifference m [v] subtrahend) :
    is_found m (alist_sort m subtrahend) (alist_element m v) = true := by
  have hnil : subtrahend ≠ [] := ne_nil_of_mem hmem
  have hin : value m v ∈ subtrahend.map (value m) := mem_map_of_mem hmem
  have hnone : subtract_element m subtrahend (alist_sort m subtrahend) v = none := by
    unfold IsDifference subtract_array at h
    rw [if_neg hnil] at h
    cases hone : subtract_element m subtrahend (alist_sort m subtrahend) v with
    | none => rfl
    | some s =>
      simp only [filterMap_cons, hone, filterMap_nil, map_cons, map_nil,
        filter_cons, hin, not_true_eq_false, decide_false, Bool.false_eq_true, if_false,
        filter_nil] at h
      cases h
  by_contra hnot
  rw [Bool.not_eq_true] at hnot
  unfold subtract_element at hnone
  cases v with
  | number n => simp [show is_found m _ (.number n) = false from hnot] at hnone
  | ref type address => simp [show is_found m _ (.ref type address) = false from hnot] at hnone
  | object ob =>
    have hobject := hnot
    unfold alist_element at hobject
    simp only at hobject hnone
    simp [hobject] at hnone
  | string shared text =>
    have hstring : is_found m (alist_sort m subtrahend) (.string true text) = false := hnot
    cases shared <;> simp [hstring] at hnone

theorem orders_of_sorted
    (hpair : ∀ v w, S v → S w → alist_sort m [v, w] = [alist_element m v, alist_element m w] →
      ¬ alist_cmp m (alist_element m w) (alist_element m v) < 0)
    (hring : ∀ u v w, S u → S v → S w → alist_sort m [u, v, u, w] =
        [alist_element m u, alist_element m u, alist_element m v, alist_element m w] →
      ¬ alist_cmp m (alist_element m w) (alist_element m u) < 0) :
    Orders m fun x => ∃ v, S v ∧ x = alist_element m v := by
  have hopposite : ∀ v w, S v → S w → alist_cmp m (alist_element m v) (alist_element m w) < 0 →
      0 < alist_cmp m (alist_element m w) (alist_element m v) := by
    intro v w hv hw hlt
    by_contra hle
    have hneg : alist_cmp m (alist_element m w) (alist_element m v) < 0 := by
      refine lt_of_le_of_ne (Int.not_lt.mp hle) ?_
      intro hzero
      have := alist_cmp_symm hzero
      omega
    exact hpair v w hv hw (alist_sort_pair hlt) hneg
  refine ⟨?_, ?_⟩
  · rintro x y ⟨v, hv, rfl⟩ ⟨w, hw, rfl⟩ hlt
    exact hopposite v w hv hw hlt
  · rintro x y z ⟨u, hu, rfl⟩ ⟨v, hv, rfl⟩ ⟨w, hw, rfl⟩ huv hvw
    by_contra hnot
    have hwu : 0 < alist_cmp m (alist_element m u) (alist_element m w) := Int.not_le.mp hnot
    have huv' : alist_cmp m (alist_element m u) (alist_element m v) < 0 := by
      refine lt_of_le_of_ne huv ?_
      intro hzero
      rw [alist_cmp_congr_left hzero] at hwu
      exact absurd hvw (Int.not_le.mpr hwu)
    have hneg : alist_cmp m (alist_element m w) (alist_element m u) < 0 := by
      refine lt_of_le_of_ne (alist_cmp_pos hwu) ?_
      intro hzero
      have := alist_cmp_symm hzero
      omega
    have hsort : alist_sort m [u, v, u, w] =
        [alist_element m u, alist_element m u, alist_element m v, alist_element m w] := by
      have hbuild := heap_build_ring huv hvw rfl rfl rfl
      rw [alist_sort, hbuild]
      exact heap_take_ring (hopposite u v hu hv huv')
    exact hring u v w hu hv hw hsort hneg

def quiet : memory where
  destructed _ := false
  strings _ := none
  malloc _ := 0

end mudos.array_difference

-- Binary heaps in slots of which some are empty. A value rises from a leaf, and a hole
-- sinks from the root until nothing is below it.
import Mathlib.Data.List.Basic

open Function List

namespace mudos.hole_heaps

variable {α : Type*}
variable {i n : Nat}

def parent (i : Nat) : Nat := (i - 1) / 2

theorem parent_lt (h : 0 < i) : parent i < i := by
  unfold parent
  omega

/-! ## What is in the slots -/

def contents (f : Nat → Option α) (n : Nat) : List α := (range n).filterMap f

theorem contents_succ (f : Nat → Option α) (n : Nat) :
    contents f (n + 1) = contents f n ++ (f n).toList := by
  unfold contents
  rw [range_succ, filterMap_append]
  cases h : f n <;> simp [h]

theorem contents_congr {f g : Nat → Option α} (h : ∀ i, i < n → f i = g i) :
    contents f n = contents g n :=
  filterMap_congr fun i hi => h i (mem_range.mp hi)

theorem contents_put (f : Nat → Option α) (hi : i < n) (a : α) :
    (contents (update f i (some a)) n).Perm
      (a :: contents (update f i none) n) := by
  induction n with
  | zero => exact absurd hi (Nat.not_lt_zero i)
  | succ n ih =>
    rw [contents_succ, contents_succ]
    rcases Nat.lt_or_eq_of_le (Nat.le_of_lt_succ hi) with hlt | rfl
    · rw [update_of_ne (Nat.ne_of_gt hlt), update_of_ne (Nat.ne_of_gt hlt)]
      exact (ih hlt).append_right _
    · have hsame : contents (update f i (some a)) i =
          contents (update f i none) i := by
        apply contents_congr
        intro j hj
        rw [update_of_ne (Nat.ne_of_lt hj), update_of_ne (Nat.ne_of_lt hj)]
      rw [hsame, update_self, update_self, Option.toList_some,
        Option.toList_none, append_nil]
      exact perm_append_singleton _ _

theorem contents_take {f : Nat → Option α} (hi : i < n) {a : α} (ha : f i = some a) :
    (contents f n).Perm (a :: contents (update f i none) n) := by
  have hput := contents_put f hi a
  rwa [← ha, update_eq_self] at hput

theorem mem_contents {f : Nat → Option α} {a : α} :
    a ∈ contents f n ↔ ∃ i, i < n ∧ f i = some a := by
  unfold contents
  simp

theorem contents_move {f : Nat → Option α} {j : Nat} (hi : i < n) (hj : j < n) {a : α}
    (hempty : f i = none) (ha : f j = some a) :
    (contents (update (update f i (some a)) j none) n).Perm (contents f n) := by
  have hij : j ≠ i := by
    rintro rfl
    simp [hempty] at ha
  rw [update_comm hij.symm]
  have hput := contents_put (update f j none) hi a
  have hsame : update (update f j none) i none = update f j none := by
    refine update_eq_iff.mpr ⟨?_, fun _ _ => rfl⟩
    rw [update_of_ne hij.symm, hempty]
  rw [hsame] at hput
  exact hput.trans (contents_take hj ha).symm

theorem contents_swap {f : Nat → Option α} {j : Nat} (hi : i < n) (hj : j < n) (hij : j ≠ i)
    {a b : α} (ha : f i = some a) (hb : f j = some b) :
    (contents (update (update f i (some b)) j (some a)) n).Perm
      (contents f n) := by
  have hput := contents_put (update f i (some b)) hj a
  have htake := contents_take hi ha
  have hempty : update f i none i = none := update_self _ _ _
  have hother : update f i none j = some b := by rw [update_of_ne hij, hb]
  have hmove := contents_move hi hj hempty hother
  rw [update_idem] at hmove
  exact hput.trans ((hmove.cons a).trans htake.symm)

/-! ## Order -/

variable (le : α → α → Prop)

def Composes (f : Nat → Option α) : Prop :=
  ∀ i j k x y z, f i = some x → f j = some y → f k = some z → le x y → le y z → le x z

/-- Nothing is below an empty slot, and a value is not above one that goes before it. -/
structure Heap (f : Nat → Option α) : Prop where
  closed : ∀ i, 0 < i → f (parent i) = none → f i = none
  ordered : ∀ i x y, 0 < i → f (parent i) = some x → f i = some y → le x y

/-- The value in slot `c` may have to rise. -/
structure Rising (f : Nat → Option α) (c : Nat) : Prop where
  closed : ∀ i, 0 < i → f (parent i) = none → f i = none
  ordered : ∀ i x y, 0 < i → i ≠ c → f (parent i) = some x → f i = some y → le x y
  grand : ∀ i x y, 0 < c → 0 < i → parent i = c → f (parent c) = some x → f i = some y → le x y

/-- The slot `c` is empty, and what is below it may have to come up. -/
structure Sinking (f : Nat → Option α) (c : Nat) : Prop where
  hole : f c = none
  above : 0 < c → f (parent c) ≠ none
  closed : ∀ i, 0 < i → parent i ≠ c → f (parent i) = none → f i = none
  ordered : ∀ i x y, 0 < i → f (parent i) = some x → f i = some y → le x y
  grand : ∀ i x y, 0 < c → 0 < i → parent i = c → f (parent c) = some x → f i = some y → le x y

variable {le} {f : Nat → Option α} {c : Nat}

theorem Rising.stop (h : Rising le f c)
    (hc : ∀ x y, 0 < c → f (parent c) = some x → f c = some y → le x y) : Heap le f := by
  refine ⟨h.closed, ?_⟩
  intro i x y hi hx hy
  by_cases hic : i = c
  · subst hic
    exact hc x y hi hx hy
  · exact h.ordered i x y hi hic hx hy

theorem Rising.swap (h : Rising le f c) (hcomposes : Composes le f) (hc : 0 < c) {x v : α} (hx : f (parent c) = some x)
    (hv : f c = some v) (hle : le v x) :
    Rising le (update (update f c (some x)) (parent c) (some v)) (parent c) := by
  have hlt := parent_lt hc
  have hother : ∀ i, i ≠ c → i ≠ parent c →
      update (update f c (some x)) (parent c) (some v) i = f i := by
    intro i hic hip
    rw [update_of_ne hip, update_of_ne hic]
  have hself : update (update f c (some x)) (parent c) (some v) c = some x := by
    rw [update_of_ne (Nat.ne_of_gt hlt), update_self]
  have hnone : ∀ i, update (update f c (some x)) (parent c) (some v) i = none →
      f i = none ∧ i ≠ c ∧ i ≠ parent c := by
    intro i hi
    have hip : i ≠ parent c := by
      rintro rfl
      simp at hi
    have hic : i ≠ c := by
      rintro rfl
      simp [hself] at hi
    rw [hother i hic hip] at hi
    exact ⟨hi, hic, hip⟩
  refine ⟨?_, ?_, ?_⟩
  · intro i hi hpar
    obtain ⟨hpar, -, -⟩ := hnone _ hpar
    have hempty := h.closed i hi hpar
    have hic : i ≠ c := by
      rintro rfl
      simp [hv] at hempty
    have hip : i ≠ parent c := by
      rintro rfl
      simp [hx] at hempty
    rwa [hother i hic hip]
  · intro i a b hi hip ha hb
    by_cases hic : i = c
    · subst hic
      rw [update_self] at ha
      rw [hself] at hb
      cases ha
      cases hb
      exact hle
    · rw [hother i hic hip] at hb
      by_cases hpc : parent i = c
      · rw [hpc, hself] at ha
        cases ha
        exact h.grand i x b hc hi hpc hx hb
      · by_cases hpp : parent i = parent c
        · rw [hpp, update_self] at ha
          cases ha
          have hxb := h.ordered i x b hi hic (by rw [hpp]; exact hx) hb
          exact hcomposes c (parent c) i v x b hv hx hb hle hxb
        · rw [hother _ hpc hpp] at ha
          exact h.ordered i a b hi hic ha hb
  · intro i a b hpc hi hpar ha hb
    have hpplt := parent_lt hpc
    rw [hother _ (by omega) (by omega)] at ha
    have hax := h.ordered (parent c) a x hpc (by omega) ha hx
    by_cases hic : i = c
    · subst hic
      rw [hself] at hb
      cases hb
      exact hax
    · have hip : i ≠ parent c := by
        rintro rfl
        omega
      rw [hother i hic hip] at hb
      have hxb := h.ordered i x b hi hic (by rw [hpar]; exact hx) hb
      exact hcomposes _ _ _ a x b ha hx hb hax hxb

theorem Sinking.move (h : Sinking le f c) {k : Nat} {y : α} (hk : 0 < k) (hpar : parent k = c)
    (hy : f k = some y) (hleast : ∀ i z, 0 < i → parent i = c → f i = some z → le y z) :
    Sinking le (update (update f c (some y)) k none) k := by
  have hlt := parent_lt hk
  rw [hpar] at hlt
  have hother : ∀ i, i ≠ c → i ≠ k →
      update (update f c (some y)) k none i = f i := by
    intro i hic hik
    rw [update_of_ne hik, update_of_ne hic]
  have hself : update (update f c (some y)) k none c = some y := by
    rw [update_of_ne (Nat.ne_of_lt hlt), update_self]
  have hsome : ∀ i z, update (update f c (some y)) k none i = some z → i ≠ k := by
    rintro i z hz rfl
    simp at hz
  refine ⟨update_self _ _ _, ?_, ?_, ?_, ?_⟩
  · intro _
    rw [hpar, hself]
    simp
  · intro i hi hpk hnone
    have hpc : parent i ≠ c := by
      intro hpc
      simp [hpc, hself] at hnone
    rw [hother _ hpc hpk] at hnone
    have hempty := h.closed i hi hpc hnone
    by_cases hik : i = k
    · rw [hik, update_self]
    · by_cases hic : i = c
      · rw [hic] at hi hnone
        exact absurd hnone (h.above hi)
      · rwa [hother i hic hik]
  · intro i a b hi ha hb
    have hik := hsome i b hb
    have hpk := hsome _ a ha
    by_cases hic : i = c
    · subst hic
      have hpi := parent_lt hi
      rw [hself] at hb
      cases hb
      rw [hother _ (Nat.ne_of_lt hpi) hpk] at ha
      exact h.grand k a y hi hk hpar ha hy
    · rw [hother i hic hik] at hb
      by_cases hpc : parent i = c
      · rw [hpc, hself] at ha
        cases ha
        exact hleast i b hi hpc hb
      · rw [hother _ hpc hpk] at ha
        exact h.ordered i a b hi ha hb
  · intro i a b _ hi hpi ha hb
    have hik := parent_lt hi
    rw [hpar, hself] at ha
    cases ha
    rw [hother i (by omega) (by omega)] at hb
    exact h.ordered i y b hi (by rw [hpi]; exact hy) hb

theorem Sinking.stop (h : Sinking le f c) (hbelow : ∀ i, 0 < i → parent i = c → f i = none) :
    Heap le f := by
  refine ⟨?_, h.ordered⟩
  intro i hi hpar
  by_cases hc : parent i = c
  · exact hbelow i hi hc
  · exact h.closed i hi hc hpar

theorem Heap.put (h : Heap le f) (hpar : 0 < n → f (parent n) ≠ none)
    (hend : ∀ i, n ≤ i → f i = none) (v : α) : Rising le (update f n (some v)) n := by
  have hother : ∀ i, i ≠ n → update f n (some v) i = f i :=
    fun i hi => update_of_ne hi _ _
  have hbelow : ∀ i, 0 < i → n ≤ parent i → f i = none :=
    fun i hi hle => hend i (Nat.le_trans hle (Nat.le_of_lt (parent_lt hi)))
  refine ⟨?_, ?_, ?_⟩
  · intro i hi hnone
    have hpn : parent i ≠ n := by
      intro hpn
      simp [hpn] at hnone
    rw [hother _ hpn] at hnone
    by_cases hin : i = n
    · rw [hin] at hi hnone
      exact absurd hnone (hpar hi)
    · rw [hother i hin]
      exact h.closed i hi hnone
  · intro i x y hi hin hx hy
    rw [hother i hin] at hy
    have hpn : parent i ≠ n := by
      intro hpn
      simp [hbelow i hi (Nat.le_of_eq hpn.symm)] at hy
    rw [hother _ hpn] at hx
    exact h.ordered i x y hi hx hy
  · intro i x y _ hi hpi _ hy
    have hlt := parent_lt hi
    simp [hother i (by omega), hbelow i hi (Nat.le_of_eq hpi.symm)] at hy

theorem Heap.take (h : Heap le f) : Sinking le (update f 0 none) 0 := by
  have hother : ∀ i, 0 < i → update f 0 none i = f i :=
    fun i hi => update_of_ne (Nat.ne_of_gt hi) _ _
  refine ⟨update_self _ _ _, ?_, ?_, ?_, ?_⟩
  · exact fun h => absurd h (Nat.lt_irrefl 0)
  · intro i hi hpar hnone
    rw [hother _ (Nat.pos_of_ne_zero hpar)] at hnone
    rw [hother i hi]
    exact h.closed i hi hnone
  · intro i x y hi hx hy
    rw [hother i hi] at hy
    have hpar : 0 < parent i := by
      rcases Nat.eq_zero_or_pos (parent i) with hz | hpos
      · simp [hz] at hx
      · exact hpos
    rw [hother _ hpar] at hx
    exact h.ordered i x y hi hx hy
  · exact fun i x y h => absurd h (Nat.lt_irrefl 0)

theorem Heap.root (h : Heap le f) (hi : f i ≠ none) : f 0 ≠ none := by
  induction i using Nat.strongRecOn with
  | ind i ih =>
    rcases Nat.eq_zero_or_pos i with rfl | hpos
    · exact hi
    · exact ih _ (parent_lt hpos) fun hnone => hi (h.closed i hpos hnone)

theorem Heap.root_of_contents (h : Heap le f) {k : Nat} (hk : (contents f n).length = k + 1) :
    f 0 ≠ none := by
  obtain ⟨a, ha⟩ := exists_mem_of_length_pos (by omega : 0 < (contents f n).length)
  obtain ⟨i, -, hsome⟩ := mem_contents.mp ha
  refine h.root (i := i) ?_
  rw [hsome]
  simp

theorem Heap.root_least (h : Heap le f) (hcomposes : Composes le f) (hrefl : ∀ x, le x x) {x : α}
    (hx : f 0 = some x) {y : α} (hy : f i = some y) : le x y := by
  induction i using Nat.strongRecOn generalizing y with
  | ind i ih =>
    rcases Nat.eq_zero_or_pos i with rfl | hpos
    · rw [hx] at hy
      cases hy
      exact hrefl x
    · obtain ⟨z, hz⟩ := Option.ne_none_iff_exists'.mp fun hnone : f (parent i) = none => by
        simp [h.closed i hpos hnone] at hy
      exact hcomposes 0 (parent i) i x z y hx hz hy (ih _ (parent_lt hpos) hz)
        (h.ordered i z y hpos hz hy)

end mudos.hole_heaps

-- Tables that are sorted by a key and have no key twice. A place splits such a
-- table when the keys before it are below a key and the others are above it.
import Mathlib.Data.List.Basic
import Mathlib.Order.Lattice

open List

namespace mudos.sorted_tables

variable {α β : Type*} [LinearOrder β] (key : α → β)
variable {first last : Int}
variable {j : Nat}

def Sorted (l : List α) : Prop := l.Pairwise fun a b => key a < key b

/-- The entries before `first` are below the key, those after `last` are above it. -/
structure Between (l : List α) (k : β) (first last : Int) : Prop where
  below : ∀ (i : Nat) a, l[i]? = some a → (i : Int) < first → key a < k
  above : ∀ (i : Nat) a, l[i]? = some a → last < (i : Int) → k < key a

variable {key}

theorem Sorted.lt {l : List α} (h : Sorted key l) {i : Nat} {a b : α} (ha : l[i]? = some a)
    (hb : l[j]? = some b) (hij : i < j) : key a < key b := by
  obtain ⟨hi, rfl⟩ := List.getElem?_eq_some_iff.mp ha
  obtain ⟨hj, rfl⟩ := List.getElem?_eq_some_iff.mp hb
  exact List.pairwise_iff_getElem.mp h i j hi hj hij

theorem Sorted.eq_of_key {l : List α} (h : Sorted key l) {a b : α} (ha : a ∈ l) (hb : b ∈ l)
    (hab : key a = key b) : a = b := by
  obtain ⟨i, ha⟩ := mem_iff_getElem?.mp ha
  obtain ⟨j, hb⟩ := mem_iff_getElem?.mp hb
  rcases Nat.lt_trichotomy i j with hij | rfl | hij
  · exact absurd hab (h.lt ha hb hij).ne
  · exact Option.some.inj (ha.symm.trans hb)
  · exact absurd hab.symm (h.lt hb ha hij).ne

theorem Between.whole (l : List α) (k : β) : Between key l k 0 (l.length - 1) := by
  constructor
  · intro i a _ hi
    omega
  · intro i a ha hi
    obtain ⟨hlt, -⟩ := List.getElem?_eq_some_iff.mp ha
    omega

theorem Between.lower {l : List α} (h : Sorted key l) {k : β} {a : α}
    (hb : Between key l k first last) (ha : l[j]? = some a) (hk : k < key a) :
    Between key l k first (j - 1) := by
  refine ⟨hb.below, fun i b hi hlt => ?_⟩
  rcases Nat.lt_or_eq_of_le (show j ≤ i by omega) with hji | rfl
  · exact hk.trans (h.lt ha hi hji)
  · cases ha.symm.trans hi
    exact hk

theorem Between.upper {l : List α} (h : Sorted key l) {k : β} {a : α}
    (hb : Between key l k first last) (ha : l[j]? = some a) (hk : key a < k) :
    Between key l k (j + 1) last := by
  refine ⟨fun i b hi hlt => ?_, hb.above⟩
  rcases Nat.lt_or_eq_of_le (show i ≤ j by omega) with hij | rfl
  · exact (h.lt hi ha hij).trans hk
  · cases ha.symm.trans hi
    exact hk

theorem Between.missing {l : List α} {k : β} (hb : Between key l k first last) (hlt : last < first)
    {a : α} (ha : a ∈ l) : key a ≠ k := by
  obtain ⟨i, ha⟩ := mem_iff_getElem?.mp ha
  rcases Int.lt_or_le i first with hi | hi
  · exact (hb.below i a ha hi).ne
  · exact (hb.above i a ha (by omega)).ne'

theorem Between.insert_sorted {l : List α} (h : Sorted key l) {a : α} {p : Nat}
    (hb : Between key l (key a) first last) (hlt : last < first) (hp : (p : Int) = first) :
    Sorted key (l.take p ++ a :: l.drop p) := by
  rw [Sorted, pairwise_append, pairwise_cons]
  have hsplit : Sorted key (l.take p ++ l.drop p) := by rwa [take_append_drop]
  obtain ⟨htake, hdrop, hboth⟩ := pairwise_append.mp hsplit
  have hbelow : ∀ b ∈ l.take p, key b < key a := by
    intro b hb'
    obtain ⟨i, hi⟩ := mem_iff_getElem?.mp hb'
    rw [getElem?_take] at hi
    split at hi
    · exact hb.below i b hi (by omega)
    · contradiction
  have habove : ∀ b ∈ l.drop p, key a < key b := by
    intro b hb'
    obtain ⟨i, hi⟩ := mem_iff_getElem?.mp hb'
    rw [getElem?_drop] at hi
    exact hb.above (p + i) b hi (by omega)
  refine ⟨htake, ⟨habove, hdrop⟩, fun b hb' c hc => ?_⟩
  rcases mem_cons.mp hc with rfl | hc
  · exact hbelow b hb'
  · exact hboth b hb' c hc

theorem mem_insert {l : List α} {p : Nat} {a b : α} :
    b ∈ l.take p ++ a :: l.drop p ↔ b = a ∨ b ∈ l := by
  have hl : b ∈ l ↔ b ∈ l.take p ∨ b ∈ l.drop p := by
    rw [← mem_append, take_append_drop]
  rw [hl, mem_append, mem_cons]
  tauto

/-! ## Tables as maps -/

section

variable {l r : List α} {p a : α} {k : β}

theorem sorted_middle : Sorted key (l ++ p :: r) ↔
    Sorted key l ∧ Sorted key r ∧ (∀ b ∈ l, key b < key p) ∧ ∀ b ∈ r, key p < key b := by
  rw [Sorted, pairwise_append, pairwise_cons]
  constructor
  · rintro ⟨hl, ⟨hp, hr⟩, hboth⟩
    exact ⟨hl, hr, fun b hb => hboth b hb p (mem_cons_self ..), hp⟩
  · rintro ⟨hl, hr, hbelow, habove⟩
    refine ⟨hl, ⟨habove, hr⟩, fun b hb c hc => ?_⟩
    rcases mem_cons.mp hc with rfl | hc
    · exact hbelow b hb
    · exact (hbelow b hb).trans (habove c hc)

variable (key)

def put (a : α) (l : List α) : List α :=
  l.filter (key · < key a) ++ a :: l.filter (key a < key ·)

def without (k : β) (l : List α) : List α := l.filter (key · ≠ k)

variable {key}

theorem put_left (h : Sorted key (l ++ p :: r)) (ha : key a < key p) :
    put key a (l ++ p :: r) = put key a l ++ p :: r := by
  obtain ⟨-, -, -, hr⟩ := sorted_middle.mp h
  have hnone : r.filter (key · < key a) = [] :=
    filter_eq_nil_iff.mpr fun b hb => by simpa using (ha.trans (hr b hb)).le
  have hall : r.filter (key a < key ·) = r :=
    filter_eq_self.mpr fun b hb => by simpa using ha.trans (hr b hb)
  simp [put, hnone, hall, ha, ha.le]

theorem put_right (h : Sorted key (l ++ p :: r)) (ha : key p < key a) :
    put key a (l ++ p :: r) = l ++ p :: put key a r := by
  obtain ⟨-, -, hl, -⟩ := sorted_middle.mp h
  have hnone : l.filter (key a < key ·) = [] :=
    filter_eq_nil_iff.mpr fun b hb => by simpa using ((hl b hb).trans ha).le
  have hall : l.filter (key · < key a) = l :=
    filter_eq_self.mpr fun b hb => by simpa using (hl b hb).trans ha
  simp [put, hnone, hall, ha, ha.le]

theorem put_here (h : Sorted key (l ++ p :: r)) (ha : key a = key p) :
    put key a (l ++ p :: r) = l ++ a :: r := by
  obtain ⟨-, -, hl, hr⟩ := sorted_middle.mp h
  simp only [put, ha, filter_append, filter_cons, lt_irrefl, decide_false, Bool.false_eq_true, if_false]
  rw [filter_eq_self.mpr fun b hb => by simpa using hl b hb,
    filter_eq_nil_iff.mpr fun b hb => by simpa using (hr b hb).le,
    filter_eq_nil_iff.mpr fun b hb => by simpa using (hl b hb).le,
    filter_eq_self.mpr fun b hb => by simpa using hr b hb, append_nil, nil_append]

theorem mem_put {b : α} : b ∈ put key a l ↔ b = a ∨ b ∈ l ∧ key b ≠ key a := by
  simp only [put, mem_append, mem_cons, mem_filter, decide_eq_true_eq, ne_iff_lt_or_gt]
  tauto

theorem Sorted.put (h : Sorted key l) : Sorted key (put key a l) :=
  sorted_middle.mpr ⟨h.filter _, h.filter _, fun _ hb => of_decide_eq_true (mem_filter.mp hb).2,
    fun _ hb => of_decide_eq_true (mem_filter.mp hb).2⟩

theorem find_left (h : Sorted key (l ++ p :: r)) (hk : k < key p) :
    (l ++ p :: r).find? (key · = k) = l.find? (key · = k) := by
  obtain ⟨-, -, -, hr⟩ := sorted_middle.mp h
  have hnone : r.find? (key · = k) = none :=
    find?_eq_none.mpr fun b hb => by simpa using (hk.trans (hr b hb)).ne'
  simp [hnone, hk.ne']

theorem find_right (h : Sorted key (l ++ p :: r)) (hk : key p < k) :
    (l ++ p :: r).find? (key · = k) = r.find? (key · = k) := by
  obtain ⟨-, -, hl, -⟩ := sorted_middle.mp h
  have hnone : l.find? (key · = k) = none :=
    find?_eq_none.mpr fun b hb => by simpa using ((hl b hb).trans hk).ne
  simp [hnone, hk.ne]

theorem find_here (h : Sorted key (l ++ p :: r)) :
    (l ++ p :: r).find? (key · = key p) = some p := by
  obtain ⟨-, -, hl, -⟩ := sorted_middle.mp h
  have hnone : l.find? (key · = key p) = none :=
    find?_eq_none.mpr fun b hb => by simpa using (hl b hb).ne
  simp [hnone]

theorem find_iff (h : Sorted key l) : l.find? (key · = k) = some a ↔ a ∈ l ∧ key a = k := by
  constructor
  · intro ha
    exact ⟨mem_of_find?_eq_some ha, by simpa using find?_some ha⟩
  · rintro ⟨ha, rfl⟩
    obtain ⟨l1, l2, rfl⟩ := append_of_mem ha
    exact find_here h

theorem Sorted.congr {key' : α → β} (h : Sorted key l) (hk : ∀ b ∈ l, key' b = key b) :
    Sorted key' l :=
  h.imp_of_mem fun hb hc hlt => by rwa [hk _ hb, hk _ hc]

theorem without_of_ne (h : ∀ b ∈ l, key b ≠ k) : without key k l = l :=
  filter_eq_self.mpr fun b hb => decide_eq_true (h b hb)

theorem without_left (h : Sorted key (l ++ p :: r)) (hk : k < key p) :
    without key k (l ++ p :: r) = without key k l ++ p :: r := by
  obtain ⟨-, -, -, hr⟩ := sorted_middle.mp h
  have hrest : without key k r = r := without_of_ne fun b hb => (hk.trans (hr b hb)).ne'
  rw [without, filter_append, filter_cons_of_pos (by simpa using hk.ne')]
  exact congrArg (_ ++ p :: ·) hrest

theorem without_right (h : Sorted key (l ++ p :: r)) (hk : key p < k) :
    without key k (l ++ p :: r) = l ++ p :: without key k r := by
  obtain ⟨-, -, hl, -⟩ := sorted_middle.mp h
  have hrest : without key k l = l := without_of_ne fun b hb => ((hl b hb).trans hk).ne
  rw [without, filter_append, filter_cons_of_pos (by simpa using hk.ne)]
  exact congrArg (· ++ p :: _) hrest

theorem without_here (h : Sorted key (l ++ p :: r)) :
    without key (key p) (l ++ p :: r) = l ++ r := by
  obtain ⟨-, -, hl, hr⟩ := sorted_middle.mp h
  have hbefore : without key (key p) l = l := without_of_ne fun b hb => (hl b hb).ne
  have hbehind : without key (key p) r = r := without_of_ne fun b hb => (hr b hb).ne'
  rw [without, filter_append, filter_cons_of_neg (by simp)]
  exact congrArg₂ (· ++ ·) hbefore hbehind

end

end mudos.sorted_tables

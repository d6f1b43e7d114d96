-- Chained hash tables whose bucket is the hash of the key under a mask. A
-- table stands for a finite map, and a change of one chain that changes one
-- key is the change of that key in the map. A table of 2^k buckets splits
-- into one of twice the size, bucket by bucket.
import Mathlib.Data.Finmap
import Mathlib.Data.Nat.Bitwise

open Function List

namespace mudos.hash_tables

variable {α : Type*} {β : α → Type*} {hash : α → Nat} {mask : Nat}

abbrev Table (β : α → Type*) := Nat → List (Sigma β)

/-- Each node is in the bucket of its key, and no two nodes of a chain have one key. -/
structure Hashed (hash : α → Nat) (mask : Nat) (t : Table β) : Prop where
  home : ∀ i, ∀ x ∈ t i, i = hash x.1 &&& mask
  chains : ∀ i, (t i).NodupKeys

def nodes (t : Table β) (n : Nat) : List (Sigma β) := (List.range n).flatMap t

theorem mem_nodes {t : Table β} (h : Hashed hash mask t) {x : Sigma β} :
    x ∈ nodes t (mask + 1) ↔ x ∈ t (hash x.1 &&& mask) := by
  simp only [nodes, mem_flatMap, mem_range]
  constructor
  · rintro ⟨i, -, hx⟩
    rwa [← h.home i x hx]
  · intro hx
    exact ⟨_, Nat.lt_succ_of_le Nat.and_le_right, hx⟩

theorem Hashed.nodupKeys {t : Table β} (h : Hashed hash mask t) (n : Nat) :
    (nodes t n).NodupKeys := by
  induction n with
  | zero => exact nodupKeys_nil
  | succ n ih =>
    unfold nodes at ih ⊢
    rw [range_succ, flatMap_append, flatMap_singleton]
    rw [nodupKeys_iff_pairwise] at ih ⊢
    refine pairwise_append.mpr ⟨ih, nodupKeys_iff_pairwise.1 (h.chains n), ?_⟩
    intro x hx y hy hxy
    obtain ⟨i, hi, hx⟩ := mem_flatMap.1 hx
    have hlt := mem_range.1 hi
    have h1 := h.home i x hx
    have h2 := h.home n y hy
    rw [hxy, ← h2] at h1
    omega

variable [DecidableEq α]

def contents (mask : Nat) (t : Table β) : Finmap β := (nodes t (mask + 1)).toFinmap

theorem mem_lookup_contents {t : Table β} (h : Hashed hash mask t) {a : α} {b : β a} :
    b ∈ (contents mask t).lookup a ↔ ⟨a, b⟩ ∈ t (hash a &&& mask) := by
  rw [contents, Finmap.dlookup_list_toFinmap, mem_dlookup_iff (h.nodupKeys _), mem_nodes h]

theorem lookup_contents {t : Table β} (h : Hashed hash mask t) (a : α) :
    (contents mask t).lookup a = (t (hash a &&& mask)).dlookup a := by
  apply Option.ext
  intro b
  have := mem_lookup_contents h (a := a) (b := b)
  rwa [← mem_dlookup_iff (h.chains _)] at this

theorem mem_contents {t : Table β} (h : Hashed hash mask t) {a : α} :
    a ∈ contents mask t ↔ a ∈ (t (hash a &&& mask)).keys := by
  rw [← Finmap.lookup_isSome, lookup_contents h, dlookup_isSome]

theorem length_nodes {t : Table β} (h : Hashed hash mask t) :
    (nodes t (mask + 1)).length = (contents mask t).keys.card := by
  have hkeys : (contents mask t).keys = (nodes t (mask + 1)).keys.toFinset := by
    ext a
    rw [Finmap.mem_keys, contents, ← Finmap.lookup_isSome, Finmap.dlookup_list_toFinmap,
      dlookup_isSome, mem_toFinset]
  rw [hkeys, toFinset_card_of_nodup (h.nodupKeys _), List.keys, length_map]

theorem contents_congr {t u : Table β} {n : Nat} (h : Hashed hash mask t) (h' : Hashed hash n u)
    (heq : ∀ x : Sigma β, x ∈ u (hash x.1 &&& n) ↔ x ∈ t (hash x.1 &&& mask)) :
    contents n u = contents mask t := by
  apply Finmap.ext_lookup
  intro a
  apply Option.ext
  intro b
  exact (mem_lookup_contents h').trans ((heq ⟨a, b⟩).trans (mem_lookup_contents h).symm)

theorem contents_empty : contents mask (fun _ => [] : Table β) = ∅ := by
  have h : Hashed (fun _ => 0) mask (fun _ => [] : Table β) := by
    refine ⟨fun i x hx => ?_, fun i => nodupKeys_nil⟩
    cases hx
  apply Finmap.ext_lookup
  intro a
  rw [lookup_contents h, Finmap.lookup_empty, dlookup_nil]

/-! ## One chain changes -/

theorem kreplace_cons (a : α) (b : β a) (x : Sigma β) (l : List (Sigma β)) :
    (x :: l).kreplace a b = if a = x.1 then ⟨a, b⟩ :: l else x :: l.kreplace a b := by
  unfold List.kreplace
  by_cases h : a = x.1
  · rw [if_pos h]
    exact lookmap_cons_some _ _ (if_pos h)
  · rw [if_neg h]
    exact lookmap_cons_none _ _ (if_neg h)

theorem dlookup_kreplace_self {a : α} {b : β a} {l : List (Sigma β)} (h : a ∈ l.keys) :
    (l.kreplace a b).dlookup a = some b := by
  induction l with
  | nil => cases h
  | cons x l ih =>
    rw [kreplace_cons]
    split
    · exact dlookup_cons_eq _ _ _
    · rename_i hne
      rw [dlookup_cons_ne _ _ hne]
      rw [keys_cons, mem_cons] at h
      exact ih (h.resolve_left hne)

theorem dlookup_kreplace_ne {a c : α} {b : β a} (l : List (Sigma β)) (hc : c ≠ a) :
    (l.kreplace a b).dlookup c = l.dlookup c := by
  induction l with
  | nil => rfl
  | cons x l ih =>
    rw [kreplace_cons]
    split
    · rename_i hx
      rw [dlookup_cons_ne _ _ hc, dlookup_cons_ne _ _ (hx ▸ hc)]
    · by_cases hx : c = x.1
      · subst hx
        rw [dlookup_cons_eq, dlookup_cons_eq]
      · rw [dlookup_cons_ne _ _ hx, dlookup_cons_ne _ _ hx, ih]

section

variable {t : Table β} (h : Hashed hash mask t) {a : α} {b : β a}

include h

omit [DecidableEq α] in
theorem Hashed.update {i : Nat} {l : List (Sigma β)} (hl : l.NodupKeys)
    (hhome : ∀ x ∈ l, i = hash x.1 &&& mask) : Hashed hash mask (Function.update t i l) := by
  refine ⟨fun j x hx => ?_, fun j => ?_⟩
  · by_cases hj : j = i
    · subst hj
      rw [update_self] at hx
      exact hhome x hx
    · rw [update_of_ne hj] at hx
      exact h.home j x hx
  · by_cases hj : j = i
    · subst hj
      rwa [update_self]
    · rw [update_of_ne hj]
      exact h.chains j

theorem contents_update {l : List (Sigma β)} {m : Finmap β}
    (h' : Hashed hash mask (Function.update t (hash a &&& mask) l))
    (hself : l.dlookup a = m.lookup a)
    (hother : ∀ c, c ≠ a → l.dlookup c = (t (hash a &&& mask)).dlookup c)
    (hm : ∀ c, c ≠ a → m.lookup c = (contents mask t).lookup c) :
    contents mask (Function.update t (hash a &&& mask) l) = m := by
  apply Finmap.ext_lookup
  intro c
  rw [lookup_contents h']
  by_cases hc : c = a
  · subst hc
    rw [update_self, hself]
  · rw [hm c hc, lookup_contents h]
    by_cases hi : hash c &&& mask = hash a &&& mask
    · rw [hi, update_self, hother c hc]
    · rw [update_of_ne hi]

theorem Hashed.cons (hfresh : a ∉ contents mask t) :
    Hashed hash mask (Function.update t (hash a &&& mask) (⟨a, b⟩ :: t (hash a &&& mask))) := by
  rw [mem_contents h] at hfresh
  refine h.update (nodupKeys_cons.2 ⟨hfresh, h.chains _⟩) ?_
  intro x hx
  rcases mem_cons.1 hx with rfl | hx
  · rfl
  · exact h.home _ x hx

theorem contents_cons (hfresh : a ∉ contents mask t) :
    contents mask (Function.update t (hash a &&& mask) (⟨a, b⟩ :: t (hash a &&& mask))) =
      (contents mask t).insert a b := by
  apply contents_update h (h.cons hfresh)
  · rw [Finmap.lookup_insert, dlookup_cons_eq]
  · intro c hc
    exact dlookup_cons_ne _ _ hc
  · intro c hc
    exact Finmap.lookup_insert_of_ne _ hc

theorem Hashed.kreplace : Hashed hash mask
    (Function.update t (hash a &&& mask) ((t (hash a &&& mask)).kreplace a b)) := by
  refine h.update ((kreplace_nodupKeys a b).2 (h.chains _)) ?_
  intro x hx
  have hkey : x.1 ∈ ((t (hash a &&& mask)).kreplace a b).keys := mem_keys_of_mem hx
  rw [keys_kreplace] at hkey
  obtain ⟨y, hy⟩ := exists_of_mem_keys hkey
  exact h.home _ ⟨x.1, y⟩ hy

theorem contents_kreplace (hold : a ∈ contents mask t) :
    contents mask (Function.update t (hash a &&& mask) ((t (hash a &&& mask)).kreplace a b)) =
      (contents mask t).insert a b := by
  rw [mem_contents h] at hold
  apply contents_update h h.kreplace
  · rw [Finmap.lookup_insert, dlookup_kreplace_self hold]
  · intro c hc
    exact dlookup_kreplace_ne _ hc
  · intro c hc
    exact Finmap.lookup_insert_of_ne _ hc

theorem Hashed.kerase : Hashed hash mask
    (Function.update t (hash a &&& mask) ((t (hash a &&& mask)).kerase a)) :=
  h.update ((h.chains _).kerase a) fun x hx => h.home _ x ((kerase_sublist a _).subset hx)

theorem contents_kerase :
    contents mask (Function.update t (hash a &&& mask) ((t (hash a &&& mask)).kerase a)) =
      (contents mask t).erase a := by
  apply contents_update h h.kerase
  · rw [Finmap.lookup_erase, dlookup_kerase a (h.chains _)]
  · intro c hc
    exact dlookup_kerase_ne hc
  · intro c hc
    exact Finmap.lookup_erase_ne hc

end

/-! ## The table doubles -/

section

variable {k : Nat} (hmask : mask + 1 = 2 ^ k)

include hmask

omit [DecidableEq α] in
theorem and_double (h : Nat) :
    h &&& (2 * mask + 1) = (h &&& mask) + if h &&& (mask + 1) = 0 then 0 else mask + 1 := by
  have h1 : mask = 2 ^ k - 1 := by omega
  have h2 : 2 * mask + 1 = 2 ^ (k + 1) - 1 := by rw [Nat.pow_succ]; omega
  rw [h2, hmask, h1, Nat.and_two_pow_sub_one_eq_mod, Nat.and_two_pow_sub_one_eq_mod,
    Nat.mod_pow_succ, Nat.and_two_pow, Nat.testBit_eq_decide_div_mod_eq]
  rcases Nat.mod_two_eq_zero_or_one (h / 2 ^ k) with hbit | hbit
  · simp [hbit]
  · simp [hbit]

omit [DecidableEq α] in
theorem or_double {i : Nat} (hi : i ≤ mask) : i ||| (mask + 1) = i + (mask + 1) := by
  have hlt : i < 2 ^ k := by omega
  have hor := Nat.two_pow_add_eq_or_of_lt hlt 1
  rw [Nat.mul_one] at hor
  rw [hmask, Nat.lor_comm, ← hor, Nat.add_comm]

section

variable {t u : Table β} (hhome : ∀ i, ∀ x ∈ t i, i = hash x.1 &&& mask)
  (hlow : ∀ j ≤ mask, (u j).Perm ((t j).filter fun x => hash x.1 &&& (mask + 1) = 0))
  (hhigh : ∀ j ≤ mask,
    (u (j + (mask + 1))).Perm ((t j).filter fun x => hash x.1 &&& (mask + 1) ≠ 0))
  (hrest : ∀ j, 2 * mask + 1 < j → u j = [])

omit hmask [DecidableEq α] in
theorem double_cases (mask j : Nat) :
    j ≤ mask ∨ (∃ i ≤ mask, j = i + (mask + 1)) ∨ 2 * mask + 1 < j := by
  by_cases h1 : j ≤ mask
  · exact .inl h1
  by_cases h2 : 2 * mask + 1 < j
  · exact .inr (.inr h2)
  · exact .inr (.inl ⟨j - (mask + 1), by omega, by omega⟩)

include hhome hlow hhigh hrest

omit [DecidableEq α] in
theorem mem_double (j : Nat) (x : Sigma β) :
    x ∈ u j ↔ j = hash x.1 &&& (2 * mask + 1) ∧ x ∈ t (hash x.1 &&& mask) := by
  have hle : hash x.1 &&& mask ≤ mask := Nat.and_le_right
  rw [and_double hmask]
  rcases double_cases mask j with hj | ⟨i, hi, rfl⟩ | hj
  · rw [(hlow j hj).mem_iff, mem_filter, decide_eq_true_eq]
    constructor
    · rintro ⟨hx, hbit⟩
      have := hhome j x hx
      rw [if_pos hbit, ← this]
      exact ⟨rfl, hx⟩
    · rintro ⟨hj', hx⟩
      split at hj'
      · rename_i hbit
        rw [hj', Nat.add_zero]
        exact ⟨hx, hbit⟩
      · omega
  · rw [(hhigh i hi).mem_iff, mem_filter, decide_eq_true_eq]
    constructor
    · rintro ⟨hx, hbit⟩
      have := hhome i x hx
      rw [if_neg hbit, ← this]
      exact ⟨rfl, hx⟩
    · rintro ⟨hj', hx⟩
      split at hj'
      · omega
      · rename_i hbit
        have hi' : i = hash x.1 &&& mask := by omega
        rw [hi']
        exact ⟨hx, hbit⟩
  · rw [hrest j hj]
    constructor
    · nofun
    · rintro ⟨hj', -⟩
      split at hj' <;> omega

omit hmask hhome [DecidableEq α] in
theorem double_chains {p : List (Sigma β) → Prop} (hperm : ∀ {l l'}, l.Perm l' → p l' → p l)
    (hfilter : ∀ {l} (f : Sigma β → Bool), p l → p (l.filter f)) (hnil : p []) (h : ∀ i, p (t i))
    (j : Nat) : p (u j) := by
  rcases double_cases mask j with hj | ⟨i, hi, rfl⟩ | hj
  · exact hperm (hlow j hj) (hfilter _ (h j))
  · exact hperm (hhigh i hi) (hfilter _ (h i))
  · rwa [hrest j hj]

end

theorem Hashed.double {t u : Table β} (h : Hashed hash mask t)
    (hlow : ∀ j ≤ mask, (u j).Perm ((t j).filter fun x => hash x.1 &&& (mask + 1) = 0))
    (hhigh : ∀ j ≤ mask,
      (u (j + (mask + 1))).Perm ((t j).filter fun x => hash x.1 &&& (mask + 1) ≠ 0))
    (hrest : ∀ j, 2 * mask + 1 < j → u j = []) :
    Hashed hash (2 * mask + 1) u ∧ contents (2 * mask + 1) u = contents mask t := by
  have hmem := mem_double hmask h.home hlow hhigh hrest
  have hu : Hashed hash (2 * mask + 1) u :=
    ⟨fun j x hx => ((hmem j x).1 hx).1, double_chains hlow hhigh hrest
      (fun hperm => (perm_nodupKeys hperm).2) (fun _ h => h.sublist filter_sublist) nodupKeys_nil
      h.chains⟩
  refine ⟨hu, contents_congr h hu fun x => ?_⟩
  rw [hmem]
  exact and_iff_right rfl

end

/-! ## Every value changes, or its node goes -/

section

variable {γ : α → Type*} (g : (a : α) → β a → Option (γ a))

/-- Each node gets the value that `g` makes of its value, and goes where that is none. -/
def revalue (l : List (Sigma β)) : List (Sigma γ) := l.filterMap fun x => (g x.1 x.2).map (⟨x.1, ·⟩)

omit [DecidableEq α] in
@[simp] theorem revalue_nil : revalue g [] = [] := rfl

omit [DecidableEq α] in
theorem revalue_cons_some {x : Sigma β} {c : γ x.1} (h : g x.1 x.2 = some c) (l : List (Sigma β)) :
    revalue g (x :: l) = ⟨x.1, c⟩ :: revalue g l := by
  unfold revalue
  rw [filterMap_cons_some (b := ⟨x.1, c⟩)]
  rw [h]
  rfl

omit [DecidableEq α] in
theorem revalue_cons_none {x : Sigma β} (h : g x.1 x.2 = none) (l : List (Sigma β)) :
    revalue g (x :: l) = revalue g l := by
  unfold revalue
  rw [filterMap_cons_none]
  rw [h]
  rfl

omit [DecidableEq α] in
theorem revalue_keys (l : List (Sigma β)) : (revalue g l).keys.Sublist l.keys := by
  induction l with
  | nil => exact List.Sublist.refl _
  | cons x l ih =>
    rw [keys_cons]
    cases hx : g x.1 x.2 with
    | none =>
      rw [revalue_cons_none g hx]
      exact ih.cons _
    | some c =>
      rw [revalue_cons_some g hx, keys_cons]
      exact ih.cons_cons _

omit [DecidableEq α] in
theorem revalue_length_le (l : List (Sigma β)) : (revalue g l).length ≤ l.length :=
  length_filterMap_le _ l

theorem dlookup_revalue {l : List (Sigma β)} (hl : l.NodupKeys) (a : α) :
    (revalue g l).dlookup a = (l.dlookup a).bind (g a) := by
  induction l with
  | nil => rfl
  | cons x l ih =>
    obtain ⟨hx, hl⟩ := nodupKeys_cons.1 hl
    by_cases ha : a = x.1
    · subst ha
      rw [dlookup_cons_eq]
      cases hg : g x.1 x.2 with
      | none =>
        rw [revalue_cons_none g hg, Option.bind_some, hg, dlookup_eq_none]
        exact fun h => hx ((revalue_keys g l).subset h)
      | some c => rw [revalue_cons_some g hg, Option.bind_some, hg, dlookup_cons_eq]
    · rw [dlookup_cons_ne _ _ ha, ← ih hl]
      cases hg : g x.1 x.2 with
      | none => rw [revalue_cons_none g hg]
      | some c =>
        rw [revalue_cons_some g hg]
        exact dlookup_cons_ne _ (⟨x.1, c⟩ : Sigma γ) ha

omit [DecidableEq α] in
theorem Hashed.revalue {t : Table β} (h : Hashed hash mask t) :
    Hashed hash mask (fun i => revalue g (t i)) := by
  refine ⟨fun i x hx => ?_, fun i => ?_⟩
  · obtain ⟨y, hy, hyx⟩ := mem_filterMap.1 hx
    obtain ⟨c, _, rfl⟩ := Option.map_eq_some_iff.1 hyx
    exact h.home i y hy
  · exact (revalue_keys g (t i)).nodup (h.chains i)

theorem lookup_contents_revalue {t : Table β} (h : Hashed hash mask t) (a : α) :
    (contents mask fun i => hash_tables.revalue g (t i)).lookup a =
      ((contents mask t).lookup a).bind (g a) := by
  rw [lookup_contents (h.revalue g), lookup_contents h, dlookup_revalue g (h.chains _)]

omit [DecidableEq α] in
theorem nodes_revalue (t : Table β) (n : Nat) :
    nodes (fun i => revalue g (t i)) n = revalue g (nodes t n) := by
  unfold nodes revalue
  rw [filterMap_flatMap]

end

end mudos.hash_tables

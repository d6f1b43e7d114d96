-- The law of the keys: what is stored under a key is found under the keys that are the same, and
-- under no other, exactly when no two keys of different types have the same bits.
import MudOS.MappingKeys
import MudOS.MappingLaws

open mudos.hash_tables List

namespace mudos.mapping

variable {V : Type} {a b c k k1 k2 : svalue_t} {S : Set svalue_t} {m m' : mapping_t svalue_t V}
  {MAX_MAPPING_SIZE : Nat} {const0u v : V}

/-! ## Keys that are the same -/

theorem real_eq_iff (x y : UInt32) : real_eq x y = true ↔
    (x = y ∨ magnitude x = 0 ∧ magnitude y = 0) ∧ magnitude x ≤ 0x7f800000 ∧
      magnitude y ≤ 0x7f800000 := by simp [real_eq, and_assoc]

theorem same_of_type_ne (h : a.type ≠ b.type) : same a b = false := by simp [same, h]

theorem type_eq (h : same a b = true) : a.type = b.type := by
  by_contra hne
  simp [same_of_type_ne hne] at h

theorem same_symm (h : same a b = true) : same b a = true := by
  obtain ⟨type, x, string⟩ := a
  obtain ⟨_, y, string'⟩ := b
  obtain rfl := type_eq h
  cases type
  case T_REAL =>
    simp only [same, decide_true, Bool.true_and, real_eq_iff] at h ⊢
    exact ⟨h.1.imp Eq.symm And.symm, h.2.symm⟩
  all_goals simpa [same, eq_comm] using h

theorem same_trans (h : same a b = true) (h' : same b c = true) : same a c = true := by
  obtain ⟨type, x, string⟩ := a
  obtain ⟨_, y, string'⟩ := b
  obtain ⟨_, z, string''⟩ := c
  obtain rfl := type_eq h
  obtain rfl := type_eq h'
  cases type
  case T_REAL =>
    simp only [same, decide_true, Bool.true_and, real_eq_iff] at h h' ⊢
    refine ⟨?_, h.2.1, h'.2.2⟩
    rcases h.1 with rfl | hzero
    · exact h'.1
    · rcases h'.1 with rfl | hzero'
      · exact .inr hzero
      · exact .inr ⟨hzero.1, hzero'.2⟩
  all_goals
    simp only [same, decide_true, Bool.true_and, decide_eq_true_eq] at h h' ⊢
    exact h.trans h'

theorem same_congr (h : same a b = true) (c : svalue_t) : same c a = same c b :=
  Bool.eq_iff_iff.mpr ⟨fun hc => same_trans hc h, fun hc => same_trans hc (same_symm h)⟩

theorem msameval_of_type_ne (h : a.type ≠ b.type) : msameval a b = decide (a.u = b.u) := by
  unfold msameval
  split
  · rename_i ha hb
    exact absurd (ha.trans hb.symm) h
  · rename_i ha hb
    exact absurd (ha.trans hb.symm) h
  · rfl

def Apart (S : Set svalue_t) : Prop := ∀ a ∈ S, ∀ b ∈ S, a.type ≠ b.type → a.u ≠ b.u

theorem msameval_eq (hshared : Shared S) (hapart : Apart S) (ha : a ∈ S) (hb : b ∈ S) :
    msameval a b = same a b := by
  by_cases htype : a.type = b.type
  · have hstring := hshared a ha b hb
    obtain ⟨type, x, string⟩ := a
    obtain ⟨_, y, string'⟩ := b
    obtain rfl : type = _ := htype
    cases type <;> simp [msameval, same]
    exact (hstring rfl rfl).symm
  · rw [msameval_of_type_ne htype, same_of_type_ne htype, decide_eq_false (hapart a ha b hb htype)]

theorem and_eq_of_mod {x y mask : Nat} (h : x % 2 ^ 16 = y % 2 ^ 16) (hmask : mask < 2 ^ 16) :
    x &&& mask = y &&& mask := by
  have hall : (2 ^ 16 - 1) &&& mask = mask := by
    rw [Nat.and_comm, Nat.and_two_pow_sub_one_of_lt_two_pow hmask]
  rw [← hall, ← Nat.and_assoc, ← Nat.and_assoc, Nat.and_two_pow_sub_one_eq_mod,
    Nat.and_two_pow_sub_one_eq_mod, h]

theorem bucket_eq (hshared : Shared S) (ha : a ∈ S) (hb : b ∈ S) (h : same a b = true) {mask : Nat}
    (hmask : mask < 65536) : svalue_to_int a &&& mask = svalue_to_int b &&& mask := by
  have hu : a.u = b.u ∨ magnitude a.u = 0 ∧ magnitude b.u = 0 := by
    have hstring := hshared a ha b hb
    obtain ⟨type, x, string⟩ := a
    obtain ⟨_, y, string'⟩ := b
    obtain rfl := type_eq h
    cases type
    case T_STRING => exact .inl ((hstring rfl rfl).mp (by simpa [same] using h))
    case T_REAL => exact ((real_eq_iff x y).mp (by simpa [same] using h)).1
    all_goals exact .inl (by simpa [same] using h)
  rcases hu with hu | ⟨hzero, hzero'⟩
  · rw [svalue_to_int, svalue_to_int, hu]
  · refine and_eq_of_mod ?_ hmask
    simp only [magnitude, svalue_to_int, Nat.shiftRight_eq_div_pow] at hzero hzero' ⊢
    omega

/-! ## The nodes of a chain -/

theorem find?_congr_mem {α : Type} {l l' : List α} {p : α → Bool}
    (hmem : ∀ x, p x = true → (x ∈ l ↔ x ∈ l'))
    (hone : ∀ x ∈ l', ∀ y ∈ l', p x = true → p y = true → x = y) : l.find? p = l'.find? p := by
  cases hfind : l.find? p with
  | none =>
    symm
    rw [find?_eq_none] at hfind ⊢
    exact fun x hx hp => hfind x ((hmem x hp).mpr hx) hp
  | some x =>
    have hp := find?_some hfind
    have hx := (hmem x hp).mp (mem_of_find?_eq_some hfind)
    obtain ⟨y, hy⟩ := Option.isSome_iff_exists.mp (find?_isSome.mpr ⟨x, hx, hp⟩)
    rw [hy, hone x hx y (mem_of_find?_eq_some hy) hp (find?_some hy)]

/-- Each node is in its bucket, and no two nodes of a chain have the same key for the code. -/
structure Sorted (m : mapping_t svalue_t V) : Prop where
  home : ∀ i, ∀ x ∈ m.table i, i = svalue_to_int x.1 &&& m.table_size
  apart : ∀ i, (m.table i).Pairwise fun x y => msameval x.1 y.1 = false
  size : (∃ k, m.table_size + 1 = 2 ^ k) ∨ MAX_TABLE_SIZE ≤ m.table_size
  short : m.table_size < 65536

theorem msameval_comm (a b : svalue_t) : msameval a b = msameval b a := by
  by_cases htype : a.type = b.type
  · obtain ⟨type, x, string⟩ := a
    obtain ⟨_, y, string'⟩ := b
    obtain rfl : type = _ := htype
    cases type
    case T_REAL =>
      rw [Bool.eq_iff_iff]
      simp only [msameval, real_eq_iff]
      exact and_congr (or_congr eq_comm and_comm) and_comm
    all_goals simp [msameval, eq_comm]
  · rw [msameval_of_type_ne htype, msameval_of_type_ne (Ne.symm htype)]
    simp [eq_comm]

instance : Std.Symm fun x y : mapping_node_t svalue_t V => msameval x.1 y.1 = false :=
  ⟨fun _ _ h => by rwa [msameval_comm]⟩

theorem Sorted.apart_of_perm {l l' : List (mapping_node_t svalue_t V)} (hperm : l.Perm l')
    (h : l'.Pairwise fun x y => msameval x.1 y.1 = false) :
    l.Pairwise fun x y => msameval x.1 y.1 = false :=
  (hperm.pairwise_iff fun h => (msameval_comm ..).trans h).mpr h

def SameNodes (m m' : mapping_t svalue_t V) : Prop :=
  ∀ j x, x ∈ m'.table j ↔
    j = svalue_to_int x.1 &&& m'.table_size ∧ x ∈ m.table (svalue_to_int x.1 &&& m.table_size)

theorem growMap_sorted (h : Sorted m) (hg : growMap svalue_to_int m = some m') :
    Sorted m' ∧ SameNodes m m' := by
  have hs := growMap_split hg
  obtain ⟨k, hk⟩ := hs.two_pow h.size
  have hmem := mem_double hk h.home hs.low_perm hs.high_perm hs.rest
  rw [← hs.table_size] at hmem
  refine ⟨⟨fun j x hx => ((hmem j x).mp hx).1, ?_, .inl ⟨k + 1, ?_⟩, ?_⟩, hmem⟩
  · exact double_chains hs.low_perm hs.high_perm hs.rest Sorted.apart_of_perm
      (fun _ h => h.filter _) .nil h.apart
  · rw [hs.table_size, Nat.pow_succ]
    omega
  · have := hs.size
    rw [hs.table_size]
    omega

theorem Sorted.sameNodes (h : Sorted m) : SameNodes m m := fun j x =>
  ⟨fun hx => ⟨h.home j x hx, h.home j x hx ▸ hx⟩, fun ⟨hj, hx⟩ => hj ▸ hx⟩

/-! ## Looking up -/

theorem KeysIn.of_sameNodes (hkeys : KeysIn m S) (h : SameNodes m m') : KeysIn m' S :=
  fun j x hx => hkeys _ x ((h j x).mp hx).2

theorem find_sameNodes (hshared : Shared S) (hapart : Apart S) (hm : Sorted m) (hm' : Sorted m')
    (hkeys : KeysIn m S) (h : SameNodes m m') (hk : k ∈ S) :
    node_find_in_mapping m' k = node_find_in_mapping m k := by
  unfold node_find_in_mapping
  congr 1
  have hbucket : ∀ x : mapping_node_t svalue_t V, x.1 ∈ S → msameval x.1 k = true →
      ∀ mask < 65536, svalue_to_int x.1 &&& mask = svalue_to_int k &&& mask := by
    intro x hx hsame mask hmask
    rw [msameval_eq hshared hapart hx hk] at hsame
    exact bucket_eq hshared hx hk hsame hmask
  apply find?_congr_mem
  · intro x hsame
    constructor
    · intro hx
      have hold := ((h _ x).mp hx).2
      rwa [hbucket x (hkeys _ x hold) hsame _ hm.short] at hold
    · intro hx
      have hxS := hkeys _ x hx
      refine (h _ x).mpr ⟨(hbucket x hxS hsame _ hm'.short).symm, ?_⟩
      rwa [hbucket x hxS hsame _ hm.short]
  · intro x hx y hy hxk hyk
    by_contra hne
    have hxS := hkeys _ x hx
    have hyS := hkeys _ y hy
    rw [msameval_eq hshared hapart hxS hk] at hxk
    rw [msameval_eq hshared hapart hyS hk] at hyk
    have hxy := same_trans hxk (same_symm hyk)
    rw [← msameval_eq hshared hapart hxS hyS] at hxy
    have := (hm.apart _).forall hx hy hne
    simp [hxy] at this

/-! ## Storing -/

/-- The first node that has the key gets the value, or a node is put at the head of the bucket. -/
inductive Put (m : mapping_t svalue_t V) (lv : svalue_t) (v : V) :
    mapping_t svalue_t V → Bool → Prop
  | failed : Put m lv v m false
  | old {m' : mapping_t svalue_t V} {before after : List (mapping_node_t svalue_t V)}
      {n : mapping_node_t svalue_t V} :
      m.table (svalue_to_int lv &&& m.table_size) = before ++ n :: after →
      (∀ x ∈ before, msameval lv x.1 = false) → msameval lv n.1 = true →
      m'.table_size = m.table_size →
      m'.table = Function.update m.table (svalue_to_int lv &&& m.table_size)
        (before ++ ⟨n.1, v⟩ :: after) → Put m lv v m' true
  | new {m' : mapping_t svalue_t V} :
      (∀ x ∈ m.table (svalue_to_int lv &&& m.table_size), msameval lv x.1 = false) →
      m'.table_size = m.table_size →
      m'.table = Function.update m.table (svalue_to_int lv &&& m.table_size)
        (⟨lv, v⟩ :: m.table (svalue_to_int lv &&& m.table_size)) → Put m lv v m' true

theorem Sorted.update {i : Nat} {l : List (mapping_node_t svalue_t V)} (h : Sorted m)
    (hsize : m'.table_size = m.table_size) (htable : m'.table = Function.update m.table i l)
    (hhome : ∀ x ∈ l, i = svalue_to_int x.1 &&& m.table_size)
    (hapart : l.Pairwise fun x y => msameval x.1 y.1 = false) : Sorted m' := by
  refine ⟨fun j x hx => ?_, fun j => ?_, hsize ▸ h.size, hsize ▸ h.short⟩
  · rw [htable] at hx
    rw [hsize]
    by_cases hj : j = i
    · subst hj
      rw [Function.update_self] at hx
      exact hhome x hx
    · rw [Function.update_of_ne hj] at hx
      exact h.home j x hx
  · rw [htable]
    by_cases hj : j = i
    · subst hj
      rwa [Function.update_self]
    · rw [Function.update_of_ne hj]
      exact h.apart j

theorem Put.sorted {lv : svalue_t} {done : Bool} (h : Sorted m) (hput : Put m lv v m' done) :
    Sorted m' := by
  cases hput with
  | failed => exact h
  | @old _ before after n hchain _ _ hsize htable =>
    have hhome := h.home (svalue_to_int lv &&& m.table_size)
    have hapart := h.apart (svalue_to_int lv &&& m.table_size)
    rw [hchain] at hhome hapart
    refine h.update hsize htable ?_ ?_
    · intro x hx
      rcases mem_append.mp hx with hx | hx
      · exact hhome x (mem_append_left _ hx)
      · rcases mem_cons.mp hx with rfl | hx
        · exact hhome n (mem_append_right _ (mem_cons_self ..))
        · exact hhome x (mem_append_right _ (mem_cons_of_mem _ hx))
    · -- the keys of the chain are what they were
      have hpairs : ∀ l : List (mapping_node_t svalue_t V),
          (l.map Sigma.fst).Pairwise (fun a b => msameval a b = false) ↔
            l.Pairwise fun x y => msameval x.1 y.1 = false := fun l => pairwise_map
      rw [← hpairs] at hapart ⊢
      simpa using hapart
  | new hnone hsize htable =>
    refine h.update hsize htable ?_ (.cons hnone (h.apart _))
    intro x hx
    rcases mem_cons.mp hx with rfl | hx
    · rfl
    · exact h.home _ x hx

theorem Put.find (hshared : Shared S) (hapart : Apart S) (h : Sorted m) (hkeys : KeysIn m S)
    (hk1 : k1 ∈ S) (hk2 : k2 ∈ S) (hput : Put m k1 v m' true) :
    node_find_in_mapping m' k2 = if same k1 k2 then some v else node_find_in_mapping m k2 := by
  have hmem := hkeys (svalue_to_int k1 &&& m.table_size)
  -- a chain in another bucket is that of no key that is the same
  have hother : svalue_to_int k2 &&& m.table_size ≠ svalue_to_int k1 &&& m.table_size →
      same k1 k2 = false := by
    intro hne
    by_contra hsame
    rw [Bool.not_eq_false] at hsame
    exact hne (bucket_eq hshared hk1 hk2 hsame h.short).symm
  unfold node_find_in_mapping
  cases hput with
  | @old _ before after n hchain hbefore hn hsize htable =>
    rw [hsize, htable]
    by_cases hbucket : svalue_to_int k2 &&& m.table_size = svalue_to_int k1 &&& m.table_size
    · rw [hbucket, Function.update_self, hchain]
      rw [hchain] at hmem
      have hnS := hmem n (mem_append_right _ (mem_cons_self ..))
      rw [msameval_eq hshared hapart hk1 hnS] at hn
      have hfound : msameval n.1 k2 = same k1 k2 := by
        rw [msameval_eq hshared hapart hnS hk2, Bool.eq_iff_iff]
        exact ⟨same_trans hn, same_trans (same_symm hn)⟩
      by_cases hsame : same k1 k2 = true
      · have hnone : before.find? (fun elt => msameval elt.1 k2) = none := by
          rw [find?_eq_none]
          intro x hx
          have hxS := hmem x (mem_append_left _ hx)
          rw [msameval_eq hshared hapart hxS hk2, ← same_congr hsame,
            ← msameval_eq hshared hapart hxS hk1, msameval_comm, hbefore x hx]
          exact Bool.false_ne_true
        rw [find?_append, hnone, hsame]
        simp [hfound, hsame]
      · rw [if_neg hsame]
        simp [hfound, Bool.not_eq_true _ ▸ hsame]
    · rw [Function.update_of_ne hbucket, hother hbucket]
      rfl
  | new hnone hsize htable =>
    rw [hsize, htable]
    by_cases hbucket : svalue_to_int k2 &&& m.table_size = svalue_to_int k1 &&& m.table_size
    · rw [hbucket, Function.update_self, find?_cons]
      simp only [msameval_eq hshared hapart hk1 hk2]
      cases same k1 k2 <;> rfl
    · rw [Function.update_of_ne hbucket, hother hbucket]
      rfl

/-- Behind `find_for_insert`: the value is stored at the place, if there is one. -/
def set_value (r : mapping_t svalue_t V × Option (Nat × Nat)) (v : V) :
    mapping_t svalue_t V × Bool :=
  match r with
  | (m, some (i, j)) =>
    ({ m with table := Function.update m.table i ((m.table i).modify j fun n => ⟨n.1, v⟩) }, true)
  | (m, none) => (m, false)

theorem insert_node_put {lv : svalue_t} {i : Nat} (hi : i = svalue_to_int lv &&& m.table_size)
    (hnone : ∀ x ∈ m.table i, msameval lv x.1 = false) (v : V) :
    Put m lv v (set_value (insert_node MAX_MAPPING_SIZE const0u m i lv) v).1
      (set_value (insert_node MAX_MAPPING_SIZE const0u m i lv) v).2 := by
  subst hi
  unfold insert_node
  split_ifs
  · exact .failed
  · exact .new hnone rfl (by simp [set_value])

variable (MAX_MAPPING_SIZE const0u) in
theorem store_put (h : Sorted m) (lv : svalue_t) (v : V) :
    ∃ m₀, Sorted m₀ ∧ SameNodes m m₀ ∧
      Put m₀ lv v (store MAX_MAPPING_SIZE const0u m lv v).1
        (store MAX_MAPPING_SIZE const0u m lv v).2 := by
  have hstore : store MAX_MAPPING_SIZE const0u m lv v =
      set_value (raw_find_for_insert MAX_MAPPING_SIZE const0u m lv) v := rfl
  rw [hstore, raw_find_for_insert]
  simp only
  have hnodes := h.sameNodes
  have hle : svalue_to_int lv &&& m.table_size ≤ m.table_size := Nat.and_le_right
  split
  · rename_i j hfind
    obtain ⟨hlt, hn, hbefore⟩ := findIdx?_eq_some_iff_getElem.mp hfind
    have hchain : m.table (svalue_to_int lv &&& m.table_size) = _ :=
      (take_append_drop j _).symm.trans (congrArg _ (drop_eq_getElem_cons hlt))
    refine ⟨m, h, hnodes, .old hchain ?_ hn rfl ?_⟩
    · intro x hx
      obtain ⟨i, hi, rfl⟩ := getElem_of_mem hx
      rw [length_take] at hi
      rw [getElem_take]
      simpa using hbefore i (by omega)
    · simp [set_value, modify_eq_take_cons_drop hlt]
  · rename_i hfind
    rw [findIdx?_eq_none_iff] at hfind
    by_cases hempty : (m.table (svalue_to_int lv &&& m.table_size)).isEmpty = true
    · rw [if_pos hempty]
      rw [List.isEmpty_iff] at hempty
      generalize decr m.unfilled = unfilled
      have hsorted : Sorted { m with unfilled } := ⟨h.home, h.apart, h.size, h.short⟩
      by_cases hfull : unfilled = 0
      · rw [if_pos hfull]
        split
        · rename_i m' hgrow
          obtain ⟨hsorted', hsame⟩ := growMap_sorted hsorted hgrow
          have hs := growMap_split hgrow
          obtain ⟨k, hk⟩ := hs.two_pow hsorted.size
          obtain ⟨hlow, hhigh⟩ := hs.empty hle hempty
          have hbucket : svalue_to_int lv &&& m'.table_size =
              (svalue_to_int lv &&& m.table_size) +
                if svalue_to_int lv &&& (m.table_size + 1) = 0 then 0 else m.table_size + 1 := by
            rw [hs.table_size]
            exact and_double hk _
          refine ⟨m', hsorted', hsame, ?_⟩
          rw [or_double hk hle]
          by_cases hbit : svalue_to_int lv &&& (m.table_size + 1) = 0
          · rw [if_neg (not_not.mpr hbit)]
            rw [if_pos hbit, Nat.add_zero] at hbucket
            exact insert_node_put hbucket.symm (by simp [hlow]) v
          · rw [if_pos hbit]
            rw [if_neg hbit] at hbucket
            exact insert_node_put hbucket.symm (by simp [hhigh]) v
        · exact ⟨_, hsorted, hnodes, .failed⟩
      · rw [if_neg hfull]
        exact ⟨_, hsorted, hnodes, insert_node_put (m := { m with unfilled }) rfl hfind v⟩
    · rw [if_neg hempty]
      exact ⟨m, h, hnodes, insert_node_put rfl hfind v⟩

/-! ## The law -/

theorem sorted_built (h : Built MAX_MAPPING_SIZE const0u m) : Sorted m := by
  induction h with
  | allocated n =>
    have hw : WellFormed svalue_to_int (allocate_mapping MAX_MAPPING_SIZE n : mapping_t svalue_t V) :=
      allocate_mapping_wellFormed _ _
    refine ⟨hw.hashed.home, fun i => ?_, hw.size, ?_⟩
    all_goals
      unfold allocate_mapping
      generalize (if n > MAX_MAPPING_SIZE then MAX_MAPPING_SIZE else n) = n
      by_cases hn : n > MAP_HASH_TABLE_SIZE
    · simp [hn]
    · simp [hn]
    · simp only [if_pos hn]
      exact Nat.mod_lt _ (by omega)
    · simp [hn]
  | stored lv v _ ih =>
    obtain ⟨m₀, hsorted, -, hput⟩ := store_put _ _ ih lv v
    exact hput.sorted hsorted
  | @deleted m lv _ ih =>
    simp only [raw_mapping_delete]
    by_cases hany : ((m.table (svalue_to_int lv &&& m.table_size)).any fun elt =>
        msameval elt.1 lv) = true
    · rw [if_pos hany]
      exact ih.update rfl rfl (fun x hx => ih.home _ x (eraseP_sublist.subset hx))
        ((ih.apart _).sublist eraseP_sublist)
    · rwa [if_neg hany]
  | @copied m _ ih =>
    refine ⟨fun i x hx => ?_, fun i => ?_, ih.size, ih.short⟩
    · simp only [copyMapping] at hx ⊢
      split_ifs at hx
      · exact ih.home i x (mem_reverse.mp hx)
      · cases hx
    · simp only [copyMapping]
      split_ifs
      · exact Sorted.apart_of_perm (reverse_perm _) (ih.apart i)
      · exact .nil

theorem store_first (const0u : V) (lv : svalue_t) (v : V) :
    store 1 const0u (allocate_mapping 1 0) lv v =
      ({ table := Function.update (fun _ => []) (svalue_to_int lv &&& 7) [⟨lv, v⟩]
         table_size := 7, unfilled := 5, count := 1 }, true) := by
  simp [store, raw_find_for_insert, allocate_mapping, insert_node, decr, MAP_HASH_TABLE_SIZE,
    FILL_PERCENT]

/-- The int 5, and the string of one character that is at the address 4096. -/
def five_and_text : Set svalue_t := {⟨.T_NUMBER, 5, []⟩, ⟨.T_STRING, 4096, [97]⟩}

end mudos.mapping

-- The laws of `unique_mapping()`. The table of the keys stands for the
-- indices of each key in the order of the calls, the mapping for the values
-- of the keys that were put there. As the calls go from the last element to
-- the first one, the elements of a key come out backwards.
import MudOS.UniqueMapping
import MudOS.MappingLaws

open mudos.hash_tables mudos.mapping List

namespace mudos.unique_mapping

variable {n : Nat}

/-! ## Sizes -/

theorem short_eq (h : n < 65536) : short n = n := Nat.mod_eq_of_lt h

theorem or_shift_lt {a j : Nat} (k : Nat) (h : a < 2 ^ j) : a ||| a >>> k < 2 ^ j := by
  apply Nat.or_lt_two_pow h
  rw [Nat.shiftRight_eq_div_pow]
  exact Nat.lt_of_le_of_lt (Nat.div_le_self _ _) h

def smear (n : Nat) : Nat :=
  let n := n ||| n >>> 1
  let n := n ||| n >>> 2
  let n := n ||| n >>> 4
  n ||| n >>> 8

theorem fill_up_eq (h : n < 65536) : fill_up n = smear n := by
  unfold fill_up smear
  have h4 := or_shift_lt (j := 16) 4 (or_shift_lt 2 (or_shift_lt 1 h))
  simp only
  generalize (n ||| n >>> 1) ||| (n ||| n >>> 1) >>> 2 |||
    ((n ||| n >>> 1) ||| (n ||| n >>> 1) >>> 2) >>> 4 = a at *
  split
  · rfl
  · rename_i hff
    rw [not_not] at hff
    have hzero : a >>> 8 = 0 := by
      apply Nat.eq_of_testBit_eq
      intro i
      rw [Nat.testBit_shiftRight, Nat.zero_testBit]
      by_cases hi : 8 + i < 16
      · exact ff00_bit hff (by omega) hi
      · apply Nat.testBit_lt_two_pow
        exact Nat.lt_of_lt_of_le h4 (Nat.pow_le_pow_right (by decide) (by omega))
    rw [hzero, Nat.or_zero]

theorem le_smear (n : Nat) : n ≤ smear n :=
  Nat.le_trans (Nat.le_trans (Nat.le_trans Nat.left_le_or Nat.left_le_or) Nat.left_le_or)
    Nat.left_le_or

theorem smear_lt {j : Nat} (h : n < 2 ^ j) : smear n < 2 ^ j :=
  or_shift_lt 8 (or_shift_lt 4 (or_shift_lt 2 (or_shift_lt 1 h)))

theorem smear_ones (h : n < 65536) : ∃ k, smear n + 1 = 2 ^ k := by
  have h1 : ∀ i, n.testBit i = true ↔ Near n 1 i := by
    intro i
    constructor
    · intro hbit
      exact ⟨0, by omega, hbit⟩
    · rintro ⟨j, hj, hbit⟩
      rwa [show j = 0 by omega] at hbit
  have h16 := near_double (near_double (near_double (near_double h1)))
  apply all_ones
  intro i hi
  simp only [smear] at hi ⊢
  rw [h16] at hi ⊢
  obtain ⟨j, hj, hbit⟩ := hi
  refine ⟨j + 1, ?_, by rwa [show i + (j + 1) = i + 1 + j by omega]⟩
  by_contra hj15
  have hge := Nat.ge_two_pow_of_testBit hbit
  have : 2 ^ 16 ≤ 2 ^ (i + 1 + j) := Nat.pow_le_pow_right (by decide) (by omega)
  omega

theorem smear_le {a b : Nat} (hab : a ≤ b) (hb : b < 65536) : smear a ≤ smear b := by
  obtain ⟨k, hk⟩ := smear_ones hb
  have hle := le_smear b
  have := smear_lt (n := a) (j := k) (by omega)
  omega

theorem table_mask_lt {size : Nat} (h : size < 8192) : table_mask size < 8192 := by
  unfold table_mask
  split
  · rw [fill_up_eq (by omega)]
    exact smear_lt (j := 13) h
  · decide

theorem inside_of_lt {size i : Nat} (h : size < 8192) (hi : i ≤ table_mask size) :
    Inside size i := by
  have hlt := table_mask_lt h
  unfold Inside
  have hbytes : table_bytes size = 4 * (table_mask size + 1) := by
    unfold table_bytes table_mask at *
    split
    · rename_i hgt
      rw [if_pos hgt] at hlt
      rw [short_eq (by omega : fill_up size + 1 < 65536), short_eq (by omega)]
      omega
    · rfl
  omega

theorem not_inside {size i : Nat} (h : 8192 ≤ size) (hlt : size < 65536) : ¬ Inside size i := by
  unfold Inside table_bytes
  rw [if_pos (by simp only [MAP_HASH_TABLE_SIZE]; omega), fill_up_eq hlt]
  obtain ⟨k, hk⟩ := smear_ones hlt
  have hle := le_smear size
  have hk14 : 14 ≤ k := by
    by_contra hsmall
    have : 2 ^ k ≤ 2 ^ 13 := Nat.pow_le_pow_right (by decide) (by omega)
    omega
  have hk16 : k ≤ 16 := by
    by_contra hlarge
    have : 2 ^ 17 ≤ 2 ^ k := Nat.pow_le_pow_right (by decide) (by omega)
    have := smear_lt (j := 16) hlt
    omega
  rw [hk]
  obtain rfl | rfl | rfl : k = 14 ∨ k = 15 ∨ k = 16 := by omega
  all_goals
    unfold short
    omega

/-! ## The table of the keys -/

variable {σ V K : Type} [DecidableEq K] {size : Fin 65536} {hash : K → Nat}

def indices_of (answers : List (Fin size × K)) (k : K) : List (Fin size) :=
  (answers.filter (·.2 = k)).map Prod.fst

def short_hash (hash : K → Nat) (k : K) : Nat := short (hash k)

variable (hash) in
structure Collected (t : unique_table_t K size) (answers : List (Fin size × K)) : Prop where
  hashed : Hashed (short_hash hash) (table_mask size) t.table
  lookup : ∀ k, (contents (table_mask size) t.table).lookup k =
    if k ∈ keys_of answers then some (indices_of answers k) else none
  numkeys : t.numkeys = short (keys_of answers).card

theorem mem_keys_append {answers : List (Fin size × K)} {index : Fin size} {sv k : K} :
    k ∈ keys_of (answers ++ [(index, sv)]) ↔ k ∈ keys_of answers ∨ k = sv := by
  simp [keys_of, or_comm]

theorem keys_append (answers : List (Fin size × K)) (index : Fin size) (sv : K) :
    keys_of (answers ++ [(index, sv)]) = insert sv (keys_of answers) := by
  ext k
  rw [mem_keys_append, Finset.mem_insert, or_comm]

theorem indices_append_self (answers : List (Fin size × K)) (index : Fin size) (sv : K) :
    indices_of (answers ++ [(index, sv)]) sv = indices_of answers sv ++ [index] := by
  simp [indices_of]

theorem indices_append_ne (answers : List (Fin size × K)) (index : Fin size) {sv k : K}
    (h : k ≠ sv) : indices_of (answers ++ [(index, sv)]) k = indices_of answers k := by
  simp [indices_of, h.symm]

theorem indices_fresh {answers : List (Fin size × K)} {k : K} (h : k ∉ keys_of answers) :
    indices_of answers k = [] := by
  unfold indices_of
  rw [map_eq_nil_iff, filter_eq_nil_iff]
  intro a ha hk
  simp only [decide_eq_true_eq] at hk
  apply h
  rw [keys_of, mem_toFinset]
  exact hk ▸ mem_map_of_mem ha

theorem add_index_collected {t : unique_table_t K size} {answers : List (Fin size × K)}
    (h : Collected hash t answers) (index : Fin size) (sv : K) :
    Collected hash (add_index t (short (hash sv) &&& table_mask size) sv index)
      (answers ++ [(index, sv)]) := by
  have hbucket : short (hash sv) = short_hash hash sv := rfl
  have hlookup := h.lookup sv
  rw [lookup_contents h.hashed] at hlookup
  unfold add_index
  rw [hbucket]
  by_cases hold : sv ∈ keys_of answers
  · rw [if_pos hold] at hlookup
    have hmem : sv ∈ contents (table_mask size) t.table := by
      rw [← Finmap.lookup_isSome, lookup_contents h.hashed, hlookup]
      rfl
    rw [hlookup]
    refine ⟨h.hashed.kreplace, ?_, ?_⟩
    · intro k
      rw [contents_kreplace h.hashed hmem]
      by_cases hk : k = sv
      · subst hk
        rw [Finmap.lookup_insert, if_pos (mem_keys_append.2 (.inr rfl)), indices_append_self]
      · rw [Finmap.lookup_insert_of_ne _ hk, h.lookup k, indices_append_ne _ _ hk]
        simp [mem_keys_append, hk]
    · rw [keys_append, Finset.insert_eq_of_mem hold]
      exact h.numkeys
  · rw [if_neg hold] at hlookup
    have hmem : sv ∉ contents (table_mask size) t.table := by
      rw [← Finmap.lookup_eq_none, lookup_contents h.hashed, hlookup]
    rw [hlookup]
    refine ⟨h.hashed.cons hmem, ?_, ?_⟩
    · intro k
      rw [contents_cons h.hashed hmem]
      by_cases hk : k = sv
      · subst hk
        rw [Finmap.lookup_insert, if_pos (mem_keys_append.2 (.inr rfl)), indices_append_self,
          indices_fresh hold, nil_append]
      · rw [Finmap.lookup_insert_of_ne _ hk, h.lookup k, indices_append_ne _ _ hk]
        simp [mem_keys_append, hk]
    · rw [keys_append, Finset.card_insert_of_notMem hold]
      simp only [h.numkeys]
      unfold short
      omega

variable (hash) in
theorem nothing_collected : Collected hash (⟨fun _ => [], 0⟩ : unique_table_t K size) [] := by
  refine ⟨hashed_empty _ _, ?_, rfl⟩
  intro k
  rw [contents_empty]
  rfl

def Follows (hash : K → Nat) (before : List (Fin size × K)) (c : Calls σ V K size)
    (o : outcome (driver_t σ V size × unique_table_t K size)) : Prop :=
  match c with
  | .answered d answers => ∃ t, o = .returned (d, t) ∧ Collected hash t (before ++ answers)
  | .unanswered => o = .wild
  | .raised text => o = .error text

theorem collect_follows (hsize : size < 8192) (callback : Callback σ V K size)
    (l : List (Fin size)) (d : driver_t σ V size) {t : unique_table_t K size}
    {before : List (Fin size × K)} (h : Collected hash t before) :
    Follows hash before (ask callback l d) (collect hash callback l d t) := by
  have hlt : size.val < 8192 := hsize
  induction l generalizing d t before with
  | nil => exact ⟨t, rfl, (append_nil before).symm ▸ h⟩
  | cons index rest ih =>
    unfold ask collect
    rcases callback d (d.item index) with ⟨d', sv | _ | text⟩
    · have hinside := inside_of_lt hlt (Nat.and_le_right (n := short (hash sv)))
      simp only [if_pos hinside]
      have hrest := ih d' (add_index_collected h index sv)
      generalize collect hash callback rest d' _ = o at *
      generalize ask callback rest d' = c at *
      cases c with
      | answered d'' answers =>
        obtain ⟨t', rfl, hcollected⟩ := hrest
        refine ⟨t', rfl, ?_⟩
        rwa [append_assoc] at hcollected
      | unanswered => exact hrest
      | raised text => exact hrest
    · rfl
    · simp only
      unfold unique_mapping_error_handler
      rw [if_pos (inside_of_lt hlt (Nat.le_refl _))]
      rfl

theorem collect_wild (hsize : ¬ size < 8192) (callback : Callback σ V K size)
    {l : List (Fin size)} (hl : l ≠ []) (d : driver_t σ V size) (t : unique_table_t K size) :
    collect hash callback l d t = .wild := by
  have hout : ∀ i, ¬ Inside size i := fun i => not_inside (not_lt.1 hsize) size.isLt
  cases l with
  | nil => exact absurd rfl hl
  | cons index rest =>
    unfold collect
    rcases callback d (d.item index) with ⟨d', sv | _ | text⟩
    · simp [if_neg (hout _)]
    · rfl
    · simp only
      unfold unique_mapping_error_handler
      rw [if_neg (hout _)]

/-! ## The mapping -/

theorem result_mask_eq (numkeys : Nat) : result_mask numkeys =
    if short (numkeys <<< 1) > 8 then smear (short (numkeys <<< 1)) else 7 := rfl

section

variable (item : Fin size → V) (hash)

/-- The mapping while keys are put there, as long as it does not grow. -/
structure Making (m₀ : mapping_t K (List V)) (nmask : Nat) (s : making_t K V)
    (placed : List (unique_node_t K size)) : Prop where
  size : s.m.table_size = m₀.table_size
  mask : s.nmask = nmask
  hashed : Hashed hash m₀.table_size s.m.table
  lookup : ∀ k, (contents m₀.table_size s.m.table).lookup k =
    (placed.dlookup k).map (map item)
  numkeys : s.numkeys = short placed.length
  empty : ∀ i, s.m.table i = [] ↔ i ∉ (placed.map fun x => short (hash x.1) &&& nmask).toFinset
  room : s.m.unfilled + (placed.map fun x => short (hash x.1) &&& nmask).toFinset.card = m₀.unfilled

variable {item hash}

theorem dlookup_append_one {β : Type} (l : List ((_ : K) × β)) (x : (_ : K) × β) (k : K) :
    (l ++ [x]).dlookup k = (l.dlookup k).or (if k = x.1 then some x.2 else none) := by
  induction l with
  | nil =>
    rw [nil_append, dlookup_nil, Option.none_or]
    split
    · rename_i h
      subst h
      exact dlookup_cons_eq _ _ _
    · rename_i h
      exact dlookup_cons_ne _ _ h
  | cons y l ih =>
    rw [cons_append]
    by_cases h : k = y.1
    · subst h
      rw [dlookup_cons_eq, dlookup_cons_eq, Option.some_or]
    · rw [dlookup_cons_ne _ _ h, dlookup_cons_ne _ _ h, ih]

theorem add_key_making {m₀ : mapping_t K (List V)} {nmask : Nat} {s : making_t K V}
    {placed : List (unique_node_t K size)} (h : Making hash item m₀ nmask s placed)
    {x : unique_node_t K size} (hfresh : x.1 ∉ placed.keys)
    (hhome : short (hash x.1) &&& nmask = hash x.1 &&& m₀.table_size)
    (hroom : ((placed ++ [x]).map fun x => short (hash x.1) &&& nmask).toFinset.card <
      m₀.unfilled) :
    ∃ s', add_key hash item s x = .returned s' ∧ Making hash item m₀ nmask s' (placed ++ [x]) := by
  have hle : ¬ hash x.1 &&& m₀.table_size > m₀.table_size := not_lt.2 Nat.and_le_right
  have hnot : x.1 ∉ contents m₀.table_size s.m.table := by
    rw [← Finmap.lookup_eq_none, h.lookup, dlookup_eq_none.2 hfresh]
    rfl
  have himage : ((placed ++ [x]).map fun x => short (hash x.1) &&& nmask).toFinset =
      insert (hash x.1 &&& m₀.table_size)
        (placed.map fun x => short (hash x.1) &&& nmask).toFinset := by
    rw [map_append, toFinset_append, ← hhome]
    simp [Finset.union_comm]
  rw [himage] at hroom
  have hroom₀ := h.room
  have hnumkeys : short (s.numkeys + 1) = short (placed ++ [x]).length := by
    rw [h.numkeys, length_append, length_singleton]
    unfold short
    omega
  have hlookup : ∀ k, ((contents m₀.table_size s.m.table).insert x.1 (x.2.map item)).lookup k =
      ((placed ++ [x]).dlookup k).map (map item) := by
    intro k
    rw [dlookup_append_one]
    by_cases hk : k = x.1
    · subst hk
      rw [Finmap.lookup_insert, dlookup_eq_none.2 hfresh, Option.none_or, if_pos rfl]
      rfl
    · rw [Finmap.lookup_insert_of_ne _ hk, h.lookup, if_neg hk, Option.or_none]
  have hempty : ∀ i, Function.update s.m.table (hash x.1 &&& m₀.table_size)
      (⟨x.1, x.2.map item⟩ :: s.m.table (hash x.1 &&& m₀.table_size)) i = [] ↔
        i ∉ ((placed ++ [x]).map fun x => short (hash x.1) &&& nmask).toFinset := by
    intro i
    rw [himage, Finset.mem_insert, not_or]
    by_cases hi : i = hash x.1 &&& m₀.table_size
    · subst hi
      rw [Function.update_self]
      exact ⟨fun hnil => absurd hnil (cons_ne_nil _ _), fun hne => absurd rfl hne.1⟩
    · rw [Function.update_of_ne hi, h.empty i]
      exact ⟨fun hmem => ⟨hi, hmem⟩, fun hmem => hmem.2⟩
  unfold add_key
  simp only [h.mask, hhome, h.size, if_neg hle]
  by_cases hnil : s.m.table (hash x.1 &&& m₀.table_size) = []
  · have hnew := (h.empty _).1 hnil
    rw [Finset.card_insert_of_notMem hnew] at hroom
    have hdecr : decr s.m.unfilled = s.m.unfilled - 1 := decr_pos (by omega)
    rw [if_pos (by rw [hnil]; rfl), if_neg (by rw [hdecr]; omega)]
    refine ⟨_, rfl, ⟨rfl, rfl, h.hashed.cons hnot, ?_, hnumkeys, hempty, ?_⟩⟩
    · intro k
      rw [← hlookup, contents_cons h.hashed hnot]
    · simp only
      rw [himage, Finset.card_insert_of_notMem hnew, hdecr]
      omega
  · have hold : (hash x.1 &&& m₀.table_size) ∈
        (placed.map fun x => short (hash x.1) &&& nmask).toFinset :=
      not_not.1 fun hmem => hnil ((h.empty _).2 hmem)
    rw [if_neg (by rw [List.isEmpty_iff]; exact hnil)]
    refine ⟨_, rfl, ⟨rfl, rfl, h.hashed.cons hnot, ?_, hnumkeys, hempty, ?_⟩⟩
    · intro k
      rw [← hlookup, contents_cons h.hashed hnot]
    · simp only
      rwa [himage, Finset.insert_eq_of_mem hold]

theorem add_key_wild {m₀ : mapping_t K (List V)} {nmask : Nat} {s : making_t K V}
    {placed : List (unique_node_t K size)} (h : Making hash item m₀ nmask s placed)
    {x : unique_node_t K size} (hout : m₀.table_size < short (hash x.1) &&& nmask) :
    add_key hash item s x = .wild := by
  unfold add_key
  simp [h.mask, h.size, if_pos (show _ > _ from hout)]

theorem add_keys_making (item : Fin size → V) {m₀ : mapping_t K (List V)} {nmask : Nat}
    (hmask : ∀ k : K, short (hash k) &&& nmask ≤ m₀.table_size →
      short (hash k) &&& nmask = hash k &&& m₀.table_size)
    (rest : List (unique_node_t K size)) {s : making_t K V} {placed : List (unique_node_t K size)}
    (h : Making hash item m₀ nmask s placed) (hkeys : (placed ++ rest).NodupKeys)
    (hroom : ((placed ++ rest).map fun x => short (hash x.1) &&& nmask).toFinset.card <
      m₀.unfilled) :
    ((∀ x ∈ rest, short (hash x.1) &&& nmask ≤ m₀.table_size) ∧
      ∃ s', add_keys hash item rest s = .returned s' ∧
        Making hash item m₀ nmask s' (placed ++ rest)) ∨
    ((∃ x ∈ rest, m₀.table_size < short (hash x.1) &&& nmask) ∧
      add_keys hash item rest s = .wild) := by
  induction rest generalizing s placed with
  | nil =>
    rw [append_nil]
    exact .inl ⟨fun x hx => absurd hx not_mem_nil, s, rfl, h⟩
  | cons x rest ih =>
    rw [append_cons] at hkeys hroom ⊢
    unfold add_keys
    by_cases hout : m₀.table_size < short (hash x.1) &&& nmask
    · right
      rw [add_key_wild h hout]
      exact ⟨⟨x, mem_cons_self, hout⟩, rfl⟩
    · rw [not_lt] at hout
      have hfresh : x.1 ∉ placed.keys := by
        unfold List.NodupKeys at hkeys
        rw [keys, map_append, map_append, append_assoc] at hkeys
        intro hmem
        exact (nodup_cons.1 (nodup_middle.1 hkeys)).1 (mem_append_left _ hmem)
      have hfewer : ((placed ++ [x]).map fun x => short (hash x.1) &&& nmask).toFinset.card <
          m₀.unfilled := by
        refine Nat.lt_of_le_of_lt (Finset.card_le_card ?_) hroom
        intro i hi
        rw [mem_toFinset] at hi ⊢
        rw [map_append]
        exact mem_append_left _ hi
      obtain ⟨s', hs', hmaking⟩ := add_key_making h hfresh (hmask _ hout) hfewer
      rw [hs']
      rcases ih hmaking hkeys hroom with ⟨hall, hrest⟩ | ⟨⟨y, hy, hyout⟩, hwild⟩
      · refine .inl ⟨?_, hrest⟩
        intro y hy
        rcases mem_cons.1 hy with rfl | hy
        · exact hout
        · exact hall y hy
      · exact .inr ⟨⟨y, mem_cons_of_mem _ hy, hyout⟩, hwild⟩

end

omit [DecidableEq K] in
theorem allocate_mapping_size (MAX_MAPPING_SIZE n : Nat) :
    (allocate_mapping MAX_MAPPING_SIZE n : mapping_t K V).table_size =
      if min n MAX_MAPPING_SIZE > 8 then short (fill_up (min n MAX_MAPPING_SIZE)) else 7 := by
  unfold allocate_mapping
  have hmin : (if n > MAX_MAPPING_SIZE then MAX_MAPPING_SIZE else n) = min n MAX_MAPPING_SIZE := by
    split <;> omega
  rw [hmin]
  simp only [MAP_HASH_TABLE_SIZE]
  split <;> rfl

omit [DecidableEq K] in
theorem allocate_mapping_unfilled (MAX_MAPPING_SIZE n : Nat) :
    (allocate_mapping MAX_MAPPING_SIZE n : mapping_t K V).unfilled =
      if min n MAX_MAPPING_SIZE > 8 then
        short ((fill_up (min n MAX_MAPPING_SIZE) + 1) * 80 % 4294967296 / 100) else 6 := by
  unfold allocate_mapping
  have hmin : (if n > MAX_MAPPING_SIZE then MAX_MAPPING_SIZE else n) = min n MAX_MAPPING_SIZE := by
    split <;> omega
  rw [hmin]
  simp only [MAP_HASH_TABLE_SIZE]
  split <;> rfl

omit [DecidableEq K] in
theorem masks_of_ones (MAX_MAPPING_SIZE : Nat) {numkeys : Nat} (hkeys : numkeys < 8192) :
    ∃ a b, a ≤ b ∧ b ≤ 16 ∧
      (allocate_mapping MAX_MAPPING_SIZE (2 * numkeys) : mapping_t K V).table_size = 2 ^ a - 1 ∧
      result_mask numkeys = 2 ^ b - 1 := by
  have hdouble : short (numkeys <<< 1) = 2 * numkeys := by
    rw [Nat.shiftLeft_eq, short_eq (by omega)]
    omega
  rw [result_mask_eq, hdouble, allocate_mapping_size]
  have hle : min (2 * numkeys) MAX_MAPPING_SIZE ≤ 2 * numkeys := Nat.min_le_left _ _
  generalize min (2 * numkeys) MAX_MAPPING_SIZE = n at *
  by_cases hsmall : 2 * numkeys > 8
  · rw [if_pos hsmall]
    obtain ⟨b, hb⟩ := smear_ones (n := 2 * numkeys) (by omega)
    have hb16 : b ≤ 16 := by
      have hlt := smear_lt (n := 2 * numkeys) (j := 16) (by omega)
      by_contra hlarge
      have : 2 ^ 17 ≤ 2 ^ b := Nat.pow_le_pow_right (by decide) (by omega)
      omega
    by_cases hn : n > 8
    · rw [if_pos hn, fill_up_eq (by omega)]
      obtain ⟨a, ha⟩ := smear_ones (n := n) (by omega)
      have hmono := smear_le hle (by omega)
      have hlt := smear_lt (n := 2 * numkeys) (j := 16) (by omega)
      refine ⟨a, b, ?_, hb16, ?_, by omega⟩
      · apply (Nat.pow_le_pow_iff_right (a := 2) (by decide)).1
        omega
      · rw [short_eq (by omega)]
        omega
    · rw [if_neg hn]
      refine ⟨3, b, ?_, hb16, rfl, by omega⟩
      apply (Nat.pow_le_pow_iff_right (a := 2) (by decide)).1
      have := le_smear (2 * numkeys)
      omega
  · rw [if_neg hsmall, if_neg (by omega)]
    exact ⟨3, 3, Nat.le_refl _, by decide, rfl, rfl⟩

omit [DecidableEq K] in
theorem bucket_home {MAX_MAPPING_SIZE numkeys h : Nat} (hkeys : numkeys < 8192)
    (hle : short h &&& result_mask numkeys ≤
      (allocate_mapping MAX_MAPPING_SIZE (2 * numkeys) : mapping_t K V).table_size) :
    short h &&& result_mask numkeys =
      h &&& (allocate_mapping MAX_MAPPING_SIZE (2 * numkeys) : mapping_t K V).table_size := by
  obtain ⟨a, b, hab, hb, hts, hm⟩ := masks_of_ones (K := K) (V := V) MAX_MAPPING_SIZE hkeys
  have hshort : short h % 2 ^ b = h % 2 ^ b := Nat.mod_mod_of_dvd h (Nat.pow_dvd_pow 2 hb)
  rw [hts, hm, Nat.and_two_pow_sub_one_eq_mod, hshort] at hle
  rw [hts, hm, Nat.and_two_pow_sub_one_eq_mod, Nat.and_two_pow_sub_one_eq_mod, hshort,
    ← Nat.mod_mod_of_dvd h (Nat.pow_dvd_pow 2 hab)]
  have hpos : 0 < 2 ^ a := Nat.two_pow_pos a
  exact (Nat.mod_eq_of_lt (by omega)).symm

omit [DecidableEq K] in
/-! ## The whole -/

omit [DecidableEq K] in
theorem ask_indices {callback : Callback σ V K size} {l : List (Fin size)}
    {d d' : driver_t σ V size} {answers : List (Fin size × K)}
    (h : ask callback l d = .answered d' answers) : answers.map Prod.fst = l := by
  induction l generalizing d answers with
  | nil =>
    cases h
    rfl
  | cons index rest ih =>
    unfold ask at h
    generalize callback d (d.item index) = r at h
    obtain ⟨d₁, sv | _ | text⟩ := r
    · simp only at h
      cases hrest : ask callback rest d₁ with
      | answered d₂ tail =>
        rw [hrest] at h
        cases h
        rw [map_cons, ih hrest]
      | unanswered | raised text =>
        simp [hrest] at h
    · cases h
    · cases h

theorem keys_card_le (answers : List (Fin size × K)) : (keys_of answers).card ≤ answers.length :=
  Nat.le_trans (toFinset_card_le _) (Nat.le_of_eq (length_map _))

theorem elements_backwards (d : driver_t σ V size) (answers : List (Fin size × K)) (k : K) :
    (indices_of answers k).map d.item = (elements_of d answers k).reverse := by
  unfold indices_of elements_of
  rw [filter_reverse, map_reverse, reverse_reverse, map_map]
  rfl

omit [DecidableEq K] in
theorem keys_in_perm (t : unique_table_t K size) :
    (keys_in t).Perm (nodes t.table (table_mask size + 1)) :=
  (reverse_perm _).flatMap_right _

theorem Collected.nodupKeys {t : unique_table_t K size} {answers : List (Fin size × K)}
    (h : Collected hash t answers) : (keys_in t).NodupKeys :=
  (perm_nodupKeys (keys_in_perm t)).2 (h.hashed.nodupKeys _)

theorem Collected.dlookup {t : unique_table_t K size} {answers : List (Fin size × K)}
    (h : Collected hash t answers) (k : K) : (keys_in t).dlookup k =
      if k ∈ keys_of answers then some (indices_of answers k) else none := by
  rw [perm_dlookup k h.nodupKeys (keys_in_perm t), ← h.lookup k]
  exact (Finmap.dlookup_list_toFinmap k _).symm

theorem keys_of_lookup {β : Type} {f : Finmap fun _ : K => β} {keys : Finset K} {g : K → β}
    (h : ∀ k, f.lookup k = if k ∈ keys then some (g k) else none) : f.keys = keys := by
  ext k
  rw [Finmap.mem_keys, ← Finmap.lookup_isSome, h]
  split
  · rename_i hk
    simp [hk]
  · rename_i hk
    simp [hk]

theorem Collected.length {t : unique_table_t K size} {answers : List (Fin size × K)}
    (h : Collected hash t answers) : (keys_in t).length = (keys_of answers).card := by
  rw [(keys_in_perm t).length_eq, length_nodes h.hashed, keys_of_lookup h.lookup]

theorem Collected.mem {t : unique_table_t K size} {answers : List (Fin size × K)}
    (h : Collected hash t answers) (k : K) :
    (∃ x ∈ keys_in t, x.1 = k) ↔ k ∈ keys_of answers := by
  have hlookup := h.dlookup k
  constructor
  · rintro ⟨x, hx, rfl⟩
    by_contra hk
    rw [if_neg hk, dlookup_eq_none] at hlookup
    exact hlookup (mem_keys_of_mem hx)
  · intro hk
    rw [if_pos hk] at hlookup
    exact ⟨_, of_mem_dlookup hlookup, rfl⟩

theorem Collected.buckets {t : unique_table_t K size} {answers : List (Fin size × K)}
    (h : Collected hash t answers) :
    ((keys_in t).map fun x => short (hash x.1) &&& result_mask (keys_of answers).card).toFinset =
      (keys_of answers).image (bucket hash (keys_of answers)) := by
  ext i
  rw [mem_toFinset, mem_map, Finset.mem_image]
  constructor
  · rintro ⟨x, hx, rfl⟩
    exact ⟨x.1, (h.mem x.1).1 ⟨x, hx, rfl⟩, rfl⟩
  · rintro ⟨k, hk, rfl⟩
    obtain ⟨x, hx, rfl⟩ := (h.mem k).2 hk
    exact ⟨x, hx, rfl⟩

variable (hash) in
theorem nothing_made (item : Fin size → V) (MAX_MAPPING_SIZE n nmask : Nat) :
    Making hash item (allocate_mapping MAX_MAPPING_SIZE n) nmask
      ⟨allocate_mapping MAX_MAPPING_SIZE n, nmask, 0⟩ [] := by
  obtain ⟨htable, -⟩ := allocate_mapping_empty (K := K) (V := List V) MAX_MAPPING_SIZE n
  refine ⟨rfl, rfl, ?_, ?_, rfl, ?_, rfl⟩
  · rw [htable]
    exact hashed_empty _ _
  · intro k
    rw [htable, contents_empty]
    rfl
  · intro i
    rw [htable]
    simp

theorem made_right {d : driver_t σ V size} {t : unique_table_t K size}
    {answers : List (Fin size × K)} (hcollected : Collected hash t answers)
    {m₀ : mapping_t K (List V)} {nmask : Nat} {s : making_t K V}
    (h : Making hash d.item m₀ nmask s (keys_in t)) (hshort : (keys_of answers).card < 65536) :
    Sound hash { s.m with count := s.numkeys } ∧
      ∀ k, (mapping_t.denotes { s.m with count := s.numkeys }).lookup k =
        if k ∈ keys_of answers then some (elements_of d answers k).reverse else none := by
  have hlookup : ∀ k, (contents s.m.table_size s.m.table).lookup k =
      if k ∈ keys_of answers then some (elements_of d answers k).reverse else none := by
    intro k
    rw [h.size, h.lookup, hcollected.dlookup]
    split
    · rw [Option.map_some, elements_backwards]
    · rfl
  have hhashed : Hashed hash s.m.table_size s.m.table := h.size.symm ▸ h.hashed
  refine ⟨⟨hhashed.home, hhashed.nodupKeys _, ?_⟩, hlookup⟩
  simp only [mapping_t.nodes]
  rw [length_nodes hhashed, keys_of_lookup hlookup, h.numkeys, hcollected.length, short_eq hshort]

omit [DecidableEq K] in
theorem new_mapping_eq (MAX_MAPPING_SIZE : Nat) (keys : Finset K) :
    (new_mapping MAX_MAPPING_SIZE keys).table_size =
        (allocate_mapping MAX_MAPPING_SIZE (2 * keys.card) : mapping_t K (List V)).table_size ∧
      (new_mapping MAX_MAPPING_SIZE keys).unfilled =
        (allocate_mapping MAX_MAPPING_SIZE (2 * keys.card) : mapping_t K (List V)).unfilled := by
  unfold new_mapping
  simp [allocate_mapping_size, allocate_mapping_unfilled]

variable (hash) in
/-- All calls are answered and the mapping does not fill up: each key is put into its
bucket, with its elements backwards, or a bucket is not in the table. -/
theorem unique_mapping_answered {MAX_MAPPING_SIZE : Nat} {callback : Callback σ V K size}
    {d d' : driver_t σ V size} {answers : List (Fin size × K)} (hsize : size < 8192)
    (hask : ask_all callback d = .answered d' answers)
    (hroom : ¬ Crowded hash MAX_MAPPING_SIZE (.answered d' answers)) :
    ((∀ k ∈ keys_of answers, bucket hash (keys_of answers) k ≤
        (new_mapping MAX_MAPPING_SIZE (keys_of answers)).table_size) ∧
      ∃ m, f_unique_mapping hash MAX_MAPPING_SIZE callback d = .returned (d', m) ∧
        Sound hash m ∧ ∀ k, m.denotes.lookup k =
          if k ∈ keys_of answers then some (elements_of d' answers k).reverse else none) ∨
    ((∃ k ∈ keys_of answers, (new_mapping MAX_MAPPING_SIZE (keys_of answers)).table_size <
        bucket hash (keys_of answers) k) ∧
      f_unique_mapping hash MAX_MAPPING_SIZE callback d = .wild) := by
  have hlt : size.val < 8192 := hsize
  have hcard : (keys_of answers).card < 8192 := by
    have hlength : answers.length = size := by
      rw [← length_map Prod.fst, ask_indices hask, length_reverse, length_finRange]
    have := keys_card_le answers
    omega
  unfold f_unique_mapping
  by_cases hzero : size = 0
  · subst hzero
    cases hask
    rw [if_pos rfl]
    refine .inl ⟨fun k hk => absurd hk (Finset.notMem_empty k), _, rfl,
      (allocate_mapping_ok hash _ _).1.sound, ?_⟩
    intro k
    rw [(allocate_mapping_ok hash _ _).2]
    rfl
  · have hfollows := collect_follows hsize callback (finRange size).reverse d
      (nothing_collected hash)
    rw [show ask callback _ d = _ from hask] at hfollows
    obtain ⟨t, ht, hcollected⟩ := hfollows
    rw [nil_append] at hcollected
    have hdouble : short (t.numkeys <<< 1) = 2 * (keys_of answers).card := by
      rw [hcollected.numkeys, short_eq (by omega : (keys_of answers).card < 65536),
        Nat.shiftLeft_eq, short_eq (by omega)]
      omega
    have hmask : result_mask t.numkeys = result_mask (keys_of answers).card := by
      rw [hcollected.numkeys, short_eq (by omega : (keys_of answers).card < 65536)]
    obtain ⟨hts, hunfilled⟩ := new_mapping_eq (V := V) MAX_MAPPING_SIZE (keys_of answers)
    have hadd := add_keys_making d'.item (fun k hle => bucket_home hcard hle) (keys_in t)
      (nothing_made hash d'.item MAX_MAPPING_SIZE (2 * (keys_of answers).card) _)
      hcollected.nodupKeys (by
        rw [nil_append, hcollected.buckets, ← hunfilled]
        exact not_le.1 hroom)
    rw [nil_append, ← hts] at hadd
    rw [if_neg hzero, ht]
    simp only
    rw [if_pos (inside_of_lt hlt (Nat.le_refl _)), hdouble, hmask]
    rcases hadd with ⟨hall, s, hs, hmaking⟩ | ⟨⟨x, hx, hout⟩, hwild⟩
    · obtain ⟨hsound, hlookup⟩ := made_right hcollected hmaking (by omega)
      left
      constructor
      · intro k hk
        obtain ⟨x, hx, rfl⟩ := (hcollected.mem k).2 hk
        exact hall x hx
      · refine ⟨{ s.m with count := s.numkeys }, ?_, hsound, hlookup⟩
        rw [show add_keys hash d'.item _ _ = _ from hs]
    · right
      refine ⟨⟨x.1, (hcollected.mem x.1).1 ⟨x, hx, rfl⟩, hout⟩, ?_⟩
      rw [show add_keys hash d'.item _ _ = _ from hwild]

variable (hash) in
theorem unique_mapping_unanswered (MAX_MAPPING_SIZE : Nat) (callback : Callback σ V K size)
    (d : driver_t σ V size) (hsize : size < 8192) :
    match ask_all callback d with
    | .answered _ _ => True
    | .unanswered => f_unique_mapping hash MAX_MAPPING_SIZE callback d = .wild
    | .raised text => f_unique_mapping hash MAX_MAPPING_SIZE callback d = .error text := by
  have hfollows := collect_follows hsize callback (finRange size).reverse d
    (nothing_collected hash)
  unfold f_unique_mapping
  by_cases hzero : size = 0
  · subst hzero
    trivial
  · rw [if_neg hzero]
    unfold ask_all
    generalize ask callback _ d = c at *
    cases c with
    | answered d' answers => trivial
    | unanswered | raised text => rw [show collect hash callback _ d _ = _ from hfollows]

variable (hash) in
theorem unique_mapping_large {MAX_MAPPING_SIZE : Nat} {callback : Callback σ V K size}
    {d : driver_t σ V size} (hsize : ¬ size < 8192) :
    f_unique_mapping hash MAX_MAPPING_SIZE callback d = .wild := by
  have hzero : size ≠ 0 := by
    rintro rfl
    exact hsize (by decide)
  have hpos : 0 < size.val := Fin.pos_iff_ne_zero.2 hzero
  have hl : (finRange size).reverse ≠ [] := by
    rwa [← length_pos_iff, length_reverse, length_finRange]
  unfold f_unique_mapping
  rw [if_neg hzero, collect_wild hsize callback hl]

def two : Fin 65536 := ⟨2, by decide⟩

def one_and_two : driver_t Unit Nat two := ⟨(), fun i => i.val + 1⟩

def zero_for_all : Callback Unit Nat Nat two := fun d _ => (d, .value 0)

end mudos.unique_mapping

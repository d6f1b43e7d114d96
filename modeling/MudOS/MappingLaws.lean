-- The laws of the mappings: each mapping stands for a finite map, and each
-- routine does to it what its name says, whichever loop and mask it works
-- with. While the maps stay within the limit, no routine runs out of room.
import MudOS.Mapping

open mudos.hash_tables mudos.runs Function List Option

namespace mudos.mapping

variable {K V : Type} [DecidableEq K] {hash : K → Nat}
variable {n i MAX_MAPPING_SIZE u : Nat} {m m' m1 m2 : mapping_t K V} {lv : K}
  {r : mapping_t K V × Nat × Nat × List (mapping_node_t K V)} {const0u : V} {overwrite : Bool}
  {l : List (mapping_node_t K V)} {s : Mappings (mapping_t K V) V}

variable {oldsize : Nat} {f : FiniteMap K V}

/-! ## A chain is split -/

variable (hash) in
omit [DecidableEq K] in
theorem split_chain_eq (oldsize : Nat) (l b : List (mapping_node_t K V)) (unfilled : Nat) :
    (split_chain hash oldsize l b unfilled).1 = (l.filter fun x => hash x.1 &&& oldsize = 0) ∧
      (split_chain hash oldsize l b unfilled).2.1 =
        (l.filter fun x => hash x.1 &&& oldsize ≠ 0).reverse ++ b := by
  induction l generalizing b unfilled with
  | nil => exact ⟨rfl, rfl⟩
  | cons elt next ih =>
    unfold split_chain
    by_cases hbit : hash elt.1 &&& oldsize = 0
    · obtain ⟨h1, h2⟩ := ih b unfilled
      simp only [hbit, ne_eq, not_true, if_false, filter_cons, decide_true, if_true,
        decide_false, Bool.false_eq_true]
      exact ⟨congrArg (elt :: ·) h1, h2⟩
    · obtain ⟨h1, h2⟩ := ih (elt :: b) (if b.isEmpty then decr unfilled else unfilled)
      simp only [hbit, ne_eq, not_false_eq_true, if_true, filter_cons, decide_false,
        Bool.false_eq_true, if_false, decide_true, reverse_cons, append_assoc]
      exact ⟨h1, h2⟩

def split_bucket (hash : K → Nat) (oldsize i : Nat) (m : mapping_t K V) : mapping_t K V :=
  let r := split_chain hash oldsize (m.table i) (m.table (i + oldsize)) m.unfilled
  { m with
    table := update (update m.table (i + oldsize) r.2.1) i r.1
    unfilled := if r.1.isEmpty then incr r.2.2 else r.2.2 }

omit [DecidableEq K] in
theorem split_loop_succ (oldsize i : Nat) (m : mapping_t K V) :
    split_loop hash oldsize (i + 1) m =
      if (m.table i).isEmpty then split_loop hash oldsize i m
      else split_loop hash oldsize i (split_bucket hash oldsize i m) := rfl

variable (hash) in
omit [DecidableEq K] in
theorem split_loop_frame (oldsize n : Nat) (m : mapping_t K V) :
    (split_loop hash oldsize n m).table_size = m.table_size ∧
      (split_loop hash oldsize n m).count = m.count := by
  induction n generalizing m with
  | zero => exact ⟨rfl, rfl⟩
  | succ i ih =>
    rw [split_loop_succ]
    split
    · exact ih m
    · exact ih (split_bucket hash oldsize i m)

/-- The loop leaves in each bucket the nodes without the bit, and puts the others into
the bucket that was empty. -/
structure SplitBelow (hash : K → Nat) (oldsize n : Nat) (t u : Table fun _ : K => V) : Prop where
  low : ∀ j < n, u j = (t j).filter fun x => hash x.1 &&& oldsize = 0
  high : ∀ j < n, u (j + oldsize) = ((t j).filter fun x => hash x.1 &&& oldsize ≠ 0).reverse
  between : ∀ j, n ≤ j → j < oldsize → u j = t j
  above : ∀ j, n + oldsize ≤ j → u j = t j

variable (hash) in
omit [DecidableEq K] in
theorem split_loop_table (hn : n ≤ oldsize) (hempty : ∀ j < n, m.table (j + oldsize) = []) :
    SplitBelow hash oldsize n m.table (split_loop hash oldsize n m).table := by
  induction n generalizing m with
  | zero => exact ⟨nofun, nofun,
      fun _ _ _ => rfl, fun _ _ => rfl⟩
  | succ i ih =>
    rw [split_loop_succ]
    split
    · rename_i hnil
      rw [List.isEmpty_iff] at hnil
      have h := ih (by omega) fun j hj => hempty j (by omega)
      refine ⟨fun j hj => ?_, fun j hj => ?_, fun j h1 h2 => h.between j (by omega) h2,
        fun j hj => h.above j (by omega)⟩
      · by_cases hji : j = i
        · subst hji
          rw [h.between j (Nat.le_refl j) (by omega), hnil]
          rfl
        · exact h.low j (by omega)
      · by_cases hji : j = i
        · subst hji
          rw [h.above (j + oldsize) (Nat.le_refl _), hempty j (by omega), hnil]
          rfl
        · exact h.high j (by omega)
    · obtain ⟨h1, h2⟩ := split_chain_eq hash oldsize (m.table i) (m.table (i + oldsize))
        m.unfilled
      have h2 := h2.trans (by rw [hempty i (Nat.lt_succ_self i), append_nil])
      have hself : (split_bucket hash oldsize i m).table i =
          (m.table i).filter fun x => hash x.1 &&& oldsize = 0 := by
        rw [← h1]
        exact update_self _ _ _
      have hhigh : (split_bucket hash oldsize i m).table (i + oldsize) =
          ((m.table i).filter fun x => hash x.1 &&& oldsize ≠ 0).reverse := by
        rw [← h2]
        refine (update_of_ne (by omega) _ _).trans ?_
        exact update_self _ _ _
      have hother : ∀ j, j ≠ i → j ≠ i + oldsize →
          (split_bucket hash oldsize i m).table j = m.table j := fun j h3 h4 =>
        (update_of_ne h3 _ _).trans (update_of_ne h4 _ _)
      have h := ih (m := split_bucket hash oldsize i m) (by omega) fun j hj => by
        rw [hother _ (by omega) (by omega)]
        exact hempty j (by omega)
      refine ⟨fun j hj => ?_, fun j hj => ?_, fun j h3 h4 => ?_, fun j hj => ?_⟩
      · by_cases hji : j = i
        · subst hji
          rw [h.between j (Nat.le_refl j) (by omega), hself]
        · rw [h.low j (by omega), hother j hji (by omega)]
      · by_cases hji : j = i
        · subst hji
          rw [h.above _ (Nat.le_refl _), hhigh]
        · rw [h.high j (by omega), hother j hji (by omega)]
      · rw [h.between j (by omega) h4, hother j (by omega) (by omega)]
      · rw [h.above j (by omega), hother j (by omega) (by omega)]

/-! ## The table doubles -/

structure WellFormed (hash : K → Nat) (m : mapping_t K V) : Prop where
  hashed : Hashed hash m.table_size m.table
  size : (∃ k, m.table_size + 1 = 2 ^ k) ∨ MAX_TABLE_SIZE ≤ m.table_size

def doubled (m : mapping_t K V) : mapping_t K V :=
  { m with
    table := fun j => if j < m.table_size + 1 then m.table j else []
    unfilled := (m.table_size + 1) * FILL_PERCENT / 100
    table_size := 2 * (m.table_size + 1) - 1 }

omit [DecidableEq K] in
theorem growMap_some (h : growMap hash m = some m') :
    m.table_size + 1 ≤ 16384 ∧
      m' = split_loop hash (m.table_size + 1) (m.table_size + 1) (doubled m) := by
  simp only [growMap, MAX_TABLE_SIZE] at h
  split at h
  · cases h
  · refine ⟨by omega, ?_⟩
    simpa [doubled] using h.symm

variable (hash) in
omit [DecidableEq K] in
theorem growMap_isSome (h : m.table_size + 1 ≤ 16384) : ∃ m', growMap hash m = some m' := by
  unfold growMap
  rw [if_neg (by simp only [MAX_TABLE_SIZE]; omega)]
  exact ⟨_, rfl⟩

variable (hash) in
omit [DecidableEq K] in
theorem doubled_split (m : mapping_t K V) : SplitBelow hash (m.table_size + 1) (m.table_size + 1)
    (doubled m).table (split_loop hash (m.table_size + 1) (m.table_size + 1) (doubled m)).table :=
  split_loop_table hash (Nat.le_refl _) fun j _ => if_neg (by omega)

omit [DecidableEq K] in
theorem doubled_low {j : Nat} (h : j < m.table_size + 1) :
    (doubled m).table j = m.table j := if_pos h

structure Split (hash : K → Nat) (m m' : mapping_t K V) : Prop where
  size : m.table_size + 1 ≤ 16384
  table_size : m'.table_size = 2 * m.table_size + 1
  count : m'.count = m.count
  low : ∀ j ≤ m.table_size,
    m'.table j = (m.table j).filter fun x => hash x.1 &&& (m.table_size + 1) = 0
  high : ∀ j ≤ m.table_size, m'.table (j + (m.table_size + 1)) =
    ((m.table j).filter fun x => hash x.1 &&& (m.table_size + 1) ≠ 0).reverse
  rest : ∀ j, 2 * m.table_size + 1 < j → m'.table j = []

omit [DecidableEq K] in
theorem growMap_split (hg : growMap hash m = some m') : Split hash m m' := by
  obtain ⟨hsize, rfl⟩ := growMap_some hg
  have hs := doubled_split hash m
  obtain ⟨hts, hcount⟩ := split_loop_frame hash (m.table_size + 1) (m.table_size + 1)
    (doubled m)
  refine ⟨hsize, hts.trans (by simp only [doubled]; omega), hcount, fun j hj => ?_,
    fun j hj => ?_, fun j hj => ?_⟩
  · rw [hs.low j (by omega), doubled_low (by omega)]
  · rw [hs.high j (by omega), doubled_low (by omega)]
  · rw [hs.above j (by omega)]
    exact if_neg (by omega)

omit [DecidableEq K] in
theorem Split.low_perm (h : Split hash m m') (j : Nat) (hj : j ≤ m.table_size) :
    (m'.table j).Perm ((m.table j).filter fun x => hash x.1 &&& (m.table_size + 1) = 0) :=
  .of_eq (h.low j hj)

omit [DecidableEq K] in
theorem Split.high_perm (h : Split hash m m') (j : Nat) (hj : j ≤ m.table_size) :
    (m'.table (j + (m.table_size + 1))).Perm
      ((m.table j).filter fun x => hash x.1 &&& (m.table_size + 1) ≠ 0) := by
  rw [h.high j hj]
  exact reverse_perm _

omit [DecidableEq K] in
theorem Split.empty (h : Split hash m m') (hi : i ≤ m.table_size) (hnil : m.table i = []) :
    m'.table i = [] ∧ m'.table (i + (m.table_size + 1)) = [] := by
  rw [h.low i hi, h.high i hi, hnil]
  exact ⟨rfl, rfl⟩

omit [DecidableEq K] in
theorem Split.two_pow (h : Split hash m m')
    (hsize : (∃ k, m.table_size + 1 = 2 ^ k) ∨ MAX_TABLE_SIZE ≤ m.table_size) :
    ∃ k, m.table_size + 1 = 2 ^ k := by
  rcases hsize with hk | hbig
  · exact hk
  · have := h.size
    simp only [MAX_TABLE_SIZE] at hbig
    omega

/-- No node is lost, and each is in its bucket of the larger table. -/
structure Grown (hash : K → Nat) (m m' : mapping_t K V) : Prop where
  wellFormed : WellFormed hash m'
  table_size : m'.table_size = 2 * m.table_size + 1
  denotes : m'.denotes = m.denotes
  count : m'.count = m.count
  empty : ∀ i ≤ m.table_size, m.table i = [] →
    m'.table i = [] ∧ m'.table (i + (m.table_size + 1)) = []

theorem growMap_grown (h : WellFormed hash m) (hg : growMap hash m = some m') :
    Grown hash m m' := by
  have hs := growMap_split hg
  obtain ⟨k, hk⟩ := hs.two_pow h.size
  obtain ⟨hhashed, hcontents⟩ := h.hashed.double hk hs.low_perm hs.high_perm hs.rest
  refine ⟨⟨hs.table_size ▸ hhashed, .inl ⟨k + 1, ?_⟩⟩, hs.table_size, ?_, hs.count,
    fun i => hs.empty⟩
  · rw [hs.table_size, Nat.pow_succ]
    omega
  · unfold mapping_t.denotes
    rwa [hs.table_size]

/-! ## A new mapping -/

def Near (n d i : Nat) : Prop := ∃ j < d, n.testBit (i + j) = true

theorem near_double {a d : Nat} (h : ∀ i, a.testBit i = true ↔ Near n d i) (i : Nat) :
    (a ||| a >>> d).testBit i = true ↔ Near n (2 * d) i := by
  rw [Nat.testBit_or, Bool.or_eq_true, Nat.testBit_shiftRight, h, h]
  constructor
  · rintro (⟨j, hj, hbit⟩ | ⟨j, hj, hbit⟩)
    · exact ⟨j, by omega, hbit⟩
    · exact ⟨d + j, by omega, by rwa [show i + (d + j) = d + i + j by omega]⟩
  · rintro ⟨j, hj, hbit⟩
    by_cases hlt : j < d
    · exact .inl ⟨j, hlt, hbit⟩
    · exact .inr ⟨j - d, by omega, by rwa [show d + i + (j - d) = i + j by omega]⟩

theorem all_ones (h : ∀ i, n.testBit (i + 1) = true → n.testBit i = true) : ∃ k, n + 1 = 2 ^ k := by
  induction n using Nat.strongRecOn with
  | ind n ih =>
    by_cases h0 : n / 2 = 0
    · rcases Nat.lt_or_ge n 1 with h1 | h1
      · exact ⟨0, by rw [Nat.pow_zero]; omega⟩
      · exact ⟨1, by rw [Nat.pow_one]; omega⟩
    · obtain ⟨k, hk⟩ := ih (n / 2) (by omega) fun i hi => by
        rw [Nat.testBit_div_two] at hi ⊢
        exact h (i + 1) hi
      have hodd : n % 2 = 1 := by
        have hbit : (n / 2).testBit 0 = true := by
          cases k with
          | zero =>
            rw [Nat.pow_zero] at hk
            omega
          | succ k =>
            rw [Nat.pow_succ] at hk
            rw [Nat.testBit_zero, decide_eq_true_eq]
            omega
        rw [Nat.testBit_div_two] at hbit
        simpa using h 0 hbit
      exact ⟨k + 1, by rw [Nat.pow_succ]; omega⟩

theorem ff00_bit (h : n &&& 0xff00 = 0) (h1 : 8 ≤ i) (h2 : i < 16) : n.testBit i = false := by
  have hbit : (n &&& 0xff00).testBit i = false := by
    rw [h, Nat.zero_testBit]
  have hmask : (0xff00 : Nat).testBit i = true := by
    obtain ⟨j, rfl⟩ : ∃ j, i = j + 8 := ⟨i - 8, by omega⟩
    have hall : ∀ j < 8, (0xff00 : Nat).testBit (j + 8) = true := by decide
    exact hall j (by omega)
  rwa [Nat.testBit_and, hmask, Bool.and_true] at hbit

theorem fill_up_ones (n : Nat) :
    (∃ k, short (fill_up n) + 1 = 2 ^ k) ∨ MAX_TABLE_SIZE ≤ short (fill_up n) := by
  have h1 : ∀ i, n.testBit i = true ↔ Near n 1 i := by
    intro i
    constructor
    · intro hbit
      exact ⟨0, by omega, hbit⟩
    · rintro ⟨j, hj, hbit⟩
      rwa [show j = 0 by omega] at hbit
  have h8 := near_double (near_double (near_double h1))
  have h16 := near_double h8
  have hbits : ∀ s i, (short s).testBit i = (decide (i < 16) && s.testBit i) := by
    intro s i
    exact Nat.testBit_mod_two_pow s 16 i
  simp only [fill_up]
  generalize (n ||| n >>> 1) ||| (n ||| n >>> 1) >>> 2 ||| ((n ||| n >>> 1) ||| (n ||| n >>> 1) >>> 2) >>> 4 = s4 at *
  by_cases hff : s4 &&& 0xff00 = 0
  · rw [if_neg (not_not.2 hff)]
    left
    apply all_ones
    intro i hi
    rw [hbits, Bool.and_eq_true, decide_eq_true_eq, h8] at hi ⊢
    obtain ⟨hlt, j, hj, hbit⟩ := hi
    refine ⟨by omega, j + 1, ?_, by rwa [show i + (j + 1) = i + 1 + j by omega]⟩
    by_contra hj7
    -- the bit of `n` would be one of those that are not set
    by_cases hi7 : i < 8
    · have := ff00_bit hff (i := i + 8) (by omega) (by omega)
      rw [← Bool.not_eq_true, h8] at this
      exact this ⟨0, by omega, by rwa [show i + 8 + 0 = i + 1 + j by omega]⟩
    · have := ff00_bit hff (i := 15) (by omega) (by omega)
      rw [← Bool.not_eq_true, h8] at this
      exact this ⟨i - 7, by omega, by rwa [show 15 + (i - 7) = i + 1 + j by omega]⟩
  · rw [if_pos hff]
    by_cases h15 : (s4 ||| s4 >>> 8).testBit 15 = true
    · right
      have hbit : (short (s4 ||| s4 >>> 8)).testBit 15 = true := by
        rw [hbits, h15]
        rfl
      exact Nat.ge_two_pow_of_testBit hbit
    · left
      apply all_ones
      intro i hi
      rw [hbits, Bool.and_eq_true, decide_eq_true_eq, h16] at hi ⊢
      rw [h16] at h15
      obtain ⟨hlt, j, hj, hbit⟩ := hi
      refine ⟨by omega, j + 1, ?_, by rwa [show i + (j + 1) = i + 1 + j by omega]⟩
      by_contra hj15
      exact h15 ⟨i + 1 + j - 15, by omega, by rwa [show 15 + (i + 1 + j - 15) = i + 1 + j by omega]⟩

omit [DecidableEq K] in
theorem hashed_empty (hash : K → Nat) (mask : Nat) :
    Hashed hash mask (fun _ => [] : Table fun _ : K => V) := by
  refine ⟨fun i x hx => ?_, fun i => nodupKeys_nil⟩
  cases hx

omit [DecidableEq K] in
theorem allocate_mapping_wellFormed (MAX_MAPPING_SIZE n : Nat) :
    WellFormed hash (allocate_mapping MAX_MAPPING_SIZE n : mapping_t K V) := by
  unfold allocate_mapping
  generalize (if n > MAX_MAPPING_SIZE then MAX_MAPPING_SIZE else n) = n
  by_cases hn : n > MAP_HASH_TABLE_SIZE
  · simp only [if_pos hn]
    exact ⟨hashed_empty _ _, fill_up_ones n⟩
  · simp only [if_neg hn]
    exact ⟨hashed_empty _ _, .inl ⟨3, rfl⟩⟩

omit [DecidableEq K] in
theorem allocate_mapping_empty (MAX_MAPPING_SIZE n : Nat) :
    (allocate_mapping MAX_MAPPING_SIZE n : mapping_t K V).table = (fun _ => []) ∧
      (allocate_mapping MAX_MAPPING_SIZE n : mapping_t K V).count = 0 := by
  unfold allocate_mapping
  generalize (if n > MAX_MAPPING_SIZE then MAX_MAPPING_SIZE else n) = n
  by_cases hn : n > MAP_HASH_TABLE_SIZE
  · simp [if_pos hn]
  · simp [if_neg hn]

/-! ## One mapping -/

structure Ok (hash : K → Nat) (m : mapping_t K V) : Prop where
  wellFormed : WellFormed hash m
  count : m.count = m.denotes.keys.card

theorem Ok.sound (h : Ok hash m) : Sound hash m :=
  ⟨h.wellFormed.hashed.home, h.wellFormed.hashed.nodupKeys _,
    h.count.trans (length_nodes h.wellFormed.hashed).symm⟩

variable (hash) in
theorem allocate_mapping_ok (MAX_MAPPING_SIZE n : Nat) :
    Ok hash (allocate_mapping MAX_MAPPING_SIZE n : mapping_t K V) ∧
      (allocate_mapping MAX_MAPPING_SIZE n : mapping_t K V).denotes = ∅ := by
  obtain ⟨htable, hcount⟩ := allocate_mapping_empty (K := K) (V := V) MAX_MAPPING_SIZE n
  have hempty : (allocate_mapping MAX_MAPPING_SIZE n : mapping_t K V).denotes = ∅ := by
    unfold mapping_t.denotes
    rw [htable, contents_empty]
  refine ⟨⟨allocate_mapping_wellFormed _ _, ?_⟩, hempty⟩
  rw [hcount, hempty, Finmap.keys_empty, Finset.card_empty]

omit [DecidableEq K] in
theorem copy_table (h : WellFormed hash m) (i : Nat) :
    ((copyMapping m).table i).Perm (m.table i) := by
  simp only [copyMapping]
  split
  · exact reverse_perm _
  · rename_i hi
    have hnil : m.table i = [] := by
      apply eq_nil_iff_forall_not_mem.2
      intro x hx
      have := h.hashed.home i x hx
      exact hi (this ▸ Nat.and_le_right)
    rw [hnil]

theorem copyMapping_ok (h : Ok hash m) :
    Ok hash (copyMapping m) ∧ (copyMapping m).denotes = m.denotes := by
  have hperm := copy_table h.wellFormed
  have hhashed : Hashed hash m.table_size (copyMapping m).table := by
    refine ⟨fun i x hx => ?_, fun i => ?_⟩
    · exact h.wellFormed.hashed.home i x ((hperm i).mem_iff.1 hx)
    · exact (perm_nodupKeys (hperm i)).2 (h.wellFormed.hashed.chains i)
  have hsame : (copyMapping m).denotes = m.denotes :=
    contents_congr h.wellFormed.hashed hhashed fun x => (hperm _).mem_iff
  refine ⟨⟨⟨hhashed, h.wellFormed.size⟩, ?_⟩, hsame⟩
  rw [hsame]
  exact h.count

theorem find_in_mapping_eq (h : Ok hash m) (const0u : V) (lv : K) :
    find_in_mapping hash const0u m lv = (m.denotes.lookup lv).getD const0u := by
  unfold find_in_mapping mapping_t.denotes
  rw [lookup_contents h.wellFormed.hashed]

theorem mem_denotes (h : WellFormed hash m) (lv : K) :
    lv ∈ (m.table (hash lv &&& m.table_size)).keys ↔ lv ∈ m.denotes :=
  (mem_contents h.hashed).symm

theorem mapping_delete_ok (h : Ok hash m) (lv : K) :
    Ok hash (mapping_delete hash m lv) ∧
      (mapping_delete hash m lv).denotes = m.denotes.erase lv := by
  simp only [mapping_delete]
  by_cases hlv : lv ∈ (m.table (hash lv &&& m.table_size)).keys
  · rw [if_pos hlv]
    rw [mem_denotes h.wellFormed] at hlv
    have hdenotes := contents_kerase h.wellFormed.hashed (a := lv)
    refine ⟨⟨⟨h.wellFormed.hashed.kerase, h.wellFormed.size⟩, ?_⟩, hdenotes⟩
    have hcard : (m.denotes.erase lv).keys.card = m.denotes.keys.card - 1 := by
      rw [Finmap.keys_erase, Finset.card_erase_of_mem (Finmap.mem_keys.2 hlv)]
    exact (congrArg (· - 1) h.count).trans (hcard.symm.trans (congrArg (fun f => f.keys.card) hdenotes.symm))
  · rw [if_neg hlv]
    rw [mem_denotes h.wellFormed] at hlv
    refine ⟨h, Finmap.ext_lookup fun a => ?_⟩
    by_cases ha : a = lv
    · rwa [ha, Finmap.lookup_erase, Finmap.lookup_eq_none]
    · rw [Finmap.lookup_erase_ne ha]

theorem card_insert_old {a : K} {b : V} (h : a ∈ f) : (f.insert a b).keys.card = f.keys.card := by
  congr 1
  ext c
  rw [Finmap.mem_keys, Finmap.mem_keys, Finmap.mem_insert]
  constructor
  · rintro (rfl | hc)
    · exact h
    · exact hc
  · exact .inr

theorem card_insert_new {a : K} {b : V} (h : a ∉ f) :
    (f.insert a b).keys.card = f.keys.card + 1 := by
  have hkeys : (f.insert a b).keys = insert a f.keys := by
    ext c
    rw [Finmap.mem_keys, Finmap.mem_insert, Finset.mem_insert, Finmap.mem_keys]
  rw [hkeys, Finset.card_insert_of_notMem (mt Finmap.mem_keys.1 h)]

theorem overwrite_wellFormed (h : WellFormed hash m) (v : V) (hlv : lv ∈ m.denotes) :
    WellFormed hash (assign m (hash lv &&& m.table_size) lv v) ∧
      (assign m (hash lv &&& m.table_size) lv v).denotes = m.denotes.insert lv v :=
  ⟨⟨h.hashed.kreplace, h.size⟩, contents_kreplace h.hashed hlv⟩

theorem assign_ok (h : Ok hash m) (v : V) (hlv : lv ∈ m.denotes) :
    Ok hash (assign m (hash lv &&& m.table_size) lv v) ∧
      (assign m (hash lv &&& m.table_size) lv v).denotes = m.denotes.insert lv v := by
  obtain ⟨hw, hdenotes⟩ := overwrite_wellFormed h.wellFormed v hlv
  refine ⟨⟨hw, ?_⟩, hdenotes⟩
  rw [hdenotes, card_insert_old hlv]
  exact h.count

/-! ## Room for one more node -/

/-- What a loop has when there is room: the bucket of the key in a table that stands for
the same map. -/
structure Room (hash : K → Nat) (m : mapping_t K V) (lv : K)
    (r : mapping_t K V × Nat × Nat × List (mapping_node_t K V)) : Prop where
  wellFormed : WellFormed hash r.1
  denotes : r.1.denotes = m.denotes
  count : r.1.count = m.count
  mask : r.2.1 = r.1.table_size
  bucket : r.2.2.1 = hash lv &&& r.1.table_size
  chain : r.2.2.2 = r.1.table r.2.2.1
  empty : m.table (hash lv &&& m.table_size) = [] → r.2.2.2 = []

theorem make_room_room {s : adding_t K V} (h : WellFormed hash s.m)
    (hmask : s.mask = s.m.table_size)
    (hr : make_room hash s (hash lv) (hash lv &&& s.mask) = some r) : Room hash s.m lv r := by
  unfold make_room at hr
  rw [hmask] at hr
  have hle : hash lv &&& s.m.table_size ≤ s.m.table_size := Nat.and_le_right
  split at hr
  · rename_i hnil
    rw [List.isEmpty_iff] at hnil
    generalize decr s.m.unfilled = unfilled at hr
    simp only at hr
    split at hr
    · obtain ⟨m', hgrow, hr⟩ := map_eq_some_iff.mp hr
      have hg := growMap_grown (m := { s.m with unfilled })
        ⟨h.hashed, h.size⟩ hgrow
      obtain ⟨hlow, hhigh⟩ := hg.empty _ hle hnil
      have hts : m'.table_size = 2 * s.m.table_size + 1 := hg.table_size
      obtain ⟨k, hk⟩ := (growMap_split hgrow).two_pow h.size
      have hdouble := and_double hk (hash lv)
      rw [or_double hk hle] at hr
      split at hr
      · rename_i hbit
        subst hr
        rw [if_neg hbit] at hdouble
        exact ⟨hg.wellFormed, hg.denotes, hg.count, by simp only; omega,
          by simp only; rw [hts, hdouble], rfl, fun _ => hhigh⟩
      · rename_i hbit
        subst hr
        rw [if_pos (not_not.1 hbit)] at hdouble
        exact ⟨hg.wellFormed, hg.denotes, hg.count, by simp only; omega,
          by simp only; rw [hts, hdouble, Nat.add_zero], hlow.symm, fun _ => rfl⟩
    · cases hr
      exact ⟨⟨h.hashed, h.size⟩, rfl, rfl, rfl, rfl, hnil.symm, fun _ => rfl⟩
  · cases hr
    exact ⟨h, rfl, rfl, rfl, rfl, rfl, id⟩

theorem Room.put {x : mapping_node_t K V} (h : Room hash m x.1 r) (hnew : x.1 ∉ m.denotes)
    {n : mapping_t K V} (htable : n.table = update r.1.table r.2.2.1 (x :: r.2.2.2))
    (hsize : n.table_size = r.1.table_size) :
    WellFormed hash n ∧ n.denotes = m.denotes.insert x.1 x.2 := by
  have hnew' : x.1 ∉ contents r.1.table_size r.1.table := by
    have := h.denotes
    unfold mapping_t.denotes at this hnew
    rwa [this]
  rw [h.chain, h.bucket] at htable
  refine ⟨⟨?_, ?_⟩, ?_⟩
  · rw [hsize, htable]
    exact h.wellFormed.hashed.cons hnew'
  · rw [hsize]
    exact h.wellFormed.size
  · rw [← h.denotes]
    unfold mapping_t.denotes
    rw [hsize, htable]
    exact contents_cons h.wellFormed.hashed hnew'

theorem find_for_insert_eq (MAX_MAPPING_SIZE : Nat) (const0u : V) (m : mapping_t K V) (lv : K) :
    find_for_insert hash MAX_MAPPING_SIZE const0u m lv =
      if lv ∈ (m.table (hash lv &&& m.table_size)).keys then some (m, hash lv &&& m.table_size)
      else (make_room hash ⟨m, m.table_size, m.count⟩ (hash lv) (hash lv &&& m.table_size)).bind
        fun r => if r.1.count + 1 > MAX_MAPPING_SIZE then none
          else some ({ r.1 with
            table := update r.1.table r.2.2.1 (⟨lv, const0u⟩ :: r.1.table r.2.2.1)
            count := r.1.count + 1 }, r.2.2.1) := by
  unfold find_for_insert make_room
  simp only
  by_cases hlv : lv ∈ (m.table (hash lv &&& m.table_size)).keys
  · rw [if_pos hlv, if_pos hlv]
  rw [if_neg hlv, if_neg hlv]
  by_cases hnil : (m.table (hash lv &&& m.table_size)).isEmpty = true
  · rw [if_pos hnil, if_pos hnil]
    generalize decr m.unfilled = unfilled
    by_cases hfull : unfilled = 0
    · rw [if_pos hfull, if_pos hfull]
      cases growMap hash { m with unfilled } with
      | none => rfl
      | some m' =>
        by_cases hbit : hash lv &&& (m.table_size + 1) ≠ 0
        · simp [if_pos hbit]
        · simp [if_neg hbit]
    · rw [if_neg hfull, if_neg hfull]
      rfl
  · rw [if_neg hnil, if_neg hnil]
    rfl

theorem find_for_insert_ok (h : Ok hash m) {r : mapping_t K V × Nat}
    (hr : find_for_insert hash MAX_MAPPING_SIZE const0u m lv = some r) :
    Ok hash r.1 ∧ r.2 = hash lv &&& r.1.table_size ∧
      r.1.denotes = if lv ∈ m.denotes then m.denotes else m.denotes.insert lv const0u := by
  rw [find_for_insert_eq] at hr
  split at hr
  · rename_i hlv
    rw [mem_denotes h.wellFormed] at hlv
    cases hr
    exact ⟨h, rfl, (if_pos hlv).symm⟩
  · rename_i hlv
    rw [mem_denotes h.wellFormed] at hlv
    obtain ⟨room, hroom, hr⟩ := bind_eq_some_iff.mp hr
    have hroom := make_room_room h.wellFormed rfl hroom
    split at hr
    · cases hr
    · cases hr
      obtain ⟨hw, hdenotes⟩ := hroom.put (x := ⟨lv, const0u⟩) hlv
        (n := { room.1 with
          table := update room.1.table room.2.2.1 (⟨lv, const0u⟩ :: room.1.table room.2.2.1)
          count := room.1.count + 1 }) (by rw [hroom.chain]) rfl
      refine ⟨⟨hw, ?_⟩, hroom.bucket, hdenotes.trans (if_neg hlv).symm⟩
      rw [hdenotes, card_insert_new hlv, ← h.count, ← hroom.count]

/-! ## Many nodes -/

def put (overwrite : Bool) (f : FiniteMap K V) (x : mapping_node_t K V) : FiniteMap K V :=
  if overwrite = true ∨ x.1 ∉ f then f.insert x.1 x.2 else f

structure Adding (hash : K → Nat) (s : adding_t K V) : Prop where
  wellFormed : WellFormed hash s.m
  mask : s.mask = s.m.table_size
  count : s.count = s.m.denotes.keys.card

theorem add_node_adding {s s' : adding_t K V} {elt : mapping_node_t K V} (h : Adding hash s)
    (hs : add_node hash MAX_MAPPING_SIZE overwrite s elt = some s') :
    Adding hash s' ∧ s'.m.denotes = put overwrite s.m.denotes elt := by
  simp only [add_node] at hs
  rw [h.mask] at hs
  split at hs
  · rename_i hold
    rw [mem_denotes h.wellFormed] at hold
    split at hs
    · rename_i hover
      cases hs
      obtain ⟨hw, hdenotes⟩ := overwrite_wellFormed h.wellFormed elt.2 hold
      refine ⟨⟨hw, rfl, ?_⟩, hdenotes.trans (if_pos (.inl hover)).symm⟩
      rw [h.count]
      exact ((congrArg (fun f => f.keys.card) hdenotes).trans (card_insert_old hold)).symm
    · rename_i hover
      cases hs
      refine ⟨h, (if_neg ?_).symm⟩
      rintro (hover' | hnew)
      · exact hover hover'
      · exact hnew hold
  · rename_i hnew
    rw [mem_denotes h.wellFormed] at hnew
    obtain ⟨room, hroom, hs⟩ := bind_eq_some_iff.mp hs
    rw [← h.mask] at hroom
    have hroom := make_room_room h.wellFormed h.mask hroom
    split at hs
    · cases hs
    · cases hs
      obtain ⟨hw, hdenotes⟩ := hroom.put hnew
        (n := { room.1 with table := update room.1.table room.2.2.1 (elt :: room.2.2.2) })
        rfl rfl
      refine ⟨⟨hw, hroom.mask, ?_⟩, hdenotes.trans (if_pos (.inr hnew)).symm⟩
      rw [hdenotes, card_insert_new hnew, ← h.count]

theorem foldlM_adding {s s' : adding_t K V} (h : Adding hash s)
    (hs : l.foldlM (add_node hash MAX_MAPPING_SIZE overwrite) s = some s') :
    Adding hash s' ∧ s'.m.denotes = l.foldl (put overwrite) s.m.denotes := by
  induction l generalizing s with
  | nil =>
    cases hs
    exact ⟨h, rfl⟩
  | cons elt l ih =>
    rw [foldlM_cons] at hs
    obtain ⟨t, ht, hs⟩ := bind_eq_some_iff.1 hs
    obtain ⟨h', hdenotes⟩ := add_node_adding h ht
    rw [foldl_cons, ← hdenotes]
    exact ih h' hs

theorem add_nodes_ok (h : Ok hash m)
    (hm : add_nodes hash MAX_MAPPING_SIZE overwrite m l = some m') :
    Ok hash m' ∧ m'.denotes = l.foldl (put overwrite) m.denotes := by
  unfold add_nodes at hm
  obtain ⟨s, hs, rfl⟩ := map_eq_some_iff.mp hm
  obtain ⟨hadding, hdenotes⟩ := foldlM_adding ⟨h.wellFormed, rfl, h.count⟩ hs
  exact ⟨⟨⟨hadding.wellFormed.hashed, hadding.wellFormed.size⟩, hadding.count⟩, hdenotes⟩

theorem lookup_foldl_put (overwrite : Bool) (hl : l.NodupKeys) (f : FiniteMap K V) (a : K) :
    (l.foldl (put overwrite) f).lookup a =
      if overwrite = true ∨ a ∉ f then (l.dlookup a).or (f.lookup a) else f.lookup a := by
  induction l generalizing f with
  | nil =>
    rw [foldl_nil, dlookup_nil, none_or, ite_self]
  | cons x l ih =>
    rw [nodupKeys_cons] at hl
    rw [foldl_cons, ih hl.2]
    by_cases hput : overwrite = true ∨ x.1 ∉ f
    · have hf : put overwrite f x = f.insert x.1 x.2 := if_pos hput
      rw [hf]
      by_cases ha : a = x.1
      · subst ha
        rw [Finmap.lookup_insert, dlookup_cons_eq, dlookup_eq_none.2 hl.1, none_or,
          ite_self, if_pos hput, some_or]
      · rw [Finmap.lookup_insert_of_ne _ ha, dlookup_cons_ne _ _ ha]
        simp [ha]
    · have hf : put overwrite f x = f := if_neg hput
      rw [hf]
      by_cases ha : a = x.1
      · subst ha
        rw [if_neg hput, if_neg hput]
      · rw [dlookup_cons_ne _ _ ha]

omit [DecidableEq K] in
theorem nodupKeys_traverse (h : WellFormed hash m) : (traverse m).NodupKeys := by
  have hperm : (traverse m).Perm m.nodes := (reverse_perm _).flatMap_right _
  exact (perm_nodupKeys hperm).2 (h.hashed.nodupKeys _)

theorem dlookup_traverse (h : WellFormed hash m) (a : K) :
    (traverse m).dlookup a = m.denotes.lookup a := by
  have hperm : (traverse m).Perm m.nodes := (reverse_perm _).flatMap_right _
  rw [perm_dlookup a (nodupKeys_traverse h) hperm]
  exact (Finmap.dlookup_list_toFinmap a m.nodes).symm

theorem lookup_union (f g : FiniteMap K V) (a : K) :
    (f ∪ g).lookup a = (f.lookup a).or (g.lookup a) := by
  by_cases ha : a ∈ f
  · obtain ⟨v, hv⟩ := Finmap.mem_iff.1 ha
    rw [Finmap.lookup_union_left ha, hv, some_or]
  · rw [Finmap.lookup_union_right ha, Finmap.lookup_eq_none.2 ha, none_or]

theorem foldl_put_overwrite (h : WellFormed hash m) (f : FiniteMap K V) :
    (traverse m).foldl (put true) f = m.denotes ∪ f := by
  refine Finmap.ext_lookup fun a => ?_
  rw [lookup_foldl_put _ (nodupKeys_traverse h), if_pos (.inl rfl), dlookup_traverse h,
    lookup_union]

theorem foldl_put_unique (h : WellFormed hash m) (f : FiniteMap K V) :
    (traverse m).foldl (put false) f = f ∪ m.denotes := by
  refine Finmap.ext_lookup fun a => ?_
  rw [lookup_foldl_put _ (nodupKeys_traverse h), dlookup_traverse h, lookup_union]
  by_cases ha : a ∈ f
  · obtain ⟨v, hv⟩ := Finmap.mem_iff.1 ha
    rw [if_neg (by simpa using ha), hv, some_or]
  · rw [if_pos (.inr ha), Finmap.lookup_eq_none.2 ha, none_or, or_none]

theorem add_to_mapping_ok (h1 : Ok hash m1) (h2 : Ok hash m2)
    (hm : add_to_mapping hash MAX_MAPPING_SIZE m1 m2 = some m) :
    Ok hash m ∧ m.denotes = m2.denotes ∪ m1.denotes := by
  obtain ⟨hok, hdenotes⟩ := add_nodes_ok h1 hm
  exact ⟨hok, hdenotes.trans (foldl_put_overwrite h2.wellFormed _)⟩

theorem unique_add_to_mapping_ok (h1 : Ok hash m1) (h2 : Ok hash m2)
    (hm : unique_add_to_mapping hash MAX_MAPPING_SIZE m1 m2 = some m) :
    Ok hash m ∧ m.denotes = m1.denotes ∪ m2.denotes := by
  obtain ⟨hok, hdenotes⟩ := add_nodes_ok h1 hm
  exact ⟨hok, hdenotes.trans (foldl_put_unique h2.wellFormed _)⟩

theorem denotes_of_count (h : Ok hash m) (hc : ¬ m.count ≠ 0) : m.denotes = ∅ := by
  have hcount := h.count
  rw [not_not.1 hc] at hcount
  have hkeys := Finset.card_eq_zero.1 hcount.symm
  refine Finmap.ext_lookup fun a => ?_
  rw [Finmap.lookup_empty, Finmap.lookup_eq_none, ← Finmap.mem_keys, hkeys]
  exact Finset.notMem_empty a

theorem absorb_mapping_ok (h1 : Ok hash m1) (h2 : Ok hash m2)
    (hm : absorb_mapping hash MAX_MAPPING_SIZE m1 m2 = some m) :
    Ok hash m ∧ m.denotes = m2.denotes ∪ m1.denotes := by
  unfold absorb_mapping at hm
  split at hm
  · exact add_to_mapping_ok h1 h2 hm
  · rename_i hc
    cases hm
    rw [denotes_of_count h2 hc, Finmap.empty_union]
    exact ⟨h1, rfl⟩

theorem add_mapping_ok (h1 : Ok hash m1) (h2 : Ok hash m2)
    (hm : add_mapping hash MAX_MAPPING_SIZE m1 m2 = some m) :
    Ok hash m ∧ m.denotes = m2.denotes ∪ m1.denotes := by
  obtain ⟨hcopy1, hsame1⟩ := copyMapping_ok h1
  obtain ⟨hcopy2, hsame2⟩ := copyMapping_ok h2
  unfold add_mapping at hm
  split at hm
  · split at hm
    · rw [← hsame1]
      exact add_to_mapping_ok hcopy1 h2 hm
    · rename_i hc
      cases hm
      rw [denotes_of_count h2 hc, Finmap.empty_union]
      exact ⟨hcopy1, hsame1⟩
  · split at hm
    · rw [← hsame2]
      exact unique_add_to_mapping_ok hcopy2 h1 hm
    · rename_i hc
      cases hm
      rw [denotes_of_count h1 hc, Finmap.union_empty]
      exact ⟨hcopy2, hsame2⟩

theorem load_mapping_from_aggregate_ok {sp : List (mapping_node_t K V)}
    (hm : load_mapping_from_aggregate hash MAX_MAPPING_SIZE sp = some m) :
    Ok hash m ∧ m.denotes = sp.foldl (fun f x => f.insert x.1 x.2) ∅ := by
  obtain ⟨hok, hempty⟩ := allocate_mapping_ok hash (V := V) MAX_MAPPING_SIZE sp.length
  obtain ⟨hok, hdenotes⟩ := add_nodes_ok hok hm
  refine ⟨hok, ?_⟩
  rw [hdenotes, hempty]
  rfl

/-! ## Every run -/

def AllOk (hash : K → Nat) (s : Mappings (mapping_t K V) V) : Prop := ∀ m ∈ s.maps, Ok hash m

theorem AllOk.get (h : AllOk hash s) (hm : s.maps[i]? = some m) : Ok hash m :=
  h m (mem_of_getElem? hm)

theorem AllOk.new (h : AllOk hash s) (hm : Ok hash m) : AllOk hash (s.new m) := by
  intro x hx
  rcases mem_append.1 hx with hx | hx
  · exact h x hx
  · rwa [mem_singleton.1 hx]

theorem AllOk.set (h : AllOk hash s) (hm : Ok hash m) : AllOk hash (s.set i m) := by
  intro x hx
  rcases mem_or_eq_of_mem_set hx with hx | rfl
  · exact h x hx
  · exact hm

theorem denotes_new (s : Mappings (mapping_t K V) V) (m : mapping_t K V) :
    (s.new m).denotes = s.denotes.new m.denotes := by simp [Mappings.denotes, Mappings.new]

theorem denotes_set (s : Mappings (mapping_t K V) V) (i : Nat) (m : mapping_t K V) :
    (s.set i m).denotes = s.denotes.set i m.denotes := by simp [Mappings.denotes, Mappings.set]

theorem denotes_get (h : s.maps[i]? = some m) : s.denotes.maps[i]? = some m.denotes := by
  simp [Mappings.denotes, h]

theorem step_ok {s' : Mappings (mapping_t K V) V} {op : MappingOp K V} (h : AllOk hash s)
    (hs : step hash MAX_MAPPING_SIZE const0u s op = some s') :
    AllOk hash s' ∧ specStep const0u s.denotes op = some s'.denotes := by
  cases op with
  | allocate_mapping n =>
    cases hs
    obtain ⟨hok, hempty⟩ := allocate_mapping_ok hash (K := K) (V := V) MAX_MAPPING_SIZE n
    exact ⟨h.new hok, by rw [denotes_new, hempty]; rfl⟩
  | load_mapping_from_aggregate sp =>
    obtain ⟨m, hm, rfl⟩ := map_eq_some_iff.1 hs
    obtain ⟨hok, hdenotes⟩ := load_mapping_from_aggregate_ok hm
    exact ⟨h.new hok, by rw [denotes_new, hdenotes]; rfl⟩
  | copyMapping i =>
    obtain ⟨m, hm, rfl⟩ := map_eq_some_iff.1 hs
    obtain ⟨hok, hdenotes⟩ := copyMapping_ok (h.get hm)
    refine ⟨h.new hok, ?_⟩
    rw [denotes_new, hdenotes, specStep, denotes_get hm]
    rfl
  | find_for_insert i lv v =>
    obtain ⟨m, hm, hs⟩ := bind_eq_some_iff.1 hs
    obtain ⟨r, hr, hs⟩ := bind_eq_some_iff.1 hs
    obtain ⟨hok, hbucket, hdenotes⟩ := find_for_insert_ok (h.get hm) hr
    rw [specStep, denotes_get hm]
    cases v with
    | none =>
      cases hs
      exact ⟨h.set hok, by rw [denotes_set, hdenotes]; rfl⟩
    | some v =>
      cases hs
      have hmem : lv ∈ r.1.denotes := by
        rw [hdenotes]
        split
        · assumption
        · exact Finmap.mem_insert.2 (.inl rfl)
      obtain ⟨hok', hassign⟩ := assign_ok hok v hmem
      rw [← hbucket] at hok' hassign
      refine ⟨h.set hok', ?_⟩
      rw [denotes_set, hassign, hdenotes]
      split
      · rfl
      · rw [Finmap.insert_insert]
        rfl
  | find_in_mapping i lv =>
    obtain ⟨m, hm, rfl⟩ := map_eq_some_iff.1 hs
    refine ⟨h, ?_⟩
    rw [specStep, denotes_get hm, find_in_mapping_eq (h.get hm)]
    rfl
  | mapping_delete i lv =>
    obtain ⟨m, hm, rfl⟩ := map_eq_some_iff.1 hs
    obtain ⟨hok, hdenotes⟩ := mapping_delete_ok (h.get hm) lv
    refine ⟨h.set hok, ?_⟩
    rw [denotes_set, hdenotes, specStep, denotes_get hm]
    rfl
  | absorb_mapping i j =>
    obtain ⟨m1, hm1, hs⟩ := bind_eq_some_iff.1 hs
    obtain ⟨m2, hm2, hs⟩ := bind_eq_some_iff.1 hs
    obtain ⟨m, hm, rfl⟩ := map_eq_some_iff.1 hs
    obtain ⟨hok, hdenotes⟩ := absorb_mapping_ok (h.get hm1) (h.get hm2) hm
    refine ⟨h.set hok, ?_⟩
    rw [denotes_set, hdenotes, specStep, denotes_get hm1, denotes_get hm2]
    rfl
  | add_mapping i j =>
    obtain ⟨m1, hm1, hs⟩ := bind_eq_some_iff.1 hs
    obtain ⟨m2, hm2, hs⟩ := bind_eq_some_iff.1 hs
    obtain ⟨m, hm, rfl⟩ := map_eq_some_iff.1 hs
    obtain ⟨hok, hdenotes⟩ := add_mapping_ok (h.get hm1) (h.get hm2) hm
    refine ⟨h.new hok, ?_⟩
    rw [denotes_new, hdenotes, specStep, denotes_get hm1, denotes_get hm2]
    rfl

theorem run_ok {s' : Mappings (mapping_t K V) V} {ops : List (MappingOp K V)} (h : AllOk hash s)
    (hs : run (step hash MAX_MAPPING_SIZE const0u) s ops = some s') :
    AllOk hash s' ∧ run (specStep const0u) s.denotes ops = some s'.denotes := by
  induction ops generalizing s with
  | nil =>
    cases hs
    exact ⟨h, rfl⟩
  | cons op ops ih =>
    rw [run, bind_eq_some_iff] at hs
    obtain ⟨t, ht, hs⟩ := hs
    obtain ⟨hok, hspec⟩ := step_ok h ht
    rw [run, hspec]
    exact ih hok hs

/-! ## The room in a table -/

def filled (t : Table fun _ : K => V) (n : Nat) : Nat :=
  (range n).countP fun i => !(t i).isEmpty

def has_nodes (l : List (mapping_node_t K V)) : Nat := if l.isEmpty then 0 else 1

omit [DecidableEq K] in
theorem filled_succ (t : Table fun _ : K => V) (n : Nat) :
    filled t (n + 1) = filled t n + has_nodes (t n) := by
  unfold filled has_nodes
  rw [range_succ, countP_append, countP_singleton]
  cases (t n).isEmpty <;> rfl

omit [DecidableEq K] in
theorem filled_congr {t u : Table fun _ : K => V} (h : ∀ i < n, has_nodes (u i) = has_nodes (t i)) :
    filled u n = filled t n := by
  induction n with
  | zero => rfl
  | succ n ih =>
    rw [filled_succ, filled_succ, ih fun i hi => h i (by omega), h n (Nat.lt_succ_self n)]

omit [DecidableEq K] in
theorem filled_update {t : Table fun _ : K => V} (hi : i < n) (l : List (mapping_node_t K V)) :
    filled (update t i l) n + has_nodes (t i) = filled t n + has_nodes l := by
  induction n with
  | zero => exact absurd hi (Nat.not_lt_zero i)
  | succ n ih =>
    rw [filled_succ, filled_succ]
    by_cases hin : i = n
    · subst hin
      have hsame : filled (update t i l) i = filled t i :=
        filled_congr fun j hj => by rw [update_of_ne (by omega)]
      rw [hsame, update_self]
      omega
    · have := ih (by omega)
      rw [update_of_ne (Ne.symm hin)]
      omega

omit [DecidableEq K] in
theorem filled_le_nodes (t : Table fun _ : K => V) (n : Nat) :
    filled t n ≤ (hash_tables.nodes t n).length := by
  induction n with
  | zero => exact Nat.zero_le _
  | succ n ih =>
    unfold hash_tables.nodes at ih ⊢
    rw [filled_succ, range_succ, flatMap_append, length_append,
      flatMap_singleton]
    have hone : has_nodes (t n) ≤ (t n).length := by
      unfold has_nodes
      split
      · exact Nat.zero_le _
      · rename_i hne
        rw [List.isEmpty_iff] at hne
        exact length_pos_iff.2 hne
    omega

theorem decr_spec (h : u < 65536) : decr u < 65536 ∧ (decr u + 1) % 65536 = u % 65536 := by
  unfold decr
  split <;> omega

theorem incr_spec (h : u < 65536) : incr u < 65536 ∧ incr u % 65536 = (u + 1) % 65536 := by
  unfold incr
  split <;> omega

theorem decr_pos (h : 0 < u) : decr u = u - 1 := if_neg (by omega)

theorem incr_lt (h : u < 65535) : incr u = u + 1 := if_neg (by omega)

variable (hash) in
omit [DecidableEq K] in
theorem split_chain_unfilled (oldsize : Nat) (l b : List (mapping_node_t K V)) (h : u < 65536) :
    (split_chain hash oldsize l b u).2.2 < 65536 ∧
      ((split_chain hash oldsize l b u).2.2 +
        has_nodes (split_chain hash oldsize l b u).2.1) % 65536 =
        (u + has_nodes b) % 65536 := by
  induction l generalizing b u with
  | nil => exact ⟨h, rfl⟩
  | cons elt next ih =>
    unfold split_chain
    split
    · obtain ⟨hdecr, hmod⟩ := decr_spec h
      have hlt : (if b.isEmpty then decr u else u) < 65536 := by split <;> assumption
      obtain ⟨h1, h2⟩ := ih (elt :: b) hlt
      refine ⟨h1, h2.trans ?_⟩
      have hone : has_nodes (elt :: b) = 1 := rfl
      rw [hone]
      unfold has_nodes
      split
      · exact hmod
      · rfl
    · exact ih b h

/-- The count of the buckets without nodes is right, up to the size of a `short`. -/
structure Counted (m m' : mapping_t K V) (N : Nat) : Prop where
  lt : m'.unfilled < 65536
  sum : (m'.unfilled + filled m'.table N) % 65536 = (m.unfilled + filled m.table N) % 65536

variable (hash) in
omit [DecidableEq K] in
theorem split_bucket_counted (hi : i < oldsize) (hne : (m.table i).isEmpty = false)
    (hlt : m.unfilled < 65536) :
    Counted m (split_bucket hash oldsize i m) (2 * oldsize) ∧
      filled (split_bucket hash oldsize i m).table (2 * oldsize) ≤
        filled m.table (2 * oldsize) + 1 := by
  obtain ⟨h1, h2⟩ := split_chain_unfilled hash oldsize (m.table i)
    (m.table (i + oldsize)) hlt
  unfold split_bucket
  generalize split_chain hash oldsize (m.table i) (m.table (i + oldsize)) m.unfilled = r at *
  have hupdate1 := filled_update (t := m.table) (n := 2 * oldsize) (i := i + oldsize) (by omega) r.2.1
  have hupdate2 := filled_update (t := update m.table (i + oldsize) r.2.1)
    (n := 2 * oldsize) (i := i) (by omega) r.1
  rw [update_of_ne (by omega)] at hupdate2
  have hone : has_nodes (m.table i) = 1 := by
    unfold has_nodes
    rw [hne]
    rfl
  have hlow : has_nodes r.1 = if r.1.isEmpty then 0 else 1 := rfl
  have hhigh : has_nodes r.2.1 ≤ 1 := by
    unfold has_nodes
    split <;> omega
  obtain ⟨hincr, hmod⟩ := incr_spec h1
  refine ⟨⟨?_, ?_⟩, ?_⟩
  · simp only
    split <;> assumption
  · cases hempty : r.1.isEmpty with
    | true =>
      simp only [hempty, if_true] at hlow ⊢
      omega
    | false =>
      simp only [hempty, Bool.false_eq_true, if_false] at hlow ⊢
      omega
  · simp only
    split at hlow <;> omega

variable (hash) in
omit [DecidableEq K] in
theorem split_loop_counted (hn : n ≤ oldsize) (hlt : m.unfilled < 65536) :
    Counted m (split_loop hash oldsize n m) (2 * oldsize) ∧
      filled (split_loop hash oldsize n m).table (2 * oldsize) ≤
        filled m.table (2 * oldsize) + filled m.table n := by
  induction n generalizing m with
  | zero => exact ⟨⟨hlt, rfl⟩, Nat.le_add_right _ _⟩
  | succ i ih =>
    rw [split_loop_succ, filled_succ]
    split
    · obtain ⟨hcounted, hle⟩ := ih (by omega) hlt
      exact ⟨hcounted, by omega⟩
    · rename_i hne
      obtain ⟨hbucket, hone⟩ := split_bucket_counted hash (by omega : i < oldsize)
        (by simpa using hne) hlt
      obtain ⟨hcounted, hle⟩ := ih (by omega) hbucket.lt
      have hsame : filled (split_bucket hash oldsize i m).table i = filled m.table i :=
        filled_congr fun j hj => by
          simp only [split_bucket]
          rw [update_of_ne (by omega), update_of_ne (by omega)]
      have hnodes : has_nodes (m.table i) = 1 := by
        unfold has_nodes
        rw [if_neg hne]
      exact ⟨⟨hcounted.lt, hcounted.sum.trans hbucket.sum⟩, by omega⟩

/-- The buckets without nodes, among the 80 percent of the buckets, are counted in
`unfilled`; `e` is 1 when one of them was taken for a node that is not there yet. Each
doubling rounds the 80 percent down once more. -/
structure Roomy (e : Nat) (m : mapping_t K V) : Prop where
  size : ∃ k, m.table_size + 1 = 2 ^ k ∧ 3 ≤ k ∧ k ≤ 15 ∧
    4 * (m.table_size + 1) + 8 ≤ 5 * (m.unfilled + filled m.table (m.table_size + 1) + e) + 4 * k
  upper : 5 * (m.unfilled + filled m.table (m.table_size + 1) + e) ≤ 4 * (m.table_size + 1)
  pos : 0 < m.unfilled

abbrev ROOM : Nat := 26203

omit [DecidableEq K] in
theorem pow_le {k : Nat} (h : k ≤ 15) : 2 ^ k ≤ 32768 := Nat.pow_le_pow_right (by decide) h

theorem eq_of_short {a b x f : Nat} (ha : a < 65536) (hb : b ≤ f + f) (hfx : f < x)
    (hx : x + f < 65536) (h : (a + b) % 65536 = (x + f) % 65536) : a + b = x + f := by
  rw [Nat.mod_eq_of_lt hx] at h
  omega

omit [DecidableEq K] in
/-- A table that doubles gets 80 percent of the new buckets to fill, and one bucket is taken
already for a node that is not there yet. -/
theorem growMap_exact (h : Roomy 0 m) (hone : m.unfilled = 1)
    (hg : growMap hash { m with unfilled := u } = some m') :
    m'.table_size = 2 * (m.table_size + 1) - 1 ∧
      m'.unfilled + filled m'.table (m'.table_size + 1) =
        (m.table_size + 1) * FILL_PERCENT / 100 + filled m.table (m.table_size + 1) ∧
      filled m'.table (m'.table_size + 1) ≤ 2 * filled m.table (m.table_size + 1) := by
  obtain ⟨hle, rfl⟩ := growMap_some hg
  obtain ⟨k, hk, h3, h15, hlower⟩ := h.size
  have hupper := h.upper
  simp only at hle
  obtain ⟨hts, -⟩ := split_loop_frame hash (m.table_size + 1) (m.table_size + 1)
    (doubled { m with unfilled := u })
  have hdouble : 2 * (m.table_size + 1) - 1 + 1 = 2 * (m.table_size + 1) := by omega
  have hfill : (doubled { m with unfilled := u }).unfilled = (m.table_size + 1) * 80 / 100 := rfl
  obtain ⟨hcounted, hgrew⟩ := split_loop_counted hash (Nat.le_refl (m.table_size + 1))
    (m := doubled { m with unfilled := u }) (by rw [hfill]; omega)
  have hlow : filled (doubled { m with unfilled := u }).table (m.table_size + 1) =
      filled m.table (m.table_size + 1) :=
    filled_congr fun i hi => by rw [doubled_low (by exact hi)]
  have hhigh : ∀ n, filled (doubled { m with unfilled := u }).table (m.table_size + 1 + n) =
      filled m.table (m.table_size + 1) := by
    intro n
    induction n with
    | zero => exact hlow
    | succ n ih =>
      rw [← Nat.add_assoc, filled_succ, ih]
      have hnil : (doubled { m with unfilled := u }).table (m.table_size + 1 + n) = [] :=
        if_neg (by simp only; omega)
      rw [hnil]
      rfl
  have hall := hhigh (m.table_size + 1)
  rw [← Nat.two_mul] at hall
  have hlt := hcounted.lt
  have hsum := hcounted.sum
  rw [hall] at hsum hgrew
  rw [hlow] at hgrew
  rw [hfill] at hsum
  generalize split_loop hash (m.table_size + 1) (m.table_size + 1) (doubled { m with unfilled := u }) =
    m' at *
  have hts : m'.table_size = 2 * (m.table_size + 1) - 1 := hts
  rw [hts, hdouble]
  have h80 : 5 * ((m.table_size + 1) * 80 / 100) ≤ 4 * (m.table_size + 1) ∧
      4 * (m.table_size + 1) ≤ 5 * ((m.table_size + 1) * 80 / 100) + 4 := by omega
  change _ ∧ _ = (m.table_size + 1) * 80 / 100 + _ ∧ _
  generalize (m.table_size + 1) * 80 / 100 = x at *
  exact ⟨rfl, eq_of_short hlt hgrew (by omega) (by omega) hsum, by omega⟩

omit [DecidableEq K] in
theorem growMap_roomy (h : Roomy 0 m) (hone : m.unfilled = 1)
    (hg : growMap hash { m with unfilled := u } = some m') : Roomy 1 m' := by
  obtain ⟨hts, hexact, hgrew⟩ := growMap_exact h hone hg
  obtain ⟨hle, -⟩ := growMap_some hg
  obtain ⟨k, hk, h3, h15, hlower⟩ := h.size
  have hupper := h.upper
  simp only at hle
  have hdouble : 2 * (m.table_size + 1) - 1 + 1 = 2 * (m.table_size + 1) := by omega
  have hk14 : k ≤ 14 := by
    by_contra hk15
    have hk15 : k = 15 := by omega
    subst hk15
    omega
  have hpow : 2 ^ (k + 1) = 2 * 2 ^ k := by rw [Nat.pow_succ, Nat.mul_comm]
  have h80 : 5 * ((m.table_size + 1) * FILL_PERCENT / 100) ≤ 4 * (m.table_size + 1) ∧
      4 * (m.table_size + 1) ≤ 5 * ((m.table_size + 1) * FILL_PERCENT / 100) + 4 := by
    simp only [FILL_PERCENT]
    omega
  rw [hts, hdouble] at hexact hgrew
  generalize (m.table_size + 1) * FILL_PERCENT / 100 = x at *
  refine ⟨⟨k + 1, ?_, by omega, by omega, ?_⟩, ?_, ?_⟩
  · rw [hts, hpow, hdouble, hk]
  · rw [hts, hdouble]
    omega
  · rw [hts, hdouble]
    omega
  · omega

theorem filled_le_card (h : WellFormed hash m) :
    filled m.table (m.table_size + 1) ≤ m.denotes.keys.card :=
  Nat.le_trans (filled_le_nodes _ _) (Nat.le_of_eq (length_nodes h.hashed))

omit [DecidableEq K] in
theorem make_room_cases {s : adding_t K V} {oi : Nat} (hr : make_room hash s oi i = some r) :
    (s.m.table i ≠ [] ∧ r.1 = s.m) ∨
    (s.m.table i = [] ∧ decr s.m.unfilled ≠ 0 ∧
      r.1 = { s.m with unfilled := decr s.m.unfilled }) ∨
    (s.m.table i = [] ∧ decr s.m.unfilled = 0 ∧
      growMap hash { s.m with unfilled := decr s.m.unfilled } = some r.1) := by
  unfold make_room at hr
  by_cases hnil : s.m.table i = []
  · right
    rw [if_pos (List.isEmpty_iff.2 hnil)] at hr
    simp only at hr
    by_cases hfull : decr s.m.unfilled = 0
    · right
      rw [if_pos hfull] at hr
      obtain ⟨m', hgrow, hr⟩ := map_eq_some_iff.1 hr
      refine ⟨hnil, hfull, ?_⟩
      rw [hgrow, ← hr]
      split <;> rfl
    · left
      rw [if_neg hfull] at hr
      cases hr
      exact ⟨hnil, hfull, rfl⟩
  · left
    rw [if_neg fun h => hnil (List.isEmpty_iff.1 h)] at hr
    cases hr
    exact ⟨hnil, rfl⟩

theorem make_room_kept {s : adding_t K V} (hw : WellFormed hash s.m) (h : Roomy 0 s.m)
    (hmask : s.mask = s.m.table_size)
    (hr : make_room hash s (hash lv) (hash lv &&& s.mask) = some r) :
    Roomy (1 - has_nodes r.2.2.2) r.1 := by
  have hroom := make_room_room hw hmask hr
  have hpos := h.pos
  have hdecr : decr s.m.unfilled = s.m.unfilled - 1 := decr_pos hpos
  rcases make_room_cases hr with ⟨hne, heq⟩ | ⟨hnil, hfull, heq⟩ | ⟨hnil, hfull, hgrow⟩
  · have hchain : r.2.2.2 = s.m.table (hash lv &&& s.mask) := by
      rw [hroom.chain, hroom.bucket, heq, hmask]
    have hone : has_nodes r.2.2.2 = 1 := by
      unfold has_nodes
      rw [hchain, if_neg fun h => hne (List.isEmpty_iff.1 h)]
    rwa [hone, heq]
  · rw [hmask] at hnil
    have hzero : has_nodes r.2.2.2 = 0 := by
      rw [hroom.empty hnil]
      rfl
    obtain ⟨k, hk, h3, h15, hlower⟩ := h.size
    have hupper := h.upper
    rw [hzero, heq]
    refine ⟨⟨k, hk, h3, h15, ?_⟩, ?_, ?_⟩
    · simp only [hdecr]
      omega
    · simp only [hdecr]
      omega
    · simp only [hdecr]
      omega
  · rw [hmask] at hnil
    have hzero : has_nodes r.2.2.2 = 0 := by
      rw [hroom.empty hnil]
      rfl
    rw [hzero]
    exact growMap_roomy h (by omega) hgrow

theorem make_room_roomy {s : adding_t K V} (hw : WellFormed hash s.m) (h : Roomy 0 s.m)
    (hmask : s.mask = s.m.table_size) (hroom : s.m.denotes.keys.card + 1 ≤ ROOM) (lv : K) :
    ∃ r, make_room hash s (hash lv) (hash lv &&& s.mask) = some r ∧
      Roomy (1 - has_nodes r.2.2.2) r.1 := by
  obtain ⟨k, hk, h3, h15, hlower⟩ := h.size
  have hfilled := filled_le_card hw
  have hsome : ∃ r, make_room hash s (hash lv) (hash lv &&& s.mask) = some r := by
    unfold make_room
    split
    · simp only
      split
      · rename_i hfull
        have hpos := h.pos
        have hdecr : decr s.m.unfilled = s.m.unfilled - 1 := decr_pos hpos
        have hsmall : s.m.table_size + 1 ≤ 16384 := by
          by_contra hlarge
          have hk15 : k = 15 := by
            by_contra hne
            have : 2 ^ k ≤ 2 ^ 14 := Nat.pow_le_pow_right (by decide) (by omega)
            omega
          subst hk15
          simp only [ROOM] at hroom
          omega
        obtain ⟨m', hgrow⟩ := growMap_isSome hash
          (m := { s.m with unfilled := decr s.m.unfilled }) hsmall
        rw [hgrow, map_some]
        exact ⟨_, rfl⟩
      · exact ⟨_, rfl⟩
    · exact ⟨_, rfl⟩
  obtain ⟨r, hr⟩ := hsome
  exact ⟨r, hr, make_room_kept hw h hmask hr⟩

omit [DecidableEq K] in
theorem Roomy.update {e : Nat} (h : Roomy e m) (hi : i ≤ m.table_size) {e' : Nat}
    (htable : m'.table = update m.table i l) (hsize : m'.table_size = m.table_size)
    (hsum : m'.unfilled + has_nodes l + e' = m.unfilled + has_nodes (m.table i) + e)
    (hpos : 0 < m'.unfilled) : Roomy e' m' := by
  obtain ⟨k, hk, h3, h15, hlower⟩ := h.size
  have hupper := h.upper
  have hfilled := filled_update (t := m.table) (n := m.table_size + 1) (Nat.lt_succ_of_le hi) l
  rw [← htable] at hfilled
  refine ⟨⟨k, by rw [hsize, hk], h3, h15, ?_⟩, ?_, hpos⟩
  · rw [hsize]
    omega
  · rw [hsize]
    omega

theorem Room.put_roomy {x : mapping_node_t K V} (h : Room hash m x.1 r)
    (hroomy : Roomy (1 - has_nodes r.2.2.2) r.1) {n : mapping_t K V}
    (htable : n.table = update r.1.table r.2.2.1 (x :: r.2.2.2))
    (hsize : n.table_size = r.1.table_size) (hunfilled : n.unfilled = r.1.unfilled) :
    Roomy 0 n := by
  have hle : r.2.2.1 ≤ r.1.table_size := by
    rw [h.bucket]
    exact Nat.and_le_right
  refine hroomy.update hle htable hsize ?_ (hunfilled ▸ hroomy.pos)
  rw [hunfilled, ← h.chain]
  have hone : has_nodes (x :: r.2.2.2) = 1 := rfl
  have hle1 : has_nodes r.2.2.2 ≤ 1 := by
    unfold has_nodes
    split <;> omega
  rw [hone]
  omega

/-! ## Within the limit -/

theorem has_nodes_kreplace (a : K) (b : V) (l : List (mapping_node_t K V)) :
    has_nodes (l.kreplace a b) = has_nodes l := by
  cases l with
  | nil => rfl
  | cons x l =>
    rw [kreplace_cons]
    split <;> rfl

theorem assign_roomy (h : Roomy 0 m) (lv : K) (v : V) :
    Roomy 0 (assign m (hash lv &&& m.table_size) lv v) := by
  refine h.update Nat.and_le_right rfl rfl ?_ h.pos
  rw [has_nodes_kreplace]
  rfl

theorem find_for_insert_within (const0u : V) (lv : K) (hmax : MAX_MAPPING_SIZE ≤ ROOM)
    (hok : Ok hash m) (h : Roomy 0 m)
    (hwithin : lv ∉ m.denotes → m.denotes.keys.card + 1 ≤ MAX_MAPPING_SIZE) :
    ∃ r, find_for_insert hash MAX_MAPPING_SIZE const0u m lv = some r ∧ Roomy 0 r.1 := by
  rw [find_for_insert_eq]
  by_cases hlv : lv ∈ (m.table (hash lv &&& m.table_size)).keys
  · rw [if_pos hlv]
    exact ⟨_, rfl, h⟩
  · rw [if_neg hlv]
    rw [mem_denotes hok.wellFormed] at hlv
    have hcard := hwithin hlv
    obtain ⟨r, hr, hroomy⟩ := make_room_roomy (s := ⟨m, m.table_size, m.count⟩) hok.wellFormed h rfl
      (Nat.le_trans hcard hmax) lv
    have hroom := make_room_room (s := ⟨m, m.table_size, m.count⟩) hok.wellFormed rfl hr
    have hcount : ¬ r.1.count + 1 > MAX_MAPPING_SIZE := by
      rw [hroom.count, hok.count]
      omega
    rw [hr, bind_some, if_neg hcount]
    exact ⟨_, rfl, hroom.put_roomy (x := ⟨lv, const0u⟩) hroomy (by rw [hroom.chain]) rfl rfl⟩

theorem add_node_within {s : adding_t K V} {elt : mapping_node_t K V}
    (hmax : MAX_MAPPING_SIZE ≤ ROOM) (ha : Adding hash s) (h : Roomy 0 s.m)
    (hwithin : (put overwrite s.m.denotes elt).keys.card ≤ MAX_MAPPING_SIZE) :
    ∃ s', add_node hash MAX_MAPPING_SIZE overwrite s elt = some s' ∧ Roomy 0 s'.m := by
  simp only [add_node]
  by_cases hold : elt.1 ∈ (s.m.table (hash elt.1 &&& s.mask)).keys
  · rw [if_pos hold]
    rw [ha.mask] at hold ⊢
    by_cases hover : overwrite = true
    · rw [if_pos hover]
      exact ⟨_, rfl, assign_roomy h elt.1 elt.2⟩
    · rw [if_neg hover]
      exact ⟨s, rfl, h⟩
  · rw [if_neg hold]
    rw [ha.mask, mem_denotes ha.wellFormed] at hold
    rw [put, if_pos (.inr hold), card_insert_new hold] at hwithin
    obtain ⟨r, hr, hroomy⟩ := make_room_roomy ha.wellFormed h ha.mask
      (Nat.le_trans hwithin hmax) elt.1
    have hroom := make_room_room ha.wellFormed ha.mask hr
    have hcount : ¬ s.count + 1 > MAX_MAPPING_SIZE := by
      rw [ha.count]
      omega
    rw [hr, bind_some, if_neg hcount]
    exact ⟨_, rfl, hroom.put_roomy hroomy rfl rfl rfl⟩

theorem card_le_put (overwrite : Bool) (f : FiniteMap K V) (x : mapping_node_t K V) :
    f.keys.card ≤ (put overwrite f x).keys.card := by
  unfold put
  split
  · by_cases hx : x.1 ∈ f
    · exact Nat.le_of_eq (card_insert_old hx).symm
    · rw [card_insert_new hx]
      exact Nat.le_succ _
  · exact Nat.le_refl _

theorem card_le_foldl (overwrite : Bool) (l : List (mapping_node_t K V)) (f : FiniteMap K V) :
    f.keys.card ≤ (l.foldl (put overwrite) f).keys.card := by
  induction l generalizing f with
  | nil => exact Nat.le_refl _
  | cons x l ih => exact Nat.le_trans (card_le_put overwrite f x) (ih _)

theorem foldlM_within {s : adding_t K V} (hmax : MAX_MAPPING_SIZE ≤ ROOM) (ha : Adding hash s)
    (h : Roomy 0 s.m)
    (hwithin : (l.foldl (put overwrite) s.m.denotes).keys.card ≤ MAX_MAPPING_SIZE) :
    ∃ s', l.foldlM (add_node hash MAX_MAPPING_SIZE overwrite) s = some s' ∧ Roomy 0 s'.m := by
  induction l generalizing s with
  | nil => exact ⟨s, rfl, h⟩
  | cons elt l ih =>
    rw [foldl_cons] at hwithin
    obtain ⟨t, ht, hroomy⟩ := add_node_within hmax ha h
      (Nat.le_trans (card_le_foldl overwrite l _) hwithin)
    obtain ⟨ha', hdenotes⟩ := add_node_adding ha ht
    rw [← hdenotes] at hwithin
    obtain ⟨s', hs', hroomy'⟩ := ih ha' hroomy hwithin
    refine ⟨s', ?_, hroomy'⟩
    rwa [foldlM_cons, ht]

theorem add_nodes_within (hmax : MAX_MAPPING_SIZE ≤ ROOM) (hok : Ok hash m) (h : Roomy 0 m)
    (hwithin : (l.foldl (put overwrite) m.denotes).keys.card ≤ MAX_MAPPING_SIZE) :
    ∃ m', add_nodes hash MAX_MAPPING_SIZE overwrite m l = some m' ∧ Roomy 0 m' := by
  obtain ⟨s, hs, hroomy⟩ := foldlM_within (s := ⟨m, m.table_size, m.count⟩) hmax
    ⟨hok.wellFormed, rfl, hok.count⟩ h hwithin
  refine ⟨{ s.m with count := s.count }, ?_, hroomy.size, hroomy.upper, hroomy.pos⟩
  unfold add_nodes
  rw [hs]
  rfl

theorem fill_up_bounds (h : n < 32768) : n ≤ fill_up n ∧ fill_up n < 32768 := by
  have hshift : ∀ {a : Nat} (k : Nat), a < 32768 → a ||| a >>> k < 32768 := by
    intro a k ha
    refine Nat.or_lt_two_pow (n := 15) ha (Nat.lt_of_le_of_lt ?_ ha)
    rw [Nat.shiftRight_eq_div_pow]
    exact Nat.div_le_self _ _
  have h1 := hshift 1 h
  have h2 := hshift 2 h1
  have h4 := hshift 4 h2
  have hle : n ≤ (n ||| n >>> 1) ||| (n ||| n >>> 1) >>> 2 |||
      ((n ||| n >>> 1) ||| (n ||| n >>> 1) >>> 2) >>> 4 :=
    Nat.le_trans (Nat.le_trans Nat.left_le_or Nat.left_le_or) Nat.left_le_or
  simp only [fill_up]
  split
  · exact ⟨Nat.le_trans hle Nat.left_le_or, hshift 8 h4⟩
  · exact ⟨hle, h4⟩

omit [DecidableEq K] in
theorem filled_empty (n : Nat) : filled (fun _ => [] : Table fun _ : K => V) n = 0 := by
  induction n with
  | zero => rfl
  | succ n ih => rw [filled_succ, ih]; rfl

omit [DecidableEq K] in
theorem allocate_mapping_roomy_of_le (hle : min n MAX_MAPPING_SIZE ≤ ROOM) :
    Roomy 0 (allocate_mapping MAX_MAPPING_SIZE n : mapping_t K V) := by
  unfold allocate_mapping
  have hmin : (if n > MAX_MAPPING_SIZE then MAX_MAPPING_SIZE else n) = min n MAX_MAPPING_SIZE := by
    split <;> omega
  rw [hmin]
  generalize min n MAX_MAPPING_SIZE = n at *
  simp only [ROOM] at hle
  by_cases hn : n > MAP_HASH_TABLE_SIZE
  · simp only [if_pos hn]
    obtain ⟨hge, hlt⟩ := fill_up_bounds (n := n) (by omega)
    have hones := fill_up_ones n
    generalize fill_up n = f at *
    have hshort : short f = f := Nat.mod_eq_of_lt (by omega)
    rw [hshort] at hones ⊢
    obtain ⟨k, hk⟩ : ∃ k, f + 1 = 2 ^ k := by
      rcases hones with hk | hbig
      · exact hk
      · simp only [MAX_TABLE_SIZE] at hbig
        omega
    simp only [MAP_HASH_TABLE_SIZE] at hn
    have h3 : 3 ≤ k := by
      by_contra hlt3
      have : 2 ^ k ≤ 2 ^ 2 := Nat.pow_le_pow_right (by decide) (by omega)
      omega
    have h15 : k ≤ 15 := by
      by_contra hgt
      have : 2 ^ 16 ≤ 2 ^ k := Nat.pow_le_pow_right (by decide) (by omega)
      omega
    have hunfilled : short ((f + 1) * FILL_PERCENT % 4294967296 / 100) = (f + 1) * 80 / 100 := by
      unfold short
      simp only [FILL_PERCENT]
      rw [Nat.mod_eq_of_lt (by omega : (f + 1) * 80 < 4294967296), Nat.mod_eq_of_lt (by omega)]
    rw [hunfilled]
    refine ⟨⟨k, hk, h3, h15, ?_⟩, ?_, ?_⟩
    · simp only [filled_empty]
      omega
    · simp only [filled_empty]
      omega
    · simp only
      omega
  · simp only [if_neg hn]
    refine ⟨⟨3, rfl, by omega, by omega, ?_⟩, ?_, ?_⟩
    · rw [filled_empty]
      exact Nat.le_of_ble_eq_true rfl
    · rw [filled_empty]
      exact Nat.le_of_ble_eq_true rfl
    · exact Nat.le_of_ble_eq_true rfl

omit [DecidableEq K] in
theorem allocate_mapping_roomy (hmax : MAX_MAPPING_SIZE ≤ ROOM) (n : Nat) :
    Roomy 0 (allocate_mapping MAX_MAPPING_SIZE n : mapping_t K V) :=
  allocate_mapping_roomy_of_le (Nat.le_trans (Nat.min_le_right _ _) hmax)

omit [DecidableEq K] in
theorem copyMapping_roomy (hw : WellFormed hash m) (h : Roomy 0 m) : Roomy 0 (copyMapping m) := by
  have hfilled : filled (copyMapping m).table (m.table_size + 1) =
      filled m.table (m.table_size + 1) := filled_congr fun i _ => by
    unfold has_nodes
    rw [(copy_table hw i).isEmpty_eq]
  obtain ⟨k, hk, h3, h15, hlower⟩ := h.size
  exact ⟨⟨k, hk, h3, h15, hfilled.symm ▸ hlower⟩, hfilled.symm ▸ h.upper, h.pos⟩

theorem mapping_delete_roomy (h : Roomy 0 m) (lv : K) : Roomy 0 (mapping_delete hash m lv) := by
  simp only [mapping_delete]
  split
  · rename_i hlv
    have hone : has_nodes (m.table (hash lv &&& m.table_size)) = 1 := by
      unfold has_nodes
      rw [if_neg]
      rw [List.isEmpty_iff]
      intro hnil
      simp [hnil] at hlv
    have hupper := h.upper
    obtain ⟨k, hk, -, h15, -⟩ := h.size
    have hpow := pow_le h15
    have hincr : incr m.unfilled = m.unfilled + 1 := incr_lt (by omega)
    have hpos := h.pos
    refine h.update (l := (m.table (hash lv &&& m.table_size)).kerase lv) Nat.and_le_right rfl rfl
      ?_ ?_
    · rw [hone]
      simp only [has_nodes, hincr]
      split <;> omega
    · simp only [hincr]
      split <;> omega
  · exact h

theorem absorb_mapping_within (hmax : MAX_MAPPING_SIZE ≤ ROOM) (h1 : Ok hash m1) (h2 : Ok hash m2)
    (hr : Roomy 0 m1) (hwithin : (m2.denotes ∪ m1.denotes).keys.card ≤ MAX_MAPPING_SIZE) :
    ∃ m, absorb_mapping hash MAX_MAPPING_SIZE m1 m2 = some m ∧ Roomy 0 m := by
  unfold absorb_mapping
  split
  · rw [← foldl_put_overwrite h2.wellFormed] at hwithin
    exact add_nodes_within hmax h1 hr hwithin
  · exact ⟨m1, rfl, hr⟩

theorem add_mapping_within (hmax : MAX_MAPPING_SIZE ≤ ROOM) (h1 : Ok hash m1) (h2 : Ok hash m2)
    (hr1 : Roomy 0 m1) (hr2 : Roomy 0 m2)
    (hwithin : (m2.denotes ∪ m1.denotes).keys.card ≤ MAX_MAPPING_SIZE) :
    ∃ m, add_mapping hash MAX_MAPPING_SIZE m1 m2 = some m ∧ Roomy 0 m := by
  obtain ⟨hcopy1, hsame1⟩ := copyMapping_ok h1
  obtain ⟨hcopy2, hsame2⟩ := copyMapping_ok h2
  have hroomy1 := copyMapping_roomy h1.wellFormed hr1
  have hroomy2 := copyMapping_roomy h2.wellFormed hr2
  unfold add_mapping
  split
  · split
    · rw [← hsame1, ← foldl_put_overwrite h2.wellFormed] at hwithin
      exact add_nodes_within hmax hcopy1 hroomy1 hwithin
    · exact ⟨_, rfl, hroomy1⟩
  · split
    · rw [← hsame2, ← foldl_put_unique h1.wellFormed] at hwithin
      exact add_nodes_within hmax hcopy2 hroomy2 hwithin
    · exact ⟨_, rfl, hroomy2⟩

/-! ## Every run within the limit -/

def AllRoomy (s : Mappings (mapping_t K V) V) : Prop := ∀ m ∈ s.maps, Roomy 0 m

omit [DecidableEq K] in
theorem AllRoomy.new (h : AllRoomy s) (hm : Roomy 0 m) : AllRoomy (s.new m) := by
  intro x hx
  rcases mem_append.1 hx with hx | hx
  · exact h x hx
  · rwa [mem_singleton.1 hx]

omit [DecidableEq K] in
theorem AllRoomy.set (h : AllRoomy s) (hm : Roomy 0 m) : AllRoomy (s.set i m) := by
  intro x hx
  rcases mem_or_eq_of_mem_set hx with hx | rfl
  · exact h x hx
  · exact hm

theorem denotes_get_inv (h : s.denotes.maps[i]? = some f) :
    ∃ m, s.maps[i]? = some m ∧ f = m.denotes := by
  simp only [Mappings.denotes, getElem?_map, map_eq_some_iff] at h
  obtain ⟨m, hm, rfl⟩ := h
  exact ⟨m, hm, rfl⟩

theorem mem_new {M : Type} (s : Mappings M V) (m : M) : m ∈ (s.new m).maps :=
  List.mem_append_right _ (List.mem_singleton_self m)

theorem mem_set {M : Type} {s : Mappings M V} {m : M} (h : s.maps[i]? = some m) (m' : M) :
    m' ∈ (s.set i m').maps :=
  List.mem_set (List.getElem?_eq_some_iff.1 h).1 m'

theorem step_within {op : MappingOp K V} {a : Mappings (FiniteMap K V) V}
    (hmax : MAX_MAPPING_SIZE ≤ ROOM) (hok : AllOk hash s) (h : AllRoomy s)
    (ha : specStep const0u s.denotes op = some a)
    (hwithin : ∀ f ∈ a.maps, f.keys.card ≤ MAX_MAPPING_SIZE) :
    ∃ s', step hash MAX_MAPPING_SIZE const0u s op = some s' ∧ AllRoomy s' := by
  have hroomy : ∀ {i m}, s.maps[i]? = some m → Roomy 0 m := fun hm => h _ (mem_of_getElem? hm)
  cases op with
  | allocate_mapping n => exact ⟨_, rfl, h.new (allocate_mapping_roomy hmax n)⟩
  | load_mapping_from_aggregate sp =>
    cases ha
    obtain ⟨hnew, hempty⟩ := allocate_mapping_ok hash (V := V) MAX_MAPPING_SIZE sp.length
    have hcard : (sp.foldl (put true) (mapping.allocate_mapping MAX_MAPPING_SIZE sp.length :
        mapping_t K V).denotes).keys.card ≤ MAX_MAPPING_SIZE := by
      rw [hempty]
      exact hwithin _ (mem_new _ _)
    obtain ⟨m, hm, hr⟩ := add_nodes_within hmax hnew (allocate_mapping_roomy hmax sp.length) hcard
    refine ⟨s.new m, ?_, h.new hr⟩
    exact map_eq_some_iff.2 ⟨m, hm, rfl⟩
  | copyMapping i =>
    obtain ⟨f, hf, rfl⟩ := map_eq_some_iff.1 ha
    obtain ⟨m, hm, rfl⟩ := denotes_get_inv hf
    exact ⟨_, map_eq_some_iff.2 ⟨m, hm, rfl⟩,
      h.new (copyMapping_roomy (hok.get hm).wellFormed (hroomy hm))⟩
  | find_for_insert i lv v =>
    obtain ⟨f, hf, rfl⟩ := map_eq_some_iff.1 ha
    obtain ⟨m, hm, rfl⟩ := denotes_get_inv hf
    obtain ⟨r, hr, hroom⟩ := find_for_insert_within const0u lv hmax (hok.get hm)
      (hroomy hm) (fun hnew => by
        cases v with
        | some v =>
          have := hwithin _ (mem_set hf _)
          rwa [card_insert_new hnew] at this
        | none =>
          have := hwithin _ (mem_set hf _)
          rwa [if_neg hnew, card_insert_new hnew] at this)
    obtain ⟨-, hbucket, -⟩ := find_for_insert_ok (hok.get hm) hr
    cases v with
    | none =>
      refine ⟨s.set i r.1, ?_, h.set hroom⟩
      exact bind_eq_some_iff.2 ⟨m, hm, bind_eq_some_iff.2 ⟨r, hr, rfl⟩⟩
    | some v =>
      refine ⟨s.set i (assign r.1 r.2 lv v), ?_, h.set ?_⟩
      · exact bind_eq_some_iff.2 ⟨m, hm, bind_eq_some_iff.2 ⟨r, hr, rfl⟩⟩
      · rw [hbucket]
        exact assign_roomy hroom lv v
  | find_in_mapping i lv =>
    obtain ⟨f, hf, rfl⟩ := map_eq_some_iff.1 ha
    obtain ⟨m, hm, rfl⟩ := denotes_get_inv hf
    exact ⟨_, map_eq_some_iff.2 ⟨m, hm, rfl⟩, h⟩
  | mapping_delete i lv =>
    obtain ⟨f, hf, rfl⟩ := map_eq_some_iff.1 ha
    obtain ⟨m, hm, rfl⟩ := denotes_get_inv hf
    exact ⟨_, map_eq_some_iff.2 ⟨m, hm, rfl⟩, h.set (mapping_delete_roomy (hroomy hm) lv)⟩
  | absorb_mapping i j =>
    obtain ⟨f, hf, ha⟩ := bind_eq_some_iff.1 ha
    obtain ⟨g, hg, ha⟩ := bind_eq_some_iff.1 ha
    obtain ⟨m1, hm1, rfl⟩ := denotes_get_inv hf
    obtain ⟨m2, hm2, rfl⟩ := denotes_get_inv hg
    cases ha
    obtain ⟨m, hm, hr⟩ := absorb_mapping_within hmax (hok.get hm1) (hok.get hm2) (hroomy hm1)
      (hwithin _ (mem_set hf _))
    refine ⟨s.set i m, ?_, h.set hr⟩
    exact bind_eq_some_iff.2 ⟨m1, hm1, bind_eq_some_iff.2
      ⟨m2, hm2, map_eq_some_iff.2 ⟨m, hm, rfl⟩⟩⟩
  | add_mapping i j =>
    obtain ⟨f, hf, ha⟩ := bind_eq_some_iff.1 ha
    obtain ⟨g, hg, ha⟩ := bind_eq_some_iff.1 ha
    obtain ⟨m1, hm1, rfl⟩ := denotes_get_inv hf
    obtain ⟨m2, hm2, rfl⟩ := denotes_get_inv hg
    cases ha
    obtain ⟨m, hm, hr⟩ := add_mapping_within hmax (hok.get hm1) (hok.get hm2) (hroomy hm1)
      (hroomy hm2) (hwithin _ (mem_new _ _))
    refine ⟨s.new m, ?_, h.new hr⟩
    exact bind_eq_some_iff.2 ⟨m1, hm1, bind_eq_some_iff.2
      ⟨m2, hm2, map_eq_some_iff.2 ⟨m, hm, rfl⟩⟩⟩

theorem run_within {ops : List (MappingOp K V)} (hmax : MAX_MAPPING_SIZE ≤ ROOM)
    (hok : AllOk hash s) (h : AllRoomy s)
    (hops : StaysWithin MAX_MAPPING_SIZE const0u s.denotes ops) :
    ∃ s', run (step hash MAX_MAPPING_SIZE const0u) s ops = some s' := by
  induction ops generalizing s with
  | nil => exact ⟨s, rfl⟩
  | cons op ops ih =>
    obtain ⟨a, ha, hwithin, hops⟩ := hops
    obtain ⟨t, ht, hroomy⟩ := step_within hmax hok h ha hwithin
    obtain ⟨hok', hspec⟩ := step_ok hok ht
    rw [hspec, some.injEq] at ha
    obtain ⟨s', hs'⟩ := ih hok' hroomy (ha ▸ hops)
    refine ⟨s', ?_⟩
    rwa [run, ht]

/-! ## The law of the mappings -/

/-- Seven keys, so that the table of the first mapping doubles, and two sums. -/
def two_sums : List (MappingOp Nat Nat) :=
  [.allocate_mapping 0] ++ (range 7).map (fun k => .find_for_insert 0 (3 * k) (some k)) ++
    [.load_mapping_from_aggregate [⟨3, 70⟩, ⟨8, 80⟩, ⟨8, 81⟩], .add_mapping 0 1, .add_mapping 1 0,
      .find_in_mapping 2 3, .find_in_mapping 3 3, .find_in_mapping 2 8]

end mudos.mapping

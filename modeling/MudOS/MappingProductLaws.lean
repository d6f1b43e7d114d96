-- The law of the products of mappings: the operator that takes a copy gives the composition,
-- as long as the count of what it loses fits its `short`; the assigning one never comes back.
import MudOS.MappingProducts
import MudOS.MappingLaws

open mudos.hash_tables Function Option List

namespace mudos.mapping

variable {S : Type} [DecidableEq S] {hash : S → Nat}
variable {m2 m1 : mapping_t S S}

/-! ## One bucket -/

def found_in (m2 : mapping_t S S) (_ : S) (v : S) : Option S := m2.denotes.lookup v

structure ChainComposed (m2 : mapping_t S S) (j : Nat) (kept rest : List (mapping_node_t S S))
    (s s' : composing_t S) : Prop where
  table : s'.m1.table = update s.m1.table j (kept ++ revalue (found_in m2) rest)
  table_size : s'.m1.table_size = s.m1.table_size
  count : s'.m1.count = s.m1.count
  unfilled : s'.m1.unfilled =
    if rest ≠ [] ∧ kept ++ revalue (found_in m2) rest = [] then incr s.m1.unfilled
    else s.m1.unfilled
  deleted : s'.deleted % 65536 =
    (s.deleted + (rest.length - (revalue (found_in m2) rest).length)) % 65536
  short : s.deleted < 65536 → s'.deleted < 65536

theorem compose_chain_composed (hw : WellFormed hash m2) (j : Nat)
    (rest kept : List (mapping_node_t S S)) (s : composing_t S) (hs : s.m1.table j = kept ++ rest) :
    ChainComposed m2 j kept rest s (compose_chain hash (some m2) j kept rest s) := by
  induction rest generalizing kept s with
  | nil =>
    unfold compose_chain
    refine ⟨?_, rfl, rfl, by simp, by simp, id⟩
    rw [revalue_nil, ← hs, update_eq_self]
  | cons elt next ih =>
    unfold compose_chain
    simp only [getD_some]
    have hlookup := lookup_contents hw.hashed elt.2
    have hle := revalue_length_le (found_in m2) next
    cases hfound : (m2.table (hash elt.2 &&& m2.table_size)).dlookup elt.2 with
    | some v =>
      have hg : found_in m2 elt.1 elt.2 = some v := hlookup.trans hfound
      have h := ih (kept ++ [⟨elt.1, v⟩]) { s with
        m1 := { s.m1 with table := update s.m1.table j (kept ++ ⟨elt.1, v⟩ :: next) } }
        (by simp)
      simp only
      refine ⟨?_, h.table_size, h.count, ?_, ?_, h.short⟩
      · rw [h.table, revalue_cons_some _ hg]
        simp
      · rw [h.unfilled, revalue_cons_some _ hg]
        simp
      · rw [h.deleted, revalue_cons_some _ hg]
        simp
    | none =>
      have hg : found_in m2 elt.1 elt.2 = none := hlookup.trans hfound
      have h := ih kept {
        m1 := { s.m1 with
          table := update s.m1.table j (kept ++ next)
          unfilled := if (kept ++ next).isEmpty then incr s.m1.unfilled else s.m1.unfilled }
        deleted := mapping.short (s.deleted + 1) } (by simp)
      simp only
      refine ⟨?_, h.table_size, h.count, ?_, ?_, ?_⟩
      · rw [h.table, revalue_cons_none _ hg]
        simp
      · rw [h.unfilled, revalue_cons_none _ hg]
        cases next with
        | nil => simp
        | cons x next => simp
      · rw [h.deleted, revalue_cons_none _ hg]
        simp only [mapping.short, length_cons]
        omega
      · intro _
        exact h.short (Nat.mod_lt _ (by decide))

/-! ## All buckets -/

structure Composing (m1 m2 : mapping_t S S) (n : Nat) (s : composing_t S) : Prop where
  table : ∀ i, s.m1.table i =
    if i < n then revalue (found_in m2) (m1.table i) else m1.table i
  table_size : s.m1.table_size = m1.table_size
  count : s.m1.count = m1.count
  roomy : Roomy 0 s.m1
  deleted : s.deleted % 65536 = ((hash_tables.nodes m1.table n).length -
    (revalue (found_in m2) (hash_tables.nodes m1.table n)).length) % 65536
  short : s.deleted < 65536

theorem compose_buckets_composing (hroomy : Roomy 0 m1) (hw : WellFormed hash m2) {n : Nat}
    (hn : n ≤ m1.table_size + 1) : Composing m1 m2 n (compose_buckets hash (some m2) n m1) := by
  induction n with
  | zero =>
    refine ⟨fun i => ?_, rfl, rfl, hroomy, ?_, Nat.succ_pos _⟩
    · rfl
    · rfl
  | succ n ih =>
    have ih := ih (by omega)
    unfold compose_buckets at ih ⊢
    rw [range_succ, foldl_append]
    simp only [foldl_cons, foldl_nil]
    generalize (range n).foldl _ (⟨m1, 0⟩ : composing_t S) = s at ih
    have hrow : s.m1.table n = m1.table n := by
      rw [ih.table, if_neg (Nat.lt_irrefl n)]
    have h := compose_chain_composed hw n (s.m1.table n) [] s rfl
    generalize compose_chain hash (some m2) n [] (s.m1.table n) s = s' at h
    rw [hrow] at h
    have hle := revalue_length_le (found_in m2) (m1.table n)
    have hle' := revalue_length_le (found_in m2) (hash_tables.nodes m1.table n)
    refine ⟨fun i => ?_, h.table_size.trans ih.table_size, h.count.trans ih.count, ?_, ?_,
      h.short ih.short⟩
    · rw [h.table]
      by_cases hi : i = n
      · subst hi
        simp
      · rw [update_of_ne hi, ih.table]
        by_cases hlt : i < n
        · rw [if_pos hlt, if_pos (by omega)]
        · rw [if_neg hlt, if_neg (by omega)]
    · have hupper := ih.roomy.upper
      obtain ⟨k, hk, -, h15, -⟩ := ih.roomy.size
      have hpow := pow_le h15
      have hpos := ih.roomy.pos
      have hincr : incr s.m1.unfilled = s.m1.unfilled + 1 := incr_lt (by omega)
      refine ih.roomy.update (l := revalue (found_in m2) (m1.table n))
        (by rw [ih.table_size]; omega) h.table h.table_size ?_ ?_
      · rw [h.unfilled, hrow, hincr]
        unfold has_nodes
        cases hchain : m1.table n with
        | nil => simp
        | cons x l =>
          cases hnew : revalue (found_in m2) (x :: l) with
          | nil => simp
          | cons y l' => simp
      · rw [h.unfilled, hincr]
        split <;> omega
    · rw [h.deleted]
      have hd := ih.deleted
      unfold hash_tables.nodes at hle' hd ⊢
      rw [range_succ, flatMap_append, flatMap_singleton]
      unfold revalue at *
      rw [filterMap_append, length_append, length_append]
      omega

/-! ## The product -/

theorem composed_wellFormed {m : mapping_t S S} (h1 : WellFormed hash m1)
    (htable : ∀ i, m.table i = revalue (found_in m2) (m1.table i))
    (hsize : m.table_size = m1.table_size) :
    WellFormed hash m ∧ IsProduct m1.denotes m2.denotes m.denotes ∧
      m.denotes.keys.card =
        (revalue (found_in m2) (hash_tables.nodes m1.table (m1.table_size + 1))).length := by
  have heq : m.table = fun i => revalue (found_in m2) (m1.table i) := funext htable
  have hhashed : Hashed hash m.table_size m.table := by
    rw [heq, hsize]
    exact h1.hashed.revalue _
  refine ⟨⟨hhashed, hsize ▸ h1.size⟩, ?_, ?_⟩
  · intro k
    unfold mapping_t.denotes
    rw [heq, hsize]
    exact lookup_contents_revalue (found_in m2) h1.hashed k
  · unfold mapping_t.denotes
    rw [← length_nodes hhashed, heq, hsize, nodes_revalue]

theorem lost_eq {h : FiniteMap S S} (hproduct : IsProduct m1.denotes m2.denotes h) :
    m1.denotes.keys.card = h.keys.card + lost m1.denotes m2.denotes := by
  have hkeys : h.keys = m1.denotes.keys.filter
      fun k => ¬ ((m1.denotes.lookup k).bind m2.denotes.lookup).isNone = true := by
    ext k
    rw [Finset.mem_filter, Finmap.mem_keys, Finmap.mem_keys, ← Finmap.lookup_isSome,
      ← Finmap.lookup_isSome, hproduct k]
    cases m1.denotes.lookup k with
    | none => simp
    | some v =>
      simp only [bind_some, isSome_some, true_and]
      cases m2.denotes.lookup v <;> simp
  rw [hkeys]
  unfold lost
  rw [add_comm]
  exact (Finset.card_filter_add_card_filter_not _).symm

/-- What is right for a product of two mappings: the mapping goes to its place, is the
composition and has the invariant of the tables, and the others are as they were. -/
def RightProduct (hash : S → Nat) (op : product_op) (maps : List (mapping_t S S)) (i j : Nat)
    (m1 m2 : mapping_t S S) : Prop :=
  ∃ m, op.run hash maps i j = some (.done (op.place maps i m)) ∧
    IsProduct m1.denotes m2.denotes m.denotes ∧ Ok hash m ∧ Roomy 0 m

theorem f_multiply_eq {maps : List (mapping_t S S)} {i j : Nat} (h1 : maps[i]? = some m1)
    (h2 : maps[j]? = some m2) :
    f_multiply hash maps i j =
      some (.done (maps ++ [(compose_mapping hash m1 (some m2) true).1])) := by
  unfold f_multiply
  rw [h1, h2]
  rfl

theorem f_mult_eq_crashes {maps : List (mapping_t S S)} {i j : Nat} (h1 : maps[i]? = some m1)
    (h2 : maps[j]? = some m2) : f_mult_eq hash maps i j = some .crashed := by
  unfold f_mult_eq
  rw [h1, h2]
  rfl

/-- The copy after the loops: all but its count is as it should be, and its count is short
by as much as went round the `short`. -/
theorem compose_mapping_composed (hok : Ok hash m1) (hroomy : Roomy 0 m1)
    (hw : WellFormed hash m2) :
    let m := (compose_mapping hash m1 (some m2) true).1
    WellFormed hash m ∧ IsProduct m1.denotes m2.denotes m.denotes ∧ Roomy 0 m ∧
      m.denotes.keys.card + lost m1.denotes m2.denotes = m1.denotes.keys.card ∧
      m.count = m1.denotes.keys.card - lost m1.denotes m2.denotes % 65536 := by
  obtain ⟨hcopy, hdenotes⟩ := copyMapping_ok hok
  have hcopyroomy := copyMapping_roomy hok.wellFormed hroomy
  have h := compose_buckets_composing hcopyroomy hw (Nat.le_refl _)
  unfold compose_mapping
  simp only [if_true]
  generalize compose_buckets hash (some m2) _ (copyMapping m1) = s at h
  have htable : ∀ i, s.m1.table i = revalue (found_in m2) ((copyMapping m1).table i) := by
    intro i
    rw [h.table]
    split_ifs with hi
    · rfl
    · have hnil : (copyMapping m1).table i = [] := by
        apply eq_nil_iff_forall_not_mem.2
        intro x hx
        have hhome := hcopy.wellFormed.hashed.home i x hx
        have : i ≤ (copyMapping m1).table_size := hhome ▸ Nat.and_le_right
        omega
      rw [hnil]
      rfl
  obtain ⟨hwell, hproduct, hcard⟩ := composed_wellFormed hcopy.wellFormed htable h.table_size
  have hlost := lost_eq hproduct
  rw [hdenotes] at hproduct hlost
  have hlength := length_nodes hcopy.wellFormed.hashed
  have hkeys : (hash_tables.nodes (copyMapping m1).table ((copyMapping m1).table_size + 1)).length =
      m1.denotes.keys.card := hlength.trans (by rw [← hdenotes]; rfl)
  have hdeleted := h.deleted
  rw [hkeys, ← hcard, Nat.mod_eq_of_lt h.short] at hdeleted
  have hcount := hok.count
  refine ⟨⟨hwell.hashed, hwell.size⟩, hproduct, ⟨h.roomy.size, h.roomy.upper, h.roomy.pos⟩,
    hlost.symm, ?_⟩
  rw [h.count, hdeleted, hlost, Nat.add_sub_cancel_left]
  have : (copyMapping m1).count = m1.count := rfl
  omega

/-- A product is right exactly when it is not the assigning one and fewer than 65536 keys of
the first mapping are lost. -/
theorem the_product_is_right_iff (hash : S → Nat) (op : product_op) (maps : List (mapping_t S S))
    (i j : Nat) (m1 m2 : mapping_t S S) (h1 : maps[i]? = some m1) (h2 : maps[j]? = some m2)
    (hok1 : Ok hash m1) (hroomy1 : Roomy 0 m1) (hok2 : Ok hash m2) :
    RightProduct hash op maps i j m1 m2 ↔
      op = .multiply ∧ lost m1.denotes m2.denotes < 65536 := by
  cases op with
  | mult_eq =>
    simp only [reduceCtorEq, false_and, iff_false]
    rintro ⟨m, hm, _⟩
    simp [product_op.run, f_mult_eq_crashes h1 h2] at hm
  | multiply =>
    obtain ⟨hwell, hproduct, hroomy, hcard, hcount⟩ :=
      compose_mapping_composed hok1 hroomy1 hok2.wellFormed
    have hrun : product_op.multiply.run hash maps i j = some (.done
        (maps ++ [(compose_mapping hash m1 (some m2) true).1])) := f_multiply_eq h1 h2
    simp only [true_and]
    constructor
    · rintro ⟨m, hm, _, hok, _⟩
      rw [hrun] at hm
      simp only [product_op.place, some.injEq, product_t.done.injEq,
        append_cancel_left_eq, cons.injEq, and_true] at hm
      have hcount' := hok.count
      rw [← hm] at hcount'
      have := Nat.mod_lt (lost m1.denotes m2.denotes) (show 0 < 65536 by decide)
      omega
    · intro hlost
      refine ⟨_, hrun, hproduct, ⟨hwell, ?_⟩, hroomy⟩
      rw [hcount, Nat.mod_eq_of_lt hlost]
      omega

/-- `([ 1 : 1 ])` -/
def one_to_one : mapping_t Nat Nat where
  table i := if i = 1 then [⟨1, 1⟩] else []
  table_size := 7
  unfilled := 5
  count := 1

theorem one_to_one_ok : Ok id one_to_one ∧ Roomy 0 one_to_one := by
  have hhashed : Hashed id one_to_one.table_size one_to_one.table := by
    refine ⟨fun i x hx => ?_, fun i => ?_⟩
    · simp only [one_to_one] at hx
      split_ifs at hx with hi
      · rw [mem_singleton.1 hx, hi]
        decide
      · cases hx
    · simp only [one_to_one]
      split_ifs
      · exact nodupKeys_singleton _
      · exact nodupKeys_nil
  have hcard : one_to_one.count = one_to_one.denotes.keys.card := (length_nodes hhashed).symm ▸ rfl
  have hfilled : filled one_to_one.table (one_to_one.table_size + 1) = 1 := by decide
  refine ⟨⟨⟨hhashed, .inl ⟨3, rfl⟩⟩, hcard⟩, ⟨3, rfl, by decide, by decide, ?_⟩, ?_, by decide⟩
  · rw [hfilled]
    decide
  · rw [hfilled]
    decide

theorem a_mapping_times_itself :
    RightProduct id .multiply [one_to_one] 0 0 one_to_one one_to_one ↔
      product_op.multiply = .multiply ∧ lost one_to_one.denotes one_to_one.denotes < 65536 :=
  the_product_is_right_iff id .multiply [one_to_one] 0 0 one_to_one one_to_one rfl rfl
    one_to_one_ok.1 one_to_one_ok.2 one_to_one_ok.1

/-- `m *= m` -/
theorem the_assigning_product_crashes :
    f_mult_eq id [one_to_one] 0 0 = some .crashed ∧
    ¬ RightProduct id .mult_eq [one_to_one] 0 0 one_to_one one_to_one := by
  have hcrashed : f_mult_eq id [one_to_one] 0 0 = some .crashed := f_mult_eq_crashes rfl rfl
  refine ⟨hcrashed, ?_⟩
  rintro ⟨m, hm, _⟩
  cases hcrashed.symm.trans hm

end mudos.mapping

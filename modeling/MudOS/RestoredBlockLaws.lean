-- The blocks of the values that are restored. What is restored owns the blocks
-- that were allocated for it, and what is given up halfway has freed them, each
-- once, at any depth.
import MudOS.BuildingPassLaws

open mudos.mapping List

namespace mudos.saved_values

variable {α β : Type}
variable {c : config} {d d₀ : driver} {base : List Nat} {v : svalue_t} {cp cp' : List UInt8}
  {nested : Restore}

variable {m : Building} {ch : UInt8}

/-! ## Blocks of lists -/

theorem item_blocks_append (l l' : List svalue_t) :
    item_blocks (l ++ l') = item_blocks l ++ item_blocks l' := by
  induction l with
  | nil => rfl
  | cons v l ih => simp [item_blocks, ih]

theorem node_blocks_eq (l : List (svalue_t × svalue_t)) :
    node_blocks l = l.flatMap fun x => x.1.blocks ++ x.2.blocks := by
  induction l with
  | nil => rfl
  | cons x l ih => simp [node_blocks, ih]

theorem node_blocks_perm {l l' : List (svalue_t × svalue_t)} (h : l.Perm l') :
    (node_blocks l).Perm (node_blocks l') := by
  rw [node_blocks_eq, node_blocks_eq]
  exact h.flatMap_right _

theorem node_insert_new {m' : Building} (h : Fits c m) (h' : Fits c m') {key : Key}
    {v : svalue_t × svalue_t} (hnew : key ∉ m.m.denotes)
    (hdenotes : m'.m.denotes = m.m.denotes.insert key v) : m'.node.Perm (v :: m.node) := by
  have hkeys : key ∉ (traverse m.m).keys := by
    rwa [← dlookup_eq_none, dlookup_traverse h.wellFormed, Finmap.lookup_eq_none]
  have hperm : (traverse m'.m).Perm (⟨key, v⟩ :: traverse m.m) := by
    apply lookup_ext (nodupKeys_traverse h'.wellFormed)
      (nodupKeys_cons.mpr ⟨hkeys, nodupKeys_traverse h.wellFormed⟩)
    intro a b
    rw [dlookup_traverse h'.wellFormed, hdenotes]
    by_cases ha : a = key
    · subst ha
      rw [Finmap.lookup_insert, dlookup_cons_eq]
    · rw [Finmap.lookup_insert_of_ne _ ha, dlookup_cons_ne _ _ ha,
        dlookup_traverse h.wellFormed]
  exact hperm.map Sigma.snd

theorem node_insert_old {m' : Building} (h : Fits c m) (h' : Fits c m') {key : Key}
    {v elt : svalue_t × svalue_t} (hold : m.m.denotes.lookup key = some elt)
    (hdenotes : m'.m.denotes = m.m.denotes.insert key v) :
    ∃ rest, m.node.Perm (elt :: rest) ∧ m'.node.Perm (v :: rest) := by
  have hnodup := nodupKeys_traverse h.wellFormed
  have hrest : ∀ w, (⟨key, w⟩ :: (traverse m.m).kerase key).NodupKeys := fun w =>
    nodupKeys_cons.mpr ⟨notMem_keys_kerase key hnodup, hnodup.kerase key⟩
  refine ⟨((traverse m.m).kerase key).map Sigma.snd, ?_, ?_⟩
  · have hperm : (traverse m.m).Perm (⟨key, elt⟩ :: (traverse m.m).kerase key) := by
      apply lookup_ext hnodup (hrest elt)
      intro a b
      by_cases ha : a = key
      · subst ha
        rw [dlookup_traverse h.wellFormed, hold, dlookup_cons_eq]
      · rw [dlookup_cons_ne _ _ ha, dlookup_kerase_ne ha]
    exact hperm.map Sigma.snd
  · have hperm : (traverse m'.m).Perm (⟨key, v⟩ :: (traverse m.m).kerase key) := by
      apply lookup_ext (nodupKeys_traverse h'.wellFormed) (hrest v)
      intro a b
      rw [dlookup_traverse h'.wellFormed, hdenotes]
      by_cases ha : a = key
      · subst ha
        rw [Finmap.lookup_insert, dlookup_cons_eq]
      · rw [Finmap.lookup_insert_of_ne _ ha, dlookup_cons_ne _ _ ha,
          dlookup_kerase_ne ha, dlookup_traverse h.wellFormed]
    exact hperm.map Sigma.snd

/-! ## The ledger -/

structure SameTable (d d' : driver) : Prop where
  sizes : d'.sizes = d.sizes
  max_depth : d'.max_depth = d.max_depth

theorem SameTable.refl (d : driver) : SameTable d d := ⟨rfl, rfl⟩

theorem SameTable.trans {d' d'' : driver} (h : SameTable d d') (h' : SameTable d' d'') :
    SameTable d d'' := ⟨h'.sizes.trans h.sizes, h'.max_depth.trans h.max_depth⟩

/-- A value owns its blocks beside those that were there, a code has freed what was allocated,
and no block is freed twice. An error() may leave blocks behind. -/
def outcome.Owns (d₀ : driver) (base : List Nat) (blocks : α → List Nat) (Q : α → Prop) :
    outcome α → Prop
  | .value a d => d.live.Perm (blocks a ++ base) ∧ SameTable d₀ d ∧ Q a
  | .rob code d => code &&& ROB_ERROR ≠ 0 ∧ d.live.Perm base ∧ SameTable d₀ d
  | .error d => (∃ lost, d.live.Perm (lost ++ base)) ∧ SameTable d₀ d
  | .fault f => f ≠ .twice_freed

theorem outcome.Owns.handle {base' own : List Nat} {blocks : α → List Nat} {blocks' : β → List Nat}
    {Q : α → Prop} {Q' : β → Prop} {o : outcome α} {failed : Nat → driver → outcome β}
    {next : α → driver → outcome β} (h : o.Owns d₀ base blocks Q) (hbase : base.Perm (own ++ base'))
    (hfailed : ∀ code d, code &&& ROB_ERROR ≠ 0 → d.live.Perm base → SameTable d₀ d →
      (failed code d).Owns d₀ base' blocks' Q')
    (hnext : ∀ a d, d.live.Perm (blocks a ++ base) → SameTable d₀ d → Q a →
      (next a d).Owns d₀ base' blocks' Q') : (o.handle failed next).Owns d₀ base' blocks' Q' := by
  rcases o with ⟨a, d⟩ | ⟨code, d⟩ | d | f
  · exact hnext a d h.1 h.2.1 h.2.2
  · exact hfailed code d h.1 h.2.1 h.2.2
  · obtain ⟨⟨lost, hlost⟩, hd⟩ := h
    refine ⟨⟨lost ++ own, hlost.trans ?_⟩, hd⟩
    rw [append_assoc]
    exact hbase.append_left lost
  · exact h

theorem outcome.Owns.bind {blocks : α → List Nat} {blocks' : β → List Nat} {Q : α → Prop}
    {Q' : β → Prop} {o : outcome α} {next : α → driver → outcome β} (h : o.Owns d₀ base blocks Q)
    (hnext : ∀ a d, d.live.Perm (blocks a ++ base) → SameTable d₀ d → Q a →
      (next a d).Owns d₀ base blocks' Q') : (o.bind next).Owns d₀ base blocks' Q' := by
  have hbase : base.Perm ([] ++ base) := .refl base
  exact h.handle hbase (fun code d hcode hlive hd => ⟨hcode, hlive, hd⟩) hnext

theorem outcome.Owns.mono {d₁ : driver} {blocks : α → List Nat} {Q Q' : α → Prop} {o : outcome α}
    (h : o.Owns d₁ base blocks Q) (hd : SameTable d₀ d₁) (hQ : ∀ a, Q a → Q' a) :
    o.Owns d₀ base blocks Q' := by
  rcases o with ⟨a, d⟩ | ⟨code, d⟩ | d | f
  · exact ⟨h.1, hd.trans h.2.1, hQ a h.2.2⟩
  · exact ⟨h.1, h.2.1, hd.trans h.2.2⟩
  · exact ⟨h.1, hd.trans h.2⟩
  · exact h

theorem free_blocks_spec {l : List Nat} (h : d.live.Perm (l ++ base)) :
    ∃ d', free_blocks l d = .value () d' ∧ d'.live.Perm base ∧ SameTable d d' ∧
      d'.save_svalue_depth = d.save_svalue_depth := by
  induction l generalizing d with
  | nil => exact ⟨d, rfl, h, .refl d, rfl⟩
  | cons block l ih =>
    have hmem : block ∈ d.live := h.mem_iff.mpr (by simp)
    obtain ⟨d', hd', hlive, hsame, hdepth⟩ := ih (d := { d with live := d.live.erase block }) (by
      have := h.erase block
      simpa using this)
    exact ⟨d', by simp [free_blocks, hmem, hd'], hlive, ⟨hsame.sizes, hsame.max_depth⟩, hdepth⟩

theorem owns_give_up {l : List Nat} {blocks : α → List Nat} {Q : α → Prop} {code : Nat}
    (hcode : code &&& ROB_ERROR ≠ 0) (h : d.live.Perm (l ++ base)) (hd : SameTable d₀ d) :
    (give_up l code d : outcome α).Owns d₀ base blocks Q := by
  obtain ⟨d', hfree, hlive, hsame, -⟩ := free_blocks_spec h
  simp only [give_up, hfree, outcome.bind, outcome.handle]
  exact ⟨hcode, hlive, hd.trans hsame⟩

/-! ## The functions -/

def OwnsNested (nested : Restore) : Prop :=
  ∀ k cp (d : driver), d.save_svalue_depth ≠ 0 → (nested k cp d).Owns d d.live
    (fun a => (a.1.getD const0).blocks) fun _ => True

theorem blocks_exponent {real : Int → literal} (h : exponent real cp = .number v ch cp') :
    v.blocks = [] := by
  unfold exponent at h
  repeat' split at h
  all_goals first
    | cases h
      rfl
    | cases h

theorem blocks_parse_digits {neg : Bool} {c : UInt8} (h : parse_digits neg c cp = .number v ch cp') :
    v.blocks = [] := by
  unfold parse_digits at h
  repeat' split at h
  all_goals first
    | exact blocks_exponent h
    | cases h
      rfl
    | cases h

theorem blocks_number {c : UInt8} (h : parse_numeric c cp = .number v ch cp') : v.blocks = [] := by
  unfold parse_numeric at h
  repeat' split at h
  all_goals first
    | exact blocks_parse_digits h
    | cases h

theorem blocks_lexeme (h : next_lexeme cp = .number v cp') : v.blocks = [] := by
  unfold next_lexeme at h
  repeat' split at h
  all_goals first
    | cases h
      exact blocks_number ‹_›
    | cases h

theorem owns_restore_part (h : OwnsNested nested) (separator : UInt8)
    {string_error generic_error : Nat} (hs : string_error &&& ROB_ERROR ≠ 0)
    (hg : generic_error &&& ROB_ERROR ≠ 0) (cp : List UInt8) (d : driver) :
    (restore_part nested separator string_error generic_error cp d).Owns d d.live
      (fun a => a.1.blocks) fun _ => True := by
  unfold restore_part
  rcases hl : next_lexeme cp with ⟨s, cp'⟩ | ⟨v, cp'⟩ | ⟨k, cp'⟩ | ⟨ch, cp'⟩ | _ | _ | _ | _
  · exact ⟨.refl _, ⟨rfl, rfl⟩, trivial⟩
  · refine ⟨?_, .refl d, trivial⟩
    simp only [blocks_lexeme hl, nil_append]
    exact .refl _
  · have hnest := h k cp' { d with save_svalue_depth := d.save_svalue_depth + 1 }
      (Nat.succ_ne_zero _)
    have hsame : SameTable d { d with save_svalue_depth := d.save_svalue_depth + 1 } := ⟨rfl, rfl⟩
    apply (hnest.mono hsame fun _ => id).bind
    rintro ⟨v, cp₁⟩ d₁ hlive hd -
    exact ⟨hlive, hd, trivial⟩
  · simp only
    split
    · exact ⟨.refl _, .refl d, trivial⟩
    · exact ⟨hg, .refl _, .refl d⟩
  · exact ⟨hs, .refl _, .refl d⟩
  · exact ⟨by decide, .refl _, .refl d⟩
  · exact ⟨hg, .refl _, ⟨rfl, rfl⟩⟩
  · simp [outcome.Owns]

theorem owns_restore_items (h : OwnsNested nested) (n : Nat) {code : Nat}
    (hcode : code &&& ROB_ERROR ≠ 0) (block : List Nat) (size : Nat) :
    ∀ (item : List svalue_t) (cp : List UInt8) (d : driver),
      d.live.Perm (block ++ item_blocks item ++ base) → SameTable d₀ d →
      (restore_items nested n code block size item cp d).Owns d₀ base
        (fun a => block ++ item_blocks a.1) fun a => a.1.length = item.length + size := by
  induction size with
  | zero => exact fun item cp d hlive hd => ⟨hlive, hd, rfl⟩
  | succ size ih =>
    intro item cp d hlive hd
    unfold restore_items
    apply ((owns_restore_part h 44 hcode hcode cp d).mono hd fun _ => id).handle hlive
    · exact fun code d₁ hcode hlive₁ hd₁ => owns_give_up hcode (hlive₁.trans hlive) hd₁
    · rintro ⟨v, cp₁⟩ d₁ hlive₁ hd₁ -
      simp only
      split_ifs with hlt
      · apply (ih (item ++ [v]) cp₁ d₁ ?_ hd₁).mono (.refl d₀)
        · intro a ha
          simp only [length_append, length_cons, length_nil] at ha
          omega
        · have hall := hlive₁.trans (hlive.append_left v.blocks)
          rw [item_blocks_append]
          refine hall.trans ?_
          rw [perm_iff_count]
          intro b
          simp only [item_blocks, count_append, append_nil]
          omega
      · simp [outcome.Owns]

theorem owns_insert_node (hm : Fits c m) (block : Nat) (key value : svalue_t)
    (h : d.live.Perm (block :: node_blocks m.node ++ key.blocks ++ value.blocks ++ base))
    (hd : SameTable d₀ d) :
    (insert_node c block m key value d).Owns d₀ base
      (fun m' => block :: node_blocks m'.node) fun m' => Fits c m' := by
  rcases insert_node_cases hm block key value d with
    ⟨elt, helt, hi⟩ | ⟨hnew, ⟨m', hi, hm', hdenotes⟩ | hi⟩
  · obtain ⟨hm', hdenotes⟩ := fits_assign hm helt (elt.1, value)
    obtain ⟨rest, hrest, hrest'⟩ := node_insert_old hm hm' helt hdenotes
    have hlive : d.live.Perm ((key.blocks ++ elt.2.blocks) ++
        (block :: node_blocks ((elt.1, value) :: rest) ++ base)) := by
      refine h.trans ?_
      have hnodes := node_blocks_perm hrest
      rw [perm_iff_count] at hnodes ⊢
      intro b
      have hb := hnodes b
      simp only [node_blocks, count_append, cons_append, count_cons] at hb ⊢
      omega
    obtain ⟨d', hfree, hlive', hsame, -⟩ := free_blocks_spec hlive
    simp only [hi, hfree, outcome.bind, outcome.handle]
    refine ⟨hlive'.trans ?_, hd.trans hsame, hm'⟩
    exact ((node_blocks_perm hrest').symm.cons block).append_right base
  · rw [hi]
    refine ⟨h.trans ?_, hd, hm'⟩
    have hnodes := node_blocks_perm (node_insert_new hm hm' hnew hdenotes)
    rw [perm_iff_count] at hnodes ⊢
    intro b
    have hb := hnodes b
    simp only [node_blocks, count_append, cons_append, count_cons] at hb ⊢
    omega
  · obtain ⟨d', hfree, hlive, hsame, -⟩ := free_blocks_spec h
    simp only [hi, hfree, outcome.bind, outcome.handle]
    exact ⟨⟨[], hlive⟩, hd.trans hsame⟩

theorem owns_restore_nodes (h : OwnsNested nested) (block : Nat) (k : Nat) :
    ∀ (m : Building) (cp : List UInt8) (d : driver), Fits c m →
      d.live.Perm (block :: node_blocks m.node ++ base) → SameTable d₀ d →
      (restore_nodes c nested block k m cp d).Owns d₀ base
        (fun a => (a.1.getD const0).blocks) fun a => a.1.isSome := by
  induction k with
  | zero => exact fun _ _ _ _ _ _ => by simp [restore_nodes, outcome.Owns]
  | succ k ih =>
    intro m cp d hm hlive hd
    unfold restore_nodes
    split_ifs
    · exact ⟨hlive, hd, rfl⟩
    apply ((owns_restore_part h 58 (by decide) (by decide) cp d).mono hd fun _ => id).handle hlive
    · exact fun code d₁ hcode hlive₁ hd₁ => owns_give_up hcode (hlive₁.trans hlive) hd₁
    rintro ⟨key, cp₁⟩ d₁ hlive₁ hd₁ -
    have hlive₁' : d₁.live.Perm (block :: node_blocks m.node ++ key.blocks ++ base) := by
      refine hlive₁.trans ((hlive.append_left key.blocks).trans ?_)
      rw [perm_iff_count]
      intro b
      simp only [count_append, cons_append, count_cons]
      omega
    unfold restore_node
    apply ((owns_restore_part h 44 (by decide) (by decide) cp₁ d₁).mono hd₁ fun _ => id).handle
      hlive₁'
    · exact fun code d₂ hcode hlive₂ hd₂ => owns_give_up hcode (hlive₂.trans hlive₁') hd₂
    rintro ⟨value, cp₂⟩ d₂ hlive₂ hd₂ -
    have hlive₂' : d₂.live.Perm
        (block :: node_blocks m.node ++ key.blocks ++ value.blocks ++ base) := by
      refine hlive₂.trans ((hlive₁'.append_left value.blocks).trans ?_)
      rw [perm_iff_count]
      intro b
      simp only [count_append, cons_append, count_cons]
      omega
    apply (owns_insert_node hm block key value hlive₂' hd₂).bind
    exact fun m' d₃ hlive₃ hd₃ hm' => ih m' cp₂ d₃ hm' hlive₃ hd₃

theorem owns_build (h : OwnsNested nested) (k : kind) (size : Int) (cp : List UInt8) (d : driver) :
    (build c nested k size cp d).Owns d d.live (fun a => (a.1.getD const0).blocks)
      fun a => a.1.isSome := by
  have hnew : d.new_block.live.Perm ([d.next_block] ++ item_blocks [] ++ d.live) := .refl _
  have hsame : SameTable d d.new_block := ⟨rfl, rfl⟩
  rcases k with _ | _ | _
  · simp only [build, build_array]
    split_ifs with hlimit hzero
    · exact ⟨⟨[], .refl _⟩, .refl d⟩
    · exact ⟨.refl _, .refl d, rfl⟩
    · apply (owns_restore_items h size.toNat (by decide) [d.next_block] size.toNat [] cp _ hnew
        hsame).bind
      rintro ⟨item, cp'⟩ d' hlive hd hlen
      have hne : item.isEmpty = false := by
        rcases item with _ | ⟨v, item⟩
        · simp only [length_nil] at hlen
          omega
        · rfl
      refine ⟨?_, hd, rfl⟩
      simpa only [Option.getD_some, svalue_t.blocks, hne, Bool.false_eq_true, if_false] using hlive
  · simp only [build, build_class]
    split_ifs with hneg
    · simp [outcome.Owns]
    · apply (owns_restore_items h size.toNat (by decide) [d.next_block] size.toNat [] cp _ hnew
        hsame).bind
      exact fun a d' hlive hd _ => ⟨hlive, hd, rfl⟩
  · simp only [build, build_mapping]
    split_ifs with hzero
    · exact ⟨.refl _, hsame, rfl⟩
    · apply owns_restore_nodes h d.next_block _ _ _ _ (fits_allocate_mapping c _ 0) _ hsame
      have hnode : Building.node ⟨allocate_mapping c.MAX_MAPPING_SIZE (size / 2).toNat,
          (allocate_mapping c.MAX_MAPPING_SIZE (size / 2).toNat :
            mapping_t Key (svalue_t × svalue_t)).table_size, 0⟩ = [] := by
        simp [Building.node, mapping.traverse, (allocate_mapping_empty _ _).1]
      rw [hnode]
      exact .refl _

theorem next_size_cases (d : driver) :
    (∃ size, next_size d = .value size d) ∨ next_size d = .fault .outside := by
  unfold next_size
  rcases d.sizes with _ | sizes
  · exact .inr rfl
  · simp only
    rcases sizes[d.save_svalue_depth - 1]? with _ | size
    · exact .inr rfl
    · exact .inl ⟨size, rfl⟩

theorem restore_container_inside (c : config) (n : Nat) (k : kind) (cp : List UInt8)
    (hd : d.save_svalue_depth ≠ 0) : restore_container c (n + 1) k cp d =
      (next_size d).bind fun size d => build c (restore_container c n) k size cp d := by
  rcases k with _ | _ | _
  · simp [restore_container, restore_array, hd, build]
  · simp [restore_container, restore_class, hd, build]
  · simp [restore_container, restore_mapping, hd, build]

theorem owns_restore_container (c : config) (n : Nat) : OwnsNested (restore_container c n) := by
  induction n with
  | zero => exact fun _ _ _ _ => by simp [restore_container, outcome.Owns]
  | succ n ih =>
    intro k cp d hd
    rw [restore_container_inside c n k cp hd]
    rcases next_size_cases d with ⟨size, hs⟩ | hs
    · rw [hs]
      exact (owns_build ih k size cp d).mono (.refl d) fun _ _ => trivial
    · simp [hs, outcome.bind, outcome.handle, outcome.Owns]

end mudos.saved_values

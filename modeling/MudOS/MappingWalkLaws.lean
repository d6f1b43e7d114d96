-- The laws of the walks with callbacks. `map_mapping` reads what is there whatever its callback
-- does; `filter_mapping` does when no call deletes its node or lets the table grow under the walk.
import MudOS.MappingWalks

open mudos.hash_tables mudos.runs Function List Option

namespace mudos.mapping

variable {K V : Type} [DecidableEq K] {hash : K → Nat}
variable {m : mapping_t K (cell_t V)} {elt : elt_t K} {x : mapping_node_t K (cell_t V)}
  {done rest l : List (mapping_node_t K (cell_t V))} {more j MAX_MAPPING_SIZE : Nat}
  {w world world' : world_t K V} {s : adding_t K V} {const0u : V} {accepts : V → Bool}
  {rets : List V}

variable {c : called_t K V} {a : Nat} {newmap s' : adding_t K V} {r : mapping_t K V}

/-! ## Nodes -/

theorem value_eq (h : WellFormed hash m) (elt : elt_t K) :
    m.value hash elt = (m.denotes.lookup elt.key).bind fun c =>
      if c.node = elt.node then some c.value else none := by
  unfold mapping_t.value mapping_t.denotes
  rw [lookup_contents h.hashed]

theorem value_of_lookup (h : WellFormed hash m) :
    (m.value hash elt).isSome ↔ ∃ v, m.denotes.lookup elt.key = some ⟨elt.node, v⟩ := by
  rw [value_eq h]
  cases hc : m.denotes.lookup elt.key with
  | none => simp
  | some c =>
    obtain ⟨node, v⟩ := c
    rw [bind_some]
    by_cases hn : node = elt.node
    · simp [hn]
    · simp [hn]

theorem value_pointer (h : WellFormed hash m) {i : Nat} (hx : x ∈ m.table i) :
    m.value hash (pointer x) = some x.2.value := by
  have hhome := h.hashed.home i x hx
  unfold mapping_t.value pointer
  simp only
  rw [← hhome, (mem_dlookup_iff (h.hashed.chains i)).2 hx, bind_some, if_pos rfl]

theorem next_there (h : WellFormed hash m) (elt : elt_t K) {elt' : elt_t K}
    (hnext : m.next hash elt = some elt') : (m.value hash elt').isSome := by
  simp only [mapping_t.next] at hnext
  obtain ⟨x, hx, rfl⟩ := map_eq_some_iff.1 hnext
  have hmem : x ∈ m.table (hash elt.key &&& m.table_size) :=
    (dropWhile_sublist _).subset (mem_of_mem_tail (mem_of_head? hx))
  rw [value_pointer h hmem]
  rfl

omit [DecidableEq K] in
theorem notMem_done (h : (done ++ x :: rest).NodupKeys) : x.1 ∉ done.keys := by
  intro hdone
  have hkeys : (done.keys ++ x.1 :: rest.keys).Nodup := by
    simpa [List.NodupKeys, keys] using h
  exact (nodup_append.1 hkeys).2.2 x.1 hdone x.1 (mem_cons_self ..) rfl

theorem next_eq (h : WellFormed hash m) {i : Nat} (hchain : m.table i = done ++ x :: rest) :
    m.next hash (pointer x) = rest.head?.map pointer := by
  have hhome := h.hashed.home i x (by rw [hchain]; simp)
  have hnodup := h.hashed.chains i
  unfold mapping_t.next pointer
  simp only
  rw [← hhome, hchain]
  rw [hchain] at hnodup
  have hdrop : (done ++ x :: rest).dropWhile (fun y => decide (y.1 ≠ x.1)) = x :: rest := by
    have hdone : ∀ y ∈ done, decide (y.1 ≠ x.1) = true := by
      intro y hy
      rw [decide_eq_true_eq]
      rintro heq
      exact notMem_done hnodup (heq ▸ mem_map_of_mem hy)
    rw [dropWhile_append_of_pos hdone, dropWhile_cons_of_neg]
    simp
  rw [hdrop]
  rfl

theorem store_ok (h : Ok hash m) (lv : K) (v : V) :
    Ok hash (m.store hash lv v) ∧
      (m.store hash lv v).denotes = (match m.denotes.lookup lv with
        | some c => m.denotes.insert lv { c with value := v }
        | none => m.denotes) ∧
      (m.store hash lv v).count = m.count ∧ (m.store hash lv v).table_size = m.table_size := by
  have hlookup : (m.table (hash lv &&& m.table_size)).dlookup lv = m.denotes.lookup lv :=
    (lookup_contents h.wellFormed.hashed lv).symm
  unfold mapping_t.store
  simp only [hlookup]
  cases hc : m.denotes.lookup lv with
  | none => exact ⟨h, rfl, rfl, rfl⟩
  | some c =>
    have hmem : lv ∈ m.denotes := Finmap.mem_of_lookup_eq_some hc
    obtain ⟨hok, hdenotes⟩ := assign_ok h { c with value := v } hmem
    exact ⟨hok, hdenotes, rfl, rfl⟩

/-! ## What a callback does -/

theorem find_for_insert_or_stop_ok (MAX_MAPPING_SIZE : Nat) (const0u : cell_t V) (lv : K)
    (h : Ok hash m) :
    (∃ r, find_for_insert_or_stop hash MAX_MAPPING_SIZE const0u m lv = .ok r ∧ Ok hash r.1 ∧
      r.1.denotes = if lv ∈ m.denotes then m.denotes else m.denotes.insert lv const0u) ∨
    (∃ m', find_for_insert_or_stop hash MAX_MAPPING_SIZE const0u m lv = .error (.too_large m' 0) ∧
      Ok hash m' ∧ m'.denotes = m.denotes) ∨
    find_for_insert_or_stop hash MAX_MAPPING_SIZE const0u m lv = .error .out_of_memory := by
  have hdone := find_for_insert_or_stop_done hash MAX_MAPPING_SIZE const0u m lv
  rw [find_for_insert_or_stop_eq] at hdone ⊢
  by_cases hlv : lv ∈ (m.table (hash lv &&& m.table_size)).keys
  · rw [if_pos hlv] at hdone ⊢
    obtain ⟨hok, -, hdenotes⟩ := find_for_insert_ok h hdone.symm
    exact .inl ⟨_, rfl, hok, hdenotes⟩
  · rw [if_neg hlv] at hdone ⊢
    cases hroom : make_room hash (adding m) (hash lv) (hash lv &&& m.table_size) with
    | none => exact .inr (.inr rfl)
    | some r =>
      rw [hroom] at hdone
      simp only at hdone ⊢
      by_cases hmax : r.1.count + 1 > MAX_MAPPING_SIZE
      · rw [if_pos hmax]
        have hmade := make_room_room (s := adding m) h.wellFormed rfl hroom
        refine .inr (.inl ⟨_, rfl, ⟨hmade.wellFormed, ?_⟩, hmade.denotes⟩)
        rw [hmade.count, hmade.denotes]
        exact h.count
      · rw [if_neg hmax] at hdone ⊢
        obtain ⟨hok, -, hdenotes⟩ := find_for_insert_ok h hdone.symm
        exact .inl ⟨_, rfl, hok, hdenotes⟩

theorem act_sane (MAX_MAPPING_SIZE : Nat) (const0u : V) (h : Sane hash more w) (a : action_t K V) :
    Sane hash more (w.act hash MAX_MAPPING_SIZE const0u a) := by
  have hnodes := count_eq_nodes h.ok
  have hcounted := h.counted
  cases a with
  | insert lv v =>
    simp only [world_t.act]
    rcases find_for_insert_or_stop_ok MAX_MAPPING_SIZE ⟨w.new_node, const0u⟩ lv h.ok with
      ⟨r, heq, hok, -⟩ | ⟨m', heq, hok, hdenotes⟩ | heq
    · rw [heq]
      obtain ⟨hstored, -, hcount, -⟩ := store_ok hok lv v
      refine ⟨hstored, h.held, ?_⟩
      have hstored := count_eq_nodes hstored
      simp only
      omega
    · rw [heq]
      refine ⟨hok, h.held, ?_⟩
      have hsame : m'.nodes.length = w.m.nodes.length := by
        rw [count_eq_nodes hok, hok.count, hdenotes, ← h.ok.count, hnodes]
      simp only [hsame]
      exact hcounted
    · rw [heq]
      exact ⟨⟨⟨h.ok.wellFormed.hashed, h.ok.wellFormed.size⟩, h.ok.count⟩, h.held, hcounted⟩
  | delete lv =>
    obtain ⟨hok, -⟩ := mapping_delete_ok h.ok lv
    refine ⟨hok, h.held, ?_⟩
    have := count_eq_nodes hok
    simp only [world_t.act]
    omega
  | drop =>
    simp only [world_t.act]
    split
    · exact h
    · refine ⟨h.ok, ?_, hcounted⟩
      have := h.held
      simp only
      omega

theorem act_value (MAX_MAPPING_SIZE : Nat) (const0u : V) (h : Sane hash more w) {a : action_t K V}
    (ha : a ≠ .delete elt.key) (helt : (w.m.value hash elt).isSome) :
    ((w.act hash MAX_MAPPING_SIZE const0u a).m.value hash elt).isSome := by
  have hsane := act_sane MAX_MAPPING_SIZE const0u h a
  rw [value_of_lookup hsane.ok.wellFormed]
  rw [value_of_lookup h.ok.wellFormed] at helt
  obtain ⟨v0, hv0⟩ := helt
  have hmem : elt.key ∈ w.m.denotes := Finmap.mem_of_lookup_eq_some hv0
  cases a with
  | insert lv v =>
    simp only [world_t.act]
    rcases find_for_insert_or_stop_ok MAX_MAPPING_SIZE ⟨w.new_node, const0u⟩ lv h.ok with
      ⟨r, heq, hok, hdenotes⟩ | ⟨m', heq, hok, hdenotes⟩ | heq
    · rw [heq]
      simp only
      have hold : r.1.denotes.lookup elt.key = some ⟨elt.node, v0⟩ := by
        rw [hdenotes]
        split
        · exact hv0
        · rename_i hnew
          have hkey : elt.key ≠ lv := fun hkey => hnew (hkey ▸ hmem)
          rw [Finmap.lookup_insert_of_ne _ hkey, hv0]
      obtain ⟨-, hstore, -⟩ := store_ok hok lv v
      rw [hstore]
      by_cases hkey : elt.key = lv
      · subst hkey
        rw [hold]
        exact ⟨v, Finmap.lookup_insert _⟩
      · split
        · exact ⟨v0, by rw [Finmap.lookup_insert_of_ne _ hkey, hold]⟩
        · exact ⟨v0, hold⟩
    · rw [heq]
      exact ⟨v0, by rw [hdenotes, hv0]⟩
    · rw [heq]
      exact ⟨v0, hv0⟩
  | delete lv =>
    obtain ⟨-, hdenotes⟩ := mapping_delete_ok h.ok lv
    refine ⟨v0, ?_⟩
    have hkey : elt.key ≠ lv := fun heq => ha (by rw [heq])
    change (mapping_delete hash w.m lv).denotes.lookup elt.key = _
    rw [hdenotes, Finmap.lookup_erase_ne hkey, hv0]
  | drop =>
    simp only [world_t.act]
    split
    · exact ⟨v0, hv0⟩
    · exact ⟨v0, hv0⟩

theorem after_sane (MAX_MAPPING_SIZE : Nat) (const0u : V) (h : Sane hash more w)
    (c : called_t K V) : Sane hash more (w.after hash MAX_MAPPING_SIZE const0u c) := by
  unfold world_t.after
  generalize c.actions = actions
  induction actions generalizing w with
  | nil => exact h
  | cons a actions ih => exact ih (act_sane MAX_MAPPING_SIZE const0u h a)

theorem after_value (MAX_MAPPING_SIZE : Nat) (const0u : V) (h : Sane hash more w)
    (hc : ∀ a ∈ c.actions, a ≠ .delete elt.key) (helt : (w.m.value hash elt).isSome) :
    ((w.after hash MAX_MAPPING_SIZE const0u c).m.value hash elt).isSome := by
  unfold world_t.after
  generalize c.actions = actions at hc
  induction actions generalizing w with
  | nil => exact helt
  | cons a actions ih =>
    have hrest := fun b hb => hc b (mem_cons_of_mem a hb)
    have ha := act_value MAX_MAPPING_SIZE const0u h (hc a (mem_cons_self ..)) helt
    exact ih (act_sane MAX_MAPPING_SIZE const0u h a) ha hrest

/-! ## The next bucket -/

omit [DecidableEq K] in
theorem seek_there (bucket : Nat → Option (List (mapping_node_t K (cell_t V))))
    (t : Nat → List (mapping_node_t K (cell_t V))) (j : Nat)
    (h : ∀ i < j, bucket i = some (t i)) :
    seek bucket j = some none ∨
      ∃ i < j, ∃ x ∈ t i, seek bucket j = some (some (i, pointer x)) := by
  induction j with
  | zero => exact .inl rfl
  | succ j ih =>
    unfold seek
    rw [h j (Nat.lt_succ_self j), bind_some]
    cases hl : t j with
    | nil =>
      rcases ih (fun i hi => h i (by omega)) with hnone | ⟨i, hi, x, hx, heq⟩
      · exact .inl hnone
      · exact .inr ⟨i, by omega, x, hx, heq⟩
    | cons x l => exact .inr ⟨j, by omega, x, by rw [hl]; exact mem_cons_self .., rfl⟩

/-! ## The walk of `filter_mapping` -/

structure Walking (hash : K → Nat) (w : walk_t K V (adding_t K V)) : Prop where
  sane : Sane hash 0 w.world
  array : w.j ≠ 0 → w.world.m.table_size = w.a
  there : (w.world.m.value hash w.elt).isSome
  uncounted : w.own.m.count = 0

def FilterGood (hash : K → Nat) : filtering_t K V → Prop
  | .walking w => Walking hash w
  | .returned newmap world => Sane hash newmap.count world
  | .raised world => Sane hash 0 world
  | .fault => False

theorem FilterGood.fine {s : filtering_t K V} (h : FilterGood hash s) :
    Fine hash (fun newmap => newmap.count) s := by
  cases s with
  | walking w => trivial
  | returned newmap world => exact h
  | raised world => exact h
  | fault => exact h

omit [DecidableEq K] in
theorem bucket_there (hheld : w.ref = w.others + 1) (hsize : w.m.table_size = a) (i : Nat) :
    w.bucket a i = some (w.m.table i) := by
  unfold world_t.bucket
  rw [if_neg]
  rintro (href | hne)
  · omega
  · exact hne hsize

theorem filter_on_good {elt : Option (elt_t K)} (h : Sane hash 0 world)
    (harray : j ≠ 0 → world.m.table_size = a)
    (helt : ∀ e, elt = some e → (world.m.value hash e).isSome) (hcount : newmap.m.count = 0) :
    FilterGood hash (filter_on world a j newmap elt) := by
  cases elt with
  | some e => exact ⟨h, harray, helt e rfl, hcount⟩
  | none =>
    unfold filter_on
    have hseek := seek_there (world.bucket a) world.m.table j fun i hi =>
      bucket_there h.held (harray (by omega)) i
    rcases hseek with heq | ⟨i, hi, x, hx, heq⟩
    · rw [heq]
      refine ⟨h.ok, h.held, ?_⟩
      have := h.counted
      simp only [hcount]
      omega
    · rw [heq]
      refine ⟨h, fun _ => harray (by omega), ?_, hcount⟩
      rw [value_pointer h.ok.wellFormed hx]
      rfl

omit [DecidableEq K] in
theorem growMap_count {m m' : mapping_t K V} (h : growMap hash m = some m') :
    m'.count = m.count := by
  obtain ⟨-, rfl⟩ := growMap_some h
  exact (split_loop_frame hash (m.table_size + 1) (m.table_size + 1) (doubled m)).2

omit [DecidableEq K] in
theorem filter_node_uncounted {elt : mapping_node_t K V}
    (h : filter_node_or_stop hash MAX_MAPPING_SIZE s elt = .ok s') : s'.m.count = s.m.count := by
  simp only [filter_node_or_stop] at h
  split at h
  · cases h
  · rename_i newmap size tb_index hroom
    have hsame : newmap.count = s.m.count := by
      split at hroom
      · split at hroom
        · obtain ⟨m', hgrow, heq⟩ := map_eq_some_iff.1 hroom
          cases heq
          exact growMap_count hgrow
        · cases hroom
          rfl
      · cases hroom
        rfl
    split at h
    · cases h
    · cases h
      exact hsame

theorem Sane.dealloc {V' : Type} (h : Sane hash more w) {m : mapping_t K V'} (hm : m.count = more) :
    Sane hash 0 (w.dealloc m) := by
  refine ⟨h.ok, h.held, ?_⟩
  have := h.counted
  simp only [world_t.dealloc, hm]
  omega

theorem read_eq (h : Sane hash more w) (elt : elt_t K) : w.read hash elt = w.m.value hash elt := by
  unfold world_t.read
  rw [if_neg]
  have := h.held
  omega

theorem filter_turn_good {w : walk_t K V (adding_t K V)} (h : Walking hash w)
    (hc : SparesWalk hash MAX_MAPPING_SIZE const0u (.walking w) c) :
    FilterGood hash (filter_turn hash MAX_MAPPING_SIZE const0u accepts w c) := by
  obtain ⟨hspared, hsize⟩ := hc
  have hsane := after_sane MAX_MAPPING_SIZE const0u h.sane c
  obtain ⟨v0, hv0⟩ := isSome_iff_exists.1 h.there
  unfold filter_turn
  rw [read_eq h.sane, hv0]
  simp only
  cases hanswer : c.answer with
  | raises => exact hsane.dealloc h.uncounted
  | nothing =>
    refine filter_on_good hsane ?_ (fun e he => by cases he) h.uncounted
    intro hj
    rw [hsize (by rw [hanswer]; simp) hj]
    exact h.array hj
  | returns ret =>
    have hthere := after_value MAX_MAPPING_SIZE const0u h.sane (hspared ret hanswer) h.there
    obtain ⟨v, hv⟩ := isSome_iff_exists.1 hthere
    have harray : w.j ≠ 0 →
        (w.world.after hash MAX_MAPPING_SIZE const0u c).m.table_size = w.a := by
      intro hj
      rw [hsize (by rw [hanswer]; simp) hj]
      exact h.array hj
    simp only [read_eq hsane, hv]
    generalize w.world.after hash MAX_MAPPING_SIZE const0u c = world at *
    have hnext : ∀ e, world.m.next hash w.elt = some e → (world.m.value hash e).isSome :=
      fun e he => next_there hsane.ok.wellFormed w.elt he
    split
    · cases hturn : filter_node_or_stop hash MAX_MAPPING_SIZE w.own ⟨w.elt.key, v⟩ with
      | ok newmap =>
        refine filter_on_good hsane harray hnext ?_
        rw [filter_node_uncounted hturn]
        exact h.uncounted
      | error stop =>
        cases stop with
        | too_large newmap counted =>
          have hcounted := filter_node_counted hturn
          have hmore : Sane hash counted { world with
              total_mapping_nodes := world.total_mapping_nodes + counted } := by
            refine ⟨hsane.ok, hsane.held, ?_⟩
            have := hsane.counted
            simp only
            omega
          exact hmore.dealloc hcounted.symm
        | out_of_memory => exact hsane
    · exact filter_on_good hsane harray hnext h.uncounted

theorem filter_good {s : filtering_t K V} (h : Sane hash 0 world)
    (hs : Reachable (filter_mapping MAX_MAPPING_SIZE world)
      (filter_step hash MAX_MAPPING_SIZE const0u accepts)
      (SparesWalk hash MAX_MAPPING_SIZE const0u) s) : FilterGood hash s := by
  have hcount := (allocate_mapping_empty (K := K) (V := V) MAX_MAPPING_SIZE 0).2
  refine hs.inv ?_ ?_
  · exact filter_on_good h (fun _ => rfl) (fun e he => by cases he) hcount
  · intro s c s' hgood hc hstep
    cases s with
    | walking w =>
      cases hstep
      exact filter_turn_good hgood hc
    | returned newmap world => cases hstep
    | raised world => cases hstep
    | fault => cases hstep

/-! ## The walk of `map_mapping` -/

structure Mapping (hash : K → Nat) (w : walk_t K V (mapping_t K (cell_t V))) : Prop where
  sane : Sane hash w.own.count w.world
  own : Ok hash w.own
  array : w.own.table_size = w.a
  there : (w.own.value hash w.elt).isSome

def MapGood (hash : K → Nat) : mapping_each_t K V → Prop
  | .walking w => Mapping hash w
  | .returned m world => Sane hash m.count world
  | .raised world => Sane hash 0 world
  | .fault => False

theorem MapGood.fine {s : mapping_each_t K V} (h : MapGood hash s) :
    Fine hash (fun m => m.count) s := by
  cases s with
  | walking w => trivial
  | returned m world => exact h
  | raised world => exact h
  | fault => exact h

theorem map_on_good {elt : Option (elt_t K)} (h : Sane hash m.count world) (hm : Ok hash m)
    (harray : m.table_size = a) (helt : ∀ e, elt = some e → (m.value hash e).isSome) :
    MapGood hash (map_on world a j m elt) := by
  cases elt with
  | some e => exact ⟨h, hm, harray, helt e rfl⟩
  | none =>
    unfold map_on
    have hseek := seek_there (fun j => if m.table_size ≠ a then none else some (m.table j))
      m.table j fun i hi => by simp [harray]
    rcases hseek with heq | ⟨i, hi, x, hx, heq⟩
    · rwa [heq]
    · rw [heq]
      refine ⟨h, hm, harray, ?_⟩
      rw [value_pointer hm.wellFormed hx]
      rfl

theorem map_turn_good {w : walk_t K V (mapping_t K (cell_t V))} (h : Mapping hash w) :
    MapGood hash (map_turn hash MAX_MAPPING_SIZE const0u w c) := by
  have hsane := after_sane MAX_MAPPING_SIZE const0u h.sane c
  obtain ⟨v0, hv0⟩ := isSome_iff_exists.1 h.there
  unfold map_turn
  rw [hv0]
  simp only
  cases hanswer : c.answer with
  | raises => exact hsane.dealloc rfl
  | nothing => exact map_on_good hsane h.own h.array (fun e he => by cases he)
  | returns ret =>
    obtain ⟨hok, -, hcount, hsize⟩ := store_ok h.own w.elt.key ret
    refine map_on_good ?_ hok ?_ (fun e he => next_there hok.wellFormed w.elt he)
    · rwa [hcount]
    · rw [hsize]
      exact h.array

theorem map_good {s : mapping_each_t K V} (h : Sane hash 0 world)
    (hs : Reachable (map_mapping world) (map_step hash MAX_MAPPING_SIZE const0u)
      (fun _ _ => True) s) : MapGood hash s := by
  refine hs.inv ?_ ?_
  · have hok := (copyMapping_ok h.ok).1
    have hboth : Sane hash (copyMapping world.m).count { world with
        total_mapping_nodes := world.total_mapping_nodes + (copyMapping world.m).count } := by
      refine ⟨h.ok, h.held, ?_⟩
      have := h.counted
      simp only
      omega
    unfold map_mapping
    exact map_on_good hboth hok rfl (fun e he => by cases he)
  · intro s c s' hgood _ hstep
    cases s with
    | walking w =>
      cases hstep
      exact map_turn_good hgood
    | returned newmap world => cases hstep
    | raised world => cases hstep
    | fault => cases hstep

/-! ## A callback that leaves the mapping alone -/

def lower (m : mapping_t K (cell_t V)) (j : Nat) : List (mapping_node_t K (cell_t V)) :=
  (range j).reverse.flatMap m.table

omit [DecidableEq K] in
theorem lower_succ (m : mapping_t K (cell_t V)) (j : Nat) :
    lower m (j + 1) = m.table j ++ lower m j := by
  unfold lower
  rw [range_succ, reverse_append, reverse_singleton, singleton_append,
    flatMap_cons]

def Left (m : mapping_t K (cell_t V)) (j : Nat) (elt : elt_t K)
    (l : List (mapping_node_t K (cell_t V))) : Prop :=
  ∃ done x rest, m.table j = done ++ x :: rest ∧ elt = pointer x ∧ l = x :: rest ++ lower m j

omit [DecidableEq K] in
theorem seek_left {bucket : Nat → Option (List (mapping_node_t K (cell_t V)))}
    (hbucket : ∀ i, bucket i = some (m.table i)) (j : Nat) :
    (lower m j = [] ∧ seek bucket j = some none) ∨
      ∃ i elt, seek bucket j = some (some (i, elt)) ∧ Left m i elt (lower m j) := by
  induction j with
  | zero => exact .inl ⟨rfl, rfl⟩
  | succ j ih =>
    unfold seek
    rw [hbucket j, bind_some, lower_succ]
    cases hl : m.table j with
    | nil => exact ih
    | cons x rest => exact .inr ⟨j, pointer x, rfl, [], x, rest, hl, rfl, rfl⟩

/-- The walk stands before the nodes that are left, or is at its end. -/
def FilterAt (world : world_t K V) (newmap : adding_t K V)
    (l : List (mapping_node_t K (cell_t V))) (s : filtering_t K V) : Prop :=
  (l = [] ∧ s = .returned { newmap.m with count := newmap.m.count + newmap.count }
    { world with total_mapping_nodes := world.total_mapping_nodes + newmap.count }) ∨
  ∃ j elt, s = .walking ⟨world, world.m.table_size, j, elt, newmap⟩ ∧ Left world.m j elt l

omit [DecidableEq K] in
theorem filter_on_at (hheld : world.ref = world.others + 1) (j : Nat) (newmap : adding_t K V)
    (done rest : List (mapping_node_t K (cell_t V)))
    (hchain : rest ≠ [] → world.m.table j = done ++ rest) :
    FilterAt world newmap (rest ++ lower world.m j)
      (filter_on world world.m.table_size j newmap (rest.head?.map pointer)) := by
  cases rest with
  | nil =>
    change FilterAt world newmap (lower world.m j)
      (filter_on world world.m.table_size j newmap none)
    unfold filter_on
    rcases seek_left (bucket_there hheld rfl) j with ⟨hnil, heq⟩ | ⟨i, elt, heq, hleft⟩
    · rw [heq]
      exact .inl ⟨hnil, rfl⟩
    · rw [heq]
      exact .inr ⟨i, elt, rfl, hleft⟩
  | cons x rest =>
    exact .inr ⟨j, pointer x, rfl, done, x, rest, hchain (by simp), rfl, rfl⟩

theorem left_next (h : WellFormed hash m) (hleft : Left m j elt (x :: l)) :
    elt = pointer x ∧ x ∈ m.table j ∧ ∃ done rest, m.table j = done ++ x :: rest ∧
      l = rest ++ lower m j ∧ m.next hash elt = rest.head?.map pointer := by
  obtain ⟨done, y, rest, hchain, rfl, hl⟩ := hleft
  rw [cons_append, cons.injEq] at hl
  obtain ⟨rfl, rfl⟩ := hl
  refine ⟨rfl, ?_, done, rest, hchain, rfl, next_eq h hchain⟩
  rw [hchain]
  simp

theorem filter_quiet_turn (MAX_MAPPING_SIZE : Nat) (const0u : V) (accepts : V → Bool)
    (newmap : adding_t K V) (ret : V) {s : filtering_t K V} (h : Sane hash 0 world)
    (hleft : Left world.m j elt (x :: l))
    (hs : s = filter_turn hash MAX_MAPPING_SIZE const0u accepts
      ⟨world, world.m.table_size, j, elt, newmap⟩ (quiet ret)) :
    (accepts ret = false → FilterAt world newmap l s) ∧
    (accepts ret = true → ∀ newmap',
      filter_node_or_stop hash MAX_MAPPING_SIZE newmap ⟨x.1, x.2.value⟩ = .ok newmap' →
        FilterAt world newmap' l s) ∧
    (accepts ret = true → ∀ e,
      filter_node_or_stop hash MAX_MAPPING_SIZE newmap ⟨x.1, x.2.value⟩ = .error e →
        ∃ world', s = .raised world') := by
  obtain ⟨rfl, hmem, done, rest, hchain, rfl, hnext⟩ := left_next h.ok.wellFormed hleft
  have hvalue := value_pointer h.ok.wellFormed hmem
  have hat := fun newmap' => filter_on_at h.held j newmap' (done ++ [x]) rest
    fun _ => by rw [hchain, append_assoc, singleton_append]
  unfold filter_turn at hs
  simp only [read_eq h, hvalue, quiet, world_t.after, foldl_nil, hnext] at hs
  refine ⟨?_, ?_, ?_⟩
  · intro haccepts
    simp only [haccepts, Bool.false_eq_true, if_false] at hs
    rw [hs]
    exact hat newmap
  · intro haccepts newmap' hnode
    simp only [pointer] at hs
    rw [if_pos haccepts, hnode] at hs
    rw [hs]
    exact hat newmap'
  · intro haccepts e hnode
    simp only [pointer] at hs
    rw [if_pos haccepts, hnode] at hs
    cases e with
    | too_large m counted => exact ⟨_, hs⟩
    | out_of_memory => exact ⟨_, hs⟩

def plain (l : List (mapping_node_t K (cell_t V))) : List (mapping_node_t K V) :=
  l.map fun x => ⟨x.1, x.2.value⟩

omit [DecidableEq K] in
theorem accepted_cons (accepts : V → Bool) (x : mapping_node_t K V) (l : List (mapping_node_t K V))
    (ret : V) (rets : List V) : accepted accepts (x :: l) (ret :: rets) =
      if accepts ret then x :: accepted accepts l rets else accepted accepts l rets := by
  unfold accepted
  rw [zip_cons_cons, filter_cons]
  cases accepts ret <;> rfl

theorem run_raised {calls : List (called_t K V)} :
    run (filter_step hash MAX_MAPPING_SIZE const0u accepts) (.raised world) calls ≠
      some (.returned r world') := by
  cases calls with
  | nil | cons c calls =>
    intro h
    cases h

theorem filter_quiet_run {s : filtering_t K V} (h : Sane hash 0 world)
    (hat : FilterAt world newmap l s)
    (hrun : run (filter_step hash MAX_MAPPING_SIZE const0u accepts) s (rets.map quiet) =
      some (.returned r world')) :
    rets.length = l.length ∧ ∃ newmap', (accepted accepts (plain l) rets).foldlM
      (filter_node_or_stop hash MAX_MAPPING_SIZE) newmap = .ok newmap' ∧
      r = { newmap'.m with count := newmap'.m.count + newmap'.count } := by
  induction l generalizing s newmap rets with
  | nil =>
    rcases hat with ⟨-, rfl⟩ | ⟨j, elt, -, done, x, rest, -, -, hl⟩
    · cases rets with
      | nil =>
        cases hrun
        exact ⟨rfl, newmap, rfl, rfl⟩
      | cons ret rets => cases hrun
    · cases hl
  | cons x l ih =>
    rcases hat with ⟨hl, -⟩ | ⟨j, elt, rfl, hleft⟩
    · cases hl
    · cases rets with
      | nil => cases hrun
      | cons ret rets =>
        rw [map_cons, run, filter_step, turns, bind_some] at hrun
        obtain ⟨hrefused, haccepted, hraised⟩ := filter_quiet_turn MAX_MAPPING_SIZE const0u
          accepts newmap ret h hleft rfl
        have hplain : plain (x :: l) = ⟨x.1, x.2.value⟩ :: plain l := rfl
        rw [hplain, accepted_cons]
        cases haccepts : accepts ret with
        | false =>
          obtain ⟨hlength, newmap', hfold, hr⟩ := ih (hrefused haccepts) hrun
          exact ⟨congrArg (· + 1) hlength, newmap', hfold, hr⟩
        | true =>
          rw [if_pos rfl, foldlM_cons]
          cases hnode : filter_node_or_stop hash MAX_MAPPING_SIZE newmap ⟨x.1, x.2.value⟩ with
          | ok newmap1 =>
            obtain ⟨hlength, newmap', hfold, hr⟩ := ih (haccepted haccepts newmap1 hnode) hrun
            exact ⟨congrArg (· + 1) hlength, newmap', hfold, hr⟩
          | error e =>
            obtain ⟨world1, hworld⟩ := hraised haccepts e hnode
            rw [hworld] at hrun
            exact absurd hrun run_raised

theorem filter_quiet_returns {newmap' : adding_t K V} {s : filtering_t K V} (h : Sane hash 0 world)
    (hat : FilterAt world newmap l s) (hlength : rets.length = l.length)
    (hfold : (accepted accepts (plain l) rets).foldlM
      (filter_node_or_stop hash MAX_MAPPING_SIZE) newmap = .ok newmap') :
    ∃ r world', run (filter_step hash MAX_MAPPING_SIZE const0u accepts) s (rets.map quiet) =
      some (.returned r world') := by
  induction l generalizing s newmap rets with
  | nil =>
    rcases hat with ⟨-, rfl⟩ | ⟨j, elt, -, done, x, rest, -, -, hl⟩
    · rw [length_nil, length_eq_zero_iff] at hlength
      subst hlength
      exact ⟨_, _, rfl⟩
    · cases hl
  | cons x l ih =>
    rcases hat with ⟨hl, -⟩ | ⟨j, elt, rfl, hleft⟩
    · cases hl
    · cases rets with
      | nil => cases hlength
      | cons ret rets =>
        rw [map_cons, run, filter_step, turns, bind_some]
        obtain ⟨hrefused, haccepted, -⟩ := filter_quiet_turn MAX_MAPPING_SIZE const0u
          accepts newmap ret h hleft rfl
        have hplain : plain (x :: l) = ⟨x.1, x.2.value⟩ :: plain l := rfl
        rw [hplain, accepted_cons] at hfold
        have hrest : rets.length = l.length := by simpa using hlength
        cases haccepts : accepts ret with
        | false =>
          rw [haccepts, if_neg Bool.false_ne_true] at hfold
          exact ih (hrefused haccepts) hrest hfold
        | true =>
          rw [haccepts, if_pos rfl, foldlM_cons] at hfold
          cases hnode : filter_node_or_stop hash MAX_MAPPING_SIZE newmap ⟨x.1, x.2.value⟩ with
          | ok newmap1 =>
            rw [hnode] at hfold
            exact ih (haccepted haccepts newmap1 hnode) hrest hfold
          | error e =>
            rw [hnode] at hfold
            cases hfold

/-! ## The new mapping -/

theorem filter_node_cases (MAX_MAPPING_SIZE : Nat) (h : WellFormed hash s.m)
    (hmask : s.mask = s.m.table_size) (elt : mapping_node_t K V) :
    (∃ r, make_room hash s (hash elt.1) (hash elt.1 &&& s.mask) = some r ∧
      filter_node_or_stop hash MAX_MAPPING_SIZE s elt =
        if s.count + 1 > MAX_MAPPING_SIZE then
          .error (.too_large { r.1 with count := s.count } s.count)
        else .ok ⟨{ r.1 with table := update r.1.table r.2.2.1 (elt :: r.2.2.2) }, r.2.1,
          s.count + 1⟩) ∨
    (make_room hash s (hash elt.1) (hash elt.1 &&& s.mask) = none ∧
      filter_node_or_stop hash MAX_MAPPING_SIZE s elt = .error .out_of_memory) := by
  cases hr : make_room hash s (hash elt.1) (hash elt.1 &&& s.mask) with
  | none =>
    refine .inr ⟨rfl, ?_⟩
    unfold make_room at hr
    unfold filter_node_or_stop
    simp only at hr ⊢
    split at hr
    · rename_i hempty
      split at hr
      · rename_i hfull
        rw [if_pos hempty, if_pos hfull, map_eq_none_iff.1 hr]
        rfl
      · cases hr
    · cases hr
  | some r =>
    refine .inl ⟨r, rfl, ?_⟩
    have hroom := make_room_room h hmask hr
    have hroom1 := hroom.mask
    have hroom2 := hroom.bucket
    have hroom3 := hroom.chain
    obtain ⟨m, mask, i, n⟩ := r
    simp only at hroom1 hroom2 hroom3
    subst hroom1 hroom2 hroom3
    simp only [filter_node_or_stop]
    rcases make_room_cases hr with ⟨hne, heq⟩ | ⟨hnil, hfull, heq⟩ | ⟨hnil, hfull, hgrow⟩
    · rw [if_neg fun hempty => hne (isEmpty_iff.1 hempty)]
      simp only at heq
      subst heq
      rw [hmask]
      rfl
    · rw [if_pos (isEmpty_iff.2 hnil), if_neg hfull]
      simp only at heq
      subst heq
      rw [hmask]
      rfl
    · rw [if_pos (isEmpty_iff.2 hnil), if_pos hfull]
      simp only at hgrow
      rw [hgrow]
      rfl

theorem filter_node_adding {elt : mapping_node_t K V} (h : Adding hash s)
    (hnew : elt.1 ∉ s.m.denotes) (hs : filter_node_or_stop hash MAX_MAPPING_SIZE s elt = .ok s') :
    Adding hash s' ∧ s'.m.denotes = s.m.denotes.insert elt.1 elt.2 := by
  rcases filter_node_cases MAX_MAPPING_SIZE h.wellFormed h.mask elt with ⟨r, hr, heq⟩ | ⟨-, heq⟩
  · rw [heq] at hs
    split at hs
    · cases hs
    · cases hs
      have hroom := make_room_room h.wellFormed h.mask hr
      obtain ⟨hw, hdenotes⟩ := hroom.put hnew
        (n := { r.1 with table := update r.1.table r.2.2.1 (elt :: r.2.2.2) }) rfl rfl
      refine ⟨⟨hw, hroom.mask, ?_⟩, hdenotes⟩
      rw [hdenotes, card_insert_new hnew, ← h.count]
  · simp [heq] at hs

theorem filter_node_within (MAX_MAPPING_SIZE : Nat) (elt : mapping_node_t K V) (h : Adding hash s)
    (hr : Roomy 0 s.m) (hmax : s.count + 1 ≤ MAX_MAPPING_SIZE) (hroom : s.count + 1 ≤ ROOM) :
    ∃ s', filter_node_or_stop hash MAX_MAPPING_SIZE s elt = .ok s' ∧ Roomy 0 s'.m ∧
      s'.count = s.count + 1 := by
  have hcard : s.m.denotes.keys.card + 1 ≤ ROOM := by
    rwa [← h.count]
  obtain ⟨r, hsome, hkept⟩ := make_room_roomy h.wellFormed hr h.mask hcard elt.1
  have hmade := make_room_room h.wellFormed h.mask hsome
  rcases filter_node_cases MAX_MAPPING_SIZE h.wellFormed h.mask elt with ⟨r', hr', heq⟩ | ⟨hnone, -⟩
  · cases hsome.symm.trans hr'
    rw [if_neg (by omega)] at heq
    exact ⟨_, heq, hmade.put_roomy hkept rfl rfl rfl, rfl⟩
  · simp [hsome] at hnone

theorem filter_nodes_adding {l : List (mapping_node_t K V)} (h : Adding hash s) (hl : l.NodupKeys)
    (hnew : ∀ x ∈ l, x.1 ∉ s.m.denotes)
    (hs : l.foldlM (filter_node_or_stop hash MAX_MAPPING_SIZE) s = .ok s') :
    Adding hash s' ∧ s'.m.count = s.m.count ∧
      ∀ key, s'.m.denotes.lookup key = (l.dlookup key).or (s.m.denotes.lookup key) := by
  induction l generalizing s with
  | nil =>
    cases hs
    exact ⟨h, rfl, fun key => by rw [dlookup_nil, none_or]⟩
  | cons x l ih =>
    rw [foldlM_cons] at hs
    rw [nodupKeys_cons] at hl
    cases hturn : filter_node_or_stop hash MAX_MAPPING_SIZE s x with
    | error e =>
      rw [hturn] at hs
      cases hs
    | ok t =>
      rw [hturn] at hs
      obtain ⟨hadding, hdenotes⟩ := filter_node_adding h (hnew x (mem_cons_self ..)) hturn
      have hrest : ∀ y ∈ l, y.1 ∉ t.m.denotes := by
        intro y hy hmem
        rw [hdenotes, Finmap.mem_insert] at hmem
        rcases hmem with heq | hmem
        · exact hl.1 (heq ▸ mem_map_of_mem hy)
        · exact hnew y (mem_cons_of_mem x hy) hmem
      obtain ⟨hadding', hcount, hlookup⟩ := ih hadding hl.2 hrest hs
      refine ⟨hadding', hcount.trans (filter_node_uncounted hturn), fun key => ?_⟩
      rw [hlookup, hdenotes]
      by_cases hkey : key = x.1
      · subst hkey
        rw [dlookup_eq_none.2 hl.1, Finmap.lookup_insert, dlookup_cons_eq, none_or,
          some_or]
      · rw [Finmap.lookup_insert_of_ne _ hkey, dlookup_cons_ne _ _ hkey]

theorem filter_nodes_within (MAX_MAPPING_SIZE : Nat) {l : List (mapping_node_t K V)}
    (h : Adding hash s) (hr : Roomy 0 s.m) (hl : l.NodupKeys) (hnew : ∀ x ∈ l, x.1 ∉ s.m.denotes)
    (hmax : s.count + l.length ≤ MAX_MAPPING_SIZE) (hroom : s.count + l.length ≤ ROOM) :
    ∃ s', l.foldlM (filter_node_or_stop hash MAX_MAPPING_SIZE) s = .ok s' := by
  induction l generalizing s with
  | nil => exact ⟨s, rfl⟩
  | cons x l ih =>
    rw [nodupKeys_cons] at hl
    rw [length_cons] at hmax hroom
    obtain ⟨t, hturn, hr', hcount⟩ := filter_node_within MAX_MAPPING_SIZE x h hr
      (by omega) (by omega)
    obtain ⟨hadding, hdenotes⟩ := filter_node_adding h (hnew x (mem_cons_self ..)) hturn
    have hrest : ∀ y ∈ l, y.1 ∉ t.m.denotes := by
      intro y hy hmem
      rw [hdenotes, Finmap.mem_insert] at hmem
      rcases hmem with heq | hmem
      · exact hl.1 (heq ▸ mem_map_of_mem hy)
      · exact hnew y (mem_cons_of_mem x hy) hmem
    obtain ⟨s', hs'⟩ := ih hadding hr' hl.2 hrest (by omega) (by omega)
    refine ⟨s', ?_⟩
    rwa [foldlM_cons, hturn]

/-! ## The pairs of a mapping -/

omit [DecidableEq K] in
theorem plain_keys (l : List (mapping_node_t K (cell_t V))) : (plain l).keys = l.keys := by
  simp [plain, keys, Function.comp_def]

theorem dlookup_plain (l : List (mapping_node_t K (cell_t V))) (key : K) :
    (plain l).dlookup key = (l.dlookup key).map cell_t.value := by
  induction l with
  | nil => rfl
  | cons x l ih =>
    change (⟨x.1, x.2.value⟩ :: plain l).dlookup key = _
    by_cases hkey : key = x.1
    · subst hkey
      rw [dlookup_cons_eq, dlookup_cons_eq, map_some]
    · rw [dlookup_cons_ne (plain l) ⟨x.1, x.2.value⟩ hkey, dlookup_cons_ne l x hkey, ih]

theorem pairs_ask (h : Ok hash m) :
    (pairs m).NodupKeys ∧ (∀ key, (pairs m).dlookup key = m.found key) ∧
      (pairs m).length = m.count := by
  refine ⟨?_, ?_, ?_⟩
  · have := nodupKeys_traverse h.wellFormed
    unfold List.NodupKeys at this ⊢
    rwa [show pairs m = plain (traverse m) from rfl, plain_keys]
  · intro key
    change (plain (traverse m)).dlookup key = _
    rw [dlookup_plain, dlookup_traverse h.wellFormed]
    rfl
  · have hperm : (traverse m).Perm m.nodes := (reverse_perm _).flatMap_right _
    rw [← count_eq_nodes h, ← hperm.length_eq]
    exact length_map _

omit [DecidableEq K] in
theorem accepted_sublist (accepts : V → Bool) (l : List (mapping_node_t K V)) (rets : List V) :
    (accepted accepts l rets).Sublist l := by
  induction l generalizing rets with
  | nil => exact List.Sublist.refl _
  | cons x l ih =>
    cases rets with
    | nil => exact nil_sublist _
    | cons ret rets =>
      rw [accepted_cons]
      split
      · exact (ih rets).cons_cons x
      · exact (ih rets).cons x

theorem filter_at_start (h : Sane hash 0 world) :
    FilterAt world (adding (allocate_mapping MAX_MAPPING_SIZE 0)) (traverse world.m)
      (filter_mapping MAX_MAPPING_SIZE world) :=
  filter_on_at h.held (world.m.table_size + 1) (adding (allocate_mapping MAX_MAPPING_SIZE 0)) [] []
    fun hne => absurd rfl hne

theorem filter_exact (h : Sane hash 0 world)
    (hrun : run (filter_step hash MAX_MAPPING_SIZE const0u accepts)
      (filter_mapping MAX_MAPPING_SIZE world) (rets.map quiet) = some (.returned r world')) :
    FilterExact hash accepts world.m rets r := by
  obtain ⟨hlength, newmap', hfold, rfl⟩ := filter_quiet_run h (filter_at_start h) hrun
  obtain ⟨hdistinct, hfound, -⟩ := pairs_ask h.ok
  obtain ⟨hok, hempty⟩ := allocate_mapping_ok hash (V := V) MAX_MAPPING_SIZE 0
  have hnew : ∀ x ∈ accepted accepts (pairs world.m) rets,
      x.1 ∉ (allocate_mapping MAX_MAPPING_SIZE 0 : mapping_t K V).denotes := by
    intro x _
    rw [hempty]
    exact Finmap.notMem_empty
  obtain ⟨hadding, hcount, hlookup⟩ := filter_nodes_adding
    (s := adding (allocate_mapping MAX_MAPPING_SIZE 0)) ⟨hok.wellFormed, rfl, hok.count⟩
    (hdistinct.sublist (accepted_sublist accepts _ rets)) hnew hfold
  refine ⟨⟨hlength.trans (length_map _).symm, hdistinct, hfound⟩, ?_, ?_⟩
  · have hzero := (allocate_mapping_empty (K := K) (V := V) MAX_MAPPING_SIZE 0).2
    have hok' : Ok hash { newmap'.m with count := newmap'.m.count + newmap'.count } := by
      refine ⟨⟨hadding.wellFormed.hashed, hadding.wellFormed.size⟩, ?_⟩
      have : newmap'.m.count = 0 := hcount.trans hzero
      simp only [this, Nat.zero_add]
      exact hadding.count
    exact hok'.sound
  · intro key
    refine (hlookup key).trans ?_
    change ((accepted accepts (pairs world.m) rets).dlookup key).or
      ((allocate_mapping MAX_MAPPING_SIZE 0 : mapping_t K V).denotes.lookup key) = _
    rw [hempty, Finmap.lookup_empty, or_none]

theorem filter_returns (h : Sane hash 0 world) (hrets : rets.length = world.m.count)
    (hmax : world.m.count ≤ MAX_MAPPING_SIZE) (hroom : world.m.count ≤ ROOM) :
    ∃ r world', run (filter_step hash MAX_MAPPING_SIZE const0u accepts)
      (filter_mapping MAX_MAPPING_SIZE world) (rets.map quiet) = some (.returned r world') := by
  obtain ⟨hdistinct, -, hlength⟩ := pairs_ask h.ok
  obtain ⟨hok, hempty⟩ := allocate_mapping_ok hash (V := V) MAX_MAPPING_SIZE 0
  have hzero := (allocate_mapping_empty (K := K) (V := V) MAX_MAPPING_SIZE 0).2
  have hsub := accepted_sublist accepts (pairs world.m) rets
  have hle := hsub.length_le
  have hroomy : Roomy 0 (allocate_mapping MAX_MAPPING_SIZE 0 : mapping_t K V) :=
    allocate_mapping_roomy_of_le (Nat.le_trans (Nat.min_le_left _ _) (Nat.zero_le _))
  have hstart : (adding (allocate_mapping MAX_MAPPING_SIZE 0 : mapping_t K V)).count = 0 := hzero
  obtain ⟨newmap', hfold⟩ := filter_nodes_within MAX_MAPPING_SIZE
    (s := adding (allocate_mapping MAX_MAPPING_SIZE 0)) ⟨hok.wellFormed, rfl, hok.count⟩ hroomy
    (hdistinct.sublist hsub)
    (fun x _ => by
      change x.1 ∉ (allocate_mapping MAX_MAPPING_SIZE 0 : mapping_t K V).denotes
      rw [hempty]
      exact Finmap.notMem_empty) (by omega) (by omega)
  refine filter_quiet_returns h (filter_at_start h) ?_ hfold
  rw [hrets, ← hlength]
  exact length_map _

/-! ## The copy -/

/-- The walk stands before the nodes that are left, or is at its end. -/
def MapAt (world : world_t K V) (m : mapping_t K (cell_t V))
    (l : List (mapping_node_t K (cell_t V))) (s : mapping_each_t K V) : Prop :=
  (l = [] ∧ s = .returned m world) ∨
  ∃ j elt, s = .walking ⟨world, m.table_size, j, elt, m⟩ ∧ Left m j elt l

omit [DecidableEq K] in
theorem map_on_at (world : world_t K V) (m : mapping_t K (cell_t V)) (j : Nat)
    (done rest : List (mapping_node_t K (cell_t V)))
    (hchain : rest ≠ [] → m.table j = done ++ rest) :
    MapAt world m (rest ++ lower m j) (map_on world m.table_size j m (rest.head?.map pointer)) := by
  cases rest with
  | nil =>
    change MapAt world m (lower m j) (map_on world m.table_size j m none)
    unfold map_on
    have hbucket : ∀ i, (fun j => if m.table_size ≠ m.table_size then none
        else some (m.table j)) i = some (m.table i) := fun i => if_neg (not_not.2 rfl)
    rcases seek_left hbucket j with ⟨hnil, heq⟩ | ⟨i, elt, heq, hleft⟩
    · rw [heq]
      exact .inl ⟨hnil, rfl⟩
    · rw [heq]
      exact .inr ⟨i, elt, rfl, hleft⟩
  | cons x rest =>
    exact .inr ⟨j, pointer x, rfl, done, x, rest, hchain (by simp), rfl, rfl⟩

theorem kreplace_append (c : cell_t V) (hdone : x.1 ∉ done.keys) :
    (done ++ x :: rest).kreplace x.1 c = done ++ ⟨x.1, c⟩ :: rest := by
  induction done with
  | nil => rw [nil_append, nil_append, kreplace_cons, if_pos rfl]
  | cons y done ih =>
    rw [keys_cons, mem_cons, not_or] at hdone
    rw [cons_append, cons_append, kreplace_cons, if_neg hdone.1, ih hdone.2]

theorem store_table (h : WellFormed hash m) (hchain : m.table j = done ++ x :: rest) (v : V) :
    (m.store hash x.1 v).table =
      update m.table j (done ++ ⟨x.1, { x.2 with value := v }⟩ :: rest) := by
  have hmem : x ∈ m.table j := by
    rw [hchain]
    simp
  have hhome := h.hashed.home j x hmem
  have hnodup := h.hashed.chains j
  simp only [mapping_t.store]
  rw [← hhome, (mem_dlookup_iff hnodup).2 hmem]
  simp only [assign]
  rw [hchain] at hnodup ⊢
  rw [kreplace_append _ (notMem_done hnodup)]

theorem map_quiet_turn (MAX_MAPPING_SIZE : Nat) (const0u : V) (ret : V) (world : world_t K V)
    (h : Ok hash m) (hleft : Left m j elt (x :: l)) :
    x.1 ∈ m.denotes ∧ MapAt world (m.store hash x.1 ret) l
      (map_turn hash MAX_MAPPING_SIZE const0u ⟨world, m.table_size, j, elt, m⟩ (quiet ret)) := by
  obtain ⟨rfl, hmem, done, rest, hchain, rfl, -⟩ := left_next h.wellFormed hleft
  have hvalue := value_pointer h.wellFormed hmem
  obtain ⟨hok, -, -, hsize⟩ := store_ok h x.1 ret
  have htable := store_table h.wellFormed hchain ret
  refine ⟨?_, ?_⟩
  · obtain ⟨v, hv⟩ := (value_of_lookup h.wellFormed).1 (isSome_iff_exists.2 ⟨_, hvalue⟩)
    exact Finmap.mem_of_lookup_eq_some hv
  · have hlower : lower (m.store hash x.1 ret) j = lower m j := by
      unfold lower
      refine flatMap_congr fun i hi => ?_
      rw [mem_reverse, mem_range] at hi
      rw [htable, update_of_ne (by omega)]
    have hstored : (m.store hash x.1 ret).table j =
        done ++ ⟨x.1, { x.2 with value := ret }⟩ :: rest := by
      rw [htable, update_self]
    have hnext := next_eq hok.wellFormed hstored
    unfold map_turn
    simp only [hvalue, quiet, world_t.after, foldl_nil]
    rw [← hlower]
    change MapAt world (m.store hash x.1 ret) (rest ++ lower (m.store hash x.1 ret) j)
      (map_on world m.table_size j (m.store hash x.1 ret)
        ((m.store hash x.1 ret).next hash (pointer ⟨x.1, { x.2 with value := ret }⟩)))
    rw [hnext, ← hsize]
    refine map_on_at world _ j (done ++ [⟨x.1, { x.2 with value := ret }⟩]) rest fun _ => ?_
    rw [hstored, append_assoc, singleton_append]

theorem store_found (h : Ok hash m) {lv : K} (hlv : lv ∈ m.denotes) (v : V) :
    (m.store hash lv v).denotes.keys = m.denotes.keys ∧
      ∀ key, (m.store hash lv v).found key = if key = lv then some v else m.found key := by
  obtain ⟨-, hdenotes, -⟩ := store_ok h lv v
  obtain ⟨c, hc⟩ := Finmap.mem_iff.1 hlv
  rw [hc] at hdenotes
  simp only at hdenotes
  refine ⟨?_, fun key => ?_⟩
  · rw [hdenotes]
    ext key
    rw [Finmap.mem_keys, Finmap.mem_keys, Finmap.mem_insert]
    constructor
    · rintro (rfl | hkey)
      · exact hlv
      · exact hkey
    · exact .inr
  · unfold mapping_t.found
    rw [hdenotes]
    by_cases hkey : key = lv
    · subst hkey
      rw [Finmap.lookup_insert, if_pos rfl, map_some]
    · rw [Finmap.lookup_insert_of_ne _ hkey, if_neg hkey]

omit [DecidableEq K] in
theorem answers_keys {l : List (mapping_node_t K V)} (h : rets.length = l.length) :
    (answers l rets).keys = l.keys := by
  induction l generalizing rets with
  | nil => cases rets <;> rfl
  | cons x l ih =>
    cases rets with
    | nil => cases h
    | cons ret rets =>
      have hcons : answers (x :: l) (ret :: rets) = ⟨x.1, ret⟩ :: answers l rets := rfl
      rw [hcons, keys_cons, keys_cons, ih (by simpa using h)]

theorem map_quiet_run {r : mapping_t K (cell_t V)} {s : mapping_each_t K V} (h : Ok hash m)
    (hat : MapAt world m l s) (hl : (plain l).NodupKeys)
    (hrun : run (map_step hash MAX_MAPPING_SIZE const0u) s (rets.map quiet) =
      some (.returned r world')) :
    rets.length = l.length ∧ Ok hash r ∧ r.denotes.keys = m.denotes.keys ∧
      ∀ key, r.found key = ((answers (plain l) rets).dlookup key).or (m.found key) := by
  induction l generalizing s m rets with
  | nil =>
    rcases hat with ⟨-, rfl⟩ | ⟨j, elt, -, done, x, rest, -, -, hnil⟩
    · cases rets with
      | nil =>
        cases hrun
        exact ⟨rfl, h, rfl, fun key => (none_or ..).symm⟩
      | cons ret rets => cases hrun
    · cases hnil
  | cons x l ih =>
    rcases hat with ⟨hnil, -⟩ | ⟨j, elt, rfl, hleft⟩
    · cases hnil
    · cases rets with
      | nil => cases hrun
      | cons ret rets =>
        rw [map_cons, run, map_step, turns, bind_some] at hrun
        obtain ⟨hmem, hat⟩ := map_quiet_turn MAX_MAPPING_SIZE const0u ret world h hleft
        have hplain : plain (x :: l) = ⟨x.1, x.2.value⟩ :: plain l := rfl
        rw [hplain, nodupKeys_cons] at hl
        obtain ⟨hkeys, hfound⟩ := store_found h hmem ret
        obtain ⟨hlength, hok, hkeys', hfound'⟩ := ih (store_ok h x.1 ret).1 hat hl.2 hrun
        refine ⟨congrArg (· + 1) hlength, hok, hkeys'.trans hkeys, fun key => ?_⟩
        have hcons : answers (plain (x :: l)) (ret :: rets) =
            ⟨x.1, ret⟩ :: answers (plain l) rets := rfl
        rw [hfound', hfound, hcons]
        by_cases hkey : key = x.1
        · subst hkey
          have hnone : (answers (plain l) rets).dlookup x.1 = none := by
            rw [dlookup_eq_none, answers_keys (by rw [hlength]; exact (length_map _).symm)]
            exact hl.1
          rw [hnone, if_pos rfl, dlookup_cons_eq, none_or, some_or]
        · rw [if_neg hkey, dlookup_cons_ne (answers (plain l) rets)
            (⟨x.1, ret⟩ : mapping_node_t K V) hkey]

theorem map_quiet_returns (MAX_MAPPING_SIZE : Nat) (const0u : V) {s : mapping_each_t K V}
    (h : Ok hash m) (hat : MapAt world m l s) (hlength : rets.length = l.length) :
    ∃ r world', run (map_step hash MAX_MAPPING_SIZE const0u) s (rets.map quiet) =
      some (.returned r world') := by
  induction l generalizing s m rets with
  | nil =>
    rcases hat with ⟨-, rfl⟩ | ⟨j, elt, -, done, x, rest, -, -, hnil⟩
    · rw [length_nil, length_eq_zero_iff] at hlength
      subst hlength
      exact ⟨_, _, rfl⟩
    · cases hnil
  | cons x l ih =>
    rcases hat with ⟨hnil, -⟩ | ⟨j, elt, rfl, hleft⟩
    · cases hnil
    · cases rets with
      | nil => cases hlength
      | cons ret rets =>
        rw [map_cons, run, map_step, turns, bind_some]
        have hat := (map_quiet_turn MAX_MAPPING_SIZE const0u ret world h hleft).2
        exact ih (store_ok h x.1 ret).1 hat (by simpa using hlength)

omit [DecidableEq K] in
theorem map_at_start (world : world_t K V) :
    MapAt { world with
      total_mapping_nodes := world.total_mapping_nodes + (copyMapping world.m).count }
      (copyMapping world.m) (traverse (copyMapping world.m)) (map_mapping world) :=
  map_on_at _ (copyMapping world.m) ((copyMapping world.m).table_size + 1) [] []
    fun hne => absurd rfl hne

theorem map_exact {r : mapping_t K (cell_t V)} (h : Sane hash 0 world)
    (hrun : run (map_step hash MAX_MAPPING_SIZE const0u) (map_mapping world) (rets.map quiet) =
      some (.returned r world')) : MapExact hash world.m rets r := by
  obtain ⟨hok, hsame⟩ := copyMapping_ok h.ok
  obtain ⟨hdistinct, hfound, -⟩ := pairs_ask hok
  obtain ⟨hlength, hok', hkeys, hr⟩ := map_quiet_run hok (map_at_start world) hdistinct hrun
  have hlength' : rets.length = (pairs (copyMapping world.m)).length :=
    hlength.trans (length_map _).symm
  refine ⟨⟨hlength', hdistinct, fun key => ?_⟩, hok'.sound, ?_, fun key => ?_⟩
  · rw [hfound]
    unfold mapping_t.found
    rw [hsame]
  · rw [hkeys, hsame]
  · refine (hr key).trans ?_
    change ((answers (pairs (copyMapping world.m)) rets).dlookup key).or _ = _
    cases hanswer : (answers (pairs (copyMapping world.m)) rets).dlookup key with
    | some v => rw [some_or]
    | none =>
      rw [dlookup_eq_none, answers_keys hlength', ← dlookup_eq_none, hfound] at hanswer
      rw [hanswer, or_none]

theorem map_returns (MAX_MAPPING_SIZE : Nat) (const0u : V) (h : Sane hash 0 world)
    (hrets : rets.length = world.m.count) :
    ∃ r world', run (map_step hash MAX_MAPPING_SIZE const0u) (map_mapping world)
      (rets.map quiet) = some (.returned r world') := by
  obtain ⟨hok, -⟩ := copyMapping_ok h.ok
  obtain ⟨-, -, hlength⟩ := pairs_ask hok
  have hcount : (copyMapping world.m).count = world.m.count := rfl
  refine map_quiet_returns MAX_MAPPING_SIZE const0u hok (map_at_start world) ?_
  rw [hrets, ← hcount, ← hlength]
  exact length_map _

/-! ## The law of the walks -/

def sevens : world_t Nat Nat :=
  ⟨⟨fun i => if i = 7 then [⟨7, ⟨0, 70⟩⟩] else [], 7, 5, 1⟩, 1, 0, 1, 1⟩

theorem sevens_sane : Sane id 0 sevens := by
  refine ⟨⟨⟨⟨?_, ?_⟩, .inl ⟨3, rfl⟩⟩, rfl⟩, rfl, rfl⟩
  · intro i x hx
    by_cases hi : i = 7
    · subst hi
      rw [mem_singleton.1 hx]
      rfl
    · simp [sevens, hi] at hx
  · intro i
    by_cases hi : i = 7
    · simp [sevens, hi]
    · simp [sevens, hi]

end mudos.mapping

-- The law of the limit of mappings: an error leaves the mapping as it was up to the nodes that are
-- there already, unless the node that is one too many falls into an empty bucket, which is then
-- counted as if it had nodes.
import MudOS.MappingLimits

open Function List Option

namespace mudos.mapping

variable {K V : Type} [DecidableEq K] {hash : K → Nat}
variable {m m1 m2 m' : mapping_t K V} {l : List (mapping_node_t K V)} {s : adding_t K V}
  {f : FiniteMap K V} {a : K} {overwrite : Bool} {MAX_MAPPING_SIZE : Nat} {left : left_t K V}
  {const0u : V}

variable {e : Nat} {v v' : V} {at_ : Option (adding_t K V × mapping_node_t K V)} {op : op_t K V}

/-! ## The same operations -/

theorem find_for_insert_or_stop_eq (MAX_MAPPING_SIZE : Nat) (const0u : V) (m : mapping_t K V)
    (lv : K) : find_for_insert_or_stop hash MAX_MAPPING_SIZE const0u m lv =
      if lv ∈ (m.table (hash lv &&& m.table_size)).keys then .ok (m, hash lv &&& m.table_size)
      else match make_room hash (adding m) (hash lv) (hash lv &&& m.table_size) with
        | none => .error .out_of_memory
        | some r => if r.1.count + 1 > MAX_MAPPING_SIZE then .error (.too_large r.1 0)
          else .ok ({ r.1 with
            table := update r.1.table r.2.2.1 (⟨lv, const0u⟩ :: r.1.table r.2.2.1)
            count := r.1.count + 1 }, r.2.2.1) := by
  unfold find_for_insert_or_stop make_room adding
  simp only
  by_cases hlv : lv ∈ (m.table (hash lv &&& m.table_size)).keys
  · rw [if_pos hlv, if_pos hlv]
  rw [if_neg hlv, if_neg hlv]
  by_cases hnil : (m.table (hash lv &&& m.table_size)).isEmpty = true
  · rw [if_pos hnil, if_pos hnil]
    generalize decr m.unfilled = unfilled
    by_cases hfull : unfilled = 0
    · rw [if_pos hfull, if_pos hfull]
      cases growMap hash { m with unfilled } with
      | none => rfl
      | some m' =>
        by_cases hbit : hash lv &&& (m.table_size + 1) ≠ 0
        · simp only [map_some, if_pos hbit]
          rfl
        · simp only [map_some, if_neg hbit]
          rfl
    · rw [if_neg hfull, if_neg hfull]
      rfl
  · rw [if_neg hnil, if_neg hnil]
    rfl

variable (hash) in
theorem find_for_insert_or_stop_done (MAX_MAPPING_SIZE : Nat) (const0u : V) (m : mapping_t K V)
    (lv : K) : (find_for_insert_or_stop hash MAX_MAPPING_SIZE const0u m lv).toOption =
      find_for_insert hash MAX_MAPPING_SIZE const0u m lv := by
  rw [find_for_insert_or_stop_eq, find_for_insert_eq]
  split
  · rfl
  · change _ = (make_room hash (adding m) (hash lv) (hash lv &&& m.table_size)).bind _
    cases make_room hash (adding m) (hash lv) (hash lv &&& m.table_size) with
    | none => rfl
    | some r =>
      simp only [bind_some]
      split <;> rfl

variable (hash) in
theorem add_node_or_stop_done (MAX_MAPPING_SIZE : Nat) (overwrite : Bool) (s : adding_t K V)
    (elt : mapping_node_t K V) :
    (add_node_or_stop hash MAX_MAPPING_SIZE overwrite s elt).toOption =
      add_node hash MAX_MAPPING_SIZE overwrite s elt := by
  unfold add_node_or_stop add_node
  simp only
  split
  · split <;> rfl
  · cases make_room hash s (hash elt.1) (hash elt.1 &&& s.mask) with
    | none => rfl
    | some r =>
      obtain ⟨m, mask, i, n⟩ := r
      simp only [bind_some]
      split <;> rfl

/-! ## The buckets that are left -/

theorem gained_add (size a b : Nat) :
    gained size (a + b) = gained size a + gained (2 ^ a * size) b := by
  induction a generalizing size with
  | zero => simp [gained]
  | succ a ih =>
    have hpow : 2 ^ (a + 1) * size = 2 ^ a * (2 * size) := by
      rw [Nat.pow_succ, Nat.mul_assoc]
    rw [Nat.add_right_comm, gained, gained, ih, hpow]
    omega

omit [DecidableEq K] in
theorem Holds.refl (m : mapping_t K V) : Holds 0 m m := by
  refine ⟨0, ?_, rfl⟩
  rw [Nat.pow_zero, Nat.one_mul]

omit [DecidableEq K] in
theorem Holds.trans (h : Holds 0 m m1) (h1 : Holds e m1 m2) : Holds e m m2 := by
  obtain ⟨a, hsize, hsum⟩ := h
  obtain ⟨b, hsize1, hsum1⟩ := h1
  refine ⟨a + b, ?_, ?_⟩
  · rw [hsize1, hsize, Nat.add_comm a b, Nat.pow_add, Nat.mul_assoc]
  · rw [gained_add, ← hsize]
    omega

omit [DecidableEq K] in
theorem Holds.unique {e' : Nat} (h : Holds e m m') (h' : Holds e' m m') : e = e' := by
  obtain ⟨a, hsize, hsum⟩ := h
  obtain ⟨b, hsize', hsum'⟩ := h'
  have hpow : 2 ^ a = 2 ^ b :=
    Nat.eq_of_mul_eq_mul_right (Nat.succ_pos m.table_size) (hsize.symm.trans hsize')
  have hab : a = b := Nat.pow_right_injective (Nat.le_refl 2) hpow
  subst hab
  omega

omit [DecidableEq K] in
theorem Holds.update {e' : Nat} (h : Holds e m m1) {i : Nat} (hi : i ≤ m1.table_size)
    (htable : m2.table = update m1.table i l) (hsize : m2.table_size = m1.table_size)
    (hunfilled : m2.unfilled = m1.unfilled) (hsum : has_nodes l + e' = has_nodes (m1.table i) + e) :
    Holds e' m m2 := by
  obtain ⟨n, hn, hold⟩ := h
  have hfilled := filled_update (t := m1.table) (n := m1.table_size + 1) (Nat.lt_succ_of_le hi) l
  rw [← htable] at hfilled
  refine ⟨n, ?_, ?_⟩
  · rw [hsize, hn]
  · rw [hsize, hunfilled]
    omega

omit [DecidableEq K] in
theorem has_nodes_le (l : List (mapping_node_t K V)) : has_nodes l ≤ 1 := by
  unfold has_nodes
  split <;> omega

omit [DecidableEq K] in
theorem has_nodes_eq_one : has_nodes l = 1 ↔ l ≠ [] := by
  cases l with
  | nil => simp [has_nodes]
  | cons x l => simp [has_nodes]

theorem make_room_holds (hw : WellFormed hash s.m) (h : Roomy 0 s.m)
    (hmask : s.mask = s.m.table_size) {lv : K}
    {r : mapping_t K V × Nat × Nat × List (mapping_node_t K V)}
    (hr : make_room hash s (hash lv) (hash lv &&& s.mask) = some r) :
    Holds (1 - has_nodes (s.m.table (hash lv &&& s.mask))) s.m r.1 ∧
      has_nodes r.2.2.2 = has_nodes (s.m.table (hash lv &&& s.mask)) := by
  have hroom := make_room_room hw hmask hr
  have hpos := h.pos
  have hdecr : decr s.m.unfilled = s.m.unfilled - 1 := decr_pos hpos
  have hempty : s.m.table (hash lv &&& s.mask) = [] →
      has_nodes (s.m.table (hash lv &&& s.mask)) = 0 ∧
        has_nodes r.2.2.2 = has_nodes (s.m.table (hash lv &&& s.mask)) := by
    intro hnil
    have hchain := hroom.empty (hmask ▸ hnil)
    rw [hnil, hchain]
    exact ⟨rfl, rfl⟩
  rcases make_room_cases hr with ⟨hne, heq⟩ | ⟨hnil, -, heq⟩ | ⟨hnil, hfull, hgrow⟩
  · have hchain : r.2.2.2 = s.m.table (hash lv &&& s.mask) := by
      rw [hroom.chain, hroom.bucket, heq, hmask]
    rw [hchain, has_nodes_eq_one.2 hne, heq]
    exact ⟨Holds.refl s.m, rfl⟩
  · obtain ⟨hzero, hsame⟩ := hempty hnil
    refine ⟨?_, hsame⟩
    rw [hzero, heq]
    refine ⟨0, ?_, ?_⟩
    · rw [Nat.pow_zero, Nat.one_mul]
    · simp only [hdecr, gained]
      omega
  · obtain ⟨hzero, hsame⟩ := hempty hnil
    refine ⟨?_, hsame⟩
    rw [hzero]
    obtain ⟨hts, hexact, -⟩ := growMap_exact h (by omega) hgrow
    refine ⟨1, ?_, ?_⟩
    · rw [Nat.pow_one]
      omega
    · simp only [gained]
      omega

/-! ## The loops -/

/-- The nodes that were there before the loops keep their keys, and no other values come up than
those of the nodes that are added. -/
theorem lookup_put_kept (overwrite : Bool) (x : mapping_node_t K V) (h : f.lookup a = some v) :
    ∃ v', (put overwrite f x).lookup a = some v' ∧ (v' = v ∨ ⟨a, v'⟩ = x) := by
  unfold put
  split
  · by_cases ha : a = x.1
    · refine ⟨x.2, ?_, .inr ?_⟩
      · rw [ha, Finmap.lookup_insert]
      · rw [ha]
    · exact ⟨v, by rw [Finmap.lookup_insert_of_ne _ ha, h], .inl rfl⟩
  · exact ⟨v, h, .inl rfl⟩

theorem lookup_put_whole {x : mapping_node_t K V} (h : (put overwrite f x).lookup a = some v') :
    f.lookup a = some v' ∨ ⟨a, v'⟩ = x := by
  unfold put at h
  split at h
  · by_cases ha : a = x.1
    · right
      rw [ha, Finmap.lookup_insert, some.injEq] at h
      rw [ha, ← h]
    · left
      rwa [Finmap.lookup_insert_of_ne _ ha] at h
  · exact .inl h

theorem lookup_foldl_kept (overwrite : Bool) (l : List (mapping_node_t K V))
    (h : f.lookup a = some v) :
    ∃ v', (l.foldl (put overwrite) f).lookup a = some v' ∧ (v' = v ∨ ⟨a, v'⟩ ∈ l) := by
  induction l generalizing f v with
  | nil => exact ⟨v, h, .inl rfl⟩
  | cons x l ih =>
    obtain ⟨v1, h1, hv1⟩ := lookup_put_kept overwrite x h
    obtain ⟨v', h', hv'⟩ := ih h1
    refine ⟨v', h', ?_⟩
    rcases hv' with rfl | hmem
    · rcases hv1 with rfl | rfl
      · exact .inl rfl
      · exact .inr (mem_cons_self ..)
    · exact .inr (mem_cons_of_mem x hmem)

theorem lookup_foldl_whole (h : (l.foldl (put overwrite) f).lookup a = some v') :
    f.lookup a = some v' ∨ ⟨a, v'⟩ ∈ l := by
  induction l generalizing f with
  | nil => exact .inl h
  | cons x l ih =>
    rcases ih h with hput | hmem
    · rcases lookup_put_whole hput with hold | rfl
      · exact .inl hold
      · exact .inr (mem_cons_self ..)
    · exact .inr (mem_cons_of_mem x hmem)

variable (hash) in
theorem add_node_or_stop_cases (MAX_MAPPING_SIZE : Nat) (overwrite : Bool) (s : adding_t K V)
    (elt : mapping_node_t K V) :
    (∃ l, has_nodes l = has_nodes (s.m.table (hash elt.1 &&& s.mask)) ∧
      add_node_or_stop hash MAX_MAPPING_SIZE overwrite s elt =
        .ok { s with m := { s.m with
          table := update s.m.table (hash elt.1 &&& s.mask) l } }) ∨
    (elt.1 ∉ (s.m.table (hash elt.1 &&& s.mask)).keys ∧
      ∃ r, make_room hash s (hash elt.1) (hash elt.1 &&& s.mask) = some r ∧
        add_node_or_stop hash MAX_MAPPING_SIZE overwrite s elt =
          if s.count + 1 > MAX_MAPPING_SIZE then
            .error (.too_large { r.1 with count := r.1.count + (s.count + 1 - (r.1.count + 1)) }
              (s.count + 1 - (r.1.count + 1)))
          else .ok ⟨{ r.1 with table := update r.1.table r.2.2.1 (elt :: r.2.2.2) },
            r.2.1, s.count + 1⟩) ∨
    add_node_or_stop hash MAX_MAPPING_SIZE overwrite s elt = .error .out_of_memory := by
  simp only [add_node_or_stop]
  by_cases hold : elt.1 ∈ (s.m.table (hash elt.1 &&& s.mask)).keys
  · left
    rw [if_pos hold]
    by_cases hover : overwrite = true
    · rw [if_pos hover]
      exact ⟨_, has_nodes_kreplace _ _ _, rfl⟩
    · rw [if_neg hover]
      refine ⟨_, rfl, ?_⟩
      rw [update_eq_self]
  · right
    rw [if_neg hold]
    cases make_room hash s (hash elt.1) (hash elt.1 &&& s.mask) with
    | none => exact .inr rfl
    | some r => exact .inl ⟨hold, r, rfl, rfl⟩

structure Reached (hash : K → Nat) (m : mapping_t K V) (s : adding_t K V) : Prop where
  loop : Adding hash s
  roomy : Roomy 0 s.m
  holds : Holds 0 m s.m
  count : s.m.count = m.count

theorem Reached.start (h : Ok hash m) (hr : Roomy 0 m) : Reached hash m (adding m) :=
  ⟨⟨h.wellFormed, rfl, h.count⟩, hr, Holds.refl m, rfl⟩

theorem Reached.next {MAX_MAPPING_SIZE : Nat} {overwrite : Bool} {m : mapping_t K V}
    {s s' : adding_t K V} {elt : mapping_node_t K V} (h : Reached hash m s)
    (hs : add_node_or_stop hash MAX_MAPPING_SIZE overwrite s elt = .ok s') :
    Reached hash m s' ∧ s'.m.denotes = put overwrite s.m.denotes elt := by
  have hdone := add_node_or_stop_done hash MAX_MAPPING_SIZE overwrite s elt
  rw [hs] at hdone
  obtain ⟨hadding, hdenotes⟩ := add_node_adding h.loop hdone.symm
  refine ⟨?_, hdenotes⟩
  have hmask := h.loop.mask
  rcases add_node_or_stop_cases hash MAX_MAPPING_SIZE overwrite s elt with
    ⟨l, hl, heq⟩ | ⟨hnew, r, hr, heq⟩ | heq
  · rw [heq] at hs
    cases hs
    have hi : hash elt.1 &&& s.mask ≤ s.m.table_size := by
      rw [hmask]
      exact Nat.and_le_right
    refine ⟨hadding, ?_, ?_, h.count⟩
    · exact h.roomy.update hi rfl rfl (by rw [hl]) h.roomy.pos
    · exact h.holds.update hi rfl rfl rfl (by rw [hl])
  · rw [heq] at hs
    split at hs
    · cases hs
    · cases hs
      have hroom := make_room_room h.loop.wellFormed hmask hr
      obtain ⟨hholds, hsame⟩ := make_room_holds h.loop.wellFormed h.roomy hmask hr
      have hkept := make_room_kept h.loop.wellFormed h.roomy hmask hr
      have hle : r.2.2.1 ≤ r.1.table_size := by
        rw [hroom.bucket]
        exact Nat.and_le_right
      refine ⟨hadding, hroom.put_roomy hkept rfl rfl rfl, ?_, hroom.count.trans h.count⟩
      refine (h.holds.trans hholds).update hle rfl rfl rfl ?_
      have hle1 := has_nodes_le r.2.2.2
      have hone : has_nodes (elt :: r.2.2.2) = 1 := rfl
      rw [hone, ← hroom.chain, ← hsame]
      omega
  · simp [heq] at hs

structure Stopped (hash : K → Nat) (m : mapping_t K V) (overwrite : Bool)
    (l : List (mapping_node_t K V)) (at_ : Option (adding_t K V × mapping_node_t K V))
    (m' : mapping_t K V) (counted : Nat) : Prop where
  ok : Ok hash m'
  denotes : ∃ done ⊆ l, m'.denotes = done.foldl (put overwrite) m.denotes
  holds : Holds 0 m m' ↔ FallsOnNodes hash at_
  count : m'.count = m.count + counted

theorem Reached.stopped {elt : mapping_node_t K V} {counted : Nat} (h : Reached hash m s)
    (hs : add_node_or_stop hash MAX_MAPPING_SIZE overwrite s elt =
      .error (.too_large m' counted)) (hle : m.count ≤ s.count) :
    Ok hash m' ∧ m'.denotes = s.m.denotes ∧
      (Holds 0 m m' ↔ s.m.table (hash elt.1 &&& s.mask) ≠ []) ∧ m'.count = m.count + counted := by
  rcases add_node_or_stop_cases hash MAX_MAPPING_SIZE overwrite s elt with
    ⟨l, hl, heq⟩ | ⟨hnew, r, hr, heq⟩ | heq
  · simp [heq] at hs
  · rw [heq] at hs
    split at hs
    · cases hs
      have hmask := h.loop.mask
      have hroom := make_room_room h.loop.wellFormed hmask hr
      obtain ⟨hholds, -⟩ := make_room_holds h.loop.wellFormed h.roomy hmask hr
      have hcount : r.1.count = m.count := hroom.count.trans h.count
      have hall : r.1.count + (s.count + 1 - (r.1.count + 1)) = s.count := by omega
      refine ⟨⟨⟨hroom.wellFormed.hashed, hroom.wellFormed.size⟩, ?_⟩, hroom.denotes, ?_, ?_⟩
      · refine hall.trans (h.loop.count.trans ?_)
        rw [← hroom.denotes]
        rfl
      · rw [← has_nodes_eq_one]
        have hle1 := has_nodes_le (s.m.table (hash elt.1 &&& s.mask))
        have hleft := h.holds.trans hholds
        constructor
        · intro hzero
          have hholds0 : Holds 0 m r.1 := hzero
          have := hleft.unique hholds0
          omega
        · intro hone
          rwa [hone] at hleft
      · rw [hcount]
    · cases hs
  · simp [heq] at hs

theorem stopped_at {counted : Nat} (h : Reached hash m s) (hle : m.count ≤ s.count)
    (hs : l.foldlM (add_node_or_stop hash MAX_MAPPING_SIZE overwrite) s =
      .error (.too_large m' counted)) :
    Ok hash m' ∧ (∃ done ⊆ l, m'.denotes = done.foldl (put overwrite) s.m.denotes) ∧
      (Holds 0 m m' ↔ FallsOnNodes hash (too_many_at hash MAX_MAPPING_SIZE overwrite s l)) ∧
      m'.count = m.count + counted := by
  induction l generalizing s with
  | nil => cases hs
  | cons elt l ih =>
    rw [foldlM_cons] at hs
    unfold too_many_at
    cases hturn : add_node_or_stop hash MAX_MAPPING_SIZE overwrite s elt with
    | ok t =>
      rw [hturn] at hs
      obtain ⟨hreached, hput⟩ := h.next hturn
      have hcard : s.count ≤ t.count := by
        rw [h.loop.count, hreached.loop.count, hput]
        exact card_le_put overwrite _ elt
      obtain ⟨hok, ⟨done, hdone, hdenotes⟩, hholds, hcount⟩ :=
        ih hreached (Nat.le_trans hle hcard) hs
      refine ⟨hok, ⟨elt :: done, cons_subset_cons elt hdone, ?_⟩, hholds, hcount⟩
      rw [foldl_cons, ← hput, hdenotes]
    | error e =>
      rw [hturn] at hs
      cases hs
      obtain ⟨hok, hdenotes, hholds, hcount⟩ := h.stopped hturn hle
      refine ⟨hok, ⟨[], nil_subset _, hdenotes⟩, hholds.trans ?_, hcount⟩
      constructor
      · intro hne s' elt' heq
        cases heq
        exact hne
      · intro hall
        exact hall s elt rfl

theorem add_nodes_stopped {counted : Nat} (h : Ok hash m) (hr : Roomy 0 m)
    (hs : add_nodes_or_stop hash MAX_MAPPING_SIZE overwrite m l =
      .error (.too_large m' counted)) :
    Stopped hash m overwrite l (too_many_at hash MAX_MAPPING_SIZE overwrite (adding m) l) m'
      counted := by
  obtain ⟨hok, hdenotes, hholds, hcount⟩ :=
    stopped_at (Reached.start h hr) (Nat.le_refl m.count) hs
  exact ⟨hok, hdenotes, hholds, hcount⟩

theorem Stopped.sound {counted : Nat} (h : Stopped hash m overwrite l at_ m' counted) :
    Sound hash m' :=
  h.ok.sound

theorem Stopped.kept {counted : Nat} (h : Stopped hash m overwrite l at_ m' counted) {key : K}
    (hv : m.denotes.lookup key = some v) :
    ∃ v', m'.denotes.lookup key = some v' ∧ (v' = v ∨ ⟨key, v'⟩ ∈ l) := by
  obtain ⟨done, hdone, hdenotes⟩ := h.denotes
  obtain ⟨v', hv', hfrom⟩ := lookup_foldl_kept overwrite done hv
  rw [hdenotes]
  exact ⟨v', hv', hfrom.imp_right fun hmem => hdone hmem⟩

theorem Stopped.whole {counted : Nat} (h : Stopped hash m overwrite l at_ m' counted) {key : K}
    (hv : m'.denotes.lookup key = some v') : m.denotes.lookup key = some v' ∨ ⟨key, v'⟩ ∈ l := by
  obtain ⟨done, hdone, hdenotes⟩ := h.denotes
  rw [hdenotes] at hv
  exact (lookup_foldl_whole hv).imp_right fun hmem => hdone hmem

/-! ## What the operations leave -/

theorem count_eq_nodes (h : Ok hash m) : m.nodes.length = m.count :=
  h.sound.count.symm

theorem stays_live (h : Ok hash m) (counted : Int) (more : Nat) :
    (stays counted m more).live = m.count := by
  have hnodes := count_eq_nodes h
  simp [left_t.live, stays, hnodes]

omit [DecidableEq K] in
theorem of_too_large {α : Type} {left : mapping_t K V → Nat → left_t K V}
    {r : Except (stopped_t K V) α} {e : left_t K V} (h : ended_t.of left r = .too_large e) :
    ∃ m counted, r = .error (.too_large m counted) ∧ e = left m counted := by
  cases r with
  | ok a => cases h
  | error stop =>
    cases stop with
    | too_large m counted =>
      cases h
      exact ⟨m, counted, rfl, rfl⟩
    | out_of_memory => cases h

theorem loop_atomic_iff {counted : Int} (hok : Ok hash m) (hr : Roomy 0 m)
    (hbefore : op.before = some m) (hentries : op.entries = l)
    (hlive : (op.live : Int) = m.count - counted)
    (h : ended_t.of (stays counted) (add_nodes_or_stop hash MAX_MAPPING_SIZE overwrite m l) =
      .too_large left) :
    Atomic hash op left ↔
      FallsOnNodes hash (too_many_at hash MAX_MAPPING_SIZE overwrite (adding m) l) := by
  obtain ⟨m', more, hstop, rfl⟩ := of_too_large h
  have hstopped := add_nodes_stopped hok hr hstop
  rw [← hstopped.holds]
  constructor
  · intro hatomic
    exact hatomic.room m hbefore m' rfl
  · intro hholds
    refine ⟨?_, ?_, ?_, ?_, ?_⟩
    · intro m'' hm
      cases hm
      exact hstopped.sound
    · intro m0 hm0 m'' hm
      rw [hbefore] at hm0
      cases hm0
      cases hm
      exact hholds
    · intro m0 hm0 m'' hm key v hv
      rw [hbefore] at hm0
      cases hm0
      cases hm
      rw [hentries]
      exact hstopped.kept hv
    · intro m0 hm0 m'' hm key v' hv
      rw [hbefore] at hm0
      cases hm0
      cases hm
      rw [hentries]
      exact hstopped.whole hv
    · have hcount := hstopped.count
      rw [stays_live hstopped.ok, hlive, hcount]
      simp only [stays]
      omega

theorem freed_atomic {count : Nat} (hlive : op.live = 0) :
    Atomic hash op (freed (count : Int) count) := by
  refine ⟨?_, ?_, ?_, ?_, ?_⟩
  · intro m' hm
    cases hm
  · intro m _ m' hm
    cases hm
  · intro m _ m' hm
    cases hm
  · intro m _ m' hm
    cases hm
  · simp [freed, left_t.live, hlive]

theorem insert_atomic_iff {lv : K} (hok : Ok hash m) (hr : Roomy 0 m)
    (h : perform hash MAX_MAPPING_SIZE const0u (.insert m lv) = .too_large left) :
    Atomic hash (.insert m lv) left ↔ m.table (hash lv &&& m.table_size) ≠ [] := by
  obtain ⟨m', more, hstop, rfl⟩ := of_too_large h
  rw [find_for_insert_or_stop_eq] at hstop
  split at hstop
  · cases hstop
  · cases hroom : make_room hash (adding m) (hash lv) (hash lv &&& m.table_size) with
    | none =>
      simp [hroom] at hstop
    | some r =>
      rw [hroom] at hstop
      simp only at hstop
      split at hstop
      · cases hstop
        have hmade := make_room_room (s := adding m) hok.wellFormed rfl hroom
        obtain ⟨hholds, -⟩ := make_room_holds (s := adding m) hok.wellFormed hr rfl hroom
        have hok' : Ok hash r.1 := by
          refine ⟨hmade.wellFormed, ?_⟩
          rw [hmade.count, hmade.denotes]
          exact hok.count
        have hdenotes : r.1.denotes = m.denotes := hmade.denotes
        rw [← has_nodes_eq_one]
        have hle1 := has_nodes_le (m.table (hash lv &&& m.table_size))
        constructor
        · intro hatomic
          have := hholds.unique (hatomic.room m rfl r.1 rfl)
          simp only [adding] at this
          omega
        · intro hone
          simp only [adding, hone] at hholds
          refine ⟨?_, ?_, ?_, ?_, ?_⟩
          · intro m'' hm
            cases hm
            exact hok'.sound
          · intro m0 hm0 m'' hm
            cases hm0
            cases hm
            exact hholds
          · intro m0 hm0 m'' hm key v hv
            cases hm0
            cases hm
            exact ⟨v, by rw [hdenotes, hv], .inl rfl⟩
          · intro m0 hm0 m'' hm key v' hv
            cases hm0
            cases hm
            rw [hdenotes] at hv
            exact .inl hv
          · rw [stays_live hok']
            have hcount : r.1.count = m.count := hmade.count
            simp only [stays, op_t.live, count_eq_nodes hok, hcount]
            omega
      · cases hstop

theorem absorb_atomic_iff (hok : Ok hash m1) (hr : Roomy 0 m1)
    (h : perform hash MAX_MAPPING_SIZE const0u (.absorb m1 m2) = .too_large left) :
    Atomic hash (.absorb m1 m2) left ↔ (op_t.absorb m1 m2).Harmless hash MAX_MAPPING_SIZE := by
  simp only [perform] at h
  split at h
  · refine loop_atomic_iff hok hr rfl rfl ?_ h
    simp only [op_t.live, count_eq_nodes hok]
    omega
  · cases h

theorem add_atomic_iff (h1 : Ok hash m1) (hr1 : Roomy 0 m1) (h2 : Ok hash m2) (hr2 : Roomy 0 m2)
    (h : perform hash MAX_MAPPING_SIZE const0u (.add m1 m2) = .too_large left) :
    Atomic hash (.add m1 m2) left ↔ (op_t.add m1 m2).Harmless hash MAX_MAPPING_SIZE := by
  unfold perform at h
  unfold op_t.Harmless
  simp only at h ⊢
  by_cases hge : m1.count ≥ m2.count
  · rw [if_pos hge] at h ⊢
    split at h
    · refine loop_atomic_iff (copyMapping_ok h1).1 (copyMapping_roomy h1.wellFormed hr1) ?_ ?_ ?_ h
      · simp [op_t.before, if_pos hge]
      · simp [op_t.entries, if_pos hge]
      · simp [op_t.live, copyMapping]
    · cases h
  · rw [if_neg hge] at h ⊢
    split at h
    · refine loop_atomic_iff (copyMapping_ok h2).1 (copyMapping_roomy h2.wellFormed hr2) ?_ ?_ ?_ h
      · simp [op_t.before, if_neg hge]
      · simp [op_t.entries, if_neg hge]
      · simp [op_t.live, copyMapping]
    · cases h

theorem aggregate_atomic {sp : List (mapping_node_t K V)}
    (h : perform hash MAX_MAPPING_SIZE const0u (.aggregate sp) =
      .too_large left) : Atomic hash (.aggregate sp) left := by
  obtain ⟨m, counted, -, rfl⟩ := of_too_large h
  exact freed_atomic rfl

omit [DecidableEq K] in
theorem filter_node_counted {elt : mapping_node_t K V} {counted : Nat}
    (h : filter_node_or_stop hash MAX_MAPPING_SIZE s elt = .error (.too_large m counted)) :
    counted = m.count := by
  simp only [filter_node_or_stop] at h
  split at h
  · cases h
  · split at h
    · cases h
      rfl
    · cases h

omit [DecidableEq K] in
theorem filter_counted {counted : Nat}
    (h : l.foldlM (filter_node_or_stop hash MAX_MAPPING_SIZE) s = .error (.too_large m counted)) :
    counted = m.count := by
  induction l generalizing s with
  | nil => cases h
  | cons elt l ih =>
    rw [foldlM_cons] at h
    cases hturn : filter_node_or_stop hash MAX_MAPPING_SIZE s elt with
    | ok t =>
      rw [hturn] at h
      exact ih h
    | error e =>
      rw [hturn] at h
      cases h
      exact filter_node_counted hturn

theorem filter_atomic {accepted : List (mapping_node_t K V)}
    (h : perform hash MAX_MAPPING_SIZE const0u (.filter accepted) = .too_large left) :
    Atomic hash (.filter accepted) left := by
  obtain ⟨m, counted, hstop, rfl⟩ := of_too_large h
  rw [filter_counted hstop]
  exact freed_atomic rfl

/-! ## Mappings that are restored -/

structure Restoring (hash : K → Nat) (r : restoring_t K V) : Prop where
  around : ∀ s ∈ r.around, Adding hash s
  finished : ∀ m ∈ r.finished, Ok hash m
  counted : r.total_mapping_nodes = ((r.finished.map fun m => m.count).sum : Nat)

theorem Adding.closed (h : Adding hash s) : Ok hash { s.m with count := s.count } :=
  ⟨⟨h.wellFormed.hashed, h.wellFormed.size⟩, h.count⟩

theorem Adding.nodes (h : Adding hash s) : s.m.nodes.length = s.count :=
  count_eq_nodes h.closed

theorem Restoring.next {MAX_MAPPING_SIZE : Nat} {r r' : restoring_t K V} {event : event_t K V}
    (h : Restoring hash r) (hr : restore_event hash MAX_MAPPING_SIZE r event = .ok r') :
    Restoring hash r' := by
  obtain ⟨around, finished, total⟩ := r
  cases event with
  | opened size =>
    cases hr
    refine ⟨?_, h.finished, h.counted⟩
    intro s hs
    rcases mem_cons.1 hs with rfl | hs
    · obtain ⟨hnew, -⟩ := allocate_mapping_ok hash (V := V) MAX_MAPPING_SIZE (size / 2)
      exact ⟨hnew.wellFormed, rfl, hnew.count⟩
    · exact h.around s hs
  | node key value =>
    cases around with
    | nil =>
      cases hr
      exact h
    | cons s around =>
      simp only [restore_event] at hr
      split at hr
      · rename_i t hturn
        cases hr
        refine ⟨?_, h.finished, h.counted⟩
        intro x hx
        rcases mem_cons.1 hx with rfl | hx
        · have hdone := add_node_or_stop_done hash MAX_MAPPING_SIZE true s ⟨key, value⟩
          rw [hturn] at hdone
          exact (add_node_adding (h.around s (mem_cons_self ..)) hdone.symm).1
        · exact h.around x (mem_cons_of_mem s hx)
      · cases hr
      · cases hr
  | closed =>
    cases around with
    | nil =>
      cases hr
      exact h
    | cons s around =>
      cases hr
      refine ⟨?_, ?_, ?_⟩
      · intro x hx
        exact h.around x (mem_cons_of_mem s hx)
      · intro m hm
        rcases mem_cons.1 hm with rfl | hm
        · exact (h.around s (mem_cons_self ..)).closed
        · exact h.finished m hm
      · have hcounted := h.counted
        simp only [restoring_t.close, map_cons, sum_cons] at hcounted ⊢
        omega

theorem uncounted_iff {l : List (mapping_t K V)} {around : List (adding_t K V)} {total : Int}
    (hl : ∀ m ∈ l, Ok hash m) (ha : ∀ s ∈ around, Adding hash s)
    (ht : total = ((l.map fun m => m.count).sum : Nat)) :
    (total = (((l ++ around.map adding_t.m).map fun m => m.nodes.length).sum : Nat)) ↔
      ∀ s ∈ around, s.count = 0 := by
  have hfinished : (l.map fun m => m.nodes.length) = l.map fun m => m.count :=
    map_congr_left fun m hm => count_eq_nodes (hl m hm)
  have haround : (around.map fun s => s.m.nodes.length).sum = 0 ↔ ∀ s ∈ around, s.count = 0 := by
    induction around with
    | nil => simp
    | cons s around ih =>
      have hs := (ha s (mem_cons_self ..)).nodes
      have := ih fun x hx => ha x (mem_cons_of_mem s hx)
      simp [hs, this]
  have hmaps : ((around.map adding_t.m).map fun m => m.nodes.length) =
      around.map fun s => s.m.nodes.length := map_map
  rw [map_append, sum_append, hmaps, hfinished, ← haround]
  constructor
  · intro htotal
    omega
  · intro hzero
    omega

theorem restore_stopped {r : restoring_t K V} {text : List (event_t K V)} (h : Restoring hash r)
    (hlive : op.live = 0)
    (hs : text.foldlM (restore_event hash MAX_MAPPING_SIZE) r = .error (.too_large left)) :
    Atomic hash op left ↔ ∀ around, too_many_in hash MAX_MAPPING_SIZE r text = some around →
      ∀ s ∈ around, s.count = 0 := by
  induction text generalizing r with
  | nil => cases hs
  | cons event text ih =>
    rw [foldlM_cons] at hs
    unfold too_many_in
    cases hturn : restore_event hash MAX_MAPPING_SIZE r event with
    | ok t =>
      rw [hturn] at hs
      exact ih (h.next hturn) hs
    | error e =>
      rw [hturn] at hs
      cases hs
      simp only [some.injEq, forall_eq']
      obtain ⟨around, finished, total⟩ := r
      cases event with
      | opened size => cases hturn
      | closed => cases around <;> cases hturn
      | node key value =>
        cases around with
        | nil => cases hturn
        | cons s around =>
          simp only [restore_event] at hturn
          split at hturn
          · cases hturn
          · cases hturn
          · cases hturn
            have hrest := fun x hx => h.around x (mem_cons_of_mem s hx)
            refine Iff.trans ?_ (uncounted_iff h.finished hrest h.counted)
            constructor
            · intro hatomic
              have := hatomic.counted
              simp only [left_t.live, hlive, toList_none, nil_append] at this
              simp only [tail_cons]
              omega
            · intro hsum
              refine ⟨?_, ?_, ?_, ?_, ?_⟩
              · intro m' hm
                cases hm
              · intro m _ m' hm
                cases hm
              · intro m _ m' hm
                cases hm
              · intro m _ m' hm
                cases hm
              · simp only [left_t.live, hlive, toList_none, nil_append]
                simp only [tail_cons] at hsum
                omega

theorem restore_atomic_iff {text : List (event_t K V)}
    (h : perform hash MAX_MAPPING_SIZE const0u (.restore text) = .too_large left) :
    Atomic hash (.restore text) left ↔ (op_t.restore text).Harmless hash MAX_MAPPING_SIZE := by
  have hstart : Restoring hash (⟨[], [], 0⟩ : restoring_t K V) := by
    refine ⟨?_, ?_, rfl⟩
    · intro s hs
      cases hs
    · intro m hm
      cases hm
  simp only [perform] at h
  split at h
  · cases h
  · rename_i e hstop
    rw [h] at hstop
    exact restore_stopped hstart rfl hstop

/-! ## The law of the limit -/

def seven : mapping_t Nat Nat :=
  ⟨fun i => if i = 0 then [⟨0, 7⟩] else [], 7, 5, 1⟩

theorem seven_ok : Ok id seven ∧ Roomy 0 seven := by
  refine ⟨⟨⟨⟨?_, ?_⟩, .inl ⟨3, rfl⟩⟩, rfl⟩, ⟨3, rfl, by decide, by decide, by decide⟩, by decide,
    by decide⟩
  · intro i x hx
    by_cases hi : i = 0
    · subst hi
      rw [mem_singleton.1 hx]
      rfl
    · simp [seven, hi] at hx
  · intro i
    by_cases hi : i = 0
    · simp [seven, hi]
    · simp [seven, hi]

end mudos.mapping

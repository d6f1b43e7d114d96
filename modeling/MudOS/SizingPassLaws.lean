-- The first pass over the text of a container. It never leaves the text or its
-- table, and when it finds the end it has counted what a grammar says, with
-- the sizes of the containers inside in the order in which they are opened.
import MudOS.SavedValues

open List Option

namespace mudos.saved_values

variable {cp' : List UInt8} {d d' : driver} {l : List Nat}
variable {d'' : driver}

/-! ## What the pass reads -/

def Plain (ch : UInt8) : Prop :=
  ch ≠ 0 ∧ ch ≠ 34 ∧ ch ≠ 40 ∧ ch ≠ 93 ∧ ch ≠ 47 ∧ ch ≠ 125 ∧ ch ≠ 58 ∧ ch ≠ 44

/-- What is asked of a number, which the pass goes over to the next delimiter without a look at
it, and whether a mapping may end behind a key. -/
structure Form where
  ends : UInt8 → UInt8 → List UInt8 → Prop
  odd : Prop

/-- The elements from the cursor to the bracket that closes the container: how many there are,
the sizes of the containers in them, and the text behind. -/
inductive Counted (form : Form) :
    Bool → Bool → List UInt8 → Nat → List Nat → List UInt8 → Prop
  | close_mapping {index : Bool} {cp : List UInt8} (h : index = true → form.odd) :
      Counted form true index (93 :: 41 :: cp) 0 [] cp
  | close_items {index : Bool} {ch : UInt8} {cp : List UInt8} (h : ch = 47 ∨ ch = 125) :
      Counted form false index (ch :: 41 :: cp) 0 [] cp
  | string {m index : Bool} {cp cp' rest : List UInt8} {n : Nat} {l : List Nat}
      (h : skip_string cp = .found (delimiter m index :: cp'))
      (hrest : Counted form m (!index) cp' n l rest) :
      Counted form m index (34 :: cp) (n + 1) l rest
  | container {m index : Bool} {ch : UInt8} {k : kind} {cp cp' rest : List UInt8} {size n : Nat}
      {l l' : List Nat} (h : kind_of ch = some k)
      (hinside : Counted form (k = .mapping) false cp size l (delimiter m index :: cp'))
      (hrest : Counted form m (!index) cp' n l' rest) :
      Counted form m index (40 :: ch :: cp) (n + 1) (size :: l ++ l') rest
  | nothing {m index : Bool} {cp rest : List UInt8} {n : Nat} {l : List Nat}
      (hrest : Counted form m (!index) cp n l rest) :
      Counted form m index (delimiter m index :: cp) (n + 1) l rest
  | skipped {m index : Bool} {ch : UInt8} {cp cp' rest : List UInt8} {n : Nat} {l : List Nat}
      (hch : Plain ch) (h : strchr (delimiter m index) cp = .found cp')
      (hends : form.ends (delimiter m index) ch cp) (hrest : Counted form m (!index) cp' n l rest) :
      Counted form m index (ch :: cp) (n + 1) l rest

abbrev Any : Form := ⟨fun _ _ _ => True, True⟩

/-- A string of the container itself, and not of one inside it, is not closed. -/
inductive Unclosed : Bool → Bool → List UInt8 → Prop
  | here {m index : Bool} {cp : List UInt8} (h : skip_string cp = .missing) :
      Unclosed m index (34 :: cp)
  | string {m index : Bool} {cp cp' : List UInt8}
      (h : skip_string cp = .found (delimiter m index :: cp'))
      (hrest : Unclosed m (!index) cp') : Unclosed m index (34 :: cp)
  | container {m index : Bool} {ch : UInt8} {k : kind} {cp cp' : List UInt8} {size : Nat}
      {l : List Nat} (h : kind_of ch = some k)
      (hinside : Counted Any (k = .mapping) false cp size l (delimiter m index :: cp'))
      (hrest : Unclosed m (!index) cp') : Unclosed m index (40 :: ch :: cp)
  | nothing {m index : Bool} {cp : List UInt8} (hrest : Unclosed m (!index) cp) :
      Unclosed m index (delimiter m index :: cp)
  | skipped {m index : Bool} {ch : UInt8} {cp cp' : List UInt8} (hch : Plain ch)
      (h : strchr (delimiter m index) cp = .found cp') (hrest : Unclosed m (!index) cp') :
      Unclosed m index (ch :: cp)

/-! ## Places in the text -/

theorem delimiter_eq (m index : Bool) : delimiter m index = 58 ∨ delimiter m index = 44 := by
  unfold delimiter
  split <;> simp

theorem delimiter_ne_zero (m index : Bool) : delimiter m index ≠ 0 := by
  rcases delimiter_eq m index with h | h <;> simp [h]

/-- A search stops in the text, which has its NUL, and what is left has it too. -/
structure Stops (cp : List UInt8) (p : place) : Prop where
  inside : p ≠ .outside
  left : ∀ cp', p = .found cp' → 0 ∈ cp' ∧ cp'.length < cp.length

theorem Stops.missing (cp : List UInt8) : Stops cp .missing := ⟨by simp, by simp⟩

theorem Stops.found {cp : List UInt8} (h : 0 ∈ cp') (hlt : cp'.length < cp.length) :
    Stops cp (.found cp') := by
  refine ⟨by simp, fun cp'' heq => ?_⟩
  cases heq
  exact ⟨h, hlt⟩

theorem Stops.mono {cp : List UInt8} {p : place} (h : Stops cp p) (hle : cp.length ≤ cp'.length) :
    Stops cp' p :=
  ⟨h.inside, fun cp'' heq => ⟨(h.left cp'' heq).1, Nat.lt_of_lt_of_le (h.left cp'' heq).2 hle⟩⟩

theorem nul_tail {c : UInt8} {cp : List UInt8} (h : 0 ∈ c :: cp) (hc : c ≠ 0) : 0 ∈ cp := by
  rcases mem_cons.mp h with h | h
  · exact absurd h.symm hc
  · exact h

theorem stops_skip_string (cp : List UInt8) (h : 0 ∈ cp) : Stops cp (skip_string cp) := by
  fun_induction skip_string cp with
  | case1 => simp at h
  | case2 cp => exact .found (nul_tail h (by decide)) (by simp)
  | case3 => exact .missing _
  | case4 => simp at h
  | case5 => exact .missing _
  | case6 c cp hc _ _ ih =>
    exact (ih (nul_tail (nul_tail h (by decide)) hc)).mono (by simp only [length_cons]; omega)
  | case7 c cp _ hc _ ih => exact (ih (nul_tail h hc)).mono (by simp)

theorem stops_strchr {delim : UInt8} (hd : delim ≠ 0) (cp : List UInt8) (h : 0 ∈ cp) :
    Stops cp (strchr delim cp) := by
  fun_induction strchr delim cp with
  | case1 => simp at h
  | case2 cp => exact .found (nul_tail h hd) (by simp)
  | case3 => exact .missing _
  | case4 c cp _ hc ih => exact (ih (nul_tail h hc)).mono (by simp)

/-! ## The table -/

def Table (d : driver) : Prop :=
  ∀ sizes, d.sizes = some sizes → sizes.length = d.max_depth ∧ 0 < d.max_depth

def size_at (d : driver) (j : Nat) : Option Int := d.sizes.bind fun sizes => sizes[j]?

structure SameBlocks (d d' : driver) : Prop where
  live : d'.live = d.live
  next_block : d'.next_block = d.next_block

theorem SameBlocks.refl (d : driver) : SameBlocks d d := ⟨rfl, rfl⟩

theorem SameBlocks.trans (h : SameBlocks d d') (h' : SameBlocks d' d'') :
    SameBlocks d d'' := ⟨h'.live.trans h.live, h'.next_block.trans h.next_block⟩

theorem lt_doubled (depth n max_depth : Nat) (h : 0 < max_depth) (hn : depth < max_depth + n) :
    depth < doubled depth n max_depth := by
  induction n generalizing max_depth with
  | zero => exact hn
  | succ n ih =>
    unfold doubled
    split
    · apply ih <;> omega
    · omega

/-- A size is written into a table that has room for it, and the others stay. -/
structure SizeSet (depth size : Nat) (d d' : driver) : Prop where
  table : Table d'
  same : SameBlocks d d'
  save_svalue_depth : d'.save_svalue_depth = d.save_svalue_depth
  self : size_at d' depth = some (size : Int)
  kept : ∀ j ≠ depth, ∀ x, size_at d j = some x → size_at d' j = some x

theorem sizeSet_write {depth size : Nat} {sizes : List Int} (hlt : depth < sizes.length)
    (max_depth : Nat) (hmax : sizes.length = max_depth)
    (hkept : ∀ j x, size_at d j = some x → sizes[j]? = some x) :
    SizeSet depth size d { d with max_depth, sizes := some (sizes.set depth size) } := by
  refine ⟨?_, ⟨rfl, rfl⟩, rfl, ?_, fun j hj x hx => ?_⟩
  · intro t ht
    simp only [some.injEq] at ht
    subst ht
    simp only [length_set]
    omega
  · simp [size_at, hlt]
  · simp only [size_at, bind_some, getElem?_set_ne hj.symm]
    exact hkept j x hx

theorem set_size_spec (c : config) (depth size : Nat) (h : Table d) :
    ∃ d', set_size c depth size d = .value () d' ∧ SizeSet depth size d d' := by
  unfold set_size
  rcases hs : d.sizes with _ | sizes
  · have hlt := lt_doubled depth depth 128 (by omega) (by omega)
    simp only [length_replicate, if_pos hlt]
    refine ⟨_, rfl, sizeSet_write (by simpa using hlt) _ (by simp) fun j x hx => ?_⟩
    simp [size_at, hs] at hx
  · obtain ⟨hlen, hpos⟩ := h sizes hs
    by_cases hge : depth ≥ d.max_depth
    · have hlt := lt_doubled depth depth (2 * d.max_depth) (by omega) (by omega)
      generalize hnew : sizes.take (doubled depth depth (2 * d.max_depth)) ++
        (List.range' sizes.length
          (doubled depth depth (2 * d.max_depth) - sizes.length)).map c.memory = new
      have hnewlen : new.length = doubled depth depth (2 * d.max_depth) := by
        simp only [← hnew, length_append, length_take, length_map,
          length_range']
        omega
      simp only [hge, if_true, hnew, hnewlen, if_pos hlt]
      refine ⟨_, rfl, sizeSet_write (by omega) _ hnewlen fun j x hx => ?_⟩
      simp only [size_at, hs, bind_some] at hx
      obtain ⟨hj, -⟩ := List.getElem?_eq_some_iff.mp hx
      have hjlt : j < (sizes.take (doubled depth depth (2 * d.max_depth))).length := by
        rw [length_take]
        omega
      rw [← hnew, getElem?_append_left hjlt, getElem?_take_of_lt (by omega), hx]
    · have hlt : depth < sizes.length := by omega
      simp only [hge, if_false, hs, if_pos hlt]
      refine ⟨_, rfl, sizeSet_write hlt d.max_depth hlen fun j x hx => ?_⟩
      simpa [size_at, hs] using hx

/-- The sizes of the next containers are written, and those before them stay. -/
structure Written (d d' : driver) (l : List Nat) : Prop where
  save_svalue_depth : d'.save_svalue_depth = d.save_svalue_depth + l.length
  written : ∀ (i x : Nat), l[i]? = some x → size_at d' (d.save_svalue_depth + i) = some (x : Int)
  kept : ∀ j < d.save_svalue_depth, ∀ x, size_at d j = some x → size_at d' j = some x

theorem Written.refl (d : driver) : Written d d [] := ⟨rfl, by simp, fun _ _ _ hx => hx⟩

theorem Written.trans {l' : List Nat} (h : Written d d' l) (h' : Written d' d'' l') :
    Written d d'' (l ++ l') := by
  have hdepth := h.save_svalue_depth
  refine ⟨?_, fun i x hx => ?_, fun j hj x hx => ?_⟩
  · rw [h'.save_svalue_depth, hdepth, length_append, Nat.add_assoc]
  · rcases Nat.lt_or_ge i l.length with hi | hi
    · rw [getElem?_append_left hi] at hx
      exact h'.kept _ (by omega) _ (h.written i x hx)
    · rw [getElem?_append_right hi] at hx
      have hw := h'.written _ x hx
      rwa [hdepth, Nat.add_assoc, Nat.add_sub_cancel' hi] at hw
  · exact h'.kept j (by omega) x (h.kept j hj x hx)

theorem Written.container {d d' d'' : driver} {l : List Nat} {size : Nat}
    (h : Written { d with save_svalue_depth := d.save_svalue_depth + 1 } d' l)
    (h' : SizeSet d.save_svalue_depth size d' d'') : Written d d'' (size :: l) := by
  have hdepth := h.save_svalue_depth
  simp only at hdepth
  refine ⟨?_, fun i x hx => ?_, fun j hj x hx => ?_⟩
  · rw [h'.save_svalue_depth, hdepth, length_cons]
    omega
  · rcases i with _ | i
    · simp only [getElem?_cons_zero, some.injEq] at hx
      subst hx
      exact h'.self
    · have hw := h.written i x (by simpa using hx)
      rw [show d.save_svalue_depth + (i + 1) = d.save_svalue_depth + 1 + i by omega]
      exact h'.kept _ (by omega) _ hw
  · exact h'.kept j (by omega) x (h.kept j (by simp only; omega) x hx)

/-! ## The loop -/

/-- What the loop gives from a cursor: the table is sound, and when the end is found the elements
were counted and the sizes of their containers were written. It stops in a string of this container
only if there is one that is not closed. -/
structure Counting (d d' : driver) (m index : Bool) (cp : List UInt8) (size : Nat) (r : sized) :
    Prop where
  table : Table d'
  same : SameBlocks d d'
  closed : ∀ size' cp', r = .closed size' cp' → 0 ∈ cp' ∧ cp'.length < cp.length ∧
    ∃ n l, size' = size + n ∧ Counted Any m index cp n l cp' ∧ Written d d' l
  unclosed : r = .unclosed → Unclosed m index cp

theorem Counting.stop (h : Table d') (hsame : SameBlocks d d') (m index : Bool) (cp : List UInt8)
    (size : Nat) {r : sized} (hr : r = .wrong ∨ r = .mismatched) :
    Counting d d' m index cp size r := by
  refine ⟨h, hsame, fun size' cp' heq => ?_, fun heq => ?_⟩
  · rcases hr with rfl | rfl <;> cases heq
  · rcases hr with rfl | rfl <;> cases heq

theorem Counting.go_on {m index : Bool} {cp : List UInt8} {size : Nat} {r : sized}
    (h : Counting d' d'' m (!index) cp' (size + 1) r) (hsame : SameBlocks d d')
    (hlt : cp'.length < cp.length) (hw : Written d d' l)
    (hcount : ∀ n l' rest, Counted Any m (!index) cp' n l' rest →
      Counted Any m index cp (n + 1) (l ++ l') rest)
    (hopen : Unclosed m (!index) cp' → Unclosed m index cp) : Counting d d'' m index cp size r := by
  refine ⟨h.table, hsame.trans h.same, fun size' rest heq => ?_, fun heq => hopen (h.unclosed heq)⟩
  obtain ⟨hnul, hlen, n, l', hsize, hc, hw'⟩ := h.closed size' rest heq
  exact ⟨hnul, Nat.lt_trans hlen hlt, n + 1, l ++ l', by omega, hcount n l' rest hc, hw.trans hw'⟩

def Counts (c : config) (n : Nat) : Prop :=
  ∀ (m : Bool) (cp : List UInt8) (size : Nat) (index : Bool) (d : driver), Table d → 0 ∈ cp →
    cp.length < n → ∃ r d', size_loop c n m cp size index d = .value r d' ∧
      Counting d d' m index cp size r

theorem Counts.behind {c : config} {n : Nat} (h : Counts c n) {m index : Bool} {cp : List UInt8}
    (size : Nat) (ht : Table d') (hnul : 0 ∈ cp') (hlen : cp'.length ≤ n)
    (hlt : cp'.length ≤ cp.length) (hsame : SameBlocks d d') (hw : Written d d' l)
    (hcount : ∀ cp'' n l' rest, cp' = delimiter m index :: cp'' →
      Counted Any m (!index) cp'' n l' rest → Counted Any m index cp (n + 1) (l ++ l') rest)
    (hopen : ∀ cp'', cp' = delimiter m index :: cp'' → Unclosed m (!index) cp'' →
      Unclosed m index cp) :
    ∃ r d'', saved_values.behind (delimiter m index)
      (fun cp => size_loop c n m cp (size + 1) (!index) d') d' cp' = .value r d'' ∧
        Counting d d'' m index cp size r := by
  rcases cp' with _ | ⟨ch, cp'⟩
  · simp at hnul
  simp only [length_cons] at hlen hlt
  by_cases hch : ch = delimiter m index
  · have hnz : ch ≠ 0 := hch ▸ delimiter_ne_zero m index
    obtain ⟨r, d'', hr, hc⟩ := h m cp' (size + 1) (!index) d' ht (nul_tail hnul hnz) hlen
    refine ⟨r, d'', by simp [saved_values.behind, hch, hr], ?_⟩
    apply hc.go_on hsame hlt hw
    · exact fun n l' rest => hcount cp' n l' rest (by rw [hch])
    · exact hopen cp' (by rw [hch])
  · refine ⟨.wrong, d', by simp [saved_values.behind, hch], ?_⟩
    exact .stop ht hsame m index cp size (.inl rfl)

theorem counting_bracket {m index : Bool} {ok : Prop} [Decidable ok] {ch : UInt8} {cp : List UInt8}
    (ht : Table d) (size : Nat) (hnul : 0 ∈ cp)
    (hcount : ∀ cp', cp = 41 :: cp' → ok → Counted Any m index (ch :: cp) 0 [] cp') :
    ∃ r d', (match cp with
      | [] => .fault .outside
      | c :: cp => .value (if c = 41 ∧ ok then .closed size cp else .mismatched) d) =
        outcome.value r d' ∧ Counting d d' m index (ch :: cp) size r := by
  rcases cp with _ | ⟨c, cp⟩
  · simp at hnul
  refine ⟨_, _, rfl, ?_⟩
  by_cases hc : c = 41 ∧ ok
  · obtain ⟨rfl, hok⟩ := hc
    refine ⟨ht, .refl d, fun size' cp' heq => ?_, fun heq => ?_⟩
    · simp only [hok, and_self, if_true, sized.closed.injEq] at heq
      obtain ⟨rfl, rfl⟩ := heq
      exact ⟨nul_tail hnul (by decide), Nat.lt_succ_of_lt (Nat.lt_succ_self _), 0, [], rfl,
        hcount cp rfl hok, .refl d⟩
    · simp [hok] at heq
  · rw [if_neg hc]
    exact .stop ht (.refl d) m index _ size (.inr rfl)

theorem size_loop_spec (c : config) (n : Nat) : Counts c n := by
  induction n with
  | zero => exact fun _ _ _ _ _ _ _ hlen => absurd hlen (Nat.not_lt_zero _)
  | succ n ih =>
    intro m cp size index d ht hnul hlen
    rcases cp with _ | ⟨ch, cp⟩
    · simp at hnul
    simp only [length_cons, Nat.add_lt_add_iff_right] at hlen
    unfold size_loop
    by_cases h0 : ch = 0
    · simp only [h0, if_true]
      exact ⟨_, _, rfl, .stop ht (.refl d) m index _ size (.inl rfl)⟩
    have hnul' := nul_tail hnul h0
    simp only [h0, if_false]
    by_cases h34 : ch = 34
    · subst h34
      have hstops := stops_skip_string cp hnul'
      rcases hskip : skip_string cp with cp' | _ | _
      · obtain ⟨hnul'', hlt⟩ := hstops.left cp' hskip
        simp only [if_true]
        apply ih.behind size ht hnul'' (by omega)
          (by simp only [length_cons]; omega) (.refl d) (.refl d)
        · rintro cp'' n l' rest rfl hrest
          exact .string hskip hrest
        · rintro cp'' rfl hrest
          exact .string hskip hrest
      · simp only [if_true]
        exact ⟨_, _, rfl, ht, .refl d, by simp, fun _ => .here hskip⟩
      · exact absurd hskip hstops.inside
    simp only [h34, if_false]
    by_cases h40 : ch = 40
    · subst h40
      rcases cp with _ | ⟨ch, cp⟩
      · simp at hnul'
      simp only [if_true]
      rcases hk : kind_of ch with _ | k
      · exact ⟨_, _, rfl, .stop ht (.refl d) m index _ size (.inl rfl)⟩
      have hch : ch ≠ 0 := by
        rintro rfl
        simp [kind_of] at hk
      simp only [length_cons] at hlen
      obtain ⟨r, d', hr, hc⟩ := ih (k = .mapping) cp 0 false
        { d with save_svalue_depth := d.save_svalue_depth + 1 } ht (nul_tail hnul' hch) (by omega)
      have hsame : SameBlocks d d' := ⟨hc.same.live, hc.same.next_block⟩
      simp only [hr, outcome.bind, outcome.handle]
      rcases r with ⟨inner, cp'⟩ | _ | _ | _
      · obtain ⟨hnul'', hlt, k', l, hinner, hinside, hw⟩ := hc.closed inner cp' rfl
        rw [Nat.zero_add] at hinner
        subst hinner
        obtain ⟨d'', hset, hd''⟩ := set_size_spec c d.save_svalue_depth inner hc.table
        simp only [hset]
        apply ih.behind size hd''.table hnul'' (by omega)
          (by simp only [length_cons]; omega) (hsame.trans hd''.same)
          (hw.container hd'')
        · rintro cp'' n l' rest rfl hrest
          exact .container hk hinside hrest
        · rintro cp'' rfl hrest
          exact .container hk hinside hrest
      all_goals exact ⟨_, _, rfl, .stop hc.table hsame m index _ size (.inl rfl)⟩
    simp only [h40, if_false]
    by_cases h93 : ch = 93
    · subst h93
      simp only [if_true]
      apply counting_bracket ht size hnul'
      rintro cp' rfl rfl
      exact .close_mapping fun _ => trivial
    simp only [h93, if_false]
    by_cases hclose : ch = 47 ∨ ch = 125
    · simp only [hclose, if_true]
      apply counting_bracket ht size hnul'
      rintro cp' rfl hm
      rw [Bool.not_eq_true] at hm
      subst hm
      exact .close_items hclose
    simp only [hclose, if_false]
    by_cases hsep : ch = 58 ∨ ch = 44
    · simp only [hsep, if_true]
      by_cases hch : ch = delimiter m index
      · obtain ⟨r, d', hr, hc⟩ := ih m cp (size + 1) (!index) d ht hnul' hlen
        refine ⟨r, d', by simp [hch, hr], ?_⟩
        apply hc.go_on (.refl d) (by simp) (.refl d)
        · intro n l' rest hrest
          rw [hch]
          exact .nothing hrest
        · intro hrest
          rw [hch]
          exact .nothing hrest
      · simp only [hch, if_false]
        exact ⟨_, _, rfl, .stop ht (.refl d) m index _ size (.inl rfl)⟩
    simp only [hsep, if_false]
    have hplain : Plain ch := by
      simp only [not_or] at hclose hsep
      exact ⟨h0, h34, h40, h93, hclose.1, hclose.2, hsep.1, hsep.2⟩
    have hstops := stops_strchr (delimiter_ne_zero m index) cp hnul'
    rcases hfind : strchr (delimiter m index) cp with cp' | _ | _
    · obtain ⟨hnul'', hlt⟩ := hstops.left cp' hfind
      obtain ⟨r, d', hr, hc⟩ := ih m cp' (size + 1) (!index) d ht hnul'' (by omega)
      refine ⟨r, d', hr, ?_⟩
      apply hc.go_on (.refl d) (by simp only [length_cons]; omega) (.refl d)
      · exact fun n l' rest hrest => .skipped hplain hfind trivial hrest
      · exact fun hrest => .skipped hplain hfind hrest
    · exact ⟨_, _, rfl, .stop ht (.refl d) m index _ size (.inl rfl)⟩
    · exact absurd hfind hstops.inside

theorem size_loop_of_counted (c : config) {form : Form} {m index : Bool} {cp rest : List UInt8}
    {n : Nat} (h : Counted form m index cp n l rest) :
    ∀ (f size : Nat) (d : driver), Table d → 0 ∈ cp → cp.length < f →
      ∃ d', size_loop c f m cp size index d = .value (.closed (size + n) rest) d' := by
  have hfuel : ∀ {k f : Nat}, k < f → ∃ f', f = f' + 1 := fun {k f} _ => ⟨f - 1, by omega⟩
  induction h with
  | close_mapping h =>
    intro f size d _ _ hf
    obtain ⟨f, rfl⟩ := hfuel hf
    exact ⟨d, by simp [size_loop]⟩
  | close_items hch =>
    intro f size d _ _ hf
    obtain ⟨f, rfl⟩ := hfuel hf
    rcases hch with rfl | rfl <;> exact ⟨d, by simp [size_loop]⟩
  | @string m index cp cp' rest n l h _ ih =>
    intro f size d ht hnul hf
    obtain ⟨f, rfl⟩ := hfuel hf
    obtain ⟨hcp, hlt⟩ := (stops_skip_string cp (nul_tail hnul (by decide))).left _ h
    simp only [length_cons] at hlt hf
    obtain ⟨d', hd'⟩ := ih f (size + 1) d ht (nul_tail hcp (delimiter_ne_zero m index)) (by omega)
    refine ⟨d', ?_⟩
    simp [size_loop, h, saved_values.behind, hd', Nat.add_assoc, Nat.add_comm 1]
  | @container m index ch k cp cp' rest size' n l l' hk hinside _ ih ih' =>
    intro f size d ht hnul hf
    obtain ⟨f, rfl⟩ := hfuel hf
    have hch : ch ≠ 0 := by
      rintro rfl
      simp [kind_of] at hk
    have hnul' := nul_tail (nul_tail hnul (by decide)) hch
    simp only [length_cons] at hf
    obtain ⟨d₁, hd₁⟩ := ih f 0 { d with save_svalue_depth := d.save_svalue_depth + 1 } ht hnul'
      (by omega)
    obtain ⟨_, _, hr, hc⟩ := size_loop_spec c f (k = .mapping) cp 0 false
      { d with save_svalue_depth := d.save_svalue_depth + 1 } ht hnul' (by omega)
    rw [hd₁] at hr
    cases hr
    obtain ⟨hcp, hlt, -⟩ := hc.closed _ _ rfl
    obtain ⟨d₂, hset, hd₂⟩ := set_size_spec c d.save_svalue_depth (0 + size') hc.table
    simp only [length_cons] at hlt
    obtain ⟨d', hd'⟩ := ih' f (size + 1) d₂ hd₂.table (nul_tail hcp (delimiter_ne_zero m index))
      (by omega)
    refine ⟨d', ?_⟩
    rw [Nat.zero_add] at hd₁ hset
    simp [size_loop, hk, hd₁, hset, saved_values.behind, hd', outcome.bind, outcome.handle,
      Nat.add_assoc, Nat.add_comm 1]
  | @nothing m index cp rest n l _ ih =>
    intro f size d ht hnul hf
    obtain ⟨f, rfl⟩ := hfuel hf
    obtain ⟨d', hd'⟩ := ih f (size + 1) d ht (nul_tail hnul (delimiter_ne_zero m index))
      (Nat.lt_of_succ_lt_succ hf)
    refine ⟨d', ?_⟩
    rcases delimiter_eq m index with h | h <;>
      simp [size_loop, h, hd', Nat.add_assoc, Nat.add_comm 1]
  | @skipped m index ch cp cp' rest n l hch h _ _ ih =>
    intro f size d ht hnul hf
    obtain ⟨f, rfl⟩ := hfuel hf
    obtain ⟨hcp, hlt⟩ :=
      (stops_strchr (delimiter_ne_zero m index) cp (nul_tail hnul hch.1)).left _ h
    simp only [length_cons] at hf
    obtain ⟨d', hd'⟩ := ih f (size + 1) d ht hcp (by omega)
    obtain ⟨h0, h34, h40, h93, h47, h125, h58, h44⟩ := hch
    refine ⟨d', ?_⟩
    simp [size_loop, h0, h34, h40, h93, h47, h125, h58, h44, h, hd', Nat.add_assoc,
      Nat.add_comm 1]

inductive Measured (m : Bool) (cp : List UInt8) : Int → driver → Prop
  | counted {d : driver} {n : Nat} {l : List Nat} {rest : List UInt8}
      (h : Counted Any m false cp n l rest) (hdepth : d.save_svalue_depth = 0)
      (hl : ∀ (i x : Nat), l[i]? = some x → size_at d i = some (x : Int)) : Measured m cp n d
  | unclosed {d : driver} (h : Unclosed m false cp) : Measured m cp 0 d
  | refused {d : driver} (h : ∀ form n l rest, ¬ Counted form m false cp n l rest) :
      Measured m cp (-1) d

theorem restore_size_spec (c : config) (m : Bool) {cp : List UInt8} (ht : Table d) (hnul : 0 ∈ cp)
    (hd : d.save_svalue_depth = 0) :
    ∃ size d', restore_size c m cp d = .value size d' ∧ Table d' ∧ SameBlocks d d' ∧
      Measured m cp size d' := by
  obtain ⟨r, d', hr, hc⟩ := size_loop_spec c (cp.length + 1) m cp 0 false d ht hnul (by omega)
  simp only [restore_size, hr, outcome.bind, outcome.handle]
  have hsame : SameBlocks d { d' with save_svalue_depth := 0 } :=
    ⟨hc.same.live, hc.same.next_block⟩
  have hrefused : (∀ size rest, r ≠ .closed size rest) →
      ∀ form n l rest, ¬ Counted form m false cp n l rest := by
    intro hne form n l rest hcount
    obtain ⟨_, heq⟩ := size_loop_of_counted c hcount (cp.length + 1) 0 d ht hnul (by omega)
    rw [hr] at heq
    cases heq
    exact hne _ _ rfl
  rcases r with ⟨size, rest⟩ | _ | _ | _
  · obtain ⟨-, -, n, l, rfl, hcount, hw⟩ := hc.closed _ rest rfl
    refine ⟨_, _, rfl, hc.table, hsame, ?_⟩
    rw [Nat.zero_add]
    refine .counted hcount rfl fun i x hx => ?_
    have hi := hw.written i x hx
    rwa [hd, Nat.zero_add] at hi
  · exact ⟨_, _, rfl, hc.table, hsame, .refused (hrefused (by simp))⟩
  · exact ⟨_, _, rfl, hc.table, hc.same, .unclosed (hc.unclosed rfl)⟩
  · exact ⟨_, _, rfl, hc.table, hc.same, .refused (hrefused (by simp))⟩

end mudos.saved_values

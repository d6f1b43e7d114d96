-- The law of `foreach`: the block is executed once for each element, with the element assigned to
-- the variables that the source names.
import MudOS.Foreach

open Option

namespace mudos.foreach_loop

/-! ## What a statement means -/

def named (variable_index_offset : Nat) (dn : defined_name) : Option place :=
  match foreach_var dn with
  | none => none
  | some op =>
    if op.l < 256 then
      match op.v with
      | .F_LOCAL_LVALUE => some (.fp op.l)
      | .F_GLOBAL_LVALUE => some (.find_value (op.l + variable_index_offset))
    else none

/-- What a `foreach` does before each of its rounds, if it is not said to be an error. Where it is
`undefined`, nothing is said. -/
inductive plan
  | rounds (sets : List (store → store))
  | raised (message : String)
  | undefined

def each (block : store → Option (outcome × store)) :
    List (store → store) → store → Option (outcome × store)
  | [], st => some (.normal, st)
  | set :: sets, st =>
    match block (set st) with
    | some (.normal, st) => each block sets st
    | some (.continued, st) => each block sets st
    | some (.broken, st) => some (.normal, st)
    | r => r

/-- What a statement does, where each `foreach` goes by a plan that is made at its start. -/
def run (plans : defined_name → Option defined_name → svalue_t → store → plan) (fuel : Nat) :
    statement → store → Option (outcome × store)
  | .act c, st => some (.normal, c.apply st)
  | .error message, st => some (.raised message, st)
  | .seq s t, st =>
    match run plans fuel s st with
    | some (.normal, st) => run plans fuel t st
    | r => r
  | .branch c s t, st => if c st then run plans fuel s st else run plans fuel t st
  | .while_ c s, st => rounds c (run plans fuel s) fuel st
  | .foreach var var2 expr0 s, st =>
    match plans var var2 (expr0 st) st with
    | .rounds sets => each (run plans fuel s) sets st
    | .raised message => some (.raised message, st)
    | .undefined => some (.undefined, st)
  | .break_, st => some (.broken, st)
  | .continue_, st => some (.continued, st)
  | .return_, st => some (.returned, st)

section plans

variable (lim : limits) (variable_index_offset : Nat)

/-- One round for each element, character or key that there is at the start. The element is what the
array has at its place in this round, and the value is what the mapping has for the key. -/
def in_place (var : defined_name) (var2 : Option defined_name) (v : svalue_t) (st : store) : plan :=
  match named variable_index_offset var, var2.map (named variable_index_offset) with
  | some p, none =>
    match v with
    | .array arr =>
      .rounds ((List.range (st.item arr).length).map fun i st =>
        st.assign p (((st.item arr)[i]?).getD const0u))
    | .string s =>
      if s.length ≤ USHRT_MAX then .rounds (s.map fun c st => st.assign p (.number c))
      else .undefined
    | _ => .raised (bad_argument "array")
  | some (.fp n), some (some (.fp n2)) => of_mapping (.fp n) (.fp n2)
  | some (.find_value n), some (some (.find_value n2)) =>
    of_mapping (.find_value n) (.find_value n2)
  | _, _ => .undefined
where
  of_mapping (p p2 : place) : plan :=
    match v with
    | .mapping map =>
      if (st.nodes map).length > lim.max_array_size then .raised "Illegal array size.\n"
      else
        .rounds ((st.nodes map).map fun n st =>
          (st.assign p n.1).assign p2 (find_in_mapping st map n.1))
    | _ => .raised (bad_argument "mapping")

end plans

/-! ## The sizes of arrays -/

def SameSizes (st st' : store) : Prop := ∀ arr, (st'.item arr).length = (st.item arr).length

theorem SameSizes.refl (st : store) : SameSizes st st := fun _ => rfl

theorem SameSizes.trans {st st' st'' : store} (h : SameSizes st st') (h' : SameSizes st' st'') :
    SameSizes st st'' := fun arr => (h' arr).trans (h arr)

theorem item_assign (st : store) (p : place) (v : svalue_t) (arr : Nat) :
    (st.assign p v).item arr = st.item arr := by cases p <;> rfl

def Harmless (sets : List (store → store)) : Prop := ∀ set ∈ sets, ∀ st, SameSizes st (set st)

theorem each_sizes {block : store → Option (outcome × store)}
    (hblock : ∀ st o st', block st = some (o, st') → SameSizes st st') {sets : List (store → store)}
    (hsets : Harmless sets) : ∀ {st st' : store} {o : outcome},
    each block sets st = some (o, st') → SameSizes st st' := by
  induction sets with
  | nil =>
    intro st st' o h
    cases h
    exact SameSizes.refl st
  | cons set sets ih =>
    intro st st' o h
    have hset : SameSizes st (set st) := hsets set List.mem_cons_self st
    have hrest : Harmless sets := fun s hs => hsets s (List.mem_cons_of_mem _ hs)
    unfold each at h
    split at h
    · rename_i st1 hb
      exact (hset.trans (hblock _ _ _ hb)).trans (ih hrest h)
    · rename_i st1 hb
      exact (hset.trans (hblock _ _ _ hb)).trans (ih hrest h)
    · rename_i st1 hb
      cases h
      exact hset.trans (hblock _ _ _ hb)
    · exact hset.trans (hblock _ _ _ h)

theorem rounds_sizes {c : store → Bool} {block : store → Option (outcome × store)}
    (hblock : ∀ st o st', block st = some (o, st') → SameSizes st st') (fuel : Nat) :
    ∀ {st st' : store} {o : outcome}, rounds c block fuel st = some (o, st') →
      SameSizes st st' := by
  induction fuel with
  | zero =>
    intro st st' o h
    cases h
  | succ fuel ih =>
    intro st st' o h
    unfold rounds at h
    split at h
    · split at h
      · rename_i st1 hb
        exact (hblock _ _ _ hb).trans (ih h)
      · rename_i st1 hb
        exact (hblock _ _ _ hb).trans (ih h)
      · rename_i st1 hb
        cases h
        exact hblock _ _ _ hb
      · exact hblock _ _ _ h
    · cases h
      exact SameSizes.refl st

theorem run_sizes {plans : defined_name → Option defined_name → svalue_t → store → plan}
    (hplans : ∀ var var2 v st sets, plans var var2 v st = .rounds sets → Harmless sets) {fuel : Nat}
    (s : statement) : ∀ {st st' : store} {o : outcome},
    run plans fuel s st = some (o, st') → SameSizes st st' := by
  induction s with
  | act c =>
    intro st st' o h
    cases h
    exact c.sizes st
  | error message | break_ | continue_ | return_ =>
    intro st st' o h
    cases h
    exact SameSizes.refl st
  | seq s t ihs iht =>
    intro st st' o h
    unfold run at h
    split at h
    · rename_i st1 hs
      exact (ihs hs).trans (iht h)
    · exact ihs h
  | branch c s t ihs iht =>
    intro st st' o h
    unfold run at h
    split at h
    · exact ihs h
    · exact iht h
  | while_ c s ih =>
    intro st st' o h
    exact rounds_sizes (fun st o st' => ih) fuel h
  | foreach var var2 expr0 s ih =>
    intro st st' o h
    unfold run at h
    split at h
    · rename_i sets hsets
      exact each_sizes (fun st o st' => ih) (hplans _ _ _ _ _ hsets) h
    · cases h
      exact SameSizes.refl st
    · cases h
      exact SameSizes.refl st

theorem in_place_harmless (lim : limits) (offset : Nat) (var : defined_name)
    (var2 : Option defined_name) (v : svalue_t) (st : store) (sets : List (store → store))
    (h : in_place lim offset var var2 v st = .rounds sets) : Harmless sets := by
  have hmapping : ∀ p p2, in_place.of_mapping lim v st p p2 = .rounds sets → Harmless sets := by
    intro p p2 h
    unfold in_place.of_mapping at h
    split at h
    · split at h
      · cases h
      · cases h
        intro set hset st arr
        obtain ⟨n, -, rfl⟩ := List.mem_map.mp hset
        rw [item_assign, item_assign]
    · cases h
  unfold in_place at h
  split at h
  · split at h
    · cases h
      intro set hset st arr
      obtain ⟨i, -, rfl⟩ := List.mem_map.mp hset
      rw [item_assign]
    · split at h
      · cases h
        intro set hset st arr
        obtain ⟨c, -, rfl⟩ := List.mem_map.mp hset
        rw [item_assign]
      · cases h
    · cases h
  · exact hmapping _ _ h
  · exact hmapping _ _ h
  · cases h

/-! ## The slots of a loop -/

/-- What a `foreach` has on the stack while its block is executed. -/
inductive Slots : List slot → Prop
  | one (p : place) (n : Nat) (u : cursor) (v : svalue_t) :
      Slots [.lvalue p, .counter n u, .value v]
  | two (p2 p : place) (n : Nat) (u : cursor) (keys : List svalue_t) (v : svalue_t) :
      Slots [.lvalue p2, .lvalue p, .counter n u, .indices keys, .value v]

theorem foreach_exit_slots {g : List slot} (h : Slots g) (st : store) (stack : List slot) :
    foreach_exit ⟨st, g ++ stack⟩ = some ⟨st, stack⟩ := by cases h <;> rfl

/-- The slots make the rounds of a plan, in every store with the sizes of the first one. -/
def Makes (st0 : store) : List slot → List (store → store) → Prop
  | g, [] => Slots g ∧ ∀ st stack, foreach_next ⟨st, g ++ stack⟩ = some (false, ⟨st, stack⟩)
  | g, set :: sets => ∃ g', Slots g' ∧
      (∀ st stack, SameSizes st0 st →
        foreach_next ⟨st, g ++ stack⟩ = some (true, ⟨set st, g' ++ stack⟩)) ∧
      Makes st0 g' sets

/-! ## What the code does -/

def after_break (ctx : context) (loops : List (List slot)) : List (List slot) :=
  if ctx = .LOOP_FOREACH then loops.tail else loops

/-- The code came to what the statement means, with the slots of the loops around it on the stack,
unless nothing is said. -/
def Agrees (loops : List (List slot)) (stack : List slot) (ctx : context)
    (r : Option (outcome × store)) (r' : Option (outcome × machine)) : Prop :=
  match r with
  | none => r' = none
  | some (.normal, st) => r' = some (.normal, ⟨st, loops.flatten ++ stack⟩)
  | some (.broken, st) => r' = some (.broken, ⟨st, (after_break ctx loops).flatten ++ stack⟩)
  | some (.continued, st) => r' = some (.continued, ⟨st, loops.flatten ++ stack⟩)
  | some (.returned, st) => r' = some (.returned, ⟨st, stack⟩)
  | some (.raised message, st) => ∃ stack', r' = some (.raised message, ⟨st, stack'⟩)
  | some (.undefined, _) => True

section code

variable {lim : limits} {offset fuel : Nat}
variable {loops : List (List slot)} {ctx : context} {p : place}
variable {st0 : store} {n : Nat} {g : Bool} {var : defined_name} {l : opcode_1}

theorem foreach_rounds_agree {stack : List slot} {body : store → Option (outcome × store)}
    {block : machine → Option (outcome × machine)}
    (hbody : ∀ g st, Slots g → Agrees (g :: loops) stack .LOOP_FOREACH (body st)
      (block ⟨st, (g :: loops).flatten ++ stack⟩))
    (hsizes : ∀ st o st', body st = some (o, st') → SameSizes st st') (sets : List (store → store)) :
    ∀ {n : Nat} {g : List slot} {st : store}, sets.length < n →
    Makes st0 g sets → Harmless sets → SameSizes st0 st →
    Agrees loops stack ctx (each body sets st)
      (foreach_rounds block n ⟨st, g ++ (loops.flatten ++ stack)⟩) := by
  induction sets with
  | nil =>
    intro n g st hn hmakes _ _
    cases n with
    | zero => exact absurd hn (Nat.not_lt_zero _)
    | succ n =>
      unfold each foreach_rounds
      rw [hmakes.2]
      rfl
  | cons set sets ih =>
    intro n g st hn hmakes hharmless hst
    cases n with
    | zero => exact absurd hn (Nat.not_lt_zero _)
    | succ n =>
      obtain ⟨g', hg', hnext, hrest⟩ := hmakes
      have hset : SameSizes st (set st) := hharmless set List.mem_cons_self st
      have hharmless' : Harmless sets := fun s hs => hharmless s (List.mem_cons_of_mem _ hs)
      have hn' : sets.length < n := Nat.lt_of_succ_lt_succ hn
      have hflat : g' ++ (loops.flatten ++ stack) = (g' :: loops).flatten ++ stack := by
        rw [List.flatten_cons, List.append_assoc]
      unfold each foreach_rounds
      rw [hnext st _ hst, hflat]
      have hagrees := hbody g' (set st) hg'
      -- the cases are the ways in which the block can end
      rcases hb : body (set st) with _ | ⟨o, st1⟩
      · rw [hb] at hagrees
        simp only [Agrees] at hagrees
        simp only [hagrees, Agrees]
      · have hst1 : SameSizes st0 st1 := (hst.trans hset).trans (hsizes _ _ _ hb)
        have hnexts : Agrees loops stack ctx (each body sets st1)
            (foreach_rounds block n ⟨st1, (g' :: loops).flatten ++ stack⟩) := by
          rw [← hflat]
          exact ih hn' hrest hharmless' hst1
        rw [hb] at hagrees
        cases o with
        | normal | continued =>
          simp only [Agrees] at hagrees
          simp only [hagrees]
          exact hnexts
        | broken =>
          simp only [Agrees, after_break, if_true, List.tail_cons] at hagrees
          simp only [hagrees, Agrees]
        | returned =>
          simp only [Agrees] at hagrees
          simp only [hagrees, Agrees]
        | raised message =>
          obtain ⟨stack', hstack⟩ := hagrees
          simp only [hstack]
          exact ⟨stack', rfl⟩
        | undefined => trivial

theorem rounds_agree {stack : List slot} {c : store → Bool}
    {body : store → Option (outcome × store)} {block : machine → Option (outcome × machine)}
    (hbody : ∀ st, Agrees loops stack .LOOP_CONTEXT (body st)
      (block ⟨st, loops.flatten ++ stack⟩)) (n : Nat) : ∀ {st : store},
    Agrees loops stack ctx (rounds c body n st)
      (rounds (fun m => c m.store) block n ⟨st, loops.flatten ++ stack⟩) := by
  induction n with
  | zero =>
    intro st
    rfl
  | succ n ih =>
    intro st
    have hagrees := hbody st
    unfold rounds
    split_ifs with hc
    · rcases hb : body st with _ | ⟨o, st1⟩
      · rw [hb] at hagrees
        simp only [Agrees] at hagrees
        simp [hagrees, Agrees]
      · rw [hb] at hagrees
        cases o with
        | normal | continued =>
          simp only [Agrees] at hagrees
          simp only [hagrees]
          exact ih
        | broken =>
          simp only [Agrees, after_break, reduceCtorEq, if_false] at hagrees
          simp [hagrees, Agrees]
        | returned =>
          simp only [Agrees] at hagrees
          simp [hagrees, Agrees]
        | raised message =>
          obtain ⟨stack', hstack⟩ := hagrees
          simp only [hstack]
          exact ⟨stack', rfl⟩
        | undefined => trivial
    · rfl

theorem return_leaves (loops : List (List slot)) (hloops : ∀ g ∈ loops, Slots g) (st : store)
    (stack : List slot) :
    exec lim offset fuel (i_generate_return loops.length) ⟨st, loops.flatten ++ stack⟩ =
      some (.returned, ⟨st, stack⟩) := by
  induction loops with
  | nil => rfl
  | cons g loops ih =>
    rw [List.length_cons, i_generate_return, exec, exec, List.flatten_cons, List.append_assoc,
      foreach_exit_slots (hloops g List.mem_cons_self)]
    exact ih fun g hg => hloops g (List.mem_cons_of_mem _ hg)

inductive Starts (lim : limits) (offset fuel : Nat) (i : instruction) (st : store)
    (stack : List slot) : plan → Prop
  | rounds {sets : List (store → store)} {g : List slot}
      (hexec : exec lim offset fuel i ⟨st, stack⟩ = some (.normal, ⟨st, g ++ stack⟩))
      (hslots : Slots g) (hmakes : Makes st g sets) (hfew : sets.length ≤ USHRT_MAX) :
      Starts lim offset fuel i st stack (.rounds sets)
  | raised {message : String} {stack' : List slot}
      (hexec : exec lim offset fuel i ⟨st, stack⟩ = some (.raised message, ⟨st, stack'⟩)) :
      Starts lim offset fuel i st stack (.raised message)
  | undefined : Starts lim offset fuel i st stack .undefined

theorem makes_array {arr : Nat} {v : svalue_t} (n : Nat) : ∀ {i : Nat},
    i + n = (st0.item arr).length →
    Makes st0 [.lvalue p, .counter n (.item arr i), .value v]
      ((List.range' i n).map fun i st => st.assign p (((st.item arr)[i]?).getD const0u)) := by
  induction n with
  | zero =>
    intro i _
    exact ⟨.one _ _ _ _, fun st stack => rfl⟩
  | succ n ih =>
    intro i hi
    refine ⟨_, .one p n (.item arr (i + 1)) v, ?_, ih (by omega)⟩
    intro st stack hst
    have hlt : i < (st.item arr).length := by
      rw [hst arr]
      omega
    simp [foreach_next, List.getElem?_eq_getElem hlt]

theorem makes_string {text : List Nat} (s : List Nat) :
    Makes st0 [.lvalue p, .counter s.length (.lvalue_byte s), .value (.string text)]
      (s.map fun c st => st.assign p (.number c)) := by
  induction s with
  | nil => exact ⟨.one _ _ _ _, fun st stack => rfl⟩
  | cons c s ih =>
    refine ⟨_, .one p s.length (.lvalue_byte s) (.string text), ?_, ih⟩
    intro st stack _
    rfl

theorem makes_mapping {st0 : store} {p2 p : place} {map : Nat} {keys : List svalue_t} (n : Nat) :
    ∀ {i : Nat}, i + n = keys.length →
    Makes st0 [.lvalue p2, .lvalue p, .counter n (.key i), .indices keys, .value (.mapping map)]
      ((keys.drop i).map fun key st =>
        (st.assign p key).assign p2 (find_in_mapping st map key)) := by
  induction n with
  | zero =>
    intro i hi
    rw [List.drop_eq_nil_of_le (by omega)]
    exact ⟨.two _ _ _ _ _ _, fun st stack => rfl⟩
  | succ n ih =>
    intro i hi
    have hlt : i < keys.length := by omega
    rw [List.drop_eq_getElem_cons hlt]
    refine ⟨_, .two p2 p n (.key (i + 1)) keys (.mapping map), ?_, ih (by omega)⟩
    intro st stack _
    simp [foreach_next, List.getElem?_eq_getElem hlt]

theorem ushort_small (h : n ≤ USHRT_MAX) : ushort n = n := by
  unfold ushort
  unfold USHRT_MAX at h
  omega

theorem item_small (st : store) (arr : Nat) : (st.item arr).length ≤ USHRT_MAX := by
  unfold store.item
  rcases h : st.arrays[arr]? with _ | item
  · exact Nat.zero_le _
  · exact st.small item (List.mem_of_getElem? h)

theorem named_place {dn : defined_name} {op : opcode_1} (hop : foreach_var dn = some op)
    (h : named offset dn = some p) :
    p = place_of offset (decide (op.v = .F_GLOBAL_LVALUE)) (uchar op.l) := by
  unfold named at h
  rw [hop] at h
  simp only at h
  split at h
  · rename_i hlt
    have hbyte : uchar op.l = op.l := Nat.mod_eq_of_lt hlt
    rw [hbyte]
    split at h <;> rename_i hv <;> cases h <;> rw [hv] <;> rfl
  · cases h

theorem place_of_fp {byte : Nat} (h : .fp n = place_of offset g byte) : g = false := by
  cases g with
  | false => rfl
  | true => cases h

theorem place_of_find_value {byte : Nat} (h : .find_value n = place_of offset g byte) :
    g = true := by
  cases g with
  | false => cases h
  | true => rfl

theorem starts_one (hl : foreach_var var = some l) (expr0 : store → svalue_t) (st : store)
    (stack : List slot) :
    Starts lim offset fuel (i_generate_foreach expr0 l none) st stack
      (in_place lim offset var none (expr0 st) st) := by
  have hflags : ∀ m, exec lim offset fuel (i_generate_foreach expr0 l none) m =
      some (foreach_start lim offset expr0 (if l.v = .F_GLOBAL_LVALUE then 1 else 0)
        [uchar l.l] m) := fun m => rfl
  have hbit : (if l.v = .F_GLOBAL_LVALUE then 1 else 0 : Nat).testBit 2 = false := by
    split_ifs <;> rfl
  have hglobal : (if l.v = .F_GLOBAL_LVALUE then 1 else 0 : Nat).testBit 0 =
      decide (l.v = .F_GLOBAL_LVALUE) := by
    split_ifs with h <;> simp only [h] <;> rfl
  have hexec := hflags ⟨st, stack⟩
  unfold foreach_start at hexec
  simp only [hbit, Bool.false_eq_true, if_false, hglobal] at hexec
  unfold in_place
  simp only [map_none]
  rcases hp : named offset var with _ | p
  · exact .undefined
  · rw [← named_place hl hp] at hexec
    cases hv : expr0 st with
    | number n | mapping map | other q => exact .raised (by rw [hexec, hv])
    | array arr =>
      refine .rounds (by rw [hexec, hv]; rfl) (.one p _ _ (.array arr)) ?_ ?_
      · rw [ushort_small (item_small st arr), List.range_eq_range']
        exact makes_array _ (by omega)
      · rw [List.length_map, List.length_range]
        exact item_small st arr
    | string s =>
      simp only
      split_ifs with hsmall
      · refine .rounds (by rw [hexec, hv]; rfl) (.one p _ _ (.string s)) ?_ ?_
        · rw [ushort_small hsmall]
          exact makes_string s
        · rwa [List.length_map]
      · exact .undefined

theorem starts_mapping {r : opcode_1} {p2 : place} (hl : decide (l.v = .F_GLOBAL_LVALUE) = g)
    (hr : decide (r.v = .F_GLOBAL_LVALUE) = g) (hp : p = place_of offset g (uchar l.l))
    (hp2 : p2 = place_of offset g (uchar r.l)) (expr0 : store → svalue_t) (st : store)
    (stack : List slot) :
    Starts lim offset fuel (i_generate_foreach expr0 l (some r)) st stack
      (in_place.of_mapping lim (expr0 st) st p p2) := by
  have hflags : ∀ m, exec lim offset fuel (i_generate_foreach expr0 l (some r)) m =
      some (foreach_start lim offset expr0 (if g then 7 else 4) [uchar l.l, uchar r.l] m) := by
    intro m
    cases g
    · simp only [i_generate_foreach, of_decide_eq_false hl, of_decide_eq_false hr, if_false]
      rfl
    · simp only [i_generate_foreach, of_decide_eq_true hl, of_decide_eq_true hr, if_true]
      rfl
  have hbit0 : (if g then 7 else 4 : Nat).testBit 0 = g := by
    cases g <;> rfl
  have hbit1 : (if g then 7 else 4 : Nat).testBit 1 = g := by
    cases g <;> rfl
  have hbit2 : (if g then 7 else 4 : Nat).testBit 2 = true := by
    cases g <;> rfl
  have hexec := hflags ⟨st, stack⟩
  unfold foreach_start at hexec
  simp only [hbit0, hbit1, hbit2, if_true, ← hp, ← hp2] at hexec
  unfold in_place.of_mapping
  cases hv : expr0 st with
  | number n | string s | array arr | other q => exact .raised (by rw [hexec, hv])
  | mapping map =>
    rw [hv] at hexec
    simp only [List.length_map] at hexec
    simp only
    split_ifs at hexec ⊢ with hlarge
    · exact .raised hexec
    · have hsmall : (st.nodes map).length ≤ USHRT_MAX := by
        have := lim.small
        omega
      have hmakes := @makes_mapping st p2 p map ((st.nodes map).map Prod.fst)
        (st.nodes map).length 0 (by rw [Nat.zero_add, List.length_map])
      rw [List.drop_zero, List.map_map] at hmakes
      rw [ushort_small hsmall] at hexec
      refine .rounds hexec (.two p2 p _ _ _ (.mapping map)) hmakes ?_
      rwa [List.length_map]

theorem starts_two {var2 : defined_name} {r : opcode_1} (hl : foreach_var var = some l)
    (hr : foreach_var var2 = some r) (expr0 : store → svalue_t) (st : store) (stack : List slot) :
    Starts lim offset fuel (i_generate_foreach expr0 l (some r)) st stack
      (in_place lim offset var (some var2) (expr0 st) st) := by
  unfold in_place
  simp only [map_some]
  rcases hvar : named offset var with _ | p
  · exact .undefined
  rcases hvar2 : named offset var2 with _ | p2
  · cases p <;> exact .undefined
  have hp := named_place hl hvar
  have hp2 := named_place hr hvar2
  cases p <;> cases p2
  · exact starts_mapping rfl ((place_of_fp hp2).trans (place_of_fp hp).symm) hp
      (by rw [place_of_fp hp, ← place_of_fp hp2]; exact hp2) expr0 st stack
  · exact .undefined
  · exact .undefined
  · exact starts_mapping rfl ((place_of_find_value hp2).trans (place_of_find_value hp).symm) hp
      (by rw [place_of_find_value hp, ← place_of_find_value hp2]; exact hp2) expr0 st stack

/-- The slots of the loops around a statement, and the context that the parser has for it. -/
structure Within (loops : List (List slot)) (ctx : context) : Prop where
  slots : ∀ g ∈ loops, Slots g
  foreach : ctx = .LOOP_FOREACH → loops ≠ []

theorem Within.inner (h : Within loops ctx) {g : List slot} (hg : Slots g) :
    Within (g :: loops) .LOOP_FOREACH where
  slots := List.forall_mem_cons.mpr ⟨hg, h.slots⟩
  foreach := fun _ => List.cons_ne_nil g loops

theorem Within.plain {loops : List (List slot)} {ctx : context} (h : Within loops ctx) :
    Within loops .LOOP_CONTEXT where
  slots := h.slots
  foreach := fun hctx => by cases hctx

theorem foreach_agrees {plans : defined_name → Option defined_name → svalue_t → store → plan}
    {var2 : Option defined_name} {expr0 : store → svalue_t} {s : statement} {i block : instruction}
    {stack : List slot} {st : store}
    (hplans : ∀ var var2 v st sets, plans var var2 v st = .rounds sets → Harmless sets)
    (hstarts : Starts lim offset fuel i st (loops.flatten ++ stack)
      (plans var var2 (expr0 st) st))
    (hblock : ∀ g st, Slots g → Agrees (g :: loops) stack .LOOP_FOREACH (run plans fuel s st)
      (exec lim offset fuel block ⟨st, (g :: loops).flatten ++ stack⟩)) :
    Agrees loops stack ctx (run plans fuel (.foreach var var2 expr0 s) st)
      (exec lim offset fuel (.seq i (.F_NEXT_FOREACH block)) ⟨st, loops.flatten ++ stack⟩) := by
  unfold run exec
  cases hplan : plans var var2 (expr0 st) st with
  | rounds sets =>
    rw [hplan] at hstarts
    cases hstarts with
    | rounds hexec hslots hmakes hfew =>
      rw [hexec]
      refine foreach_rounds_agree hblock (fun st o st' => run_sizes hplans s) sets ?_ hmakes
        (hplans _ _ _ _ _ hplan) (SameSizes.refl st)
      exact Nat.lt_succ_of_le hfew
  | raised message =>
    rw [hplan] at hstarts
    cases hstarts with
    | raised hexec =>
      rw [hexec]
      exact ⟨_, rfl⟩
  | undefined => trivial

theorem generate_agrees (s : statement) : ∀ {ctx : context} {loops : List (List slot)}
    {stack : List slot} {i : instruction} {st : store}, generate s ctx loops.length = some i →
    Within loops ctx → Agrees loops stack ctx (run (in_place lim offset) fuel s st)
      (exec lim offset fuel i ⟨st, loops.flatten ++ stack⟩) := by
  induction s with
  | act c =>
    intro ctx loops stack i st h hin
    cases h
    rfl
  | error message =>
    intro ctx loops stack i st h hin
    cases h
    exact ⟨_, rfl⟩
  | seq s t ihs iht =>
    intro ctx loops stack i st h hin
    obtain ⟨a, ha, h⟩ := bind_eq_some_iff.mp h
    obtain ⟨b, hb, rfl⟩ := map_eq_some_iff.mp h
    have hs := @ihs ctx loops stack a st ha hin
    unfold run exec
    rcases hrun : run (in_place lim offset) fuel s st with _ | ⟨o, st1⟩
    · rw [hrun] at hs
      simp only [Agrees] at hs
      simp [hs, Agrees]
    · rw [hrun] at hs
      cases o with
      | normal =>
        simp only [Agrees] at hs
        simp only [hs]
        exact iht hb hin
      | raised message =>
        obtain ⟨stack', hstack⟩ := hs
        simp only [hstack]
        exact ⟨stack', rfl⟩
      | undefined => trivial
      | broken | continued | returned =>
        simp only [Agrees] at hs
        simp [hs, Agrees]
  | branch c s t ihs iht =>
    intro ctx loops stack i st h hin
    obtain ⟨a, ha, h⟩ := bind_eq_some_iff.mp h
    obtain ⟨b, hb, rfl⟩ := map_eq_some_iff.mp h
    unfold run exec
    simp only
    split_ifs
    · exact ihs ha hin
    · exact iht hb hin
  | while_ c s ih =>
    intro ctx loops stack i st h hin
    obtain ⟨a, ha, rfl⟩ := map_eq_some_iff.mp h
    unfold run exec
    exact rounds_agree (fun st => ih ha hin.plain) fuel
  | foreach var var2 expr0 s ih =>
    intro ctx loops stack i st h hin
    cases var2 with
    | none =>
      obtain ⟨l, hl, h⟩ := bind_eq_some_iff.mp h
      obtain ⟨block, hblock, rfl⟩ := map_eq_some_iff.mp h
      exact foreach_agrees (in_place_harmless lim offset) (starts_one hl expr0 st _)
        fun g st hg => ih hblock (hin.inner hg)
    | some var2 =>
      obtain ⟨l, hl, h⟩ := bind_eq_some_iff.mp h
      obtain ⟨r, hr, h⟩ := bind_eq_some_iff.mp h
      obtain ⟨block, hblock, rfl⟩ := map_eq_some_iff.mp h
      exact foreach_agrees (in_place_harmless lim offset) (starts_two hl hr expr0 st _)
        fun g st hg => ih hblock (hin.inner hg)
  | break_ =>
    intro ctx loops stack i st h hin
    cases ctx with
    | none => cases h
    | LOOP_CONTEXT =>
      cases h
      rfl
    | LOOP_FOREACH =>
      cases h
      cases loops with
      | nil => exact absurd rfl (hin.foreach rfl)
      | cons g loops =>
        simp [exec, foreach_exit_slots (hin.slots g List.mem_cons_self), run, Agrees, after_break]
  | continue_ =>
    intro ctx loops stack i st h hin
    cases ctx with
    | none => cases h
    | LOOP_CONTEXT | LOOP_FOREACH =>
      cases h
      rfl
  | return_ =>
    intro ctx loops stack i st h hin
    cases h
    exact return_leaves loops hin.slots st stack

end code

/-- In the code of a function every `foreach` executes its block once for each place, character or
key that there is when it starts, in order, with the element assigned to the named variables before
each round. It reads an array and the values of a mapping in place, while the block may change
them. -/
theorem foreach_iterates (lim : limits) (offset fuel : Nat) (s : statement) (i : instruction)
    (st : store) (stack : List slot) (h : generate s .none 0 = some i) :
    Agrees [] stack .none (run (in_place lim offset) fuel s st)
      (exec lim offset fuel i ⟨st, stack⟩) :=
  @generate_agrees lim offset fuel s .none [] stack i st h
    ⟨fun g hg => (List.not_mem_nil hg).elim, fun hctx => by cases hctx⟩

/-! ## Where the elements of the start are not met -/

/-- One round for each element, character, or key and value of the start, whatever there may be of
them, and whatever the variables are. -/
def at_start (variable_index_offset : Nat) (var : defined_name) (var2 : Option defined_name)
    (v : svalue_t) (st : store) : plan :=
  match named variable_index_offset var, var2.map (named variable_index_offset) with
  | some p, none =>
    match v with
    | .array arr => .rounds ((st.item arr).map fun element st => st.assign p element)
    | .string s => .rounds (s.map fun c st => st.assign p (.number c))
    | _ => .raised (bad_argument "array")
  | some p, some (some p2) =>
    match v with
    | .mapping map => .rounds ((st.nodes map).map fun n st => (st.assign p n.1).assign p2 n.2)
    | _ => .raised (bad_argument "mapping")
  | _, _ => .undefined

/-- `arr[i] = v;` -/
def write_item (arr i : Nat) (v : svalue_t) : change where
  apply := fun st =>
    { st with
      arrays := st.arrays.modify arr fun item => item.set i v
      small := by
        intro item hitem
        obtain ⟨j, hj⟩ := List.mem_iff_getElem?.mp hitem
        rw [List.getElem?_modify] at hj
        obtain ⟨old, hold, rfl⟩ := map_eq_some_iff.mp hj
        have hsmall := st.small old (List.mem_of_getElem? hold)
        split
        · rwa [List.length_set]
        · exact hsmall }
  sizes := by
    intro st j
    unfold store.item
    simp only [List.getElem?_modify]
    rcases st.arrays[j]? with _ | old
    · rfl
    · simp only [getD_some]
      split
      · exact List.length_set
      · rfl

def local_x : defined_name := ⟨some 0, none⟩

def global_y : defined_name := ⟨none, some 0⟩

/-- `({ 1, 2 })`, `([ 7 : 8 ])`, and variables with 0 -/
def a_store : store where
  arrays := [[.number 1, .number 2]]
  mappings := [[(.number 7, .number 8)]]
  ob_variables := [.number 0]
  locals := [.number 0]
  small := by decide

def nothing : change := ⟨id, fun _ _ => rfl⟩

/-- `foreach (x in arr) arr[1] = 9;` -/
def changing : statement :=
  .foreach local_x none (fun _ => .array 0) (.act (write_item 0 1 (.number 9)))

/-- `foreach (x, y in map) ;` -/
def mixing : statement := .foreach local_x (some global_y) (fun _ => .mapping 0) (.act nothing)

/-- `foreach (x in text) ;` -/
def reading (text : List Nat) : statement :=
  .foreach local_x none (fun _ => .string text) (.act nothing)

def config : limits := ⟨15000, by decide⟩

def code_of (s : statement) : instruction := (generate s .none 0).getD .F_RETURN

/-- The locals and the variables of the object after the code and after the meaning. -/
def variables_of {σ : Type} (store_of : σ → store) (r : Option (outcome × σ)) :
    Option (List svalue_t × List svalue_t) :=
  r.map fun r => ((store_of r.2).locals, (store_of r.2).ob_variables)

theorem agrees_variables {r : Option (outcome × store)} {r' : Option (outcome × machine)}
    (h : Agrees [] [] .none r r') (hr : ∃ st, r = some (.normal, st)) :
    variables_of machine.store r' = variables_of id r := by
  obtain ⟨st, rfl⟩ := hr
  simp only [Agrees] at h
  rw [h]
  rfl

/-- The second round has the element that the first one has written. -/
theorem written_elements_are_read :
    variables_of machine.store (exec config 0 1 (code_of changing) ⟨a_store, []⟩) =
      some ([.number 9], [.number 0]) := by
  have h := foreach_iterates config 0 1 changing (code_of changing) a_store [] rfl
  rw [agrees_variables h ⟨_, rfl⟩]
  decide

theorem each_nothing (p : place) (c : Nat) (n : Nat) (st : store) :
    each (fun st => some (.normal, st)) ((List.replicate (n + 1) c).map fun c st =>
      st.assign p (.number c)) st = some (.normal, st.assign p (.number c)) := by
  induction n generalizing st with
  | zero => rfl
  | succ n ih =>
    rw [List.replicate_succ, List.map_cons, each]
    refine (ih _).trans ?_
    cases p with
    | fp k | find_value k => simp only [store.assign, List.set_set]

theorem reading_code {text : List Nat} (h : ushort text.length = 0) :
    exec config 0 1 (code_of (reading text)) ⟨a_store, []⟩ = some (.normal, ⟨a_store, []⟩) := by
  have hstart : foreach_start config 0 (fun _ => .string text) 0 [0] ⟨a_store, []⟩ =
      (.normal, ⟨a_store, [.lvalue (.fp 0), .counter (ushort text.length) (.lvalue_byte text),
        .value (.string text)]⟩) := rfl
  rw [h] at hstart
  have hcode : code_of (reading text) =
      .seq (.F_FOREACH (fun _ => .string text) 0 [0]) (.F_NEXT_FOREACH (.act nothing)) := rfl
  rw [hcode, exec, exec, hstart]
  rfl

theorem reading_meant (n : Nat) :
    run (at_start 0) 1 (reading (List.replicate (n + 1) 97)) a_store =
      some (.normal, a_store.assign (.fp 0) (.number 97)) :=
  each_nothing (.fp 0) 97 n a_store

theorem reading_disagrees {n : Nat} (h : ushort (n + 1) = 0) :
    ¬ Agrees [] [] .none (run (at_start 0) 1 (reading (List.replicate (n + 1) 97)) a_store)
      (exec config 0 1 (code_of (reading (List.replicate (n + 1) 97))) ⟨a_store, []⟩) := by
  intro hagrees
  have hsame := agrees_variables hagrees ⟨_, reading_meant n⟩
  rw [reading_code (by rw [List.length_replicate]; exact h), reading_meant] at hsame
  revert hsame
  decide

/-- The block changes an element that is still to come; a local and a global variable are taken for
each other; the count of a string with 65536 characters is cut off. -/
theorem the_start_is_not_met :
    ¬ Agrees [] [] .none (run (at_start 0) 1 changing a_store)
        (exec config 0 1 (code_of changing) ⟨a_store, []⟩) ∧
      ¬ Agrees [] [] .none (run (at_start 0) 1 mixing a_store)
        (exec config 0 1 (code_of mixing) ⟨a_store, []⟩) ∧
      ¬ Agrees [] [] .none (run (at_start 0) 1 (reading (List.replicate (65535 + 1) 97)) a_store)
        (exec config 0 1 (code_of (reading (List.replicate (65535 + 1) 97))) ⟨a_store, []⟩) := by
  refine ⟨?_, ?_, reading_disagrees rfl⟩
  · intro h
    have hsame := agrees_variables h ⟨_, rfl⟩
    revert hsame
    decide
  · intro h
    have hsame := agrees_variables h ⟨_, rfl⟩
    revert hsame
    decide

end mudos.foreach_loop

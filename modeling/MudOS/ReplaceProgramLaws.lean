-- What `replace_program` keeps: the variables of the new program, every way in
-- by its own indices, and the lists of shadows. No function pointer is made
-- inert, so one that holds an index of the old program may lead elsewhere.
import MudOS.ReplaceProgram

open mudos.runs mudos.program Function List Option

namespace mudos.replace_program

variable {a ob : Nat} {e : replace_ob_t} {o : object_t} {list : List replace_ob_t}
  {objects : Nat → Option object_t} {s s' : driver}

variable {slot b simul_efun_ob : Nat} {path : List Nat} {f : object_t → object_t} {o' : object_t}

/-! ## The variables -/

theorem move_up_loop (offset : Nat) (ho : offset ≠ 0) (v : Nat → svalue_t) (n : Nat) :
    (range n).foldl (move_up offset) (v, []) =
      (fun j =>
        if j < n then v (j + offset)
        else if offset ≤ j ∧ j < offset + n then .const0u else v j,
      (range n).map fun i => if i < offset then v i else .const0u) := by
  induction n with
  | zero =>
    simp only [range_zero, foldl_nil, map_nil, Prod.mk.injEq, and_true]
    funext j
    grind
  | succ n ih =>
    rw [range_succ, foldl_append, ih]
    simp only [foldl_cons, foldl_nil, move_up, map_append, map_cons,
      map_nil, Prod.mk.injEq]
    refine ⟨?_, ?_⟩
    · funext j
      simp only [update_apply]
      grind
    · simp only [Nat.lt_irrefl, if_false]
      congr 2
      grind

theorem free_loop (m : moved_t) (first n : Nat) :
    (range' first n).foldl free_one m =
      (fun j => if first ≤ j ∧ j < first + n then .const0u else m.1 j,
      m.2 ++ (range' first n).map m.1) := by
  induction n with
  | zero =>
    refine Prod.ext ?_ ?_
    · funext j
      simp only [range'_zero, foldl_nil]
      rw [if_neg (by omega)]
    · simp
  | succ n ih =>
    rw [range'_1_concat, foldl_append, ih]
    simp only [foldl_cons, foldl_nil, free_one, map_append, map_cons,
      map_nil, Prod.mk.injEq]
    refine ⟨?_, ?_⟩
    · funext j
      simp only [update_apply]
      grind
    · simp

theorem replace_variables_block (num num_fewer offset : Nat) (v : Nat → svalue_t) {k : Nat}
    (h : k < num) : (replace_variables num num_fewer offset v).1 k = v (offset + k) := by
  unfold replace_variables
  dsimp only
  rw [free_loop]
  split_ifs with ho
  · rw [move_up_loop offset ho]
    dsimp only
    rw [if_neg (by omega), if_pos h, Nat.add_comm]
  · have : offset = 0 := by simpa using ho
    dsimp only
    rw [if_neg (by omega), this, Nat.zero_add]

def others (num num_fewer offset : Nat) : List Nat :=
  range' 0 offset ++ range' (offset + num) (num_fewer - offset)

theorem filter_map_zero (l : List Nat) (f : Nat → svalue_t) (h : ∀ j ∈ l, f j = .const0u) :
    (l.map f).filter (· ≠ .const0u) = [] := by
  apply filter_eq_nil_iff.mpr
  intro x hx
  obtain ⟨j, hj, rfl⟩ := mem_map.mp hx
  simp [h j hj]

theorem replace_variables_freed (num num_fewer offset : Nat) (v : Nat → svalue_t)
    (h : offset ≤ num_fewer) :
    (replace_variables num num_fewer offset v).2.filter (· ≠ .const0u) =
      ((others num num_fewer offset).map v).filter (· ≠ .const0u) := by
  unfold replace_variables others
  dsimp only
  rw [free_loop]
  split_ifs with ho
  · rw [move_up_loop offset ho]
    dsimp only
    have hall : (range num).map (fun i => if i < offset then v i else svalue_t.const0u) ++
        (range' num num_fewer).map (fun j =>
          if j < num then v (j + offset)
          else if offset ≤ j ∧ j < offset + num then svalue_t.const0u else v j) =
        (range' 0 offset ++ (range' offset num ++
          range' (offset + num) (num_fewer - offset))).map (fun j =>
            if offset ≤ j ∧ j < offset + num then svalue_t.const0u else v j) := by
      have happ : range' 0 offset ++ (range' offset num ++
          range' (offset + num) (num_fewer - offset)) =
          range num ++ range' num num_fewer := by
        rw [range_eq_range']
        have h1 := @range'_append_1 0 offset (num + (num_fewer - offset))
        have h2 := @range'_append_1 offset num (num_fewer - offset)
        have h3 := @range'_append_1 0 num num_fewer
        simp only [Nat.zero_add] at h1 h3
        rw [h2, h1, h3]
        congr 1
        omega
      rw [happ, map_append]
      congr 1
      · apply map_congr_left
        intro i hi
        have := mem_range.mp hi
        grind
      · apply map_congr_left
        intro i hi
        have := mem_range'_1.mp hi
        grind
    rw [hall]
    simp only [map_append, filter_append]
    rw [filter_map_zero (range' offset num), nil_append]
    · congr 2
      · apply map_congr_left
        intro i hi
        have := mem_range'_1.mp hi
        grind
      · apply map_congr_left
        intro i hi
        have := mem_range'_1.mp hi
        grind
    · intro j hj
      have := mem_range'_1.mp hj
      grind
  · have : offset = 0 := by simpa using ho
    simp [this]

variable (headers : Nat → header_t)

/-! ## The place of an inherited program -/

/-- An inherited program, and where its functions and variables are. -/
structure place_t where
  addr : Nat
  prog : program_t
  fio : Nat
  vio : Nat

def at_path (addr : Nat) (prog : program_t) : List Nat → Option place_t
  | [] => some ⟨addr, prog, 0, 0⟩
  | slot :: path =>
    prog.inherit[slot]?.bind fun e =>
      (at_path e.1 e.2.1 path).map fun r =>
        { r with
          fio := r.fio + e.2.2.1
          vio := r.vio + e.2.2.2 }

variable {r : place_t}

theorem at_path_cons {addr : Nat} {prog : program_t} {e : Nat × program_t × Nat × Nat}
    (he : prog.inherit[slot]? = some e) (hr : at_path e.1 e.2.1 path = some r) :
    at_path addr prog (slot :: path) =
      some { r with
        fio := r.fio + e.2.2.1
        vio := r.vio + e.2.2.2 } := by simp [at_path, he, hr]

mutual

theorem search_inherited_at (str : List Char) (addr : Nat) :
    ∀ (prog : program_t) (tmp : Nat × program_t) (offset : Nat),
      search_inherited headers str prog = some (tmp, offset) →
        (headers tmp.1).name = str ∧
          ∃ path fio, at_path addr prog path = some ⟨tmp.1, tmp.2, fio, offset⟩
  | .mk id functions flags offsets inherit, tmp, offset, h => by
    rw [search_inherited] at h
    obtain ⟨hname, slot, path, e, fio, vio, he, hr, hv⟩ := search_inherits_at str inherit tmp offset h
    refine ⟨hname, slot :: path, fio + e.2.2.1, ?_⟩
    rw [at_path_cons (by exact he) hr, hv]

theorem search_inherits_at (str : List Char) :
    ∀ (inherit : List (Nat × program_t × Nat × Nat)) (tmp : Nat × program_t) (offset : Nat),
      search_inherits headers str inherit = some (tmp, offset) →
        (headers tmp.1).name = str ∧
          ∃ (slot : Nat) (path : List Nat) (e : Nat × program_t × Nat × Nat) (fio vio : Nat),
          inherit[slot]? = some e ∧ at_path e.1 e.2.1 path = some ⟨tmp.1, tmp.2, fio, vio⟩ ∧ offset = vio + e.2.2.2
  | [], _, _, h => by simp [search_inherits] at h
  | (addr, prog, fio, vio) :: inherit, tmp, offset, h => by
    rw [search_inherits] at h
    split_ifs at h with hname
    · cases h
      exact ⟨hname.symm, 0, [], (addr, prog, fio, vio), 0, 0, rfl, rfl, by simp⟩
    · split at h
      · rename_i tmp' offset' hs
        cases h
        obtain ⟨hn, path, fio', hp⟩ := search_inherited_at str addr prog tmp offset' hs
        exact ⟨hn, 0, path, (addr, prog, fio, vio), fio', offset', rfl, hp, rfl⟩
      · obtain ⟨hn, slot, rest⟩ := search_inherits_at str inherit tmp offset h
        exact ⟨hn, slot + 1, rest⟩

end

theorem laid_out_from_le {total first : Nat} {inherit : List (Nat × program_t × Nat × Nat)}
    (h : laid_out_from headers total first inherit = true) : first ≤ total := by
  induction inherit generalizing first with
  | nil => simpa [laid_out_from] using h
  | cons e inherit ih =>
    simp only [laid_out_from, Bool.and_eq_true] at h
    have := ih h.2
    omega

theorem laid_out_slot {total first : Nat} {inherit : List (Nat × program_t × Nat × Nat)}
    (h : laid_out_from headers total first inherit = true) {e : Nat × program_t × Nat × Nat}
    (he : inherit[slot]? = some e) :
    laid_out headers e.1 e.2.1 = true ∧ e.2.2.2 + (headers e.1).num_variables_total ≤ total := by
  induction inherit generalizing first slot with
  | nil => simp at he
  | cons e' inherit ih =>
    obtain ⟨addr, prog, fio, vio⟩ := e'
    simp only [laid_out_from, Bool.and_eq_true, decide_eq_true_eq] at h
    cases slot with
    | zero =>
      obtain rfl : (addr, prog, fio, vio) = e := by simpa using he
      refine ⟨h.1.2, ?_⟩
      have := laid_out_from_le headers h.2
      simpa [h.1.1] using this
    | succ slot => exact ih h.2 (by simpa using he)

theorem laid_out_inherit {addr : Nat} {prog : program_t} (h : laid_out headers addr prog = true)
    {e : Nat × program_t × Nat × Nat} (he : prog.inherit[slot]? = some e) :
    laid_out headers e.1 e.2.1 = true ∧
      e.2.2.2 + (headers e.1).num_variables_total ≤ (headers addr).num_variables_total := by
  obtain ⟨id, functions, flags, offsets, inherit⟩ := prog
  rw [laid_out] at h
  exact laid_out_slot headers h he

theorem laid_out_at {addr : Nat} {prog : program_t} (h : laid_out headers addr prog = true)
    (hr : at_path addr prog path = some r) :
    laid_out headers r.addr r.prog = true ∧
      r.vio + (headers r.addr).num_variables_total ≤ (headers addr).num_variables_total := by
  induction path generalizing addr prog r with
  | nil =>
    obtain rfl : (⟨addr, prog, 0, 0⟩ : place_t) = r := by simpa [at_path] using hr
    exact ⟨h, by simp⟩
  | cons slot path ih =>
    rw [at_path, bind_eq_some_iff] at hr
    obtain ⟨e, he, hr⟩ := hr
    obtain ⟨q, hq, rfl⟩ := map_eq_some_iff.mp hr
    obtain ⟨hl, hle⟩ := laid_out_inherit headers h he
    obtain ⟨hl', hle'⟩ := ih hl hq
    exact ⟨hl', by dsimp only; omega⟩

/-! ## The functions -/

mutual

theorem setup_new_frame_at (addr : Nat) : ∀ (prog : program_t) (index : Nat) (r : found_t),
    setup_new_frame addr prog index = some r →
      ∃ path, at_path addr prog path = some ⟨r.addr, r.prog, r.fio, r.vio⟩
  | .mk id functions flags offsets inherit, index, r, h => by
    rw [setup_new_frame] at h
    split at h
    · split_ifs at h
      obtain ⟨slot, e, path, q, he, hq, rfl⟩ := frame_in_inherit_at inherit _ _ r h
      exact ⟨slot :: path, at_path_cons (by exact he) hq⟩
    · split_ifs at h
      cases h
      exact ⟨[], rfl⟩
    · cases h

theorem frame_in_inherit_at :
    ∀ (inherit : List (Nat × program_t × Nat × Nat)) (offset index : Nat) (r : found_t),
      frame_in_inherit inherit offset index = some r →
        ∃ (slot : Nat) (e : Nat × program_t × Nat × Nat) (path : List Nat) (q : found_t),
          inherit[slot]? = some e ∧
          at_path e.1 e.2.1 path = some ⟨q.addr, q.prog, q.fio, q.vio⟩ ∧
          { q with
            fio := q.fio + e.2.2.1
            vio := q.vio + e.2.2.2 } = r
  | [], _, _, _, h => by simp [frame_in_inherit] at h
  | (addr, prog, fio, vio) :: inherit, 0, index, r, h => by
    rw [frame_in_inherit] at h
    obtain ⟨q, hq, rfl⟩ := map_eq_some_iff.mp h
    obtain ⟨path, hp⟩ := setup_new_frame_at addr prog index q hq
    exact ⟨0, (addr, prog, fio, vio), path, q, rfl, hp, rfl⟩
  | _ :: inherit, offset + 1, index, r, h => by
    rw [frame_in_inherit] at h
    obtain ⟨slot, rest⟩ := frame_in_inherit_at inherit offset index r h
    exact ⟨slot + 1, rest⟩

end

/-- No program on the way to the inherited one has a function of its own, or of another
program, instead of the one at the index. -/
def not_overloaded (prog : program_t) : List Nat → Nat → Prop
  | [], _ => True
  | slot :: path, index =>
    ∃ (e : Nat × program_t × Nat × Nat) (r : place_t) (flags : compiler.name_flags),
      prog.inherit[slot]? = some e ∧ at_path e.1 e.2.1 path = some r ∧
      prog.function_flags[r.fio + index + e.2.2.1]? = some flags ∧ flags.INHERITED = true ∧
      prog.function_offsets[r.fio + index + e.2.2.1]? = some (.inh slot (r.fio + index)) ∧
      not_overloaded e.2.1 path index

theorem setup_new_frame_path {addr : Nat} {prog : program_t} {index : Nat}
    (hr : at_path addr prog path = some r) (h : not_overloaded prog path index) :
    setup_new_frame addr prog (r.fio + index) =
      (setup_new_frame r.addr r.prog index).map fun f =>
        { f with
          fio := f.fio + r.fio
          vio := f.vio + r.vio } := by
  induction path generalizing addr prog r with
  | nil =>
    obtain rfl : (⟨addr, prog, 0, 0⟩ : place_t) = r := by simpa [at_path] using hr
    simp
  | cons slot path ih =>
    obtain ⟨e, q, flags, he, hq, hf, hinh, ho, hrest⟩ := h
    obtain rfl : { q with fio := q.fio + e.2.2.1, vio := q.vio + e.2.2.2 } = r := by
      simpa [at_path, he, hq] using hr
    obtain ⟨id, functions, function_flags, function_offsets, inherit⟩ := prog
    have hi : q.fio + e.2.2.1 + index = q.fio + index + e.2.2.1 := by omega
    simp only [program_t.function_flags, program_t.function_offsets, program_t.inherit] at hf ho he
    simp only [hi]
    rw [setup_new_frame, hf, ho]
    simp only [hinh, if_true]
    rw [frame_in_inherit_slot, he, bind_some, ih hq hrest, Option.map_map]
    congr 1
    funext f
    simp [Nat.add_assoc]

/-! ## The objects -/

def core (o : object_t) : (Nat × program_t) × (Nat → svalue_t) × Bool :=
  (o.prog, o.vars, o.O_DESTRUCTED)

theorem set_object_self (objects : Nat → Option object_t) (a : Nat) (f : object_t → object_t) :
    set_object objects a f a = (objects a).map f := by simp [set_object]

theorem set_object_ne (objects : Nat → Option object_t) (f : object_t → object_t) (h : a ≠ b) :
    set_object objects b f a = objects a := by simp [set_object, h]

theorem set_object_core (objects : Nat → Option object_t) (a b : Nat)
    (hf : ∀ o, core (f o) = core o) :
    (set_object objects b f a).map core = (objects a).map core := by
  unfold set_object
  split_ifs
  · rw [Option.map_map]
    congr 1
    funext o
    exact hf o
  · rfl

theorem set_shadowed_core (ob : Nat) (p : Option Nat) (objects : Nat → Option object_t) (a : Nat) :
    (set_shadowed ob p objects a).map core = (objects a).map core :=
  set_object_core objects a ob fun _ => rfl

theorem set_shadowing_core (ob : Nat) (p : Option Nat) (objects : Nat → Option object_t) (a : Nat) :
    (set_shadowing ob p objects a).map core = (objects a).map core :=
  set_object_core objects a ob fun _ => rfl

theorem unlink_core (ob : Nat) (o : object_t) (objects : Nat → Option object_t) (a : Nat) :
    (unlink ob o objects a).map core = (objects a).map core := by
  unfold unlink
  rw [set_shadowing_core, set_shadowed_core]
  rcases o.shadowed with _ | above <;> rcases o.shadowing with _ | below <;>
    simp [set_shadowed_core, set_shadowing_core]

theorem stop_shadowing_core (ob : Nat) (objects : Nat → Option object_t) (a : Nat) :
    (stop_shadowing ob objects a).map core = (objects a).map core := by
  unfold stop_shadowing
  rcases objects ob with _ | o
  · rfl
  · dsimp only
    split_ifs
    · exact unlink_core ob o objects a
    · rfl

theorem replaced_core (h : core o = core o') :
    core (replaced headers e o) = core (replaced headers e o') ∧
      freed headers e o = freed headers e o' := by
  simp only [core, Prod.mk.injEq] at h
  obtain ⟨hp, hv, hd⟩ := h
  simp [core, replaced, freed, hp, hv, hd]

theorem replace_programs_other (list : List replace_ob_t) (objects : Nat → Option object_t)
    (h : a ∉ list.map replace_ob_t.ob) :
    ((replace_programs headers list objects).1 a).map core = (objects a).map core := by
  induction list generalizing objects with
  | nil => rfl
  | cons r_ob r_next ih =>
    simp only [map_cons, mem_cons, not_or] at h
    rw [replace_programs, ih _ h.2, stop_shadowing_core, set_object_ne _ _ h.1]

theorem replace_programs_entry (hnd : (list.map replace_ob_t.ob).Nodup)
    (objects : Nat → Option object_t) {k : Nat} (hk : list[k]? = some e)
    (ho : objects e.ob = some o) :
    ((replace_programs headers list objects).1 e.ob).map core =
        some (core (replaced headers e o)) ∧
      (replace_programs headers list objects).2[k]? = some (freed headers e o) := by
  induction list generalizing objects k o with
  | nil => simp at hk
  | cons r_ob r_next ih =>
    simp only [map_cons, nodup_cons] at hnd
    rw [replace_programs]
    cases k with
    | zero =>
      obtain rfl : r_ob = e := by simpa using hk
      refine ⟨?_, by simp [ho]⟩
      rw [replace_programs_other headers _ _ hnd.1, stop_shadowing_core, set_object_self, ho]
      rfl
    | succ k =>
      have hk' : r_next[k]? = some e := by simpa using hk
      have hne : e.ob ≠ r_ob.ob := by
        intro heq
        exact hnd.1 (heq ▸ mem_map_of_mem (mem_of_getElem? hk'))
      have hcore : (stop_shadowing r_ob.ob
          (set_object objects r_ob.ob (replaced headers r_ob)) e.ob).map core = some (core o) := by
        rw [stop_shadowing_core, set_object_ne _ _ hne, ho]
        rfl
      obtain ⟨o', ho', hoc⟩ := map_eq_some_iff.mp hcore
      obtain ⟨hc, hf⟩ := replaced_core headers (e := e) hoc
      obtain ⟨h1, h2⟩ := ih hnd.2 _ hk' ho'
      exact ⟨by rw [h1, hc], by rw [getElem?_cons_succ, h2, hf]⟩

/-! ## The lists of shadows -/

def shadowing_of (objects : Nat → Option object_t) (a : Nat) : Option Nat :=
  (objects a).bind object_t.shadowing

def shadowed_of (objects : Nat → Option object_t) (a : Nat) : Option Nat :=
  (objects a).bind object_t.shadowed

def Linked (objects : Nat → Option object_t) : Prop :=
  ∀ a b, shadowing_of objects a = some b ↔ shadowed_of objects b = some a

theorem shadowing_of_set_shadowing (objects : Nat → Option object_t) (a b : Nat) (p : Option Nat) :
    shadowing_of (set_shadowing b p objects) a =
      if a = b ∧ (objects b).isSome then p else shadowing_of objects a := by
  unfold shadowing_of set_shadowing set_object
  by_cases h : a = b
  · subst h
    rcases objects a with _ | o <;> simp
  · simp [h]

theorem shadowed_of_set_shadowing (objects : Nat → Option object_t) (a b : Nat) (p : Option Nat) :
    shadowed_of (set_shadowing b p objects) a = shadowed_of objects a := by
  unfold shadowed_of set_shadowing set_object
  by_cases h : a = b
  · subst h
    rcases objects a with _ | o <;> simp
  · simp [h]

theorem shadowed_of_set_shadowed (objects : Nat → Option object_t) (a b : Nat) (p : Option Nat) :
    shadowed_of (set_shadowed b p objects) a =
      if a = b ∧ (objects b).isSome then p else shadowed_of objects a := by
  unfold shadowed_of set_shadowed set_object
  by_cases h : a = b
  · subst h
    rcases objects a with _ | o <;> simp
  · simp [h]

theorem shadowing_of_set_shadowed (objects : Nat → Option object_t) (a b : Nat) (p : Option Nat) :
    shadowing_of (set_shadowed b p objects) a = shadowing_of objects a := by
  unfold shadowing_of set_shadowed set_object
  by_cases h : a = b
  · subst h
    rcases objects a with _ | o <;> simp
  · simp [h]

theorem isSome_set_shadowing (objects : Nat → Option object_t) (a b : Nat) (p : Option Nat) :
    (set_shadowing b p objects a).isSome = (objects a).isSome := by
  unfold set_shadowing set_object
  split_ifs <;> simp

theorem isSome_set_shadowed (objects : Nat → Option object_t) (a b : Nat) (p : Option Nat) :
    (set_shadowed b p objects a).isSome = (objects a).isSome := by
  unfold set_shadowed set_object
  split_ifs <;> simp

theorem isSome_of_shadowed (h : shadowed_of objects a = some b) : (objects a).isSome := by
  rcases ho : objects a with _ | o
  · simp [shadowed_of, ho] at h
  · rfl

theorem isSome_of_shadowing (h : shadowing_of objects a = some b) : (objects a).isSome := by
  rcases ho : objects a with _ | o
  · simp [shadowing_of, ho] at h
  · rfl

theorem links_unlink (ho : objects ob = some o) (hl : Linked objects) (a : Nat) :
    shadowing_of (unlink ob o objects) a =
        (if a = ob then none
        else if shadowed_of objects ob = some a then shadowing_of objects ob
        else shadowing_of objects a) ∧
      shadowed_of (unlink ob o objects) a =
        (if a = ob then none
        else if shadowing_of objects ob = some a then shadowed_of objects ob
        else shadowed_of objects a) := by
  have hs : shadowing_of objects ob = o.shadowing := by simp [shadowing_of, ho]
  have hd : shadowed_of objects ob = o.shadowed := by simp [shadowed_of, ho]
  have hbelow : ∀ b, o.shadowing = some b → (objects b).isSome := fun b hb =>
    isSome_of_shadowed ((hl ob b).mp (hs.trans hb))
  have habove : ∀ b, o.shadowed = some b → (objects b).isSome := fun b hb =>
    isSome_of_shadowing ((hl b ob).mpr (hd.trans hb))
  unfold unlink
  rw [hs, hd]
  rcases hsh : o.shadowing with _ | below <;> rcases hsd : o.shadowed with _ | above <;>
    simp only [shadowing_of_set_shadowing, shadowing_of_set_shadowed, shadowed_of_set_shadowing,
      shadowed_of_set_shadowed, isSome_set_shadowing, isSome_set_shadowed] <;>
    grind

theorem linked_unlink (ho : objects ob = some o) (hl : Linked objects) :
    Linked (unlink ob o objects) := by
  intro a b
  rw [(links_unlink ho hl a).1, (links_unlink ho hl b).2]
  have h1 := hl a b
  have h2 := hl a ob
  have h3 := hl ob b
  grind

theorem linked_stop_shadowing (ob : Nat) (hl : Linked objects) :
    Linked (stop_shadowing ob objects) := by
  unfold stop_shadowing
  rcases ho : objects ob with _ | o
  · exact hl
  · dsimp only
    split_ifs
    · exact linked_unlink ho hl
    · exact hl

theorem linked_set_object (addr : Nat) (hs : ∀ o, (f o).shadowing = o.shadowing)
    (hd : ∀ o, (f o).shadowed = o.shadowed) (hl : Linked objects) :
    Linked (set_object objects addr f) := by
  have hs' : ∀ a, shadowing_of (set_object objects addr f) a = shadowing_of objects a := by
    intro a
    unfold shadowing_of set_object
    split_ifs <;> rcases objects a with _ | o <;> simp [hs]
  have hd' : ∀ a, shadowed_of (set_object objects addr f) a = shadowed_of objects a := by
    intro a
    unfold shadowed_of set_object
    split_ifs <;> rcases objects a with _ | o <;> simp [hd]
  intro a b
  rw [hs', hd']
  exact hl a b

theorem linked_replace_programs (list : List replace_ob_t) (hl : Linked objects) :
    Linked (replace_programs headers list objects).1 := by
  induction list generalizing objects with
  | nil => exact hl
  | cons r_ob r_next ih =>
    rw [replace_programs]
    apply ih
    apply linked_stop_shadowing
    exact linked_set_object _ (fun _ => rfl) (fun _ => rfl) hl

/-! ## The requests -/

theorem set_entry_some {entry : replace_ob_t} {list' : List replace_ob_t}
    (h : set_entry entry list = some list') :
    list'.map replace_ob_t.ob = list.map replace_ob_t.ob ∧
      ∀ e ∈ list', e = entry ∨ e ∈ list := by
  induction list generalizing list' with
  | nil => simp [set_entry] at h
  | cons r_ob rest ih =>
    rw [set_entry] at h
    split_ifs at h with hob
    · cases h
      simp [hob]
      tauto
    · obtain ⟨rest', hr, rfl⟩ := map_eq_some_iff.mp h
      obtain ⟨hm, he⟩ := ih hr
      refine ⟨by simp [hm], fun e hmem => ?_⟩
      rcases mem_cons.mp hmem with rfl | hmem
      · exact .inr (by simp)
      · rcases he e hmem with rfl | hin
        · exact .inl rfl
        · exact .inr (mem_cons_of_mem _ hin)

theorem set_entry_none {entry : replace_ob_t} (h : set_entry entry list = none) :
    entry.ob ∉ list.map replace_ob_t.ob := by
  induction list with
  | nil => simp
  | cons r_ob rest ih =>
    rw [set_entry] at h
    split_ifs at h with hob
    simp only [map_eq_none_iff] at h
    simp only [map_cons, mem_cons, not_or]
    exact ⟨fun heq => hob heq.symm, ih h⟩

theorem add_entry_laws (entry : replace_ob_t) (h : (list.map replace_ob_t.ob).Nodup) :
    ((add_entry entry list).map replace_ob_t.ob).Nodup ∧
      ∀ e ∈ add_entry entry list, e = entry ∨ e ∈ list := by
  unfold add_entry
  rcases hs : set_entry entry list with _ | list'
  · simp only [getD_none, map_cons, nodup_cons, mem_cons, imp_self,
      implies_true, and_true]
    exact ⟨set_entry_none hs, h⟩
  · obtain ⟨hm, he⟩ := set_entry_some hs
    simp only [getD_some]
    exact ⟨hm ▸ h, he⟩

/-! ## What holds in every run -/

/-- The program of an entry is one that the program of the object inherits. -/
def Requested (o : object_t) (e : replace_ob_t) : Prop :=
  ∃ str, search_inherited headers str o.prog.2 = some (e.new_prog, e.var_offset)

structure Sound (s : driver) : Prop where
  laid : ∀ ob o, s.objects ob = some o → laid_out headers o.prog.1 o.prog.2 = true
  once : (s.obj_list_replace.map replace_ob_t.ob).Nodup
  requested : ∀ e ∈ s.obj_list_replace, ∃ o, s.objects e.ob = some o ∧ Requested headers o e
  linked : Linked s.objects

theorem Sound.of_programs (h : Sound headers s)
    (hp : ∀ a, (objects a).map object_t.prog = (s.objects a).map object_t.prog)
    (hl : Linked objects) : Sound headers { s with objects := objects } := by
  refine ⟨fun ob o ho => ?_, h.once, fun e he => ?_, hl⟩
  · have hp := hp ob
    rw [show objects ob = some o from ho, map_some] at hp
    obtain ⟨o', ho', hpo⟩ := map_eq_some_iff.mp hp.symm
    rw [← hpo]
    exact h.laid ob o' ho'
  · obtain ⟨o, ho, str, hs⟩ := h.requested e he
    have hp := hp e.ob
    rw [ho, map_some] at hp
    obtain ⟨o', ho', hpo⟩ := map_eq_some_iff.mp hp
    exact ⟨o', ho', str, by rw [hpo]; exact hs⟩

theorem Sound.congr (h : Sound headers s) (ho : s'.objects = s.objects)
    (hl : s'.obj_list_replace = s.obj_list_replace) : Sound headers s' := by
  refine ⟨?_, ?_, ?_, ?_⟩
  · rw [ho]
    exact h.laid
  · rw [hl]
    exact h.once
  · rw [ho, hl]
    exact h.requested
  · rw [ho]
    exact h.linked

theorem sound_start : Sound headers start where
  laid := by simp [start]
  once := by simp [start]
  requested := by simp [start]
  linked := by simp [start, Linked, shadowing_of, shadowed_of]

theorem sound_add_funp (hs : Sound headers s) {fp : Nat} {f : funptr_t}
    (h : add_funp fp f s = some s') : Sound headers s' := by
  unfold add_funp at h
  split_ifs at h
  cases h
  exact hs.congr headers rfl rfl

theorem remove_funp_same (fp : Nat) (s : driver) :
    (remove_funp fp s).objects = s.objects ∧
      (remove_funp fp s).obj_list_replace = s.obj_list_replace := by
  unfold remove_funp
  split <;> exact ⟨rfl, rfl⟩

theorem sound_load (hs : Sound headers s) {addr : Nat} {prog : program_t}
    (hnone : (s.objects ob).isNone) (hlaid : laid_out headers addr prog = true) :
    Sound headers { s with
      objects := update s.objects ob
        (some ⟨(addr, prog), fun _ => .const0u, false, false, none, none⟩) } := by
  have hn : s.objects ob = none := isNone_iff_eq_none.mp hnone
  refine ⟨fun a o ho => ?_, hs.once, fun e he => ?_, ?_⟩
  · by_cases ha : a = ob
    · subst ha
      obtain rfl : _ = o := by simpa using ho
      exact hlaid
    · exact hs.laid a o (by simpa [update_apply, ha] using ho)
  · obtain ⟨o, ho, hr⟩ := hs.requested e he
    have hne : e.ob ≠ ob := fun heq => by simp [heq, hn] at ho
    exact ⟨o, by simp [hne, ho], hr⟩
  · have h1 : ∀ a, shadowing_of (update s.objects ob
        (some ⟨(addr, prog), fun _ => .const0u, false, false, none, none⟩)) a =
        shadowing_of s.objects a := by
      intro a
      by_cases ha : a = ob
      · simp [shadowing_of, ha, hn]
      · simp [shadowing_of, ha]
    have h2 : ∀ a, shadowed_of (update s.objects ob
        (some ⟨(addr, prog), fun _ => .const0u, false, false, none, none⟩)) a =
        shadowed_of s.objects a := by
      intro a
      by_cases ha : a = ob
      · simp [shadowed_of, ha, hn]
      · simp [shadowed_of, ha]
    intro a b
    rw [h1, h2]
    exact hs.linked a b

theorem sound_set_object (hs : Sound headers s) (ob : Nat) (hp : ∀ o, (f o).prog = o.prog)
    (hsh : ∀ o, (f o).shadowing = o.shadowing) (hsd : ∀ o, (f o).shadowed = o.shadowed) :
    Sound headers { s with objects := set_object s.objects ob f } := by
  apply hs.of_programs headers
  · intro a
    unfold set_object
    split_ifs
    · rw [Option.map_map]
      congr 1
      funext o
      exact hp o
    · rfl
  · exact linked_set_object ob hsh hsd hs.linked

theorem prog_of_core {objects' : Nat → Option object_t}
    (h : (objects a).map core = (objects' a).map core) :
    (objects a).map object_t.prog = (objects' a).map object_t.prog := by
  have := congrArg (Option.map Prod.fst) h
  simpa [Function.comp_def, core] using this

theorem sound_shadow (hs : Sound headers s) {current_object : Nat}
    (h : f_shadow current_object ob s = some s') : Sound headers s' := by
  unfold f_shadow at h
  rcases hc : s.objects current_object with _ | current
  · simp [hc] at h
  rcases hb : s.objects ob with _ | below
  · simp [hc, hb] at h
  simp only [hc, hb, ite_none_right_eq_some, some.injEq] at h
  obtain ⟨⟨hne, h1, h2, h3⟩, rfl⟩ := h
  apply hs.of_programs headers
  · intro a
    apply prog_of_core
    rw [set_shadowed_core, set_shadowing_core]
  · have hcur : shadowing_of s.objects current_object = none := by simp [shadowing_of, hc, h1]
    have hbel : shadowed_of s.objects ob = none := by simp [shadowed_of, hb, h3]
    intro a b
    have hl := hs.linked a b
    simp only [shadowing_of_set_shadowing, shadowing_of_set_shadowed, shadowed_of_set_shadowing,
      shadowed_of_set_shadowed, isSome_set_shadowing, hc, hb, isSome_some, and_true]
    grind

theorem sound_destruct (hs : Sound headers s) (ob : Nat) :
    Sound headers { s with objects := destruct_object ob s.objects } := by
  unfold destruct_object
  rcases ho : s.objects ob with _ | o
  · exact hs
  · have hunlinked : Sound headers { s with objects := unlink ob o s.objects } := by
      apply hs.of_programs headers
      · exact fun a => prog_of_core (unlink_core ob o s.objects a)
      · exact linked_unlink ho hs.linked
    exact sound_set_object headers hunlinked ob (fun _ => rfl) (fun _ => rfl) (fun _ => rfl)

theorem sound_request (hs : Sound headers s) {current_object : Nat} {str : List Char}
    (h : f_replace_program headers simul_efun_ob current_object str s = .ok s') :
    Sound headers s' := by
  unfold f_replace_program at h
  rcases ho : s.objects current_object with _ | ob
  · simp [ho] at h
  simp only [ho] at h
  split_ifs at h
  rcases hsearch : search_inherited headers (file_name str) ob.prog.2 with _ | ⟨new_prog, var_offset⟩
  · simp [hsearch] at h
  · simp only [hsearch, Except.ok.injEq] at h
    subst h
    obtain ⟨hnd, hmem⟩ := add_entry_laws ⟨current_object, new_prog, var_offset⟩ hs.once
    refine ⟨hs.laid, hnd, fun e he => ?_, hs.linked⟩
    rcases hmem e he with rfl | hin
    · exact ⟨ob, ho, file_name str, hsearch⟩
    · exact hs.requested e hin

theorem Requested.place (h : Requested headers o e)
    (hl : laid_out headers o.prog.1 o.prog.2 = true) :
    laid_out headers e.new_prog.1 e.new_prog.2 = true ∧
      e.var_offset + (headers e.new_prog.1).num_variables_total ≤
        (headers o.prog.1).num_variables_total ∧
      ∃ path fio, at_path o.prog.1 o.prog.2 path =
        some ⟨e.new_prog.1, e.new_prog.2, fio, e.var_offset⟩ := by
  obtain ⟨str, hs⟩ := h
  obtain ⟨-, path, fio, hp⟩ := search_inherited_at headers str o.prog.1 o.prog.2 _ _ hs
  obtain ⟨hl', hle⟩ := laid_out_at headers hl hp
  exact ⟨hl', hle, path, fio, hp⟩

theorem sound_replace_programs (hs : Sound headers s) :
    Sound headers { s with
      objects := (replace_programs headers s.obj_list_replace s.objects).1
      obj_list_replace := [] } := by
  refine ⟨fun a o ho => ?_, by simp, by simp, linked_replace_programs headers _ hs.linked⟩
  have ho : (replace_programs headers s.obj_list_replace s.objects).1 a = some o := ho
  by_cases ha : a ∈ s.obj_list_replace.map replace_ob_t.ob
  · obtain ⟨e, he, rfl⟩ := mem_map.mp ha
    obtain ⟨k, hk⟩ := mem_iff_getElem?.mp he
    obtain ⟨o', ho', hr⟩ := hs.requested e he
    have hc := (replace_programs_entry headers hs.once s.objects hk ho').1
    rw [ho, map_some, some.injEq] at hc
    have hp : o.prog = e.new_prog := congrArg Prod.fst hc
    rw [hp]
    exact (hr.place headers (hs.laid _ _ ho')).1
  · have hp := prog_of_core (replace_programs_other headers s.obj_list_replace s.objects ha)
    rw [ho, map_some] at hp
    obtain ⟨o', ho', hpo⟩ := map_eq_some_iff.mp hp.symm
    rw [← hpo]
    exact hs.laid a o' ho'

theorem sound_step {a : action} (hs : Sound headers s)
    (h : step headers simul_efun_ob s a = some s') : Sound headers s' := by
  cases a with
  | load ob addr prog =>
    simp only [step, ite_none_right_eq_some, some.injEq] at h
    obtain ⟨⟨hn, hl⟩, rfl⟩ := h
    exact sound_load headers hs hn hl
  | assign ob i v | swap ob | load_ob_from_swap ob =>
    cases h
    exact sound_set_object headers hs ob (fun _ => rfl) (fun _ => rfl) (fun _ => rfl)
  | make_lfun_funp fp current_object fio index
  | make_efun_funp fp current_object index
  | make_simul_funp fp current_object index => exact sound_add_funp headers hs h
  | make_functional_funp fp current_object current_prog offset fio vio nb =>
    exact sound_add_funp headers hs h
  | bind fp old ob =>
    simp only [step, bind_eq_some_iff] at h
    obtain ⟨e, -, he⟩ := h
    unfold f_bind at he
    split at he
    · cases he
    · cases he
    · exact sound_add_funp headers hs he
  | dealloc_funp fp =>
    cases h
    exact hs.congr headers (remove_funp_same fp s).1 (remove_funp_same fp s).2
  | shadow current_object ob => exact sound_shadow headers hs h
  | destruct ob =>
    cases h
    exact sound_destruct headers hs ob
  | f_replace_program current_object str =>
    simp only [step] at h
    split at h
    · rename_i s'' hok
      cases h
      exact sound_request headers hs hok
    · cases h
      exact hs
  | replace_programs dead =>
    cases h
    exact (sound_replace_programs headers hs).congr headers rfl rfl

abbrev InRun (simul_efun_ob : Nat) (s : driver) : Prop :=
  Reachable start (step headers simul_efun_ob) (fun _ _ => True) s

theorem InRun.sound (h : InRun headers simul_efun_ob s) : Sound headers s :=
  Reachable.inv (sound_start headers) (fun _ _ _ hs _ hstep => sound_step headers hs hstep) h

/-! ## Function pointers -/

/-- The variables of a program, which are from `vio'` on, are the ones that were from `vio`
on. -/
def SameVariables (e : replace_ob_t) (addr vio vio' : Nat) : Prop :=
  ∀ k < (headers addr).num_variables_total, e.var_offset + (vio' + k) = vio + k

theorem same_variables_iff (e : replace_ob_t) (addr vio vio' : Nat) :
    SameVariables headers e addr vio vio' ↔
      (headers addr).num_variables_total = 0 ∨ e.var_offset + vio' = vio := by
  unfold SameVariables
  constructor
  · intro h
    rcases Nat.eq_zero_or_pos (headers addr).num_variables_total with h0 | hpos
    · exact .inl h0
    · exact .inr (by simpa using h 0 hpos)
  · rintro (h0 | hv) k hk
    · omega
    · omega

/-- A call comes to the code that it came to before, with the variables and functions of that
code. -/
def SameCall (e : replace_ob_t) : called_t → called_t → Prop
  | .efun index, .efun index' => index = index'
  | .simul_efun index, .simul_efun index' => index = index'
  | .frame r, .frame r' =>
    r.addr = r'.addr ∧ r.index = r'.index ∧ SameVariables headers e r'.addr r.vio r'.vio
  | .functional prog offset _ vio _, .functional prog' offset' fio' vio' nb =>
    prog = prog' ∧ offset = offset' ∧
      (nb = true →
        (∃ path q, at_path e.new_prog.1 e.new_prog.2 path = some ⟨prog', q, fio', vio'⟩) ∧
          SameVariables headers e prog' vio vio')
  | _, _ => False

def InertOrRight (e : replace_ob_t) (before after : Nat → Option object_t) (f : funptr_t) : Prop :=
  match call_function_pointer after f with
  | some (.error _) => True
  | some (.ok c') =>
    ∃ c, call_function_pointer before f = some (.ok c) ∧ SameCall headers e c c'
  | none => False

def entered (prog : Nat × program_t) (index : Nat) : Option found_t :=
  match prog.2.function_flags[index]? with
  | none => none
  | some flags => if flags.UNDEFINED then none else setup_new_frame prog.1 prog.2 index

/-- What a function pointer holds is right in the new program too. -/
def Lasting (o : object_t) (e : replace_ob_t) : funptr_kind → Prop
  | .efun _ => True
  | .simul _ => True
  | .local_ index =>
    (∃ flags, e.new_prog.2.function_flags[index]? = some flags ∧ flags.UNDEFINED = true) ∨
      ∃ r r', entered o.prog index = some r ∧ entered e.new_prog index = some r' ∧
        r.addr = r'.addr ∧ r.index = r'.index ∧
        ((headers r'.addr).num_variables_total = 0 ∨ e.var_offset + r'.vio = r.vio)
  | .functional prog _ fio vio nb =>
    nb = true →
      (∃ path q, at_path e.new_prog.1 e.new_prog.2 path = some ⟨prog, q, fio, vio⟩) ∧
        ((headers prog).num_variables_total = 0 ∨ e.var_offset = 0)

theorem call_local (objects : Nat → Option object_t) {owner : Nat} (index : Nat)
    (ho : objects owner = some o) (hd : o.O_DESTRUCTED = false) :
    (∀ c, call_function_pointer objects ⟨owner, .local_ index⟩ = some (.ok c) ↔
      ∃ r, c = .frame r ∧ entered o.prog index = some r) ∧
    ((∃ err, call_function_pointer objects ⟨owner, .local_ index⟩ = some (.error err)) ↔
      ∃ flags, o.prog.2.function_flags[index]? = some flags ∧ flags.UNDEFINED = true) := by
  unfold call_function_pointer entered
  simp only [ho, hd]
  rcases o.prog.2.function_flags[index]? with _ | flags
  · simp
  · by_cases hu : flags.UNDEFINED
    · simp [hu]
    · rcases setup_new_frame o.prog.1 o.prog.2 index with _ | r
      · simp [hu]
      · refine ⟨fun c => ?_, by simp [hu]⟩
        simp [hu]
        exact eq_comm

theorem inert_or_right_iff {before after : Nat → Option object_t} {f : funptr_t}
    (hf : f.owner = e.ob) (ho : before e.ob = some o) (ho' : after e.ob = some o')
    (hp : o'.prog = e.new_prog) (hd : o'.O_DESTRUCTED = o.O_DESTRUCTED) :
    InertOrRight headers e before after f ↔
      (o.O_DESTRUCTED = true ∨ Lasting headers o e f.kind) := by
  obtain ⟨owner, kind⟩ := f
  obtain rfl : owner = e.ob := hf
  rcases hdes : o.O_DESTRUCTED with _ | _
  · have hd' : o'.O_DESTRUCTED = false := hd.trans hdes
    simp only [Bool.false_eq_true, false_or]
    cases kind with
    | efun index | simul index =>
      simp [InertOrRight, call_function_pointer, ho, ho', hdes, hd', SameCall, Lasting]
    | functional prog offset fio vio nb =>
      simp [InertOrRight, call_function_pointer, ho, ho', hdes, hd', SameCall, Lasting,
        same_variables_iff]
    | local_ index =>
      have hbefore := call_local before index ho hdes
      have hafter := call_local after index ho' hd'
      unfold InertOrRight
      simp only [Lasting, ← hp]
      split
      · rename_i err herr
        simp only [true_iff]
        exact .inl (hafter.2.mp ⟨err, herr⟩)
      · rename_i c' hc'
        obtain ⟨r', rfl, hr'⟩ := (hafter.1 c').mp hc'
        have hnot : ¬ ∃ flags, o'.prog.2.function_flags[index]? = some flags ∧
            flags.UNDEFINED = true := by
          intro hu
          obtain ⟨err, herr⟩ := hafter.2.mpr hu
          simp [herr] at hc'
        simp only [hnot, false_or, hr', some.injEq]
        constructor
        · rintro ⟨c, hc, hsame⟩
          obtain ⟨r, rfl, hr⟩ := (hbefore.1 c).mp hc
          obtain ⟨h1, h2, h3⟩ := hsame
          exact ⟨r, r', hr, rfl, h1, h2, (same_variables_iff headers e _ _ _).mp h3⟩
        · rintro ⟨r, q, hr, rfl, h1, h2, h3⟩
          exact ⟨.frame r, (hbefore.1 _).mpr ⟨r, rfl, hr⟩, h1, h2,
            (same_variables_iff headers e _ _ _).mpr h3⟩
      · rename_i hnone
        simp only [false_iff, not_or, not_exists, not_and]
        refine ⟨fun flags hflags hu => ?_, fun r r' _ hr' => ?_⟩
        · obtain ⟨err, herr⟩ := hafter.2.mpr ⟨flags, hflags, hu⟩
          simp [herr] at hnone
        · have := (hafter.1 (.frame r')).mpr ⟨r', rfl, hr'⟩
          simp [this] at hnone
  · have hd' : o'.O_DESTRUCTED = true := hd.trans hdes
    simp [InertOrRight, call_function_pointer, ho', hd']

theorem mem_remove_funp {fp : Nat} {p : Nat × funptr_t} :
    p ∈ (remove_funp fp s).funps ↔ p ∈ s.funps ∧ p.1 ≠ fp := by
  unfold remove_funp
  split
  · rename_i hnone
    have hne := find?_eq_none.mp hnone
    constructor
    · intro hp
      exact ⟨hp, by simpa using hne p hp⟩
    · exact fun hp => hp.1
  · simp

theorem mem_remove_funps {dead : List Nat} {p : Nat × funptr_t} :
    p ∈ (dead.foldl (fun s fp => remove_funp fp s) s).funps ↔ p ∈ s.funps ∧ p.1 ∉ dead := by
  induction dead generalizing s with
  | nil => simp
  | cons fp dead ih =>
    rw [foldl_cons, ih, mem_remove_funp, mem_cons]
    tauto

/-! ## The replacement -/

/-- What an object has of an entry: the program, its variables, each way in by its own
indices, and the functions that the old program had from it. -/
structure Kept (o o' : object_t) (e : replace_ob_t) (freed : List svalue_t) : Prop where
  program : o'.prog = e.new_prog
  block : ∀ k < (headers e.new_prog.1).num_variables_total, o'.vars k = o.vars (e.var_offset + k)
  once : freed.filter (· ≠ .const0u) =
    ((others (headers e.new_prog.1).num_variables_total
      ((headers o.prog.1).num_variables_total - (headers e.new_prog.1).num_variables_total)
      e.var_offset).map o.vars).filter (· ≠ .const0u)
  access : ∀ index r, setup_new_frame o'.prog.1 o'.prog.2 index = some r →
    ∀ k < (headers r.addr).num_variables_total,
      r.vio + k < (headers o'.prog.1).num_variables_total ∧
        o'.vars (r.vio + k) = o.vars (e.var_offset + (r.vio + k))
  functions : ∃ path fio,
    at_path o.prog.1 o.prog.2 path = some ⟨e.new_prog.1, e.new_prog.2, fio, e.var_offset⟩ ∧
      ∀ index, not_overloaded o.prog.2 path index →
        setup_new_frame o.prog.1 o.prog.2 (fio + index) =
          (setup_new_frame o'.prog.1 o'.prog.2 index).map fun r =>
            { r with
              fio := r.fio + fio
              vio := r.vio + e.var_offset }

theorem replaced_kept (hr : Requested headers o e) (hl : laid_out headers o.prog.1 o.prog.2 = true)
    (hp : o'.prog = e.new_prog) (hv : o'.vars = (replaced headers e o).vars) :
    Kept headers o o' e (freed headers e o) := by
  obtain ⟨hl', hle, path, fio, hat⟩ := hr.place headers hl
  have hblock : ∀ k < (headers e.new_prog.1).num_variables_total,
      o'.vars k = o.vars (e.var_offset + k) := by
    intro k hk
    rw [hv]
    exact replace_variables_block _ _ _ _ hk
  refine ⟨hp, hblock, ?_, ?_, path, fio, hat, ?_⟩
  · exact replace_variables_freed _ _ _ _ (by omega)
  · intro index r hframe k hk
    rw [hp] at hframe ⊢
    obtain ⟨path', hat'⟩ := setup_new_frame_at _ _ _ _ hframe
    have hin := (laid_out_at headers hl' hat').2
    have hlt : r.vio + k < (headers e.new_prog.1).num_variables_total := by
      dsimp only at hin
      omega
    exact ⟨hlt, hblock _ hlt⟩
  · intro index hnot
    rw [hp]
    exact setup_new_frame_path hat hnot

/-- Each object of the list runs its new program, with its state, and each function pointer
that outlives the replacement does nothing or what it did, if and only if none holds an index
or an offset that is another one in the new program. -/
theorem the_new_program_finds_its_state {simul_efun_ob : Nat} {s s' : driver}
    (hrun : InRun headers simul_efun_ob s) {dead : List Nat}
    (hstep : step headers simul_efun_ob s (.replace_programs dead) = some s')
    {k : Nat} {e : replace_ob_t} (hk : s.obj_list_replace[k]? = some e) {o : object_t}
    (ho : s.objects e.ob = some o) :
    (∃ o' freed, s'.objects e.ob = some o' ∧
        (replace_programs headers s.obj_list_replace s.objects).2[k]? = some freed ∧
        Kept headers o o' e freed ∧
        ∀ p ∈ s'.funps, p.2.owner = e.ob → InertOrRight headers e s.objects s'.objects p.2) ↔
      (o.O_DESTRUCTED = true ∨
        ∀ p ∈ s.funps, p.1 ∉ dead → p.2.owner = e.ob → Lasting headers o e p.2.kind) := by
  have hs := hrun.sound
  obtain ⟨hcore, hfreed⟩ := replace_programs_entry headers hs.once s.objects hk ho
  obtain ⟨o', ho', hc⟩ := map_eq_some_iff.mp hcore
  simp only [core, Prod.mk.injEq] at hc
  obtain ⟨hp, hv, hd⟩ := hc
  have hreq : Requested headers o e := by
    obtain ⟨o₁, ho₁, hr⟩ := hs.requested e (mem_of_getElem? hk)
    obtain rfl : o₁ = o := some.inj (ho₁.symm.trans ho)
    exact hr
  cases hstep
  have hpointers : (∀ p ∈ (dead.foldl (fun s fp => remove_funp fp s) s).funps, p.2.owner = e.ob →
      InertOrRight headers e s.objects
        (replace_programs headers s.obj_list_replace s.objects).1 p.2) ↔
      (o.O_DESTRUCTED = true ∨
        ∀ p ∈ s.funps, p.1 ∉ dead → p.2.owner = e.ob → Lasting headers o e p.2.kind) := by
    constructor
    · intro h
      rcases hdes : o.O_DESTRUCTED with _ | _
      · refine .inr fun p hmem hdead hown => ?_
        have := (inert_or_right_iff headers hown ho ho' hp hd).mp
          (h p (mem_remove_funps.mpr ⟨hmem, hdead⟩) hown)
        simpa [hdes] using this
      · exact .inl rfl
    · intro h p hmem hown
      obtain ⟨hmem, hdead⟩ := mem_remove_funps.mp hmem
      apply (inert_or_right_iff headers hown ho ho' hp hd).mpr
      exact h.imp id fun h => h p hmem hdead hown
  rw [← hpointers]
  constructor
  · rintro ⟨_, _, _, _, _, h⟩
    exact h
  · intro h
    exact ⟨o', _, ho', hfreed, replaced_kept headers hreq (hs.laid _ _ ho) hp hv, h⟩

/-! ## An object with two inherited programs -/

/-- Programs `/a.c` and `/b.c` with a variable each, and `/p.c`, which inherits both and has
a variable of its own. -/
def shop_headers : Nat → header_t
  | 1 => ⟨['a', '.', 'c'], 1⟩
  | 2 => ⟨['b', '.', 'c'], 1⟩
  | 3 => ⟨['p', '.', 'c'], 3⟩
  | _ => ⟨[], 0⟩

def plain (INHERITED : Bool) : compiler.name_flags :=
  ⟨INHERITED, false, false, false, INHERITED, false, false,
    ⟨false, false, false, false, false, false, false⟩⟩

def prog_a : program_t := .mk 1 [⟨1, 0⟩] [plain false] [.def_ 0 0 0] []

def prog_b : program_t := .mk 2 [⟨2, 0⟩] [plain false] [.def_ 0 0 0] []

def prog_p : program_t :=
  .mk 3 [] [plain true, plain true] [.inh 0 0, .inh 1 0] [(1, prog_a, 0, 0), (2, prog_b, 1, 1)]

/-- The object asks for `/b.c`, and a function pointer of it is there. -/
def asks (funp : action) : List action :=
  [.load 10 3 prog_p, .assign 10 0 (.value 7), .assign 10 1 (.value 8), .assign 10 2 (.value 9),
    funp, .f_replace_program 10 ['/', 'b']]

theorem asks_in_run {funp : action} (h : run (step shop_headers 20) start (asks funp) = some s) :
    InRun shop_headers 20 s :=
  Reachable.of_any h

/-- With the efun pointer the variable of `/b.c` is at the top, with its value. -/
theorem the_shop_becomes_b : ∃ s s' o', InRun shop_headers 20 s ∧
    step shop_headers 20 s (.replace_programs []) = some s' ∧ s'.objects 10 = some o' ∧
    o'.vars 0 = .value 8 ∧
    ∀ p ∈ s'.funps, p.2.owner = 10 →
      InertOrRight shop_headers ⟨10, (2, prog_b), 1⟩ s.objects s'.objects p.2 := by
  have hrun : ∃ s, run (step shop_headers 20) start (asks (.make_efun_funp 100 10 5)) = some s :=
    isSome_iff_exists.mp (by decide)
  obtain ⟨s, hs⟩ := hrun
  have hobs : s.obj_list_replace[0]? = some ⟨10, (2, prog_b), 1⟩ := by
    cases hs
    rfl
  have hfunps : s.funps = [(100, ⟨10, .efun 5⟩)] := by
    cases hs
    rfl
  have hvar : (s.objects 10).map (fun o => o.vars 1) = some (.value 8) := by
    cases hs
    rfl
  obtain ⟨o, ho, hval⟩ := map_eq_some_iff.mp hvar
  obtain ⟨s', hstep⟩ : ∃ s', step shop_headers 20 s (.replace_programs []) = some s' := ⟨_, rfl⟩
  obtain ⟨o', freed, ho', -, hkept, hp⟩ :=
    (the_new_program_finds_its_state shop_headers (asks_in_run hs) hstep hobs ho).mpr
      (.inr (by simp [hfunps, Lasting]))
  refine ⟨s, s', o', asks_in_run hs, hstep, ho', ?_, hp⟩
  rwa [hkept.block 0 (by decide)]

/-- A function pointer by the index of the function of `/a.c` comes to the one of `/b.c`. -/
theorem the_shop_confuses_its_functions : ∃ s s', InRun shop_headers 20 s ∧
    s.obj_list_replace = [⟨10, (2, prog_b), 1⟩] ∧
    step shop_headers 20 s (.replace_programs []) = some s' ∧
    (100, ⟨10, .local_ 0⟩) ∈ s'.funps ∧
    ¬ InertOrRight shop_headers ⟨10, (2, prog_b), 1⟩ s.objects s'.objects ⟨10, .local_ 0⟩ := by
  have hrun : ∃ s, run (step shop_headers 20) start (asks (.make_lfun_funp 100 10 0 0)) = some s :=
    isSome_iff_exists.mp (by decide)
  obtain ⟨s, hs⟩ := hrun
  refine ⟨s, _, asks_in_run hs, ?_, rfl, ?_, ?_⟩
  · cases hs
    rfl
  · cases hs
    simp
  · cases hs
    rintro ⟨c, hc, hsame⟩
    obtain rfl : called_t.frame ⟨1, prog_a, 0, 0, 0⟩ = c := Except.ok.inj (some.inj hc)
    exact absurd hsame.1 (by decide)

end mudos.replace_program

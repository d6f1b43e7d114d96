-- The bound of the evaluator stack. A push that makes no check, an expanded
-- array, the bound arguments of a function pointer and the frame of a sscanf
-- stay on the stack where they fit after `sp`; all else stays on it always.
import MudOS.EvaluatorStack

open mudos.runs Option List

namespace mudos.evaluator_stack

variable {hi limit limit' : Int} {s s' : evaluator_t} {P : evaluator_t → Prop} {r : result_t}
  {a : action}

variable {i actual : Int} {num_arg : Nat}

theorem end_of_stack_slack : end_of_stack + 5 = CFG_EVALUATOR_STACK_SIZE := rfl

/-! ## What a piece of code writes -/

/-- The code moves none of the registers and writes no slot above `hi`. -/
structure WritesUpTo (hi : Int) (s s' : evaluator_t) : Prop where
  sp : s'.sp = s.sp
  fp : s'.fp = s.fp
  csp : s'.csp = s.csp
  contexts : s'.contexts = s.contexts
  errors : s'.errors = s.errors
  written : ∀ i ∈ s'.written, i ∈ s.written ∨ i ≤ hi

theorem WritesUpTo.refl (hi : Int) (s : evaluator_t) : WritesUpTo hi s s :=
  ⟨rfl, rfl, rfl, rfl, rfl, fun _ hi => Or.inl hi⟩

theorem WritesUpTo.trans {s'' : evaluator_t} (h : WritesUpTo hi s s') (h' : WritesUpTo hi s' s'') :
    WritesUpTo hi s s'' := by
  refine ⟨h'.sp.trans h.sp, h'.fp.trans h.fp, h'.csp.trans h.csp,
    h'.contexts.trans h.contexts, h'.errors.trans h.errors, ?_⟩
  intro i hmem
  rcases h'.written i hmem with hold | hle
  · exact h.written i hold
  · exact Or.inr hle

theorem writes_write (sv : svalue_t) (s : evaluator_t) (h : i ≤ hi) :
    WritesUpTo hi s (write i sv s) := by
  refine ⟨rfl, rfl, rfl, rfl, rfl, ?_⟩
  intro j hj
  simp only [write, mem_cons] at hj
  rcases hj with rfl | hj
  · exact Or.inr h
  · exact Or.inl hj

theorem writes_move_up (k : Int) (n : Nat) (t : Int) (s : evaluator_t) (h : t ≤ hi) :
    WritesUpTo hi s (move_up k n t s) := by
  induction n generalizing t s with
  | zero => exact .refl hi s
  | succ n ih =>
    apply (writes_write (s.slots (t - k)) s h).trans
    exact ih (t - 1) _ (by omega)

theorem writes_close_gap (n : Nat) (t : Int) (s : evaluator_t) (h : t + n ≤ hi + 1) :
    WritesUpTo hi s (close_gap n t s) := by
  induction n generalizing t s with
  | zero => exact .refl hi s
  | succ n ih =>
    have hwrite : WritesUpTo hi s (write t (s.slots (t + 1)) s) := writes_write _ s (by omega)
    exact hwrite.trans (ih (t + 1) _ (by omega))

theorem writes_assign_down (svs : List svalue_t) (t : Int) (s : evaluator_t) (h : t ≤ hi) :
    WritesUpTo hi s (assign_down svs t s) := by
  induction svs generalizing t s with
  | nil => exact .refl hi s
  | cons sv svs ih =>
    apply (writes_write sv s h).trans
    exact ih (t - 1) _ (by omega)

/-! ## The invariant -/

/-- The local variables of each frame are on the stack. A catch has those of its function. -/
def LocalsInside : Int → List control_stack_t → Prop
  | _, [] => True
  | fp, f :: rest =>
    (match f.framekind with
      | .FRAME_CATCH => f.fp = fp
      | _ => f.num_local_variables = 0 ∨ fp + f.num_local_variables ≤ CFG_EVALUATOR_STACK_SIZE) ∧
    LocalsInside f.fp rest

theorem locals_inside {fp : Int} {csp : List control_stack_t} {i : Nat}
    (h : LocalsInside fp csp) (hi : i < locals csp) : fp + i < CFG_EVALUATOR_STACK_SIZE := by
  induction csp generalizing fp with
  | nil => simp [locals] at hi
  | cons f rest ih =>
    obtain ⟨hframe, hrest⟩ := h
    cases hkind : f.framekind
    case FRAME_CATCH =>
      simp only [locals, hkind] at hi hframe
      exact hframe ▸ ih hrest hi
    all_goals
      simp only [locals, hkind] at hi hframe
      omega

theorem locals_inside_drop {fp : Int} {csp : List control_stack_t} {k : Nat}
    {f : control_stack_t} {rest : List control_stack_t} (h : LocalsInside fp csp)
    (hdrop : csp.drop k = f :: rest) : LocalsInside f.fp rest := by
  induction k generalizing fp csp with
  | zero =>
    rw [drop_zero] at hdrop
    subst hdrop
    exact h.2
  | succ k ih =>
    cases csp with
    | nil => simp at hdrop
    | cons g csp => exact ih h.2 hdrop

/-- `sp` is below the limit, and what is on the stack, what has been written and where an error
can go back to is inside of it. -/
structure Inside (limit : Int) (s : evaluator_t) : Prop where
  sp : s.sp < limit
  locals : LocalsInside s.fp s.csp
  contexts : ∀ econ ∈ s.contexts, econ.save_sp < CFG_EVALUATOR_STACK_SIZE
  written : ∀ i ∈ s.written, i < CFG_EVALUATOR_STACK_SIZE

theorem Inside.writes (h : Inside limit s) (hw : WritesUpTo hi s s')
    (hhi : hi < CFG_EVALUATOR_STACK_SIZE) : Inside limit s' := by
  refine ⟨hw.sp ▸ h.sp, ?_, hw.contexts ▸ h.contexts, ?_⟩
  · rw [hw.fp, hw.csp]
    exact h.locals
  · intro i hi'
    rcases hw.written i hi' with hold | hle
    · exact h.written i hold
    · omega

theorem Inside.write (h : Inside limit s) (sv : svalue_t) (hi : i < CFG_EVALUATOR_STACK_SIZE) :
    Inside limit (write i sv s) :=
  h.writes (writes_write sv s (Int.le_refl i)) hi

theorem Inside.move (h : Inside limit s) {sp : Int} (hsp : sp < limit') :
    Inside limit' { s with sp } :=
  ⟨hsp, h.locals, h.contexts, h.written⟩

theorem Inside.mono (h : Inside limit s) (hle : limit ≤ limit') : Inside limit' s :=
  h.move (Int.lt_of_lt_of_le h.sp hle)

theorem Inside.pop (h : Inside limit s) (n : Nat) : Inside limit (pop_n_elems n s) := by
  apply h.move
  have := h.sp
  omega

@[simp] theorem push_sp (sv : svalue_t) (s : evaluator_t) : (push sv s).sp = s.sp + 1 := rfl

@[simp] theorem push_csp (sv : svalue_t) (s : evaluator_t) : (push sv s).csp = s.csp := rfl

@[simp] theorem pop_n_elems_sp (n : Nat) (s : evaluator_t) : (pop_n_elems n s).sp = s.sp - n := rfl

theorem Inside.push (h : Inside limit s) (sv : svalue_t)
    (hroom : s.sp + 1 < CFG_EVALUATOR_STACK_SIZE) (hsp : s.sp + 1 < limit') :
    Inside limit' (push sv s) :=
  (h.move hsp).write sv hroom

theorem Inside.replace (h : Inside limit s) (hlimit : limit ≤ CFG_EVALUATOR_STACK_SIZE)
    (sv : svalue_t) {n : Nat} (hn : n ≠ 0) :
    Inside limit (evaluator_stack.push sv (pop_n_elems n s)) := by
  have := h.sp
  apply (h.pop n).push sv <;> simp only [pop_n_elems_sp] <;> omega

theorem Inside.push_all (h : Inside limit s) (svs : List svalue_t)
    (hroom : s.sp + svs.length < limit') (hlimit : limit' ≤ CFG_EVALUATOR_STACK_SIZE) :
    Inside limit' (push_all svs s) := by
  induction svs generalizing s limit with
  | nil => exact h.move (by simpa using hroom)
  | cons sv svs ih =>
    rw [length_cons] at hroom
    have hpush : Inside limit' (evaluator_stack.push sv s) := h.push sv (by omega) (by omega)
    exact ih hpush (by simp only [push_sp]; omega)

theorem push_all_csp (svs : List svalue_t) (s : evaluator_t) : (push_all svs s).csp = s.csp := by
  induction svs generalizing s with
  | nil => rfl
  | cons sv svs ih => exact ih _

theorem push_all_sp (svs : List svalue_t) (s : evaluator_t) :
    (push_all svs s).sp = s.sp + svs.length := by
  induction svs generalizing s with
  | nil => simp [push_all]
  | cons sv svs ih =>
    rw [push_all, ih, push_sp, length_cons]
    omega

theorem Inside.pop_control_stack (h : Inside limit s) : Inside limit (pop_control_stack s) := by
  unfold evaluator_stack.pop_control_stack
  split
  · exact h
  · rename_i f rest hcsp
    have hlocals := h.locals
    rw [hcsp] at hlocals
    exact ⟨h.sp, hlocals.2, h.contexts, h.written⟩

/-! ## Code that may raise an error -/

/-- The code comes to a state with `P`, or to an error with nothing written past the end. `sp`
may then be one slot past it. -/
def Ends (P : evaluator_t → Prop) : result_t → Prop
  | .ok s => P s
  | .error (_, s) => Inside (CFG_EVALUATOR_STACK_SIZE + 1) s

theorem Ends.bind {Q : evaluator_t → Prop} {f : evaluator_t → result_t} (h : Ends P r)
    (hf : ∀ s, P s → Ends Q (f s)) : Ends Q (r >>= f) := by
  cases r with
  | error e => exact h
  | ok s => exact hf s h

theorem Ends.mono {Q : evaluator_t → Prop} (h : Ends P r) (hPQ : ∀ s, P s → Q s) : Ends Q r := by
  cases r with
  | error e => exact h
  | ok s => exact hPQ s h

abbrev Stays : result_t → Prop := Ends (Inside CFG_EVALUATOR_STACK_SIZE)

theorem ends_error (text : String) (h : Inside limit s)
    (hle : limit ≤ CFG_EVALUATOR_STACK_SIZE + 1) : Ends P (error text s) :=
  h.mono hle

theorem ends_stack_overflow (h : Inside limit s) (hle : limit ≤ CFG_EVALUATOR_STACK_SIZE + 1) :
    Ends P (stack_overflow s) :=
  ⟨Int.lt_of_lt_of_le h.sp hle, h.locals, h.contexts, h.written⟩

theorem ends_push_checked (h : Inside CFG_EVALUATOR_STACK_SIZE s) (sv : svalue_t) :
    Ends (Inside end_of_stack) (push_checked sv s) := by
  have hsp := h.sp
  have hslack := end_of_stack_slack
  have hmove : Inside (CFG_EVALUATOR_STACK_SIZE + 1) { s with sp := s.sp + 1 } :=
    h.move (by omega)
  unfold push_checked STACK_CHECK
  dsimp only
  split
  · exact ends_stack_overflow hmove (Int.le_refl _)
  · rename_i hroom
    have hin : Inside end_of_stack { s with sp := s.sp + 1 } := h.move (by omega)
    exact hin.write sv (by dsimp only; omega)

theorem stays_push_checked (h : Inside CFG_EVALUATOR_STACK_SIZE s) (sv : svalue_t) :
    Stays (push_checked sv s) :=
  (ends_push_checked h sv).mono fun _ h' => h'.mono (by decide)

theorem ends_checked_block (h : Inside CFG_EVALUATOR_STACK_SIZE s) (svs : List svalue_t) (num : Nat)
    (hnum : svs.length = num) :
    Ends (fun s' => Inside end_of_stack s' ∧ s'.csp = s.csp)
      (if s.sp + num ≥ end_of_stack then stack_overflow s else .ok (push_all svs s)) := by
  split
  · exact ends_stack_overflow h (by omega)
  · exact ⟨h.push_all svs (by omega) (by decide), push_all_csp svs s⟩

theorem ends_push_undefineds (h : Inside CFG_EVALUATOR_STACK_SIZE s) (num : Nat) :
    Ends (fun s' => Inside end_of_stack s' ∧ s'.csp = s.csp) (push_undefineds num s) :=
  ends_checked_block h _ num (by simp)

theorem stays_push_some_svalues (h : Inside CFG_EVALUATOR_STACK_SIZE s) (v : List svalue_t) :
    Stays (push_some_svalues v s) :=
  (ends_checked_block h v v.length rfl).mono fun _ h' => h'.1.mono (by decide)

/-! ## Calls -/

theorem inside_set_locals (h : Inside end_of_stack s) (n : Nat)
    (hkind : ∀ f ∈ s.csp.head?, f.framekind ≠ .FRAME_CATCH) :
    Inside CFG_EVALUATOR_STACK_SIZE (set_locals n s) := by
  have hsp := h.sp
  have hslack := end_of_stack_slack
  unfold set_locals
  split
  · exact h.mono (by omega)
  · rename_i f rest hcsp
    have hlocals := h.locals
    rw [hcsp] at hlocals hkind
    refine ⟨by dsimp only; omega, ⟨?_, hlocals.2⟩, h.contexts, h.written⟩
    cases hk : f.framekind
    case FRAME_CATCH => exact absurd hk (hkind f rfl)
    all_goals
      dsimp only
      exact Or.inr (by omega)

theorem stays_setup_variables (h : Inside CFG_EVALUATOR_STACK_SIZE s) (actual : Int)
    (num_local num_arg : Nat) (hkind : ∀ f ∈ s.csp.head?, f.framekind ≠ .FRAME_CATCH) :
    Stays (setup_variables actual num_local num_arg s) := by
  have hlocals : ∀ t : evaluator_t, Inside CFG_EVALUATOR_STACK_SIZE t → t.csp = s.csp →
      ∀ num, Ends (fun s' => Inside end_of_stack s' ∧ s'.csp = s.csp) (push_undefineds num t) := by
    intro t ht hcsp num
    rw [← hcsp]
    exact ends_push_undefineds ht num
  have hset : ∀ s', Inside end_of_stack s' ∧ s'.csp = s.csp →
      Stays (.ok (set_locals (num_local + num_arg) s')) := by
    rintro s' ⟨hin, hcsp⟩
    exact inside_set_locals hin _ (by rw [hcsp]; exact hkind)
  unfold setup_variables
  dsimp only
  split
  · exact (hlocals _ (h.pop _) rfl _).bind hset
  · exact (hlocals s h rfl _).bind hset

theorem stays_setup_varargs_variables (h : Inside CFG_EVALUATOR_STACK_SIZE s) (actual : Int)
    (num_local num_arg : Nat) (hkind : ∀ f ∈ s.csp.head?, f.framekind ≠ .FRAME_CATCH) :
    Stays (setup_varargs_variables actual num_local num_arg s) := by
  have hslack := end_of_stack_slack
  have hset : ∀ s', Inside CFG_EVALUATOR_STACK_SIZE s' → s'.csp = s.csp →
      Stays (push_undefineds num_local s' >>= fun s'' =>
        .ok (set_locals (num_local + num_arg) s'')) := by
    intro s' hin hcsp
    apply (ends_push_undefineds hin num_local).bind
    rintro s'' ⟨hin', hcsp'⟩
    exact inside_set_locals hin' _ (by rw [hcsp', hcsp]; exact hkind)
  unfold setup_varargs_variables
  dsimp only
  split
  · -- the array takes the place of one or more arguments
    rename_i hge
    exact hset _ (h.replace (Int.le_refl _) _ (by omega)) rfl
  · -- five slots are free after the check, and the empty array takes one
    apply (ends_push_undefineds h _).bind
    rintro s' ⟨hin, hcsp⟩
    have hsp := hin.sp
    exact hset _ (hin.push _ (by omega) (by omega)) hcsp

theorem stays_setup_frame (h : Inside CFG_EVALUATOR_STACK_SIZE s) (func : function_t) (actual : Int)
    (hkind : ∀ f ∈ s.csp.head?, f.framekind ≠ .FRAME_CATCH) :
    Stays (setup_frame func actual s) := by
  unfold setup_frame
  split
  · exact stays_setup_varargs_variables h actual _ _ hkind
  · exact stays_setup_variables h actual _ _ hkind

theorem ends_push_control_stack (h : Inside limit s) (hlimit : limit ≤ CFG_EVALUATOR_STACK_SIZE)
    (frkind : framekind_t) (hkind : frkind ≠ .FRAME_CATCH) :
    Ends (fun s' => s' = { s with csp := ⟨frkind, 0, s.fp⟩ :: s.csp } ∧ Inside limit s')
      (push_control_stack frkind s) := by
  unfold push_control_stack
  split
  · exact ⟨Int.lt_of_lt_of_le h.sp (by omega), h.locals, h.contexts, h.written⟩
  · refine ⟨rfl, h.sp, ⟨?_, h.locals⟩, h.contexts, h.written⟩
    cases frkind
    case FRAME_CATCH => exact absurd rfl hkind
    all_goals exact Or.inl rfl

theorem stays_call_function_by_address (h : Inside CFG_EVALUATOR_STACK_SIZE s) (func : function_t)
    (n : Nat) : Stays (call_function_by_address func n s) := by
  apply (ends_push_control_stack h (Int.le_refl _) .FRAME_FUNCTION (by decide)).bind
  rintro s' ⟨rfl, hin⟩
  have hin' : Inside CFG_EVALUATOR_STACK_SIZE
      { s with csp := ⟨.FRAME_FUNCTION, 0, s.fp⟩ :: s.csp, num_varargs := 0 } :=
    ⟨hin.sp, hin.locals, hin.contexts, hin.written⟩
  exact stays_setup_frame hin' func _ (by simp)

theorem stays_apply_low (h : Inside CFG_EVALUATOR_STACK_SIZE s) (func : function_t) (num_arg : Nat) :
    Stays (apply_low func num_arg s) := by
  apply (ends_push_control_stack h (Int.le_refl _) .FRAME_FUNCTION (by decide)).bind
  rintro s' ⟨rfl, hin⟩
  refine stays_setup_frame hin func _ ?_
  simp

theorem stays_merge_arg_lists (h : Inside CFG_EVALUATOR_STACK_SIZE s) (num_arg : Nat)
    (arr : List svalue_t) (hroom : s.sp + arr.length < CFG_EVALUATOR_STACK_SIZE) :
    Inside CFG_EVALUATOR_STACK_SIZE (merge_arg_lists num_arg arr 0 s).1 ∧
      (merge_arg_lists num_arg arr 0 s).1.csp = s.csp := by
  unfold merge_arg_lists
  dsimp only
  split
  · exact ⟨h, rfl⟩
  · rw [Nat.sub_zero] at *
    have hmoved : Inside CFG_EVALUATOR_STACK_SIZE { s with sp := s.sp + arr.length } :=
      h.move hroom
    have hup := writes_move_up (arr.length : Int) num_arg (s.sp + arr.length)
      { s with sp := s.sp + arr.length } (Int.le_refl _)
    rw [hup.sp]
    have hall := hup.trans (writes_assign_down (arr.drop 0).reverse
      (s.sp + arr.length - num_arg) _ (by omega))
    exact ⟨hmoved.writes hall hroom, hall.csp⟩

theorem stays_call_function_pointer (h : Inside CFG_EVALUATOR_STACK_SIZE s) (args : List svalue_t)
    (num_arg : Nat) (func : function_t) (hroom : s.sp + args.length < CFG_EVALUATOR_STACK_SIZE) :
    Stays (call_function_pointer args num_arg func s) := by
  apply (ends_push_control_stack h (Int.le_refl _) .FRAME_FAKE (by decide)).bind
  rintro s' ⟨rfl, hin⟩
  -- the fake frame has no local variables, so `fp` can move
  have hfp : Inside CFG_EVALUATOR_STACK_SIZE { s with
      csp := ⟨.FRAME_FAKE, 0, s.fp⟩ :: s.csp, fp := s.sp - num_arg + 1 } :=
    ⟨hin.sp, ⟨Or.inl rfl, hin.locals.2⟩, hin.contexts, hin.written⟩
  apply (ends_push_control_stack hfp (Int.le_refl _) .FRAME_FUNP (by decide)).bind
  rintro s' ⟨rfl, hin'⟩
  obtain ⟨hmerged, hcsp⟩ := stays_merge_arg_lists hin' num_arg args hroom
  refine stays_setup_frame hmerged func _ ?_
  rw [hcsp]
  simp

theorem stays_call_efun_pointer (h : Inside CFG_EVALUATOR_STACK_SIZE s) (args : List svalue_t)
    (num_arg : Nat) (hroom : s.sp + args.length < CFG_EVALUATOR_STACK_SIZE) :
    Stays (call_efun_pointer args num_arg s) := by
  apply (ends_push_control_stack h (Int.le_refl _) .FRAME_FAKE (by decide)).bind
  rintro s' ⟨rfl, hin⟩
  have hfp : Inside CFG_EVALUATOR_STACK_SIZE { s with
      csp := ⟨.FRAME_FAKE, 0, s.fp⟩ :: s.csp, fp := s.sp - num_arg + 1 } :=
    ⟨hin.sp, ⟨Or.inl rfl, hin.locals.2⟩, hin.contexts, hin.written⟩
  exact (stays_merge_arg_lists hfp num_arg args hroom).1

theorem inside_f_return (h : Inside CFG_EVALUATOR_STACK_SIZE s) (hs : f_return s = some s') :
    Inside CFG_EVALUATOR_STACK_SIZE s' := by
  unfold f_return at hs
  split at hs
  · cases hs
  · split at hs
    · cases hs
      exact h.pop_control_stack
    · cases hs
      exact (h.replace (Int.le_refl _) _ (by omega)).pop_control_stack

theorem inside_f_return_zero (h : Inside CFG_EVALUATOR_STACK_SIZE s)
    (hroom : ∀ f ∈ s.csp.head?, f.num_local_variables = 0 → s.sp + 1 < CFG_EVALUATOR_STACK_SIZE)
    (hs : f_return_zero s = some s') : Inside CFG_EVALUATOR_STACK_SIZE s' := by
  unfold f_return_zero at hs
  split at hs
  · cases hs
  · rename_i f rest hcsp
    cases hs
    apply Inside.pop_control_stack
    by_cases hnum : f.num_local_variables = 0
    · have hsp := hroom f (by simp [hcsp]) hnum
      exact (h.pop _).push _ (by simp; omega) (by simp; omega)
    · exact h.replace (Int.le_refl _) _ hnum

/-! ## Values that take the place of others -/

theorem stays_expand_varargs (h : Inside CFG_EVALUATOR_STACK_SIZE s) (i : Nat)
    (hroom : ∀ item, s.slots (s.sp - i) = .T_ARRAY item →
      s.sp + (item.length - 1) < CFG_EVALUATOR_STACK_SIZE) : Stays (expand_varargs i s) := by
  have hsp := h.sp
  unfold expand_varargs
  split
  · rename_i item hitem
    have hlen := hroom item hitem
    have hcount : Inside CFG_EVALUATOR_STACK_SIZE
        { s with num_varargs := s.num_varargs + (item.length - 1) } :=
      ⟨h.sp, h.locals, h.contexts, h.written⟩
    dsimp only
    split
    · -- the values above the empty array move down by one
      apply Inside.pop
      exact hcount.writes (writes_close_gap i (s.sp - i) _ (by omega : _ ≤ s.sp + 1)) hsp
    · exact hcount.write _ (by omega)
    · -- the topmost slot that is written is the new `sp`
      have hmoved := hcount.move hlen
      have hup := writes_move_up ((item.length : Int) - 1) i (s.sp + (item.length - 1))
        { s with num_varargs := s.num_varargs + (item.length - 1),
                 sp := s.sp + (item.length - 1) } (Int.le_refl _)
      exact hmoved.writes (hup.trans (writes_assign_down _ _ _ (by omega))) hlen
  · exact ends_error _ h (by decide)

theorem inside_rvalue_frame (h : Inside CFG_EVALUATOR_STACK_SIZE s) (operands num_arg : Nat)
    (found : List svalue_t) (num_matches : Int)
    (hroom : s.sp + num_arg + 1 < CFG_EVALUATOR_STACK_SIZE) :
    Inside CFG_EVALUATOR_STACK_SIZE (rvalue_frame operands num_arg found num_matches s) := by
  have hmoved : Inside CFG_EVALUATOR_STACK_SIZE { s with sp := s.sp + num_arg + 1 } := h.move hroom
  have hup := writes_move_up ((num_arg : Int) + 1) operands (s.sp + num_arg + 1)
    { s with sp := s.sp + num_arg + 1 } (Int.le_refl _)
  unfold rvalue_frame
  apply Inside.write _ _ (by omega)
  apply Inside.pop
  apply hmoved.writes _ hroom
  apply hup.trans
  refine (writes_write _ _ ?_).trans ((writes_assign_down _ _ _ ?_).trans
    (writes_assign_down _ _ _ ?_)) <;> omega

theorem stays_aggregate (h : Inside CFG_EVALUATOR_STACK_SIZE s) (max_array_size n : Nat)
    (hroom : aggregate_count n s = 0 → s.sp + 1 < CFG_EVALUATOR_STACK_SIZE) :
    Stays (aggregate max_array_size n s) := by
  have hcount : Inside CFG_EVALUATOR_STACK_SIZE { s with num_varargs := 0 } :=
    ⟨h.sp, h.locals, h.contexts, h.written⟩
  unfold aggregate
  dsimp only
  split
  · exact ends_error _ hcount (by decide)
  · by_cases hzero : aggregate_count n s = 0
    · have hsp := hroom hzero
      exact (hcount.pop _).push _ (by simp; omega) (by simp; omega)
    · exact hcount.replace (Int.le_refl _) _ hzero

theorem inside_aggregate_assoc (h : Inside CFG_EVALUATOR_STACK_SIZE s) (n : Nat)
    (hroom : aggregate_count n s = 0 → s.sp + 1 < CFG_EVALUATOR_STACK_SIZE) :
    Inside CFG_EVALUATOR_STACK_SIZE (aggregate_assoc n s) := by
  have hcount : Inside CFG_EVALUATOR_STACK_SIZE { s with num_varargs := 0 } :=
    ⟨h.sp, h.locals, h.contexts, h.written⟩
  unfold aggregate_assoc
  by_cases hzero : aggregate_count n s = 0
  · have hsp := hroom hzero
    exact (hcount.pop _).push _ (by simp; omega) (by simp; omega)
  · exact hcount.replace (Int.le_refl _) _ hzero

theorem inside_new_class (h : Inside CFG_EVALUATOR_STACK_SIZE s) (size : Nat)
    (hroom : size = 0 → s.sp + 1 < CFG_EVALUATOR_STACK_SIZE) :
    Inside CFG_EVALUATOR_STACK_SIZE (new_class size s) := by
  unfold new_class
  by_cases hzero : size = 0
  · have hsp := hroom hzero
    exact (h.pop _).push _ (by simp; omega) (by simp; omega)
  · exact h.replace (Int.le_refl _) _ hzero

theorem stays_foreach (h : Inside CFG_EVALUATOR_STACK_SIZE s) (of_mapping : Bool)
    (hroom : s.sp + (if of_mapping then 4 else 2) < CFG_EVALUATOR_STACK_SIZE) :
    Stays (foreach of_mapping s) := by
  unfold foreach
  split
  · exact h.push_all [_, _, _, _] hroom (Int.le_refl _)
  · exact h.push_all [_, _] hroom (Int.le_refl _)
  · exact h.push_all [_, _] hroom (Int.le_refl _)
  · exact ends_error _ h (by decide)

theorem inside_exit_foreach (h : Inside CFG_EVALUATOR_STACK_SIZE s) :
    Inside CFG_EVALUATOR_STACK_SIZE (exit_foreach s) := by
  unfold exit_foreach
  split
  · exact h.pop 5
  · exact h.pop 3

theorem inside_next_foreach (h : Inside CFG_EVALUATOR_STACK_SIZE s) :
    Inside CFG_EVALUATOR_STACK_SIZE (next_foreach s) := by
  have hsp := h.sp
  have hcount : foreach_count s ≤ s.sp := by
    unfold foreach_count
    split <;> omega
  unfold next_foreach
  split
  · split
    · exact inside_exit_foreach h
    · exact h.write _ (by omega)
  · exact inside_exit_foreach h

/-! ## Errors -/

theorem inside_save_context (h : Inside CFG_EVALUATOR_STACK_SIZE s) {in_catch : Bool}
    (hs : save_context in_catch s = some s') : Inside CFG_EVALUATOR_STACK_SIZE s' := by
  unfold save_context at hs
  split at hs
  · cases hs
  · cases hs
    refine ⟨h.sp, h.locals, ?_, h.written⟩
    intro econ hmem
    rcases mem_cons.1 hmem with rfl | hmem
    · exact h.sp
    · exact h.contexts econ hmem

theorem Inside.pop_context (h : Inside limit s) : Inside limit (pop_context s) :=
  ⟨h.sp, h.locals, fun econ hmem => h.contexts econ (mem_of_mem_tail hmem), h.written⟩

theorem stays_do_catch (h : Inside CFG_EVALUATOR_STACK_SIZE s) (stale : Nat) :
    Stays (do_catch stale s) := by
  unfold do_catch
  split
  · exact ends_error _ h (by decide)
  · rename_i s' hs
    have hin := inside_save_context h hs
    exact ⟨hin.sp, ⟨rfl, hin.locals⟩, hin.contexts, hin.written⟩

theorem stays_end_catch (h : Inside CFG_EVALUATOR_STACK_SIZE s) : Stays (end_catch s) := by
  apply (stays_push_checked h.pop_control_stack _).bind
  intro s' hin
  exact hin.pop_context

theorem inside_restore_context {econ : error_context_t} (h : Inside limit s)
    (hecon : econ ∈ s.contexts) (hs : restore_context econ s = some s') :
    Inside CFG_EVALUATOR_STACK_SIZE s' ∧ s'.sp = econ.save_sp := by
  unfold restore_context at hs
  split at hs
  · cases hs
  · cases hs
    refine ⟨⟨h.contexts econ hecon, ?_, ?_, ?_⟩, rfl⟩
    · dsimp only
      split
      · unfold pop_control_stack
        split
        · rename_i hframes
          dsimp only at hframes ⊢
          rw [hframes]
          trivial
        · rename_i f rest hframes
          exact locals_inside_drop h.locals hframes
      · exact h.locals
    · dsimp only
      split
      · unfold pop_control_stack
        split <;> exact h.contexts
      · exact h.contexts
    · dsimp only
      split
      · unfold pop_control_stack
        split <;> exact h.written
      · exact h.written

theorem stays_longjmp (h : Inside limit s)
    (hroom : ∀ econ ∈ s.contexts.head?, econ.in_catch = true →
      econ.save_sp + 1 < CFG_EVALUATOR_STACK_SIZE) (hr : longjmp s = some r) : Stays r := by
  unfold longjmp at hr
  split at hr
  · cases hr
  · rename_i econ rest hcontexts
    obtain ⟨s', hs', rfl⟩ := map_eq_some_iff.1 hr
    obtain ⟨hin, hsp⟩ := inside_restore_context h (by simp [hcontexts]) hs'
    split
    · rename_i hcatch
      have hlt := hroom econ (by simp [hcontexts]) hcatch
      have hcalm : Inside CFG_EVALUATOR_STACK_SIZE { s' with raised := false } :=
        ⟨hin.sp, hin.locals, hin.contexts, hin.written⟩
      have hpush : Inside CFG_EVALUATOR_STACK_SIZE
          (push s'.catch_value { s' with raised := false }) :=
        hcalm.push _ (by dsimp only; omega) (by dsimp only; omega)
      have hend : Inside CFG_EVALUATOR_STACK_SIZE (pop_context { push s'.catch_value
          { s' with raised := false } with catch_value := .T_NUMBER 1 }) :=
        Inside.pop_context ⟨hpush.sp, hpush.locals, hpush.contexts, hpush.written⟩
      dsimp only
      split
      · exact ends_error _ hend (by decide)
      · exact hend
    · exact Inside.pop_context ⟨hin.sp, hin.locals, hin.contexts, hin.written⟩

theorem inside_mudlib_error_handler (h : Inside (CFG_EVALUATOR_STACK_SIZE + 1) s) (caught : Bool)
    (m : List svalue_t) (hroom : s.sp + (if caught then 2 else 1) < CFG_EVALUATOR_STACK_SIZE) :
    Inside CFG_EVALUATOR_STACK_SIZE (mudlib_error_handler caught m s) := by
  have hcalm : Inside (CFG_EVALUATOR_STACK_SIZE + 1) { s with raised := false } :=
    ⟨h.sp, h.locals, h.contexts, h.written⟩
  have hsp : s.sp + 1 < CFG_EVALUATOR_STACK_SIZE := by split at hroom <;> omega
  have hpush : Inside CFG_EVALUATOR_STACK_SIZE (push_refed_mapping m { s with raised := false }) :=
    hcalm.push _ hsp hsp
  unfold mudlib_error_handler
  dsimp only
  split
  · rename_i hcaught
    rw [if_pos hcaught] at hroom
    refine hpush.push _ ?_ ?_ <;> simp only [push_refed_mapping, push_sp] <;> omega
  · exact hpush

/-! ## The bound -/

def last_unchecked (s : evaluator_t) : action → Option Int
  | .F_STRING _ => some (s.sp + 1)
  | .F_LOCAL _ => some (s.sp + 1)
  | .F_TRANSFER_LOCAL _ => some (s.sp + 1)
  | .F_GLOBAL _ => some (s.sp + 1)
  | .F_LOCAL_LVALUE _ => some (s.sp + 1)
  | .F_GLOBAL_LVALUE => some (s.sp + 1)
  | .F_AGGREGATE n => if aggregate_count n s = 0 then some (s.sp + 1) else none
  | .F_AGGREGATE_ASSOC n => if aggregate_count n s = 0 then some (s.sp + 1) else none
  | .F_NEW_CLASS size => if size = 0 then some (s.sp + 1) else none
  | .F_NEW_EMPTY_CLASS _ => some (s.sp + 1)
  | .F_FOREACH of_mapping => some (s.sp + if of_mapping then 4 else 2)
  | .F_EXPAND_VARARGS i =>
    match s.slots (s.sp - i) with
    | .T_ARRAY item => some (s.sp + (item.length - 1))
    | _ => none
  | .F_SSCANF num_arg _ _ => some (s.sp + num_arg + 1)
  | .F_PARSE_COMMAND num_arg _ _ => some (s.sp + num_arg + 1)
  | .F_RETURN_ZERO =>
    if s.csp.head?.map (·.num_local_variables) = some 0 then some (s.sp + 1) else none
  | .push _ => some (s.sp + 1)
  | .call_function_pointer args _ _ => some (s.sp + args.length)
  | .call_efun_pointer args _ => some (s.sp + args.length)
  | .mudlib_error_handler caught _ => some (s.sp + if caught then 2 else 1)
  | .longjmp => s.contexts.head?.bind fun econ =>
    if econ.in_catch then some (econ.save_sp + 1) else none
  | _ => none

def Fits (s : evaluator_t) (a : action) : Prop :=
  ∀ i ∈ last_unchecked s a, i < CFG_EVALUATOR_STACK_SIZE

instance (s : evaluator_t) (a : action) : Decidable (Fits s a) :=
  inferInstanceAs (Decidable (∀ i ∈ last_unchecked s a, i < CFG_EVALUATOR_STACK_SIZE))

theorem Fits.last (h : Fits s a) (hi : last_unchecked s a = some i) :
    i < CFG_EVALUATOR_STACK_SIZE :=
  h i hi

theorem Fits.caught (h : Fits s .longjmp) :
    ∀ econ ∈ s.contexts.head?, econ.in_catch = true →
      econ.save_sp + 1 < CFG_EVALUATOR_STACK_SIZE := by
  intro econ hmem hcatch
  exact h.last (by simp [last_unchecked, (mem_def.mp hmem), hcatch])

theorem stays_eval_instruction (max_array_size : Nat) (h : Inside CFG_EVALUATOR_STACK_SIZE s)
    (hfit : Fits s a) (hr : eval_instruction max_array_size s a = some r) : Stays r := by
  have hsp := h.sp
  cases a
  case F_NUMBER n =>
    cases hr
    exact stays_push_checked h _
  case F_STRING p | F_LOCAL i | F_GLOBAL sv | F_LOCAL_LVALUE i | F_GLOBAL_LVALUE
    | F_NEW_EMPTY_CLASS size | push sv =>
    cases hr
    exact h.push _ (hfit.last rfl) (hfit.last rfl)
  case F_TRANSFER_LOCAL i =>
    rw [eval_instruction] at hr
    split at hr
    · rename_i hi
      cases hr
      exact (h.push _ (hfit.last rfl) (hfit.last rfl)).write _ (locals_inside h.locals hi)
    · cases hr
  case F_VOID_ASSIGN_LOCAL i =>
    rw [eval_instruction] at hr
    split at hr
    · rename_i hi
      cases hr
      exact (h.write _ (locals_inside h.locals hi)).pop 1
    · cases hr
  case F_POP_VALUE =>
    cases hr
    exact h.pop 1
  case operator num sv =>
    cases hr
    exact (h.pop num).write _ (by omega)
  case assign_local i sv =>
    rw [eval_instruction] at hr
    split at hr
    · rename_i hi
      cases hr
      exact h.write _ (locals_inside h.locals hi)
    · cases hr
  case F_AGGREGATE n =>
    cases hr
    exact stays_aggregate h _ n fun hzero => hfit.last (by simp [last_unchecked, hzero])
  case F_AGGREGATE_ASSOC n =>
    cases hr
    exact inside_aggregate_assoc h n fun hzero => hfit.last (by simp [last_unchecked, hzero])
  case F_NEW_CLASS size =>
    cases hr
    exact inside_new_class h size fun hzero => hfit.last (by simp [last_unchecked, hzero])
  case F_FOREACH of_mapping =>
    cases hr
    exact stays_foreach h of_mapping (hfit.last rfl)
  case F_NEXT_FOREACH =>
    cases hr
    exact inside_next_foreach h
  case F_EXIT_FOREACH =>
    cases hr
    exact inside_exit_foreach h
  case F_EXPAND_VARARGS i =>
    cases hr
    apply stays_expand_varargs h i
    intro item hitem
    exact hfit.last (by simp only [last_unchecked, hitem])
  case F_SSCANF num_arg found num_matches =>
    cases hr
    exact inside_rvalue_frame h 2 num_arg found num_matches (hfit.last rfl)
  case F_PARSE_COMMAND num_arg found num_matches =>
    cases hr
    exact inside_rvalue_frame h 3 num_arg found num_matches (hfit.last rfl)
  case F_CALL_FUNCTION_BY_ADDRESS func n =>
    cases hr
    exact stays_call_function_by_address h func n
  case F_RETURN =>
    obtain ⟨s', hs', rfl⟩ := map_eq_some_iff.1 hr
    exact inside_f_return h hs'
  case F_RETURN_ZERO =>
    obtain ⟨s', hs', rfl⟩ := map_eq_some_iff.1 hr
    apply inside_f_return_zero h _ hs'
    intro f hf hnum
    exact hfit.last (by simp [last_unchecked, (mem_def.mp hf), hnum])
  case F_CATCH stale =>
    cases hr
    exact stays_do_catch h stale
  case F_END_CATCH =>
    cases hr
    exact stays_end_catch h
  case F_TIME_EXPRESSION sec usec =>
    cases hr
    exact (stays_push_checked h _).bind fun s' hin => stays_push_checked hin _
  case F_END_TIME_EXPRESSION usec =>
    cases hr
    exact stays_push_checked (h.pop 2) _
  case push_checked sv =>
    cases hr
    exact stays_push_checked h sv
  case push_some_svalues v | transfer_push_some_svalues v =>
    cases hr
    exact stays_push_some_svalues h v
  case pop_n_elems n =>
    cases hr
    exact h.pop n
  case apply_low func num_arg =>
    cases hr
    exact stays_apply_low h func num_arg
  case call_function_pointer args num_arg func =>
    cases hr
    exact stays_call_function_pointer h args num_arg func (hfit.last rfl)
  case call_efun_pointer args num_arg =>
    cases hr
    exact stays_call_efun_pointer h args num_arg (hfit.last rfl)
  case remove_fake_frame =>
    cases hr
    exact h.pop_control_stack
  case save_context =>
    obtain ⟨s', hs', rfl⟩ := map_eq_some_iff.1 hr
    exact inside_save_context h hs'
  case pop_context =>
    cases hr
    exact h.pop_context
  case error text =>
    cases hr
    exact ends_error text h (by decide)
  case mudlib_error_handler caught m => cases hr
  case longjmp => exact stays_longjmp h hfit.caught hr

theorem stays_handle_error (h : Inside (CFG_EVALUATOR_STACK_SIZE + 1) s) (hfit : Fits s a)
    (hr : handle_error s a = some r) : Stays r := by
  unfold handle_error at hr
  split at hr
  · rename_i caught m
    cases hr
    exact inside_mudlib_error_handler h caught m (hfit.last rfl)
  · exact stays_longjmp h hfit.caught hr
  · cases hr

def StackInside (s : evaluator_t) : Prop :=
  Inside (if s.raised then CFG_EVALUATOR_STACK_SIZE + 1 else CFG_EVALUATOR_STACK_SIZE) s

theorem inside_settle (h : Stays r) : StackInside (settle r) := by
  cases r with
  | error e => exact ⟨h.sp, h.locals, h.contexts, h.written⟩
  | ok s =>
    refine Inside.mono (h : Inside CFG_EVALUATOR_STACK_SIZE s) ?_
    split <;> decide

theorem inside_step (max_array_size : Nat) (s : evaluator_t) (a : action) (s' : evaluator_t)
    (h : StackInside s) (hfit : Fits s a) (hs : step max_array_size s a = some s') :
    StackInside s' := by
  obtain ⟨r, hr, rfl⟩ := map_eq_some_iff.1 hs
  apply inside_settle
  unfold StackInside at h
  split at hr
  · rename_i hraised
    rw [if_pos hraised] at h
    exact stays_handle_error h hfit hr
  · rename_i hraised
    rw [if_neg hraised] at h
    exact stays_eval_instruction max_array_size h hfit hr

theorem inside_start : StackInside start_of_evaluator :=
  ⟨by decide, trivial, by simp [start_of_evaluator], by simp [start_of_evaluator]⟩

/-- The values that an action pushes as a block, local variables and arguments, the elements of
an array or bound arguments, would have `sp` end past the stack. A call that is too deep does
not come to push any. -/
def PassesTheEnd (s : evaluator_t) : action → Prop
  | .F_CALL_FUNCTION_BY_ADDRESS func n =>
    s.csp.length < CFG_MAX_CALL_DEPTH ∧
    CFG_EVALUATOR_STACK_SIZE ≤ s.sp + func.num_arg + func.num_local - (n + s.num_varargs)
  | .apply_low func num_arg =>
    s.csp.length < CFG_MAX_CALL_DEPTH ∧
    CFG_EVALUATOR_STACK_SIZE ≤ s.sp + func.num_arg + func.num_local - num_arg
  | .call_function_pointer args num_arg func =>
    s.csp.length + 1 < CFG_MAX_CALL_DEPTH ∧
    (CFG_EVALUATOR_STACK_SIZE ≤ s.sp + args.length ∨
      CFG_EVALUATOR_STACK_SIZE ≤ s.sp + func.num_arg + func.num_local - num_arg)
  | .call_efun_pointer args _ =>
    s.csp.length < CFG_MAX_CALL_DEPTH ∧ CFG_EVALUATOR_STACK_SIZE ≤ s.sp + args.length
  | .push_some_svalues v => CFG_EVALUATOR_STACK_SIZE ≤ s.sp + v.length
  | .transfer_push_some_svalues v => CFG_EVALUATOR_STACK_SIZE ≤ s.sp + v.length
  | .F_EXPAND_VARARGS i =>
    ∃ item, s.slots (s.sp - i) = .T_ARRAY item ∧
      CFG_EVALUATOR_STACK_SIZE ≤ s.sp + (item.length - 1)
  | _ => False

/-- The code comes to a stack overflow, as the first error after the state. -/
def Overflows (s : evaluator_t) (r : result_t) : Prop :=
  ∃ u, r = .error ("stack overflow\n", u) ∧ u.errors = s.errors

theorem Overflows.bind (h : Overflows s r) (f : evaluator_t → result_t) :
    Overflows s (r >>= f) := by
  obtain ⟨u, rfl, herrors⟩ := h
  exact ⟨u, rfl, herrors⟩

theorem ok_bind (s : evaluator_t) (f : evaluator_t → result_t) : (.ok s >>= f) = f s := rfl

theorem push_all_errors (svs : List svalue_t) (s : evaluator_t) :
    (push_all svs s).errors = s.errors := by
  induction svs generalizing s with
  | nil => rfl
  | cons sv svs ih => exact ih _

theorem overflows_push_undefineds {t : evaluator_t} {num : Nat} (herrors : t.errors = s.errors)
    (h : end_of_stack ≤ t.sp + num) : Overflows s (push_undefineds num t) := by
  rw [push_undefineds, if_pos h]
  exact ⟨_, rfl, herrors⟩

theorem overflows_setup_variables {num_local : Nat}
    (h : CFG_EVALUATOR_STACK_SIZE ≤ s.sp + num_arg + num_local - actual) :
    Overflows s (setup_variables actual num_local num_arg s) := by
  have hslack := end_of_stack_slack
  unfold setup_variables
  dsimp only
  split
  · apply Overflows.bind
    exact overflows_push_undefineds rfl (by simp only [pop_n_elems_sp]; omega)
  · apply Overflows.bind
    exact overflows_push_undefineds rfl (by omega)

theorem overflows_setup_varargs_variables {num_local : Nat}
    (h : CFG_EVALUATOR_STACK_SIZE ≤ s.sp + num_arg + num_local - actual) :
    Overflows s (setup_varargs_variables actual num_local num_arg s) := by
  have hslack := end_of_stack_slack
  unfold setup_varargs_variables
  dsimp only
  split
  · simp only [ok_bind]
    apply Overflows.bind
    apply overflows_push_undefineds rfl
    simp only [push_refed_array, push_sp, pop_n_elems_sp]
    omega
  · -- the array has a slot after the arguments that are missing
    by_cases hfirst : end_of_stack ≤ s.sp + (num_arg - 1 - actual).toNat
    · apply Overflows.bind
      exact overflows_push_undefineds rfl hfirst
    · rw [push_undefineds, if_neg hfirst]
      simp only [ok_bind]
      apply Overflows.bind
      refine overflows_push_undefineds (t := push_refed_array [] _) (push_all_errors _ s) ?_
      simp only [push_refed_array, push_sp, push_all_sp, length_replicate]
      omega

theorem overflows_setup_frame {func : function_t}
    (h : CFG_EVALUATOR_STACK_SIZE ≤ s.sp + func.num_arg + func.num_local - actual) :
    Overflows s (setup_frame func actual s) := by
  unfold setup_frame
  split
  · exact overflows_setup_varargs_variables h
  · exact overflows_setup_variables h

theorem push_control_stack_below (frkind : framekind_t) (h : s.csp.length < CFG_MAX_CALL_DEPTH) :
    push_control_stack frkind s = .ok { s with csp := ⟨frkind, 0, s.fp⟩ :: s.csp } :=
  if_neg (Nat.ne_of_lt h)

theorem merge_arg_lists_moves (num_arg : Nat) (arr : List svalue_t) (s : evaluator_t) :
    (merge_arg_lists num_arg arr 0 s).1.sp = s.sp + arr.length ∧
      (merge_arg_lists num_arg arr 0 s).1.errors = s.errors ∧
      (merge_arg_lists num_arg arr 0 s).2 = num_arg + arr.length := by
  unfold merge_arg_lists
  dsimp only
  split
  · rename_i hzero
    rw [Nat.sub_zero] at hzero
    simp [hzero]
  · rw [Nat.sub_zero]
    have hup := writes_move_up (arr.length : Int) num_arg (s.sp + arr.length)
      { s with sp := s.sp + arr.length } (Int.le_refl _)
    rw [hup.sp]
    have hall := hup.trans (writes_assign_down (arr.drop 0).reverse
      (s.sp + arr.length - num_arg) _ (by omega))
    exact ⟨hall.sp, hall.errors, rfl⟩

theorem overflows_call_function_pointer {args : List svalue_t} {func : function_t}
    (hdepth : s.csp.length + 1 < CFG_MAX_CALL_DEPTH)
    (h : CFG_EVALUATOR_STACK_SIZE ≤ s.sp + func.num_arg + func.num_local - num_arg) :
    Overflows s (call_function_pointer args num_arg func s) := by
  unfold call_function_pointer setup_fake_frame
  rw [push_control_stack_below _ (by omega)]
  dsimp only [bind, Except.bind]
  rw [push_control_stack_below _ (by simpa using hdepth)]
  dsimp only
  obtain ⟨hsp, herrors, hnum⟩ := merge_arg_lists_moves num_arg args { s with
    fp := s.sp - num_arg + 1
    csp := ⟨.FRAME_FUNP, 0, s.sp - num_arg + 1⟩ :: ⟨.FRAME_FAKE, 0, s.fp⟩ :: s.csp }
  dsimp only at hsp herrors
  rw [hnum]
  have hover : ∀ t : evaluator_t, t.sp = s.sp + args.length → t.errors = s.errors →
      Overflows s (setup_frame func ((num_arg + args.length : Nat) : Int) t) := by
    intro t ht hsame
    obtain ⟨u, hu, herr⟩ : Overflows t (setup_frame func ((num_arg + args.length : Nat) : Int) t) :=
      overflows_setup_frame (by rw [ht]; omega)
    exact ⟨u, hu, herr.trans hsame⟩
  exact hover _ hsp herrors

theorem overflows_eval_instruction (max_array_size : Nat) (h : Inside CFG_EVALUATOR_STACK_SIZE s)
    (hfit : Fits s a) (hpass : PassesTheEnd s a)
    (hr : eval_instruction max_array_size s a = some r) : Overflows s r := by
  have hslack := end_of_stack_slack
  cases a <;> try exact hpass.elim
  case F_CALL_FUNCTION_BY_ADDRESS func n =>
    cases hr
    unfold call_function_by_address
    rw [push_control_stack_below _ hpass.1]
    exact overflows_setup_frame hpass.2
  case apply_low func num_arg =>
    cases hr
    unfold apply_low
    rw [push_control_stack_below _ hpass.1]
    exact overflows_setup_frame hpass.2
  case call_function_pointer args num_arg func =>
    cases hr
    obtain ⟨hdepth, hargs | hlocals⟩ := hpass
    · have hlt := hfit.last rfl
      omega
    · exact overflows_call_function_pointer hdepth hlocals
  case call_efun_pointer args num_arg =>
    have hlt := hfit.last rfl
    have hle := hpass.2
    omega
  case push_some_svalues v =>
    cases hr
    have hle : CFG_EVALUATOR_STACK_SIZE ≤ s.sp + v.length := hpass
    rw [push_some_svalues, if_pos (by omega)]
    exact ⟨_, rfl, rfl⟩
  case transfer_push_some_svalues v =>
    cases hr
    have hle : CFG_EVALUATOR_STACK_SIZE ≤ s.sp + v.length := hpass
    rw [transfer_push_some_svalues, if_pos (by omega)]
    exact ⟨_, rfl, rfl⟩
  case F_EXPAND_VARARGS i =>
    obtain ⟨item, hitem, hle⟩ := hpass
    have hlt := hfit.last (i := s.sp + (item.length - 1)) (by simp only [last_unchecked, hitem])
    omega

/-- In a run in which all that is written with no check fits, no slot past the end is written,
and a block of values that would pass the end is a stack overflow before it gets there. -/
theorem no_slot_past_the_end_is_written (max_array_size : Nat) (s : evaluator_t)
    (h : Reachable start_of_evaluator (step max_array_size) Fits s) :
    (∀ i ∈ s.written, i < CFG_EVALUATOR_STACK_SIZE) ∧
      ∀ a s', Fits s a → PassesTheEnd s a → step max_array_size s a = some s' →
        s'.raised = true ∧ s'.errors = "stack overflow\n" :: s.errors ∧
          ∀ i ∈ s'.written, i < CFG_EVALUATOR_STACK_SIZE := by
  have hin : StackInside s := h.inv inside_start (inside_step max_array_size)
  refine ⟨hin.written, ?_⟩
  intro a s' hfit hpass hs
  have hin' := inside_step max_array_size s a s' hin hfit hs
  obtain ⟨r, hr, rfl⟩ := map_eq_some_iff.1 hs
  unfold StackInside at hin
  split at hr
  · -- no block is pushed while an error is handled
    cases a <;> first | exact hpass.elim | cases hr
  · rename_i hraised
    rw [if_neg hraised] at hin
    obtain ⟨u, rfl, herrors⟩ := overflows_eval_instruction max_array_size hin hfit hpass hr
    exact ⟨rfl, congrArg _ herrors, hin'.written⟩

/-- The theorem at a run that pushes 981 values. A call then has 20 local variables. -/
theorem no_slot_past_the_end_is_written_at_a_call : ∃ s s',
    Reachable start_of_evaluator (step 15000) Fits s ∧
      step 15000 s (.apply_low ⟨0, 20, false⟩ 0) = some s' ∧
        s'.errors = ["stack overflow\n"] ∧ ∀ i ∈ s'.written, i < CFG_EVALUATOR_STACK_SIZE := by
  have hrun : ((run (step 15000) start_of_evaluator
      [.push_some_svalues (replicate 980 (.T_NUMBER 0)), .push .T_LVALUE]).map
      fun s => (s.sp, s.csp.length, s.errors, s.raised)) = some (980, 0, [], false) := by
    decide +kernel
  obtain ⟨s, hs, hout⟩ := map_eq_some_iff.1 hrun
  simp only [Prod.mk.injEq] at hout
  obtain ⟨hsp, hcsp, herrors, hraised⟩ := hout
  have hreach : Reachable start_of_evaluator (step 15000) Fits s :=
    Reachable.of_run .start (by decide +kernel) hs
  have hstep : step 15000 s (.apply_low ⟨0, 20, false⟩ 0) =
      some (settle (apply_low ⟨0, 20, false⟩ 0 s)) := by
    rw [step, hraised]
    rfl
  have hpass : PassesTheEnd s (.apply_low ⟨0, 20, false⟩ 0) := by
    simp [PassesTheEnd, hsp, hcsp]
  obtain ⟨-, herr, hwritten⟩ := (no_slot_past_the_end_is_written 15000 s hreach).2 _ _
    (by simp [Fits, last_unchecked]) hpass hstep
  exact ⟨s, _, hreach, hstep, herrors ▸ herr, hwritten⟩

/-! ## Where it does not fit -/

/-- The bound fails in a run in which the first function that is called expands an array of
1200 elements. No error is raised. -/
theorem expanded_array_is_written_past_the_end :
    ¬ ∀ s, Reachable start_of_evaluator (step 15000) (fun _ _ => True) s →
      ∀ i ∈ s.written, i < CFG_EVALUATOR_STACK_SIZE := by
  intro h
  have hrun : ((run (step 15000) start_of_evaluator
      [.apply_low ⟨0, 0, false⟩ 0, .F_NUMBER 1200,
        .operator 0 (.T_ARRAY (replicate 1200 (.T_NUMBER 0))), .F_EXPAND_VARARGS 0]).map
      fun s => (s.errors, s.written.any (CFG_EVALUATOR_STACK_SIZE ≤ ·))) = some ([], true) := by
    decide +kernel
  obtain ⟨s, hs, hout⟩ := map_eq_some_iff.1 hrun
  have hreach := Reachable.of_any hs
  obtain ⟨i, hi, hle⟩ := any_eq_true.1 (congrArg Prod.snd hout)
  have hlt := h s hreach i hi
  have hge := of_decide_eq_true hle
  omega

end mudos.evaluator_stack

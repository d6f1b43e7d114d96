-- The laws of the error contexts. A body never touches what is below its
-- arguments, and the first frame it pushes keeps the registers. So a catch
-- is unwound to where it started. The other calls have their arguments below
-- the saved stack pointer, and do not all take them off.
import MudOS.ErrorContext

open List Option

namespace mudos.error_context

/-! ## What a body leaves alone -/

/-- The body started with `first`, over the values of `base`. These stay, and so do the
frames and the registers, which are in the first frame of the body when it has one. -/
structure Inside (base : List svalue_t) (first s : evaluator_t) : Prop where
  stack : ∃ top, s.stack = top ++ base
  csp_le : first.csp ≤ s.csp
  frames : ∀ i < first.csp, s.control_stack i = first.control_stack i
  outside : s.csp = first.csp → s.registers = first.registers
  inside : first.csp < s.csp → (s.control_stack first.csp).saved = first.registers
  contexts : s.contexts = first.contexts

def frames_part (s : evaluator_t) :
    (Nat → control_stack_t) × Nat × registers_t × List error_context_t :=
  (s.control_stack, s.csp, s.registers, s.contexts)

section

variable {base : List svalue_t} {first s s' : evaluator_t}

theorem Inside.of_frames (h : Inside base first s) (heq : frames_part s' = frames_part s)
    (hstack : ∃ top, s'.stack = top ++ base) : Inside base first s' := by
  simp only [frames_part, Prod.mk.injEq] at heq
  obtain ⟨hcontrol, hcsp, hregisters, hcontexts⟩ := heq
  refine ⟨hstack, ?_, ?_, ?_, ?_, ?_⟩
  · rw [hcsp]
    exact h.csp_le
  · rw [hcontrol]
    exact h.frames
  · rw [hcsp, hregisters]
    exact h.outside
  · rw [hcsp, hcontrol]
    exact h.inside
  · rw [hcontexts]
    exact h.contexts

theorem Inside.length (h : Inside base first s) : base.length ≤ s.stack.length := by
  obtain ⟨top, htop⟩ := h.stack
  rw [htop, length_append]
  omega

theorem frames_part_take (s : evaluator_t) : frames_part (take s) = frames_part s := by
  unfold take
  split <;> rfl

theorem stack_take (s : evaluator_t) : (take s).stack = s.stack.tail := by
  unfold take
  split
  · rename_i h
    rw [h]
    rfl
  · rename_i h
    rw [h]
    rfl

theorem frames_part_pop_stack (s : evaluator_t) : frames_part (pop_stack s) = frames_part s := by
  unfold pop_stack
  split
  · rfl
  · exact frames_part_take s

theorem stack_pop_stack (s : evaluator_t) : (pop_stack s).stack = s.stack.tail := by
  unfold pop_stack
  split
  · rename_i h
    rw [h]
    rfl
  · exact stack_take s

theorem frames_part_pop_values (n : Nat) (s : evaluator_t) :
    frames_part (pop_values n s) = frames_part s := by
  induction n generalizing s with
  | zero => rfl
  | succ n ih => exact (ih _).trans (frames_part_pop_stack s)

theorem stack_pop_values (n : Nat) (s : evaluator_t) :
    (pop_values n s).stack = s.stack.drop n := by
  induction n generalizing s with
  | zero => rfl
  | succ n ih =>
    rw [pop_values, ih, stack_pop_stack, drop_tail]

theorem frames_part_take_values (n : Nat) (s : evaluator_t) :
    frames_part (take_values n s) = frames_part s := by
  induction n generalizing s with
  | zero => rfl
  | succ n ih => exact (ih _).trans (frames_part_take s)

theorem stack_take_values (n : Nat) (s : evaluator_t) :
    (take_values n s).stack = s.stack.drop n := by
  induction n generalizing s with
  | zero => rfl
  | succ n ih =>
    rw [take_values, ih, stack_take, drop_tail]

theorem frames_part_push_values (n : Nat) (s : evaluator_t) (sv : svalue_t) :
    frames_part (push_values n s sv) = frames_part s := by
  induction n generalizing s with
  | zero => rfl
  | succ n ih => exact ih _

theorem stack_push_values (n : Nat) (s : evaluator_t) (sv : svalue_t) :
    ∃ top, (push_values n s sv).stack = top ++ s.stack := by
  induction n generalizing s with
  | zero => exact ⟨[], rfl⟩
  | succ n ih =>
    obtain ⟨top, htop⟩ := ih (push s sv)
    refine ⟨top ++ [sv], ?_⟩
    rw [push_values, htop, push, append_assoc]
    rfl

theorem frames_part_raise (s : evaluator_t) (kind : error_kind) (err : svalue_t) :
    frames_part (raise s kind err) = frames_part s := by
  unfold raise error_handler
  split <;> rfl

theorem stack_raise (s : evaluator_t) (kind : error_kind) (err : svalue_t) :
    (raise s kind err).stack = s.stack := by
  unfold raise error_handler
  split <;> rfl

/-! ## One act -/

def Outcome.evaluator : Outcome → evaluator_t
  | .finished s => s
  | .failed s _ => s

theorem inside_push (h : Inside base first s) (sv : svalue_t) :
    Inside base first (push s sv) := by
  obtain ⟨top, htop⟩ := h.stack
  refine h.of_frames rfl ⟨sv :: top, ?_⟩
  rw [push, htop]
  rfl

theorem top_tail {top : List svalue_t} (htop : s.stack = top ++ base)
    (hlt : base.length < s.stack.length) : s.stack.tail = top.tail ++ base := by
  rcases top with _ | ⟨sv, top⟩
  · rw [htop, nil_append] at hlt
    exact absurd hlt (Nat.lt_irrefl _)
  · rw [htop]
    rfl

theorem inside_take (h : Inside base first s) (hlt : base.length < s.stack.length) :
    Inside base first (take s) := by
  obtain ⟨top, htop⟩ := h.stack
  refine h.of_frames (frames_part_take s) ⟨top.tail, ?_⟩
  rw [stack_take, top_tail htop hlt]

theorem inside_pop_stack (h : Inside base first s) (hlt : base.length < s.stack.length) :
    Inside base first (pop_stack s) := by
  obtain ⟨top, htop⟩ := h.stack
  refine h.of_frames (frames_part_pop_stack s) ⟨top.tail, ?_⟩
  rw [stack_pop_stack, top_tail htop hlt]

theorem top_drop {top : List svalue_t} (htop : s.stack = top ++ base) {n : Nat}
    (hle : base.length + n ≤ s.stack.length) : s.stack.drop n = top.drop n ++ base := by
  rw [htop, length_append] at hle
  rw [htop, drop_append_of_le_length (by omega)]

theorem inside_raise (h : Inside base first s) (kind : error_kind) (err : svalue_t) :
    Inside base first (raise s kind err) := by
  apply h.of_frames (frames_part_raise s kind err)
  rw [stack_raise]
  exact h.stack

theorem inside_push_undefineds (h : Inside base first s) (num : Nat) (err : svalue_t) :
    Inside base first (push_undefineds s num err).evaluator := by
  unfold push_undefineds
  split
  · exact inside_raise h _ _
  · obtain ⟨top, htop⟩ := h.stack
    obtain ⟨new, hnew⟩ := stack_push_values num s []
    refine h.of_frames (frames_part_push_values num s []) ⟨new ++ top, ?_⟩
    show (push_values num s []).stack = new ++ top ++ base
    rw [hnew, htop, append_assoc]

theorem inside_set_locals (h : Inside base first s) (hin : first.csp < s.csp) (n : Nat) :
    Inside base first (set_locals s n) := by
  refine ⟨h.stack, h.csp_le, ?_, ?_, ?_, h.contexts⟩
  · intro i hi
    simp only [set_locals, set_frame]
    rw [if_neg (by omega)]
    exact h.frames i hi
  · intro heq
    exact absurd heq (Nat.ne_of_gt hin)
  · intro _
    simp only [set_locals, set_frame]
    split
    · rename_i heq
      rw [← heq]
      exact h.inside hin
    · exact h.inside hin

theorem csp_push_undefineds {num : Nat} {err : svalue_t}
    (h : push_undefineds s num err = .finished s') : s'.csp = s.csp := by
  unfold push_undefineds at h
  split at h
  · cases h
  · cases h
    have hframes := frames_part_push_values num s []
    simp only [frames_part, Prod.mk.injEq] at hframes
    exact hframes.2.1

theorem inside_undefineds_then (h : Inside base first s) (hin : first.csp < s.csp)
    (num n : Nat) (err : svalue_t) :
    Inside base first ((push_undefineds s num err).then_ fun s =>
      .finished (set_locals s n)).evaluator := by
  have hpushed := inside_push_undefineds h num err
  rcases hpush : push_undefineds s num err with s' | ⟨s', unwritten⟩
  · rw [hpush] at hpushed
    have hcsp := csp_push_undefineds hpush
    have hin' : first.csp < s'.csp := by omega
    exact inside_set_locals hpushed hin' n
  · rwa [hpush] at hpushed

theorem inside_setup_variables (h : Inside base first s) (hin : first.csp < s.csp)
    {actual : Nat} (hle : base.length + actual ≤ s.stack.length) (local_ num_arg : Nat)
    (err : svalue_t) :
    Inside base first (setup_variables s actual local_ num_arg err).evaluator := by
  unfold setup_variables
  split
  · obtain ⟨top, htop⟩ := h.stack
    have hframes := frames_part_pop_values (actual - num_arg) s
    have hpopped : Inside base first (pop_values (actual - num_arg) s) := by
      refine h.of_frames hframes ⟨top.drop (actual - num_arg), ?_⟩
      rw [stack_pop_values, top_drop htop (by omega)]
    simp only [frames_part, Prod.mk.injEq] at hframes
    exact inside_undefineds_then hpopped (by omega) _ _ _
  · exact inside_undefineds_then h hin _ _ _

theorem inside_setup_varargs_variables (h : Inside base first s) (hin : first.csp < s.csp)
    {actual num_arg : Nat} (hle : base.length + actual ≤ s.stack.length) (hpos : 0 < num_arg)
    (local_ : Nat) (err : svalue_t) :
    Inside base first (setup_varargs_variables s actual local_ num_arg err).evaluator := by
  unfold setup_varargs_variables
  split
  · obtain ⟨top, htop⟩ := h.stack
    have hframes := frames_part_take_values (actual - num_arg + 1) s
    have htaken : Inside base first (take_values (actual - num_arg + 1) s) := by
      refine h.of_frames hframes ⟨top.drop (actual - num_arg + 1), ?_⟩
      rw [stack_take_values, top_drop htop (by omega)]
    simp only [frames_part, Prod.mk.injEq] at hframes
    refine inside_undefineds_then (inside_push htaken _) ?_ _ _ _
    show first.csp < (take_values (actual - num_arg + 1) s).csp
    omega
  · have hpushed := inside_push_undefineds h (num_arg - 1 - actual) err
    rcases hpush : push_undefineds s (num_arg - 1 - actual) err with s' | ⟨s', unwritten⟩
    · rw [hpush] at hpushed
      have hcsp := csp_push_undefineds hpush
      refine inside_undefineds_then (inside_push hpushed []) ?_ _ _ _
      show first.csp < s'.csp
      omega
    · rwa [hpush] at hpushed

theorem inside_push_control_stack (h : Inside base first s) (framekind : frame_kind)
    (err : svalue_t) : Inside base first (push_control_stack s framekind err).evaluator := by
  unfold push_control_stack
  split
  · exact inside_raise h _ _
  · have hle := h.csp_le
    refine ⟨h.stack, ?_, ?_, ?_, ?_, h.contexts⟩
    · show first.csp ≤ s.csp + 1
      omega
    · intro i hi
      simp only [Outcome.evaluator, set_frame]
      rw [if_neg (by omega)]
      exact h.frames i hi
    · intro heq
      have heq' : s.csp + 1 = first.csp := heq
      omega
    · intro _
      simp only [Outcome.evaluator, set_frame]
      split
      · rename_i heq
        exact h.outside heq.symm
      · exact h.inside (by omega)

theorem inside_pop_control_stack (h : Inside base first s) (hin : first.csp < s.csp) :
    Inside base first (pop_control_stack s) := by
  refine ⟨h.stack, ?_, h.frames, ?_, ?_, h.contexts⟩
  · show first.csp ≤ s.csp - 1
    omega
  · intro heq
    have heq' : s.csp - 1 = first.csp := heq
    simp only [pop_control_stack, heq']
    exact h.inside hin
  · intro _
    exact h.inside hin

theorem inside_push_checked (h : Inside base first s) (sv err : svalue_t) :
    Inside base first (push_checked s sv err).evaluator := by
  unfold push_checked
  split
  · exact inside_raise (inside_push h _) _ _
  · exact inside_push h _

theorem inside_f_throw (h : Inside base first s) (hlt : base.length < s.stack.length)
    (err : svalue_t) : Inside base first (f_throw s err).evaluator := by
  unfold f_throw
  split
  · exact h
  · rename_i sv _ _
    have htake := inside_take h hlt
    have hthrown : Inside base first { take s with catch_value := sv } :=
      htake.of_frames rfl htake.stack
    simp only
    split
    · exact hthrown
    · exact inside_raise hthrown _ _

/-! ## The way back -/

/-- The evaluator with the registers of the start, and all values still on the stack. -/
def with_registers_of (econ : error_context_t) (first s : evaluator_t) : evaluator_t :=
  { s with
    command_giver := econ.save_command_giver
    csp := first.csp
    registers := first.registers }

theorem restore_context_eq (h : Inside base first s) {econ : error_context_t}
    {rest : List error_context_t} (hcontexts : first.contexts = econ :: rest)
    (hsave : econ.save_csp = first.csp) :
    restore_context s =
      pop_n_elems (with_registers_of econ first s) (s.stack.length - econ.save_sp) := by
  have hhead : s.contexts = econ :: rest := h.contexts.trans hcontexts
  unfold restore_context
  split
  · rename_i hnil
    simp [hhead] at hnil
  · rename_i econ' rest' hcons
    rw [hhead] at hcons
    cases hcons
    simp only [hsave]
    by_cases hin : first.csp < s.csp
    · rw [if_pos hin]
      simp only [pop_control_stack, Nat.add_sub_cancel, h.inside hin]
      rfl
    · have heq : s.csp = first.csp := Nat.le_antisymm (by omega) h.csp_le
      rw [if_neg hin]
      unfold with_registers_of
      rw [← h.outside heq, ← heq]

def rest_part (s : evaluator_t) : Nat × svalue_t × Bool × Bool :=
  (s.command_giver, s.catch_value, s.too_deep_error, s.max_eval_error)

theorem rest_part_pop_values (n : Nat) (s : evaluator_t) :
    rest_part (pop_values n s) = rest_part s := by
  induction n generalizing s with
  | zero => rfl
  | succ n ih =>
    rw [pop_values, ih]
    unfold pop_stack take
    split <;> rfl

theorem freed_pop_values (n : Nat) (s : evaluator_t) :
    (pop_values n s).freed = s.freed ++ (s.stack.take n).flatten := by
  induction n generalizing s with
  | zero => simp [pop_values]
  | succ n ih =>
    rw [pop_values, ih, stack_pop_stack]
    rcases hs : s.stack with _ | ⟨sv, stack⟩
    · simp [pop_stack, hs]
    · simp [pop_stack, hs]

theorem inside_back {base' : List svalue_t} {started inner : evaluator_t}
    (h : Inside base first s) (hinner : Inside base' started inner)
    (hstarted : started.csp = s.csp ∧ started.control_stack = s.control_stack)
    (hbase : ∃ top, base' = top ++ base) (hstack : ∃ top, s'.stack = top ++ base')
    (hframes : s'.control_stack = inner.control_stack ∧ s'.csp = s.csp ∧
      s'.registers = s.registers ∧ s'.contexts = s.contexts) : Inside base first s' := by
  obtain ⟨hcontrol, hcsp, hregisters, hcontexts⟩ := hframes
  obtain ⟨hstartedcsp, hstartedcontrol⟩ := hstarted
  have hle := h.csp_le
  have hsame : ∀ i < s.csp, s'.control_stack i = s.control_stack i := by
    intro i hi
    rw [hcontrol, hinner.frames i (by omega), hstartedcontrol]
  refine ⟨?_, ?_, ?_, ?_, ?_, hcontexts.trans h.contexts⟩
  · obtain ⟨top, htop⟩ := hstack
    obtain ⟨top', htop'⟩ := hbase
    exact ⟨top ++ top', by rw [htop, htop', append_assoc]⟩
  · rwa [hcsp]
  · intro i hi
    rw [hsame i (by omega)]
    exact h.frames i hi
  · intro heq
    rw [hregisters]
    exact h.outside (hcsp ▸ heq)
  · intro hlt
    rw [hcsp] at hlt
    rw [hsame _ hlt]
    exact h.inside hlt

end

def saved (s : evaluator_t) : evaluator_t :=
  { s with contexts := ⟨s.command_giver, s.stack.length, s.csp⟩ :: s.contexts }

theorem save_context_eq {s s₀ : evaluator_t} (h : save_context s = some s₀) : s₀ = saved s := by
  unfold save_context at h
  split at h
  · cases h
  · cases h
    rfl

theorem inside_enter (call : protected_call) (s : evaluator_t) :
    Inside (s.stack.drop call.num_arg) (saved s) (enter call (saved s)) := by
  have hstack : ∃ top, s.stack = top ++ s.stack.drop call.num_arg :=
    ⟨_, (take_append_drop call.num_arg s.stack).symm⟩
  cases call with
  | do_catch =>
    refine ⟨⟨[], rfl⟩, Nat.le_succ _, ?_, ?_, ?_, rfl⟩
    · intro i hi
      have hne : i ≠ s.csp := Nat.ne_of_lt hi
      exact if_neg hne
    · intro heq
      exact absurd heq (Nat.succ_ne_self _)
    · intro _
      exact congrArg control_stack_t.saved (if_pos rfl)
  | safe_apply _ | safe_apply_master_ob _ | safe_call_function_pointer _ =>
    exact ⟨hstack, Nat.le_refl _, fun _ _ => rfl, fun _ => rfl,
      fun hlt => absurd hlt (Nat.lt_irrefl _), rfl⟩

/-- A body of a call from `s` failed at `inner`, and the context is restored. -/
structure Restored (s inner s' : evaluator_t) : Prop where
  stack : s'.stack = inner.stack.drop (inner.stack.length - s.stack.length)
  freed : s'.freed =
    inner.freed ++ (inner.stack.take (inner.stack.length - s.stack.length)).flatten
  registers : s'.csp = s.csp ∧ s'.registers = s.registers ∧ s'.command_giver = s.command_giver
  control_stack : s'.control_stack = inner.control_stack
  contexts : s'.contexts = (saved s).contexts
  catch_value : s'.catch_value = inner.catch_value

theorem restore_context_cases {base : List svalue_t} {s inner : evaluator_t}
    (h : Inside base (saved s) inner) :
    inner.stack.length < s.stack.length ∧ restore_context inner = none ∨
      s.stack.length ≤ inner.stack.length ∧
        ∃ s', restore_context inner = some s' ∧ Restored s inner s' := by
  rw [restore_context_eq h rfl rfl]
  simp only [pop_n_elems]
  by_cases hlt : inner.stack.length < s.stack.length
  · rw [if_pos (by omega)]
    exact .inl ⟨hlt, rfl⟩
  · rw [if_neg (by omega)]
    right
    have hn : ((inner.stack.length : Int) - s.stack.length).toNat =
        inner.stack.length - s.stack.length := by omega
    rw [hn]
    generalize hstart : with_registers_of _ (saved s) inner = start
    have hframes := frames_part_pop_values (inner.stack.length - s.stack.length) start
    have hrest := rest_part_pop_values (inner.stack.length - s.stack.length) start
    simp only [frames_part, rest_part, Prod.mk.injEq] at hframes hrest
    obtain ⟨hcontrol, hcsp, hregisters, hcontexts⟩ := hframes
    refine ⟨by omega, _, rfl, ?_, ?_, ⟨?_, ?_, ?_⟩, ?_, ?_, ?_⟩
    · rw [stack_pop_values, ← hstart]
      rfl
    · rw [freed_pop_values, ← hstart]
      rfl
    · rw [hcsp, ← hstart]
      rfl
    · rw [hregisters, ← hstart]
      rfl
    · rw [hrest.1, ← hstart]
      rfl
    · rw [hcontrol, ← hstart]
      rfl
    · rw [hcontexts, ← hstart]
      exact h.contexts
    · rw [hrest.2.1, ← hstart]
      rfl

section

variable {base : List svalue_t} {first s inner : evaluator_t}

theorem restored_stack {n : Nat} (hinner : Inside (s.stack.drop n) (saved s) inner)
    (hle : s.stack.length ≤ inner.stack.length) (hs' : Restored s inner s') :
    ∃ top, s'.stack = top ++ s.stack.drop n ∧ s'.stack.length = s.stack.length := by
  obtain ⟨top, htop⟩ := hinner.stack
  refine ⟨top.drop (inner.stack.length - s.stack.length), ?_, ?_⟩
  · rw [hs'.stack]
    apply top_drop htop
    rw [length_drop]
    omega
  · rw [hs'.stack, length_drop]
    omega

theorem drop_over {n : Nat} (h : Inside base first s) (hn : base.length + n ≤ s.stack.length) :
    ∃ top, s.stack.drop n = top ++ base := by
  obtain ⟨top, htop⟩ := h.stack
  exact ⟨top.drop n, top_drop htop hn⟩

theorem inside_after_error (h : Inside base first s) {call : protected_call}
    (hn : base.length + call.num_arg ≤ s.stack.length)
    (hinner : Inside (s.stack.drop call.num_arg) (saved s) inner) {err : svalue_t} {o : Outcome}
    (ho : after_error call inner err = some o) : Inside base first o.evaluator := by
  rcases restore_context_cases hinner with ⟨-, hnone⟩ | ⟨hle, s', hs', hrestored⟩
  · cases call <;> simp [after_error, hnone] at ho
  obtain ⟨top, htop, hlen⟩ := restored_stack hinner hle hrestored
  obtain ⟨hcsp, hregisters, -⟩ := hrestored.registers
  have hback : Inside base first (pop_context s') := by
    refine inside_back h hinner ⟨rfl, rfl⟩ (drop_over h hn) ⟨top, htop⟩
      ⟨hrestored.control_stack, hcsp, hregisters, ?_⟩
    unfold pop_context
    rw [hrestored.contexts]
    rfl
  cases call with
  | do_catch =>
    simp only [after_error, hs', map_some, some.injEq] at ho
    have hcaught := inside_push hback s'.catch_value
    have hpushed : Inside base first
        (pop_context { push s' s'.catch_value with catch_value := [] }) :=
      hcaught.of_frames rfl hcaught.stack
    split at ho
    · cases ho
      exact inside_raise hpushed _ _
    · split at ho
      · cases ho
        exact inside_raise hpushed _ _
      · cases ho
        exact hpushed
  | safe_apply num_arg | safe_apply_master_ob num_arg =>
    simp only [after_error, hs', map_some, some.injEq] at ho
    cases ho
    exact hback
  | safe_call_function_pointer num_arg =>
    have hpos : ¬ (num_arg : Int) < 0 := by omega
    simp only [after_error, hs', bind_some, pop_n_elems, if_neg hpos, map_some,
      some.injEq] at ho
    cases ho
    have hframes := frames_part_pop_values num_arg s'
    obtain ⟨top', htop'⟩ := hback.stack
    refine hback.of_frames ?_ ⟨top'.drop num_arg, ?_⟩
    · simp only [frames_part, Prod.mk.injEq, pop_context] at hframes ⊢
      obtain ⟨hcontrol, hcsp', hregisters', hcontexts⟩ := hframes
      exact ⟨hcontrol, hcsp', hregisters', congrArg List.tail hcontexts⟩
    · show (pop_values num_arg s').stack = _
      rw [stack_pop_values]
      apply top_drop htop'
      show base.length + num_arg ≤ s'.stack.length
      rwa [hlen]

theorem inside_after_body (h : Inside base first s) {call : protected_call}
    (hn : base.length + call.num_arg ≤ s.stack.length)
    (hinner : Inside (s.stack.drop call.num_arg) (saved s) inner) {o : Outcome}
    (ho : after_body call inner = some o) : Inside base first o.evaluator := by
  have hhead : inner.contexts = ⟨s.command_giver, s.stack.length, s.csp⟩ :: s.contexts :=
    hinner.contexts
  obtain ⟨top, htop⟩ := hinner.stack
  unfold after_body at ho
  rw [hhead] at ho
  simp only at ho
  cases call with
  | do_catch =>
    simp only [ite_none_right_eq_some, some.injEq] at ho
    obtain ⟨hcsp, rfl⟩ := ho
    refine inside_back h hinner ⟨rfl, rfl⟩ (drop_over h hn) ⟨[] :: top, ?_⟩ ⟨rfl, ?_, ?_, ?_⟩
    · simp only [Outcome.evaluator, pop_context, push, pop_control_stack, htop]
      rfl
    · simp only [Outcome.evaluator, pop_context, push, pop_control_stack, hcsp]
      rfl
    · simp only [Outcome.evaluator, pop_context, push, pop_control_stack, hcsp,
        Nat.add_sub_cancel]
      exact hinner.inside (by rw [hcsp]; exact Nat.lt_succ_self _)
    · rfl
  | safe_apply num_arg | safe_apply_master_ob num_arg | safe_call_function_pointer num_arg =>
    simp only [ite_none_right_eq_some, some.injEq] at ho
    obtain ⟨hcsp, rfl⟩ := ho
    refine inside_back h hinner ⟨rfl, rfl⟩ (drop_over h hn) ⟨top, htop⟩ ⟨rfl, hcsp, ?_, ?_⟩
    · exact hinner.outside hcsp
    · simp only [Outcome.evaluator, pop_context, hhead]
      rfl

end

/-! ## A whole body -/

theorem in_frame_iff {base : List svalue_t} {s : evaluator_t} {econ : error_context_t}
    {rest : List error_context_t} (h : Inside base first s)
    (hcontexts : first.contexts = econ :: rest) (hsave : econ.save_csp = first.csp) :
    in_frame s = true ↔ first.csp < s.csp := by
  unfold in_frame
  rw [h.contexts, hcontexts]
  simp [hsave]

mutual

theorem inside_act {base : List svalue_t} {first : evaluator_t} {econ : error_context_t}
    {rest : List error_context_t} (hcontexts : first.contexts = econ :: rest)
    (hsave : econ.save_csp = first.csp) : ∀ (act : Act) {s : evaluator_t} {o : Outcome},
      Inside base first s → exec_act base.length act s = some o → Inside base first o.evaluator
  | .push sv, s, o, h, ho => by
    rw [exec_act] at ho
    cases ho
    exact inside_push h sv
  | .push_checked sv err, s, o, h, ho => by
    rw [exec_act] at ho
    cases ho
    exact inside_push_checked h sv err
  | .pop_stack, s, o, h, ho => by
    rw [exec_act, ite_none_right_eq_some] at ho
    obtain ⟨hlt, ho⟩ := ho
    cases ho
    exact inside_pop_stack h hlt
  | .take, s, o, h, ho => by
    rw [exec_act, ite_none_right_eq_some] at ho
    obtain ⟨hlt, ho⟩ := ho
    cases ho
    exact inside_take h hlt
  | .set_registers registers, s, o, h, ho => by
    rw [exec_act, ite_none_right_eq_some, in_frame_iff h hcontexts hsave] at ho
    obtain ⟨hin, ho⟩ := ho
    cases ho
    exact ⟨h.stack, h.csp_le, h.frames, fun heq => absurd heq (Nat.ne_of_gt hin), h.inside,
      h.contexts⟩
  | .set_command_giver ob, s, o, h, ho => by
    rw [exec_act] at ho
    cases ho
    exact h.of_frames rfl h.stack
  | .push_control_stack framekind err, s, o, h, ho => by
    rw [exec_act] at ho
    cases ho
    exact inside_push_control_stack h framekind err
  | .pop_control_stack, s, o, h, ho => by
    rw [exec_act, ite_none_right_eq_some, in_frame_iff h hcontexts hsave] at ho
    obtain ⟨hin, ho⟩ := ho
    cases ho
    exact inside_pop_control_stack h hin
  | .setup_variables actual local_ num_arg err, s, o, h, ho => by
    rw [exec_act, ite_none_right_eq_some, in_frame_iff h hcontexts hsave] at ho
    obtain ⟨⟨hin, hle⟩, ho⟩ := ho
    cases ho
    exact inside_setup_variables h hin hle local_ num_arg err
  | .setup_varargs_variables actual local_ num_arg err, s, o, h, ho => by
    rw [exec_act, ite_none_right_eq_some, in_frame_iff h hcontexts hsave] at ho
    obtain ⟨⟨hin, hle, hpos⟩, ho⟩ := ho
    cases ho
    exact inside_setup_varargs_variables h hin hle hpos local_ err
  | .error kind err, s, o, h, ho => by
    rw [exec_act] at ho
    cases ho
    exact inside_raise h kind err
  | .f_throw err, s, o, h, ho => by
    rw [exec_act, ite_none_right_eq_some] at ho
    obtain ⟨hlt, ho⟩ := ho
    cases ho
    exact inside_f_throw h hlt err
  | .protect call body err, s, o, h, ho => by
    rw [exec_act, ite_none_right_eq_some] at ho
    obtain ⟨hn, ho⟩ := ho
    rcases hs₀ : save_context s with _ | s₀
    · rw [hs₀] at ho
      cases ho
      cases call with
      | do_catch => exact inside_raise h _ _
      | safe_apply _ | safe_apply_master_ob _ | safe_call_function_pointer _ => exact h
    · obtain rfl := save_context_eq hs₀
      have hlen : (saved s).stack.length - call.num_arg =
          (s.stack.drop call.num_arg).length := length_drop.symm
      simp only [hs₀, hlen] at ho
      rcases hbody : exec (s.stack.drop call.num_arg).length body (enter call (saved s))
        with _ | ⟨inner⟩ | ⟨inner, unwritten⟩
      · rw [hbody] at ho
        cases ho
      · rw [hbody] at ho
        have hinner := inside_exec rfl rfl body (inside_enter call s) hbody
        exact inside_after_body h hn hinner ho
      · rw [hbody] at ho
        have hinner := inside_exec rfl rfl body (inside_enter call s) hbody
        exact inside_after_error h hn hinner ho

theorem inside_exec {base : List svalue_t} {first : evaluator_t} {econ : error_context_t}
    {rest : List error_context_t} (hcontexts : first.contexts = econ :: rest)
    (hsave : econ.save_csp = first.csp) : ∀ (body : List Act) {s : evaluator_t} {o : Outcome},
      Inside base first s → exec base.length body s = some o → Inside base first o.evaluator
  | [], s, o, h, ho => by
    rw [exec] at ho
    cases ho
    exact h
  | act :: body, s, o, h, ho => by
    rw [exec] at ho
    rcases hact : exec_act base.length act s with _ | ⟨s'⟩ | ⟨s', unwritten⟩
    · simp [hact] at ho
    · rw [hact] at ho
      exact inside_exec hcontexts hsave body (inside_act hcontexts hsave act h hact) ho
    · rw [hact] at ho
      cases ho
      exact inside_act hcontexts hsave act h hact

end

/-! ## Calls whose body fails -/

def above_base (base : List svalue_t) (inner : evaluator_t) : List svalue_t :=
  inner.stack.take (inner.stack.length - base.length)

/-- The call from `s`, with its arguments over `base`, is unwound after its body failed at
`inner`: the values over the base are freed, and when the call returns, the stack, the
registers and the rest are as before. The top slots that no value was written to are not
counted as values. -/
structure Unwound (call : protected_call) (base : List svalue_t) (s inner : evaluator_t)
    (unwritten : Nat) (o : Outcome) : Prop where
  freed : o.evaluator.freed = inner.freed ++ ((above_base base inner).drop unwritten).flatten
  stack : ∀ s', o = .finished s' →
    s'.stack = (if call = .do_catch then [inner.catch_value] else []) ++ base
  registers : ∀ s', o = .finished s' →
    s'.csp = s.csp ∧ s'.registers = s.registers ∧ s'.command_giver = s.command_giver
  contexts : ∀ s', o = .finished s' → s'.contexts = s.contexts

/-- When a call is unwound. The slot of a value that `STACK_CHECK` refused has no old value
with cells, `safe_apply` has no arguments, and the body of `safe_call_function_pointer` has
not taken more off the stack than it pushed. -/
def unwinds_when (call : protected_call) (base : List svalue_t) (s inner : evaluator_t)
    (unwritten : Nat) : Prop :=
  ((above_base base inner).take unwritten).flatten = [] ∧
    match call with
    | .do_catch => True
    | .safe_apply num_arg => num_arg = 0
    | .safe_apply_master_ob num_arg => num_arg = 0
    | .safe_call_function_pointer _ => s.stack.length ≤ inner.stack.length

theorem exec_act_of_fail {floor : Nat} {call : protected_call} {body : List Act} {err : svalue_t}
    {s inner : evaluator_t} {unwritten : Nat} {args base : List svalue_t}
    (hstack : s.stack = args ++ base) (hargs : args.length = call.num_arg)
    (hfloor : floor ≤ base.length) (hdepth : s.csp ≠ CFG_MAX_CALL_DEPTH)
    (hfail : exec base.length body (enter call (saved s)) = some (.failed inner unwritten)) :
    exec_act floor (.protect call body err) s = after_error call inner err := by
  have hlen : s.stack.length = call.num_arg + base.length := by
    rw [hstack, length_append, hargs]
  have hsave : save_context s = some (saved s) := if_neg hdepth
  have hstart : (saved s).stack.length - call.num_arg = base.length := by
    show s.stack.length - call.num_arg = base.length
    omega
  rw [exec_act, if_pos (by omega), hsave]
  simp [hstart, hfail]

theorem flatten_over (base : List svalue_t) (inner : evaluator_t) (unwritten : Nat) :
    inner.freed ++ (above_base base inner).flatten =
        inner.freed ++ ((above_base base inner).drop unwritten).flatten ↔
      ((above_base base inner).take unwritten).flatten = [] := by
  have hparts := congrArg List.flatten (take_append_drop unwritten (above_base base inner))
  rw [flatten_append] at hparts
  rw [append_cancel_left_eq, ← hparts]
  constructor
  · intro h
    have hlen := congrArg List.length h
    rw [length_append] at hlen
    exact eq_nil_of_length_eq_zero (by omega)
  · intro h
    rw [h, nil_append]

theorem freed_error (s : evaluator_t) (kind : error_kind) (err : svalue_t) :
    (error s kind err).evaluator.freed = s.freed := by
  unfold error raise error_handler
  simp only [Outcome.evaluator]
  split <;> rfl

theorem drop_over_base {base : List svalue_t} {inner : evaluator_t} (h : Inside base first inner) :
    inner.stack.drop (inner.stack.length - base.length) = base := by
  obtain ⟨top, htop⟩ := h.stack
  rw [htop, length_append, Nat.add_sub_cancel, drop_left]

section

variable {s inner : evaluator_t} {unwritten : Nat} {base : List svalue_t}

theorem catch_unwinds_iff (h : Inside base (saved s) inner) (hstack : s.stack = base)
    (err : svalue_t) :
    (∃ o, after_error .do_catch inner err = some o ∧
      Unwound .do_catch base s inner unwritten o) ↔
        unwinds_when .do_catch base s inner unwritten := by
  have hlen := h.length
  rcases restore_context_cases h with ⟨hlt, -⟩ | ⟨hle, s', hs', hrestored⟩
  · rw [hstack] at hlt
    omega
  have hbase := drop_over_base h
  have hstack' : s'.stack = base := by
    rw [hrestored.stack, hstack, hbase]
  have hfreed : s'.freed = inner.freed ++ (above_base base inner).flatten := by
    rw [hrestored.freed, hstack]
    rfl
  obtain ⟨hcsp, hregisters, hgiver⟩ := hrestored.registers
  unfold unwinds_when
  rw [← flatten_over, ← hfreed]
  simp only [after_error, hs', map_some, some.injEq, exists_eq_left', and_true]
  constructor
  · intro hun
    have hkept := hun.freed
    split at hkept
    · rwa [freed_error] at hkept
    · split at hkept
      · rwa [freed_error] at hkept
      · exact hkept
  · intro hkept
    split
    · refine ⟨(freed_error _ _ _).trans hkept, ?_, ?_, ?_⟩ <;> intro s'' heq <;> cases heq
    · split
      · refine ⟨(freed_error _ _ _).trans hkept, ?_, ?_, ?_⟩ <;> intro s'' heq <;> cases heq
      · refine ⟨hkept, ?_, ?_, ?_⟩
        · intro s'' heq
          cases heq
          simp only [pop_context, push, hstack', hrestored.catch_value, if_true]
          rfl
        · intro s'' heq
          cases heq
          exact ⟨hcsp, hregisters, hgiver⟩
        · intro s'' heq
          cases heq
          exact congrArg List.tail hrestored.contexts

theorem safe_apply_unwinds_iff (h : Inside base (saved s) inner) {args : List svalue_t}
    (hstack : s.stack = args ++ base) {call : protected_call} (hcall : call ≠ .do_catch)
    {err : svalue_t}
    (herror : after_error call inner err =
      (restore_context inner).map fun s => .finished (pop_context s)) :
    (∃ o, after_error call inner err = some o ∧ Unwound call base s inner unwritten o) ↔
      ((above_base base inner).take unwritten).flatten = [] ∧ args.length = 0 := by
  have hlen : s.stack.length = args.length + base.length := by
    rw [hstack, length_append]
  have hlen' := h.length
  rw [← flatten_over, herror]
  rcases restore_context_cases h with ⟨hlt, hnone⟩ | ⟨hle, s', hs', hrestored⟩
  · rw [hnone]
    constructor
    · rintro ⟨o, ho, -⟩
      cases ho
    · rintro ⟨-, hargs⟩
      omega
  obtain ⟨hcsp, hregisters, hgiver⟩ := hrestored.registers
  simp only [hs', map_some, some.injEq, exists_eq_left']
  have hfreed : args.length = 0 → s'.freed = inner.freed ++ (above_base base inner).flatten := by
    intro hargs
    rw [hrestored.freed, hlen, hargs, Nat.zero_add]
    rfl
  constructor
  · intro hun
    have hargs : args.length = 0 := by
      have hstack' := congrArg List.length (hun.stack _ rfl)
      rw [if_neg hcall, nil_append] at hstack'
      have hs'len : (pop_context s').stack.length = s.stack.length := by
        show s'.stack.length = s.stack.length
        rw [hrestored.stack, length_drop]
        omega
      omega
    exact ⟨(hfreed hargs).symm.trans hun.freed, hargs⟩
  · rintro ⟨hkept, hargs⟩
    refine ⟨(hfreed hargs).trans hkept, ?_, ?_, ?_⟩
    · intro s'' heq
      cases heq
      rw [if_neg hcall, nil_append]
      show s'.stack = base
      rw [hrestored.stack, hlen, hargs, Nat.zero_add]
      exact drop_over_base h
    · intro s'' heq
      cases heq
      exact ⟨hcsp, hregisters, hgiver⟩
    · intro s'' heq
      cases heq
      exact congrArg List.tail hrestored.contexts

theorem function_pointer_unwinds_iff (h : Inside base (saved s) inner) {args : List svalue_t}
    (hstack : s.stack = args ++ base) (err : svalue_t) :
    (∃ o, after_error (.safe_call_function_pointer args.length) inner err = some o ∧
      Unwound (.safe_call_function_pointer args.length) base s inner unwritten o) ↔
        unwinds_when (.safe_call_function_pointer args.length) base s inner unwritten := by
  have hlen : s.stack.length = args.length + base.length := by
    rw [hstack, length_append]
  unfold unwinds_when
  simp only [after_error]
  rcases restore_context_cases h with ⟨hlt, hnone⟩ | ⟨hle, s', hs', hrestored⟩
  · rw [hnone]
    constructor
    · rintro ⟨o, ho, -⟩
      cases ho
    · rintro ⟨-, hle⟩
      omega
  obtain ⟨hcsp, hregisters, hgiver⟩ := hrestored.registers
  have hpos : ¬ (args.length : Int) < 0 := by omega
  have hcount : inner.stack.length - s.stack.length + args.length =
      inner.stack.length - base.length := by omega
  have hfreed : (pop_values args.length s').freed =
      inner.freed ++ (above_base base inner).flatten := by
    rw [freed_pop_values, hrestored.freed, hrestored.stack, append_assoc,
      ← flatten_append, ← take_add, hcount]
    rfl
  have hstack' : (pop_values args.length s').stack = base := by
    rw [stack_pop_values, hrestored.stack, drop_drop, hcount]
    exact drop_over_base h
  have hframes := frames_part_pop_values args.length s'
  have hrest := rest_part_pop_values args.length s'
  simp only [frames_part, rest_part, Prod.mk.injEq] at hframes hrest
  rw [← flatten_over]
  simp only [hs', bind_some, pop_n_elems, if_neg hpos, map_some, Int.toNat_natCast,
    some.injEq, exists_eq_left', hle, and_true]
  constructor
  · intro hun
    exact hfreed.symm.trans hun.freed
  · intro hkept
    refine ⟨hfreed.trans hkept, ?_, ?_, ?_⟩
    · intro s'' heq
      cases heq
      rwa [if_neg (by intro hc; cases hc)]
    · intro s'' heq
      cases heq
      exact ⟨hframes.2.1.trans hcsp, hframes.2.2.1.trans hregisters, hrest.1.trans hgiver⟩
    · intro s'' heq
      cases heq
      exact congrArg List.tail (hframes.2.2.2.trans hrestored.contexts)

end

/-- A protected call whose body fails is unwound, and with no negative count, just when its
condition holds. -/
theorem protected_call_unwinds_iff {floor : Nat} {call : protected_call} {body : List Act}
    {err : svalue_t} {s inner : evaluator_t} {unwritten : Nat} {args base : List svalue_t}
    (hstack : s.stack = args ++ base) (hargs : args.length = call.num_arg)
    (hfloor : floor ≤ base.length) (hdepth : s.csp ≠ CFG_MAX_CALL_DEPTH)
    (hfail : exec base.length body (enter call (saved s)) = some (.failed inner unwritten)) :
    (∃ o, exec_act floor (.protect call body err) s = some o ∧
      Unwound call base s inner unwritten o) ↔ unwinds_when call base s inner unwritten := by
  rw [exec_act_of_fail hstack hargs hfloor hdepth hfail]
  have hbase : s.stack.drop call.num_arg = base := by
    rw [hstack, ← hargs, drop_left]
  have hinner : Inside base (saved s) inner :=
    inside_exec rfl rfl body (hbase ▸ inside_enter call s) hfail
  cases call with
  | do_catch =>
    obtain rfl : args = [] := eq_nil_of_length_eq_zero hargs
    exact catch_unwinds_iff hinner hstack err
  | safe_apply num_arg | safe_apply_master_ob num_arg =>
    rw [safe_apply_unwinds_iff hinner hstack (by intro hc; cases hc) rfl, hargs]
    rfl
  | safe_call_function_pointer num_arg =>
    obtain rfl : args.length = num_arg := hargs
    exact function_pointer_unwinds_iff hinner hstack err

def idle (stack : List svalue_t) : evaluator_t where
  stack := stack
  above := []
  freed := []
  control_stack := fun _ => ⟨.FRAME_FUNCTION, ⟨0, 0, 0, 0, 0, 0, 0, 0⟩, 0⟩
  csp := 0
  registers := ⟨0, 0, 0, 0, 0, 0, 0, 0⟩
  command_giver := 0
  contexts := []
  catch_value := []
  too_deep_error := false
  max_eval_error := false

/-- A function that declares `num_arg` arguments is called with `actual` ones, and fails. -/
def call_that_fails (actual num_arg : Nat) : List Act :=
  [.push_control_stack .FRAME_FUNCTION [], .setup_variables actual 0 num_arg [],
    .error .ordinary [9]]

theorem function_pointer_with_one_argument_unwinds :
    ∃ inner, exec 0 (call_that_fails 1 1)
        (enter (.safe_call_function_pointer 1) (saved (idle [[7]]))) = some (.failed inner 0) ∧
      ∃ o, exec_act 0 (.protect (.safe_call_function_pointer 1) (call_that_fails 1 1) [])
          (idle [[7]]) = some o ∧
        Unwound (.safe_call_function_pointer 1) [] (idle [[7]]) inner 0 o := by
  have hstack : (idle [[7]]).stack = [[7]] ++ [] := rfl
  refine ⟨_, rfl, ?_⟩
  rw [protected_call_unwinds_iff hstack rfl (Nat.le_refl 0) (by decide) rfl]
  exact ⟨rfl, Nat.le_refl 1⟩

/-- The argument of `safe_apply` stays on the stack. -/
theorem safe_apply_leaves_its_argument : ¬ ∀ (call : protected_call) (body : List Act)
    (err : svalue_t) (s inner : evaluator_t) (unwritten : Nat) (args base : List svalue_t),
      s.stack = args ++ base → args.length = call.num_arg → s.csp ≠ CFG_MAX_CALL_DEPTH →
      exec base.length body (enter call (saved s)) = some (.failed inner unwritten) →
        ∃ o, exec_act base.length (.protect call body err) s = some o ∧
          Unwound call base s inner unwritten o := by
  intro hall
  obtain ⟨o, ho, hun⟩ := hall (.safe_apply 1) (call_that_fails 1 1) [] (idle [[7]]) _ 0 [[7]] []
    rfl rfl (by decide) rfl
  cases ho
  have hstack := hun.stack _ rfl
  cases hstack

end mudos.error_context

-- The error contexts of the evaluator: `save_context` and `restore_context`,
-- and the four calls that go on after an error in their body. A body is any
-- row of the things that code does to the stacks and the registers, up to
-- the error in it.
namespace mudos.error_context

/-! ## The stacks -/

/-- A value on the evaluator stack, as the cells that `free_svalue` gives back. -/
abbrev svalue_t := List Nat

abbrev CFG_EVALUATOR_STACK_SIZE : Nat := 1000

abbrev CFG_MAX_CALL_DEPTH : Nat := 50

structure registers_t where
  current_object : Nat
  current_prog : Nat
  previous_ob : Nat
  caller_type : Nat
  pc : Nat
  fp : Nat
  function_index_offset : Nat
  variable_index_offset : Nat
deriving DecidableEq, Repr

inductive frame_kind
  | FRAME_FUNCTION
  | FRAME_FUNP
  | FRAME_CATCH
  | FRAME_FAKE
deriving DecidableEq, Repr

structure control_stack_t where
  framekind : frame_kind
  saved : registers_t
  num_local_variables : Nat
deriving DecidableEq, Repr

/-- `save_sp` and `save_csp` are how many values and frames there are. -/
structure error_context_t where
  save_command_giver : Nat
  save_sp : Nat
  save_csp : Nat
deriving DecidableEq, Repr

/-- The top of the evaluator stack is the head of `stack`, and `above` has what is still in
the slots above it. `freed` has the cells that were given back, in their order. The control
stack is an array, in which old frames stay above the `csp` frames that are in use. The
current error context is the head of `contexts`. -/
structure evaluator_t where
  stack : List svalue_t
  above : List svalue_t
  freed : List Nat
  control_stack : Nat → control_stack_t
  csp : Nat
  registers : registers_t
  command_giver : Nat
  contexts : List error_context_t
  catch_value : svalue_t
  too_deep_error : Bool
  max_eval_error : Bool

/-- What code comes to: it goes on, or an error jumps out of it. In an error, `sp` can be over
a slot that no value was written to. -/
inductive Outcome
  | finished (s : evaluator_t)
  | failed (s : evaluator_t) (unwritten : Nat)

/-! ## Values -/

/-- `sp++`, and the value is written. -/
def push (s : evaluator_t) (sv : svalue_t) : evaluator_t :=
  { s with stack := sv :: s.stack, above := s.above.tail }

/-- The value goes to another place, and the slot is as it was. -/
def take (s : evaluator_t) : evaluator_t :=
  match s.stack with
  | [] => s
  | sv :: stack => { s with stack, above := sv :: s.above }

/-- `free_svalue(sp--)` -/
def pop_stack (s : evaluator_t) : evaluator_t :=
  match s.stack with
  | [] => s
  | sv :: _ => { take s with freed := s.freed ++ sv }

def pop_values : (n : Nat) → evaluator_t → evaluator_t
  | 0, s => s
  | n + 1, s => pop_values n (pop_stack s)

/-- `while (n--) pop_stack();`. With a negative count it goes on for 2^32 values, through
all that is below the stack. -/
def pop_n_elems (s : evaluator_t) (n : Int) : Option evaluator_t :=
  if n < 0 then none else some (pop_values n.toNat s)

/-! ## Errors -/

inductive error_kind
  | ordinary
  | too_deep
  | max_eval
deriving DecidableEq, Repr

/-- `((current_error_context->save_csp + 1)->framekind & FRAME_MASK) == FRAME_CATCH` -/
def caught (s : evaluator_t) : Bool :=
  match s.contexts with
  | [] => false
  | econ :: _ => (s.control_stack econ.save_csp).framekind == .FRAME_CATCH

/-- `error_handler`. The text of the error is a new value. -/
def error_handler (s : evaluator_t) (err : svalue_t) : evaluator_t :=
  if caught s then { s with catch_value := err }
  else { s with too_deep_error := false, max_eval_error := false }

def raise (s : evaluator_t) (kind : error_kind) (err : svalue_t) : evaluator_t :=
  error_handler
    { s with
      too_deep_error := s.too_deep_error || kind == .too_deep
      max_eval_error := s.max_eval_error || kind == .max_eval } err

def error (s : evaluator_t) (kind : error_kind) (err : svalue_t) : Outcome :=
  .failed (raise s kind err) 0

def end_of_stack : Nat := CFG_EVALUATOR_STACK_SIZE - 5

/-- `STACK_CHECK`, and the value is written. In an overflow the error comes after `++sp`. -/
def push_checked (s : evaluator_t) (sv err : svalue_t) : Outcome :=
  if s.stack.length ≥ end_of_stack then
    .failed (raise (push s (s.above.headD [])) .too_deep err) 1
  else .finished (push s sv)

def f_throw (s : evaluator_t) (err : svalue_t) : Outcome :=
  match s.stack with
  | [] => .failed s 0
  | sv :: _ =>
    let s := { take s with catch_value := sv }
    if caught s then .failed s 0 else error s .ordinary err

/-! ## Frames -/

def set_frame (s : evaluator_t) (i : Nat) (frame : control_stack_t) : evaluator_t :=
  { s with control_stack := fun j => if j = i then frame else s.control_stack j }

/-- `push_control_stack`. The locals of the frame are set later. -/
def push_control_stack (s : evaluator_t) (framekind : frame_kind) (err : svalue_t) : Outcome :=
  if s.csp = CFG_MAX_CALL_DEPTH then error s .too_deep err
  else
    let old := s.control_stack s.csp
    .finished { set_frame s s.csp ⟨framekind, s.registers, old.num_local_variables⟩ with
      csp := s.csp + 1 }

def pop_control_stack (s : evaluator_t) : evaluator_t :=
  { s with registers := (s.control_stack (s.csp - 1)).saved, csp := s.csp - 1 }

def push_values : (n : Nat) → evaluator_t → svalue_t → evaluator_t
  | 0, s, _ => s
  | n + 1, s, sv => push_values n (push s sv) sv

/-- `push_undefineds`. An undefined value has no cells. -/
def push_undefineds (s : evaluator_t) (num : Nat) (err : svalue_t) : Outcome :=
  if s.stack.length + num > end_of_stack then error s .too_deep err
  else .finished (push_values num s [])

/-- `fp = sp - (csp->num_local_variables = local + num_arg) + 1;` -/
def set_locals (s : evaluator_t) (n : Nat) : evaluator_t :=
  let frame := s.control_stack (s.csp - 1)
  { set_frame s (s.csp - 1) { frame with num_local_variables := n } with
    registers := { s.registers with fp := s.stack.length - n } }

def Outcome.then_ (o : Outcome) (f : evaluator_t → Outcome) : Outcome :=
  match o with
  | .finished s => f s
  | .failed s unwritten => .failed s unwritten

def setup_variables (s : evaluator_t) (actual local_ num_arg : Nat) (err : svalue_t) : Outcome :=
  let o :=
    if actual > num_arg then push_undefineds (pop_values (actual - num_arg) s) local_ err
    else push_undefineds s (local_ + (num_arg - actual)) err
  o.then_ fun s => .finished (set_locals s (local_ + num_arg))

def take_values : (n : Nat) → evaluator_t → evaluator_t
  | 0, s => s
  | n + 1, s => take_values n (take s)

def setup_varargs_variables (s : evaluator_t) (actual local_ num_arg : Nat) (err : svalue_t) :
    Outcome :=
  let o :=
    if actual ≥ num_arg then
      let n := actual - num_arg + 1
      .finished (push (take_values n s) (s.stack.take n).reverse.flatten)
    else (push_undefineds s (num_arg - 1 - actual) err).then_ fun s => .finished (push s [])
  o.then_ fun s =>
    (push_undefineds s local_ err).then_ fun s => .finished (set_locals s (local_ + num_arg))

/-! ## Contexts -/

/-- `save_context`: `none` when the next frame would be too deep. -/
def save_context (s : evaluator_t) : Option evaluator_t :=
  if s.csp = CFG_MAX_CALL_DEPTH then none
  else
    some { s with contexts := ⟨s.command_giver, s.stack.length, s.csp⟩ :: s.contexts }

def pop_context (s : evaluator_t) : evaluator_t := { s with contexts := s.contexts.tail }

def restore_context (s : evaluator_t) : Option evaluator_t :=
  match s.contexts with
  | [] => none
  | econ :: _ =>
    let s := { s with command_giver := econ.save_command_giver }
    let s := if s.csp > econ.save_csp then pop_control_stack { s with csp := econ.save_csp + 1 }
      else s
    pop_n_elems s (s.stack.length - econ.save_sp)

/-! ## The protected calls -/

inductive protected_call
  | do_catch
  | safe_apply (num_arg : Nat)
  | safe_apply_master_ob (num_arg : Nat)
  | safe_call_function_pointer (num_arg : Nat)
deriving DecidableEq, Repr

/-- The arguments that are pushed before the call. -/
def protected_call.num_arg : protected_call → Nat
  | do_catch => 0
  | safe_apply num_arg => num_arg
  | safe_apply_master_ob num_arg => num_arg
  | safe_call_function_pointer num_arg => num_arg

/-- There is no room for a frame, so the body does not start. -/
def not_saved (call : protected_call) (s : evaluator_t) (err : svalue_t) : Outcome :=
  match call with
  | .do_catch => error s .ordinary err
  | _ => .finished s

/-- The evaluator when the body starts, after `save_context`. -/
def enter (call : protected_call) (s : evaluator_t) : evaluator_t :=
  match call with
  | .do_catch =>
    let old := s.control_stack s.csp
    { set_frame s s.csp ⟨.FRAME_CATCH, s.registers, old.num_local_variables⟩ with
      csp := s.csp + 1
      catch_value := [] }
  | _ => s

/-- `const1` and `const0` have no cells. -/
def after_error (call : protected_call) (s : evaluator_t) (err : svalue_t) : Option Outcome :=
  match call with
  | .do_catch =>
    (restore_context s).map fun s =>
      let s := { push s s.catch_value with catch_value := [] }
      if s.max_eval_error then error (pop_context s) .ordinary err
      else if s.too_deep_error then error (pop_context s) .ordinary err
      else .finished (pop_context s)
  | .safe_apply _ => (restore_context s).map fun s => .finished (pop_context s)
  | .safe_apply_master_ob _ => (restore_context s).map fun s => .finished (pop_context s)
  | .safe_call_function_pointer num_arg =>
    (restore_context s).bind fun s =>
      (pop_n_elems s num_arg).map fun s => .finished (pop_context s)

/-- A body that does not fail leaves the frames as they were, but that of the catch, which
`F_END_CATCH` takes off. -/
def after_body (call : protected_call) (s : evaluator_t) : Option Outcome :=
  match s.contexts with
  | [] => none
  | econ :: _ =>
    match call with
    | .do_catch =>
      if s.csp = econ.save_csp + 1 then
        some (.finished (pop_context (push (pop_control_stack { s with catch_value := [] }) [])))
      else none
    | _ => if s.csp = econ.save_csp then some (.finished (pop_context s)) else none

/-- What code does to the stacks and the registers. `take` is a value that goes from the
stack to another place, and `set_registers` is for the registers that instructions write. -/
inductive Act
  | push (sv : svalue_t)
  | push_checked (sv err : svalue_t)
  | pop_stack
  | take
  | set_registers (registers : registers_t)
  | set_command_giver (ob : Nat)
  | push_control_stack (framekind : frame_kind) (err : svalue_t)
  | pop_control_stack
  | setup_variables (actual local_ num_arg : Nat) (err : svalue_t)
  | setup_varargs_variables (actual local_ num_arg : Nat) (err : svalue_t)
  | error (kind : error_kind) (err : svalue_t)
  | f_throw (err : svalue_t)
  | protect (call : protected_call) (body : List Act) (err : svalue_t)

def in_frame (s : evaluator_t) : Bool :=
  match s.contexts with
  | [] => false
  | econ :: _ => s.csp > econ.save_csp

mutual

/-- One act of a body. The values below `floor` are not the body's, and there is no result
for an act that would take them, that writes registers with no frame that keeps them, or
that pops negative counts. -/
def exec_act (floor : Nat) : Act → evaluator_t → Option Outcome
  | .push sv, s => some (.finished (push s sv))
  | .push_checked sv err, s => some (push_checked s sv err)
  | .pop_stack, s => if s.stack.length > floor then some (.finished (pop_stack s)) else none
  | .take, s =>
    if s.stack.length > floor then some (.finished (take s)) else none
  | .set_registers registers, s =>
    if in_frame s then some (.finished { s with registers }) else none
  | .set_command_giver ob, s => some (.finished { s with command_giver := ob })
  | .push_control_stack framekind err, s => some (push_control_stack s framekind err)
  | .pop_control_stack, s =>
    if in_frame s then some (.finished (pop_control_stack s)) else none
  | .setup_variables actual local_ num_arg err, s =>
    if in_frame s ∧ s.stack.length ≥ floor + actual then
      some (setup_variables s actual local_ num_arg err)
    else none
  | .setup_varargs_variables actual local_ num_arg err, s =>
    if in_frame s ∧ s.stack.length ≥ floor + actual ∧ 0 < num_arg then
      some (setup_varargs_variables s actual local_ num_arg err)
    else none
  | .error kind err, s => some (error s kind err)
  | .f_throw err, s => if s.stack.length > floor then some (f_throw s err) else none
  | .protect call body err, s =>
    if s.stack.length ≥ floor + call.num_arg then
      match save_context s with
      | none => some (not_saved call s err)
      | some s =>
        match exec (s.stack.length - call.num_arg) body (enter call s) with
        | none => none
        | some (.finished s) => after_body call s
        | some (.failed s _) => after_error call s err
    else none

def exec (floor : Nat) : List Act → evaluator_t → Option Outcome
  | [], s => some (.finished s)
  | act :: body, s =>
    match exec_act floor act s with
    | some (.finished s) => exec floor body s
    | o => o

end

end mudos.error_context

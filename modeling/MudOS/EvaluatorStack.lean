-- The evaluator stack: the pushes that check for its end, the pushes that rely
-- on the five slots after `end_of_stack`, and the instructions that move `sp`
-- by a size which is known only at run time.
import MudOS.Library.Runs
import Mathlib.Tactic.Common

namespace mudos.evaluator_stack

/-! ## The stacks -/

/-- Slots are counted from `start_of_stack`. -/
abbrev CFG_EVALUATOR_STACK_SIZE : Int := 1000

abbrev end_of_stack : Int := CFG_EVALUATOR_STACK_SIZE - 5

abbrev CFG_MAX_CALL_DEPTH : Nat := 50

inductive svalue_t
  | T_INVALID
  | T_NUMBER (number : Int)
  | T_STRING (text : String)
  | T_ARRAY (item : List svalue_t)
  | T_CLASS (item : List svalue_t)
  | T_MAPPING (indices : List svalue_t)
  | T_LVALUE

inductive framekind_t
  | FRAME_FUNCTION
  | FRAME_FUNP
  | FRAME_CATCH
  | FRAME_FAKE
deriving DecidableEq

/-- A frame has no local variables until they are pushed. -/
structure control_stack_t where
  framekind : framekind_t
  num_local_variables : Nat
  fp : Int

/-- `in_catch` is for the context of a `do_catch`. -/
structure error_context_t where
  save_sp : Int
  save_csp : Nat
  in_catch : Bool

/-- `written` lists the slots of the evaluator stack that have been written, `errors` the
errors, both the last one first. An error is `raised` until it is handled. -/
structure evaluator_t where
  slots : Int → svalue_t
  sp : Int
  fp : Int
  csp : List control_stack_t
  contexts : List error_context_t
  num_varargs : Int
  catch_value : svalue_t
  too_deep_error : Bool
  raised : Bool
  errors : List String
  written : List Int

def start_of_evaluator : evaluator_t where
  slots := fun _ => .T_INVALID
  sp := -1
  fp := 0
  csp := []
  contexts := []
  num_varargs := 0
  catch_value := .T_NUMBER 0
  too_deep_error := false
  raised := false
  errors := []
  written := []

/-- What a piece of code comes to: a state, or an error and the state in which it is raised. -/
abbrev result_t := Except (String × evaluator_t) evaluator_t

def error (text : String) (s : evaluator_t) : result_t := .error (text, s)

def stack_overflow (s : evaluator_t) : result_t :=
  error "stack overflow\n" { s with too_deep_error := true }

def write (i : Int) (sv : svalue_t) (s : evaluator_t) : evaluator_t :=
  { s with slots := Function.update s.slots i sv, written := i :: s.written }

/-- The values of `n` slots from `i` on. -/
def values (s : evaluator_t) (i : Int) (n : Nat) : List svalue_t :=
  (List.range n).map fun (k : Nat) => s.slots (i + k)

/-! ## Pushes -/

/-- The macro moves `sp` also when it finds no room. -/
def STACK_CHECK (s : evaluator_t) : result_t :=
  let s := { s with sp := s.sp + 1 }
  if s.sp ≥ end_of_stack then stack_overflow s else .ok s

def push_checked (sv : svalue_t) (s : evaluator_t) : result_t := do
  let s ← STACK_CHECK s
  .ok (write s.sp sv s)

def push_number (n : Int) : evaluator_t → result_t := push_checked (.T_NUMBER n)

def push_undefined : evaluator_t → result_t := push_checked (.T_NUMBER 0)

def copy_and_push_string (p : String) : evaluator_t → result_t := push_checked (.T_STRING p)

def share_and_push_string (p : String) : evaluator_t → result_t := push_checked (.T_STRING p)

def push_constant_string (p : String) : evaluator_t → result_t := push_checked (.T_STRING p)

/-- `*++sp = sv`, with no check. -/
def push (sv : svalue_t) (s : evaluator_t) : evaluator_t :=
  write (s.sp + 1) sv { s with sp := s.sp + 1 }

def push_svalue (sv : svalue_t) : evaluator_t → evaluator_t := push sv

def push_array (v : List svalue_t) : evaluator_t → evaluator_t := push (.T_ARRAY v)

def push_refed_array (v : List svalue_t) : evaluator_t → evaluator_t := push (.T_ARRAY v)

def push_mapping (m : List svalue_t) : evaluator_t → evaluator_t := push (.T_MAPPING m)

def push_refed_mapping (m : List svalue_t) : evaluator_t → evaluator_t := push (.T_MAPPING m)

def push_class (v : List svalue_t) : evaluator_t → evaluator_t := push (.T_CLASS v)

def push_refed_class (v : List svalue_t) : evaluator_t → evaluator_t := push (.T_CLASS v)

def push_malloced_string (p : String) : evaluator_t → evaluator_t := push (.T_STRING p)

def push_shared_string (p : String) : evaluator_t → evaluator_t := push (.T_STRING p)

/-- `while (num--)` and a push. -/
def push_all : List svalue_t → evaluator_t → evaluator_t
  | [], s => s
  | sv :: svs, s => push_all svs (push sv s)

def push_some_svalues (v : List svalue_t) (s : evaluator_t) : result_t :=
  if s.sp + v.length ≥ end_of_stack then stack_overflow s else .ok (push_all v s)

/-- The `memcpy` writes what the pushes write. -/
def transfer_push_some_svalues (v : List svalue_t) (s : evaluator_t) : result_t :=
  if s.sp + v.length ≥ end_of_stack then stack_overflow s else .ok (push_all v s)

def push_undefineds (num : Nat) (s : evaluator_t) : result_t :=
  if s.sp + num ≥ end_of_stack then stack_overflow s
  else .ok (push_all (List.replicate num (.T_NUMBER 0)) s)

def pop_n_elems (n : Nat) (s : evaluator_t) : evaluator_t := { s with sp := s.sp - n }

/-! ## Frames -/

def push_control_stack (frkind : framekind_t) (s : evaluator_t) : result_t :=
  if s.csp.length = CFG_MAX_CALL_DEPTH then
    error "Too deep recursion.\n" { s with too_deep_error := true }
  else .ok { s with csp := ⟨frkind, 0, s.fp⟩ :: s.csp }

def pop_control_stack (s : evaluator_t) : evaluator_t :=
  match s.csp with
  | [] => s
  | f :: rest => { s with fp := f.fp, csp := rest }

/-- `fp = sp - (csp->num_local_variables = n) + 1` -/
def set_locals (n : Nat) (s : evaluator_t) : evaluator_t :=
  match s.csp with
  | [] => s
  | f :: rest =>
    { s with fp := s.sp - n + 1, csp := { f with num_local_variables := n } :: rest }

def setup_variables (actual : Int) (num_local num_arg : Nat) (s : evaluator_t) : result_t := do
  let tmp := actual - num_arg
  let s ←
    if tmp > 0 then push_undefineds num_local (pop_n_elems tmp.toNat s)
    else push_undefineds (num_local - tmp).toNat s
  .ok (set_locals (num_local + num_arg) s)

/-- The arguments from the last one of the function on become an array. -/
def setup_varargs_variables (actual : Int) (num_local num_arg : Nat) (s : evaluator_t) :
    result_t := do
  let s ←
    if actual ≥ num_arg then
      let n := (actual - num_arg + 1).toNat
      .ok (push_refed_array (values s (s.sp - n + 1) n) (pop_n_elems n s))
    else do
      let s ← push_undefineds (num_arg - 1 - actual).toNat s
      .ok (push_refed_array [] s)
  let s ← push_undefineds num_local s
  .ok (set_locals (num_local + num_arg) s)

structure function_t where
  num_arg : Nat
  num_local : Nat
  true_varargs : Bool

/-- The end of `setup_new_frame`, for the function that it has found. -/
def setup_frame (func : function_t) (actual : Int) (s : evaluator_t) : result_t :=
  if func.true_varargs then setup_varargs_variables actual func.num_local func.num_arg s
  else setup_variables actual func.num_local func.num_arg s

def call_function_by_address (func : function_t) (n : Nat) (s : evaluator_t) : result_t := do
  let s ← push_control_stack .FRAME_FUNCTION s
  setup_frame func (n + s.num_varargs) { s with num_varargs := 0 }

def apply_low (func : function_t) (num_arg : Nat) (s : evaluator_t) : result_t := do
  let s ← push_control_stack .FRAME_FUNCTION s
  setup_frame func num_arg s

def f_return (s : evaluator_t) : Option evaluator_t :=
  match s.csp with
  | [] => none
  | f :: _ =>
    if f.num_local_variables = 0 then some (pop_control_stack s)
    else
      let sv := s.slots s.sp
      some (pop_control_stack (push sv (pop_n_elems (f.num_local_variables + 1) s)))

def f_return_zero (s : evaluator_t) : Option evaluator_t :=
  match s.csp with
  | [] => none
  | f :: _ => some (pop_control_stack (push (.T_NUMBER 0) (pop_n_elems f.num_local_variables s)))

/-! ## Moves of whole blocks -/

/-- `while (n--) { *t = *(t - k); t--; }` -/
def move_up (k : Int) : Nat → Int → evaluator_t → evaluator_t
  | 0, _, s => s
  | n + 1, t, s => move_up k n (t - 1) (write t (s.slots (t - k)) s)

/-- `while (n--) { *t = *(t + 1); t++; }` -/
def close_gap : Nat → Int → evaluator_t → evaluator_t
  | 0, _, s => s
  | n + 1, t, s => close_gap n (t + 1) (write t (s.slots (t + 1)) s)

/-- The values are assigned to the slots from `t` on downwards. -/
def assign_down : List svalue_t → Int → evaluator_t → evaluator_t
  | [], _, s => s
  | sv :: svs, t, s => assign_down svs (t - 1) (write t sv s)

/-- Gives also the number of arguments after the merge. -/
def merge_arg_lists (num_arg : Nat) (arr : List svalue_t) (start : Nat) (s : evaluator_t) :
    evaluator_t × Nat :=
  let num_arr_arg := arr.length - start
  if num_arr_arg = 0 then (s, num_arg)
  else
    let s := { s with sp := s.sp + num_arr_arg }
    let s := move_up num_arr_arg num_arg s.sp s
    (assign_down (arr.drop start).reverse (s.sp - num_arg) s, num_arg + num_arr_arg)

/-- For an array of two or more elements, the values above it move up, and the elements are
assigned, or copied where nothing else refers to the array. -/
def expand_varargs (i : Nat) (s : evaluator_t) : result_t :=
  match s.slots (s.sp - i) with
  | .T_ARRAY item =>
    let n := item.length
    let t := s.sp - i
    let s := { s with num_varargs := s.num_varargs + (n - 1) }
    match item with
    | [] => .ok (pop_n_elems 1 (close_gap i t s))
    | [sv] => .ok (write t sv s)
    | _ =>
      let s := { s with sp := s.sp + (n - 1) }
      .ok (assign_down item.reverse (t + (n - 1)) (move_up (n - 1) i s.sp s))
  | _ => error "Item being expanded with ... is not an array\n" s

/-- What `f_sscanf` and `f_parse_command` do with the stack: the operands move over the slots of
the lvalues, and the number of matches takes the place of the first operand. -/
def rvalue_frame (operands num_arg : Nat) (found : List svalue_t) (num_matches : Int)
    (s : evaluator_t) : evaluator_t :=
  let fp := s.sp - (operands - 1)
  let s := { s with sp := s.sp + num_arg + 1 }
  let s := write fp (.T_NUMBER 0) (move_up (num_arg + 1) operands s.sp s)
  let s := assign_down (List.replicate num_arg .T_INVALID) (fp + num_arg) s
  let s := assign_down (found.take num_arg) (fp + num_arg) s
  write fp (.T_NUMBER num_matches) (pop_n_elems operands s)

def f_sscanf (num_arg : Nat) (found : List svalue_t) (num_matches : Int) :
    evaluator_t → evaluator_t := rvalue_frame 2 num_arg found num_matches

def f_parse_command (num_arg : Nat) (found : List svalue_t) (num_matches : Int) :
    evaluator_t → evaluator_t := rvalue_frame 3 num_arg found num_matches

/-- The count is an `unsigned short`. -/
def aggregate_count (n : Nat) (s : evaluator_t) : Nat := ((n + s.num_varargs) % 65536).toNat

def aggregate (max_array_size n : Nat) (s : evaluator_t) : result_t :=
  let offset := aggregate_count n s
  let s := { s with num_varargs := 0 }
  if offset > max_array_size then error "Illegal array size.\n" s
  else .ok (push (.T_ARRAY (values s (s.sp - offset + 1) offset)) (pop_n_elems offset s))

def aggregate_assoc (n : Nat) (s : evaluator_t) : evaluator_t :=
  let offset := aggregate_count n s
  let keys := (List.range (offset / 2)).map fun (k : Nat) => s.slots (s.sp - offset + 1 + 2 * k)
  push (.T_MAPPING keys) (pop_n_elems offset { s with num_varargs := 0 })

def new_class (size : Nat) (s : evaluator_t) : evaluator_t :=
  push_refed_class (values s (s.sp - size + 1) size) (pop_n_elems size s)

/-- The count of what is left is in the number. A bad type is an error. -/
def foreach (of_mapping : Bool) (s : evaluator_t) : result_t :=
  match of_mapping, s.slots s.sp with
  | true, .T_MAPPING indices =>
    .ok (push .T_LVALUE (push .T_LVALUE (push (.T_NUMBER indices.length)
      (push_refed_array indices s))))
  | false, .T_STRING text => .ok (push .T_LVALUE (push (.T_NUMBER text.length) s))
  | false, .T_ARRAY item => .ok (push .T_LVALUE (push (.T_NUMBER item.length) s))
  | _, _ => error "Bad argument 2 to foreach\n" s

def exit_foreach (s : evaluator_t) : evaluator_t :=
  match s.slots (s.sp - 1) with
  | .T_LVALUE => pop_n_elems 5 s
  | _ => pop_n_elems 3 s

/-- The slot of the count: it is below the lvalue or the two lvalues. -/
def foreach_count (s : evaluator_t) : Int :=
  match s.slots (s.sp - 1) with
  | .T_LVALUE => s.sp - 2
  | _ => s.sp - 1

def next_foreach (s : evaluator_t) : evaluator_t :=
  match s.slots (foreach_count s) with
  | .T_NUMBER n =>
    if n = 0 then exit_foreach s else write (foreach_count s) (.T_NUMBER (n - 1)) s
  | _ => exit_foreach s

/-! ## Function pointers -/

def setup_fake_frame (s : evaluator_t) : result_t := push_control_stack .FRAME_FAKE s

/-- A pointer to a local function or a functional. -/
def call_function_pointer (args : List svalue_t) (num_arg : Nat) (func : function_t)
    (s : evaluator_t) : result_t := do
  let s ← setup_fake_frame s
  let s ← push_control_stack .FRAME_FUNP { s with fp := s.sp - num_arg + 1 }
  let (s, num_arg) := merge_arg_lists num_arg args 0 s
  setup_frame func num_arg s

/-- A pointer to an efun. What the efun does follows, and then `remove_fake_frame`. -/
def call_efun_pointer (args : List svalue_t) (num_arg : Nat) (s : evaluator_t) : result_t := do
  let s ← setup_fake_frame s
  .ok (merge_arg_lists num_arg args 0 { s with fp := s.sp - num_arg + 1 }).1

def remove_fake_frame (s : evaluator_t) : evaluator_t := pop_control_stack s

/-! ## Errors -/

def save_context (in_catch : Bool) (s : evaluator_t) : Option evaluator_t :=
  if s.csp.length = CFG_MAX_CALL_DEPTH then none
  else some { s with contexts := ⟨s.sp, s.csp.length, in_catch⟩ :: s.contexts }

def pop_context (s : evaluator_t) : evaluator_t := { s with contexts := s.contexts.tail }

/-- The begin of `do_catch`. Its frame does not set the number of local variables: `stale` is
what the place on the control stack holds. -/
def do_catch (stale : Nat) (s : evaluator_t) : result_t :=
  match save_context true s with
  | none => error "Can't catch too deep recursion error.\n" s
  | some s => .ok { s with csp := ⟨.FRAME_CATCH, stale, s.fp⟩ :: s.csp }

def end_catch (s : evaluator_t) : result_t := do
  let s ← push_number 0 (pop_control_stack s)
  .ok (pop_context s)

/-- Refused where `sp` is below what was saved: the loop of `pop_n_elems` does not end there. -/
def restore_context (econ : error_context_t) (s : evaluator_t) : Option evaluator_t :=
  if s.sp < econ.save_sp then none
  else
    let frames := s.csp.drop (s.csp.length - econ.save_csp - 1)
    let s := if s.csp.length > econ.save_csp then pop_control_stack { s with csp := frames } else s
    some { s with sp := econ.save_sp }

/-- What follows the jump: a `do_catch` pushes the value, and raises an error of its own where
the stack was too deep. -/
def longjmp (s : evaluator_t) : Option result_t :=
  match s.contexts with
  | [] => none
  | econ :: _ =>
    (restore_context econ s).map fun s =>
      if econ.in_catch then
        let s := push s.catch_value { s with raised := false }
        let s := pop_context { s with catch_value := .T_NUMBER 1 }
        if s.too_deep_error then error "Can't catch too deep recursion error.\n" s else .ok s
      else .ok (pop_context { s with raised := false, too_deep_error := false })

/-- The mapping that `mudlib_error_handler` pushes, and a 1 for a caught error. -/
def mudlib_error_handler (caught : Bool) (m : List svalue_t) (s : evaluator_t) : evaluator_t :=
  let s := push_refed_mapping m { s with raised := false }
  if caught then push (.T_NUMBER 1) s else s

/-! ## The machine -/

/-- The local variables of the function that runs. A catch runs in its function. -/
def locals : List control_stack_t → Nat
  | [] => 0
  | f :: rest =>
    match f.framekind with
    | .FRAME_CATCH => locals rest
    | _ => f.num_local_variables

/-- Instructions, and what efuns and the driver do with the stack. `operator` leaves its value
in the place of the first of its operands, of which there are `num + 1`. A value that is not on
the stack (a global variable, a result) is part of the action. -/
inductive action
  | F_NUMBER (n : Int)
  | F_STRING (p : String)
  | F_LOCAL (i : Nat)
  | F_TRANSFER_LOCAL (i : Nat)
  | F_GLOBAL (sv : svalue_t)
  | F_LOCAL_LVALUE (i : Nat)
  | F_GLOBAL_LVALUE
  | F_VOID_ASSIGN_LOCAL (i : Nat)
  | F_POP_VALUE
  | operator (num : Nat) (sv : svalue_t)
  | assign_local (i : Nat) (sv : svalue_t)
  | F_AGGREGATE (n : Nat)
  | F_AGGREGATE_ASSOC (n : Nat)
  | F_NEW_CLASS (size : Nat)
  | F_NEW_EMPTY_CLASS (size : Nat)
  | F_FOREACH (of_mapping : Bool)
  | F_NEXT_FOREACH
  | F_EXIT_FOREACH
  | F_EXPAND_VARARGS (i : Nat)
  | F_SSCANF (num_arg : Nat) (found : List svalue_t) (num_matches : Int)
  | F_PARSE_COMMAND (num_arg : Nat) (found : List svalue_t) (num_matches : Int)
  | F_CALL_FUNCTION_BY_ADDRESS (func : function_t) (n : Nat)
  | F_RETURN
  | F_RETURN_ZERO
  | F_CATCH (stale : Nat)
  | F_END_CATCH
  | F_TIME_EXPRESSION (sec usec : Int)
  | F_END_TIME_EXPRESSION (usec : Int)
  | push_checked (sv : svalue_t)
  | push (sv : svalue_t)
  | push_some_svalues (v : List svalue_t)
  | transfer_push_some_svalues (v : List svalue_t)
  | pop_n_elems (n : Nat)
  | apply_low (func : function_t) (num_arg : Nat)
  | call_function_pointer (args : List svalue_t) (num_arg : Nat) (func : function_t)
  | call_efun_pointer (args : List svalue_t) (num_arg : Nat)
  | remove_fake_frame
  | save_context
  | pop_context
  | error (text : String)
  | mudlib_error_handler (caught : Bool) (m : List svalue_t)
  | longjmp

/-- An action where no error is raised. `none` is for what compiled code does not do. -/
def eval_instruction (max_array_size : Nat) (s : evaluator_t) : action → Option result_t
  | .F_NUMBER n => some (push_number n s)
  | .F_STRING p => some (.ok (push_shared_string p s))
  | .F_LOCAL i => some (.ok (push_svalue (s.slots (s.fp + i)) s))
  | .F_TRANSFER_LOCAL i =>
    if i < locals s.csp then
      some (.ok (write (s.fp + i) (.T_NUMBER 0) (push_svalue (s.slots (s.fp + i)) s)))
    else none
  | .F_GLOBAL sv => some (.ok (push_svalue sv s))
  | .F_LOCAL_LVALUE _ => some (.ok (push .T_LVALUE s))
  | .F_GLOBAL_LVALUE => some (.ok (push .T_LVALUE s))
  | .F_VOID_ASSIGN_LOCAL i =>
    if i < locals s.csp then
      some (.ok (pop_n_elems 1 (write (s.fp + i) (s.slots s.sp) s)))
    else none
  | .F_POP_VALUE => some (.ok (pop_n_elems 1 s))
  | .operator num sv => some (.ok (write (s.sp - num) sv (pop_n_elems num s)))
  | .assign_local i sv => if i < locals s.csp then some (.ok (write (s.fp + i) sv s)) else none
  | .F_AGGREGATE n => some (aggregate max_array_size n s)
  | .F_AGGREGATE_ASSOC n => some (.ok (aggregate_assoc n s))
  | .F_NEW_CLASS size => some (.ok (new_class size s))
  | .F_NEW_EMPTY_CLASS size =>
    some (.ok (push_refed_class (List.replicate size (.T_NUMBER 0)) s))
  | .F_FOREACH of_mapping => some (foreach of_mapping s)
  | .F_NEXT_FOREACH => some (.ok (next_foreach s))
  | .F_EXIT_FOREACH => some (.ok (exit_foreach s))
  | .F_EXPAND_VARARGS i => some (expand_varargs i s)
  | .F_SSCANF num_arg found num_matches => some (.ok (f_sscanf num_arg found num_matches s))
  | .F_PARSE_COMMAND num_arg found num_matches =>
    some (.ok (f_parse_command num_arg found num_matches s))
  | .F_CALL_FUNCTION_BY_ADDRESS func n => some (call_function_by_address func n s)
  | .F_RETURN => (f_return s).map .ok
  | .F_RETURN_ZERO => (f_return_zero s).map .ok
  | .F_CATCH stale => some (do_catch stale s)
  | .F_END_CATCH => some (end_catch s)
  | .F_TIME_EXPRESSION sec usec => some (push_number sec s >>= push_number usec)
  | .F_END_TIME_EXPRESSION usec => some (push_number usec (pop_n_elems 2 s))
  | .push_checked sv => some (push_checked sv s)
  | .push sv => some (.ok (push sv s))
  | .push_some_svalues v => some (push_some_svalues v s)
  | .transfer_push_some_svalues v => some (transfer_push_some_svalues v s)
  | .pop_n_elems n => some (.ok (pop_n_elems n s))
  | .apply_low func num_arg => some (apply_low func num_arg s)
  | .call_function_pointer args num_arg func => some (call_function_pointer args num_arg func s)
  | .call_efun_pointer args num_arg => some (call_efun_pointer args num_arg s)
  | .remove_fake_frame => some (.ok (remove_fake_frame s))
  | .save_context => (save_context false s).map .ok
  | .pop_context => some (.ok (pop_context s))
  | .error text => some (error text s)
  | .mudlib_error_handler _ _ => none
  | .longjmp => longjmp s

/-- An error that is raised is handled: the master may be told, and then it is unwound. -/
def handle_error (s : evaluator_t) : action → Option result_t
  | .mudlib_error_handler caught m => some (.ok (mudlib_error_handler caught m s))
  | .longjmp => longjmp s
  | _ => none

/-- The state after the code has come to its end or to an error. -/
def settle : result_t → evaluator_t
  | .ok s => s
  | .error (text, s) =>
    { s with raised := true, errors := text :: s.errors, catch_value := .T_STRING text }

def step (max_array_size : Nat) (s : evaluator_t) (a : action) : Option evaluator_t :=
  (if s.raised then handle_error s a else eval_instruction max_array_size s a).map settle

end mudos.evaluator_stack

-- The argument lists of calls: the code that `generate_expr_list` emits for a
-- list with `x...` in it, and how the evaluator runs it with its one global
-- count `num_varargs`. Beside it stands the meaning of the list itself, in
-- which the elements of an array take the place of the `x...`.
import MudOS.Library.Runs

namespace mudos.argument_lists

/-! ## Values -/

/-- Texts are numbers. A mapping is the list of its keys and values. -/
inductive svalue_t
  | T_NUMBER (number : Int)
  | T_STRING (text : Nat)
  | T_ARRAY (item : List svalue_t)
  | T_MAPPING (item : List svalue_t)

/-! ## The tree -/

/-- The instructions that take as many values as their list pushed. -/
inductive call_t
  | F_CALL_FUNCTION_BY_ADDRESS (index : Nat)
  | F_CALL_INHERITED (index : Nat)
  | F_SIMUL_EFUN (index : Nat)
  | F_EFUNV (efun : Nat)
  | F_AGGREGATE
  | F_AGGREGATE_ASSOC
deriving DecidableEq

mutual

/-- Expressions. `operator` is for all instructions with a fixed number of operands, and for
the efuns that have one, and for values: these have no operands. -/
inductive expr_t
  | operator (op : Nat) (operands : expr_list_t)
  | call (kind : call_t) (args : expr_list_t)
  | cond (test then_ else_ : expr_t)
  | land_lor (is_lor : Bool) (l r : expr_t)
  | catch_ (body : stmt_t)

/-- An expression list: the flag of a node is for `x...`. -/
inductive expr_list_t
  | nil
  | cons (expr : expr_t) (expand : Bool) (rest : expr_list_t)

/-- Statements. A loop tests first, and runs `inc` after its body. -/
inductive stmt_t
  | expr (expr : expr_t)
  | seq (first second : stmt_t)
  | cond (test : expr_t) (then_ else_ : stmt_t)
  | loop (test : expr_t) (body inc : stmt_t)
  | break_
  | continue_
  | return_ (expr : expr_t)

end

namespace expr_list_t

def length : expr_list_t → Nat
  | nil => 0
  | cons _ _ rest => rest.length + 1

def expands : expr_list_t → List Bool
  | nil => []
  | cons _ expand rest => expand :: rest.expands

end expr_list_t

/-! ## The code -/

/-- The code of an expression or of a statement. The code that a branch jumps over is in its
instruction, and so is the code of a catch. `list_begins` is no instruction: it marks where
the code of a list begins. -/
inductive instr_t
  | list_begins
  | operator (op : Nat) (num : Nat)
  | F_EXPAND_VARARGS (n : Nat)
  | call (kind : call_t) (num : Nat)
  | F_POP_VALUE
  | branch (then_ else_ : List instr_t)
  | land_lor (is_lor : Bool) (r : List instr_t)
  | F_CATCH (body : List instr_t)
  | loop (test body inc : List instr_t)
  | F_BREAK
  | F_CONTINUE
  | F_RETURN

/-- The operand of a call: a byte, but two bytes for an aggregate. -/
def call_operand (kind : call_t) (num : Nat) : Nat :=
  match kind with
  | .F_AGGREGATE => num % 65536
  | .F_AGGREGATE_ASSOC => num % 65536
  | _ => num % 256

/-- `n--; if (pn->type & 1)` and the instruction, for each node of the list. -/
def expansions : List Bool → List instr_t
  | [] => []
  | expand :: rest =>
    if expand then .F_EXPAND_VARARGS (rest.length % 256) :: expansions rest else expansions rest

mutual

def i_generate_node : expr_t → List instr_t
  | .operator op operands => generate_nodes operands ++ [.operator op operands.length]
  | .call kind args =>
    .list_begins :: (generate_nodes args ++
      (expansions args.expands ++ [.call kind (call_operand kind args.length)]))
  | .cond test then_ else_ =>
    i_generate_node test ++ [.branch (i_generate_node then_) (i_generate_node else_)]
  | .land_lor is_lor l r => i_generate_node l ++ [.land_lor is_lor (i_generate_node r)]
  | .catch_ body => [.F_CATCH (generate_stmt body)]

/-- The first loop of `generate_expr_list`. -/
def generate_nodes : expr_list_t → List instr_t
  | .nil => []
  | .cons expr _ rest => i_generate_node expr ++ generate_nodes rest

def generate_stmt : stmt_t → List instr_t
  | .expr expr => i_generate_node expr ++ [.F_POP_VALUE]
  | .seq first second => generate_stmt first ++ generate_stmt second
  | .cond test then_ else_ =>
    i_generate_node test ++ [.branch (generate_stmt then_) (generate_stmt else_)]
  | .loop test body inc =>
    [.loop (i_generate_node test) (generate_stmt body) (generate_stmt inc)]
  | .break_ => [.F_BREAK]
  | .continue_ => [.F_CONTINUE]
  | .return_ expr => i_generate_node expr ++ [.F_RETURN]

end

/-! ## The evaluator -/

abbrev CFG_EVALUATOR_STACK_SIZE : Nat := 1000

abbrev CFG_MAX_CALL_DEPTH : Nat := 50

/-- What happens at the lists: the evaluation of one begins, with the count that is there, and
a call takes its arguments. -/
inductive Event
  | begins (num_varargs : Int)
  | called (kind : call_t) (args : List svalue_t)

inductive error_kind
  | ordinary
  | too_deep
  | max_eval
deriving DecidableEq

/-- The evaluator in a function: the values over its locals, the locals, and how many frames
there are. `world` is all else that code can read and write. -/
structure evaluator_t (W : Type) where
  stack : List svalue_t
  locals : List svalue_t
  depth : Nat
  num_varargs : Int
  eval_cost : Nat
  world : W
  trace : List Event
  /-- No error was raised while `num_varargs` was not 0. -/
  clean : Bool

structure function_t where
  num_arg : Nat
  num_local : Nat
  true_varargs : Bool
  body : stmt_t

/-- What an efun does with its arguments: it gives a value or an error, or calls functions,
with or without an error context of its own. -/
inductive efun_run (W : Type)
  | value (world : W) (sv : svalue_t)
  | error (world : W) (err : svalue_t)
  | apply (world : W) (index : Nat) (args : List svalue_t) (next : W → svalue_t → efun_run W)
  | safe_apply (world : W) (index : Nat) (args : List svalue_t)
      (next : W → Option svalue_t → efun_run W)

/-- The programs that are loaded. An operator may read and write the locals and the world. A
function that is undefined has no body. -/
structure programs_t (W : Type) where
  functions : Nat → Option function_t
  simul_efuns : Nat → Option function_t
  operators : Nat → W → List svalue_t → List svalue_t → W × List svalue_t × Except svalue_t svalue_t
  efuns : Nat → W → List svalue_t → efun_run W
  max_cost : Nat
  max_array_size : Nat

inductive jump_t
  | break_
  | continue_
  | return_ (sv : svalue_t)

inductive Outcome (W : Type)
  | finished (s : evaluator_t W)
  | jumped (s : evaluator_t W) (jump : jump_t)
  | failed (s : evaluator_t W) (kind : error_kind) (err : svalue_t)

section

variable {W : Type}

/-- There is no result for code that does not end in the given time, and for code that would
read or write over the ends of the stack. -/
abbrev Code (W : Type) := evaluator_t W → Option (Outcome W)

def andThen (o : Option (Outcome W)) (f : Code W) : Option (Outcome W) :=
  match o with
  | some (.finished s) => f s
  | o => o

def note (s : evaluator_t W) (event : Event) : evaluator_t W :=
  { s with trace := s.trace ++ [event] }

/-- `error`. The stack is unwound by the context that the error goes to. -/
def raise (s : evaluator_t W) (kind : error_kind) (err : svalue_t) : Option (Outcome W) :=
  some (.failed { s with stack := [], clean := s.clean && s.num_varargs == 0 } kind err)

/-- `if (!--eval_cost)`, before each instruction. -/
def instruction (p : programs_t W) (f : Code W) : Code W := fun s =>
  if s.eval_cost ≤ 1 then raise { s with eval_cost := p.max_cost } .max_eval (.T_STRING 0)
  else f { s with eval_cost := s.eval_cost - 1 }

def push (s : evaluator_t W) (sv : svalue_t) : evaluator_t W := { s with stack := sv :: s.stack }

/-- The top values, the first that was pushed first. -/
def top (s : evaluator_t W) (n : Nat) : List svalue_t := (s.stack.take n).reverse

def drop (s : evaluator_t W) (n : Nat) : evaluator_t W := { s with stack := s.stack.drop n }

def run_operator (p : programs_t W) (op num : Nat) : Code W := fun s =>
  if s.stack.length < num then none
  else
    match p.operators op s.world s.locals (top s num) with
    | (world, locals, .ok sv) => some (.finished (push { drop s num with world, locals } sv))
    | (world, locals, .error err) => raise { s with world, locals } .ordinary err

def F_POP_VALUE : Code W := fun s =>
  match s.stack with
  | [] => none
  | _ :: stack => some (.finished { s with stack })

def is_zero : svalue_t → Bool
  | .T_NUMBER 0 => true
  | _ => false

def branch (then_ else_ : Code W) : Code W := fun s =>
  match s.stack with
  | [] => none
  | sv :: stack => if is_zero sv then else_ { s with stack } else then_ { s with stack }

/-- `&&` and `||`: the value stays when it decides. -/
def land_lor (is_lor : Bool) (r : Code W) : Code W := fun s =>
  match s.stack with
  | [] => none
  | sv :: stack => if is_zero sv == is_lor then r { s with stack } else some (.finished s)

def loop (test body inc : Code W) : (rounds : Nat) → Code W
  | 0 => fun _ => none
  | rounds + 1 => fun s =>
    andThen (test s)
      (branch
        (fun s =>
          match body s with
          | some (.finished s) => andThen (inc s) (loop test body inc rounds)
          | some (.jumped s .continue_) => andThen (inc s) (loop test body inc rounds)
          | some (.jumped s .break_) => some (.finished s)
          | o => o)
        fun s => some (.finished s))

def F_RETURN : Code W := fun s =>
  match s.stack with
  | [] => none
  | sv :: stack => some (.jumped { s with stack } (.return_ sv))

/-- `do_catch`. The frame of the catch is for the control stack only. The compiler refuses
`break` and `continue` in it. -/
def do_catch (body : Code W) : Code W := fun s =>
  if s.depth = CFG_MAX_CALL_DEPTH then raise s .ordinary (.T_STRING 1)
  else
    match body { s with depth := s.depth + 1 } with
    | some (.finished inner) =>
      some (.finished { inner with stack := .T_NUMBER 0 :: s.stack, depth := s.depth })
    | some (.failed inner kind err) =>
      if kind = .ordinary then
        some (.finished { inner with stack := err :: s.stack, depth := s.depth })
      else raise { inner with depth := s.depth } kind (.T_STRING 2)
    | _ => none

/-! ## Calls -/

/-- The locals of a frame: surplus arguments go, or go into an array. -/
def setup_variables (f : function_t) (args : List svalue_t) : List svalue_t :=
  let args :=
    if f.true_varargs then
      args.take (f.num_arg - 1) ++
        List.replicate (f.num_arg - 1 - args.length) (.T_NUMBER 0) ++
          [.T_ARRAY (args.drop (f.num_arg - 1))]
    else args.take f.num_arg ++ List.replicate (f.num_arg - args.length) (.T_NUMBER 0)
  args ++ List.replicate f.num_local (.T_NUMBER 0)

/-- A body runs in a frame of its own, and its value is pushed in the one of the caller. -/
def call_function (run : stmt_t → Code W) (f : function_t) (args : List svalue_t) : Code W :=
  fun s =>
    if s.depth = CFG_MAX_CALL_DEPTH then raise s .too_deep (.T_STRING 3)
    else
      match run f.body
        { s with stack := [], locals := setup_variables f args, depth := s.depth + 1 } with
      | some (.jumped inner (.return_ sv)) =>
        some (.finished
          { inner with stack := sv :: s.stack, locals := s.locals, depth := s.depth })
      | some (.failed inner kind err) =>
        some (.failed { inner with locals := s.locals, depth := s.depth } kind err)
      | _ => none

def run_efun (run : stmt_t → Code W) (p : programs_t W) : efun_run W → Code W
  | .value world sv => fun s => some (.finished (push { s with world } sv))
  | .error world err => fun s => raise { s with world } .ordinary err
  | .apply world index args next => fun s =>
    match p.functions index with
    | none => run_efun run p (next world (.T_NUMBER 0)) s
    | some f =>
      match call_function run f args { s with world } with
      | some (.finished inner) =>
        run_efun run p (next inner.world (inner.stack.headD (.T_NUMBER 0)))
          { inner with stack := s.stack }
      | o => o
  | .safe_apply world index args next => fun s =>
    match p.functions index with
    | none => run_efun run p (next world none) s
    | some f =>
      match call_function run f args { s with world } with
      | some (.finished inner) =>
        run_efun run p (next inner.world (some (inner.stack.headD (.T_NUMBER 0))))
          { inner with stack := s.stack }
      | some (.failed inner _ _) =>
        run_efun run p (next inner.world none) { inner with stack := s.stack }
      | o => o

/-- What a call checks before it reads `num_varargs`. -/
def before_call (p : programs_t W) (kind : call_t) (s : evaluator_t W) : Option error_kind :=
  match kind with
  | .F_CALL_FUNCTION_BY_ADDRESS index =>
    if (p.functions index).isNone then some .ordinary
    else if s.depth = CFG_MAX_CALL_DEPTH then some .too_deep
    else none
  | .F_CALL_INHERITED _ => if s.depth = CFG_MAX_CALL_DEPTH then some .too_deep else none
  | _ => none

def take_arguments (run : stmt_t → Code W) (p : programs_t W) (kind : call_t)
    (args : List svalue_t) : Code W := fun s =>
  let s := note s (.called kind args)
  match kind with
  | .F_CALL_FUNCTION_BY_ADDRESS index | .F_CALL_INHERITED index =>
    match p.functions index with
    | none => none
    | some f => call_function run f args s
  | .F_SIMUL_EFUN index =>
    match p.simul_efuns index with
    | none => raise s .ordinary (.T_STRING 4)
    | some f => call_function run f args s
  | .F_EFUNV efun => run_efun run p (p.efuns efun s.world args) s
  | .F_AGGREGATE =>
    if args.length > p.max_array_size then raise s .ordinary (.T_STRING 5)
    else some (.finished (push s (.T_ARRAY args)))
  | .F_AGGREGATE_ASSOC => some (.finished (push s (.T_MAPPING args)))

/-! ## The code as it runs -/

/-- `s = sp - i`, and the elements of the array take its place. -/
def F_EXPAND_VARARGS (p : programs_t W) (i : Nat) : Code W :=
  instruction p fun s =>
    match s.stack[i]? with
    | none => none
    | some (.T_ARRAY item) =>
      if s.stack.length + item.length > CFG_EVALUATOR_STACK_SIZE then none
      else
        some (.finished
          { s with
            stack := s.stack.take i ++ (item.reverse ++ s.stack.drop (i + 1))
            num_varargs := s.num_varargs + (item.length - 1) })
    | some _ => raise s .ordinary (.T_STRING 6)

/-- `offset += num_varargs` in an `unsigned short`, for the aggregates. -/
def argument_count (kind : call_t) (num : Nat) (num_varargs : Int) : Nat :=
  match kind with
  | .F_AGGREGATE => ((num + num_varargs) % 65536).toNat
  | .F_AGGREGATE_ASSOC => ((num + num_varargs) % 65536).toNat
  | _ => (num + num_varargs).toNat

def run_call (run : stmt_t → Code W) (p : programs_t W) (kind : call_t) (num : Nat) : Code W :=
  instruction p fun s =>
    match before_call p kind s with
    | some error => raise s error (.T_STRING 7)
    | none =>
      let n := argument_count kind num s.num_varargs
      if s.stack.length < n then none
      else take_arguments run p kind (top s n) { drop s n with num_varargs := 0 }

mutual

def exec_instr (run : stmt_t → Code W) (p : programs_t W) (rounds : Nat) : instr_t → Code W
  | .list_begins => fun s => some (.finished (note s (.begins s.num_varargs)))
  | .operator op num => instruction p (run_operator p op num)
  | .F_EXPAND_VARARGS n => F_EXPAND_VARARGS p n
  | .call kind num => run_call run p kind num
  | .F_POP_VALUE => instruction p F_POP_VALUE
  | .branch then_ else_ =>
    instruction p (branch (exec run p rounds then_) (exec run p rounds else_))
  | .land_lor is_lor r => instruction p (land_lor is_lor (exec run p rounds r))
  | .F_CATCH body => instruction p (do_catch (exec run p rounds body))
  | .loop test body inc =>
    loop (exec run p rounds test) (exec run p rounds body) (exec run p rounds inc) rounds
  | .F_BREAK => instruction p fun s => some (.jumped s .break_)
  | .F_CONTINUE => instruction p fun s => some (.jumped s .continue_)
  | .F_RETURN => instruction p F_RETURN

/-- `eval_instruction` -/
def exec (run : stmt_t → Code W) (p : programs_t W) (rounds : Nat) : List instr_t → Code W
  | [] => fun s => some (.finished s)
  | i :: code => fun s => andThen (exec_instr run p rounds i s) (exec run p rounds code)

end

def run_code (p : programs_t W) : (nesting : Nat) → stmt_t → Code W
  | 0, _ => fun _ => none
  | nesting + 1, body => exec (run_code p nesting) p nesting (generate_stmt body)

/-! ## The meaning of the tree -/

/-- The arguments of a call when the elements of each `x...` are put in its place. -/
def expanded : List (svalue_t × Bool) → Option (List svalue_t)
  | [] => some []
  | (sv, false) :: rest => (expanded rest).map fun args => sv :: args
  | (.T_ARRAY item, true) :: rest => (expanded rest).map fun args => item ++ args
  | (_, true) :: _ => none

/-- The instructions of the expansions, for their cost and their errors only. -/
def expand_own (p : programs_t W) : (room : Nat) → List (svalue_t × Bool) → Code W
  | _, [] => fun s => some (.finished s)
  | room, (_, false) :: rest => expand_own p room rest
  | room, (.T_ARRAY item, true) :: rest =>
    fun s => andThen
      (instruction p
        (fun s =>
          if room + item.length > CFG_EVALUATOR_STACK_SIZE then none else some (.finished s)) s)
      (expand_own p (room + item.length - 1) rest)
  | _, (_, true) :: _ => instruction p fun s => raise s .ordinary (.T_STRING 6)

def call_own (run : stmt_t → Code W) (p : programs_t W) (kind : call_t)
    (own : List (svalue_t × Bool)) (base : List svalue_t) : Code W :=
  instruction p fun s =>
    match before_call p kind s with
    | some error => raise s error (.T_STRING 7)
    | none =>
      match expanded own with
      | none => none
      | some args => take_arguments run p kind args { s with stack := base }

mutual

def eval_expr (run : stmt_t → Code W) (p : programs_t W) (rounds : Nat) : expr_t → Code W
  | .operator op operands => fun s =>
    andThen (eval_nodes run p rounds operands s)
      (instruction p (run_operator p op operands.length))
  | .call kind args => fun s =>
    andThen (eval_nodes run p rounds args (note s (.begins 0))) fun inner =>
      let own := (top inner args.length).zip args.expands
      andThen (expand_own p inner.stack.length own inner) (call_own run p kind own s.stack)
  | .cond test then_ else_ => fun s =>
    andThen (eval_expr run p rounds test s)
      (instruction p (branch (eval_expr run p rounds then_) (eval_expr run p rounds else_)))
  | .land_lor is_lor l r => fun s =>
    andThen (eval_expr run p rounds l s)
      (instruction p (land_lor is_lor (eval_expr run p rounds r)))
  | .catch_ body => instruction p (do_catch (eval_stmt run p rounds body))

def eval_nodes (run : stmt_t → Code W) (p : programs_t W) (rounds : Nat) : expr_list_t → Code W
  | .nil => fun s => some (.finished s)
  | .cons expr _ rest => fun s =>
    andThen (eval_expr run p rounds expr s) (eval_nodes run p rounds rest)

def eval_stmt (run : stmt_t → Code W) (p : programs_t W) (rounds : Nat) : stmt_t → Code W
  | .expr expr => fun s =>
    andThen (eval_expr run p rounds expr s) (instruction p F_POP_VALUE)
  | .seq first second => fun s =>
    andThen (eval_stmt run p rounds first s) (eval_stmt run p rounds second)
  | .cond test then_ else_ => fun s =>
    andThen (eval_expr run p rounds test s)
      (instruction p (branch (eval_stmt run p rounds then_) (eval_stmt run p rounds else_)))
  | .loop test body inc =>
    loop (eval_expr run p rounds test) (eval_stmt run p rounds body) (eval_stmt run p rounds inc)
      rounds
  | .break_ => instruction p fun s => some (.jumped s .break_)
  | .continue_ => instruction p fun s => some (.jumped s .continue_)
  | .return_ expr => fun s =>
    andThen (eval_expr run p rounds expr s) (instruction p F_RETURN)

end

def run_tree (p : programs_t W) : (nesting : Nat) → stmt_t → Code W
  | 0, _ => fun _ => none
  | nesting + 1, body => eval_stmt (run_tree p nesting) p nesting body

/-! ## The driver -/

/-- The driver calls a function, or does something else. -/
inductive Action (W : Type)
  | apply (index : Nat) (args : List svalue_t) (nesting : Nat)
  | other (world : W)

/-- A call by the driver, with an error context of the driver, and a new `eval_cost`. -/
def apply (run : Nat → stmt_t → Code W) (p : programs_t W) (index : Nat) (args : List svalue_t)
    (nesting : Nat) : Code W := fun s =>
  match p.functions index with
  | none => none
  | some f => call_function (run nesting) f args { s with stack := [], eval_cost := p.max_cost }

def Outcome.evaluator : Outcome W → evaluator_t W
  | .finished s => s
  | .jumped s _ => s
  | .failed s _ _ => s

def step (p : programs_t W) (s : evaluator_t W) : Action W → Option (evaluator_t W)
  | .apply index args nesting =>
    (apply (run_code p) p index args nesting s).map fun o => { o.evaluator with stack := [] }
  | .other world => some { s with world }

def start (world : W) : evaluator_t W where
  stack := []
  locals := []
  depth := 0
  num_varargs := 0
  eval_cost := 0
  world := world
  trace := []
  clean := true

end

end mudos.argument_lists

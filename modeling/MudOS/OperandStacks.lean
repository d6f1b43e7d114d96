-- The operand stack of compiled code: the code that `i_generate_node` emits
-- for a tree, and what each instruction does with the values that stand over
-- the frame pointer.
import MudOS.Library.Commands
import MudOS.ParseTrees

open mudos.commands mudos.parse_trees

namespace mudos.operand_stacks

/-! ## The code -/

/-- What the branch at the end of a loop does with the test. -/
inductive loop_branch_t
  /-- No branch is emitted. -/
  | none_
  | F_BBRANCH
  /-- A branch that takes this many values from the stack. -/
  | values (n : Nat)
  | F_NEXT_FOREACH
  /-- The offset of the branch is emitted with no instruction before it. -/
  | no_instruction
deriving DecidableEq

/-- The instructions. Code that a branch jumps over or back to is in the instruction, and so
is the code of a function that is made. `list_begins` is no instruction: it marks where the
code of a list begins, with the number of its values and the largest one that the operand of
its call can hold. `return_begins` marks where the code of a return begins. `value` is for the
instructions that push a constant or a variable. -/
inductive instr_t
  | value
  | lvalue
  | operator (op : opcode_t) (l : Nat)
  | list_begins (num limit : Nat)
  | F_EXPAND_VARARGS (n : Nat)
  | call (op : call_t) (num : Nat)
  | F_EFUN (varargs : Bool) (num : Nat) (novalue : Bool)
  | rvalues (operands num : Nat)
  | F_FUNCTION_CONSTRUCTOR (anonymous : Bool) (body : List instr_t)
  | branch (operands : Nat) (yes no : List instr_t)
  | land_lor (is_lor : Bool) (r : List instr_t)
  | loop (at_test : Bool) (block inc test : List instr_t) (branch : loop_branch_t)
  | F_BRANCH (number : control_jump_t)
  | F_SWITCH (block : List instr_t)
  | case_label
  | F_FOREACH (of_mapping : Bool)
  | return_begins
  | F_RETURN
  | F_RETURN_ZERO
  | F_CATCH (body : List instr_t)
  | F_TIME_EXPRESSION (body : List instr_t)

/-! ## The generation -/

/-- The largest operand of a call: a byte, but two bytes for an aggregate. -/
def call_limit : call_t → Nat
  | .F_AGGREGATE => 65535
  | .F_AGGREGATE_ASSOC => 65535
  | _ => 255

/-- How many values the list of a call has: in a mapping there are two for each node. -/
def call_values (op : call_t) (r : node_list_t) : Nat :=
  match op with
  | .F_AGGREGATE_ASSOC => 2 * r.length
  | _ => r.length

/-- `n--; if (pn->type & 1)` and the instruction, for each node of the list. -/
def expansions : List Bool → List instr_t
  | [] => []
  | expand :: rest =>
    if expand then .F_EXPAND_VARARGS (rest.length % 256) :: expansions rest else expansions rest

/-- An efun with a fixed number of arguments, less than four, has it in its instruction. -/
def efun_varargs (efun : efun_t) (num : Nat) : Bool := !(num < 4 && efun.max_arg.isSome)

def efun_call (efun : efun_t) (novalue_used : Bool) (num : Nat) : List instr_t :=
  let call := .F_EFUN (efun_varargs efun num)
    (if efun_varargs efun num then num % 256 else num) efun.novalue
  if novalue_used then [call, .value] else [call]

def is_loop_opcode : opcode_t → Bool
  | .F_NEXT_FOREACH | .F_LOOP_COND_LOCAL | .F_LOOP_COND_NUMBER => true
  | _ => false

/-- The numbers of `F_NEXT_FOREACH`, `F_LOOP_COND_LOCAL` and `F_LOOP_COND_NUMBER`. -/
def is_loop_number (number : Int) : Bool := number = 30 || number = 32 || number = 33

/-- The comparison of `test->v.number` with these three instructions. -/
def is_loop_test (stale : Int) : parse_node_t → Bool
  | .NODE_NUMBER number | .NODE_STRING number => is_loop_number number
  | .NODE_PARAMETER number | .NODE_PARAMETER_LVALUE number => is_loop_number number
  | .NODE_FUNCTION_CONSTRUCTOR number _ _ _ | .NODE_ANON_FUNC number _ => is_loop_number number
  | .NODE_OPCODE op | .NODE_OPCODE_1 op _ | .NODE_OPCODE_2 op _ _ => is_loop_opcode op
  | .NODE_UNARY_OP op _ | .NODE_UNARY_OP_1 op _ _ => is_loop_opcode op
  | .NODE_BINARY_OP op _ _ | .NODE_TERNARY_OP op _ _ _ => is_loop_opcode op
  | .NODE_LAND_LOR _ _ _ | .NODE_BRANCH_LINK _ _ _ => false
  | .NODE_CALL _ _ | .NODE_EFUN _ _ _ => false
  | _ => is_loop_number stale

def node_always_true : parse_node_t → Bool
  | .NODE_NUMBER number => number ≠ 0
  | _ => false

/-- The branch of a loop whose test is taken for one of the three instructions. -/
def loop_test_branch : parse_node_t → loop_branch_t
  | .NODE_OPCODE_2 _ _ _ => .values 0
  | .NODE_OPCODE _ => .F_NEXT_FOREACH
  | _ => .no_instruction

def is_next_foreach : parse_node_t → Bool
  | .NODE_OPCODE .F_NEXT_FOREACH => true
  | _ => false

mutual

/-- The depth is `foreach_depth`. The last node of a chain of links emits the code of all of
them, so a link has none of its own. -/
def i_generate_node : parse_node_t → Nat → List instr_t
  | .null, _ => []
  | .NODE_NUMBER _, _ => [.value]
  | .NODE_REAL _, _ => [.value]
  | .NODE_STRING _, _ => [.value]
  | .NODE_PARAMETER _, _ => [.value]
  | .NODE_PARAMETER_LVALUE _, _ => [.lvalue]
  | .NODE_OPCODE op, _ => [.operator op 0]
  | .NODE_OPCODE_1 op l, _ => [.operator op l]
  | .NODE_OPCODE_2 op l _, _ => [.operator op l]
  | .NODE_UNARY_OP op r, depth => i_generate_node r depth ++ [.operator op 0]
  | .NODE_UNARY_OP_1 op r l, depth => i_generate_node r depth ++ [.operator op l]
  | .NODE_BINARY_OP op l r, depth =>
    i_generate_node l depth ++ (i_generate_node r depth ++ [.operator op 0])
  | .NODE_TERNARY_OP op l r_l r_r, depth =>
    i_generate_node l depth ++
      (i_generate_node r_l depth ++ (i_generate_node r_r depth ++ [.operator op 0]))
  | .NODE_LAND_LOR is_lor l r, depth =>
    (branch_links l depth is_lor (i_generate_node r depth)).getD
      (i_generate_node l depth ++ [.land_lor is_lor (i_generate_node r depth)])
  | .NODE_BRANCH_LINK _ _ _, _ => []
  | .NODE_CALL op r, depth =>
    .list_begins (call_values op r) (call_limit op) ::
      (generate_nodes r depth ++
        (expansions r.expands ++ [.call op (call_values op r % (call_limit op + 1))]))
  | .NODE_EFUN efun novalue_used r, depth =>
    .list_begins r.length 255 ::
      (generate_nodes r depth ++
        (expansions r.expands ++ efun_call efun novalue_used r.length))
  | .NODE_TWO_VALUES l r, depth => i_generate_node l depth ++ i_generate_node r depth
  | .NODE_IF v l r, depth =>
    let (operands, n) := (i_generate_if_branch v depth false).getD (i_generate_node v depth, 1)
    operands ++ [.branch n (i_generate_node l depth) (i_generate_node r depth)]
  | .NODE_LOOP type v l r stale, depth =>
    let depth := if type = 2 then depth + 1 else depth
    let (test, branch) :=
      if is_loop_test stale r then
        (if is_next_foreach r then [] else i_generate_node r depth, loop_test_branch r)
      else (generate_conditional_branch r depth true).getD (i_generate_node r depth, .values 1)
    [.loop (!node_always_true r && type != 0) (i_generate_node v depth) (i_generate_node l depth)
      test branch]
  | .NODE_FOREACH v of_mapping, depth => i_generate_node v depth ++ [.F_FOREACH of_mapping]
  | .NODE_SWITCH l r, depth => i_generate_node l depth ++ [.F_SWITCH (i_generate_node r depth)]
  | .NODE_CASE, _ => [.case_label]
  | .NODE_CONTROL_JUMP number, _ => [.F_BRANCH number]
  | .NODE_RETURN r, depth =>
    .return_begins :: (List.replicate depth (.operator .F_EXIT_FOREACH 0) ++
      (if is_null r then [.F_RETURN_ZERO] else i_generate_node r depth ++ [.F_RETURN]))
  | .NODE_CATCH r, depth => [.F_CATCH (i_generate_node r depth)]
  | .NODE_TIME_EXPRESSION r, depth => [.F_TIME_EXPRESSION (i_generate_node r depth)]
  | .NODE_LVALUE_EFUN l r, depth =>
    generate_nodes l depth ++ (.rvalues l.length r.length :: generate_lvalue_list r depth)
  | .NODE_FUNCTION_CONSTRUCTOR _ has_args r l, depth =>
    (if has_args then
      .list_begins r.length 65535 ::
        (generate_nodes r depth ++
          (expansions r.expands ++ [.call .F_AGGREGATE (r.length % 65536)]))
    else [.value]) ++
      [.F_FUNCTION_CONSTRUCTOR false
        (if is_null l then [] else i_generate_node l depth ++ [.F_RETURN])]
  | .NODE_ANON_FUNC _ r, _ => [.F_FUNCTION_CONSTRUCTOR true (i_generate_node r 0)]

/-- The operands of the branch of an if and their number, where it is not a branch on the one
value of the test. -/
def i_generate_if_branch : parse_node_t → Nat → Bool → Option (List instr_t × Nat)
  | .NODE_UNARY_OP (.unary .F_NOT) r, depth, invert =>
    some ((i_generate_if_branch r depth !invert).getD (i_generate_node r depth, 1))
  | .NODE_BINARY_OP (.binary op) l r, depth, invert =>
    let generate_both := match op with
      | .F_EQ | .F_NE => true
      | .F_GE | .F_LE => invert
      | .F_LT | .F_GT => !invert
      | _ => false
    if generate_both then some (i_generate_node l depth ++ i_generate_node r depth, 2) else none
  | _, _, _ => none

/-- The code of a chain of links up to the operand `rest`. -/
def branch_links : parse_node_t → Nat → Bool → List instr_t → Option (List instr_t)
  | .NODE_BRANCH_LINK _ l r, depth, is_lor, rest =>
    let rest := i_generate_node r depth ++ [.land_lor is_lor rest]
    some ((branch_links l depth is_lor rest).getD
      (i_generate_node l depth ++ [.land_lor is_lor rest]))
  | _, _, _, _ => none

/-- The code of the test of a loop and the branch, where they are not the value of the test
and a branch on it. A `!= 0` is taken away once. -/
def generate_conditional_branch :
    parse_node_t → Nat → (without_ne : Bool) → Option (List instr_t × loop_branch_t)
  | .NODE_BINARY_OP (.binary op) l r, depth, without_ne =>
    if op = .F_NE && without_ne && is_zero r then
      some ((generate_conditional_branch l depth false).getD (i_generate_node l depth, .values 1))
    else if op = .F_NE && without_ne && is_zero l then
      some ((generate_conditional_branch r depth false).getD (i_generate_node r depth, .values 1))
    else if op = .F_LT then
      some (i_generate_node l depth ++ i_generate_node r depth, .values 2)
    else none
  | .NODE_UNARY_OP (.unary .F_NOT) r, depth, _ => some (i_generate_node r depth, .values 1)
  | .NODE_NUMBER number, _, _ => some ([], if number = 0 then .none_ else .F_BBRANCH)
  | .NODE_OPCODE_1 .F_WHILE_DEC l, _, _ => some ([.operator .F_WHILE_DEC l], .values 0)
  | _, _, _ => none

/-- The first loop of `generate_expr_list`. -/
def generate_nodes : node_list_t → Nat → List instr_t
  | .nil, _ => []
  | .cons expr _ rest, depth => i_generate_node expr depth ++ generate_nodes rest depth

def generate_lvalue_list : node_list_t → Nat → List instr_t
  | .nil, _ => []
  | .cons expr _ rest, depth =>
    i_generate_node expr depth ++ (.operator .F_VOID_ASSIGN 0 :: generate_lvalue_list rest depth)

end

/-! ## The evaluator -/

/-- What stands on the stack, for an instruction that looks at its type. -/
inductive slot_t
  | value
  | lvalue
deriving DecidableEq

/-- The stack over the frame pointer, the top first. -/
structure evaluator_t where
  stack : List slot_t
  num_varargs : Int
deriving DecidableEq

/-- How code is left. A return has the stack without the value that it returns, and tells
whether it is in the code of a catch or of a time expression. -/
inductive exit_t
  | jump (number : control_jump_t) (s : evaluator_t)
  | return_ (inside : Bool) (stack : List slot_t)
  | error (num_varargs : Int)
  /-- The stack has too few values, or what comes is no instruction. -/
  | lost

/-- What happens on a path: a return in the code of a catch or of a time expression, a branch
with no instruction, the count that an error or a call leaves, and the evaluation of a list
that begins. -/
inductive event_t
  | returns_inside
  | no_instruction
  | count (num_varargs : Int)
  | list (num limit : Nat)

abbrev Code := Command evaluator_t exit_t

/-- Takes values from the stack and puts others there. -/
def takes (n : Nat) (slots : List slot_t) : Code := fun s o =>
  if s.stack.length < n then o = .exits .lost
  else o = .ends { s with stack := slots ++ s.stack.drop n }

def exit_foreach : List slot_t → Option (List slot_t)
  | _ :: .lvalue :: _ :: _ :: _ :: stack => some stack
  | _ :: .value :: _ :: stack => some stack
  | _ => none

def F_EXIT_FOREACH : Code := fun s o =>
  match exit_foreach s.stack with
  | none => o = .exits .lost
  | some stack => o = .ends { s with stack }

def operands : opcode_t → Nat → Nat
  | .leaf _, _ => 0
  | .unary _, _ => 1
  | .member _, _ => 1
  | .binary _, _ => 2
  | .ternary _, _ => 3
  | .F_POP_VALUE, _ | .F_INC, _ | .F_DEC, _ | .F_VOID_ASSIGN_LOCAL, _ => 1
  | .F_VOID_ASSIGN, _ | .F_VOID_ADD_EQ, _ => 2
  | .F_NEW_CLASS, l => l
  | _, _ => 0

def results : opcode_t → List slot_t
  | .leaf .F_LOCAL_LVALUE | .leaf .F_GLOBAL_LVALUE => [.lvalue]
  | .leaf _ => [.value]
  | .unary _ => [.value]
  | .member .F_MEMBER_LVALUE => [.lvalue]
  | .member _ => [.value]
  | .binary .F_INDEX_LVALUE | .binary .F_RINDEX_LVALUE => [.lvalue]
  | .binary _ => [.value]
  | .ternary .F_NN_RANGE_LVALUE | .ternary .F_RN_RANGE_LVALUE => [.lvalue]
  | .ternary .F_RR_RANGE_LVALUE | .ternary .F_NR_RANGE_LVALUE => [.lvalue]
  | .ternary _ => [.value]
  | .F_NEW_CLASS => [.value]
  | _ => []

def operator (op : opcode_t) (l : Nat) : Code :=
  match op with
  | .F_EXIT_FOREACH => F_EXIT_FOREACH
  | op => takes (operands op l) (results op)

def F_EXPAND_VARARGS (n : Nat) : Code := fun s o =>
  if s.stack.length ≤ n then o = .exits .lost
  else ∃ size : Nat, o = .ends {
    stack := s.stack.take n ++ (List.replicate size .value ++ s.stack.drop (n + 1))
    num_varargs := s.num_varargs + size - 1 }

/-- What a foreach keeps on the stack: the variables, how far it is, and the keys of the
mapping, over the value that it is for. -/
def record (of_mapping : Bool) : List slot_t :=
  if of_mapping then [.lvalue, .lvalue, .value, .value, .value] else [.lvalue, .value, .value]

def F_BRANCH (number : control_jump_t) : Code := fun s o => o = .exits (.jump number s)

/-- Where the code of a loop or of a switch catches its own jumps. -/
def lands (number : control_jump_t) (c : Code) : Code :=
  handle c fun e =>
    match e with
    | .jump number' s => fun _ o =>
      if number' = number then o = .ends s else o = .exits (.jump number' s)
    | e => leave e

section

variable (ok : event_t → Prop)

def raises : Code := fun s o => ok (.count s.num_varargs) ∧ o = .exits (.error s.num_varargs)

/-- Any instruction can raise an error, at least the one of the evaluation cost. -/
def instruction (c : Code) : Code := either c (raises ok)

def list_begins (num limit : Nat) : Code := fun s o => ok (.list num limit) ∧ o = .ends s

/-- A call of code that may leave a count behind, whether it returns or raises an error. -/
def calls (num : Int) (slots : List slot_t) : Code := fun s o =>
  if num < 0 ∨ s.stack.length < num then o = .exits .lost
  else ∃ v, ok (.count v) ∧
    (o = .ends ⟨slots ++ s.stack.drop num.toNat, v⟩ ∨ o = .exits (.error v))

def call (op : call_t) (num : Nat) : Code := fun s =>
  match op with
  | .F_AGGREGATE | .F_AGGREGATE_ASSOC =>
    if num + s.num_varargs < 0 then fun o => o = .exits .lost
    else takes (num + s.num_varargs).toNat [.value] { s with num_varargs := 0 }
  | _ => calls ok (num + s.num_varargs) [.value] s

def F_EFUN (varargs : Bool) (num : Nat) (novalue : Bool) : Code := fun s =>
  calls ok (if varargs then num + s.num_varargs else num) (if novalue then [] else [.value]) s

/-- The branch at the end of a loop: back, or out of it. -/
def loop_branch : loop_branch_t → Command evaluator_t (Outcome evaluator_t exit_t)
  | .none_ => fun s o => o = .exits (.ends s)
  | .F_BBRANCH => fun s o => o = .ends s
  | .values n => fun s o =>
    if s.stack.length < n then o = .exits (.exits .lost)
    else
      o = .ends { s with stack := s.stack.drop n } ∨
        o = .exits (.ends { s with stack := s.stack.drop n })
  | .F_NEXT_FOREACH => fun s o =>
    match exit_foreach s.stack with
    | none => o = .exits (.exits .lost)
    | some stack => o = .ends s ∨ o = .exits (.ends { s with stack })
  | .no_instruction => fun _ o => ok .no_instruction ∧ o = .exits (.exits .lost)

def loop (at_test : Bool) (block inc test : Code) (branch : loop_branch_t) : Code :=
  let block := andThen (lands .CJ_CONTINUE block) inc
  lands .CJ_BREAK (andThen (if at_test then skip else block)
    (Rounds (andThen (inRound test) (andThen (loop_branch ok branch) (inRound block)))))

def return_begins (inside : Bool) : Code := fun s o =>
  (inside = true → ok .returns_inside) ∧ o = .ends s

def F_RETURN (inside : Bool) : Code := fun s o =>
  match s.stack with
  | [] => o = .exits .lost
  | _ :: stack => o = .exits (.return_ inside stack)

def F_RETURN_ZERO (inside : Bool) : Code := fun s o => o = .exits (.return_ inside s.stack)

/-- The value of a catch. An error that is too deep is raised again. -/
def F_CATCH (body : Code) : Code :=
  handle (andThen body (takes 0 [.value])) fun e =>
    match e with
    | .error v => fun s o => o = .ends ⟨.value :: s.stack, v⟩ ∨ o = .exits (.error v)
    | e => leave e

def is_case_label : instr_t → Bool
  | .case_label => true
  | _ => false

mutual

/-- `inside` is for the code of a catch or of a time expression. -/
def step : instr_t → (inside : Bool) → Code
  | .value, _ => takes 0 [.value]
  | .lvalue, _ => takes 0 [.lvalue]
  | .operator op l, _ => operator op l
  | .list_begins num limit, _ => list_begins ok num limit
  | .F_EXPAND_VARARGS n, _ => F_EXPAND_VARARGS n
  | .call op num, _ => call ok op num
  | .F_EFUN varargs num novalue, _ => F_EFUN ok varargs num novalue
  | .rvalues operands num, _ => takes operands (List.replicate (num + 1) .value)
  | .F_FUNCTION_CONSTRUCTOR anonymous _, _ => takes (if anonymous then 0 else 1) [.value]
  | .branch operands yes no, inside =>
    andThen (takes operands []) (either (runs yes inside) (runs no inside))
  | .land_lor _ r, inside =>
    either (takes 1 [.value]) (andThen (takes 1 []) (runs r inside))
  | .loop at_test block inc test branch, inside =>
    loop ok at_test (runs block inside) (runs inc inside) (runs test inside) branch
  | .F_BRANCH number, _ => F_BRANCH number
  | .F_SWITCH block, inside =>
    andThen (takes 1 []) (lands .CJ_BREAK_SWITCH (enters block inside))
  | .case_label, _ => skip
  | .F_FOREACH of_mapping, _ => takes 1 (record of_mapping)
  | .return_begins, inside => return_begins ok inside
  | .F_RETURN, inside => F_RETURN inside
  | .F_RETURN_ZERO, inside => F_RETURN_ZERO inside
  | .F_CATCH body, _ => F_CATCH (runs body true)
  | .F_TIME_EXPRESSION body, _ =>
    andThen (takes 0 [.value, .value]) (andThen (runs body true) (takes 2 [.value]))

def runs : List instr_t → (inside : Bool) → Code
  | [], _ => skip
  | i :: code, inside => andThen (instruction ok (step i inside)) (runs code inside)

/-- The block of a switch, from one of its labels on, or none of it. -/
def enters : List instr_t → (inside : Bool) → Code
  | [], _ => skip
  | i :: code, inside => fun s o =>
    (is_case_label i = true ∧ runs code inside s o) ∨ enters code inside s o

end

end

/-! ## Functions -/

/-- The functions that have code of their own: the ones with a name, the ones that are written
as `function`, and the ones that are written as an expression. -/
inductive function_t
  | named (body : stmt_t)
  | anonymous (number : Int) (body : stmt_t)
  | functional (body : expr_t)

/-- The code of a function, if the compiler accepts it. A functional is in the code around it,
where `foreach_depth` may not be 0. -/
def function_code : function_t → (depth : Nat) → Option (List instr_t)
  | .named body, _ => (function_body body).map fun node => i_generate_node node 0
  | .anonymous number body, _ =>
    (statement no_context body).map fun node =>
      match create_anon_func number node with
      | .NODE_ANON_FUNC _ r => i_generate_node r 0
      | _ => []
  | .functional body, depth =>
    (expr0 body).map fun node => i_generate_node node depth ++ [.F_RETURN]

end mudos.operand_stacks

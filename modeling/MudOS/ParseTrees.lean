-- The parse trees of the compiler: the nodes, what the actions of the grammar
-- build for an expression and for a statement, and how a value that nobody
-- wants is taken out of a tree.
import Mathlib.Tactic.Common

namespace mudos.parse_trees

/-! ## Operators -/

inductive leaf_op
  | F_LOCAL
  | F_GLOBAL
  | F_LOCAL_LVALUE
  | F_GLOBAL_LVALUE
  | F_NEW_EMPTY_CLASS
deriving DecidableEq

inductive unary_op
  | F_NOT
  | F_NEGATE
  | F_COMPL
  | F_PRE_INC
  | F_POST_INC
  | F_PRE_DEC
  | F_POST_DEC
deriving DecidableEq

inductive member_op
  | F_MEMBER
  | F_MEMBER_LVALUE
deriving DecidableEq

inductive binary_op
  | F_EQ
  | F_NE
  | F_LE
  | F_LT
  | F_GE
  | F_GT
  | F_INDEX
  | F_INDEX_LVALUE
  | F_RINDEX
  | F_RINDEX_LVALUE
  | F_NE_RANGE
  | F_RE_RANGE
  | F_ADD_EQ
  | F_SUB_EQ
  | F_AND_EQ
  | F_OR_EQ
  | F_XOR_EQ
  | F_LSH_EQ
  | F_RSH_EQ
  | F_MULT_EQ
  | F_DIV_EQ
  | F_MOD_EQ
  | F_ASSIGN
  | F_ADD
  | F_SUBTRACT
  | F_MULTIPLY
  | F_DIVIDE
  | F_MOD
  | F_AND
  | F_OR
  | F_XOR
  | F_LSH
  | F_RSH
deriving DecidableEq

inductive ternary_op
  | F_NN_RANGE
  | F_NN_RANGE_LVALUE
  | F_RN_RANGE
  | F_RN_RANGE_LVALUE
  | F_RR_RANGE
  | F_RR_RANGE_LVALUE
  | F_NR_RANGE
  | F_NR_RANGE_LVALUE
deriving DecidableEq

/-- The operators of expressions, and those that only the compiler makes. -/
inductive opcode_t
  | leaf (op : leaf_op)
  | unary (op : unary_op)
  | member (op : member_op)
  | binary (op : binary_op)
  | ternary (op : ternary_op)
  | F_POP_VALUE
  | F_INC
  | F_DEC
  | F_VOID_ASSIGN
  | F_VOID_ADD_EQ
  | F_VOID_ASSIGN_LOCAL
  | F_NEW_CLASS
  | F_NEXT_FOREACH
  | F_EXIT_FOREACH
  | F_LOOP_COND_LOCAL
  | F_LOOP_COND_NUMBER
  | F_LOOP_INCR
  | F_WHILE_DEC
deriving DecidableEq

inductive call_t
  | F_AGGREGATE
  | F_AGGREGATE_ASSOC
  | F_CALL_FUNCTION_BY_ADDRESS (index : Nat)
  | F_CALL_INHERITED (index : Nat)
  | F_SIMUL_EFUN (index : Nat)
deriving DecidableEq

/-- An efun with a fixed number of arguments has `max_arg`. -/
structure efun_t where
  token : Nat
  novalue : Bool
  max_arg : Option Nat
deriving DecidableEq

inductive control_jump_t
  | CJ_BREAK
  | CJ_CONTINUE
  | CJ_BREAK_SWITCH
deriving DecidableEq

/-! ## The nodes -/

mutual

/-- A pointer to a node. The node after the last one of `r.expr` and an absent part are null.
The last operand of a `NODE_LOOP` is what `v.number` of its test reads where the node of the
test does not set it as a number. -/
inductive parse_node_t
  | null
  | NODE_NUMBER (number : Int)
  | NODE_REAL (real : Int)
  | NODE_STRING (number : Int)
  | NODE_PARAMETER (number : Int)
  | NODE_PARAMETER_LVALUE (number : Int)
  | NODE_OPCODE (op : opcode_t)
  | NODE_OPCODE_1 (op : opcode_t) (l : Nat)
  | NODE_OPCODE_2 (op : opcode_t) (l : Nat) (r : Int)
  | NODE_UNARY_OP (op : opcode_t) (r : parse_node_t)
  | NODE_UNARY_OP_1 (op : opcode_t) (r : parse_node_t) (l : Nat)
  | NODE_BINARY_OP (op : opcode_t) (l r : parse_node_t)
  | NODE_TERNARY_OP (op : opcode_t) (l r_l r_r : parse_node_t)
  | NODE_LAND_LOR (is_lor : Bool) (l r : parse_node_t)
  | NODE_BRANCH_LINK (is_lor : Bool) (l r : parse_node_t)
  | NODE_CALL (op : call_t) (r : node_list_t)
  | NODE_EFUN (efun : efun_t) (novalue_used : Bool) (r : node_list_t)
  | NODE_TWO_VALUES (l r : parse_node_t)
  | NODE_IF (v l r : parse_node_t)
  | NODE_LOOP (type : Nat) (v l r : parse_node_t) (stale : Int)
  | NODE_FOREACH (v : parse_node_t) (of_mapping : Bool)
  | NODE_SWITCH (l r : parse_node_t)
  | NODE_CASE
  | NODE_CONTROL_JUMP (number : control_jump_t)
  | NODE_RETURN (r : parse_node_t)
  | NODE_CATCH (r : parse_node_t)
  | NODE_TIME_EXPRESSION (r : parse_node_t)
  | NODE_LVALUE_EFUN (l r : node_list_t)
  | NODE_FUNCTION_CONSTRUCTOR (number : Int) (has_args : Bool) (r : node_list_t) (l : parse_node_t)
  | NODE_ANON_FUNC (number : Int) (r : parse_node_t)

/-- An expression list: the flag is for `x...`. In the list of a mapping each node has two
values. -/
inductive node_list_t
  | nil
  | cons (expr : parse_node_t) (expand : Bool) (rest : node_list_t)

end

instance : Inhabited parse_node_t := ⟨.null⟩

namespace node_list_t

def length : node_list_t → Nat
  | nil => 0
  | cons _ _ rest => rest.length + 1

def expands : node_list_t → List Bool
  | nil => []
  | cons _ expand rest => expand :: rest.expands

end node_list_t

def is_null : parse_node_t → Bool
  | .null => true
  | _ => false

/-- `CREATE_STATEMENTS` where both parts are there, else the part that is. -/
def create_statements (l r : parse_node_t) : parse_node_t :=
  if is_null l then r else if is_null r then l else .NODE_TWO_VALUES l r

/-! ## Values that nobody wants -/

/-- The operators without an effect of their own: `insert_pop_value` keeps their operands. -/
def binary_op.no_effect : binary_op → Bool
  | .F_EQ | .F_NE | .F_GT | .F_GE | .F_LT | .F_LE => true
  | .F_OR | .F_XOR | .F_AND | .F_LSH | .F_RSH => true
  | .F_ADD | .F_SUBTRACT | .F_MULTIPLY | .F_DIVIDE | .F_MOD => true
  | .F_RE_RANGE | .F_NE_RANGE | .F_RINDEX | .F_INDEX => true
  | _ => false

def ternary_op.no_effect : ternary_op → Bool
  | .F_NN_RANGE | .F_RN_RANGE | .F_RR_RANGE | .F_NR_RANGE => true
  | _ => false

def pop_value (expr : parse_node_t) : parse_node_t := .NODE_UNARY_OP .F_POP_VALUE expr

def void_assign (l r : parse_node_t) : parse_node_t :=
  match r with
  | .NODE_OPCODE_1 (.leaf .F_LOCAL_LVALUE) tmp => .NODE_UNARY_OP_1 .F_VOID_ASSIGN_LOCAL l tmp
  | _ => .NODE_BINARY_OP .F_VOID_ASSIGN l r

/-- A node with an operator and one operand. `popped` is the operand without its value. -/
def pop_unary (op : opcode_t) (r popped : parse_node_t) : parse_node_t :=
  match op with
  | .unary .F_PRE_INC | .unary .F_POST_INC => .NODE_UNARY_OP .F_INC r
  | .unary .F_PRE_DEC | .unary .F_POST_DEC => .NODE_UNARY_OP .F_DEC r
  | .unary .F_NOT | .unary .F_COMPL | .unary .F_NEGATE => popped
  | _ => pop_value (.NODE_UNARY_OP op r)

def pop_binary (op : opcode_t) (l r popped_l popped_r : parse_node_t) : parse_node_t :=
  match op with
  | .binary .F_ASSIGN => void_assign l r
  | .binary .F_ADD_EQ => .NODE_BINARY_OP .F_VOID_ADD_EQ l r
  | .binary op =>
    if op.no_effect then create_statements popped_l popped_r
    else pop_value (.NODE_BINARY_OP (.binary op) l r)
  | _ => pop_value (.NODE_BINARY_OP op l r)

def pop_ternary (op : opcode_t) (l r_l r_r popped_l popped_r_l popped_r_r : parse_node_t) :
    parse_node_t :=
  match op with
  | .ternary op =>
    if op.no_effect then create_statements popped_l (create_statements popped_r_l popped_r_r)
    else pop_value (.NODE_TERNARY_OP (.ternary op) l r_l r_r)
  | _ => pop_value (.NODE_TERNARY_OP op l r_l r_r)

mutual

/-- The type of a node is not `TYPE_NOVALUE`: `validate_efun_call` has made it `TYPE_VOID`. -/
def insert_pop_value : parse_node_t → parse_node_t
  | .null => .null
  | .NODE_EFUN efun novalue_used r =>
    if novalue_used then .NODE_EFUN efun false r else pop_value (.NODE_EFUN efun false r)
  | .NODE_TWO_VALUES l r =>
    if is_null (insert_pop_value r) then l else .NODE_TWO_VALUES l (insert_pop_value r)
  | .NODE_IF v l r =>
    if is_null (insert_pop_value l) && is_null (insert_pop_value r) then insert_pop_value v
    else .NODE_IF v (insert_pop_value l) (insert_pop_value r)
  | .NODE_TERNARY_OP op l r_l r_r =>
    pop_ternary op l r_l r_r (insert_pop_value l) (insert_pop_value r_l) (insert_pop_value r_r)
  | .NODE_CALL op r =>
    match op with
    | .F_AGGREGATE => throw_away_call .null r
    | .F_AGGREGATE_ASSOC => throw_away_mapping .null r
    | op => pop_value (.NODE_CALL op r)
  | .NODE_BINARY_OP op l r => pop_binary op l r (insert_pop_value l) (insert_pop_value r)
  | .NODE_UNARY_OP op r => pop_unary op r (insert_pop_value r)
  | .NODE_UNARY_OP_1 op r l =>
    match op with
    | .member .F_MEMBER => insert_pop_value r
    | op => pop_value (.NODE_UNARY_OP_1 op r l)
  | .NODE_OPCODE_1 op l =>
    match op with
    | .leaf .F_LOCAL | .leaf .F_GLOBAL => .null
    | op => pop_value (.NODE_OPCODE_1 op l)
  | .NODE_PARAMETER _ => .null
  | .NODE_ANON_FUNC _ _ => .null
  | .NODE_FUNCTION_CONSTRUCTOR _ _ _ _ => .null
  | .NODE_NUMBER _ => .null
  | .NODE_STRING _ => .null
  | .NODE_REAL _ => .null
  | .NODE_PARAMETER_LVALUE number => pop_value (.NODE_PARAMETER_LVALUE number)
  | .NODE_OPCODE op => pop_value (.NODE_OPCODE op)
  | .NODE_OPCODE_2 op l r => pop_value (.NODE_OPCODE_2 op l r)
  | .NODE_LAND_LOR is_lor l r => pop_value (.NODE_LAND_LOR is_lor l r)
  | .NODE_BRANCH_LINK is_lor l r => pop_value (.NODE_BRANCH_LINK is_lor l r)
  | .NODE_LOOP type v l r stale => pop_value (.NODE_LOOP type v l r stale)
  | .NODE_FOREACH v of_mapping => pop_value (.NODE_FOREACH v of_mapping)
  | .NODE_SWITCH l r => pop_value (.NODE_SWITCH l r)
  | .NODE_CASE => pop_value .NODE_CASE
  | .NODE_CONTROL_JUMP number => pop_value (.NODE_CONTROL_JUMP number)
  | .NODE_RETURN r => pop_value (.NODE_RETURN r)
  | .NODE_CATCH r => pop_value (.NODE_CATCH r)
  | .NODE_TIME_EXPRESSION r => pop_value (.NODE_TIME_EXPRESSION r)
  | .NODE_LVALUE_EFUN l r => pop_value (.NODE_LVALUE_EFUN l r)

/-- The loop over the list, `ret` is what it has so far. -/
def throw_away_call (ret : parse_node_t) : node_list_t → parse_node_t
  | .nil => ret
  | .cons expr _ rest => throw_away_call (create_statements ret (insert_pop_value expr)) rest

/-- In a mapping a node has the key and the value. -/
def throw_away_mapping (ret : parse_node_t) : node_list_t → parse_node_t
  | .nil => ret
  | .cons (.NODE_TWO_VALUES l r) _ rest =>
    throw_away_mapping
      (create_statements (create_statements ret (insert_pop_value l)) (insert_pop_value r)) rest
  | .cons _ _ rest => throw_away_mapping ret rest

end

/-! ## The source -/

mutual

/-- Expressions, with the operators that the actions of `expr0` give them. A new class has an
expression for each of its members, and is known by their number. -/
inductive expr_t
  | number (number : Int)
  | real (real : Int)
  | string_ (number : Int)
  | parameter (number : Int)
  | parameter_lvalue (number : Int)
  | leaf (op : leaf_op) (l : Nat)
  | unary (op : unary_op) (r : expr_t)
  | member (op : member_op) (r : expr_t) (l : Nat)
  | binary (op : binary_op) (l r : expr_t)
  | ternary (op : ternary_op) (l r_l r_r : expr_t)
  | land_lor (is_lor : Bool) (l r : expr_t)
  | cond (test yes no : expr_t)
  | comma (l r : expr_t)
  | call (op : call_t) (args : expr_list_t)
  | mapping (pairs : pair_list_t)
  | efun (efun : efun_t) (args : expr_list_t)
  | sizeof_array (args : expr_list_t)
  | new_class (members : expr_list_t)
  | lvalue_efun (operands lvalues : expr_list_t)
  | catch_block (body : stmt_t)
  | catch_expr (body : expr_t)
  | time_block (body : stmt_t)
  | time_expr (body : expr_t)
  | function_constructor (number : Int) (has_args : Bool) (args : expr_list_t)
  | functional (number : Int) (has_args : Bool) (args : expr_list_t) (body : expr_t)
  | anon_func (number : Int) (body : stmt_t)

inductive expr_list_t
  | nil
  | cons (expr : expr_t) (expand : Bool) (rest : expr_list_t)

inductive pair_list_t
  | nil
  | cons (key value : expr_t) (rest : pair_list_t)

/-- Statements. A block is its statements one after another. `stale` is for the loop that the
statement becomes. -/
inductive stmt_t
  | empty
  | seq (first second : stmt_t)
  | expr (expr : expr_t)
  | local_init (l : Nat) (expr : expr_t)
  | cond (test : expr_t) (yes no : stmt_t)
  | while_ (test : expr_t) (stale : Int) (body : stmt_t)
  | do_ (body : stmt_t) (test : expr_t) (stale : Int)
  | for_ (first test inc : expr_t) (stale : Int) (body : stmt_t)
  | foreach (of_mapping : Bool) (expr : expr_t) (body : stmt_t)
  | switch (expr : expr_t) (block : switch_block_t)
  | break_
  | continue_
  | return_void
  | return_ (expr : expr_t)

inductive switch_block_t
  | nil
  | case (rest : switch_block_t)
  | stmt (stmt : stmt_t) (rest : switch_block_t)

end

/-! ## The actions of the grammar -/

/-- The flags of `context`. The flags of the case labels are not needed here. -/
structure context_t where
  SPECIAL_CONTEXT : Bool
  SWITCH_CONTEXT : Bool
  LOOP_CONTEXT : Bool
  LOOP_FOREACH : Bool

def no_context : context_t := ⟨false, false, false, false⟩

def special_context : context_t := { no_context with SPECIAL_CONTEXT := true }

def loop_context : context_t := { no_context with LOOP_CONTEXT := true }

def foreach_context : context_t := { loop_context with LOOP_FOREACH := true }

/-- `context &= LOOP_CONTEXT; context |= SWITCH_CONTEXT` -/
def switch_context (context : context_t) : context_t :=
  { no_context with LOOP_CONTEXT := context.LOOP_CONTEXT, SWITCH_CONTEXT := true }

/-- The left operand of `||` or `&&` becomes a link where it is one of the same kind. -/
def branch_link (is_lor : Bool) : parse_node_t → parse_node_t
  | .NODE_LAND_LOR is_lor' l r =>
    if is_lor = is_lor' then .NODE_BRANCH_LINK is_lor' l r else .NODE_LAND_LOR is_lor' l r
  | node => node

/-- `!a ? b : c` is `a ? c : b`. -/
def create_cond (test yes no : parse_node_t) : parse_node_t :=
  match test with
  | .NODE_UNARY_OP (.unary .F_NOT) r => .NODE_IF r no yes
  | test => .NODE_IF test yes no

def is_zero : parse_node_t → Bool
  | .NODE_NUMBER n => n = 0
  | _ => false

/-- `x != 0` is `x` as the test of an if. -/
def without_ne_zero (test : parse_node_t) : parse_node_t :=
  match test with
  | .NODE_BINARY_OP (.binary .F_NE) l r =>
    if is_zero r then l else if is_zero l then r else .NODE_BINARY_OP (.binary .F_NE) l r
  | test => test

def create_if (test yes no : parse_node_t) : parse_node_t :=
  if is_null yes then
    if is_null no then insert_pop_value (without_ne_zero test)
    else .NODE_IF (.NODE_UNARY_OP (.unary .F_NOT) (without_ne_zero test)) no .null
  else .NODE_IF (without_ne_zero test) yes no

def optimize_loop_test (pn : parse_node_t) : parse_node_t :=
  match pn with
  | .NODE_BINARY_OP (.binary .F_LT) (.NODE_OPCODE_1 (.leaf .F_LOCAL) l) r =>
    match r with
    | .NODE_OPCODE_1 (.leaf .F_LOCAL) l' => .NODE_OPCODE_2 .F_LOOP_COND_LOCAL l l'
    | .NODE_NUMBER number => .NODE_OPCODE_2 .F_LOOP_COND_NUMBER l number
    | r => .NODE_BINARY_OP (.binary .F_LT) (.NODE_OPCODE_1 (.leaf .F_LOCAL) l) r
  | .NODE_UNARY_OP (.unary .F_POST_DEC) (.NODE_OPCODE_1 (.leaf .F_LOCAL_LVALUE) lvar) =>
    .NODE_OPCODE_1 .F_WHILE_DEC lvar
  | pn => pn

/-- The third expression of a for: `i++` of a local variable has an instruction of its own. -/
def loop_incr (inc : parse_node_t) : parse_node_t :=
  match inc with
  | .NODE_UNARY_OP .F_INC (.NODE_OPCODE_1 (.leaf .F_LOCAL_LVALUE) lvar) =>
    .NODE_OPCODE_1 .F_LOOP_INCR lvar
  | inc => inc

def create_return (expr : parse_node_t) : parse_node_t :=
  if is_zero expr then .NODE_RETURN .null else .NODE_RETURN expr

/-- A break. `none` is an error of the parse. -/
def create_break (context : context_t) : Option parse_node_t :=
  if context.SPECIAL_CONTEXT then none
  else if context.SWITCH_CONTEXT then some (.NODE_CONTROL_JUMP .CJ_BREAK_SWITCH)
  else if context.LOOP_CONTEXT then
    if context.LOOP_FOREACH then
      some (.NODE_TWO_VALUES (.NODE_OPCODE .F_EXIT_FOREACH) (.NODE_CONTROL_JUMP .CJ_BREAK))
    else some (.NODE_CONTROL_JUMP .CJ_BREAK)
  else none

def create_continue (context : context_t) : Option parse_node_t :=
  if context.SPECIAL_CONTEXT then none
  else if context.LOOP_CONTEXT then some (.NODE_CONTROL_JUMP .CJ_CONTINUE)
  else none

/-- The rest of the block of a switch after one of its statements. -/
def switch_statements (l r : parse_node_t) : parse_node_t :=
  if is_null r then l else .NODE_TWO_VALUES l r

/-- The chain of `reorder_class_values`. -/
def class_values : node_list_t → parse_node_t
  | .nil => .null
  | .cons expr _ rest => .NODE_TWO_VALUES expr (class_values rest)

def is_return : parse_node_t → Bool
  | .NODE_RETURN _ => true
  | _ => false

/-- A return is added where the body does not end with one. -/
def end_with_return (node : parse_node_t) : parse_node_t :=
  match node with
  | .NODE_RETURN r => .NODE_RETURN r
  | .NODE_TWO_VALUES l r =>
    if is_return r then .NODE_TWO_VALUES l r
    else .NODE_TWO_VALUES (.NODE_TWO_VALUES l r) (.NODE_RETURN .null)
  | node => .NODE_TWO_VALUES node (.NODE_RETURN .null)

/-- For an empty body a return is made, but it is not put into the node of the function. -/
def create_anon_func (number : Int) (node : parse_node_t) : parse_node_t :=
  if is_null node then .NODE_ANON_FUNC number .null
  else .NODE_ANON_FUNC number (end_with_return node)

mutual

def expr0 : expr_t → Option parse_node_t
  | .number number => some (.NODE_NUMBER number)
  | .real real => some (.NODE_REAL real)
  | .string_ number => some (.NODE_STRING number)
  | .parameter number => some (.NODE_PARAMETER number)
  | .parameter_lvalue number => some (.NODE_PARAMETER_LVALUE number)
  | .leaf op l => some (.NODE_OPCODE_1 (.leaf op) l)
  | .unary op r => do
    let r ← expr0 r
    some (.NODE_UNARY_OP (.unary op) r)
  | .member op r l => do
    let r ← expr0 r
    some (.NODE_UNARY_OP_1 (.member op) r l)
  | .binary op l r => do
    let l ← expr0 l
    let r ← expr0 r
    some (.NODE_BINARY_OP (.binary op) l r)
  | .ternary op l r_l r_r => do
    let l ← expr0 l
    let r_l ← expr0 r_l
    let r_r ← expr0 r_r
    some (.NODE_TERNARY_OP (.ternary op) l r_l r_r)
  | .land_lor is_lor l r => do
    let l ← expr0 l
    let r ← expr0 r
    some (.NODE_LAND_LOR is_lor (branch_link is_lor l) r)
  | .cond test yes no => do
    let test ← expr0 test
    let yes ← expr0 yes
    let no ← expr0 no
    some (create_cond test yes no)
  | .comma l r => do
    let l ← expr0 l
    let r ← expr0 r
    some (.NODE_TWO_VALUES (insert_pop_value l) r)
  | .call op args => do
    let args ← expr_list args
    -- a mapping has pairs
    if op = .F_AGGREGATE_ASSOC then none else some (.NODE_CALL op args)
  | .mapping pairs => do
    let pairs ← assoc_pairs pairs
    some (.NODE_CALL .F_AGGREGATE_ASSOC pairs)
  | .efun efun args => do
    let args ← expr_list args
    -- "Illegal to pass variable number of arguments to non-varargs efun"
    if efun.max_arg.isSome && args.expands.any id then none
    else some (.NODE_EFUN efun efun.novalue args)
  | .sizeof_array args => do
    let args ← expr_list args
    some (create_statements (throw_away_call .null args) (.NODE_NUMBER args.length))
  | .new_class members => do
    let members ← expr_list members
    some (.NODE_TWO_VALUES (class_values members) (.NODE_OPCODE_1 .F_NEW_CLASS members.length))
  | .lvalue_efun operands lvalues => do
    let operands ← expr_list operands
    let lvalues ← expr_list lvalues
    some (.NODE_LVALUE_EFUN operands lvalues)
  | .catch_block body => do
    let body ← statement special_context body
    some (.NODE_CATCH body)
  | .catch_expr body => do
    let body ← expr0 body
    some (.NODE_CATCH (insert_pop_value body))
  | .time_block body => do
    let body ← statement special_context body
    some (.NODE_TIME_EXPRESSION body)
  | .time_expr body => do
    let body ← expr0 body
    some (.NODE_TIME_EXPRESSION (insert_pop_value body))
  | .function_constructor number has_args args => do
    let args ← expr_list args
    some (.NODE_FUNCTION_CONSTRUCTOR number has_args args .null)
  | .functional number has_args args body => do
    let args ← expr_list args
    let body ← expr0 body
    some (.NODE_FUNCTION_CONSTRUCTOR number has_args args body)
  | .anon_func number body => do
    let body ← statement no_context body
    some (create_anon_func number body)

def expr_list : expr_list_t → Option node_list_t
  | .nil => some .nil
  | .cons expr expand rest => do
    let expr ← expr0 expr
    let rest ← expr_list rest
    some (.cons expr expand rest)

def assoc_pairs : pair_list_t → Option node_list_t
  | .nil => some .nil
  | .cons key value rest => do
    let key ← expr0 key
    let value ← expr0 value
    let rest ← assoc_pairs rest
    some (.cons (.NODE_TWO_VALUES key value) false rest)

def statement (context : context_t) : stmt_t → Option parse_node_t
  | .empty => some .null
  | .seq first second => do
    let first ← statement context first
    let second ← statement context second
    some (create_statements first second)
  | .expr expr => do
    let expr ← expr0 expr
    some (insert_pop_value expr)
  | .local_init l expr => do
    let expr ← expr0 expr
    some (.NODE_UNARY_OP_1 .F_VOID_ASSIGN_LOCAL expr l)
  | .cond test yes no => do
    let test ← expr0 test
    let yes ← statement context yes
    let no ← statement context no
    some (create_if test yes no)
  | .while_ test stale body => do
    let test ← expr0 test
    let body ← statement loop_context body
    some (.NODE_LOOP 1 body .null (optimize_loop_test test) stale)
  | .do_ body test stale => do
    let body ← statement loop_context body
    let test ← expr0 test
    some (.NODE_LOOP 0 body .null (optimize_loop_test test) stale)
  | .for_ first test inc stale body => do
    let first ← expr0 first
    let test ← expr0 test
    let inc ← expr0 inc
    let body ← statement loop_context body
    some (.NODE_TWO_VALUES (insert_pop_value first)
      (.NODE_LOOP 1 body (loop_incr (insert_pop_value inc)) (optimize_loop_test test) stale))
  | .foreach of_mapping expr body => do
    let expr ← expr0 expr
    let body ← statement foreach_context body
    some (.NODE_TWO_VALUES (.NODE_FOREACH expr of_mapping)
      (.NODE_LOOP 2 body .null (.NODE_OPCODE .F_NEXT_FOREACH) 0))
  | .switch expr block => do
    let expr ← expr0 expr
    let block ← switch_block (switch_context context) block
    some (.NODE_SWITCH expr block)
  | .break_ => create_break context
  | .continue_ => create_continue context
  | .return_void => some (.NODE_RETURN .null)
  | .return_ expr => do
    let expr ← expr0 expr
    some (create_return expr)

def switch_block (context : context_t) : switch_block_t → Option parse_node_t
  | .nil => some .null
  | .case rest => do
    let rest ← switch_block context rest
    some (switch_statements .NODE_CASE rest)
  | .stmt stmt rest => do
    let stmt ← statement context stmt
    let rest ← switch_block context rest
    some (switch_statements stmt rest)

end

def function_body (body : stmt_t) : Option parse_node_t := do
  let node ← statement no_context body
  if is_null node then some (.NODE_RETURN .null) else some (end_with_return node)

end mudos.parse_trees

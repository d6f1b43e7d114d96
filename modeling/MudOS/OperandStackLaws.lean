-- The laws of the operand stack: a tree that leaves a value and a tree that
-- leaves none, that the grammar builds such trees and that taking out a value
-- keeps them, and what each path of their code does to the stack.
import MudOS.OperandStacks

open mudos.commands mudos.parse_trees List Option

namespace mudos.operand_stacks

variable {l r : parse_node_t} {a b n num : Nat} {base : List slot_t} {s : evaluator_t}
variable {v : parse_node_t} {is_lor : Bool} {op : call_t} {body : List instr_t}

/-! ## Trees by what they leave -/

mutual

inductive Value : parse_node_t → Prop
  | number {number : Int} : Value (.NODE_NUMBER number)
  | real {real : Int} : Value (.NODE_REAL real)
  | string_ {number : Int} : Value (.NODE_STRING number)
  | parameter {number : Int} : Value (.NODE_PARAMETER number)
  | parameter_lvalue {number : Int} : Value (.NODE_PARAMETER_LVALUE number)
  | leaf {op : leaf_op} {l : Nat} : Value (.NODE_OPCODE_1 (.leaf op) l)
  | unary {op : unary_op} {r : parse_node_t} : Value r → Value (.NODE_UNARY_OP (.unary op) r)
  | member {op : member_op} {r : parse_node_t} {l : Nat} :
      Value r → Value (.NODE_UNARY_OP_1 (.member op) r l)
  | binary {op : binary_op} {l r : parse_node_t} :
      Value l → Value r → Value (.NODE_BINARY_OP (.binary op) l r)
  | ternary {op : ternary_op} {l r_l r_r : parse_node_t} :
      Value l → Value r_l → Value r_r → Value (.NODE_TERNARY_OP (.ternary op) l r_l r_r)
  | land_lor {is_lor : Bool} {l r : parse_node_t} :
      Value l → Value r → Value (.NODE_LAND_LOR is_lor l r)
  | linked {is_lor : Bool} {l r : parse_node_t} :
      Link l → Value r → Value (.NODE_LAND_LOR is_lor l r)
  | cond {v l r : parse_node_t} : Value v → Value l → Value r → Value (.NODE_IF v l r)
  | comma {l r : parse_node_t} : Void l → Value r → Value (.NODE_TWO_VALUES l r)
  | call {op : call_t} {r : node_list_t} :
      op ≠ .F_AGGREGATE_ASSOC → Values r → Value (.NODE_CALL op r)
  | mapping {r : node_list_t} : Pairs r → Value (.NODE_CALL .F_AGGREGATE_ASSOC r)
  | efun {efun : efun_t} {r : node_list_t} :
      (efun.max_arg.isSome && r.expands.any id) = false → Values r →
      Value (.NODE_EFUN efun efun.novalue r)
  | new_class {l : parse_node_t} {num : Nat} :
      Members l num → Value (.NODE_TWO_VALUES l (.NODE_OPCODE_1 .F_NEW_CLASS num))
  | lvalue_efun {l r : node_list_t} : Values l → Values r → Value (.NODE_LVALUE_EFUN l r)
  | catch_ {r : parse_node_t} : Statement special_context r → Value (.NODE_CATCH r)
  | time_expression {r : parse_node_t} :
      Statement special_context r → Value (.NODE_TIME_EXPRESSION r)
  | function_constructor {number : Int} {has_args : Bool} {r : node_list_t} {l : parse_node_t} :
      Values r → Value (.NODE_FUNCTION_CONSTRUCTOR number has_args r l)
  | anon_func {number : Int} {r : parse_node_t} : Value (.NODE_ANON_FUNC number r)

inductive Link : parse_node_t → Prop
  | first {is_lor : Bool} {l r : parse_node_t} :
      Value l → Value r → Link (.NODE_BRANCH_LINK is_lor l r)
  | next {is_lor : Bool} {l r : parse_node_t} :
      Link l → Value r → Link (.NODE_BRANCH_LINK is_lor l r)

inductive Void : parse_node_t → Prop
  | null : Void .null
  | popped {r : parse_node_t} : Value r → Void (pop_value r)
  | inc {r : parse_node_t} : Value r → Void (.NODE_UNARY_OP .F_INC r)
  | dec {r : parse_node_t} : Value r → Void (.NODE_UNARY_OP .F_DEC r)
  | assign {l r : parse_node_t} : Value l → Value r → Void (.NODE_BINARY_OP .F_VOID_ASSIGN l r)
  | add_eq {l r : parse_node_t} : Value l → Value r → Void (.NODE_BINARY_OP .F_VOID_ADD_EQ l r)
  | assign_local {r : parse_node_t} {l : Nat} :
      Value r → Void (.NODE_UNARY_OP_1 .F_VOID_ASSIGN_LOCAL r l)
  | loop_incr {l : Nat} : Void (.NODE_OPCODE_1 .F_LOOP_INCR l)
  | efun {efun : efun_t} {r : node_list_t} :
      efun.novalue = true → (efun.max_arg.isSome && r.expands.any id) = false → Values r →
      Void (.NODE_EFUN efun false r)
  | both {l r : parse_node_t} : Void l → Void r → Void (.NODE_TWO_VALUES l r)
  | cond {v l r : parse_node_t} : Value v → Void l → Void r → Void (.NODE_IF v l r)
  | new_class {l : parse_node_t} {num : Nat} :
      Members l num → Void (.NODE_TWO_VALUES l (pop_value (.NODE_OPCODE_1 .F_NEW_CLASS num)))

inductive Values : node_list_t → Prop
  | nil : Values .nil
  | cons {expr : parse_node_t} {expand : Bool} {rest : node_list_t} :
      Value expr → Values rest → Values (.cons expr expand rest)

inductive Pairs : node_list_t → Prop
  | nil : Pairs .nil
  | cons {key value : parse_node_t} {rest : node_list_t} :
      Value key → Value value → Pairs rest →
      Pairs (.cons (.NODE_TWO_VALUES key value) false rest)

inductive Members : parse_node_t → Nat → Prop
  | nil : Members .null 0
  | cons {expr rest : parse_node_t} {num : Nat} :
      Value expr → Members rest num → Members (.NODE_TWO_VALUES expr rest) (num + 1)

inductive Test : parse_node_t → Prop
  | value {r : parse_node_t} : Value r → Test r
  | loop_cond_local {l : Nat} {r : Int} : Test (.NODE_OPCODE_2 .F_LOOP_COND_LOCAL l r)
  | loop_cond_number {l : Nat} {r : Int} : Test (.NODE_OPCODE_2 .F_LOOP_COND_NUMBER l r)
  | while_dec {l : Nat} : Test (.NODE_OPCODE_1 .F_WHILE_DEC l)

inductive Statement : context_t → parse_node_t → Prop
  | void {c : context_t} {r : parse_node_t} : Void r → Statement c r
  | both {c : context_t} {l r : parse_node_t} :
      Statement c l → Statement c r → Statement c (.NODE_TWO_VALUES l r)
  | cond {c : context_t} {v l r : parse_node_t} :
      Value v → Statement c l → Statement c r → Statement c (.NODE_IF v l r)
  | loop {c : context_t} {type : Nat} {v l r : parse_node_t} {stale : Int} :
      type ≠ 2 → Statement loop_context v → Void l → Test r →
      Statement c (.NODE_LOOP type v l r stale)
  | foreach {c : context_t} {v body : parse_node_t} {of_mapping : Bool} :
      Value v → Statement foreach_context body →
      Statement c (.NODE_TWO_VALUES (.NODE_FOREACH v of_mapping)
        (.NODE_LOOP 2 body .null (.NODE_OPCODE .F_NEXT_FOREACH) 0))
  | switch {c : context_t} {l r : parse_node_t} :
      Value l → Statement (switch_context c) r → Statement c (.NODE_SWITCH l r)
  | case {c : context_t} : Statement c .NODE_CASE
  | break_ {c : context_t} {r : parse_node_t} : create_break c = some r → Statement c r
  | continue_ {c : context_t} {r : parse_node_t} : create_continue c = some r → Statement c r
  | return_void {c : context_t} : Statement c (.NODE_RETURN .null)
  | return_ {c : context_t} {r : parse_node_t} : Value r → Statement c (.NODE_RETURN r)

end

/-! ## Values that nobody wants -/

theorem void_create_statements (hl : Void l) (hr : Void r) : Void (create_statements l r) := by
  unfold create_statements
  split
  · exact hr
  · split
    · exact hl
    · exact .both hl hr

theorem void_void_assign (hl : Value l) (hr : Value r) : Void (void_assign l r) := by
  unfold void_assign
  split
  · exact .assign_local hl
  · exact .assign hl hr

theorem eq_null_of_is_null (h : is_null r = true) : r = .null := by
  cases r <;> first | rfl | cases h

theorem void_if (hv : Value v) (hpv : Void (insert_pop_value v)) (hl : Void l) (hr : Void r) :
    Void (if is_null l && is_null r then insert_pop_value v else .NODE_IF v l r) := by
  split
  · exact hpv
  · exact .cond hv hl hr

mutual

theorem void_insert_pop_value : ∀ {r : parse_node_t}, Value r → Void (insert_pop_value r)
  | _, .number => .null
  | _, .real => .null
  | _, .string_ => .null
  | _, .parameter => .null
  | _, .parameter_lvalue => .popped .parameter_lvalue
  | _, @Value.leaf op _ => by
    cases op
    · exact .null
    · exact .null
    · exact .popped .leaf
    · exact .popped .leaf
    · exact .popped .leaf
  | _, @Value.unary op _ h => by
    have hp := void_insert_pop_value h
    cases op
    · exact hp
    · exact hp
    · exact hp
    · exact .inc h
    · exact .inc h
    · exact .dec h
    · exact .dec h
  | _, @Value.member op _ _ h => by
    have hp := void_insert_pop_value h
    cases op
    · exact hp
    · exact .popped (.member h)
  | _, @Value.binary op l r hl hr => by
    have hpl := void_insert_pop_value hl
    have hpr := void_insert_pop_value hr
    have hno : Void (if op.no_effect then create_statements (insert_pop_value l)
        (insert_pop_value r) else pop_value (.NODE_BINARY_OP (.binary op) l r)) := by
      split
      · exact void_create_statements hpl hpr
      · exact .popped (.binary hl hr)
    cases op
    case F_ASSIGN => exact void_void_assign hl hr
    case F_ADD_EQ => exact .add_eq hl hr
    all_goals exact hno
  | _, @Value.ternary op _ _ _ hl hr_l hr_r => by
    have hpl := void_insert_pop_value hl
    have hpr_l := void_insert_pop_value hr_l
    have hpr_r := void_insert_pop_value hr_r
    simp only [insert_pop_value, pop_ternary]
    split
    · exact void_create_statements hpl (void_create_statements hpr_l hpr_r)
    · exact .popped (.ternary hl hr_l hr_r)
  | _, .land_lor hl hr => .popped (.land_lor hl hr)
  | _, .linked hl hr => .popped (.linked hl hr)
  | _, .cond hv hl hr =>
    void_if hv (void_insert_pop_value hv) (void_insert_pop_value hl) (void_insert_pop_value hr)
  | _, .comma hl hr => by
    have hp := void_insert_pop_value hr
    simp only [insert_pop_value]
    split
    · exact hl
    · exact .both hl hp
  | _, @Value.call op _ hop h => by
    cases op with
    | F_AGGREGATE => exact void_throw_away_call h _ .null
    | F_AGGREGATE_ASSOC => exact absurd rfl hop
    | F_CALL_FUNCTION_BY_ADDRESS index | F_CALL_INHERITED index
    | F_SIMUL_EFUN index => exact .popped (.call hop h)
  | _, .mapping h => void_throw_away_mapping h _ .null
  | _, @Value.efun efun r hfixed h => by
    simp only [insert_pop_value]
    split
    · rename_i hn
      exact .efun hn hfixed h
    · rename_i hn
      refine .popped ?_
      have he : Value (.NODE_EFUN efun efun.novalue r) := .efun hfixed h
      rwa [Bool.eq_false_iff.mpr hn] at he
  | _, .new_class h => .new_class h
  | _, .lvalue_efun hl hr => .popped (.lvalue_efun hl hr)
  | _, .catch_ h => .popped (.catch_ h)
  | _, .time_expression h => .popped (.time_expression h)
  | _, .function_constructor _ => .null
  | _, .anon_func => .null

theorem void_throw_away_call : ∀ {r : node_list_t}, Values r →
    ∀ ret, Void ret → Void (throw_away_call ret r)
  | _, .nil, _, hret => hret
  | _, .cons h hrest, _, hret =>
    void_throw_away_call hrest _ (void_create_statements hret (void_insert_pop_value h))

theorem void_throw_away_mapping : ∀ {r : node_list_t}, Pairs r →
    ∀ ret, Void ret → Void (throw_away_mapping ret r)
  | _, .nil, _, hret => hret
  | _, .cons hkey hvalue hrest, _, hret =>
    void_throw_away_mapping hrest _
      (void_create_statements (void_create_statements hret (void_insert_pop_value hkey))
        (void_insert_pop_value hvalue))

end

/-! ## The trees that the grammar builds -/

theorem value_or_link_branch_link (h : Value l) :
    Value (branch_link is_lor l) ∨ Link (branch_link is_lor l) := by
  unfold branch_link
  split
  · split
    · cases h with
      | land_lor hl hr => exact Or.inr (.first hl hr)
      | linked hl hr => exact Or.inr (.next hl hr)
    · exact Or.inl h
  · exact Or.inl h

theorem value_land_lor (hl : Value l) (hr : Value r) :
    Value (.NODE_LAND_LOR is_lor (branch_link is_lor l) r) := by
  rcases value_or_link_branch_link hl with h | h
  · exact .land_lor h hr
  · exact .linked h hr

theorem value_create_cond {test yes no : parse_node_t} (ht : Value test) (hy : Value yes)
    (hn : Value no) : Value (create_cond test yes no) := by
  unfold create_cond
  split
  · cases ht with
    | unary h => exact .cond h hn hy
  · exact .cond ht hy hn

theorem value_without_ne_zero {test : parse_node_t} (h : Value test) :
    Value (without_ne_zero test) := by
  unfold without_ne_zero
  split
  · cases h with
    | binary hl hr =>
      split
      · exact hl
      · split
        · exact hr
        · exact .binary hl hr
  · exact h

theorem statement_create_if {c : context_t} {test yes no : parse_node_t} (ht : Value test)
    (hy : Statement c yes) (hn : Statement c no) : Statement c (create_if test yes no) := by
  have ht := value_without_ne_zero ht
  unfold create_if
  split
  · split
    · exact .void (void_insert_pop_value ht)
    · exact .cond (.unary ht) hn (.void .null)
  · exact .cond ht hy hn

theorem statement_create_statements {c : context_t} (hl : Statement c l) (hr : Statement c r) :
    Statement c (create_statements l r) := by
  unfold create_statements
  split
  · exact hr
  · split
    · exact hl
    · exact .both hl hr

theorem test_optimize_loop_test {pn : parse_node_t} (h : Value pn) :
    Test (optimize_loop_test pn) := by
  unfold optimize_loop_test
  split
  · split
    · exact .loop_cond_local
    · exact .loop_cond_number
    · exact .value h
  · exact .while_dec
  · exact .value h

theorem void_loop_incr {inc : parse_node_t} (h : Void inc) : Void (loop_incr inc) := by
  unfold loop_incr
  split
  · exact .loop_incr
  · exact h

theorem statement_create_return {c : context_t} (h : Value r) : Statement c (create_return r) := by
  unfold create_return
  split
  · exact .return_void
  · exact .return_ h

theorem statement_switch_statements {c : context_t} (hl : Statement c l) (hr : Statement c r) :
    Statement c (switch_statements l r) := by
  unfold switch_statements
  split
  · exact hl
  · exact .both hl hr

theorem members_class_values : ∀ {r : node_list_t}, Values r → Members (class_values r) r.length
  | _, .nil => .nil
  | _, .cons h hrest => .cons h (members_class_values hrest)

mutual

theorem value_expr0 : ∀ (e : expr_t) {r : parse_node_t}, expr0 e = some r → Value r
  | .number _, _, h => by cases h; exact .number
  | .real _, _, h => by cases h; exact .real
  | .string_ _, _, h => by cases h; exact .string_
  | .parameter _, _, h => by cases h; exact .parameter
  | .parameter_lvalue _, _, h => by cases h; exact .parameter_lvalue
  | .leaf _ _, _, h => by cases h; exact .leaf
  | .unary op e, _, h => by
    obtain ⟨r, hr, ⟨⟩⟩ := bind_eq_some_iff.mp h
    exact .unary (value_expr0 e hr)
  | .member op e l, _, h => by
    obtain ⟨r, hr, ⟨⟩⟩ := bind_eq_some_iff.mp h
    exact .member (value_expr0 e hr)
  | .binary op e f, _, h => by
    obtain ⟨l, hl, h⟩ := bind_eq_some_iff.mp h
    obtain ⟨r, hr, ⟨⟩⟩ := bind_eq_some_iff.mp h
    exact .binary (value_expr0 e hl) (value_expr0 f hr)
  | .ternary op e f g, _, h => by
    obtain ⟨l, hl, h⟩ := bind_eq_some_iff.mp h
    obtain ⟨r_l, hr_l, h⟩ := bind_eq_some_iff.mp h
    obtain ⟨r_r, hr_r, ⟨⟩⟩ := bind_eq_some_iff.mp h
    exact .ternary (value_expr0 e hl) (value_expr0 f hr_l) (value_expr0 g hr_r)
  | .land_lor is_lor e f, _, h => by
    obtain ⟨l, hl, h⟩ := bind_eq_some_iff.mp h
    obtain ⟨r, hr, ⟨⟩⟩ := bind_eq_some_iff.mp h
    exact value_land_lor (value_expr0 e hl) (value_expr0 f hr)
  | .cond e f g, _, h => by
    obtain ⟨test, ht, h⟩ := bind_eq_some_iff.mp h
    obtain ⟨yes, hy, h⟩ := bind_eq_some_iff.mp h
    obtain ⟨no, hn, ⟨⟩⟩ := bind_eq_some_iff.mp h
    exact value_create_cond (value_expr0 e ht) (value_expr0 f hy) (value_expr0 g hn)
  | .comma e f, _, h => by
    obtain ⟨l, hl, h⟩ := bind_eq_some_iff.mp h
    obtain ⟨r, hr, ⟨⟩⟩ := bind_eq_some_iff.mp h
    exact .comma (void_insert_pop_value (value_expr0 e hl)) (value_expr0 f hr)
  | .call op args, _, h => by
    obtain ⟨r, hr, h⟩ := bind_eq_some_iff.mp h
    split at h
    · cases h
    · rename_i hop
      cases h
      exact .call hop (values_expr_list args hr)
  | .mapping pairs, _, h => by
    obtain ⟨r, hr, ⟨⟩⟩ := bind_eq_some_iff.mp h
    exact .mapping (pairs_assoc_pairs pairs hr)
  | .efun efun args, _, h => by
    obtain ⟨r, hr, h⟩ := bind_eq_some_iff.mp h
    split at h
    · cases h
    · rename_i hfixed
      cases h
      exact .efun (Bool.eq_false_iff.mpr hfixed) (values_expr_list args hr)
  | .sizeof_array args, _, h => by
    obtain ⟨r, hr, ⟨⟩⟩ := bind_eq_some_iff.mp h
    have hv := void_throw_away_call (values_expr_list args hr) _ .null
    unfold create_statements
    split
    · exact .number
    · exact .comma hv .number
  | .new_class members, _, h => by
    obtain ⟨r, hr, ⟨⟩⟩ := bind_eq_some_iff.mp h
    exact .new_class (members_class_values (values_expr_list members hr))
  | .lvalue_efun operands lvalues, _, h => by
    obtain ⟨l, hl, h⟩ := bind_eq_some_iff.mp h
    obtain ⟨r, hr, ⟨⟩⟩ := bind_eq_some_iff.mp h
    exact .lvalue_efun (values_expr_list operands hl) (values_expr_list lvalues hr)
  | .catch_block body, _, h => by
    obtain ⟨r, hr, ⟨⟩⟩ := bind_eq_some_iff.mp h
    exact .catch_ (statement_statement body hr)
  | .catch_expr body, _, h => by
    obtain ⟨r, hr, ⟨⟩⟩ := bind_eq_some_iff.mp h
    exact .catch_ (.void (void_insert_pop_value (value_expr0 body hr)))
  | .time_block body, _, h => by
    obtain ⟨r, hr, ⟨⟩⟩ := bind_eq_some_iff.mp h
    exact .time_expression (statement_statement body hr)
  | .time_expr body, _, h => by
    obtain ⟨r, hr, ⟨⟩⟩ := bind_eq_some_iff.mp h
    exact .time_expression (.void (void_insert_pop_value (value_expr0 body hr)))
  | .function_constructor number has_args args, _, h => by
    obtain ⟨r, hr, ⟨⟩⟩ := bind_eq_some_iff.mp h
    exact .function_constructor (values_expr_list args hr)
  | .functional number has_args args body, _, h => by
    obtain ⟨r, hr, h⟩ := bind_eq_some_iff.mp h
    obtain ⟨l, hl, ⟨⟩⟩ := bind_eq_some_iff.mp h
    exact .function_constructor (values_expr_list args hr)
  | .anon_func number body, _, h => by
    obtain ⟨r, hr, ⟨⟩⟩ := bind_eq_some_iff.mp h
    unfold create_anon_func
    split <;> exact .anon_func

theorem values_expr_list : ∀ (args : expr_list_t) {r : node_list_t},
    expr_list args = some r → Values r
  | .nil, _, h => by cases h; exact .nil
  | .cons e _ rest, _, h => by
    obtain ⟨l, hl, h⟩ := bind_eq_some_iff.mp h
    obtain ⟨r, hr, ⟨⟩⟩ := bind_eq_some_iff.mp h
    exact .cons (value_expr0 e hl) (values_expr_list rest hr)

theorem pairs_assoc_pairs : ∀ (pairs : pair_list_t) {r : node_list_t},
    assoc_pairs pairs = some r → Pairs r
  | .nil, _, h => by cases h; exact .nil
  | .cons e f rest, _, h => by
    obtain ⟨key, hk, h⟩ := bind_eq_some_iff.mp h
    obtain ⟨value, hv, h⟩ := bind_eq_some_iff.mp h
    obtain ⟨r, hr, ⟨⟩⟩ := bind_eq_some_iff.mp h
    exact .cons (value_expr0 e hk) (value_expr0 f hv) (pairs_assoc_pairs rest hr)

theorem statement_statement : ∀ (st : stmt_t) {c : context_t} {r : parse_node_t},
    statement c st = some r → Statement c r
  | .empty, _, _, h => by cases h; exact .void .null
  | .seq st st', _, _, h => by
    obtain ⟨l, hl, h⟩ := bind_eq_some_iff.mp h
    obtain ⟨r, hr, ⟨⟩⟩ := bind_eq_some_iff.mp h
    exact statement_create_statements (statement_statement st hl) (statement_statement st' hr)
  | .expr e, _, _, h => by
    obtain ⟨r, hr, ⟨⟩⟩ := bind_eq_some_iff.mp h
    exact .void (void_insert_pop_value (value_expr0 e hr))
  | .local_init l e, _, _, h => by
    obtain ⟨r, hr, ⟨⟩⟩ := bind_eq_some_iff.mp h
    exact .void (.assign_local (value_expr0 e hr))
  | .cond e st st', _, _, h => by
    obtain ⟨test, ht, h⟩ := bind_eq_some_iff.mp h
    obtain ⟨yes, hy, h⟩ := bind_eq_some_iff.mp h
    obtain ⟨no, hn, ⟨⟩⟩ := bind_eq_some_iff.mp h
    exact statement_create_if (value_expr0 e ht) (statement_statement st hy)
      (statement_statement st' hn)
  | .while_ e stale st, _, _, h => by
    obtain ⟨test, ht, h⟩ := bind_eq_some_iff.mp h
    obtain ⟨body, hb, ⟨⟩⟩ := bind_eq_some_iff.mp h
    exact .loop (by decide) (statement_statement st hb) .null
      (test_optimize_loop_test (value_expr0 e ht))
  | .do_ st e stale, _, _, h => by
    obtain ⟨body, hb, h⟩ := bind_eq_some_iff.mp h
    obtain ⟨test, ht, ⟨⟩⟩ := bind_eq_some_iff.mp h
    exact .loop (by decide) (statement_statement st hb) .null
      (test_optimize_loop_test (value_expr0 e ht))
  | .for_ e f g stale st, _, _, h => by
    obtain ⟨first, hf, h⟩ := bind_eq_some_iff.mp h
    obtain ⟨test, ht, h⟩ := bind_eq_some_iff.mp h
    obtain ⟨inc, hi, h⟩ := bind_eq_some_iff.mp h
    obtain ⟨body, hb, ⟨⟩⟩ := bind_eq_some_iff.mp h
    refine .both (.void (void_insert_pop_value (value_expr0 e hf))) ?_
    exact .loop (by decide) (statement_statement st hb)
      (void_loop_incr (void_insert_pop_value (value_expr0 g hi)))
      (test_optimize_loop_test (value_expr0 f ht))
  | .foreach of_mapping e st, _, _, h => by
    obtain ⟨v, hv, h⟩ := bind_eq_some_iff.mp h
    obtain ⟨body, hb, ⟨⟩⟩ := bind_eq_some_iff.mp h
    exact .foreach (value_expr0 e hv) (statement_statement st hb)
  | .switch e block, _, _, h => by
    obtain ⟨l, hl, h⟩ := bind_eq_some_iff.mp h
    obtain ⟨r, hr, ⟨⟩⟩ := bind_eq_some_iff.mp h
    exact .switch (value_expr0 e hl) (statement_switch_block block hr)
  | .break_, _, _, h => .break_ h
  | .continue_, _, _, h => .continue_ h
  | .return_void, _, _, h => by cases h; exact .return_void
  | .return_ e, _, _, h => by
    obtain ⟨r, hr, ⟨⟩⟩ := bind_eq_some_iff.mp h
    exact statement_create_return (value_expr0 e hr)

theorem statement_switch_block : ∀ (block : switch_block_t) {c : context_t} {r : parse_node_t},
    switch_block c block = some r → Statement c r
  | .nil, _, _, h => by cases h; exact .void .null
  | .case rest, _, _, h => by
    obtain ⟨r, hr, ⟨⟩⟩ := bind_eq_some_iff.mp h
    exact statement_switch_statements .case (statement_switch_block rest hr)
  | .stmt st rest, _, _, h => by
    obtain ⟨l, hl, h⟩ := bind_eq_some_iff.mp h
    obtain ⟨r, hr, ⟨⟩⟩ := bind_eq_some_iff.mp h
    exact statement_switch_statements (statement_statement st hl) (statement_switch_block rest hr)

end

/-! ## What code does to the stack -/

/-- The condition on a path. No code returns from inside a catch or a time expression, no loop
has a test that is taken for one of the three instructions, no error is raised and no call
returns while a list is being expanded, and the operand of a call can hold the number of the
values in its list. -/
def Meets : event_t → Prop
  | .returns_inside => False
  | .no_instruction => False
  | .count num_varargs => num_varargs = 0
  | .list num limit => num ≤ limit

def IsError (e : exit_t) : Prop := e = .error 0

def Has (n : Nat) (base : List slot_t) (s : evaluator_t) : Prop :=
  ∃ vs : List slot_t, vs.length = n ∧ s = ⟨vs ++ base, 0⟩

/-- The command takes `a` values and leaves `b`, and does not reach below them. -/
def Moves (a b : Nat) (c : Code) : Prop :=
  ∀ (vs base : List slot_t), vs.length = a →
    Ensures c ⟨vs ++ base, 0⟩ (OnEnd (Has b base) IsError)

structure Changes (a b : Nat) (code : List instr_t) : Prop where
  moves : ∀ inside, Moves a b (runs Meets code inside)
  labels : ∀ i ∈ code, is_case_label i = false

theorem moves_andThen {d : Nat} {c e : Code} (hc : Moves a b c) (he : Moves b d e) :
    Moves a d (andThen c e) := by
  intro vs base hvs
  refine ensures_andThen (hc vs base hvs) ?_
  rintro t ⟨ws, hws, rfl⟩
  exact he ws base hws

theorem moves_skip (a : Nat) : Moves a a skip :=
  fun vs _ hvs => ensures_skip ⟨vs, hvs, rfl⟩

theorem moves_either {c d : Code} (hc : Moves a b c) (hd : Moves a b d) : Moves a b (either c d) :=
  fun vs base hvs => ensures_either (hc vs base hvs) (hd vs base hvs)

theorem moves_frame {c : Code} (h : Moves a b c) (k : Nat) : Moves (k + a) (k + b) c := by
  intro vs base hvs
  have hsplit : vs ++ base = vs.take a ++ (vs.drop a ++ base) := by
    rw [← append_assoc, take_append_drop]
  have hlen : (vs.take a).length = a := by
    rw [length_take]
    omega
  have hdrop : (vs.drop a).length = k := by
    rw [length_drop]
    omega
  rw [hsplit]
  refine (h _ (vs.drop a ++ base) hlen).mono fun o ho => ho.mono ?_ fun _ he => he
  rintro t ⟨ws, hws, rfl⟩
  refine ⟨ws ++ vs.drop a, ?_, ?_⟩
  · rw [length_append, hws, hdrop]
    omega
  · rw [append_assoc]

theorem moves_takes (n : Nat) (slots : List slot_t) : Moves n slots.length (takes n slots) := by
  intro vs base hvs o ho
  have hlen : ¬ (vs ++ base).length < n := by
    rw [length_append]
    omega
  unfold takes at ho
  rw [if_neg hlen] at ho
  subst ho
  refine ⟨slots, rfl, ?_⟩
  dsimp only
  rw [← hvs, drop_left]

theorem moves_instruction {c : Code} (h : Moves a b c) : Moves a b (instruction Meets c) := by
  refine moves_either h ?_
  rintro vs base _ o ⟨_, rfl⟩
  exact rfl

/-! ## Code and its parts -/

theorem runs_append (ok : event_t → Prop) (inside : Bool) (a b : List instr_t) :
    runs ok (a ++ b) inside = andThen (runs ok a inside) (runs ok b inside) := by
  induction a with
  | nil => exact (skip_andThen _).symm
  | cons i a ih =>
    rw [cons_append, runs, runs, ih, andThen_assoc]

theorem changes_nil (a : Nat) : Changes a a [] where
  moves _ := moves_skip a
  labels _ hi := absurd hi not_mem_nil

theorem changes_append {d : Nat} {c e : List instr_t} (hc : Changes a b c) (he : Changes b d e) :
    Changes a d (c ++ e) := by
  constructor
  · intro inside
    rw [runs_append]
    exact moves_andThen (hc.moves inside) (he.moves inside)
  · intro i hi
    rcases mem_append.mp hi with h | h
    · exact hc.labels i h
    · exact he.labels i h

theorem changes_one {i : instr_t} (hi : ∀ inside, Moves a b (step Meets i inside))
    (hlabel : is_case_label i = false) : Changes a b [i] := by
  constructor
  · intro inside
    exact moves_andThen (moves_instruction (hi inside)) (moves_skip b)
  · intro j hj
    obtain rfl := mem_singleton.mp hj
    exact hlabel

theorem changes_frame {code : List instr_t} (h : Changes a b code) (k : Nat) :
    Changes (k + a) (k + b) code where
  moves inside := moves_frame (h.moves inside) k
  labels := h.labels

theorem changes_value : Changes 0 1 [.value] :=
  changes_one (fun _ => moves_takes 0 [.value]) rfl

theorem changes_lvalue : Changes 0 1 [.lvalue] :=
  changes_one (fun _ => moves_takes 0 [.lvalue]) rfl

theorem changes_operator {op : opcode_t} (h : op ≠ .F_EXIT_FOREACH) (l : Nat) :
    Changes (operands op l) (results op).length [.operator op l] := by
  refine changes_one (fun _ => ?_) rfl
  have hstep : operator op l = takes (operands op l) (results op) := by
    cases op <;> first | rfl | exact absurd rfl h
  show Moves _ _ (operator op l)
  rw [hstep]
  exact moves_takes _ _

theorem one_result_binary (op : binary_op) : (results (.binary op)).length = 1 := by
  cases op <;> rfl

theorem one_result_ternary (op : ternary_op) : (results (.ternary op)).length = 1 := by
  cases op <;> rfl

theorem changes_two {c d : List instr_t} (hc : Changes 0 1 c) (hd : Changes 0 1 d) :
    Changes 0 2 (c ++ d) :=
  changes_append hc (changes_frame hd 1)

theorem changes_branch {k m : Nat} {yes no : List instr_t} (hyes : Changes k m yes)
    (hno : Changes k m no) : Changes (k + n) m [.branch n yes no] := by
  refine changes_one (fun inside => ?_) rfl
  exact moves_andThen (moves_frame (moves_takes n []) k)
    (moves_either (hyes.moves inside) (hno.moves inside))

theorem changes_land_lor {r : List instr_t} (hr : Changes 0 1 r) :
    Changes 1 1 [.land_lor is_lor r] := by
  refine changes_one (fun inside => ?_) rfl
  exact moves_either (moves_takes 1 [.value]) (moves_andThen (moves_takes 1 []) (hr.moves inside))

/-! ## Lists -/

/-- The values of a list of `num` nodes, with those that arrays have put in the place of
others. `left` of them are still as the nodes left them. -/
structure Listed (num : Nat) (base : List slot_t) (left : Nat) (s : evaluator_t) : Prop where
  intro ::
  values : ∃ vs : List slot_t, s.stack = vs ++ base ∧ left ≤ vs.length ∧
    (vs.length : Int) = num + s.num_varargs

theorem Listed.fewer {left left' : Nat} (h : Listed num base left s) (hle : left' ≤ left) :
    Listed num base left' s := by
  obtain ⟨vs, hs, hlen, hnum⟩ := h.values
  exact ⟨vs, hs, by omega, hnum⟩

theorem expand_listed {left size : Nat} (h : Listed num base (left + 1) s) (hn : n ≤ left) :
    Listed num base left {
      stack := s.stack.take n ++ (replicate size .value ++ s.stack.drop (n + 1))
      num_varargs := s.num_varargs + size - 1 } := by
  obtain ⟨vs, hs, hlen, hnum⟩ := h.values
  refine ⟨vs.take n ++ (replicate size .value ++ vs.drop (n + 1)), ?_, ?_, ?_⟩
  · dsimp only
    rw [hs, take_append_of_le_length (by omega), drop_append_of_le_length (by omega)]
    simp
  · rw [length_append, length_append, length_take, length_drop]
    omega
  · rw [length_append, length_append, length_take, length_drop,
      length_replicate]
    dsimp only
    omega

theorem ensures_expansions {inside : Bool} (expands : List Bool)
    (h : Listed num base expands.length s) :
    Ensures (runs Meets (expansions expands) inside) s
      (OnEnd (fun t => Listed num base 0 t ∧
        (expands.any id = false → t.num_varargs = s.num_varargs)) IsError) := by
  induction expands generalizing s with
  | nil => exact ensures_skip ⟨h, fun _ => rfl⟩
  | cons expand rest ih =>
    unfold expansions
    cases expand with
    | false =>
      have hrest := h.fewer (Nat.le_succ rest.length)
      exact ih hrest
    | true =>
      have hexpand : Ensures (instruction Meets (step Meets
          (.F_EXPAND_VARARGS (rest.length % 256)) inside)) s
          (OnEnd (Listed num base rest.length) IsError) := by
        refine ensures_either ?_ ?_
        · intro o ho
          have hmod : rest.length % 256 ≤ rest.length := Nat.mod_le _ _
          have hlen : ¬ s.stack.length ≤ rest.length % 256 := by
            obtain ⟨vs, hs, hle, _⟩ := h.values
            rw [hs, length_append]
            rw [length_cons] at hle
            omega
          change F_EXPAND_VARARGS _ _ _ at ho
          unfold F_EXPAND_VARARGS at ho
          rw [if_neg hlen] at ho
          obtain ⟨size, rfl⟩ := ho
          exact expand_listed h hmod
        · rintro o ⟨hcount, rfl⟩
          exact congrArg exit_t.error hcount
      refine ensures_andThen hexpand fun t ht => (ih ht).mono fun o ho => ?_
      apply ho.mono
      · rintro u ⟨hu, _⟩
        exact ⟨hu, fun hany => by simp at hany⟩
      · exact fun _ he => he

theorem ensures_calls {num : Nat} {base slots : List slot_t} {s : evaluator_t}
    (h : Listed num base 0 s) :
    Ensures (calls Meets (num + s.num_varargs) slots) s
      (OnEnd (Has slots.length base) IsError) := by
  intro o ho
  obtain ⟨vs, hs, _, hnum⟩ := h.values
  have hfit : ¬ ((num : Int) + s.num_varargs < 0 ∨
      (s.stack.length : Int) < num + s.num_varargs) := by
    rw [hs, length_append]
    omega
  unfold calls at ho
  rw [if_neg hfit] at ho
  obtain ⟨v, hv, rfl | rfl⟩ := ho
  · refine ⟨slots, rfl, ?_⟩
    have htake : ((num : Int) + s.num_varargs).toNat = vs.length := by omega
    rw [htake, hs, drop_left]
    exact congrArg (evaluator_t.mk _) hv
  · exact congrArg exit_t.error hv

theorem ensures_call (h : Listed num base 0 s) :
    Ensures (call Meets op num) s (OnEnd (Has 1 base) IsError) := by
  cases op
  case F_AGGREGATE | F_AGGREGATE_ASSOC =>
    intro o ho
    obtain ⟨vs, hs, _, hnum⟩ := h.values
    have hpos : ¬ (num : Int) + s.num_varargs < 0 := by omega
    have htake : ((num : Int) + s.num_varargs).toNat = vs.length := by omega
    simp only [call, if_neg hpos, htake, hs] at ho
    exact moves_takes vs.length [.value] vs base rfl o ho
  all_goals exact ensures_calls h

theorem ensures_list_operand {i : instr_t} {inside : Bool}
    (h : Ensures (step Meets i inside) s (OnEnd (Has n base) IsError)) :
    Ensures (runs Meets [i] inside) s (OnEnd (Has n base) IsError) := by
  refine ensures_andThen (ensures_either h ?_) fun t ht => ensures_skip ht
  rintro o ⟨hcount, rfl⟩
  exact congrArg exit_t.error hcount

theorem labels_expansions (expands : List Bool) :
    ∀ i ∈ expansions expands, is_case_label i = false := by
  induction expands with
  | nil => exact fun _ hi => absurd hi not_mem_nil
  | cons expand rest ih =>
    unfold expansions
    cases expand with
    | false => exact ih
    | true =>
      intro i hi
      rcases mem_cons.mp hi with rfl | h
      · rfl
      · exact ih i h

theorem changes_list {limit : Nat} {nodes last : List instr_t} {expands : List Bool}
    (hnodes : Changes 0 num nodes) (hle : expands.length ≤ num)
    (hlabels : ∀ i ∈ last, is_case_label i = false)
    (hlast : num ≤ limit → ∀ inside base s, Listed num base 0 s →
      (expands.any id = false → s.num_varargs = 0) →
      Ensures (runs Meets last inside) s (OnEnd (Has n base) IsError)) :
    Changes 0 n (.list_begins num limit :: (nodes ++ (expansions expands ++ last))) := by
  refine ⟨fun inside vs base hvs => ?_, fun i hi => ?_⟩
  rotate_left
  · simp only [mem_cons, mem_append] at hi
    rcases hi with rfl | h | h | h
    · rfl
    · exact hnodes.labels i h
    · exact labels_expansions expands i h
    · exact hlabels i h
  obtain rfl := length_eq_zero_iff.mp hvs
  have hbegins : Ensures (instruction Meets (step Meets (.list_begins num limit) inside))
      ⟨[] ++ base, 0⟩ (OnEnd (fun s => num ≤ limit ∧ s = ⟨[] ++ base, 0⟩) IsError) := by
    refine ensures_either ?_ ?_
    · rintro o ⟨hlist, rfl⟩
      exact ⟨hlist, rfl⟩
    · rintro o ⟨_, rfl⟩
      exact rfl
  refine ensures_andThen hbegins ?_
  rintro t ⟨hlimit, rfl⟩
  rw [runs_append]
  refine ensures_andThen (hnodes.moves inside [] base rfl) ?_
  rintro t ⟨ws, hws, rfl⟩
  rw [runs_append]
  have hlisted : Listed num base expands.length ⟨ws ++ base, 0⟩ :=
    ⟨ws, rfl, by omega, by dsimp only; omega⟩
  refine ensures_andThen (ensures_expansions expands hlisted) ?_
  rintro t ⟨ht, hcount⟩
  exact hlast hlimit inside base t ht hcount

theorem changes_call {op : call_t} {num : Nat} {nodes : List instr_t} {expands : List Bool}
    (hnodes : Changes 0 num nodes) (hle : expands.length ≤ num) :
    Changes 0 1 (.list_begins num (call_limit op) ::
      (nodes ++ (expansions expands ++ [.call op (num % (call_limit op + 1))]))) := by
  refine changes_list hnodes hle (fun i hi => by rw [mem_singleton.mp hi]; rfl) ?_
  intro hlimit inside base s hs _
  rw [Nat.mod_eq_of_lt (by omega)]
  exact ensures_list_operand (ensures_call hs)

theorem ensures_efun_call {efun : efun_t} {novalue_used inside : Bool} (h : Listed num base 0 s)
    (hcount : efun_varargs efun num = false → s.num_varargs = 0) (hlimit : num ≤ 255) :
    Ensures (runs Meets (efun_call efun novalue_used num) inside) s
      (OnEnd (Has ((if efun.novalue then 0 else 1) + if novalue_used then 1 else 0) base)
        IsError) := by
  have hcall : Ensures (step Meets (.F_EFUN (efun_varargs efun num)
      (if efun_varargs efun num then num % 256 else num) efun.novalue) inside) s
      (OnEnd (Has (if efun.novalue then 0 else 1) base) IsError) := by
    have hslots : (if efun.novalue then [] else [slot_t.value]).length =
        if efun.novalue then 0 else 1 := by
      split <;> rfl
    have hcalls := @ensures_calls num base (if efun.novalue then [] else [.value]) s h
    rw [hslots] at hcalls
    cases hv : efun_varargs efun num with
    | true =>
      rwa [if_pos rfl, Nat.mod_eq_of_lt (by omega)]
    | false =>
      rwa [hcount hv, Int.add_zero] at hcalls
  unfold efun_call
  cases novalue_used with
  | false => exact ensures_list_operand hcall
  | true =>
    refine ensures_andThen (ensures_either hcall ?_) ?_
    · rintro o ⟨hzero, rfl⟩
      exact congrArg exit_t.error hzero
    · rintro t ⟨vs, hvs, rfl⟩
      exact (changes_frame changes_value _).moves inside vs base hvs

theorem labels_efun_call {efun : efun_t} {novalue_used : Bool} :
    ∀ i ∈ efun_call efun novalue_used num, is_case_label i = false := by
  cases novalue_used <;> simp [efun_call, is_case_label]

theorem changes_efun {efun : efun_t} {novalue_used : Bool} {num : Nat} {nodes : List instr_t}
    {expands : List Bool} (hnodes : Changes 0 num nodes) (hle : expands.length ≤ num)
    (hfixed : (efun.max_arg.isSome && expands.any id) = false) :
    Changes 0 ((if efun.novalue then 0 else 1) + if novalue_used then 1 else 0)
      (.list_begins num 255 ::
        (nodes ++ (expansions expands ++ efun_call efun novalue_used num))) := by
  refine changes_list hnodes hle labels_efun_call fun hlimit inside base s hs hcount => ?_
  refine ensures_efun_call hs (fun hv => hcount ?_) hlimit
  simp only [efun_varargs, Bool.not_eq_false', Bool.and_eq_true] at hv
  rwa [hv.2, Bool.true_and] at hfixed

/-! ## Statements -/

def unwind : Nat → List slot_t → Option (List slot_t)
  | 0, stack => some stack
  | depth + 1, stack => (exit_foreach stack).bind (unwind depth)

theorem exit_foreach_record (of_mapping : Bool) (stack : List slot_t) :
    exit_foreach (record of_mapping ++ stack) = some stack := by cases of_mapping <;> rfl

def Leaves (c : context_t) (inside : Bool) (depth : Nat) (s : evaluator_t) : exit_t → Prop
  | .jump .CJ_BREAK t =>
    c.SWITCH_CONTEXT = false ∧ c.LOOP_CONTEXT = true ∧ t.num_varargs = 0 ∧
      if c.LOOP_FOREACH then exit_foreach s.stack = some t.stack else t.stack = s.stack
  | .jump .CJ_CONTINUE t => c.LOOP_CONTEXT = true ∧ t = s
  | .jump .CJ_BREAK_SWITCH t => c.SWITCH_CONTEXT = true ∧ t = s
  | .return_ inside' stack =>
    inside = false ∧ inside' = false ∧ unwind depth s.stack = some stack
  | .error num_varargs => num_varargs = 0
  | .lost => False

/-- The state that a statement is run from: the records of the loops around it are there. -/
structure Ready (c : context_t) (inside : Bool) (depth : Nat) (s : evaluator_t) : Prop where
  count : s.num_varargs = 0
  records : inside = false → ∃ base, unwind depth s.stack = some base
  record : c.LOOP_FOREACH = true → ∃ stack, exit_foreach s.stack = some stack

def Holds (c : context_t) (inside : Bool) (depth : Nat) (command : Code) : Prop :=
  ∀ s, Ready c inside depth s → Ensures command s (OnEnd (· = s) (Leaves c inside depth s))

/-- The same of code, from its start and from each of the cases that begin in it. -/
structure Keeps (c : context_t) (depth : Nat) (code : List instr_t) : Prop where
  holds : ∀ inside, Holds c inside depth (runs Meets code inside)
  enters : ∀ inside, Holds c inside depth (enters Meets code inside)

section

variable {c : context_t} {inside : Bool} {depth : Nat}
variable {d : Code} {n : Nat}
variable {e : Code}

theorem leaves_isError {s : evaluator_t} {e : exit_t} (h : IsError e) :
    Leaves c inside depth s e := by
  obtain rfl : e = .error 0 := h
  exact rfl

theorem holds_of_moves (h : Moves 0 0 d) : Holds c inside depth d := by
  rintro ⟨stack, num_varargs⟩ hs
  obtain rfl : num_varargs = 0 := hs.count
  refine (h [] stack rfl).mono fun o ho => ho.mono ?_ fun _ => leaves_isError
  rintro t ⟨vs, hvs, rfl⟩
  rw [length_eq_zero_iff.mp hvs]
  rfl

theorem holds_andThen (hd : Holds c inside depth d) (he : Holds c inside depth e) :
    Holds c inside depth (andThen d e) := by
  intro s hs
  refine ensures_andThen (hd s hs) ?_
  rintro t rfl
  exact he t hs

theorem holds_either (hd : Holds c inside depth d) (he : Holds c inside depth e) :
    Holds c inside depth (either d e) :=
  fun s hs => ensures_either (hd s hs) (he s hs)

theorem holds_skip : Holds c inside depth skip := fun _ _ => ensures_skip rfl

theorem holds_instruction (h : Holds c inside depth d) :
    Holds c inside depth (instruction Meets d) := by
  refine holds_either h ?_
  rintro s hs o ⟨hcount, rfl⟩
  exact hcount

theorem enters_eq_skip {code : List instr_t} (h : ∀ i ∈ code, is_case_label i = false)
    (inside : Bool) : enters Meets code inside = skip := by
  induction code with
  | nil => rfl
  | cons i code ih =>
    funext s o
    have hi := h i mem_cons_self
    have hcode := ih fun j hj => h j (mem_cons_of_mem _ hj)
    simp [enters, hi, hcode]

theorem keeps_of_labels {code : List instr_t} (h : ∀ i ∈ code, is_case_label i = false)
    (hholds : ∀ inside, Holds c inside depth (runs Meets code inside)) : Keeps c depth code where
  holds := hholds
  enters inside := by
    rw [enters_eq_skip h]
    exact holds_skip

theorem keeps_of_changes {code : List instr_t} (h : Changes 0 0 code) : Keeps c depth code :=
  keeps_of_labels h.labels fun inside => holds_of_moves (h.moves inside)

theorem enters_append {a b : List instr_t} {s : evaluator_t}
    {o : Outcome evaluator_t exit_t} (h : enters Meets (a ++ b) inside s o) :
    andThen (enters Meets a inside) (runs Meets b inside) s o ∨ enters Meets b inside s o := by
  induction a with
  | nil => exact Or.inr h
  | cons i a ih =>
    rcases h with ⟨hi, h⟩ | h
    · change runs Meets (a ++ b) inside s o at h
      rw [runs_append] at h
      rcases h with ⟨t, ht, ho⟩ | ⟨e, he, rfl⟩
      · exact Or.inl (Or.inl ⟨t, Or.inl ⟨hi, ht⟩, ho⟩)
      · exact Or.inl (Or.inr ⟨e, Or.inl ⟨hi, he⟩, rfl⟩)
    · rcases ih h with (⟨t, ht, ho⟩ | ⟨e, he, rfl⟩) | h
      · exact Or.inl (Or.inl ⟨t, Or.inr ht, ho⟩)
      · exact Or.inl (Or.inr ⟨e, Or.inr he, rfl⟩)
      · exact Or.inr h

theorem keeps_append {a b : List instr_t} (ha : Keeps c depth a) (hb : Keeps c depth b) :
    Keeps c depth (a ++ b) := by
  constructor
  · intro inside
    rw [runs_append]
    exact holds_andThen (ha.holds inside) (hb.holds inside)
  · intro inside s hs o ho
    rcases enters_append ho with h | h
    · exact holds_andThen (ha.enters inside) (hb.holds inside) s hs o h
    · exact hb.enters inside s hs o h

theorem keeps_one {i : instr_t} (hi : ∀ inside, Holds c inside depth (step Meets i inside))
    (hlabel : is_case_label i = false) : Keeps c depth [i] := by
  refine keeps_of_labels (fun j hj => by rwa [mem_singleton.mp hj]) fun inside => ?_
  exact holds_andThen (holds_instruction (hi inside)) holds_skip

theorem keeps_case_label : Keeps c depth [.case_label] where
  holds inside := holds_andThen (holds_instruction holds_skip) holds_skip
  enters inside := by
    rintro s hs o (⟨_, h⟩ | h)
    · exact holds_skip s hs o h
    · exact holds_skip s hs o h

theorem holds_after (hd : Moves 0 n d)
    (he : ∀ s, Ready c inside depth s → ∀ vs : List slot_t, vs.length = n →
      Ensures e ⟨vs ++ s.stack, 0⟩ (OnEnd (· = s) (Leaves c inside depth s))) :
    Holds c inside depth (andThen d e) := by
  rintro ⟨stack, num_varargs⟩ hs
  obtain rfl : num_varargs = 0 := hs.count
  refine ensures_andThen ((hd [] stack rfl).mono fun o ho =>
    ho.mono (fun _ h => h) fun _ => leaves_isError) ?_
  rintro t ⟨vs, hvs, rfl⟩
  exact he _ hs vs hvs

theorem ensures_takes {vs : List slot_t} {s : evaluator_t} (hs : s.num_varargs = 0)
    (hvs : vs.length = n) :
    Ensures (takes n []) ⟨vs ++ s.stack, 0⟩ (OnEnd (· = s) (Leaves c inside depth s)) := by
  obtain ⟨stack, num_varargs⟩ := s
  obtain rfl : num_varargs = 0 := hs
  refine (moves_takes n [] vs stack hvs).mono fun o ho => ho.mono ?_ fun _ => leaves_isError
  rintro t ⟨ws, hws, rfl⟩
  rw [length_eq_zero_iff.mp hws]
  rfl

theorem keeps_after {operands : List instr_t} {i : instr_t} (ho : Changes 0 n operands)
    (hlabel : is_case_label i = false)
    (hi : ∀ inside s, Ready c inside depth s → ∀ vs : List slot_t, vs.length = n →
      Ensures (step Meets i inside) ⟨vs ++ s.stack, 0⟩
        (OnEnd (· = s) (Leaves c inside depth s))) : Keeps c depth (operands ++ [i]) := by
  refine keeps_of_labels ?_ fun inside => ?_
  · intro j hj
    rcases mem_append.mp hj with h | h
    · exact ho.labels j h
    · rwa [mem_singleton.mp h]
  rw [runs_append]
  refine holds_after (ho.moves inside) fun s hs vs hvs => ?_
  refine ensures_andThen (ensures_either (hi inside s hs vs hvs) ?_) fun t ht => ensures_skip ht
  rintro o ⟨hcount, rfl⟩
  exact hcount

theorem keeps_branch {operands yes no : List instr_t} (ho : Changes 0 n operands)
    (hyes : Keeps c depth yes) (hno : Keeps c depth no) :
    Keeps c depth (operands ++ [.branch n yes no]) := by
  refine keeps_after ho rfl fun inside s hs vs hvs => ?_
  refine ensures_andThen (ensures_takes hs.count hvs) ?_
  rintro t rfl
  exact holds_either (hyes.holds inside) (hno.holds inside) t hs

end

/-! ## Jumps and what they go to -/

theorem ensures_lands {number : control_jump_t} {P : evaluator_t → Prop} {E F : exit_t → Prop}
    (hd : Ensures d s (OnEnd P F)) (hland : ∀ t, F (.jump number t) → P t)
    (hpass : ∀ e, F e → (∀ t, e ≠ .jump number t) → E e) :
    Ensures (lands number d) s (OnEnd P E) := by
  refine ensures_handle hd ?_
  rintro (⟨number', t⟩ | ⟨inside, stack⟩ | num_varargs | _) he
  · intro o ho
    dsimp only at ho
    split at ho
    · rename_i hnumber
      subst hnumber ho
      exact hland t he
    · rename_i hnumber
      subst ho
      exact hpass _ he fun t' h => hnumber (by cases h; rfl)
  · exact ensures_leave (hpass _ he fun _ h => by cases h)
  · exact ensures_leave (hpass _ he fun _ h => by cases h)
  · exact ensures_leave (hpass _ he fun _ h => by cases h)

section

variable {c : context_t} {inside : Bool} {depth : Nat}
variable {s : evaluator_t} {n : Nat} {base stack : List slot_t}
variable {block : Code} {operand : List instr_t} {E : exit_t → Prop} {of_mapping : Bool}

theorem ready_switch (h : Ready c inside depth s) : Ready (switch_context c) inside depth s :=
  ⟨h.count, h.records, fun h => by cases h⟩

theorem ready_loop (h : Ready c inside depth s) : Ready loop_context inside depth s :=
  ⟨h.count, h.records, fun h => by cases h⟩

theorem holds_switch (h : Holds (switch_context c) inside depth block) :
    Holds c inside depth (lands .CJ_BREAK_SWITCH block) := by
  intro s hs
  refine ensures_lands (h s (ready_switch hs)) ?_ ?_
  · rintro t ⟨_, rfl⟩
    rfl
  · rintro (⟨number, t⟩ | ⟨inside', stack⟩ | num_varargs | _) he hne
    · cases number with
      | CJ_BREAK => cases he.1
      | CJ_CONTINUE => exact he
      | CJ_BREAK_SWITCH => exact absurd rfl (hne t)
    · exact he
    · exact he
    · exact he

theorem keeps_switch {block : List instr_t} (ho : Changes 0 1 operand)
    (hb : Keeps (switch_context c) depth block) : Keeps c depth (operand ++ [.F_SWITCH block]) := by
  refine keeps_after ho rfl fun inside s hs vs hvs => ?_
  refine ensures_andThen (ensures_takes hs.count hvs) ?_
  rintro t rfl
  exact holds_switch (hb.enters inside) t hs

/-- A loop is left with `out`, by its test or by a break, when each of its rounds begins and
ends in the state `s`. -/
theorem ensures_loop {out : evaluator_t} {at_test : Bool} {inc test : Code} {branch : loop_branch_t}
    (hblock : Ensures (andThen (lands .CJ_CONTINUE block) inc) s
      (OnEnd (· = s) fun e => E e ∨ e = .jump .CJ_BREAK out))
    (htest : Ensures (andThen (inRound test) (loop_branch Meets branch)) s
      (OnEnd (· = s) (OnEnd (· = out) E))) (hE : ∀ t, ¬ E (.jump .CJ_BREAK t)) :
    Ensures (loop Meets at_test block inc test branch) s (OnEnd (· = out) E) := by
  have hround : ∀ t, t = s → Ensures (andThen (inRound test)
      (andThen (loop_branch Meets branch) (inRound (andThen (lands .CJ_CONTINUE block) inc)))) t
      (OnEnd (· = s) (OnEnd (· = out) fun e => E e ∨ e = .jump .CJ_BREAK out)) := by
    rintro t rfl
    rw [← andThen_assoc]
    have hwide : ∀ o, OnEnd (· = out) E o →
        OnEnd (· = out) (fun e => E e ∨ e = .jump .CJ_BREAK out) o :=
      fun o ho => ho.mono (fun _ h => h) fun _ he => Or.inl he
    refine ensures_andThen (htest.mono fun o ho => ho.mono (fun _ h => h) hwide) ?_
    rintro u rfl
    exact ensures_inRound hblock
  refine ensures_lands (ensures_andThen (M := (· = s)) ?_ fun t ht =>
    ensures_rounds hround ht) ?_ ?_
  · cases at_test with
    | true => exact ensures_skip rfl
    | false => exact hblock
  · rintro t (h | h)
    · exact absurd h (hE t)
    · cases h
      rfl
  · rintro e (h | rfl) hne
    · exact h
    · exact absurd rfl (hne out)

def Finds (n : Nat) : loop_branch_t → Prop
  | .none_ => n = 0
  | .F_BBRANCH => n = 0
  | .values m => n = m
  | .F_NEXT_FOREACH => False
  | .no_instruction => True

theorem ensures_test {test : Code} {branch : loop_branch_t} (hn : Finds n branch)
    (ht : Moves 0 n test) (hs : s.num_varargs = 0) (hE : ∀ e, IsError e → E e) :
    Ensures (andThen (inRound test) (loop_branch Meets branch)) s
      (OnEnd (· = s) (OnEnd (· = s) E)) := by
  obtain ⟨stack, num_varargs⟩ := s
  obtain rfl : num_varargs = 0 := hs
  have htest : Ensures (inRound test) ⟨stack, 0⟩
      (OnEnd (Has n stack) (OnEnd (· = ⟨stack, 0⟩) E)) :=
    ensures_inRound ((ht [] stack rfl).mono fun o ho => ho.mono (fun _ h => h) hE)
  refine ensures_andThen htest ?_
  rintro t ⟨vs, hvs, rfl⟩ o ho
  cases branch with
  | none_ | F_BBRANCH =>
    cases hn
    rw [length_eq_zero_iff.mp hvs] at ho
    subst ho
    exact rfl
  | values m =>
    cases hn
    have hlen : ¬ (vs ++ stack).length < vs.length := by
      rw [length_append]
      omega
    subst hvs
    simp only [loop_branch, if_neg hlen, drop_left] at ho
    rcases ho with rfl | rfl <;> exact rfl
  | F_NEXT_FOREACH => exact hn.elim
  | no_instruction => exact ho.1.elim

/-- How a loop is left, but for its end: by a return, from under which the records are taken,
or by an error. -/
def LeavesLoop (inside : Bool) (target : Option (List slot_t)) : exit_t → Prop
  | .jump _ _ => False
  | .return_ inside' stack => inside = false ∧ inside' = false ∧ target = some stack
  | .error num_varargs => num_varargs = 0
  | .lost => False

theorem leaves_of_leavesLoop {e : exit_t} (h : LeavesLoop inside (unwind depth s.stack) e) :
    Leaves c inside depth s e := by
  cases e with
  | jump number t => exact h.elim
  | return_ inside' stack => exact h
  | error num_varargs => exact h
  | lost => exact h

theorem leavesLoop_of_isError {target : Option (List slot_t)} {e : exit_t} (h : IsError e) :
    LeavesLoop inside target e := by
  obtain rfl : e = .error 0 := h
  exact rfl

theorem ensures_block {out : evaluator_t} {inc : Code} (hb : Holds c inside depth block)
    (hi : Moves 0 0 inc) (hs : Ready c inside depth s) (hswitch : c.SWITCH_CONTEXT = false)
    (hout : ∀ t, Leaves c inside depth s (.jump .CJ_BREAK t) → t = out) :
    Ensures (andThen (lands .CJ_CONTINUE block) inc) s
      (OnEnd (· = s) fun e =>
        LeavesLoop inside (unwind depth s.stack) e ∨ e = .jump .CJ_BREAK out) := by
  have hlands : Ensures (lands .CJ_CONTINUE block) s (OnEnd (· = s) fun e =>
      LeavesLoop inside (unwind depth s.stack) e ∨ e = .jump .CJ_BREAK out) := by
    refine ensures_lands (hb s hs) ?_ ?_
    · rintro t ⟨_, rfl⟩
      rfl
    · rintro (⟨number, t⟩ | ⟨inside', stack⟩ | num_varargs | _) he hne
      · cases number with
        | CJ_BREAK => exact Or.inr (congrArg _ (hout t he))
        | CJ_CONTINUE => exact absurd rfl (hne t)
        | CJ_BREAK_SWITCH => exact absurd (hswitch.symm.trans he.1) Bool.false_ne_true
      · exact Or.inl he
      · exact Or.inl he
      · exact Or.inl he
  refine ensures_andThen hlands ?_
  rintro t rfl
  obtain ⟨stack, num_varargs⟩ := t
  obtain rfl : num_varargs = 0 := hs.count
  refine (hi [] stack rfl).mono fun o ho => ho.mono ?_ fun e he => Or.inl (leavesLoop_of_isError he)
  rintro t ⟨vs, hvs, rfl⟩
  rw [length_eq_zero_iff.mp hvs]
  rfl

theorem keeps_loop {at_test : Bool} {block inc test : List instr_t} {branch : loop_branch_t}
    (hb : Keeps loop_context depth block) (hi : Changes 0 0 inc) (ht : Changes 0 n test)
    (hn : Finds n branch) : Keeps c depth [.loop at_test block inc test branch] := by
  refine keeps_one (fun inside s hs => ?_) rfl
  have hout : ∀ t, Leaves loop_context inside depth s (.jump .CJ_BREAK t) → t = s := by
    rintro ⟨stack, num_varargs⟩ ⟨_, _, hcount, hstack⟩
    obtain ⟨stack', num_varargs'⟩ := s
    obtain rfl : stack = stack' := hstack
    obtain rfl : num_varargs = 0 := hcount
    obtain rfl : num_varargs' = 0 := hs.count
    rfl
  have hblock := ensures_block (hb.holds inside) (hi.moves inside) (ready_loop hs) rfl hout
  have htest := ensures_test (E := LeavesLoop inside (unwind depth s.stack)) hn (ht.moves inside)
    hs.count fun _ => leavesLoop_of_isError
  refine (ensures_loop hblock htest fun _ h => h).mono fun o ho => ?_
  exact ho.mono (fun _ h => h) fun _ => leaves_of_leavesLoop

theorem ensures_next_foreach :
    Ensures (andThen (inRound skip) (loop_branch Meets .F_NEXT_FOREACH))
      ⟨record of_mapping ++ base, 0⟩
      (OnEnd (· = ⟨record of_mapping ++ base, 0⟩) (OnEnd (· = ⟨base, 0⟩) E)) := by
  have hskip : Ensures (inRound skip) (⟨record of_mapping ++ base, 0⟩ : evaluator_t)
      (OnEnd (· = ⟨record of_mapping ++ base, 0⟩) (OnEnd (· = ⟨base, 0⟩) E)) :=
    ensures_inRound (ensures_skip rfl)
  refine ensures_andThen hskip ?_
  rintro t rfl o ho
  simp only [loop_branch, exit_foreach_record] at ho
  rcases ho with rfl | rfl <;> exact rfl

theorem ensures_foreach (ho : Changes 0 1 operand) :
    Ensures (runs Meets (operand ++ [.F_FOREACH of_mapping]) inside) ⟨stack, 0⟩
      (OnEnd (· = ⟨record of_mapping ++ stack, 0⟩) IsError) := by
  rw [runs_append]
  refine ensures_andThen (ho.moves inside [] stack rfl) ?_
  rintro t ⟨vs, hvs, rfl⟩
  have htakes : Ensures (takes 1 (record of_mapping)) ⟨vs ++ stack, 0⟩
      (OnEnd (· = ⟨record of_mapping ++ stack, 0⟩) IsError) := by
    intro o ho
    have hlen : ¬ (vs ++ stack).length < vs.length := by
      rw [length_append]
      omega
    rw [← hvs] at ho
    simp only [takes, if_neg hlen, drop_left] at ho
    subst ho
    exact rfl
  refine ensures_andThen (ensures_either htakes ?_) fun t ht => ensures_skip ht
  rintro o ⟨_, rfl⟩
  exact rfl

theorem keeps_foreach {block : List instr_t} (ho : Changes 0 1 operand)
    (hb : Keeps foreach_context (depth + 1) block) :
    Keeps c depth ((operand ++ [.F_FOREACH of_mapping]) ++
      [.loop true block [] [] .F_NEXT_FOREACH]) := by
  refine keeps_of_labels ?_ fun inside => ?_
  · simp only [mem_append, mem_singleton]
    rintro i ((h | rfl) | rfl)
    · exact ho.labels i h
    · rfl
    · rfl
  rw [runs_append]
  rintro ⟨stack, num_varargs⟩ hs
  obtain rfl : num_varargs = 0 := hs.count
  refine ensures_andThen ((ensures_foreach ho).mono fun o ho =>
    ho.mono (fun _ h => h) fun _ => leaves_isError) ?_
  rintro t rfl
  have hunwind : unwind (depth + 1) (record of_mapping ++ stack) = unwind depth stack := by
    rw [unwind, exit_foreach_record]
    rfl
  have hready : Ready foreach_context inside (depth + 1) ⟨record of_mapping ++ stack, 0⟩ := by
    refine ⟨rfl, fun hinside => ?_, fun _ => ⟨stack, exit_foreach_record _ _⟩⟩
    dsimp only
    rw [hunwind]
    exact hs.records hinside
  have hout : ∀ t, Leaves foreach_context inside (depth + 1) ⟨record of_mapping ++ stack, 0⟩
      (.jump .CJ_BREAK t) → t = ⟨stack, 0⟩ := by
    rintro ⟨stack', num_varargs⟩ ⟨_, _, hcount, hstack⟩
    obtain rfl : num_varargs = 0 := hcount
    have hsome := (exit_foreach_record of_mapping stack).symm.trans hstack
    cases hsome
    rfl
  have hblock := ensures_block (hb.holds inside) (moves_skip 0) hready rfl hout
  have hloop : Ensures (step Meets (.loop true block [] [] .F_NEXT_FOREACH) inside)
      ⟨record of_mapping ++ stack, 0⟩
      (OnEnd (· = ⟨stack, 0⟩) (Leaves c inside depth ⟨stack, 0⟩)) := by
    refine (ensures_loop hblock ensures_next_foreach fun _ h => h).mono fun o ho => ?_
    dsimp only at ho
    rw [hunwind] at ho
    exact ho.mono (fun _ h => h) fun _ => leaves_of_leavesLoop
  refine ensures_andThen (ensures_either hloop ?_) fun t ht => ensures_skip ht
  rintro o ⟨hcount, rfl⟩
  exact hcount

theorem ensures_exits (n : Nat) (h : unwind n stack = some base) :
    Ensures (runs Meets (replicate n (.operator .F_EXIT_FOREACH 0)) inside) ⟨stack, 0⟩
      (OnEnd (· = ⟨base, 0⟩) IsError) := by
  induction n generalizing stack with
  | zero =>
    cases h
    exact ensures_skip rfl
  | succ n ih =>
    obtain ⟨stack', hexit, hunwind⟩ := bind_eq_some_iff.mp h
    refine ensures_andThen (M := (· = ⟨stack', 0⟩)) (ensures_either ?_ ?_) ?_
    · intro o ho
      change F_EXIT_FOREACH _ _ at ho
      simp only [F_EXIT_FOREACH, hexit] at ho
      subst ho
      exact rfl
    · rintro o ⟨_, rfl⟩
      exact rfl
    · rintro t rfl
      exact ih hunwind

theorem ensures_return_zero (h : unwind n stack = some base) :
    Ensures (runs Meets (replicate n (.operator .F_EXIT_FOREACH 0) ++ [.F_RETURN_ZERO]) inside)
      ⟨stack, 0⟩ (OnEnd (fun _ => False) fun e => IsError e ∨ e = .return_ inside base) := by
  rw [runs_append]
  refine ensures_andThen ((ensures_exits n h).mono fun o ho =>
    ho.mono (fun _ h => h) fun _ => Or.inl) ?_
  rintro t rfl
  refine ensures_andThen (M := fun _ => False) (ensures_either ?_ ?_) fun _ h => h.elim
  · rintro o rfl
    exact Or.inr rfl
  · rintro o ⟨_, rfl⟩
    exact Or.inl rfl

theorem ensures_value_return {value : List instr_t} (hv : Changes 0 1 value) :
    Ensures (runs Meets (value ++ [.F_RETURN]) inside) ⟨stack, 0⟩
      (OnEnd (fun _ => False) fun e => IsError e ∨ e = .return_ inside stack) := by
  rw [runs_append]
  refine ensures_andThen ((hv.moves inside [] stack rfl).mono fun o ho =>
    ho.mono (fun _ h => h) fun _ => Or.inl) ?_
  rintro t ⟨vs, hvs, rfl⟩
  refine ensures_andThen (M := fun _ => False) (ensures_either ?_ ?_) fun _ h => h.elim
  · intro o ho
    obtain ⟨v, rfl⟩ := length_eq_one_iff.mp hvs
    simp only [step, F_RETURN, cons_append, nil_append] at ho
    subst ho
    exact Or.inr rfl
  · rintro o ⟨_, rfl⟩
    exact Or.inl rfl

theorem ensures_return {value : List instr_t} (h : unwind n stack = some base)
    (hv : Changes 0 1 value) :
    Ensures (runs Meets (replicate n (.operator .F_EXIT_FOREACH 0) ++ (value ++ [.F_RETURN]))
      inside) ⟨stack, 0⟩
      (OnEnd (fun _ => False) fun e => IsError e ∨ e = .return_ inside base) := by
  rw [runs_append]
  refine ensures_andThen ((ensures_exits n h).mono fun o ho =>
    ho.mono (fun _ h => h) fun _ => Or.inl) ?_
  rintro t rfl
  exact ensures_value_return hv

theorem ensures_return_begins {code : List instr_t} (hs : Ready c inside depth s)
    (h : ∀ base, unwind depth s.stack = some base → Ensures (runs Meets code false) s
      (OnEnd (fun _ => False) fun e => IsError e ∨ e = .return_ false base)) :
    Ensures (runs Meets (.return_begins :: code) inside) s
      (OnEnd (fun _ => False) (Leaves c inside depth s)) := by
  have hbegins : Ensures (instruction Meets (step Meets .return_begins inside)) s
      (OnEnd (fun t => inside = false ∧ t = s) (Leaves c inside depth s)) := by
    refine ensures_either ?_ ?_
    · rintro o ⟨hinside, rfl⟩
      cases inside with
      | false => exact ⟨rfl, rfl⟩
      | true => exact (hinside rfl).elim
    · rintro o ⟨hcount, rfl⟩
      exact hcount
  refine ensures_andThen hbegins ?_
  rintro t ⟨rfl, rfl⟩
  obtain ⟨base, hbase⟩ := hs.records rfl
  refine (h base hbase).mono fun o ho => ho.mono (fun _ h => h) ?_
  rintro e (he | rfl)
  · exact leaves_isError he
  · exact ⟨rfl, rfl, hbase⟩

end

/-! ## Catches and time expressions -/

theorem moves_special {depth : Nat} (h : Keeps special_context depth body) :
    Moves 0 0 (runs Meets body true) := by
  intro vs base hvs
  obtain rfl := length_eq_zero_iff.mp hvs
  have hready : Ready special_context true depth ⟨[] ++ base, 0⟩ :=
    { count := rfl
      records := fun hinside => absurd hinside (by decide)
      record := fun hforeach => absurd hforeach Bool.false_ne_true }
  refine (h.holds true _ hready).mono fun o ho => ho.mono ?_ ?_
  · rintro t rfl
    exact ⟨[], rfl, rfl⟩
  · rintro (⟨number, t⟩ | ⟨inside', stack⟩ | num_varargs | _) he
    · cases number with
      | CJ_BREAK => cases he.2.1
      | CJ_CONTINUE => cases he.1
      | CJ_BREAK_SWITCH => cases he.1
    · cases he.1
    · exact congrArg exit_t.error he
    · exact he.elim

theorem changes_catch {depth : Nat} (h : Keeps special_context depth body) :
    Changes 0 1 [.F_CATCH body] := by
  refine changes_one (fun inside vs base hvs => ?_) rfl
  refine ensures_handle (moves_andThen (moves_special h) (moves_takes 0 [.value]) vs base hvs) ?_
  rintro e rfl o ho
  dsimp only at ho
  rcases ho with rfl | rfl
  · refine ⟨.value :: vs, ?_, rfl⟩
    rw [length_cons, hvs]
  · exact rfl

theorem changes_time_expression {depth : Nat} (h : Keeps special_context depth body) :
    Changes 0 1 [.F_TIME_EXPRESSION body] := by
  refine changes_one (fun inside => ?_) rfl
  exact moves_andThen (moves_takes 0 [.value, .value])
    (moves_andThen (moves_frame (moves_special h) 2) (moves_takes 2 [.value]))

/-! ## The code of trees -/

theorem changes_leaf_op {op : opcode_t} {l : Nat} (hop : op ≠ .F_EXIT_FOREACH)
    (hl : operands op l = 0) (hn : (results op).length = n) : Changes 0 n [.operator op l] := by
  have h := changes_operator hop l
  rwa [hl, hn] at h

theorem changes_unary_op {op : opcode_t} {l n : Nat} {r : List instr_t}
    (hop : op ≠ .F_EXIT_FOREACH) (hl : operands op l = 1) (hn : (results op).length = n)
    (hr : Changes 0 1 r) : Changes 0 n (r ++ [.operator op l]) := by
  have h := changes_operator hop l
  rw [hl, hn] at h
  exact changes_append hr h

theorem changes_binary_op {op : opcode_t} {l r : List instr_t} (hop : op ≠ .F_EXIT_FOREACH)
    (ho : operands op 0 = 2) (hn : (results op).length = n) (hl : Changes 0 1 l)
    (hr : Changes 0 1 r) : Changes 0 n (l ++ (r ++ [.operator op 0])) := by
  have h := changes_operator hop 0
  rw [ho, hn] at h
  exact changes_append hl (changes_append (changes_frame hr 1) h)

theorem changes_ternary_op {op : opcode_t} {l r_l r_r : List instr_t} (hop : op ≠ .F_EXIT_FOREACH)
    (ho : operands op 0 = 3) (hn : (results op).length = n) (hl : Changes 0 1 l)
    (hr_l : Changes 0 1 r_l) (hr_r : Changes 0 1 r_r) :
    Changes 0 n (l ++ (r_l ++ (r_r ++ [.operator op 0]))) := by
  have h := changes_operator hop 0
  rw [ho, hn] at h
  exact changes_append hl (changes_append (changes_frame hr_l 1)
    (changes_append (changes_frame hr_r 2) h))

theorem branch_links_eq_none (h : Value l) (depth : Nat) (is_lor : Bool) (rest : List instr_t) :
    branch_links l depth is_lor rest = none := by cases h <;> rfl

theorem values_call {r : node_list_t} (h : op ≠ .F_AGGREGATE_ASSOC) :
    call_values op r = r.length := by cases op <;> first | rfl | exact absurd rfl h

theorem length_expands : ∀ r : node_list_t, r.expands.length = r.length
  | .nil => rfl
  | .cons _ _ rest => congrArg (· + 1) (length_expands rest)

theorem expands_pairs : ∀ {r : node_list_t}, Pairs r → r.expands.length ≤ 2 * r.length
  | r, _ => by
    rw [length_expands]
    omega

/-- What holds of the code of a tree with a value: of the code itself, of the code of it as
the test of an if, and of the code of it as the test of a loop. -/
structure Sound (r : parse_node_t) : Prop where
  code : ∀ depth, Changes 0 1 (i_generate_node r depth)
  branch : ∀ depth invert p, i_generate_if_branch r depth invert = some p → Changes 0 p.2 p.1
  test : ∀ depth without_ne p, generate_conditional_branch r depth without_ne = some p →
    ∃ n, Finds n p.2 ∧ Changes 0 n p.1

theorem Sound.plain {r : parse_node_t} (h : ∀ depth, Changes 0 1 (i_generate_node r depth))
    (hbranch : ∀ depth invert, i_generate_if_branch r depth invert = none)
    (htest : ∀ depth without_ne, generate_conditional_branch r depth without_ne = none) :
    Sound r where
  code := h
  branch depth invert p hp := by
    simp [hbranch] at hp
  test depth without_ne p hp := by simp [htest] at hp

theorem Sound.branch_getD (h : Sound r) (depth : Nat) (invert : Bool) :
    Changes 0 ((i_generate_if_branch r depth invert).getD (i_generate_node r depth, 1)).2
      ((i_generate_if_branch r depth invert).getD (i_generate_node r depth, 1)).1 := by
  cases hp : i_generate_if_branch r depth invert with
  | none => exact h.code depth
  | some p => exact h.branch depth invert p hp

theorem Sound.test_getD (h : Sound r) (depth : Nat) (without_ne : Bool) :
    ∃ n, Finds n ((generate_conditional_branch r depth without_ne).getD
        (i_generate_node r depth, .values 1)).2 ∧
      Changes 0 n ((generate_conditional_branch r depth without_ne).getD
        (i_generate_node r depth, .values 1)).1 := by
  cases hp : generate_conditional_branch r depth without_ne with
  | none => exact ⟨1, rfl, h.code depth⟩
  | some p => exact h.test depth without_ne p hp

theorem sound_number (number : Int) : Sound (.NODE_NUMBER number) where
  code _ := changes_value
  branch _ _ _ hp := by cases hp
  test _ _ p hp := by
    cases hp
    refine ⟨0, ?_, changes_nil 0⟩
    dsimp only
    split <;> rfl

theorem sound_unary {op : unary_op} (h : Sound r) : Sound (.NODE_UNARY_OP (.unary op) r) := by
  have hcode : ∀ depth, Changes 0 1 (i_generate_node (.NODE_UNARY_OP (.unary op) r) depth) :=
    fun depth => changes_unary_op (fun h => by cases h) rfl rfl (h.code depth)
  cases op
  case F_NOT =>
    refine ⟨hcode, ?_, ?_⟩
    · intro depth invert p hp
      cases hp
      exact h.branch_getD depth !invert
    · intro depth without_ne p hp
      cases hp
      exact ⟨1, rfl, h.code depth⟩
  all_goals exact .plain hcode (fun _ _ => rfl) fun _ _ => rfl

theorem sound_binary {op : binary_op} (hl : Sound l) (hr : Sound r) :
    Sound (.NODE_BINARY_OP (.binary op) l r) where
  code depth :=
    changes_binary_op (fun h => by cases h) rfl (one_result_binary op) (hl.code depth)
      (hr.code depth)
  branch depth invert p hp := by
    simp only [i_generate_if_branch] at hp
    split at hp
    all_goals
      split at hp
      · cases hp
        exact changes_two (hl.code depth) (hr.code depth)
      · cases hp
  test depth without_ne p hp := by
    simp only [generate_conditional_branch] at hp
    split at hp
    · cases hp
      exact hl.test_getD depth false
    · split at hp
      · cases hp
        exact hr.test_getD depth false
      · split at hp
        · cases hp
          exact ⟨2, rfl, changes_two (hl.code depth) (hr.code depth)⟩
        · cases hp

theorem changes_args {r : node_list_t} {depth : Nat} (hop : op ≠ .F_AGGREGATE_ASSOC)
    (h : Changes 0 r.length (generate_nodes r depth)) :
    Changes 0 1 (i_generate_node (.NODE_CALL op r) depth) := by
  rw [i_generate_node, values_call hop]
  exact changes_call h (Nat.le_of_eq (length_expands r))

theorem keeps_if {c : context_t} {depth : Nat} (hv : Sound v)
    (hl : Keeps c depth (i_generate_node l depth)) (hr : Keeps c depth (i_generate_node r depth)) :
    Keeps c depth (i_generate_node (.NODE_IF v l r) depth) := by
  rw [i_generate_node]
  exact keeps_branch (hv.branch_getD depth false) hl hr

theorem changes_if {depth : Nat} (hv : Sound v) (hl : Changes 0 n (i_generate_node l depth))
    (hr : Changes 0 n (i_generate_node r depth)) :
    Changes 0 n (i_generate_node (.NODE_IF v l r) depth) := by
  rw [i_generate_node]
  refine changes_append (hv.branch_getD depth false) ?_
  have h := changes_branch (n := ((i_generate_if_branch v depth false).getD
    (i_generate_node v depth, 1)).2) hl hr
  rwa [Nat.zero_add] at h

theorem changes_new_class (num : Nat) : Changes num 1 [.operator .F_NEW_CLASS num] :=
  @changes_operator .F_NEW_CLASS (fun h => by cases h) num

theorem changes_lvalue_efun {l r : node_list_t} {depth : Nat}
    (hl : Changes 0 l.length (generate_nodes l depth))
    (hr : Changes r.length 0 (generate_lvalue_list r depth)) :
    Changes 0 1 (i_generate_node (.NODE_LVALUE_EFUN l r) depth) := by
  have hvalues : Changes l.length (r.length + 1) [.rvalues l.length r.length] := by
    have h := moves_takes l.length (replicate (r.length + 1) .value)
    rw [length_replicate] at h
    exact changes_one (fun _ => h) rfl
  have hlist := changes_frame hr 1
  rw [Nat.add_comm] at hlist
  exact changes_append hl (changes_append hvalues hlist)

theorem changes_function_constructor {number : Int} {has_args : Bool} {r : node_list_t}
    {depth : Nat} (h : Changes 0 r.length (generate_nodes r depth)) :
    Changes 0 1 (i_generate_node (.NODE_FUNCTION_CONSTRUCTOR number has_args r l) depth) := by
  rw [i_generate_node]
  refine changes_append (b := 1) ?_ (changes_one (fun _ => moves_takes 1 [.value]) rfl)
  split
  · exact @changes_call .F_AGGREGATE _ _ _ h (Nat.le_of_eq (length_expands r))
  · exact changes_value

theorem is_next_foreach_of_value (h : Value r) : is_next_foreach r = false := by cases h <;> rfl

theorem loop_test_branch_of_value (h : Value r) : loop_test_branch r = .no_instruction := by
  cases h <;> rfl

def loop_test (r : parse_node_t) (stale : Int) (depth : Nat) : List instr_t × loop_branch_t :=
  if is_loop_test stale r then
    (if is_next_foreach r then [] else i_generate_node r depth, loop_test_branch r)
  else (generate_conditional_branch r depth true).getD (i_generate_node r depth, .values 1)

theorem finds_of_value {stale : Int} {depth : Nat} (hr : Value r) (h : Sound r) :
    ∃ n, Finds n (loop_test r stale depth).2 ∧
      Changes 0 n (loop_test r stale depth).1 := by
  unfold loop_test
  split
  · rw [is_next_foreach_of_value hr, loop_test_branch_of_value hr]
    exact ⟨1, trivial, h.code depth⟩
  · exact h.test_getD depth true

theorem keeps_break_foreach {c : context_t} {depth : Nat} (hswitch : c.SWITCH_CONTEXT = false)
    (hloop : c.LOOP_CONTEXT = true) (hforeach : c.LOOP_FOREACH = true) :
    Keeps c depth ([.operator .F_EXIT_FOREACH 0] ++ [.F_BRANCH .CJ_BREAK]) := by
  refine keeps_of_labels (by decide) fun inside => ?_
  rintro ⟨stack, num_varargs⟩ hs
  obtain rfl : num_varargs = 0 := hs.count
  obtain ⟨stack', hexit⟩ := hs.record hforeach
  have hrecord : Ensures (step Meets (.operator .F_EXIT_FOREACH 0) inside) ⟨stack, 0⟩
      (OnEnd (· = ⟨stack', 0⟩) (Leaves c inside depth ⟨stack, 0⟩)) := by
    intro o ho
    change F_EXIT_FOREACH _ _ at ho
    simp only [F_EXIT_FOREACH, hexit] at ho
    subst ho
    exact rfl
  refine ensures_andThen (M := (· = ⟨stack', 0⟩)) (ensures_either hrecord ?_) ?_
  · rintro o ⟨hcount, rfl⟩
    exact hcount
  · rintro t rfl
    refine ensures_andThen (M := fun _ => False) (ensures_either ?_ ?_) fun _ h => h.elim
    · rintro o rfl
      refine ⟨hswitch, hloop, rfl, ?_⟩
      rwa [if_pos hforeach]
    · rintro o ⟨hcount, rfl⟩
      exact hcount

theorem keeps_jump {c : context_t} {depth : Nat} {number : control_jump_t}
    (h : ∀ inside s, Ready c inside depth s → Leaves c inside depth s (.jump number s)) :
    Keeps c depth [.F_BRANCH number] := by
  refine keeps_one (fun inside s hs => ?_) rfl
  rintro o rfl
  exact h inside s hs

theorem keeps_create_break {c : context_t} (h : create_break c = some r) (depth : Nat) :
    Keeps c depth (i_generate_node r depth) := by
  unfold create_break at h
  split at h
  · cases h
  · split at h
    · rename_i hswitch
      cases h
      exact keeps_jump fun inside s hs => ⟨hswitch, rfl⟩
    · rename_i hswitch
      split at h
      · rename_i hloop
        split at h
        · rename_i hforeach
          cases h
          exact keeps_break_foreach (Bool.eq_false_iff.mpr hswitch) hloop hforeach
        · rename_i hforeach
          cases h
          refine keeps_jump fun inside s hs => ?_
          refine ⟨Bool.eq_false_iff.mpr hswitch, hloop, hs.count, ?_⟩
          rw [if_neg hforeach]
      · cases h

theorem keeps_create_continue {c : context_t} (h : create_continue c = some r) (depth : Nat) :
    Keeps c depth (i_generate_node r depth) := by
  unfold create_continue at h
  split at h
  · cases h
  · split at h
    · rename_i hloop
      cases h
      exact keeps_jump fun inside s hs => ⟨hloop, rfl⟩
    · cases h

theorem leaves_return {c : context_t} {inside : Bool} {depth : Nat}
    (h : r = .null ∨ Changes 0 1 (i_generate_node r depth)) (hs : Ready c inside depth s) :
    Ensures (runs Meets (i_generate_node (.NODE_RETURN r) depth) inside) s
      (OnEnd (fun _ => False) (Leaves c inside depth s)) := by
  rw [i_generate_node]
  refine ensures_return_begins hs fun base hbase => ?_
  obtain ⟨stack, num_varargs⟩ := s
  obtain rfl : num_varargs = 0 := hs.count
  split
  · exact ensures_return_zero hbase
  · rename_i hnull
    rcases h with rfl | h
    · exact absurd rfl hnull
    · exact ensures_return hbase h

theorem labels_return {depth : Nat} (h : ∀ i ∈ i_generate_node r depth, is_case_label i = false) :
    ∀ i ∈ i_generate_node (.NODE_RETURN r) depth, is_case_label i = false := by
  intro i hi
  rw [i_generate_node] at hi
  rcases mem_cons.mp hi with rfl | hi
  · rfl
  · rcases mem_append.mp hi with hi | hi
    · rw [(mem_replicate.mp hi).2]
      rfl
    · split at hi
      · rw [mem_singleton.mp hi]
        rfl
      · rcases mem_append.mp hi with hi | hi
        · exact h i hi
        · rw [mem_singleton.mp hi]
          rfl

theorem keeps_return {c : context_t} {depth : Nat}
    (h : r = .null ∨ Changes 0 1 (i_generate_node r depth)) :
    Keeps c depth (i_generate_node (.NODE_RETURN r) depth) := by
  refine keeps_of_labels (labels_return ?_) fun inside s hs => ?_
  · rcases h with rfl | h
    · exact fun i hi => absurd hi not_mem_nil
    · exact h.labels
  · exact (leaves_return h hs).mono fun o ho => ho.mono (fun _ h => h.elim) fun _ h => h

mutual

theorem sound_of_value : ∀ {r : parse_node_t}, Value r → Sound r
  | _, @Value.number number => sound_number number
  | _, .real => .plain (fun _ => changes_value) (fun _ _ => rfl) fun _ _ => rfl
  | _, .string_ => .plain (fun _ => changes_value) (fun _ _ => rfl) fun _ _ => rfl
  | _, .parameter => .plain (fun _ => changes_value) (fun _ _ => rfl) fun _ _ => rfl
  | _, .parameter_lvalue => .plain (fun _ => changes_lvalue) (fun _ _ => rfl) fun _ _ => rfl
  | _, @Value.leaf op l => by
    refine .plain (fun depth => ?_) (fun _ _ => rfl) fun _ _ => rfl
    exact changes_leaf_op (fun h => by cases h) rfl (by cases op <;> rfl)
  | _, .unary h => sound_unary (sound_of_value h)
  | _, @Value.member op _ _ h => by
    have hr := sound_of_value h
    refine .plain (fun depth => ?_) (fun _ _ => rfl) fun _ _ => rfl
    exact changes_unary_op (fun h => by cases h) rfl (by cases op <;> rfl) (hr.code depth)
  | _, .binary hl hr => sound_binary (sound_of_value hl) (sound_of_value hr)
  | _, @Value.ternary op _ _ _ hl hr_l hr_r => by
    have hl := sound_of_value hl
    have hr_l := sound_of_value hr_l
    have hr_r := sound_of_value hr_r
    refine .plain (fun depth => ?_) (fun _ _ => rfl) fun _ _ => rfl
    exact changes_ternary_op (fun h => by cases h) rfl (one_result_ternary op) (hl.code depth)
      (hr_l.code depth) (hr_r.code depth)
  | _, .land_lor hl hr => by
    have hl' := sound_of_value hl
    have hr' := sound_of_value hr
    refine .plain (fun depth => ?_) (fun _ _ => rfl) fun _ _ => rfl
    rw [i_generate_node, branch_links_eq_none hl]
    exact changes_append (hl'.code depth) (changes_land_lor (hr'.code depth))
  | _, .linked hl hr => by
    have hr' := sound_of_value hr
    refine .plain (fun depth => ?_) (fun _ _ => rfl) fun _ _ => rfl
    rw [i_generate_node]
    exact changes_of_link hl depth _ _ _ (hr'.code depth)
  | _, .cond hv hl hr => by
    have hv := sound_of_value hv
    have hl := sound_of_value hl
    have hr := sound_of_value hr
    refine .plain (fun depth => ?_) (fun _ _ => rfl) fun _ _ => rfl
    exact changes_if hv (hl.code depth) (hr.code depth)
  | _, .comma hl hr => by
    have hr := sound_of_value hr
    refine .plain (fun depth => ?_) (fun _ _ => rfl) fun _ _ => rfl
    exact changes_append (changes_of_void hl depth) (hr.code depth)
  | _, .call hop h =>
    .plain (fun depth => changes_args hop (changes_of_values h depth)) (fun _ _ => rfl)
      fun _ _ => rfl
  | _, .mapping h => by
    refine .plain (fun depth => ?_) (fun _ _ => rfl) fun _ _ => rfl
    exact changes_call (changes_of_pairs h depth) (expands_pairs h)
  | _, @Value.efun efun r hfixed h => by
    refine .plain (fun depth => ?_) (fun _ _ => rfl) fun _ _ => rfl
    have hefun := @changes_efun efun efun.novalue _ _ _ (changes_of_values h depth)
      (Nat.le_of_eq (length_expands r)) hfixed
    have hone : ((if efun.novalue then 0 else 1) + if efun.novalue then 1 else 0) = 1 := by
      split <;> rfl
    rwa [hone] at hefun
  | _, @Value.new_class l num h => by
    refine .plain (fun depth => ?_) (fun _ _ => rfl) fun _ _ => rfl
    exact changes_append (changes_of_members h depth) (changes_new_class num)
  | _, .lvalue_efun hl hr => by
    refine .plain (fun depth => ?_) (fun _ _ => rfl) fun _ _ => rfl
    exact changes_lvalue_efun (changes_of_values hl depth) (changes_of_lvalues hr depth)
  | _, .catch_ h => by
    refine .plain (fun depth => ?_) (fun _ _ => rfl) fun _ _ => rfl
    exact changes_catch (keeps_of_statement h depth)
  | _, .time_expression h => by
    refine .plain (fun depth => ?_) (fun _ _ => rfl) fun _ _ => rfl
    exact changes_time_expression (keeps_of_statement h depth)
  | _, .function_constructor h => by
    refine .plain (fun depth => ?_) (fun _ _ => rfl) fun _ _ => rfl
    exact changes_function_constructor (changes_of_values h depth)
  | _, .anon_func => by
    refine .plain (fun depth => ?_) (fun _ _ => rfl) fun _ _ => rfl
    exact changes_one (fun _ => moves_takes 0 [.value]) rfl

theorem changes_of_link : ∀ {l : parse_node_t}, Link l → ∀ depth is_lor rest,
    ∀ other, Changes 0 1 rest → Changes 0 1 ((branch_links l depth is_lor rest).getD other)
  | _, .first hl hr, depth, is_lor, rest, _, hrest => by
    have hl' := sound_of_value hl
    have hr' := sound_of_value hr
    rw [branch_links, branch_links_eq_none hl]
    exact changes_append (hl'.code depth) (changes_land_lor
      (changes_append (hr'.code depth) (changes_land_lor hrest)))
  | _, .next hl hr, depth, is_lor, rest, _, hrest => by
    have hr' := sound_of_value hr
    rw [branch_links]
    exact changes_of_link hl depth _ _ _ (changes_append (hr'.code depth) (changes_land_lor hrest))

theorem changes_of_void : ∀ {r : parse_node_t}, Void r → ∀ depth,
    Changes 0 0 (i_generate_node r depth)
  | _, .null, _ => changes_nil 0
  | _, .popped h, depth =>
    changes_unary_op (fun h => by cases h) rfl rfl ((sound_of_value h).code depth)
  | _, .inc h, depth =>
    changes_unary_op (fun h => by cases h) rfl rfl ((sound_of_value h).code depth)
  | _, .dec h, depth =>
    changes_unary_op (fun h => by cases h) rfl rfl ((sound_of_value h).code depth)
  | _, .assign hl hr, depth =>
    changes_binary_op (fun h => by cases h) rfl rfl ((sound_of_value hl).code depth)
      ((sound_of_value hr).code depth)
  | _, .add_eq hl hr, depth =>
    changes_binary_op (fun h => by cases h) rfl rfl ((sound_of_value hl).code depth)
      ((sound_of_value hr).code depth)
  | _, .assign_local h, depth =>
    changes_unary_op (fun h => by cases h) rfl rfl ((sound_of_value h).code depth)
  | _, .loop_incr, _ => changes_leaf_op (fun h => by cases h) rfl rfl
  | _, @Void.efun efun r hnovalue hfixed h, depth => by
    have hefun := @changes_efun efun false _ _ _ (changes_of_values h depth)
      (Nat.le_of_eq (length_expands r)) hfixed
    rwa [hnovalue] at hefun
  | _, .both hl hr, depth => changes_append (changes_of_void hl depth) (changes_of_void hr depth)
  | _, .cond hv hl hr, depth =>
    changes_if (sound_of_value hv) (changes_of_void hl depth) (changes_of_void hr depth)
  | _, @Void.new_class l num h, depth => by
    have hclass := @changes_unary_op .F_POP_VALUE 0 0 _ (fun h => by cases h) rfl rfl
      (changes_append (changes_of_members h depth) (changes_new_class num))
    rwa [append_assoc] at hclass

theorem changes_of_values : ∀ {r : node_list_t}, Values r → ∀ depth,
    Changes 0 r.length (generate_nodes r depth)
  | _, .nil, _ => changes_nil 0
  | _, @Values.cons expr expand rest h hrest, depth => by
    have hr := changes_frame (changes_of_values hrest depth) 1
    rw [node_list_t.length, Nat.add_comm]
    exact changes_append ((sound_of_value h).code depth) hr

theorem changes_of_lvalues : ∀ {r : node_list_t}, Values r → ∀ depth,
    Changes r.length 0 (generate_lvalue_list r depth)
  | _, .nil, _ => changes_nil 0
  | _, @Values.cons expr expand rest h hrest, depth => by
    have hexpr := changes_frame ((sound_of_value h).code depth) (rest.length + 1)
    have hassign := changes_frame (@changes_operator .F_VOID_ASSIGN (fun h => by cases h) 0)
      rest.length
    exact changes_append hexpr (changes_append hassign (changes_of_lvalues hrest depth))

theorem changes_of_pairs : ∀ {r : node_list_t}, Pairs r → ∀ depth,
    Changes 0 (2 * r.length) (generate_nodes r depth)
  | _, .nil, _ => changes_nil 0
  | _, @Pairs.cons key value rest hkey hvalue hrest, depth => by
    have hr := changes_frame (changes_of_pairs hrest depth) 2
    rw [node_list_t.length, Nat.mul_add, Nat.add_comm]
    exact changes_append (changes_two ((sound_of_value hkey).code depth)
      ((sound_of_value hvalue).code depth)) hr

theorem changes_of_members : ∀ {l : parse_node_t} {num : Nat}, Members l num → ∀ depth,
    Changes 0 num (i_generate_node l depth)
  | _, _, .nil, _ => changes_nil 0
  | _, _, .cons h hrest, depth => by
    rw [Nat.add_comm]
    exact changes_append ((sound_of_value h).code depth)
      (changes_frame (changes_of_members hrest depth) 1)

theorem finds_of_test : ∀ {r : parse_node_t}, Test r → ∀ stale depth,
    ∃ n, Finds n (loop_test r stale depth).2 ∧ Changes 0 n (loop_test r stale depth).1
  | _, .value h, _, _ => finds_of_value h (sound_of_value h)
  | _, .loop_cond_local, _, _ => ⟨0, rfl, changes_leaf_op (fun h => by cases h) rfl rfl⟩
  | _, .loop_cond_number, _, _ => ⟨0, rfl, changes_leaf_op (fun h => by cases h) rfl rfl⟩
  | _, .while_dec, _, _ => ⟨0, rfl, changes_leaf_op (fun h => by cases h) rfl rfl⟩

theorem keeps_of_statement : ∀ {c : context_t} {r : parse_node_t}, Statement c r → ∀ depth,
    Keeps c depth (i_generate_node r depth)
  | _, _, .void h, depth => keeps_of_changes (changes_of_void h depth)
  | _, _, .both hl hr, depth =>
    keeps_append (keeps_of_statement hl depth) (keeps_of_statement hr depth)
  | _, _, .cond hv hl hr, depth =>
    keeps_if (sound_of_value hv) (keeps_of_statement hl depth) (keeps_of_statement hr depth)
  | _, _, @Statement.loop c type v l r stale htype hv hl hr, depth => by
    have hblock := keeps_of_statement hv depth
    have hinc := changes_of_void hl depth
    obtain ⟨n, hn, htest⟩ := finds_of_test hr stale depth
    rw [i_generate_node, if_neg htype]
    exact keeps_loop hblock hinc htest hn
  | _, _, .foreach hv hbody, depth =>
    keeps_foreach ((sound_of_value hv).code depth) (keeps_of_statement hbody (depth + 1))
  | _, _, .switch hl hr, depth =>
    keeps_switch ((sound_of_value hl).code depth) (keeps_of_statement hr depth)
  | _, _, .case, _ => keeps_case_label
  | _, _, .break_ h, depth => keeps_create_break h depth
  | _, _, .continue_ h, depth => keeps_create_continue h depth
  | _, _, .return_void, _ => keeps_return (Or.inl rfl)
  | _, _, .return_ h, depth => keeps_return (Or.inr ((sound_of_value h).code depth))

end

/-! ## Functions -/

/-- How the code of a function is left: at a return, with the values that it found under the
one that it returns, or with an error. -/
def Returned (s : evaluator_t) (e : exit_t) : Prop := IsError e ∨ e = .return_ false s.stack

/-- An anonymous function whose body has no statements: no return is put into its code. -/
def EmptyAnonymous : function_t → Prop
  | .anonymous _ body => statement no_context body = some .null
  | _ => False

theorem create_break_shape {c : context_t} (h : create_break c = some r) :
    (∃ number, r = .NODE_CONTROL_JUMP number) ∨
      r = .NODE_TWO_VALUES (.NODE_OPCODE .F_EXIT_FOREACH) (.NODE_CONTROL_JUMP .CJ_BREAK) := by
  unfold create_break at h
  repeat' split at h
  all_goals cases h
  · exact Or.inl ⟨_, rfl⟩
  · exact Or.inr rfl
  · exact Or.inl ⟨_, rfl⟩

theorem create_continue_shape {c : context_t} (h : create_continue c = some r) :
    r = .NODE_CONTROL_JUMP .CJ_CONTINUE := by
  unfold create_continue at h
  repeat' split at h
  all_goals cases h
  rfl

theorem value_of_statement_return {c : context_t} (h : Statement c (.NODE_RETURN r)) :
    r = .null ∨ Value r := by
  cases h with
  | void h => cases h
  | break_ h => rcases create_break_shape h with ⟨_, h⟩ | h <;> cases h
  | continue_ h => cases create_continue_shape h
  | return_void => exact Or.inl rfl
  | return_ h => exact Or.inr h

theorem statement_of_two_values {c : context_t}
    (h : Statement c (.NODE_TWO_VALUES l (.NODE_RETURN r))) :
    Statement c l ∧ Statement c (.NODE_RETURN r) := by
  cases h with
  | void h =>
    cases h with
    | both hl hr => cases hr
  | both hl hr => exact ⟨hl, hr⟩
  | break_ h => rcases create_break_shape h with ⟨_, h⟩ | h <;> cases h
  | continue_ h => cases create_continue_shape h

section

variable {c : context_t} {inside : Bool} {depth : Nat}

theorem leaves_then_return (hl : Statement c l) (hr : Statement c (.NODE_RETURN r))
    (hs : Ready c inside depth s) :
    Ensures (runs Meets (i_generate_node (.NODE_TWO_VALUES l (.NODE_RETURN r)) depth) inside) s
      (OnEnd (fun _ => False) (Leaves c inside depth s)) := by
  have hreturn : r = .null ∨ Changes 0 1 (i_generate_node r depth) := by
    rcases value_of_statement_return hr with h | h
    · exact Or.inl h
    · exact Or.inr ((sound_of_value h).code depth)
  rw [i_generate_node, runs_append]
  refine ensures_andThen ((keeps_of_statement hl depth).holds inside s hs) ?_
  rintro t rfl
  exact leaves_return hreturn hs

theorem leaves_end_with_return (h : Statement c r) (hs : Ready c inside depth s) :
    Ensures (runs Meets (i_generate_node (end_with_return r) depth) inside) s
      (OnEnd (fun _ => False) (Leaves c inside depth s)) := by
  unfold end_with_return
  split
  · rename_i r
    refine leaves_return ?_ hs
    rcases value_of_statement_return h with h | h
    · exact Or.inl h
    · exact Or.inr ((sound_of_value h).code depth)
  · rename_i l r
    split
    · rename_i hreturn
      cases r <;> try cases hreturn
      obtain ⟨hl, hr⟩ := statement_of_two_values h
      exact leaves_then_return hl hr hs
    · exact leaves_then_return h .return_void hs
  · exact leaves_then_return h .return_void hs

end

theorem returned_of_leaves {e : exit_t} (h : Leaves no_context false 0 s e) : Returned s e := by
  rcases e with ⟨number, t⟩ | ⟨inside, stack⟩ | num_varargs | _
  · cases number with
    | CJ_BREAK => cases h.2.1
    | CJ_CONTINUE => cases h.1
    | CJ_BREAK_SWITCH => cases h.1
  · obtain ⟨_, rfl, hstack⟩ := h
    cases hstack
    exact Or.inr rfl
  · exact Or.inl (congrArg exit_t.error h)
  · exact h.elim

theorem ready_of_function (hs : s.num_varargs = 0) : Ready no_context false 0 s :=
  ⟨hs, fun _ => ⟨s.stack, rfl⟩, fun h => by cases h⟩

theorem function_returns {f : function_t} {code : List instr_t}
    (h : function_code f depth = some code) (hf : ¬ EmptyAnonymous f) (hs : s.num_varargs = 0) :
    Ensures (runs Meets code false) s (OnEnd (fun _ => False) (Returned s)) := by
  cases f with
  | named body =>
    obtain ⟨node, hnode, rfl⟩ := map_eq_some_iff.mp h
    obtain ⟨r, hr, hnode⟩ := bind_eq_some_iff.mp hnode
    have hr := statement_statement body hr
    have hleaves : Ensures (runs Meets (i_generate_node node 0) false) s
        (OnEnd (fun _ => False) (Leaves no_context false 0 s)) := by
      split at hnode
      · cases hnode
        exact leaves_return (Or.inl rfl) (ready_of_function hs)
      · cases hnode
        exact leaves_end_with_return hr (ready_of_function hs)
    exact hleaves.mono fun o ho => ho.mono (fun _ h => h) fun _ => returned_of_leaves
  | anonymous number body =>
    obtain ⟨r, hr, rfl⟩ := map_eq_some_iff.mp h
    have hnull : is_null r = false := by
      refine Bool.eq_false_iff.mpr fun hnull => hf ?_
      rw [EmptyAnonymous, hr, eq_null_of_is_null hnull]
    have hstatement := statement_statement body hr
    simp only [create_anon_func, hnull, Bool.false_eq_true, if_false]
    exact (leaves_end_with_return hstatement (ready_of_function hs)).mono fun o ho =>
      ho.mono (fun _ h => h) fun _ => returned_of_leaves
  | functional body =>
    obtain ⟨r, hr, rfl⟩ := map_eq_some_iff.mp h
    obtain ⟨stack, num_varargs⟩ := s
    obtain rfl : num_varargs = 0 := hs
    exact ensures_value_return ((sound_of_value (value_expr0 body hr)).code depth)

/-! ## The balance -/

end mudos.operand_stacks

-- The operators on numbers, wherever the driver computes them: `eval_instruction` and the
-- operators of `eoperators.c` it calls, the assigning ones, the constants that the compiler
-- folds, the conditions of `#if`, and the places that an index or a range counts from the end.
import MudOS.Library.Words

open mudos.words

namespace mudos.arithmetic

/-- A number of the language, which is an `int` of C. -/
abbrev int_t := BitVec 32

/-- An error of the program or of the compiler, or what the machine does. -/
inductive result_t
  | error (message : String)
  | computed (outcome : Outcome 32)
deriving DecidableEq

abbrev operator_t := int_t → int_t → result_t

def direct (op : Operation) : operator_t := fun a b => .computed (compute op a b)

def guarded (message : String) (op : Operation) : operator_t := fun a b =>
  if b = 0 then .error message else .computed (compute op a b)

/-! ## The places -/

/-- `F_ADD`, `F_DIVIDE` and so on, on two numbers, or on one. -/
def eval_instruction : Operation → Option operator_t
  | .div => some (guarded "Division by zero\n" .div)
  | .mod => some (guarded "Modulus by zero.\n" .mod)
  | .land | .lor => none
  | op => some (direct op)

/-- `F_ADD_EQ`, `f_div_eq` and so on, on a variable that holds a number and a number; the
variable and the stack get the same. -/
def assigning : Operation → Option operator_t
  | .div => some (guarded "Division by 0nn\n" .div)
  | .mod => some (guarded "Modulo by 0\n" .mod)
  | .add => some (direct .add)
  | .sub => some (direct .sub)
  | .mul => some (direct .mul)
  | .and => some (direct .and)
  | .or => some (direct .or)
  | .xor => some (direct .xor)
  | .shl => some (direct .shl)
  | .shr => some (direct .shr)
  | _ => none

/-- The rules of `expr0` on two `NODE_NUMBER`s; `0 + X` is `X`, and `0 - X` is negated later. -/
def expr0 : Operation → Option operator_t
  | .add => some fun a b => if a = 0 then .computed (.value b) else direct .add a b
  | .sub => some fun a b => if a = 0 then direct .neg b b else direct .sub a b
  | .mul => some (direct .mul)
  | .div => some (guarded "Divide by zero in constant" .div)
  | .lnot => some (direct .lnot)
  | .not => some (direct .not)
  | .neg => some (direct .neg)
  | _ => none

def binary_int_op : Operation → Option operator_t
  | .or => some (direct .or)
  | .xor => some (direct .xor)
  | .and => some (direct .and)
  | .shl => some (direct .shl)
  | .shr => some (direct .shr)
  | .mod => some (guarded "Modulo by zero constant" .mod)
  | _ => none

/-- The rules of `constant`, for the labels of a `switch`. -/
def constant : Operation → Option operator_t
  | .or => some (direct .or)
  | .xor => some (direct .xor)
  | .and => some (direct .and)
  | .eq => some (direct .eq)
  | .ne => some (direct .ne)
  | .ge => some (direct .ge)
  | .le => some (direct .le)
  | .gt => some (direct .gt)
  | .lt => some (direct .lt)
  | .shl => some (direct .shl)
  | .shr => some (direct .shr)
  | .add => some (direct .add)
  | .sub => some (direct .sub)
  | .mul => some (direct .mul)
  | .mod => some (guarded "Modulo by zero" .mod)
  | .div => some (guarded "Division by zero" .div)
  | .neg => some (direct .neg)
  | .lnot => some (direct .lnot)
  | .not => some (direct .not)
  | _ => none

/-- The two `switch`es over the operators of `#if`. -/
def cond_get_exp : Operation → Option operator_t
  | .div => some (guarded "division by 0 in %cif" .div)
  | .mod => some (guarded "modulo by 0 in %cif" .mod)
  | .inc | .dec => none
  | op => some (direct op)

/-- `F_RINDEX` and the ranges that count from the end: the length less the number. -/
def from_the_end : Operation → Option operator_t
  | .sub => some (direct .sub)
  | _ => none

inductive place_t
  | eval_instruction | assigning | expr0 | binary_int_op | constant | cond_get_exp | from_the_end
deriving DecidableEq

def place_t.operator : place_t → Operation → Option operator_t
  | .eval_instruction => mudos.arithmetic.eval_instruction
  | .assigning => mudos.arithmetic.assigning
  | .expr0 => mudos.arithmetic.expr0
  | .binary_int_op => mudos.arithmetic.binary_int_op
  | .constant => mudos.arithmetic.constant
  | .cond_get_exp => mudos.arithmetic.cond_get_exp
  | .from_the_end => mudos.arithmetic.from_the_end

/-! ## What is right -/

/-- An error, or the exact result wrapped to 32 bits. -/
def Total (op : Operation) (a b : int_t) (r : result_t) : Prop :=
  (∃ message, r = .error message) ∨ r = .computed (.value (wrapped op a b))

/-- The quotient that does not fit, or a shift by no number of bits of a word. -/
def Overflows (op : Operation) (a b : int_t) : Prop :=
  (op = .div ∨ op = .mod) ∧ a = BitVec.intMin 32 ∧ b = -1 ∨
    (op = .shl ∨ op = .shr) ∧ 32 ≤ b.toNat

end mudos.arithmetic

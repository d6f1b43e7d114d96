-- The numbers of the global variables: the compiler lays the variables of the inherited programs
-- before those of a program (`compiler.c`), `variable_name` of `program.c` tells the name of a
-- number, and `find_global_variable` of `object.c` the number of a name.
import Mathlib.Data.List.Basic

namespace mudos.variable_numbers

/-- An `unsigned short`. -/
def ushort (n : Nat) : Nat := n % 65536

/-- The names are shared strings, so that two that have the same text are the same. -/
structure variable_t where
  name : List UInt8
  type : UInt16
deriving DecidableEq

structure inherit_t (program : Type) where
  prog : program
  variable_index_offset : Nat
  type_mod : UInt16

/-- `variable_table` has the variables that the program defines, with their types. -/
inductive program_t
  | mk (inherit : List (inherit_t program_t)) (variable_table : List variable_t)
    (num_variables_total : Nat)

def program_t.inherit : program_t → List (inherit_t program_t)
  | .mk inherit _ _ => inherit

def program_t.variable_table : program_t → List variable_t
  | .mk _ variable_table _ => variable_table

def program_t.num_variables_total : program_t → Nat
  | .mk _ _ num_variables_total => num_variables_total

/-- The variables that a loop up to `num_variables_defined` comes to. -/
def defined (variable_table : List variable_t) : List variable_t :=
  variable_table.take (ushort variable_table.length)

/-! ## Compiling -/

mutual

/-- The names that a program puts in `A_VAR_TEMP` when it is inherited. -/
def copy_variables : program_t → List (List UInt8)
  | .mk inherit variable_table _ =>
    copy_inherited inherit ++ (defined variable_table).map variable_t.name

def copy_inherited : List (inherit_t program_t) → List (List UInt8)
  | [] => []
  | ⟨prog, _, _⟩ :: rest => copy_variables prog ++ copy_inherited rest

end

/-- The inherit statements, with what is in `A_VAR_TEMP` before each. -/
def inherit_all (temp : List (List UInt8)) :
    List (program_t × UInt16) → List (inherit_t program_t) × List (List UInt8)
  | [] => ([], temp)
  | (prog, type_mod) :: rest =>
    let after := inherit_all (temp ++ copy_variables prog) rest
    (⟨prog, ushort temp.length, type_mod⟩ :: after.1, after.2)

/-- A program with these inherit statements and, behind them, these variables. -/
def compile (inherits : List (program_t × UInt16)) (variable_table : List variable_t) :
    program_t :=
  let inherited := inherit_all [] inherits
  let temp := inherited.2 ++ variable_table.map variable_t.name
  .mk inherited.1 variable_table (ushort temp.length)

/-! ## Names and numbers -/

mutual

/-- The name, or nothing when a table is read outside. -/
def variable_name : program_t → Nat → Option (List UInt8)
  | .mk inherit variable_table _, idx =>
    match inherit.getLast? with
    | none => variable_table[idx]?.map variable_t.name
    | some last =>
      let first := last.variable_index_offset + last.prog.num_variables_total
      if first ≤ idx then variable_table[idx - first]?.map variable_t.name
      else variable_below inherit idx

/-- The last of the inherited programs that does not start behind the number. -/
def variable_below : List (inherit_t program_t) → Nat → Option (List UInt8)
  | [], _ => none
  | ⟨prog, variable_index_offset, _⟩ :: rest, idx =>
    if rest.any fun inh => inh.variable_index_offset ≤ idx then variable_below rest idx
    else if variable_index_offset ≤ idx then variable_name prog (idx - variable_index_offset)
    else none

end

mutual

/-- The type, when the name is found, and `*idx`. -/
def fgv_recurse : program_t → Nat → List UInt8 → Option UInt16 × Nat
  | .mk inherit variable_table _, idx, name =>
    match fgv_inherited inherit idx name with
    | (some type, idx) => (some type, idx)
    | (none, idx) =>
      match (defined variable_table).findIdx? fun v => v.name = name with
      | some i => (variable_table[i]?.map variable_t.type, idx + i)
      | none => (none, idx + (defined variable_table).length)

def fgv_inherited : List (inherit_t program_t) → Nat → List UInt8 → Option UInt16 × Nat
  | [], idx, _ => (none, idx)
  | ⟨prog, _, type_mod⟩ :: rest, idx, name =>
    match fgv_recurse prog idx name with
    | (some type, idx) => (some (type ||| type_mod), idx)
    | (none, idx) => fgv_inherited rest idx name

end

def NAME_PRIVATE : UInt16 := 0x0800
def NAME_PUBLIC : UInt16 := 0x2000

/-- The number and the type of the variable of a name. -/
def find_global_variable (prog : program_t) (name : List UInt8) : Option (Nat × UInt16) :=
  match fgv_recurse prog 0 name with
  | (some type, idx) =>
    some (idx, if type &&& NAME_PUBLIC ≠ 0 then type &&& ~~~NAME_PRIVATE else type)
  | (none, _) => none

/-! ## What the numbers are for -/

mutual

/-- The variables of an object, those of the inherited programs first. -/
def layout : program_t → List (List UInt8)
  | .mk inherit variable_table _ =>
    inherited_layout inherit ++ variable_table.map variable_t.name

def inherited_layout : List (inherit_t program_t) → List (List UInt8)
  | [] => []
  | ⟨prog, _, _⟩ :: rest => layout prog ++ inherited_layout rest

end

/-- The block of the variables that a program defines, in an object of a program that inherits it
or is it. -/
inductive Block : program_t → (start : Nat) → program_t → Prop
  | own {prog : program_t} : Block prog (inherited_layout prog.inherit).length prog
  | inherited {prog owner : program_t} {before after : List (inherit_t program_t)}
      {inh : inherit_t program_t} {start : Nat} : prog.inherit = before ++ inh :: after →
      Block inh.prog start owner →
      Block prog ((inherited_layout before).length + start) owner

inductive Compiled : program_t → Prop
  | compile {inherits : List (program_t × UInt16)} (variable_table : List variable_t) :
      (∀ inh ∈ inherits, Compiled inh.1) → Compiled (compile inherits variable_table)

/-- A number has the name that the program of its block has given it, and the name has a number
that has this name. -/
def Numbered (prog : program_t) : Prop :=
  ∀ i < prog.num_variables_total, ∃ start owner v, Block prog start owner ∧ start ≤ i ∧
    owner.variable_table[i - start]? = some v ∧ variable_name prog i = some v.name ∧
    ∃ j type, find_global_variable prog v.name = some (j, type) ∧
      variable_name prog j = some v.name

end mudos.variable_numbers

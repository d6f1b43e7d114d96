-- Calls of inherited functions: how the compiler resolves `::f` and `name::f`
-- with `arrange_call_inherited` of `compiler.c`, over programs that it made itself,
-- and what `F_CALL_INHERITED` of `interpret.c` runs for them.
import MudOS.Programs
import Mathlib.Data.List.Sort

open mudos.runs
open mudos.compiler (name_flags name_mods runtime_function_u inherited_t inherit_t declaration_t
  compile_t function_t lookup_ident epilog_table)
open mudos.program (found_t)

namespace mudos.inherited_calls

/-! ## Programs -/

structure compiler_function_t extends program.compiler_function_t where
  type : Nat
deriving DecidableEq

/-- A program with what the compiler reads of it: its file name, and for each program that
it inherits the offsets of the functions and of the variables, and the modifiers of the
`inherit` statement. -/
inductive program_t
  | mk (addr id_number : Nat) (name : List Char) (function_table : List compiler_function_t)
      (function_flags : List name_flags) (function_offsets : List runtime_function_u)
      (inherit : List (program_t × Nat × Nat × name_mods))

namespace program_t

def addr : program_t → Nat
  | mk addr _ _ _ _ _ _ => addr

def name : program_t → List Char
  | mk _ _ name _ _ _ _ => name

def function_table : program_t → List compiler_function_t
  | mk _ _ _ function_table _ _ _ => function_table

def function_flags : program_t → List name_flags
  | mk _ _ _ _ function_flags _ _ => function_flags

def inherit : program_t → List (program_t × Nat × Nat × name_mods)
  | mk _ _ _ _ _ _ inherit => inherit

end program_t

mutual

def program_t.run_time : program_t → program.program_t
  | .mk _ id_number _ function_table function_flags function_offsets inherit =>
    .mk id_number (function_table.map fun f => f.tocompiler_function_t) function_flags
      function_offsets (run_time_inherit inherit)

def run_time_inherit :
    List (program_t × Nat × Nat × name_mods) → List (Nat × program.program_t × Nat × Nat)
  | [] => []
  | (prog, function_index_offset, variable_index_offset, _) :: inherit =>
    (prog.addr, prog.run_time, function_index_offset, variable_index_offset) ::
      run_time_inherit inherit

end

/-! ## The reference -/

inductive node_type
  | NODE_CALL_2
  | other (kind : Nat)
deriving DecidableEq

inductive opcode
  | F_CALL_INHERITED
  | other (op : Nat)
deriving DecidableEq

/-- The node of a call: `v.number` is the instruction, and `r.expr` has the arguments. -/
structure parse_node_t where
  kind : node_type
  v : opcode
  l : Nat
  r : Nat
  type : Nat
deriving DecidableEq

mutual

/-- 0 when the program has no such function, -1 when it is private, and 1 when the node has
been set. -/
def find_matching_function : program_t → Nat → parse_node_t → Int × parse_node_t
  | .mk addr id_number pname function_table function_flags function_offsets inherit, name, node =>
    let prog := (program_t.mk addr id_number pname function_table function_flags function_offsets
      inherit).run_time
    match program.find_name prog name with
    | some mid =>
      match function_table[mid]?, program.flags_of prog mid with
      | some funp, some flags =>
        if flags.UNDEFINED || flags.PROTOTYPE || flags.INHERITED then
          if flags.INHERITED then search_inherited_tables inherit name node else (0, node)
        else if flags.mods.PRIVATE then (-1, node)
        else
          (1, { node with
            kind := .NODE_CALL_2
            v := .F_CALL_INHERITED
            l := funp.runtime_index
            type := funp.type })
      | _, _ => (0, node)
    | none => search_inherited_tables inherit name node

/-- `while (i--)`: the last inherit first. What is not 0 counts as found. -/
def search_inherited_tables :
    List (program_t × Nat × Nat × name_mods) → Nat → parse_node_t → Int × parse_node_t
  | [], _, node => (0, node)
  | (prog, function_index_offset, _, type_mod) :: inherit, name, node =>
    let later := search_inherited_tables inherit name node
    if later.1 ≠ 0 then later
    else
      let found := find_matching_function prog name node
      if found.1 ≠ 0 then
        if type_mod.PRIVATE then (-1, found.2)
        else (1, { found.2 with l := found.2.l + function_index_offset })
      else (0, node)

end

/-- The part of the name before `::`, when there is one, and the part after it. -/
def split_name (name : List Char) : Option (List Char) × List Char :=
  if name.head? = some ':' then (none, name.drop 2)
  else
    let super_length := name.idxOf ':'
    (some (name.take super_length), name.drop (super_length + 2))

/-- Whether the file name, without its `.c`, is the given one or ends in it after a slash. -/
def super_matches (super_name name : List Char) : Bool :=
  if name.length < super_name.length + 2 then false
  else
    let start := name.length - 2 - super_name.length
    (name.drop start).take super_name.length == super_name &&
      (start == 0 || name[start - 1]? == some '/')

def TYPE_ANY : Nat := 1

/-- The most that `strput` leaves in the buffer of 256. -/
def message (text : List Char) : List Char := text.take 255

/-- What `arrange_call_inherited` returns (`none` is -1), the node, and the errors. -/
structure arranged_t where
  ret : Option Nat
  node : parse_node_t
  errors : List (List Char)
deriving DecidableEq

def invalid (node : parse_node_t) (error : List Char) : arranged_t where
  ret := none
  node := { node with kind := .NODE_CALL_2, v := .F_CALL_INHERITED, l := 0, type := TYPE_ANY }
  errors := [error]

/-- The loop over the inherit statements, from the one with the index `i` on. -/
def arrange_loop (super_name : Option (List Char)) (shared_string : Nat) (name : List Char) :
    List (program_t × Nat × Nat × name_mods) → Nat → parse_node_t → arranged_t
  | [], _, node => invalid node (message ("No such inherited function ".toList ++ name))
  | (prog, function_index_offset, _, type_mod) :: inherit, i, node =>
    if super_name.any fun s => !super_matches s prog.name then
      arrange_loop super_name shared_string name inherit (i + 1) node
    else
      let tmp := find_matching_function prog shared_string node
      if tmp.1 ≠ 0 then
        if tmp.1 = -1 ∨ type_mod.PRIVATE then
          invalid tmp.2 "Called function is private.".toList
        else
          { ret := some (tmp.2.l + function_index_offset)
            node := { tmp.2 with l := tmp.2.l + i * 65536 }
            errors := [] }
      else arrange_loop super_name shared_string name inherit (i + 1) tmp.2

/-- `findstring` gives the shared string with a text, when there is one. -/
def arrange_call_inherited (findstring : List Char → Option Nat)
    (inherits : List (program_t × Nat × Nat × name_mods)) (name : List Char)
    (node : parse_node_t) : arranged_t :=
  let (super_name, real_name) := split_name name
  match findstring real_name with
  | some shared_string => arrange_loop super_name shared_string name inherits 0 node
  | none => invalid node (message ("No such inherited function ".toList ++ name))

/-- `F_CALL_INHERITED`, with the byte and the short that `i_generate_node` makes of the node.
`setup_inherited_frame` walks as `setup_new_frame` does, and adds to the offsets of the
inherit. -/
def call_inherited (inherit : List (program_t × Nat × Nat × name_mods)) (node : parse_node_t) :
    Option found_t :=
  program.frame_in_inherit (run_time_inherit inherit) (node.l / 65536 % 256) (node.l % 65536)

/-! ## The compilation -/

/-- What `copy_functions` sees of a program, where `init` is the name of `__INIT`. -/
def inherited (init : Nat) (prog : program_t) : inherited_t where
  functions := prog.function_flags.zipIdx.map fun (flags, i) =>
    (((program.function_at prog.run_time i).map program.compiler_function_t.name).getD 0, flags)
  initializer := prog.function_table.getLast?.any fun f => f.name == init

/-- A program that is compiled: `functions` is `A_COMPILER_FUNCTIONS`. -/
structure source_t where
  c : compile_t
  functions : List compiler_function_t
  inherit : List (program_t × Nat × Nat × name_mods)

inductive Statement
  | inherit (prog : program_t) (variable_index_offset : Nat) (type_mod : name_mods)
  | function (d : declaration_t) (type : Nat)

/-- What `define_new_function` writes to `A_COMPILER_FUNCTIONS`, where `c` becomes `c'`. -/
def put_function (c c' : compile_t) (d : declaration_t) (type : Nat)
    (functions : List compiler_function_t) : List compiler_function_t :=
  match lookup_ident c' d.name with
  | none => functions
  | some runtime_index =>
    match c'.table[runtime_index]?.bind function_t.u_index with
    | none => functions
    | some num =>
      if d.prototype && num < c.num_compiler_functions then functions
      else functions.take num ++ ⟨⟨d.name, runtime_index⟩, type⟩ :: functions.drop (num + 1)

def source_t.start : source_t := ⟨compile_t.start, [], []⟩

/-- One statement; `none` when the compiler refuses the program. -/
def source_t.step (init : Nat) (s : source_t) : Statement → Option source_t
  | .inherit prog variable_index_offset type_mod =>
    (s.c.step (.inherit (inherited init prog) type_mod)).map fun c =>
      { s with
        c
        inherit := s.inherit ++ [(prog, s.c.table.length, variable_index_offset, type_mod)] }
  | .function d type =>
    (s.c.step (.function d)).map fun c =>
      { s with c, functions := put_function s.c c d type s.functions }

/-- `__INIT` is defined last, when there are initializers. -/
def init_declaration (init : Nat) : declaration_t where
  name := init
  num_arg := 0
  num_local := 0
  prototype := false
  true_varargs := false
  exact_types := true
  type := ⟨false, false, false, true, false, false, false⟩

def TYPE_VOID : Nat := 3

def add_init (init : Nat) (s : source_t) (initializer : Bool) : Option source_t :=
  if initializer then s.step init (.function (init_declaration init) TYPE_VOID) else some s

/-- Whether the function is still the definition of its entry: one that an inherited function
has replaced is marked for removal. -/
def used (c : compile_t) (functions : List compiler_function_t) (num : Nat) : Bool :=
  match functions[num]? with
  | none => false
  | some f => c.table[f.runtime_index]?.bind function_t.u_index == some num

def name_of (functions : List compiler_function_t) (x : Nat) : Nat :=
  (functions[x]?.map fun f => f.name).getD 0

/-- `compare_compiler_funcs`, of two functions that stay. -/
def compare_compiler_funcs (init : Nat) (functions : List compiler_function_t) (x y : Nat) : Bool :=
  let n1 := name_of functions x
  let n2 := name_of functions y
  if n1 = init then n2 = init else n2 = init ∨ n1 ≤ n2

/-- The functions that stay, in the order of the sorted table. -/
def sorted_functions (init : Nat) (s : source_t) : List Nat :=
  ((List.range s.functions.length).filter (used s.c s.functions)).insertionSort fun x y =>
    compare_compiler_funcs init s.functions x y = true

/-- The entry of a function at this level refers to the sorted table. -/
def moved_entry (sorted : List Nat) (flags : name_flags) : runtime_function_u → runtime_function_u
  | .def_ num_arg num_local f_index =>
    .def_ num_arg num_local (if flags.INHERITED then f_index else sorted.idxOf f_index)
  | .inh offset function_index_offset => .inh offset function_index_offset

def unreadable : runtime_function_u := .inh compiler.USHRT_MAX compiler.USHRT_MAX

/-- The program that `epilog` makes, with what `FIND_FUNC_ENTRY` reads of its compressed
table. -/
def epilog (init addr id_number : Nat) (name : List Char) (s : source_t) : program_t :=
  let table := epilog_table s.c.table
  let sorted := sorted_functions init s
  .mk addr id_number name (sorted.filterMap fun num => s.functions[num]?)
    (table.map function_t.flags)
    (table.zipIdx.map fun (f, i) => moved_entry sorted f.flags
      ((compiler.FIND_FUNC_ENTRY (compiler.epilog s.c) i).getD unreadable))
    s.inherit

/-- Only `add_init` defines `__INIT`. -/
def ordinary (init : Nat) (_ : source_t) : Statement → Prop
  | .inherit _ _ _ => True
  | .function d _ => d.name ≠ init

instance (init : Nat) (s : source_t) : (a : Statement) → Decidable (ordinary init s a)
  | .inherit _ _ _ => isTrue trivial
  | .function d _ => inferInstanceAs (Decidable (d.name ≠ init))

def fits (c : compile_t) : Prop :=
  ∀ i, compiler.expected c.inherits (epilog_table c.table) i = true →
    compiler.unexpected c.inherits (epilog_table c.table) i ≤ 255

/-- The programs that the compiler makes, of programs that it made, where each compilation
meets a condition. -/
inductive Compiled (init : Nat) (ok : compile_t → Prop) : program_t → Prop
  | mk {s s' : source_t} {initializer : Bool} (addr id_number : Nat) (name : List Char)
      (hsource : Reachable source_t.start (source_t.step init) (ordinary init) s)
      (hinit : add_init init s initializer = some s') (hok : ok s'.c)
      (hinherit : ∀ ip ∈ s.inherit, Compiled init ok ip.1) :
      Compiled init ok (epilog init addr id_number name s')

/-! ## What a reference means -/

/-- The definition of a function, in the program that has it, with the place of that program:
its offsets, and the modifiers of the `inherit` statements on the way to it. -/
structure definition_t where
  prog : program_t
  index : Nat
  function : compiler_function_t
  flags : name_flags
  fio : Nat
  vio : Nat
  path : List name_mods

mutual

/-- The definition that a program gives a name: its own, or else that of the last of the
inherited programs which have one. -/
def definition : program_t → Nat → Option definition_t
  | .mk addr id_number pname function_table function_flags function_offsets inherit, name =>
    match function_table.findIdx? fun f => f.name == name with
    | some index =>
      match function_table[index]? with
      | none => none
      | some function =>
        match function_flags[function.runtime_index]? with
        | none => none
        | some flags =>
          if flags.PROTOTYPE then none
          else
            some {
              prog := .mk addr id_number pname function_table function_flags function_offsets
                inherit
              index, function, flags
              fio := 0
              vio := 0
              path := [] }
    | none => last_definition inherit name

def last_definition : List (program_t × Nat × Nat × name_mods) → Nat → Option definition_t
  | [], _ => none
  | (prog, function_index_offset, variable_index_offset, type_mod) :: inherit, name =>
    match last_definition inherit name with
    | some d => some d
    | none =>
      (definition prog name).map fun d =>
        { d with
          fio := d.fio + function_index_offset
          vio := d.vio + variable_index_offset
          path := type_mod :: d.path }

end

def definition_t.found (d : definition_t) : found_t :=
  ⟨d.prog.addr, d.prog.run_time, d.index, d.fio, d.vio⟩

/-- The function is private, or inherited privately somewhere on the way. -/
def definition_t.hidden (d : definition_t) : Bool :=
  d.flags.mods.PRIVATE || d.path.any name_mods.PRIVATE

/-- It is so where the search looks: at the function itself in the program that has it, and
at the first statement of a way to another one. -/
def definition_t.refused (d : definition_t) : Bool :=
  match d.path with
  | [] => d.flags.mods.PRIVATE
  | type_mod :: _ => type_mod.PRIVATE

/-- The first inherit statement that the reference may mean and whose program defines the
function, with its index. -/
def first_definition (super_name : Option (List Char)) (name : Nat) :
    List (program_t × Nat × Nat × name_mods) → Nat →
      Option (Nat × (program_t × Nat × Nat × name_mods) × definition_t)
  | [], _ => none
  | ip :: inherit, i =>
    if super_name.any fun s => !super_matches s ip.1.name then
      first_definition super_name name inherit (i + 1)
    else
      match definition ip.1 name with
      | some d => some (i, ip, d)
      | none => first_definition super_name name inherit (i + 1)

/-- `::f` or `name::f` -/
def reference (super_name : Option (List Char)) (real_name : List Char) : List Char :=
  super_name.getD [] ++ "::".toList ++ real_name

end mudos.inherited_calls

-- The runtime function table of a program: how the compiler of `compiler.c`
-- builds it from inherited, overloaded and local functions, how
-- `compress_function_tables` leaves entries out of it, and how
-- `find_func_entry` of `program.c` makes them again.
import MudOS.Library.Runs
import Mathlib.Data.List.Basic

namespace mudos.compiler

/-! ## The table -/

/-- The modifiers of `NAME_TYPE_MOD`. -/
structure name_mods where
  HIDDEN : Bool
  STATIC : Bool
  NO_MASK : Bool
  PRIVATE : Bool
  PROTECTED : Bool
  PUBLIC : Bool
  VARARGS : Bool
deriving DecidableEq

def name_mods.or (a b : name_mods) : name_mods where
  HIDDEN := a.HIDDEN || b.HIDDEN
  STATIC := a.STATIC || b.STATIC
  NO_MASK := a.NO_MASK || b.NO_MASK
  PRIVATE := a.PRIVATE || b.PRIVATE
  PROTECTED := a.PROTECTED || b.PROTECTED
  PUBLIC := a.PUBLIC || b.PUBLIC
  VARARGS := a.VARARGS || b.VARARGS

structure name_flags where
  INHERITED : Bool
  UNDEFINED : Bool
  STRICT_TYPES : Bool
  PROTOTYPE : Bool
  DEF_BY_INHERIT : Bool
  ALIAS : Bool
  TRUE_VARARGS : Bool
  mods : name_mods
deriving DecidableEq

/-- `NAME_NO_CODE` -/
def name_flags.NO_CODE (f : name_flags) : Bool := f.UNDEFINED || f.ALIAS || f.PROTOTYPE

def REAL_FUNCTION (f : name_flags) : Bool :=
  !(f.ALIAS || f.PROTOTYPE) && (f.DEF_BY_INHERIT || !f.UNDEFINED)

inductive runtime_function_u
  | def_ (num_arg num_local f_index : Nat)
  | inh (offset function_index_offset : Nat)
deriving DecidableEq

/-- A program that can be inherited: the name and the flags of each of its functions,
and whether the last one of them is its `__INIT`, which no one inherits. -/
structure inherited_t where
  functions : List (Nat × name_flags)
  initializer : Bool

/-- How many functions `copy_functions` copies. -/
def inherited_t.num_functions (prog : inherited_t) : Nat :=
  if prog.initializer then prog.functions.length - 1 else prog.functions.length

structure inherit_t where
  prog : inherited_t
  function_index_offset : Nat
  type_mod : name_mods

/-- One index of the function blocks of the compiler. -/
structure function_t where
  entry : runtime_function_u
  flags : name_flags
  /-- `FUNCTION_ALIAS`: the entry that an alias refers to, else a count. -/
  alias_for : Nat
  /-- The index of the definition, when `FUNCTION_PROG` is 0. -/
  u_index : Option Nat

/-- What the compiler has of a program. A name is a shared string, so a number. -/
structure compile_t where
  inherits : List inherit_t
  table : List function_t
  /-- The `function_num` of each identifier, the latest first. -/
  idents : List (Nat × Nat)
  num_compiler_functions : Nat

/-! ## Inheriting -/

/-- The flags that a function has in the program that inherits it. -/
def inherited_flags (flags : name_flags) (typemod : name_mods) : name_flags :=
  let mods := if flags.mods.PRIVATE then { flags.mods with HIDDEN := true } else flags.mods
  let mods := mods.or typemod
  let mods := if mods.PUBLIC then { mods with PRIVATE := false } else mods
  { flags with INHERITED := false, ALIAS := false, DEF_BY_INHERIT := true, UNDEFINED := true, mods }

def lookup_ident (c : compile_t) (name : Nat) : Option Nat := c.idents.lookup name

def copy_function (c : compile_t) (name : Nat) (flags : name_flags) (index : Nat)
    (typemod : name_mods) : compile_t :=
  { c with
    table := c.table ++ [{
      entry := .inh (c.inherits.length - 1) index
      flags := inherited_flags flags typemod
      alias_for := 1
      u_index := none }]
    idents := (name, c.table.length) :: c.idents }

/-- The flags of the alias that `overload_function` adds. -/
def alias_flags : name_flags :=
  ⟨true, false, false, false, false, true, false, ⟨false, false, false, false, false, false, false⟩⟩

/-- `none` when the compiler refuses the program. -/
def overload_function (c : compile_t) (newflags : name_flags) (index oldindex : Nat)
    (typemod : name_mods) : Option compile_t :=
  match c.table[oldindex]? with
  | none => none
  | some old =>
    if !newflags.NO_CODE && REAL_FUNCTION old.flags && old.flags.mods.NO_MASK then none
    else
      let entry := .inh (c.inherits.length - 1) index
      let table := c.table ++ [{ entry, flags := alias_flags, alias_for := oldindex, u_index := none }]
      -- the latest function wins, unless one is defined at this level
      let new :=
        if old.flags.UNDEFINED && !newflags.NO_CODE then
          { old with entry, flags := inherited_flags newflags typemod, u_index := none }
        else old
      let new := if newflags.ALIAS then new else { new with alias_for := new.alias_for + 1 }
      some { c with table := table.set oldindex new }

/-- The loop of `copy_functions`, from the function `i` on. -/
def copy_functions_loop (typemod : name_mods) :
    List (Nat × name_flags) → Nat → compile_t → Option compile_t
  | [], _, c => some c
  | (name, flags) :: functions, i, c =>
    match lookup_ident c name with
    | some num =>
      match overload_function c flags i num typemod with
      | some c => copy_functions_loop typemod functions (i + 1) c
      | none => none
    | none => copy_functions_loop typemod functions (i + 1) (copy_function c name flags i typemod)

def copy_functions (c : compile_t) (from_ : inherited_t) (typemod : name_mods) : Option compile_t :=
  copy_functions_loop typemod (from_.functions.take from_.num_functions) 0 c

/-- The functions of an `inherit` statement. -/
def inherit (c : compile_t) (prog : inherited_t) (type_mod : name_mods) : Option compile_t :=
  copy_functions { c with inherits := c.inherits ++ [⟨prog, c.table.length, type_mod⟩] }
    prog type_mod

/-! ## Local functions -/

/-- A declaration of a function: the grammar passes `NAME_UNDEFINED` and
`NAME_PROTOTYPE` for a prototype, and neither for a definition. -/
structure declaration_t where
  name : Nat
  num_arg : Nat
  num_local : Nat
  prototype : Bool
  true_varargs : Bool
  exact_types : Bool
  type : name_mods

/-- `none` when the compiler refuses the program. The checks of argument types are
left out: all they do is refuse more programs. -/
def define_new_function (c : compile_t) (d : declaration_t) : Option compile_t :=
  let flags : name_flags :=
    ⟨false, d.prototype, d.exact_types, d.prototype, false, false, d.true_varargs, d.type⟩
  match lookup_ident c d.name with
  | some runtime_num =>
    match c.table[runtime_num]? with
    | none => none
    | some old =>
      if !old.flags.UNDEFINED && !d.prototype then none
      else if old.flags.mods.NO_MASK && !old.flags.PROTOTYPE && !d.prototype then none
      else if d.prototype then some c
      else
        let num := old.u_index.getD c.num_compiler_functions
        some { c with
          table := c.table.set runtime_num {
            entry := .def_ d.num_arg d.num_local num
            flags
            alias_for := old.alias_for + 1
            u_index := some num }
          num_compiler_functions :=
            if old.u_index.isSome then c.num_compiler_functions else c.num_compiler_functions + 1 }
  | none =>
    some { c with
      table := c.table ++ [{
        entry := .def_ d.num_arg d.num_local c.num_compiler_functions
        flags
        alias_for := 1
        u_index := some c.num_compiler_functions }]
      idents := (d.name, c.table.length) :: c.idents
      num_compiler_functions := c.num_compiler_functions + 1 }

inductive Statement
  | inherit (prog : inherited_t) (type_mod : name_mods)
  | function (d : declaration_t)

/-- The largest `unsigned short`, the type of each index of a function. -/
abbrev USHRT_MAX : Nat := 65535

def compile_t.start : compile_t := ⟨[], [], [], 0⟩

/-- One statement of the source file, when the indexes still fit their type. -/
def compile_t.step (c : compile_t) (s : Statement) : Option compile_t :=
  let c' := match s with
    | .inherit prog type_mod => compiler.inherit c prog type_mod
    | .function d => define_new_function c d
  match c' with
  | some c' => if c'.table.length ≤ USHRT_MAX then some c' else none
  | none => none

/-! ## The end of the compilation -/

/-- What `epilog` does to the entry `i` of the table. -/
def epilog_entry (table : List function_t) (i : Nat) : List function_t :=
  match table[i]? with
  | none => table
  | some f =>
    let flags :=
      if f.flags.UNDEFINED && f.flags.DEF_BY_INHERIT then
        { f.flags with
          UNDEFINED := f.flags.PROTOTYPE || f.flags.ALIAS
          INHERITED := true }
      else f.flags
    let table := table.set i { f with flags }
    if f.flags.ALIAS then
      match table[f.alias_for]? with
      | none => table
      | some which =>
        if !which.flags.INHERITED || 2 ≤ which.alias_for then
          table.set i { f with entry := which.entry, flags := { which.flags with ALIAS := true } }
        else table
    else table

def epilog_table (table : List function_t) : List function_t :=
  (List.range table.length).foldl epilog_entry table

/-! ## The compression -/

structure compressed_offset_table_t where
  first_defined : Nat
  first_overload : Nat
  num_compressed : Nat
  num_deleted : Nat
  index : List Nat

structure program_t where
  function_offsets : List runtime_function_u
  function_compressed : compressed_offset_table_t
  inherit : List inherit_t

def EXPECTED_INDEX (inherits : List inherit_t) : runtime_function_u → Option Nat
  | .inh offset k => inherits[offset]?.map fun ip => ip.function_index_offset + k
  | .def_ .. => none

/-- `(FUNCTION_FLAGS(i) & NAME_INHERITED) && i == EXPECTED_INDEX(FUNCTION_RENTRY(i))` -/
def expected (inherits : List inherit_t) (table : List function_t) (i : Nat) : Bool :=
  match table[i]? with
  | none => false
  | some f => f.flags.INHERITED && EXPECTED_INDEX inherits f.entry == some i

section

variable (E : Nat → Bool)

/-- The search for `f_def` down from the end, after its last `f_def++`. -/
def find_f_def : Nat → Nat
  | 0 => 0
  | f_def + 1 => if E f_def then f_def + 1 else find_f_def f_def

/-- The search for `f_ov` up to `f_def`, with `f_def - f_ov` the first argument. -/
def find_f_ov : Nat → Nat → Nat
  | 0, f_ov => f_ov
  | n + 1, f_ov => if E f_ov then find_f_ov n (f_ov + 1) else f_ov

/-- The search for `l_ov` down from `f_def - 1`; it gives `l_ov + 1`. -/
def find_l_ov (f_ov : Nat) : Nat → Nat
  | 0 => 0
  | l_ov + 1 => if l_ov > f_ov && E l_ov then find_l_ov f_ov l_ov else l_ov + 1

/-- The loop that fills `index` from `i` on: the bytes, the last `j`, and the `i` at
which `j` became 256. -/
def index_loop (f_ov : Nat) : Nat → Nat → Nat → List Nat × Nat × Option Nat
  | 0, _, j => ([], j, none)
  | n + 1, i, j =>
    if E (f_ov + i) then
      let (index, r) := index_loop f_ov n (i + 1) j
      (255 :: index, r)
    else if j + 1 = 256 then (List.replicate (n + 1) 255, 255, some i)
    else
      let (index, r) := index_loop f_ov n (i + 1) (j + 1)
      (j :: index, r)

end

/-- Stores in a table, one after the other: `pos` is where the value `i` goes. -/
def store_all {α : Type*} (pos : Nat → Option Nat) (val : Nat → α) (n : Nat) (p : List α) : List α :=
  (List.range n).foldl
    (fun p i => match pos i with | some k => p.set k (val i) | none => p) p

def FUNCTION_RENTRY (table : List function_t) (i : Nat) : runtime_function_u :=
  (table[i]?.map function_t.entry).getD (.def_ 0 0 0)

def compress_function_tables (inherits : List inherit_t) (table : List function_t) : program_t :=
  let E := expected inherits table
  let n_tot := table.length
  let f_def := find_f_def E n_tot
  let n_def := n_tot - f_def
  let f_ov := find_f_ov E f_def 0
  let n_ov := find_l_ov E f_ov f_def - f_ov
  let (index, j, fix) := index_loop E f_ov n_ov 0 0
  let (first_defined, num_compressed) := match fix with
    | some i => (f_ov + i, i)
    | none => (f_def, f_def - n_ov)
  let p := List.replicate (j + n_def) (.def_ 0 0 0)
  let p := store_all (fun i => index[i]?.filter (· != 255))
    (fun i => FUNCTION_RENTRY table (f_ov + i)) n_ov p
  let p := store_all (fun i => some (i + j))
    (fun i => FUNCTION_RENTRY table (first_defined + i)) n_def p
  { function_offsets :=
      if j + n_def = 0 then []
      else if first_defined ≠ 0 then p
      else table.map function_t.entry
    function_compressed := {
      first_defined
      first_overload := f_ov
      num_compressed
      num_deleted := first_defined - j
      index }
    inherit := inherits }

/-- The program that `epilog` makes. -/
def epilog (c : compile_t) : program_t :=
  compress_function_tables c.inherits (epilog_table c.table)

/-! ## Lookups -/

/-- The binary search for the inherit that an omitted entry is of. -/
def find_inherit (offset : Nat → Nat) (index : Nat) : Nat → Nat → Nat → Nat
  | 0, first, _ => first
  | fuel + 1, first, last =>
    if last > first then
      let mid := (last + first + 1) / 2
      if offset mid > index then find_inherit offset index fuel first (mid - 1)
      else find_inherit offset index fuel mid last
    else first

def function_index_offset (inherits : List inherit_t) (i : Nat) : Nat :=
  (inherits[i]?.map inherit_t.function_index_offset).getD 0

/-- "The entry was omitted. Remake it": `none` is a read outside the inherit list. -/
def remake_entry (inherits : List inherit_t) (index : Nat) : Option runtime_function_u :=
  let first := find_inherit (function_index_offset inherits) index inherits.length 0
    (inherits.length - 1)
  inherits[first]?.map fun ip => .inh first (index - ip.function_index_offset)

/-- `none` is a read outside the tables of the program. -/
def find_func_entry (prog : program_t) (index : Nat) : Option runtime_function_u :=
  let f_ov := prog.function_compressed.first_overload
  let n_ov := prog.function_compressed.first_defined - prog.function_compressed.num_compressed
  if index < f_ov ∨ index - f_ov ≥ n_ov then remake_entry prog.inherit index
  else
    match prog.function_compressed.index[index - f_ov]? with
    | none => none
    | some fidx =>
      if fidx = 255 then remake_entry prog.inherit index else prog.function_offsets[fidx]?

def FIND_FUNC_ENTRY (prog : program_t) (i : Nat) : Option runtime_function_u :=
  if i < prog.function_compressed.first_defined then find_func_entry prog i
  else prog.function_offsets[i - prog.function_compressed.num_deleted]?

/-- How many entries below the index are not where the inherits say. -/
def unexpected (inherits : List inherit_t) (table : List function_t) (i : Nat) : Nat :=
  (List.range i).countP fun k => !expected inherits table k

end mudos.compiler

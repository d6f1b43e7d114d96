-- Saved binaries: `save_binary`, `check_times` and `int_load_binary` of `binaries.c`, and
-- the programs that `load_object` makes, with the offsets of their inherit tables.
import Mathlib.Data.List.Basic

namespace mudos.binaries

abbrev path := List UInt8

abbrev slash : UInt8 := 47

/-! ## Programs -/

/-- An inherited program, and where its functions and variables are. -/
structure inherit_t where
  prog : Nat
  function_index_offset : Nat
  variable_index_offset : Nat
deriving DecidableEq

structure program_t where
  /-- The source. -/
  name : path
  /-- The other files it was compiled from. -/
  includes : List path
  num_functions_total : Nat
  /-- The last function is `__INIT`. -/
  initializer : Bool
  num_variables_defined : Nat
  num_variables_total : Nat
  inherit : List inherit_t
  /-- It has been saved, or loaded from what was saved. -/
  saved : Bool
deriving DecidableEq

/-- How many functions `copy_functions` takes. -/
def num_copied (num_functions_total : Nat) (initializer : Bool) : Nat :=
  if initializer then num_functions_total - 1 else num_functions_total

/-! ## Binaries -/

/-- An entry of the inherit table in a binary, where the program is kept by its name. -/
structure saved_inherit_t where
  name : path
  function_index_offset : Nat
  variable_index_offset : Nat
deriving DecidableEq

structure binary_t where
  mtime : Nat
  driver_id : Nat
  config_id : Nat
  includes : List path
  name : path
  num_functions_total : Nat
  initializer : Bool
  num_variables_defined : Nat
  num_variables_total : Nat
  inherit : List saved_inherit_t
deriving DecidableEq

/-- The files, and what is in memory. Binaries are in a directory of their own. -/
structure driver where
  current_time : Nat
  mtime : path → Option Nat
  binaries : path → Option binary_t
  driver_id : Nat
  config_id : Nat
  progs : Nat → Option program_t
  objects : path → Option Nat
  /-- A buffer has been written behind its end. -/
  overrun : Bool

/-- `-1` if there is no file, `0` if it is newer, `1` if it is older. -/
def check_times (mtime : Nat) (st_mtime : Option Nat) : Int :=
  match st_mtime with
  | none => -1
  | some st_mtime => if st_mtime > mtime then 0 else 1

def real_name (name : path) : path := name ++ [46, 99]

/-- The loop at the end of `strip_name`, on the reversed name. -/
def strip_end : path → path
  | 99 :: 46 :: c :: l => strip_end (c :: l)
  | l => l

def strip_name (src : path) : path := (strip_end (src.dropWhile (· = slash)).reverse).reverse

def find_object2 (d : driver) (str : path) : Option Nat := d.objects (strip_name str)

variable (SAVE_BINARIES : path)

/-- What `sprintf` writes. -/
def full_name (name : path) : path := SAVE_BINARIES ++ slash :: name

def starts_with_slash (l : path) : Bool := l.head? = some slash

/-- The path of a binary: without a slash at the start, and with `b` at the end. -/
def file_name (name : path) : path :=
  (if starts_with_slash (full_name SAVE_BINARIES name) then (full_name SAVE_BINARIES name).tail
    else full_name SAVE_BINARIES name).dropLast ++ [98]

/-! ## Loading -/

inductive loaded_t (α : Type)
  | loaded (a : α)
  | out_of_date
  /-- `inherit_file`: a program that is not in memory. -/
  | missing (inherit_file : path)
  | overrun
deriving DecidableEq

/-- The inherit table. `file_name_two` is where the path is written in the 400 characters of the
buffer: behind a slash it goes on by one, and stays there. -/
def read_inherits (d : driver) (mtime : Nat) :
    (file_name_two : Nat) → List saved_inherit_t → loaded_t (List inherit_t)
  | _, [] => .loaded []
  | file_name_two, i :: rest =>
    if file_name_two + (full_name SAVE_BINARIES i.name).length + 1 > 400 then .overrun
    else if check_times mtime (d.mtime i.name) ≤ 0 ∨
        check_times mtime
          ((d.binaries (file_name SAVE_BINARIES i.name)).map binary_t.mtime) = 0 then
      .out_of_date
    else
      match find_object2 d i.name with
      | none => .missing i.name
      | some prog =>
        match read_inherits d mtime
          (if starts_with_slash (full_name SAVE_BINARIES i.name) then file_name_two + 1
            else file_name_two) rest with
        | .loaded inherit =>
          .loaded (⟨prog, i.function_index_offset, i.variable_index_offset⟩ :: inherit)
        | .out_of_date => .out_of_date
        | .missing inherit_file => .missing inherit_file
        | .overrun => .overrun

/-- `includes->current_size` -/
def includes_size : List path → Nat
  | [] => 0
  | iname :: rest => iname.length + 1 + includes_size rest

/-- The list of includes is read with a length that is a `short`: from 32768 on it is negative. -/
def int_load_binary (d : driver) (name : path) : loaded_t program_t :=
  if (full_name SAVE_BINARIES name).length + 1 > 400 then .overrun
  else
    match d.binaries (file_name SAVE_BINARIES name) with
    | none => .out_of_date
    | some b =>
      if check_times b.mtime (d.mtime name) ≤ 0 then .out_of_date
      else if b.driver_id ≠ d.driver_id then .out_of_date
      else if b.config_id ≠ d.config_id then .out_of_date
      else if includes_size b.includes > 32767 then .overrun
      else if ∃ iname ∈ b.includes, check_times b.mtime (d.mtime iname) ≤ 0 then .out_of_date
      else if b.name ≠ name then .out_of_date
      else
        match read_inherits SAVE_BINARIES d b.mtime 200 b.inherit with
        | .loaded inherit =>
          .loaded {
            name
            includes := b.includes
            num_functions_total := b.num_functions_total
            initializer := b.initializer
            num_variables_defined := b.num_variables_defined
            num_variables_total := b.num_variables_total
            inherit
            saved := true }
        | .out_of_date => .out_of_date
        | .missing inherit_file => .missing inherit_file
        | .overrun => .overrun

/-! ## Compiling -/

/-- What the compiler finds in the files of a program. -/
structure source_t where
  includes : List path
  /-- The objects whose programs are inherited, each with the number of functions declared since
  the last. -/
  inherits : List (path × Nat)
  /-- Functions declared behind the last. -/
  num_functions : Nat
  initializer : Bool
  num_variables : Nat
  /-- There is a pragma, the master object agrees and the sizes are in range. -/
  save_binary : Bool

/-- The inherit table, with so many functions and variables before it, and all there are then. There
is none when a program is not in memory. -/
def inheritance (d : driver) :
    (funs vars : Nat) → List (path × Nat) → Option (List inherit_t × Nat × Nat)
  | funs, vars, [] => some ([], funs, vars)
  | funs, vars, (name, declared) :: rest => do
    let prog ← d.objects name
    let p ← d.progs prog
    let (inherit, total) ← inheritance d
      (funs + declared + num_copied p.num_functions_total p.initializer)
      (vars + p.num_variables_total) rest
    return (⟨prog, funs + declared, vars⟩ :: inherit, total)

def compile_file (d : driver) (name : path) (source : source_t) : Option program_t :=
  (inheritance d 0 0 source.inherits).map fun (inherit, funs, vars) =>
    { name
      includes := source.includes
      num_functions_total := funs + source.num_functions
      initializer := source.initializer
      num_variables_defined := source.num_variables
      num_variables_total := vars + source.num_variables
      inherit
      saved := source.save_binary }

def save_inherit (d : driver) (i : inherit_t) : Option saved_inherit_t :=
  (d.progs i.prog).map fun p => ⟨p.name, i.function_index_offset, i.variable_index_offset⟩

def save_binary (d : driver) (prog : program_t) : driver :=
  { d with
    binaries := fun f =>
      if f = file_name SAVE_BINARIES prog.name then
        some {
          mtime := d.current_time
          driver_id := d.driver_id
          config_id := d.config_id
          includes := prog.includes
          name := prog.name
          num_functions_total := prog.num_functions_total
          initializer := prog.initializer
          num_variables_defined := prog.num_variables_defined
          num_variables_total := prog.num_variables_total
          inherit := prog.inherit.filterMap (save_inherit d) }
      else d.binaries f }

/-! ## Steps -/

inductive action
  /-- A second. -/
  | tick
  | write_file (f : path)
  | rm (f : path)
  /-- A binary is removed. -/
  | rm_binary (name : path)
  /-- The object is loaded, its program at this address. -/
  | load_object (name : path) (source : source_t) (prog : Nat)
  | destruct (name : path)
  /-- The object gets a program that is in memory, by `replace_program` or as a virtual one. -/
  | replace (name : path) (prog : Nat)
  | restart (driver_id config_id : Nat)

def link (d : driver) (name : path) (prog : Nat) (p : program_t) : driver :=
  { d with
    progs := fun a => if a = prog then some p else d.progs a
    objects := fun n => if n = name then some prog else d.objects n }

/-- The name is one that `strip_name` has left. A program that is inherited and not in memory is
loaded by a step of its own, before another try. -/
def load_object (d : driver) (name : path) (source : source_t) (prog : Nat) : driver :=
  match int_load_binary SAVE_BINARIES d (real_name name) with
  | .loaded p => link d name prog p
  | .missing _ => d
  | .overrun => { d with overrun := true }
  | .out_of_date =>
    match compile_file d (real_name name) source with
    | none => d
    | some p => link (if source.save_binary then save_binary SAVE_BINARIES d p else d) name prog p

def step (d : driver) : action → driver
  | .tick => { d with current_time := d.current_time + 1 }
  | .write_file f =>
    { d with mtime := fun f' => if f' = f then some d.current_time else d.mtime f' }
  | .rm f => { d with mtime := fun f' => if f' = f then none else d.mtime f' }
  | .rm_binary name =>
    { d with
      binaries := fun f =>
        if f = file_name SAVE_BINARIES (real_name name) then none else d.binaries f }
  | .load_object name source prog =>
    if d.objects name = none ∧ d.progs prog = none ∧ strip_name (real_name name) = name then
      load_object SAVE_BINARIES d name source prog
    else d
  | .destruct name =>
    { d with objects := fun n => if n = name then none else d.objects n }
  | .replace name prog =>
    if d.objects name = none ∨ d.progs prog = none then d
    else { d with objects := fun n => if n = name then some prog else d.objects n }
  | .restart driver_id config_id =>
    { d with
      driver_id
      config_id
      objects := fun _ => none }

end mudos.binaries

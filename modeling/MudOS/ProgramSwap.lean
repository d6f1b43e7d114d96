-- Swapping of programs and of line numbers, `swap.c` over the file of
-- `SwapFile`: the image of a program with its pointers made into offsets, and
-- what `swap`, `load_ob_from_swap`, `replace_programs` and the freeing of
-- objects and programs do with it.
import MudOS.SwapFile
import MudOS.Library.Weights

open mudos.weights mudos.swap

namespace mudos.program_swap

/-! ## The block of a program -/

/-- An `int`, or an address. -/
abbrev word := BitVec 32

/-- An `unsigned short`. -/
abbrev short := BitVec 16

/-- `program_t`, with the code and the tables that lie behind it in its block. -/
structure program_t where
  name : word
  flags : word
  ref : short
  func_ref : short
  program : word
  id_number : word
  line_info : word
  file_info : word
  /-- -1 when the line numbers have not been swapped out. -/
  line_swap_index : word
  function_table : word
  function_flags : word
  function_offsets : word
  function_compressed : word
  classes : word
  class_members : word
  strings : word
  variable_table : word
  variable_types : word
  inherit : word
  total_size : word
  heart_beat : word
  argument_types : word
  type_start : word
  program_size : short
  num_classes : short
  num_functions_total : short
  num_functions_defined : short
  num_strings : short
  num_variables_total : short
  num_variables_defined : short
  num_inherited : short
  tables : List UInt8
deriving DecidableEq

/-- `sizeof (program_t)`. -/
abbrev SIZEOF_PROGRAM_T : Nat := 104

def int_bytes (w : word) : List UInt8 := size_word w.toNat

def short_bytes (h : short) : List UInt8 := [.ofNat h.toNat, .ofNat (h.toNat / 256)]

def bytes (p : program_t) : List UInt8 :=
  [int_bytes p.name, int_bytes p.flags, short_bytes p.ref, short_bytes p.func_ref,
    int_bytes p.program, int_bytes p.id_number, int_bytes p.line_info, int_bytes p.file_info,
    int_bytes p.line_swap_index, int_bytes p.function_table, int_bytes p.function_flags,
    int_bytes p.function_offsets, int_bytes p.function_compressed, int_bytes p.classes,
    int_bytes p.class_members, int_bytes p.strings, int_bytes p.variable_table,
    int_bytes p.variable_types, int_bytes p.inherit, int_bytes p.total_size,
    int_bytes p.heart_beat, int_bytes p.argument_types, int_bytes p.type_start,
    short_bytes p.program_size, short_bytes p.num_classes, short_bytes p.num_functions_total,
    short_bytes p.num_functions_defined, short_bytes p.num_strings,
    short_bytes p.num_variables_total, short_bytes p.num_variables_defined,
    short_bytes p.num_inherited].flatten ++ p.tables

def get_int : StateT (List UInt8) Option word
  | a :: b :: c :: d :: rest => some (.ofNat 32 (word_size [a, b, c, d]), rest)
  | _ => none

def get_short : StateT (List UInt8) Option short
  | a :: b :: rest => some (.ofNat 16 (a.toNat + b.toNat * 256), rest)
  | _ => none

def get_program : StateT (List UInt8) Option program_t := do
  let name ← get_int
  let flags ← get_int
  let ref ← get_short
  let func_ref ← get_short
  let program ← get_int
  let id_number ← get_int
  let line_info ← get_int
  let file_info ← get_int
  let line_swap_index ← get_int
  let function_table ← get_int
  let function_flags ← get_int
  let function_offsets ← get_int
  let function_compressed ← get_int
  let classes ← get_int
  let class_members ← get_int
  let strings ← get_int
  let variable_table ← get_int
  let variable_types ← get_int
  let inherit ← get_int
  let total_size ← get_int
  let heart_beat ← get_int
  let argument_types ← get_int
  let type_start ← get_int
  let program_size ← get_short
  let num_classes ← get_short
  let num_functions_total ← get_short
  let num_functions_defined ← get_short
  let num_strings ← get_short
  let num_variables_total ← get_short
  let num_variables_defined ← get_short
  let num_inherited ← get_short
  let tables ← get
  return ⟨name, flags, ref, func_ref, program, id_number, line_info, file_info, line_swap_index,
    function_table, function_flags, function_offsets, function_compressed, classes,
    class_members, strings, variable_table, variable_types, inherit, total_size, heart_beat,
    argument_types, type_start, program_size, num_classes, num_functions_total,
    num_functions_defined, num_strings, num_variables_total, num_variables_defined,
    num_inherited, tables⟩

def of_bytes (l : List UInt8) : Option program_t := (get_program.run l).map Prod.fst

/-- What `swap_out` is given of a program: `total_size` bytes, an `int`. -/
def image (p : program_t) : Option mem_block :=
  let b := (bytes p).take p.total_size.toNat
  if h : b.length + SIZEOF_INT < 2147483648 then some ⟨b, h⟩ else none

def address_at (tables : List UInt8) (offset : Nat) : word :=
  .ofNat 32 (word_size ((tables.drop offset).take 4))

/-- `sizeof (inherit_t)`. -/
abbrev SIZEOF_INHERIT_T : Nat := 12

/-- `prog->inherit[i].prog` for each `i`, of a program whose block starts there. -/
def inherit_progs (start : word) (p : program_t) : List word :=
  (List.range p.num_inherited.toNat).map fun i =>
    address_at p.tables ((p.inherit - start).toNat - SIZEOF_PROGRAM_T + SIZEOF_INHERIT_T * i)

/-! ## Relocation -/

/-- `DIFF(x, prog)`. -/
abbrev DIFF (x prog : word) : word := x - prog

/-- `ADD(x, prog)`. -/
abbrev ADD (x prog : word) : word := x + prog

def locate_out (prog : word) (p : program_t) : program_t :=
  let p := { p with
    program := DIFF p.program prog
    function_table := DIFF p.function_table prog
    function_flags := DIFF p.function_flags prog
    function_offsets := DIFF p.function_offsets prog
    function_compressed := DIFF p.function_compressed prog
    strings := DIFF p.strings prog
    variable_table := DIFF p.variable_table prog
    variable_types := DIFF p.variable_types prog
    inherit := DIFF p.inherit prog
    classes := DIFF p.classes prog
    class_members := DIFF p.class_members prog }
  if p.type_start ≠ 0 then
    { p with
      argument_types := DIFF p.argument_types prog
      type_start := DIFF p.type_start prog }
  else p

def locate_in (prog : word) (p : program_t) : program_t :=
  let p := { p with
    program := ADD p.program prog
    function_table := ADD p.function_table prog
    function_flags := ADD p.function_flags prog
    function_offsets := ADD p.function_offsets prog
    function_compressed := ADD p.function_compressed prog
    strings := ADD p.strings prog
    variable_table := ADD p.variable_table prog
    variable_types := ADD p.variable_types prog
    inherit := ADD p.inherit prog
    classes := ADD p.classes prog
    class_members := ADD p.class_members prog }
  if p.type_start ≠ 0 then
    { p with
      argument_types := ADD p.argument_types prog
      type_start := ADD p.type_start prog }
  else p

/-! ## Objects, programs and line numbers -/

/-- A program in memory. `numbers` is the block of line numbers that was
compiled with it; no function of the source reads it. -/
structure prog_block where
  prog : program_t
  numbers : List UInt8
deriving DecidableEq

/-- A program as it was when an object was swapped out last, with the place of
its block. No function of the source reads it. -/
structure saved_t where
  start : word
  prog : program_t
  numbers : List UInt8
deriving DecidableEq

structure object_t where
  prog : word
  /-- `none` for -1. -/
  swap_num : Option Nat
  O_SWAPPED : Bool
  O_DESTRUCTED : Bool
  O_HEART_BEAT : Bool
  O_CLONE : Bool
  interactive : Bool
  saved : Option saved_t

structure driver_t where
  swapper : Swapper
  programs : Table word prog_block
  /-- The blocks that `file_info` points to. -/
  line_blocks : Table word (List UInt8)
  objects : Table Nat object_t
  simul_efun_ob : Option Nat

/-- A location as an `int`. -/
def loc_int : Option Nat → word
  | none => -1
  | some loc => .ofNat 32 loc

def int_loc (w : word) : Option Nat := if w = -1 then none else some w.toNat

/-- `file_info[i]`. -/
def file_info_at (info : List UInt8) (i : Nat) : Nat :=
  match info.drop (2 * i) with
  | a :: b :: _ => a.toNat + b.toNat * 256
  | _ => 0

theorem file_info_at_lt (info : List UInt8) (i : Nat) : file_info_at info i < 65536 := by
  unfold file_info_at
  split
  · rename_i a b _ _
    have ha := a.toNat_lt
    have hb := b.toNat_lt
    omega
  · omega

/-- What `swap_out` is given of line numbers: as many bytes as the first short says. -/
def line_block (info : List UInt8) : mem_block :=
  ⟨info.take (file_info_at info 0), by
    have := file_info_at_lt info 0
    have := List.length_take_le (file_info_at info 0) info
    simp only [SIZEOF_INT]
    omega⟩

/-- What the allocator of the heap gives: a block that is not in use. -/
def Fresh (d : driver_t) (start : word) (size : Nat) : Prop :=
  start ≠ 0 ∧ start.toNat + size < 4294967296 ∧ d.programs.lookup start = none ∧
    d.line_blocks.lookup start = none

instance (d : driver_t) (start : word) (size : Nat) : Decidable (Fresh d start size) :=
  inferInstanceAs (Decidable (_ ∧ _ ∧ _ ∧ _))

/-! ## The swap file, with what is held in it -/

/-- `swap_out`; a block that is written is held from then on. -/
def out (time_to_swap : Int) (io : IoResult) (w : Swapper) (block : mem_block)
    (locp : Option Nat) : Bool × Option Nat × Swapper :=
  match swap_out time_to_swap io w.state block locp with
  | (true, some loc, s) =>
    (true, some loc, ⟨s, if locp = none then (loc, block) :: w.live else w.live⟩)
  | (ok, loc, s) => (ok, loc, ⟨s, w.live⟩)

/-- `free_swap` of what is held at the location. -/
def give_back (w : Swapper) (start length : Nat) : Swapper :=
  ⟨free_swap w.state start length, w.live.eraseP fun held => decide (held.1 = start)⟩

/-! ## Line numbers -/

def swap_line_numbers (time_to_swap : Int) (io : IoResult) (d : driver_t) (prog : word) :
    Option driver_t := do
  let b ← d.programs.lookup prog
  if b.prog.line_info = 0 then return d
  let info ← d.line_blocks.lookup b.prog.file_info
  let (ok, loc, w) := out time_to_swap io d.swapper (line_block info)
    (int_loc b.prog.line_swap_index)
  let p := { b.prog with line_swap_index := loc_int loc }
  if ok then
    return { d with
      swapper := w
      line_blocks := d.line_blocks.erase p.file_info
      programs := d.programs.insert prog ⟨{ p with file_info := 0, line_info := 0 }, b.numbers⟩ }
  else
    return { d with swapper := w, programs := d.programs.insert prog ⟨p, b.numbers⟩ }

/-- `file_info` is the block that `swap_in` allocates. -/
def load_line_numbers (d : driver_t) (prog file_info : word) : Option driver_t := do
  let b ← d.programs.lookup prog
  if b.prog.line_info ≠ 0 then return d
  let loc ← int_loc b.prog.line_swap_index
  let (size, info) := swap_in d.swapper.state (some loc)
  if Fresh d file_info size then
    return { d with
      line_blocks := d.line_blocks.insert file_info info
      programs := d.programs.insert prog ⟨{ b.prog with
        file_info
        line_info := file_info + .ofNat 32 (2 * file_info_at info 1) }, b.numbers⟩ }
  else none

/-- The line numbers that `find_line` reads: those in memory, else those that it loads. -/
def line_numbers (d : driver_t) (p : program_t) : Option (List UInt8) :=
  if p.line_info ≠ 0 then d.line_blocks.lookup p.file_info
  else (int_loc p.line_swap_index).map fun loc => (swap_in d.swapper.state (some loc)).2

/-- `remove_line_swap`, on a program whose line numbers are on file. The block
that it loads to get the size is freed by the caller. -/
def remove_line_swap (d : driver_t) (p : program_t) : Option driver_t :=
  match int_loc p.line_swap_index with
  | none => some d
  | some loc => (line_numbers d p).map fun info =>
    { d with swapper := give_back d.swapper loc (file_info_at info 0) }

/-! ## Freeing of programs -/

def reference_prog (d : driver_t) (prog : word) : Option driver_t := do
  let b ← d.programs.lookup prog
  return { d with
    programs := d.programs.insert prog ⟨{ b.prog with ref := b.prog.ref + 1 }, b.numbers⟩ }

/-- `free_prog` is the one that frees the inherited programs. -/
def deallocate_program (free_prog : driver_t → word → Option driver_t) (d : driver_t)
    (prog : word) (b : prog_block) : Option driver_t := do
  let d ← (inherit_progs prog b.prog).foldlM free_prog
    { d with programs := d.programs.erase prog }
  let d ← remove_line_swap d b.prog
  if b.prog.file_info ≠ 0 then
    return { d with line_blocks := d.line_blocks.erase b.prog.file_info }
  else return d

/-- `free_prog (prog, 1)`; the fuel bounds the depth of the inheritance. -/
def free_prog : Nat → driver_t → word → Option driver_t
  | 0, _, _ => none
  | fuel + 1, d, prog => do
    let b ← d.programs.lookup prog
    let b := ⟨{ b.prog with ref := b.prog.ref - 1 }, b.numbers⟩
    if b.prog.ref ≠ 0 ∨ b.prog.func_ref ≠ 0 then
      return { d with programs := d.programs.insert prog b }
    else deallocate_program (free_prog fuel) d prog b

/-- No chain of inherits is longer than the number of programs. -/
def depth (d : driver_t) : Nat := d.programs.keys.length

/-- The programs that are inherited, as `search_inherited` goes through them. -/
def inherited (d : driver_t) : Nat → word → List word
  | 0, _ => []
  | fuel + 1, prog =>
    match d.programs.lookup prog with
    | none => []
    | some b => (inherit_progs prog b.prog).flatMap fun x => x :: inherited d fuel x

/-! ## Swapping of programs -/

/-- The tests of `swap` before it swaps. -/
def Refused (ob : object_t) (p : program_t) : Prop :=
  (ob.O_HEART_BEAT ∨ ob.O_CLONE) ∨ (1 < p.ref.toNat ∨ ob.interactive) ∨ 0 < p.func_ref.toNat

instance (ob : object_t) (p : program_t) : Decidable (Refused ob p) :=
  inferInstanceAs (Decidable ((_ ∨ _) ∨ (_ ∨ _) ∨ _))

/-- Its callers have tested `O_SWAPPED`. -/
def swap (time_to_swap : Int) (io_lines io : IoResult) (d : driver_t) (ob : Nat) :
    Option driver_t := do
  let o ← d.objects.lookup ob
  if o.O_SWAPPED then none
  if d.simul_efun_ob = some ob then return d
  if o.O_DESTRUCTED then return d
  let d ← swap_line_numbers time_to_swap io_lines d o.prog
  let b ← d.programs.lookup o.prog
  if Refused o b.prog then return d
  let p := locate_out o.prog b.prog
  let block ← image p
  match out time_to_swap io d.swapper block o.swap_num with
  | (true, swap_num, w) =>
    let ref := p.ref - 1
    return { d with
      swapper := w
      -- `free_prog (ob->prog, 0)`
      programs :=
        if ref ≠ 0 then d.programs.insert o.prog ⟨{ p with ref }, b.numbers⟩
        else d.programs.erase o.prog
      objects := d.objects.insert ob { o with
        prog := 0
        swap_num
        O_SWAPPED := true
        saved := some ⟨o.prog, b.prog, b.numbers⟩ } }
  | (false, swap_num, w) =>
    return { d with swapper := w, objects := d.objects.insert ob { o with swap_num } }

/-- `start` is the block that `swap_in` allocates. -/
def load_ob_from_swap (d : driver_t) (ob : Nat) (start : word) : Option driver_t := do
  let o ← d.objects.lookup ob
  let loc ← o.swap_num
  let (size, l) := swap_in d.swapper.state (some loc)
  let p ← of_bytes l
  if Fresh d start size then
    return { d with
      programs := d.programs.insert start ⟨locate_in start p, (o.saved.map (·.numbers)).getD []⟩
      objects := d.objects.insert ob { o with prog := start, O_SWAPPED := false } }
  else none

def remove_swap_file (d : driver_t) (ob : Nat) (start : word) : Option driver_t := do
  let o ← d.objects.lookup ob
  let d ← (if o.O_SWAPPED then load_ob_from_swap d ob start else some d)
  let o ← d.objects.lookup ob
  let b ← d.programs.lookup o.prog
  let loc ← o.swap_num
  return { d with
    swapper := give_back d.swapper loc b.prog.total_size.toNat
    objects := d.objects.insert ob { o with swap_num := none } }

/-- The body of the loop in `replace_programs`, for an object that is loaded. -/
def replace_program (d : driver_t) (ob : Nat) (new_prog : word) : Option driver_t := do
  let o ← d.objects.lookup ob
  if o.O_SWAPPED ∨ new_prog ∉ inherited d (depth d) o.prog then none
  let d ← reference_prog d new_prog
  free_prog (depth d) { d with objects := d.objects.insert ob { o with prog := new_prog } } o.prog

def dealloc_object (d : driver_t) (ob : Nat) (start : word) : Option driver_t := do
  let o ← d.objects.lookup ob
  if o.O_DESTRUCTED = false then none
  let d ← (if o.swap_num ≠ none then remove_swap_file d ob start else some d)
  let o ← d.objects.lookup ob
  free_prog (depth d) { d with objects := d.objects.erase ob } o.prog

/-! ## Compiling and cloning -/

/-- Where the block of a program may lie, and what it is. -/
structure Placed (start : word) (p : program_t) : Prop where
  size : p.total_size.toNat = SIZEOF_PROGRAM_T + p.tables.length
  int : p.total_size.toNat + SIZEOF_INT < 2147483648
  null : start ≠ 0
  room : start.toNat + p.total_size.toNat < 4294967296
  types : p.type_start ≠ 0 → p.type_start ≠ start ∧ (p.type_start - start).toNat < p.total_size.toNat

instance (start : word) (p : program_t) : Decidable (Placed start p) :=
  decidable_of_iff (_ ∧ _ ∧ _ ∧ _ ∧ _)
    ⟨fun h => ⟨h.1, h.2.1, h.2.2.1, h.2.2.2.1, h.2.2.2.2⟩,
      fun h => ⟨h.size, h.int, h.null, h.room, h.types⟩⟩

/-- The block of line numbers that `epilog` makes: its size, as far as a short
can hold it, and the place of the line numbers in it. -/
def Numbers (info : List UInt8) : Prop :=
  file_info_at info 0 = info.length % 65536 ∧ 2 * file_info_at info 1 ≤ info.length

instance (info : List UInt8) : Decidable (Numbers info) := inferInstanceAs (Decidable (_ ∧ _))

/-- What `epilog` makes is taken as it is; the driver gets it in memory. -/
def load_object (time_to_swap : Int) (io : IoResult) (d : driver_t) (ob : Nat) (start : word)
    (p : program_t) (file_info : word) (info : List UInt8) : Option driver_t := do
  if (d.objects.lookup ob).isSome then none
  if ¬ Fresh d start p.total_size.toNat ∨ ¬ Fresh d file_info info.length ∨ file_info = start ∨
      ¬ Placed start p ∨ ¬ Numbers info ∨
      (inherit_progs start p).any (fun x => (d.programs.lookup x).isNone) then none
  let p := { p with
    ref := 1
    func_ref := 0
    line_swap_index := -1
    file_info
    line_info := file_info + .ofNat 32 (2 * file_info_at info 1) }
  let d := { d with
    programs := d.programs.insert start ⟨p, info⟩
    line_blocks := d.line_blocks.insert file_info info }
  let d ← swap_line_numbers time_to_swap io d start
  let d ← (inherit_progs start p).foldlM reference_prog d
  return { d with objects := d.objects.insert ob ⟨start, none, false, false, false, false, false, none⟩ }

def clone_object (d : driver_t) (ob new_ob : Nat) : Option driver_t := do
  let o ← d.objects.lookup ob
  if o.O_SWAPPED ∨ (d.objects.lookup new_ob).isSome then none
  let d ← reference_prog d o.prog
  return { d with
    objects := d.objects.insert new_ob ⟨o.prog, none, false, false, false, true, false, none⟩ }

/-! ## Function pointers -/

/-- `make_functional_funp` in a function of the program. -/
def make_functional_funp (d : driver_t) (prog : word) : Option driver_t := do
  let b ← d.programs.lookup prog
  return { d with
    programs := d.programs.insert prog ⟨{ b.prog with func_ref := b.prog.func_ref + 1 }, b.numbers⟩ }

def dealloc_funp (d : driver_t) (prog : word) : Option driver_t := do
  let b ← d.programs.lookup prog
  if b.prog.func_ref = 0 then none
  let b := ⟨{ b.prog with func_ref := b.prog.func_ref - 1 }, b.numbers⟩
  if b.prog.func_ref = 0 ∧ b.prog.ref = 0 then
    deallocate_program (free_prog (depth d)) d prog b
  else return { d with programs := d.programs.insert prog b }

/-! ## Runs -/

inductive action_t
  | load_object (io : IoResult) (ob : Nat) (start : word) (p : program_t) (file_info : word)
      (info : List UInt8)
  | clone_object (ob new_ob : Nat)
  | swap (io_lines io : IoResult) (ob : Nat)
  | load_ob_from_swap (ob : Nat) (start : word)
  | replace_program (ob : Nat) (new_prog : word)
  | swap_line_numbers (io : IoResult) (prog : word)
  | load_line_numbers (prog file_info : word)
  | make_functional_funp (prog : word)
  | dealloc_funp (prog : word)
  /-- The object is loaded first. -/
  | destruct_object (ob : Nat)
  | dealloc_object (ob : Nat) (start : word)
  /-- The heart beat or the user of an object comes or goes. -/
  | set_flags (ob : Nat) (O_HEART_BEAT interactive : Bool)
  | set_simul_efun (ob : Option Nat)

def step (time_to_swap : Int) (d : driver_t) : action_t → Option driver_t
  | .load_object io ob start p file_info info =>
    load_object time_to_swap io d ob start p file_info info
  | .clone_object ob new_ob => clone_object d ob new_ob
  | .swap io_lines io ob => swap time_to_swap io_lines io d ob
  | .load_ob_from_swap ob start =>
    (d.objects.lookup ob).bind fun o =>
      if o.O_SWAPPED then load_ob_from_swap d ob start else none
  | .replace_program ob new_prog => replace_program d ob new_prog
  | .swap_line_numbers io prog => swap_line_numbers time_to_swap io d prog
  | .load_line_numbers prog file_info => load_line_numbers d prog file_info
  | .make_functional_funp prog => make_functional_funp d prog
  | .dealloc_funp prog => dealloc_funp d prog
  | .destruct_object ob =>
    (d.objects.lookup ob).bind fun o =>
      if o.O_SWAPPED then none
      else some { d with objects := d.objects.insert ob { o with O_DESTRUCTED := true } }
  | .dealloc_object ob start => dealloc_object d ob start
  | .set_flags ob O_HEART_BEAT interactive =>
    (d.objects.lookup ob).map fun o =>
      { d with objects := d.objects.insert ob { o with O_HEART_BEAT, interactive } }
  | .set_simul_efun ob => some { d with simul_efun_ob := ob }

def start : driver_t := ⟨Swapper.start, ∅, ∅, ∅, none⟩

end mudos.program_swap

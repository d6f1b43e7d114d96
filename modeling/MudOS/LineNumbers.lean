-- The line numbers of a program: the lines that `lex.c` counts over the files
-- of the program, the two tables that the compiler writes (`save_file_info`
-- for the files, `switch_to_line` for the code), and `find_line`, which reads
-- both of them for an address.
import MudOS.Library.RunLengths
import MudOS.Library.Runs

open mudos.run_lengths

namespace mudos.line_numbers

/-! ## The compiler -/

/-- The value that a `short` holds. -/
def int16 (x : Int) : Int := (x + 32768) % 65536 - 32768

/-- The value that an `unsigned short` holds. -/
def uint16 (x : Int) : Int := x % 65536

/-- A node of the parse tree. Its line counts the lines of all files; the other fields are
where the node is from. -/
structure parse_node_t where
  line : Int
  file_id : Nat
  /-- The line in that file. -/
  file_line : Int
  /-- The lines of the same file that were counted before, when the file was included
  another time. -/
  others : Int
deriving DecidableEq, Repr

/-- The file that waits for the end of an include file. -/
structure incstate_t where
  line : Int
  file_id : Nat
deriving DecidableEq, Repr

inductive block_name
  | A_PROGRAM
  | A_INITIALIZER
deriving DecidableEq, Repr

/-- An instruction: the address after it, the block it is generated in, the node whose line
was switched to last, and the node of the last switch that the line table knows of. -/
structure instruction_t where
  address : Int
  block : block_name
  node : Option parse_node_t
  told : Option parse_node_t
deriving DecidableEq, Repr

/-- The code of a block, newest instruction first. -/
structure mem_block_t where
  current_size : Int
  code : List instruction_t

structure compiler_t where
  current_line : Int
  current_line_base : Int
  current_line_saved : Int
  /-- A file is its name, the place of which in the strings of the program is its id. -/
  current_file_id : Nat
  inctop : List incstate_t
  /-- `A_FILE_INFO`: how many lines, of which file. -/
  file_info : List (Int × Nat)
  nodes : List parse_node_t
  current_block : block_name
  program : mem_block_t
  initializer : mem_block_t
  push_state : Nat
  push_start : Int
  line_being_generated : Int
  last_size_generated : Int
  /-- `A_LINENUMBERS`: how many bytes of code, for which line. -/
  line_info : List (Int × Int)
  /-- The nodes of the last switch in each of the blocks. -/
  node_of_program : Option parse_node_t
  node_of_initializer : Option parse_node_t
  finished : Bool

/-- The lines of a file that the table of files counts. -/
def lines_of (file_info : List (Int × Nat)) (file_id : Nat) : Int :=
  total (file_info.filter fun fi => fi.2 == file_id)

def save_file_info (s : compiler_t) (file_id : Nat) (lines : Int) : compiler_t :=
  { s with file_info := s.file_info ++ [(uint16 lines, file_id)] }

/-! ## Lines of the source -/

def newline (s : compiler_t) : compiler_t := { s with current_line := s.current_line + 1 }

/-- `handle_include`, when the file opens. -/
def handle_include (s : compiler_t) (file_id : Nat) : compiler_t :=
  let is : incstate_t := ⟨s.current_line, s.current_file_id⟩
  let s := { s with inctop := is :: s.inctop, current_line := s.current_line - 1 }
  let s := save_file_info s s.current_file_id (s.current_line - s.current_line_saved)
  { s with
    current_line_base := s.current_line_base + s.current_line
    current_line_saved := 0
    current_line := 1
    current_file_id := file_id }

/-- `LEX_EOF` in an include file. -/
def end_of_file (s : compiler_t) : Option compiler_t :=
  match s.inctop with
  | [] => none
  | p :: next =>
    let s := save_file_info s s.current_file_id (s.current_line - s.current_line_saved)
    let s := { s with current_line_saved := p.line - 1 }
    some
      { s with
        current_line_base := s.current_line_base + (s.current_line - s.current_line_saved)
        current_file_id := p.file_id
        current_line := p.line
        inctop := next }

def new_node (s : compiler_t) : compiler_t :=
  let node : parse_node_t :=
    { line := s.current_line_base + s.current_line
      file_id := s.current_file_id
      file_line := s.current_line
      others := lines_of s.file_info s.current_file_id - s.current_line_saved }
  { s with nodes := s.nodes ++ [node] }

/-! ## Lines of the code -/

/-- The entries for `sz` bytes of code, in chunks of at most 255. -/
def line_chunks (line : Int) : (fuel : Nat) → (sz : Int) → List (Int × Int)
  | 0, sz => [(sz, int16 line)]
  | fuel + 1, sz =>
    if sz > 255 then (255, int16 line) :: line_chunks line fuel (sz - 255)
    else [(sz, int16 line)]

def switch_to_line (s : compiler_t) (line : Int) : compiler_t :=
  match s.current_block with
  | .A_INITIALIZER => s
  | .A_PROGRAM =>
    let sz := s.program.current_size - s.last_size_generated
    let s :=
      if sz ≠ 0 then
        { s with
          last_size_generated := s.last_size_generated + sz
          line_info := s.line_info ++ line_chunks s.line_being_generated sz.toNat sz }
      else s
    { s with line_being_generated := line }

/-- The head of `i_generate_node`, on a node with a line. -/
def i_generate_node (s : compiler_t) (node : parse_node_t) : compiler_t :=
  let s := if node.line ≠ s.line_being_generated then switch_to_line s node.line else s
  match s.current_block with
  | .A_PROGRAM => { s with node_of_program := some node }
  | .A_INITIALIZER => { s with node_of_initializer := some node }

def current (s : compiler_t) : mem_block_t :=
  match s.current_block with
  | .A_PROGRAM => s.program
  | .A_INITIALIZER => s.initializer

def set_current (s : compiler_t) (b : mem_block_t) : compiler_t :=
  match s.current_block with
  | .A_PROGRAM => { s with program := b }
  | .A_INITIALIZER => { s with initializer := b }

/-- The instruction that ends at an address of the current block. -/
def instruction (s : compiler_t) (address : Int) : instruction_t where
  address
  block := s.current_block
  node :=
    match s.current_block with
    | .A_PROGRAM => s.node_of_program
    | .A_INITIALIZER => s.node_of_initializer
  told :=
    match s.current_block with
    | .A_PROGRAM => s.node_of_program
    | .A_INITIALIZER => none

/-- `sz` bytes of code. The code generator writes some bytes by itself (the tables of a
`switch`, the calls of inherited initializers), which are from no node. -/
def ins_bytes (s : compiler_t) (sz : Nat) (from_node : Bool) : compiler_t :=
  let b := current s
  let size := b.current_size + sz
  let code := if from_node then instruction s size :: b.code else b.code
  { set_current s ⟨size, code⟩ with push_state := 0 }

/-- `try_to_push` of a value that fits. The second push in a row goes back to the first
one, and makes an `F_PUSH` of the two, to which the next ones add a byte each. -/
def try_to_push (s : compiler_t) (constant : Bool) : compiler_t :=
  let b := current s
  if s.push_state = 0 then
    let size := b.current_size + (if constant then 1 else 2)
    { set_current s ⟨size, instruction s size :: b.code⟩ with
      push_state := 1
      push_start := b.current_size }
  else
    let start := if s.push_state = 1 then s.push_start + 1 else s.push_start
    let size := (if s.push_state = 1 then s.push_start + 3 else b.current_size) + 1
    { set_current s ⟨size, instruction s size :: b.code.tail⟩ with
      push_state := if s.push_state + 1 = 255 then 0 else s.push_state + 1
      push_start := start }

/-- The code of an initializer, and that of a function, ends its pushes. -/
def switch_to_block (s : compiler_t) (block : block_name) : compiler_t :=
  { s with current_block := block, node_of_initializer := none }

/-- `i_generate___INIT`: the initializers go behind the functions. -/
def i_generate___INIT (s : compiler_t) : compiler_t :=
  let moved := s.initializer.code.map fun i =>
    { i with address := i.address + s.program.current_size, told := s.node_of_program }
  { s with
    program :=
      ⟨s.program.current_size + s.initializer.current_size, moved ++ s.program.code⟩ }

def generate_final_program (s : compiler_t) : compiler_t :=
  let s := save_file_info s s.current_file_id (s.current_line - s.current_line_saved)
  { switch_to_line s (-1) with finished := true }

/-! ## `find_line` -/

/-- The file of an absolute line, and the line in it. -/
def translate_absolute_line (abs_line : Int) (file_info : List (Int × Nat)) : Option (Nat × Int) :=
  (seek file_info abs_line).map fun (before, p1, line_tmp) =>
    (p1.2, line_tmp + lines_of before p1.2)

def find_line (s : compiler_t) (offset : Int) : Option (Nat × Int) :=
  (seek s.line_info offset).bind fun (_, lns, _) => translate_absolute_line lns.2 s.file_info

/-! ## The steps -/

inductive Action
  | newline
  | include_file (file_id : Nat)
  | end_of_file
  | new_node
  | i_generate_node (n : Nat)
  | ins_bytes (sz : Nat) (from_node : Bool)
  | try_to_push (constant : Bool)
  | switch_to_block (block : block_name)
  | epilog
deriving DecidableEq, Repr

/-- What the parser and the code generator do, one thing at a time, until the program is
done. The line of an `#include` ends before the file is read. -/
def step (s : compiler_t) (a : Action) : Option compiler_t :=
  if s.finished then none
  else
    match a with
    | .newline => some (newline s)
    | .include_file file_id => some (handle_include (newline s) file_id)
    | .end_of_file => end_of_file s
    | .new_node => some (new_node s)
    | .i_generate_node n => s.nodes[n]?.map (i_generate_node s)
    | .ins_bytes sz from_node => if sz = 0 then none else some (ins_bytes s sz from_node)
    | .try_to_push constant => some (try_to_push s constant)
    | .switch_to_block block => if s.push_state = 0 then some (switch_to_block s block) else none
    | .epilog =>
      if s.current_block = .A_PROGRAM ∧ s.push_state = 0 then
        some (generate_final_program (i_generate___INIT s))
      else none

def no_code : mem_block_t := ⟨0, []⟩

/-- `start_new_file` and `i_initialize_parser`. -/
def start_new_file (file_id : Nat) : compiler_t where
  current_line := 1
  current_line_base := 0
  current_line_saved := 0
  current_file_id := file_id
  inctop := []
  file_info := []
  nodes := []
  current_block := .A_PROGRAM
  program := no_code
  initializer := no_code
  push_state := 0
  push_start := 0
  line_being_generated := 0
  last_size_generated := 0
  line_info := []
  node_of_program := none
  node_of_initializer := none
  finished := false

/-- The driver may be told to include one file before all others. -/
def start (file_id : Nat) (GLOBAL_INCLUDE_FILE : Option Nat) : compiler_t :=
  match GLOBAL_INCLUDE_FILE with
  | none => start_new_file file_id
  | some gifile => handle_include (start_new_file file_id) gifile

end mudos.line_numbers

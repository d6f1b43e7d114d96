-- The local names of the compiler: the three arrays of `compiler.c` with their
-- pointers and counters, and what the rules of the grammar do to them while
-- functions, blocks and anonymous functions open and close.
import MudOS.Library.Runs
import Mathlib.Logic.Function.Basic

namespace mudos.local_names

/-! ## The arrays -/

abbrev CFG_MAX_LOCAL_VARIABLES : Nat := 25

abbrev TYPE_ANY : Nat := 1

structure ident_hash_elem_t where
  local_num : Int
  sem_value : Int
deriving DecidableEq

inductive frame_t
  /-- Names that were declared in a block, so far. -/
  | block (num : Nat)
  /-- The `func_block` of an anonymous function. `outer` is not in the source: it is what
  each name meant before the function. -/
  | func (num_local max_num_locals : Int) (outer : Nat → Option (Int × Nat))

/-- The arrays as memory that is read and written at offsets, with what is allocated. -/
structure compiler_t where
  type_of_locals : Int → Nat
  /-- An identifier is known by its name. -/
  locals : Int → Nat
  runtime_locals : Int → Int
  type_of_locals_size : Int
  locals_size : Int
  type_of_locals_ptr : Int
  locals_ptr : Int
  runtime_locals_ptr : Int
  current_number_of_locals : Int
  max_num_locals : Int
  idents : Nat → ident_hash_elem_t
  frames : List frame_t
  /-- An entry outside one of the arrays has been used. -/
  outside : Bool
  /-- What the other meanings of each name add to its `sem_value`. -/
  others : Nat → Int
  /-- How often each name has been reactivated. -/
  reactivated : Nat → Nat

/-- `init_locals`, with the meanings that names have already. -/
def init_locals (others : Nat → Int) : compiler_t where
  type_of_locals _ := 0
  locals _ := 0
  runtime_locals _ := 0
  type_of_locals_size := CFG_MAX_LOCAL_VARIABLES
  locals_size := CFG_MAX_LOCAL_VARIABLES
  type_of_locals_ptr := 0
  locals_ptr := 0
  runtime_locals_ptr := 0
  current_number_of_locals := 0
  max_num_locals := 0
  idents name := ⟨-1, others name⟩
  frames := []
  outside := false
  others := others
  reactivated _ := 0

/-- The offset is not one of an array of the size. -/
def off (i size : Int) : Bool := i < 0 || size ≤ i

/-- The offsets from `a` on, `n` of them. -/
def offsets (a : Int) (n : Nat) : List Int := (List.range n).map fun i : Nat => a + i

/-- What a name means: the index of the local and its type. -/
def lookup (s : compiler_t) (name : Nat) : Option (Int × Nat) :=
  let i := (s.idents name).local_num
  if i = -1 then none else some (i, s.type_of_locals (s.type_of_locals_ptr + i))

/-! ## The functions -/

/-- `sem_value--` and `local_num = -1` for the identifier at an offset. -/
def free_local (s : compiler_t) (p : Int) : compiler_t :=
  let ihe := s.idents (s.locals p)
  { s with
    idents := Function.update s.idents (s.locals p) ⟨-1, ihe.sem_value - 1⟩
    outside := s.outside || off p s.locals_size }

def free_all_local_names (s : compiler_t) : compiler_t :=
  let s := (offsets s.locals_ptr s.current_number_of_locals.toNat).foldl free_local s
  { s with
    current_number_of_locals := 0
    max_num_locals := 0 }

/-- `deactivate_current_locals` at the offset of one local. -/
def deactivate_local (s : compiler_t) (i : Int) : compiler_t :=
  let name := s.locals (s.locals_ptr + i)
  let ihe := s.idents name
  { s with
    runtime_locals :=
      Function.update s.runtime_locals (s.runtime_locals_ptr + i) ihe.local_num
    idents := Function.update s.idents name { ihe with local_num := -1 }
    outside := s.outside || off (s.locals_ptr + i) s.locals_size ||
      off (s.runtime_locals_ptr + i) s.locals_size }

def deactivate_current_locals (s : compiler_t) : compiler_t :=
  (offsets 0 s.current_number_of_locals.toNat).foldl deactivate_local s

/-- `reactivate_current_locals` at the offset of one local. -/
def reactivate_local (s : compiler_t) (i : Int) : compiler_t :=
  let name := s.locals (s.locals_ptr + i)
  let ihe := s.idents name
  { s with
    idents := Function.update s.idents name
      ⟨s.runtime_locals (s.runtime_locals_ptr + i), ihe.sem_value + 1⟩
    outside := s.outside || off (s.locals_ptr + i) s.locals_size ||
      off (s.runtime_locals_ptr + i) s.locals_size
    reactivated := Function.update s.reactivated name (s.reactivated name + 1) }

def reactivate_current_locals (s : compiler_t) : compiler_t :=
  (offsets 0 s.current_number_of_locals.toNat).foldl reactivate_local s

def clean_up_locals (s : compiler_t) : compiler_t :=
  let offset := s.locals_ptr + s.current_number_of_locals
  let s := (offsets 0 offset.toNat).reverse.foldl free_local s
  { s with
    current_number_of_locals := 0
    max_num_locals := 0
    locals_ptr := 0
    type_of_locals_ptr := 0
    runtime_locals_ptr := 0 }

def pop_n_locals (s : compiler_t) (num : Nat) : compiler_t :=
  let top := s.locals_ptr + s.current_number_of_locals
  let s := (offsets (top - num) num).reverse.foldl free_local s
  { s with current_number_of_locals := s.current_number_of_locals - num }

/-- "Too many local variables" leaves all as it is. -/
def add_local_name (s : compiler_t) (name type : Nat) : compiler_t :=
  if s.max_num_locals = CFG_MAX_LOCAL_VARIABLES then s
  else
    let ihe := s.idents name
    let type_at := s.type_of_locals_ptr + s.max_num_locals
    let local_at := s.locals_ptr + s.current_number_of_locals
    { s with
      type_of_locals := Function.update s.type_of_locals type_at type
      locals := Function.update s.locals local_at name
      current_number_of_locals := s.current_number_of_locals + 1
      max_num_locals := s.max_num_locals + 1
      idents := Function.update s.idents name
        ⟨s.max_num_locals, if ihe.local_num = -1 then ihe.sem_value + 1 else ihe.sem_value⟩
      outside := s.outside || off type_at s.type_of_locals_size || off local_at s.locals_size }

/-- `locals` and `runtime_locals` are allocated again with the size that they have. -/
def reallocate_locals (s : compiler_t) : compiler_t :=
  { s with type_of_locals_size := s.type_of_locals_size + CFG_MAX_LOCAL_VARIABLES }

/-! ## The grammar -/

/-- One more name is declared in the block that is open, if the innermost is one. The
names of a function's own block and of its arguments are not counted. -/
def count_local : List frame_t → List frame_t
  | .block num :: frames => .block (num + 1) :: frames
  | frames => frames

/-- `L_BASIC_TYPE` as an expression, up to its arguments. -/
def open_function (s : compiler_t) : compiler_t :=
  let frame := .func s.current_number_of_locals s.max_num_locals (lookup s)
  let s :=
    if s.type_of_locals_ptr + s.max_num_locals + CFG_MAX_LOCAL_VARIABLES ≥ s.type_of_locals_size then
      reallocate_locals s
    else s
  let s := deactivate_current_locals s
  { s with
    locals_ptr := s.locals_ptr + s.current_number_of_locals
    type_of_locals_ptr := s.type_of_locals_ptr + s.max_num_locals
    runtime_locals_ptr := s.runtime_locals_ptr + s.current_number_of_locals
    max_num_locals := 0
    current_number_of_locals := 0
    frames := frame :: s.frames }

def close_function (s : compiler_t) (num_local max_num_locals : Int) : compiler_t :=
  let s := free_all_local_names s
  reactivate_current_locals
    { s with
      current_number_of_locals := num_local
      max_num_locals := max_num_locals
      locals_ptr := s.locals_ptr - num_local
      type_of_locals_ptr := s.type_of_locals_ptr - max_num_locals
      runtime_locals_ptr := s.runtime_locals_ptr - num_local }

inductive action_t
  /-- An argument, a local variable or a member of a class. -/
  | declare (name type : Nat)
  /-- "Undefined variable", which becomes a local that no block counts. -/
  | undefined (name : Nat)
  | open_block
  | close_block
  | open_function
  | close_function
  /-- The end of a function or a class definition. -/
  | end_def
  /-- The recovery from a syntax error leaves what the parser has open. -/
  | recover (num : Nat)
  /-- A name gets or loses another meaning. -/
  | other (name : Nat) (change : Int)
  /-- The end of the file, or of its compilation. -/
  | end_file

/-- `none` when the grammar has no such step. -/
def step (s : compiler_t) : action_t → Option compiler_t
  | .declare name type =>
    some { add_local_name s name type with frames := count_local s.frames }
  | .undefined name =>
    if (s.idents name).local_num ≠ -1 then none
    else if s.current_number_of_locals < CFG_MAX_LOCAL_VARIABLES then
      some (add_local_name s name TYPE_ANY)
    else some s
  | .open_block => some { s with frames := .block 0 :: s.frames }
  | .close_block =>
    match s.frames with
    | .block num :: frames => some { pop_n_locals s num with frames }
    | _ => none
  | .open_function => some (open_function s)
  | .close_function =>
    match s.frames with
    | .func num_local max_num_locals _ :: frames =>
      some { close_function s num_local max_num_locals with frames }
    | _ => none
  | .end_def => if s.frames.isEmpty then some (free_all_local_names s) else none
  | .recover num => some { s with frames := s.frames.drop num }
  | .other name change =>
    some { s with
      idents := Function.update s.idents name
        { s.idents name with sem_value := (s.idents name).sem_value + change }
      others := Function.update s.others name (s.others name + change) }
  | .end_file => some { clean_up_locals s with frames := [] }

end mudos.local_names

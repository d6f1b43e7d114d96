-- `replace_program.c`: an object asks to run one of the programs that its own
-- inherits, and gets it when the execution is over. Its variables move to
-- where that program has them, and the other ones are freed. Function pointers
-- hold indices and offsets of the program that the object had.
import MudOS.Programs

open mudos.program

namespace mudos.replace_program

/-! ## Programs and objects -/

/-- What the program at an address has besides its functions. A name is a text. -/
structure header_t where
  name : List Char
  num_variables_total : Nat

inductive svalue_t
  | const0u
  | value (v : Nat)
deriving DecidableEq, Repr

/-- The program goes with its address, and another object with its address too. -/
structure object_t where
  prog : Nat × program_t
  vars : Nat → svalue_t
  O_SWAPPED : Bool
  O_DESTRUCTED : Bool
  shadowing : Option Nat
  shadowed : Option Nat

/-- A function pointer without its arguments. `prog` of a functional is an address, and
`FP_NOT_BINDABLE` says that its code uses variables or functions of the object. -/
inductive funptr_kind
  | efun (index : Nat)
  | simul (index : Nat)
  | local_ (index : Nat)
  | functional (prog offset fio vio : Nat) (FP_NOT_BINDABLE : Bool)
deriving DecidableEq, Repr

structure funptr_t where
  owner : Nat
  kind : funptr_kind
deriving DecidableEq, Repr

structure replace_ob_t where
  ob : Nat
  new_prog : Nat × program_t
  var_offset : Nat

/-- The driver between two steps. An object has an address, and a function pointer that has
not been deallocated too. `func_ref` is of the program at an address. -/
structure driver where
  objects : Nat → Option object_t
  obj_list_replace : List replace_ob_t
  funps : List (Nat × funptr_t)
  func_ref : Nat → Nat

variable (headers : Nat → header_t)

/-! ## The request -/

mutual

/-- The first program of the name, and the sum of the offsets of its variables. -/
def search_inherited (str : List Char) : program_t → Option ((Nat × program_t) × Nat)
  | .mk _ _ _ _ inherit => search_inherits str inherit

def search_inherits (str : List Char) :
    List (Nat × program_t × Nat × Nat) → Option ((Nat × program_t) × Nat)
  | [] => none
  | (addr, prog, _, variable_index_offset) :: inherit =>
    if str = (headers addr).name then some ((addr, prog), variable_index_offset)
    else
      match search_inherited str prog with
      | some (tmp, offset) => some (tmp, offset + variable_index_offset)
      | none => search_inherits str inherit

end

/-- `name`: with `.c` at the end, and without one `/` at the front. -/
def file_name (str : List Char) : List Char :=
  let name := if str.drop (str.length - 2) = ['.', 'c'] then str else str ++ ['.', 'c']
  if name.head? = some '/' then name.tail else name

def set_entry (entry : replace_ob_t) : List replace_ob_t → Option (List replace_ob_t)
  | [] => none
  | r_ob :: rest =>
    if r_ob.ob = entry.ob then some (entry :: rest) else (set_entry entry rest).map (r_ob :: ·)

def add_entry (entry : replace_ob_t) (list : List replace_ob_t) : List replace_ob_t :=
  (set_entry entry list).getD (entry :: list)

def f_replace_program (simul_efun_ob : Nat) (current_object : Nat) (str : List Char)
    (s : driver) : Except String driver :=
  match s.objects current_object with
  | none => .error "replace_program called with no current object\n"
  | some ob =>
    if current_object = simul_efun_ob then .error "replace_program on simul_efun object\n"
    else if s.func_ref ob.prog.1 ≠ 0 then
      .error "cannot replace a program with function references.\n"
    else
      match search_inherited headers (file_name str) ob.prog.2 with
      | none => .error "program to replace the current with has to be inherited\n"
      | some (new_prog, var_offset) =>
        .ok { s with
          obj_list_replace := add_entry ⟨current_object, new_prog, var_offset⟩ s.obj_list_replace }

/-! ## The replacement -/

/-- The variables, and what has been given to `free_svalue`. -/
abbrev moved_t := (Nat → svalue_t) × List svalue_t

/-- `free_svalue(svp); *svp = *(svp + offset); *(svp + offset) = const0u;` -/
def move_up (offset : Nat) (m : moved_t) (i : Nat) : moved_t :=
  (Function.update (Function.update m.1 i (m.1 (i + offset))) (i + offset) .const0u, m.2 ++ [m.1 i])

/-- `free_svalue(svp); *svp++ = const0u;` -/
def free_one (m : moved_t) (i : Nat) : moved_t :=
  (Function.update m.1 i .const0u, m.2 ++ [m.1 i])

def replace_variables (num num_fewer offset : Nat) (vars : Nat → svalue_t) : moved_t :=
  let moved :=
    if offset ≠ 0 then (List.range num).foldl (move_up offset) (vars, []) else (vars, [])
  (List.range' num num_fewer).foldl free_one moved

def set_object (objects : Nat → Option object_t) (addr : Nat) (f : object_t → object_t) :
    Nat → Option object_t :=
  fun a => if a = addr then (objects a).map f else objects a

def set_shadowed (ob : Nat) (p : Option Nat) (objects : Nat → Option object_t) :
    Nat → Option object_t :=
  set_object objects ob fun o => { o with shadowed := p }

def set_shadowing (ob : Nat) (p : Option Nat) (objects : Nat → Option object_t) :
    Nat → Option object_t :=
  set_object objects ob fun o => { o with shadowing := p }

/-- `shadowing` and `shadowed` of the object go to each other. -/
def unlink (ob : Nat) (o : object_t) (objects : Nat → Option object_t) : Nat → Option object_t :=
  let objects :=
    match o.shadowing with
    | none => objects
    | some below => set_shadowed below o.shadowed objects
  let objects :=
    match o.shadowed with
    | none => objects
    | some above => set_shadowing above o.shadowing objects
  set_shadowing ob none (set_shadowed ob none objects)

def stop_shadowing (ob : Nat) (objects : Nat → Option object_t) : Nat → Option object_t :=
  match objects ob with
  | none => objects
  | some o => if o.shadowing.isSome then unlink ob o objects else objects

def replaced (r_ob : replace_ob_t) (o : object_t) : object_t :=
  let num := (headers r_ob.new_prog.1).num_variables_total
  let num_fewer := (headers o.prog.1).num_variables_total - num
  { o with
    O_SWAPPED := false
    vars := (replace_variables num num_fewer r_ob.var_offset o.vars).1
    prog := r_ob.new_prog }

def freed (r_ob : replace_ob_t) (o : object_t) : List svalue_t :=
  let num := (headers r_ob.new_prog.1).num_variables_total
  let num_fewer := (headers o.prog.1).num_variables_total - num
  (replace_variables num num_fewer r_ob.var_offset o.vars).2

/-- `replace_programs`, and what is freed for each entry of the list. -/
def replace_programs :
    List replace_ob_t → (Nat → Option object_t) → (Nat → Option object_t) × List (List svalue_t)
  | [], objects => (objects, [])
  | r_ob :: r_next, objects =>
    let next := stop_shadowing r_ob.ob (set_object objects r_ob.ob (replaced headers r_ob))
    let rest := replace_programs r_next next
    (rest.1, ((objects r_ob.ob).map (freed headers r_ob)).getD [] :: rest.2)

/-! ## Function pointers -/

/-- `func_ref` is an `unsigned short`. -/
def count_ref (f : funptr_t) (d : Nat) (func_ref : Nat → Nat) : Nat → Nat :=
  match f.kind with
  | .functional prog _ _ _ _ => Function.update func_ref prog ((func_ref prog + d) % 65536)
  | _ => func_ref

inductive called_t
  | efun (index : Nat)
  | simul_efun (index : Nat)
  | frame (func : found_t)
  | functional (prog offset fio vio : Nat) (FP_NOT_BINDABLE : Bool)

inductive call_error
  | owner_is_destructed
  | undefined_function

/-- `call_function_pointer`, as far as the object and its program have a part in it. There
is no result when it reads outside the tables of the program. -/
def call_function_pointer (objects : Nat → Option object_t) (funp : funptr_t) :
    Option (Except call_error called_t) :=
  match objects funp.owner with
  | none => none
  | some o =>
    if o.O_DESTRUCTED then some (.error .owner_is_destructed)
    else
      match funp.kind with
      | .efun index => some (.ok (.efun index))
      | .simul index => some (.ok (.simul_efun index))
      | .local_ index =>
        match o.prog.2.function_flags[index]? with
        | none => none
        | some flags =>
          if flags.UNDEFINED then some (.error .undefined_function)
          else (setup_new_frame o.prog.1 o.prog.2 index).map fun func => .ok (.frame func)
      | .functional prog offset fio vio nb => some (.ok (.functional prog offset fio vio nb))

/-! ## The layout of the variables -/

mutual

/-- The variables of what is inherited come first, one block after the other, and the ones
that the program defines come last. -/
def laid_out (addr : Nat) : program_t → Bool
  | .mk _ _ _ _ inherit => laid_out_from (headers addr).num_variables_total 0 inherit

def laid_out_from (num_variables_total : Nat) :
    (first : Nat) → List (Nat × program_t × Nat × Nat) → Bool
  | first, [] => first ≤ num_variables_total
  | first, (addr, prog, _, variable_index_offset) :: inherit =>
    variable_index_offset = first && laid_out addr prog &&
      laid_out_from num_variables_total (first + (headers addr).num_variables_total) inherit

end

/-! ## The driver -/

/-- What can happen. A frame that makes a function pointer has its offsets, and `dead` are
the function pointers that go with the values that are freed. -/
inductive action
  | load (ob addr : Nat) (prog : program_t)
  | assign (ob i : Nat) (v : svalue_t)
  | make_lfun_funp (fp current_object function_index_offset index : Nat)
  | make_efun_funp (fp current_object index : Nat)
  | make_simul_funp (fp current_object index : Nat)
  | make_functional_funp (fp current_object current_prog offset : Nat)
      (function_index_offset variable_index_offset : Nat) (FP_NOT_BINDABLE : Bool)
  | bind (fp old ob : Nat)
  | dealloc_funp (fp : Nat)
  | swap (ob : Nat)
  | load_ob_from_swap (ob : Nat)
  | shadow (current_object ob : Nat)
  | destruct (ob : Nat)
  | f_replace_program (current_object : Nat) (str : List Char)
  | replace_programs (dead : List Nat)

/-- A function pointer at an address where none is. -/
def add_funp (fp : Nat) (f : funptr_t) (s : driver) : Option driver :=
  if s.funps.any fun e => e.1 = fp then none
  else some { s with funps := (fp, f) :: s.funps, func_ref := count_ref f 1 s.func_ref }

def remove_funp (fp : Nat) (s : driver) : driver :=
  match s.funps.find? fun e => e.1 = fp with
  | none => s
  | some e =>
    { s with
      funps := s.funps.filter fun e => e.1 ≠ fp
      func_ref := count_ref e.2 65535 s.func_ref }

/-- `f_bind`: only what does not use the object's own program gets another owner. -/
def f_bind (fp : Nat) (f : funptr_t) (ob : Nat) (s : driver) : Option driver :=
  match f.kind with
  | .local_ _ => none
  | .functional _ _ _ _ true => none
  | kind => add_funp fp ⟨ob, kind⟩ s

/-- The end of `f_shadow`, where `ob` is the object that no other one shadows, and the rules
of `validate_shadowing` that are about the list. -/
def f_shadow (current_object ob : Nat) (s : driver) : Option driver :=
  match s.objects current_object, s.objects ob with
  | some current, some below =>
    if current_object ≠ ob ∧ current.shadowing = none ∧ current.shadowed = none ∧
        below.shadowed = none then
      some { s with
        objects :=
          set_shadowed ob (some current_object)
            (set_shadowing current_object (some ob) s.objects) }
    else none
  | _, _ => none

/-- The objects that shadow the first one of a list are destructed before it, each by a step
of its own. -/
def destruct_object (ob : Nat) (objects : Nat → Option object_t) : Nat → Option object_t :=
  match objects ob with
  | none => objects
  | some o => set_object (unlink ob o objects) ob fun o => { o with O_DESTRUCTED := true }

variable (simul_efun_ob : Nat)

def step (s : driver) : action → Option driver
  | .load ob addr prog =>
    if (s.objects ob).isNone ∧ laid_out headers addr prog then
      some { s with
        objects := Function.update s.objects ob
          (some ⟨(addr, prog), fun _ => .const0u, false, false, none, none⟩) }
    else none
  | .assign ob i v =>
    some { s with
      objects := set_object s.objects ob fun o =>
        { o with vars := Function.update o.vars i v } }
  | .make_lfun_funp fp current_object function_index_offset index =>
    add_funp fp ⟨current_object, .local_ (index + function_index_offset)⟩ s
  | .make_efun_funp fp current_object index => add_funp fp ⟨current_object, .efun index⟩ s
  | .make_simul_funp fp current_object index =>
    add_funp fp ⟨current_object, .simul index⟩ s
  | .make_functional_funp fp current_object current_prog offset fio vio nb =>
    add_funp fp ⟨current_object, .functional current_prog offset fio vio nb⟩ s
  | .bind fp old ob => (s.funps.find? fun e => e.1 = old).bind fun e => f_bind fp e.2 ob s
  | .dealloc_funp fp => some (remove_funp fp s)
  | .swap ob =>
    some { s with objects := set_object s.objects ob fun o => { o with O_SWAPPED := true } }
  | .load_ob_from_swap ob =>
    some { s with objects := set_object s.objects ob fun o => { o with O_SWAPPED := false } }
  | .shadow current_object ob => f_shadow current_object ob s
  | .destruct ob => some { s with objects := destruct_object ob s.objects }
  | .f_replace_program current_object str =>
    match f_replace_program headers simul_efun_ob current_object str s with
    | .ok s' => some s'
    | .error _ => some s
  | .replace_programs dead =>
    some { dead.foldl (fun s fp => remove_funp fp s) s with
      objects := (replace_programs headers s.obj_list_replace s.objects).1
      obj_list_replace := [] }

def start : driver where
  objects := fun _ => none
  obj_list_replace := []
  funps := []
  func_ref := fun _ => 0

end mudos.replace_program

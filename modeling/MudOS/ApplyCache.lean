-- The cache of `apply_low`: a slot for a hash of the function's name and the
-- program tells where the function is, or that the program has none. The
-- strings that the slots point to, and the programs, come and go.
import MudOS.Programs

open mudos.program
open mudos.compiler (name_flags runtime_function_u)

namespace mudos.apply_cache

/-! ## Strings -/

/-- A shared string, with its reference count, which is 0 for a string that is never
freed, and with the references of all but the cache. Texts are numbers. -/
structure string_t where
  addr : Nat
  text : Nat
  refs : Nat
  others : Nat
deriving DecidableEq, Repr

/-- `findstring` -/
def findstring (strings : List string_t) (text : Nat) : Option Nat :=
  (strings.find? fun b => b.text == text).map string_t.addr

/-- The text at an address, as long as the string is there. -/
def text_at (strings : List string_t) (addr : Nat) : Option Nat :=
  (strings.find? fun b => b.addr == addr).map string_t.text

/-- `if (REFS(b)) REFS(b)++;` in an `unsigned short`, which goes from 65535 to 0. -/
def add_ref (b : string_t) : string_t :=
  { b with refs := if b.refs = 0 ∨ b.refs = 65535 then 0 else b.refs + 1 }

/-- `ref_string` -/
def ref_string (strings : List string_t) (addr : Nat) : List string_t :=
  strings.map fun b => if b.addr = addr then add_ref b else b

/-- `free_string` of a string: `none` when it is gone. -/
def drop_ref (b : string_t) : Option string_t :=
  if b.refs = 0 then some b
  else if b.refs = 1 then none
  else some { b with refs := b.refs - 1 }

/-- `free_string`. There is no result when no string is at the address. -/
def free_string (strings : List string_t) (addr : Nat) : Option (List string_t) :=
  (text_at strings addr).map fun _ =>
    strings.filterMap fun b => if b.addr = addr then drop_ref b else some b

/-! ## The driver -/

/-- A slot of the cache. An address of 0 is a null pointer. -/
structure cache_entry_t where
  id : Nat
  oprogp : Nat
  progp : Nat
  index : Nat
  name : Nat
  num_arg : Nat
  num_local : Nat
  function_index_offset : Nat
  variable_index_offset : Nat
deriving DecidableEq, Repr

abbrev APPLY_CACHE_SIZE : Nat := 2048

def empty_entry : cache_entry_t := ⟨0, 0, 0, 0, 0, 0, 0, 0, 0⟩

structure object_t where
  num : Nat
  /-- The address of its program. -/
  prog : Nat
  shadowed : Option Nat
  shadowing : Option Nat
deriving DecidableEq, Repr

structure driver_t where
  strings : List string_t
  /-- The programs in memory, with their addresses, and those that are swapped out. -/
  programs : List (Nat × program_t)
  swapped : List program_t
  current_id_number : Nat
  objects : List object_t
  cache : Nat → cache_entry_t

def program_at (s : driver_t) (addr : Nat) : Option program_t := s.programs.lookup addr

def object (s : driver_t) (num : Nat) : Option object_t := s.objects.find? fun ob => ob.num == num

def set_entry (s : driver_t) (ix : Nat) (entry : cache_entry_t) : driver_t :=
  { s with cache := fun i => if i = ix then entry else s.cache i }

/-! ## `apply_low` -/

inductive call_origin
  | DRIVER
  | LOCAL
  | CALL_OTHER
  | SIMUL_EFUN
  | CALL_OUT
  | EFUN
  | FUNCTION_POINTER
  | FUNCTIONAL
deriving DecidableEq, Repr

/-- A call. The name of the function is a C string, of which the cache uses the text and
the address. The last two fields say where the set-up of the frame ends in an error:
the control stack is full, or there is no room for the arguments and locals of the
function (which may have true varargs, and a number of locals and arguments). -/
structure call_t where
  fun_ : Nat
  text : Nat
  ob : Nat
  current_object : Nat
  origin : call_origin
  too_deep : Bool
  setup_fails : Bool → Nat → Nat → Bool

/-- What becomes of a call: a function of a program runs in an object, with the offsets
and the shape of its frame; it ends in an error; or there is no such function. -/
inductive Outcome
  | runs (ob prog index fio vio num_local num_arg : Nat) (true_varargs : Bool)
  | error
  | not_found
deriving DecidableEq, Repr

def hash (id_number fun_ : Nat) : Nat :=
  (id_number ^^^ fun_ ^^^ (fun_ >>> 11)) &&& (APPLY_CACHE_SIZE - 1)

/-- May the caller call a function with the flags? -/
def permitted (c : call_t) (ob : Nat) (flags : name_flags) : Bool :=
  !(flags.mods.STATIC || flags.mods.PRIVATE) || c.current_object == ob ||
    c.origin == .DRIVER || c.origin == .CALL_OUT

/-- `find_function_by_name2` in the program at an address. -/
def find_function_by_name2 (s : driver_t) (addr : Nat) (prog : program_t) (text : Nat) :
    Option found_t :=
  (findstring s.strings text).bind fun sfun => ffbn_recurse2 addr prog sfun

/-- What a call reads of a function that was found: `funflags`, and `fundefp` for the
shape of the frame. -/
structure frame_t where
  flags : name_flags
  num_arg : Nat
  num_local : Nat
deriving DecidableEq

def function_frame (prog : program_t) (r : found_t) : Option frame_t :=
  match r.prog.function_table[r.index]? with
  | none => none
  | some funp =>
    match r.prog.function_offsets[funp.runtime_index]?,
      prog.function_flags[funp.runtime_index + r.fio]? with
    | some (.def_ num_arg num_local _), some flags => some ⟨flags, num_arg, num_local⟩
    | _, _ => none

/-- The set-up of the frame, and then the call of the function. -/
def run_function (c : call_t) (ob progp index fio vio : Nat) (f : frame_t) : Outcome :=
  if c.too_deep then .error
  else if c.setup_fails f.flags.TRUE_VARARGS f.num_local f.num_arg then .error
  else .runs ob progp index fio vio f.num_local f.num_arg f.flags.TRUE_VARARGS

/-- Is the slot about the function? The text of the name is read when the rest fits, and
is undefined when the string is gone. -/
def hit (s : driver_t) (entry : cache_entry_t) (addr : Nat) (progp : program_t) (text : Nat) :
    Option Bool :=
  if entry.id = progp.id_number ∧ entry.oprogp = addr then
    (text_at s.strings entry.name).map fun t => t == text
  else some false

/-- The flags of the function that the slot tells of. -/
def entry_flags (s : driver_t) (entry : cache_entry_t) (progp : program_t) : Option name_flags :=
  (program_at s entry.progp).bind fun prog =>
    prog.function_table[entry.index]?.bind fun funp =>
      progp.function_flags[funp.runtime_index + entry.function_index_offset]?

section

variable (malloc : List Nat → Nat)

/-- `make_shared_string`, with the address of the string. -/
def make_shared_string (strings : List string_t) (text : Nat) : List string_t × Nat :=
  match findstring strings text with
  | some addr => (ref_string strings addr, addr)
  | none =>
    let addr := malloc (strings.map string_t.addr)
    (⟨addr, text, 1, 0⟩ :: strings, addr)

/-- "We have to mark a function not to be in the object". -/
def mark_missing (s : driver_t) (ix addr : Nat) (progp : program_t) (text : Nat) : driver_t :=
  let (strings, name) :=
    match findstring s.strings text with
    | some sfun => (ref_string s.strings sfun, sfun)
    | none => make_shared_string malloc s.strings text
  let entry := { s.cache ix with id := progp.id_number, oprogp := addr, name, progp := 0 }
  set_entry { s with strings } ix entry

/-- The old name goes, if the slot was for a function that is not there. -/
def free_old_name (s : driver_t) (entry : cache_entry_t) : Option driver_t :=
  if entry.progp = 0 ∧ entry.id ≠ 0 then
    (free_string s.strings entry.name).map fun strings => { s with strings }
  else some s

/-- The search, when the slot is about another function, and what follows it. -/
def search_and_call (s : driver_t) (c : call_t) (ob : object_t) (progp : program_t) (ix : Nat) :
    Option (driver_t × Option Outcome) :=
  match find_function_by_name2 s ob.prog progp c.text, findstring s.strings c.text with
  | some r, some sfun =>
    match function_frame progp r with
    | none => none
    | some f =>
      if permitted c ob.num f.flags then
        if c.too_deep then some (s, some .error)
        else
          let entry :=
            { s.cache ix with
              oprogp := ob.prog
              id := progp.id_number
              name := sfun
              index := r.index
              variable_index_offset := r.vio
              function_index_offset := r.fio }
          if c.setup_fails f.flags.TRUE_VARARGS f.num_local f.num_arg then
            some (set_entry s ix entry, some .error)
          else
            let entry :=
              { entry with num_arg := f.num_arg, num_local := f.num_local, progp := r.addr }
            some (set_entry s ix entry,
              some (run_function c ob.num r.addr r.index r.fio r.vio f))
      else some (mark_missing malloc s ix ob.prog progp c.text, none)
  | _, _ => some (mark_missing malloc s ix ob.prog progp c.text, none)

/-- One object of the chain: `none` in the pair goes on to the object it shadows. There is
no result when memory is read that is not there. -/
def apply_to (s : driver_t) (c : call_t) (ob : object_t) : Option (driver_t × Option Outcome) :=
  match program_at s ob.prog with
  | none => none
  | some progp =>
    let ix := hash progp.id_number c.fun_
    let entry := s.cache ix
    match hit s entry ob.prog progp c.text with
    | none => none
    | some true =>
      if entry.progp ≠ 0 then
        match entry_flags s entry progp with
        | none => none
        | some flags =>
          if permitted c ob.num flags then
            some (s, some (run_function c ob.num entry.progp entry.index
              entry.function_index_offset entry.variable_index_offset
              ⟨flags, entry.num_arg, entry.num_local⟩))
          else some (s, none)
      else some (s, none)
    | some false => (free_old_name s entry).bind fun s => search_and_call malloc s c ob progp ix

/-- `retry_for_shadow`, down the chain. -/
def apply_chain (c : call_t) : (fuel : Nat) → driver_t → object_t → Option (driver_t × Outcome)
  | 0, _, _ => none
  | fuel + 1, s, ob =>
    match apply_to malloc s c ob with
    | none => none
    | some (s, some outcome) => some (s, outcome)
    | some (s, none) =>
      match ob.shadowing with
      | none => some (s, .not_found)
      | some num => (object s num).bind fun ob => apply_chain c fuel s ob

/-- `while (ob->shadowed && ob->shadowed != current_object) ob = ob->shadowed;` -/
def first_shadow (s : driver_t) (current_object : Nat) : (fuel : Nat) → object_t → Option object_t
  | 0, _ => none
  | fuel + 1, ob =>
    match ob.shadowed with
    | none => some ob
    | some num =>
      if num = current_object then some ob
      else (object s num).bind fun ob => first_shadow s current_object fuel ob

/-- Up the chain of shadows and down again. Chains have no cycle, so the number of objects
is enough. -/
def apply_low (s : driver_t) (c : call_t) : Option (driver_t × Outcome) :=
  (object s c.ob).bind fun ob =>
    (first_shadow s c.current_object s.objects.length ob).bind fun ob =>
      apply_chain malloc c s.objects.length s ob

end

/-! ## The same without a cache -/

def afresh_in (s : driver_t) (c : call_t) (ob : object_t) : Option (Option Outcome) :=
  match program_at s ob.prog with
  | none => none
  | some progp =>
    match find_function_by_name2 s ob.prog progp c.text with
    | none => some none
    | some r =>
      (function_frame progp r).map fun f =>
        if permitted c ob.num f.flags then some (run_function c ob.num r.addr r.index r.fio r.vio f)
        else none

def afresh_chain (s : driver_t) (c : call_t) : (fuel : Nat) → object_t → Option Outcome
  | 0, _ => none
  | fuel + 1, ob =>
    match afresh_in s c ob with
    | none => none
    | some (some outcome) => some outcome
    | some none =>
      match ob.shadowing with
      | none => some .not_found
      | some num => (object s num).bind fun ob => afresh_chain s c fuel ob

/-- What the call comes to when `find_function_by_name2` looks the function up in each
object of the chain. -/
def afresh (s : driver_t) (c : call_t) : Option Outcome :=
  (object s c.ob).bind fun ob =>
    (first_shadow s c.current_object s.objects.length ob).bind fun ob =>
      afresh_chain s c s.objects.length ob

/-! ## The steps -/

/-- A program that is loaded: what it inherits is in memory, at the addresses given. -/
structure loaded_t where
  function_table : List compiler_function_t
  function_flags : List name_flags
  function_offsets : List runtime_function_u
  inherit : List (Nat × Nat × Nat)

/-- The programs at the addresses, with their offsets. -/
def inherits_at (s : driver_t) :
    List (Nat × Nat × Nat) → Option (List (Nat × program_t × Nat × Nat))
  | [] => some []
  | (addr, fio, vio) :: inherit =>
    match program_at s addr, inherits_at s inherit with
    | some prog, some rest => some ((addr, prog, fio, vio) :: rest)
    | _, _ => none

def all_programs (s : driver_t) : List program_t := s.programs.map Prod.snd ++ s.swapped

/-- A program has a function of that name, so it holds the string. -/
def holds_name (prog : program_t) (addr : Nat) : Bool :=
  prog.function_table.any fun f => f.name == addr

/-- No object has the program, and no program inherits it. -/
def unused (s : driver_t) (addr : Nat) : Bool :=
  s.objects.all (fun ob => ob.prog != addr) &&
    (all_programs s).all fun p => p.inherit.all fun i => i.1 != addr

def others_of (strings : List string_t) (addr : Nat) : Nat :=
  ((strings.find? fun b => b.addr == addr).map string_t.others).getD 0

def add_other (b : string_t) : string_t := { b with others := b.others + 1 }

inductive Action
  | call (c : call_t)
  | make_shared_string (text : Nat)
  | free_string (addr : Nat)
  | load_program (addr : Nat) (prog : loaded_t)
  | free_program (addr : Nat)
  | swap_out (addr : Nat)
  | swap_in (n addr : Nat)
  | set_object (ob : object_t)
  | remove_object (num : Nat)

section

variable (malloc : List Nat → Nat)

/-- What the rest of the driver does between the calls. A program holds the strings that
name its functions, and what it inherits. A program that is swapped out keeps both, and
comes back at any address. -/
def step (s : driver_t) : Action → Option driver_t
  | .call c => (apply_low malloc s c).map Prod.fst
  | .make_shared_string text =>
    let (strings, addr) := make_shared_string malloc s.strings text
    some { s with strings := strings.map fun b => if b.addr = addr then add_other b else b }
  | .free_string addr =>
    if others_of s.strings addr = 0 then none
    else if others_of s.strings addr = 1 ∧ (all_programs s).any (holds_name · addr) then none
    else
      let strings := s.strings.map fun b =>
        if b.addr = addr then { b with others := b.others - 1 } else b
      (free_string strings addr).map fun strings => { s with strings }
  | .load_program addr prog =>
    if addr = 0 ∨ (program_at s addr).isSome then none
    else if prog.function_table.any fun f => others_of s.strings f.name == 0 then none
    else
      (inherits_at s prog.inherit).map fun inherit =>
        { s with
          programs := (addr, .mk s.current_id_number prog.function_table prog.function_flags
            prog.function_offsets inherit) :: s.programs
          current_id_number := s.current_id_number + 1 }
  | .free_program addr =>
    if unused s addr then
      some { s with programs := s.programs.filter fun p => p.1 != addr }
    else none
  | .swap_out addr =>
    if unused s addr then
      (program_at s addr).map fun p =>
        { s with
          programs := s.programs.filter fun p => p.1 != addr
          swapped := p :: s.swapped }
    else none
  | .swap_in n addr =>
    if addr = 0 ∨ (program_at s addr).isSome then none
    else
      s.swapped[n]?.map fun p =>
        { s with programs := (addr, p) :: s.programs, swapped := s.swapped.eraseIdx n }
  | .set_object ob =>
    if (program_at s ob.prog).isSome then
      some { s with objects := ob :: s.objects.filter fun o => o.num != ob.num }
    else none
  | .remove_object num => some { s with objects := s.objects.filter fun o => o.num != num }

end

/-- The driver at its start: the static memory is zero. -/
def start : driver_t where
  strings := []
  programs := []
  swapped := []
  current_id_number := 1
  objects := []
  cache := fun _ => empty_entry

end mudos.apply_cache

-- Programs with all that they inherit, the searches for a function by its name
-- (`ffbn_recurse2`, which tells the offsets too, and `ffbn_recurse`), and the
-- walk of `setup_new_frame` from an index to the function.
import MudOS.FunctionTable

open mudos.compiler (name_flags name_mods runtime_function_u)

namespace mudos.program

/-! ## Programs -/

/-- The name is a shared string, so it is an address. -/
structure compiler_function_t where
  name : Nat
  runtime_index : Nat
deriving DecidableEq

/-- A program, as the driver runs it. What it inherits has an address, a program, and the
offsets of its functions and variables. `function_offsets` has what `FIND_FUNC_ENTRY`
gives for each index. -/
inductive program_t
  | mk (id_number : Nat) (function_table : List compiler_function_t)
      (function_flags : List name_flags) (function_offsets : List runtime_function_u)
      (inherit : List (Nat × program_t × Nat × Nat))

namespace program_t

def id_number : program_t → Nat
  | mk id_number _ _ _ _ => id_number

def function_table : program_t → List compiler_function_t
  | mk _ function_table _ _ _ => function_table

def function_flags : program_t → List name_flags
  | mk _ _ function_flags _ _ => function_flags

def function_offsets : program_t → List runtime_function_u
  | mk _ _ _ function_offsets _ => function_offsets

def inherit : program_t → List (Nat × program_t × Nat × Nat)
  | mk _ _ _ _ inherit => inherit

end program_t

/-! ## The searches -/

/-- The binary search of the sorted function table: the `mid` at which it ends. -/
def search (function_table : List compiler_function_t) (name : Nat) :
    (fuel : Nat) → (low high : Int) → Option Nat
  | 0, _, _ => none
  | fuel + 1, low, high =>
    if high ≥ low then
      let mid := (high + low) / 2
      match function_table[mid.toNat]? with
      | none => none
      | some f =>
        if name < f.name then search function_table name fuel low (mid - 1)
        else if name > f.name then search function_table name fuel (mid + 1) high
        else some mid.toNat
    else none

/-- The flags of the function `mid` of the table of a program. -/
def flags_of (prog : program_t) (mid : Nat) : Option name_flags :=
  prog.function_table[mid]?.bind fun f => prog.function_flags[f.runtime_index]?

/-- `mid` in the search of all functions. -/
def find_name (prog : program_t) (name : Nat) : Option Nat :=
  search prog.function_table name (prog.function_table.length + 1) 0
    (prog.function_table.length - 1)

/-- A function in the program that defines it, and where that program is in the one that
was searched. -/
structure found_t where
  addr : Nat
  prog : program_t
  index : Nat
  fio : Nat
  vio : Nat

mutual

def ffbn_recurse2 (addr : Nat) : program_t → Nat → Option found_t
  | .mk id function_table function_flags function_offsets inherit, name =>
    let prog := program_t.mk id function_table function_flags function_offsets inherit
    match find_name prog name with
    | some mid =>
      match flags_of prog mid with
      | none => none
      | some flags =>
        if flags.UNDEFINED || flags.PROTOTYPE || flags.INHERITED then
          if flags.INHERITED then search_inherited2 inherit name else none
        else some ⟨addr, prog, mid, 0, 0⟩
    | none => search_inherited2 inherit name

/-- `while (i--)`: the last inherit first. -/
def search_inherited2 : List (Nat × program_t × Nat × Nat) → Nat → Option found_t
  | [], _ => none
  | (addr, prog, function_index_offset, variable_index_offset) :: inherit, name =>
    match search_inherited2 inherit name with
    | some ret => some ret
    | none =>
      (ffbn_recurse2 addr prog name).map fun ret =>
        { ret with
          fio := ret.fio + function_index_offset
          vio := ret.vio + variable_index_offset }

end

/-- A function in the program that defines it, with its index in the one that was
searched. -/
structure exists_t where
  addr : Nat
  prog : program_t
  index : Nat
  runtime_index : Nat

mutual

def ffbn_recurse (addr : Nat) : program_t → Nat → Option exists_t
  | .mk id function_table function_flags function_offsets inherit, name =>
    let prog := program_t.mk id function_table function_flags function_offsets inherit
    match find_name prog name with
    | some mid =>
      match function_table[mid]?, flags_of prog mid with
      | some f, some flags =>
        if flags.UNDEFINED || flags.PROTOTYPE then
          if flags.INHERITED then exists_inherited inherit name else none
        else some ⟨addr, prog, mid, f.runtime_index⟩
      | _, _ => none
    | none => exists_inherited inherit name

def exists_inherited : List (Nat × program_t × Nat × Nat) → Nat → Option exists_t
  | [], _ => none
  | (addr, prog, function_index_offset, _) :: inherit, name =>
    match exists_inherited inherit name with
    | some ret => some ret
    | none =>
      (ffbn_recurse addr prog name).map fun ret =>
        { ret with runtime_index := ret.runtime_index + function_index_offset }

end

/-! ## The walk -/

mutual

/-- `setup_new_frame`: where the function at an index is, and its offsets; `none` when an
entry outside the tables is read. -/
def setup_new_frame (addr : Nat) : program_t → Nat → Option found_t
  | .mk id function_table function_flags function_offsets inherit, index =>
    match function_flags[index]?, function_offsets[index]? with
    | some flags, some (.inh offset function_index_offset) =>
      if flags.INHERITED then frame_in_inherit inherit offset function_index_offset else none
    | some flags, some (.def_ _ _ f_index) =>
      if flags.INHERITED then none
      else some ⟨addr, .mk id function_table function_flags function_offsets inherit, f_index, 0, 0⟩
    | _, _ => none

/-- The walk goes on in `current_prog->inherit[offset]`. -/
def frame_in_inherit : List (Nat × program_t × Nat × Nat) → Nat → Nat → Option found_t
  | [], _, _ => none
  | (addr, prog, function_index_offset, variable_index_offset) :: _, 0, index =>
    (setup_new_frame addr prog index).map fun r =>
      { r with
        fio := r.fio + function_index_offset
        vio := r.vio + variable_index_offset }
  | _ :: inherit, offset + 1, index => frame_in_inherit inherit offset index

end

theorem frame_in_inherit_slot (inherit : List (Nat × program_t × Nat × Nat)) (slot index : Nat) :
    frame_in_inherit inherit slot index =
      inherit[slot]?.bind fun e =>
        (setup_new_frame e.1 e.2.1 index).map fun r =>
          { r with
            fio := r.fio + e.2.2.1
            vio := r.vio + e.2.2.2 } := by
  induction inherit generalizing slot with
  | nil => simp [frame_in_inherit]
  | cons e inherit ih =>
    obtain ⟨addr, prog, fio, vio⟩ := e
    cases slot with
    | zero => simp [frame_in_inherit]
    | succ slot => simpa [frame_in_inherit] using ih slot

/-- The function at an index, in the program that defines it. -/
def function_at (prog : program_t) (index : Nat) : Option compiler_function_t :=
  (setup_new_frame 0 prog index).bind fun r => r.prog.function_table[r.index]?

end mudos.program

-- The simul_efuns of `simul_efun.c`: the table of names, sorted by the
-- addresses of the shared strings, and the table of functions, by the index
-- that compiled programs keep. Each load of the object fills them again.
import MudOS.Programs

open mudos.program

namespace mudos.simul_efun

/-! ## The tables -/

structure simul_entry where
  name : Nat
  index : Int
deriving DecidableEq

structure simul_info_t where
  func : Option compiler_function_t
  index : Nat
deriving DecidableEq

/-- What the identifier of a name has of simul_efuns. -/
structure ident_t where
  IHE_SIMUL : Bool
  sem_value : Int
  simul_num : Int
deriving DecidableEq

/-- The two tables up to `num_simul_efun`, and how many entries are allocated for each. -/
structure simuls_t where
  simul_names : List simul_entry
  simuls : List simul_info_t
  room : Nat
  idents : Nat → ident_t
  /-- The program of `simul_efun_ob`. -/
  simul_efun_ob : Option program_t
  /-- The tables are given back, and `num_simul_efun` still counts them. -/
  freed : Bool
  /-- An entry outside the tables has been used, or a table that was given back. -/
  lost : Bool

def simuls_t.num_simul_efun (s : simuls_t) : Nat := s.simul_names.length

/-- A number as a `short` holds it. -/
def short (n : Int) : Int := (n + 32768) % 65536 - 32768

/-- The driver starts with no simul_efun. The names of efuns have a meaning already. -/
def start (efuns : List Nat) : simuls_t where
  simul_names := []
  simuls := []
  room := 0
  idents name := ⟨false, efuns.count name, -1⟩
  simul_efun_ob := none
  freed := false
  lost := false

/-! ## The search -/

inductive search_t
  | found (e : simul_entry)
  | missing (first last : Int)
  | outside
deriving DecidableEq

/-- The search by `compare_addrs`, in `find_simul_efun` and in `find_or_add_simul_efun`. -/
def search_names (simul_names : List simul_entry) (name : Nat) : (fuel : Nat) → (first last : Int) →
    search_t
  | 0, _, _ => .outside
  | fuel + 1, first, last =>
    if first ≤ last then
      let j := (first + last) / 2
      match simul_names[j.toNat]? with
      | none => .outside
      | some e =>
        if name < e.name then search_names simul_names name fuel first (j - 1)
        else if name > e.name then search_names simul_names name fuel (j + 1) last
        else .found e
    else .missing first last

def search_all (s : simuls_t) (name : Nat) : search_t :=
  search_names s.simul_names name (s.num_simul_efun + 1) 0 (s.num_simul_efun - 1)

def find_simul_efun (s : simuls_t) (name : Nat) : Int :=
  match search_all s name with
  | .found e => e.index
  | _ => -1

/-! ## Loads -/

/-- An identifier loses its simul_efun. `lookup_ident` finds only those with a meaning. -/
def remove_ident (idents : Nat → ident_t) (name : Nat) : Nat → ident_t :=
  let ihe := idents name
  if ihe.sem_value = 0 then idents
  else
    Function.update idents name
      { IHE_SIMUL := false
        sem_value := if ihe.simul_num ≠ -1 then ihe.sem_value - 1 else ihe.sem_value
        simul_num := -1 }

def remove_simuls (s : simuls_t) : simuls_t :=
  { s with
    simuls := s.simuls.map fun _ => ⟨none, 0⟩
    idents := (s.simul_names.map simul_entry.name).foldl remove_ident s.idents }

def add_ident (idents : Nat → ident_t) (name : Nat) (simul_num : Int) : Nat → ident_t :=
  Function.update idents name ⟨true, (idents name).sem_value + 1, simul_num⟩

def find_or_add_simul_efun (s : simuls_t) (funp : compiler_function_t) (runtime_index : Nat) :
    simuls_t :=
  match search_all s funp.name with
  | .outside => { s with lost := true }
  | .found e =>
    if 0 ≤ e.index ∧ e.index < s.simuls.length then
      { s with
        simuls := s.simuls.set e.index.toNat ⟨some funp, runtime_index⟩
        idents := add_ident s.idents e.name e.index }
    else { s with lost := true }
  | .missing first _ =>
    if s.num_simul_efun < s.room then
      { s with
        simuls := s.simuls ++ [⟨some funp, runtime_index⟩]
        -- the names after `last` move up, and `first` is after `last`
        simul_names := s.simul_names.take first.toNat ++
          ⟨funp.name, short s.num_simul_efun⟩ :: s.simul_names.drop first.toNat
        idents := add_ident s.idents funp.name (short s.num_simul_efun) }
    else { s with lost := true }

/-- The loop of `get_simul_efuns` at one index of the program. -/
def get_function (prog : program_t) (s : simuls_t) (i : Nat) : simuls_t :=
  match prog.function_flags[i]? with
  | none => s
  | some flags =>
    if flags.NO_CODE || flags.mods.STATIC || flags.mods.PRIVATE then s
    else
      match function_at prog i with
      | none => { s with lost := true }
      | some funp => find_or_add_simul_efun s funp i

/-- The tables before the loop: emptied and given room for `num_new` more, or given back. -/
def make_room (s : simuls_t) (num_new : Nat) : simuls_t :=
  if s.num_simul_efun ≠ 0 then
    let s := remove_simuls s
    if num_new = 0 then { s with freed := true }
    else { s with room := s.num_simul_efun + num_new }
  else { s with room := num_new }

/-- After the loop the tables shrink to fit, which takes what `num_simul_efun` counts. -/
def shrink (s : simuls_t) : simuls_t :=
  if s.num_simul_efun ≠ 0 then { s with room := s.num_simul_efun, lost := s.lost || s.freed } else s

def get_simul_efuns (s : simuls_t) (prog : program_t) : simuls_t :=
  let num_new := prog.function_flags.length
  shrink ((List.range num_new).foldl (get_function prog) (make_room s num_new))

def set_simul_efun (s : simuls_t) (prog : program_t) : simuls_t :=
  { get_simul_efuns s prog with simul_efun_ob := some prog }

/-! ## Calls -/

inductive call_t
  | outside
  | undefined
  | refused
  | called (funp : compiler_function_t)
deriving DecidableEq

def call_simul_efun (s : simuls_t) (destructed : Bool) (index : Nat) : call_t :=
  if destructed then .undefined
  else
    match s.simuls[index]?, s.simul_efun_ob with
    | some ⟨some _, runtime_index⟩, some prog =>
      match function_at prog runtime_index with
      | some funp => .called funp
      | none => .outside
    | some ⟨none, _⟩, _ => .refused
    | _, _ => .outside

/-! ## Runs -/

/-- A program as the compiler leaves it: each function that others can call is found from
its index. -/
structure linked_t where
  prog : program_t
  linked : ∀ i flags, prog.function_flags[i]? = some flags →
    (flags.NO_CODE || flags.mods.STATIC || flags.mods.PRIVATE) = false →
    (function_at prog i).isSome

def step (s : simuls_t) (p : linked_t) : Option simuls_t := some (set_simul_efun s p.prog)

end mudos.simul_efun

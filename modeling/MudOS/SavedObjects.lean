-- Objects come back from a buffer with a line for each variable. Between the
-- calls stay the counter of the depth and the table of the sizes.
import MudOS.SavedValues

namespace mudos.saved_values

/-! ## Programs -/

/-- The inherited programs, with `NAME_STATIC` of their `type_mod`, and the names of the variables,
with `NAME_STATIC` of their types. -/
inductive program_t
  | mk (inherit : List (program_t × Bool)) (variable_table : List (List UInt8 × Bool))

mutual

/-- The index and the type of the variable, or the index behind the variables of the program. -/
def fgv_recurse (name : List UInt8) : program_t → Nat → Nat × Bool ⊕ Nat
  | .mk inherit variable_table, idx =>
    match fgv_inherit name inherit idx with
    | .inl found => .inl found
    | .inr idx =>
      match variable_table.findIdx? fun v => v.1 = name with
      | some i => .inl (idx + i, (variable_table[i]?.map Prod.snd).getD false)
      | none => .inr (idx + variable_table.length)

def fgv_inherit (name : List UInt8) : List (program_t × Bool) → Nat → Nat × Bool ⊕ Nat
  | [], idx => .inr idx
  | (prog, type_mod) :: inherit, idx =>
    match fgv_recurse name prog idx with
    | .inl (idx, type) => .inl (idx, type || type_mod)
    | .inr idx => fgv_inherit name inherit idx

end

/-- The variable with the name, unless it is static. -/
def find_global_variable (prog : program_t) (name : List UInt8) : Option Nat :=
  match fgv_recurse name prog 0 with
  | .inl (idx, type) => if type then none else some idx
  | .inr _ => none

mutual

def num_variables : program_t → Nat
  | .mk inherit variable_table => inherited_variables inherit + variable_table.length

def inherited_variables : List (program_t × Bool) → Nat
  | [] => 0
  | (prog, _) :: inherit => num_variables prog + inherited_variables inherit

end

mutual

/-- The variables that are cleared, by their indices. -/
def cns_recurse : program_t → List Bool
  | .mk inherit variable_table => cns_inherit inherit ++ variable_table.map fun v => !v.2

def cns_inherit : List (program_t × Bool) → List Bool
  | [] => []
  | (prog, type_mod) :: inherit =>
    (if type_mod then List.replicate (num_variables prog) false else cns_recurse prog) ++
      cns_inherit inherit

end

/-! ## `restore_object` -/

def clear_non_statics : List Bool → List svalue_t → driver → outcome (List svalue_t)
  | clear :: l, v :: sv, d =>
    (free_blocks (if clear then v.blocks else []) d).bind fun _ d =>
      (clear_non_statics l sv d).bind fun sv d =>
        .value ((if clear then const0 else v) :: sv) d
  | _, sv, d => .value sv d

/-- A line of the buffer, without its end, and what follows a newline. -/
def next_line (buff : List UInt8) : List UInt8 × Option (List UInt8) :=
  (buff.takeWhile fun c => c ≠ 10 && c ≠ 0,
    match buff.dropWhile fun c => c ≠ 10 && c ≠ 0 with
    | c :: nextBuff => if c = 10 then some nextBuff else none
    | [] => none)

def go_on (restore : List UInt8 → outcome (List svalue_t × Bool)) (nextBuff : Option (List UInt8))
    (sv : List svalue_t) (d : driver) : outcome (List svalue_t × Bool) :=
  match nextBuff with
  | none => .value (sv, false) d
  | some buff => if buff.head? = some 0 then .value (sv, false) d else restore buff

/-- The variables, and whether there was an error(). A line ends with a NUL when it is looked
at, and the text of the value stands behind the space. -/
def restore_object_from_buff (c : config) (prog : program_t) (noclear : Bool) :
    Nat → List UInt8 → List svalue_t → driver → outcome (List svalue_t × Bool)
  | 0, _, _, _ => .fault .running
  | n + 1, buff, sv, d =>
    let (line, nextBuff) := next_line buff
    let next sv d :=
      go_on (fun buff => restore_object_from_buff c prog noclear n buff sv d) nextBuff sv d
    if line.head? = some 35 then next sv d
    else
      match strchr 32 (line ++ [0]) with
      | .outside => .fault .outside
      | .missing => .value (sv, true) d
      | .found cp =>
        let space := line.length - cp.length
        if space ≥ 100 then .value (sv, true) d
        else
          match find_global_variable prog (line.take space) with
          | none => next sv d
          | some idx =>
            match sv[idx]? with
            | none => .fault .outside
            | some v =>
              match if noclear then safe_restore_svalue c cp v d else restore_svalue c cp v d with
              | .value (rc, v) d =>
                if rc &&& ROB_ERROR ≠ 0 then .value (sv.set idx v, true) d
                else next (sv.set idx v) d
              | .rob code d => .rob code d
              | .error d => .value (sv, true) d
              | .fault f => .fault f

def restore_object (c : config) (prog : program_t) (buff : List UInt8) (noclear : Bool)
    (sv : List svalue_t) (d : driver) : outcome (List svalue_t × Bool) :=
  (if noclear then .value sv d else clear_non_statics (cns_recurse prog) sv d).bind
    fun sv d =>
      go_on (fun buff => restore_object_from_buff c prog noclear (buff.length + 1) buff sv d)
        (some buff) sv d

/-! ## Runs -/

mutual

def svalue_t.nesting : svalue_t → Nat
  | .T_NUMBER _ => 0
  | .T_REAL _ => 0
  | .T_STRING _ _ => 0
  | .T_ARRAY _ item => item_nesting item + 1
  | .T_CLASS _ item => item_nesting item + 1
  | .T_MAPPING _ node => node_nesting node + 1

def item_nesting : List svalue_t → Nat
  | [] => 0
  | v :: item => max v.nesting (item_nesting item)

def node_nesting : List (svalue_t × svalue_t) → Nat
  | [] => 0
  | (key, value) :: node => max (max key.nesting value.nesting) (node_nesting node)

end

abbrev MAX_SAVE_SVALUE_DEPTH : Nat := 25

/-- `svalue_save_size` counts the depth up and down. The error() for a value that is too deep
leaves it where it is then. -/
def save_depth (v : svalue_t) (d : driver) : driver :=
  { d with
    save_svalue_depth :=
      if v.nesting > MAX_SAVE_SVALUE_DEPTH then MAX_SAVE_SVALUE_DEPTH + 1 else 0 }

structure world where
  driver : saved_values.driver
  sv : List svalue_t
  fault : Option saved_values.fault

inductive action
  | save_variable (v : svalue_t)
  | restore_variable (str : Text)
  | restore_object (theBuff : Text) (noclear : Bool)

/-- The calls of the mudlib. Nothing follows a fault. The value that `restore_variable` gives is
not the object's. -/
def step (c : config) (prog : program_t) (w : world) : action → Option world
  | .save_variable v =>
    if w.fault.isSome then none else some { w with driver := save_depth v w.driver }
  | .restore_variable str =>
    if w.fault.isSome then none
    else
      match restore_svalue c str.memory (.T_NUMBER (c.memory 0)) w.driver with
      | .value _ d => some { w with driver := d }
      | .rob _ d => some { w with driver := d }
      | .error d => some { w with driver := d }
      | .fault f => some { w with fault := some f }
  | .restore_object theBuff noclear =>
    if w.fault.isSome then none
    else
      match restore_object c prog theBuff.memory noclear w.sv w.driver with
      | .value (sv, _) d => some { w with driver := d, sv }
      | .rob _ d => some { w with driver := d }
      | .error d => some { w with driver := d }
      | .fault f => some { w with fault := some f }

def first_world (prog : program_t) : world where
  driver := start
  sv := List.replicate (num_variables prog) const0
  fault := none

end mudos.saved_values

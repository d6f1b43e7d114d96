-- `foreach`: the rules of the parser for it (`grammar.y.pre`), the code that `icode.c` makes of it,
-- and its instructions (`F_FOREACH`, `F_NEXT_FOREACH` and `F_EXIT_FOREACH` of `interpret.c`).
import Mathlib.Data.List.Basic

namespace mudos.foreach_loop

def USHRT_MAX : Nat := 65535

/-- What an `unsigned char` and the 16 bits of a `subtype` keep of a number. -/
def uchar (n : Nat) : Nat := n % 256

def ushort (n : Nat) : Nat := n % 65536

/-! ## Values -/

/-- Strings are the characters before the zero byte; arrays, mappings and values of the other types
tell where they are. -/
inductive svalue_t
  | number (n : Nat)
  | string (s : List Nat)
  | array (arr : Nat)
  | mapping (map : Nat)
  | other (p : Nat)
deriving DecidableEq

/-- `const0u` -/
def const0u : svalue_t := .number 0

/-- What LPC code can change: the arrays, the keys and values of the mappings in the order of
`mapping_indices`, the variables of the object and the locals of the function. The size of an array
is an `unsigned short`. -/
structure store where
  arrays : List (List svalue_t)
  mappings : List (List (svalue_t × svalue_t))
  ob_variables : List svalue_t
  locals : List svalue_t
  small : ∀ item ∈ arrays, item.length ≤ USHRT_MAX

def store.item (st : store) (arr : Nat) : List svalue_t := (st.arrays[arr]?).getD []

def store.nodes (st : store) (map : Nat) : List (svalue_t × svalue_t) :=
  (st.mappings[map]?).getD []

def find_in_mapping (st : store) (map : Nat) (lv : svalue_t) : svalue_t :=
  (((st.nodes map).find? fun n => n.1 = lv).map Prod.snd).getD const0u

/-- A change that LPC code makes. An array never gets another size while a value tells it. -/
structure change where
  apply : store → store
  sizes : ∀ st arr, ((apply st).item arr).length = (st.item arr).length

/-- Where a variable is: a local of the frame, or a place among the variables of the object. -/
inductive place
  | fp (n : Nat)
  | find_value (n : Nat)
deriving DecidableEq

def store.assign (st : store) (p : place) (v : svalue_t) : store :=
  match p with
  | .fp n => { st with locals := st.locals.set n v }
  | .find_value n => { st with ob_variables := st.ob_variables.set n v }

/-! ## Statements -/

/-- What the parser knows of a name: the number of the local, and of the global variable. -/
structure defined_name where
  local_num : Option Nat
  global_num : Option Nat
deriving DecidableEq

/-- The statements of a function, as far as loops go. What is evaluated in between is any change or
any error. -/
inductive statement
  | act (c : change)
  | error (message : String)
  | seq (s t : statement)
  | branch (c : store → Bool) (s t : statement)
  | while_ (c : store → Bool) (s : statement)
  | foreach (var : defined_name) (var2 : Option defined_name) (expr0 : store → svalue_t)
      (s : statement)
  | break_
  | continue_
  | return_

/-- The two opcodes that a `foreach_var` becomes. -/
inductive opcode
  | F_LOCAL_LVALUE
  | F_GLOBAL_LVALUE
deriving DecidableEq

/-- `CREATE_OPCODE_1` -/
structure opcode_1 where
  v : opcode
  l : Nat
deriving DecidableEq

/-- The code of a function, with the jumps of its loops as structure. -/
inductive instruction
  | act (c : change)
  | error (message : String)
  | seq (i j : instruction)
  | branch (c : store → Bool) (i j : instruction)
  /-- A loop with another test than `F_NEXT_FOREACH`. -/
  | loop (c : store → Bool) (block : instruction)
  /-- `expr0` has been pushed before. -/
  | F_FOREACH (expr0 : store → svalue_t) (flags : Nat) (bytes : List Nat)
  /-- A branch to the test, the block, and `F_NEXT_FOREACH` as the test. -/
  | F_NEXT_FOREACH (block : instruction)
  | F_EXIT_FOREACH
  | jump_break
  | jump_continue
  | F_RETURN

/-! ## The parser and the code generator -/

/-- The `context` of a statement. -/
inductive context
  | none
  | LOOP_CONTEXT
  | LOOP_FOREACH
deriving DecidableEq

def foreach_var (dn : defined_name) : Option opcode_1 :=
  match dn.local_num with
  | some n => some ⟨.F_LOCAL_LVALUE, n⟩
  | none => dn.global_num.map fun n => ⟨.F_GLOBAL_LVALUE, n⟩

/-- `NODE_FOREACH` of `i_generate_node` -/
def i_generate_foreach (expr0 : store → svalue_t) (l : opcode_1) (r : Option opcode_1) :
    instruction :=
  let tmp := if l.v = .F_GLOBAL_LVALUE then 1 else 0
  match r with
  | none => .F_FOREACH expr0 tmp [uchar l.l]
  | some r =>
    let tmp := tmp + 4
    let tmp := if r.v = .F_GLOBAL_LVALUE then tmp + 2 else tmp
    .F_FOREACH expr0 tmp [uchar l.l, uchar r.l]

/-- `NODE_RETURN`: as many `F_EXIT_FOREACH` as there are loops. -/
def i_generate_return : (foreach_depth : Nat) → instruction
  | 0 => .F_RETURN
  | n + 1 => .seq .F_EXIT_FOREACH (i_generate_return n)

/-- What the parser and the code generator make of a statement, if it is no error. -/
def generate : statement → context → (foreach_depth : Nat) → Option instruction
  | .act c, _, _ => some (.act c)
  | .error message, _, _ => some (.error message)
  | .seq s t, ctx, depth =>
    (generate s ctx depth).bind fun i => (generate t ctx depth).map fun j => .seq i j
  | .branch c s t, ctx, depth =>
    (generate s ctx depth).bind fun i => (generate t ctx depth).map fun j => .branch c i j
  | .while_ c s, _, depth => (generate s .LOOP_CONTEXT depth).map fun i => .loop c i
  | .foreach var none expr0 s, _, depth =>
    (foreach_var var).bind fun l =>
      (generate s .LOOP_FOREACH (depth + 1)).map fun block =>
        .seq (i_generate_foreach expr0 l none) (.F_NEXT_FOREACH block)
  | .foreach var (some var2) expr0 s, _, depth =>
    (foreach_var var).bind fun l =>
      (foreach_var var2).bind fun r =>
        (generate s .LOOP_FOREACH (depth + 1)).map fun block =>
          .seq (i_generate_foreach expr0 l (some r)) (.F_NEXT_FOREACH block)
  | .break_, .none, _ => none
  | .break_, .LOOP_CONTEXT, _ => some .jump_break
  | .break_, .LOOP_FOREACH, _ => some (.seq .F_EXIT_FOREACH .jump_break)
  | .continue_, .none, _ => none
  | .continue_, _, _ => some .jump_continue
  | .return_, _, depth => some (i_generate_return depth)

/-! ## The machine -/

/-- Where the next element is taken from: an array, the array of the keys below on the stack, or the
characters of a string. -/
inductive cursor
  | item (arr i : Nat)
  | key (i : Nat)
  | lvalue_byte (s : List Nat)
deriving DecidableEq

/-- An element of the stack, with what a loop has there. -/
inductive slot
  | value (v : svalue_t)
  | indices (item : List svalue_t)
  | counter (subtype : Nat) (u : cursor)
  | lvalue (p : place)
deriving DecidableEq

structure machine where
  store : store
  stack : List slot

inductive outcome
  | normal
  | broken
  | continued
  | returned
  | raised (message : String)
  /-- The stack or an array was not what an instruction takes it for. -/
  | undefined
deriving DecidableEq

/-- The limits of the configuration that count here. -/
structure limits where
  max_array_size : Nat
  small : max_array_size ≤ USHRT_MAX

/-- The text of `CHECK_TYPES(sp, type, 2, F_FOREACH)`, where the text of the value is left out. -/
def bad_argument (expected : String) : String :=
  "Bad argument 2 to foreach\nExpected: " ++ expected ++ " Got: "

section machine

variable (lim : limits) (variable_index_offset : Nat)

def place_of (global : Bool) (byte : Nat) : place :=
  if global then .find_value (byte + variable_index_offset) else .fp byte

def foreach_start (expr0 : store → svalue_t) (flags : Nat) (bytes : List Nat) (m : machine) :
    outcome × machine :=
  let v := expr0 m.store
  let sp := slot.value v :: m.stack
  match bytes with
  | [] => (.undefined, m)
  | byte :: bytes =>
    if flags.testBit 2 then
      match v with
      | .mapping map =>
        let keys := (m.store.nodes map).map Prod.fst
        -- `mapping_indices`
        if keys.length > lim.max_array_size then (.raised "Illegal array size.\n", ⟨m.store, sp⟩)
        else
          match bytes with
          | [] => (.undefined, m)
          | byte2 :: _ =>
            (.normal, ⟨m.store,
              .lvalue (place_of variable_index_offset (flags.testBit 0) byte2) ::
              .lvalue (place_of variable_index_offset (flags.testBit 1) byte) ::
              .counter (ushort keys.length) (.key 0) :: .indices keys :: sp⟩)
      | _ => (.raised (bad_argument "mapping"), ⟨m.store, sp⟩)
    else
      match v with
      | .string s =>
        (.normal, ⟨m.store,
          .lvalue (place_of variable_index_offset (flags.testBit 0) byte) ::
          .counter (ushort s.length) (.lvalue_byte s) :: sp⟩)
      | .array arr =>
        (.normal, ⟨m.store,
          .lvalue (place_of variable_index_offset (flags.testBit 0) byte) ::
          .counter (ushort (m.store.item arr).length) (.item arr 0) :: sp⟩)
      | _ => (.raised (bad_argument "array"), ⟨m.store, sp⟩)

/-- `F_EXIT_FOREACH` -/
def foreach_exit (m : machine) : Option machine :=
  match m.stack with
  | .lvalue _ :: .lvalue _ :: .counter _ _ :: .indices _ :: .value _ :: stack =>
    some { m with stack }
  | .lvalue _ :: .counter _ _ :: .value _ :: stack => some { m with stack }
  | _ => none

/-- `F_NEXT_FOREACH`: whether the block is to be executed. Falls through to `F_EXIT_FOREACH`. -/
def foreach_next (m : machine) : Option (Bool × machine) :=
  match m.stack with
  | .lvalue p2 :: .lvalue p :: .counter subtype (.key i) :: .indices keys ::
      .value (.mapping map) :: stack =>
    if subtype = 0 then (foreach_exit m).map fun m => (false, m)
    else
      keys[i]?.map fun key =>
        let value := find_in_mapping m.store map key
        (true, ⟨(m.store.assign p key).assign p2 value,
          .lvalue p2 :: .lvalue p :: .counter (subtype - 1) (.key (i + 1)) :: .indices keys ::
            .value (.mapping map) :: stack⟩)
  | .lvalue p :: .counter subtype (.lvalue_byte s) :: .value (.string text) :: stack =>
    if subtype = 0 then (foreach_exit m).map fun m => (false, m)
    else
      match s with
      | [] => none
      | c :: s =>
        some (true, ⟨m.store.assign p (.number c),
          .lvalue p :: .counter (subtype - 1) (.lvalue_byte s) :: .value (.string text) :: stack⟩)
  | .lvalue p :: .counter subtype (.item arr i) :: .value v :: stack =>
    if subtype = 0 then (foreach_exit m).map fun m => (false, m)
    else
      (m.store.item arr)[i]?.map fun element =>
        (true, ⟨m.store.assign p element,
          .lvalue p :: .counter (subtype - 1) (.item arr (i + 1)) :: .value v :: stack⟩)
  | _ => none

/-- The rounds of a loop with another test, of which there may be more than can be looked at. -/
def rounds {σ : Type} (c : σ → Bool) (block : σ → Option (outcome × σ)) :
    (fuel : Nat) → σ → Option (outcome × σ)
  | 0, _ => none
  | fuel + 1, s =>
    if c s then
      match block s with
      | some (.normal, s) => rounds c block fuel s
      | some (.continued, s) => rounds c block fuel s
      | some (.broken, s) => some (.normal, s)
      | r => r
    else some (.normal, s)

/-- The rounds of a `foreach`. -/
def foreach_rounds (block : machine → Option (outcome × machine)) :
    (n : Nat) → machine → Option (outcome × machine)
  | 0, m => some (.undefined, m)
  | n + 1, m =>
    match foreach_next m with
    | none => some (.undefined, m)
    | some (false, m) => some (.normal, m)
    | some (true, m) =>
      match block m with
      | some (.normal, m) => foreach_rounds block n m
      | some (.continued, m) => foreach_rounds block n m
      | some (.broken, m) => some (.normal, m)
      | r => r

/-- Running code, in which the loops with another test have so many rounds at most. A counter of 16
bits has no more than 65535 of them before it. -/
def exec (fuel : Nat) : instruction → machine → Option (outcome × machine)
  | .act c, m => some (.normal, { m with store := c.apply m.store })
  | .error message, m => some (.raised message, m)
  | .seq i j, m =>
    match exec fuel i m with
    | some (.normal, m) => exec fuel j m
    | r => r
  | .branch c i j, m => if c m.store then exec fuel i m else exec fuel j m
  | .loop c block, m => rounds (fun m => c m.store) (exec fuel block) fuel m
  | .F_FOREACH expr0 flags bytes, m =>
    some (foreach_start lim variable_index_offset expr0 flags bytes m)
  | .F_NEXT_FOREACH block, m => foreach_rounds (exec fuel block) 65536 m
  | .F_EXIT_FOREACH, m =>
    match foreach_exit m with
    | some m => some (.normal, m)
    | none => some (.undefined, m)
  | .jump_break, m => some (.broken, m)
  | .jump_continue, m => some (.continued, m)
  | .F_RETURN, m => some (.returned, m)

end machine

end mudos.foreach_loop

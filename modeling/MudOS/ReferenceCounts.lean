-- Values and the counts of their blocks: `assign_svalue_no_free`, `assign_svalue`, `push_svalue`,
-- `copy_some_svalues` and `free_svalue` of `interpret.c`, with the `dealloc_` functions they reach.
import MudOS.Library.Runs

namespace mudos.reference_counts

inductive type_t
  | T_STRING
  | T_OBJECT
  | T_CLASS
  | T_ARRAY
  | T_BUFFER
  | T_MAPPING
  | T_FUNCTION
deriving DecidableEq

/-- The type of a counted value is kept with its block. Numbers, reals and the constant strings
have no count. -/
inductive svalue_t
  | number (n : Int)
  | block (a : Nat)
deriving DecidableEq

/-- `ref` is an `unsigned short` at one place in the blocks of all kinds. -/
structure block_t where
  type : type_t
  ref : Nat
  /-- What the `dealloc_` function frees, from the last to the first: the items of an array, the
  values and keys of a mapping, the owner and the arguments of a function. -/
  item : List svalue_t
  allocated : Bool
  /-- `the_null_array` or `null_buf` -/
  null : Bool
  /-- The count of a string has become 0 by one reference too many. -/
  immortal : Bool
deriving DecidableEq

/-- A slot is a variable, an element of the stack or what else holds a value outside of the
blocks. -/
structure memory where
  slots : List svalue_t
  blocks : List block_t
  /-- A block has been used after it had been deallocated. -/
  dangling : Bool
deriving DecidableEq

/-- A place that an `svalue_t *` tells. -/
inductive place
  | slot (i : Nat)
  | item (a i : Nat)
deriving DecidableEq

/-! ## Blocks -/

/-- What an `unsigned short` keeps of a number. -/
def ushort (n : Nat) : Nat := n % 65536

/-- `FREE` -/
def FREE (m : memory) (a : Nat) : memory :=
  { m with blocks := m.blocks.modify a fun b => { b with allocated := false } }

/-- `INC_COUNTED_REF`: a count of 0 stays. -/
def INC_COUNTED_REF (b : block_t) : block_t :=
  if b.ref ≠ 0 then { b with ref := ushort (b.ref + 1), immortal := ushort (b.ref + 1) = 0 } else b

/-- What `assign_svalue_no_free` does to the block of the value. -/
def add_ref (m : memory) : svalue_t → memory
  | .number _ => m
  | .block a =>
    match m.blocks[a]? with
    | none => { m with dangling := true }
    | some b =>
      if !b.allocated then { m with dangling := true }
      else if b.type = .T_STRING then { m with blocks := m.blocks.set a (INC_COUNTED_REF b) }
      else { m with blocks := m.blocks.set a { b with ref := ushort (b.ref + 1) } }

/-- `int_free_svalue`. Only containers have items; an object that gets here is destructed, since
the list of the objects holds a reference too. -/
def free_svalue : (fuel : Nat) → memory → svalue_t → memory
  | 0, m, _ => m
  | _ + 1, m, .number _ => m
  | fuel + 1, m, .block a =>
    match m.blocks[a]? with
    | none => { m with dangling := true }
    | some b =>
      if !b.allocated then { m with dangling := true }
      else if b.type = .T_STRING then
        -- `DEC_COUNTED_REF`
        if b.ref = 0 then m
        else
          let m := { m with blocks := m.blocks.set a { b with ref := b.ref - 1 } }
          if b.ref - 1 > 0 then m else FREE m a
      else
        let ref := ushort (b.ref + 65535)
        let m := { m with blocks := m.blocks.set a { b with ref } }
        if ref ≠ 0 then m
        else if b.null then m
        else FREE (b.item.reverse.foldl (free_svalue fuel) m) a

/-! ## Places -/

def read (m : memory) : place → Option svalue_t
  | .slot i => m.slots[i]?
  | .item a i =>
    match m.blocks[a]? with
    | none => none
    | some b => if b.allocated then b.item[i]? else none

def write (m : memory) (v : svalue_t) : place → memory
  | .slot i => { m with slots := m.slots.set i v }
  | .item a i =>
    { m with blocks := m.blocks.modify a fun b => { b with item := b.item.set i v } }

/-- The place `k` behind another one. -/
def place.add : place → Nat → place
  | .slot i, k => .slot (i + k)
  | .item a i, k => .item a (i + k)

/-- The value is taken out of its place and freed. -/
def free_place (m : memory) (p : place) (old : svalue_t) : memory :=
  free_svalue (m.blocks.length + 1) (write m (.number 0) p) old

/-- The new value is copied to a place that is free. -/
def assign_svalue_no_free (m : memory) (dest «from» : place) : Option memory :=
  match read m dest, read m «from» with
  | some (.number _), some v => some (add_ref (write m v dest) v)
  | _, _ => none

/-- The old value is freed before the new one is read. -/
def assign_svalue (m : memory) (dest «from» : place) : Option memory :=
  match read m dest, read m «from» with
  | some old, some _ =>
    let m := free_place m dest old
    -- what has been freed still stands in its place
    let v := if «from» = dest then some old else read m «from»
    match read m dest, v with
    | some _, some v => some (add_ref (write m v dest) v)
    | _, _ => some { m with dangling := true }
  | _, _ => none

def copy_some_svalues (m : memory) (dest «from» : place) : Nat → Option memory
  | 0 => some m
  | num + 1 =>
    (assign_svalue_no_free m (dest.add num) («from».add num)).bind fun m =>
      copy_some_svalues m dest «from» num

/-! ## Runs -/

/-- The shared array and the shared buffer of size 0. -/
def start : memory where
  slots := []
  blocks := [
    { type := .T_ARRAY, ref := 1, item := [], allocated := true, null := true, immortal := false },
    { type := .T_BUFFER, ref := 1, item := [], allocated := true, null := true, immortal := false }]
  dangling := false

def has_items : type_t → Bool
  | .T_ARRAY | .T_CLASS | .T_MAPPING | .T_FUNCTION => true
  | .T_STRING | .T_OBJECT | .T_BUFFER => false

inductive action
  /-- A new block with so many items, and its first reference on the stack. -/
  | allocate (type : type_t) (n : Nat)
  /-- `allocate_array(0)`, which does not count the reference -/
  | null_array
  /-- `null_buffer()` -/
  | null_buffer
  | push (p : place)
  | assign_no_free (dest «from» : place)
  | assign (dest «from» : place)
  | copy (dest «from» : place) (num : Nat)
  | free (p : place)

def push_svalue (m : memory) (v : svalue_t) : memory := { m with slots := m.slots ++ [v] }

def step (m : memory) : action → Option memory
  | .allocate type n =>
    if (n = 0 ∧ type ≠ .T_ARRAY) ∨ (0 < n ∧ has_items type) then
      let b : block_t :=
        { type
          ref := 1
          item := List.replicate n (.number 0)
          allocated := true
          null := false
          immortal := false }
      some (push_svalue { m with blocks := m.blocks ++ [b] } (.block m.blocks.length))
    else none
  | .null_array => some (push_svalue m (.block 0))
  | .null_buffer => some (add_ref (push_svalue m (.block 1)) (.block 1))
  | .push p =>
    match read m p with
    | some v => some (add_ref (push_svalue m v) v)
    | none => none
  | .assign_no_free dest «from» => assign_svalue_no_free m dest «from»
  | .assign dest «from» => assign_svalue m dest «from»
  | .copy dest «from» num => copy_some_svalues m dest «from» num
  | .free p =>
    match read m p with
    | some v => some (free_place m p v)
    | none => none

end mudos.reference_counts

-- The text that saves a value, and the size of it that is computed before: the two recursions of
-- `object.c`, and the three functions that write the text into a block of this size.
import Mathlib.Data.BitVec

namespace mudos.save_sizes

/-! ## Values -/

inductive unsaved_t
  | T_OBJECT
  | T_FUNCTION
  | T_BUFFER
deriving DecidableEq

/-- A mapping is the list of its nodes, as both loops meet them. -/
inductive svalue_t (R : Type)
  | T_NUMBER (number : BitVec 32)
  | T_REAL (real : R)
  | T_STRING (string : List UInt8)
  | T_ARRAY (item : List (svalue_t R))
  | T_CLASS (item : List (svalue_t R))
  | T_MAPPING (node : List (svalue_t R × svalue_t R))
  | unsaved (kind : unsaved_t)

abbrev MAX_SAVE_SVALUE_DEPTH : Nat := 25

variable {R : Type}

/-! ## The size -/

/-- `res < 0 ? (res = (-res) & 0x7fffffff, ..) : ..` -/
def magnitude (number : BitVec 32) : Nat :=
  if number.toInt < 0 then ((-number) &&& 2147483647).toNat else number.toNat

/-- `while (res>9)` -/
def more_digits (res : Nat) : Nat := if res > 9 then more_digits (res / 10) + 1 else 0
termination_by res

def number_save_size (number : BitVec 32) : BitVec 32 :=
  BitVec.ofNat 32 ((if number.toInt < 0 then 3 else 2) + more_digits (magnitude number))

def chars_save_size : List UInt8 → BitVec 32
  | [] => 0
  | c :: cp => (if c = 92 ∨ c = 34 then 2 else 1) + chars_save_size cp

variable (sprintf : R → List UInt8)

mutual

/-- The size is an `int`; nothing is `too_deep_save_error()`. -/
def svalue_save_size (save_svalue_depth : Nat) : svalue_t R → Option (BitVec 32)
  | .T_STRING string => some (3 + chars_save_size string)
  | .T_ARRAY item =>
    if save_svalue_depth + 1 > MAX_SAVE_SVALUE_DEPTH then none
    else (items_save_size (save_svalue_depth + 1) item).map (· + 5)
  | .T_CLASS item =>
    if save_svalue_depth + 1 > MAX_SAVE_SVALUE_DEPTH then none
    else (items_save_size (save_svalue_depth + 1) item).map (· + 5)
  | .T_MAPPING node =>
    if save_svalue_depth + 1 > MAX_SAVE_SVALUE_DEPTH then none
    else (nodes_save_size (save_svalue_depth + 1) node).map (· + 5)
  | .T_NUMBER number => some (number_save_size number)
  | .T_REAL real => some (BitVec.ofNat 32 ((sprintf real).length + 1))
  | .unsaved _ => some 2

def items_save_size (save_svalue_depth : Nat) : List (svalue_t R) → Option (BitVec 32)
  | [] => some 0
  | sv :: item => do
    let size ← svalue_save_size save_svalue_depth sv
    let rest ← items_save_size save_svalue_depth item
    some (size + rest)

def nodes_save_size (save_svalue_depth : Nat) :
    List (svalue_t R × svalue_t R) → Option (BitVec 32)
  | [] => some 0
  | (key, value) :: node => do
    let size ← svalue_save_size save_svalue_depth key
    let size' ← svalue_save_size save_svalue_depth value
    let rest ← nodes_save_size save_svalue_depth node
    some (size + size' + rest)

end

/-! ## The buffer -/

/-- A block, and what has been written into it up to the pointer. -/
structure buffer_t where
  size : Nat
  text : List UInt8
  inside : text.length ≤ size

def buffer_t.put (buf : buffer_t) (l : List UInt8) : Option buffer_t :=
  if h : (buf.text ++ l).length ≤ buf.size then some ⟨buf.size, buf.text ++ l, h⟩ else none

/-- The zero at the pointer, which stays where it is. -/
def buffer_t.nul (buf : buffer_t) : Option buffer_t :=
  if buf.text.length < buf.size then some buf else none

/-! ## The text -/

/-- The loop that writes the digits from the last one on. -/
def back_digits (res : Nat) : List UInt8 :=
  if res / 10 = 0 then [(res % 10 + 48).toUInt8]
  else back_digits (res / 10) ++ [(res % 10 + 48).toUInt8]
termination_by res

/-- The zero is written first, at the end of so many characters. -/
def save_number (number : BitVec 32) (buf : buffer_t) : Option buffer_t :=
  let res := magnitude number
  let len := (if number.toInt < 0 then 2 else 1) + more_digits res
  if buf.text.length + len < buf.size then
    buf.put ((if number.toInt < 0 then [45] else []) ++ back_digits res)
  else none

def save_chars : List UInt8 → buffer_t → Option buffer_t
  | [], buf => some buf
  | c :: str, buf =>
    if c = 34 ∨ c = 92 then do
      let buf ← buf.put [92]
      let buf ← buf.put [c]
      save_chars str buf
    else do
      let buf ← buf.put [if c = 10 then 13 else c]
      save_chars str buf

mutual

def save_svalue : svalue_t R → buffer_t → Option buffer_t
  | .T_STRING string, buf => do
    let buf ← buf.put [34]
    let buf ← save_chars string buf
    let buf ← buf.put [34]
    buf.nul
  | .T_ARRAY item, buf => do
    let buf ← buf.put [40]
    let buf ← buf.put [123]
    let buf ← save_items item buf
    let buf ← buf.put [125]
    let buf ← buf.put [41]
    buf.nul
  | .T_CLASS item, buf => do
    let buf ← buf.put [40]
    let buf ← buf.put [47]
    let buf ← save_items item buf
    let buf ← buf.put [47]
    let buf ← buf.put [41]
    buf.nul
  | .T_NUMBER number, buf => save_number number buf
  | .T_REAL real, buf => do
    let buf ← buf.put (sprintf real)
    buf.nul
  | .T_MAPPING node, buf => do
    let buf ← buf.put [40]
    let buf ← buf.put [91]
    let buf ← save_nodes node buf
    let buf ← buf.put [93]
    let buf ← buf.put [41]
    buf.nul
  | .unsaved _, buf => some buf

def save_items : List (svalue_t R) → buffer_t → Option buffer_t
  | [], buf => some buf
  | sv :: item, buf => do
    let buf ← save_svalue sv buf
    let buf ← buf.put [44]
    save_items item buf

def save_nodes : List (svalue_t R × svalue_t R) → buffer_t → Option buffer_t
  | [], buf => some buf
  | (key, value) :: node, buf => do
    let buf ← save_svalue key buf
    let buf ← buf.put [58]
    let buf ← save_svalue value buf
    let buf ← buf.put [44]
    save_nodes node buf

end

/-! ## The callers -/

inductive ended_t
  | written (buf : buffer_t)
  | too_deep
  | no_memory
  /-- `EETYPENOTSUPP` -/
  | refused
  /-- The text is written behind its block. -/
  | overrun

def xalloc (size : BitVec 32) : Option Nat := if size.toInt < 0 then none else some size.toNat

def sizeof_malloc_block_t : Nat := 4

/-- The part of the block that is behind its head. -/
def new_string (size : BitVec 32) : Option Nat :=
  (xalloc (size + BitVec.ofNat 32 sizeof_malloc_block_t + 1)).map (· - sizeof_malloc_block_t)

def ended_t.of : Option buffer_t → ended_t
  | some buf => .written buf
  | none => .overrun

/-- `*new_str = '\0'`, and the text from there on. -/
def write_at_start (v : svalue_t R) (size : Nat) : Option buffer_t := do
  let buf ← (buffer_t.mk size [] (Nat.zero_le _)).nul
  save_svalue sprintf v buf

def save_variable (var : svalue_t R) : ended_t :=
  match svalue_save_size sprintf 0 var with
  | none => .too_deep
  | some theSize =>
    match new_string (theSize - 1) with
    | none => .no_memory
    | some size => .of (write_at_start sprintf var size)

/-- `save_object_recurse`, for one variable. -/
def save_object (var : svalue_t R) : ended_t :=
  match svalue_save_size sprintf 0 var with
  | none => .too_deep
  | some theSize =>
    match xalloc theSize with
    | none => .no_memory
    | some size => .of (write_at_start sprintf var size)

def htonl (n : BitVec 32) : List UInt8 :=
  [24, 16, 8, 0].map fun shift => ((n >>> shift).toNat % 256).toUInt8

def socket_write (message : svalue_t R) : ended_t :=
  match message with
  | .unsaved .T_OBJECT => .refused
  | message =>
    match svalue_save_size sprintf 0 message with
    | none => .too_deep
    | some len =>
      match xalloc (len + 5) with
      | none => .no_memory
      | some size => .of do
        let buf ← (buffer_t.mk size [] (Nat.zero_le _)).put (htonl len)
        let buf ← buf.nul
        save_svalue sprintf message buf

/-! ## What the text is -/

def number_text (number : BitVec 32) : List UInt8 :=
  (if number.toInt < 0 then [45] else []) ++ back_digits (magnitude number)

def char_text (c : UInt8) : List UInt8 :=
  if c = 34 ∨ c = 92 then [92, c] else [if c = 10 then 13 else c]

mutual

def svalue_t.text : svalue_t R → List UInt8
  | .T_STRING string => [34] ++ string.flatMap char_text ++ [34]
  | .T_ARRAY item => [40, 123] ++ items_text item ++ [125, 41]
  | .T_CLASS item => [40, 47] ++ items_text item ++ [47, 41]
  | .T_NUMBER number => number_text number
  | .T_REAL real => sprintf real
  | .T_MAPPING node => [40, 91] ++ nodes_text node ++ [93, 41]
  | .unsaved _ => []

def items_text : List (svalue_t R) → List UInt8
  | [] => []
  | sv :: item => sv.text ++ [44] ++ items_text item

def nodes_text : List (svalue_t R × svalue_t R) → List UInt8
  | [] => []
  | (key, value) :: node => key.text ++ [58] ++ value.text ++ [44] ++ nodes_text node

end

mutual

/-- How many values without a text are in a value. -/
def svalue_t.gaps : svalue_t R → Nat
  | .T_ARRAY item => items_gaps item
  | .T_CLASS item => items_gaps item
  | .T_MAPPING node => nodes_gaps node
  | .unsaved _ => 1
  | .T_STRING _ => 0
  | .T_NUMBER _ => 0
  | .T_REAL _ => 0

def items_gaps : List (svalue_t R) → Nat
  | [] => 0
  | sv :: item => sv.gaps + items_gaps item

def nodes_gaps : List (svalue_t R × svalue_t R) → Nat
  | [] => 0
  | (key, value) :: node => key.gaps + value.gaps + nodes_gaps node

end

mutual

def svalue_t.nesting : svalue_t R → Nat
  | .T_ARRAY item => items_nesting item + 1
  | .T_CLASS item => items_nesting item + 1
  | .T_MAPPING node => nodes_nesting node + 1
  | .unsaved _ => 0
  | .T_STRING _ => 0
  | .T_NUMBER _ => 0
  | .T_REAL _ => 0

def items_nesting : List (svalue_t R) → Nat
  | [] => 0
  | sv :: item => max sv.nesting (items_nesting item)

def nodes_nesting : List (svalue_t R × svalue_t R) → Nat
  | [] => 0
  | (key, value) :: node => max (max key.nesting value.nesting) (nodes_nesting node)

end

def svalue_t.text_size (v : svalue_t R) : Nat := (v.text sprintf).length + 1

/-- The text is no longer than its size, and no caller writes behind its block. -/
structure Bounded (v : svalue_t R) : Prop where
  size : ∀ save_svalue_depth size, svalue_save_size sprintf save_svalue_depth v = some size →
    (v.text_size sprintf : Int) ≤ size.toInt
  save_variable : save_variable sprintf v ≠ .overrun
  save_object : save_object sprintf v ≠ .overrun
  socket_write : socket_write sprintf v ≠ .overrun

end mudos.save_sizes

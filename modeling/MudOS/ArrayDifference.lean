-- The difference of two arrays: `alist_sort` and `subtract_array` of `array.c`, with the table
-- of shared strings and the flags of the objects as they are during the call.
import Mathlib.Data.List.Basic

namespace mudos.array_difference

/-! ## Values -/

/-- The types that have no case of their own below. -/
inductive ref_t
  | T_ARRAY
  | T_MAPPING
  | T_FUNCTION
  | T_BUFFER
  | T_CLASS
deriving DecidableEq

def ref_t.code : ref_t → Int
  | .T_ARRAY => 0x8
  | .T_MAPPING => 0x20
  | .T_FUNCTION => 0x40
  | .T_BUFFER => 0x100
  | .T_CLASS => 0x200

inductive svalue_t
  | number (n : BitVec 32)
  /-- A string is `STRING_SHARED` or is not. -/
  | string (shared : Bool) (text : List UInt8)
  | object (ob : BitVec 32)
  | ref (type : ref_t) (address : BitVec 32)
deriving DecidableEq

def svalue_t.type : svalue_t → Int
  | .number _ => 0x2
  | .string _ _ => 0x4
  | .object _ => 0x10
  | .ref type _ => type.code

def const0 : svalue_t := .number 0

structure memory where
  /-- The flag `O_DESTRUCTED` of an object. -/
  destructed : BitVec 32 → Bool
  /-- The shared strings. -/
  strings : List UInt8 → Option (BitVec 32)
  /-- Where a text is put that is not shared yet. -/
  malloc : List UInt8 → BitVec 32

variable (m : memory)

def make_shared_string (text : List UInt8) : BitVec 32 := (m.strings text).getD (m.malloc text)

/-- The member `u` of the value, as a number. -/
def svalue_t.u : svalue_t → BitVec 32
  | .number n => n
  | .string _ text => make_shared_string m text
  | .object ob => ob
  | .ref _ address => address

def alist_cmp (p1 p2 : svalue_t) : Int :=
  let d := (p1.u m - p2.u m).toInt
  if d ≠ 0 then d else p1.type - p2.type

/-! ## Sorting -/

def alist_element : svalue_t → svalue_t
  | .object ob => if m.destructed ob then const0 else .object ob
  | .string _ text => .string true text
  | v => v

/-- The slots of the heap, some of them `T_INVALID`. -/
abbrev sv_tab_t := Nat → Option svalue_t

/-- Is the first slot above the second in the order? -/
def above (sv_tab : sv_tab_t) (i j : Nat) : Bool :=
  match sv_tab i, sv_tab j with
  | some p1, some p2 => alist_cmp m p1 p2 > 0
  | _, _ => false

/-- From `curix` to the root, in so many steps at most. -/
def sift_up (val : svalue_t) : Nat → Nat → sv_tab_t → sv_tab_t
  | 0, _, sv_tab => sv_tab
  | steps + 1, curix, sv_tab =>
    let parix := (curix - 1) / 2
    let sv_tab :=
      if above m sv_tab parix curix then
        Function.update (Function.update sv_tab curix (sv_tab parix)) parix (some val)
      else sv_tab
    if parix = 0 then sv_tab else sift_up val steps parix sv_tab

def heap_insert (sv_tab : sv_tab_t) (j : Nat) (v : svalue_t) : sv_tab_t :=
  let val := alist_element m v
  let sv_tab := Function.update sv_tab j (some val)
  if j = 0 then sv_tab else sift_up m val j j sv_tab

/-- The elements from `j` on. -/
def heap_build : List svalue_t → Nat → sv_tab_t → sv_tab_t
  | [], _, sv_tab => sv_tab
  | v :: inlist, j, sv_tab => heap_build inlist (j + 1) (heap_insert m sv_tab j v)

def least_child (size : Nat) (sv_tab : sv_tab_t) (curix : Nat) : Nat :=
  let child1 := curix * 2 + 1
  let child2 := child1 + 1
  if child2 < size ∧ (sv_tab child2).isSome ∧
      ((sv_tab child1).isNone ∨ above m sv_tab child1 child2) then child2
  else child1

/-- From `curix` to a leaf, which is `T_INVALID` then. -/
def sift_down (size : Nat) : Nat → Nat → sv_tab_t → sv_tab_t
  | 0, _, sv_tab => sv_tab
  | steps + 1, curix, sv_tab =>
    let child := least_child m size sv_tab curix
    if child < size ∧ (sv_tab child).isSome then
      sift_down size steps child (Function.update sv_tab curix (sv_tab child))
    else Function.update sv_tab curix none

/-- So many elements of the table, the least first. -/
def heap_take (size : Nat) : Nat → sv_tab_t → List svalue_t
  | 0, _ => []
  | left + 1, sv_tab =>
    match sv_tab 0 with
    | none => []
    | some v => v :: heap_take size left (sift_down m size size 0 sv_tab)

def alist_sort (inlist : List svalue_t) : List svalue_t :=
  heap_take m inlist.length inlist.length (heap_build m inlist 0 fun _ => none)

/-! ## Searching -/

/-- Is the value found between `l` and `h`, in so many steps at most? -/
def alist_search (svt : List svalue_t) (source : svalue_t) : Nat → Nat → Int → Bool
  | 0, _, _ => false
  | steps + 1, l, h =>
    let o := ((l + h) / 2).toNat
    match svt[o]? with
    | none => false
    | some v =>
      let d := alist_cmp m source v
      if d = 0 then true
      else if d < 0 then
        if (l : Int) > o - 1 then false else alist_search svt source steps l (o - 1)
      else if (o + 1 : Int) > h then false
      else alist_search svt source steps (o + 1) h

def is_found (svt : List svalue_t) (source : svalue_t) : Bool :=
  alist_search m svt source svt.length 0 (svt.length - 1)

/-- The texts of the second array are shared strings by now. -/
def findstring (subtrahend : List svalue_t) (text : List UInt8) : Bool :=
  (m.strings text).isSome || subtrahend.any fun v =>
    match v with
    | .string _ t => t = text
    | _ => false

/-- What is kept of an element of the first array. -/
def subtract_element (subtrahend svt : List svalue_t) : svalue_t → Option svalue_t
  | .object ob =>
    let source := if m.destructed ob then const0 else .object ob
    if is_found m svt source then none else some source
  | .string false text =>
    if findstring m subtrahend text && is_found m svt (.string true text) then none
    else some (.string false text)
  | source => if is_found m svt source then none else some source

def subtract_array (minuend subtrahend : List svalue_t) : List svalue_t :=
  if subtrahend = [] then minuend
  else minuend.filterMap (subtract_element m subtrahend (alist_sort m subtrahend))

/-! ## What values are -/

/-- A value as LPC sees it: a destructed object is 0. -/
inductive value_t
  | number (n : BitVec 32)
  | string (text : List UInt8)
  | object (ob : BitVec 32)
  | ref (type : ref_t) (address : BitVec 32)
deriving DecidableEq

def value : svalue_t → value_t
  | .number n => .number n
  | .string _ text => .string text
  | .object ob => if m.destructed ob then .number 0 else .object ob
  | .ref type address => .ref type address

end mudos.array_difference

-- The range operators: `f_range` and `f_extract_range` of `eoperators.c`.
import MudOS.Library.Ints
import MudOS.ArrayBlocks

open mudos.ints
open mudos.reference_counts
open mudos.array_blocks

namespace mudos.ranges

inductive value_t
  | T_NUMBER (number : Int)
  | T_STRING (string : List UInt8)
  | T_BUFFER (item : List UInt8)
  | T_ARRAY (arr : Nat)
  | other

structure limits_t where
  max_array_size : Int
  max_buffer_size : Int
  max_string_length : Int

abbrev Result := memory × Except String value_t

/-! ## Strings and buffers -/

def string_copy (max_string_length : Int) (str : List UInt8) : List UInt8 :=
  if max_string_length < str.length then str.take max_string_length.toNat else str

def null_buffer : List UInt8 := []

/-- `allocate_buffer`, and the `memcpy` of so many bytes to it. -/
def buffer_copy (max_buffer_size : Int) (item : List UInt8) («from» size : Int) :
    Except String (List UInt8) :=
  if size < 0 ∨ max_buffer_size < size then .error "Illegal buffer size.\n"
  else .ok ((item.drop «from».toNat).take size.toNat)

def from_end (flag : Bool) (len index : Int) : Int :=
  if flag then int32 (len - index) else index

def string_range (max_string_length : Int) (code : Nat) (res : List UInt8) («from» «to» : Int) :
    List UInt8 :=
  let len : Int := res.length
  let «to» := from_end (code &&& 0x01 ≠ 0) len «to»
  let «from» := from_end (code &&& 0x10 ≠ 0) len «from»
  let «from» := if «from» < 0 then 0 else «from»
  if «to» < «from» ∨ len ≤ «from» then []
  else if len - 1 ≤ «to» then string_copy max_string_length (res.drop «from».toNat)
  else (res.drop «from».toNat).take («to» - «from» + 1).toNat

def buffer_range (max_buffer_size : Int) (code : Nat) (rbuf : List UInt8) («from» «to» : Int) :
    Except String (List UInt8) :=
  let len : Int := rbuf.length
  let «to» := from_end (code &&& 0x01 ≠ 0) len «to»
  let «from» := from_end (code &&& 0x10 ≠ 0) len «from»
  let «from» := if «from» < 0 then 0 else «from»
  if «to» < «from» ∨ len ≤ «from» then .ok null_buffer
  else
    let «to» := if len ≤ «to» then len - 1 else «to»
    buffer_copy max_buffer_size rbuf «from» («to» - «from» + 1)

def string_extract_range (max_string_length : Int) (code : Nat) (res : List UInt8) («from» : Int) :
    List UInt8 :=
  let len : Int := res.length
  let «from» := from_end (code ≠ 0) len «from»
  let «from» := if «from» < 0 then 0 else «from»
  if len ≤ «from» then [] else string_copy max_string_length (res.drop «from».toNat)

def buffer_extract_range (max_buffer_size : Int) (code : Nat) (rbuf : List UInt8) («from» : Int) :
    Except String (List UInt8) :=
  let len : Int := rbuf.length
  let «from» := from_end (code ≠ 0) len «from»
  let «from» := if «from» < 0 then 0 else «from»
  let «from» := if len < «from» then len else «from»
  buffer_copy max_buffer_size rbuf «from» (len - «from»)

/-! ## The operators -/

def put_array (outcome : Option Outcome) : Option Result :=
  outcome.map fun (m, result) => (m, result.map .T_ARRAY)

/-- The value is above the end of the range, and that above its start. -/
def f_range (limits : limits_t) (code : Nat) (m : memory) (start stop value : value_t) :
    Option Result :=
  match start, stop with
  | .T_NUMBER «from», .T_NUMBER «to» =>
    match value with
    | .T_STRING res =>
      some (m, .ok (.T_STRING (string_range limits.max_string_length code res «from» «to»)))
    | .T_BUFFER rbuf =>
      some (m, (buffer_range limits.max_buffer_size code rbuf «from» «to»).map .T_BUFFER)
    | .T_ARRAY v =>
      (array_at m v).bind fun b =>
        let «to» := from_end (code &&& 0x01 ≠ 0) (size b) «to»
        let «from» := from_end (code &&& 0x10 ≠ 0) (size b) «from»
        put_array (slice_array limits.max_array_size m v «from» «to»)
    | _ => some (m, .error "Bad argument to [ .. ] range operator.\n")
  | .T_NUMBER _, _ => some (m, .error "End of range [ .. ] interval must be a number.\n")
  | _, _ => some (m, .error "Start of range [ .. ] interval must be a number.\n")

def f_extract_range (limits : limits_t) (code : Nat) (m : memory) (start value : value_t) :
    Option Result :=
  match start with
  | .T_NUMBER «from» =>
    match value with
    | .T_STRING res =>
      some (m, .ok (.T_STRING (string_extract_range limits.max_string_length code res «from»)))
    | .T_BUFFER rbuf =>
      some (m, (buffer_extract_range limits.max_buffer_size code rbuf «from»).map .T_BUFFER)
    | .T_ARRAY v =>
      (array_at m v).bind fun b =>
        let «from» := from_end (code ≠ 0) (size b) «from»
        put_array (slice_array limits.max_array_size m v «from» (size b - 1))
    | _ => some (m, .error "Bad argument to [ .. ] range operator.\n")
  | _ => some (m, .error "Start of range [ .. ] interval must be a number.\n")

end mudos.ranges
